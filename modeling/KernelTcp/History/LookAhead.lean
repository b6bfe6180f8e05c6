import KernelTcp.History.Main

/-! The orders of a checkout depend on the checkouts before the history index, and
otherwise only on which test files the checkouts have and when they were committed. -/
namespace KernelTcp.History
open CiObjects

def filePaths (c : Checkout) : List (Option Str) := c.getAllTestcases.map Test.filePath
def statuses (c : Checkout) : List Status := c.getAllTestcases.map Test.status

structure AgreeBefore (index : Nat) (cs other : List Checkout) : Prop where
  count : cs.length = other.length
  times : ∀ {n : Nat} {c d : Checkout}, cs[n]? = some c → other[n]? = some d →
    c.dbInstance.gitCommitDatetime = d.dbInstance.gitCommitDatetime
  paths : ∀ {n : Nat} {c d : Checkout}, cs[n]? = some c → other[n]? = some d → filePaths c = filePaths d
  outcomes : ∀ {n : Nat} {c d : Checkout}, n < index → cs[n]? = some c → other[n]? = some d → statuses c = statuses d

def ordersFor (argsort : List ℚ → List Nat) (ciObjs : List Checkout) (history : Int) (i : Nat) :
    Except PyError (List (List Nat)) := do
  let m ← extract ciObjs
  let ciObj ← Py.getItem ciObjs i
  let out ← prioritise argsort m (i - history) ciObj
  .ok out.2

theorem foundSame (k : Option Str) {ts us : List Test} (paths : ts.map Test.filePath = us.map Test.filePath)
    (outcomes : ts.map Test.status = us.map Test.status) :
    (ts.find? (fun tc => tc.filePath = k)).map Test.isFailed = (us.find? (fun tc => tc.filePath = k)).map Test.isFailed := by
  induction ts generalizing us with
  | nil => rw [List.map_eq_nil_iff.mp paths.symm]
  | cons t ts ih =>
    cases us with
    | nil => simp at paths
    | cons u us =>
      simp only [List.map_cons,List.cons.injEq] at paths outcomes
      rw [List.find?_cons,List.find?_cons,paths.1]
      split
      · exact congrArg some (congrArg Status.isFailed outcomes.1)
      · exact ih paths.2 outcomes.2

theorem cellSame (k : Option Str) {c d : Checkout}
    (time : c.dbInstance.gitCommitDatetime = d.dbInstance.gitCommitDatetime) (paths : filePaths c = filePaths d)
    (outcomes : statuses c = statuses d) : cell k c = cell k d := by
  unfold cell Checkout.getCaseByFilePath
  rw [time,foundSame k paths outcomes]

theorem cellsSame {index : Nat} {cs other : List Checkout} (agree : AgreeBefore index cs other) (k : Option Str) :
    cells k (cs.take index) = cells k (other.take index) := by
  apply List.ext_getElem?
  intro n
  unfold cells
  rw [List.getElem?_map,List.getElem?_map,List.getElem?_take,List.getElem?_take]
  split
  · rename_i before
    cases here : cs[n]? with
    | none =>
      have outside : other[n]? = none := by
        rw [List.getElem?_eq_none_iff] at here ⊢
        rw [← agree.count]
        exact here
      rw [outside]
    | some c =>
      have inside : n < other.length := agree.count ▸ (List.getElem?_eq_some_iff.mp here).1
      have there : other[n]? = some other[n] := List.getElem?_eq_getElem inside
      rw [there]
      exact congrArg some (cellSame k (agree.times here there) (agree.paths here there) (agree.outcomes before here there))
  · rfl

def rowOf (now : Int) (r : Record) : List ℚ :=
  [r.failedCount,timeSince now r.lastFailureTime,if r.executedCount = 0 then 0 else r.failedCount / r.executedCount,
    r.exdValue,r.rocketValue,timeSince now r.lastExecutedTime]

theorem historyRowExact {cs : List Checkout} {m : Manager} (tracks : Tracks cs cs.length m) (now : Int) {index : Nat}
    (inside : index ≤ cs.length) {tc : Test} (known : tc.filePath ∈ m.keys) :
    historyRow m now index tc = .ok (rowOf now (recordAfter (cells tc.filePath (cs.take index)))) := by
  have entry : ∀ {β : Type} (f : Record → β), Py.getItem ((recordsUpTo tc.filePath cs cs.length).map f) index =
      .ok (f (recordAfter (cells tc.filePath (cs.take index)))) := by
    intro β f
    apply Py.getItemInside
    unfold recordsUpTo
    rw [List.getElem?_map,List.getElem?_map,List.getElem?_range (by omega)]
    rfl
  unfold historyRow
  rw [tracks.series _ known]
  simp only [Py.raiseNone,bind,Except.bind,seriesOf,entry]
  rfl

theorem ordersForExact (argsort : List ℚ → List Nat) {cs : List Checkout} {history i : Nat} (later : history < i)
    {c : Checkout} (here : cs[i]? = some c) :
    ordersFor argsort cs history i = .ok (orderArr argsort ((filePaths c).map (fun p =>
      rowOf c.dbInstance.gitCommitDatetime (recordAfter (cells p (cs.take (i - history))))))) := by
  obtain ⟨m,extracted,tracks⟩ := extractTracks cs
  have inside := (List.getElem?_eq_some_iff.mp here).1
  have index : (i : Int) - history = (i - history : Nat) := by omega
  have rows : ∀ e ∈ c.getAllTestcases.zipIdx,
      historyRow m c.dbInstance.gitCommitDatetime ((i - history : Nat) : Int) e.1 =
        .ok (rowOf c.dbInstance.gitCommitDatetime (recordAfter (cells e.1.filePath (cs.take (i - history))))) := by
    intro e he
    apply historyRowExact tracks _ (by omega)
    rw [tracks.keys,initKeys]
    exact ⟨e.1,List.mem_flatMap.mpr ⟨c,List.mem_of_getElem? here,List.fst_mem_of_mem_zipIdx he⟩,rfl⟩
  unfold ordersFor prioritise
  rw [extracted]
  simp only [bind,Except.bind,Py.getItemInside here,index]
  rw [historyLoop (fun tc => rowOf c.dbInstance.gitCommitDatetime
    (recordAfter (cells tc.filePath (cs.take (i - history))))) rows]
  simp only [List.nil_append,filePaths,List.map_map]
  have table : c.getAllTestcases.zipIdx.map (fun e => rowOf c.dbInstance.gitCommitDatetime
      (recordAfter (cells e.1.filePath (cs.take (i - history))))) = (c.getAllTestcases.zipIdx.map Prod.fst).map
        (fun tc => rowOf c.dbInstance.gitCommitDatetime (recordAfter (cells tc.filePath (cs.take (i - history))))) := by
    rw [List.map_map]
    rfl
  rw [table,List.zipIdx_map_fst]
  rfl

theorem sixOrders (argsort : List ℚ → List Nat) {rows : List (List ℚ)} (some : rows ≠ [])
    (wide : ∀ row ∈ rows, row.length = 6) : (orderArr argsort rows).length = 6 := by
  unfold orderArr
  rw [List.length_map]
  exact (Py.transposeColumns some wide).1

/-- The orders computed for a checkout are the same whatever happened in the checkouts
from the history index on. -/
theorem noLookAhead (argsort : List ℚ → List Nat) {cs other : List Checkout} {history i : Nat} (later : history < i)
    {c : Checkout} (here : cs[i]? = some c) (agree : AgreeBefore (i - history) cs other) :
    ∃ orders, ordersFor argsort cs history i = .ok orders ∧ ordersFor argsort other history i = .ok orders ∧
      (c.getAllTestcases ≠ [] → orders.length = 6) := by
  have inside := (List.getElem?_eq_some_iff.mp here).1
  have there : other[i]? = some (other.get ⟨i,agree.count ▸ inside⟩) := List.getElem?_eq_getElem _
  refine ⟨_,ordersForExact argsort later here,?_,?_⟩
  · rw [ordersForExact argsort later there,← agree.times here there,← agree.paths here there]
    simp only [cellsSame agree]
  · intro tests
    apply sixOrders
    · simpa [filePaths] using tests
    · intro row mem
      obtain ⟨p,_,rfl⟩ := List.mem_map.mp mem
      rfl

def caseAt (path : String) (status : Status) : Test := ⟨⟨[],none,[],path.toList,none⟩,some path.toList,status⟩

def twoCases (sha : String) (time : Int) (first second : Status) : Checkout :=
  ⟨⟨sha.toList,time⟩,[⟨⟨.text [],[]⟩,[⟨[caseAt "a.c" first,caseAt "b.c" second]⟩],[],none⟩]⟩

def laterFailure : List Checkout := [twoCases "0" 0 .success .failure,twoCases "1" 86400000000 .failure .failure]

def laterSuccess : List Checkout := [twoCases "0" 0 .success .failure,twoCases "1" 86400000000 .success .success]

theorem laterSuccessSameOrders : AgreeBefore 1 laterFailure laterSuccess ∧
    (ordersFor stableArgsort laterFailure (0 : Nat) 1).map (fun orders => orders.head?) = .ok (some [1,0]) ∧
    ∃ orders, ordersFor stableArgsort laterFailure (0 : Nat) 1 = .ok orders ∧
      ordersFor stableArgsort laterSuccess (0 : Nat) 1 = .ok orders ∧ orders.length = 6 := by
  have pairs : ∀ {n : Nat} {c d : Checkout}, laterFailure[n]? = some c → laterSuccess[n]? = some d →
      (n = 0 ∧ c = d) ∨ (n = 1 ∧ c = twoCases "1" 86400000000 .failure .failure ∧ d = twoCases "1" 86400000000 .success .success) := by
    intro n c d first second
    rcases n with _ | _ | n
    · exact Or.inl ⟨rfl,Option.some.inj (first.symm.trans second)⟩
    · exact Or.inr ⟨rfl,(Option.some.inj first).symm,(Option.some.inj second).symm⟩
    · simp [laterFailure] at first
  have agree : AgreeBefore 1 laterFailure laterSuccess := by
    refine ⟨rfl,?_,?_,?_⟩
    · intro n c d first second
      rcases pairs first second with ⟨_,rfl⟩ | ⟨_,rfl,rfl⟩ <;> rfl
    · intro n c d first second
      rcases pairs first second with ⟨_,rfl⟩ | ⟨_,rfl,rfl⟩ <;> rfl
    · intro n c d before first second
      rcases pairs first second with ⟨_,rfl⟩ | ⟨one,_⟩
      · rfl
      · omega
  obtain ⟨orders,first,second,six⟩ := noLookAhead stableArgsort (show 0 < 1 by decide)
    (show laterFailure[1]? = some (twoCases "1" 86400000000 .failure .failure) from rfl) agree
  exact ⟨agree,by decide +kernel,orders,first,second,six (by decide)⟩

end KernelTcp.History

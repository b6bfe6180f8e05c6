import KernelTcp.EHelper
import KernelTcp.History.Extract
import Mathlib.Data.List.Sort

/-! The evaluation loop of the history experiment. `argsort` is numpy's argsort of one
column; along axis 0 it sorts the columns of the table one by one. -/
namespace KernelTcp.History
open CiObjects

def days (delta : Int) : Int := delta / 86400000000

def timeSince (now : Int) : Option Int → Int
  | none => 0
  | some time => days (now - time)

def historyRow (m : Manager) (now : Int) (hisIndex : Int) (tc : Test) : Except PyError (List ℚ) := do
  let s ← Py.raiseNone .keyError (m.get? tc.filePath)
  let lastFailure ← Py.getItem s.lastFailureTime hisIndex
  let lastExecuted ← Py.getItem s.lastExecutedTime hisIndex
  let executed ← Py.getItem s.executedCount hisIndex
  let failed ← Py.getItem s.failedCount hisIndex
  let failedRate : ℚ := if executed = 0 then 0 else failed / executed
  let exd ← Py.getItem s.exdValue hisIndex
  let rocket ← Py.getItem s.rocketValue hisIndex
  .ok [failed,timeSince now lastFailure,failedRate,exd,rocket,timeSince now lastExecuted]

def addFault (faultsArr : List Nat) (e : Test × Nat) : List Nat :=
  if e.1.isFailed then faultsArr ++ [e.2] else faultsArr

-- the loop that fills the table visits the failed test cases a second time
def historyStep (m : Manager) (now : Int) (hisIndex : Int) (s : List Nat × List (List ℚ)) (e : Test × Nat) :
    Except PyError (List Nat × List (List ℚ)) := do
  let row ← historyRow m now hisIndex e.1
  .ok (addFault s.1 e,s.2 ++ [row])

def orderArr (argsort : List ℚ → List Nat) (hisArr : List (List ℚ)) : List (List Nat) :=
  (Py.transpose hisArr).map (fun column => (argsort column).reverse)

def prioritise (argsort : List ℚ → List Nat) (m : Manager) (hisIndex : Int) (ciObj : Checkout) :
    Except PyError (List Nat × List (List Nat)) := do
  let allCases := ciObj.getAllTestcases.zipIdx
  let looped ← allCases.foldlM (historyStep m ciObj.dbInstance.gitCommitDatetime hisIndex)
    (allCases.foldl addFault [],[])
  .ok (looped.1,orderArr argsort looped.2)

structure Evaluation where
  gitSha : Str
  orders : List (List Nat)
  apfd : List ℚ
  deriving DecidableEq

def evaluate (argsort : List ℚ → List Nat) (m : Manager) (ciObjs : List Checkout) (history : Int) (i : Nat) :
    Except PyError (Option Evaluation) :=
  if i = 0 then .ok none
  else if i ≤ history then .ok none
  else do
    let ciObj ← Py.getItem ciObjs i
    if (ciObj.getAllTestcases.zipIdx.foldl addFault []).length = 0 then .ok none
    else do
      let out ← prioritise argsort m (i - history) ciObj
      let apfd ← (List.range 6).mapM (fun (j : Nat) => do
        let order ← Py.getItem out.2 j
        .ok (EHelper.apfd out.1 order))
      .ok (some ⟨ciObj.dbInstance.gitSha,out.2,apfd⟩)

def faults (c : Checkout) : List Nat := (c.getAllTestcases.zipIdx.filter (fun e => e.1.isFailed)).map Prod.snd

theorem addFaults (found : List Nat) (es : List (Test × Nat)) :
    es.foldl addFault found = found ++ (es.filter (fun e => e.1.isFailed)).map Prod.snd := by
  induction es generalizing found with
  | nil => simp
  | cons e es ih =>
    rw [List.foldl_cons,ih,addFault]
    cases failed : e.1.isFailed <;> simp [failed]

theorem historyLoop {m : Manager} {now hisIndex : Int} (row : Test → List ℚ) {es : List (Test × Nat)}
    (rows : ∀ e ∈ es, historyRow m now hisIndex e.1 = .ok (row e.1)) (s : List Nat × List (List ℚ)) :
    es.foldlM (historyStep m now hisIndex) s = .ok (es.foldl addFault s.1,s.2 ++ es.map (fun e => row e.1)) := by
  induction es generalizing s with
  | nil => simp [pure,Except.pure]
  | cons e es ih =>
    have step : historyStep m now hisIndex s e = .ok (addFault s.1 e,s.2 ++ [row e.1]) := by
      unfold historyStep
      rw [rows e (by simp)]
      rfl
    rw [List.foldlM_cons,step]
    simp only [bind,Except.bind,ih (fun x hx => rows x (by simp [hx])),List.foldl_cons,List.map_cons,
      List.append_assoc,List.singleton_append]

theorem rowWidth {m : Manager} {now hisIndex : Int} {tc : Test} {row : List ℚ}
    (made : historyRow m now hisIndex tc = .ok row) : row.length = 6 := by
  unfold historyRow at made
  simp only [Py.bindOk] at made
  obtain ⟨_,_,_,_,_,_,_,_,_,_,_,_,_,_,last⟩ := made
  cases Except.ok.inj last
  rfl

theorem historyLoopDone {m : Manager} {now hisIndex : Int} {es : List (Test × Nat)} {s out : List Nat × List (List ℚ)}
    (done : es.foldlM (historyStep m now hisIndex) s = .ok out) :
    out.1 = es.foldl addFault s.1 ∧ out.2.length = s.2.length + es.length ∧
      ((∀ row ∈ s.2, row.length = 6) → ∀ row ∈ out.2, row.length = 6) := by
  induction es generalizing s with
  | nil =>
    cases Except.ok.inj done
    exact ⟨rfl,rfl,id⟩
  | cons e es ih =>
    rw [List.foldlM_cons] at done
    obtain ⟨next,step,rest⟩ := Py.bindOk.mp done
    obtain ⟨row,made,last⟩ := Py.bindOk.mp step
    cases Except.ok.inj last
    obtain ⟨faulty,size,wide⟩ := ih rest
    refine ⟨faulty,?_,?_⟩
    · rw [size,List.length_append,List.length_singleton,List.length_cons]
      omega
    · intro before
      apply wide
      intro x hx
      rcases List.mem_append.mp hx with old | new
      · exact before x old
      · rw [List.mem_singleton.mp new]
        exact rowWidth made

theorem prioritiseDone {argsort : List ℚ → List Nat} (sorts : ∀ column, (argsort column).Perm (List.range column.length))
    {m : Manager} {hisIndex : Int} {c : Checkout} {out : List Nat × List (List Nat)}
    (done : prioritise argsort m hisIndex c = .ok out) :
    out.1 = faults c ++ faults c ∧ ∀ order ∈ out.2, order.Perm (List.range c.getAllTestcases.length) := by
  obtain ⟨looped,run,last⟩ := Py.bindOk.mp done
  cases Except.ok.inj last
  obtain ⟨twice,size,wide⟩ := historyLoopDone run
  have rows := wide (by simp)
  have count : looped.2.length = c.getAllTestcases.length := by simpa using size
  refine ⟨?_,?_⟩
  · rw [twice,addFaults,addFaults]
    rfl
  · intro order mem
    obtain ⟨column,hc,rfl⟩ := List.mem_map.mp mem
    have some : looped.2 ≠ [] := by
      intro none
      rw [none] at hc
      simp [Py.transpose] at hc
    have tall := (Py.transposeColumns some rows).2 column hc
    rw [← count,← tall]
    exact (List.reverse_perm _).trans (sorts column)

theorem faultInside {c : Checkout} {j : Nat} (mem : j ∈ faults c) : j < c.getAllTestcases.length := by
  obtain ⟨e,he,rfl⟩ := List.mem_map.mp mem
  have inside := List.snd_lt_of_mem_zipIdx (List.mem_filter.mp he).1
  simpa using inside

theorem evaluateDone {argsort : List ℚ → List Nat} {m : Manager} {ciObjs : List Checkout} {history : Int} {i : Nat}
    {e : Evaluation} (evaluated : evaluate argsort m ciObjs history i = .ok (some e)) :
    ∃ c faultsArr, ciObjs[i]? = some c ∧ faults c ≠ [] ∧
      prioritise argsort m (i - history) c = .ok (faultsArr,e.orders) ∧
      ∀ j < 6, ∃ order v, e.orders[j]? = some order ∧ e.apfd[j]? = some v ∧ v = EHelper.apfd faultsArr order := by
  unfold evaluate at evaluated
  split at evaluated
  · simp at evaluated
  split at evaluated
  · simp at evaluated
  obtain ⟨c,here,rest⟩ := Py.bindOk.mp evaluated
  split at rest
  · simp at rest
  rename_i failing
  obtain ⟨out,ordered,rest⟩ := Py.bindOk.mp rest
  obtain ⟨values,scored,last⟩ := Py.bindOk.mp rest
  cases Except.ok.inj last
  refine ⟨c,out.1,Py.getItemFound here,?_,ordered,?_⟩
  · intro none
    rw [addFaults,List.nil_append] at failing
    exact failing (List.length_eq_zero_iff.mpr none)
  · intro j inside
    obtain ⟨v,there,value⟩ := Py.mapMAt scored (List.getElem?_range inside)
    obtain ⟨order,found,score⟩ := Py.bindOk.mp value
    exact ⟨order,v,Py.getItemFound found,there,(Except.ok.inj score).symm⟩

/-- Every value that the experiment logs lies above the APFD of the faults of its
checkout, halfway to the largest value an order of this length could be given. -/
theorem loggedAboveApfd {argsort : List ℚ → List Nat}
    (sorts : ∀ column, (argsort column).Perm (List.range column.length)) {m : Manager} {ciObjs : List Checkout}
    {history : Int} {i : Nat} {e : Evaluation} (evaluated : evaluate argsort m ciObjs history i = .ok (some e)) :
    ∃ c, ciObjs[i]? = some c ∧ ∀ j < 6, ∃ order v, e.orders[j]? = some order ∧ e.apfd[j]? = some v ∧
      v = (EHelper.apfd (faults c) order + (1 + 1 / (2 * order.length))) / 2 ∧ EHelper.apfd (faults c) order < v := by
  obtain ⟨c,faultsArr,here,failing,ordered,scores⟩ := evaluateDone evaluated
  obtain ⟨twice,orders⟩ := prioritiseDone sorts ordered
  refine ⟨c,here,?_⟩
  intro j inside
  obtain ⟨order,v,found,value,score⟩ := scores j inside
  obtain ⟨f,fault⟩ := List.exists_mem_of_ne_nil _ failing
  have perm := orders order (List.mem_of_getElem? found)
  have member : f ∈ order := perm.mem_iff.mpr (List.mem_range.mpr (faultInside fault))
  have doubled : v = (EHelper.apfd (faults c) order + (1 + 1 / (2 * order.length))) / 2 := by
    rw [score,show faultsArr = faults c ++ faults c from twice]
    exact EHelper.apfdTwice failing (List.ne_nil_of_mem member)
  have below := EHelper.apfdBelow fault member
  exact ⟨order,v,found,value,doubled,by rw [doubled]; linarith⟩

def below (a b : ℚ × Nat) : Prop := a.1 ≤ b.1
instance : DecidableRel below := fun a b => inferInstanceAs (Decidable (a.1 ≤ b.1))

def stableArgsort (column : List ℚ) : List Nat := (column.zipIdx.insertionSort below).map Prod.snd

theorem stableArgsortPerm (column : List ℚ) : (stableArgsort column).Perm (List.range column.length) := by
  have perm := (column.zipIdx.perm_insertionSort below).map Prod.snd
  rw [List.zipIdx_map_snd,← List.range_eq_range'] at perm
  exact perm

def oneCase (status : Status) (sha : Str) (time : Int) : Checkout :=
  ⟨⟨sha,time⟩,[⟨⟨.text [],[]⟩,[⟨[⟨⟨[],none,[],"a.c".toList,none⟩,some "a.c".toList,status⟩]⟩],[],none⟩]⟩

def twoFailures : List Checkout := [oneCase .failure "0".toList 0,oneCase .failure "1".toList 86400000000]

theorem twoFailuresLogged :
    (do
      let m ← extract twoFailures
      let e ← evaluate stableArgsort m twoFailures 0 1
      .ok (e.map (fun e : Evaluation => (e.orders,e.apfd)))) = Except.ok (ε := PyError) (some (List.replicate 6 [0],List.replicate 6 1)) ∧
    faults (oneCase .failure "1".toList 86400000000) = [0] ∧ EHelper.apfd [0] [0] = 1/2 := by
  decide +kernel

theorem twoFailuresAbove :
    evaluate stableArgsort (Dict.empty.set (some "a.c".toList)
        ⟨[none,some 0],[none,some 0],[0,1],[0,1],[0,9/10],[0,7/10]⟩) twoFailures 0 1 =
      .ok (some ⟨"1".toList,List.replicate 6 [0],List.replicate 6 1⟩) ∧
    ∃ c, twoFailures[1]? = some c ∧ ∀ j < 6, ∃ order v, (List.replicate 6 [0])[j]? = some order ∧
      (List.replicate 6 (1 : ℚ))[j]? = some v ∧
      v = (EHelper.apfd (faults c) order + (1 + 1 / (2 * order.length))) / 2 ∧ EHelper.apfd (faults c) order < v := by
  have evaluated : evaluate stableArgsort (Dict.empty.set (some "a.c".toList)
        ⟨[none,some 0],[none,some 0],[0,1],[0,1],[0,9/10],[0,7/10]⟩) twoFailures 0 1 =
      .ok (some ⟨"1".toList,List.replicate 6 [0],List.replicate 6 1⟩) := by decide +kernel
  exact ⟨evaluated,loggedAboveApfd stableArgsortPerm evaluated⟩

end KernelTcp.History

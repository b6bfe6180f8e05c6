import KernelTcp.CiObjects
import KernelTcp.Lib.Dict
import Mathlib.Algebra.BigOperators.Group.List.Basic
import Mathlib.Algebra.Order.Field.Rat

/-! The history of every test path over a list of checkouts. The six dictionaries of
the manager have the same keys and are kept as one dictionary of six series; fractions
are exact. Over it, the history as a function of a prefix of the checkouts. -/
namespace KernelTcp.History
open CiObjects

structure Series where
  lastFailureTime : List (Option Int)
  lastExecutedTime : List (Option Int)
  failedCount : List Int
  executedCount : List Int
  exdValue : List ℚ
  rocketValue : List ℚ

def Series.start : Series := ⟨[none],[none],[0],[0],[0],[0]⟩

abbrev Manager := Dict (Option Str) Series

def initPath (m : Manager) (tc : Test) : Manager :=
  if tc.filePath ∈ m.keys then m else m.set tc.filePath Series.start

def initMap (ciObjs : List Checkout) : Manager := (getAllTestcases ciObjs).foldl initPath Dict.empty

def alpha : ℚ := 9/10

def weight (i j : Nat) : ℚ := if i - j = 1 then 7/10 else if i = 2 then 2/10 else 1/10

def rocketStep (ciObjs : List Checkout) (k : Option Str) (i : Nat) (rocket : ℚ) (j : Nat) : Except PyError ℚ := do
  let ciObj ← Py.getItem ciObjs j
  match ciObj.getCaseByFilePath k with
  | none => .ok rocket
  | some tc => .ok (if tc.isFailed then rocket + weight i j else rocket)

def rocketLoop (ciObjs : List Checkout) (k : Option Str) (i : Nat) : Except PyError ℚ :=
  (List.range i).foldlM (rocketStep ciObjs k i) 0

def recordFailure (time : Int) (i : Nat) (s : Series) : Except PyError Series := do
  let failed ← Py.getItem s.failedCount (i-1 : Nat)
  let exd ← Py.getItem s.exdValue (i-1 : Nat)
  .ok { s with
    lastFailureTime := s.lastFailureTime ++ [some time]
    failedCount := s.failedCount ++ [failed + 1]
    exdValue := s.exdValue ++ [alpha * 1 + exd * (1 - alpha)] }

-- the entries appended for this checkout are taken back
def recordAbsence (s : Series) : Except PyError Series := do
  let executed ← Py.getItem s.executedCount (-1)
  let executedCount ← Py.setItem s.executedCount (-1) (executed - 1)
  let before ← Py.getItem s.lastExecutedTime (-2)
  let lastExecutedTime ← Py.setItem s.lastExecutedTime (-1) before
  .ok { s with executedCount := executedCount, lastExecutedTime := lastExecutedTime }

def recordNoFailure (i : Nat) (s : Series) : Except PyError Series := do
  let failure ← Py.getItem s.lastFailureTime (i-1 : Nat)
  let exd ← Py.getItem s.exdValue (i-1 : Nat)
  let failed ← Py.getItem s.failedCount (i-1 : Nat)
  .ok { s with
    lastFailureTime := s.lastFailureTime ++ [failure]
    exdValue := s.exdValue ++ [exd * (1 - alpha)]
    failedCount := s.failedCount ++ [failed] }

def recordPath (ciObjs : List Checkout) (i : Nat) (ciObj : Checkout) (k : Option Str) (s : Series) :
    Except PyError Series := do
  let time := ciObj.dbInstance.gitCommitDatetime
  let executed ← Py.getItem s.executedCount (i-1 : Nat)
  let s := { s with
    executedCount := s.executedCount ++ [executed + 1]
    lastExecutedTime := s.lastExecutedTime ++ [some time] }
  let s ← match ciObj.getCaseByFilePath k with
    | none => do
        let s ← recordAbsence s
        recordNoFailure i s
    | some tc => if tc.isFailed then recordFailure time i s else recordNoFailure i s
  let rocket ← rocketLoop ciObjs k i
  .ok { s with rocketValue := s.rocketValue ++ [rocket] }

def recordCheckout (ciObjs : List Checkout) (m : Manager) (i : Nat) : Except PyError Manager := do
  let ciObj ← Py.getItem ciObjs (i-1 : Nat)
  m.keys.foldlM (Dict.updateStep (recordPath ciObjs i ciObj)) m

def extract (ciObjs : List Checkout) : Except PyError Manager :=
  (List.range ciObjs.length).foldlM (fun m i => recordCheckout ciObjs m (i+1)) (initMap ciObjs)

structure Cell where
  time : Int
  failed : Option Bool
  deriving DecidableEq, Repr

def cell (k : Option Str) (c : Checkout) : Cell :=
  ⟨c.dbInstance.gitCommitDatetime,(c.getCaseByFilePath k).map Test.isFailed⟩

def cells (k : Option Str) (cs : List Checkout) : List Cell := cs.map (cell k)

structure Record where
  lastFailureTime : Option Int
  lastExecutedTime : Option Int
  failedCount : Int
  executedCount : Int
  exdValue : ℚ
  rocketValue : ℚ

def Record.start : Record := ⟨none,none,0,0,0,0⟩

def advance (r : Record) (c : Cell) : Record where
  lastFailureTime := if c.failed = some true then some c.time else r.lastFailureTime
  lastExecutedTime := if c.failed = none then r.lastExecutedTime else some c.time
  failedCount := if c.failed = some true then r.failedCount + 1 else r.failedCount
  executedCount := if c.failed = none then r.executedCount else r.executedCount + 1
  exdValue := if c.failed = some true then alpha * 1 + r.exdValue * (1 - alpha) else r.exdValue * (1 - alpha)
  rocketValue := r.rocketValue

def rocket (seen : List Cell) : ℚ :=
  (seen.zipIdx.map (fun e => if e.1.failed = some true then weight seen.length e.2 else 0)).sum

def recordAfter (seen : List Cell) : Record := { seen.foldl advance Record.start with rocketValue := rocket seen }

def seriesOf (records : List Record) : Series where
  lastFailureTime := records.map Record.lastFailureTime
  lastExecutedTime := records.map Record.lastExecutedTime
  failedCount := records.map Record.failedCount
  executedCount := records.map Record.executedCount
  exdValue := records.map Record.exdValue
  rocketValue := records.map Record.rocketValue

def recordsUpTo (k : Option Str) (cs : List Checkout) (n : Nat) : List Record :=
  (List.range (n+1)).map (fun m => recordAfter (cells k (cs.take m)))

def share (i : Nat) (e : Cell × Nat) : ℚ := if e.1.failed = some true then weight i e.2 else 0

theorem rocketStepHere {cs : List Checkout} {c : Checkout} {j : Nat} (here : cs[j]? = some c) (k : Option Str)
    (i : Nat) (v : ℚ) : rocketStep cs k i v j = .ok (v + share i (cell k c,j)) := by
  unfold rocketStep share cell
  rw [Py.getItemInside here]
  change (match c.getCaseByFilePath k with
    | none => Except.ok v
    | some tc => Except.ok (if tc.isFailed then v + weight i j else v)) = _
  cases c.getCaseByFilePath k with
  | none => simp
  | some tc => cases failed : tc.isFailed <;> simp [failed]

theorem cellsNext (k : Option Str) {cs : List Checkout} {m : Nat} {c : Checkout} (here : cs[m]? = some c) :
    cells k (cs.take (m+1)) = cells k (cs.take m) ++ [cell k c] := by
  unfold cells
  rw [List.take_add_one,here,List.map_append]
  rfl

theorem cellsLength (k : Option Str) {cs : List Checkout} {m : Nat} (inside : m ≤ cs.length) :
    (cells k (cs.take m)).length = m := by
  simp [cells]
  omega

theorem rocketPrefix {cs : List Checkout} (k : Option Str) (i : Nat) {m : Nat} (inside : m ≤ cs.length) :
    (List.range m).foldlM (rocketStep cs k i) 0 = .ok ((cells k (cs.take m)).zipIdx.map (share i)).sum := by
  induction m with
  | zero => rfl
  | succ m ih =>
    have here : cs[m]? = some cs[m] := List.getElem?_eq_getElem (by omega)
    rw [List.range_succ,List.foldlM_append,ih (by omega),cellsNext k here,List.zipIdx_append,cellsLength k (by omega)]
    simp only [bind,Except.bind,List.foldlM_cons,List.foldlM_nil,rocketStepHere here]
    simp [pure,Except.pure]

theorem rocketLoopExact {cs : List Checkout} (k : Option Str) {i : Nat} (inside : i ≤ cs.length) :
    rocketLoop cs k i = .ok (rocket (cells k (cs.take i))) := by
  unfold rocketLoop rocket
  rw [rocketPrefix k i inside,cellsLength k inside]
  rfl

section step
variable {rs : List Record} {r : Record}

theorem entryBefore {β : Type} (f : Record → β) :
    Py.getItem ((rs ++ [r]).map f) ((rs.length + 1 - 1 : Nat) : Int) = .ok (f r) := by
  rw [List.map_append]
  exact Py.getItemEnd _ _ (by simp)

theorem absenceTaken (s : Series) {executed : List Int} {count : Int} {times : List (Option Int)} {last time : Option Int}
    (counts : s.executedCount = executed ++ [count + 1]) (timed : s.lastExecutedTime = times ++ [last,time]) :
    recordAbsence s = .ok { s with executedCount := executed ++ [count], lastExecutedTime := times ++ [last,last] } := by
  have split : times ++ [last,time] = (times ++ [last]) ++ [time] := by simp
  unfold recordAbsence
  rw [counts,timed,Py.getItemLast,Py.getItemBeforeLast]
  simp only [bind,Except.bind,Py.setItemLast]
  rw [split,Py.setItemLast]
  simp

theorem recordPathStep {cs : List Checkout} {c : Checkout} {k : Option Str} {v : ℚ}
    (rocketed : rocketLoop cs k (rs.length + 1) = .ok v) :
    recordPath cs (rs.length + 1) c k (seriesOf (rs ++ [r])) =
      .ok (seriesOf (rs ++ [r] ++ [{ advance r (cell k c) with rocketValue := v }])) := by
  unfold recordPath
  have executed : Py.getItem ((rs ++ [r]).map Record.executedCount) ((rs.length + 1 - 1 : Nat) : Int) = .ok r.executedCount :=
    entryBefore _
  simp only [seriesOf,executed,bind,Except.bind,rocketed]
  cases found : c.getCaseByFilePath k with
  | none =>
    have times : (rs ++ [r]).map Record.lastExecutedTime ++ [some c.dbInstance.gitCommitDatetime] =
        rs.map Record.lastExecutedTime ++ [r.lastExecutedTime,some c.dbInstance.gitCommitDatetime] := by simp
    simp only [absenceTaken ⟨_,_,_,_,_,_⟩ rfl times]
    simp only [recordNoFailure,entryBefore,bind,Except.bind]
    simp [advance,cell,found]
  | some tc =>
    cases failed : tc.isFailed with
    | true =>
      simp only [recordFailure,entryBefore,bind,Except.bind]
      simp [advance,cell,found,failed]
    | false =>
      simp only [recordNoFailure,entryBefore,bind,Except.bind]
      simp [advance,cell,found,failed]

end step

theorem recordAfterNext (seen : List Cell) (c : Cell) :
    recordAfter (seen ++ [c]) = { advance (recordAfter seen) c with rocketValue := rocket (seen ++ [c]) } := by
  unfold recordAfter
  rw [List.foldl_append]
  rfl

theorem recordsNext (k : Option Str) (cs : List Checkout) (n : Nat) :
    recordsUpTo k cs (n+1) = recordsUpTo k cs n ++ [recordAfter (cells k (cs.take (n+1)))] := by
  unfold recordsUpTo
  rw [List.range_succ,List.map_append]
  rfl

structure Tracks (cs : List Checkout) (n : Nat) (m : Manager) : Prop where
  keys : m.keys = (initMap cs).keys
  series : ∀ k ∈ m.keys, m.get? k = some (seriesOf (recordsUpTo k cs n))

theorem memInitPath {m : Manager} {tc : Test} {k : Option Str} :
    k ∈ (initPath m tc).keys ↔ k ∈ m.keys ∨ tc.filePath = k := by
  unfold initPath
  split
  · rename_i present
    exact ⟨Or.inl,fun h => h.elim id (fun same => same ▸ present)⟩
  · rw [Dict.memKeysSet,or_comm,eq_comm]

theorem memInitPaths {ts : List Test} {m : Manager} {k : Option Str} :
    k ∈ (ts.foldl initPath m).keys ↔ k ∈ m.keys ∨ ∃ tc ∈ ts, tc.filePath = k := by
  induction ts generalizing m with
  | nil => simp
  | cons t ts ih =>
    rw [List.foldl_cons,ih,memInitPath]
    simp only [List.mem_cons,exists_eq_or_imp,or_assoc]

theorem initKeys {cs : List Checkout} {k : Option Str} :
    k ∈ (initMap cs).keys ↔ ∃ tc ∈ getAllTestcases cs, tc.filePath = k := by
  unfold initMap
  rw [memInitPaths]
  simp

theorem initPathStarts {m : Manager} (started : ∀ k ∈ m.keys, m.get? k = some Series.start) (t : Test) :
    ∀ k ∈ (initPath m t).keys, (initPath m t).get? k = some Series.start := by
  intro k hk
  unfold initPath at hk ⊢
  split at hk
  · rename_i present
    rw [if_pos present]
    exact started k hk
  · rename_i absent
    rw [if_neg absent,Dict.getSet]
    rw [Dict.memKeysSet] at hk
    split
    · rfl
    · rename_i other
      exact started k (hk.resolve_left (fun same => other same.symm))

theorem initTracks (cs : List Checkout) : Tracks cs 0 (initMap cs) := by
  refine ⟨rfl,?_⟩
  exact List.foldlRecOn (motive := fun m : Manager => ∀ k ∈ m.keys, m.get? k = some Series.start)
    (getAllTestcases cs) initPath (by simp) (fun _ started t _ => initPathStarts started t)

theorem recordCheckoutTracks {cs : List Checkout} {n : Nat} (inside : n < cs.length) {m : Manager} (h : Tracks cs n m) :
    ∃ next, recordCheckout cs m (n+1) = .ok next ∧ Tracks cs (n+1) next := by
  have here : cs[n]? = some cs[n] := List.getElem?_eq_getElem inside
  have each : ∀ {k s}, m.get? k = some s →
      recordPath cs (n+1) cs[n] k s = .ok (seriesOf (recordsUpTo k cs (n+1))) := by
    intro k s found
    have known := h.series k (Dict.memKeys.mpr ⟨s,found⟩)
    rw [found] at known
    rw [Option.some.inj known]
    have last : recordsUpTo k cs n = (List.range n).map (fun m => recordAfter (cells k (cs.take m))) ++
        [recordAfter (cells k (cs.take n))] := by
      unfold recordsUpTo
      rw [List.range_succ,List.map_append]
      rfl
    have size : ((List.range n).map (fun m => recordAfter (cells k (cs.take m)))).length = n := by simp
    have rocketed := rocketLoopExact k (show n+1 ≤ cs.length by omega)
    rw [recordsNext,cellsNext k here,recordAfterNext,last]
    rw [cellsNext k here] at rocketed
    generalize (List.range n).map (fun m => recordAfter (cells k (cs.take m))) = rs at size ⊢
    subst size
    exact recordPathStep rocketed
  obtain ⟨next,run,keys,values⟩ := Dict.updateAll (recordPath cs (n+1) cs[n])
    (fun k _ => seriesOf (recordsUpTo k cs (n+1))) each
  refine ⟨next,?_,keys.trans h.keys,?_⟩
  · unfold recordCheckout
    rw [show n + 1 - 1 = n from rfl,Py.getItemInside here]
    exact run
  · intro k hk
    rw [keys] at hk
    rw [values,h.series k hk]
    rfl

theorem prefixTracks (cs : List Checkout) {n : Nat} (inside : n ≤ cs.length) :
    ∃ m, (List.range n).foldlM (fun m i => recordCheckout cs m (i+1)) (initMap cs) = .ok m ∧ Tracks cs n m := by
  induction n with
  | zero => exact ⟨_,rfl,initTracks cs⟩
  | succ n ih =>
    obtain ⟨m,done,tracks⟩ := ih (by omega)
    obtain ⟨next,step,later⟩ := recordCheckoutTracks (show n < cs.length by omega) tracks
    refine ⟨next,?_,later⟩
    rw [List.range_succ,List.foldlM_append,done]
    simp only [bind,Except.bind,List.foldlM_cons,List.foldlM_nil,step]
    rfl

theorem extractTracks (cs : List Checkout) : ∃ m, extract cs = .ok m ∧ Tracks cs cs.length m :=
  prefixTracks cs (Nat.le_refl _)

end KernelTcp.History

import KernelTcp.History.Extract
import Mathlib.Algebra.BigOperators.Ring.List
import Mathlib.Tactic.Ring
import Mathlib.Tactic.Linarith

/-! What the recorded series are: counts, last times and weighted failures of the
checkouts in a prefix. -/
namespace KernelTcp.History
open CiObjects

def runsIn (k : Option Str) (c : Checkout) : Bool := (c.getCaseByFilePath k).isSome
def failsIn (k : Option Str) (c : Checkout) : Bool := (c.getCaseByFilePath k).any Test.isFailed
def commitTime (c : Checkout) : Int := c.dbInstance.gitCommitDatetime

def weighted (k : Option Str) (first : Nat) (w : Nat → ℚ) (cs : List Checkout) : ℚ :=
  ((cs.zipIdx first).map (fun e => if failsIn k e.1 then w e.2 else 0)).sum

def decayed (k : Option Str) (cs : List Checkout) : ℚ :=
  weighted k 1 (fun j => alpha * (1 - alpha)^(cs.length - j)) cs

theorem weightedNext (k : Option Str) (first : Nat) (w : Nat → ℚ) (cs : List Checkout) (c : Checkout) :
    weighted k first w (cs ++ [c]) = weighted k first w cs + if failsIn k c then w (first + cs.length) else 0 := by
  unfold weighted
  rw [List.zipIdx_append,List.map_append,List.sum_append,Nat.add_comm first]
  simp [Nat.add_comm]

theorem weightedSame {k : Option Str} {first : Nat} {v w : Nat → ℚ} {cs : List Checkout}
    (same : ∀ j, first ≤ j → j < first + cs.length → v j = w j) : weighted k first v cs = weighted k first w cs := by
  unfold weighted
  congr 1
  apply List.map_congr_left
  intro e mem
  rw [same e.2 (List.le_snd_of_mem_zipIdx mem) (Nat.add_comm _ _ ▸ List.snd_lt_of_mem_zipIdx mem)]

theorem weightedScale (k : Option Str) (first : Nat) (w : Nat → ℚ) (r : ℚ) (cs : List Checkout) :
    weighted k first (fun j => w j * r) cs = weighted k first w cs * r := by
  unfold weighted
  rw [← List.sum_map_mul_right]
  congr 1
  apply List.map_congr_left
  intro e _
  split <;> ring

theorem decayedNext (k : Option Str) (cs : List Checkout) (c : Checkout) :
    decayed k (cs ++ [c]) = decayed k cs * (1 - alpha) + if failsIn k c then alpha else 0 := by
  unfold decayed
  rw [weightedNext,← weightedScale]
  congr 1
  · apply weightedSame
    intro j _ inside
    have older : (cs ++ [c]).length - j = (cs.length - j) + 1 := by
      rw [List.length_append,List.length_singleton]
      omega
    rw [older,pow_succ]
    ring
  · have newest : (cs ++ [c]).length - (1 + cs.length) = 0 := by
      rw [List.length_append,List.length_singleton]
      omega
    rw [newest,pow_zero,mul_one]

structure Exact (k : Option Str) (cs : List Checkout) (r : Record) : Prop where
  executed : r.executedCount = cs.countP (runsIn k)
  failed : r.failedCount = cs.countP (failsIn k)
  lastExecuted : r.lastExecutedTime = (cs.filter (runsIn k)).getLast?.map commitTime
  lastFailure : r.lastFailureTime = (cs.filter (failsIn k)).getLast?.map commitTime
  exd : r.exdValue = decayed k cs
  bounded : 0 ≤ r.exdValue ∧ r.exdValue < 1

theorem cellFailed (k : Option Str) (c : Checkout) : (cell k c).failed = some true ↔ failsIn k c = true := by
  simp [cell,failsIn,Option.any_eq_true]

theorem cellAbsent (k : Option Str) (c : Checkout) : (cell k c).failed = none ↔ runsIn k c = false := by
  simp [cell,runsIn]

theorem exactStart (k : Option Str) : Exact k [] (recordAfter (cells k [])) :=
  ⟨rfl,rfl,rfl,rfl,rfl,le_refl 0,zero_lt_one⟩

theorem exactNext {k : Option Str} {cs : List Checkout} (h : Exact k cs (recordAfter (cells k cs))) (c : Checkout) :
    Exact k (cs ++ [c]) (recordAfter (cells k (cs ++ [c]))) := by
  have next : recordAfter (cells k (cs ++ [c])) = { advance (recordAfter (cells k cs)) (cell k c) with
      rocketValue := rocket (cells k (cs ++ [c])) } := by
    unfold cells
    rw [List.map_append,List.map_singleton,recordAfterNext]
  have exd : (advance (recordAfter (cells k cs)) (cell k c)).exdValue = decayed k (cs ++ [c]) := by
    rw [decayedNext,← h.exd]
    simp only [advance,cellFailed]
    split <;> ring
  rw [next]
  refine ⟨?_,?_,?_,?_,exd,?_⟩
  · simp only [advance,cellAbsent,h.executed,List.countP_append,List.countP_singleton]
    cases runsIn k c <;> simp
  · simp only [advance,cellFailed,h.failed,List.countP_append,List.countP_singleton]
    cases failsIn k c <;> simp
  · simp only [advance,cellAbsent,h.lastExecuted,List.filter_append,List.filter_singleton]
    cases runsIn k c <;> simp [cell,commitTime]
  · simp only [advance,cellFailed,h.lastFailure,List.filter_append,List.filter_singleton]
    cases failsIn k c <;> simp [cell,commitTime]
  · have bounded := h.bounded
    have step : (advance (recordAfter (cells k cs)) (cell k c)).exdValue =
        (recordAfter (cells k cs)).exdValue * (1 - alpha) + if failsIn k c then alpha else 0 := by
      rw [exd,decayedNext,h.exd]
    simp only [step,alpha]
    split <;> constructor <;> linarith

theorem exactPrefix (k : Option Str) (cs : List Checkout) : Exact k cs (recordAfter (cells k cs)) := by
  induction cs using List.reverseRecOn with
  | nil => exact exactStart k
  | append_singleton cs c ih => exact exactNext ih c

theorem failsRuns (k : Option Str) (cs : List Checkout) : cs.countP (failsIn k) ≤ cs.countP (runsIn k) := by
  apply List.countP_mono_left
  intro c _ fails
  obtain ⟨tc,found,_⟩ := (Option.any_eq_true ..).mp fails
  simp [runsIn,found]

theorem extractSeries {cs : List Checkout} {k : Option Str} (occurs : ∃ tc ∈ getAllTestcases cs, tc.filePath = k) :
    ∃ m s, extract cs = .ok m ∧ m.get? k = some s ∧ s = seriesOf (recordsUpTo k cs cs.length) := by
  obtain ⟨m,run,tracks⟩ := extractTracks cs
  have known : k ∈ m.keys := tracks.keys ▸ initKeys.mpr occurs
  exact ⟨m,_,run,tracks.series k known,rfl⟩

theorem recordsAt {k : Option Str} {cs : List Checkout} {i : Nat} (inside : i ≤ cs.length) {β : Type} (f : Record → β) :
    ((recordsUpTo k cs cs.length).map f)[i]? = some (f (recordAfter (cells k (cs.take i)))) := by
  simp [recordsUpTo,Nat.lt_succ_of_le inside]

/-- The series of a path are the statistics of every prefix of the checkouts. -/
theorem extractPrefixStatistics (cs : List Checkout) (k : Option Str)
    (occurs : ∃ tc ∈ getAllTestcases cs, tc.filePath = k) :
    ∃ m s, extract cs = .ok m ∧ m.get? k = some s
      ∧ s.executedCount.length = cs.length + 1 ∧ s.failedCount.length = cs.length + 1
      ∧ s.lastExecutedTime.length = cs.length + 1 ∧ s.lastFailureTime.length = cs.length + 1
      ∧ s.exdValue.length = cs.length + 1 ∧ s.rocketValue.length = cs.length + 1
      ∧ ∀ i ≤ cs.length,
        s.executedCount[i]? = some ((cs.take i).countP (runsIn k) : Int)
        ∧ s.failedCount[i]? = some ((cs.take i).countP (failsIn k) : Int)
        ∧ (cs.take i).countP (failsIn k) ≤ (cs.take i).countP (runsIn k)
        ∧ s.lastExecutedTime[i]? = some (((cs.take i).filter (runsIn k)).getLast?.map commitTime)
        ∧ s.lastFailureTime[i]? = some (((cs.take i).filter (failsIn k)).getLast?.map commitTime)
        ∧ s.exdValue[i]? = some (decayed k (cs.take i)) ∧ 0 ≤ decayed k (cs.take i) ∧ decayed k (cs.take i) < 1 := by
  obtain ⟨m,s,run,found,rfl⟩ := extractSeries occurs
  have size : ∀ {β : Type} (f : Record → β), ((recordsUpTo k cs cs.length).map f).length = cs.length + 1 := by
    simp [recordsUpTo]
  refine ⟨m,_,run,found,size _,size _,size _,size _,size _,size _,?_⟩
  intro i inside
  have exact := exactPrefix k (cs.take i)
  simp only [seriesOf,recordsAt inside,exact.executed,exact.failed,exact.lastExecuted,exact.lastFailure,exact.exd,true_and]
  exact ⟨failsRuns k _,exact.exd ▸ exact.bounded⟩

def fileTest (status : Status) : Test := ⟨⟨[],none,[],"t.c".toList,none⟩,some "t.c".toList,status⟩

def fileCheckout (time : Int) (tests : List Test) : Checkout :=
  ⟨⟨[],time⟩,[⟨⟨.text [],"defconfig".toList⟩,[⟨tests⟩],[],none⟩]⟩

def fourCheckouts : List Checkout := [fileCheckout 1 [fileTest .failure],fileCheckout 2 [],
  fileCheckout 3 [fileTest .success],fileCheckout 4 [fileTest .failure]]

theorem fourCheckoutsStatistics : ∃ m s, extract fourCheckouts = .ok m ∧ m.get? (some "t.c".toList) = some s
    ∧ s.executedCount[4]? = some 3 ∧ s.failedCount[4]? = some 2 ∧ s.lastExecutedTime[2]? = some (some 1)
    ∧ s.lastFailureTime[3]? = some (some 1) ∧ s.exdValue[4]? = some (9/10 + 9/10000) := by
  obtain ⟨m,s,run,found,_,_,_,_,_,_,entries⟩ := extractPrefixStatistics fourCheckouts (some "t.c".toList) (by decide)
  obtain ⟨executed,failed,_,_,_,exd,_⟩ := entries 4 (by decide)
  obtain ⟨_,_,_,lastExecuted,_⟩ := entries 2 (by decide)
  obtain ⟨_,_,_,_,lastFailure,_⟩ := entries 3 (by decide)
  refine ⟨m,s,run,found,executed.trans ?_,failed.trans ?_,lastExecuted.trans ?_,lastFailure.trans ?_,exd.trans ?_⟩
  all_goals decide +kernel

def ageWeight (age : Nat) : ℚ := if age = 1 then 7/10 else if age = 2 then 2/10 else 1/10

def byAge (k : Option Str) (cs : List Checkout) : ℚ := weighted k 0 (fun j => ageWeight (cs.length - j)) cs

theorem rocketWeighted (k : Option Str) (cs : List Checkout) :
    rocket (cells k cs) = weighted k 0 (weight cs.length) cs := by
  unfold rocket weighted cells
  rw [List.length_map,List.zipIdx_map,List.map_map]
  congr 1
  apply List.map_congr_left
  intro e _
  simp only [Function.comp_apply,Prod.map_fst,Prod.map_snd,cellFailed,id]

theorem weightAge {i j : Nat} (other : i - j ≠ 2) (inside : j < i) : weight i j = ageWeight (i - j) := by
  unfold weight ageWeight
  by_cases newest : i - j = 1
  · rw [if_pos newest,if_pos newest]
  · rw [if_neg newest,if_neg newest,if_neg other,if_neg (by omega)]

theorem rocketShort (k : Option Str) {cs : List Checkout} (short : cs.length ≤ 2) : rocket (cells k cs) = byAge k cs := by
  rw [rocketWeighted]
  apply weightedSame
  intro j _ inside
  rw [Nat.zero_add] at inside
  by_cases second : cs.length - j = 2
  · have size : cs.length = 2 := by omega
    have first : j = 0 := by omega
    rw [size,first]
    rfl
  · exact weightAge second inside

theorem rocketLong (k : Option Str) (a b : Checkout) {cs : List Checkout} (some : cs ≠ []) :
    byAge k (cs ++ [a] ++ [b]) = rocket (cells k (cs ++ [a] ++ [b])) + if failsIn k a then 1/10 else 0 := by
  have positive : 0 < cs.length := List.length_pos_iff.mpr some
  have size : (cs ++ [a] ++ [b]).length = cs.length + 2 := by simp
  have old : weighted k 0 (fun j => ageWeight (cs.length + 2 - j)) cs = weighted k 0 (weight (cs.length + 2)) cs := by
    apply weightedSame
    intro j _ inside
    exact (weightAge (by omega) (by omega)).symm
  have first : cs.length + 2 - (0 + cs.length) = 2 := by omega
  have last : cs.length + 2 - (0 + (cs ++ [a]).length) = 1 := by simp
  have wrong : weight (cs.length + 2) (0 + cs.length) = 1/10 := by
    unfold weight
    rw [if_neg (by omega),if_neg (by omega)]
  have newest : weight (cs.length + 2) (0 + (cs ++ [a]).length) = 7/10 := by
    unfold weight
    rw [if_pos last]
  rw [rocketWeighted,byAge,size]
  simp only [weightedNext,old,first,last,wrong,newest]
  cases failsIn k a <;> cases failsIn k b <;> norm_num [ageWeight] <;> ring

/-- A rocket value is the sum of the failures weighted by age exactly for the first two
checkouts, or when the path did not fail two checkouts before. -/
theorem rocketByAge (cs : List Checkout) (k : Option Str) (occurs : ∃ tc ∈ getAllTestcases cs, tc.filePath = k)
    (i : Nat) (inside : i ≤ cs.length) :
    ∃ m s v, extract cs = .ok m ∧ m.get? k = some s ∧ s.rocketValue[i]? = some v
      ∧ (v = byAge k (cs.take i) ↔ i ≤ 2 ∨ ∀ c, cs[i-2]? = some c → failsIn k c = false) := by
  obtain ⟨m,s,run,found,rfl⟩ := extractSeries occurs
  refine ⟨m,_,_,run,found,recordsAt inside _,?_⟩
  change rocket (cells k (cs.take i)) = _ ↔ _
  by_cases short : i ≤ 2
  · refine ⟨fun _ => Or.inl short,fun _ => rocketShort k ?_⟩
    rw [List.length_take]
    omega
  · obtain ⟨n,rfl⟩ : ∃ n, i = n + 2 := ⟨i-2,by omega⟩
    have here : cs[n]? = some cs[n] := List.getElem?_eq_getElem (by omega)
    have next : cs[n+1]? = some cs[n+1] := List.getElem?_eq_getElem (by omega)
    have split : cs.take (n+2) = cs.take n ++ [cs[n]] ++ [cs[n+1]] := by
      rw [List.take_add_one,List.take_add_one,here,next]
      rfl
    have older : cs.take n ≠ [] := by
      apply List.ne_nil_of_length_pos
      rw [List.length_take]
      omega
    rw [split,rocketLong k _ _ older,show n + 2 - 2 = n from rfl,here]
    cases fails : failsIn k cs[n] <;> simp [short,fails]

theorem fourCheckoutsRocket : ∃ m s, extract fourCheckouts = .ok m ∧ m.get? (some "t.c".toList) = some s
    ∧ s.rocketValue[4]? = some (8/10) := by
  obtain ⟨m,s,v,run,found,entry,exact⟩ := rocketByAge fourCheckouts (some "t.c".toList) (by decide) 4 (by decide)
  refine ⟨m,s,run,found,entry.trans ?_⟩
  rw [exact.mpr (Or.inr (by decide))]
  decide +kernel

def failureBefore : List Checkout := [fileCheckout 1 [fileTest .success],fileCheckout 2 [fileTest .failure],
  fileCheckout 3 [fileTest .success]]

theorem failureBeforeRocket : ∃ m s, extract failureBefore = .ok m ∧ m.get? (some "t.c".toList) = some s
    ∧ s.rocketValue[3]? = some (1/10) ∧ byAge (some "t.c".toList) (failureBefore.take 3) = 2/10 := by
  refine ⟨_,_,rfl,rfl,?_,?_⟩
  all_goals decide +kernel

end KernelTcp.History

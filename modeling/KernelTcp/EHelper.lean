import KernelTcp.Lib.Prefix
import Mathlib.Algebra.BigOperators.Field
import Mathlib.Algebra.Order.BigOperators.Ring.Finset
import Mathlib.Algebra.Order.Ring.Rat
import Mathlib.Tactic.FieldSimp
import Mathlib.Tactic.Positivity

/-! The APFD score of an order. Arithmetic is over exact rationals; the float
rounding of the running sum is not modelled. -/
namespace KernelTcp.EHelper
open Prefix
open scoped BigOperators
variable {α : Type}

/- What the score is computed on: an order without repetitions that contains
every fault, and at least one fault, each listed once. -/
structure Judged (faults order : List α) : Prop where
  distinctOrder : order.Nodup
  distinctFaults : faults.Nodup
  failing : faults ≠ []
  inside : ∀ f ∈ faults, f ∈ order

theorem Judged.tests {faults order : List α} (h : Judged faults order) : order ≠ [] := by
  intro empty
  obtain ⟨f,hf⟩ := List.exists_mem_of_ne_nil _ h.failing
  have member := h.inside f hf
  simp [empty] at member

theorem Judged.perm {faults order other : List α} (h : Judged faults order)
    (same : other.Perm order) : Judged faults other :=
  ⟨same.nodup_iff.mpr h.distinctOrder,h.distinctFaults,h.failing,fun f hf => same.mem_iff.mpr (h.inside f hf)⟩

theorem Judged.reverse {faults order : List α} (h : Judged faults order) : Judged faults order.reverse :=
  h.perm order.reverse_perm

variable [DecidableEq α]

def positionLoop (totalFaults : List α) : Nat → ℚ → List α → ℚ
  | _, res, [] => res
  | i, res, t::ts => positionLoop totalFaults (i+1) (if t ∈ totalFaults then res + (i+1) else res) ts

def apfd (totalFaults testCasesOrder : List α) : ℚ :=
  if totalFaults.length = 0 ∨ testCasesOrder.length = 0 then 1/2
  else
    let res := positionLoop totalFaults 0 0 testCasesOrder
    let res := res / (totalFaults.length * testCasesOrder.length)
    let res := 1 - res
    res + 1 / (2 * testCasesOrder.length)

def isFault (faults : List α) (t : α) : Bool := t ∈ faults

def detected (faults order : List α) (k : Nat) : Nat := hits (isFault faults) order k

theorem positionLoopSum (faults : List α) (i : Nat) (res : ℚ) (order : List α) :
    positionLoop faults i res order =
      res + (((order.zipIdx i).map (fun e => if isFault faults e.1 then e.2 + 1 else 0)).sum : Nat) := by
  induction order generalizing i res with
  | nil => simp [positionLoop]
  | cons t ts ih =>
    rw [positionLoop,ih,List.zipIdx_cons]
    by_cases fault : t ∈ faults
    · simp only [List.map_cons,List.sum_cons,isFault,fault,decide_true,Nat.cast_add]
      push_cast
      ring
    · simp [fault,isFault]

theorem positionLoopPositions (faults order : List α) :
    positionLoop faults 0 0 order = (positionSum (isFault faults) order : ℚ) := by
  rw [positionLoopSum,zero_add]
  rfl

theorem apfdOfNonempty {faults order : List α} (failing : faults ≠ []) (tests : order ≠ []) :
    apfd faults order = 1 - (positionSum (isFault faults) order : ℚ) / (faults.length * order.length) +
      1 / (2 * order.length) := by
  have first : faults.length ≠ 0 := fun h => failing (List.length_eq_zero_iff.mp h)
  have second : order.length ≠ 0 := fun h => tests (List.length_eq_zero_iff.mp h)
  simp only [apfd,first,second,or_self,if_false,positionLoopPositions]

theorem apfdTwice {faults order : List α} (failing : faults ≠ []) (tests : order ≠ []) :
    apfd (faults ++ faults) order = (apfd faults order + (1 + 1 / (2 * order.length))) / 2 := by
  have twice : faults ++ faults ≠ [] := by simp [failing]
  have same : isFault (faults ++ faults) = isFault faults := by
    funext t
    simp [isFault]
  have first : (faults.length : ℚ) ≠ 0 := by simpa using failing
  have second : (order.length : ℚ) ≠ 0 := by simpa using tests
  rw [apfdOfNonempty twice tests,apfdOfNonempty failing tests,same,List.length_append]
  push_cast
  field_simp
  ring

theorem apfdBelow {faults order : List α} {f : α} (fault : f ∈ faults) (found : f ∈ order) :
    apfd faults order < 1 + 1 / (2 * order.length) := by
  have failing := List.ne_nil_of_mem fault
  have tests := List.ne_nil_of_mem found
  have positions : 0 < positionSum (isFault faults) order := positionSumPos found (by simpa [isFault] using fault)
  have first : 0 < faults.length := List.length_pos_iff.mpr failing
  have second : 0 < order.length := List.length_pos_iff.mpr tests
  have positive : 0 < (positionSum (isFault faults) order : ℚ) / (faults.length * order.length) := by positivity
  rw [apfdOfNonempty failing tests]
  linarith

theorem Judged.count {faults order : List α} (h : Judged faults order) :
    order.countP (isFault faults) = faults.length := by
  have found : (order.filter (isFault faults)).Perm faults := by
    apply (List.perm_ext_iff_of_nodup (h.distinctOrder.filter _) h.distinctFaults).mpr
    intro t
    simp only [List.mem_filter,isFault,decide_eq_true_eq]
    exact ⟨And.right,fun hf => ⟨h.inside t hf,hf⟩⟩
  rw [List.countP_eq_length_filter,found.length_eq]

def area (faults order : List α) : ℚ :=
  ∑ k ∈ Finset.Icc 1 order.length, ((detected faults order (k-1) : ℚ) + detected faults order k) / 2

theorem areaRange (faults order : List α) :
    area faults order = (∑ k ∈ Finset.range order.length,
      (hits (isFault faults) order k + hits (isFault faults) order (k+1)) : Nat) / 2 := by
  have shifted := Finset.sum_Ico_eq_sum_range
    (fun k => ((detected faults order (k-1) : ℚ) + detected faults order k) / 2) 1 (order.length+1)
  have same : Finset.Icc 1 order.length = Finset.Ico 1 (order.length+1) := by
    ext k
    simp only [Finset.mem_Icc,Finset.mem_Ico]
    omega
  rw [area,same,shifted]
  simp only [Nat.add_sub_cancel,Nat.add_sub_cancel_left,detected]
  push_cast
  rw [Finset.sum_div]
  exact Finset.sum_congr rfl (fun k _ => by rw [Nat.add_comm 1 k])

theorem areaPositions {faults order : List α} (h : Judged faults order) :
    2 * (positionSum (isFault faults) order : ℚ) + 2 * area faults order =
      (2 * order.length + 1) * faults.length := by
  have parts := positionsAndArea (isFault faults) order
  rw [h.count] at parts
  rw [areaRange]
  have cast := congrArg (fun n : Nat => (n : ℚ)) parts
  push_cast at cast ⊢
  linarith

theorem apfdArea {faults order : List α} (h : Judged faults order) :
    apfd faults order = 1 / (order.length * faults.length) * area faults order := by
  have positions := areaPositions h
  have n : (order.length : ℚ) ≠ 0 := by
    exact_mod_cast fun e => h.tests (List.length_eq_zero_iff.mp e)
  have m : (faults.length : ℚ) ≠ 0 := by
    exact_mod_cast fun e => h.failing (List.length_eq_zero_iff.mp e)
  rw [apfdOfNonempty h.failing h.tests]
  field_simp
  linarith

theorem columnMono {faults order other : List α} (dominated : ∀ k, detected faults other k ≤ detected faults order k)
    (k : Nat) : ((detected faults other (k-1) : ℚ) + detected faults other k) / 2 ≤
      ((detected faults order (k-1) : ℚ) + detected faults order k) / 2 := by
  have left : (detected faults other (k-1) : ℚ) ≤ detected faults order (k-1) := Nat.cast_le.mpr (dominated (k-1))
  have right : (detected faults other k : ℚ) ≤ detected faults order k := Nat.cast_le.mpr (dominated k)
  linarith

theorem areaMono {faults order other : List α} (length : other.length = order.length)
    (dominated : ∀ k, detected faults other k ≤ detected faults order k) :
    area faults other ≤ area faults order := by
  rw [area,area,length]
  exact Finset.sum_le_sum (fun k _ => columnMono dominated k)

theorem areaSame {faults order other : List α} (length : other.length = order.length)
    (dominated : ∀ k, detected faults other k ≤ detected faults order k)
    (same : area faults other = area faults order) {k : Nat} (inside : k ≤ order.length) :
    detected faults other k = detected faults order k := by
  cases k with
  | zero => simp [detected,hitsZero]
  | succ k =>
    rw [area,area,length] at same
    have columns := (Finset.sum_eq_sum_iff_of_le (fun i _ => columnMono dominated i)).mp same (k+1)
      (Finset.mem_Icc.mpr ⟨by omega,inside⟩)
    have left : (detected faults other (k+1-1) : ℚ) ≤ detected faults order (k+1-1) :=
      Nat.cast_le.mpr (dominated (k+1-1))
    have right : (detected faults other (k+1) : ℚ) ≤ detected faults order (k+1) :=
      Nat.cast_le.mpr (dominated (k+1))
    have equal : (detected faults other (k+1) : ℚ) = detected faults order (k+1) := by linarith
    exact_mod_cast equal

theorem apfdDominance {faults order other : List α} (h : Judged faults order)
    (same : other.Perm order) (dominated : ∀ k, detected faults other k ≤ detected faults order k) :
    apfd faults other ≤ apfd faults order ∧
      (apfd faults other = apfd faults order → ∀ k, detected faults other k = detected faults order k) := by
  have scale : (0 : ℚ) < 1 / (order.length * faults.length) := by
    have n := List.length_pos_iff.mpr h.tests
    have m := List.length_pos_iff.mpr h.failing
    positivity
  rw [apfdArea h,apfdArea (h.perm same),same.length_eq]
  refine ⟨mul_le_mul_of_nonneg_left (areaMono same.length_eq dominated) scale.le,?_⟩
  intro equal k
  have areas := mul_left_cancel₀ scale.ne' equal
  by_cases inside : k ≤ order.length
  · exact areaSame same.length_eq dominated areas inside
  · exact hitsPerm _ same (by rw [same.length_eq]; omega)

/-- The score is the area under the fault-detection curve, so an order that
never detects fewer faults never scores less. -/
theorem apfdIsDetectionArea (faults order : List α) (h : Judged faults order) :
    apfd faults order = 1 / (order.length * faults.length) *
      ∑ k ∈ Finset.Icc 1 order.length, ((detected faults order (k-1) : ℚ) + detected faults order k) / 2 ∧
    ∀ other : List α, other.Perm order → (∀ k, detected faults other k ≤ detected faults order k) →
      apfd faults other ≤ apfd faults order ∧
      (apfd faults other = apfd faults order → ∀ k, detected faults other k = detected faults order k) :=
  ⟨apfdArea h,fun _ same dominated => apfdDominance h same dominated⟩

theorem judgedThree : Judged [2,0] [2,1,0] := ⟨by decide,by decide,by decide,by decide⟩

theorem apfdIsDetectionAreaThree :
    apfd [2,0] [2,1,0] = 1 / (([2,1,0] : List Nat).length * ([2,0] : List Nat).length) *
      ∑ k ∈ Finset.Icc 1 ([2,1,0] : List Nat).length,
        ((detected [2,0] [2,1,0] (k-1) : ℚ) + detected [2,0] [2,1,0] k) / 2 :=
  (apfdIsDetectionArea [2,0] [2,1,0] judgedThree).1

theorem Judged.size {faults order : List α} (h : Judged faults order) : faults.length ≤ order.length := by
  rw [← h.count]
  exact List.countP_le_length

theorem faultsExactly {faults part : List α} (distinct : part.Nodup) (size : part.length = faults.length) :
    (∀ t ∈ part, isFault faults t = true) ↔ part.Perm faults := by
  simp only [isFault,decide_eq_true_eq]
  constructor
  · intro all
    exact (distinct.subperm all).perm_of_length_le size.ge
  · intro same t ht
    exact same.mem_iff.mp ht

theorem apfdGap {faults order : List α} (h : Judged faults order) :
    apfd faults order = 1 - faults.length / (2 * order.length) -
      (2 * positionSum (isFault faults) order - faults.length * (faults.length + 1)) /
        (2 * faults.length * order.length) := by
  have m : (faults.length : ℚ) ≠ 0 := by simpa using h.failing
  have n : (order.length : ℚ) ≠ 0 := by simpa using h.tests
  rw [apfdOfNonempty h.failing h.tests]
  field_simp
  ring

theorem apfdReverse {faults order : List α} (h : Judged faults order) :
    apfd faults order + apfd faults order.reverse = 1 := by
  have m : (faults.length : ℚ) ≠ 0 := by simpa using h.failing
  have n : (order.length : ℚ) ≠ 0 := by simpa using h.tests
  have positions := positionSumReverse (isFault faults) order
  rw [h.count] at positions
  have cast : (positionSum (isFault faults) order : ℚ) + positionSum (isFault faults) order.reverse =
      (order.length + 1) * faults.length := by exact_mod_cast positions
  rw [apfdOfNonempty h.failing h.tests,apfdOfNonempty h.failing h.reverse.tests,List.length_reverse]
  field_simp
  linarith

theorem apfdBest {faults order : List α} (h : Judged faults order) :
    apfd faults order ≤ 1 - faults.length / (2 * order.length) ∧
      (apfd faults order = 1 - faults.length / (2 * order.length) ↔ (order.take faults.length).Perm faults) := by
  have m : (0 : ℚ) < faults.length := by exact_mod_cast List.length_pos_iff.mpr h.failing
  have n : (0 : ℚ) < order.length := by exact_mod_cast List.length_pos_iff.mpr h.tests
  have scale : (0 : ℚ) < 2 * faults.length * order.length := by positivity
  obtain ⟨least,attained⟩ := leastPositions (isFault faults) order
  rw [h.count] at least attained
  have bound : (faults.length : ℚ) * (faults.length + 1) ≤ 2 * positionSum (isFault faults) order := by
    exact_mod_cast least
  have first : (order.take faults.length).length = faults.length := by
    rw [List.length_take,Nat.min_eq_left h.size]
  rw [← faultsExactly (h.distinctOrder.sublist (List.take_sublist _ _)) first,← attained,apfdGap h,sub_le_self_iff,
    sub_eq_self,div_eq_zero_iff,or_iff_left scale.ne',sub_eq_zero]
  exact ⟨div_nonneg (by linarith) scale.le,by exact_mod_cast Iff.rfl⟩

theorem apfdWorst {faults order : List α} (h : Judged faults order) :
    faults.length / (2 * order.length) ≤ apfd faults order ∧
      (apfd faults order = faults.length / (2 * order.length) ↔
        (order.drop (order.length - faults.length)).Perm faults) := by
  obtain ⟨best,attained⟩ := apfdBest h.reverse
  have symmetric := apfdReverse h
  rw [List.length_reverse] at best attained
  have last : (order.reverse.take faults.length).Perm faults ↔
      (order.drop (order.length - faults.length)).Perm faults := by
    rw [List.take_reverse]
    exact (List.reverse_perm _).congr_left faults
  rw [← last,← attained]
  refine ⟨by linarith,?_⟩
  constructor
  · intro same
    linarith
  · intro same
    linarith

/-- The score lies between `m/(2n)` and `1 - m/(2n)`; the bounds are met by the orders that
end or start with the faults, and reversing the order mirrors the score. -/
theorem apfdRange (faults order : List α) (h : Judged faults order) :
    (faults.length / (2 * order.length) ≤ apfd faults order ∧
      apfd faults order ≤ 1 - faults.length / (2 * order.length)) ∧
    (apfd faults order = 1 - faults.length / (2 * order.length) ↔ (order.take faults.length).Perm faults) ∧
    (apfd faults order = faults.length / (2 * order.length) ↔
      (order.drop (order.length - faults.length)).Perm faults) ∧
    apfd faults order + apfd faults order.reverse = 1 :=
  ⟨⟨(apfdWorst h).1,(apfdBest h).1⟩,(apfdBest h).2,(apfdWorst h).2,apfdReverse h⟩

theorem apfdRangeThree : (([2,0] : List Nat).length / (2 * ([2,1,0] : List Nat).length) ≤ apfd [2,0] [2,1,0] ∧
      apfd [2,0] [2,1,0] ≤ 1 - ([2,0] : List Nat).length / (2 * ([2,1,0] : List Nat).length)) ∧
    apfd [2,0] [2,1,0] ≠ 1 - ([2,0] : List Nat).length / (2 * ([2,1,0] : List Nat).length) ∧
    apfd [2,0] [2,1,0] + apfd [2,0] [2,1,0].reverse = 1 := by
  obtain ⟨range,best,_,mirror⟩ := apfdRange [2,0] [2,1,0] judgedThree
  exact ⟨range,fun same => absurd (best.mp same) (by decide),mirror⟩

end KernelTcp.EHelper

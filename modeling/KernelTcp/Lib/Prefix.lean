import Mathlib.Algebra.BigOperators.Intervals
import Mathlib.Data.List.Nodup
import Mathlib.Data.Rat.Defs
import Mathlib.Tactic.Ring
import Mathlib.Tactic.Linarith

/-! Prefix counts of a predicate along a list and the sum of the positions that
satisfy it. The two are tied by summation by parts; no order on the elements. -/
namespace KernelTcp.Prefix
open scoped BigOperators
variable {α : Type}

def hits (p : α → Bool) (xs : List α) (k : Nat) : Nat := (xs.take k).countP p

def positionSum (p : α → Bool) (xs : List α) : Nat :=
  (xs.zipIdx.map (fun e => if p e.1 then e.2 + 1 else 0)).sum

theorem hitsZero (p : α → Bool) (xs : List α) : hits p xs 0 = 0 := by simp [hits]

theorem hitsLength (p : α → Bool) (xs : List α) : hits p xs xs.length = xs.countP p := by
  simp [hits]

theorem hitsBeyond (p : α → Bool) (xs : List α) {k : Nat} (beyond : xs.length ≤ k) :
    hits p xs k = xs.countP p := by
  simp [hits,List.take_of_length_le beyond]

theorem hitsAppend (p : α → Bool) (xs ys : List α) {k : Nat} (inside : k ≤ xs.length) :
    hits p (xs ++ ys) k = hits p xs k := by
  simp [hits,List.take_append_of_le_length inside]

theorem hitsPerm (p : α → Bool) {xs ys : List α} (same : xs.Perm ys) {k : Nat}
    (beyond : xs.length ≤ k) : hits p xs k = hits p ys k := by
  rw [hitsBeyond p xs beyond,hitsBeyond p ys (same.length_eq ▸ beyond)]
  exact same.countP_eq p

theorem positionSumSnoc (p : α → Bool) (xs : List α) (x : α) :
    positionSum p (xs ++ [x]) = positionSum p xs + if p x then xs.length + 1 else 0 := by
  simp [positionSum,List.zipIdx_append]

theorem positionSumPos {p : α → Bool} {xs : List α} {x : α} (mem : x ∈ xs) (holds : p x = true) :
    0 < positionSum p xs := by
  induction xs using List.reverseRecOn with
  | nil => simp at mem
  | append_singleton xs y ih =>
    rw [positionSumSnoc]
    rcases List.mem_append.mp mem with old | new
    · have before := ih old
      omega
    · rw [← List.mem_singleton.mp new,if_pos holds]
      omega

theorem positionSumCons (p : α → Bool) (x : α) (xs : List α) :
    positionSum p (x::xs) = (if p x then 1 else 0) + positionSum p xs + xs.countP p := by
  induction xs using List.reverseRecOn with
  | nil => simp [positionSum]
  | append_singleton xs y ih =>
    rw [← List.cons_append,positionSumSnoc,ih,positionSumSnoc,List.countP_append,List.countP_singleton,List.length_cons]
    cases p y with
    | true =>
      simp only [if_true]
      omega
    | false => rfl

theorem positionSumReverse (p : α → Bool) (xs : List α) :
    positionSum p xs + positionSum p xs.reverse = (xs.length + 1) * xs.countP p := by
  induction xs with
  | nil => simp [positionSum]
  | cons x xs ih =>
    rw [List.reverse_cons,positionSumSnoc,positionSumCons,List.countP_cons,List.length_cons,List.length_reverse]
    split
    · linarith
    · linarith

theorem leastPositions (p : α → Bool) (xs : List α) :
    xs.countP p * (xs.countP p + 1) ≤ 2 * positionSum p xs ∧
      (2 * positionSum p xs = xs.countP p * (xs.countP p + 1) ↔ ∀ x ∈ xs.take (xs.countP p), p x = true) := by
  induction xs with
  | nil => simp [positionSum]
  | cons x xs ih =>
    obtain ⟨least,attained⟩ := ih
    rw [positionSumCons]
    cases here : p x with
    | true =>
      rw [List.countP_cons_of_pos here,List.take_succ_cons,List.forall_mem_cons,← attained,if_pos rfl]
      have next : (xs.countP p + 1) * (xs.countP p + 1 + 1) = xs.countP p * (xs.countP p + 1) + 2 * (xs.countP p + 1) := by
        ring
      rw [next]
      refine ⟨by omega,?_⟩
      constructor
      · intro same
        exact ⟨here,by omega⟩
      · intro rest
        have same := rest.2
        omega
    | false =>
      rw [List.countP_cons_of_neg (by simp [here]),if_neg (by simp)]
      refine ⟨by omega,?_⟩
      -- with the head missed, nothing but an empty choice reaches the bound
      cases count : xs.countP p with
      | zero =>
        rw [count] at attained
        simpa using attained
      | succ m =>
        rw [count] at least
        rw [List.take_succ_cons,List.forall_mem_cons]
        constructor
        · intro same
          omega
        · intro all
          simp [here] at all

theorem positionsAndArea (p : α → Bool) (xs : List α) :
    2 * positionSum p xs + ∑ k ∈ Finset.range xs.length, (hits p xs k + hits p xs (k+1)) =
      (2 * xs.length + 1) * xs.countP p := by
  induction xs using List.reverseRecOn with
  | nil => simp [positionSum]
  | append_singleton xs x ih =>
    -- columns that end inside xs do not see the new element
    have inner : ∑ k ∈ Finset.range xs.length, (hits p (xs++[x]) k + hits p (xs++[x]) (k+1)) =
        ∑ k ∈ Finset.range xs.length, (hits p xs k + hits p xs (k+1)) := by
      apply Finset.sum_congr rfl
      intro k hk
      have bound := Finset.mem_range.mp hk
      rw [hitsAppend p xs [x] (by omega),hitsAppend p xs [x] (by omega)]
    have before : hits p (xs++[x]) xs.length = xs.countP p := by
      rw [hitsAppend p xs [x] (Nat.le_refl _),hitsLength]
    have after : hits p (xs++[x]) (xs.length+1) = xs.countP p + if p x then 1 else 0 := by
      rw [hitsBeyond p _ (by simp)]
      simp [List.countP_append,List.countP_cons]
    have count : (xs++[x]).countP p = xs.countP p + if p x then 1 else 0 := by
      simp [List.countP_append,List.countP_cons]
    rw [List.length_append,List.length_singleton,Finset.sum_range_succ,inner,before,after,count,
      positionSumSnoc]
    split
    · linarith
    · linarith

end KernelTcp.Prefix

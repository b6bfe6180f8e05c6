import KernelTcp.Lib.Py
import Mathlib.Algebra.BigOperators.Group.Finset.Basic
import Mathlib.Algebra.Order.BigOperators.Group.Finset

/-! Lists compared position by position, the shorter one padded with a filler. The cost of a
pair of positions is a metric on the elements; its sum is one on the lists without filler. -/
namespace KernelTcp.Padded
open scoped BigOperators
variable {α : Type}

structure Cost (cost : α → α → Nat) : Prop where
  same : ∀ {x y}, cost x y = 0 ↔ x = y
  symm : ∀ x y, cost x y = cost y x
  triangle : ∀ x y z, cost x z ≤ cost x y + cost y z

def reading (nul : α) (xs : List α) (i : Nat) : α := xs[i]?.getD nul

def total (nul : α) (cost : α → α → Nat) (n : Nat) (xs ys : List α) : Nat :=
  ∑ i ∈ Finset.range n, cost (reading nul xs i) (reading nul ys i)

section total
variable {nul : α} {cost : α → α → Nat} {xs ys zs : List α} {n : Nat}

theorem readingBeyond (beyond : xs.length ≤ n) : reading nul xs n = nul := by
  rw [reading,List.getElem?_eq_none beyond]
  rfl

theorem totalNext : total nul cost (n+1) xs ys = total nul cost n xs ys + cost (reading nul xs n) (reading nul ys n) :=
  Finset.sum_range_succ _ _

theorem totalBeyond (h : Cost cost) (left : xs.length ≤ n) (right : ys.length ≤ n) {m : Nat} (more : n ≤ m) :
    total nul cost m xs ys = total nul cost n xs ys := by
  induction m, more using Nat.le_induction with
  | base => rfl
  | succ m more ih =>
    rw [totalNext,ih,readingBeyond (left.trans more),readingBeyond (right.trans more),h.same.mpr rfl,Nat.add_zero]

theorem totalSymm (h : Cost cost) : total nul cost n xs ys = total nul cost n ys xs :=
  Finset.sum_congr rfl (fun _ _ => h.symm _ _)

theorem totalTriangle (h : Cost cost) : total nul cost n xs zs ≤ total nul cost n xs ys + total nul cost n ys zs := by
  unfold total
  rw [← Finset.sum_add_distrib]
  exact Finset.sum_le_sum (fun _ _ => h.triangle _ _ _)

theorem totalMono {other : α → α → Nat} (below : ∀ x y, cost x y ≤ other x y) :
    total nul cost n xs ys ≤ total nul other n xs ys := Finset.sum_le_sum (fun _ _ => below _ _)

theorem readingSame (left : nul ∉ xs) (right : nul ∉ ys) (same : ∀ i < max xs.length ys.length,
    reading nul xs i = reading nul ys i) : xs = ys := by
  refine List.ext_getElem? ?_
  intro i
  by_cases inside : i < max xs.length ys.length
  · have here := same i inside
    unfold reading at here
    cases first : xs[i]? with
    | none =>
      cases second : ys[i]? with
      | none => rfl
      | some y =>
        rw [first,second] at here
        have filler : nul = y := here
        exact absurd (filler ▸ List.mem_of_getElem? second) right
    | some x =>
      cases second : ys[i]? with
      | none =>
        rw [first,second] at here
        have filler : x = nul := here
        exact absurd (filler ▸ List.mem_of_getElem? first) left
      | some y =>
        rw [first,second] at here
        exact congrArg some here
  · rw [List.getElem?_eq_none (by omega),List.getElem?_eq_none (by omega)]

theorem totalZero (h : Cost cost) (left : nul ∉ xs) (right : nul ∉ ys) (first : xs.length ≤ n) (second : ys.length ≤ n) :
    total nul cost n xs ys = 0 ↔ xs = ys := by
  unfold total
  rw [Finset.sum_eq_zero_iff]
  constructor
  · intro zeros
    apply readingSame left right
    intro i inside
    exact h.same.mp (zeros i (Finset.mem_range.mpr (by omega)))
  · intro same i _
    rw [same]
    exact h.same.mpr rfl

theorem totalMap {β : Type} (f : β → α) (filler : β) (n : Nat) (xs ys : List β) :
    total (f filler) cost n (xs.map f) (ys.map f) = total filler (fun x y => cost (f x) (f y)) n xs ys := by
  have through : ∀ (zs : List β) (i : Nat), reading (f filler) (zs.map f) i = f (reading filler zs i) := by
    intro zs i
    unfold reading
    rw [List.getElem?_map]
    cases zs[i]? <;> rfl
  unfold total
  simp only [through]

theorem readingAppend (xs : List α) (k i : Nat) : reading nul (xs ++ List.replicate k nul) i = reading nul xs i := by
  unfold reading
  rw [List.getElem?_append]
  split
  · rfl
  · rename_i beyond
    rw [List.getElem?_eq_none (Nat.le_of_not_lt beyond),List.getElem?_replicate]
    split <;> rfl

theorem totalCons (x y : α) : total nul cost (n+1) (x::xs) (y::ys) = cost x y + total nul cost n xs ys := by
  unfold total
  rw [Finset.sum_range_succ',Nat.add_comm]
  rfl

theorem totalNil (y : α) : total nul cost (n+1) [] (y::ys) = cost nul y + total nul cost n [] ys := by
  unfold total
  rw [Finset.sum_range_succ',Nat.add_comm]
  rfl

end total

def addCost (cost : α → α → Nat) (xs ys : List α) (distance i : Nat) : Except PyError Nat := do
  let x ← Py.getItem xs i
  let y ← Py.getItem ys i
  .ok (distance + cost x y)

def compare (cost : α → α → Nat) (xs ys : List α) : Except PyError Nat :=
  (List.range xs.length).foldlM (addCost cost xs ys) 0

theorem compareTotal (nul : α) (cost : α → α → Nat) {xs ys : List α} (size : xs.length = ys.length) :
    compare cost xs ys = .ok (total nul cost xs.length xs ys) := by
  have run : ∀ n ≤ xs.length, (List.range n).foldlM (addCost cost xs ys) 0 = .ok (total nul cost n xs ys) := by
    intro n inside
    induction n with
    | zero => rfl
    | succ n ih =>
      have first : xs[n]? = some (reading nul xs n) := by
        rw [reading,List.getElem?_eq_getElem (by omega)]
        rfl
      have second : ys[n]? = some (reading nul ys n) := by
        rw [reading,List.getElem?_eq_getElem (by omega)]
        rfl
      rw [List.range_succ,List.foldlM_append,ih (by omega),totalNext]
      simp only [bind,Except.bind,List.foldlM_cons,List.foldlM_nil,addCost,Py.getItemInside first,Py.getItemInside second]
      rfl
  exact run xs.length (Nat.le_refl _)

end KernelTcp.Padded

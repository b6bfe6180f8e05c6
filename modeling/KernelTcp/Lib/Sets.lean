import KernelTcp.Lib.Py
import Mathlib.Data.List.Nodup

/-! Sets as lists of distinct elements, in the order in which they were added. -/
namespace KernelTcp.Sets
variable {α β : Type} [DecidableEq α]

def add (s : List α) (x : α) : List α := if x ∈ s then s else s ++ [x]

def union (s t : List α) : List α := t.foldl add s

def unionOver (f : β → List α) (xs : List β) : List α := xs.foldl (fun s x => union s (f x)) []

theorem memAdd {s : List α} {x y : α} : y ∈ add s x ↔ y ∈ s ∨ y = x := by
  unfold add
  split
  · rename_i present
    constructor
    · exact Or.inl
    · intro h
      rcases h with old | rfl
      · exact old
      · exact present
  · simp

theorem memUnion {s t : List α} {y : α} : y ∈ union s t ↔ y ∈ s ∨ y ∈ t := by
  unfold union
  induction t generalizing s with
  | nil => simp
  | cons x t ih => rw [List.foldl_cons,ih,memAdd,List.mem_cons,or_assoc]

theorem addNodup {s : List α} (distinct : s.Nodup) (x : α) : (add s x).Nodup := by
  unfold add
  split
  · exact distinct
  · rename_i new
    rw [← List.concat_eq_append]
    exact distinct.concat new

theorem unionNodup {s : List α} (distinct : s.Nodup) (t : List α) : (union s t).Nodup := by
  unfold union
  exact List.foldlRecOn t add distinct (fun _ ih x _ => addNodup ih x)

theorem memUnionFrom {f : β → List α} {xs : List β} {s : List α} {y : α} :
    y ∈ xs.foldl (fun s x => union s (f x)) s ↔ y ∈ s ∨ ∃ x ∈ xs, y ∈ f x := by
  induction xs generalizing s with
  | nil => simp
  | cons x xs ih =>
    rw [List.foldl_cons,ih,memUnion]
    simp only [List.mem_cons,exists_eq_or_imp,or_assoc]

theorem memUnionOver {f : β → List α} {xs : List β} {y : α} : y ∈ unionOver f xs ↔ ∃ x ∈ xs, y ∈ f x := by
  unfold unionOver
  rw [memUnionFrom]
  simp

theorem memCollected {p : α → Bool} {seen : List α} {y : α} :
    y ∈ seen.foldr (fun x s => if p x then add s x else s) [] ↔ y ∈ seen ∧ p y = true := by
  induction seen with
  | nil => simp
  | cons x seen ih =>
    rw [List.foldr_cons]
    cases holds : p x with
    | true =>
      rw [if_pos rfl,memAdd,ih,List.mem_cons]
      constructor
      · intro h
        rcases h with old | rfl
        · exact ⟨Or.inr old.1,old.2⟩
        · exact ⟨Or.inl rfl,holds⟩
      · intro h
        obtain ⟨rfl | old,hp⟩ := h
        · exact Or.inr rfl
        · exact Or.inl ⟨old,hp⟩
    | false =>
      rw [if_neg (by simp),ih,List.mem_cons]
      constructor
      · exact fun old => ⟨Or.inr old.1,old.2⟩
      · intro h
        obtain ⟨rfl | old,hp⟩ := h
        · rw [holds] at hp
          contradiction
        · exact ⟨old,hp⟩

end KernelTcp.Sets

import KernelTcp.Lib.First
import KernelTcp.Lib.Picking
import Mathlib.Data.List.Sort

/-! Ranking by a value, the largest first and equal values in their old order. Taking the first of
the largest out again and again gives the same list. -/
namespace KernelTcp.Ranking
open Picking (others)
variable {α : Type} {value : α → Nat} {xs : List α}

def NotBelow (value : α → Nat) (a b : α) : Prop := value b ≤ value a

instance (value : α → Nat) : DecidableRel (NotBelow value) := fun a b => inferInstanceAs (Decidable (value b ≤ value a))
instance (value : α → Nat) : Std.Total (NotBelow value) := ⟨fun a b => le_total (value b) (value a)⟩
instance (value : α → Nat) : IsTrans α (NotBelow value) := ⟨fun _ _ _ first second => second.trans first⟩

def ranked (value : α → Nat) (xs : List α) : List α := xs.insertionSort (NotBelow value)

theorem rankedPerm (value : α → Nat) (xs : List α) : (ranked value xs).Perm xs := xs.perm_insertionSort _

theorem rankedSorted (value : α → Nat) (xs : List α) : (ranked value xs).Pairwise (NotBelow value) := List.pairwise_insertionSort _ xs

theorem pairOneWay (distinct : xs.Nodup) {a b : α} (forth : [a,b].Sublist xs) : ¬ [b,a].Sublist xs := by
  induction xs with
  | nil => exact fun _ => by simp at forth
  | cons x xs ih =>
    rw [List.nodup_cons] at distinct
    intro back
    cases forth with
    | cons _ forth =>
      cases back with
      | cons _ back => exact ih distinct.2 forth back
      | cons_cons _ back => exact distinct.1 (forth.subset (by simp))
    | cons_cons _ forth =>
      cases back with
      | cons _ back => exact distinct.1 (back.subset (by simp))
      | cons_cons _ back => exact distinct.1 (forth.subset (by simp))

theorem pairEither {a b : α} (first : a ∈ xs) (second : b ∈ xs) (other : a ≠ b) : [a,b].Sublist xs ∨ [b,a].Sublist xs := by
  induction xs with
  | nil => simp at first
  | cons x xs ih =>
    cases List.mem_cons.mp first with
    | inl same =>
      subst same
      exact Or.inl (List.Sublist.cons_cons a (List.singleton_sublist.mpr (List.mem_of_ne_of_mem (Ne.symm other) second)))
    | inr early =>
      cases List.mem_cons.mp second with
      | inl same =>
        subst same
        exact Or.inr (List.Sublist.cons_cons b (List.singleton_sublist.mpr early))
      | inr late => exact (ih early late).imp (List.Sublist.cons x) (List.Sublist.cons x)

def Ahead (value : α → Nat) (xs : List α) (a b : α) : Prop := value b < value a ∨ value a = value b ∧ [a,b].Sublist xs

theorem aheadOnce (distinct : xs.Nodup) {a b : α} (forth : Ahead value xs a b) : ¬ Ahead value xs b a := by
  intro back
  cases forth with
  | inl more =>
    cases back with
    | inl less => omega
    | inr same => omega
  | inr forth =>
    cases back with
    | inl less => omega
    | inr back => exact pairOneWay distinct forth.2 back.2

theorem rankedAhead (distinct : xs.Nodup) : (ranked value xs).Pairwise (Ahead value xs) := by
  have perm := rankedPerm value xs
  have nodup := perm.nodup_iff.mpr distinct
  rw [List.pairwise_iff_forall_sublist]
  intro a b pair
  have bound : value b ≤ value a := List.pairwise_iff_forall_sublist.mp (rankedSorted value xs) pair
  have other : a ≠ b := List.pairwise_iff_forall_sublist.mp nodup pair
  cases bound.lt_or_eq with
  | inl more => exact Or.inl more
  | inr same =>
    refine Or.inr ⟨same.symm,?_⟩
    have listed := pair.subset
    cases pairEither (perm.mem_iff.mp (listed (by simp))) (perm.mem_iff.mp (listed (by simp))) other with
    | inl forth => exact forth
    | inr back =>
      have tie : NotBelow value b a := same.ge
      exact absurd (List.pair_sublist_insertionSort tie back) (pairOneWay nodup pair)

theorem firstAhead {t : α} (first : First value xs t) {b : α} (listed : b ∈ xs) (other : b ≠ t) : Ahead value xs t b := by
  obtain ⟨before,after,rfl,early,late⟩ := first
  rw [List.mem_append,List.mem_cons] at listed
  obtain here | same | there := listed
  · exact Or.inl (early b here)
  · exact absurd same other
  · cases (late b there).lt_or_eq with
    | inl more => exact Or.inl more
    | inr same =>
      have pair : [t,b].Sublist (t::after) := List.Sublist.cons_cons t (List.singleton_sublist.mpr there)
      exact Or.inr ⟨same.symm,pair.trans (List.sublist_append_right before _)⟩

theorem rankedFirst (distinct : xs.Nodup) {t : α} (first : First value xs t) : (ranked value xs).head? = some t := by
  have perm := rankedPerm value xs
  have order : (ranked value xs).Pairwise (Ahead value xs) := rankedAhead distinct
  have here := perm.mem_iff.mpr first.mem
  cases ranks : ranked value xs with
  | nil =>
    rw [ranks] at here
    contradiction
  | cons h rest =>
    rw [ranks] at perm order here
    cases List.mem_cons.mp here with
    | inl same => rw [same,List.head?_cons]
    | inr later =>
      have listed : h ∈ xs := perm.mem_iff.mp List.mem_cons_self
      have apart : h ≠ t := fun same => (List.nodup_cons.mp (perm.nodup_iff.mpr distinct)).1 (same ▸ later)
      exact absurd ((List.pairwise_cons.mp order).1 t later) (aheadOnce distinct (firstAhead first listed apart))

theorem firstsRanked [DecidableEq α] (distinct : xs.Nodup) {order : List α} (perm : order.Perm xs)
    (firsts : ∀ early t late, order = early ++ t::late → First value (others xs early) t) : order = ranked value xs := by
  have nodup := perm.nodup_iff.mpr distinct
  have ahead : order.Pairwise (Ahead value xs) := by
    rw [List.pairwise_iff_forall_sublist]
    intro a b pair
    obtain ⟨front,rest,rfl,inFront,inRest⟩ := List.cons_sublist_iff.mp pair
    obtain ⟨early,middle,rfl⟩ := List.append_of_mem inFront
    have later : b ∈ middle ++ rest := List.mem_append_right middle (List.singleton_sublist.mp inRest)
    rw [List.append_assoc,List.cons_append] at nodup perm
    have kept : (others xs early).Sublist xs := List.filter_sublist
    have left : b ∈ others xs early := by
      rw [(Picking.othersPerm distinct perm).mem_iff]
      exact List.mem_cons_of_mem a later
    have other : b ≠ a := fun same => (List.nodup_cons.mp (List.nodup_append.mp nodup).2.1).1 (same ▸ later)
    have first := firsts early a (middle ++ rest) (by simp)
    exact (firstAhead first left other).imp_right (fun tie => ⟨tie.1,tie.2.trans kept⟩)
  exact (perm.trans (rankedPerm value xs).symm).eq_of_pairwise
    (fun a b _ _ forth back => absurd back (aheadOnce distinct forth)) ahead (rankedAhead distinct)

end KernelTcp.Ranking

import Mathlib.Data.List.Perm.Basic
import Mathlib.Data.List.Nodup

/-! Orders made by taking one element after the other out of a list. What is chosen may
depend on what was taken before and on what is left. -/
namespace KernelTcp.Picking
variable {τ : Type} [DecidableEq τ] {choose : List τ → List τ → τ → Prop} {before left rest : List τ} {x : τ}

def others (left before : List τ) : List τ := left.filter (fun s => s ∉ before)

def without (left : List τ) (x : τ) : List τ := left.erase x

inductive Picked (choose : List τ → List τ → τ → Prop) : List τ → List τ → List τ → Prop where
  | nil (before : List τ) : Picked choose before [] []
  | cons {before left rest : List τ} {x : τ} : choose before left x → x ∈ left →
      Picked choose (before ++ [x]) (without left x) rest → Picked choose before left (x::rest)

theorem othersNil (left : List τ) : others left [] = left := by
  simp [others]

theorem memOthers {s : τ} : s ∈ others left before ↔ s ∈ left ∧ s ∉ before := by
  simp [others]

theorem withoutNodup (distinct : left.Nodup) (x : τ) : (without left x).Nodup := distinct.erase x

theorem withoutPerm (listed : x ∈ left) : (x::without left x).Perm left := (List.perm_cons_erase listed).symm

theorem withoutLength (listed : x ∈ left) {n : Nat} (size : left.length = n+1) : (without left x).length = n := by
  unfold without
  rw [List.length_erase_of_mem listed,size]
  rfl

theorem memWithout (distinct : left.Nodup) {y : τ} : y ∈ without left x ↔ y ≠ x ∧ y ∈ left := distinct.mem_erase_iff

theorem othersWithout (distinct : left.Nodup) (x : τ) (before : List τ) :
    others (without left x) before = others left (x::before) := by
  unfold others without
  rw [distinct.erase_eq_filter,List.filter_filter]
  exact List.filter_congr (fun s _ => by by_cases same : s = x <;> simp [same])

theorem othersPerm {after : List τ} (distinct : left.Nodup) (whole : (before ++ after).Perm left) :
    (others left before).Perm after := by
  have apart := List.disjoint_of_nodup_append (whole.nodup_iff.mpr distinct)
  have kept : others (before ++ after) before = after := by
    unfold others
    rw [List.filter_append,List.filter_eq_nil_iff.mpr (by simp),List.nil_append,List.filter_eq_self]
    exact fun s listed => by simpa using fun taken => apart taken listed
  exact (whole.symm.filter _).trans (List.Perm.of_eq kept)

theorem Picked.perm (picked : Picked choose before left rest) : rest.Perm left := by
  induction picked with
  | nil => exact List.Perm.nil
  | cons _ listed _ ih => exact (ih.cons _).trans (withoutPerm listed)

theorem Picked.chosen {early late : List τ} (distinct : left.Nodup) (picked : Picked choose before left (early ++ x::late)) :
    choose (before ++ early) (others left early) x := by
  induction early generalizing before left with
  | nil =>
    cases picked with
    | cons chosen _ _ => rwa [List.append_nil,othersNil]
  | cons u early ih =>
    cases picked with
    | cons _ _ later =>
      have step := ih (withoutNodup distinct u) later
      rwa [othersWithout distinct,List.append_assoc] at step

def place (xs : List τ) (x : τ) : Nat := xs.idxOf x

theorem placesRange {xs : List τ} (distinct : xs.Nodup) : xs.map (place xs) = List.range xs.length := by
  refine List.ext_getElem (by simp) ?_
  intro i _ _
  simp [place,distinct.idxOf_getElem]

theorem placeNumbered {xs : List τ} (listed : x ∈ xs) : (x,place xs x) ∈ xs.zipIdx := by
  unfold place
  rw [List.mem_zipIdx_iff_getElem?,List.getElem?_eq_getElem (List.idxOf_lt_length_of_mem listed),List.getElem_idxOf]

end KernelTcp.Picking

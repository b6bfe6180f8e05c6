import Mathlib.Order.Bounds.Basic
import Mathlib.Order.MinMax
import Mathlib.Data.List.Basic

/-! Edits of one element in a list, scripts of them, and the length of a shortest script
by recursion on the two lists. The recursion keeps equal heads without looking further. -/
namespace KernelTcp.Edits
variable {α : Type}

inductive Edit : List α → List α → Prop
  | insert (before after : List α) (x : α) : Edit (before ++ after) (before ++ x::after)
  | delete (before after : List α) (x : α) : Edit (before ++ x::after) (before ++ after)
  | substitute (before after : List α) (x y : α) : Edit (before ++ x::after) (before ++ y::after)

inductive Script : Nat → List α → List α → Prop
  | done (xs : List α) : Script 0 xs xs
  | edit {n : Nat} {xs ys zs : List α} (first : Edit xs ys) (rest : Script n ys zs) : Script (n+1) xs zs

theorem Edit.cons {xs ys : List α} (edit : Edit xs ys) (x : α) : Edit (x::xs) (x::ys) := by
  cases edit with
  | insert before after y => exact .insert (x::before) after y
  | delete before after y => exact .delete (x::before) after y
  | substitute before after y z => exact .substitute (x::before) after y z

theorem Edit.reverse {xs ys : List α} (edit : Edit xs ys) : Edit xs.reverse ys.reverse := by
  cases edit with
  | insert before after x => simpa using Edit.insert after.reverse before.reverse x
  | delete before after x => simpa using Edit.delete after.reverse before.reverse x
  | substitute before after x y => simpa using Edit.substitute after.reverse before.reverse x y

namespace Script

theorem cons {n : Nat} {xs ys : List α} (script : Script n xs ys) (x : α) : Script n (x::xs) (x::ys) := by
  induction script with
  | done xs => exact .done (x::xs)
  | edit first _ ih => exact .edit (first.cons x) ih

theorem reverse {n : Nat} {xs ys : List α} (script : Script n xs ys) : Script n xs.reverse ys.reverse := by
  induction script with
  | done xs => exact .done xs.reverse
  | edit first _ ih => exact .edit first.reverse ih

theorem reversed {n : Nat} {xs ys : List α} : Script n xs.reverse ys.reverse ↔ Script n xs ys := by
  constructor
  · intro script
    have back := script.reverse
    rwa [List.reverse_reverse,List.reverse_reverse] at back
  · exact reverse

theorem insertAll (ys : List α) : Script ys.length [] ys := by
  induction ys with
  | nil => exact .done []
  | cons y ys ih => exact .edit (.insert [] [] y) (ih.cons y)

theorem deleteAll (xs : List α) : Script xs.length xs [] := by
  induction xs with
  | nil => exact .done []
  | cons x xs ih => exact .edit (.delete [] xs x) ih

end Script

variable [DecidableEq α]

def distance : List α → List α → Nat
  | [], ys => ys.length
  | x::xs, [] => (x::xs).length
  | x::xs, y::ys =>
      if x = y then distance xs ys
      else min (min (distance xs (y::ys) + 1) (distance (x::xs) ys + 1)) (distance xs ys + 1)
termination_by xs ys => xs.length + ys.length

theorem distanceNil (ys : List α) : distance [] ys = ys.length := by rw [distance]

theorem distanceEmpty (xs : List α) : distance xs [] = xs.length := by
  cases xs with
  | nil => rw [distance]
  | cons x xs => rw [distance]

theorem distanceCons (x y : α) (xs ys : List α) : distance (x::xs) (y::ys) =
    if x = y then distance xs ys
    else min (min (distance xs (y::ys) + 1) (distance (x::xs) ys + 1)) (distance xs ys + 1) := by rw [distance]

theorem distanceSymm (xs ys : List α) : distance xs ys = distance ys xs := by
  induction xs generalizing ys with
  | nil => rw [distanceNil,distanceEmpty]
  | cons x xs ih =>
    induction ys with
    | nil => rw [distanceNil,distanceEmpty]
    | cons y ys inner =>
      rw [distanceCons,distanceCons,ih,ih,inner]
      simp only [eq_comm]
      split
      · rfl
      · omega

theorem scriptDistance (xs ys : List α) : Script (distance xs ys) xs ys := by
  induction xs generalizing ys with
  | nil =>
    rw [distanceNil]
    exact .insertAll ys
  | cons x xs ih =>
    induction ys with
    | nil =>
      rw [distanceEmpty]
      exact .deleteAll (x::xs)
    | cons y ys inner =>
      have deleted : Script (distance xs (y::ys) + 1) (x::xs) (y::ys) := .edit (.delete [] xs x) (ih (y::ys))
      have inserted : Script (distance (x::xs) ys + 1) (x::xs) (y::ys) := .edit (.insert [] (x::xs) y) (inner.cons y)
      have substituted : Script (distance xs ys + 1) (x::xs) (y::ys) := .edit (.substitute [] xs x y) ((ih ys).cons y)
      rw [distanceCons]
      split
      · rename_i same
        rw [same]
        exact (ih ys).cons y
      · rcases min_choice (min (distance xs (y::ys) + 1) (distance (x::xs) ys + 1)) (distance xs ys + 1) with pick | pick
        · rw [pick]
          rcases min_choice (distance xs (y::ys) + 1) (distance (x::xs) ys + 1) with pick | pick
          · rw [pick]
            exact deleted
          · rw [pick]
            exact inserted
        · rw [pick]
          exact substituted

theorem distanceHead (x : α) (xs ys : List α) :
    distance (x::xs) ys ≤ distance xs ys + 1 ∧ distance xs ys ≤ distance (x::xs) ys + 1 := by
  induction size : xs.length + ys.length using Nat.strong_induction_on generalizing x xs ys with
  | h n ih =>
    cases ys with
    | nil =>
      rw [distanceEmpty,distanceEmpty,List.length_cons]
      omega
    | cons y ys =>
      simp only [List.length_cons] at size
      -- the head of the other list, by symmetry
      obtain ⟨longer,shorter⟩ := ih (ys.length + xs.length) (by omega) y ys xs rfl
      obtain ⟨_,dropped⟩ := ih (xs.length + ys.length) (by omega) x xs ys rfl
      rw [distanceSymm ys,distanceSymm (y::ys)] at longer shorter
      rw [distanceCons]
      split
      · exact ⟨shorter,longer⟩
      · omega

theorem distanceHeads (x y : α) (xs ys : List α) : distance (x::xs) (y::ys) ≤ distance xs ys + 1 := by
  obtain ⟨first,second⟩ := distanceHead x xs ys
  rw [distanceCons]
  split
  · omega
  · omega

theorem distanceSubstitute (x y : α) (xs zs : List α) : distance (x::xs) zs ≤ distance (y::xs) zs + 1 := by
  induction zs with
  | nil =>
    rw [distanceEmpty,distanceEmpty]
    simp
  | cons z zs ih =>
    have heads := distanceHeads x z xs zs
    obtain ⟨tail,_⟩ := distanceHead x xs (z::zs)
    have skip : distance (x::xs) (z::zs) ≤ distance (x::xs) zs + 1 := by
      have head := (distanceHead z zs (x::xs)).1
      rwa [distanceSymm (z::zs),distanceSymm zs] at head
    rw [distanceCons y z]
    split
    · exact heads
    · omega

theorem distanceBefore {xs ys : List α} (near : ∀ zs, distance xs zs ≤ distance ys zs + 1) (before : List α) (zs : List α)
    (sizes : xs.length ≤ ys.length + 1) : distance (before ++ xs) zs ≤ distance (before ++ ys) zs + 1 := by
  induction before generalizing zs with
  | nil => exact near zs
  | cons b before ih =>
    induction zs with
    | nil =>
      rw [distanceEmpty,distanceEmpty]
      simp only [List.length_append,List.length_cons]
      omega
    | cons z zs inner =>
      have first := ih (z::zs)
      have both := ih zs
      simp only [List.cons_append] at inner ⊢
      rw [distanceCons,distanceCons]
      split
      · exact both
      · omega

theorem distanceEdit {xs ys : List α} (edit : Edit xs ys) (zs : List α) : distance xs zs ≤ distance ys zs + 1 := by
  cases edit with
  | insert before after x => exact distanceBefore (fun zs => (distanceHead x after zs).2) before zs (by simp; omega)
  | delete before after x => exact distanceBefore (fun zs => (distanceHead x after zs).1) before zs (by simp)
  | substitute before after x y => exact distanceBefore (fun zs => distanceSubstitute x y after zs) before zs (by simp)

theorem distanceSelf (xs : List α) : distance xs xs = 0 := by
  induction xs with
  | nil => rw [distanceNil]; rfl
  | cons x xs ih => rw [distanceCons,if_pos rfl,ih]

theorem distanceLeast {n : Nat} {xs ys : List α} (script : Script n xs ys) : distance xs ys ≤ n := by
  induction script with
  | done xs => rw [distanceSelf]
  | edit first _ ih => exact (distanceEdit first _).trans (Nat.succ_le_succ ih)

/-- The distance is the length of a shortest script. -/
theorem distanceIsLeast (xs ys : List α) : IsLeast {n | Script n xs ys} (distance xs ys) :=
  ⟨scriptDistance xs ys,fun _ script => distanceLeast script⟩

theorem distanceReverse (xs ys : List α) : distance xs.reverse ys.reverse = distance xs ys := by
  have mirrored := distanceIsLeast xs.reverse ys.reverse
  simp only [Script.reversed] at mirrored
  exact mirrored.unique (distanceIsLeast xs ys)

end KernelTcp.Edits

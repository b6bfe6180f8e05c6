import KernelTcp.Lib.First
import KernelTcp.Lib.Picking
import Mathlib.Data.Finset.Card
import Mathlib.Algebra.Order.BigOperators.Group.List
import Mathlib.Algebra.Order.Ring.Int
import Mathlib.Algebra.Order.Ring.Pow
import Mathlib.Algebra.Group.Action.Defs
import Mathlib.Algebra.GroupWithZero.Nat
import Mathlib.Tactic.Ring
import Mathlib.Tactic.Linarith

/-! Greedy maximum coverage. Each candidate covers a finite set of points; a greedy
order takes, of the candidates left, the first one that covers the most new points. -/
namespace KernelTcp.Greedy
open Picking (Picked)
variable {τ π : Type} [DecidableEq π] (cover : τ → Finset π)

def covered : List τ → Finset π
  | [] => ∅
  | t::ts => cover t ∪ covered ts

def gain (base : Finset π) (t : τ) : Nat := (cover t \ base).card

inductive Order : Finset π → List τ → List τ → Prop where
  | nil (base : Finset π) : Order base [] []
  | cons {base : Finset π} {before after order : List τ} {t : τ} :
      (∀ s ∈ before, gain cover base s < gain cover base t) →
      (∀ s ∈ after, gain cover base s ≤ gain cover base t) →
      Order (base ∪ cover t) (before ++ after) order → Order base (before ++ t::after) (t::order)

variable {cover}

theorem memCovered {ts : List τ} {p : π} : p ∈ covered cover ts ↔ ∃ t ∈ ts, p ∈ cover t := by
  induction ts with
  | nil => simp [covered]
  | cons t ts ih => rw [covered,Finset.mem_union,ih,List.exists_mem_cons_iff]

theorem coveredAppend (ts us : List τ) : covered cover (ts ++ us) = covered cover ts ∪ covered cover us := by
  induction ts with
  | nil => rw [List.nil_append,covered,Finset.empty_union]
  | cons t ts ih => rw [List.cons_append,covered,covered,ih,Finset.union_assoc]

theorem orderPerm {base : Finset π} {left order : List τ} (greedy : Order cover base left order) : order.Perm left := by
  induction greedy with
  | nil => exact List.Perm.nil
  | cons _ _ _ ih => exact (ih.cons _).trans List.perm_middle.symm

theorem gainAdds (base : Finset π) (t : τ) : (base ∪ cover t).card = base.card + gain cover base t := by
  unfold gain
  rw [← Finset.card_union_of_disjoint Finset.disjoint_sdiff,Finset.union_sdiff_self_eq_union]

theorem gainCovered {base : Finset π} {t : τ} (inside : cover t ⊆ base) : gain cover base t = 0 := by
  unfold gain
  rw [Finset.sdiff_eq_empty_iff_subset.mpr inside,Finset.card_empty]

variable (cover) in
theorem coveredBound (base : Finset π) (ts : List τ) :
    (base ∪ covered cover ts).card ≤ base.card + (ts.map (gain cover base)).sum := by
  induction ts with
  | nil => simp [covered]
  | cons t ts ih =>
    rw [covered,List.map_cons,List.sum_cons]
    have more : base ∪ (cover t ∪ covered cover ts) ⊆ (base ∪ covered cover ts) ∪ (cover t \ base) := by
      intro p mem
      simp only [Finset.mem_union,Finset.mem_sdiff] at mem ⊢
      tauto
    have size := (Finset.card_le_card more).trans (Finset.card_union_le _ _)
    unfold gain at ih ⊢
    omega

theorem stepShare {base : Finset π} {t : τ} {ts : List τ} (best : ∀ s ∈ ts, gain cover base s ≤ gain cover base t) :
    (covered cover ts).card ≤ base.card + ts.length * gain cover base t := by
  have all : (ts.map (gain cover base)).sum ≤ ts.length * gain cover base t := by
    have bound := List.sum_le_card_nsmul (ts.map (gain cover base)) (gain cover base t)
      (List.forall_mem_map.mpr best)
    rwa [List.length_map,smul_eq_mul] at bound
  have inside : (covered cover ts).card ≤ (base ∪ covered cover ts).card :=
    Finset.card_le_card Finset.subset_union_right
  have bound := coveredBound cover base ts
  omega

theorem shortfallStep {base : Finset π} {t : τ} {ts : List τ} (best : ∀ s ∈ ts, gain cover base s ≤ gain cover base t) :
    (ts.length : Int) * ((covered cover ts).card - (base ∪ cover t).card)
      ≤ (ts.length - 1) * ((covered cover ts).card - base.card) := by
  have share : ((covered cover ts).card : Int) ≤ base.card + ts.length * gain cover base t := by
    exact_mod_cast stepShare best
  rw [gainAdds]
  push_cast
  linarith

section choice
variable {base : Finset π} {before after ts : List τ} {t : τ}

theorem bestOffered (first : ∀ s ∈ before, gain cover base s < gain cover base t)
    (rest : ∀ s ∈ after, gain cover base s ≤ gain cover base t)
    (offered : ∀ s ∈ ts, s ∈ before ++ t::after ∨ cover s ⊆ base) : ∀ s ∈ ts, gain cover base s ≤ gain cover base t := by
  intro s mem
  rcases offered s mem with here | inside
  · rw [List.mem_append,List.mem_cons] at here
    rcases here with early | rfl | late
    · exact (first s early).le
    · exact le_rfl
    · exact rest s late
  · rw [gainCovered inside]
    exact Nat.zero_le _

theorem stillOffered (offered : ∀ s ∈ ts, s ∈ before ++ t::after ∨ cover s ⊆ base) :
    ∀ s ∈ ts, s ∈ before ++ after ∨ cover s ⊆ base ∪ cover t := by
  intro s mem
  rcases offered s mem with here | inside
  · rw [List.mem_append,List.mem_cons] at here
    rcases here with early | rfl | late
    · exact Or.inl (List.mem_append_left _ early)
    · exact Or.inr Finset.subset_union_right
    · exact Or.inl (List.mem_append_right _ late)
  · exact Or.inr (inside.trans Finset.subset_union_left)

end choice

theorem shortfall {base : Finset π} {left order : List τ} (greedy : Order cover base left order) {ts : List τ}
    (some : ts ≠ []) (offered : ∀ s ∈ ts, s ∈ left ∨ cover s ⊆ base) (n : Nat) (enough : n ≤ order.length) :
    (ts.length : Int)^n * ((covered cover ts).card - (base ∪ covered cover (order.take n)).card)
      ≤ (ts.length - 1)^n * ((covered cover ts).card - base.card) := by
  have positive : 0 < ts.length := List.length_pos_iff.mpr some
  induction greedy generalizing n with
  | nil base =>
    have : n = 0 := by simpa using enough
    subst this
    simp [covered]
  | @cons base before after order t first rest greedy ih =>
    cases n with
    | zero => simp [covered]
    | succ n =>
      have best := bestOffered first rest offered
      have still := stillOffered offered
      have later := ih still n (Nat.le_of_succ_le_succ enough)
      have nonneg : (0 : Int) ≤ ts.length - 1 := by omega
      rw [List.take_succ_cons,covered,← Finset.union_assoc,pow_succ',pow_succ]
      calc (ts.length : Int) * ts.length^n * ((covered cover ts).card
              - ((base ∪ cover t) ∪ covered cover (order.take n)).card)
          = ts.length * (ts.length^n * ((covered cover ts).card
              - ((base ∪ cover t) ∪ covered cover (order.take n)).card)) := by ring
        _ ≤ ts.length * ((ts.length - 1)^n * ((covered cover ts).card - (base ∪ cover t).card)) :=
            mul_le_mul_of_nonneg_left later (by omega)
        _ = (ts.length - 1)^n * (ts.length * ((covered cover ts).card - (base ∪ cover t).card)) := by ring
        _ ≤ (ts.length - 1)^n * ((ts.length - 1) * ((covered cover ts).card - base.card)) :=
            mul_le_mul_of_nonneg_left (shortfallStep best) (pow_nonneg nonneg n)
        _ = (ts.length - 1)^n * (ts.length - 1) * ((covered cover ts).card - base.card) := by ring

def gains (cover : τ → Finset π) : Finset π → List τ → List Nat
  | _, [] => []
  | base, t::ts => gain cover base t::gains cover (base ∪ cover t) ts

theorem gainLess {small big : Finset π} (inside : small ⊆ big) (t : τ) : gain cover big t ≤ gain cover small t :=
  Finset.card_le_card (Finset.sdiff_subset_sdiff le_rfl inside)

variable (cover) in
theorem gainsSum (base : Finset π) (ts : List τ) :
    base.card + (gains cover base ts).sum = (base ∪ covered cover ts).card := by
  induction ts generalizing base with
  | nil => simp [gains,covered]
  | cons t ts ih =>
    rw [gains,List.sum_cons,covered,← Finset.union_assoc,← ih,gainAdds,Nat.add_assoc]

theorem gainsBelow {base : Finset π} {ts : List τ} {g : Nat} (mem : g ∈ gains cover base ts) :
    ∃ t ∈ ts, g ≤ gain cover base t := by
  induction ts generalizing base with
  | nil => contradiction
  | cons t ts ih =>
    rcases List.mem_cons.mp mem with rfl | later
    · exact ⟨t,by simp,le_rfl⟩
    · obtain ⟨s,listed,bound⟩ := ih later
      exact ⟨s,by simp [listed],bound.trans (gainLess Finset.subset_union_left s)⟩

theorem gainsSorted {base : Finset π} {left order : List τ} (greedy : Order cover base left order) :
    (gains cover base order).Pairwise (fun a b => b ≤ a) := by
  induction greedy with
  | nil => exact .nil
  | @cons base before after order t first rest greedy ih =>
    refine .cons ?_ ih
    intro g mem
    obtain ⟨s,listed,bound⟩ := gainsBelow mem
    have offered := (orderPerm greedy).mem_iff.mp listed
    have less := bound.trans (gainLess Finset.subset_union_left s)
    rcases List.mem_append.mp offered with early | late
    · exact less.trans (first s early).le
    · exact less.trans (rest s late)

theorem orderPicked [DecidableEq τ] {start : Finset π} {before left order : List τ} (distinct : left.Nodup)
    (greedy : Order cover (start ∪ covered cover before) left order) :
    Picked (fun before left t => First (gain cover (start ∪ covered cover before)) left t) before left order := by
  generalize same : start ∪ covered cover before = base at greedy
  induction greedy generalizing before with
  | nil => exact .nil before
  | @cons _ early late order t first rest _ ih =>
    subst same
    have apart : t ∉ early := by
      rw [List.nodup_middle,List.nodup_cons,List.mem_append,not_or] at distinct
      exact distinct.1.1
    have removed : Picking.without (early ++ t::late) t = early ++ late := by
      rw [Picking.without,List.erase_append_right _ apart,List.erase_cons_head]
    refine .cons ⟨early,late,rfl,first,rest⟩ (by simp) ?_
    rw [removed]
    exact ih (List.nodup_middle.mp distinct).of_cons (by rw [coveredAppend,covered,covered,Finset.union_empty,Finset.union_assoc])

end KernelTcp.Greedy

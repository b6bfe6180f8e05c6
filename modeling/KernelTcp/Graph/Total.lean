import KernelTcp.Graph.Strategy
import KernelTcp.Lib.Ranking
import Mathlib.Algebra.GroupWithZero.Nat
import Mathlib.Data.Finset.Union

/-! The total strategy over the related methods of the test cases, and the two strategies beside
each other. The total one ranks by the number of related methods alone. -/
namespace KernelTcp.Graph
open Greedy (gain covered)
open Picking Ranking

def totalStragety (getRelatedMethods : Str → Except PyError Methods) (testCases : List Str) : Except PyError (List Nat) := do
  let testTAMap ← testCases.mapM (fun testCase => do
    let relatedMethodsSet ← getRelatedMethods testCase
    .ok relatedMethodsSet.card)
  .ok ((ranked Prod.fst testTAMap.zipIdx).map Prod.snd)

def Environment.totalStragety (env : Environment) (testCases : List Str) : Except PyError (List Nat) :=
  Graph.totalStragety (fun testCase => do
    let related ← getRelatedMethods env testCase
    .ok related.2.toFinset) testCases

section Compared
variable {getRelatedMethods : Str → Except PyError Methods} {related : Str → Methods} {testCases : List Str}

abbrev size (related : Str → Methods) (t : Str) : Nat := (related t).card

theorem numberedSizes (distinct : testCases.Nodup) :
    (testCases.map (size related)).zipIdx = testCases.map (fun t => (size related t,place testCases t)) := by
  rw [← List.zip_map',placesRange distinct,List.zipIdx_eq_zip_range',List.length_map,List.range_eq_range']

theorem totalPlaces (distinct : testCases.Nodup) (given : ∀ t ∈ testCases, getRelatedMethods t = .ok (related t)) :
    totalStragety getRelatedMethods testCases = .ok ((ranked (size related) testCases).map (place testCases)) := by
  have counts : testCases.mapM (fun testCase => do
      let relatedMethodsSet ← getRelatedMethods testCase
      .ok relatedMethodsSet.card) = .ok (testCases.map (size related)) := by
    refine Py.mapMTotal ?_
    intro t listed
    rw [given t listed]
    rfl
  have moved := List.map_insertionSort (NotBelow (size related)) (NotBelow Prod.fst)
    (fun t => (size related t,place testCases t)) testCases (fun _ _ _ _ => Iff.rfl)
  unfold totalStragety
  rw [counts]
  refine congrArg Except.ok ?_
  rw [numberedSizes distinct]
  unfold ranked
  rw [← moved,List.map_map]
  rfl

theorem apartGain {before : List Str} {s : Str} (apart : ∀ t ∈ before, Disjoint (related s) (related t)) :
    gain related (slide related before) s = size related s := by
  obtain ⟨early,whole,_⟩ := recentSince related before
  have none : Disjoint (related s) (slide related before) := by
    unfold slide
    rw [Finset.disjoint_left]
    intro m here there
    obtain ⟨t,listed,inside⟩ := Greedy.memCovered.mp there
    have member : t ∈ before := by
      rw [whole]
      exact List.mem_append_right early listed
    exact Finset.disjoint_left.mp (apart t member) here inside
  unfold gain
  rw [Finset.sdiff_eq_self_of_disjoint none]

theorem apartRanked {paths : List Str} (distinct : testCases.Nodup) (picked : Picked (Chosen related) [] testCases paths)
    (apart : ∀ s ∈ testCases, ∀ t ∈ testCases, s ≠ t → Disjoint (related s) (related t)) :
    paths = ranked (size related) testCases := by
  refine firstsRanked distinct picked.perm ?_
  intro early t late split
  have perm := picked.perm
  rw [split] at picked perm
  have first : Chosen related early (others testCases early) t := picked.chosen distinct
  refine First.congr ?_ first
  intro s left
  obtain ⟨listed,fresh⟩ := memOthers.mp left
  refine apartGain ?_
  intro u taken
  have other : s ≠ u := fun same => fresh (same ▸ taken)
  exact apart s listed u (perm.mem_iff.mp (List.mem_append_left _ taken)) other

theorem firstRanked {paths : List Str} (distinct : testCases.Nodup) (picked : Picked (Chosen related) [] testCases paths) :
    paths.head? = (ranked (size related) testCases).head? := by
  cases picked with
  | nil => rfl
  | @cons _ _ rest t first _ _ =>
    have whole : First (size related) testCases t := First.congr (fun s _ => apartGain (by simp)) first
    rw [List.head?_cons,rankedFirst distinct whole]

end Compared

/-- The total strategy puts a test before another exactly when it has more related methods, or as
many and stands earlier in the list. The additional strategy starts with the same test, and gives
the same order when no two tests share a related method. -/
theorem totalBesideAdditional (getRelatedMethods : Str → Except PyError Methods) (related : Str → Methods) (taTmp : Dict Str Methods)
    (testCases : List Str) (distinct : testCases.Nodup) (given : ∀ t ∈ testCases, getRelatedMethods t = .ok (related t)) :
    ∃ total additional : List Str, totalStragety getRelatedMethods testCases = .ok (total.map (place testCases)) ∧
      additionalStragety getRelatedMethods taTmp testCases = .ok (additional.map (place testCases),[]) ∧
      total.Perm testCases ∧ total.Pairwise (Ahead (size related) testCases) ∧ additional.head? = total.head? ∧
      ((∀ s ∈ testCases, ∀ t ∈ testCases, s ≠ t → Disjoint (related s) (related t)) → additional = total) := by
  obtain ⟨paths,run,picked⟩ := strategyPicked distinct given taTmp
  exact ⟨ranked (size related) testCases,paths,totalPlaces distinct given,run,rankedPerm _ _,rankedAhead distinct,
    firstRanked distinct picked,apartRanked distinct picked⟩

theorem threeCompared : ∃ total additional : List Str, totalStragety (fun t => .ok (threeRelated t)) threeTests = .ok [0,2,1] ∧
    additionalStragety (fun t => .ok (threeRelated t)) Dict.empty threeTests = .ok (additional.map (place threeTests),[]) ∧
    total.Perm threeTests ∧ additional.head? = total.head? := by
  obtain ⟨total,additional,_,run,perm,_,same,_⟩ := totalBesideAdditional (fun t => .ok (threeRelated t)) threeRelated Dict.empty
    threeTests (by decide) (fun _ _ => rfl)
  exact ⟨total,additional,by decide +kernel,run,perm,same⟩

section Approximates
variable {related : Str → Methods} {testCases paths : List Str}

def Whole (related : Str → Methods) (testCases chosen : List Str) : Prop := ∀ s ∈ testCases, related s ⊆ covered related chosen

theorem takenCovered {chosen : List Str} {s : Str} (taken : s ∈ chosen) : related s ⊆ covered related chosen :=
  fun _ inside => Greedy.memCovered.mpr ⟨s,taken,inside⟩

theorem coveredSnoc (chosen : List Str) (t : Str) : covered related (chosen ++ [t]) = covered related chosen ∪ related t := by
  rw [Greedy.coveredAppend,covered,covered,Finset.union_empty]

theorem wholeSnoc {chosen : List Str} (whole : Whole related testCases chosen) (t : Str) : Whole related testCases (chosen ++ [t]) := by
  intro s listed
  rw [coveredSnoc]
  exact (whole s listed).trans Finset.subset_union_left

theorem wholeWithoutGain {chosen : List Str} {t : Str} (best : ∀ s ∈ testCases, gain related (covered related chosen) s ≤
    gain related (covered related chosen) t) (zero : gain related (covered related chosen) t = 0) : Whole related testCases chosen := by
  intro s listed
  have none : gain related (covered related chosen) s = 0 := Nat.le_zero.mp (zero ▸ best s listed)
  unfold gain at none
  exact Finset.sdiff_eq_empty_iff_subset.mp (Finset.card_eq_zero.mp none)

theorem firstsShare (distinct : testCases.Nodup) (picked : Picked (Chosen related) [] testCases paths) {ts : List Str} (some : ts ≠ [])
    (listed : ∀ s ∈ ts, s ∈ testCases) (n : Nat) (enough : n ≤ paths.length) :
    Whole related testCases (paths.take n) ∨ slide related (paths.take n) = covered related (paths.take n) ∧
      (ts.length : Int)^n * ((covered related ts).card - (covered related (paths.take n)).card) ≤
        (ts.length - 1)^n * (covered related ts).card := by
  have positive : 0 < ts.length := List.length_pos_iff.mpr some
  induction n with
  | zero => exact Or.inr ⟨rfl,by simp [covered]⟩
  | succ n ih =>
    obtain ⟨t,here⟩ : ∃ t, paths[n]? = .some t := ⟨_,List.getElem?_eq_getElem enough⟩
    have next : paths.take (n+1) = paths.take n ++ [t] := by rw [List.take_add_one,here]; rfl
    have split : paths = paths.take n ++ t::paths.drop (n+1) := by
      conv_lhs => rw [← List.take_append_drop (n+1) paths,next]
      simp
    generalize paths.take n = chosen at next split ih
    rw [next]
    cases ih (Nat.le_of_succ_le enough) with
    | inl whole => exact Or.inl (wholeSnoc whole t)
    | inr share =>
      obtain ⟨same,bound⟩ := share
      rw [split] at picked
      have first : Chosen related chosen (others testCases chosen) t := picked.chosen distinct
      unfold Chosen at first
      rw [same] at first
      have best : ∀ s ∈ testCases, gain related (covered related chosen) s ≤ gain related (covered related chosen) t := by
        intro s member
        by_cases taken : s ∈ chosen
        · rw [Greedy.gainCovered (takenCovered taken)]
          exact Nat.zero_le _
        · exact first.largest (memOthers.mpr ⟨member,taken⟩)
      by_cases zero : gain related (covered related chosen) t = 0
      · exact Or.inl (wholeSnoc (wholeWithoutGain best zero) t)
      · have nonneg : (0 : Int) ≤ ts.length - 1 := by omega
        have step := Greedy.shortfallStep (fun s member => best s (listed s member))
        refine Or.inr ⟨?_,?_⟩
        · rw [slideSnoc,same,if_neg (by exact_mod_cast zero),coveredSnoc]
        · rw [coveredSnoc,pow_succ,pow_succ']
          calc (ts.length : Int)^n * ts.length * ((covered related ts).card - (covered related chosen ∪ related t).card)
              = ts.length^n * (ts.length * ((covered related ts).card - (covered related chosen ∪ related t).card)) := by ring
            _ ≤ ts.length^n * ((ts.length - 1) * ((covered related ts).card - (covered related chosen).card)) :=
                mul_le_mul_of_nonneg_left step (pow_nonneg (Int.natCast_nonneg _) n)
            _ = (ts.length - 1) * (ts.length^n * ((covered related ts).card - (covered related chosen).card)) := by ring
            _ ≤ (ts.length - 1) * ((ts.length - 1)^n * (covered related ts).card) := mul_le_mul_of_nonneg_left bound nonneg
            _ = (ts.length - 1) * (ts.length - 1)^n * (covered related ts).card := by ring

theorem coveredUnion (chosen : List Str) : chosen.toFinset.biUnion related = covered related chosen := by
  ext m
  rw [Greedy.memCovered,Finset.mem_biUnion]
  simp only [List.mem_toFinset]

theorem coveredWithin {ts chosen : List Str} (whole : Whole related testCases chosen) (listed : ∀ s ∈ ts, s ∈ testCases) :
    covered related ts ⊆ covered related chosen := by
  intro m inside
  obtain ⟨s,member,here⟩ := Greedy.memCovered.mp inside
  exact whole s (listed s member) here

end Approximates

/-- The first k tests of the additional strategy relate to at least the fraction 1 - (1 - 1/k)^k of
the methods of any k tests, although the strategy starts over when nothing is left to add. -/
theorem strategyApproximates (getRelatedMethods : Str → Except PyError Methods) (related : Str → Methods) (taTmp : Dict Str Methods)
    (testCases : List Str) (distinct : testCases.Nodup) (given : ∀ t ∈ testCases, getRelatedMethods t = .ok (related t)) :
    ∃ paths : List Str, additionalStragety getRelatedMethods taTmp testCases = .ok (paths.map (place testCases),[]) ∧
      ∀ k : Nat, 1 ≤ k → k ≤ testCases.length → ∀ tests : Finset Str, (∀ t ∈ tests, t ∈ testCases) → tests.card = k →
        (k : Int)^k * ((tests.biUnion related).card - ((paths.take k).toFinset.biUnion related).card) ≤
          (k - 1)^k * (tests.biUnion related).card := by
  obtain ⟨paths,run,picked⟩ := strategyPicked distinct given taTmp
  refine ⟨paths,run,?_⟩
  intro k positive enough tests listed size
  have some : tests.toList ≠ [] := by
    intro none
    rw [← Finset.length_toList,none] at size
    exact absurd size.symm (by simp only [List.length_nil]; omega)
  have inside : ∀ t ∈ tests.toList, t ∈ testCases := fun t member => listed t (Finset.mem_toList.mp member)
  have union : tests.biUnion related = covered related tests.toList := by rw [← coveredUnion,Finset.toList_toFinset]
  have share := firstsShare distinct picked some inside k (by rw [picked.perm.length_eq]; exact enough)
  rw [Finset.length_toList,size] at share
  rw [union,coveredUnion]
  cases share with
  | inl whole =>
    have less := Finset.card_le_card (coveredWithin whole inside)
    have short : ((covered related tests.toList).card : Int) - (covered related (paths.take k)).card ≤ 0 := by omega
    have nonneg : (0 : Int) ≤ (k - 1)^k := pow_nonneg (by omega) k
    have left := mul_nonpos_of_nonneg_of_nonpos (pow_nonneg (Int.natCast_nonneg k) k) short
    exact left.trans (mul_nonneg nonneg (Int.natCast_nonneg _))
  | inr share => exact share.2

theorem threeApproximated : ∃ paths : List Str, additionalStragety (fun t => .ok (threeRelated t)) Dict.empty threeTests =
    .ok (paths.map (place threeTests),[]) ∧ (Finset.biUnion {"b.c".toList,"c.c".toList} threeRelated).card = 2 ∧
    (2 : Int)^2 * ((Finset.biUnion {"b.c".toList,"c.c".toList} threeRelated).card -
      ((paths.take 2).toFinset.biUnion threeRelated).card) ≤ (2 - 1)^2 * (Finset.biUnion {"b.c".toList,"c.c".toList} threeRelated).card := by
  obtain ⟨paths,run,bound⟩ := strategyApproximates (fun t => .ok (threeRelated t)) threeRelated Dict.empty threeTests (by decide)
    (fun _ _ => rfl)
  exact ⟨paths,run,by decide,bound 2 (by decide) (by decide) {"b.c".toList,"c.c".toList} (by decide) (by decide)⟩

end KernelTcp.Graph

import KernelTcp.Graph.CgBased
import KernelTcp.Lib.Greedy

/-! The additional strategy over the related methods of the test cases. The related methods of a
test case are a set, given by `getRelatedMethods`; the loop takes the test cases out of the list
it was given, so that list is returned as well. -/
namespace KernelTcp.Graph
open Greedy (gain covered)
open Picking

abbrev Methods := Finset Str

structure Best where
  maxTA : Int
  maxTATest : Option Str
  maxRelatedMethodSet : Methods

def bestStep (taTmp : Dict Str Methods) (slideSet : Methods) (b : Best) (testCase : Str) : Except PyError Best := do
  let relatedMethodsSet ← Py.raiseNone .typeError (taTmp.get? testCase)
  let additionalMethodSet := relatedMethodsSet \ slideSet
  .ok (if b.maxTA < additionalMethodSet.card then ⟨additionalMethodSet.card,some testCase,relatedMethodsSet⟩ else b)

def best (taTmp : Dict Str Methods) (slideSet : Methods) (testCases : List Str) : Except PyError Best :=
  testCases.foldlM (bestStep taTmp slideSet) ⟨-1,none,∅⟩

def strategyLoop (testIdxMap : Dict Str Nat) (taTmp : Dict Str Methods) :
    Nat → Methods → List Str → List Nat → Except PyError (List Nat × List Str)
  | 0, _, testCases, sortedList => .ok (sortedList,testCases)
  | size+1, slideSet, testCases, sortedList => do
      let b ← best taTmp slideSet testCases
      let slideSet := if b.maxTA = 0 then ∅ else slideSet ∪ b.maxRelatedMethodSet
      let maxTATest ← Py.raiseNone .keyError b.maxTATest
      let idx ← Py.raiseNone .keyError (testIdxMap.get? maxTATest)
      let testCases ← Py.remove testCases maxTATest
      strategyLoop testIdxMap taTmp size slideSet testCases (sortedList ++ [idx])

def testIdxMap (testCases : List Str) : Dict Str Nat := Dict.pass Prod.fst (fun _ e => e.2) Dict.empty testCases.zipIdx

def relatedStep (getRelatedMethods : Str → Except PyError Methods) (taTmp : Dict Str Methods) (testCase : Str) :
    Except PyError (Dict Str Methods) := do
  let relatedMethodsSet ← getRelatedMethods testCase
  .ok (taTmp.set testCase relatedMethodsSet)

def additionalStragety (getRelatedMethods : Str → Except PyError Methods) (taTmp : Dict Str Methods) (testCases : List Str) :
    Except PyError (List Nat × List Str) := do
  let taTmp ← testCases.foldlM (relatedStep getRelatedMethods) taTmp
  strategyLoop (testIdxMap testCases) taTmp testCases.length ∅ testCases []

def Environment.additionalStragety (env : Environment) (testCases : List Str) : Except PyError (List Nat × List Str) :=
  Graph.additionalStragety (fun testCase => do
    let related ← getRelatedMethods env testCase
    .ok related.2.toFinset) (env.taTmp.mapValues (fun _ related => related.toFinset)) testCases

section recent
variable (related : Str → Methods)

def recentStep (recent : List Str) (t : Str) : List Str :=
  if gain related (covered related recent) t = 0 then [] else recent ++ [t]

def recent (chosen : List Str) : List Str := chosen.foldl (recentStep related) []

def slide (chosen : List Str) : Methods := covered related (recent related chosen)

variable {related}

theorem recentSnoc (chosen : List Str) (t : Str) :
    recent related (chosen ++ [t]) = if gain related (slide related chosen) t = 0 then [] else recent related chosen ++ [t] := by
  unfold slide recent
  rw [List.foldl_append]
  rfl

variable (related) in
theorem recentSince (chosen : List Str) : ∃ early, chosen = early ++ recent related chosen
    ∧ (early = [] ∨ ∃ before z, early = before ++ [z] ∧ gain related (slide related before) z = 0)
    ∧ ∀ before z after, recent related chosen = before ++ z::after → gain related (slide related (early ++ before)) z ≠ 0 := by
  induction chosen using List.reverseRecOn with
  | nil => exact ⟨[],rfl,Or.inl rfl,by simp [recent]⟩
  | append_singleton chosen t ih =>
    rw [recentSnoc]
    split
    · rename_i zero
      exact ⟨chosen ++ [t],by simp,Or.inr ⟨chosen,t,rfl,zero⟩,by simp⟩
    · rename_i gained
      obtain ⟨early,whole,start,later⟩ := ih
      refine ⟨early,by rw [← List.append_assoc,← whole],start,?_⟩
      intro before z after split
      rcases List.eq_nil_or_concat after with rfl | ⟨rest,last,rfl⟩
      · obtain ⟨same,last⟩ := List.append_inj' split rfl
        obtain ⟨rfl,_⟩ := List.cons.inj last
        rwa [← same,← whole]
      · rw [List.concat_eq_append,← List.cons_append,← List.append_assoc] at split
        exact later before z rest (List.append_inj' split rfl).1

end recent

section round
variable {taTmp : Dict Str Methods} {related : Str → Methods} {slideSet : Methods}

def bestOf (related : Str → Methods) (found : Int × Option Str) : Best := ⟨found.1,found.2,found.2.elim ∅ related⟩

theorem bestStepScan {t : Str} (known : taTmp.get? t = some (related t)) (found : Int × Option Str) :
    bestStep taTmp slideSet (bestOf related found) t =
      (scanStep (fun t => .ok (gain related slideSet t : Int)) found t).map (bestOf related) := by
  unfold bestStep
  rw [known]
  show Except.ok (if found.1 < (gain related slideSet t : Int) then ⟨gain related slideSet t,some t,related t⟩
      else bestOf related found) =
    Except.ok (bestOf related (if found.1 < (gain related slideSet t : Int) then (gain related slideSet t,some t) else found))
  split <;> rfl

variable (slideSet) in
theorem bestFirst {testCases : List Str} (known : ∀ t ∈ testCases, taTmp.get? t = some (related t)) (nonempty : testCases ≠ []) :
    ∃ t, best taTmp slideSet testCases = .ok ⟨gain related slideSet t,some t,related t⟩
      ∧ First (gain related slideSet) testCases t := by
  have above : ∀ t ∈ testCases, (-1 : Int) < gain related slideSet t := fun t _ => by omega
  obtain ⟨t,run,first⟩ := scanPure (fun t => (gain related slideSet t : Int)) above nonempty
  refine ⟨t,?_,(First.scaled Nat.strictMono_cast).mp first⟩
  have scanned := scanView (bestStep taTmp slideSet) (bestOf related)
    (fun found t listed => bestStepScan (known t listed) found) (-1,none)
  unfold scan at run
  rw [run] at scanned
  exact scanned

end round

def Chosen (related : Str → Methods) (before left : List Str) (t : Str) : Prop :=
  First (gain related (slide related before)) left t

theorem slideSnoc (related : Str → Methods) (before : List Str) (t : Str) :
    slide related (before ++ [t]) =
      if (gain related (slide related before) t : Int) = 0 then ∅ else slide related before ∪ related t := by
  unfold slide
  rw [recentSnoc]
  by_cases zero : gain related (slide related before) t = 0
  · rw [if_pos zero,if_pos (by exact_mod_cast zero)]
    rfl
  · rw [if_neg zero,if_neg (by exact_mod_cast zero),Greedy.coveredAppend]
    simp [covered]

theorem loopPicked {places : Dict Str Nat} {taTmp : Dict Str Methods} {related : Str → Methods} {place : Str → Nat}
    {left : List Str} (known : ∀ t ∈ left, taTmp.get? t = some (related t)) (placed : ∀ t ∈ left, places.get? t = some (place t))
    {size : Nat} (length : left.length = size) (before : List Str) :
    ∃ rest, strategyLoop places taTmp size (slide related before) left (before.map place) = .ok ((before ++ rest).map place,[])
      ∧ Picked (Chosen related) before left rest := by
  -- `size` counts what is left, and the covered set is that of the tests chosen so far
  induction size generalizing left before with
  | zero =>
    cases List.length_eq_zero_iff.mp length
    exact ⟨[],by rw [List.append_nil]; rfl,.nil before⟩
  | succ size ih =>
    obtain ⟨t,found,first⟩ := bestFirst (slide related before) known (List.ne_nil_of_length_eq_add_one length)
    have here : t ∈ left := first.mem
    have inside : ∀ s ∈ without left t, s ∈ left := fun s listed => (withoutPerm here).mem_iff.mp (by simp [listed])
    have fewer := withoutLength here length
    obtain ⟨rest,run,picked⟩ := ih (fun s listed => known s (inside s listed)) (fun s listed => placed s (inside s listed))
      fewer (before ++ [t])
    refine ⟨t::rest,?_,.cons first here picked⟩
    rw [slideSnoc,List.map_append,List.append_assoc] at run
    rw [strategyLoop,found]
    simp only [bind,Except.bind,Py.raiseNone,placed t here,Py.remove,if_pos here]
    exact run

section strategy
variable {getRelatedMethods : Str → Except PyError Methods} {related : Str → Methods} {testCases : List Str}

theorem relatedFilled (given : ∀ t ∈ testCases, getRelatedMethods t = .ok (related t)) (taTmp : Dict Str Methods) :
    testCases.foldlM (relatedStep getRelatedMethods) taTmp = .ok (Dict.pass id (fun _ t => related t) taTmp testCases) := by
  induction testCases generalizing taTmp with
  | nil => rfl
  | cons t testCases ih =>
    have step : relatedStep getRelatedMethods taTmp t = .ok (taTmp.set t (related t)) := by
      unfold relatedStep
      rw [given t (by simp)]
      rfl
    rw [List.foldlM_cons,step]
    exact ih (fun s listed => given s (by simp [listed])) _

theorem strategyPicked (distinct : testCases.Nodup) (given : ∀ t ∈ testCases, getRelatedMethods t = .ok (related t))
    (taTmp : Dict Str Methods) : ∃ paths : List Str,
      additionalStragety getRelatedMethods taTmp testCases = .ok (paths.map (place testCases),[])
      ∧ Picked (Chosen related) [] testCases paths := by
  have known : ∀ t ∈ testCases, (Dict.pass id (fun _ t => related t) taTmp testCases).get? t = some (related t) :=
    fun t listed => Dict.passDistinct id (fun _ t => related t) taTmp (by rwa [List.map_id]) listed
  have placed : ∀ t ∈ testCases, (testIdxMap testCases).get? t = some (place testCases t) := by
    intro t listed
    have names : testCases.zipIdx.map Prod.fst = testCases := List.zipIdx_map_fst 0 testCases
    exact Dict.passDistinct Prod.fst (fun _ e => e.2) Dict.empty (by rwa [names]) (placeNumbered listed)
  obtain ⟨paths,run,picked⟩ := loopPicked known placed rfl []
  refine ⟨paths,?_,picked⟩
  unfold additionalStragety
  rw [relatedFilled given]
  exact run

end strategy

def relatedIn (env : Environment) (testCase : Str) : Methods :=
  match getRelatedMethods env testCase with
  | .ok related => related.2.toFinset
  | .error _ => ∅

theorem environmentPicked (env : Environment) {testCases : List Str} (distinct : testCases.Nodup)
    (readable : ∀ t ∈ testCases, ∃ related, getRelatedMethods env t = .ok related) : ∃ paths : List Str,
      env.additionalStragety testCases = .ok (paths.map (place testCases),[])
      ∧ Picked (Chosen (relatedIn env)) [] testCases paths := by
  apply strategyPicked distinct
  intro t listed
  obtain ⟨related,found⟩ := readable t listed
  unfold relatedIn
  rw [found]
  rfl

/-- The order is a permutation. Every test is the first of those left that add the most to the
related methods of the tests chosen since the last round in which the best test added none. -/
theorem strategyGreedy (getRelatedMethods : Str → Except PyError Methods) (related : Str → Methods) (taTmp : Dict Str Methods)
    (testCases : List Str) (distinct : testCases.Nodup) (given : ∀ t ∈ testCases, getRelatedMethods t = .ok (related t)) :
    ∃ paths : List Str, additionalStragety getRelatedMethods taTmp testCases = .ok (paths.map (place testCases),[])
      ∧ (paths.map (place testCases)).Perm (List.range testCases.length)
      ∧ ∀ before t after, paths = before ++ t::after →
          First (fun s => (related s \ slide related before).card) (others testCases before) t
          ∧ ∃ early recent, before = early ++ recent ∧ slide related before = covered related recent
            ∧ (early = [] ∨ ∃ b z, early = b ++ [z] ∧ (related z \ slide related b).card = 0)
            ∧ ∀ b z a, recent = b ++ z::a → (related z \ slide related (early ++ b)).card ≠ 0 := by
  obtain ⟨paths,run,picked⟩ := strategyPicked distinct given taTmp
  refine ⟨paths,run,?_,?_⟩
  · rw [← placesRange distinct]
    exact picked.perm.map _
  · intro before t after split
    rw [split] at picked
    have first := picked.chosen distinct
    rw [List.nil_append] at first
    obtain ⟨early,whole,start,later⟩ := recentSince related before
    exact ⟨first,early,recent related before,whole,rfl,start,later⟩

def threeRelated (t : Str) : Methods :=
  if t = "a.c".toList then {"open".toList,"read".toList,"mmap".toList}
  else if t = "b.c".toList then {"open".toList} else {"open".toList,"read".toList}

def threeTests : List Str := ["a.c".toList,"b.c".toList,"c.c".toList]

theorem threeGreedy : ∃ paths : List Str, additionalStragety (fun t => .ok (threeRelated t)) Dict.empty threeTests =
    .ok (paths.map (place threeTests),[]) ∧ (paths.map (place threeTests)).Perm (List.range 3) := by
  obtain ⟨paths,run,perm,_⟩ := strategyGreedy (fun t => .ok (threeRelated t)) threeRelated Dict.empty threeTests (by decide)
    (fun _ _ => rfl)
  exact ⟨paths,run,perm⟩

def Exhausted (related : Str → Methods) (testCases before : List Str) : Prop :=
  ∀ s ∈ others testCases before, related s ⊆ slide related before

section exhausted
variable {related : Str → Methods} {testCases before : List Str} {t : Str}

theorem exhaustedGain (exhausted : Exhausted related testCases before) {s : Str} (left : s ∈ others testCases before) :
    gain related (slide related before) s = 0 := Greedy.gainCovered (exhausted s left)

theorem exhaustedFirst (exhausted : Exhausted related testCases before) (chosen : Chosen related before (others testCases before) t) :
    ∃ rest, others testCases before = t::rest := by
  have zero := exhaustedGain exhausted chosen.mem
  obtain ⟨early,late,split,less,_⟩ := chosen
  cases early with
  | nil => exact ⟨late,split⟩
  | cons u early =>
    have below := less u List.mem_cons_self
    rw [zero] at below
    contradiction

theorem exhaustedClears (exhausted : Exhausted related testCases before) (chosen : Chosen related before (others testCases before) t) :
    slide related (before ++ [t]) = ∅ := by
  rw [slideSnoc,exhaustedGain exhausted chosen.mem]
  rfl

end exhausted

/-- Where no test left adds a method, the covered set is cleared and the test that stands first is
put out; it has the largest set of related methods only if the list happens to start with such a
test. The choice by size comes one test later. -/
theorem largestWhenFirst (getRelatedMethods : Str → Except PyError Methods) (related : Str → Methods) (taTmp : Dict Str Methods)
    (testCases : List Str) (distinct : testCases.Nodup) (given : ∀ t ∈ testCases, getRelatedMethods t = .ok (related t)) :
    ∃ paths : List Str, additionalStragety getRelatedMethods taTmp testCases = .ok (paths.map (place testCases),[])
      ∧ ((∀ before t after, paths = before ++ t::after → Exhausted related testCases before →
            slide related (before ++ [t]) = ∅ ∧ ∀ s ∈ others testCases before, (related s).card ≤ (related t).card) ↔
          ∀ before after, paths = before ++ after → Exhausted related testCases before →
            ∀ first rest, others testCases before = first::rest → ∀ s ∈ rest, (related s).card ≤ (related first).card)
      ∧ ∀ before t next after, paths = before ++ t::next::after → Exhausted related testCases before →
          First (fun s => (related s).card) (others testCases (before ++ [t])) next := by
  obtain ⟨paths,run,picked⟩ := strategyPicked distinct given taTmp
  have chosen : ∀ before t after, paths = before ++ t::after → Chosen related before (others testCases before) t := by
    intro before t after split
    rw [split] at picked
    exact picked.chosen distinct
  refine ⟨paths,run,⟨?_,?_⟩,?_⟩
  · intro largest before after split exhausted first rest left s listed
    have same := (othersPerm distinct (split ▸ picked.perm)).length_eq
    rw [left] at same
    obtain ⟨t,after,rfl⟩ := List.exists_cons_of_length_eq_add_one same.symm
    obtain ⟨others,here⟩ := exhaustedFirst exhausted (chosen before t after split)
    rw [left] at here
    obtain ⟨rfl,rfl⟩ := List.cons.inj here
    exact (largest before first after split exhausted).2 s (by simp [left,listed])
  · intro largest before t after split exhausted
    have first := chosen before t after split
    obtain ⟨rest,left⟩ := exhaustedFirst exhausted first
    refine ⟨exhaustedClears exhausted first,?_⟩
    rw [left,List.forall_mem_cons]
    exact ⟨le_rfl,largest before (t::after) split exhausted t rest left⟩
  · intro before t next after split exhausted
    have cleared := exhaustedClears exhausted (chosen before t (next::after) split)
    have first := chosen (before ++ [t]) next after (by rw [split,List.append_assoc]; rfl)
    rw [Chosen,cleared] at first
    exact first.congr (fun s _ => by simp [gain])

theorem threeStartsOver : Exhausted threeRelated threeTests ["a.c".toList] ∧ ∃ paths : List Str,
    additionalStragety (fun t => .ok (threeRelated t)) Dict.empty threeTests = .ok (paths.map (place threeTests),[]) ∧
    ∀ before t next after, paths = before ++ t::next::after → Exhausted threeRelated threeTests before →
      First (fun s => (threeRelated s).card) (others threeTests (before ++ [t])) next := by
  obtain ⟨paths,run,_,later⟩ := largestWhenFirst (fun t => .ok (threeRelated t)) threeRelated Dict.empty threeTests (by decide)
    (fun _ _ => rfl)
  exact ⟨by unfold Exhausted; decide +kernel,paths,run,later⟩

theorem smallerAfterReset : additionalStragety (fun t => .ok (threeRelated t)) Dict.empty threeTests = .ok ([0,1,2],[]) ∧
    (∀ s ∈ others threeTests ["a.c".toList], threeRelated s ⊆ slide threeRelated ["a.c".toList]) ∧
    (threeRelated "b.c".toList).card < (threeRelated "c.c".toList).card := by
  decide +kernel

end KernelTcp.Graph

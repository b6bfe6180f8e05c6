import KernelTcp.Analysis.Combine

/-! What COMBINE_SAME_CASE followed by COMBINE_SAME_CONFIG leaves of a checkout. The
result is read per configuration key and file path; object identity is not compared. -/
namespace KernelTcp.Analysis
open CiObjects

theorem combineConfigsBlank {c : Checkout} (keyed : Keyed c.builds) {out : Checkout}
    (done : combineConfigs c = .ok out) (key : List Str) {p : Option Str} (blank : isBlankPath p = true) :
    testsAt out key p = [] := by
  obtain ⟨newBuilds,_,spec⟩ := combineConfigsSpec c keyed
  rw [spec] at done
  cases Except.ok.inj done
  unfold testsAt
  simp only [filterCombine]
  rw [occurrencesFlatMap,List.flatMap_map]
  exact List.flatMap_eq_nil_iff.mpr (fun b _ => combineBuildBlank b blank)

theorem combineConfigsKeys {c : Checkout} (keyed : Keyed c.builds) {out : Checkout}
    (done : combineConfigs c = .ok out) : (out.builds.map configKey).Nodup := by
  obtain ⟨newBuilds,rows,spec⟩ := combineConfigsSpec c keyed
  rw [spec] at done
  cases Except.ok.inj done
  have keys := combinedKeys rows
  have distinct := (grouped c.builds).distinct
  have tagged := distinct.map (f := (Except.ok : List Str → Except PyError (List Str)))
    (fun _ _ h => Except.ok.inj h)
  rw [List.map_map] at tagged
  change (List.map configKey (List.map combineBuild newBuilds)).Nodup
  rw [keys]
  exact tagged

theorem combineBoth {c : Checkout} (keyed : Keyed c.builds) {out : Checkout}
    (done : combineConfigs (combineCases c) = .ok out) (key : List Str) {p : Option Str}
    (pathed : isBlankPath p = false) :
    statusesAt out key p = (Status.combined (statusesAt c key p)).toList := by
  rw [combineConfigsStatuses (combineCasesKeyed keyed) done key pathed,combineCasesStatuses c key pathed]

theorem combineTotal {c : Checkout} (keyed : Keyed c.builds) : ∃ out, combineConfigs c = .ok out := by
  obtain ⟨newBuilds,_,spec⟩ := combineConfigsSpec c keyed
  exact ⟨_,spec⟩

theorem statusesSkipped {c : Checkout} (keyed : Keyed c.builds) {out skipped : Checkout}
    (done : combineConfigs (combineCases c) = .ok out) (direct : combineConfigs c = .ok skipped)
    (key : List Str) (p : Option Str) : statusesAt skipped key p = statusesAt out key p := by
  cases blank : isBlankPath p with
  | false => rw [combineBoth keyed done key blank,combineConfigsStatuses keyed direct key blank]
  | true =>
    unfold statusesAt
    rw [combineConfigsBlank keyed direct key blank,
      combineConfigsBlank (combineCasesKeyed keyed) done key blank]

def ReorderedRun (r other : TestRun) : Prop := r.tests.Perm other.tests

def ReorderedBuild (b other : Build) : Prop :=
  other.dbInstance = b.dbInstance ∧
  ∃ runs, b.testruns.Perm runs ∧ List.Forall₂ ReorderedRun runs other.testruns

def Reordered (c other : Checkout) : Prop :=
  ∃ bs, c.builds.Perm bs ∧ List.Forall₂ ReorderedBuild bs other.builds

theorem reorderedRuns {runs others : List TestRun} (rows : List.Forall₂ ReorderedRun runs others) :
    (runs.flatMap TestRun.getAllTestcases).Perm (others.flatMap TestRun.getAllTestcases) := by
  induction rows with
  | nil => exact .nil
  | cons head tail ih =>
    rw [List.flatMap_cons,List.flatMap_cons]
    exact head.append ih

theorem reorderedTests {b other : Build} (h : ReorderedBuild b other) :
    b.getAllTestcases.Perm other.getAllTestcases := by
  obtain ⟨_,runs,perm,rows⟩ := h
  exact (perm.flatMap_right TestRun.getAllTestcases).trans (reorderedRuns rows)

theorem reorderedKeyed {c other : Checkout} (h : Reordered c other) (keyed : Keyed c.builds) :
    Keyed other.builds := by
  obtain ⟨bs,perm,rows⟩ := h
  have first : Keyed bs := fun b hb => keyed b (perm.mem_iff.mpr hb)
  intro b hb
  obtain ⟨a,ha,same⟩ := Py.rowsRight rows hb
  rw [same.1]
  exact first a ha

theorem reorderedWithKey {bs others : List Build} (rows : List.Forall₂ ReorderedBuild bs others)
    (key : List Str) (p : Option Str) :
    (occurrences p ((bs.filter (fun b => configKey b = .ok key)).flatMap Build.getAllTestcases)).Perm
      (occurrences p ((others.filter (fun b => configKey b = .ok key)).flatMap Build.getAllTestcases)) := by
  induction rows with
  | nil => exact .nil
  | @cons b other bs others head tail ih =>
    have same := keyOfSame head.1
    by_cases here : configKey b = .ok key
    · rw [List.filter_cons_of_pos (by simpa using here),
        List.filter_cons_of_pos (by simpa using same.trans here),List.flatMap_cons,List.flatMap_cons]
      unfold occurrences at ih ⊢
      rw [List.filter_append,List.filter_append]
      exact ((reorderedTests head).filter _).append ih
    · rw [List.filter_cons_of_neg (by simpa using here),
        List.filter_cons_of_neg (by simpa using fun h => here (same.symm.trans h))]
      exact ih

theorem reorderedAt {c other : Checkout} (h : Reordered c other) (key : List Str) (p : Option Str) :
    (testsAt c key p).Perm (testsAt other key p) := by
  obtain ⟨bs,perm,rows⟩ := h
  exact (((perm.filter _).flatMap_right _).filter _).trans (reorderedWithKey rows key p)

theorem statusesReordered {c other : Checkout} (keyed : Keyed c.builds) (h : Reordered c other)
    {out again : Checkout} (done : combineConfigs (combineCases c) = .ok out)
    (redone : combineConfigs (combineCases other) = .ok again) (key : List Str) (p : Option Str) :
    statusesAt again key p = statusesAt out key p := by
  have otherKeyed := reorderedKeyed h keyed
  cases blank : isBlankPath p with
  | false =>
    rw [combineBoth keyed done key blank,combineBoth otherKeyed redone key blank]
    exact congrArg Option.toList (Status.combinedPerm ((reorderedAt h key p).map _)).symm
  | true =>
    unfold statusesAt
    rw [combineConfigsBlank (combineCasesKeyed otherKeyed) redone key blank,
      combineConfigsBlank (combineCasesKeyed keyed) done key blank]

structure StandsFor (t : Test) (originals : List Test) : Prop where
  pass : t.isPass = originals.any Test.isPass
  failed : t.isFailed = (!originals.any Test.isPass && originals.any Test.isFailed)
  unknown : t.isUnknown = (!originals.any Test.isPass && !originals.any Test.isFailed)

theorem standsFor {t : Test} {originals : List Test}
    (h : Status.combined (originals.map Test.status) = some t.status) : StandsFor t originals := by
  obtain ⟨pass,failed⟩ := Status.combinedClass h
  rw [List.any_map] at pass failed
  rw [List.any_map] at failed
  change t.isPass = originals.any Test.isPass at pass
  change t.isFailed = (!originals.any Test.isPass && originals.any Test.isFailed) at failed
  refine ⟨pass,failed,?_⟩
  have classes : (t.isPass = true ∧ t.isFailed = false ∧ t.isUnknown = false) ∨
      (t.isPass = false ∧ t.isFailed = true ∧ t.isUnknown = false) ∨
      (t.isPass = false ∧ t.isFailed = false ∧ t.isUnknown = true) := Status.exactlyOneClass t.status
  rw [← pass] at failed ⊢
  rcases classes with ⟨cp,cf,cu⟩ | ⟨cp,cf,cu⟩ | ⟨cp,cf,cu⟩
  · simp [cp,cu]
  · rw [cp,cf] at failed
    rw [cp,cu]
    simpa using failed
  · rw [cp,cf] at failed
    rw [cp,cu]
    simpa using failed

theorem onlyBuild {out : Checkout} {key : List Str} {p : Option Str} {t : Test} (h : testsAt out key p = [t]) :
    ∃ b ∈ out.builds, configKey b = .ok key ∧ occurrences p b.getAllTestcases = [t] := by
  have member : t ∈ testsAt out key p := by simp [h]
  unfold testsAt at member h
  rw [occurrencesFlatMap] at member h
  obtain ⟨b,hb,ht⟩ := List.mem_flatMap.mp member
  have part : (occurrences p b.getAllTestcases).Sublist [t] := by
    rw [← h]
    exact List.sublist_flatten_of_mem (List.mem_map.mpr ⟨b,hb,rfl⟩)
  obtain ⟨inside,key⟩ := List.mem_filter.mp hb
  refine ⟨b,inside,by simpa using key,?_⟩
  exact part.eq_of_length_le (List.length_pos_of_mem ht)

theorem combineFindsOne {c : Checkout} (keyed : Keyed c.builds) {out : Checkout}
    (done : combineConfigs (combineCases c) = .ok out) (key : List Str) {p : Option Str}
    (pathed : isBlankPath p = false) (some : testsAt c key p ≠ []) :
    ∃ b ∈ out.builds, configKey b = .ok key ∧ ∃ t, occurrences p b.getAllTestcases = [t] ∧
      testsAt out key p = [t] ∧ StandsFor t (testsAt c key p) := by
  have statuses := combineBoth keyed done key pathed
  cases merged : Status.combined (statusesAt c key p) with
  | none => exact absurd (List.map_eq_nil_iff.mp (Status.combinedEmpty.mp merged)) some
  | some s =>
    rw [merged] at statuses
    obtain ⟨t,ht,hs⟩ := List.map_eq_singleton_iff.mp statuses
    subst hs
    obtain ⟨b,hb,hk,hocc⟩ := onlyBuild ht
    exact ⟨b,hb,hk,t,hocc,ht,standsFor merged⟩

/-- Where every build has a configuration, nothing is lost by combining, and neither the order of
builds, runs and test cases nor skipping the first job changes what is found per key and path. -/
theorem combiningLosesNothing (c : Checkout) (keyed : Keyed c.builds) :
    ∃ out, combineConfigs (combineCases c) = .ok out ∧
      (out.builds.map configKey).Nodup ∧
      (∀ key p, isBlankPath p = false →
        (testsAt c key p = [] → testsAt out key p = []) ∧
        (testsAt c key p ≠ [] → ∃ b ∈ out.builds, configKey b = .ok key ∧
          ∃ t, occurrences p b.getAllTestcases = [t] ∧ testsAt out key p = [t] ∧
            StandsFor t (testsAt c key p))) ∧
      (∀ other, Reordered c other → ∃ again, combineConfigs (combineCases other) = .ok again ∧
        ∀ key p, statusesAt again key p = statusesAt out key p) ∧
      ∃ skipped, combineConfigs c = .ok skipped ∧ (skipped.builds.map configKey).Nodup ∧
        ∀ key p, statusesAt skipped key p = statusesAt out key p := by
  obtain ⟨out,done⟩ := combineTotal (combineCasesKeyed keyed)
  obtain ⟨skipped,direct⟩ := combineTotal keyed
  refine ⟨out,done,combineConfigsKeys (combineCasesKeyed keyed) done,?_,?_,
    skipped,direct,combineConfigsKeys keyed direct,statusesSkipped keyed done direct⟩
  · intro key p pathed
    refine ⟨fun absent => ?_,combineFindsOne keyed done key pathed⟩
    have statuses := combineBoth keyed done key pathed
    have nothing : statusesAt c key p = [] := by rw [statusesAt,absent]; rfl
    rw [nothing] at statuses
    exact List.map_eq_nil_iff.mp statuses
  · intro other reordered
    obtain ⟨again,redone⟩ := combineTotal (combineCasesKeyed (reorderedKeyed reordered keyed))
    exact ⟨again,redone,statusesReordered keyed reordered done redone⟩

def repeatedCase : Checkout :=
  ⟨⟨[],0⟩,
    [⟨⟨.text "B=y A=y".toList,"gcc-long".toList⟩,
      [⟨[⟨⟨[],some "fail".toList,[],"a.c".toList,none⟩,some "a.c".toList,.failure⟩]⟩],[],none⟩,
     ⟨⟨.items ["A=y".toList,"B=y".toList],"gcc".toList⟩,
      [⟨[⟨⟨[],some "pass".toList,[],"a.c".toList,none⟩,some "a.c".toList,.success⟩]⟩],[],none⟩]⟩

theorem repeatedCaseFound : Keyed repeatedCase.builds ∧
    ∃ out, combineConfigs (combineCases repeatedCase) = .ok out ∧
      ∃ b ∈ out.builds, configKey b = .ok ["A=y".toList,"B=y".toList] ∧
        ∃ t, occurrences (some "a.c".toList) b.getAllTestcases = [t] ∧ t.isPass = true := by
  have keyed : Keyed repeatedCase.builds := by unfold Keyed; decide
  refine ⟨keyed,?_⟩
  obtain ⟨out,done,_,found,_⟩ := combiningLosesNothing repeatedCase keyed
  obtain ⟨b,hb,key,t,only,_,stands⟩ :=
    (found ["A=y".toList,"B=y".toList] (some "a.c".toList) (by decide)).2 (by decide)
  exact ⟨out,done,b,hb,key,t,only,stands.pass.trans (by decide)⟩

def missingKconfig : Checkout := { repeatedCase with
  builds := ⟨⟨.null,"gcc".toList⟩,[],[],none⟩::repeatedCase.builds }

theorem missingKconfigAborts : combineConfigs (combineCases missingKconfig) = .error .attributeError ∧
    combineConfigs missingKconfig = .error .attributeError ∧
    (testsAt missingKconfig ["A=y".toList,"B=y".toList] (some "a.c".toList)).length = 2 := by
  decide

end KernelTcp.Analysis

import KernelTcp.Analysis.Jobs

/-! The workers that look at test cases one by one: each test case is kept, rewritten or
dropped, or raises. Reports written to files are not modelled. -/
namespace KernelTcp.Analysis
open CiObjects Text

/- The column is declared Boolean; the code compares it with a text. -/
inductive KnownIssues where
  | null
  | flag (b : Bool)
  | text (s : Str)
  deriving DecidableEq, Repr

structure TestInfo where
  test : Str
  name : Str
  deriving DecidableEq, Repr

/- What the workers read besides the checkouts: a column of the test table by its key,
the file system, and the collected failure logs. -/
structure Outside where
  hasKnownIssues : Str → KnownIssues
  pathExists : Str → Bool
  isFile : Str → Bool
  failedTests : Except PyError (List TestInfo)
  failLog : Str → Except PyError (List Str)

section rewriting
variable (f : Test → Except PyError (Option Test))

def rewriteRun (r : TestRun) : Except PyError TestRun := do
  let temp ← r.tests.mapM f
  .ok { r with tests := temp.filterMap id }

def rewriteBuild (b : Build) : Except PyError Build := do
  let testruns ← b.testruns.mapM (rewriteRun f)
  .ok { b with testruns := testruns }

def rewriteCheckout (c : Checkout) : Except PyError Checkout := do
  let builds ← c.builds.mapM (rewriteBuild f)
  .ok { c with builds := builds }

def rewriteTests (ciObjs : List Checkout) : Except PyError (List Checkout) := ciObjs.mapM (rewriteCheckout f)

end rewriting

def keepIf (keep : Test → Except PyError Bool) (t : Test) : Except PyError (Option Test) := do
  let kept ← keep t
  .ok (if kept then some t else none)

def filterUnknownTestCases : Worker := rewriteTests (keepIf (fun t => .ok (!t.isUnknown)))

def knownIssue (outside : Outside) (t : Test) : Bool := outside.hasKnownIssues t.dbInstance.id = .text "1".toList

def notAlwaysFailed (outside : Outside) (statusMap : Dict Str Bool) (t : Test) : Except PyError Bool :=
  if knownIssue outside t then .ok false
  else Py.raiseNone .keyError (statusMap.get? t.dbInstance.path)

def filterAlwaysFailedTestCases (outside : Outside) (statusMap : Dict Str Bool) : Worker :=
  rewriteTests (keepIf (notAlwaysFailed outside statusMap))

def hasEnding (ending : Str) (t : Test) : Except PyError Bool := do
  let filePath ← Py.raiseNone .attributeError t.filePath
  .ok (endsWith filePath ending)

def filterNoCCases : Worker := rewriteTests (keepIf (hasEnding ".c".toList))
def filterNoShCases : Worker := rewriteTests (keepIf (hasEnding ".sh".toList))

-- a row that is loaded has a path, so the mapping is never asked
def mapTest (t : Test) : Test × Bool :=
  match t.filePath with
  | some _ => (t,true)
  | none => ({ t with filePath := some t.dbInstance.filePath },true)

def withFile (outside : Outside) (t : Test) : Option Test :=
  let mapped := mapTest t
  if mapped.2 && mapped.1.filePath.any (fun p => outside.pathExists p && outside.isFile p) then some mapped.1 else none

def filterNoFileTestCases (outside : Outside) : Worker := rewriteTests (fun t => .ok (withFile outside t))

def logParse (outside : Outside) (info : TestInfo) : Except PyError (List Str) := do
  let shortName ← Py.getItem (splitOn "/".toList info.name) (-1)
  let log ← outside.failLog info.test
  .ok (log.filter (fun line => contains line shortName))

-- besides the ASCII letters, only the Kelvin sign has an ASCII lower case
def lowerLog (s : Str) : Str := s.map (fun c => if c = Char.ofNat 0x212A then 'k' else c.toLower)

def checkLogInfo (outside : Outside) (info : TestInfo) : Except PyError (Option Bool) := do
  let filteredLog ← logParse outside info
  let logContent := lowerLog (filteredLog.flatMap (fun line => '\n'::line))
  .ok (if contains logContent "result=pass".toList then some false
    else if contains logContent "result=fail".toList then
      if contains logContent "tfail".toList then some true
      else if !contains logContent "tinfo".toList && !contains logContent "tpass".toList
          && !contains logContent "tbrok".toList && !contains logContent "twarn".toList then some true
      else none
    else none)

def logKeeps (outside : Outside) (testIdMap : Dict Str TestInfo) (t : Test) : Except PyError Bool :=
  if t.isFailed then do
    let info ← Py.raiseNone .keyError (testIdMap.get? t.dbInstance.id)
    let verdict ← checkLogInfo outside info
    .ok (verdict.getD false)
  else .ok true

def filterLog (outside : Outside) : Worker := fun ciObjs => do
  let data ← outside.failedTests
  let testIdMap := data.foldl (fun m d => m.set d.test d) Dict.empty
  rewriteTests (keepIf (logKeeps outside testIdMap)) ciObjs

/- A build has no attribute `tests`: any test run raises before a type is looked at. -/
def filterTestCasesByType : Worker := fun ciObjs => ciObjs.mapM (fun c =>
  if c.builds.any (fun b => !b.testruns.isEmpty) then .error .attributeError else .ok c)

def goodConfig : Worker := fun ciObjs => ciObjs.mapM (fun c => do
  let _ ← c.builds.mapM configKey
  .ok c)

def Within (c out : Checkout) : Prop := out.dbInstance = c.dbInstance
  ∧ ∀ t ∈ out.getAllTestcases, ∃ s ∈ c.getAllTestcases, s.dbInstance = t.dbInstance

theorem withinRefl (c : Checkout) : Within c c := ⟨rfl,fun t mem => ⟨t,mem,rfl⟩⟩

theorem rewriteMember {f : Test → Except PyError (Option Test)} {c out : Checkout} (done : rewriteCheckout f c = .ok out)
    {t : Test} (mem : t ∈ out.getAllTestcases) : ∃ s ∈ c.getAllTestcases, f s = .ok (some t) := by
  obtain ⟨builds,loaded,same⟩ := Py.bindOk.mp done
  cases Except.ok.inj same
  obtain ⟨b,hb,mem⟩ := List.mem_flatMap.mp mem
  obtain ⟨original,ho,rebuilt⟩ := Py.mapMEvery loaded hb
  obtain ⟨runs,loaded,same⟩ := Py.bindOk.mp rebuilt
  cases Except.ok.inj same
  obtain ⟨r,hr,mem⟩ := List.mem_flatMap.mp mem
  obtain ⟨run,hrun,rerun⟩ := Py.mapMEvery loaded hr
  obtain ⟨temp,loaded,same⟩ := Py.bindOk.mp rerun
  cases Except.ok.inj same
  obtain ⟨kept,hk,rfl⟩ := List.mem_filterMap.mp mem
  obtain ⟨s,hs,verdict⟩ := Py.mapMEvery loaded hk
  exact ⟨s,List.mem_flatMap.mpr ⟨original,ho,List.mem_flatMap.mpr ⟨run,hrun,hs⟩⟩,verdict⟩

theorem rewriteWithin {f : Test → Except PyError (Option Test)}
    (rows : ∀ {s t}, f s = .ok (some t) → s.dbInstance = t.dbInstance) {c out : Checkout}
    (done : rewriteCheckout f c = .ok out) : Within c out := by
  refine ⟨?_,?_⟩
  · obtain ⟨builds,_,same⟩ := Py.bindOk.mp done
    rw [← Except.ok.inj same]
  · intro t mem
    obtain ⟨s,hs,verdict⟩ := rewriteMember done mem
    exact ⟨s,hs,rows verdict⟩

theorem keepIfSame {keep : Test → Except PyError Bool} {s t : Test} (kept : keepIf keep s = .ok (some t)) : s = t := by
  obtain ⟨verdict,_,same⟩ := Py.bindOk.mp kept
  cases verdict with
  | false => simp at same
  | true => simpa using same

theorem keepIfWithin {keep : Test → Except PyError Bool} {c out : Checkout}
    (done : rewriteCheckout (keepIf keep) c = .ok out) : Within c out :=
  rewriteWithin (fun kept => congrArg Test.dbInstance (keepIfSame kept)) done

def keepRun (p : Test → Bool) (r : TestRun) : TestRun := { r with tests := r.tests.filter p }

def keepBuild (p : Test → Bool) (b : Build) : Build := { b with testruns := b.testruns.map (keepRun p) }

def keepCheckout (p : Test → Bool) (c : Checkout) : Checkout := { c with builds := c.builds.map (keepBuild p) }

section keeping
variable {keep : Test → Except PyError Bool} {p q : Test → Bool}

theorem rewriteRunKeeps {r : TestRun} (each : ∀ t ∈ r.tests, keep t = .ok (p t)) :
    rewriteRun (keepIf keep) r = .ok (keepRun p r) := by
  have verdicts : r.tests.mapM (keepIf keep) = .ok (r.tests.map (Option.guard (fun t => p t))) := by
    apply Py.mapMTotal
    intro t mem
    unfold keepIf
    rw [each t mem]
    rfl
  unfold rewriteRun keepRun
  rw [verdicts]
  simp only [bind,Except.bind,List.filterMap_map,Function.id_comp,List.filterMap_eq_filter]

theorem rewriteKeeps {c : Checkout} (each : ∀ t ∈ c.getAllTestcases, keep t = .ok (p t)) :
    rewriteCheckout (keepIf keep) c = .ok (keepCheckout p c) := by
  have builds : c.builds.mapM (rewriteBuild (keepIf keep)) = .ok (c.builds.map (keepBuild p)) := by
    apply Py.mapMTotal
    intro b hb
    have runs : b.testruns.mapM (rewriteRun (keepIf keep)) = .ok (b.testruns.map (keepRun p)) := by
      apply Py.mapMTotal
      intro r hr
      exact rewriteRunKeeps (fun t ht => each t (List.mem_flatMap.mpr ⟨b,hb,List.mem_flatMap.mpr ⟨r,hr,ht⟩⟩))
    unfold rewriteBuild
    rw [runs]
    rfl
  unfold rewriteCheckout
  rw [builds]
  rfl

theorem rewriteTestsKeeps {cs : List Checkout} (each : ∀ t ∈ getAllTestcases cs, keep t = .ok (p t)) :
    rewriteTests (keepIf keep) cs = .ok (cs.map (keepCheckout p)) :=
  Py.mapMTotal (fun c hc => rewriteKeeps (fun t ht => each t (List.mem_flatMap.mpr ⟨c,hc,ht⟩)))

theorem keepRunSame {r : TestRun} : keepRun p r = keepRun q r ↔ ∀ t ∈ r.getAllTestcases, p t = q t := by
  refine ⟨?_,fun same => congrArg TestRun.mk (List.filter_congr same)⟩
  intro same t mem
  have tests : r.tests.filter p = r.tests.filter q := congrArg TestRun.tests same
  have kept : t ∈ r.tests.filter p ↔ t ∈ r.tests.filter q := by rw [tests]
  have inside : t ∈ r.tests := mem
  simpa only [List.mem_filter,inside,true_and,← Bool.eq_iff_iff] using kept

theorem keepBuildSame {b : Build} : keepBuild p b = keepBuild q b ↔ ∀ t ∈ b.getAllTestcases, p t = q t := by
  refine ⟨?_,?_⟩
  · intro same t mem
    obtain ⟨r,hr,ht⟩ := List.mem_flatMap.mp mem
    exact keepRunSame.mp (List.map_inj_left.mp (congrArg Build.testruns same) r hr) t ht
  · intro same
    unfold keepBuild
    rw [List.map_inj_left.mpr (fun r hr => keepRunSame.mpr (fun t ht => same t (List.mem_flatMap.mpr ⟨r,hr,ht⟩)))]

theorem keepCheckoutSame {c : Checkout} : keepCheckout p c = keepCheckout q c ↔ ∀ t ∈ c.getAllTestcases, p t = q t := by
  refine ⟨?_,?_⟩
  · intro same t mem
    obtain ⟨b,hb,ht⟩ := List.mem_flatMap.mp mem
    exact keepBuildSame.mp (List.map_inj_left.mp (congrArg Checkout.builds same) b hb) t ht
  · intro same
    unfold keepCheckout
    rw [List.map_inj_left.mpr (fun b hb => keepBuildSame.mpr (fun t ht => same t (List.mem_flatMap.mpr ⟨b,hb,ht⟩)))]

theorem keepSame {cs : List Checkout} : cs.map (keepCheckout p) = cs.map (keepCheckout q)
    ↔ ∀ t ∈ getAllTestcases cs, p t = q t := by
  rw [List.map_inj_left]
  refine ⟨?_,fun same c hc => keepCheckoutSame.mpr (fun t ht => same t (List.mem_flatMap.mpr ⟨c,hc,ht⟩))⟩
  intro same t mem
  obtain ⟨c,hc,ht⟩ := List.mem_flatMap.mp mem
  exact keepCheckoutSame.mp (same c hc) t ht

end keeping

theorem mapTestRow (t : Test) : (mapTest t).1.dbInstance = t.dbInstance := by
  unfold mapTest
  split <;> rfl

theorem withFileRow {outside : Outside} {s t : Test} (kept : withFile outside s = some t) :
    s.dbInstance = t.dbInstance := by
  simp only [withFile] at kept
  split at kept
  · rw [← Option.some.inj kept,mapTestRow]
  · contradiction

theorem mergedRow {ts : List Test} {p : Option Str} {t : Test} (found : (merged ts).get? p = some t) :
    ∃ s ∈ ts, s.dbInstance = t.dbInstance := by
  rw [mergedGet] at found
  split at found
  · contradiction
  · refine mergeFoldKeeps (fun t => ∃ s ∈ ts, s.dbInstance = t.dbInstance) (fun _ _ row => row) (occurrences p ts) ?_ none (by simp) t found
    intro s mem
    exact ⟨s,(List.mem_filter.mp mem).1,rfl⟩

theorem combineBuildRow {b : Build} {t : Test} (mem : t ∈ (combineBuild b).getAllTestcases) :
    ∃ s ∈ b.getAllTestcases, s.dbInstance = t.dbInstance := by
  rw [combineBuildTests] at mem
  obtain ⟨e,he,rfl⟩ := List.mem_map.mp mem
  exact mergedRow (Dict.getEntry.mpr he)

theorem combineCasesWithin (c : Checkout) : Within c (combineCases c) := by
  refine ⟨rfl,?_⟩
  intro t mem
  obtain ⟨b,hb,ht⟩ := List.mem_flatMap.mp mem
  obtain ⟨original,ho,rfl⟩ := List.mem_map.mp hb
  obtain ⟨s,hs,row⟩ := combineBuildRow ht
  exact ⟨s,List.mem_flatMap.mpr ⟨original,ho,hs⟩,row⟩

theorem combineConfigsWithin {c out : Checkout} (done : combineConfigs c = .ok out) : Within c out := by
  obtain ⟨newBuilds,rows,result⟩ := combineConfigsSpec c (combineConfigsKeyed done)
  rw [result] at done
  cases Except.ok.inj done
  refine ⟨rfl,?_⟩
  intro t mem
  obtain ⟨b,hb,ht⟩ := List.mem_flatMap.mp mem
  obtain ⟨combined,hc,rfl⟩ := List.mem_map.mp hb
  obtain ⟨s,hs,row⟩ := combineBuildRow ht
  obtain ⟨e,he,merged⟩ := Py.rowsRight rows hc
  obtain ⟨original,ho,hs⟩ := List.mem_flatMap.mp (merged.tests.mem_iff.mp hs)
  rw [(groupedEntry he).1,List.mem_filter] at ho
  exact ⟨s,List.mem_flatMap.mpr ⟨original,ho.1,hs⟩,row⟩

theorem tallyCheckoutWithin {s : Tally} {c : Checkout} {out : Tally × Checkout} (done : tallyCheckout s c = .ok out)
    (name : Str) : Within c (out.2.selectBuildByConfig name) := by
  obtain ⟨builds,walked,same⟩ := Py.bindOk.mp done
  cases Except.ok.inj same
  have labelled : List.Forall₂ (fun b l : Build => l.getAllTestcases = b.getAllTestcases) c.builds builds.2 := by
    refine Thread.threadMPointwise tallyBuild _ ?_ s c.builds walked
    intro s b out step
    obtain ⟨key,_,step⟩ := Py.bindOk.mp step
    obtain ⟨name,_,same⟩ := Py.bindOk.mp step
    cases Except.ok.inj same
    rfl
  refine ⟨rfl,?_⟩
  intro t mem
  obtain ⟨b,hb,ht⟩ := List.mem_flatMap.mp mem
  obtain ⟨original,ho,tests⟩ := Py.rowsRight labelled (List.mem_filter.mp hb).1
  rw [tests] at ht
  exact ⟨t,List.mem_flatMap.mpr ⟨original,ho,ht⟩,rfl⟩

theorem chooseWithin {cs chosen : List Checkout} (done : chooseOneBuild cs = .ok chosen) :
    List.Forall₂ Within cs chosen := by
  obtain ⟨tallied,walked,done⟩ := Py.bindOk.mp done
  obtain ⟨l,_,done⟩ := Py.bindOk.mp done
  split at done
  · contradiction
  · rename_i best _ _
    cases Except.ok.inj done
    rw [List.forall₂_map_right_iff]
    exact Thread.threadMPointwise tallyCheckout (fun c out => Within c (out.selectBuildByConfig best.name))
      (fun _ _ _ step => tallyCheckoutWithin step best.name) Tally.empty cs walked

end KernelTcp.Analysis

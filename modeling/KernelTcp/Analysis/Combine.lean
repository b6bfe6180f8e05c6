import KernelTcp.CiObjects
import KernelTcp.Lib.Dict
import KernelTcp.Lib.Thread
import Mathlib.Data.Char
import Mathlib.Data.List.Lex
import Mathlib.Data.List.Sort

/-! Combining test cases with one file path inside a build, and builds with one
configuration inside a checkout. Log texts of the jobs are not modelled. -/
namespace KernelTcp.Analysis
open CiObjects Thread

def isBlankPath : Option Str → Bool
  | none => true
  | some p => Text.isBlank p

/- `status_m` holds the first test case seen for a path; `temp` refers to the same
object, so it is kept as the list of paths and resolved after the last run. -/
def combineTest (state : Dict (Option Str) Test × List (Option Str)) (t : Test) :
    Dict (Option Str) Test × List (Option Str) :=
  if isBlankPath t.filePath then state
  else match state.1.get? t.filePath with
    | some first => (state.1.set t.filePath (first.mergeStatus t),state.2)
    | none => (state.1.set t.filePath t,state.2 ++ [t.filePath])

def combineRun (statusM : Dict (Option Str) Test) (r : TestRun) :
    Dict (Option Str) Test × List (Option Str) :=
  r.tests.foldl combineTest (statusM,[])

def combineBuild (b : Build) : Build :=
  let runs := thread combineRun Dict.empty b.testruns
  { b with testruns := runs.2.map (fun temp => ⟨temp.filterMap runs.1.get?⟩) }

def combineCases (c : Checkout) : Checkout := { c with builds := c.builds.map combineBuild }

def combineSameTestFileCase (ciObjs : List Checkout) : List Checkout := ciObjs.map combineCases

def sorted (xs : List Str) : List Str := xs.insertionSort (fun a b => a ≤ b)

def shorterName (a b : Build) : Prop := a.dbInstance.buildName.length ≤ b.dbInstance.buildName.length
instance : DecidableRel shorterName := fun _ _ => Nat.decLe _ _

def configKey (b : Build) : Except PyError (List Str) :=
  match b.dbInstance.kconfig with
  | .null => .error .attributeError
  | .items xs => .ok (sorted xs)
  | .text s => .ok (sorted (Text.split s))

def groupBuild (groups : Dict (List Str) (List Build)) (b : Build) :
    Except PyError (Dict (List Str) (List Build)) := do
  let key ← configKey b
  .ok (groups.set key ((groups.get? key).getD [] ++ [b]))

def addName (names : List Str) (name : Str) : List Str := if name ∈ names then names else names ++ [name]

/- The shortest build name stays; the test runs of the others are appended to it. -/
def mergeGroup (v : List Build) : Except PyError Build :=
  match v with
  | [b] => .ok b
  | _ => match v.insertionSort shorterName with
    | [] => .error .indexError
    | first::others => .ok { first with
        testruns := first.testruns ++ others.flatMap Build.testruns
        previousBuildNames := others.foldl (fun names b => addName names b.dbInstance.buildName)
          first.previousBuildNames }

def combineConfigs (c : Checkout) : Except PyError Checkout := do
  let groups ← c.builds.foldlM groupBuild Dict.empty
  let newBuilds ← groups.entries.mapM (fun e => mergeGroup e.2)
  .ok { c with builds := newBuilds.map combineBuild }

def combineSameConfig (ciObjs : List Checkout) : Except PyError (List Checkout) := ciObjs.mapM combineConfigs

def mergeInto : Option Test → Test → Test
  | none, t => t
  | some first, t => first.mergeStatus t

def merged (ts : List Test) : Dict (Option Str) Test :=
  Dict.pass Test.filePath mergeInto Dict.empty (ts.filter (fun t => !isBlankPath t.filePath))

theorem combineFold (statusM : Dict (Option Str) Test) (temp : List (Option Str)) (ts : List Test) :
    (ts.foldl combineTest (statusM,temp)).1 =
      Dict.pass Test.filePath mergeInto statusM (ts.filter (fun t => !isBlankPath t.filePath)) ∧
    ∃ fresh, (ts.foldl combineTest (statusM,temp)).2 = temp ++ fresh ∧
      (ts.foldl combineTest (statusM,temp)).1.keys = statusM.keys ++ fresh := by
  induction ts generalizing statusM temp with
  | nil => exact ⟨rfl,[],by simp,by simp⟩
  | cons t ts ih =>
    rw [List.foldl_cons]
    cases blank : isBlankPath t.filePath with
    | true =>
      have skip : combineTest (statusM,temp) t = (statusM,temp) := by simp [combineTest,blank]
      rw [skip,List.filter_cons]
      simpa [blank] using ih statusM temp
    | false =>
      rw [List.filter_cons]
      simp only [blank,Bool.not_false,if_true,Dict.passCons]
      cases seen : statusM.get? t.filePath with
      | some first =>
        have step : combineTest (statusM,temp) t = (statusM.set t.filePath (first.mergeStatus t),temp) := by
          simp [combineTest,blank,seen]
        have present : t.filePath ∈ statusM.keys := Dict.memKeys.mpr ⟨first,seen⟩
        rw [step]
        obtain ⟨pass,fresh,added,keys⟩ := ih (statusM.set t.filePath (first.mergeStatus t)) temp
        rw [Dict.keysSet,if_pos present] at keys
        exact ⟨pass,fresh,added,keys⟩
      | none =>
        have step : combineTest (statusM,temp) t = (statusM.set t.filePath t,temp ++ [t.filePath]) := by
          simp [combineTest,blank,seen]
        have absent : t.filePath ∉ statusM.keys := Dict.getNone.mp seen
        rw [step]
        obtain ⟨pass,fresh,added,keys⟩ := ih (statusM.set t.filePath t) (temp ++ [t.filePath])
        rw [Dict.keysSet,if_neg absent] at keys
        exact ⟨pass,t.filePath::fresh,by simpa using added,by simpa using keys⟩

theorem combineRunsFold (statusM : Dict (Option Str) Test) (runs : List TestRun) :
    (thread combineRun statusM runs).1 = Dict.pass Test.filePath mergeInto statusM
      ((runs.flatMap TestRun.getAllTestcases).filter (fun t => !isBlankPath t.filePath)) ∧
    (thread combineRun statusM runs).1.keys = statusM.keys ++ (thread combineRun statusM runs).2.flatten := by
  induction runs generalizing statusM with
  | nil => exact ⟨rfl,by simp [thread]⟩
  | cons r runs ih =>
    obtain ⟨pass,fresh,added,keys⟩ := combineFold statusM [] r.tests
    obtain ⟨restPass,restKeys⟩ := ih (combineRun statusM r).1
    rw [List.nil_append] at added
    have head : (combineRun statusM r).2 = fresh := added
    simp only [thread,List.flatMap_cons,List.filter_append,Dict.passAppend,List.flatten_cons]
    refine ⟨?_,?_⟩
    · rw [restPass]
      exact congrArg (fun d => Dict.pass Test.filePath mergeInto d _) pass
    · rw [restKeys,head,← List.append_assoc]
      exact congrArg (fun ks => ks ++ _) keys

theorem combineBuildTests (b : Build) : (combineBuild b).getAllTestcases = (merged b.getAllTestcases).values := by
  obtain ⟨pass,keys⟩ := combineRunsFold Dict.empty b.testruns
  have final : (thread combineRun Dict.empty b.testruns).1 = merged b.getAllTestcases := pass
  have flat : (combineBuild b).getAllTestcases =
      (thread combineRun Dict.empty b.testruns).2.flatten.filterMap
        (thread combineRun Dict.empty b.testruns).1.get? := by
    unfold combineBuild Build.getAllTestcases
    simp only [List.flatMap_map,TestRun.getAllTestcases]
    rw [List.filterMap_flatten,List.flatMap_def]
  rw [Dict.keysEmpty,List.nil_append] at keys
  rw [flat,← keys,final,Dict.keysLookup]

theorem mergeFoldKeeps (P : Test → Prop) (merges : ∀ a b : Test, P a → P (a.mergeStatus b)) (ts : List Test)
    (all : ∀ t ∈ ts, P t) (start : Option Test) (started : ∀ t ∈ start, P t) :
    ∀ t ∈ ts.foldl (fun o t => some (mergeInto o t)) start, P t := by
  induction ts generalizing start with
  | nil => exact started
  | cons t ts ih =>
    apply ih (fun x hx => all x (by simp [hx]))
    intro x hx
    cases Option.some.inj hx
    cases start with
    | none => exact all t (by simp)
    | some first => exact merges first t (started first rfl)

theorem mergeFoldStatus (first : Test) (ts : List Test) :
    (ts.foldl (fun o t => some (mergeInto o t)) (some first)).map Test.status =
      some ((ts.map Test.status).foldl Status.mergeStatus first.status) := by
  induction ts generalizing first with
  | nil => rfl
  | cons t ts ih => exact ih (first.mergeStatus t)

theorem mergedGet (ts : List Test) (p : Option Str) :
    (merged ts).get? p =
      if isBlankPath p then none else (occurrences p ts).foldl (fun o t => some (mergeInto o t)) none := by
  unfold merged
  rw [Dict.passGet,Dict.getEmpty,List.filter_filter]
  split
  · rename_i blank
    have nothing : ts.filter (fun t => decide (t.filePath = p) && !isBlankPath t.filePath) = [] := by
      apply List.filter_eq_nil_iff.mpr
      intro t _
      by_cases here : t.filePath = p
      · simp [here,blank]
      · simp [here]
    rw [nothing]
    rfl
  · rename_i pathed
    have all : ts.filter (fun t => decide (t.filePath = p) && !isBlankPath t.filePath) = occurrences p ts := by
      apply List.filter_congr
      intro t _
      by_cases here : t.filePath = p
      · simp [here,pathed]
      · simp [here]
    rw [all]

theorem mergedPath {ts : List Test} {p : Option Str} {t : Test} (h : (merged ts).get? p = some t) :
    t.filePath = p := by
  rw [mergedGet] at h
  split at h
  · contradiction
  · refine mergeFoldKeeps (fun t => t.filePath = p) (fun _ _ same => same) (occurrences p ts) ?_ none (by simp) t h
    intro x hx
    simpa [occurrences] using (List.mem_filter.mp hx).2

theorem mergedStatus (ts : List Test) {p : Option Str} (pathed : isBlankPath p = false) :
    ((merged ts).get? p).map Test.status = Status.combined ((occurrences p ts).map Test.status) := by
  rw [mergedGet,pathed]
  simp only [Bool.false_eq_true,if_false]
  cases occurrences p ts with
  | nil => rfl
  | cons first rest => exact mergeFoldStatus first rest

theorem combineBuildAt (b : Build) (p : Option Str) :
    occurrences p (combineBuild b).getAllTestcases = ((merged b.getAllTestcases).get? p).toList := by
  rw [combineBuildTests]
  exact Dict.valuesFilter _ Test.filePath (fun e he => mergedPath (Dict.getEntry.mpr he)) p

theorem combineBuildStatuses (b : Build) {p : Option Str} (pathed : isBlankPath p = false) :
    (occurrences p (combineBuild b).getAllTestcases).map Test.status =
      (Status.combined ((occurrences p b.getAllTestcases).map Test.status)).toList := by
  rw [combineBuildAt,← mergedStatus b.getAllTestcases pathed]
  cases (merged b.getAllTestcases).get? p <;> rfl

theorem combineBuildBlank (b : Build) {p : Option Str} (blank : isBlankPath p = true) :
    occurrences p (combineBuild b).getAllTestcases = [] := by
  rw [combineBuildAt,mergedGet,if_pos blank]
  rfl

def keyOf (b : Build) : List Str :=
  match configKey b with
  | .ok key => key
  | .error _ => []

def Keyed (bs : List Build) : Prop := ∀ b ∈ bs, b.dbInstance.kconfig ≠ .null

theorem keyedKey {b : Build} (h : b.dbInstance.kconfig ≠ .null) : configKey b = .ok (keyOf b) := by
  unfold keyOf configKey
  cases config : b.dbInstance.kconfig with
  | null => exact absurd config h
  | text s => rfl
  | items xs => rfl

def pushInto (group : Option (List Build)) (b : Build) : List Build := group.getD [] ++ [b]

def grouped (bs : List Build) : Dict (List Str) (List Build) := Dict.pass keyOf pushInto Dict.empty bs

theorem groupFold (d : Dict (List Str) (List Build)) {bs : List Build} (keyed : Keyed bs) :
    bs.foldlM groupBuild d = .ok (Dict.pass keyOf pushInto d bs) := by
  induction bs generalizing d with
  | nil => rfl
  | cons b bs ih =>
    rw [List.foldlM_cons,groupBuild,keyedKey (keyed b (by simp))]
    exact ih _ (fun x hx => keyed x (by simp [hx]))

theorem keyedOf {b : Build} {key : List Str} (h : configKey b = .ok key) : b.dbInstance.kconfig ≠ .null := by
  intro null
  unfold configKey at h
  rw [null] at h
  contradiction

theorem groupFoldKeyed {d out : Dict (List Str) (List Build)} {bs : List Build}
    (done : bs.foldlM groupBuild d = .ok out) : Keyed bs := by
  induction bs generalizing d with
  | nil => intro b hb; simp at hb
  | cons b bs ih =>
    rw [List.foldlM_cons] at done
    obtain ⟨next,step,rest⟩ := Py.bindOk.mp done
    intro x hx
    rcases List.mem_cons.mp hx with rfl | hm
    · obtain ⟨key,found,_⟩ := Py.bindOk.mp step
      exact keyedOf found
    · exact ih rest x hm

theorem combineConfigsKeyed {c out : Checkout} (done : combineConfigs c = .ok out) : Keyed c.builds := by
  obtain ⟨groups,found,_⟩ := Py.bindOk.mp done
  exact groupFoldKeyed found

theorem pushFold (group : Option (List Build)) (bs : List Build) :
    bs.foldl (fun o b => some (pushInto o b)) group = if bs = [] then group else some (group.getD [] ++ bs) := by
  induction bs generalizing group with
  | nil => rfl
  | cons b bs ih =>
    rw [List.foldl_cons,ih]
    cases bs with
    | nil => rfl
    | cons c bs => simp [pushInto]

theorem groupedGet (bs : List Build) (key : List Str) :
    (grouped bs).get? key =
      if bs.filter (fun b => keyOf b = key) = [] then none else some (bs.filter (fun b => keyOf b = key)) := by
  unfold grouped
  rw [Dict.passGet,Dict.getEmpty,pushFold]
  simp

theorem mergeGroupSpec {v : List Build} (some : v ≠ []) :
    ∃ b, mergeGroup v = .ok b ∧ b.getAllTestcases.Perm (v.flatMap Build.getAllTestcases) ∧
      ∃ first ∈ v, b.dbInstance = first.dbInstance := by
  unfold mergeGroup
  split
  · rename_i b
    exact ⟨b,rfl,by simp,b,by simp,rfl⟩
  · rename_i many
    have perm := v.perm_insertionSort shorterName
    cases order : v.insertionSort shorterName with
    | nil =>
      rw [order] at perm
      exact absurd (List.nil_perm.mp perm) some
    | cons first others =>
      rw [order] at perm
      refine ⟨_,rfl,?_,first,perm.mem_iff.mp (by simp),rfl⟩
      have whole := perm.flatMap_right Build.getAllTestcases
      rw [List.flatMap_cons] at whole
      simp only [Build.getAllTestcases,List.flatMap_append]
      rw [List.flatMap_assoc]
      exact whole

theorem groupedEntry {bs : List Build} {e : List Str × List Build} (mem : e ∈ (grouped bs).entries) :
    e.2 = bs.filter (fun b => keyOf b = e.1) ∧ e.2 ≠ [] := by
  have found := Dict.getEntry.mpr mem
  rw [groupedGet] at found
  split at found
  · contradiction
  · rename_i some
    have same := Option.some.inj found
    exact ⟨same.symm,same ▸ some⟩

theorem keyOfSame {a b : Build} (same : a.dbInstance = b.dbInstance) : configKey a = configKey b := by
  unfold configKey
  rw [same]

structure MergedBuild (e : List Str × List Build) (b : Build) : Prop where
  key : configKey b = .ok e.1
  tests : b.getAllTestcases.Perm (e.2.flatMap Build.getAllTestcases)

theorem mergeGroupEntry {bs : List Build} (keyed : Keyed bs) {e : List Str × List Build} (mem : e ∈ (grouped bs).entries) :
    ∃ b, mergeGroup e.2 = .ok b ∧ MergedBuild e b := by
  obtain ⟨group,some⟩ := groupedEntry mem
  obtain ⟨b,hb,tests,first,hf,same⟩ := mergeGroupSpec some
  rw [group,List.mem_filter] at hf
  refine ⟨b,hb,?_,tests⟩
  rw [keyOfSame same,keyedKey (keyed first hf.1)]
  exact congrArg Except.ok (by simpa using hf.2)

theorem combineConfigsSpec (c : Checkout) (keyed : Keyed c.builds) :
    ∃ newBuilds, List.Forall₂ MergedBuild (grouped c.builds).entries newBuilds ∧
      combineConfigs c = .ok { c with builds := newBuilds.map combineBuild } := by
  obtain ⟨newBuilds,loaded,rows⟩ := Py.mapMRows (fun _ mem => mergeGroupEntry keyed mem)
  refine ⟨newBuilds,rows,?_⟩
  unfold combineConfigs
  rw [groupFold Dict.empty keyed]
  change (do
    let newBuilds ← (grouped c.builds).entries.mapM (fun e : List Str × List Build => mergeGroup e.2)
    Except.ok { c with builds := newBuilds.map combineBuild }) = _
  rw [loaded]
  rfl

def testsAt (c : Checkout) (key : List Str) (p : Option Str) : List Test :=
  occurrences p ((c.builds.filter (fun b => configKey b = .ok key)).flatMap Build.getAllTestcases)

def statusesAt (c : Checkout) (key : List Str) (p : Option Str) : List Status :=
  (testsAt c key p).map Test.status

theorem occurrencesFlatMap (p : Option Str) (bs : List Build) :
    occurrences p (bs.flatMap Build.getAllTestcases) = bs.flatMap (fun b => occurrences p b.getAllTestcases) := by
  unfold occurrences
  rw [List.filter_flatMap]

theorem combineBuildKey (b : Build) : configKey (combineBuild b) = configKey b := keyOfSame rfl

theorem combinedKeys {es : List (List Str × List Build)} {bs : List Build}
    (rows : List.Forall₂ MergedBuild es bs) :
    (bs.map combineBuild).map configKey = es.map (fun e => Except.ok e.1) := by
  induction rows with
  | nil => rfl
  | cons head tail ih =>
    rw [List.map_cons,List.map_cons,combineBuildKey,head.key,ih]
    rfl

theorem combinedWithKey {es : List (List Str × List Build)} {bs : List Build}
    (rows : List.Forall₂ MergedBuild es bs) (key : List Str) :
    List.Forall₂ MergedBuild (es.filter (fun e => e.1 = key)) (bs.filter (fun b => configKey b = .ok key)) := by
  induction rows with
  | nil => exact .nil
  | @cons e b es bs head tail ih =>
    have same : (configKey b = .ok key) ↔ e.1 = key := by
      rw [head.key]
      exact ⟨Except.ok.inj,congrArg Except.ok⟩
    by_cases here : e.1 = key
    · rw [List.filter_cons_of_pos (by simpa using here),List.filter_cons_of_pos (by simpa using same.mpr here)]
      exact .cons head ih
    · rw [List.filter_cons_of_neg (by simpa using here),
        List.filter_cons_of_neg (by simpa using fun h => here (same.mp h))]
      exact ih

theorem keyedFilter {bs : List Build} (keyed : Keyed bs) (key : List Str) :
    bs.filter (fun b => configKey b = .ok key) = bs.filter (fun b => keyOf b = key) := by
  apply List.filter_congr
  intro b hb
  rw [keyedKey (keyed b hb)]
  simp

theorem filterCombine (bs : List Build) (key : List Str) :
    (bs.map combineBuild).filter (fun b => configKey b = .ok key) =
      (bs.filter (fun b => configKey b = .ok key)).map combineBuild := by
  rw [List.filter_map]
  rfl

theorem combineConfigsStatuses {c : Checkout} (keyed : Keyed c.builds) {out : Checkout}
    (done : combineConfigs c = .ok out) (key : List Str) {p : Option Str} (pathed : isBlankPath p = false) :
    statusesAt out key p = (Status.combined (statusesAt c key p)).toList := by
  obtain ⟨newBuilds,rows,spec⟩ := combineConfigsSpec c keyed
  rw [spec] at done
  cases Except.ok.inj done
  have picked := combinedWithKey rows key
  rw [Dict.entriesFilter,groupedGet,← keyedFilter keyed] at picked
  unfold statusesAt testsAt
  simp only [filterCombine]
  generalize newBuilds.filter (fun b => configKey b = .ok key) = found at picked
  split at picked
  · rename_i absent
    cases picked
    rw [absent]
    rfl
  · cases picked with
    | cons head tail =>
      cases tail
      rw [occurrencesFlatMap,List.map_singleton,List.flatMap_singleton,combineBuildStatuses _ pathed]
      congr 1
      apply Status.combinedPerm
      exact (head.tests.filter _).map _

theorem combineCasesKeyed {c : Checkout} (keyed : Keyed c.builds) : Keyed (combineCases c).builds := by
  intro b hb
  obtain ⟨a,ha,same⟩ := List.mem_map.mp hb
  subst same
  exact keyed a ha

theorem combineCasesStatuses (c : Checkout) (key : List Str) {p : Option Str} (pathed : isBlankPath p = false) :
    Status.combined (statusesAt (combineCases c) key p) = Status.combined (statusesAt c key p) := by
  unfold statusesAt testsAt combineCases
  simp only [filterCombine]
  rw [occurrencesFlatMap,occurrencesFlatMap,List.flatMap_map,List.map_flatMap,List.map_flatMap]
  have groups := Status.combinedGroups ((c.builds.filter (fun b => configKey b = .ok key)).map
    (fun b => (occurrences p b.getAllTestcases).map Test.status))
  rw [List.flatMap_map,← List.flatMap_def] at groups
  rw [← groups]
  congr 1
  exact congrArg (fun f => List.flatMap f _) (funext fun b => combineBuildStatuses b pathed)

end KernelTcp.Analysis

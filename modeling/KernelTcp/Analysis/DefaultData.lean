import KernelTcp.Analysis.Choice
import KernelTcp.Analysis.CombineResult

/-! The default data pipeline from the database rows to the selected builds. -/
namespace KernelTcp.Analysis
open CiObjects Thread

def paths (b : Build) : List (Option Str) := b.getAllTestcases.map Test.filePath

theorem combineBuildPaths (b : Build) : paths (combineBuild b) = (merged b.getAllTestcases).keys := by
  unfold paths
  rw [combineBuildTests]
  unfold Dict.values Dict.keys
  rw [List.map_map]
  apply List.map_congr_left
  intro e he
  exact mergedPath (Dict.getEntry.mpr he)

theorem combineBuildDistinct (b : Build) : (paths (combineBuild b)).Nodup := by
  rw [combineBuildPaths]
  exact Dict.keysDistinct _

theorem combineBuildMember {b : Build} {p : Option Str} :
    p ∈ paths (combineBuild b) ↔ p ∈ paths b ∧ isBlankPath p = false := by
  rw [combineBuildPaths]
  unfold merged paths
  rw [Dict.memKeysPass,Dict.keysEmpty]
  constructor
  · intro h
    rcases h with absent | ⟨t,ht,rfl⟩
    · simp at absent
    · obtain ⟨mem,pathed⟩ := List.mem_filter.mp ht
      exact ⟨List.mem_map.mpr ⟨t,mem,rfl⟩,by simpa using pathed⟩
  · intro h
    obtain ⟨mem,pathed⟩ := h
    obtain ⟨t,ht,rfl⟩ := List.mem_map.mp mem
    exact Or.inr ⟨t,List.mem_filter.mpr ⟨ht,by simpa using pathed⟩,rfl⟩

structure Ready (b : Build) : Prop where
  keyed : b.dbInstance.kconfig ≠ .null
  distinct : (paths b).Nodup
  size : 20 < b.getAllTestcases.length

structure Prepared (c : Checkout) : Prop where
  keys : (c.builds.map keyOf).Nodup
  builds : ∀ b ∈ c.builds, Ready b

theorem mergedReady {bs : List Build} (large : ∀ b ∈ bs, ∃ original, b = combineBuild original ∧ 20 < b.getAllTestcases.length)
    {e : List Str × List Build} (mem : e ∈ (grouped bs).entries) {b : Build} (merged : MergedBuild e b) :
    Ready (combineBuild b) := by
  refine ⟨keyedOf ((combineBuildKey b).trans merged.key),combineBuildDistinct b,?_⟩
  obtain ⟨group,some⟩ := groupedEntry mem
  obtain ⟨first,hf⟩ := List.exists_mem_of_ne_nil _ some
  have inside : first ∈ bs := by
    rw [group] at hf
    exact (List.mem_filter.mp hf).1
  obtain ⟨original,rfl,size⟩ := large first inside
  -- the paths of one member of the group are distinct, not blank, and all still there
  have kept : paths (combineBuild original) ⊆ paths (combineBuild b) := by
    intro p hp
    refine combineBuildMember.mpr ⟨?_,(combineBuildMember.mp hp).2⟩
    obtain ⟨t,ht,rfl⟩ := List.mem_map.mp hp
    exact List.mem_map.mpr ⟨t,merged.tests.mem_iff.mpr (List.mem_flatMap.mpr ⟨_,hf,ht⟩),rfl⟩
  have longer := (List.subperm_of_subset (combineBuildDistinct original) kept).length_le
  unfold paths at longer
  rw [List.length_map,List.length_map] at longer
  omega

theorem combineConfigsPrepared {c out : Checkout}
    (large : ∀ b ∈ c.builds, ∃ original, b = combineBuild original ∧ 20 < b.getAllTestcases.length)
    (done : combineConfigs c = .ok out) : Prepared out := by
  have keyed := combineConfigsKeyed done
  have keys := combineConfigsKeys keyed done
  obtain ⟨newBuilds,rows,spec⟩ := combineConfigsSpec c keyed
  rw [spec] at done
  have same := Except.ok.inj done
  have ready : ∀ b ∈ out.builds, Ready b := by
    intro b hb
    rw [← same] at hb
    obtain ⟨a,ha,rfl⟩ := List.mem_map.mp hb
    obtain ⟨e,he,merged⟩ := Py.rowsRight rows ha
    exact mergedReady large he merged
  refine ⟨?_,ready⟩
  have tagged : out.builds.map configKey = (out.builds.map keyOf).map Except.ok := by
    rw [List.map_map]
    exact List.map_congr_left (fun b hb => keyedKey (ready b hb).keyed)
  rw [tagged] at keys
  exact keys.of_map _

def prepared (pqdm : Pqdm) (checkouts : List Checkout) : List Checkout :=
  (filterJobs pqdm preparation (defaultStart checkouts)).state.ciObjs

theorem filterSmallDone {pqdm : Pqdm} {minimal : Nat} {cia : CIAnalysis}
    (done : (filterJob pqdm (.filterSmallBranch minimal) cia).raised = none) :
    (filterJob pqdm (.filterSmallBranch minimal) cia).state.ciObjs =
      filterBranchesAndBuildsWithFewTestcases minimal cia.ciObjs := by
  obtain ⟨arguments,cut⟩ := filterJobDone done
  simp only [filterJob,cut]

theorem filterFailDone {pqdm : Pqdm} {cia : CIAnalysis}
    (done : (filterJob pqdm .filterFailCasesInLastVersion cia).raised = none) :
    (filterJob pqdm .filterFailCasesInLastVersion cia).state.ciObjs = filterFailCasesInLastVersion cia.ciObjs := by
  obtain ⟨arguments,cut⟩ := filterJobDone done
  simp only [filterJob,cut]

theorem chooseDone {pqdm : Pqdm} {cia : CIAnalysis} (done : (filterJob pqdm .chooseOneBuild cia).raised = none) :
    chooseOneBuild cia.ciObjs = .ok (filterJob pqdm .chooseOneBuild cia).state.ciObjs := by
  obtain ⟨arguments,cut⟩ := filterJobDone done
  simp only [filterJob,cut] at done ⊢
  cases chosen : chooseOneBuild cia.ciObjs with
  | error e => simp [chosen] at done
  | ok out => rfl

theorem preparedAll {pqdm : Pqdm} {cia : CIAnalysis} (done : (filterJobs pqdm preparation cia).raised = none)
    {c : Checkout} (mem : c ∈ (filterJobs pqdm preparation cia).state.ciObjs) : Prepared c := by
  unfold preparation at done mem
  obtain ⟨first,same⟩ := filterJobsCons done
  rw [same] at done mem
  obtain ⟨second,same⟩ := filterJobsCons done
  rw [same] at done mem
  obtain ⟨third,same⟩ := filterJobsCons done
  rw [same] at mem
  obtain ⟨b,hb,combined⟩ := combineConfigDone third mem
  rw [filterSmallDone second,fewTestcasesMember] at hb
  obtain ⟨⟨a,ha,rfl⟩,_⟩ := hb
  obtain ⟨c,_,rfl⟩ := combineCaseDone first ha
  apply combineConfigsPrepared _ combined
  intro x hx
  obtain ⟨inside,size⟩ := List.mem_filter.mp hx
  obtain ⟨original,_,rfl⟩ := List.mem_map.mp inside
  exact ⟨original,rfl,by simpa using size⟩

section selecting
variable {cs : List Checkout} {best : List Str}

theorem preparedKeyed (ready : ∀ c ∈ cs, Prepared c) : Keyed (allBuilds cs) := by
  intro b hb
  obtain ⟨c,hc,inside⟩ := List.mem_flatMap.mp hb
  exact ((ready c hc).builds b inside).keyed

theorem labelSelected {all : List Build} {b first : Build} (mem : b ∈ all) (seen : first ∈ all) :
    (relabel all b).label = (nameOf all (keyOf first)).getD [] ↔ nameOf all (keyOf b) = nameOf all (keyOf first) := by
  obtain ⟨name,named⟩ := nameOfMember mem rfl
  obtain ⟨other,second⟩ := nameOfMember seen rfl
  unfold Build.label relabel
  rw [named,second]
  simp

theorem filterNodup {bs : List Build} (keys : (bs.map keyOf).Nodup) {b : Build} (mem : b ∈ bs) :
    bs.filter (fun x => keyOf x = keyOf b) = [b] := by
  induction bs with
  | nil => simp at mem
  | cons x xs ih =>
    rw [List.map_cons,List.nodup_cons] at keys
    rcases List.mem_cons.mp mem with rfl | hm
    · have others : xs.filter (fun y => keyOf y = keyOf b) = [] := by
        apply List.filter_eq_nil_iff.mpr
        intro y hy same
        exact keys.1 (List.mem_map.mpr ⟨y,hy,by simpa using same⟩)
      rw [List.filter_cons_of_pos (by simp),others]
    · have apart : keyOf x ≠ keyOf b := fun same => keys.1 (same ▸ List.mem_map.mpr ⟨b,hm,rfl⟩)
      rw [List.filter_cons_of_neg (by simpa using apart)]
      exact ih keys.2 hm

theorem pickBuilds {all : List Build} (won : winner all = some best) {c : Checkout} (inside : ∀ b ∈ c.builds, b ∈ all) :
    (pick all best c).builds =
      (c.builds.filter (fun b => nameOf all (keyOf b) = nameOf all best)).map (relabel all) := by
  obtain ⟨first,seen,rfl⟩ := winnerSeen won
  unfold pick relabelCheckout Checkout.selectBuildByConfig
  rw [List.filter_map]
  apply congrArg (List.map (relabel all))
  apply List.filter_congr
  intro b hb
  exact decide_eq_decide.mpr (labelSelected (inside b hb) seen)

theorem pickLarge (ready : ∀ c ∈ cs, Prepared c) (won : winner (allBuilds cs) = some best) {a : Checkout} (ha : a ∈ cs) :
    ∀ b ∈ (pick (allBuilds cs) best a).builds, 20 < b.getAllTestcases.length := by
  intro b hb
  rw [pickBuilds won (fun x hx => List.mem_flatMap.mpr ⟨a,ha,hx⟩)] at hb
  obtain ⟨x,hx,rfl⟩ := List.mem_map.mp hb
  exact ((ready a ha).builds x (List.mem_filter.mp hx).1).size

theorem selectedMember (ready : ∀ c ∈ cs, Prepared c) (won : winner (allBuilds cs) = some best) {c : Checkout} :
    c ∈ filterBranchesAndBuildsWithFewTestcases 20 (cs.map (pick (allBuilds cs) best)) ↔
      ∃ a ∈ cs, c = pick (allBuilds cs) best a ∧
        ∃ b ∈ a.builds, nameOf (allBuilds cs) (keyOf b) = nameOf (allBuilds cs) best := by
  have inside : ∀ a ∈ cs, ∀ b ∈ a.builds, b ∈ allBuilds cs :=
    fun a ha b hb => List.mem_flatMap.mpr ⟨a,ha,hb⟩
  -- only checkouts without a selected build go
  have whole : ∀ a ∈ cs, (pick (allBuilds cs) best a).builds.filter (fun b => 20 < b.getAllTestcases.length) =
      (pick (allBuilds cs) best a).builds :=
    fun a ha => List.filter_eq_self.mpr (fun b hb => by simpa using pickLarge ready won ha b hb)
  rw [fewTestcasesMember]
  constructor
  · intro h
    obtain ⟨⟨x,hx,rfl⟩,size⟩ := h
    obtain ⟨a,ha,rfl⟩ := List.mem_map.mp hx
    rw [whole a ha] at size ⊢
    refine ⟨a,ha,rfl,?_⟩
    obtain ⟨t,ht⟩ := List.exists_mem_of_length_pos (Nat.lt_of_lt_of_le (by omega) size)
    obtain ⟨b,hb,_⟩ := List.mem_flatMap.mp ht
    rw [pickBuilds won (inside a ha)] at hb
    obtain ⟨y,hy,_⟩ := List.mem_map.mp hb
    obtain ⟨mem,named⟩ := List.mem_filter.mp hy
    exact ⟨y,mem,by simpa using named⟩
  · intro h
    obtain ⟨a,ha,rfl,b,hb,named⟩ := h
    refine ⟨⟨_,List.mem_map.mpr ⟨a,ha,rfl⟩,by rw [whole a ha]⟩,?_⟩
    have member : relabel (allBuilds cs) b ∈ (pick (allBuilds cs) best a).builds := by
      rw [pickBuilds won (inside a ha)]
      exact List.mem_map.mpr ⟨b,List.mem_filter.mpr ⟨hb,by simpa using named⟩,rfl⟩
    have part := List.sublist_flatten_of_mem
      (List.mem_map.mpr ⟨_,member,rfl⟩ : _ ∈ (pick (allBuilds cs) best a).builds.map Build.getAllTestcases)
    have size := pickLarge ready won ha _ member
    have total := part.length_le
    change 20 ≤ ((pick (allBuilds cs) best a).builds.map Build.getAllTestcases).flatten.length
    omega

end selecting

theorem selectionDone {pqdm : Pqdm} {cia : CIAnalysis} (ready : ∀ c ∈ cia.ciObjs, Prepared c)
    (done : (filterJobs pqdm selection cia).raised = none) :
    ∃ best, winner (allBuilds cia.ciObjs) = some best ∧
      (filterJobs pqdm selection cia).state.ciObjs = filterFailCasesInLastVersion
        (filterBranchesAndBuildsWithFewTestcases 20 (cia.ciObjs.map (pick (allBuilds cia.ciObjs) best))) := by
  unfold selection at done ⊢
  obtain ⟨first,same⟩ := filterJobsCons done
  rw [same] at done ⊢
  obtain ⟨second,same⟩ := filterJobsCons done
  rw [same] at done ⊢
  obtain ⟨third,same⟩ := filterJobsCons done
  rw [same]
  have chosen := chooseDone first
  rw [chooseSpec (preparedKeyed ready)] at chosen
  cases won : winner (allBuilds cia.ciObjs) with
  | none => simp [won] at chosen
  | some best =>
    rw [won] at chosen
    refine ⟨best,rfl,?_⟩
    change (filterJob pqdm .filterFailCasesInLastVersion _).state.ciObjs = _
    rw [filterFailDone third,filterSmallDone second,← Except.ok.inj chosen]

structure OneBuild (ciObjs : List Checkout) : Prop where
  single : ∀ c ∈ ciObjs, c.builds.length = 1
  sameKey : ∀ b ∈ allBuilds ciObjs, ∀ other ∈ allBuilds ciObjs, configKey b = configKey other
  distinct : ∀ c ∈ ciObjs, (c.getAllTestcases.map Test.filePath).Nodup

def WinnerAlone (all : List Build) : Prop :=
  ∀ best, winner all = some best → ∀ b ∈ all, nameOf all (keyOf b) = nameOf all best → keyOf b = best

section final
variable {cs : List Checkout} {best : List Str} (ready : ∀ c ∈ cs, Prepared c)
  (won : winner (allBuilds cs) = some best)
include ready won

theorem selectedSurvives {b : Build} (mem : b ∈ allBuilds cs)
    (named : nameOf (allBuilds cs) (keyOf b) = nameOf (allBuilds cs) best) :
    ∃ kept ∈ allBuilds (filterFailCasesInLastVersion
      (filterBranchesAndBuildsWithFewTestcases 20 (cs.map (pick (allBuilds cs) best)))), configKey kept = configKey b := by
  obtain ⟨a,ha,inside⟩ := List.mem_flatMap.mp mem
  have chosen := (selectedMember ready won).mpr ⟨a,ha,rfl,b,inside,named⟩
  obtain ⟨c,hc,_,rows⟩ := Py.rowsLeft (siftKeepsCheckouts failStep Dict.empty _) chosen
  have member : relabel (allBuilds cs) b ∈ (pick (allBuilds cs) best a).builds := by
    rw [pickBuilds won (fun x hx => List.mem_flatMap.mpr ⟨a,ha,hx⟩)]
    exact List.mem_map.mpr ⟨b,List.mem_filter.mpr ⟨inside,by simpa using named⟩,rfl⟩
  obtain ⟨kept,hk,same⟩ := Py.rowsLeft rows member
  exact ⟨kept,List.mem_flatMap.mpr ⟨c,hc,hk⟩,keyOfSame same.1⟩

theorem pickSingle (alone : WinnerAlone (allBuilds cs)) {a : Checkout} (ha : a ∈ cs)
    (some : ∃ b ∈ a.builds, nameOf (allBuilds cs) (keyOf b) = nameOf (allBuilds cs) best) :
    ∃ b ∈ a.builds, keyOf b = best ∧ (pick (allBuilds cs) best a).builds = [relabel (allBuilds cs) b] := by
  have inside : ∀ b ∈ a.builds, b ∈ allBuilds cs := fun b hb => List.mem_flatMap.mpr ⟨a,ha,hb⟩
  obtain ⟨b,hb,named⟩ := some
  have key := alone best won b (inside b hb) named
  refine ⟨b,hb,key,?_⟩
  rw [pickBuilds won inside]
  have alike : a.builds.filter (fun x => nameOf (allBuilds cs) (keyOf x) = nameOf (allBuilds cs) best) =
      a.builds.filter (fun x => keyOf x = keyOf b) := by
    apply List.filter_congr
    intro x hx
    apply decide_eq_decide.mpr
    rw [key]
    exact ⟨alone best won x (inside x hx),fun same => by rw [same]⟩
  have once : a.builds.filter (fun x => keyOf x = keyOf b) = [b] :=
    filterNodup (ready a ha).keys hb
  rw [alike,once]
  rfl

theorem selectedOneBuild (alone : WinnerAlone (allBuilds cs)) :
    OneBuild (filterFailCasesInLastVersion
      (filterBranchesAndBuildsWithFewTestcases 20 (cs.map (pick (allBuilds cs) best)))) := by
  have each : ∀ c ∈ filterFailCasesInLastVersion
      (filterBranchesAndBuildsWithFewTestcases 20 (cs.map (pick (allBuilds cs) best))),
      ∃ b kept, Ready b ∧ keyOf b = best ∧ c.builds = [kept] ∧ SameBuild (relabel (allBuilds cs) b) kept := by
    intro c hc
    obtain ⟨x,hx,_,rows⟩ := Py.rowsRight (siftKeepsCheckouts failStep Dict.empty _) hc
    obtain ⟨a,ha,rfl,some⟩ := (selectedMember ready won).mp hx
    obtain ⟨b,hb,key,builds⟩ := pickSingle ready won alone ha some
    rw [builds] at rows
    obtain ⟨kept,last,same,none,whole⟩ := List.forall₂_cons_left_iff.mp rows
    rw [List.forall₂_nil_left_iff.mp none] at whole
    exact ⟨b,kept,(ready a ha).builds b hb,key,whole,same⟩
  refine ⟨?_,?_,?_⟩
  · intro c hc
    obtain ⟨_,_,_,_,builds,_⟩ := each c hc
    rw [builds]
    rfl
  · have keys : ∀ b ∈ allBuilds (filterFailCasesInLastVersion
        (filterBranchesAndBuildsWithFewTestcases 20 (cs.map (pick (allBuilds cs) best)))), configKey b = .ok best := by
      intro b hb
      obtain ⟨c,hc,inside⟩ := List.mem_flatMap.mp hb
      obtain ⟨original,kept,large,key,builds,same⟩ := each c hc
      rw [builds,List.mem_singleton] at inside
      rw [inside,keyOfSame same.1,← key]
      exact keyedKey large.keyed
    intro b hb other ho
    rw [keys b hb,keys other ho]
  · intro c hc
    obtain ⟨original,kept,large,_,builds,same⟩ := each c hc
    have tests : c.getAllTestcases = kept.getAllTestcases := by
      unfold Checkout.getAllTestcases
      rw [builds,List.flatMap_singleton]
    rw [tests]
    exact large.distinct.sublist ((sameBuildTests same).map _)

end final

/-- The pipeline ends with one build per checkout, all of one configuration and with
unique test files, exactly when the selected name belongs to one configuration only. -/
theorem defaultDataOneBuild (pqdm : Pqdm) (checkouts : List Checkout)
    (done : (getDefaultData pqdm checkouts).raised = none) :
    OneBuild (getDefaultData pqdm checkouts).state.ciObjs ↔ WinnerAlone (allBuilds (prepared pqdm checkouts)) := by
  unfold getDefaultData at done ⊢
  obtain ⟨first,same⟩ := filterJobsAppend done
  rw [same] at done ⊢
  have ready : ∀ c ∈ (filterJobs pqdm preparation (defaultStart checkouts)).state.ciObjs, Prepared c :=
    fun c hc => preparedAll first hc
  obtain ⟨best,won,final⟩ := selectionDone ready done
  rw [final]
  constructor
  · intro one other wins b hb named
    cases Option.some.inj (won.symm.trans wins)
    obtain ⟨top,ht,key⟩ := winnerSeen won
    obtain ⟨keptTop,memTop,keyTop⟩ := selectedSurvives ready won ht (by rw [key])
    obtain ⟨kept,mem,keyKept⟩ := selectedSurvives ready won hb named
    have equal := one.sameKey kept mem keptTop memTop
    rw [keyKept,keyTop] at equal
    rw [← key]
    unfold keyOf
    rw [equal]
  · exact selectedOneBuild ready won

def longBuild (name config : Str) : Build :=
  ⟨⟨.text config,name⟩,
    [⟨(List.range 21).map (fun n =>
      ⟨⟨[],some "pass".toList,[],List.replicate (n+1) 'a',none⟩,some (List.replicate (n+1) 'a'),.success⟩)⟩],[],none⟩

def twoConfigs (name other : Str) : List Checkout :=
  [⟨⟨[],0⟩,[longBuild name "A=y".toList,longBuild other "B=y".toList]⟩]

theorem twoConfigsSelected : (getDefaultData orderedPool (twoConfigs "gcc".toList "clang".toList)).raised = none ∧
    (OneBuild (getDefaultData orderedPool (twoConfigs "gcc".toList "clang".toList)).state.ciObjs ↔
      WinnerAlone (allBuilds (prepared orderedPool (twoConfigs "gcc".toList "clang".toList)))) :=
  ⟨by decide +kernel,defaultDataOneBuild _ _ (by decide +kernel)⟩

theorem twoConfigsOneName : (getDefaultData orderedPool (twoConfigs "gcc".toList "gcc".toList)).raised = none ∧
    ¬ OneBuild (getDefaultData orderedPool (twoConfigs "gcc".toList "gcc".toList)).state.ciObjs := by
  refine ⟨by decide +kernel,fun one => ?_⟩
  have builds : (getDefaultData orderedPool (twoConfigs "gcc".toList "gcc".toList)).state.ciObjs.map
      (fun c => c.builds.length) = [2] := by decide +kernel
  obtain ⟨c,rest,same,size,_⟩ := List.map_eq_cons_iff.mp builds
  have single := one.single c (by rw [same]; simp)
  omega

end KernelTcp.Analysis

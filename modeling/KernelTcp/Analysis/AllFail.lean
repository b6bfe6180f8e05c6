import KernelTcp.Analysis.FilterJob

/-! FILTER_ALLFAIL_CASE over whole runs of `filter_job`: the status map is the one of the
test cases present at its first call, and every later job only takes test cases away. -/
namespace KernelTcp.Analysis
open CiObjects

def passing (ts : List Test) (path : Str) : Bool := ts.any (fun t => t.dbInstance.path = path && t.isPass)

def judged (outside : Outside) (ts : List Test) (t : Test) : Bool :=
  !knownIssue outside t && passing ts t.dbInstance.path

theorem statusFold (known : Option Bool) (ts : List Test) :
    ts.foldl (fun o t => some (o.getD false || t.isPass)) known =
      if ts = [] then known else some (known.getD false || ts.any Test.isPass) := by
  induction ts generalizing known with
  | nil => rfl
  | cons t ts ih =>
    rw [List.foldl_cons,ih]
    cases ts with
    | nil => simp
    | cons u ts => simp [Bool.or_assoc]

theorem statusMapGet {ts : List Test} {t : Test} (mem : t ∈ ts) :
    (statusMapOf ts).get? t.dbInstance.path = some (passing ts t.dbInstance.path) := by
  have present : ts.filter (fun s => s.dbInstance.path = t.dbInstance.path) ≠ [] :=
    List.ne_nil_of_mem (List.mem_filter.mpr ⟨mem,by simp⟩)
  unfold statusMapOf passing
  rw [Dict.passGet,Dict.getEmpty,statusFold,if_neg present,List.any_filter]
  rfl

theorem notAlwaysFailedJudged (outside : Outside) {ts : List Test} {t s : Test} (mem : s ∈ ts)
    (row : s.dbInstance = t.dbInstance) :
    notAlwaysFailed outside (statusMapOf ts) t = .ok (judged outside ts t) := by
  unfold notAlwaysFailed judged
  cases knownIssue outside t with
  | true => rfl
  | false =>
    rw [← row,statusMapGet mem]
    rfl

def Fewer (cs out : List Checkout) : Prop := ∀ o ∈ out, ∃ c ∈ cs, Within c o

theorem fewerRefl (cs : List Checkout) : Fewer cs cs := fun o mem => ⟨o,mem,withinRefl o⟩

theorem fewerTests {cs out : List Checkout} (fewer : Fewer cs out) {t : Test} (mem : t ∈ getAllTestcases out) :
    ∃ s ∈ getAllTestcases cs, s.dbInstance = t.dbInstance := by
  obtain ⟨o,ho,ht⟩ := List.mem_flatMap.mp mem
  obtain ⟨c,hc,within⟩ := fewer o ho
  obtain ⟨s,hs,row⟩ := within.2 t ht
  exact ⟨s,List.mem_flatMap.mpr ⟨c,hc,hs⟩,row⟩

theorem runWorkerFewer {worker : Worker} (within : ∀ {chunk part}, worker chunk = .ok part → List.Forall₂ Within chunk part)
    {cia : CIAnalysis} {arguments : List (List Checkout)}
    (cut : Slices.slices cia.executionNumberPerThread cia.ciObjs = .ok arguments) (pqdm : Pqdm) :
    Fewer cia.ciObjs (runWorker pqdm worker arguments cia).state.ciObjs := by
  obtain ⟨out,raised,extended,result⟩ := runWorkerExtended pqdm worker arguments cia
  obtain ⟨kept,lost,whole,rows,_⟩ := extendedKept extended within
  rw [Slices.slicesFlatten cut] at whole
  have each : Fewer cia.ciObjs out := by
    intro o mem
    obtain ⟨c,hc,within⟩ := Py.rowsRight rows mem
    exact ⟨c,by simp [whole,hc],within⟩
  rw [result]
  cases raised with
  | none => exact fun o mem => each o ((List.mem_insertionSort _).mp mem)
  | some e => exact each

theorem sameCheckoutWithin {c kept : Checkout} (same : SameCheckout c kept) : Within c kept := by
  refine ⟨same.1,?_⟩
  intro t mem
  obtain ⟨b,hb,ht⟩ := List.mem_flatMap.mp mem
  obtain ⟨original,ho,build⟩ := Py.rowsRight same.2 hb
  exact ⟨t,List.mem_flatMap.mpr ⟨original,ho,(sameBuildTests build).subset ht⟩,rfl⟩

theorem filterJobFewer (pqdm : Pqdm) (job : Job) (cia : CIAnalysis) :
    Fewer cia.ciObjs (filterJob pqdm job cia).state.ciObjs := by
  cases cut : Slices.slices cia.executionNumberPerThread cia.ciObjs with
  | error e => simpa only [filterJob,cut] using fewerRefl cia.ciObjs
  | ok arguments =>
    simp only [filterJob,cut]
    cases job with
    | combineSameCase => exact runWorkerFewer combineChunkWithin cut pqdm
    | combineSameConfig => exact runWorkerFewer (mapMWithin combineConfigsWithin) cut pqdm
    | filterSmallBranch minimal =>
      intro o mem
      obtain ⟨⟨c,hc,rfl⟩,_⟩ := fewTestcasesMember.mp mem
      refine ⟨c,hc,rfl,?_⟩
      intro t ht
      obtain ⟨b,hb,ht⟩ := List.mem_flatMap.mp ht
      exact ⟨t,List.mem_flatMap.mpr ⟨b,(List.mem_filter.mp hb).1,ht⟩,rfl⟩
    | filterFailCasesInLastVersion =>
      intro o mem
      obtain ⟨c,hc,same⟩ := Py.rowsRight (siftKeepsCheckouts failStep Dict.empty cia.ciObjs) mem
      exact ⟨c,hc,sameCheckoutWithin same⟩
    | chooseOneBuild =>
      cases chosen : chooseOneBuild cia.ciObjs with
      | error e => exact fewerRefl cia.ciObjs
      | ok out =>
        intro o mem
        obtain ⟨c,hc,within⟩ := Py.rowsRight (chooseWithin chosen) mem
        exact ⟨c,hc,within⟩

theorem filterTaskFewer (outside : Outside) (pqdm : Pqdm) (task : Task) (s : Session) :
    Fewer s.cia.ciObjs (filterTask outside pqdm task s).state.cia.ciObjs := by
  cases cut : Slices.slices s.cia.executionNumberPerThread s.cia.ciObjs with
  | error e => simpa only [filterTask,cut] using fewerRefl s.cia.ciObjs
  | ok arguments =>
    cases started : workerOf outside s.statusMap task with
    | some worker =>
      rw [filterTaskStarted started cut]
      exact runWorkerFewer (workerWithin started) cut pqdm
    | none =>
      simp only [filterTask,cut,started]
      cases task with
      | standard job => exact filterJobFewer pqdm job s.cia
      | _ => exact fewerRefl s.cia.ciObjs

theorem runWorkerSize (pqdm : Pqdm) (worker : Worker) (arguments : List (List Checkout)) (cia : CIAnalysis) :
    (runWorker pqdm worker arguments cia).state.executionNumberPerThread = cia.executionNumberPerThread := by
  obtain ⟨out,raised,_,result⟩ := runWorkerExtended pqdm worker arguments cia
  rw [result]
  cases raised with
  | none => rfl
  | some e => rfl

theorem filterJobSize (pqdm : Pqdm) (job : Job) (cia : CIAnalysis) :
    (filterJob pqdm job cia).state.executionNumberPerThread = cia.executionNumberPerThread := by
  unfold filterJob
  split
  · rfl
  · cases job with
    | combineSameCase => exact runWorkerSize pqdm _ _ cia
    | combineSameConfig => exact runWorkerSize pqdm _ _ cia
    | filterSmallBranch minimal => rfl
    | filterFailCasesInLastVersion => rfl
    | chooseOneBuild => simp only; split <;> rfl

theorem filterTaskSize (outside : Outside) (pqdm : Pqdm) (task : Task) (s : Session) :
    (filterTask outside pqdm task s).state.cia.executionNumberPerThread = s.cia.executionNumberPerThread := by
  unfold filterTask
  split
  · rfl
  · split
    · exact runWorkerSize pqdm _ _ s.cia
    · split
      · exact filterJobSize pqdm _ s.cia
      · rfl

theorem filterTaskMap (outside : Outside) (pqdm : Pqdm) {task : Task} {s : Session}
    (positive : 1 ≤ s.cia.executionNumberPerThread) : (filterTask outside pqdm task s).state.testCaseStatusMap =
      if task = .filterAllfailCase then some s.statusMap else s.testCaseStatusMap := by
  obtain ⟨arguments,cut⟩ := Slices.slicesCut positive s.cia.ciObjs
  cases started : workerOf outside s.statusMap task with
  | some worker =>
    rw [filterTaskStarted started cut]
    simp only [Session.leave,Session.prepare]
    split <;> rfl
  | none =>
    simp only [filterTask,cut,started]
    cases task with
    | filterAllfailCase => contradiction
    | _ => rfl

section runs
variable (outside : Outside) (pqdm : Pqdm)

def Session.after : List Task → Session → Session
  | [], s => s
  | task::tasks, s => Session.after tasks (filterTask outside pqdm task s).state

def firstJudged : List Task → Session → Option (List Test)
  | [], _ => none
  | task::tasks, s =>
      if task = .filterAllfailCase then some s.tests else firstJudged tasks (filterTask outside pqdm task s).state

end runs

structure Memo (s : Session) (old : Option (List Test)) : Prop where
  positive : 1 ≤ s.cia.executionNumberPerThread
  map : s.testCaseStatusMap = old.map statusMapOf
  present : ∀ ts ∈ old, ∀ t ∈ s.tests, ∃ o ∈ ts, o.dbInstance = t.dbInstance

theorem memoMap {s : Session} {old : Option (List Test)} (memo : Memo s old) :
    s.statusMap = statusMapOf (old.getD s.tests) := by
  unfold Session.statusMap
  rw [memo.map]
  cases old <;> rfl

theorem memoStep {s : Session} {old : Option (List Test)} (memo : Memo s old) (outside : Outside) (pqdm : Pqdm) (task : Task) :
    Memo (filterTask outside pqdm task s).state
      (if task = .filterAllfailCase then some (old.getD s.tests) else old) := by
  have fewer : ∀ t ∈ (filterTask outside pqdm task s).state.tests, ∃ o ∈ s.tests, o.dbInstance = t.dbInstance :=
    fun t mem => fewerTests (filterTaskFewer outside pqdm task s) mem
  have earlier : ∀ ts ∈ old, ∀ t ∈ (filterTask outside pqdm task s).state.tests, ∃ o ∈ ts, o.dbInstance = t.dbInstance := by
    intro ts held t mem
    obtain ⟨u,hu,row⟩ := fewer t mem
    obtain ⟨o,ho,same⟩ := memo.present ts held u hu
    exact ⟨o,ho,same.trans row⟩
  refine ⟨(filterTaskSize outside pqdm task s).symm ▸ memo.positive,?_,?_⟩
  · rw [filterTaskMap outside pqdm memo.positive,memoMap memo,memo.map]
    split <;> rfl
  · split
    · intro ts held
      cases Option.some.inj held
      cases old with
      | none => exact fewer
      | some ts => exact earlier ts rfl
    · exact earlier

theorem memoRun (outside : Outside) (pqdm : Pqdm) (tasks : List Task) {s : Session} {old : Option (List Test)}
    (memo : Memo s old) : Memo (Session.after outside pqdm tasks s) (old.or (firstJudged outside pqdm tasks s)) := by
  induction tasks generalizing s old with
  | nil => simpa [Session.after,firstJudged] using memo
  | cons task tasks ih =>
    have next := ih (memoStep memo outside pqdm task)
    unfold Session.after firstJudged
    split at next
    · rename_i allfail
      rw [if_pos allfail]
      cases old <;> exact next
    · rename_i different
      rw [if_neg different]
      exact next

theorem allfailResult {s : Session} {old : Option (List Test)} (memo : Memo s old) (outside : Outside) (pqdm : Pqdm) :
    (filterTask outside pqdm .filterAllfailCase s).raised = none
      ∧ (filterTask outside pqdm .filterAllfailCase s).state.cia.ciObjs =
        (s.cia.ciObjs.map (keepCheckout (judged outside (old.getD s.tests)))).insertionSort CIAnalysis.earlier := by
  have started : workerOf outside s.statusMap .filterAllfailCase =
    some (filterAlwaysFailedTestCases outside s.statusMap) := rfl
  rw [memoMap memo] at started
  have verdict : ∀ t ∈ s.tests, notAlwaysFailed outside (statusMapOf (old.getD s.tests)) t =
      .ok (judged outside (old.getD s.tests) t) := by
    intro t mem
    cases old with
    | none => exact notAlwaysFailedJudged outside mem rfl
    | some ts =>
      obtain ⟨o,ho,row⟩ := memo.present ts rfl t mem
      exact notAlwaysFailedJudged outside ho row
  obtain ⟨arguments,cut⟩ := Slices.slicesCut memo.positive s.cia.ciObjs
  have quiet : ∀ chunk ∈ arguments, ∃ part,
      filterAlwaysFailedTestCases outside (statusMapOf (old.getD s.tests)) chunk = .ok part := by
    intro chunk mem
    refine ⟨_,rewriteTestsKeeps (fun t ht => verdict t ?_)⟩
    obtain ⟨c,hc,ht⟩ := List.mem_flatMap.mp ht
    have whole := Slices.slicesFlatten cut
    exact List.mem_flatMap.mpr ⟨c,whole ▸ List.mem_flatten.mpr ⟨chunk,mem,hc⟩,ht⟩
  rw [← memoMap memo] at started quiet
  obtain ⟨whole,treated,result⟩ := filterTaskWhole started (fun _ => rfl) cut quiet pqdm
  rw [memoMap memo] at treated
  cases Except.ok.inj (treated.symm.trans (rewriteTestsKeeps verdict))
  rw [result]
  exact ⟨rfl,rfl⟩

theorem sortedKeepSame {p q : Test → Bool} {cs : List Checkout} :
    (cs.map (keepCheckout p)).insertionSort CIAnalysis.earlier = (cs.map (keepCheckout q)).insertionSort CIAnalysis.earlier
      ↔ ∀ t ∈ getAllTestcases cs, p t = q t := by
  have order : ∀ p, (cs.map (keepCheckout p)).insertionSort CIAnalysis.earlier =
      (cs.insertionSort CIAnalysis.earlier).map (keepCheckout p) :=
    fun p => (List.map_insertionSort _ _ (keepCheckout p) cs (fun _ _ _ _ => Iff.rfl)).symm
  rw [order p,order q,keepSame]
  have same : ∀ t, t ∈ getAllTestcases (cs.insertionSort CIAnalysis.earlier) ↔ t ∈ getAllTestcases cs := by
    intro t
    simp only [getAllTestcases,List.mem_flatMap,List.mem_insertionSort]
  simp only [same]

/-- A FILTER_ALLFAIL_CASE call judges the current test cases exactly when, for every one
without a known issue, its path passes now as it did at the first such call. -/
theorem allfailJudgesCurrent (outside : Outside) (pqdm : Pqdm) (cia : CIAnalysis)
    (positive : 1 ≤ cia.executionNumberPerThread) (tasks : List Task) :
    (filterTask outside pqdm .filterAllfailCase (Session.after outside pqdm tasks ⟨cia,none⟩)).raised = none
      ∧ ((filterTask outside pqdm .filterAllfailCase (Session.after outside pqdm tasks ⟨cia,none⟩)).state.cia.ciObjs =
          ((Session.after outside pqdm tasks ⟨cia,none⟩).cia.ciObjs.map
            (keepCheckout (judged outside (Session.after outside pqdm tasks ⟨cia,none⟩).tests))).insertionSort CIAnalysis.earlier
        ↔ ∀ t ∈ (Session.after outside pqdm tasks ⟨cia,none⟩).tests, knownIssue outside t = false →
          passing ((firstJudged outside pqdm tasks ⟨cia,none⟩).getD (Session.after outside pqdm tasks ⟨cia,none⟩).tests)
              t.dbInstance.path
            = passing (Session.after outside pqdm tasks ⟨cia,none⟩).tests t.dbInstance.path) := by
  have fresh : Memo ⟨cia,none⟩ none := ⟨positive,rfl,by simp⟩
  have memo : Memo (Session.after outside pqdm tasks ⟨cia,none⟩) (firstJudged outside pqdm tasks ⟨cia,none⟩) :=
    memoRun outside pqdm tasks fresh
  generalize Session.after outside pqdm tasks ⟨cia,none⟩ = s at memo ⊢
  generalize firstJudged outside pqdm tasks ⟨cia,none⟩ = old at memo ⊢
  obtain ⟨quiet,left⟩ := allfailResult memo outside pqdm
  refine ⟨quiet,?_⟩
  rw [left,sortedKeepSame]
  refine forall₂_congr (fun t _ => ?_)
  unfold judged
  cases knownIssue outside t <;> simp

def passInSmallCheckout : CIAnalysis := ⟨[checkoutOf "a" 1 [testOf "t" .failure,testOf "u" .success],
  checkoutOf "b" 2 [testOf "t" .success]],1,1024⟩

def afterSmallBranch : Session :=
  Session.after nothingOutside orderedPool [.standard (.filterSmallBranch 1)] ⟨passInSmallCheckout,none⟩

def afterBoth : Session :=
  Session.after nothingOutside orderedPool [.filterAllfailCase,.standard (.filterSmallBranch 1)] ⟨passInSmallCheckout,none⟩

theorem firstCallCurrent : (filterTask nothingOutside orderedPool .filterAllfailCase afterSmallBranch).raised = none
    ∧ (filterTask nothingOutside orderedPool .filterAllfailCase afterSmallBranch).state.cia.ciObjs =
      (afterSmallBranch.cia.ciObjs.map (keepCheckout (judged nothingOutside afterSmallBranch.tests))).insertionSort
        CIAnalysis.earlier :=
  have call := allfailJudgesCurrent nothingOutside orderedPool passInSmallCheckout (by decide)
    [.standard (.filterSmallBranch 1)]
  ⟨call.1,call.2.mpr (by decide +kernel)⟩

theorem laterCallStale : afterBoth.tests = [testOf "t" .failure,testOf "u" .success]
    ∧ getAllTestcases (filterTask nothingOutside orderedPool .filterAllfailCase afterBoth).state.cia.ciObjs =
      [testOf "t" .failure,testOf "u" .success]
    ∧ (filterTask nothingOutside orderedPool .filterAllfailCase afterBoth).state.cia.ciObjs ≠
      (afterBoth.cia.ciObjs.map (keepCheckout (judged nothingOutside afterBoth.tests))).insertionSort CIAnalysis.earlier := by
  decide +kernel

end KernelTcp.Analysis

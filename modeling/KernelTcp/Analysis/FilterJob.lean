import KernelTcp.Analysis.Workers

/-! `filter_job` for every task, on an analysis object that remembers the status map of
FILTER_ALLFAIL_CASE. A task carries the keyword arguments it is called with; labels that
CHOOSE_ONE_BUILD gave before an exception are not tracked, each is given again before it
is read. -/
namespace KernelTcp.Analysis
open CiObjects

structure Session where
  cia : CIAnalysis
  testCaseStatusMap : Option (Dict Str Bool)

inductive Task where
  | standard (job : Job)
  | logFilter
  | filterUnknownCase
  | filterCaseByType
  | filterNofileCase
  | filterAllfailCase
  | findGoodConfig
  | filterNoCCase
  | filterNoShCase
  | other
  deriving DecidableEq, Repr

def statusMapOf (ts : List Test) : Dict Str Bool :=
  Dict.pass (fun t => t.dbInstance.path) (fun known t => known.getD false || t.isPass) Dict.empty ts

namespace Session

def tests (s : Session) : List Test := getAllTestcases s.cia.ciObjs

def statusMap (s : Session) : Dict Str Bool := s.testCaseStatusMap.getD (statusMapOf s.tests)

def remember (s : Session) : Session := { s with testCaseStatusMap := some s.statusMap }

end Session

structure Ended where
  state : Session
  raised : Option PyError

def workerOf (outside : Outside) (statusMap : Dict Str Bool) : Task → Option Worker
  | .standard .combineSameCase => some (fun chunk => .ok (combineSameTestFileCase chunk))
  | .standard .combineSameConfig => some combineSameConfig
  | .standard _ => none
  | .logFilter => some (filterLog outside)
  | .filterUnknownCase => some filterUnknownTestCases
  | .filterCaseByType => some filterTestCasesByType
  | .filterNofileCase => some (filterNoFileTestCases outside)
  | .filterAllfailCase => some (filterAlwaysFailedTestCases outside statusMap)
  | .findGoodConfig => some goodConfig
  | .filterNoCCase => some filterNoCCases
  | .filterNoShCase => some filterNoShCases
  | .other => none

-- the status map is built before the workers start
def Session.prepare (task : Task) (s : Session) : Session := if task = .filterAllfailCase then s.remember else s

def Session.leave (s : Session) (out : Outcome) : Ended := ⟨{ s with cia := out.state },out.raised⟩

def filterTask (outside : Outside) (pqdm : Pqdm) (task : Task) (s : Session) : Ended :=
  match Slices.slices s.cia.executionNumberPerThread s.cia.ciObjs with
  | .error e => ⟨s,some e⟩
  | .ok arguments => match workerOf outside s.statusMap task with
    | some worker => (s.prepare task).leave (runWorker pqdm worker arguments s.cia)
    | none => match task with
      | .standard job => s.leave (filterJob pqdm job s.cia)
      | _ => ⟨s,none⟩

theorem extendedKept {worker : Worker} {arguments : List (List Checkout)} {out : List Checkout} {raised : Option PyError}
    (extended : Extended worker arguments out raised)
    (rows : ∀ {chunk part}, worker chunk = .ok part → List.Forall₂ Within chunk part) :
    ∃ kept lost, arguments.flatten = kept ++ lost ∧ List.Forall₂ Within kept out
      ∧ ((∀ chunk ∈ arguments, chunk ≠ []) → (lost = [] ↔ raised = none)) := by
  induction extended with
  | done => exact ⟨[],[],rfl,.nil,by simp⟩
  | @failed chunk rest e _ =>
    exact ⟨[],(chunk::rest).flatten,rfl,.nil,fun some => by simp [some chunk]⟩
  | @part chunk rest part out raised ok _ ih =>
    obtain ⟨kept,lost,whole,within,all⟩ := ih
    refine ⟨chunk ++ kept,lost,by simp [whole],List.rel_append (rows ok) within,?_⟩
    exact fun some => all (fun chunk mem => some chunk (by simp [mem]))

theorem mapMWithin {f : Checkout → Except PyError Checkout} (within : ∀ {c out}, f c = .ok out → Within c out)
    {chunk part : List Checkout} (ok : chunk.mapM f = .ok part) : List.Forall₂ Within chunk part :=
  (Py.mapMOk.mp ok).imp (fun _ _ done => within done)

theorem combineChunkWithin {chunk part : List Checkout}
    (ok : (.ok (combineSameTestFileCase chunk) : Except PyError (List Checkout)) = .ok part) :
    List.Forall₂ Within chunk part := by
  cases Except.ok.inj ok
  exact List.forall₂_map_right_iff.mpr (List.forall₂_same.mpr (fun c _ => combineCasesWithin c))

theorem workerWithin {outside : Outside} {statusMap : Dict Str Bool} {task : Task} {worker : Worker}
    (started : workerOf outside statusMap task = some worker) {chunk part : List Checkout}
    (ok : worker chunk = .ok part) : List.Forall₂ Within chunk part := by
  cases task with
  | standard job =>
    cases job with
    | combineSameCase =>
      cases Option.some.inj started
      exact combineChunkWithin ok
    | combineSameConfig =>
      cases Option.some.inj started
      exact mapMWithin combineConfigsWithin ok
    | filterSmallBranch minimal => contradiction
    | filterFailCasesInLastVersion => contradiction
    | chooseOneBuild => contradiction
  | logFilter =>
    cases Option.some.inj started
    obtain ⟨data,_,ok⟩ := Py.bindOk.mp ok
    exact mapMWithin keepIfWithin ok
  | filterCaseByType =>
    cases Option.some.inj started
    refine mapMWithin ?_ ok
    intro c out done
    split at done
    · contradiction
    · cases Except.ok.inj done
      exact withinRefl c
  | filterNofileCase =>
    cases Option.some.inj started
    exact mapMWithin (rewriteWithin (fun kept => withFileRow (Except.ok.inj kept))) ok
  | findGoodConfig =>
    cases Option.some.inj started
    refine mapMWithin ?_ ok
    intro c out done
    obtain ⟨keys,_,same⟩ := Py.bindOk.mp done
    cases Except.ok.inj same
    exact withinRefl c
  | filterUnknownCase | filterAllfailCase | filterNoCCase | filterNoShCase =>
    cases Option.some.inj started
    exact mapMWithin keepIfWithin ok
  | other => contradiction

def oneByOne : List Task := [.filterUnknownCase,.filterAllfailCase,.standard .combineSameCase,
  .standard .combineSameConfig,.filterNoCCase,.filterNoShCase]

theorem workerOneByOne (outside : Outside) (statusMap : Dict Str Bool) {task : Task} (listed : task ∈ oneByOne) :
    ∃ worker f, workerOf outside statusMap task = some worker ∧ ∀ chunk, worker chunk = chunk.mapM f := by
  simp only [oneByOne,List.mem_cons,List.not_mem_nil,or_false] at listed
  rcases listed with rfl | rfl | rfl | rfl | rfl | rfl
  · exact ⟨_,_,rfl,fun _ => rfl⟩
  · exact ⟨_,_,rfl,fun _ => rfl⟩
  · exact ⟨_,_,rfl,combineEach⟩
  · exact ⟨_,_,rfl,fun _ => rfl⟩
  · exact ⟨_,_,rfl,fun _ => rfl⟩
  · exact ⟨_,_,rfl,fun _ => rfl⟩

theorem filterTaskStarted {outside : Outside} {task : Task} {s : Session} {worker : Worker}
    (started : workerOf outside s.statusMap task = some worker) {arguments : List (List Checkout)}
    (cut : Slices.slices s.cia.executionNumberPerThread s.cia.ciObjs = .ok arguments) (pqdm : Pqdm) :
    filterTask outside pqdm task s = (s.prepare task).leave (runWorker pqdm worker arguments s.cia) := by
  simp only [filterTask,cut,started]

theorem filterTaskWhole {outside : Outside} {task : Task} {s : Session} {worker : Worker}
    (started : workerOf outside s.statusMap task = some worker) {f : Checkout → Except PyError Checkout}
    (each : ∀ chunk, worker chunk = chunk.mapM f) {arguments : List (List Checkout)}
    (cut : Slices.slices s.cia.executionNumberPerThread s.cia.ciObjs = .ok arguments)
    (quiet : ∀ chunk ∈ arguments, ∃ part, worker chunk = .ok part) (pqdm : Pqdm) :
    ∃ whole, worker s.cia.ciObjs = .ok whole ∧ filterTask outside pqdm task s =
      (s.prepare task).leave ⟨{ s.cia with ciObjs := whole.insertionSort CIAnalysis.earlier },none⟩ := by
  obtain ⟨whole,raised,extended,result⟩ := runWorkerExtended pqdm worker arguments s.cia
  cases extendedQuiet extended quiet
  have treated := extendedWhole extended each
  rw [Slices.slicesFlatten cut] at treated
  exact ⟨whole,treated,by rw [filterTaskStarted started cut,result]⟩

def rows (ciObjs : List Checkout) : List DBCheckout := ciObjs.map Checkout.dbInstance

theorem rowsWithin {cs out : List Checkout} (within : List.Forall₂ Within cs out) : rows out = rows cs := by
  induction within with
  | nil => rfl
  | cons head _ ih => exact congrArg₂ List.cons head.1 ih

/-- Filtering chunk by chunk is filtering the whole list once and sorting it by commit time. -/
theorem chunkedIsSequential (outside : Outside) (pqdm : Pqdm) (s : Session) (task : Task) (listed : task ∈ oneByOne)
    (positive : 1 ≤ s.cia.executionNumberPerThread)
    (quiet : ∀ worker arguments, workerOf outside s.statusMap task = some worker →
      Slices.slices s.cia.executionNumberPerThread s.cia.ciObjs = .ok arguments →
      ∀ chunk ∈ arguments, ∃ part, worker chunk = .ok part) :
    ∃ worker whole, workerOf outside s.statusMap task = some worker ∧ worker s.cia.ciObjs = .ok whole
      ∧ (filterTask outside pqdm task s).raised = none
      ∧ (filterTask outside pqdm task s).state.cia = { s.cia with ciObjs := whole.insertionSort CIAnalysis.earlier }
      ∧ (rows (filterTask outside pqdm task s).state.cia.ciObjs).Perm (rows s.cia.ciObjs) := by
  obtain ⟨worker,f,started,each⟩ := workerOneByOne outside s.statusMap listed
  obtain ⟨arguments,cut⟩ := Slices.slicesCut positive s.cia.ciObjs
  obtain ⟨whole,treated,result⟩ := filterTaskWhole started each cut (quiet worker arguments started cut) pqdm
  rw [result]
  refine ⟨worker,whole,started,treated,rfl,rfl,?_⟩
  rw [← rowsWithin (workerWithin started treated)]
  exact (whole.perm_insertionSort CIAnalysis.earlier).map Checkout.dbInstance

def nothingOutside : Outside :=
  ⟨fun _ => .null,fun _ => false,fun _ => false,.error .fileNotFoundError,fun _ => .error .fileNotFoundError⟩

def testOf (name : String) (status : Status) : Test :=
  ⟨⟨name.toList,none,name.toList,"a.c".toList,none⟩,some "a.c".toList,status⟩

def checkoutOf (sha : String) (time : Int) (tests : List Test) : Checkout :=
  ⟨⟨sha.toList,time⟩,[⟨⟨.text [],"defconfig".toList⟩,[⟨tests⟩],[],none⟩]⟩

def threeCheckouts : Session := ⟨⟨[checkoutOf "c" 3 [testOf "t" .success,testOf "u" .unknown],
  checkoutOf "b" 2 [testOf "u" .unknown],checkoutOf "a" 1 [testOf "t" .failure]],1,2⟩,none⟩

theorem threeCheckoutsInChunks :
    rows (filterTask nothingOutside orderedPool .filterUnknownCase threeCheckouts).state.cia.ciObjs =
        [⟨"a".toList,1⟩,⟨"b".toList,2⟩,⟨"c".toList,3⟩]
      ∧ ∃ worker whole, workerOf nothingOutside threeCheckouts.statusMap .filterUnknownCase = some worker
      ∧ worker threeCheckouts.cia.ciObjs = .ok whole
      ∧ (filterTask nothingOutside orderedPool .filterUnknownCase threeCheckouts).raised = none
      ∧ (filterTask nothingOutside orderedPool .filterUnknownCase threeCheckouts).state.cia =
          { threeCheckouts.cia with ciObjs := whole.insertionSort CIAnalysis.earlier }
      ∧ (rows (filterTask nothingOutside orderedPool .filterUnknownCase threeCheckouts).state.cia.ciObjs).Perm
          (rows threeCheckouts.cia.ciObjs) := by
  refine ⟨by decide +kernel,chunkedIsSequential nothingOutside orderedPool threeCheckouts .filterUnknownCase
    (by decide) (by decide) ?_⟩
  intro worker arguments started _ chunk _
  cases Option.some.inj started
  exact ⟨_,rewriteTestsKeeps (fun _ _ => rfl)⟩

def StillContains (before after : List Checkout) : Prop := (rows before).Subperm (rows after)
instance (before after) : Decidable (StillContains before after) := by unfold StillContains; infer_instance

/-- A job whose worker raises on some chunk always loses checkouts: what is left comes from
the chunks before the first one that raises. -/
theorem failingJobLoses (outside : Outside) (pqdm : Pqdm) (s : Session) (task : Task) (worker : Worker)
    (started : workerOf outside s.statusMap task = some worker) (arguments : List (List Checkout))
    (cut : Slices.slices s.cia.executionNumberPerThread s.cia.ciObjs = .ok arguments)
    (raises : ∃ chunk ∈ arguments, ∃ e, worker chunk = .error e) :
    (filterTask outside pqdm task s).raised = some .typeError
      ∧ ¬ StillContains s.cia.ciObjs (filterTask outside pqdm task s).state.cia.ciObjs
      ∧ ((rows s.cia.ciObjs).Nodup → ∃ c ∈ s.cia.ciObjs,
        ∀ left ∈ (filterTask outside pqdm task s).state.cia.ciObjs, left.dbInstance ≠ c.dbInstance) := by
  obtain ⟨chunk,mem,e,failing⟩ := raises
  obtain ⟨out,raised,extended,result⟩ := runWorkerExtended pqdm worker arguments s.cia
  cases extendedRaises extended mem failing
  obtain ⟨kept,lost,whole,within,all⟩ := extendedKept extended (workerWithin started)
  rw [Slices.slicesFlatten cut] at whole
  have some : lost ≠ [] := by
    intro none
    simpa using (all (fun _ mem => Slices.slicesSome cut mem)).mp none
  have left : rows out = rows kept := rowsWithin within
  have before : rows s.cia.ciObjs = rows kept ++ rows lost := by simp [whole,rows]
  rw [filterTaskStarted started cut,result]
  refine ⟨rfl,?_,?_⟩
  · intro contained
    have shorter := contained.length_le
    simp only [Session.leave,before,left,List.length_append] at shorter
    have : 0 < (rows lost).length := by simpa [rows] using List.length_pos_iff.mpr some
    omega
  · intro distinct
    rw [before] at distinct
    obtain ⟨c,mem⟩ := List.exists_mem_of_ne_nil lost some
    refine ⟨c,by simp [whole,mem],?_⟩
    intro o here same
    have inside : o.dbInstance ∈ rows kept := left ▸ List.mem_map_of_mem here
    exact List.disjoint_of_nodup_append distinct inside (same ▸ List.mem_map_of_mem mem)

theorem typeJobLosesAll : (filterTask nothingOutside orderedPool .filterCaseByType threeCheckouts).raised = some .typeError
    ∧ (filterTask nothingOutside orderedPool .filterCaseByType threeCheckouts).state.cia.ciObjs = []
    ∧ ¬ StillContains threeCheckouts.cia.ciObjs
        (filterTask nothingOutside orderedPool .filterCaseByType threeCheckouts).state.cia.ciObjs := by
  decide +kernel

theorem typeJobRaises : (filterTask nothingOutside orderedPool .filterCaseByType threeCheckouts).raised = some .typeError
    ∧ ¬ StillContains threeCheckouts.cia.ciObjs
        (filterTask nothingOutside orderedPool .filterCaseByType threeCheckouts).state.cia.ciObjs
    ∧ ((rows threeCheckouts.cia.ciObjs).Nodup → ∃ c ∈ threeCheckouts.cia.ciObjs,
      ∀ left ∈ (filterTask nothingOutside orderedPool .filterCaseByType threeCheckouts).state.cia.ciObjs,
        left.dbInstance ≠ c.dbInstance) :=
  failingJobLoses nothingOutside orderedPool threeCheckouts .filterCaseByType filterTestCasesByType rfl
    [threeCheckouts.cia.ciObjs.take 2,threeCheckouts.cia.ciObjs.drop 2] rfl
    ⟨threeCheckouts.cia.ciObjs.take 2,by simp,.attributeError,rfl⟩

end KernelTcp.Analysis

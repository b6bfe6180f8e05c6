import KernelTcp.Analysis.Combine
import KernelTcp.Analysis.FailFilter
import KernelTcp.Lib.Slices
import Mathlib.Algebra.Order.Field.Rat

/-! The jobs of the default data pipeline. The worker pool is a parameter: it runs the
worker on every chunk and returns the results in the order of the chunks, an exception
in the place of a result. Means of test counts are exact rationals. -/
namespace KernelTcp.Analysis
open CiObjects Thread

structure CIAnalysis where
  ciObjs : List Checkout
  numberOfThreads : Nat
  executionNumberPerThread : Nat
  deriving DecidableEq, Repr

abbrev Worker := List Checkout → Except PyError (List Checkout)

structure Pqdm where
  run : Worker → List (List Checkout) → List (Except PyError (List Checkout))
  inOrder : ∀ worker chunks, run worker chunks = chunks.map worker

def orderedPool : Pqdm := ⟨fun worker chunks => chunks.map worker,fun _ _ => rfl⟩

namespace CIAnalysis

def setParallelNumber (cia : CIAnalysis) (numberOfThreads : Nat) : CIAnalysis :=
  { cia with numberOfThreads := numberOfThreads, executionNumberPerThread := 32 }

def earlier (a b : Checkout) : Prop := a.dbInstance.gitCommitDatetime ≤ b.dbInstance.gitCommitDatetime
instance : DecidableRel earlier := fun _ _ => Int.decLe _ _

def reorder (cia : CIAnalysis) : CIAnalysis := { cia with ciObjs := cia.ciObjs.insertionSort earlier }

end CIAnalysis

/- What an operation leaves behind, with the exception that ended it. What it changed
inside the checkouts before an exception is not tracked. -/
structure Outcome where
  state : CIAnalysis
  raised : Option PyError
  deriving DecidableEq, Repr

/- `ci_objs` is reset before the results are appended to it one by one; an exception
object is not iterable. -/
def extendAll (ciObjs : List Checkout) : List (Except PyError (List Checkout)) → List Checkout × Option PyError
  | [] => (ciObjs,none)
  | .error _::_ => (ciObjs,some .typeError)
  | .ok part::rest => extendAll (ciObjs ++ part) rest

def runWorker (pqdm : Pqdm) (worker : Worker) (arguments : List (List Checkout)) (cia : CIAnalysis) : Outcome :=
  let extended := extendAll [] (pqdm.run worker arguments)
  let cia := { cia with ciObjs := extended.1 }
  match extended.2 with
  | some e => ⟨cia,some e⟩
  | none => ⟨cia.reorder,none⟩

def filterBranchesAndBuildsWithFewTestcases (minimalTestcases : Nat) (ciObjs : List Checkout) : List Checkout :=
  (ciObjs.map (fun c => { c with builds := c.builds.filter (fun b => minimalTestcases < b.getAllTestcases.length) })).filter
    (fun c => minimalTestcases ≤ c.getAllTestcases.length)

theorem fewTestcasesMember {minimal : Nat} {cs : List Checkout} {c : Checkout} :
    c ∈ filterBranchesAndBuildsWithFewTestcases minimal cs ↔
      (∃ a ∈ cs, c = { a with builds := a.builds.filter (fun b => minimal < b.getAllTestcases.length) }) ∧
      minimal ≤ c.getAllTestcases.length := by
  unfold filterBranchesAndBuildsWithFewTestcases
  rw [List.mem_filter,List.mem_map]
  constructor
  · intro h
    obtain ⟨⟨a,ha,rfl⟩,size⟩ := h
    exact ⟨⟨a,ha,rfl⟩,by simpa using size⟩
  · intro h
    obtain ⟨⟨a,ha,rfl⟩,size⟩ := h
    exact ⟨⟨a,ha,rfl⟩,by simpa using size⟩

structure Tally where
  countInEachVersion : Dict (List Str) Nat
  totalTestCases : Dict (List Str) Nat
  kName : Dict (List Str) Str

def Tally.empty : Tally := ⟨Dict.empty,Dict.empty,Dict.empty⟩

def tallyBuild (s : Tally) (b : Build) : Except PyError (Tally × Build) := do
  let key ← configKey b
  let kName := if key ∈ s.kName.keys then s.kName else s.kName.set key b.dbInstance.buildName
  let name ← Py.raiseNone .keyError (kName.get? key)
  let cases := b.getAllTestcases.length
  let counts :=
    if key ∈ s.countInEachVersion.keys then
      (s.countInEachVersion.set key ((s.countInEachVersion.get? key).getD 0 + 1),
        s.totalTestCases.set key ((s.totalTestCases.get? key).getD 0 + cases))
    else (s.countInEachVersion.set key 1,s.totalTestCases.set key cases)
  .ok (⟨counts.1,counts.2,kName⟩,{ b with buildName := some name })

def tallyCheckout (s : Tally) (c : Checkout) : Except PyError (Tally × Checkout) := do
  let builds ← threadM tallyBuild s c.builds
  .ok (builds.1,{ c with builds := builds.2 })

structure Candidate where
  builds : Nat
  mean : ℚ
  name : Str

def candidate (s : Tally) (e : List Str × Nat) : Except PyError Candidate := do
  let total ← Py.raiseNone .keyError (s.totalTestCases.get? e.1)
  let name ← Py.raiseNone .keyError (s.kName.get? e.1)
  .ok ⟨e.2,(total : ℚ) / e.2,name⟩

def richer (a b : Candidate) : Prop := b.mean ≤ a.mean
instance : DecidableRel richer := fun a b => inferInstanceAs (Decidable (b.mean ≤ a.mean))

def chooseOneBuild (ciObjs : List Checkout) : Except PyError (List Checkout) := do
  let tallied ← threadM tallyCheckout Tally.empty ciObjs
  let l ← tallied.1.countInEachVersion.entries.mapM (candidate tallied.1)
  match l.insertionSort richer with
  | [] => .error .indexError
  | best::_ => .ok (tallied.2.map (fun c => c.selectBuildByConfig best.name))

inductive Job where
  | combineSameCase
  | combineSameConfig
  | filterSmallBranch (minimalTestcases : Nat)
  | filterFailCasesInLastVersion
  | chooseOneBuild
  deriving DecidableEq, Repr

def filterJob (pqdm : Pqdm) (job : Job) (cia : CIAnalysis) : Outcome :=
  match Slices.slices cia.executionNumberPerThread cia.ciObjs with
  | .error e => ⟨cia,some e⟩
  | .ok arguments => match job with
    | .combineSameCase => runWorker pqdm (fun chunk => .ok (combineSameTestFileCase chunk)) arguments cia
    | .combineSameConfig => runWorker pqdm combineSameConfig arguments cia
    | .filterSmallBranch minimal =>
        ⟨{ cia with ciObjs := filterBranchesAndBuildsWithFewTestcases minimal cia.ciObjs },none⟩
    | .filterFailCasesInLastVersion =>
        ⟨{ cia with ciObjs := filterFailCasesInLastVersion cia.ciObjs },none⟩
    | .chooseOneBuild => match chooseOneBuild cia.ciObjs with
      | .ok chosen => ⟨{ cia with ciObjs := chosen },none⟩
      | .error e => ⟨cia,some e⟩

def filterJobs (pqdm : Pqdm) : List Job → CIAnalysis → Outcome
  | [], cia => ⟨cia,none⟩
  | job::jobs, cia =>
      let out := filterJob pqdm job cia
      match out.raised with
      | some _ => out
      | none => filterJobs pqdm jobs out.state

def preparation : List Job := [.combineSameCase,.filterSmallBranch 20,.combineSameConfig]
def selection : List Job := [.chooseOneBuild,.filterSmallBranch 20,.filterFailCasesInLastVersion]

def defaultStart (checkouts : List Checkout) : CIAnalysis :=
  CIAnalysis.reorder { CIAnalysis.setParallelNumber ⟨[],1,1024⟩ 40 with ciObjs := checkouts }

def getDefaultData (pqdm : Pqdm) (checkouts : List Checkout) : Outcome :=
  filterJobs pqdm (preparation ++ selection) (defaultStart checkouts)

inductive Extended (worker : Worker) : List (List Checkout) → List Checkout → Option PyError → Prop where
  | done : Extended worker [] [] none
  | failed {chunk rest e} (raises : worker chunk = .error e) : Extended worker (chunk::rest) [] (some .typeError)
  | part {chunk rest part out raised} (ok : worker chunk = .ok part) (next : Extended worker rest out raised) :
      Extended worker (chunk::rest) (part ++ out) raised

theorem extendAllExtended (worker : Worker) (arguments : List (List Checkout)) (ciObjs : List Checkout) :
    ∃ out raised, extendAll ciObjs (arguments.map worker) = (ciObjs ++ out,raised) ∧ Extended worker arguments out raised := by
  induction arguments generalizing ciObjs with
  | nil => exact ⟨[],none,by simp [extendAll],.done⟩
  | cons chunk rest ih =>
    cases result : worker chunk with
    | error e => exact ⟨[],some .typeError,by simp [extendAll,result],.failed result⟩
    | ok part =>
      obtain ⟨out,raised,run,next⟩ := ih (ciObjs ++ part)
      exact ⟨part ++ out,raised,by simp [extendAll,result,run],.part result next⟩

theorem runWorkerExtended (pqdm : Pqdm) (worker : Worker) (arguments : List (List Checkout)) (cia : CIAnalysis) :
    ∃ out raised, Extended worker arguments out raised ∧ runWorker pqdm worker arguments cia =
      match raised with
      | none => ⟨{ cia with ciObjs := out.insertionSort CIAnalysis.earlier },none⟩
      | some e => ⟨{ cia with ciObjs := out },some e⟩ := by
  obtain ⟨out,raised,run,extended⟩ := extendAllExtended worker arguments []
  rw [List.nil_append] at run
  refine ⟨out,raised,extended,?_⟩
  unfold runWorker
  rw [pqdm.inOrder,run]
  cases raised with
  | none => rfl
  | some e => rfl

section extended
variable {worker : Worker} {arguments : List (List Checkout)} {out : List Checkout} {raised : Option PyError}

theorem extendedQuiet (extended : Extended worker arguments out raised)
    (quiet : ∀ chunk ∈ arguments, ∃ part, worker chunk = .ok part) : raised = none := by
  induction extended with
  | done => rfl
  | @failed chunk rest e raises =>
    obtain ⟨part,ok⟩ := quiet chunk (by simp)
    simp [raises] at ok
  | part _ _ ih => exact ih (fun chunk mem => quiet chunk (by simp [mem]))

theorem extendedRaises (extended : Extended worker arguments out raised) {chunk : List Checkout} {e : PyError}
    (mem : chunk ∈ arguments) (raises : worker chunk = .error e) : raised = some .typeError := by
  induction extended with
  | done => simp at mem
  | failed _ => rfl
  | part ok _ ih =>
    rcases List.mem_cons.mp mem with rfl | later
    · simp [ok] at raises
    · exact ih later

theorem extendedWhole (extended : Extended worker arguments out none) {f : Checkout → Except PyError Checkout}
    (each : ∀ chunk, worker chunk = chunk.mapM f) : worker arguments.flatten = .ok out := by
  rw [each]
  generalize none : (none : Option PyError) = raised at extended
  induction extended with
  | done => rfl
  | failed _ => contradiction
  | part ok _ ih =>
    rw [each] at ok
    rw [List.flatten_cons,List.mapM_append,ok,ih none]
    rfl

end extended

theorem runWorkerWhole {pqdm : Pqdm} {worker : Worker} {arguments : List (List Checkout)} {cia : CIAnalysis}
    (done : (runWorker pqdm worker arguments cia).raised = none) {f : Checkout → Except PyError Checkout}
    (each : ∀ chunk, worker chunk = chunk.mapM f) :
    ∃ whole, arguments.flatten.mapM f = .ok whole
      ∧ (runWorker pqdm worker arguments cia).state.ciObjs = whole.insertionSort CIAnalysis.earlier := by
  obtain ⟨whole,raised,extended,result⟩ := runWorkerExtended pqdm worker arguments cia
  rw [result] at done ⊢
  cases raised with
  | some e => contradiction
  | none => exact ⟨whole,(each _).symm.trans (extendedWhole extended each),rfl⟩

theorem filterJobDone {pqdm : Pqdm} {job : Job} {cia : CIAnalysis}
    (done : (filterJob pqdm job cia).raised = none) :
    ∃ arguments, Slices.slices cia.executionNumberPerThread cia.ciObjs = .ok arguments := by
  unfold filterJob at done
  cases cut : Slices.slices cia.executionNumberPerThread cia.ciObjs with
  | error e => simp [cut] at done
  | ok arguments => exact ⟨arguments,rfl⟩

theorem combineEach (chunk : List Checkout) : (Except.ok (combineSameTestFileCase chunk) : Except PyError (List Checkout)) =
    chunk.mapM (fun c => Except.ok (combineCases c)) := (Py.mapMTotal (fun _ _ => rfl)).symm

theorem combineCaseDone {pqdm : Pqdm} {cia : CIAnalysis}
    (done : (filterJob pqdm .combineSameCase cia).raised = none) {out : Checkout}
    (mem : out ∈ (filterJob pqdm .combineSameCase cia).state.ciObjs) : ∃ c ∈ cia.ciObjs, combineCases c = out := by
  obtain ⟨arguments,cut⟩ := filterJobDone done
  simp only [filterJob,cut] at done mem
  obtain ⟨whole,treated,left⟩ := runWorkerWhole done combineEach
  rw [left,List.mem_insertionSort] at mem
  rw [Slices.slicesFlatten cut] at treated
  obtain ⟨c,hc,ok⟩ := Py.mapMEvery treated mem
  exact ⟨c,hc,Except.ok.inj ok⟩

theorem combineConfigDone {pqdm : Pqdm} {cia : CIAnalysis}
    (done : (filterJob pqdm .combineSameConfig cia).raised = none) {out : Checkout}
    (mem : out ∈ (filterJob pqdm .combineSameConfig cia).state.ciObjs) :
    ∃ c ∈ cia.ciObjs, combineConfigs c = .ok out := by
  obtain ⟨arguments,cut⟩ := filterJobDone done
  simp only [filterJob,cut] at done mem
  obtain ⟨whole,treated,left⟩ := runWorkerWhole done (fun _ => rfl)
  rw [left,List.mem_insertionSort] at mem
  rw [Slices.slicesFlatten cut] at treated
  exact Py.mapMEvery treated mem

theorem filterJobsStep {pqdm : Pqdm} {job : Job} {cia : CIAnalysis}
    (done : (filterJob pqdm job cia).raised = none) (jobs : List Job) :
    filterJobs pqdm (job::jobs) cia = filterJobs pqdm jobs (filterJob pqdm job cia).state := by
  rw [filterJobs,done]

theorem filterJobsCons {pqdm : Pqdm} {job : Job} {jobs : List Job} {cia : CIAnalysis}
    (done : (filterJobs pqdm (job::jobs) cia).raised = none) :
    (filterJob pqdm job cia).raised = none ∧
    filterJobs pqdm (job::jobs) cia = filterJobs pqdm jobs (filterJob pqdm job cia).state := by
  cases raised : (filterJob pqdm job cia).raised with
  | some e => simp [filterJobs,raised] at done
  | none => exact ⟨rfl,filterJobsStep raised jobs⟩

theorem filterJobsAppend {pqdm : Pqdm} {jobs later : List Job} {cia : CIAnalysis}
    (done : (filterJobs pqdm (jobs++later) cia).raised = none) :
    (filterJobs pqdm jobs cia).raised = none ∧
    filterJobs pqdm (jobs++later) cia = filterJobs pqdm later (filterJobs pqdm jobs cia).state := by
  induction jobs generalizing cia with
  | nil => exact ⟨rfl,rfl⟩
  | cons job jobs ih =>
    rw [List.cons_append] at done ⊢
    obtain ⟨first,rest⟩ := filterJobsCons done
    rw [rest] at done
    rw [rest,filterJobsStep first jobs]
    exact ih done

end KernelTcp.Analysis

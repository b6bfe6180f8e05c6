import KernelTcp.CheckoutInfo
import KernelTcp.EHelper
import KernelTcp.Graph.KernelCg
import KernelTcp.Graph.Total

/-! The call-graph experiments on the logged failure history. The kernel graph of every checkout is
loaded into the one graph of the process, which keeps what it was given for earlier checkouts. The
checkouts are handled in one loop, or spread over the processes of a pool. -/
namespace KernelTcp.Graph
open Text Slices
open EHelper (HistoryInfo faultsArr apfd getCheckoutInfo)
open Picking Ranking

inductive Stragety where
  | total
  | additional
  deriving DecidableEq, Repr

def Stragety.named (stragety : Str) : Option Stragety :=
  if stragety = "total".toList then some .total
  else if stragety = "additional".toList then some .additional
  else none

def Stragety.order (env : Environment) (testCases : List Str) : Stragety → Except PyError (List Nat)
  | .total => env.totalStragety testCases
  | .additional => do
      let sorted ← env.additionalStragety testCases
      .ok sorted.1

def ltpCgDir (ltpVersion : Str) : Str := "/home/userpath/projects/ltp_cg/ltp_".toList ++ ltpVersion ++ "_cg".toList

-- an unknown checkout has no version to put into the path
def getLtpCg (ltpVersions : Str → Option Str) (env : Environment) (gitSha : Str) : Except PyError Environment := do
  let ltpVersion ← Py.raiseNone .typeError (ltpVersions gitSha)
  .ok { env with ltpCgDir := ltpCgDir ltpVersion }

def loadGraphs (ltpVersions : Str → Option Str) (env : Environment) (gitSha : Str) : Except PyError Environment :=
  let loaded := getKernelCg env gitSha
  match loaded.2 with
  | some e => .error e
  | none => getLtpCg ltpVersions loaded.1 gitSha

def cutCases (hi : HistoryInfo) : List Str := hi.totalCasesList.map (fun tc => slice tc 1 (-1))

def remember (env : Environment) : List Str → Environment
  | [] => env
  | testCase::testCases =>
      match getRelatedMethods env testCase with
      | .error _ => env
      | .ok related => remember related.1 testCases

section Experiments
variable (ltpVersions : Str → Option Str)

-- an error of the strategy is printed, and the checkout has no score
def evaluateHistory (stragety : Stragety) (s : Environment × List (Str × ℚ)) (e : HistoryInfo × Str) :
    Except PyError (Environment × List (Str × ℚ)) := do
  let env ← loadGraphs ltpVersions s.1 e.2
  let testCases := cutCases e.1
  match stragety.order env testCases with
  | .error _ => .ok (remember env testCases,s.2)
  | .ok prioritizedList => .ok (remember env testCases,s.2 ++ [(e.2,apfd (faultsArr e.1) prioritizedList)])

/- The checkouts are evaluated with the graph of the one `gapVersion` later; nothing is returned for
a strategy of another name. -/
def doExp3Loop (historyInfos : List HistoryInfo) (stragety : Str) (gapVersion : Int) :
    List (HistoryInfo × Nat) → Environment × List (Str × ℚ) → Except PyError (Environment × Option (List (Str × ℚ)))
  | [], s => .ok (s.1,some s.2)
  | (hi,hiIdx)::rest, s =>
      if historyInfos.length ≤ hiIdx + gapVersion then .ok (s.1,some s.2)
      else do
        let refer ← Py.getItem historyInfos (hiIdx + gapVersion)
        if (faultsArr hi).isEmpty then doExp3Loop historyInfos stragety gapVersion rest s
        else match Stragety.named stragety with
          | none => do
              let env ← loadGraphs ltpVersions s.1 refer.gitSha
              .ok (env,none)
          | some named => do
              let s ← evaluateHistory ltpVersions named s (hi,refer.gitSha)
              doExp3Loop historyInfos stragety gapVersion rest s

def doExp3 (env : Environment) (text stragety : Str) (gapVersion : Int) : Except PyError (Environment × Option (List (Str × ℚ))) := do
  let historyInfos ← getCheckoutInfo text
  doExp3Loop ltpVersions historyInfos stragety gapVersion historyInfos.zipIdx (env,[])

def ownGraphs (historyInfos : List HistoryInfo) : List (HistoryInfo × Str) := historyInfos.map (fun hi => (hi,hi.gitSha))

def doExp4Process (env : Environment) (stragety : Stragety) (historyInfos : List HistoryInfo) :
    Except PyError (List (Str × ℚ)) := do
  let s ← (ownGraphs historyInfos).foldlM (evaluateHistory ltpVersions stragety) (env,[])
  .ok s.2

/- How the pool spreads the checkouts is not the program's to say. -/
def doExp4 (env : Environment) (stragety : Stragety) (processes : List (List HistoryInfo)) : Except PyError (List (Str × ℚ)) := do
  let scores ← processes.mapM (doExp4Process ltpVersions env stragety)
  .ok scores.flatten

end Experiments

section Remembered
variable {g : Str → Except PyError Methods}

def AgreeOn (testCases : List Str) (a b : Dict Str Methods) : Prop := ∀ t ∈ testCases, a.get? t = b.get? t

theorem relatedAgree (g : Str → Except PyError Methods) {testCases all : List Str} {a b : Dict Str Methods}
    (agree : ∀ t ∈ all, t ∉ testCases → a.get? t = b.get? t) :
    (∃ e, testCases.foldlM (relatedStep g) a = .error e ∧ testCases.foldlM (relatedStep g) b = .error e) ∨
    ∃ a' b', testCases.foldlM (relatedStep g) a = .ok a' ∧ testCases.foldlM (relatedStep g) b = .ok b' ∧ AgreeOn all a' b' := by
  induction testCases generalizing a b with
  | nil => exact Or.inr ⟨a,b,rfl,rfl,fun t listed => agree t listed (by simp)⟩
  | cons t testCases ih =>
    rw [List.foldlM_cons,List.foldlM_cons]
    unfold relatedStep
    cases g t with
    | error e => exact Or.inl ⟨e,rfl,rfl⟩
    | ok related =>
      refine ih ?_
      intro s listed new
      by_cases same : t = s
      · subst same
        rw [Dict.getSetSame,Dict.getSetSame]
      · rw [Dict.getSetOther a related same,Dict.getSetOther b related same]
        refine agree s listed ?_
        rw [List.mem_cons]
        exact fun either => either.elim (fun here => same here.symm) new

theorem bestAgree {testCases : List Str} {a b : Dict Str Methods} (agree : AgreeOn testCases a b) (slideSet : Methods) :
    best a slideSet testCases = best b slideSet testCases := by
  refine Py.foldlMSame ?_ _
  intro t listed found
  unfold bestStep
  rw [agree t listed]

theorem loopAgree (places : Dict Str Nat) {a b : Dict Str Methods} (size : Nat) {testCases : List Str} (agree : AgreeOn testCases a b)
    (slideSet : Methods) (sortedList : List Nat) :
    strategyLoop places a size slideSet testCases sortedList = strategyLoop places b size slideSet testCases sortedList := by
  induction size generalizing testCases slideSet sortedList with
  | zero => rfl
  | succ size ih =>
    rw [strategyLoop,strategyLoop,bestAgree agree]
    refine bind_congr (fun found => ?_)
    refine bind_congr (fun chosen => bind_congr (fun idx => ?_))
    cases left : Py.remove testCases chosen with
    | error e => rfl
    | ok rest =>
      exact ih (fun t listed => agree t (Py.removeKeeps left listed)) _ _

theorem additionalAgree (a b : Dict Str Methods) (testCases : List Str) :
    additionalStragety g a testCases = additionalStragety g b testCases := by
  have untouched : ∀ t ∈ testCases, t ∉ testCases → a.get? t = b.get? t := fun t listed new => absurd listed new
  unfold additionalStragety
  cases relatedAgree g untouched with
  | inl failed =>
    obtain ⟨e,first,second⟩ := failed
    rw [first,second]
  | inr filled =>
    obtain ⟨a',b',first,second,agree⟩ := filled
    rw [first,second]
    exact loopAgree _ _ agree _ _

end Remembered

section Process
variable {env : Environment} {stragety : Stragety}

def Grown (env : Environment) (shas : List Str) (now : Environment) : Prop :=
  ∃ dir taTmp, now = { env with kernelCg := (getKernelCgs env shas).1.kernelCg, ltpCgDir := dir, taTmp := taTmp }

def envAt (ltpVersions : Str → Option Str) (env : Environment) (shas : List Str) (gitSha : Str) : Environment :=
  { env with kernelCg := (getKernelCgs env (shas ++ [gitSha])).1.kernelCg, ltpCgDir := ltpCgDir ((ltpVersions gitSha).getD []) }

def relatedOf (env : Environment) (testCase : Str) : Except PyError Methods := do
  let related ← getRelatedMethods env testCase
  .ok related.2.toFinset

theorem orderSame {other : Environment} (same : ∀ t, relatedOf env t = relatedOf other t) (testCases : List Str) (stragety : Stragety) :
    stragety.order env testCases = stragety.order other testCases := by
  cases stragety with
  | total => exact congrArg (fun g => totalStragety g testCases) (funext same)
  | additional =>
    have run : env.additionalStragety testCases = other.additionalStragety testCases := by
      refine Eq.trans (congrArg (fun g => additionalStragety g _ testCases) (funext same)) ?_
      exact additionalAgree _ _ testCases
    unfold Stragety.order
    rw [run]

theorem relatedSame (env : Environment) {g h : CallGraph} (same : ∀ e ∈ env.syscallTable.entries, ∀ x, x ∈ g.getAllCall (some e.2) ↔ x ∈ h.getAllCall (some e.2))
    (t : Str) : relatedOf { env with kernelCg := g } t = relatedOf { env with kernelCg := h } t := by
  have used : getUserdSyscall { env with kernelCg := g } t = getUserdSyscall { env with kernelCg := h } t := rfl
  unfold relatedOf getRelatedMethods
  rw [used]
  cases getUserdSyscall { env with kernelCg := h } t with
  | error e => rfl
  | ok syscalls =>
    refine congrArg Except.ok (Finset.ext ?_)
    intro x
    dsimp only
    rw [List.mem_toFinset,List.mem_toFinset,Sets.memUnionOver,Sets.memUnionOver]
    refine exists_congr (fun syscall => and_congr_right (fun _ => ?_))
    cases listed : env.syscallTable.get? syscall with
    | none => rfl
    | some r => exact same (syscall,r) (Dict.getEntry.mp listed) x

theorem relatedUnread (env : Environment) (taTmp : Dict Str (List Str)) (testCase : Str) :
    relatedOf { env with taTmp := taTmp } testCase = relatedOf env testCase := by
  have same : getUserdSyscall { env with taTmp := taTmp } testCase = getUserdSyscall env testCase := rfl
  unfold relatedOf getRelatedMethods
  rw [same]
  cases getUserdSyscall env testCase <;> rfl

theorem rememberKeeps (env : Environment) (testCases : List Str) : ∃ taTmp, remember env testCases = { env with taTmp := taTmp } := by
  induction testCases generalizing env with
  | nil => exact ⟨env.taTmp,rfl⟩
  | cons testCase testCases ih =>
    unfold remember
    cases here : getRelatedMethods env testCase with
    | error e => exact ⟨env.taTmp,rfl⟩
    | ok related =>
      obtain ⟨used,_,made⟩ := Py.bindOk.mp here
      cases Except.ok.inj made
      exact ih _

variable {ltpVersions : Str → Option Str}

def Known (ltpVersions : Str → Option Str) (env : Environment) (gitSha : Str) : Prop :=
  Readable env gitSha ∧ (ltpVersions gitSha).isSome = true

theorem loadGraphsGrows {now : Environment} {shas : List Str} {gitSha : Str} (grown : Grown env shas now)
    (earlier : ∀ sha ∈ shas, Readable env sha) (known : Known ltpVersions env gitSha) :
    loadGraphs ltpVersions now gitSha = .ok { envAt ltpVersions env shas gitSha with taTmp := now.taTmp } := by
  obtain ⟨dir,taTmp,rfl⟩ := grown
  obtain ⟨⟨source,file,bs,read⟩,version⟩ := known
  obtain ⟨ltpVersion,found⟩ := Option.isSome_iff_exists.mp version
  have loaded : getKernelCg { env with kernelCg := (getKernelCgs env shas).1.kernelCg, ltpCgDir := dir, taTmp := taTmp } gitSha = _ :=
    getKernelCgDone file read
  unfold loadGraphs getLtpCg
  simp only [loaded,found,Py.raiseNone,bind,Except.bind]
  unfold envAt
  rw [getKernelCgsSnoc earlier file read,found]
  rfl

def scoredIn (stragety : Stragety) (env : Environment) (e : HistoryInfo × Str) : List (Str × ℚ) :=
  match stragety.order env (cutCases e.1) with
  | .error _ => []
  | .ok prioritizedList => [(e.2,apfd (faultsArr e.1) prioritizedList)]

theorem evaluateGrows (stragety : Stragety) {s : Environment × List (Str × ℚ)} {shas : List Str} {e : HistoryInfo × Str} (grown : Grown env shas s.1)
    (earlier : ∀ sha ∈ shas, Readable env sha) (known : Known ltpVersions env e.2) :
    ∃ next, evaluateHistory ltpVersions stragety s e =
        .ok (next,s.2 ++ scoredIn stragety (envAt ltpVersions env shas e.2) e) ∧ Grown env (shas ++ [e.2]) next := by
  obtain ⟨taTmp,kept⟩ := rememberKeeps { envAt ltpVersions env shas e.2 with taTmp := s.1.taTmp } (cutCases e.1)
  refine ⟨{ envAt ltpVersions env shas e.2 with taTmp := taTmp },?_,_,_,rfl⟩
  unfold evaluateHistory scoredIn
  rw [loadGraphsGrows grown earlier known]
  simp only [bind,Except.bind,orderSame (relatedUnread _ _),kept]
  cases stragety.order (envAt ltpVersions env shas e.2) (cutCases e.1) with
  | error e => rw [List.append_nil]
  | ok prioritizedList => rfl

def scoresOf (ltpVersions : Str → Option Str) (env : Environment) (stragety : Stragety) (es : List (HistoryInfo × Str)) : List (Str × ℚ) :=
  (es.mapIdx (fun i e => scoredIn stragety (envAt ltpVersions env ((es.take i).map Prod.snd) e.2) e)).flatten

theorem evaluateAllGrows (stragety : Stragety) {s : Environment × List (Str × ℚ)} {shas : List Str} {es : List (HistoryInfo × Str)} (grown : Grown env shas s.1)
    (earlier : ∀ sha ∈ shas, Readable env sha) (known : ∀ e ∈ es, Known ltpVersions env e.2) :
    ∃ last, es.foldlM (evaluateHistory ltpVersions stragety) s = .ok (last,s.2 ++ (es.mapIdx (fun i e =>
      scoredIn stragety (envAt ltpVersions env (shas ++ (es.take i).map Prod.snd) e.2) e)).flatten) ∧
      Grown env (shas ++ es.map Prod.snd) last := by
  induction es generalizing s shas with
  | nil =>
    rw [List.mapIdx_nil,List.flatten_nil,List.append_nil,List.map_nil,List.append_nil]
    exact ⟨s.1,rfl,grown⟩
  | cons e es ih =>
    rw [List.forall_mem_cons] at known
    obtain ⟨next,step,grows⟩ := evaluateGrows stragety grown earlier known.1
    have readable : ∀ sha ∈ shas ++ [e.2], Readable env sha := by
      intro sha listed
      cases List.mem_append.mp listed with
      | inl old => exact earlier sha old
      | inr new => exact List.mem_singleton.mp new ▸ known.1.1
    obtain ⟨last,run,grew⟩ := ih (s := (next,s.2 ++ scoredIn stragety (envAt ltpVersions env shas e.2) e)) grows readable known.2
    rw [List.append_assoc] at grew
    refine ⟨last,?_,grew⟩
    rw [List.foldlM_cons,step]
    refine run.trans ?_
    rw [List.mapIdx_cons,List.flatten_cons,List.append_assoc]
    simp only [List.take_zero,List.map_nil,List.append_nil,List.take_succ_cons,List.map_cons,List.append_assoc,List.singleton_append]

theorem loadGraphsMissing {now : Environment} {gitSha : Str} (missing : now.files (kernelCgFile gitSha) = none) :
    loadGraphs ltpVersions now gitSha = .error .fileNotFoundError := by
  unfold loadGraphs getKernelCg
  rw [missing]

theorem evaluateAllMissing (stragety : Stragety) {now : Environment} {before after : List (HistoryInfo × Str)} {e : HistoryInfo × Str}
    (grown : Grown env [] now) (known : ∀ b ∈ before, Known ltpVersions env b.2) (missing : env.files (kernelCgFile e.2) = none) :
    (before ++ e::after).foldlM (evaluateHistory ltpVersions stragety) (now,[]) = .error .fileNotFoundError := by
  obtain ⟨last,run,grew⟩ := evaluateAllGrows stragety (s := (now,[])) grown (by simp) known
  have absent : last.files (kernelCgFile e.2) = none := by
    obtain ⟨dir,taTmp,rfl⟩ := grew
    exact missing
  rw [List.foldlM_append,run]
  simp only [bind,Except.bind,List.foldlM_cons,evaluateHistory,loadGraphsMissing absent]

theorem evaluateAllScores (ltpVersions : Str → Option Str) (stragety : Stragety) {es : List (HistoryInfo × Str)}
    (known : ∀ e ∈ es, Known ltpVersions env e.2) : ∃ last, es.foldlM (evaluateHistory ltpVersions stragety) (env.imported,[]) =
      .ok (last,scoresOf ltpVersions env.imported stragety es) := by
  have start : Grown env.imported [] env.imported := ⟨_,_,rfl⟩
  obtain ⟨last,run,_⟩ := evaluateAllGrows stragety (s := (env.imported,[])) start (by simp) known
  exact ⟨last,run⟩

def Alone (env : Environment) (shas : List Str) (gitSha : Str) : Prop :=
  ∀ source bs, env.files (kernelCgFile gitSha) = some source → (blockTexts source).mapM parseBlock = .ok bs →
    ∀ e ∈ env.syscallTable.entries, Unshadowed (getKernelCgs env.imported shas).1.kernelCg bs e.2

theorem aloneOrder (stragety : Stragety) {shas : List Str} {gitSha : Str} (earlier : ∀ sha ∈ shas, Readable env sha)
    (readable : Readable env gitSha) (alone : Alone env shas gitSha) (testCases : List Str) :
    stragety.order (envAt ltpVersions env.imported shas gitSha) testCases = stragety.order (envAt ltpVersions env.imported [] gitSha) testCases := by
  obtain ⟨source,file,bs,read⟩ := readable
  have all : (getKernelCgs env.imported (shas ++ [gitSha])).1.kernelCg = bs.foldl CallGraph.load (getKernelCgs env.imported shas).1.kernelCg :=
    getKernelCgsSnoc earlier file read
  have own : (getKernelCgs env.imported ([] ++ [gitSha])).1.kernelCg = bs.foldl CallGraph.load CallGraph.new :=
    getKernelCgsSnoc (by simp) file read
  unfold envAt
  rw [all,own]
  refine orderSame (relatedSame { env with ltpCgDir := ltpCgDir ((ltpVersions gitSha).getD []) } ?_) testCases stragety
  intro entry listed x
  rw [memGetAllCall,memGetAllCall]
  exact ⟨reachesUnshadowed (alone source bs file read entry listed),loadedReaches _⟩

theorem aloneScored (stragety : Stragety) {shas : List Str} {e : HistoryInfo × Str} (earlier : ∀ sha ∈ shas, Readable env sha)
    (readable : Readable env e.2) (alone : Alone env shas e.2) :
    scoredIn stragety (envAt ltpVersions env.imported shas e.2) e = scoredIn stragety (envAt ltpVersions env.imported [] e.2) e := by
  unfold scoredIn
  rw [aloneOrder stragety earlier readable alone]

theorem aloneScores (stragety : Stragety) {es : List (HistoryInfo × Str)} (known : ∀ e ∈ es, Known ltpVersions env e.2)
    (alone : ∀ before e after, es = before ++ e::after → Alone env (before.map Prod.snd) e.2) :
    scoresOf ltpVersions env.imported stragety es = es.flatMap (fun e => scoredIn stragety (envAt ltpVersions env.imported [] e.2) e) := by
  rw [scoresOf,List.flatMap_def]
  refine congrArg List.flatten (List.ext_getElem? ?_)
  intro i
  rw [List.getElem?_mapIdx,List.getElem?_map]
  refine Option.map_congr ?_
  intro e here
  obtain ⟨inside,rfl⟩ := List.getElem?_eq_some_iff.mp here
  refine aloneScored stragety ?_ (known _ (List.getElem_mem inside)).1 (alone (es.take i) _ (es.drop (i+1)) ?_)
  · intro sha listed
    obtain ⟨e,taken,rfl⟩ := List.mem_map.mp listed
    exact (known e (List.mem_of_mem_take taken)).1
  · rw [← List.drop_eq_getElem_cons inside,List.take_append_drop]

end Process

section Evaluated

def Stragety.name : Stragety → Str
  | .total => "total".toList
  | .additional => "additional".toList

theorem namedName (stragety : Stragety) : Stragety.named stragety.name = some stragety := by
  cases stragety <;> decide

def evaluated (gap : Nat) (infos : List HistoryInfo) : List (HistoryInfo × Str) :=
  ((infos.zip (infos.drop gap)).filter (fun e => !(faultsArr e.1).isEmpty)).map (fun e => (e.1,e.2.gitSha))

theorem loopEvaluates (ltpVersions : Str → Option Str) (stragety : Stragety) (before rest : List HistoryInfo) (gap : Nat) (s : Environment × List (Str × ℚ)) :
    doExp3Loop ltpVersions (before ++ rest) stragety.name gap (rest.zipIdx before.length) s = (do
      let s ← (evaluated gap rest).foldlM (evaluateHistory ltpVersions stragety) s
      .ok (s.1,some s.2)) := by
  induction rest generalizing before s with
  | nil => rw [evaluated,List.zip_nil_left]; rfl
  | cons hi rest ih =>
    have next := ih (before ++ [hi])
    rw [List.append_assoc,List.singleton_append,List.length_append,List.length_singleton] at next
    rw [List.zipIdx_cons,doExp3Loop]
    cases later : ((hi::rest).drop gap) with
    | nil =>
      have short : (hi::rest).length ≤ gap := List.drop_eq_nil_iff.mp later
      rw [if_pos (by rw [List.length_append]; omega),evaluated,later,List.zip_nil_right]
      rfl
    | cons refer others =>
      have found : (hi::rest)[gap]? = some refer := by rw [← List.head?_drop,later]; rfl
      have long : gap < (hi::rest).length := (List.getElem?_eq_some_iff.mp found).1
      have tail : rest.drop gap = others := by
        have shifted : ((hi::rest).drop gap).tail = rest.drop gap := by rw [List.tail_drop,List.drop_succ_cons]
        rw [← shifted,later,List.tail_cons]
      have pairs : evaluated gap (hi::rest) =
          (if (faultsArr hi).isEmpty then [] else [(hi,refer.gitSha)]) ++ evaluated gap rest := by
        unfold evaluated
        rw [later,tail,List.zip_cons_cons,List.filter_cons]
        cases (faultsArr hi).isEmpty <;> rfl
      rw [if_neg (by rw [List.length_append]; omega),Py.getItemAfter,Py.getItemInside found,pairs]
      dsimp only [bind,Except.bind]
      cases (faultsArr hi).isEmpty with
      | true => exact next s
      | false =>
        simp only [Bool.false_eq_true,if_false,namedName,List.singleton_append,List.foldlM_cons]
        cases evaluateHistory ltpVersions stragety s (hi,refer.gitSha) with
        | error e => rfl
        | ok s => exact next s

theorem exp3Evaluates (ltpVersions : Str → Option Str) (env : Environment) (stragety : Stragety) (gap : Nat) {text : Str}
    {infos : List HistoryInfo} (read : getCheckoutInfo text = .ok infos) :
    doExp3 ltpVersions env text stragety.name gap = (do
      let s ← (evaluated gap infos).foldlM (evaluateHistory ltpVersions stragety) (env,[])
      .ok (s.1,some s.2)) := by
  unfold doExp3
  rw [read]
  exact loopEvaluates ltpVersions stragety [] infos gap (env,[])

end Evaluated

/-- The experiment on the logged history scores a checkout in the graph that the files of all
checkouts evaluated before it have left, or as in its own graph alone when nothing else is followed
there. A missing file loses the scores of the whole run. -/
theorem gapScores (ltpVersions : Str → Option Str) (env : Environment) (stragety : Stragety) (gap : Nat) {text : Str}
    {infos : List HistoryInfo} (read : getCheckoutInfo text = .ok infos) :
    ((∀ e ∈ evaluated gap infos, Known ltpVersions env e.2) → ∃ last,
      doExp3 ltpVersions env.imported text stragety.name gap =
        .ok (last,some (scoresOf ltpVersions env.imported stragety (evaluated gap infos)))) ∧
    (∀ before e after, evaluated gap infos = before ++ e::after → (∀ b ∈ before, Known ltpVersions env b.2) →
      (Known ltpVersions env e.2 → Alone env (before.map Prod.snd) e.2 →
        scoredIn stragety (envAt ltpVersions env.imported (before.map Prod.snd) e.2) e =
          scoredIn stragety (envAt ltpVersions env.imported [] e.2) e) ∧
      (env.files (kernelCgFile e.2) = none →
        doExp3 ltpVersions env.imported text stragety.name gap = .error .fileNotFoundError)) := by
  have whole := exp3Evaluates ltpVersions env.imported stragety gap read
  constructor
  · intro known
    obtain ⟨last,run⟩ := evaluateAllScores ltpVersions stragety known
    refine ⟨last,?_⟩
    rw [whole,run]
    rfl
  · intro before e after split known
    refine ⟨fun here alone => aloneScored stragety ?_ here.1 alone,fun missing => ?_⟩
    · intro sha listed
      obtain ⟨b,earlier,rfl⟩ := List.mem_map.mp listed
      exact (known b earlier).1
    · have start : Grown env.imported [] env.imported := ⟨_,_,rfl⟩
      rw [whole,split,evaluateAllMissing stragety start known missing]
      rfl

def spreadCheckouts : Environment where
  files := fun path =>
    if path = kernelCgFile "1".toList then some "Function: f\nCalls:\ng".toList
    else if path = kernelCgFile "2".toList then some "Function: r\nCalls:\nf\n\nFunction: w\nCalls:\nv".toList
    else if path = shCgDir ++ "//a.txt".toList then some "r(".toList
    else if path = shCgDir ++ "//b.txt".toList then some "w(".toList
    else none
  ltpCgDir := []
  glibcCg := glibcGraph "r : r\nw : w".toList
  kernelCg := CallGraph.new
  syscallList := ["r".toList,"w".toList]
  syscallTable := (Dict.empty.set "r".toList "r".toList).set "w".toList "w".toList
  taTmp := Dict.empty

def spreadInfo (gitSha : Str) : HistoryInfo := ⟨gitSha,["x/b.shx".toList,"x/a.shx".toList],["x/a.shx".toList]⟩

def spreadLog : Str :=
  "checkout: 1\ntotal_cases: ['x/b.shx', 'x/a.shx']\nfail_cases: ['x/a.shx']\ncheckout: 2\ntotal_cases: ['x/b.shx', 'x/a.shx']\nfail_cases: ['x/a.shx']\n".toList

def anyVersion (_ : Str) : Option Str := some []

theorem spreadKnown {gitSha : Str} (listed : gitSha ∈ ["1".toList,"2".toList]) : Known anyVersion spreadCheckouts gitSha := by
  rw [List.mem_pair] at listed
  refine ⟨?_,rfl⟩
  cases listed with
  | inl first =>
    subst first
    exact ⟨"Function: f\nCalls:\ng".toList,by decide,[⟨"f".toList,none,-1,["g".toList]⟩],by decide⟩
  | inr second =>
    subst second
    exact ⟨"Function: r\nCalls:\nf\n\nFunction: w\nCalls:\nv".toList,by decide,
      [⟨"r".toList,none,-1,["f".toList]⟩,⟨"w".toList,none,-1,["v".toList]⟩],by decide⟩

theorem earlierGraphFollowed : ∃ last, doExp3 anyVersion spreadCheckouts.imported spreadLog "total".toList 0 =
    .ok (last,some [("1".toList,1/4),("2".toList,3/4)]) := by
  have read : getCheckoutInfo spreadLog = .ok [spreadInfo "1".toList,spreadInfo "2".toList] := by decide +kernel
  have pairs : evaluated 0 [spreadInfo "1".toList,spreadInfo "2".toList] =
      [(spreadInfo "1".toList,"1".toList),(spreadInfo "2".toList,"2".toList)] := by decide +kernel
  have runs := (gapScores anyVersion spreadCheckouts .total 0 read).1
  rw [pairs] at runs
  obtain ⟨last,run⟩ := runs (by
    intro e listed
    exact spreadKnown (List.mem_map_of_mem (f := Prod.snd) listed))
  exact ⟨last,run.trans (congrArg (fun scores => Except.ok (last,some scores)) (by decide +kernel))⟩

/-- The scores of the pool are those of its processes, each with the graphs of its own checkouts
only. They do not depend on how the checkouts are spread when no earlier graph is followed. -/
theorem poolScores (ltpVersions : Str → Option Str) (env : Environment) (stragety : Stragety) (processes : List (List HistoryInfo))
    (known : ∀ hi ∈ processes.flatten, Known ltpVersions env hi.gitSha) :
    doExp4 ltpVersions env.imported stragety processes =
      .ok (processes.flatMap (fun his => scoresOf ltpVersions env.imported stragety (ownGraphs his))) ∧
    ((∀ his ∈ processes, ∀ before e after, ownGraphs his = before ++ e::after → Alone env (before.map Prod.snd) e.2) →
      doExp4 ltpVersions env.imported stragety processes =
        .ok ((ownGraphs processes.flatten).flatMap (fun e => scoredIn stragety (envAt ltpVersions env.imported [] e.2) e))) := by
  have all : ∀ his ∈ processes, ∀ e ∈ ownGraphs his, Known ltpVersions env e.2 := by
    intro his given e listed
    obtain ⟨hi,inside,rfl⟩ := List.mem_map.mp listed
    exact known hi (List.mem_flatten.mpr ⟨his,given,inside⟩)
  have run : doExp4 ltpVersions env.imported stragety processes =
      .ok (processes.flatMap (fun his => scoresOf ltpVersions env.imported stragety (ownGraphs his))) := by
    unfold doExp4
    rw [Py.mapMTotal (g := fun his => scoresOf ltpVersions env.imported stragety (ownGraphs his)),List.flatMap_def]
    · rfl
    · intro his given
      obtain ⟨last,ended⟩ := evaluateAllScores ltpVersions stragety (all his given)
      unfold doExp4Process
      rw [ended]
      rfl
  refine ⟨run,fun alone => ?_⟩
  rw [run,ownGraphs,List.map_flatten,List.flatMap_def,List.flatMap_def,List.map_flatten,List.flatten_flatten,List.map_map,List.map_map]
  refine congrArg (fun parts => Except.ok (List.flatten parts)) (List.map_congr_left ?_)
  intro his given
  exact aloneScores stragety (all his given) (alone his given)

theorem spreadMatters :
    doExp4 anyVersion spreadCheckouts.imported .total [[spreadInfo "1".toList,spreadInfo "2".toList]] =
      .ok [("1".toList,1/4),("2".toList,3/4)] ∧
    doExp4 anyVersion spreadCheckouts.imported .total [[spreadInfo "1".toList],[spreadInfo "2".toList]] =
      .ok [("1".toList,1/4),("2".toList,1/4)] := by
  have known : ∀ hi ∈ [spreadInfo "1".toList,spreadInfo "2".toList], Known anyVersion spreadCheckouts hi.gitSha :=
    fun hi listed => spreadKnown (List.mem_map_of_mem (f := HistoryInfo.gitSha) listed)
  exact ⟨(poolScores anyVersion spreadCheckouts .total [[spreadInfo "1".toList,spreadInfo "2".toList]] known).1.trans
      (congrArg Except.ok (by decide +kernel)),
    (poolScores anyVersion spreadCheckouts .total [[spreadInfo "1".toList],[spreadInfo "2".toList]] known).1.trans
      (congrArg Except.ok (by decide +kernel))⟩

end KernelTcp.Graph

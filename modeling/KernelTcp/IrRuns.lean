import KernelTcp.IrMain
import KernelTcp.Lib.Cache

/-! The experiments of the information-retrieval script, one after another for several similarity
models. They share the map from a path to the tokens of its file, which is stored and loaded again;
beside them stands the experiment that reads every file each time. -/
namespace KernelTcp.IrMain
open CiObjects History
open Cache (Coherent)

abbrev Similarity := Nat → List Str → List Str → Except PyError (List (List ℚ))

def Outside.using (outside : Outside) (irModel : Similarity) : Outside := { outside with getSimilarity := irModel }

section Runs
variable (outside : Outside) (ciObjs : List Checkout) (contextStrategy : Str) (history : Int)

def doExps : List Similarity → Dict Str Str → Except PyError (List (List Scores) × Dict Str Str)
  | [], m => .ok ([],m)
  | irModel::irModels, m => do
      let done ← doExp (outside.using irModel) ciObjs m contextStrategy history
      let rest ← doExps irModels done.m
      .ok (done.res::rest.1,rest.2)

def fileText (t : Test) : Str := outside.lower (joined ((outside.fileTokens t).getD []))

-- what one checkout adds to the results
def plainExperiment (ciIndex : Nat) : Except PyError (List Scores) :=
  if skipped history ciIndex then .ok []
  else do
    let ciObj ← Py.getItem ciObjs ciIndex
    if outside.commitExists ciObj.dbInstance.gitSha = false then .ok []
    else
      let testCases := ciObj.getAllTestcases
      let faultsArr := testCases.zipIdx.foldl addFault []
      if faultsArr.length = 0 then .ok []
      else do
        let changes ← codeChanges outside ciObjs contextStrategy history ciIndex
        if changes.length = 0 then .ok []
        else do
          let queries := changes.map (fun cc => joined (outside.getTokens cc .c))
          let similarity ← outside.getSimilarity ciIndex (testCases.map (fileText outside)) queries
          let orderArr := (outside.argsort (similarity.map rowSum)).reverse
          let scored ← scores outside testCases faultsArr orderArr
          .ok [scored]

def plainExp : Except PyError (List Scores) := do
  let added ← (List.range' 1 (ciObjs.length - 1)).mapM (plainExperiment outside ciObjs contextStrategy history)
  .ok added.flatten

end Runs

section Tokens
variable {outside : Outside} {tokens : Str → Str} (same : ∀ t, fileText outside t = tokens (pathText t.filePath))

include same in
theorem tokensRead (testCases : List Test) {m : Dict Str Str} (coherent : Coherent (fun path => some (tokens path)) m) (read : List Str) :
    ∃ m', testCases.foldl (tokenStep outside) (m,read) = (m',read ++ testCases.map (fileText outside)) ∧
      Coherent (fun path => some (tokens path)) m' := by
  induction testCases generalizing m read with
  | nil => exact ⟨m,by rw [List.map_nil,List.append_nil]; rfl,coherent⟩
  | cons t testCases ih =>
    rw [List.foldl_cons,List.map_cons,← List.singleton_append,← List.append_assoc]
    unfold tokenStep
    dsimp only
    cases known : m.get? (pathText t.filePath) with
    | some v =>
      have right : v = fileText outside t := by rw [same]; exact (Option.some.inj (coherent _ v known)).symm
      rw [right]
      exact ih coherent _
    | none =>
      have right : some (tokens (pathText t.filePath)) = some (fileText outside t) := by rw [same]
      exact ih (Cache.coherentSet coherent right) _

def Follows (tokens : Str → Str) (res : List Scores) : Except PyError (List Scores) → Except PyError Progress → Prop
  | .error e, run => run = .error e
  | .ok added, run => ∃ m, run = .ok ⟨m,res ++ added⟩ ∧ Coherent (fun path => some (tokens path)) m

theorem followsBind {α : Type} {res : List Scores} (x : Except PyError α) {f : α → Except PyError (List Scores)}
    {g : α → Except PyError Progress} (each : ∀ a, Follows tokens res (f a) (g a)) : Follows tokens res (x >>= f) (x >>= g) := by
  cases x with
  | error e => rfl
  | ok a => exact each a

theorem followsNothing {s : Progress} (coherent : Coherent (fun path => some (tokens path)) s.m) :
    Follows tokens s.res (.ok []) (.ok s) :=
  ⟨s.m,by rw [List.append_nil],coherent⟩

variable (ciObjs : List Checkout) (contextStrategy : Str) (history : Int)

include same in
theorem experimentFollows {s : Progress} (coherent : Coherent (fun path => some (tokens path)) s.m) (ciIndex : Nat) :
    Follows tokens s.res (plainExperiment outside ciObjs contextStrategy history ciIndex)
      (experiment outside ciObjs contextStrategy history s ciIndex) := by
  unfold plainExperiment experiment
  split
  · exact followsNothing coherent
  refine followsBind _ (fun ciObj => ?_)
  split
  · exact followsNothing coherent
  dsimp only
  split
  · exact followsNothing coherent
  refine followsBind _ (fun changes => ?_)
  split
  · exact followsNothing coherent
  obtain ⟨m,read,right⟩ := tokensRead same ciObj.getAllTestcases coherent []
  rw [read,List.nil_append]
  refine followsBind _ (fun similarity => followsBind _ (fun scored => ?_))
  exact ⟨m,rfl,right⟩

include same in
theorem experimentsFollow (indices : List Nat) {s : Progress} (coherent : Coherent (fun path => some (tokens path)) s.m) :
    Follows tokens s.res (do
      let added ← indices.mapM (plainExperiment outside ciObjs contextStrategy history)
      .ok added.flatten) (indices.foldlM (experiment outside ciObjs contextStrategy history) s) := by
  induction indices generalizing s with
  | nil => exact followsNothing coherent
  | cons i indices ih =>
    have first := experimentFollows same ciObjs contextStrategy history coherent i
    rw [List.mapM_cons,List.foldlM_cons]
    cases here : plainExperiment outside ciObjs contextStrategy history i with
    | error e =>
      rw [here] at first
      rw [show experiment outside ciObjs contextStrategy history s i = .error e from first]
      rfl
    | ok added =>
      rw [here] at first
      obtain ⟨m,step,right⟩ := first
      have later := @ih ⟨m,s.res ++ added⟩ right
      rw [step]
      cases rest : indices.mapM (plainExperiment outside ciObjs contextStrategy history) with
      | error e =>
        rw [rest] at later
        exact later
      | ok more =>
        rw [rest] at later
        obtain ⟨last,run,kept⟩ := later
        refine ⟨last,?_,kept⟩
        rw [List.flatten_cons,← List.append_assoc]
        exact run

end Tokens

/-- However many experiments share the map of tokens, each ends with the results, or the error, of
one that reads every file anew, as long as the files stay and the stored map was right; and the map
that is left is right. -/
theorem cachedRunsAgree (outside : Outside) (tokens : Str → Str) (same : ∀ t, fileText outside t = tokens (pathText t.filePath))
    (ciObjs : List Checkout) (contextStrategy : Str) (history : Int) (irModels : List Similarity) (m : Dict Str Str)
    (coherent : Coherent (fun path => some (tokens path)) m) :
    (do let done ← doExps outside ciObjs contextStrategy history irModels m
        .ok done.1) = irModels.mapM (fun irModel => plainExp (outside.using irModel) ciObjs contextStrategy history) ∧
    ∀ done, doExps outside ciObjs contextStrategy history irModels m = .ok done → Coherent (fun path => some (tokens path)) done.2 := by
  induction irModels generalizing m with
  | nil =>
    refine ⟨rfl,?_⟩
    intro done run
    cases Except.ok.inj run
    exact coherent
  | cons irModel irModels ih =>
    have files : ∀ t, fileText (outside.using irModel) t = tokens (pathText t.filePath) := same
    have first : Follows tokens [] (plainExp (outside.using irModel) ciObjs contextStrategy history)
        (doExp (outside.using irModel) ciObjs m contextStrategy history) :=
      experimentsFollow files ciObjs contextStrategy history _ coherent
    rw [List.mapM_cons]
    unfold doExps
    cases here : plainExp (outside.using irModel) ciObjs contextStrategy history with
    | error e =>
      rw [here] at first
      rw [show doExp (outside.using irModel) ciObjs m contextStrategy history = .error e from first]
      exact ⟨rfl,by simp [bind,Except.bind]⟩
    | ok added =>
      rw [here] at first
      obtain ⟨next,run,right⟩ := first
      obtain ⟨rest,kept⟩ := ih next right
      rw [run,← rest]
      cases later : doExps outside ciObjs contextStrategy history irModels next with
      | error e =>
        simp [bind,Except.bind,later]
      | ok done =>
        simp only [bind,Except.bind,later]
        refine ⟨rfl,?_⟩
        intro whole all
        cases Except.ok.inj all
        exact kept done later

def testAt (path : String) (status : Status) : Test := ⟨⟨[],none,[],path.toList,none⟩,some path.toList,status⟩

def threeTests (sha : String) : Checkout :=
  ⟨⟨sha.toList,0⟩,[⟨⟨.text [],[]⟩,[⟨[testAt "a.c" .failure,testAt "bb.sh" .success,testAt "cc.c" .success]⟩],[],none⟩]⟩

/- Every file holds its own path, and is like every change by the length of its text. -/
def byLength : Similarity := fun _ corpus queries => .ok (corpus.map (fun d => queries.map (fun _ => (d.length : ℚ))))

def ranked : Outside := { pairs with
  testType := fun t => if Text.endsWith (pathText t.filePath) ".c".toList then some .c else some .sh
  fileTokens := fun t => some [pathText t.filePath]
  getSimilarity := byLength }

theorem twoRunsAgree : (do
      let done ← doExps ranked [threeTests "0",threeTests "1"] [] 0 [byLength,pairs.getSimilarity] Dict.empty
      .ok done.1) = [byLength,pairs.getSimilarity].mapM (fun irModel => plainExp (ranked.using irModel) [threeTests "0",threeTests "1"] [] 0) :=
  (cachedRunsAgree ranked id (fun t => by simp [fileText,ranked,joined,pairs]) [threeTests "0",threeTests "1"] [] 0
    [byLength,pairs.getSimilarity] Dict.empty Cache.coherentEmpty).1

section Scored
open EHelper (Judged apfd)
variable {outside : Outside} {testCases : List Test} {kind : TestCaseType}

def isType (outside : Outside) (testCases : List Test) (kind : TestCaseType) (i : Nat) : Bool :=
  (testCases[i]?.bind outside.testType) = some kind

theorem ofTypeFilter {indices : List Nat} (inside : ∀ i ∈ indices, i < testCases.length) :
    ofType outside testCases kind indices = .ok (indices.filter (isType outside testCases kind)) := by
  have each : ∀ i ∈ indices, ∀ found : List Nat, (do
      let t ← Py.getItem testCases i
      .ok (if outside.testType t = some kind then found ++ [i] else found)) =
        Except.ok (found ++ (Option.guard (isType outside testCases kind) i).toList) := by
    intro i listed found
    have here := List.getElem?_eq_getElem (inside i listed)
    rw [Py.getItemInside here]
    simp only [bind,Except.bind,isType,here,Option.bind_some,Option.guard,decide_eq_true_eq]
    split <;> simp
  unfold ofType
  rw [Py.foldlMCollects each,List.nil_append,← List.filterMap_eq_flatMap_toList,List.filterMap_eq_filter]

theorem judgedPart {faultsArr order : List Nat} (judged : Judged faultsArr order) {part : Nat → Bool} (some : faultsArr.filter part ≠ []) :
    Judged (faultsArr.filter part) (order.filter part) := by
  refine ⟨judged.distinctOrder.filter _,judged.distinctFaults.filter _,some,?_⟩
  intro f member
  obtain ⟨fault,here⟩ := List.mem_filter.mp member
  exact List.mem_filter.mpr ⟨judged.inside f fault,here⟩

structure PartScored (outside : Outside) (ciObj : Checkout) (kind : TestCaseType) (order : List Nat) (score : ℚ) : Prop where
  value : score = apfd ((faults ciObj).filter (isType outside ciObj.getAllTestcases kind)) (order.filter (isType outside ciObj.getAllTestcases kind))
  judged : (faults ciObj).filter (isType outside ciObj.getAllTestcases kind) ≠ [] →
    Judged ((faults ciObj).filter (isType outside ciObj.getAllTestcases kind)) (order.filter (isType outside ciObj.getAllTestcases kind))
  none : (faults ciObj).filter (isType outside ciObj.getAllTestcases kind) = [] → score = 1/2

structure Scored (outside : Outside) (ciObjs : List Checkout) (history : Int) (i : Nat) (order : List Nat) (s : Scores) : Prop where
  passes : skipped history i = false
  checkout : ∃ ciObj, ciObjs[i]? = some ciObj ∧ order.Perm (List.range ciObj.getAllTestcases.length) ∧
    Judged (faults ciObj) order ∧ s.apfd = apfd (faults ciObj) order ∧
    PartScored outside ciObj .c order s.apfdC ∧ PartScored outside ciObj .sh order s.apfdSh

theorem partScored (outside : Outside) {ciObj : Checkout} {order : List Nat} (judged : Judged (faults ciObj) order) (kind : TestCaseType) :
    PartScored outside ciObj kind order (apfd ((faults ciObj).filter (isType outside ciObj.getAllTestcases kind))
      (order.filter (isType outside ciObj.getAllTestcases kind))) := by
  refine ⟨rfl,judgedPart judged,?_⟩
  intro nothing
  rw [nothing]
  rfl

theorem orderJudged {c : Checkout} {order : List Nat} (perm : order.Perm (List.range c.getAllTestcases.length)) (failing : faults c ≠ []) :
    Judged (faults c) order := by
  have numbered : (c.getAllTestcases.zipIdx.map Prod.snd).Nodup := by
    rw [List.zipIdx_map_snd]
    exact List.nodup_range'
  refine ⟨perm.nodup_iff.mpr List.nodup_range,numbered.sublist (List.filter_sublist.map _),failing,?_⟩
  intro f fault
  exact perm.mem_iff.mpr (List.mem_range.mpr (faultInside fault))

theorem scoresDone (outside : Outside) {c : Checkout} {order : List Nat} (perm : order.Perm (List.range c.getAllTestcases.length)) :
    scores outside c.getAllTestcases (faults c) order = .ok ⟨apfd (faults c) order,
      apfd ((faults c).filter (isType outside c.getAllTestcases .c)) (order.filter (isType outside c.getAllTestcases .c)),
      apfd ((faults c).filter (isType outside c.getAllTestcases .sh)) (order.filter (isType outside c.getAllTestcases .sh))⟩ := by
  have places : ∀ i ∈ order, i < c.getAllTestcases.length := fun i listed => List.mem_range.mp (perm.mem_iff.mp listed)
  have size : order.length = c.getAllTestcases.length := by rw [perm.length_eq,List.length_range]
  have logged : (faults c).mapM (fun fi : Nat => Py.getItem order fi) = .ok ((faults c).map (fun fi => order.getD fi 0)) := by
    refine Py.mapMTotal ?_
    intro fi fault
    have inside : fi < order.length := by rw [size]; exact faultInside fault
    rw [Py.getItemInside (List.getElem?_eq_getElem inside),List.getD_eq_getElem?_getD,List.getElem?_eq_getElem inside]
    rfl
  unfold scores
  rw [logged]
  simp only [bind,Except.bind,ofTypeFilter (fun i fault => faultInside fault),ofTypeFilter places]

theorem tokensLength (testCases : List Test) (s : Dict Str Str × List Str) :
    (testCases.foldl (tokenStep outside) s).2.length = s.2.length + testCases.length := by
  induction testCases generalizing s with
  | nil => rfl
  | cons t testCases ih =>
    have step : (tokenStep outside s t).2.length = s.2.length + 1 := by
      unfold tokenStep
      split <;> exact List.length_append
    rw [List.foldl_cons,ih,step,List.length_cons]
    omega

variable {ciObjs : List Checkout} {contextStrategy : Str} {history : Int}
  (sorts : ∀ column, (outside.argsort column).Perm (List.range column.length))
  (rows : ∀ i corpus queries similarity, outside.getSimilarity i corpus queries = .ok similarity → similarity.length = corpus.length)

include sorts rows in
theorem orderSorted {i : Nat} {c : Checkout} {m : Dict Str Str} {queries : List Str} {similarity : List (List ℚ)}
    (asked : outside.getSimilarity i (c.getAllTestcases.foldl (tokenStep outside) (m,[])).2 queries = .ok similarity) :
    (outside.argsort (similarity.map rowSum)).reverse.Perm (List.range c.getAllTestcases.length) := by
  have size := rows _ _ _ _ asked
  rw [tokensLength,List.length_nil,Nat.zero_add] at size
  have sorted := sorts (similarity.map rowSum)
  rw [List.length_map,size] at sorted
  exact (List.reverse_perm _).trans sorted

include sorts rows in
theorem experimentScored {i : Nat} {s next : Progress} (done : experiment outside ciObjs contextStrategy history s i = .ok next) :
    next.res = s.res ∨ ∃ order scored, next.res = s.res ++ [scored] ∧ Scored outside ciObjs history i order scored := by
  unfold experiment at done
  split at done
  · exact Or.inl (Except.ok.inj done ▸ rfl)
  rename_i passes
  obtain ⟨ciObj,here,done⟩ := Py.bindOk.mp done
  split at done
  · exact Or.inl (Except.ok.inj done ▸ rfl)
  dsimp only at done
  rw [addFaults,List.nil_append] at done
  split at done
  · exact Or.inl (Except.ok.inj done ▸ rfl)
  rename_i failing
  obtain ⟨changes,_,done⟩ := Py.bindOk.mp done
  split at done
  · exact Or.inl (Except.ok.inj done ▸ rfl)
  obtain ⟨similarity,asked,done⟩ := Py.bindOk.mp done
  obtain ⟨scored,made,last⟩ := Py.bindOk.mp done
  have perm := orderSorted sorts rows asked
  have some : faults ciObj ≠ [] := fun none => failing (List.length_eq_zero_iff.mpr none)
  have right := Except.ok.inj ((scoresDone outside perm).symm.trans made)
  have judged := orderJudged perm some
  refine Or.inr ⟨_,scored,Except.ok.inj last ▸ rfl,by simpa using passes,ciObj,Py.getItemFound here,perm,judged,?_⟩
  rw [← right]
  exact ⟨rfl,partScored outside judged .c,partScored outside judged .sh⟩

/- What stops the experiment: git, the model, or a negative history that looks behind the last checkout. -/
def Stopped (outside : Outside) (ciObjs : List Checkout) (contextStrategy : Str) (history : Int) (e : PyError) : Prop :=
  (∃ last ∈ ciObjs, ∃ cur ∈ ciObjs, outside.getDiffContents last.dbInstance.gitSha cur.dbInstance.gitSha contextStrategy = .error e) ∨
  (∃ i corpus queries, outside.getSimilarity i corpus queries = .error e) ∨ (history < 0 ∧ e = .indexError)

theorem comparedFails {i : Nat} (inside : i < ciObjs.length) (passes : skipped history i = false) {e : PyError}
    (failed : comparedCheckouts ciObjs history i = .error e) : history < 0 ∧ e = .indexError := by
  have early : history ≤ i := by simpa [skipped] using passes
  have indexed : ∀ j : Int, Py.getItem ciObjs j = .error e → e = .indexError ∧ ¬ (-1 ≤ j ∧ j < ciObjs.length) := by
    intro j missing
    refine ⟨Py.getItemError missing,?_⟩
    intro bounds
    obtain ⟨c,found⟩ := Py.getItemBounds (by omega : -(ciObjs.length : Int) ≤ j) bounds.2
    rw [found] at missing
    contradiction
  unfold comparedCheckouts at failed
  rcases Py.bindError.mp failed with first | ⟨_,_,later⟩
  · have out := indexed _ first
    exact ⟨by omega,out.1⟩
  · rcases Py.bindError.mp later with second | ⟨_,_,done⟩
    · have out := indexed _ second
      exact ⟨by omega,out.1⟩
    · contradiction

theorem comparedMembers {i : Nat} {compared : Checkout × Checkout} (found : comparedCheckouts ciObjs history i = .ok compared) :
    compared.1 ∈ ciObjs ∧ compared.2 ∈ ciObjs := by
  obtain ⟨last,first,found⟩ := Py.bindOk.mp found
  obtain ⟨cur,second,found⟩ := Py.bindOk.mp found
  cases Except.ok.inj found
  exact ⟨Py.getItemMem first,Py.getItemMem second⟩

theorem changesFail {i : Nat} (inside : i < ciObjs.length) (passes : skipped history i = false) {e : PyError}
    (failed : codeChanges outside ciObjs contextStrategy history i = .error e) : Stopped outside ciObjs contextStrategy history e := by
  rcases Py.bindError.mp failed with looked | ⟨compared,found,asked⟩
  · exact .inr (.inr (comparedFails inside passes looked))
  · obtain ⟨last,cur⟩ := comparedMembers found
    exact .inl ⟨_,last,_,cur,asked⟩

include sorts rows in
theorem experimentFails {i : Nat} (inside : i < ciObjs.length) {s : Progress} {e : PyError}
    (failed : experiment outside ciObjs contextStrategy history s i = .error e) : Stopped outside ciObjs contextStrategy history e := by
  unfold experiment at failed
  split at failed
  · contradiction
  rename_i passes
  rw [Py.getItemInside (List.getElem?_eq_getElem inside)] at failed
  dsimp only [bind,Except.bind] at failed
  split at failed
  · contradiction
  rw [addFaults,List.nil_append] at failed
  split at failed
  · contradiction
  cases Py.bindError.mp failed with
  | inl changes => exact changesFail inside (by simpa using passes) changes
  | inr later =>
    obtain ⟨changes,_,later⟩ := later
    split at later
    · contradiction
    cases Py.bindError.mp later with
    | inl asked => exact .inr (.inl ⟨_,_,_,asked⟩)
    | inr scoring =>
      obtain ⟨similarity,asked,scoring⟩ := scoring
      have scored := scoresDone outside (orderSorted sorts rows asked)
      unfold faults at scored
      rw [scored] at scoring
      contradiction

include sorts rows in
theorem experimentsScored {indices : List Nat} {s last : Progress}
    (done : indices.foldlM (experiment outside ciObjs contextStrategy history) s = .ok last) :
    ∃ (evaluated : List (Nat × List Nat)) (added : List Scores), last.res = s.res ++ added ∧
      (evaluated.map Prod.fst).Sublist indices ∧ List.Forall₂ (fun e scored => Scored outside ciObjs history e.1 e.2 scored) evaluated added := by
  induction indices generalizing s with
  | nil =>
    cases Except.ok.inj done
    exact ⟨[],[],(List.append_nil _).symm,List.Sublist.refl _,.nil⟩
  | cons i indices ih =>
    rw [List.foldlM_cons] at done
    obtain ⟨next,step,rest⟩ := Py.bindOk.mp done
    obtain ⟨evaluated,added,whole,sub,known⟩ := ih rest
    cases experimentScored sorts rows step with
    | inl nothing => exact ⟨evaluated,added,by rw [whole,nothing],sub.cons i,known⟩
    | inr one =>
      obtain ⟨order,scored,more,facts⟩ := one
      refine ⟨(i,order)::evaluated,scored::added,?_,sub.cons_cons i,.cons facts known⟩
      rw [whole,more,List.append_assoc,List.singleton_append]

end Scored

/-- The experiment scores a checkout at most once and in the order of the list. Each score is the
APFD of its failed tests in an order of all its tests; the scores for the C and the shell tests are
those of the same order and faults restricted to these tests, and 1/2 where none of them failed.
Git and the model can stop the experiment, and an index error can when the history is negative. -/
theorem checkoutsScored (outside : Outside) (sorts : ∀ column, (outside.argsort column).Perm (List.range column.length))
    (rows : ∀ i corpus queries similarity, outside.getSimilarity i corpus queries = .ok similarity → similarity.length = corpus.length)
    (ciObjs : List Checkout) (m : Dict Str Str) (contextStrategy : Str) (history : Int) :
    (∀ done, doExp outside ciObjs m contextStrategy history = .ok done → ∃ evaluated : List (Nat × List Nat),
      (evaluated.map Prod.fst).Sublist (List.range' 1 (ciObjs.length - 1)) ∧
      List.Forall₂ (fun e scored => Scored outside ciObjs history e.1 e.2 scored) evaluated done.res) ∧
    ∀ e, doExp outside ciObjs m contextStrategy history = .error e → Stopped outside ciObjs contextStrategy history e := by
  constructor
  · intro done run
    obtain ⟨evaluated,added,whole,sub,known⟩ := experimentsScored sorts rows run
    rw [List.nil_append] at whole
    exact ⟨evaluated,sub,whole ▸ known⟩
  · intro e run
    obtain ⟨i,listed,s,failed⟩ := Py.foldlMFails run
    have inside : i < ciObjs.length := by
      have bounds := List.mem_range'_1.mp listed
      omega
    exact experimentFails sorts rows inside failed

theorem rankedScored : ∃ done, doExp ranked [threeTests "0",threeTests "1"] Dict.empty "default".toList 0 = .ok done ∧
    done.res.map (fun s => (s.apfd,s.apfdC,s.apfdSh)) = [(1/6,1/4,1/2)] ∧
    ∃ evaluated : List (Nat × List Nat),
      List.Forall₂ (fun e scored => Scored ranked [threeTests "0",threeTests "1"] 0 e.1 e.2 scored) evaluated done.res := by
  have rows : ∀ i corpus queries similarity, ranked.getSimilarity i corpus queries = .ok similarity → similarity.length = corpus.length := by
    intro i corpus queries similarity asked
    rw [← Except.ok.inj asked,List.length_map]
  have one : (doExp ranked [threeTests "0",threeTests "1"] Dict.empty "default".toList 0).map
      (fun s => s.res.map (fun s => (s.apfd,s.apfdC,s.apfdSh))) = .ok [(1/6,1/4,1/2)] := by decide +kernel
  cases run : doExp ranked [threeTests "0",threeTests "1"] Dict.empty "default".toList 0 with
  | error e =>
    rw [run] at one
    contradiction
  | ok done =>
    rw [run] at one
    obtain ⟨evaluated,_,known⟩ := (checkoutsScored ranked stableArgsortPerm rows [threeTests "0",threeTests "1"] Dict.empty _ 0).1 done run
    exact ⟨done,rfl,Except.ok.inj one,evaluated,known⟩

-- a history of minus one looks behind the last checkout
example : (doExp ranked [threeTests "0",threeTests "1"] Dict.empty "default".toList (-1)).map (fun s => s.res.length) = .error .indexError := by
  decide +kernel

end KernelTcp.IrMain

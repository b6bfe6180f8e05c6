import KernelTcp.History.Main

/-! The information-retrieval experiment. Git, the files, the tokenizer, the similarity model and
numpy's argsort are given; the model may remember what it was asked before, so its answer may
depend on the checkout. The averages that end the experiment are not computed. -/
namespace KernelTcp.IrMain
open CiObjects History

structure Outside where
  commitExists : Str → Bool
  getDiffContents : Str → Str → Str → Except PyError (List Str)
  testType : Test → Option TestCaseType
  -- no tokens where reading or tokenizing the file fails
  fileTokens : Test → Option (List Str)
  getTokens : Str → TestCaseType → List Str
  lower : Str → Str
  getSimilarity : Nat → List Str → List Str → Except PyError (List (List ℚ))
  argsort : List ℚ → List Nat

def joined (tokens : List Str) : Str := List.intercalate " ".toList tokens

def pathText (filePath : Option Str) : Str := filePath.getD "None".toList

def tokenStep (outside : Outside) (s : Dict Str Str × List Str) (t : Test) : Dict Str Str × List Str :=
  match s.1.get? (pathText t.filePath) with
  | some v => (s.1,s.2 ++ [v])
  | none =>
      let v := outside.lower (joined ((outside.fileTokens t).getD []))
      (s.1.set (pathText t.filePath) v,s.2 ++ [v])

def comparedCheckouts (ciObjs : List Checkout) (history : Int) (ciIndex : Nat) : Except PyError (Checkout × Checkout) := do
  let lastCiObj ← Py.getItem ciObjs (ciIndex - history - 1)
  let historyObj ← Py.getItem ciObjs (ciIndex - history)
  .ok (lastCiObj,historyObj)

def codeChanges (outside : Outside) (ciObjs : List Checkout) (contextStrategy : Str) (history : Int) (ciIndex : Nat) :
    Except PyError (List Str) := do
  let compared ← comparedCheckouts ciObjs history ciIndex
  outside.getDiffContents compared.1.dbInstance.gitSha compared.2.dbInstance.gitSha contextStrategy

def ofType (outside : Outside) (testCases : List Test) (kind : TestCaseType) (indices : List Nat) : Except PyError (List Nat) :=
  indices.foldlM (fun found (i : Nat) => do
    let t ← Py.getItem testCases i
    .ok (if outside.testType t = some kind then found ++ [i] else found)) []

structure Scores where
  apfd : ℚ
  apfdC : ℚ
  apfdSh : ℚ

def scores (outside : Outside) (testCases : List Test) (faultsArr orderArr : List Nat) : Except PyError Scores := do
  -- the log names the position of every fault
  let _ ← faultsArr.mapM (fun (fi : Nat) => Py.getItem orderArr fi)
  let faultsC ← ofType outside testCases .c faultsArr
  let faultsSh ← ofType outside testCases .sh faultsArr
  let orderArrC ← ofType outside testCases .c orderArr
  let orderArrSh ← ofType outside testCases .sh orderArr
  .ok ⟨EHelper.apfd faultsArr orderArr,EHelper.apfd faultsC orderArrC,EHelper.apfd faultsSh orderArrSh⟩

structure Progress where
  m : Dict Str Str
  res : List Scores

def skipped (history : Int) (ciIndex : Nat) : Bool := (ciIndex : Int) < history

def rowSum (row : List ℚ) : ℚ := row.foldl (fun total v => total + v) 0

def experiment (outside : Outside) (ciObjs : List Checkout) (contextStrategy : Str) (history : Int) (s : Progress) (ciIndex : Nat) :
    Except PyError Progress :=
  if skipped history ciIndex then .ok s
  else do
    let ciObj ← Py.getItem ciObjs ciIndex
    if outside.commitExists ciObj.dbInstance.gitSha = false then .ok s
    else
      let testCases := ciObj.getAllTestcases
      let faultsArr := testCases.zipIdx.foldl addFault []
      if faultsArr.length = 0 then .ok s
      else do
        let changes ← codeChanges outside ciObjs contextStrategy history ciIndex
        if changes.length = 0 then .ok s
        else do
          let read := testCases.foldl (tokenStep outside) (s.m,[])
          let queries := changes.map (fun cc => joined (outside.getTokens cc .c))
          let similarity ← outside.getSimilarity ciIndex read.2 queries
          let orderArr := (outside.argsort (similarity.map rowSum)).reverse
          let scored ← scores outside testCases faultsArr orderArr
          .ok ⟨read.1,s.res ++ [scored]⟩

def doExp (outside : Outside) (ciObjs : List Checkout) (m : Dict Str Str) (contextStrategy : Str) (history : Int) :
    Except PyError Progress :=
  (List.range' 1 (ciObjs.length - 1)).foldlM (experiment outside ciObjs contextStrategy history) ⟨m,[]⟩

def historyPasses (history : Int) (i : Nat) : Bool := !(i == 0) && !decide ((i : Int) ≤ history)

theorem historyChecked (argsort : List ℚ → List Nat) (m : Manager) (ciObjs : List Checkout) (history : Int) (i : Nat) :
    evaluate argsort m ciObjs history i = if historyPasses history i then do
      let ciObj ← Py.getItem ciObjs i
      if (ciObj.getAllTestcases.zipIdx.foldl addFault []).length = 0 then .ok none
      else do
        let out ← prioritise argsort m (i - history) ciObj
        let apfd ← (List.range 6).mapM (fun (j : Nat) => do
          let order ← Py.getItem out.2 j
          .ok (EHelper.apfd out.1 order))
        .ok (some ⟨ciObj.dbInstance.gitSha,out.2,apfd⟩)
    else .ok none := by
  unfold evaluate historyPasses
  by_cases first : i = 0
  · simp [first]
  · by_cases early : (i : Int) ≤ history
    · simp [first,early]
    · simp [first,early]

section compared
variable (outside : Outside) {ciObjs : List Checkout} (contextStrategy : Str)

theorem comparedConsecutive (history : Nat) {j : Nat} (positive : 1 ≤ j) {last cur : Checkout} (before : ciObjs[j-1]? = some last)
    (here : ciObjs[j]? = some cur) : codeChanges outside ciObjs contextStrategy history (history+j) =
      outside.getDiffContents last.dbInstance.gitSha cur.dbInstance.gitSha contextStrategy := by
  have previous : ((history+j : Nat) : Int) - history - 1 = (j-1 : Nat) := by omega
  have current : ((history+j : Nat) : Int) - history = j := by omega
  unfold codeChanges comparedCheckouts
  rw [previous,current,Py.getItemInside before,Py.getItemInside here]
  rfl

theorem comparedWrapped (between : List Checkout) (oldest newest : Checkout) (history : Nat) :
    codeChanges outside (oldest::between ++ [newest]) contextStrategy history history =
      outside.getDiffContents newest.dbInstance.gitSha oldest.dbInstance.gitSha contextStrategy := by
  have previous : (history : Int) - history - 1 = -1 := by omega
  have current : (history : Int) - history = 0 := by omega
  unfold codeChanges comparedCheckouts
  rw [previous,current,Py.getItemLast,List.cons_append,Py.getItemFirst]
  rfl

end compared

theorem historyPassesIff (history i : Nat) : historyPasses history i = true ↔ 1 ≤ i ∧ history < i := by
  simp only [historyPasses,Bool.and_eq_true,Bool.not_eq_true',beq_eq_false_iff_ne,decide_eq_false_iff_not]
  omega

theorem skippedIff (history i : Nat) : skipped history i = false ↔ history ≤ i := by
  simp [skipped]

/-- The two checks agree, and every index that passes compares a checkout with the one before it,
exactly where no history is asked for or there are too few checkouts for any index to pass. In every
other case the index equal to the history passes and compares the newest checkout with the oldest. -/
theorem consecutiveWhen (outside : Outside) (ciObjs : List Checkout) (contextStrategy : Str) (history : Nat) :
    (((∀ i, 1 ≤ i → i < ciObjs.length → skipped history i = false →
        ∃ (j : Nat) (last cur : Checkout), (j : Int) = i - history ∧ 1 ≤ j ∧ ciObjs[j-1]? = some last ∧ ciObjs[j]? = some cur ∧
          codeChanges outside ciObjs contextStrategy history i =
            outside.getDiffContents last.dbInstance.gitSha cur.dbInstance.gitSha contextStrategy) ∧
      ∀ i < ciObjs.length, (1 ≤ i ∧ skipped history i = false ↔ historyPasses history i = true) ∧
        (historyPasses history i = true ↔ 1 ≤ i ∧ history < i)) ↔
      history = 0 ∨ ciObjs.length ≤ history) ∧
    (0 < history → history < ciObjs.length → skipped history history = false ∧ historyPasses history history = false ∧
      ∃ oldest newest, ciObjs.head? = some oldest ∧ ciObjs.getLast? = some newest ∧
        codeChanges outside ciObjs contextStrategy history history =
          outside.getDiffContents newest.dbInstance.gitSha oldest.dbInstance.gitSha contextStrategy) := by
  simp only [skippedIff]
  refine ⟨⟨?_,?_⟩,?_⟩
  · intro holds
    by_contra neither
    rw [not_or] at neither
    obtain ⟨j,_,_,place,positive,_⟩ := holds.1 history (by omega) (by omega) le_rfl
    omega
  · intro trivially
    constructor
    · intro i positive inside passes
      obtain rfl : history = 0 := by omega
      have there : i - 1 < ciObjs.length := by omega
      refine ⟨i,_,_,by omega,positive,List.getElem?_eq_getElem there,List.getElem?_eq_getElem inside,?_⟩
      have same := comparedConsecutive outside contextStrategy 0 positive (List.getElem?_eq_getElem there)
        (List.getElem?_eq_getElem inside)
      rwa [Nat.zero_add] at same
    · intro i inside
      rw [historyPassesIff]
      omega
  · intro some fewer
    refine ⟨le_rfl,?_,?_⟩
    · rw [Bool.eq_false_iff,ne_eq,historyPassesIff]
      omega
    · obtain ⟨oldest,rest,rfl⟩ := List.exists_cons_of_length_pos (by omega : 0 < ciObjs.length)
      rcases List.eq_nil_or_concat rest with rfl | ⟨between,newest,rfl⟩
      · rw [List.length_singleton] at fewer
        omega
      · refine ⟨oldest,newest,rfl,?_,?_⟩
        · rw [List.concat_eq_append,← List.cons_append,List.getLast?_append]
          rfl
        · rw [List.concat_eq_append,← List.cons_append]
          exact comparedWrapped outside contextStrategy between oldest newest history

def pairs : Outside where
  commitExists _ := true
  getDiffContents commit toCommit _ := .ok [commit ++ "..".toList ++ toCommit]
  testType _ := none
  fileTokens _ := none
  getTokens _ _ := []
  lower := id
  getSimilarity _ corpus _ := .ok (corpus.map (fun _ => []))
  argsort := stableArgsort

theorem noHistoryConsecutive : ∃ (j : Nat) (last cur : Checkout), (j : Int) = (1 : Nat) - (0 : Nat) ∧ 1 ≤ j ∧ twoFailures[j-1]? = some last ∧
    twoFailures[j]? = some cur ∧ codeChanges pairs twoFailures [] (0 : Nat) 1 =
      pairs.getDiffContents last.dbInstance.gitSha cur.dbInstance.gitSha [] :=
  ((consecutiveWhen pairs twoFailures [] 0).1.mpr (Or.inl rfl)).1 1 (by decide) (by decide) (by decide)

theorem newestAgainstOldest : skipped 1 1 = false ∧ historyPasses 1 1 = false ∧
    codeChanges pairs twoFailures "default".toList 1 1 = .ok ["1..0".toList] ∧
    (doExp pairs twoFailures Dict.empty "default".toList 1).map (fun s => s.res.length) = .ok 1 := by
  decide +kernel

end KernelTcp.IrMain

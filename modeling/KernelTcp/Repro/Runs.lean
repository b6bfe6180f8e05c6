import KernelTcp.Repro.Execute
import KernelTcp.Lib.Groups

/-! What holds over any series of attempts: the builds of one process, the processes that
follow each other after an interruption, and processes that work side by side. -/
namespace KernelTcp.Repro
open Text CiObjects
variable {ω : Type} {out : Outside ω}

section Attempts
variable (site : Site) (name : Str)

def Saved (before after : Files) : Prop :=
  ∃ text, after = before.put (resultFile site name) (.file text) ∨ after = before.put (errFile site name) (.file text)

/- A copy that fails may leave a part of the archive behind. -/
inductive Copied : Files → List Issued → Files → Prop where
  | kept {fs : Files} (there : fs.has (archive site name) = true) : Copied fs [] fs
  | notCollected {fs : Files} {code : Int} (missing : fs.has (archive site name) = false) (failed : code ≠ 0) :
      Copied fs [⟨site,.vm (collectCmd name),code⟩] fs
  | notCopied {fs after : Files} {code : Int} (missing : fs.has (archive site name) = false) (failed : code ≠ 0)
      (left : after = fs ∨ ∃ text, after = fs.put (archive site name) (.file text)) :
      Copied fs [⟨site,.vm (collectCmd name),0⟩,⟨site,.fetch (vmArchive name) (archive site name),code⟩] after
  | copied {fs : Files} (missing : fs.has (archive site name) = false) (text : Str) (code : Int) :
      Copied fs [⟨site,.vm (collectCmd name),0⟩,⟨site,.fetch (vmArchive name) (archive site name),0⟩,
        ⟨site,.vm (removeCmd name),code⟩] (fs.put (archive site name) (.file text))

inductive Attempted (testcaseType : Str) (timeout : Nat) : Files → List Issued → Files → Prop where
  | notReset {fs : Files} {code : Int} (failed : code ≠ 0) : Attempted testcaseType timeout fs [⟨site,.vm reset,code⟩] fs
  | unknownType {fs : Files} (unknown : testCmd name testcaseType timeout = none) :
      Attempted testcaseType timeout fs [⟨site,.vm reset,0⟩] fs
  | ran {fs saved after : Files} {cmd : Str} {did : List Issued} (known : testCmd name testcaseType timeout = some cmd)
      (code : Int) (save : Saved site name fs saved) (copy : Copied site name saved did after) :
      Attempted testcaseType timeout fs (⟨site,.vm reset,0⟩::⟨site,.vm cmd,code⟩::did) after

end Attempts

section Inversion
variable {site : Site} {name testcaseType : Str} {timeout : Nat}

theorem saveResultSaves (res : CompletedProcess) (costTime : Int) (fs : Files) :
    Saved site name fs (saveResult site name res costTime fs) := by
  unfold saveResult
  split
  · split
    · exact ⟨_,Or.inr rfl⟩
    · exact ⟨_,Or.inl rfl⟩
  · exact ⟨_,Or.inl rfl⟩

theorem copyCoverageCopies (out : Outside ω) (site : Site) (name : Str) (h : Host ω) : ∃ did, (copyCoverage out site name h).issued = h.issued ++ did ∧
    Copied site name h.files did (copyCoverage out site name h).files := by
  unfold copyCoverage
  split
  · rename_i there
    exact ⟨[],by simp,.kept there⟩
  rename_i missing
  have missing := Bool.not_eq_true _ ▸ missing
  dsimp only
  split
  · rename_i failed
    exact ⟨_,rfl,.notCollected missing failed⟩
  rename_i collected
  have collected := not_not.mp collected
  generalize packed : (executeCmdInQemu out site (collectCmd name) h).2 = h₁
  have files : h₁.files = h.files := by rw [← packed,qemuFiles]
  have issued : h₁.issued = h.issued ++ [⟨site,.vm (collectCmd name),0⟩] := by rw [← packed,qemuIssued,collected]
  have leaves := fetchLeaves out site (vmArchive name) (archive site name) h₁
  rw [files] at leaves
  split
  · rename_i failed
    refine ⟨_,?_,.notCopied missing failed (leaves.imp And.left id)⟩
    rw [fetchIssued,issued,List.append_assoc]
    rfl
  · rename_i succeeded
    have succeeded := not_not.mp succeeded
    obtain ⟨text,left⟩ := leaves.resolve_left (fun failed => failed.2 succeeded)
    generalize arrived : (fetch out site (vmArchive name) (archive site name) h₁).2 = h₂ at left
    have copy := Copied.copied missing text (executeCmdInQemu out site (removeCmd name) h₂).1.returncode
    refine ⟨_,?_,by rw [qemuFiles,left]; exact copy⟩
    rw [qemuIssued,← arrived,fetchIssued,issued,succeeded,List.append_assoc,List.append_assoc]
    rfl

theorem executeTestcaseAttempts (out : Outside ω) (site : Site) (name testcaseType : Str) (timeout : Nat) (h : Host ω) : ∃ did,
    (executeTestcase out site name testcaseType timeout true true h).issued = h.issued ++ did ∧
    Attempted site name testcaseType timeout h.files did (executeTestcase out site name testcaseType timeout true true h).files := by
  unfold executeTestcase
  rw [if_pos rfl]
  dsimp only
  split
  · rename_i failed
    exact ⟨_,rfl,.notReset failed⟩
  rename_i succeeded
  have succeeded := not_not.mp succeeded
  generalize cleared : (executeCmdInQemu out site reset h).2 = h₁
  have files : h₁.files = h.files := by rw [← cleared,qemuFiles]
  have issued : h₁.issued = h.issued ++ [⟨site,.vm reset,0⟩] := by rw [← cleared,qemuIssued,succeeded]
  unfold runTest
  dsimp only
  cases known : testCmd name testcaseType timeout with
  | none => exact ⟨_,issued,by rw [nowFiles,files]; exact .unknownType known⟩
  | some cmd =>
    dsimp only
    rw [if_pos rfl,if_pos rfl]
    generalize saving : ({ (now out (executeCmdInQemu out site cmd (now out h₁).2).2).2 with files := _ } : Host ω) = h₂
    have save : Saved site name h.files h₂.files := by
      rw [← saving,← files]
      exact saveResultSaves _ _ _
    obtain ⟨did,later,copy⟩ := copyCoverageCopies out site name h₂
    refine ⟨_,?_,.ran known (executeCmdInQemu out site cmd (now out h₁).2).1.returncode save copy⟩
    have ran : h₂.issued = h₁.issued ++ [⟨site,.vm cmd,(executeCmdInQemu out site cmd (now out h₁).2).1.returncode⟩] := by
      rw [← saving]
      rfl
    rw [later,ran,issued,List.append_assoc,List.append_assoc]
    rfl

end Inversion

inductive Stepped (site : Site) (tc : Test) : Files → List Issued → Files → Prop where
  | skipped {fs : Files} {name : Str} (named : tc.getTestcaseName = .ok name)
      (skip : excluded name = true ∨ finished site name fs = true) : Stepped site tc fs [] fs
  | attempted {fs after : Files} {did : List Issued} {name suite : Str} (named : tc.getTestcaseName = .ok name)
      (inSuite : tc.getSuiteName = .ok suite) (unfinished : finished site name fs = false)
      (attempt : Attempted site name suite 600 fs did after) : Stepped site tc fs did after

inductive Series : List (Site × Test) → Files → List (List Issued) → Files → Prop where
  | none (fs : Files) : Series [] fs [] fs
  | next {site : Site} {tc : Test} {rest : List (Site × Test)} {fs middle after : Files} {did : List Issued}
      {later : List (List Issued)} (step : Stepped site tc fs did middle) (more : Series rest middle later after) :
      Series ((site,tc)::rest) fs (did::later) after

theorem reproduceSteps {site : Site} {tc : Test} {h next : Host ω} (done : reproduce out site tc h = .ok next) :
    ∃ did, next.issued = h.issued ++ did ∧ Stepped site tc h.files did next.files := by
  obtain ⟨name,named,done⟩ := Py.bindOk.mp done
  split at done
  · rename_i skip
    cases Except.ok.inj done
    exact ⟨[],by simp,.skipped named (Or.inl skip)⟩
  split at done
  · rename_i skip
    cases Except.ok.inj done
    exact ⟨[],by simp,.skipped named (Or.inr skip)⟩
  rename_i unfinished
  obtain ⟨suite,inSuite,done⟩ := Py.bindOk.mp done
  cases Except.ok.inj done
  obtain ⟨did,issued,attempt⟩ := executeTestcaseAttempts out site name suite 600 h
  exact ⟨did,issued,.attempted named inSuite (Bool.not_eq_true _ ▸ unfinished) attempt⟩

theorem reproduceAllSeries (out : Outside ω) (steps : List (Site × Test)) (h : Host ω) : ∃ begun later dids, steps = begun ++ later ∧
    (reproduceAll out steps h).1.issued = h.issued ++ dids.flatten ∧
    Series begun h.files dids (reproduceAll out steps h).1.files ∧
    ((reproduceAll out steps h).2 = none → later = []) := by
  induction steps generalizing h with
  | nil => exact ⟨[],[],[],rfl,by simp [reproduceAll],.none _,fun _ => rfl⟩
  | cons step rest ih =>
    obtain ⟨site,tc⟩ := step
    rw [reproduceAll]
    cases done : reproduce out site tc h with
    | error e => exact ⟨[],_,[],rfl,by simp,.none _,fun none => absurd none (by simp)⟩
    | ok next =>
      obtain ⟨did,issued,stepped⟩ := reproduceSteps done
      obtain ⟨begun,later,dids,rfl,whole,series,ends⟩ := ih next
      refine ⟨(site,tc)::begun,later,did::dids,rfl,?_,.next stepped series,ends⟩
      rw [whole,issued,List.flatten_cons,List.append_assoc]

section Grown
variable {site : Site} {name testcaseType : Str} {timeout : Nat} {fs after : Files} {did : List Issued}

theorem savedGrown (saved : Saved site name fs after) : Files.Grown fs after := by
  obtain ⟨text,rfl | rfl⟩ := saved
  · exact Files.putGrown fs _ _
  · exact Files.putGrown fs _ _

theorem copiedGrown (copied : Copied site name fs did after) : Files.Grown fs after := by
  cases copied with
  | kept => exact fun _ there => there
  | notCollected => exact fun _ there => there
  | notCopied _ _ left =>
    obtain rfl | ⟨text,rfl⟩ := left
    · exact fun _ there => there
    · exact Files.putGrown fs _ _
  | copied _ text => exact Files.putGrown fs _ _

theorem attemptedGrown (attempt : Attempted site name testcaseType timeout fs did after) : Files.Grown fs after := by
  cases attempt with
  | notReset => exact fun _ there => there
  | unknownType => exact fun _ there => there
  | ran _ _ save copy => exact Files.grownTrans (savedGrown save) (copiedGrown copy)

theorem steppedGrown {tc : Test} (step : Stepped site tc fs did after) : Files.Grown fs after := by
  cases step with
  | skipped => exact fun _ there => there
  | attempted _ _ _ attempt => exact attemptedGrown attempt

theorem seriesGrown {steps : List (Site × Test)} {dids : List (List Issued)} (series : Series steps fs dids after) :
    Files.Grown fs after := by
  induction series with
  | none => exact fun _ there => there
  | next step _ ih => exact Files.grownTrans (steppedGrown step) ih

theorem finishedGrown (grown : Files.Grown fs after) (done : finished site name fs = true) :
    finished site name after = true := by
  unfold finished at done ⊢
  rw [Bool.and_eq_true,Bool.or_eq_true] at done ⊢
  exact ⟨done.1.imp (grown _) (grown _),grown _ done.2⟩

end Grown

end KernelTcp.Repro

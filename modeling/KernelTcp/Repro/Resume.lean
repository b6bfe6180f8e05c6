import KernelTcp.Repro.Runs
import KernelTcp.Lib.Search

/-! Coverage archives belong to their own test, what is finished is never run again, and a run
in which nothing failed leaves nothing to do. -/
namespace KernelTcp.Repro
open Text CiObjects
variable {ω : Type} {out : Outside ω}

section Archives
variable {site : Site} {name : Str} {fs after : Files} {did : List Issued}

theorem archiveEnds (site : Site) (name : Str) : (archive site name).getLast? = some 'z' := by
  unfold archive archiveName
  rw [← List.append_assoc]
  exact List.getLast?_append_of_ne_nil _ (by simp)

theorem resultEnds (site : Site) (name : Str) : (resultFile site name).getLast? = some 't' :=
  List.getLast?_append_of_ne_nil _ (by simp)

theorem errEnds (site : Site) (name : Str) : (errFile site name).getLast? = some 'r' :=
  List.getLast?_append_of_ne_nil _ (by simp)

theorem putOther {path other : Str} {c d : Char} (ends : path.getLast? = some c) (otherEnds : other.getLast? = some d)
    (apart : c ≠ d) (entry : Entry) : (fs.put other entry) path = fs path := by
  refine if_neg ?_
  intro same
  rw [same,otherEnds] at ends
  exact apart (Option.some.inj ends).symm

theorem savedKeepsArchive (saved : Saved site name fs after) (s : Site) (n : Str) :
    after (archive s n) = fs (archive s n) := by
  obtain ⟨text,rfl | rfl⟩ := saved
  · exact putOther (archiveEnds s n) (resultEnds site name) (by decide) _
  · exact putOther (archiveEnds s n) (errEnds site name) (by decide) _

theorem putMissing {path other : Str} (missing : fs.has other = false) (there : fs.has path = true) (entry : Entry) :
    (fs.put other entry) path = fs path := by
  refine if_neg ?_
  intro same
  rw [same,missing] at there
  contradiction

theorem copiedKeeps (copied : Copied site name fs did after) {path : Str} (there : fs.has path = true) :
    after path = fs path := by
  cases copied with
  | kept => rfl
  | notCollected => rfl
  | notCopied missing _ left =>
    obtain rfl | ⟨text,rfl⟩ := left
    · rfl
    · exact putMissing missing there _
  | copied missing text => exact putMissing missing there _

theorem steppedKeepsArchive {tc : Test} (step : Stepped site tc fs did after) {s : Site} {n : Str}
    (there : fs.has (archive s n) = true) : after (archive s n) = fs (archive s n) := by
  cases step with
  | skipped => rfl
  | attempted _ _ _ attempt =>
    cases attempt with
    | notReset => rfl
    | unknownType => rfl
    | ran _ _ save copy =>
      rw [copiedKeeps copy (savedGrown save _ there),savedKeepsArchive save]

theorem seriesKeepsArchive {steps : List (Site × Test)} {dids : List (List Issued)} (series : Series steps fs dids after)
    {s : Site} {n : Str} (there : fs.has (archive s n) = true) : after (archive s n) = fs (archive s n) := by
  induction series with
  | none => rfl
  | next step _ ih => rw [ih (steppedGrown step _ there),steppedKeepsArchive step there]

/- The commands right before a copy are a successful reset, the test and a successful packing. -/
structure OwnCoverage (site : Site) (tc : Test) (source target : Str) (before : List Issued) (name cmd : Str) : Prop where
  named : tc.getTestcaseName = .ok name
  command : ∃ suite, tc.getSuiteName = .ok suite ∧ testCmd name suite 600 = some cmd
  source : source = vmArchive name
  target : target = archive site name
  before : ∃ earlier code, before =
    earlier ++ [⟨site,.vm reset,0⟩,⟨site,.vm cmd,code⟩,⟨site,.vm (collectCmd name),0⟩]

theorem copiedFetch (copied : Copied site name fs did after) {s : Site} {source target : Str} {code : Int}
    {before later : List Issued} (here : did = before ++ ⟨s,.fetch source target,code⟩::later) :
    s = site ∧ source = vmArchive name ∧ target = archive site name ∧ before = [⟨site,.vm (collectCmd name),0⟩] := by
  -- the copy is the second of the commands, whichever of them follow
  have second : ∀ (c : Int) (tail : List Issued),
      (⟨site,.vm (collectCmd name),0⟩::⟨site,.fetch (vmArchive name) (archive site name),c⟩::tail) =
        before ++ ⟨s,.fetch source target,code⟩::later → (∀ e ∈ tail, ∃ cmd, e.command = .vm cmd) →
      s = site ∧ source = vmArchive name ∧ target = archive site name ∧ before = [⟨site,.vm (collectCmd name),0⟩] := by
    intro c tail whole inVm
    match before with
    | [] => simp at whole
    | [e] =>
      simp only [List.cons_append,List.nil_append,List.cons.injEq,Issued.mk.injEq,Command.fetch.injEq] at whole
      obtain ⟨rfl,⟨rfl,⟨rfl,rfl⟩,_⟩,_⟩ := whole
      exact ⟨rfl,rfl,rfl,rfl⟩
    | e::f::rest =>
      simp only [List.cons_append,List.cons.injEq] at whole
      obtain ⟨cmd,vm⟩ := inVm ⟨s,.fetch source target,code⟩ (by rw [whole.2.2]; simp)
      simp at vm
  cases copied with
  | kept => simp at here
  | notCollected =>
    match before with
    | [] => simp at here
    | e::rest => simp at here
  | notCopied => exact second _ [] here (by simp)
  | copied => exact second _ _ here (by simp)

theorem steppedFetch {tc : Test} (step : Stepped site tc fs did after) {s : Site} {source target : Str} {code : Int}
    {before later : List Issued} (here : did = before ++ ⟨s,.fetch source target,code⟩::later) :
    s = site ∧ ∃ name cmd, OwnCoverage site tc source target before name cmd := by
  cases step with
  | skipped => simp at here
  | attempted named inSuite unfinished attempt =>
    cases attempt with
    | notReset =>
      match before with
      | [] => simp at here
      | e::rest => simp at here
    | unknownType =>
      match before with
      | [] => simp at here
      | e::rest => simp at here
    | ran known ran save copy =>
      match before with
      | [] => simp at here
      | [e] => simp at here
      | e::f::rest =>
        simp only [List.cons_append,List.cons.injEq] at here
        obtain ⟨rfl,rfl,here⟩ := here
        obtain ⟨same,rfl,rfl,rfl⟩ := copiedFetch copy here
        exact ⟨same,_,_,⟨named,⟨_,inSuite,known⟩,rfl,rfl,[],ran,rfl⟩⟩

theorem seriesStep {steps : List (Site × Test)} {dids : List (List Issued)} (series : Series steps fs dids after)
    (listed : did ∈ dids) : ∃ site tc before after, (site,tc) ∈ steps ∧ Stepped site tc before did after := by
  induction series with
  | none => simp at listed
  | next step _ ih =>
    cases List.mem_cons.mp listed with
    | inl same => exact ⟨_,_,_,_,List.mem_cons_self,same ▸ step⟩
    | inr later =>
      obtain ⟨site,tc,before,after,member,step⟩ := ih later
      exact ⟨site,tc,before,after,List.mem_cons_of_mem _ member,step⟩

end Archives

/-- Whatever the commands answer, in every series of test cases: an archive is copied only right
after its own test was run, with the counters reset right before the test and packed right after
it, and an archive that is there is never written again. -/
theorem archivesOwnCoverage (out : Outside ω) (steps : List (Site × Test)) (h : Host ω) :
    ∃ did, (reproduceAll out steps h).1.issued = h.issued ++ did ∧
      (∀ before site source target code later, did = before ++ ⟨site,.fetch source target,code⟩::later →
        ∃ tc name cmd, (site,tc) ∈ steps ∧ OwnCoverage site tc source target before name cmd) ∧
      ∀ site name, h.files.has (archive site name) = true →
        (reproduceAll out steps h).1.files (archive site name) = h.files (archive site name) := by
  obtain ⟨begun,rest,dids,rfl,issued,series,_⟩ := reproduceAllSeries out steps h
  refine ⟨dids.flatten,issued,?_,fun site name there => seriesKeepsArchive series there⟩
  intro before site source target code later whole
  obtain ⟨earlier,u,v,more,rfl,front,_⟩ := Groups.groupOf whole
  obtain ⟨s,tc,_,_,member,step⟩ := seriesStep series (List.mem_append_right earlier List.mem_cons_self)
  obtain ⟨rfl,name,cmd,own⟩ := steppedFetch step rfl
  refine ⟨tc,name,cmd,List.mem_append_left _ member,own.named,own.command,own.source,own.target,?_⟩
  obtain ⟨start,ran,rfl⟩ := own.before
  exact ⟨earlier.flatten ++ start,ran,by rw [← front,List.append_assoc]⟩

section Commands
variable {site : Site} {name : Str} {fs after : Files} {did : List Issued}

theorem testCmdKinds {suite cmd : Str} {timeout : Nat} (known : testCmd name suite timeout = some cmd) :
    cmd = ltpCmd name timeout ∨ cmd = selftestCmd name timeout := by
  unfold testCmd at known
  split at known
  · exact Or.inl (Option.some.inj known).symm
  split at known
  · exact Or.inr (Option.some.inj known).symm
  · contradiction

theorem ltpStarts (name : Str) (timeout : Nat) : startsWith (ltpCmd name timeout) "cd /root/l".toList = true := rfl

theorem selftestStarts (name : Str) (timeout : Nat) : startsWith (selftestCmd name timeout) "cd /root/s".toList = true := rfl

theorem ltpNotSelftest (a b : Str) (timeout : Nat) : ltpCmd a timeout ≠ selftestCmd b timeout := by
  intro same
  have other := startsApart (b := "cd /root/l".toList) (by decide) (selftestStarts b timeout)
  rw [← same,ltpStarts] at other
  contradiction

theorem testCmdOwn {a b suite other cmd : Str} {timeout : Nat} (first : testCmd a suite timeout = some cmd)
    (second : testCmd b other timeout = some cmd) : a = b := by
  cases testCmdKinds first with
  | inl here =>
    cases testCmdKinds second with
    | inl there => exact List.append_cancel_left (here.symm.trans there)
    | inr there => exact absurd (here.symm.trans there) (ltpNotSelftest a b timeout)
  | inr here =>
    cases testCmdKinds second with
    | inl there => exact absurd (there.symm.trans here) (ltpNotSelftest b a timeout)
    | inr there => exact List.append_cancel_left (here.symm.trans there)

theorem testCmdApart {suite cmd around : Str} {timeout : Nat} (known : testCmd name suite timeout = some cmd)
    (starts : startsWith around "lcov".toList = true ∨ startsWith around "cd /root ".toList = true) : around ≠ cmd := by
  intro same
  have test : startsWith around "cd /root/".toList = true := by
    rw [same]
    obtain rfl | rfl := testCmdKinds known
    · rfl
    · rfl
  cases starts with
  | inl lcov => exact absurd test (Bool.eq_false_iff.mp (startsApart (by decide) lcov))
  | inr root => exact absurd test (Bool.eq_false_iff.mp (startsApart (by decide) root))

def RunsUnfinished (site : Site) (fs : Files) (e : Issued) : Prop := e.site = site ∧
  ∀ name suite cmd, testCmd name suite 600 = some cmd → e.command = .vm cmd → finished site name fs = false

theorem aroundRuns {text : Str} {code : Int}
    (starts : startsWith text "lcov".toList = true ∨ startsWith text "cd /root ".toList = true) :
    RunsUnfinished site fs ⟨site,.vm text,code⟩ := by
  refine ⟨rfl,?_⟩
  intro name suite cmd known runs
  exact absurd (Command.vm.inj runs) (testCmdApart known starts)

theorem copyRuns {source target : Str} {code : Int} : RunsUnfinished site fs ⟨site,.fetch source target,code⟩ :=
  ⟨rfl,fun _ _ _ _ runs => absurd runs (by simp)⟩

theorem copiedRuns {saved : Files} (copied : Copied site name saved did after) : ∀ e ∈ did, RunsUnfinished site fs e := by
  have packs : startsWith (collectCmd name) "cd /root ".toList = true := rfl
  have removes : startsWith (removeCmd name) "cd /root ".toList = true := rfl
  cases copied with
  | kept => simp
  | notCollected => simpa using aroundRuns (Or.inr packs)
  | notCopied => simpa using ⟨aroundRuns (Or.inr packs),copyRuns⟩
  | copied => simpa using ⟨aroundRuns (Or.inr packs),copyRuns,aroundRuns (Or.inr removes)⟩

theorem steppedTest {tc : Test} (step : Stepped site tc fs did after) : ∀ e ∈ did, RunsUnfinished site fs e := by
  have clears : startsWith reset "lcov".toList = true := rfl
  cases step with
  | skipped => simp
  | attempted _ _ unfinished attempt =>
    cases attempt with
    | notReset => simpa using aroundRuns (Or.inl clears)
    | unknownType => simpa using aroundRuns (Or.inl clears)
    | ran known code _ copy =>
      refine List.forall_mem_cons.mpr ⟨aroundRuns (Or.inl clears),List.forall_mem_cons.mpr ⟨⟨rfl,?_⟩,copiedRuns copy⟩⟩
      intro name suite cmd here runs
      cases Command.vm.inj runs
      rw [testCmdOwn here known]
      exact unfinished

theorem seriesTest {steps : List (Site × Test)} {dids : List (List Issued)} (series : Series steps fs dids after)
    (done : finished site name fs = true) {e : Issued} (listed : e ∈ dids.flatten) (here : e.site = site) {suite cmd : Str}
    (known : testCmd name suite 600 = some cmd) : e.command ≠ .vm cmd := by
  induction series with
  | none => simp at listed
  | next step _ ih =>
    rcases List.mem_append.mp listed with now | later
    · obtain ⟨same,runs⟩ := steppedTest step e now
      intro command
      have unfinished := runs name suite cmd known command
      rw [← same,here,done] at unfinished
      contradiction
    · exact ih (finishedGrown (steppedGrown step) done) later

end Commands

/-- A test with a saved output and an archive stays finished, and its command is never given
again for this kernel version, in any series of test cases and whatever the commands answer. -/
theorem finishedNotRepeated (out : Outside ω) (steps : List (Site × Test)) (h : Host ω) (site : Site) (name : Str)
    (done : finished site name h.files = true) :
    finished site name (reproduceAll out steps h).1.files = true ∧
    ∃ did, (reproduceAll out steps h).1.issued = h.issued ++ did ∧
      ∀ e ∈ did, e.site = site → ∀ suite cmd, testCmd name suite 600 = some cmd → e.command ≠ .vm cmd := by
  obtain ⟨begun,rest,dids,rfl,issued,series,_⟩ := reproduceAllSeries out steps h
  refine ⟨finishedGrown (seriesGrown series) done,dids.flatten,issued,?_⟩
  intro e listed here suite cmd known
  exact seriesTest series done listed here known

def answering : Outside Unit where
  inVm _ _ := (⟨0,[],[]⟩,())
  fetch _ _ _ := (⟨0,[],[]⟩,some "packed".toList,())
  fetched _ _ _ _ := rfl
  onHost _ _ _ fs := (⟨0,[],[]⟩,fs,())
  now _ := (0,())

def someSite : Site := ⟨"/h/repro_linuxs/1f".toList,"/h/repro_results/1f".toList⟩

def failedTest (filePath : String) : Test :=
  ⟨⟨[],some "fail".toList,[],filePath.toList,none⟩,some filePath.toList,.failure⟩

def twoFailed : List (Site × Test) :=
  [(someSite,failedTest "test_cases/ltp/kernel/a.c"),(someSite,failedTest "test_cases/selftests/exec/b.c")]

def emptyHost : Host Unit := ⟨(),fun _ => none,[]⟩

def firstDone : Host Unit :=
  ⟨(),(Files.put (fun _ => none) (errFile someSite "a".toList) (.file [])).put (archive someSite "a".toList) (.file []),[]⟩

theorem firstNotRepeated : finished someSite "a".toList firstDone.files = true ∧
    finished someSite "a".toList (reproduceAll answering twoFailed firstDone).1.files = true :=
  have done : finished someSite "a".toList firstDone.files = true := by decide
  ⟨done,(finishedNotRepeated answering twoFailed firstDone someSite "a".toList done).1⟩

section Clean
variable {site : Site} {name : Str} {fs after : Files} {did : List Issued}

/- The commands an archive depends on. The test itself may fail. -/
def Needed (c : Command) : Prop := c = .vm reset ∨ (∃ name, c = .vm (collectCmd name)) ∨ ∃ source target, c = .fetch source target

def Clean (did : List Issued) : Prop := ∀ e ∈ did, Needed e.command → e.returncode = 0

theorem copiedFinishes (copied : Copied site name fs did after) (clean : Clean did) : after.has (archive site name) = true := by
  cases copied with
  | kept there => exact there
  | notCollected _ failed => exact absurd (clean _ (List.mem_singleton_self _) (Or.inr (Or.inl ⟨name,rfl⟩))) failed
  | notCopied _ failed =>
    exact absurd (clean _ (List.mem_cons_of_mem _ (List.mem_singleton_self _)) (Or.inr (Or.inr ⟨_,_,rfl⟩))) failed
  | copied => exact Files.hasPut fs _ _

theorem savedFinishes (saved : Saved site name fs after) :
    (after.has (resultFile site name) || after.has (errFile site name)) = true := by
  rw [Bool.or_eq_true]
  obtain ⟨text,rfl | rfl⟩ := saved
  · exact Or.inl (Files.hasPut fs _ _)
  · exact Or.inr (Files.hasPut fs _ _)

theorem attemptedFinishes {suite cmd : Str} (attempt : Attempted site name suite 600 fs did after)
    (known : testCmd name suite 600 = some cmd) (clean : Clean did) : finished site name after = true := by
  cases attempt with
  | notReset failed => exact absurd (clean _ (List.mem_singleton_self _) (Or.inl rfl)) failed
  | unknownType unknown =>
    rw [unknown] at known
    contradiction
  | ran _ _ save copy =>
    have copied : Clean _ := fun e listed => clean e (List.mem_cons_of_mem _ (List.mem_cons_of_mem _ listed))
    have grown := copiedGrown copy
    have saved := savedFinishes save
    unfold finished
    rw [Bool.or_eq_true] at saved
    rw [Bool.and_eq_true,Bool.or_eq_true]
    exact ⟨saved.imp (grown _) (grown _),copiedFinishes copy copied⟩

def InSuite (tc : Test) : Prop := ∃ path, tc.filePath = some path ∧ Test.suiteOf path ≠ "unknown".toList

def Passed (site : Site) (tc : Test) (fs : Files) : Prop :=
  ∃ name, tc.getTestcaseName = .ok name ∧ (excluded name = true ∨ finished site name fs = true)

theorem passedGrown {tc : Test} (grown : Files.Grown fs after) (passed : Passed site tc fs) : Passed site tc after := by
  obtain ⟨name,named,skip⟩ := passed
  exact ⟨name,named,skip.imp id (finishedGrown grown)⟩

theorem inSuiteCommand {tc : Test} {suite : Str} (known : InSuite tc) (inSuite : tc.getSuiteName = .ok suite) (name : Str) :
    ∃ cmd, testCmd name suite 600 = some cmd := by
  obtain ⟨path,here,other⟩ := known
  have same : Test.suiteOf path = suite := by
    rw [Test.getSuiteName,here] at inSuite
    exact Except.ok.inj inSuite
  subst same
  unfold Test.suiteOf at other ⊢
  split
  · exact ⟨_,if_pos rfl⟩
  split
  · exact ⟨selftestCmd name 600,(if_neg (by decide)).trans (if_pos rfl)⟩
  · rename_i notLtp notSelftest
    rw [if_neg notLtp,if_neg notSelftest] at other
    exact absurd rfl other

theorem steppedPasses {tc : Test} (step : Stepped site tc fs did after) (known : InSuite tc) (clean : Clean did) :
    Passed site tc after := by
  cases step with
  | skipped named skip => exact ⟨_,named,skip⟩
  | attempted named inSuite _ attempt =>
    obtain ⟨cmd,command⟩ := inSuiteCommand known inSuite _
    exact ⟨_,named,Or.inr (attemptedFinishes attempt command clean)⟩

theorem seriesPasses {steps : List (Site × Test)} {dids : List (List Issued)} (series : Series steps fs dids after)
    (known : ∀ e ∈ steps, InSuite e.2) (clean : Clean dids.flatten) : ∀ e ∈ steps, Passed e.1 e.2 after := by
  induction series with
  | none => simp
  | next step more ih =>
    rw [List.forall_mem_cons] at known ⊢
    rw [List.flatten_cons] at clean
    have now := steppedPasses step known.1 (fun e listed => clean e (List.mem_append_left _ listed))
    exact ⟨passedGrown (seriesGrown more) now,ih known.2 (fun e listed => clean e (List.mem_append_right _ listed))⟩

theorem passedAll (out : Outside ω) {steps : List (Site × Test)} {h : Host ω} (passed : ∀ e ∈ steps, Passed e.1 e.2 h.files) :
    reproduceAll out steps h = (h,none) := by
  induction steps with
  | nil => rfl
  | cons e rest ih =>
    rw [List.forall_mem_cons] at passed
    obtain ⟨name,named,skip⟩ := passed.1
    have here : reproduce out e.1 e.2 h = .ok h := by
      refine Py.bindOk.mpr ⟨name,named,?_⟩
      split
      · rfl
      · rename_i kept
        rw [if_pos (skip.resolve_left kept)]
    rw [reproduceAll,here]
    exact ih passed.2

theorem inSuiteGoes (out : Outside ω) (site : Site) {tc : Test} (known : InSuite tc) (h : Host ω) : ∃ next, reproduce out site tc h = .ok next := by
  obtain ⟨path,here,_⟩ := known
  have named : ∃ name, tc.getTestcaseName = .ok name := by
    unfold Test.getTestcaseName
    rw [here]
    exact ⟨_,rfl⟩
  have inSuite : tc.getSuiteName = .ok (Test.suiteOf path) := by
    rw [Test.getSuiteName,here]
    rfl
  obtain ⟨name,named⟩ := named
  unfold reproduce
  rw [named,inSuite]
  simp only [bind,Except.bind]
  split
  · exact ⟨_,rfl⟩
  split
  · exact ⟨_,rfl⟩
  · exact ⟨_,rfl⟩

theorem reproduceAllGoes {steps : List (Site × Test)} (known : ∀ e ∈ steps, InSuite e.2) (h : Host ω) :
    (reproduceAll out steps h).2 = none := by
  induction steps generalizing h with
  | nil => rfl
  | cons e rest ih =>
    rw [List.forall_mem_cons] at known
    obtain ⟨next,here⟩ := inSuiteGoes out e.1 known.1 h
    rw [reproduceAll,here]
    exact ih known.2 next

end Clean

/-- When every reset, packing and copy of a run succeeded, whatever the tests themselves returned,
a second run over the same test cases gives no command and changes nothing, on any machine. -/
theorem cleanRunFinal (out again : Outside ω) (steps : List (Site × Test)) (h : Host ω) (did : List Issued)
    (known : ∀ e ∈ steps, InSuite e.2) (whole : (reproduceAll out steps h).1.issued = h.issued ++ did) (clean : Clean did) :
    reproduceAll again steps (reproduceAll out steps h).1 = ((reproduceAll out steps h).1,none) := by
  obtain ⟨begun,rest,dids,split,issued,series,ends⟩ := reproduceAllSeries out steps h
  cases ends (reproduceAllGoes known h)
  rw [List.append_nil] at split
  subst split
  have same : did = dids.flatten := List.append_cancel_left (whole.symm.trans issued)
  exact passedAll again (seriesPasses series known (same ▸ clean))

theorem twoFailedFinal : (reproduceAll answering twoFailed emptyHost).1.issued.length = 10 ∧
    reproduceAll answering twoFailed (reproduceAll answering twoFailed emptyHost).1 =
      ((reproduceAll answering twoFailed emptyHost).1,none) := by
  refine ⟨by decide,cleanRunFinal answering answering twoFailed emptyHost _ ?_ (List.nil_append _).symm ?_⟩
  · intro e listed
    simp only [twoFailed,List.mem_cons,List.not_mem_nil,or_false] at listed
    obtain rfl | rfl := listed
    · exact ⟨_,rfl,by decide⟩
    · exact ⟨_,rfl,by decide⟩
  · have codes : ∀ e ∈ (reproduceAll answering twoFailed emptyHost).1.issued, e.returncode = 0 := by decide
    exact fun e listed _ => codes e listed

end KernelTcp.Repro

import KernelTcp.Repro.Machine
import KernelTcp.Repro.Config

/-! Building the kernel and the two test suites before any test is run. A build is skipped when
what it produces is there already. -/
namespace KernelTcp.Repro
open Text
variable {ω : Type}

section Checked
variable (out : Outside ω) (site : Site)

def runChecked : List (Str × Str) → Host ω → Bool × Host ω
  | [], h => (true,h)
  | (cmd,cwd)::rest, h =>
    let (res,h) := runCommand out site cmd cwd h
    if res.returncode ≠ 0 then (false,h) else runChecked rest h

def hostIssued (code : Int) (step : Str × Str) : Issued := ⟨site,.host step.1 step.2,code⟩

end Checked

section Builds
variable (out : Outside ω)

/- A test suite: the paths by which its build is recognised, and the commands that make it. The
paths come into being with one of the commands, before the suite is compiled. -/
structure SuiteBuild where
  paths : List Str
  before : List (Str × Str)
  marks : Str × Str
  after : List (Str × Str)

def SuiteBuild.prepare (b : SuiteBuild) (site : Site) (h : Host ω) : Bool × Host ω :=
  if b.paths.all h.files.has then (true,h) else runChecked out site (b.before ++ b.marks::b.after) h

def selftestBuild (site : Site) : Str := site.workLinuxDir ++ "/selftest_build".toList

def selftests (site : Site) : SuiteBuild where
  paths := [selftestBuild site]
  before := []
  marks := ("mkdir selftest_build".toList,site.workLinuxDir)
  after := [("make headers".toList,site.workLinuxDir),
    ("make -C tools/testing/selftests install INSTALL_PATH=".toList ++ selftestBuild site,site.workLinuxDir)]

def prepareSelftestBinary : Option Site → Host ω → Bool × Host ω
  | none, h => (false,h)
  | some site, h => (selftests site).prepare out site h

def workLtpDir (homeDir gitSha : Str) : Str := homeDir ++ "/repro_ltps/".toList ++ gitSha

def ltpBuild (homeDir gitSha : Str) : Str := workLtpDir homeDir gitSha ++ "/build".toList

def ltp (homeDir ltpDir gitSha : Str) : SuiteBuild where
  paths := [workLtpDir homeDir gitSha,ltpBuild homeDir gitSha]
  before := [("cp -r ".toList ++ ltpDir ++ " ".toList ++ workLtpDir homeDir gitSha,homeDir),
    ("git clean -df".toList,workLtpDir homeDir gitSha)]
  marks := ("make autotools && mkdir build && ./configure --prefix=".toList ++ ltpBuild homeDir gitSha,workLtpDir homeDir gitSha)
  after := [("make -k -j\x60nproc\x60 && make -k install".toList,workLtpDir homeDir gitSha)]

def prepareLtpBinary (site : Site) (homeDir ltpDir gitSha : Str) (h : Host ω) : Bool × Host ω :=
  (ltp homeDir ltpDir gitSha).prepare out site h

def siteOf (homeDir gitSha : Str) : Site :=
  ⟨homeDir ++ "/repro_linuxs/".toList ++ gitSha,homeDir ++ "/repro_results/".toList ++ gitSha⟩

def imagePath (site : Site) : Str := site.workLinuxDir ++ "/arch/x86/boot/bzImage".toList

def tempConfigPath (site : Site) : Str := site.workLinuxDir ++ "/kernel/configs/temp.config".toList

def withResultDir (site : Site) (fs : Files) : Files := if fs.has site.resultDir then fs else fs.put site.resultDir .directory

def removeTree (dir : Str) (fs : Files) : Files := fun path => if path = dir ∨ startsWith path (dir ++ "/".toList) then none else fs path

def checkoutSteps (site : Site) (homeDir baseLinuxDir gitSha : Str) : List (Str × Str) :=
  [("cp -r ".toList ++ baseLinuxDir ++ " ".toList ++ site.workLinuxDir,homeDir),
    ("git checkout ".toList ++ gitSha,site.workLinuxDir),("git clean -df".toList,site.workLinuxDir)]

def configSteps (site : Site) (baseConfig : Str) : List (Str × Str) :=
  [("make ".toList ++ baseConfig,site.workLinuxDir),("make kvm_guest.config".toList,site.workLinuxDir)]

def imageSteps (site : Site) : List (Str × Str) :=
  [("make temp.config".toList,site.workLinuxDir),("make -j\x60nproc\x60".toList,site.workLinuxDir)]

def mrproper (site : Site) : Str × Str := ("make mrproper".toList,site.workLinuxDir)

def removeGit (site : Site) : Str × Str := ("rm -rf .git".toList,site.workLinuxDir)

def keygen (vmPort homeDir : Str) : Str × Str := ("ssh-keygen -R [localhost]:".toList ++ vmPort,homeDir)

def makeImage (site : Site) (extraConfig : Str) (h : Host ω) : Bool × Host ω :=
  let h := { h with files := h.files.put (tempConfigPath site) (.file (tempConfig extraConfig)) }
  let (done,h) := runChecked out site (imageSteps site) h
  if !done then (false,h)
  else if !h.files.has (imagePath site) then (false,h)
  else (true,(runCommand out site (removeGit site).1 (removeGit site).2 h).2)

-- the command object itself is tested after `make mrproper`, and that is never false
def configureImage (site : Site) (baseConfig extraConfig : Str) (h : Host ω) : Bool × Host ω :=
  let (_,h) := runCommand out site (mrproper site).1 (mrproper site).2 h
  let (done,h) := runChecked out site (configSteps site baseConfig) h
  if !done then (false,h) else makeImage out site extraConfig h

def buildImage (site : Site) (homeDir baseLinuxDir gitSha baseConfig extraConfig : Str) (h : Host ω) : Bool × Host ω :=
  let (done,h) := runChecked out site (checkoutSteps site homeDir baseLinuxDir gitSha) h
  if !done then (false,h) else configureImage out site baseConfig extraConfig h

def prepareLinuxImage (homeDir vmPort baseLinuxDir gitSha baseConfig extraConfig : Str) (renew : Bool) (h : Host ω) : Bool × Host ω :=
  let site := siteOf homeDir gitSha
  let h := { h with files := withResultDir site h.files }
  let (_,h) := runCommand out site (keygen vmPort homeDir).1 (keygen vmPort homeDir).2 h
  if h.files.has (imagePath site) then
    if !renew then (true,h)
    else buildImage out site homeDir baseLinuxDir gitSha baseConfig extraConfig
      { h with files := removeTree site.workLinuxDir h.files }
  else buildImage out site homeDir baseLinuxDir gitSha baseConfig extraConfig h

end Builds

section Marks
variable {out : Outside ω} {site : Site}

def Leaves (out : Outside ω) (step : Str × Str) (path : Str) : Prop :=
  ∀ w fs, (out.onHost step.1 step.2 w fs).1.returncode = 0 → (out.onHost step.1 step.2 w fs).2.1.has path = true

def Keeps (out : Outside ω) (step : Str × Str) (path : Str) : Prop :=
  ∀ w fs, Files.has fs path = true → (out.onHost step.1 step.2 w fs).2.1.has path = true

@[simp] theorem commandIssued (out : Outside ω) (site : Site) (cmd cwd : Str) (h : Host ω) : (runCommand out site cmd cwd h).2.issued =
    h.issued ++ [hostIssued site (runCommand out site cmd cwd h).1.returncode (cmd,cwd)] := rfl

theorem runCheckedKeeps {steps : List (Str × Str)} {path : Str} (keeps : ∀ step ∈ steps, Keeps out step path) {h : Host ω}
    (there : h.files.has path = true) : (runChecked out site steps h).2.files.has path = true := by
  induction steps generalizing h with
  | nil => exact there
  | cons step rest ih =>
    rw [List.forall_mem_cons] at keeps
    have now : (runCommand out site step.1 step.2 h).2.files.has path = true := keeps.1 h.world h.files there
    unfold runChecked
    dsimp only
    split
    · exact now
    · exact ih keeps.2 now

theorem runCheckedIssued (out : Outside ω) (site : Site) (steps : List (Str × Str)) (h : Host ω) :
    (runChecked out site steps h).1 = true ∧
      (runChecked out site steps h).2.issued = h.issued ++ steps.map (hostIssued site 0) ∨
    (runChecked out site steps h).1 = false ∧ ∃ before step after code, steps = before ++ step::after ∧ code ≠ 0 ∧
      (runChecked out site steps h).2.issued = h.issued ++ (before.map (hostIssued site 0) ++ [hostIssued site code step]) := by
  induction steps generalizing h with
  | nil => exact Or.inl ⟨rfl,by simp [runChecked]⟩
  | cons step rest ih =>
    unfold runChecked
    dsimp only
    split
    · rename_i failed
      exact Or.inr ⟨rfl,[],step,rest,_,rfl,failed,rfl⟩
    · rename_i succeeded
      have succeeded := not_not.mp succeeded
      have issued : (runCommand out site step.1 step.2 h).2.issued = h.issued ++ [hostIssued site 0 step] := by
        rw [commandIssued,succeeded]
      cases ih (runCommand out site step.1 step.2 h).2 with
      | inl done =>
        refine Or.inl ⟨done.1,?_⟩
        rw [done.2,issued,List.append_assoc]
        rfl
      | inr stopped =>
        obtain ⟨result,before,last,after,code,rfl,failed,whole⟩ := stopped
        refine Or.inr ⟨result,step::before,last,after,code,rfl,failed,?_⟩
        rw [whole,issued,List.append_assoc]
        rfl

theorem runCheckedMarks {before after : List (Str × Str)} {step : Str × Str} {path : Str} (leaves : Leaves out step path)
    (keeps : ∀ later ∈ after, Keeps out later path) (first : step ∉ before) {h : Host ω} {did : List Issued}
    (whole : (runChecked out site (before ++ step::after) h).2.issued = h.issued ++ did) (marked : hostIssued site 0 step ∈ did) :
    (runChecked out site (before ++ step::after) h).2.files.has path = true := by
  induction before generalizing h did with
  | nil =>
    have there := leaves h.world h.files
    rw [List.nil_append] at whole ⊢
    unfold runChecked at whole ⊢
    dsimp only at whole ⊢
    split at whole
    · rename_i failed
      have single := List.append_cancel_left whole
      rw [← single] at marked
      exact absurd (congrArg Issued.returncode (List.mem_singleton.mp marked)).symm failed
    · rename_i succeeded
      rw [if_neg succeeded]
      exact runCheckedKeeps keeps (there (not_not.mp succeeded))
  | cons other before ih =>
    rw [List.mem_cons,not_or] at first
    rw [List.cons_append] at whole ⊢
    unfold runChecked at whole ⊢
    dsimp only at whole ⊢
    split at whole
    · rename_i failed
      have single := List.append_cancel_left whole
      rw [← single] at marked
      exact absurd (congrArg Issued.returncode (List.mem_singleton.mp marked)).symm failed
    · rename_i succeeded
      rw [if_neg succeeded]
      have succeeded := not_not.mp succeeded
      have issued : (runCommand out site other.1 other.2 h).2.issued = h.issued ++ [hostIssued site 0 other] := by
        rw [commandIssued,succeeded]
      obtain ⟨rest,same⟩ : ∃ rest, did = hostIssued site 0 other::rest := by
        cases runCheckedIssued out site (before ++ step::after) (runCommand out site other.1 other.2 h).2 with
        | inl done =>
          rw [done.2,issued,List.append_assoc] at whole
          exact ⟨_,(List.append_cancel_left whole).symm⟩
        | inr stopped =>
          obtain ⟨_,_,_,_,_,_,_,issues⟩ := stopped
          rw [issues,issued,List.append_assoc] at whole
          exact ⟨_,(List.append_cancel_left whole).symm⟩
      rw [same] at marked whole
      refine @ih first.2 _ rest ?_ ?_
      · rw [whole,issued,List.append_assoc]
        rfl
      · cases List.mem_cons.mp marked with
        | inl same =>
          have commands := congrArg Issued.command same
          obtain ⟨cmd,cwd⟩ := Command.host.inj commands
          exact absurd (Prod.ext cmd cwd) first.1
        | inr later => exact later

end Marks

theorem ltpMarksFirst (homeDir ltpDir gitSha : Str) : (ltp homeDir ltpDir gitSha).marks ∉ (ltp homeDir ltpDir gitSha).before := by
  have apart : ∀ {c d : Char} {s t : Str}, c ≠ d → c::s ≠ d::t := fun other same => other (List.cons.inj same).1
  have copies : (ltp homeDir ltpDir gitSha).marks.1 ≠ "cp -r ".toList ++ ltpDir ++ " ".toList ++ workLtpDir homeDir gitSha := by
    rw [List.append_assoc,List.append_assoc]
    exact apart (by decide)
  have cleans : (ltp homeDir ltpDir gitSha).marks.1 ≠ "git clean -df".toList := apart (by decide)
  intro listed
  cases List.mem_cons.mp listed with
  | inl same => exact copies (congrArg Prod.fst same)
  | inr same => exact cleans (congrArg Prod.fst (List.mem_singleton.mp same))

/-- A suite is taken for built from the moment its directory is made: once that command succeeded,
every later preparation, on any machine, returns true and runs nothing, also when the compilation
after it failed and its own preparation returned false, as long as the compilation does not remove
the directory. -/
theorem halfBuiltTaken (out again : Outside ω) (site other : Site) (homeDir ltpDir gitSha : Str) (b : SuiteBuild)
    (suite : b = selftests site ∨ b = ltp homeDir ltpDir gitSha) (leaves : ∀ path ∈ b.paths, Leaves out b.marks path)
    (keeps : ∀ path ∈ b.paths, ∀ step ∈ b.after, Keeps out step path) (h : Host ω) (did : List Issued)
    (whole : (b.prepare out site h).2.issued = h.issued ++ did) (marked : hostIssued site 0 b.marks ∈ did) :
    b.prepare again other (b.prepare out site h).2 = (true,(b.prepare out site h).2) := by
  have first : b.marks ∉ b.before := by
    obtain rfl | rfl := suite
    · exact List.not_mem_nil
    · exact ltpMarksFirst homeDir ltpDir gitSha
  have there : b.paths.all (b.prepare out site h).2.files.has = true := by
    unfold SuiteBuild.prepare at whole ⊢
    split
    · assumption
    · rename_i missing
      rw [if_neg missing] at whole
      rw [List.all_eq_true]
      intro path listed
      exact runCheckedMarks (leaves path listed) (keeps path listed) first whole marked
  exact if_pos there

def failing : Outside Unit where
  inVm _ _ := (⟨0,[],[]⟩,())
  fetch _ _ _ := (⟨0,[],[]⟩,some [],())
  fetched _ _ _ _ := rfl
  onHost cmd cwd _ fs :=
    if cmd = "mkdir selftest_build".toList then (⟨0,[],[]⟩,fs.put (cwd ++ "/selftest_build".toList) .directory,())
    else (⟨2,[],[]⟩,fs,())
  now _ := (0,())

def kernelSite : Site := ⟨"/k".toList,"/r".toList⟩

theorem failedSelftestsTaken : ((selftests kernelSite).prepare failing kernelSite ⟨(),fun _ => none,[]⟩).1 = false ∧
    (selftests kernelSite).prepare failing kernelSite ((selftests kernelSite).prepare failing kernelSite ⟨(),fun _ => none,[]⟩).2 =
      (true,((selftests kernelSite).prepare failing kernelSite ⟨(),fun _ => none,[]⟩).2) := by
  have other : ∀ step ∈ (selftests kernelSite).after, step.1 ≠ "mkdir selftest_build".toList := by decide
  refine ⟨by decide,halfBuiltTaken failing failing kernelSite kernelSite [] [] [] _ (Or.inl rfl) ?_ ?_ _ _ (List.nil_append _).symm (by decide)⟩
  · intro path listed w fs _
    rw [List.mem_singleton.mp listed]
    exact Files.hasPut fs _ _
  · intro path _ step listed w fs there
    unfold failing
    dsimp only
    rw [if_neg (other step listed)]
    exact there

section Image
variable {out : Outside ω} {site : Site}

def LastFailed (did : List Issued) : Prop := ∃ before e, did = before ++ [e] ∧ e.returncode ≠ 0

theorem lastFailedAppend {did : List Issued} (before : List Issued) (last : LastFailed did) : LastFailed (before ++ did) := by
  obtain ⟨earlier,e,rfl,failed⟩ := last
  exact ⟨before ++ earlier,e,by simp,failed⟩

/- How a part of the build ends: having run the commands `whole` allows, with the image there, or
with a command that failed, or without an image. -/
structure Ends (site : Site) (whole : List Issued → Prop) (h : Host ω) (r : Bool × Host ω) : Prop where
  issued : ∃ did, r.2.issued = h.issued ++ did ∧ (r.1 = true → whole did) ∧
    (r.1 = false → LastFailed did ∨ r.2.files.has (imagePath site) = false)
  image : r.1 = true → r.2.files.has (imagePath site) = true

theorem endsAfter {whole : List Issued → Prop} {h middle : Host ω} {r : Bool × Host ω} {did : List Issued}
    (begun : middle.issued = h.issued ++ did) (rest : Ends site whole middle r) :
    Ends site (fun all => ∃ later, all = did ++ later ∧ whole later) h r := by
  obtain ⟨⟨later,issued,complete,stopped⟩,image⟩ := rest
  refine ⟨⟨did ++ later,by rw [issued,begun,List.append_assoc],fun done => ⟨later,rfl,complete done⟩,?_⟩,image⟩
  intro failed
  exact (stopped failed).imp (lastFailedAppend did) id

theorem endsChecked (out : Outside ω) (steps : List (Str × Str)) {whole : List Issued → Prop} {h : Host ω} {rest : Host ω → Bool × Host ω}
    (next : ∀ middle, Ends site whole middle (rest middle)) :
    Ends site (fun all => ∃ later, all = steps.map (hostIssued site 0) ++ later ∧ whole later) h
      (if !(runChecked out site steps h).1 then (false,(runChecked out site steps h).2) else rest (runChecked out site steps h).2) := by
  cases runCheckedIssued out site steps h with
  | inl done =>
    rw [done.1]
    exact endsAfter done.2 (next _)
  | inr stopped =>
    obtain ⟨result,before,step,after,code,_,failed,issued⟩ := stopped
    rw [result]
    exact ⟨⟨_,issued,fun done => absurd done (by simp),fun _ => Or.inl ⟨_,_,rfl,failed⟩⟩,fun done => absurd done (by simp)⟩

def Made (site : Site) (all : List Issued) : Prop := ∃ later, all = (imageSteps site).map (hostIssued site 0) ++ later ∧
  ∃ code, later = [hostIssued site code (removeGit site)]

def Configured (site : Site) (baseConfig : Str) (all : List Issued) : Prop := ∃ code later, all = hostIssued site code (mrproper site)::later ∧
  ∃ last, later = (configSteps site baseConfig).map (hostIssued site 0) ++ last ∧ Made site last

def Built (site : Site) (homeDir baseLinuxDir gitSha baseConfig : Str) (all : List Issued) : Prop :=
  ∃ later, all = (checkoutSteps site homeDir baseLinuxDir gitSha).map (hostIssued site 0) ++ later ∧ Configured site baseConfig later

theorem makeImageEnds (kept : Keeps out (removeGit site) (imagePath site)) (extraConfig : Str) (h : Host ω) :
    Ends site (Made site) h (makeImage out site extraConfig h) := by
  have finish : ∀ middle : Host ω, Ends site (fun later => ∃ code, later = [hostIssued site code (removeGit site)]) middle
      (if !middle.files.has (imagePath site) then (false,middle)
        else (true,(runCommand out site (removeGit site).1 (removeGit site).2 middle).2)) := by
    intro middle
    cases there : middle.files.has (imagePath site) with
    | false => exact ⟨⟨[],by simp,fun done => absurd done (by simp),fun _ => Or.inr there⟩,fun done => absurd done (by simp)⟩
    | true =>
      refine ⟨⟨_,commandIssued _ _ _ _ middle,fun _ => ⟨_,rfl⟩,fun failed => absurd failed (by simp)⟩,fun _ => ?_⟩
      exact kept middle.world middle.files there
  have whole := endsChecked out (imageSteps site)
    (h := { h with files := h.files.put (tempConfigPath site) (.file (tempConfig extraConfig)) }) finish
  exact ⟨whole.issued,whole.image⟩

theorem configureImageEnds (kept : Keeps out (removeGit site) (imagePath site)) (baseConfig extraConfig : Str) (h : Host ω) :
    Ends site (Configured site baseConfig) h (configureImage out site baseConfig extraConfig h) := by
  have cleaned := commandIssued out site (mrproper site).1 (mrproper site).2 h
  have rest := endsAfter cleaned (endsChecked out (configSteps site baseConfig)
    (h := (runCommand out site (mrproper site).1 (mrproper site).2 h).2) (makeImageEnds kept extraConfig))
  obtain ⟨⟨did,issued,complete,stopped⟩,image⟩ := rest
  refine ⟨⟨did,issued,?_,stopped⟩,image⟩
  intro done
  obtain ⟨later,same,last⟩ := complete done
  exact ⟨_,later,same,last⟩

theorem buildImageEnds (kept : Keeps out (removeGit site) (imagePath site)) (homeDir baseLinuxDir gitSha baseConfig extraConfig : Str) (h : Host ω) :
    Ends site (Built site homeDir baseLinuxDir gitSha baseConfig) h
      (buildImage out site homeDir baseLinuxDir gitSha baseConfig extraConfig h) :=
  endsChecked _ _ (configureImageEnds kept baseConfig extraConfig)

def ImageReady (site : Site) (vmPort homeDir baseLinuxDir gitSha baseConfig : Str) (renew : Bool) (did : List Issued) : Prop :=
  ∃ code later, did = hostIssued site code (keygen vmPort homeDir)::later ∧
    (later = [] ∧ renew = false ∨ Built site homeDir baseLinuxDir gitSha baseConfig later)

end Image

/-- The preparation of the kernel ends in one of three ways. It returns true with the image there:
either it was there and nothing was built, or the sources were copied, checked out, cleaned,
configured and compiled, each of these commands with success, whatever `make mrproper` returned.
Or it returns false, after a command that failed or because no image came out. -/
theorem imagePrepared (out : Outside ω) (homeDir vmPort baseLinuxDir gitSha baseConfig extraConfig : Str) (renew : Bool) (h : Host ω)
    (kept : Keeps out (removeGit (siteOf homeDir gitSha)) (imagePath (siteOf homeDir gitSha))) :
    Ends (siteOf homeDir gitSha) (ImageReady (siteOf homeDir gitSha) vmPort homeDir baseLinuxDir gitSha baseConfig renew) h
      (prepareLinuxImage out homeDir vmPort baseLinuxDir gitSha baseConfig extraConfig renew h) := by
  unfold prepareLinuxImage
  dsimp only
  generalize siteOf homeDir gitSha = site at kept ⊢
  have begun := commandIssued out site (keygen vmPort homeDir).1 (keygen vmPort homeDir).2
    { h with files := withResultDir site h.files }
  have built : ∀ (code : Int) (middle : Host ω), middle.issued = h.issued ++ [hostIssued site code (keygen vmPort homeDir)] →
      Ends site (ImageReady site vmPort homeDir baseLinuxDir gitSha baseConfig renew) h
        (buildImage out site homeDir baseLinuxDir gitSha baseConfig extraConfig middle) := by
    intro code middle issued
    obtain ⟨⟨did,same,complete,stopped⟩,image⟩ := endsAfter issued (buildImageEnds kept homeDir baseLinuxDir gitSha baseConfig extraConfig middle)
    refine ⟨⟨did,same,?_,stopped⟩,image⟩
    intro done
    obtain ⟨later,rfl,last⟩ := complete done
    exact ⟨code,later,rfl,Or.inr last⟩
  split
  · rename_i there
    cases renew with
    | false =>
      exact ⟨⟨_,begun,fun _ => ⟨_,[],rfl,Or.inl ⟨rfl,rfl⟩⟩,fun failed => absurd failed (by simp)⟩,fun _ => there⟩
    | true => exact built _ _ begun
  · exact built _ _ begun

def building : Outside Unit where
  inVm _ _ := (⟨0,[],[]⟩,())
  fetch _ _ _ := (⟨0,[],[]⟩,some [],())
  fetched _ _ _ _ := rfl
  onHost cmd cwd _ fs :=
    if cmd = "make -j\x60nproc\x60".toList then (⟨0,[],[]⟩,fs.put (cwd ++ "/arch/x86/boot/bzImage".toList) (.file []),())
    else if cmd = "rm -rf .git".toList then (⟨0,[],[]⟩,removeTree (cwd ++ "/.git".toList) fs,())
    else (⟨0,[],[]⟩,fs,())
  now _ := (0,())

def bareHost : Host Unit := ⟨(),fun _ => none,[]⟩

theorem imageBuilt :
    let r := prepareLinuxImage building "/h".toList "8001".toList "/l".toList "1f".toList "defconfig".toList [] false bareHost
    r.1 = true ∧ r.2.issued.length = 10 ∧ Ends (siteOf "/h".toList "1f".toList)
      (ImageReady (siteOf "/h".toList "1f".toList) "8001".toList "/h".toList "/l".toList "1f".toList "defconfig".toList false) bareHost r := by
  have kept : Keeps building (removeGit (siteOf "/h".toList "1f".toList)) (imagePath (siteOf "/h".toList "1f".toList)) :=
    fun w fs there => there
  exact ⟨by decide,by decide,imagePrepared building "/h".toList "8001".toList "/l".toList "1f".toList "defconfig".toList [] false bareHost kept⟩

end KernelTcp.Repro

import KernelTcp.Repro.Machine
import KernelTcp.Lib.Timedelta
import KernelTcp.CiObjects

/-! Running one test case again: the counters of the kernel are reset, the test runs, its output
is saved, and the counters are packed in the virtual machine and copied to the host. Every step
that fails ends the attempt where it is. -/
namespace KernelTcp.Repro
open Text CiObjects

section Names
variable (site : Site) (name : Str)

def resultFile : Str := site.resultDir ++ "/".toList ++ name ++ ".result".toList
def errFile : Str := site.resultDir ++ "/".toList ++ name ++ ".err".toList
def archiveName : Str := name ++ "_coverage.tar.gz".toList
def archive : Str := site.workLinuxDir ++ "/".toList ++ archiveName name
def vmArchive : Str := "/root/".toList ++ archiveName name

def reset : Str := "lcov -z".toList
def collectCmd : Str := "cd /root && ./collect_coverage.sh ".toList ++ vmArchive name
def removeCmd : Str := "cd /root && rm -f ".toList ++ vmArchive name

def ltpCmd (timeout : Nat) : Str :=
  "cd /root/ltp_bin && LTP_TIMEOUT_MUL=5 KCONFIG_PATH=/root/config.gz timeout ".toList ++ Nat.toDigits 10 timeout ++
    "s ./runltp -s ".toList ++ name

def selftestCmd (timeout : Nat) : Str :=
  "cd /root/selftest_bin && timeout ".toList ++ Nat.toDigits 10 timeout ++ "s ./run_kselftest.sh -t ".toList ++ name

def testCmd (testcaseType : Str) (timeout : Nat) : Option Str :=
  if testcaseType = "ltp".toList then some (ltpCmd name timeout)
  else if testcaseType = "selftest".toList then some (selftestCmd name timeout)
  else none

end Names

section Attempt
variable {ω : Type} (out : Outside ω) (site : Site) (name : Str)

def costLine (costTime : Int) : Str := "\nTime cost: ".toList ++ Timedelta.text costTime ++ "s\n".toList

def saveResult (res : CompletedProcess) (costTime : Int) (fs : Files) : Files :=
  if res.returncode ≠ 0 then
    if res.returncode = 124 then fs.put (errFile site name) (.file (res.stdout ++ res.stderr ++ costLine costTime))
    else fs.put (resultFile site name) (.file (res.stdout ++ res.stderr ++ costLine costTime))
  else fs.put (resultFile site name) (.file (res.stdout ++ costLine costTime))

def copyCoverage (h : Host ω) : Host ω :=
  if h.files.has (archive site name) then h
  else
    let (res,h) := executeCmdInQemu out site (collectCmd name) h
    if res.returncode ≠ 0 then h
    else
      let (res,h) := fetch out site (vmArchive name) (archive site name) h
      if res.returncode ≠ 0 then h
      else (executeCmdInQemu out site (removeCmd name) h).2

def runTest (testcaseType : Str) (timeout : Nat) (save collectCoverage : Bool) (h : Host ω) : Host ω :=
  let (startTime,h) := now out h
  match testCmd name testcaseType timeout with
  | none => h
  | some cmd =>
    let (res,h) := executeCmdInQemu out site cmd h
    let (stopTime,h) := now out h
    let h := if save then { h with files := saveResult site name res (stopTime - startTime) h.files } else h
    if collectCoverage then copyCoverage out site name h else h

def executeTestcase (testcaseType : Str) (timeout : Nat) (save collectCoverage : Bool) (h : Host ω) : Host ω :=
  if collectCoverage then
    let (res,h) := executeCmdInQemu out site reset h
    if res.returncode ≠ 0 then h else runTest out site name testcaseType timeout save collectCoverage h
  else runTest out site name testcaseType timeout save collectCoverage h

end Attempt

section Loop
variable {ω : Type} (out : Outside ω)

def excluded (tcName : Str) : Bool := tcName = "filecapstest".toList ∨ tcName = "breakpoints:step_after_suspend_test".toList

def finished (site : Site) (tcName : Str) (fs : Files) : Bool :=
  (fs.has (resultFile site tcName) || fs.has (errFile site tcName)) && fs.has (archive site tcName)

def reproduce (site : Site) (tc : Test) (h : Host ω) : Except PyError (Host ω) := do
  let tcName ← tc.getTestcaseName
  if excluded tcName then .ok h
  else if finished site tcName h.files then .ok h
  else
    let suite ← tc.getSuiteName
    .ok (executeTestcase out site tcName suite 600 true true h)

/- A test case without a file ends the process; what has been written stays. -/
def reproduceAll : List (Site × Test) → Host ω → Host ω × Option PyError
  | [], h => (h,none)
  | (site,tc)::rest, h =>
    match reproduce out site tc h with
    | .ok next => reproduceAll rest next
    | .error e => (h,some e)

def reproduceBuild (site : Site) (b : Build) (h : Host ω) : Host ω × Option PyError :=
  let failedCases := b.getAllTestcases.filter Test.isFailed
  reproduceAll out (failedCases.map (fun tc => (site,tc))) h

end Loop

end KernelTcp.Repro

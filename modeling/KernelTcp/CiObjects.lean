import KernelTcp.Lib.Paths
import Mathlib.Data.List.Perm.Basic

/-! Checkouts, builds, test runs and test cases as the experiments hold them in memory.
Database rows carry only the columns that a modelled function reads; the commit time
is the number of microseconds of the DateTime column. -/
namespace KernelTcp.CiObjects
open Text

inductive TestCaseType where
  | unknown
  | c
  | sh
  | py
  deriving DecidableEq, Repr

/- The integer codes 0, 1, 2 and 3 of a test case. The code 10 is accepted by
`is_pass` and assigned nowhere. -/
inductive Status where
  | success
  | failure
  | regression
  | unknown
  | code10
  deriving DecidableEq, Repr

namespace Status

def isPass : Status → Bool
  | .success => true
  | .code10 => true
  | _ => false

def isUnknown (s : Status) : Bool := s == .unknown

def isFailed : Status → Bool
  | .failure => true
  | .regression => true
  | _ => false

def mergeStatus (self other : Status) : Status :=
  if self.isPass || other.isPass then .success
  else if self.isFailed || other.isFailed then .failure
  else .unknown

end Status

-- only rows with a file path are loaded
structure DBTest where
  id : Str
  status : Option Str
  path : Str
  filePath : Str
  tp : Option Int
  deriving DecidableEq, Repr

structure Test where
  dbInstance : DBTest
  filePath : Option Str
  status : Status
  deriving DecidableEq, Repr

-- only ASCII letters have a lower case among the letters of "pass" and "fail"
def lower (s : Str) : Str := s.map Char.toLower

def initStatus : Option Str → Except PyError Status
  | none => .error .attributeError
  | some s => .ok (
      if s = "Test executed successfully".toList ∨ lower s = "pass".toList then .success
      else if s = "Test execution failed".toList ∨ lower s = "fail".toList then .failure
      else if s = "Test execution regressed".toList then .regression
      else .unknown)

namespace Test

def isPass (t : Test) : Bool := t.status.isPass
def isUnknown (t : Test) : Bool := t.status.isUnknown
def isFailed (t : Test) : Bool := t.status.isFailed

def init (db : DBTest) : Except PyError Test := do
  let status ← initStatus db.status
  let t := Test.mk db (some db.filePath) status
  .ok (if t.isFailed ∧ db.tp = some 1 then { t with status := .success } else t)

def mergeStatus (self other : Test) : Test := { self with status := self.status.mergeStatus other.status }

def suiteOf (filePath : Str) : Str :=
  if startsWith filePath "test_cases/ltp".toList then "ltp".toList
  else if startsWith filePath "test_cases/selftests".toList then "selftest".toList
  else "unknown".toList

def getSuiteName (t : Test) : Except PyError Str := suiteOf <$> Py.raiseNone .attributeError t.filePath

def selftestName (filePath : Str) : Str :=
  let parentDirName := Paths.parentName filePath
  let tcName := parentDirName ++ ":".toList ++ Paths.stem filePath
  let tcName := if parentDirName = "x86".toList then tcName ++ "_64".toList else tcName
  let tcName :=
    if Paths.suffix filePath = ".sh".toList then tcName ++ ".sh".toList
    else if Paths.suffix filePath = ".py".toList then tcName ++ ".py".toList
    else tcName
  let tcName := if contains tcName "functional:futex".toList then "futex:run.sh".toList else tcName
  if tcName = "exec:load_address".toList then "exec:load_address_16777216".toList else tcName

def getTestcaseName (t : Test) : Except PyError Str := do
  let filePath ← Py.raiseNone .attributeError t.filePath
  .ok (if suiteOf filePath = "selftest".toList then selftestName filePath else Paths.stem filePath)

end Test

structure TestRun where
  tests : List Test
  deriving DecidableEq, Repr

def TestRun.getAllTestcases (r : TestRun) : List Test := r.tests

/- The `kconfig` column as a build holds it: text, a list of items, or NULL. -/
inductive Kconfig where
  | null
  | text (s : Str)
  | items (xs : List Str)
  deriving DecidableEq, Repr

structure DBBuild where
  kconfig : Kconfig
  buildName : Str
  deriving DecidableEq, Repr

structure Build where
  dbInstance : DBBuild
  testruns : List TestRun
  previousBuildNames : List Str
  buildName : Option Str
  deriving DecidableEq, Repr

namespace Build

def init (db : DBBuild) (testruns : List (List DBTest)) : Except PyError Build := do
  let runs ← testruns.mapM (fun tests => TestRun.mk <$> tests.mapM Test.init)
  .ok ⟨db,runs,[],none⟩

def label (b : Build) : Str :=
  match b.buildName with
  | some name => name
  | none => b.dbInstance.buildName

def getAllTestcases (b : Build) : List Test := b.testruns.flatMap TestRun.getAllTestcases

end Build

structure DBCheckout where
  gitSha : Str
  gitCommitDatetime : Int
  deriving DecidableEq, Repr

structure Checkout where
  dbInstance : DBCheckout
  builds : List Build
  deriving DecidableEq, Repr

namespace Checkout

def init (db : DBCheckout) (builds : List (DBBuild × List (List DBTest))) : Except PyError Checkout := do
  let builds ← builds.mapM (fun b => Build.init b.1 b.2)
  .ok ⟨db,builds⟩

def getAllTestcases (c : Checkout) : List Test := c.builds.flatMap Build.getAllTestcases

def getCaseByFilePath (c : Checkout) (filePath : Option Str) : Option Test :=
  c.getAllTestcases.find? (fun tc => tc.filePath = filePath)

def selectBuildByConfig (c : Checkout) (configName : Str) : Checkout :=
  { c with builds := c.builds.filter (fun b => b.label = configName) }

end Checkout

def getAllTestcases (ciObjs : List Checkout) : List Test := ciObjs.flatMap Checkout.getAllTestcases

def occurrences (p : Option Str) (ts : List Test) : List Test := ts.filter (fun t => t.filePath = p)

namespace Status

def verdict (ss : List Status) : Status :=
  if ss.any isPass then .success else if ss.any isFailed then .failure else .unknown

def combined : List Status → Option Status
  | [] => none
  | s::ss => some (ss.foldl mergeStatus s)

theorem exactlyOneClass (s : Status) :
    (s.isPass = true ∧ s.isFailed = false ∧ s.isUnknown = false) ∨
    (s.isPass = false ∧ s.isFailed = true ∧ s.isUnknown = false) ∨
    (s.isPass = false ∧ s.isFailed = false ∧ s.isUnknown = true) := by
  cases s <;> decide

theorem verdictPass (ss : List Status) : (verdict ss).isPass = ss.any isPass := by
  unfold verdict
  split
  · rename_i pass; rw [pass]; rfl
  · rename_i pass
    rw [Bool.not_eq_true] at pass
    rw [pass]
    split <;> rfl

theorem verdictFailed (ss : List Status) :
    (verdict ss).isFailed = (!ss.any isPass && ss.any isFailed) := by
  unfold verdict
  split
  · rename_i pass; rw [pass]; rfl
  · rename_i pass
    rw [Bool.not_eq_true] at pass
    rw [pass]
    split
    · rename_i failed; rw [failed]; rfl
    · rename_i failed; rw [Bool.not_eq_true] at failed; rw [failed]; rfl

theorem mergeVerdict (ss ts : List Status) :
    mergeStatus (verdict ss) (verdict ts) = verdict (ss++ts) := by
  simp only [mergeStatus,verdictPass,verdictFailed]
  unfold verdict
  rw [List.any_append,List.any_append]
  cases ss.any isPass <;> cases ts.any isPass <;> simp

theorem mergePair (s t : Status) : mergeStatus s t = verdict [s,t] := by
  cases s <;> cases t <;> rfl

theorem mergeInto (ss : List Status) (t : Status) : mergeStatus (verdict ss) t = verdict (ss++[t]) := by
  have single : ∀ u v : Status, mergeStatus u v = mergeStatus u (verdict [v]) := by
    intro u v; cases u <;> cases v <;> rfl
  rw [single,mergeVerdict]

theorem foldVerdict (ss ts : List Status) : ts.foldl mergeStatus (verdict ss) = verdict (ss++ts) := by
  induction ts generalizing ss with
  | nil => simp
  | cons t ts ih =>
    rw [List.foldl_cons,mergeInto,ih]
    simp

theorem combinedVerdict (s t : Status) (ss : List Status) : combined (s::t::ss) = some (verdict (s::t::ss)) := by
  have fold := foldVerdict [s,t] ss
  rw [← mergePair] at fold
  exact congrArg some fold

theorem combinedLong {ss : List Status} (long : 2 ≤ ss.length) : combined ss = some (verdict ss) := by
  match ss, long with
  | s::t::ss, _ => exact combinedVerdict s t ss

theorem combinedClass {ss : List Status} {s : Status} (h : combined ss = some s) :
    s.isPass = ss.any isPass ∧ s.isFailed = (!ss.any isPass && ss.any isFailed) := by
  cases ss with
  | nil => simp [combined] at h
  | cons a rest =>
    cases rest with
    | nil =>
      cases Option.some.inj h
      rcases exactlyOneClass a with c | c | c <;> simp [c.1,c.2.1]
    | cons b rest =>
      rw [combinedVerdict] at h
      cases Option.some.inj h
      exact ⟨verdictPass _,verdictFailed _⟩

theorem verdictPerm {ss ts : List Status} (same : ss.Perm ts) : verdict ss = verdict ts := by
  simp only [verdict,same.any_eq]

theorem combinedPerm {ss ts : List Status} (same : ss.Perm ts) : combined ss = combined ts := by
  cases ss with
  | nil => rw [List.nil_perm.mp same]
  | cons a rest =>
    cases rest with
    | nil => rw [List.singleton_perm.mp same]
    | cons b rest =>
      match ts, same with
      | [], same => exact absurd same.length_eq (by simp)
      | [_], same => exact absurd same.length_eq (by simp)
      | c::d::ts, same => rw [combinedVerdict,combinedVerdict,verdictPerm same]

theorem verdictSelf (ss : List Status) : verdict [verdict ss] = verdict ss := by
  unfold verdict
  split
  · rfl
  · split <;> rfl

theorem verdictCombined (ss : List Status) : verdict (combined ss).toList = verdict ss := by
  match ss with
  | [] => rfl
  | [_] => rfl
  | a::b::rest =>
    rw [combinedVerdict]
    exact verdictSelf _

theorem verdictGroups (groups : List (List Status)) :
    verdict (groups.flatMap (fun g => (combined g).toList)) = verdict groups.flatten := by
  induction groups with
  | nil => rfl
  | cons g groups ih =>
    rw [List.flatMap_cons,List.flatten_cons,← mergeVerdict,← mergeVerdict,ih,verdictCombined]

theorem combinedEmpty {ss : List Status} : combined ss = none ↔ ss = [] := by
  cases ss <;> simp [combined]

theorem combinedGroups (groups : List (List Status)) :
    combined (groups.flatMap (fun g => (combined g).toList)) = combined groups.flatten := by
  induction groups with
  | nil => rfl
  | cons g groups ih =>
    match g with
    | [] => simpa [combined] using ih
    | a::rest =>
      by_cases tail : groups.flatten = []
      · have empty : groups.flatMap (fun g => (combined g).toList) = [] := by
          rw [tail] at ih
          exact combinedEmpty.mp ih
        rw [List.flatMap_cons,empty,List.flatten_cons,tail,List.append_nil,List.append_nil]
        match rest with
        | [] => rfl
        | b::rest => rw [combinedVerdict]; rfl
      · -- two statuses at least on either side, so both are the verdict of all classes
        have others : groups.flatMap (fun g => (combined g).toList) ≠ [] := by
          intro empty
          rw [empty] at ih
          exact tail (combinedEmpty.mp ih.symm)
        have left : 2 ≤ (((a::rest)::groups).flatMap (fun g => (combined g).toList)).length := by
          have more := List.length_pos_iff.mpr others
          rw [List.flatMap_cons,List.length_append]
          change 2 ≤ 1 + _
          omega
        have right : 2 ≤ ((a::rest)::groups).flatten.length := by
          have more := List.length_pos_iff.mpr tail
          rw [List.flatten_cons,List.length_append,List.length_cons]
          omega
        rw [combinedLong left,combinedLong right,verdictGroups]

end Status
end KernelTcp.CiObjects

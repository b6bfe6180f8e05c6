import KernelTcp.Lib.Cache
import KernelTcp.Lib.Text

/-! The path of a test's file, found by its name and remembered for all threads of an analysis. The
memory, the number of its updates and the file it is saved to are the globals of the module. -/
namespace KernelTcp.Mapping
open Text Cache

abbrev Config := Dict Str (Dict Str Str)

def updateCache (s : Shared Str Str) (k v : Str) : Shared Str Str :=
  let mappingCache := s.cache.set k v
  let updatedNumber := s.updated + 1
  { s with cache := mappingCache, updated := updatedNumber, file := if updatedNumber % 100 = 0 then .whole mappingCache else s.file }

-- the first group whose name occurs in the test's name decides, also when none of its keys occurs
def hasMapping (mappingConfig : Config) (s : Shared Str Str) (testName : Str) : Option Str × Shared Str Str :=
  match s.cache.get? testName with
  | some v => (some v,s)
  | none => match mappingConfig.entries.find? (fun g => contains testName g.1) with
    | none => (none,s)
    | some g => match g.2.entries.find? (fun e => contains testName e.1) with
      | none => (none,s)
      | some e => (some e.2,updateCache s testName e.2)

def mapped (mappingConfig : Config) (testName : Str) : Option Str := do
  let g ← mappingConfig.entries.find? (fun g => contains testName g.1)
  let e ← g.2.entries.find? (fun e => contains testName e.1)
  some e.2

theorem hasMappingAsks (mappingConfig : Config) : hasMapping mappingConfig = ask (mapped mappingConfig) 100 := by
  funext s testName
  unfold hasMapping ask mapped
  cases s.cache.get? testName with
  | some v => rfl
  | none =>
    cases mappingConfig.entries.find? (fun g => contains testName g.1) with
    | none => rfl
    | some g =>
      dsimp only [bind,Option.bind]
      cases g.2.entries.find? (fun e => contains testName e.1) with
      | none => rfl
      | some e => rfl

def twoKeys : Config := Dict.empty.set "ltp".toList ((Dict.empty.set "open01".toList "ltp/open01.c".toList).set "fork0".toList "ltp/fork.c".toList)

def forkSaved : Dict Str Str := Dict.empty.set "ltp-fork02".toList "ltp/fork.c".toList

theorem forkSavedAgrees : ∀ d, some forkSaved = some d → Coherent (mapped twoKeys) d := by
  intro d same
  cases Option.some.inj same
  exact coherentSet coherentEmpty (by decide)

def bothMiss : List (Event Str) :=
  [.ask 0 "ltp-open01".toList,.ask 1 "ltp-open01".toList] ++ (List.replicate 5 [.turn 0,.turn 1]).flatten ++
  [.ask 1 "ltp-open01".toList,.ask 0 "ltp-fork02".toList] ++ (List.replicate 2 [.turn 1,.turn 0]).flatten

end KernelTcp.Mapping

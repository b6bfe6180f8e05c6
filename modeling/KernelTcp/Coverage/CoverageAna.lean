import KernelTcp.Lib.Dict
import KernelTcp.Lib.Sets
import KernelTcp.Lib.Text
import Mathlib.Data.List.Perm.Subperm

/-! Line coverage by test case and source file, read from lcov texts. The lists that
stand for sets are read by their members only. -/
namespace KernelTcp.Coverage
open Text

abbrev FileLines := Dict Str (List Int)
abbrev CoverageInfo := Dict Str FileLines

structure Reading where
  filePath : Option Str
  tcName : Option Str
  covMap : FileLines

def Reading.start : Reading := ⟨none,none,Dict.empty⟩

def readName (line : Str) (s : Reading) : Except PyError Reading :=
  if startsWith line "TN".toList = true ∧ s.tcName = none then do
    let name ← Py.getItem (splitOn ":".toList line) 1
    .ok { s with tcName := some name }
  else .ok s

def readSource (kernelVersion line : Str) (s : Reading) : Except PyError Reading :=
  if startsWith line "SF".toList then do
    let path ← Py.getItem (splitOn ":".toList line) 1
    let parts ← splitOnChecked kernelVersion path
    let path ← Py.getItem parts 1
    let path := removePrefix path "/".toList
    .ok { s with filePath := some path, covMap := s.covMap.set path [] }
  else .ok s

def readData (line : Str) (s : Reading) : Except PyError Reading :=
  if startsWith line "DA".toList then do
    let temp ← Py.getItem (splitOn ":".toList line) 1
    let temp := splitOn ",".toList temp
    let count ← Py.getItem temp 1
    let count ← int count
    if 0 < count then do
      let path ← Py.raiseNone .keyError s.filePath
      let lines ← Py.raiseNone .keyError (s.covMap.get? path)
      let number ← Py.getItem temp 0
      let number ← int number
      .ok { s with covMap := s.covMap.set path (lines ++ [number]) }
    else .ok s
  else .ok s

def readLine (kernelVersion : Str) (s : Reading) (line : Str) : Except PyError Reading := do
  let s ← readName line s
  let s ← readSource kernelVersion line s
  let s ← readData line s
  .ok (if line = "end_of_record".toList then { s with filePath := none } else s)

/- Nothing is returned when the name read so far is already there. -/
def readLines (kernelVersion : Str) (names : List Str) : Reading → List Str → Except PyError (Option Reading)
  | s, [] => .ok (some s)
  | s, line::rest =>
      if s.tcName.any (fun name => name ∈ names) then .ok none
      else do
        let s ← readLine kernelVersion s line
        readLines kernelVersion names s rest

def unknown (idx : Nat) : Str := "unknown_".toList ++ Nat.toDigits 10 idx

def unknownFrom (names : List Str) : Nat → Nat → Option Str
  | 0, _ => none
  | fuel+1, idx => if unknown idx ∈ names then unknownFrom names fuel (idx+1) else some (unknown idx)

theorem unknownDistinct {a b : Nat} (same : unknown a = unknown b) : a = b := by
  have digits := List.append_cancel_left same
  rw [← Nat.ofDigitChars_toDigits (b := 10) (n := a) (by omega) (by omega),digits]
  exact Nat.ofDigitChars_toDigits (by omega) (by omega)

theorem unknownTaken {names : List Str} {fuel idx : Nat} (none : unknownFrom names fuel idx = none) :
    ∀ n < fuel, unknown (idx+n) ∈ names := by
  induction fuel generalizing idx with
  | zero => simp
  | succ fuel ih =>
    rw [unknownFrom] at none
    split at none
    · rename_i taken
      intro n hn
      cases n with
      | zero => exact taken
      | succ n =>
        have later := ih none n (by omega)
        rwa [show idx + 1 + n = idx + (n + 1) by omega] at later
    · contradiction

theorem unknownFound (names : List Str) : (unknownFrom names (names.length+1) 0).isSome = true := by
  cases found : unknownFrom names (names.length+1) 0 with
  | some name => rfl
  | none =>
    have taken := unknownTaken found
    have distinct : ((List.range (names.length+1)).map unknown).Nodup :=
      List.nodup_range.map (fun _ _ same => unknownDistinct same)
    have inside : (List.range (names.length+1)).map unknown ⊆ names := by
      intro name mem
      obtain ⟨n,hn,rfl⟩ := List.mem_map.mp mem
      simpa using taken n (List.mem_range.mp hn)
    have longer := (List.subperm_of_subset distinct inside).length_le
    rw [List.length_map,List.length_range] at longer
    omega

def unknownName (names : List Str) : Str := (unknownFrom names (names.length+1) 0).get (unknownFound names)

theorem unknownNew {names : List Str} {fuel idx : Nat} {name : Str} (found : unknownFrom names fuel idx = some name) :
    name ∉ names := by
  induction fuel generalizing idx with
  | zero => contradiction
  | succ fuel ih =>
    rw [unknownFrom] at found
    split at found
    · exact ih found
    · rename_i free
      rw [← Option.some.inj found]
      exact free

def storedName (names : List Str) : Option Str → Str
  | none => unknownName names
  | some name => if name.isEmpty then unknownName names else name

theorem storedNew {names : List Str} {tcName : Option Str} (new : ∀ name ∈ tcName, name ∉ names) :
    storedName names tcName ∉ names := by
  have unnamed : unknownName names ∉ names := unknownNew (Option.some_get (unknownFound names)).symm
  cases tcName with
  | none => exact unnamed
  | some name =>
    simp only [storedName]
    split
    · exact unnamed
    · exact new name rfl

def extract (kernelVersion : Str) (info : CoverageInfo) (raw : Str) : Except PyError CoverageInfo := do
  match ← readLines kernelVersion info.keys Reading.start (lines raw) with
  | none => .ok info
  | some s => .ok (info.set (storedName info.keys s.tcName) s.covMap)

def setOf (xs : List Int) : List Int := Sets.union [] xs
def intersection (xs ys : List Int) : List Int := (setOf xs).filter (fun n => n ∈ ys)
def difference (xs ys : List Int) : List Int := (setOf xs).filter (fun n => n ∉ ys)

def narrowFile (common : FileLines) (e : Str × List Int) : FileLines :=
  match common.get? e.1 with
  | none => common
  | some lines => common.set e.1 (intersection lines e.2)

def narrow (common v : FileLines) : FileLines := v.entries.foldl narrowFile common

def firstCoverage (info : CoverageInfo) : FileLines :=
  match info.values with
  | [] => Dict.empty
  | v::_ => v

def commonCoverage (info : CoverageInfo) : FileLines := info.values.foldl narrow (firstCoverage info)

-- files without common lines are not looked at again
def withoutCommon (common v : FileLines) : FileLines :=
  v.mapValues (fun filePath lines => match common.get? filePath with
    | none => lines
    | some [] => lines
    | some shared => difference lines shared)

def removeCommonCoverage (info : CoverageInfo) : CoverageInfo :=
  info.mapValues (fun _ v => withoutCommon (commonCoverage info) v)

def Covered (v : FileLines) (f : Str) (n : Int) : Prop := ∃ lines, v.get? f = some lines ∧ n ∈ lines

def Shared (es : List (Str × FileLines)) (f : Str) (n : Int) : Prop :=
  ∀ e ∈ es, ∀ lines, e.2.get? f = some lines → n ∈ lines

/- Only files the first test mentions are looked at. -/
def Common (es : List (Str × FileLines)) (f : Str) (n : Int) : Prop :=
  (∃ e ∈ es.head?, f ∈ e.2.keys) ∧ Shared es f n

theorem memIntersection {xs ys : List Int} {n : Int} : n ∈ intersection xs ys ↔ n ∈ xs ∧ n ∈ ys := by
  unfold intersection setOf
  rw [List.mem_filter,Sets.memUnion]
  simp

theorem memDifference {xs ys : List Int} {n : Int} : n ∈ difference xs ys ↔ n ∈ xs ∧ n ∉ ys := by
  unfold difference setOf
  rw [List.mem_filter,Sets.memUnion]
  simp

theorem narrowFileCovered {common : FileLines} {e : Str × List Int} {f : Str} {n : Int} :
    Covered (narrowFile common e) f n ↔ Covered common f n ∧ (e.1 = f → n ∈ e.2) := by
  unfold Covered narrowFile
  by_cases here : e.1 = f
  · subst here
    cases found : common.get? e.1 with
    | none => simp [found]
    | some lines => simp [memIntersection]
  · cases found : common.get? e.1 with
    | none => simp [here]
    | some lines => simp [here,Dict.getSetOther _ _ here]

theorem narrowCovered {common v : FileLines} {f : Str} {n : Int} :
    Covered (narrow common v) f n ↔ Covered common f n ∧ ∀ lines, v.get? f = some lines → n ∈ lines := by
  unfold narrow
  rw [Py.foldlBoth (fun c => Covered c f n) (fun e => e.1 = f → n ∈ e.2) (fun _ _ => narrowFileCovered)]
  constructor
  · intro ⟨covered,all⟩
    exact ⟨covered,fun lines found => all (f,lines) (Dict.getEntry.mp found) rfl⟩
  · intro ⟨covered,all⟩
    refine ⟨covered,?_⟩
    intro e mem here
    subst here
    exact all e.2 (Dict.getEntry.mpr mem)

theorem commonCovered (info : CoverageInfo) (f : Str) (n : Int) :
    Covered (commonCoverage info) f n ↔ Common info.entries f n := by
  unfold commonCoverage
  rw [Py.foldlBoth (fun c => Covered c f n) (fun v => ∀ lines, v.get? f = some lines → n ∈ lines)
    (fun _ _ => narrowCovered)]
  unfold firstCoverage Common Shared Dict.values
  cases info.entries with
  | nil => simp [Covered]
  | cons e es =>
    simp only [List.map_cons,List.head?_cons,Option.mem_def,Option.some.injEq,exists_eq_left',List.forall_mem_cons,
      List.forall_mem_map]
    constructor
    · intro h
      obtain ⟨⟨lines,found,_⟩,all⟩ := h
      exact ⟨Dict.memKeys.mpr ⟨lines,found⟩,all⟩
    · intro h
      obtain ⟨mentioned,all⟩ := h
      obtain ⟨lines,found⟩ := Dict.memKeys.mp mentioned
      exact ⟨⟨lines,found,all.1 lines found⟩,all⟩

theorem withoutCovered {common v : FileLines} {f : Str} {n : Int} :
    Covered (withoutCommon common v) f n ↔ Covered v f n ∧ ¬ Covered common f n := by
  unfold Covered withoutCommon
  rw [Dict.getMapValues]
  cases v.get? f with
  | none => simp
  | some lines =>
    cases common.get? f with
    | none => simp
    | some shared =>
      cases shared with
      | nil => simp
      | cons m shared => simp [memDifference]

theorem keysWithout (common v : FileLines) : (withoutCommon common v).keys = v.keys := Dict.keysMapValues _ v

theorem removeEntries (info : CoverageInfo) : (removeCommonCoverage info).entries =
    info.entries.map (fun e => (e.1,withoutCommon (commonCoverage info) e.2)) := rfl

def Covers (info : CoverageInfo) (t f : Str) (n : Int) : Prop := ∃ v, info.get? t = some v ∧ Covered v f n

theorem removeCovers {info : CoverageInfo} {t f : Str} {n : Int} :
    Covers (removeCommonCoverage info) t f n ↔ Covers info t f n ∧ ¬ Common info.entries f n := by
  unfold Covers removeCommonCoverage
  rw [Dict.getMapValues,← commonCovered]
  cases info.get? t with
  | none => simp
  | some v => simp [withoutCovered]

theorem coversEntry {info : CoverageInfo} {t f : Str} {n : Int} :
    Covers info t f n ↔ ∃ e ∈ info.entries, e.1 = t ∧ Covered e.2 f n := by
  unfold Covers
  constructor
  · intro h
    obtain ⟨v,found,covered⟩ := h
    exact ⟨(t,v),Dict.getEntry.mp found,rfl,covered⟩
  · intro h
    obtain ⟨e,mem,rfl,covered⟩ := h
    exact ⟨e.2,Dict.getEntry.mpr mem,covered⟩

theorem commonEverywhere {info : CoverageInfo} {t f : Str} {n : Int} (covers : Covers info t f n)
    (mentioned : Common info.entries f n → ∀ e ∈ info.entries, f ∈ e.2.keys) :
    Common info.entries f n ↔ ∀ u ∈ info.keys, Covers info u f n := by
  constructor
  · intro common u known
    obtain ⟨v,found⟩ := Dict.memKeys.mp known
    obtain ⟨lines,inside⟩ := Dict.memKeys.mp (mentioned common (u,v) (Dict.getEntry.mp found))
    exact ⟨v,found,lines,inside,common.2 (u,v) (Dict.getEntry.mp found) lines inside⟩
  · intro every
    have each : ∀ e ∈ info.entries, Covered e.2 f n := by
      intro e mem
      obtain ⟨v,found,covered⟩ := every e.1 (Dict.memKeys.mpr ⟨e.2,Dict.getEntry.mpr mem⟩)
      cases Option.some.inj (found.symm.trans (Dict.getEntry.mpr mem))
      exact covered
    refine ⟨?_,?_⟩
    · obtain ⟨e,mem,_⟩ := coversEntry.mp covers
      obtain ⟨first,rest,whole⟩ := List.exists_cons_of_ne_nil (List.ne_nil_of_mem mem)
      obtain ⟨lines,found,_⟩ := each first (by rw [whole]; simp)
      exact ⟨first,by rw [whole]; rfl,Dict.memKeys.mpr ⟨lines,found⟩⟩
    · intro e mem lines found
      obtain ⟨_,same,inside⟩ := each e mem
      rwa [Option.some.inj (found.symm.trans same)]

/-- A pair is removed exactly when every test covers it, if and only if no file with a common
line is left out by some test. -/
theorem removedWhenCoveredByAll (info : CoverageInfo) :
    (∀ t f n, Covers (removeCommonCoverage info) t f n ↔ Covers info t f n ∧ ∃ u ∈ info.keys, ¬ Covers info u f n)
      ↔ ∀ f n, Common info.entries f n → ∀ e ∈ info.entries, f ∈ e.2.keys := by
  constructor
  · intro exact f n common e mem
    by_contra unmentioned
    obtain ⟨⟨first,head,mentions⟩,shared⟩ := common
    have listed := List.mem_of_mem_head? head
    obtain ⟨lines,found⟩ := Dict.memKeys.mp mentions
    have covers : Covers info first.1 f n := coversEntry.mpr ⟨first,listed,rfl,lines,found,shared first listed lines found⟩
    have missing : ¬ Covers info e.1 f n := by
      intro also
      obtain ⟨v,same,lines,found,_⟩ := also
      cases Option.some.inj (same.symm.trans (Dict.getEntry.mpr mem))
      exact unmentioned (Dict.memKeys.mpr ⟨lines,found⟩)
    have kept := (exact first.1 f n).mpr ⟨covers,e.1,Dict.memKeys.mpr ⟨e.2,Dict.getEntry.mpr mem⟩,missing⟩
    exact (removeCovers.mp kept).2 ⟨⟨first,head,mentions⟩,shared⟩
  · intro mentioned t f n
    rw [removeCovers]
    refine and_congr_right ?_
    intro covers
    rw [commonEverywhere covers (mentioned f n)]
    simp only [not_forall,exists_prop]

def twoFiles : CoverageInfo := (Dict.empty.set "a".toList (Dict.empty.set "x.c".toList [1])).set
  "b".toList (Dict.empty.set "y.c".toList [2])

theorem uncoveredLineRemoved : Covers twoFiles "a".toList "x.c".toList 1 ∧ ¬ Covers twoFiles "b".toList "x.c".toList 1
    ∧ ¬ Covers (removeCommonCoverage twoFiles) "a".toList "x.c".toList 1 := by
  refine ⟨⟨_,rfl,[1],rfl,by simp⟩,?_,?_⟩
  · intro covers
    obtain ⟨v,test,lines,file,_⟩ := covers
    cases Option.some.inj test
    contradiction
  · intro covers
    obtain ⟨v,test,lines,file,mem⟩ := covers
    cases Option.some.inj test
    cases Option.some.inj file
    exact absurd mem (by decide)

structure Loaded where
  coverageInfo : CoverageInfo
  cache : Option CoverageInfo

def loadCoverage4Checkout (kernelVersion : Str) (cache : Option CoverageInfo) (infoFiles : List Str) :
    Except PyError Loaded := do
  let previous := cache.getD Dict.empty
  let info ← infoFiles.foldlM (extract kernelVersion) previous
  if 0 < (info.keys.length : Int) - previous.keys.length then
    let info := removeCommonCoverage info
    .ok ⟨info,some info⟩
  else .ok ⟨info,cache⟩

end KernelTcp.Coverage

import KernelTcp.Lib.Text

/-! The numbering of changed lines in `get_diff_blocks`. The delta is what `ndiff` yields:
lines of the old file, of the new one, of both, and hint lines that belong to neither. -/
namespace KernelTcp.Git
open Text

inductive DeltaLine where
  | removed (text : Str)
  | added (text : Str)
  | common (text : Str)
  | hint (text : Str)
  deriving DecidableEq, Repr

namespace DeltaLine

def line : DeltaLine → Str
  | removed text => "- ".toList ++ text
  | added text => "+ ".toList ++ text
  | common text => "  ".toList ++ text
  | hint text => "? ".toList ++ text

def old : DeltaLine → Option Str
  | removed text => some text
  | common text => some text
  | _ => none

def new : DeltaLine → Option Str
  | added text => some text
  | common text => some text
  | _ => none

def isHint : DeltaLine → Bool
  | hint _ => true
  | _ => false

def isChange : DeltaLine → Bool
  | removed _ => true
  | added _ => true
  | _ => false

end DeltaLine

structure Entry where
  original : Nat
  modified : Nat
  line : Str
  deriving DecidableEq, Repr

structure Numbering where
  originalLineNumber : Nat
  modifiedLineNumber : Nat
  temp : List Entry
  deriving DecidableEq, Repr

-- whatever is neither removed nor added advances both counters
def countLine (s : Numbering) (line : Str) : Numbering :=
  if startsWith line "-".toList then
    ⟨s.originalLineNumber+1,s.modifiedLineNumber,s.temp ++ [⟨s.originalLineNumber+1,s.modifiedLineNumber,line⟩]⟩
  else if startsWith line "+".toList then
    ⟨s.originalLineNumber,s.modifiedLineNumber+1,s.temp ++ [⟨s.originalLineNumber,s.modifiedLineNumber+1,line⟩]⟩
  else ⟨s.originalLineNumber+1,s.modifiedLineNumber+1,s.temp⟩

def numberLines (diffLines : List Str) : List Entry := (diffLines.foldl countLine ⟨0,0,[]⟩).temp

def marked (line : Str) : Bool := startsWith line "-".toList || startsWith line "+".toList

theorem countedNothing {s : Numbering} {diffLines : List Str} :
    (diffLines.foldl countLine s).temp = [] ↔ s.temp = [] ∧ ∀ line ∈ diffLines, marked line = false := by
  refine Py.foldlBoth (fun s => Numbering.temp s = []) (fun line => marked line = false) ?_ diffLines s
  intro s line
  unfold countLine marked
  cases startsWith line "-".toList with
  | true => simp
  | false =>
    cases startsWith line "+".toList with
    | true => simp
    | false => simp

theorem numberedNothing {diffLines : List Str} : numberLines diffLines = [] ↔ ∀ line ∈ diffLines, marked line = false := by
  unfold numberLines
  rw [countedNothing]
  simp

def oldLines (delta : List DeltaLine) : List Str := delta.filterMap DeltaLine.old
def newLines (delta : List DeltaLine) : List Str := delta.filterMap DeltaLine.new
def hints (delta : List DeltaLine) : Nat := delta.countP DeltaLine.isHint

def entries (delta : List DeltaLine) : List Entry := numberLines (delta.map DeltaLine.line)

theorem oldNext (before : List DeltaLine) (d : DeltaLine) : oldLines (before ++ [d]) = oldLines before ++ d.old.toList := by
  unfold oldLines
  rw [List.filterMap_append]
  cases d <;> rfl

theorem newNext (before : List DeltaLine) (d : DeltaLine) : newLines (before ++ [d]) = newLines before ++ d.new.toList := by
  unfold newLines
  rw [List.filterMap_append]
  cases d <;> rfl

theorem hintsNext (before : List DeltaLine) (d : DeltaLine) :
    hints (before ++ [d]) = hints before + if d.isHint then 1 else 0 := by
  unfold hints
  rw [List.countP_append,List.countP_singleton]

def entryOf (before : List DeltaLine) (d : DeltaLine) : Entry :=
  ⟨(oldLines (before ++ [d])).length + hints before,(newLines (before ++ [d])).length + hints before,d.line⟩

theorem countDelta (s : Numbering) (d : DeltaLine) : countLine s d.line = match d with
    | .removed _ => ⟨s.originalLineNumber+1,s.modifiedLineNumber,
        s.temp ++ [⟨s.originalLineNumber+1,s.modifiedLineNumber,d.line⟩]⟩
    | .added _ => ⟨s.originalLineNumber,s.modifiedLineNumber+1,
        s.temp ++ [⟨s.originalLineNumber,s.modifiedLineNumber+1,d.line⟩]⟩
    | _ => ⟨s.originalLineNumber+1,s.modifiedLineNumber+1,s.temp⟩ := by
  cases d <;> rfl

theorem countedAfter (delta : List DeltaLine) : (delta.map DeltaLine.line).foldl countLine ⟨0,0,[]⟩ =
    ⟨(oldLines delta).length + hints delta,(newLines delta).length + hints delta,entries delta⟩ := by
  induction delta using List.reverseRecOn with
  | nil => rfl
  | append_singleton delta d ih =>
    unfold entries numberLines
    rw [List.map_append,List.foldl_append,ih,List.map_singleton,List.foldl_cons,List.foldl_nil,countDelta,
      oldNext,newNext,hintsNext]
    cases d with
    | removed text => simp [DeltaLine.old,DeltaLine.new,DeltaLine.isHint]; omega
    | added text => simp [DeltaLine.old,DeltaLine.new,DeltaLine.isHint]; omega
    | common text => simp [DeltaLine.old,DeltaLine.new,DeltaLine.isHint]; omega
    | hint text => simp [DeltaLine.old,DeltaLine.new,DeltaLine.isHint,Nat.add_assoc]

theorem entriesNext (before : List DeltaLine) (d : DeltaLine) :
    entries (before ++ [d]) = entries before ++ if d.isChange then [entryOf before d] else [] := by
  have step : entries (before ++ [d]) = (countLine ((before.map DeltaLine.line).foldl countLine ⟨0,0,[]⟩) d.line).temp := by
    unfold entries numberLines
    rw [List.map_append,List.foldl_append]
    rfl
  rw [step,countedAfter,countDelta]
  unfold entryOf
  rw [oldNext,newNext]
  cases d with
  | removed text => simp [DeltaLine.isChange,DeltaLine.old,DeltaLine.new]; omega
  | added text => simp [DeltaLine.isChange,DeltaLine.old,DeltaLine.new]; omega
  | common text => simp [DeltaLine.isChange]
  | hint text => simp [DeltaLine.isChange]

theorem entriesGrow (before after : List DeltaLine) : ∃ later, entries (before ++ after) = entries before ++ later := by
  induction after using List.reverseRecOn with
  | nil => exact ⟨[],by simp⟩
  | append_singleton after d ih =>
    obtain ⟨later,grown⟩ := ih
    rw [← List.append_assoc,entriesNext,grown,List.append_assoc]
    exact ⟨_,rfl⟩

theorem entryRecorded {before after : List DeltaLine} {d : DeltaLine} (change : d.isChange = true) :
    (entries (before ++ d::after))[(entries before).length]? = some (entryOf before d) := by
  obtain ⟨later,grown⟩ := entriesGrow (before ++ [d]) after
  rw [List.append_assoc,List.singleton_append] at grown
  rw [grown,entriesNext,if_pos change]
  simp

def RealNumber (delta before : List DeltaLine) (d : DeltaLine) (e : Entry) : Prop :=
  match d with
  | .removed text => e.original = (oldLines before).length + 1 ∧ (oldLines delta)[(oldLines before).length]? = some text
  | .added text => e.modified = (newLines before).length + 1 ∧ (newLines delta)[(newLines before).length]? = some text
  | _ => True

theorem entryReal {before after : List DeltaLine} {d : DeltaLine} (change : d.isChange = true) :
    RealNumber (before ++ d::after) before d (entryOf before d) ↔ hints before = 0 := by
  have split : before ++ d::after = before ++ [d] ++ after := by simp
  rw [split]
  cases d with
  | removed text => simp [RealNumber,entryOf,DeltaLine.old,oldLines]
  | added text => simp [RealNumber,entryOf,DeltaLine.new,newLines]
  | common text => contradiction
  | hint text => contradiction

/-- Every recorded line carries its line number exactly when no hint line comes before a
changed line. -/
theorem lineNumbersReal (delta : List DeltaLine) :
    (∀ before d after, delta = before ++ d::after → d.isChange = true →
        ∃ e, (entries delta)[(entries before).length]? = some e ∧ e.line = d.line ∧ RealNumber delta before d e)
      ↔ ∀ before d after, delta = before ++ d::after → d.isChange = true → hints before = 0 := by
  refine ⟨?_,?_⟩
  · intro numbered before d after split change
    obtain ⟨e,entry,_,number⟩ := numbered before d after split change
    subst split
    rw [entryRecorded change] at entry
    cases Option.some.inj entry
    exact (entryReal change).mp number
  · intro quiet before d after split change
    have none := quiet before d after split change
    subst split
    exact ⟨entryOf before d,entryRecorded change,rfl,(entryReal change).mpr none⟩

def characterChanged : List DeltaLine := [.removed "abcdef".toList,.hint "    ^\n".toList,.added "abcdxf".toList,
  .hint "    ^\n".toList]

theorem hintShiftsNumbers : oldLines characterChanged = ["abcdef".toList] ∧ newLines characterChanged = ["abcdxf".toList]
    ∧ entries characterChanged = [⟨1,0,"- abcdef".toList⟩,⟨2,2,"+ abcdxf".toList⟩]
    ∧ ¬ RealNumber characterChanged (characterChanged.take 2) (.added "abcdxf".toList) ⟨2,2,"+ abcdxf".toList⟩ := by
  refine ⟨by decide,by decide,by decide,?_⟩
  intro number
  exact absurd number.1 (by decide)

end KernelTcp.Git

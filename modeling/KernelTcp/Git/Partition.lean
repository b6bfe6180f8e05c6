import KernelTcp.Lib.Groups
import KernelTcp.Git.DiffBlocks

/-! The blocks of a file partition its changed lines. -/
namespace KernelTcp.Git
open Groups

theorem entriesLines (delta : List DeltaLine) :
    (entries delta).map Entry.line = (delta.filter DeltaLine.isChange).map DeltaLine.line := by
  induction delta using List.reverseRecOn with
  | nil => rfl
  | append_singleton delta d ih =>
    rw [entriesNext,List.map_append,ih,List.filter_append,List.map_append]
    cases d <;> rfl

def NotBefore (a b : Entry) : Prop := a.original ≤ b.original ∧ a.modified ≤ b.modified

def Behind (a b : Entry) : Prop := a.original < b.original ∧ a.modified < b.modified

theorem entriesCounted {delta : List DeltaLine} {e : Entry} (mem : e ∈ entries delta) :
    e.original ≤ (oldLines delta).length + hints delta ∧ e.modified ≤ (newLines delta).length + hints delta := by
  induction delta using List.reverseRecOn with
  | nil => simp [entries,numberLines] at mem
  | append_singleton delta d ih =>
    rw [entriesNext,List.mem_append] at mem
    rw [hintsNext]
    rcases mem with early | last
    · have counted := ih early
      rw [oldNext,newNext,List.length_append,List.length_append]
      omega
    · split at last
      · rw [List.mem_singleton.mp last]
        unfold entryOf
        exact ⟨by simp only; omega,by simp only; omega⟩
      · contradiction

theorem entriesSorted (delta : List DeltaLine) : (entries delta).Pairwise NotBefore := by
  induction delta using List.reverseRecOn with
  | nil => exact .nil
  | append_singleton delta d ih =>
    rw [entriesNext,List.pairwise_append]
    refine ⟨ih,by split <;> simp,?_⟩
    intro e early next last
    split at last
    · have counted := entriesCounted early
      rw [List.mem_singleton.mp last]
      unfold NotBefore entryOf
      rw [oldNext,newNext,List.length_append,List.length_append]
      exact ⟨by simp only; omega,by simp only; omega⟩
    · contradiction

theorem farBehind (a b : Entry) (after : NotBefore a b) (far : near a b = false) : Behind a b := by
  unfold near at far
  unfold NotBefore at after
  simp only [Bool.or_eq_false_iff,decide_eq_false_iff_not] at far
  exact ⟨by omega,by omega⟩

theorem behindNotBefore (a b c : Entry) (first : Behind a b) (second : NotBefore b c) : Behind a c :=
  ⟨first.1.trans_le second.1,first.2.trans_le second.2⟩

section gap
variable {before between after : List DeltaLine} {a b : DeltaLine}

theorem gapEntries (first : a.isChange = true) (unchanged : ∀ d ∈ between, d.isChange = false) :
    entries (before ++ a::between) = entries before ++ [entryOf before a] := by
  induction between using List.reverseRecOn with
  | nil => rw [entriesNext,if_pos first]
  | append_singleton between d ih =>
    have quiet := unchanged d (by simp)
    rw [← List.cons_append,← List.append_assoc,entriesNext,ih (fun d mem => unchanged d (by simp [mem]))]
    simp [quiet]

theorem neighbourEntries (first : a.isChange = true) (unchanged : ∀ d ∈ between, d.isChange = false)
    (second : b.isChange = true) : ∃ later, entries (before ++ a::between ++ b::after) =
      entries before ++ entryOf before a::entryOf (before ++ a::between) b::later := by
  obtain ⟨later,grown⟩ := entriesGrow (before ++ a::between ++ [b]) after
  rw [entriesNext,if_pos second,gapEntries first unchanged] at grown
  exact ⟨later,by simpa using grown⟩

theorem unchangedLines (unchanged : ∀ d ∈ between, d.isChange = false) (plain : hints between = 0) :
    (oldLines between).length = between.length ∧ (newLines between).length = between.length := by
  induction between with
  | nil => exact ⟨rfl,rfl⟩
  | cons d between ih =>
    unfold hints at plain ih
    rw [List.countP_cons] at plain
    have rest := ih (fun d mem => unchanged d (by simp [mem])) (by omega)
    have here := unchanged d (by simp)
    unfold oldLines newLines at rest ⊢
    cases d with
    | removed text => contradiction
    | added text => contradiction
    | hint text => simp [DeltaLine.isHint] at plain
    | common text => simp [DeltaLine.old,DeltaLine.new,rest.1,rest.2]

theorem nearGap (unchanged : ∀ d ∈ between, d.isChange = false) (second : b.isChange = true)
    (plain : hints (before ++ a::between) = 0) :
    near (entryOf before a) (entryOf (before ++ a::between) b) = true ↔ between.length ≤ 1 := by
  have split : before ++ a::between = before ++ [a] ++ between := by simp
  rw [split] at plain ⊢
  have quiet : hints before = 0 ∧ hints between = 0 := by
    unfold hints at plain ⊢
    rw [List.countP_append,List.countP_append] at plain
    omega
  obtain ⟨old,new⟩ := unchangedLines unchanged quiet.2
  have oldSplit : oldLines (before ++ [a] ++ between) = oldLines (before ++ [a]) ++ oldLines between := List.filterMap_append
  have newSplit : newLines (before ++ [a] ++ between) = newLines (before ++ [a]) ++ newLines between := List.filterMap_append
  unfold near entryOf
  rw [oldNext (before ++ [a] ++ between),newNext (before ++ [a] ++ between),oldSplit,newSplit,plain,quiet.1]
  simp only [List.length_append,old,new,Bool.or_eq_true,decide_eq_true_eq]
  cases b with
  | removed text => simp only [DeltaLine.old,DeltaLine.new,Option.toList,List.length_singleton,List.length_nil]; omega
  | added text => simp only [DeltaLine.old,DeltaLine.new,Option.toList,List.length_singleton,List.length_nil]; omega
  | common text => contradiction
  | hint text => contradiction

end gap

theorem blockContents {filePath : Str} {scopes : List Scope} {groups : List (List Entry)} {blocks : List DiffBlock}
    (rows : List.Forall₂ (IsBlock filePath scopes) groups blocks) :
    blocks.map DiffBlock.content = groups.map (fun g => "\n".toList.intercalate (g.map Entry.line)) := by
  induction rows with
  | nil => rfl
  | cons head _ ih =>
    obtain ⟨_,_,_,_,rfl⟩ := head
    rw [List.map_cons,List.map_cons,ih]

theorem blocksApart {filePath : Str} {scopes : List Scope} {groups : List (List Entry)} {blocks : List DiffBlock}
    (rows : List.Forall₂ (IsBlock filePath scopes) groups blocks)
    (apart : groups.Pairwise (fun g h => ∀ a ∈ g.getLast?, ∀ b ∈ h.head?, Behind a b)) :
    blocks.Pairwise (fun a b => a.originLineScope.2 < b.originLineScope.1 ∧ a.modifiedLineScope.2 < b.modifiedLineScope.1) := by
  induction rows with
  | nil => exact .nil
  | cons head tail ih =>
    obtain ⟨_,_,last,ends,rfl⟩ := head
    rw [List.pairwise_cons] at apart
    refine .cons ?_ (ih apart.2)
    intro b mem
    obtain ⟨h,there,first,starts,_,_,rfl⟩ := Py.rowsRight tail mem
    exact apart.1 h there last ends first starts

/-- The blocks of a delta without hints: their contents are the changed lines in order, two
neighbours share a block exactly when at most one unchanged line stands between them, each
scope runs from the first to the last entry, and the scopes follow each other. -/
theorem blocksPartition (filePath : Str) (scopes : List Scope) (delta : List DeltaLine) (plain : hints delta = 0)
    (changed : entries delta ≠ []) :
    ∃ blocks groups, cutBlocks filePath scopes (entries delta) = .ok blocks
      ∧ List.Forall₂ (IsBlock filePath scopes) groups blocks
      ∧ groups.flatten = entries delta
      ∧ (entries delta).map Entry.line = (delta.filter DeltaLine.isChange).map DeltaLine.line
      ∧ "\n".toList.intercalate (blocks.map DiffBlock.content) =
          "\n".toList.intercalate ((delta.filter DeltaLine.isChange).map DeltaLine.line)
      ∧ (∀ before a between b after, delta = before ++ a::between ++ b::after → a.isChange = true → b.isChange = true →
          (∀ d ∈ between, d.isChange = false) →
          (Together groups (entries before) (entryOf before a) (entryOf (before ++ a::between) b) ↔ between.length ≤ 1))
      ∧ (∀ b ∈ blocks, b.originLineScope.1 ≤ b.originLineScope.2 ∧ b.modifiedLineScope.1 ≤ b.modifiedLineScope.2)
      ∧ blocks.Pairwise (fun a b =>
          a.originLineScope.2 < b.originLineScope.1 ∧ a.modifiedLineScope.2 < b.modifiedLineScope.1) := by
  obtain ⟨blocks,cut,rows⟩ := cutBlocksSpec filePath scopes (List.length_pos_iff.mpr changed)
  have whole := List.flatten_splitBy near (entries delta)
  refine ⟨blocks,(entries delta).splitBy near,cut,rows,whole,entriesLines delta,?_,?_,?_,?_⟩
  · have some : ∀ g ∈ ((entries delta).splitBy near).map (List.map Entry.line), g ≠ [] := by
      intro g mem
      obtain ⟨h,there,rfl⟩ := List.mem_map.mp mem
      simpa using List.ne_nil_of_mem_splitBy there
    rw [← entriesLines]
    conv => rhs; rw [← whole,List.map_flatten,← intercalateFlatten _ some,List.map_map]
    rw [blockContents rows]
    rfl
  · intro before a between b after split first second unchanged
    obtain ⟨later,neighbours⟩ := neighbourEntries first unchanged second
    rw [← split] at neighbours
    rw [togetherIff neighbours]
    refine nearGap unchanged second ?_
    unfold hints at plain ⊢
    rw [split,List.countP_append] at plain
    omega
  · intro b mem
    obtain ⟨g,there,first,starts,last,ends,rfl⟩ := Py.rowsRight rows mem
    exact splitSorted (fun _ => ⟨le_rfl,le_rfl⟩) (entriesSorted delta) there starts ends
  · exact blocksApart rows (splitApart behindNotBefore farBehind (entriesSorted delta))

theorem statementPartition : ∃ blocks, cutBlocks "t.c".toList [] (entries statementAdded) = .ok blocks
    ∧ "\n".toList.intercalate (blocks.map DiffBlock.content) =
      "+ int a;\n+ int b;\n+ int c;\n+ int d;\n+ \ty();".toList := by
  obtain ⟨blocks,_,cut,_,_,_,contents,_⟩ := blocksPartition "t.c".toList [] statementAdded (by decide) (by decide)
  exact ⟨blocks,cut,contents.trans (by decide)⟩

end KernelTcp.Git

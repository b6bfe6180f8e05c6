import KernelTcp.Git.DiffLines
import KernelTcp.Git.TreeParser
import Mathlib.Data.List.SplitBy
import Mathlib.Data.List.Sort

/-! The blocks of `get_diff_blocks`: runs of neighbouring changed lines, each given to a
function of the new version. The files are the readable modified `.c` files; what `ndiff`
yields for them, the new text and the parser are outside. -/
namespace KernelTcp.Git

structure DiffBlock where
  originLineScope : Nat × Nat
  modifiedLineScope : Nat × Nat
  filePath : Str
  content : Str
  belongedFunction : Str
  calledFunctions : Option (List Str)
  deriving DecidableEq, Repr

structure ModifiedFile where
  bPath : Str
  diffLines : List Str
  newText : Option Str

def Scope.holds (s : Scope) (row : Nat) : Bool := s.startRow ≤ row && row ≤ s.endRow

def functionAt (scopes : List Scope) (row : Nat) : Str :=
  match scopes.find? (fun s => s.holds row) with
  | some s => s.name
  | none => []

def makeBlock (filePath : Str) (scopes : List Scope) (diff : List Entry) (prevIdx idx : Nat) : Except PyError DiffBlock := do
  let first ← Py.getItem diff prevIdx
  let last ← Py.getItem diff (idx - 1)
  .ok { originLineScope := (first.original,last.original)
        modifiedLineScope := (first.modified,last.modified)
        filePath := filePath
        content := List.intercalate "\n".toList (((diff.take idx).drop prevIdx).map Entry.line)
        belongedFunction := functionAt scopes first.original
        calledFunctions := none }

def near (a b : Entry) : Bool :=
  (b.original = a.original || b.original = a.original + 1) || (b.modified = a.modified || b.modified = a.modified + 1)

structure Cutting where
  prevIdx : Nat
  diffList : List DiffBlock

def cutStep (filePath : Str) (scopes : List Scope) (diff : List Entry) (s : Cutting) (idx : Nat) : Except PyError Cutting := do
  let cur ← Py.getItem diff idx
  let before ← Py.getItem diff (idx - 1)
  if near before cur then .ok s
  else do
    let diffBlock ← makeBlock filePath scopes diff s.prevIdx idx
    .ok ⟨idx,s.diffList ++ [diffBlock]⟩

def cutBlocks (filePath : Str) (scopes : List Scope) (diff : List Entry) : Except PyError (List DiffBlock) := do
  let s ← (List.range' 1 (diff.length - 1)).foldlM (cutStep filePath scopes diff) ⟨0,[]⟩
  let diffBlock ← makeBlock filePath scopes diff s.prevIdx diff.length
  .ok (s.diffList ++ [diffBlock])

def earlierScope (a b : Scope) : Prop := a.startRow ≤ b.startRow
instance : DecidableRel earlierScope := fun _ _ => Nat.decLe _ _

def withCalls (parse : Str → Node) (db : DiffBlock) : DiffBlock :=
  { db with calledFunctions := some (getCallFunctionNames (parse db.content)) }

def fileBlocks (parse : Str → Node) (f : ModifiedFile) : Except PyError (List DiffBlock) := do
  let text ← Py.raiseNone .typeError f.newText
  let scopes ← getFunctionsScope (parse text)
  let diffList ← cutBlocks f.bPath (scopes.insertionSort earlierScope) (numberLines f.diffLines)
  .ok (diffList.map (withCalls parse))

def getDiffBlocks (parse : Str → Node) (files : List ModifiedFile) : Except PyError (List DiffBlock) :=
  List.flatten <$> files.mapM (fileBlocks parse)

def IsBlock (filePath : Str) (scopes : List Scope) (group : List Entry) (b : DiffBlock) : Prop :=
  ∃ first ∈ group.head?, ∃ last ∈ group.getLast?, b = ⟨(first.original,last.original),(first.modified,last.modified),
    filePath,List.intercalate "\n".toList (group.map Entry.line),functionAt scopes first.original,none⟩

theorem groupLast {diff : List Entry} {prevIdx idx : Nat} (some : prevIdx ≤ idx) (inside : idx < diff.length) :
    ((diff.take (idx+1)).drop prevIdx).getLast? = .some diff[idx] := by
  rw [List.getLast?_drop,List.getLast?_take,if_neg (by rw [List.length_take]; omega),if_neg (by omega)]
  simp [inside]

theorem makeBlockSpec (filePath : Str) (scopes : List Scope) {diff : List Entry} {prevIdx idx : Nat} (some : prevIdx ≤ idx)
    (inside : idx < diff.length) : ∃ b, makeBlock filePath scopes diff prevIdx (idx+1) = .ok b
      ∧ IsBlock filePath scopes ((diff.take (idx+1)).drop prevIdx) b := by
  have first : diff[prevIdx]? = .some diff[prevIdx] := List.getElem?_eq_getElem (by omega)
  have last : diff[idx]? = .some diff[idx] := List.getElem?_eq_getElem inside
  have back : ((idx+1 : Nat) : Int) - 1 = (idx : Nat) := by omega
  refine ⟨_,?_,diff[prevIdx],?_,diff[idx],groupLast some inside,rfl⟩
  · unfold makeBlock
    rw [Py.getItemInside first,back,Py.getItemInside last]
    rfl
  · rw [List.head?_drop,List.getElem?_take_of_lt (by omega)]
    exact first

/- After the first `n` entries: the closed groups are those before the open one, which starts
at `prevIdx` and is not near to what precedes it. -/
structure CutUpTo (filePath : Str) (scopes : List Scope) (diff : List Entry) (n : Nat) (s : Cutting) : Prop where
  started : s.prevIdx < n
  closed : List.Forall₂ (IsBlock filePath scopes) ((diff.take s.prevIdx).splitBy near) s.diffList
  current : ((diff.take n).drop s.prevIdx).IsChain (fun a b => near a b = true)
  apart : ∀ a ∈ (diff.take s.prevIdx).getLast?, ∀ b ∈ diff[s.prevIdx]?, near a b = false

section cutting
variable {filePath : Str} {scopes : List Scope} {diff : List Entry} {n : Nat} {s : Cutting}

theorem cutGroups (h : CutUpTo filePath scopes diff n s) (inside : n ≤ diff.length) :
    (diff.take n).splitBy near = (diff.take s.prevIdx).splitBy near ++ [(diff.take n).drop s.prevIdx] := by
  have started := h.started
  have split : diff.take n = diff.take s.prevIdx ++ (diff.take n).drop s.prevIdx := by
    conv => lhs; rw [← List.take_append_drop s.prevIdx (diff.take n)]
    rw [List.take_take,Nat.min_eq_left (by omega)]
  have some : (diff.take n).drop s.prevIdx ≠ [] := by
    apply List.ne_nil_of_length_pos
    rw [List.length_drop,List.length_take]
    omega
  have cut : ∀ a ∈ (diff.take s.prevIdx).getLast?, ∀ b ∈ ((diff.take n).drop s.prevIdx).head?, near a b = false := by
    intro a last b first
    rw [List.head?_drop,List.getElem?_take_of_lt started] at first
    exact h.apart a last b first
  conv => lhs; rw [split]
  rw [List.splitBy_append cut,List.splitBy_of_isChain some h.current]

theorem takeNext (inside : n < diff.length) : diff.take (n+1) = diff.take n ++ [diff[n]] := by
  rw [List.take_add_one,List.getElem?_eq_getElem inside]
  rfl

theorem cutJoins (h : CutUpTo filePath scopes diff (n+1) s) (inside : n + 1 < diff.length)
    (close : near diff[n] diff[n+1] = true) : CutUpTo filePath scopes diff (n+2) s := by
  have started := h.started
  refine ⟨by omega,h.closed,?_,h.apart⟩
  rw [takeNext inside,List.drop_append_of_le_length (by rw [List.length_take]; omega)]
  refine h.current.append (List.isChain_singleton _) ?_
  intro a last b first
  rw [groupLast (by omega) (by omega)] at last
  cases Option.some.inj last
  cases Option.some.inj first
  exact close

theorem cutCloses (h : CutUpTo filePath scopes diff (n+1) s) (inside : n + 1 < diff.length)
    (far : near diff[n] diff[n+1] = false) {b : DiffBlock}
    (block : IsBlock filePath scopes ((diff.take (n+1)).drop s.prevIdx) b) :
    CutUpTo filePath scopes diff (n+2) ⟨n+1,s.diffList ++ [b]⟩ := by
  refine ⟨by simp,?_,?_,?_⟩
  · rw [cutGroups h (by omega)]
    exact List.rel_append h.closed (.cons block .nil)
  · have alone : (diff.take (n+2)).drop (n+1) = [diff[n+1]] := by
      rw [takeNext inside,List.drop_append,List.drop_eq_nil_of_le (by rw [List.length_take]; omega),List.length_take,
        Nat.min_eq_left (by omega),Nat.sub_self]
      rfl
    simp only [alone]
    exact List.isChain_singleton _
  · intro a last b first
    rw [takeNext (by omega),List.getLast?_concat] at last
    cases Option.some.inj last
    rw [List.getElem?_eq_getElem inside] at first
    cases Option.some.inj first
    exact far

theorem cutStepSpec (h : CutUpTo filePath scopes diff (n+1) s) (inside : n + 1 < diff.length) :
    ∃ next, cutStep filePath scopes diff s (n+1) = .ok next ∧ CutUpTo filePath scopes diff (n+2) next := by
  have started := h.started
  have before : diff[n]? = some diff[n] := List.getElem?_eq_getElem (by omega)
  have cur : diff[n+1]? = some diff[n+1] := List.getElem?_eq_getElem inside
  have back : ((n+1 : Nat) : Int) - 1 = (n : Nat) := by omega
  unfold cutStep
  rw [Py.getItemInside cur,back,Py.getItemInside before]
  simp only [bind,Except.bind]
  cases close : near diff[n] diff[n+1] with
  | true => exact ⟨s,rfl,cutJoins h inside close⟩
  | false =>
    obtain ⟨b,made,block⟩ := makeBlockSpec filePath scopes (show s.prevIdx ≤ n by omega) (show n < diff.length by omega)
    exact ⟨⟨n+1,s.diffList ++ [b]⟩,by simp [made],cutCloses h inside close block⟩

variable (filePath scopes) in
theorem cutRun (some : 0 < diff.length) {m : Nat} (inside : m + 1 ≤ diff.length) :
    ∃ s, (List.range' 1 m).foldlM (cutStep filePath scopes diff) ⟨0,[]⟩ = .ok s ∧ CutUpTo filePath scopes diff (m+1) s := by
  induction m with
  | zero =>
    have alone : ((diff.take 1).drop 0).IsChain (fun a b => near a b = true) := by
      cases diff with
      | nil => exact List.isChain_nil
      | cons e rest => exact List.isChain_singleton e
    exact ⟨_,rfl,by simp,.nil,alone,by simp⟩
  | succ m ih =>
    obtain ⟨s,run,h⟩ := ih (by omega)
    obtain ⟨next,step,later⟩ := cutStepSpec h (by omega)
    refine ⟨next,?_,later⟩
    rw [List.range'_1_concat,List.foldlM_append,run,Nat.add_comm 1 m]
    simp only [bind,Except.bind,List.foldlM_cons,List.foldlM_nil,step]
    rfl

variable (filePath scopes) in
theorem cutBlocksSpec (some : 0 < diff.length) : ∃ blocks, cutBlocks filePath scopes diff = .ok blocks
    ∧ List.Forall₂ (IsBlock filePath scopes) (diff.splitBy near) blocks := by
  obtain ⟨n,size⟩ : ∃ n, diff.length = n + 1 := ⟨diff.length - 1,by omega⟩
  obtain ⟨s,run,h⟩ := cutRun filePath scopes some (show n + 1 ≤ diff.length by omega)
  obtain ⟨b,made,block⟩ := makeBlockSpec filePath scopes (Nat.le_of_lt_succ h.started) (show n < diff.length by omega)
  have groups := cutGroups h (by omega)
  rw [← size,List.take_length] at groups
  rw [← size,List.take_length] at block
  rw [← size] at made
  refine ⟨s.diffList ++ [b],?_,?_⟩
  · unfold cutBlocks
    rw [show diff.length - 1 = n by omega,run]
    simp only [bind,Except.bind,made]
  · rw [groups]
    exact List.rel_append h.closed (.cons block .nil)

end cutting

def DisjointScopes (scopes : List Scope) : Prop :=
  ∀ s ∈ scopes, ∀ t ∈ scopes, s ≠ t → s.endRow < t.startRow ∨ t.endRow < s.startRow

instance : Decidable (DisjointScopes scopes) := by unfold DisjointScopes; infer_instance

def Belongs (scopes : List Scope) (row : Nat) (name : Str) : Prop :=
  (∃ s ∈ scopes, s.holds row = true ∧ s.name = name) ∨ ((∀ s ∈ scopes, s.holds row = false) ∧ name = [])

theorem belongsFunctionAt (scopes : List Scope) (row : Nat) : Belongs scopes row (functionAt scopes row) := by
  unfold functionAt
  cases found : scopes.find? (fun s => s.holds row) with
  | none =>
    refine Or.inr ⟨?_,rfl⟩
    intro s mem
    exact Bool.eq_false_iff.mpr (List.find?_eq_none.mp found s mem)
  | some s =>
    have holds := List.find?_some found
    exact Or.inl ⟨s,List.mem_of_find?_eq_some found,holds,rfl⟩

theorem belongsSorted {scopes : List Scope} {row : Nat} {name : Str} :
    Belongs (scopes.insertionSort earlierScope) row name ↔ Belongs scopes row name := by
  unfold Belongs
  simp only [List.mem_insertionSort]

theorem belongsUnique {scopes : List Scope} (disjoint : DisjointScopes scopes) {row : Nat} {a b : Str}
    (left : Belongs scopes row a) (right : Belongs scopes row b) : a = b := by
  rcases left with ⟨s,hs,holds,rfl⟩ | ⟨outside,rfl⟩
  · rcases right with ⟨t,ht,also,rfl⟩ | ⟨outside,_⟩
    · by_cases same : s = t
      · rw [same]
      · have apart := disjoint s hs t ht same
        simp only [Scope.holds,Bool.and_eq_true,decide_eq_true_eq] at holds also
        omega
    · simp [outside s hs] at holds
  · rcases right with ⟨t,ht,also,_⟩ | ⟨_,rfl⟩
    · simp [outside t ht] at also
    · rfl

theorem fileBlocksSpec {parse : Str → Node} (path : Str) {text : Str} {scopes : List Scope} {diffLines : List Str}
    (parsed : getFunctionsScope (parse text) = .ok scopes) (some : 0 < (numberLines diffLines).length) :
    ∃ blocks, fileBlocks parse ⟨path,diffLines,.some text⟩ = .ok blocks
      ∧ List.Forall₂ (fun group b => ∃ e ∈ group.head?,
          b.belongedFunction = functionAt (scopes.insertionSort earlierScope) e.original)
        ((numberLines diffLines).splitBy near) blocks := by
  obtain ⟨diffList,cut,blocks⟩ := cutBlocksSpec path (scopes.insertionSort earlierScope) some
  refine ⟨diffList.map (withCalls parse),?_,?_⟩
  · unfold fileBlocks
    simp only [Py.raiseNone,bind,Except.bind,parsed,cut]
  · rw [List.forall₂_map_right_iff]
    refine blocks.imp ?_
    intro group b block
    obtain ⟨e,first,_,_,rfl⟩ := block
    exact ⟨e,first,rfl⟩

/-- A block that starts with an added line is given to the function of that line exactly when
the row counted in the old file, hints included, lies in a function of the same name. -/
theorem addedLineFunction (parse : Str → Node) (path text : Str) (scopes : List Scope)
    (parsed : getFunctionsScope (parse text) = .ok scopes) (disjoint : DisjointScopes scopes)
    (delta before after : List DeltaLine) (line : Str) (split : delta = before ++ .added line::after) :
    ∃ blocks : List DiffBlock, fileBlocks parse ⟨path,delta.map DeltaLine.line,some text⟩ = .ok blocks
      ∧ blocks.length = ((entries delta).splitBy near).length
      ∧ ∀ (i : Nat) (block : DiffBlock) (group : List Entry),
        blocks[i]? = some block → ((entries delta).splitBy near)[i]? = some group →
        group.head? = (entries delta)[(entries before).length]? →
        (Belongs scopes (newLines before).length block.belongedFunction ↔
          ∃ name, Belongs scopes ((oldLines before).length + hints before) name
            ∧ Belongs scopes (newLines before).length name) := by
  have recorded : (entries delta)[(entries before).length]? = some (entryOf before (.added line)) := by
    rw [split]
    exact entryRecorded rfl
  have original : (entryOf before (.added line)).original = (oldLines before).length + hints before := by
    simp [entryOf,oldNext,DeltaLine.old]
  have nonempty : 0 < (entries delta).length := Nat.zero_lt_of_lt (List.getElem?_eq_some_iff.mp recorded).1
  obtain ⟨blocks,made,pairs⟩ := fileBlocksSpec path parsed nonempty
  refine ⟨blocks,made,pairs.length_eq.symm,?_⟩
  intro i block group here grouped first
  obtain ⟨inside,rfl⟩ := List.getElem?_eq_some_iff.mp here
  obtain ⟨size,rfl⟩ := List.getElem?_eq_some_iff.mp grouped
  obtain ⟨e,head,belonged⟩ := pairs.get size inside
  have same : e = entryOf before (.added line) := Option.some.inj ((head.symm.trans first).trans recorded)
  have counted : Belongs scopes ((oldLines before).length + hints before) blocks[i].belongedFunction := by
    have found := belongsSorted.mp (belongsFunctionAt (scopes.insertionSort earlierScope) e.original)
    rw [← belonged,same,original] at found
    exact found
  refine ⟨fun right => ⟨_,counted,right⟩,?_⟩
  intro agree
  obtain ⟨name,old,new⟩ := agree
  rw [belongsUnique disjoint counted old]
  exact new

def ModifiedFile.changed (f : ModifiedFile) : Bool := f.diffLines.any marked

def Parsed (parse : Str → Node) (f : ModifiedFile) : Prop :=
  ∃ text scopes, f.newText = some text ∧ getFunctionsScope (parse text) = .ok scopes

theorem unchangedEntries {f : ModifiedFile} : numberLines f.diffLines = [] ↔ f.changed = false := by
  rw [numberedNothing,ModifiedFile.changed,List.any_eq_false]
  simp

theorem cutNothing (filePath : Str) (scopes : List Scope) : cutBlocks filePath scopes [] = .error .indexError := rfl

theorem fileBlocksChanged {parse : Str → Node} {f : ModifiedFile} (parsed : Parsed parse f) (changed : f.changed = true) :
    ∃ blocks, fileBlocks parse f = .ok blocks := by
  obtain ⟨text,scopes,new,found⟩ := parsed
  have some : 0 < (numberLines f.diffLines).length := by
    rw [List.length_pos_iff,ne_eq,unchangedEntries,changed]
    simp
  obtain ⟨path,diffLines,newText⟩ := f
  cases new
  obtain ⟨blocks,done,_⟩ := fileBlocksSpec path found some
  exact ⟨blocks,done⟩

theorem fileBlocksUnchanged {parse : Str → Node} {f : ModifiedFile} (parsed : Parsed parse f) (same : f.changed = false) :
    fileBlocks parse f = .error .indexError := by
  obtain ⟨text,scopes,new,found⟩ := parsed
  unfold fileBlocks
  simp only [new,found,unchangedEntries.mpr same,cutNothing,Py.raiseNone,bind,Except.bind]

theorem unchangedFileRaises {parse : Str → Node} {files : List ModifiedFile} (parsed : ∀ f ∈ files, Parsed parse f)
    {f : ModifiedFile} (mem : f ∈ files) (same : f.changed = false) : getDiffBlocks parse files = .error .indexError := by
  have each : ∀ f ∈ files, (∃ blocks, fileBlocks parse f = .ok blocks) ∨ fileBlocks parse f = .error .indexError := by
    intro f mem
    cases changed : f.changed with
    | true => exact Or.inl (fileBlocksChanged (parsed f mem) changed)
    | false => exact Or.inr (fileBlocksUnchanged (parsed f mem) changed)
  unfold getDiffBlocks
  rw [Py.mapMRaises each mem (fileBlocksUnchanged (parsed f mem) same)]
  rfl

/-- The blocks of the changed files are returned exactly when every file is one of them; a
file without a changed line ends the call with an index error. -/
theorem changedFilesReturned (parse : Str → Node) (files : List ModifiedFile) (parsed : ∀ f ∈ files, Parsed parse f) :
    ((∃ groups : List (List DiffBlock), getDiffBlocks parse files = .ok groups.flatten ∧
        List.Forall₂ (fun f blocks => fileBlocks parse f = .ok blocks) (files.filter ModifiedFile.changed) groups) ↔
      ∀ f ∈ files, f.changed = true) ∧
    ∀ f ∈ files, f.changed = false → getDiffBlocks parse files = .error .indexError := by
  refine ⟨⟨?_,?_⟩,fun f mem same => unchangedFileRaises parsed mem same⟩
  · intro returned f mem
    obtain ⟨groups,done,_⟩ := returned
    cases changed : f.changed with
    | true => rfl
    | false =>
      rw [unchangedFileRaises parsed mem changed] at done
      contradiction
  · intro all
    have each : ∀ f ∈ files, ∃ blocks, fileBlocks parse f = .ok blocks ∧ fileBlocks parse f = .ok blocks := by
      intro f mem
      obtain ⟨blocks,done⟩ := fileBlocksChanged (parsed f mem) (all f mem)
      exact ⟨blocks,done,done⟩
    obtain ⟨groups,done,rows⟩ := Py.mapMRows each
    rw [List.filter_eq_self.mpr all]
    refine ⟨groups,?_,rows⟩
    unfold getDiffBlocks
    rw [done]
    rfl

def declaredAbove : List DeltaLine := ["int a;","int b;","int c;","int d;"].map (fun text => .added text.toList)

def bodyUnchanged : List DeltaLine := ["void g(void)","\x7b","\tx();"].map (fun text => .common text.toList)

def statementAdded : List DeltaLine := declaredAbove ++ bodyUnchanged ++ [.added "\ty();".toList,.common "\x7d".toList]

def statementText : Str := List.intercalate "\n".toList (newLines statementAdded)

def parseStatement (text : Str) : Node :=
  if text = statementText then
    .node ⟨.other "translation_unit".toList,[],0,8⟩ [.node ⟨.functionDefinition,[],4,8⟩ [named "g"]]
  else .node ⟨.other "translation_unit".toList,[],0,0⟩ []

theorem declarationsOutside : ∃ blocks block, fileBlocks parseStatement
      ⟨"t.c".toList,statementAdded.map DeltaLine.line,some statementText⟩ = .ok blocks
    ∧ blocks[0]? = some block ∧ Belongs [⟨"g".toList,4,8⟩] 0 block.belongedFunction := by
  obtain ⟨blocks,made,size,each⟩ := addedLineFunction parseStatement "t.c".toList statementText [⟨"g".toList,4,8⟩] rfl
    (by decide) statementAdded [] (statementAdded.drop 1) "int a;".toList rfl
  have inside : 0 < blocks.length := by
    rw [size]
    decide
  have outside : Belongs [⟨"g".toList,4,8⟩] 0 [] := Or.inr ⟨by decide,rfl⟩
  refine ⟨blocks,blocks[0],made,List.getElem?_eq_getElem inside,?_⟩
  exact (each 0 _ ((entries statementAdded).take 4) (List.getElem?_eq_getElem inside) (by decide) rfl).mpr
    ⟨[],outside,outside⟩

theorem statementLeavesFunction : getFunctionsScope (parseStatement statementText) = .ok [⟨"g".toList,4,8⟩]
    ∧ (fileBlocks parseStatement ⟨"t.c".toList,statementAdded.map DeltaLine.line,some statementText⟩).map
        (List.map (fun b => (b.modifiedLineScope,b.content,b.belongedFunction)))
      = .ok [((1,4),"+ int a;\n+ int b;\n+ int c;\n+ int d;".toList,[]),((8,8),"+ \ty();".toList,[])]
    ∧ (newLines statementAdded)[7]? = some "\ty();".toList ∧ Belongs [⟨"g".toList,4,8⟩] 7 "g".toList
    ∧ ¬ Belongs [⟨"g".toList,4,8⟩] 7 [] := by
  refine ⟨rfl,by decide +kernel,by decide,Or.inl ⟨_,List.mem_cons_self,by decide,rfl⟩,?_⟩
  intro outside
  exact absurd (belongsUnique (by decide) outside (Or.inl ⟨_,List.mem_cons_self,by decide,rfl⟩)) (by decide : [] ≠ "g".toList)

def statementFile : ModifiedFile := ⟨"t.c".toList,statementAdded.map DeltaLine.line,some statementText⟩

def modeFile : ModifiedFile := ⟨"m.c".toList,[(DeltaLine.common "int m;".toList).line],some "int m;".toList⟩

theorem statementParsed : Parsed parseStatement statementFile := ⟨statementText,[⟨"g".toList,4,8⟩],rfl,rfl⟩

def secondFile : ModifiedFile := ⟨"u.c".toList,[(DeltaLine.common "int u;".toList).line,(DeltaLine.added "int v;".toList).line],some "int u;\nint v;".toList⟩

theorem statementReturned : ∃ groups : List (List DiffBlock),
    getDiffBlocks parseStatement [statementFile,secondFile] = .ok groups.flatten ∧ groups.flatten.length = 3 ∧
    List.Forall₂ (fun f blocks => fileBlocks parseStatement f = .ok blocks) [statementFile,secondFile] groups := by
  have parsed : ∀ f ∈ [statementFile,secondFile], Parsed parseStatement f := by
    simpa using ⟨statementParsed,⟨"int u;\nint v;".toList,[],rfl,by decide⟩⟩
  have three : (getDiffBlocks parseStatement [statementFile,secondFile]).map List.length = .ok 3 := by decide +kernel
  obtain ⟨groups,done,each⟩ := (changedFilesReturned parseStatement [statementFile,secondFile] parsed).1.mpr (by decide)
  rw [done] at three
  exact ⟨groups,done,Except.ok.inj three,each⟩

theorem modeChangeLosesBlocks : Parsed parseStatement modeFile ∧ (∃ blocks, fileBlocks parseStatement statementFile = .ok blocks)
    ∧ getDiffBlocks parseStatement [statementFile,modeFile] = .error .indexError :=
  ⟨⟨"int m;".toList,[],rfl,by decide⟩,fileBlocksChanged statementParsed (by decide),by decide +kernel⟩

end KernelTcp.Git

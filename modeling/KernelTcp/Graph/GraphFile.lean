import KernelTcp.Graph.CallGraph
import KernelTcp.Lib.Rendered
import Mathlib.Data.List.Induction

/-! Call-graph files: what a list of described functions looks like as a text, and what the
loader makes of that text. -/
namespace KernelTcp.Graph
open Text

structure Described where
  name : Str
  origin : Option (Str × Int)
  calls : List Str
  deriving DecidableEq, Repr

def originLine (origin : Str × Int) : Str := "Origin File: ".toList ++ (origin.1 ++ (": ".toList ++ decimal origin.2))

def callLine (call : Str) : Str := "  ".toList ++ call

namespace Described

def rest (d : Described) : List Str := (d.origin.map originLine).toList ++ "Calls:".toList::d.calls.map callLine

def text (d : Described) : Str := d.name ++ d.rest.flatMap (fun line => '\n'::line)

def block (d : Described) : Block :=
  ⟨d.name,d.origin.map (fun o => removePrefix o.1 "./".toList),(d.origin.map Prod.snd).getD (-1),d.calls⟩

end Described

def rendered (ds : List Described) : Str := ds.flatMap (fun d => "Function: ".toList ++ (d.text ++ "\n\n".toList))

structure Name (s : Str) : Prop where
  some : s ≠ []
  trimmed : strip s = s
  oneLine : OneLine s
  noFunction : ¬ "Function: ".toList <:+: s
  noOrigin : ¬ "Origin File: ".toList <:+: s

instance (s : Str) : Decidable (Name s) :=
  decidable_of_iff (s ≠ [] ∧ strip s = s ∧ OneLine s ∧ ¬ "Function: ".toList <:+: s ∧ ¬ "Origin File: ".toList <:+: s)
    ⟨fun h => ⟨h.1,h.2.1,h.2.2.1,h.2.2.2.1,h.2.2.2.2⟩,fun h => ⟨h.some,h.trimmed,h.oneLine,h.noFunction,h.noOrigin⟩⟩

structure Written (ds : List Described) : Prop where
  distinct : (ds.map Described.name).Nodup
  named : ∀ d ∈ ds, Name d.name
  called : ∀ d ∈ ds, ∀ call ∈ d.calls, Name call
  placed : ∀ d ∈ ds, ∀ origin ∈ d.origin, Name origin.1 ∧ ¬ ": ".toList <:+: origin.1

instance (ds : List Described) : Decidable (Written ds) :=
  decidable_of_iff ((ds.map Described.name).Nodup ∧ (∀ d ∈ ds, Name d.name) ∧ (∀ d ∈ ds, ∀ call ∈ d.calls, Name call)
      ∧ ∀ d ∈ ds, ∀ origin ∈ d.origin, Name origin.1 ∧ ¬ ": ".toList <:+: origin.1)
    ⟨fun h => ⟨h.1,h.2.1,h.2.2.1,h.2.2.2⟩,fun h => ⟨h.distinct,h.named,h.called,h.placed⟩⟩

def Unmarked (ds : List Described) : Prop :=
  ∀ d ∈ ds, ∀ origin ∈ d.origin, ¬ "Function".toList <:+ origin.1 ∧ ¬ "Origin File".toList <:+ origin.1

instance (ds : List Described) : Decidable (Unmarked ds) := by
  unfold Unmarked
  infer_instance

theorem functionMarker : Marker "Function: ".toList := ⟨'F',"unction: ".toList,rfl,by decide⟩

theorem originMarker : Marker "Origin File: ".toList := ⟨'O',"rigin File: ".toList,rfl,by decide⟩

theorem colonMarker : Marker ": ".toList := ⟨':',[' '],rfl,by decide⟩

theorem decimalOther {c : Char} (z : Int) (first : c = 'F' ∨ c = 'O' ∨ c = ':') : c ∉ ' '::decimal z := by
  intro listed
  rw [List.mem_cons] at listed
  rcases listed with rfl | number
  · revert first
    decide
  · rcases decimalChars number with rfl | digit
    · revert first
      decide
    · rcases first with rfl | rfl | rfl
      · contradiction
      · contradiction
      · contradiction

theorem placeAbsent {sep w path : Str} {c : Char} {z : Int} (shape : sep = w ++ [':',' ']) (plain : ':' ∉ w) (marked : c ∈ w)
    (other : c ∉ ' '::decimal z) (absent : ¬ sep <:+: path) (ending : ¬ w <:+ path) :
    ¬ sep <:+: path ++ (": ".toList ++ decimal z) := by
  intro found
  rw [shape] at found absent
  change w ++ ':' :: [' '] <:+: path ++ ':' :: ' ' :: decimal z at found
  rcases infixAcross plain (by decide) found with here | later | last
  · exact absent here
  · exact other (later.subset (List.mem_append_left _ marked))
  · exact ending last

theorem functionLines {d : Described} (named : Name d.name) (called : ∀ call ∈ d.calls, Name call)
    (placed : ∀ origin ∈ d.origin, Name origin.1) (unmarked : ∀ origin ∈ d.origin, ¬ "Function".toList <:+ origin.1) :
    ∀ line ∈ d.name::d.rest, ¬ "Function: ".toList <:+: line := by
  intro line listed
  unfold Described.rest at listed
  simp only [List.mem_cons,List.mem_append,Option.mem_toList,Option.map_eq_some_iff,List.mem_map] at listed
  rcases listed with rfl | ⟨origin,found,rfl⟩ | rfl | ⟨call,mem,rfl⟩
  · exact named.noFunction
  · have place := placeAbsent (w := "Function".toList) (by decide) (by decide) (by decide) (decimalOther origin.2 (Or.inl rfl))
      (placed origin found).noFunction (unmarked origin found)
    unfold originLine
    simpa [List.infix_cons_iff] using place
  · decide
  · have absent := (called call mem).noFunction
    unfold callLine
    simpa [List.infix_cons_iff] using absent

theorem textAbsent {d : Described} (lines : ∀ line ∈ d.name::d.rest, ¬ "Function: ".toList <:+: line) :
    ¬ "Function: ".toList <:+: d.text ++ "\n\n".toList := by
  have joined : d.text ++ "\n\n".toList = d.name ++ (d.rest ++ [[],[]]).flatMap (fun line => '\n'::line) := by
    rw [List.flatMap_append,← List.append_assoc]
    rfl
  rw [joined]
  intro found
  obtain ⟨line,listed,inside⟩ := infixJoined (by decide) found
  rw [← List.cons_append,List.mem_append] at listed
  rcases listed with here | last
  · exact lines line here inside
  · have empty : line = [] := by simpa using last
    rw [empty] at inside
    revert inside
    decide

theorem textEnds {d : Described} (named : Name d.name) (called : ∀ call ∈ d.calls, Name call) : Opens d.text ∧ Closes d.text := by
  refine ⟨opensAppend (stripEnds named.some named.trimmed).1,closesAppend ?_⟩
  unfold Described.rest
  rw [List.flatMap_append]
  refine closesAppend ?_
  rw [List.flatMap_cons]
  rcases List.eq_nil_or_concat d.calls with none | ⟨calls,call,last⟩
  · rw [none]
    exact ⟨':',by decide,by decide⟩
  · rw [last,List.concat_eq_append,List.map_append,List.flatMap_append]
    have word := called call (by simp [last])
    have closes : Closes ("\n  ".toList ++ call) := closesAppend (stripEnds word.some word.trimmed).2
    exact closesAppend (closesAppend (by simpa [callLine] using closes))

theorem blockTextsRendered {ds : List Described} (written : Written ds) (unmarked : Unmarked ds) :
    blockTexts (rendered ds) = ds.map Described.text := by
  have absent : ∀ piece ∈ ds.map (fun d => d.text ++ "\n\n".toList), ¬ "Function: ".toList <:+: piece := by
    intro piece listed
    obtain ⟨d,mem,rfl⟩ := List.mem_map.mp listed
    exact textAbsent (functionLines (written.named d mem) (written.called d mem)
      (fun origin found => (written.placed d mem origin found).1) (fun origin found => (unmarked d mem origin found).1))
  have pieces := splitOnJoined functionMarker (u := []) (by decide) absent
  have ends : ∀ d ∈ ds, Opens d.text ∧ Closes d.text := fun d mem => textEnds (written.named d mem) (written.called d mem)
  rw [List.nil_append,List.flatMap_map] at pieces
  rw [blockTexts,rendered,pieces,List.map_cons,List.map_map,List.filter_cons_of_neg (by decide)]
  have stripped : ds.map (strip ∘ fun d => d.text ++ "\n\n".toList) = ds.map Described.text := by
    refine List.map_congr_left ?_
    intro d mem
    exact stripAround (u := []) (ends d mem).1 (ends d mem).2 (by simp) (List.all_eq_true.mp (by decide))
  rw [stripped,List.filter_eq_self]
  intro text listed
  obtain ⟨d,mem,rfl⟩ := List.mem_map.mp listed
  have whole := stripSelf (ends d mem).1 (ends d mem).2
  have some : d.text ≠ [] := List.append_ne_nil_of_left_ne_nil (written.named d mem).some _
  simp [isBlank,whole,some]

theorem callsRead {calls : List Str} (called : ∀ call ∈ calls, Name call) : (calls.map callLine).map strip = calls := by
  rw [List.map_map]
  refine (List.map_congr_left ?_).trans (List.map_id calls)
  intro call mem
  have ends := stripEnds (called call mem).some (called call mem).trimmed
  have read := stripAround (u := "  ".toList) (v := []) ends.1 ends.2 (List.all_eq_true.mp (by decide)) (by simp)
  rw [List.append_nil] at read
  exact read

theorem decimalOneLine (z : Int) : OneLine (decimal z) := by
  constructor
  all_goals
    intro listed
    rcases decimalChars listed with minus | digit
    · exact absurd minus (by decide)
    · exact absurd digit (by decide)

theorem describedLines {d : Described} (named : Name d.name) (called : ∀ call ∈ d.calls, Name call)
    (placed : ∀ origin ∈ d.origin, Name origin.1) : ∀ line ∈ d.name::d.rest, OneLine line := by
  intro line listed
  unfold Described.rest at listed
  simp only [List.mem_cons,List.mem_append,Option.mem_toList,Option.map_eq_some_iff,List.mem_map] at listed
  rcases listed with rfl | ⟨origin,found,rfl⟩ | rfl | ⟨call,mem,rfl⟩
  · exact named.oneLine
  · have marker : OneLine "Origin File: ".toList := by decide
    have colon : OneLine ": ".toList := by decide
    unfold originLine
    exact marker.append ((placed origin found).oneLine.append (colon.append (decimalOneLine origin.2)))
  · decide
  · have blanks : OneLine "  ".toList := by decide
    unfold callLine
    exact blanks.append (called call mem).oneLine

theorem textLines {d : Described} (named : Name d.name) (called : ∀ call ∈ d.calls, Name call)
    (placed : ∀ origin ∈ d.origin, Name origin.1) : lines d.text = d.name::d.rest := by
  have plain := describedLines named called placed
  exact linesJoined named.oneLine.newline (fun line listed => (plain line (List.mem_cons_of_mem _ listed)).newline)

theorem renderedTextMode {ds : List Described} (written : Written ds) : textMode (rendered ds) = rendered ds := by
  refine textModeSame ?_
  unfold rendered
  rw [List.mem_flatMap]
  intro found
  obtain ⟨d,mem,here⟩ := found
  have plain := describedLines (written.named d mem) (written.called d mem) (fun origin listed => (written.placed d mem origin listed).1)
  have body : '\r' ∉ d.text := by
    unfold Described.text
    rw [List.mem_append,List.mem_flatMap]
    intro either
    rcases either with name | ⟨line,listed,inside⟩
    · exact (plain _ List.mem_cons_self).carriage name
    · exact (plain line (List.mem_cons_of_mem _ listed)).carriage (List.mem_of_ne_of_mem (by decide) inside)
  simp only [List.mem_append] at here
  rcases here with marker | text | ending
  · exact absurd marker (by decide)
  · exact body text
  · exact absurd ending (by decide)

theorem originRead {origin : Str × Int} (path : Name origin.1) (plain : ¬ ": ".toList <:+: origin.1)
    (ending : ¬ "Origin File".toList <:+ origin.1) :
    splitOn ": ".toList (replace "Origin File: ".toList [] (originLine origin)) = [origin.1,decimal origin.2] := by
  have absent := placeAbsent (w := "Origin File".toList) (by decide) (by decide) (by decide)
    (decimalOther origin.2 (Or.inr (Or.inl rfl))) path.noOrigin ending
  have number : ¬ ": ".toList <:+: decimal origin.2 := by
    intro found
    have colon : ':' ∈ decimal origin.2 := found.subset (by decide)
    exact decimalOther origin.2 (Or.inr (Or.inr rfl)) (List.mem_cons_of_mem _ colon)
  unfold originLine
  rw [replaceFirst originMarker absent,splitOnMarker colonMarker plain,splitOnAbsent number]

theorem parsePlain {text name second : Str} {rest : List Str} (read : lines text = name::second::rest)
    (unplaced : startsWith second "Origin File: ".toList = false) : parseBlock text = .ok ⟨name,none,-1,rest.map strip⟩ := by
  have item := Py.getItemMiddle [name] rest second
  change Py.getItem (name::second::rest) 1 = _ at item
  unfold parseBlock
  simp only [read,Py.getItemFirst,item,bind,Except.bind,unplaced,Bool.false_eq_true,if_false]
  rfl

theorem parsePlaced {text name second third path number : Str} {rest : List Str} {z : Int} (read : lines text = name::second::third::rest)
    (placed : startsWith second "Origin File: ".toList = true)
    (parts : splitOn ": ".toList (replace "Origin File: ".toList [] second) = [path,number]) (line : int number = .ok z) :
    parseBlock text = .ok ⟨name,some (removePrefix path "./".toList),z,rest.map strip⟩ := by
  have item := Py.getItemMiddle [name] (third::rest) second
  have last := Py.getItemMiddle [path] [] number
  change Py.getItem (name::second::third::rest) 1 = _ at item
  change Py.getItem [path,number] 1 = _ at last
  unfold parseBlock
  simp only [read,Py.getItemFirst,item,bind,Except.bind,placed,if_true,parts,last,line]
  rfl

theorem parseText {d : Described} (named : Name d.name) (called : ∀ call ∈ d.calls, Name call)
    (placed : ∀ origin ∈ d.origin, Name origin.1 ∧ ¬ ": ".toList <:+: origin.1)
    (unmarked : ∀ origin ∈ d.origin, ¬ "Origin File".toList <:+ origin.1) : parseBlock d.text = .ok d.block := by
  have read := textLines named called (fun origin found => (placed origin found).1)
  have calls := callsRead called
  unfold Described.rest at read
  unfold Described.block
  cases place : d.origin with
  | none =>
    rw [place] at read
    rw [parsePlain read (by decide),calls]
    rfl
  | some origin =>
    rw [place] at read
    have parts := originRead (placed origin place).1 (placed origin place).2 (unmarked origin place)
    have marked : startsWith (originLine origin) "Origin File: ".toList = true :=
      List.isPrefixOf_iff_prefix.mpr (List.prefix_append _ _)
    rw [parsePlaced read marked parts (intDecimal origin.2),calls]
    rfl

def blockOf (bs : List Block) (k : Str) : Option Block := bs.find? (fun b => b.funcName = k)

def calleesOf (bs : List Block) (k : Str) : List Str := bs.flatMap (fun b => List.replicate (b.callers.count k) b.funcName)

def graphNode (bs : List Block) (k : Str) : GraphNode :=
  ⟨(blockOf bs k).bind Block.fileName,((blockOf bs k).map Block.fileNumber).getD (-1),k,((blockOf bs k).map Block.callers).getD [],
    calleesOf bs k⟩

theorem blockOfSnoc (bs : List Block) (b : Block) (k : Str) :
    blockOf (bs ++ [b]) k = (blockOf bs k).or (if b.funcName = k then some b else none) := by
  unfold blockOf
  rw [List.find?_append]
  by_cases here : b.funcName = k
  · simp [here]
  · simp [here]

theorem graphNodeSnoc {bs : List Block} {b : Block} (fresh : blockOf bs b.funcName = none) (k : Str) :
    graphNode (bs ++ [b]) k = { describedBy b k (graphNode bs k) with
      callee := (graphNode bs k).callee ++ List.replicate (b.callers.count k) b.funcName } := by
  unfold graphNode describedBy calleesOf
  rw [blockOfSnoc,List.flatMap_append,List.flatMap_singleton]
  by_cases here : k = b.funcName
  · subst here
    simp [fresh]
  · simp [here,Ne.symm here]

theorem blockOfMember {bs : List Block} (distinct : (bs.map Block.funcName).Nodup) {b : Block} (mem : b ∈ bs) :
    blockOf bs b.funcName = some b := by
  cases found : blockOf bs b.funcName with
  | none =>
    rw [blockOf,List.find?_eq_none] at found
    exact absurd (decide_eq_true rfl) (found b mem)
  | some other =>
    have here : other.funcName = b.funcName := by simpa using List.find?_some found
    rw [List.inj_on_of_nodup_map distinct (List.mem_of_find?_eq_some found) mem here]

theorem blockOfAbsent {bs : List Block} {k : Str} (absent : k ∉ bs.map Block.funcName) : blockOf bs k = none := by
  rw [blockOf,List.find?_eq_none]
  intro b mem here
  exact absent (List.mem_map.mpr ⟨b,mem,of_decide_eq_true here⟩)

theorem loadBlockNode (m : NodeMap) (b : Block) (k : Str) : ((loadBlock m b).get? k).getD (.new k) =
    { describedBy b k ((m.get? k).getD (.new k)) with
      callee := ((m.get? k).getD (.new k)).callee ++ List.replicate (b.callers.count k) b.funcName } := by
  rw [loadBlockGet]
  by_cases mentioned : k = b.funcName ∨ k ∈ b.callers
  · rw [if_pos mentioned]
    rfl
  · rw [if_neg mentioned]
    rw [not_or] at mentioned
    cases m.get? k with
    | none =>
      rw [List.count_eq_zero.mpr mentioned.2,describedBy,if_neg mentioned.1]
      rfl
    | some node => rfl

theorem loadAllNode {bs : List Block} (distinct : (bs.map Block.funcName).Nodup) (k : Str) :
    ((bs.foldl CallGraph.load CallGraph.new).nodeMap.get? k).getD (.new k) = graphNode bs k := by
  induction bs using List.reverseRecOn with
  | nil => rfl
  | append_singleton bs b ih =>
    rw [List.map_append,List.nodup_append] at distinct
    have fresh : blockOf bs b.funcName = none := blockOfAbsent (fun listed => distinct.2.2 _ listed _ (by simp) rfl)
    rw [List.foldl_append,graphNodeSnoc fresh,← ih distinct.1]
    exact loadBlockNode _ b k

theorem edgesCount {bs : List Block} (distinct : (bs.map Block.funcName).Nodup) (f g : Str) :
    (graphNode bs g).callee.count f = (graphNode bs f).caller.count g := by
  induction bs using List.reverseRecOn with
  | nil => rfl
  | append_singleton bs b ih =>
    rw [List.map_append,List.nodup_append] at distinct
    have fresh : blockOf bs b.funcName = none := blockOfAbsent (fun listed => distinct.2.2 _ listed _ (by simp) rfl)
    rw [graphNodeSnoc fresh,graphNodeSnoc fresh,List.count_append,ih distinct.1,List.count_replicate]
    by_cases here : f = b.funcName
    · subst here
      simp [describedBy,graphNode,fresh]
    · simp [describedBy,here,Ne.symm here]

structure Reproduced (g : CallGraph) (ds : List Described) : Prop where
  nodes : ∀ k, k ∈ g.nodeMap.keys ↔ ∃ d ∈ ds, k = d.name ∨ k ∈ d.calls
  described : ∀ d ∈ ds, ∃ node, g.nodeMap.get? d.name = some node
    ∧ node.filePath = d.origin.map (fun origin => removePrefix origin.1 "./".toList)
    ∧ node.startLine = (d.origin.map Prod.snd).getD (-1) ∧ node.caller = d.calls
  undescribed : ∀ k node, g.nodeMap.get? k = some node → k ∉ ds.map Described.name → node.caller = []
  edges : ∀ f h caller callee, g.nodeMap.get? f = some caller → g.nodeMap.get? h = some callee →
    callee.callee.count f = caller.caller.count h

theorem loadedNode {bs : List Block} (distinct : (bs.map Block.funcName).Nodup) {k : Str} {node : GraphNode}
    (found : (bs.foldl CallGraph.load CallGraph.new).nodeMap.get? k = some node) : node = graphNode bs k := by
  have whole := loadAllNode distinct k
  rw [found] at whole
  exact whole

theorem loadAllReproduced {ds : List Described} (distinct : (ds.map Described.name).Nodup) :
    Reproduced ((ds.map Described.block).foldl CallGraph.load CallGraph.new) ds := by
  have names : (ds.map Described.block).map Block.funcName = ds.map Described.name := by
    rw [List.map_map]
    rfl
  have nodup : ((ds.map Described.block).map Block.funcName).Nodup := names ▸ distinct
  have nodes : ∀ k, k ∈ ((ds.map Described.block).foldl CallGraph.load CallGraph.new).nodeMap.keys ↔
      ∃ d ∈ ds, k = d.name ∨ k ∈ d.calls := by
    intro k
    rw [memLoadAll]
    simp [CallGraph.new,Described.block]
  refine ⟨nodes,?_,?_,?_⟩
  · intro d mem
    obtain ⟨node,found⟩ := Dict.memKeys.mp ((nodes d.name).mpr ⟨d,mem,Or.inl rfl⟩)
    have block : blockOf (ds.map Described.block) d.name = some d.block := blockOfMember nodup (List.mem_map_of_mem mem)
    refine ⟨node,found,?_⟩
    rw [loadedNode nodup found,graphNode,block]
    exact ⟨rfl,rfl,rfl⟩
  · intro k node found absent
    rw [loadedNode nodup found,graphNode,blockOfAbsent (names ▸ absent)]
    rfl
  · intro f h caller callee first second
    rw [loadedNode nodup first,loadedNode nodup second]
    exact edgesCount nodup f h

/-- A file that describes functions under distinct names is loaded to its end, into the graph it describes:
the nodes are the names in it, each described function has its place and its callers as listed, and the
edges agree at both ends, each as often as it is listed. -/
theorem renderedGraphLoads (ds : List Described) (written : Written ds) (unmarked : Unmarked ds) :
    ∃ g, CallGraph.new.loadFromSource (textMode (rendered ds)) = (g,none) ∧ Reproduced g ds := by
  rw [renderedTextMode written]
  have parsed : (blockTexts (rendered ds)).mapM parseBlock = .ok (ds.map Described.block) := by
    rw [blockTextsRendered written unmarked,List.mapM_map]
    refine Py.mapMTotal ?_
    intro d mem
    exact parseText (written.named d mem) (written.called d mem) (written.placed d mem) (fun origin found => (unmarked d mem origin found).2)
  exact ⟨_,loadTextsDone parsed CallGraph.new,loadAllReproduced written.distinct⟩

def openDescribed : List Described :=
  [⟨"do_open".toList,some ("./fs/open.c".toList,1186),["get_name".toList,"get_name".toList]⟩,⟨"get_name".toList,none,[]⟩]

theorem openGraphLoads : Written openDescribed ∧ Unmarked openDescribed
    ∧ ∃ g, CallGraph.new.loadFromSource (textMode (rendered openDescribed)) = (g,none) ∧ Reproduced g openDescribed :=
  ⟨by decide +kernel,by decide +kernel,renderedGraphLoads openDescribed (by decide +kernel) (by decide +kernel)⟩

def functionPath : List Described := [⟨"f".toList,some ("a/Function".toList,12),[]⟩]

def originPath : List Described := [⟨"f".toList,some ("a/Origin File".toList,12),[]⟩]

theorem markedPathsAbort : Written functionPath ∧ (CallGraph.new.loadFromSource (textMode (rendered functionPath))).2 = some .indexError
    ∧ (CallGraph.new.loadFromSource (textMode (rendered functionPath))).1.nodeMap.keys = []
    ∧ Written originPath ∧ (CallGraph.new.loadFromSource (textMode (rendered originPath))).2 = some .indexError
    ∧ (CallGraph.new.loadFromSource (textMode (rendered originPath))).1.nodeMap.keys = [] := by
  decide +kernel

end KernelTcp.Graph

import KernelTcp.Lib.Dict
import KernelTcp.Lib.Text
import KernelTcp.Lib.Walk

/-! Call graphs and their loader. A node object is only ever reached through the map
and carries its key as its name, so nodes refer to each other by name. Sets are lists
of distinct elements of which only the members are read. -/
namespace KernelTcp.Graph
open Text

structure GraphNode where
  filePath : Option Str
  startLine : Int
  functionName : Str
  caller : List Str
  callee : List Str
  deriving DecidableEq, Repr

def GraphNode.new (functionName : Str) : GraphNode := ⟨none,-1,functionName,[],[]⟩

abbrev NodeMap := Dict Str GraphNode

def getOrCreate (m : NodeMap) (funcName : Str) : NodeMap :=
  if funcName ∈ m.keys then m else m.set funcName (.new funcName)

def edit (f : GraphNode → GraphNode) (m : NodeMap) (name : Str) : NodeMap :=
  match m.get? name with
  | some node => m.set name (f node)
  | none => m

structure Block where
  funcName : Str
  fileName : Option Str
  fileNumber : Int
  callers : List Str
  deriving DecidableEq, Repr

def parseBlock (text : Str) : Except PyError Block := do
  let funcMeta := lines text
  let funcName ← Py.getItem funcMeta 0
  let second ← Py.getItem funcMeta 1
  if startsWith second "Origin File: ".toList then
    let fileMeta := splitOn ": ".toList (replace "Origin File: ".toList [] second)
    let fileName ← Py.getItem fileMeta 0
    let number ← Py.getItem fileMeta 1
    let fileNumber ← int number
    .ok ⟨funcName,some (removePrefix fileName "./".toList),fileNumber,(funcMeta.drop 3).map strip⟩
  else .ok ⟨funcName,none,-1,(funcMeta.drop 2).map strip⟩

def addCallee (callee : Str) (node : GraphNode) : GraphNode := { node with callee := node.callee ++ [callee] }

def loadBlock (m : NodeMap) (b : Block) : NodeMap :=
  let m := getOrCreate m b.funcName
  let m := edit (fun node => { node with filePath := b.fileName, startLine := b.fileNumber }) m b.funcName
  let m := b.callers.foldl getOrCreate m
  let m := edit (fun node => { node with caller := b.callers }) m b.funcName
  b.callers.foldl (edit (addCallee b.funcName)) m

def blockTexts (source : Str) : List Str :=
  ((splitOn "Function: ".toList source).map strip).filter (fun x => !isBlank x)

theorem getGetOrCreate (m : NodeMap) (funcName k : Str) :
    (getOrCreate m funcName).get? k = if k = funcName then some ((m.get? k).getD (.new k)) else m.get? k := by
  unfold getOrCreate
  split
  · rename_i present
    obtain ⟨node,found⟩ := Dict.memKeys.mp present
    split
    · rename_i here
      rw [here,found]
      rfl
    · rfl
  · rename_i absent
    rw [Dict.getSet]
    by_cases here : funcName = k
    · rw [if_pos here,if_pos here.symm,← here,Dict.getNone.mpr absent]
      rfl
    · rw [if_neg here,if_neg (Ne.symm here)]

theorem getEdit (f : GraphNode → GraphNode) (m : NodeMap) (name k : Str) :
    (edit f m name).get? k = if k = name then (m.get? k).map f else m.get? k := by
  unfold edit
  split
  · rename_i node found
    rw [Dict.getSet]
    by_cases here : name = k
    · rw [if_pos here,if_pos here.symm,← here,found]
      rfl
    · rw [if_neg here,if_neg (Ne.symm here)]
  · rename_i absent
    split
    · rename_i here
      rw [here,absent]
      rfl
    · rfl

theorem getCreateAll (m : NodeMap) (names : List Str) (k : Str) :
    (names.foldl getOrCreate m).get? k = if k ∈ names then some ((m.get? k).getD (.new k)) else m.get? k := by
  induction names generalizing m with
  | nil => simp
  | cons name names ih =>
    rw [List.foldl_cons,ih,getGetOrCreate]
    by_cases here : k = name
    · simp [here]
    · simp [here]

theorem getAddAll (callee : Str) (m : NodeMap) (names : List Str) (k : Str) :
    (names.foldl (edit (addCallee callee)) m).get? k = (m.get? k).map
      (fun node => { node with callee := node.callee ++ List.replicate (names.count k) callee }) := by
  induction names generalizing m with
  | nil =>
    rw [List.foldl_nil]
    cases m.get? k <;> simp
  | cons name names ih =>
    rw [List.foldl_cons,ih,getEdit]
    by_cases here : k = name
    · subst here
      cases m.get? k with
      | none => simp
      | some node => simp [addCallee,List.replicate_succ]
    · rw [if_neg here,List.count_cons_of_ne (Ne.symm here)]

def describedBy (b : Block) (k : Str) (node : GraphNode) : GraphNode :=
  if k = b.funcName then { node with filePath := b.fileName, startLine := b.fileNumber, caller := b.callers } else node

theorem loadBlockGet (m : NodeMap) (b : Block) (k : Str) :
    (loadBlock m b).get? k =
      (if k = b.funcName ∨ k ∈ b.callers then some ((m.get? k).getD (.new k)) else m.get? k).map
        (fun node => { describedBy b k node with
          callee := node.callee ++ List.replicate (b.callers.count k) b.funcName }) := by
  simp only [loadBlock,getAddAll,getEdit,getCreateAll,getGetOrCreate,describedBy]
  by_cases here : k = b.funcName
  · simp only [here,if_true,true_or,Option.map_some,Option.getD_some]
    split <;> rfl
  · simp only [here,if_false,false_or]

structure Valid (m : NodeMap) : Prop where
  named : ∀ {k node}, m.get? k = some node → node.functionName = k
  closed : ∀ {k node}, m.get? k = some node → ∀ x, x ∈ node.caller ∨ x ∈ node.callee → x ∈ m.keys

structure CallGraph where
  nodeMap : NodeMap
  valid : Valid nodeMap

theorem validEmpty : Valid Dict.empty := by
  constructor
  · intro k node found
    contradiction
  · intro k node found
    contradiction

def CallGraph.new : CallGraph := ⟨Dict.empty,validEmpty⟩

def callers (m : NodeMap) (name : Str) : List Str := ((m.get? name).map GraphNode.caller).getD []

theorem memLoadBlock {m : NodeMap} {b : Block} {k : Str} :
    k ∈ (loadBlock m b).keys ↔ k ∈ m.keys ∨ k = b.funcName ∨ k ∈ b.callers := by
  rw [Dict.memKeys,Dict.memKeys,loadBlockGet]
  by_cases here : k = b.funcName ∨ k ∈ b.callers
  · simp [here]
  · simp [here]

theorem loadBlockCallers (m : NodeMap) (b : Block) (k : Str) :
    callers (loadBlock m b) k = if k = b.funcName then b.callers else callers m k := by
  unfold callers
  rw [loadBlockGet,Option.map_map]
  by_cases here : k = b.funcName
  · simp [here,describedBy]
  · rw [if_neg here]
    cases found : m.get? k with
    | none => by_cases called : k ∈ b.callers <;> simp [here,called,describedBy,GraphNode.new]
    | some node => simp [here,describedBy]

theorem memCreate {m : NodeMap} {name k : Str} : k ∈ (getOrCreate m name).keys ↔ k ∈ m.keys ∨ k = name := by
  rw [Dict.memKeys,Dict.memKeys,getGetOrCreate]
  by_cases here : k = name
  · simp [here]
  · simp [here]

theorem memEdit {f : GraphNode → GraphNode} {m : NodeMap} {name k : Str} : k ∈ (edit f m name).keys ↔ k ∈ m.keys := by
  rw [Dict.memKeys,Dict.memKeys,getEdit]
  split
  · simp
  · rfl

theorem createValid {m : NodeMap} (h : Valid m) (name : Str) : Valid (getOrCreate m name) := by
  have old : ∀ {k node}, (getOrCreate m name).get? k = some node → m.get? k = some node ∨ node = .new k := by
    intro k node found
    rw [getGetOrCreate] at found
    split at found
    · cases before : m.get? k with
      | none =>
        rw [before] at found
        exact Or.inr (Option.some.inj found).symm
      | some first =>
        rw [before] at found
        exact Or.inl found
    · exact Or.inl found
  constructor
  · intro k node found
    rcases old found with before | rfl
    · exact h.named before
    · rfl
  · intro k node found x hx
    rcases old found with before | rfl
    · exact memCreate.mpr (Or.inl (h.closed before x hx))
    · simp [GraphNode.new] at hx

theorem editValid {m : NodeMap} (h : Valid m) {f : GraphNode → GraphNode} (name : Str)
    (keeps : ∀ node, (f node).functionName = node.functionName)
    (inside : ∀ node x, x ∈ (f node).caller ∨ x ∈ (f node).callee →
      (x ∈ node.caller ∨ x ∈ node.callee) ∨ x ∈ m.keys) : Valid (edit f m name) := by
  constructor
  · intro k node found
    rw [getEdit] at found
    split at found
    · obtain ⟨first,before,rfl⟩ := Option.map_eq_some_iff.mp found
      rw [keeps]
      exact h.named before
    · exact h.named found
  · intro k node found x hx
    rw [memEdit]
    rw [getEdit] at found
    split at found
    · obtain ⟨first,before,rfl⟩ := Option.map_eq_some_iff.mp found
      rcases inside first x hx with old | new
      · exact h.closed before x old
      · exact new
    · exact h.closed found x hx

theorem createAllValid {m : NodeMap} (h : Valid m) (names : List Str) : Valid (names.foldl getOrCreate m) := by
  induction names generalizing m with
  | nil => exact h
  | cons name names ih => exact ih (createValid h name)

theorem memCreateAll {m : NodeMap} {names : List Str} {k : Str} :
    k ∈ (names.foldl getOrCreate m).keys ↔ k ∈ m.keys ∨ k ∈ names := by
  induction names generalizing m with
  | nil => simp
  | cons name names ih => rw [List.foldl_cons,ih,memCreate,List.mem_cons,or_assoc]

theorem addCalleeValid {m : NodeMap} (h : Valid m) {callee : Str} (present : callee ∈ m.keys) (name : Str) :
    Valid (edit (addCallee callee) m name) := by
  refine editValid h name (fun _ => rfl) ?_
  intro node x hx
  rcases hx with caller | added
  · exact Or.inl (Or.inl caller)
  · rcases List.mem_append.mp added with old | new
    · exact Or.inl (Or.inr old)
    · rw [List.mem_singleton.mp new]
      exact Or.inr present

theorem addAllValid {m : NodeMap} (h : Valid m) {callee : Str} (present : callee ∈ m.keys) (names : List Str) :
    Valid (names.foldl (edit (addCallee callee)) m) := by
  induction names generalizing m with
  | nil => exact h
  | cons name names ih => exact ih (addCalleeValid h present name) (memEdit.mpr present)

theorem loadBlockValid {m : NodeMap} (h : Valid m) (b : Block) : Valid (loadBlock m b) := by
  have created := createValid h b.funcName
  have placed := editValid created (f := fun node => { node with filePath := b.fileName, startLine := b.fileNumber })
    b.funcName (fun _ => rfl) (fun _ _ hx => Or.inl hx)
  have called := createAllValid placed b.callers
  have linked := editValid called (f := fun node => { node with caller := b.callers }) b.funcName (fun _ => rfl) (by
    intro node x hx
    rcases hx with caller | callee
    · exact Or.inr (memCreateAll.mpr (Or.inr caller))
    · exact Or.inl (Or.inr callee))
  apply addAllValid linked
  exact memEdit.mpr (memCreateAll.mpr (Or.inl (memEdit.mpr (memCreate.mpr (Or.inr rfl)))))

namespace CallGraph

def load (g : CallGraph) (b : Block) : CallGraph := ⟨loadBlock g.nodeMap b,loadBlockValid g.valid b⟩

/- The blocks are read and entered one by one; a block that cannot be read leaves
those before it entered. -/
def loadTexts (g : CallGraph) : List Str → CallGraph × Option PyError
  | [] => (g,none)
  | text::texts => match parseBlock text with
    | .error e => (g,some e)
    | .ok b => loadTexts (g.load b) texts

def loadFromSource (g : CallGraph) (source : Str) : CallGraph × Option PyError := g.loadTexts (blockTexts source)

end CallGraph

def WellFormed (source : Str) : Prop := ∃ bs, (blockTexts source).mapM parseBlock = .ok bs

theorem loadTextsDone {texts : List Str} {bs : List Block} (read : texts.mapM parseBlock = .ok bs) (g : CallGraph) :
    g.loadTexts texts = (bs.foldl CallGraph.load g,none) := by
  induction texts generalizing g bs with
  | nil =>
    cases Except.ok.inj read
    rfl
  | cons text texts ih =>
    rw [List.mapM_cons] at read
    obtain ⟨b,first,rest⟩ := Py.bindOk.mp read
    obtain ⟨others,tail,last⟩ := Py.bindOk.mp rest
    cases Except.ok.inj last
    rw [CallGraph.loadTexts,first]
    exact ih tail (g.load b)

theorem memLoadAll {bs : List Block} {g : CallGraph} {k : Str} :
    k ∈ (bs.foldl CallGraph.load g).nodeMap.keys ↔
      k ∈ g.nodeMap.keys ∨ ∃ b ∈ bs, k = b.funcName ∨ k ∈ b.callers := by
  induction bs generalizing g with
  | nil => simp
  | cons b bs ih =>
    rw [List.foldl_cons,ih]
    unfold CallGraph.load
    rw [memLoadBlock]
    simp only [List.mem_cons,exists_eq_or_imp,or_assoc]

theorem callersLoadAll (bs : List Block) (g : CallGraph) (k : Str) :
    callers (bs.foldl CallGraph.load g).nodeMap k =
      ((bs.filter (fun b => b.funcName = k)).getLast?.map Block.callers).getD (callers g.nodeMap k) := by
  induction bs generalizing g with
  | nil => rfl
  | cons b bs ih =>
    rw [List.foldl_cons,ih]
    unfold CallGraph.load
    rw [loadBlockCallers]
    by_cases here : b.funcName = k
    · rw [List.filter_cons_of_pos (by simpa using here),if_pos here.symm]
      cases last : (bs.filter (fun b => b.funcName = k)).getLast? with
      | none =>
        rw [List.getLast?_eq_none_iff] at last
        rw [last]
        rfl
      | some other => rw [List.getLast?_cons,last]; rfl
    · rw [List.filter_cons_of_neg (by simpa using here),if_neg (Ne.symm here)]

def loadLine (m : NodeMap) (line : Str) : NodeMap :=
  match splitOn " : ".toList line with
  | [] => m
  | [first] => getOrCreate m (strip first)
  | first::second::_ =>
      let funcName := strip first
      let callerName := strip second
      let m := getOrCreate (getOrCreate m funcName) callerName
      let m := edit (fun node => { node with caller := node.caller ++ [callerName] }) m funcName
      edit (addCallee funcName) m callerName

theorem loadLineValid {m : NodeMap} (h : Valid m) (line : Str) : Valid (loadLine m line) := by
  unfold loadLine
  split
  · exact h
  · exact createValid h _
  · rename_i first second rest _
    have created := createValid (createValid h (strip first)) (strip second)
    have linked := editValid created (f := fun node => { node with caller := node.caller ++ [strip second] })
      (strip first) (fun _ => rfl) (by
        intro node x hx
        rcases hx with caller | callee
        · rcases List.mem_append.mp caller with old | new
          · exact Or.inl (Or.inl old)
          · rw [List.mem_singleton.mp new]
            exact Or.inr (memCreate.mpr (Or.inr rfl))
        · exact Or.inl (Or.inr callee))
    exact addCalleeValid linked (memEdit.mpr (memCreate.mpr (Or.inl (memCreate.mpr (Or.inr rfl))))) _

def glibcGraph (source : Str) : CallGraph :=
  (((lines source).map strip).filter (fun x => !isBlank x)).foldl
    (fun g line => ⟨loadLine g.nodeMap line,loadLineValid g.valid line⟩) CallGraph.new

end KernelTcp.Graph

import KernelTcp.Git.DiffBlocks
import KernelTcp.Graph.CallGraph
import KernelTcp.Lib.First

/-! The texts that stand for a code change: the changed lines alone, or with the bodies of the
functions around them. The function of a block is looked up in the call graph; a node's `callee`
are the functions that call it and its `caller` those that it calls. Their bodies are cut out of
their files. What the commit holds and the parser are outside. -/
namespace KernelTcp.Git
open Located Text
open KernelTcp.Graph (CallGraph GraphNode)

structure Revision where
  fileContent : Str → Option Str
  parse : Str → Node

-- a declarator of another name is passed over; one outside of every definition ends the search
def bodyLoop (functionName : Str) : Nat → List (Located NodeInfo) → List Node → Except PyError (Option (List Node))
  | 0, _, candidates => .ok (some candidates)
  | _+1, [], candidates => .ok (some candidates)
  | fuel+1, cur::stack, candidates =>
      if isDeclarator cur then do
        let fn ← Py.getItem cur.tree.children 0
        if fn.label.text = functionName then
          match definitionOf cur with
          | none => .ok none
          | some fa => bodyLoop functionName fuel stack (candidates ++ [fa])
        else bodyLoop functionName fuel stack candidates
      else bodyLoop functionName fuel (cur.children.reverse ++ stack) candidates

def rowDistance (startLine : Int) (fa : Node) : Nat := (fa.label.startRow - startLine).natAbs

def getFunctionBody (node : Node) (functionName : Str) (startLine : Int) : Except PyError (Option Str) := do
  let candidates ← bodyLoop functionName node.size [Located.root node] []
  .ok (candidates.map (fun candidates =>
    match nearest (rowDistance startLine) 10000000 candidates with
    | none => []
    | some res => res.label.text))

-- a name counts up to its first dot
def nodesOf (cg : CallGraph) (funcName filePath : Str) : List GraphNode :=
  (cg.nodeMap.entries.filter (fun e => (splitOn ".".toList e.1).headD [] = funcName ∧ e.2.filePath = some filePath)).map Prod.snd

def lineDistance (line : Nat) (node : GraphNode) : Nat := (node.startLine - line).natAbs

/- The scope that is given is never without a line here. -/
def getNode (cg : CallGraph) (funcName filePath : Str) (line : Nat) : Option GraphNode :=
  nearest (lineDistance line) 100000000 (nodesOf cg funcName filePath)

def nodeNamed (cg : CallGraph) (name : Str) : GraphNode := (cg.nodeMap.get? name).getD (.new name)

-- a file that is not in the commit is skipped
def bodyOf (rev : Revision) (ce : GraphNode) : Except PyError (List (Option Str)) :=
  match ce.filePath.bind rev.fileContent with
  | none => .ok []
  | some cCodeSnippet => do
      let body ← getFunctionBody (rev.parse cCodeSnippet) ce.functionName ce.startLine
      .ok [body]

def bodies (rev : Revision) (cg : CallGraph) (names : List Str) : Except PyError (List (Option Str)) := do
  let found ← names.mapM (fun name => bodyOf rev (nodeNamed cg name))
  .ok found.flatten

def contentsAround (rev : Revision) (cg : CallGraph) (db : DiffBlock) : Except PyError (List (Option Str)) :=
  match getNode cg db.belongedFunction db.filePath db.modifiedLineScope.1 with
  | none => .ok [some db.content]
  | some cgNode => do
      let calleeBodyContents ← bodies rev cg cgNode.callee
      let callerBodyContents ← bodies rev cg cgNode.caller
      .ok (some db.content::(calleeBodyContents ++ callerBodyContents))

def getDiffContents (rev : Revision) (cg : CallGraph) (files : List ModifiedFile) (strategy : Str) : Except PyError (List (Option Str)) := do
  let diffList ← getDiffBlocks rev.parse files
  if strategy = "default".toList then .ok (diffList.map (fun db => some db.content))
  else if strategy = "context".toList then do
    let res ← diffList.mapM (contentsAround rev cg)
    .ok res.flatten
  else .ok []

section Body
variable {root : Node} {functionName : Str}

def isNamed (functionName : Str) (l : Located NodeInfo) : Bool := l.tree.children.head?.map (fun fn => fn.label.text) = some functionName

def gather (functionName : Str) : List (Located NodeInfo) → List Node → Except PyError (Option (List Node))
  | [], candidates => .ok (some candidates)
  | l::rest, candidates => do
      let fn ← Py.getItem l.tree.children 0
      if fn.label.text = functionName then
        match definitionOf l with
        | none => .ok none
        | some fa => gather functionName rest (candidates ++ [fa])
      else gather functionName rest candidates

theorem bodyLoopGathers (fuel : Nat) (stack : List (Located NodeInfo)) (candidates : List Node) :
    bodyLoop functionName fuel stack candidates = gather functionName ((popOrder enters fuel stack).filter isDeclarator) candidates := by
  induction fuel generalizing stack candidates with
  | zero => rfl
  | succ fuel ih =>
    cases stack with
    | nil => rfl
    | cons cur stack =>
      rw [bodyLoop,popOrder,List.filter_cons]
      cases declares : isDeclarator cur with
      | true => simp only [enters,declares,if_true,Bool.not_true,Bool.false_eq_true,if_false,List.nil_append,gather,ih]
      | false => simp only [enters,declares,Bool.not_false,Bool.false_eq_true,if_true,if_false,ih]

structure Declares (root : Node) (functionName : Str) (l : Located NodeInfo) : Prop where
  reached : Reached root l
  declarator : isDeclarator l = true
  named : isNamed functionName l = true

theorem gatherNamed {l : Located NodeInfo} (child : l.tree.children ≠ []) (rest : List (Located NodeInfo)) (candidates : List Node) :
    gather functionName (l::rest) candidates = if isNamed functionName l then
      match definitionOf l with
      | none => .ok none
      | some fa => gather functionName rest (candidates ++ [fa])
    else gather functionName rest candidates := by
  obtain ⟨fn,others,children⟩ := List.exists_cons_of_ne_nil child
  rw [gather,children,Py.getItemFirst]
  simp only [bind,Except.bind,isNamed,children,List.head?_cons,Option.map_some,Option.some.injEq,decide_eq_true_eq]

theorem gathered {ls : List (Located NodeInfo)} (shaped : ∀ l ∈ ls, l.tree.children ≠ []) (candidates : List Node) :
    (∃ fas, gather functionName ls candidates = .ok (some (candidates ++ fas)) ∧
      List.Forall₂ (fun l fa => definitionOf l = some fa) (ls.filter (isNamed functionName)) fas) ∨
    (gather functionName ls candidates = .ok none ∧ ∃ l ∈ ls, isNamed functionName l = true ∧ definitionOf l = none) := by
  induction ls generalizing candidates with
  | nil => exact Or.inl ⟨[],by rw [List.append_nil]; rfl,.nil⟩
  | cons l ls ih =>
    rw [List.forall_mem_cons] at shaped
    rw [gatherNamed shaped.1,List.filter_cons]
    by_cases named : isNamed functionName l = true
    · rw [if_pos named,if_pos named]
      cases above : definitionOf l with
      | none => exact Or.inr ⟨rfl,l,List.mem_cons_self,named,above⟩
      | some fa =>
        cases ih shaped.2 (candidates ++ [fa]) with
        | inl all =>
          obtain ⟨fas,run,known⟩ := all
          rw [List.append_assoc] at run
          exact Or.inl ⟨fa::fas,run,.cons above known⟩
        | inr ends =>
          obtain ⟨run,other,listed,facts⟩ := ends
          exact Or.inr ⟨run,other,List.mem_cons_of_mem l listed,facts⟩
    · rw [if_neg named,if_neg named]
      cases ih shaped.2 candidates with
      | inl all => exact Or.inl all
      | inr ends =>
        obtain ⟨run,other,listed,facts⟩ := ends
        exact Or.inr ⟨run,other,List.mem_cons_of_mem l listed,facts⟩

/- What stands for the function in a file: nothing, when one of its declarators is only a prototype;
an empty text, when no definition of it starts near enough to the line; and otherwise the text of
the definition that starts nearest. -/
inductive IsBody (root : Node) (functionName : Str) (startLine : Int) : Option Str → Prop where
  | prototype {l} (declares : Declares root functionName l) (outside : definitionOf l = none) :
      IsBody root functionName startLine none
  | missing (defined : ∀ l, Declares root functionName l → ∃ fa, definitionOf l = some fa ∧ 10000000 ≤ rowDistance startLine fa) :
      IsBody root functionName startLine (some [])
  | found {l fa} (declares : Declares root functionName l) (definition : definitionOf l = some fa)
      (near : rowDistance startLine fa < 10000000)
      (nearest : ∀ l', Declares root functionName l' → ∃ fa', definitionOf l' = some fa' ∧ rowDistance startLine fa ≤ rowDistance startLine fa') :
      IsBody root functionName startLine (some fa.label.text)

def Shaped (root : Node) : Prop := ∀ l, Reached root l → isDeclarator l = true → l.tree.children ≠ []

theorem functionBody (shaped : Shaped root) (functionName : Str) (startLine : Int) :
    ∃ body, getFunctionBody root functionName startLine = .ok body ∧ IsBody root functionName startLine body := by
  have met : ∀ l ∈ (popOrder enters root.size [Located.root root]).filter isDeclarator, l.tree.children ≠ [] := by
    intro l listed
    obtain ⟨reached,declares⟩ := memDeclarators.mp listed
    exact shaped l reached declares
  unfold getFunctionBody
  rw [bodyLoopGathers]
  cases gathered met [] with
  | inr ends =>
    obtain ⟨run,l,listed,named,outside⟩ := ends
    obtain ⟨reached,declares⟩ := memDeclarators.mp listed
    rw [run]
    exact ⟨none,rfl,.prototype ⟨reached,declares,named⟩ outside⟩
  | inl all =>
    obtain ⟨fas,run,known⟩ := all
    have listed : ∀ l, Declares root functionName l → ∃ fa ∈ fas, definitionOf l = some fa := by
      intro l declares
      exact Py.rowsLeft known (List.mem_filter.mpr ⟨memDeclarators.mpr ⟨declares.reached,declares.declarator⟩,declares.named⟩)
    rw [run,List.nil_append]
    refine ⟨_,rfl,?_⟩
    dsimp only [Option.map_some]
    cases here : KernelTcp.nearest (rowDistance startLine) 10000000 fas with
    | none =>
      refine .missing ?_
      intro l declares
      obtain ⟨fa,member,definition⟩ := listed l declares
      exact ⟨fa,definition,nearestNone here fa member⟩
    | some fa =>
      have near := nearestFound here
      obtain ⟨l,member,definition⟩ := Py.rowsRight known near.2.mem
      obtain ⟨walked,named⟩ := List.mem_filter.mp member
      obtain ⟨reached,declarator⟩ := memDeclarators.mp walked
      refine .found ⟨reached,declarator,named⟩ definition near.1 ?_
      intro other declares
      obtain ⟨fa',member,definition⟩ := listed other declares
      exact ⟨fa',definition,near.least member⟩

end Body

section Around
variable {rev : Revision} {cg : CallGraph}

def readable (rev : Revision) (cg : CallGraph) (name : Str) : Option (GraphNode × Str) :=
  ((nodeNamed cg name).filePath.bind rev.fileContent).map (fun text => (nodeNamed cg name,text))

def Candidate (db : DiffBlock) (e : Str × GraphNode) : Prop :=
  (splitOn ".".toList e.1).headD [] = db.belongedFunction ∧ e.2.filePath = some db.filePath

instance (db : DiffBlock) (e : Str × GraphNode) : Decidable (Candidate db e) := by unfold Candidate; infer_instance

def startDistance (db : DiffBlock) (e : Str × GraphNode) : Nat := (e.2.startLine - db.modifiedLineScope.1).natAbs

/- The functions around a block: those that call its function and then those that it calls, its
function being the first of the nearest candidates; none, if no candidate is near. -/
inductive Around (cg : CallGraph) (db : DiffBlock) : List Str → Prop where
  | of {before after e} (entries : cg.nodeMap.entries = before ++ e::after) (candidate : Candidate db e)
      (near : startDistance db e < 100000000) (earlier : ∀ f ∈ before, Candidate db f → startDistance db e < startDistance db f)
      (later : ∀ f ∈ after, Candidate db f → startDistance db e ≤ startDistance db f) : Around cg db (e.2.callee ++ e.2.caller)
  | alone (far : ∀ e ∈ cg.nodeMap.entries, Candidate db e → 100000000 ≤ startDistance db e) : Around cg db []

abbrev BodyFor (rev : Revision) (e : GraphNode × Str) (body : Option Str) : Prop :=
  IsBody (rev.parse e.2) e.1.functionName e.1.startLine body

theorem bodiesFound (cg : CallGraph) (shaped : ∀ text, Shaped (rev.parse text)) (names : List Str) :
    ∃ found, bodies rev cg names = .ok found ∧ List.Forall₂ (BodyFor rev) (names.filterMap (readable rev cg)) found := by
  unfold bodies
  induction names with
  | nil => exact ⟨[],rfl,.nil⟩
  | cons name names ih =>
    obtain ⟨found,run,known⟩ := ih
    obtain ⟨parts,each,joined⟩ := Py.bindOk.mp run
    cases Except.ok.inj joined
    rw [List.mapM_cons,List.filterMap_cons,each]
    unfold readable bodyOf
    cases (nodeNamed cg name).filePath.bind rev.fileContent with
    | none => exact ⟨parts.flatten,rfl,known⟩
    | some text =>
      obtain ⟨body,cut,is⟩ := functionBody (shaped text) (nodeNamed cg name).functionName (nodeNamed cg name).startLine
      refine ⟨body::parts.flatten,?_,.cons is known⟩
      simp only [cut,bind,Except.bind]
      rfl

theorem nodeAround {db : DiffBlock} {node : GraphNode} (found : getNode cg db.belongedFunction db.filePath db.modifiedLineScope.1 = some node) :
    Around cg db (node.callee ++ node.caller) := by
  obtain ⟨near,first⟩ := nearestFound found
  obtain ⟨before,e,after,entries,candidate,rfl,earlier,later⟩ := first.unfiltered
  exact .of entries candidate near earlier later

theorem blockAround (rev : Revision) (cg : CallGraph) (shaped : ∀ text, Shaped (rev.parse text)) (db : DiffBlock) :
    ∃ names found, Around cg db names ∧ contentsAround rev cg db = .ok (some db.content::found) ∧
      List.Forall₂ (BodyFor rev) (names.filterMap (readable rev cg)) found := by
  unfold contentsAround
  cases here : getNode cg db.belongedFunction db.filePath db.modifiedLineScope.1 with
  | none =>
    refine ⟨[],[],.alone ?_,rfl,.nil⟩
    intro e listed candidate
    exact nearestNone here e.2 (List.mem_map.mpr ⟨e,List.mem_filter.mpr ⟨listed,by simpa [Candidate] using candidate⟩,rfl⟩)
  | some node =>
    obtain ⟨callees,first,calleesKnown⟩ := bodiesFound cg shaped node.callee
    obtain ⟨callers,second,callersKnown⟩ := bodiesFound cg shaped node.caller
    refine ⟨_,callees ++ callers,nodeAround here,?_,?_⟩
    · simp only [first,second,bind,Except.bind]
    · rw [List.filterMap_append]
      exact List.rel_append calleesKnown callersKnown

theorem nothingAround {db : DiffBlock} (empty : cg.nodeMap.entries = []) {names : List Str} (around : Around cg db names) : names = [] := by
  cases around with
  | of entries => simp [empty] at entries
  | alone => rfl

theorem ownSublist {blocks : List DiffBlock} {parts : List (List (Option Str))} {P : DiffBlock → List (Option Str) → Prop}
    (each : List.Forall₂ (fun db part => ∃ found, part = some db.content::found ∧ P db found) blocks parts) :
    (blocks.map (fun db => some db.content)).Sublist parts.flatten := by
  induction each with
  | nil => exact List.Sublist.refl _
  | cons here _ ih =>
    obtain ⟨found,rfl,_⟩ := here
    exact (ih.trans (List.sublist_append_right found _)).cons_cons _

theorem ownAlone {blocks : List DiffBlock} {parts : List (List (Option Str))}
    (each : List.Forall₂ (fun db part => ∃ found, part = some db.content::found ∧ found = []) blocks parts) :
    blocks.map (fun db => some db.content) = parts.flatten := by
  induction each with
  | nil => rfl
  | cons here _ ih =>
    obtain ⟨_,rfl,rfl⟩ := here
    rw [List.map_cons,ih]
    rfl

end Around

theorem shapedOf {root : Node} (checked : (((popOrder enters root.size [Located.root root]).filter isDeclarator).all
    (fun l => !l.tree.children.isEmpty)) = true) : Shaped root := by
  intro l reached declares none
  have here := List.all_eq_true.mp checked l (memDeclarators.mpr ⟨reached,declares⟩)
  rw [none] at here
  contradiction

def callingNode : Node := .node ⟨.functionDefinition,"int h() \x7b f(); \x7d".toList,0,0⟩ [named "h"]

def prototypeRevision : Revision where
  fileContent path := if path = "g.c".toList then some "int g();".toList else if path = "h.c".toList then some "int h".toList else none
  parse text := if text = "int g();".toList then withPrototype
    else .node ⟨.other "translation_unit".toList,[],0,3⟩ [if text = "int h".toList then callingNode else definitionNode]

def changedCaller : List ModifiedFile := [⟨"f.c".toList,["  a".toList,"- b".toList,"+ c".toList],some []⟩]

def callerGraph : CallGraph := (CallGraph.new.loadFromSource ("Function: h\nOrigin File: ./h.c: 1\nCalls:\nf\n".toList ++
  "Function: f\nOrigin File: ./f.c: 2\nCalls:\ng\nFunction: g\nOrigin File: ./g.c: 1\nCalls:".toList)).1

def changedBlock : DiffBlock := ⟨(2,2),(1,2),"f.c".toList,"- b\n+ c".toList,"f".toList,some []⟩

end KernelTcp.Git

import KernelTcp.Lib.Text
import KernelTcp.Lib.Tree

/-! `CodeAstParser.get_functions_scope`: the functions of a syntax tree with their rows. The
parser is outside; a node carries what is read of it, and its parent is the node above it. -/
namespace KernelTcp.Git
open Located

inductive NodeType where
  | functionDeclarator
  | functionDefinition
  | callExpression
  | identifier
  | other (name : Str)
  deriving DecidableEq, Repr

structure NodeInfo where
  type : NodeType
  text : Str
  startRow : Nat
  endRow : Nat
  deriving DecidableEq, Repr

abbrev Node := Tree NodeInfo

structure Scope where
  name : Str
  startRow : Nat
  endRow : Nat
  deriving DecidableEq, Repr

def isDeclarator (l : Located NodeInfo) : Bool := l.tree.label.type = .functionDeclarator

def isDefinition (t : Node) : Bool := t.label.type = .functionDefinition

-- up from the declarator itself to the nearest definition
def definitionOf (l : Located NodeInfo) : Option Node := (l.tree::l.ancestors).find? isDefinition

/- A declarator outside of every definition ends the search with nothing. -/
def scopeLoop : Nat → List (Located NodeInfo) → List Scope → Except PyError (List Scope)
  | 0, _, res => .ok res
  | _+1, [], res => .ok res
  | fuel+1, cur::stack, res =>
      if isDeclarator cur then do
        let first ← Py.getItem cur.tree.children 0
        match definitionOf cur with
        | none => .ok []
        | some fa => scopeLoop fuel stack (res ++ [⟨first.label.text,fa.label.startRow,fa.label.endRow⟩])
      else scopeLoop fuel (cur.children.reverse ++ stack) res

def getFunctionsScope (root : Node) : Except PyError (List Scope) := scopeLoop root.size [Located.root root] []

def enters (l : Located NodeInfo) : Bool := !isDeclarator l

def scopeOf (l : Located NodeInfo) : Option Scope :=
  match l.tree.children, definitionOf l with
  | first::_, some fa => some ⟨first.label.text,fa.label.startRow,fa.label.endRow⟩
  | _, _ => none

def collect : List (Located NodeInfo) → List Scope → Except PyError (List Scope)
  | [], res => .ok res
  | l::rest, res => do
      let first ← Py.getItem l.tree.children 0
      match definitionOf l with
      | none => .ok []
      | some fa => collect rest (res ++ [⟨first.label.text,fa.label.startRow,fa.label.endRow⟩])

theorem scopeLoopCollects (fuel : Nat) (stack : List (Located NodeInfo)) (res : List Scope) :
    scopeLoop fuel stack res = collect ((popOrder enters fuel stack).filter isDeclarator) res := by
  induction fuel generalizing stack res with
  | zero => rfl
  | succ fuel ih =>
    cases stack with
    | nil => rfl
    | cons cur stack =>
      rw [scopeLoop,popOrder,List.filter_cons]
      cases declares : isDeclarator cur with
      | true =>
        simp only [enters,declares,if_true,Bool.not_true,Bool.false_eq_true,if_false,List.nil_append,collect,ih]
      | false =>
        simp only [enters,declares,Bool.not_false,Bool.false_eq_true,if_true,if_false,ih]

theorem collectStep {l : Located NodeInfo} {s : Scope} (known : scopeOf l = some s) (rest : List (Located NodeInfo))
    (res : List Scope) : collect (l::rest) res = collect rest (res ++ [s]) := by
  unfold scopeOf at known
  split at known
  · rename_i first _ fa named above
    cases Option.some.inj known
    rw [collect,named,above,Py.getItemFirst]
    rfl
  · contradiction

theorem collectAll {ls : List (Located NodeInfo)} (known : ∀ l ∈ ls, (scopeOf l).isSome = true) (res : List Scope) :
    collect ls res = .ok (res ++ ls.filterMap scopeOf) := by
  induction ls generalizing res with
  | nil => simp [collect]
  | cons l ls ih =>
    obtain ⟨s,here⟩ := Option.isSome_iff_exists.mp (known l List.mem_cons_self)
    rw [collectStep here,ih (fun l mem => known l (List.mem_cons_of_mem _ mem)),List.filterMap_cons_some here]
    simp

theorem collectEnds {ls : List (Located NodeInfo)} {l : Located NodeInfo} (mem : l ∈ ls) (unknown : scopeOf l = none)
    (res : List Scope) : ∀ list, collect ls res = .ok list → list = [] := by
  induction ls generalizing res with
  | nil => simp at mem
  | cons first ls ih =>
    intro list done
    cases here : scopeOf first with
    | some s =>
      rw [collectStep here] at done
      rcases List.mem_cons.mp mem with rfl | later
      · simp [unknown] at here
      · exact ih later _ list done
    | none =>
      rw [collect] at done
      obtain ⟨name,named,done⟩ := Py.bindOk.mp done
      split at done
      · exact (Except.ok.inj done).symm
      · rename_i fa above
        have inside := Py.getItemFound (n := 0) named
        unfold scopeOf at here
        split at here
        · contradiction
        · rename_i missing
          cases below : first.tree.children with
          | nil => simp [below] at inside
          | cons child rest => exact absurd above (missing child rest fa below)

def Defines (d : Located NodeInfo) (s : Scope) : Prop := isDefinition d.tree = true ∧ ∃ f ∈ d.tree.children,
  f.label.type = .functionDeclarator ∧ ∃ first rest, f.children = first::rest
    ∧ s = ⟨first.label.text,d.tree.label.startRow,d.tree.label.endRow⟩

def Reached (root : Node) (l : Located NodeInfo) : Prop := Met enters (Located.root root) l

theorem memDeclarators {root : Node} {l : Located NodeInfo} :
    l ∈ (popOrder enters root.size [Located.root root]).filter isDeclarator ↔ Reached root l ∧ isDeclarator l = true := by
  have enough : weight [Located.root root] ≤ root.size := by simp [weight,Tree.sizes,Located.root]
  rw [List.mem_filter,memPopOrder enough]
  simp [Reached]

theorem definesReached {root : Node} {d : Located NodeInfo} {s : Scope} (reached : Reached root d) (defines : Defines d s) :
    ∃ l, Reached root l ∧ isDeclarator l = true ∧ scopeOf l = some s := by
  obtain ⟨definition,f,mem,declares,first,rest,named,rfl⟩ := defines
  have type : d.tree.label.type = .functionDefinition := by simpa [isDefinition] using definition
  have opened : enters d = true := by simp [enters,isDeclarator,type]
  refine ⟨d.below f,.child reached opened (List.mem_map_of_mem mem),by simp [isDeclarator,below,declares],?_⟩
  have above : definitionOf (d.below f) = some d.tree := by
    simp [definitionOf,below,isDefinition,declares,type]
  unfold scopeOf
  rw [above]
  simp [below,named]

theorem scopesOfDeclarators {root : Node} (known : ∀ l, Reached root l → isDeclarator l = true → (scopeOf l).isSome = true) :
    getFunctionsScope root = .ok (((popOrder enters root.size [Located.root root]).filter isDeclarator).filterMap scopeOf) := by
  unfold getFunctionsScope
  rw [scopeLoopCollects,collectAll]
  · rfl
  · intro l mem
    obtain ⟨reached,declares⟩ := memDeclarators.mp mem
    exact known l reached declares

theorem reportedKnown {root : Node} {list : List Scope} {s : Scope} (run : getFunctionsScope root = .ok list) (mem : s ∈ list)
    (l : Located NodeInfo) (reached : Reached root l) (declares : isDeclarator l = true) : (scopeOf l).isSome = true := by
  cases here : scopeOf l with
  | some s => rfl
  | none =>
    unfold getFunctionsScope at run
    rw [scopeLoopCollects] at run
    rw [collectEnds (memDeclarators.mpr ⟨reached,declares⟩) here [] list run] at mem
    contradiction

/-- Every definition is reported exactly when there is none, or every declarator that is met
lies in a definition and has a name, and what a definition below another declarator would
add is reported for one that is met. -/
theorem definitionsFound (root : Node) :
    (∀ d s, Inside (Located.root root) d → Defines d s → ∃ list, getFunctionsScope root = .ok list ∧ s ∈ list)
      ↔ (∀ d s, Inside (Located.root root) d → ¬ Defines d s)
        ∨ ((∀ l, Reached root l → isDeclarator l = true → (scopeOf l).isSome = true)
          ∧ ∀ d s, Inside (Located.root root) d → ¬ Reached root d → Defines d s →
            ∃ l, Reached root l ∧ isDeclarator l = true ∧ scopeOf l = some s) := by
  refine ⟨?_,?_⟩
  · intro found
    by_cases some : ∃ d s, Inside (Located.root root) d ∧ Defines d s
    · obtain ⟨d,s,inside,defines⟩ := some
      obtain ⟨list,run,mem⟩ := found d s inside defines
      have known := reportedKnown run mem
      refine Or.inr ⟨known,?_⟩
      intro d s inside _ defines
      obtain ⟨list,run,mem⟩ := found d s inside defines
      rw [scopesOfDeclarators known] at run
      cases Except.ok.inj run
      obtain ⟨l,met,scope⟩ := List.mem_filterMap.mp mem
      obtain ⟨reached,declares⟩ := memDeclarators.mp met
      exact ⟨l,reached,declares,scope⟩
    · exact Or.inl (fun d s inside defines => some ⟨d,s,inside,defines⟩)
  · intro h d s inside defines
    rcases h with none | ⟨known,hidden⟩
    · exact absurd defines (none d s inside)
    · have met : ∃ l, Reached root l ∧ isDeclarator l = true ∧ scopeOf l = some s := by
        by_cases reached : Reached root d
        · exact definesReached reached defines
        · exact hidden d s inside reached defines
      obtain ⟨l,reached,declares,scope⟩ := met
      exact ⟨_,scopesOfDeclarators known,List.mem_filterMap.mpr ⟨l,memDeclarators.mpr ⟨reached,declares⟩,scope⟩⟩

def named (name : String) : Node :=
  .node ⟨.functionDeclarator,[],0,0⟩ [.node ⟨.identifier,name.toList,0,0⟩ []]

def definitionNode : Node := .node ⟨.functionDefinition,[],1,3⟩ [named "f"]

def withPrototype : Node := .node ⟨.other "translation_unit".toList,[],0,3⟩
  [.node ⟨.other "declaration".toList,[],0,0⟩ [named "g"],definitionNode]

theorem prototypeHidesDefinition : getFunctionsScope withPrototype = .ok []
    ∧ ∃ d s, Inside (Located.root withPrototype) d ∧ Defines d s ∧ s = ⟨"f".toList,1,3⟩ :=
  ⟨rfl,(Located.root withPrototype).below definitionNode,_,.child .here rfl (List.mem_of_getElem? (i := 1) rfl),
    ⟨rfl,named "f",List.mem_cons_self,rfl,_,_,rfl,rfl⟩,rfl⟩

def calledNames (cur : Node) : List Str :=
  if cur.label.type = .callExpression then
    (cur.children.filter (fun ch => ch.label.type = .identifier)).map (fun ch => ch.label.text)
  else []

def callLoop : Nat → List Node → List Str → List Str
  | 0, _, res => res
  | _+1, [], res => res
  | fuel+1, cur::stack, res => callLoop fuel (cur.children.reverse ++ stack) (res ++ calledNames cur)

def getCallFunctionNames (node : Node) : List Str := callLoop node.size [node] []

end KernelTcp.Git

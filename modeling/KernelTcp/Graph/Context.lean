import KernelTcp.Graph.CallGraph
import KernelTcp.Lib.Chains

/-! The chains of callers and callees around a function. Both searches share one path, which
is extended before a call, copied when it is long enough and shortened after the call; a node
object is its name. -/
namespace KernelTcp.Graph
open Chains

structure Search where
  res : List Str
  found : List (List Str)

/- The inner function of both steps: `next` are the edges that are followed. The recursion has
no bound of its own, and nothing is returned when `fuel` runs out. -/
def dfsStep (next : Str → List Str) (targetDepth : Nat) : Nat → Str → Search → Option Search
  | 0, _, _ => none
  | fuel+1, node, s =>
      if targetDepth = s.res.length then some { s with found := s.found ++ [s.res] }
      else (next node).foldlM (fun s caller =>
        if caller ∈ s.res then some s
        else do
          let s ← dfsStep next targetDepth fuel caller { s with res := s.res ++ [caller] }
          some { s with res := s.res.dropLast }) s

def searchStep (next : Str → List Str) (fuel : Nat) (node : Str) (depth : Int) : Option (List (List Str)) :=
  if depth ≤ 0 then some [] else (dfsStep next depth.toNat fuel node ⟨[],[]⟩).map Search.found

def callees (m : NodeMap) (name : Str) : List Str := ((m.get? name).map GraphNode.callee).getD []

namespace CallGraph

def forwardStep (g : CallGraph) : Nat → Str → Int → Option (List (List Str)) := searchStep (callers g.nodeMap)

def backwardStep (g : CallGraph) : Nat → Str → Int → Option (List (List Str)) := searchStep (callees g.nodeMap)

def getContext (g : CallGraph) (fuel : Nat) (node : Str) (depth : Int) : Option (List (List Str) × List (List Str)) := do
  let preContext ← g.forwardStep fuel node depth
  let postContext ← g.backwardStep fuel node depth
  some (preContext,postContext)

end CallGraph

section search
variable {next : Str → List Str} {targetDepth : Nat}

theorem dfsChoices {fuel d : Nat} {path : List Str} (left : path.length + d = targetDepth) (enough : d < fuel) (node : Str)
    (out : List (List Str)) : dfsStep next targetDepth fuel node ⟨path,out⟩ =
      some ⟨path,out ++ (choices next d path node).map (fun ps => path ++ nodes next node ps)⟩ := by
  induction d generalizing fuel path node out with
  | zero =>
    obtain ⟨fuel,rfl⟩ := Nat.exists_eq_add_of_lt enough
    rw [dfsStep,if_pos (by rw [← left]; rfl)]
    simp [choices,nodes,follow]
  | succ d ih =>
    obtain ⟨fuel,rfl⟩ := Nat.exists_eq_add_of_lt enough
    rw [dfsStep,if_neg (by dsimp only; omega),choicesNodes]
    refine foldAppends (fun found => (⟨path,found⟩ : Search)) ?_ out
    intro caller _ out
    dsimp only
    split
    · rw [List.append_nil]
    · rw [ih (by rw [List.length_append,List.length_singleton]; omega) (by omega)]
      simp

/- Exactly the chains of distinct nodes, ordered by the positions of their edges: `chosen` are the
choices of positions in lexicographic order, and every one of them stands for its chain. -/
structure Enumerated (next : Str → List Str) (u : Str) (d : Nat) (out : List (List Str)) : Prop where
  ordered : ∃ chosen : List (List Nat), out = chosen.map (nodes next u) ∧ chosen.Pairwise (List.Lex (fun a b : Nat => a < b)) ∧
    ∀ ps, ps ∈ chosen ↔ ps.length = d ∧ ∃ ns, follow next u ps = some ns ∧ ns.Nodup
  chains : ∀ ns, ns ∈ out ↔ ns.length = d ∧ ns.Nodup ∧ List.IsChain (fun a b => b ∈ next a) (u::ns)

theorem choicesEnumerated (next : Str → List Str) (u : Str) (d : Nat) :
    Enumerated next u d ((choices next d [] u).map (nodes next u)) := by
  have chosen : ∀ ps, ps ∈ choices next d [] u ↔ ps.length = d ∧ ∃ ns, follow next u ps = some ns ∧ ns.Nodup := by
    intro ps
    rw [memChoices]
    simp
  refine ⟨⟨_,rfl,choicesSorted d [] u,chosen⟩,?_⟩
  intro ns
  rw [List.mem_map,← followChain]
  constructor
  · intro h
    obtain ⟨ps,inside,rfl⟩ := h
    obtain ⟨size,ns,found,distinct⟩ := (chosen ps).mp inside
    rw [nodes,found,Option.getD_some]
    exact ⟨(followLength found).trans size,distinct,ps,found⟩
  · intro h
    obtain ⟨size,distinct,ps,found⟩ := h
    refine ⟨ps,(chosen ps).mpr ⟨(followLength found).symm.trans size,ns,found,distinct⟩,?_⟩
    rw [nodes,found]
    rfl

theorem searchEnumerates (next : Str → List Str) {d fuel : Nat} (positive : 1 ≤ d) (enough : d < fuel) (u : Str) :
    ∃ out, searchStep next fuel u d = some out ∧ Enumerated next u d out := by
  refine ⟨_,?_,choicesEnumerated next u d⟩
  rw [searchStep,if_neg (by omega),Int.toNat_natCast,dfsChoices (Nat.zero_add d) enough]
  simp

end search

/-- Both steps end and list the chains of distinct functions along the `caller` and the `callee`
lists, in the lexicographic order of the edge positions. -/
theorem contextChains (g : CallGraph) (u : Str) (d fuel : Nat) (positive : 1 ≤ d) (enough : d < fuel) :
    ∃ preContext postContext, g.forwardStep fuel u d = some preContext ∧ g.backwardStep fuel u d = some postContext
      ∧ g.getContext fuel u d = some (preContext,postContext)
      ∧ Enumerated (callers g.nodeMap) u d preContext ∧ Enumerated (callees g.nodeMap) u d postContext := by
  obtain ⟨preContext,forward,before⟩ := searchEnumerates (callers g.nodeMap) positive enough u
  obtain ⟨postContext,backward,after⟩ := searchEnumerates (callees g.nodeMap) positive enough u
  refine ⟨preContext,postContext,forward,backward,?_,before,after⟩
  unfold CallGraph.getContext CallGraph.forwardStep CallGraph.backwardStep
  rw [forward,backward]
  rfl

def twoEdges : CallGraph :=
  ⟨loadBlock (loadBlock Dict.empty ⟨"f".toList,none,-1,["g".toList,"f".toList,"g".toList]⟩) ⟨"g".toList,none,-1,["h".toList,"f".toList]⟩,
    loadBlockValid (loadBlockValid validEmpty _) _⟩

theorem twoEdgesContext : (∃ preContext postContext, twoEdges.forwardStep 3 "f".toList 2 = some preContext
      ∧ twoEdges.backwardStep 3 "f".toList 2 = some postContext
      ∧ twoEdges.getContext 3 "f".toList 2 = some (preContext,postContext)
      ∧ Enumerated (callers twoEdges.nodeMap) "f".toList 2 preContext
      ∧ Enumerated (callees twoEdges.nodeMap) "f".toList 2 postContext)
    ∧ twoEdges.forwardStep 3 "f".toList 2 = some [["g".toList,"h".toList],["g".toList,"f".toList],["f".toList,"g".toList],
      ["f".toList,"g".toList],["g".toList,"h".toList],["g".toList,"f".toList]]
    ∧ twoEdges.backwardStep 3 "f".toList 2 = some [["f".toList,"g".toList],["g".toList,"f".toList],["g".toList,"f".toList]] :=
  ⟨contextChains twoEdges "f".toList 2 3 (by decide) (by decide),by decide +kernel,by decide +kernel⟩

end KernelTcp.Graph

import KernelTcp.Graph.CallGraph
import KernelTcp.Lib.Sets

/-! The traversals over call graphs. The three loops differ in what they collect at a
node; each of them ends, and what it has collected is stated by reachability along the
`caller` lists. -/
namespace KernelTcp.Graph
open Text Walk

namespace CallGraph

theorem callersInside (g : CallGraph) : ∀ x ∈ g.nodeMap.keys, ∀ y ∈ callers g.nodeMap x, y ∈ g.nodeMap.keys := by
  intro x hx y hy
  obtain ⟨node,found⟩ := Dict.memKeys.mp hx
  unfold callers at hy
  rw [found] at hy
  exact g.valid.closed found y (Or.inl hy)

def finite (g : CallGraph) : Finite (callers g.nodeMap) := ⟨g.nodeMap.keys,g.callersInside⟩

def getAllCall (g : CallGraph) : Option Str → List Str
  | none => []
  | some rootName =>
      if present : rootName ∈ g.nodeMap.keys then (g.finite.explore (fun _ _ => ()) present ()).1 else []

-- a missing root is popped from the stack as None, which has no callers
def getGroundFunc (g : CallGraph) (rootNodeName : Str) : Except PyError (List Str) :=
  if present : rootNodeName ∈ g.nodeMap.keys then
    .ok (g.finite.explore (fun found cur => if callers g.nodeMap cur = [] then Sets.add found cur else found) present []).2
  else .error .attributeError

def getTopFunc (g : CallGraph) (orginFile : Str) : List Str :=
  g.nodeMap.values.foldl (fun found node => match node.filePath with
    | none => found
    | some path =>
        if contains path orginFile = true ∧ node.callee = [] then Sets.add found node.functionName else found) []

def getSyscall (g : CallGraph) (syscallList : List Str) (rootNodeName : Str) : List Str :=
  if present : rootNodeName ∈ g.nodeMap.keys then
    (g.finite.explore (fun found cur => if cur ∈ syscallList then Sets.add found cur else found) present []).2
  else []

end CallGraph

def Reaches (g : CallGraph) (root x : Str) : Prop := root ∈ g.nodeMap.keys ∧ Reach (callers g.nodeMap) root x

theorem memGetAllCall {g : CallGraph} {root x : Str} : x ∈ g.getAllCall (some root) ↔ Reaches g root x := by
  simp only [CallGraph.getAllCall,Reaches]
  split
  · rename_i present
    have reached := g.finite.memExplore (fun _ _ => ()) present () x
    exact ⟨fun mem => ⟨present,reached.mp mem⟩,fun h => reached.mpr h.2⟩
  · rename_i absent
    exact ⟨fun mem => by simp at mem,fun h => absurd h.1 absent⟩

theorem memCollect {g : CallGraph} {p : Str → Bool} {root : Str} (present : root ∈ g.finite.nodes) {x : Str} :
    x ∈ (g.finite.explore (fun found cur => if p cur then Sets.add found cur else found) present []).2 ↔
      Reaches g root x ∧ p x = true := by
  have searched := g.finite.exploreSearched (fun found cur => if p cur then Sets.add found cur else found) present []
  rw [searched.collected,Sets.memCollected,Finite.memExplore]
  exact ⟨fun h => ⟨⟨present,h.1⟩,h.2⟩,fun h => ⟨h.1.2,h.2⟩⟩

theorem memGetGroundFunc {g : CallGraph} {root : Str} {found : List Str} (done : g.getGroundFunc root = .ok found)
    {x : Str} : x ∈ found ↔ Reaches g root x ∧ callers g.nodeMap x = [] := by
  unfold CallGraph.getGroundFunc at done
  split at done
  · rename_i present
    cases Except.ok.inj done
    have collected := memCollect (p := fun cur => callers g.nodeMap cur = []) present (x := x)
    simpa using collected
  · contradiction

theorem groundFuncPresent {g : CallGraph} {root : Str} (present : root ∈ g.nodeMap.keys) :
    ∃ found, g.getGroundFunc root = .ok found := by
  unfold CallGraph.getGroundFunc
  rw [dif_pos present]
  exact ⟨_,rfl⟩

theorem memGetSyscall {g : CallGraph} {syscallList : List Str} {root x : Str} :
    x ∈ g.getSyscall syscallList root ↔ Reaches g root x ∧ x ∈ syscallList := by
  unfold CallGraph.getSyscall
  split
  · rename_i present
    have collected := memCollect (p := fun cur => cur ∈ syscallList) present (x := x)
    simpa using collected
  · rename_i absent
    exact ⟨fun mem => by simp at mem,fun h => absurd h.1.1 absent⟩

def IsTop (g : CallGraph) (orginFile name : Str) : Prop :=
  ∃ node path, g.nodeMap.get? name = some node ∧ node.filePath = some path ∧
    contains path orginFile = true ∧ node.callee = []

theorem memTopFold {orginFile x : Str} {nodes : List GraphNode} {found : List Str} :
    x ∈ nodes.foldl (fun found node => match node.filePath with
      | none => found
      | some path =>
          if contains path orginFile = true ∧ node.callee = [] then Sets.add found node.functionName else found) found ↔
    x ∈ found ∨ ∃ node ∈ nodes, node.functionName = x ∧
      ∃ path, node.filePath = some path ∧ contains path orginFile = true ∧ node.callee = [] := by
  induction nodes generalizing found with
  | nil => simp
  | cons node nodes ih =>
    rw [List.foldl_cons,ih]
    simp only [List.mem_cons,exists_eq_or_imp,← or_assoc]
    apply or_congr_left
    cases node.filePath with
    | none => simp
    | some path =>
      simp only [Option.some.injEq]
      split
      · rename_i top
        rw [Sets.memAdd]
        exact ⟨Or.imp id (fun same => ⟨same.symm,path,rfl,top⟩),Or.imp id (fun h => h.1.symm)⟩
      · rename_i other
        exact ⟨Or.inl,fun h => h.elim id (fun ⟨_,path,same,top⟩ => absurd (same ▸ top) other)⟩

theorem memGetTopFunc {g : CallGraph} {orginFile x : Str} : x ∈ g.getTopFunc orginFile ↔ IsTop g orginFile x := by
  unfold CallGraph.getTopFunc IsTop
  rw [memTopFold]
  constructor
  · intro h
    rcases h with none | ⟨node,mem,name,path,rest⟩
    · simp at none
    · obtain ⟨e,he,rfl⟩ := List.mem_map.mp mem
      have found := Dict.getEntry.mpr he
      have key := g.valid.named found
      rw [name] at key
      rw [← key] at found
      exact ⟨e.2,path,found,rest⟩
  · intro h
    obtain ⟨node,path,found,rest⟩ := h
    exact Or.inr ⟨node,List.mem_map.mpr ⟨_,Dict.getEntry.mp found,rfl⟩,g.valid.named found,path,rest⟩

end KernelTcp.Graph

import Mathlib.Data.List.Basic

/-! Labelled trees of any width, their nodes with the way up to the root, and the walk
that keeps the nodes still to be visited on a stack. -/
namespace KernelTcp

inductive Tree (α : Type) where
  | node (label : α) (children : List (Tree α))

namespace Tree
variable {α : Type}

def label : Tree α → α
  | node label _ => label

def children : Tree α → List (Tree α)
  | node _ children => children

mutual
def size : Tree α → Nat
  | node _ children => 1 + sizes children

def sizes : List (Tree α) → Nat
  | [] => 0
  | t::ts => t.size + sizes ts
end

end Tree

/- A node of a tree; `ancestors` starts with its parent. -/
structure Located (α : Type) where
  tree : Tree α
  ancestors : List (Tree α)

namespace Located
variable {α : Type}

def root (t : Tree α) : Located α := ⟨t,[]⟩

def below (l : Located α) (t : Tree α) : Located α := ⟨t,l.tree::l.ancestors⟩

def children (l : Located α) : List (Located α) := l.tree.children.map l.below

inductive Met (enters : Located α → Bool) (start : Located α) : Located α → Prop where
  | here : Met enters start start
  | child {l c} (met : Met enters start l) (opened : enters l = true) (mem : c ∈ l.children) : Met enters start c

abbrev Inside (start : Located α) : Located α → Prop := Met (fun _ => true) start

theorem metCases {enters : Located α → Bool} {start l : Located α} :
    Met enters start l ↔ l = start ∨ (enters start = true ∧ ∃ c ∈ start.children, Met enters c l) := by
  refine ⟨?_,?_⟩
  · intro met
    induction met with
    | here => exact Or.inl rfl
    | child _ opened mem ih =>
      rcases ih with rfl | ⟨entered,c,inside,met⟩
      · exact Or.inr ⟨opened,_,mem,.here⟩
      · exact Or.inr ⟨entered,c,inside,.child met opened mem⟩
  · intro h
    rcases h with rfl | ⟨entered,c,inside,met⟩
    · exact .here
    · induction met with
      | here => exact .child .here entered inside
      | child _ opened mem ih => exact .child ih opened mem

def popOrder (enters : Located α → Bool) : Nat → List (Located α) → List (Located α)
  | 0, _ => []
  | _+1, [] => []
  | fuel+1, l::stack => l::popOrder enters fuel ((if enters l then l.children.reverse else []) ++ stack)

def weight (stack : List (Located α)) : Nat := Tree.sizes (stack.map Located.tree)

theorem sizesAppend (ts us : List (Tree α)) : Tree.sizes (ts ++ us) = Tree.sizes ts + Tree.sizes us := by
  induction ts with
  | nil => simp [Tree.sizes]
  | cons t ts ih => simp [Tree.sizes,ih,Nat.add_assoc]

theorem sizesReverse (ts : List (Tree α)) : Tree.sizes ts.reverse = Tree.sizes ts := by
  induction ts with
  | nil => rfl
  | cons t ts ih =>
    rw [List.reverse_cons,sizesAppend,ih]
    simp [Tree.sizes,Nat.add_comm]

theorem weightPop (enters : Located α → Bool) (l : Located α) (stack : List (Located α)) :
    weight ((if enters l then l.children.reverse else []) ++ stack) + 1 ≤ weight (l::stack) := by
  have children : Tree.sizes ((l.children.reverse).map Located.tree) + 1 = l.tree.size := by
    obtain ⟨⟨label,below⟩,ancestors⟩ := l
    rw [List.map_reverse,sizesReverse]
    simp [children,Located.below,Tree.children,Tree.size,List.map_map,Function.comp_def,Nat.add_comm]
  unfold weight
  rw [List.map_append,sizesAppend,List.map_cons,Tree.sizes]
  split
  · omega
  · simp only [List.map_nil,Tree.sizes]
    omega

theorem memPopOrder {enters : Located α → Bool} {fuel : Nat} {stack : List (Located α)} (enough : weight stack ≤ fuel)
    {l : Located α} : l ∈ popOrder enters fuel stack ↔ ∃ s ∈ stack, Met enters s l := by
  induction fuel generalizing stack with
  | zero =>
    cases stack with
    | nil => simp [popOrder]
    | cons s stack =>
      have positive := weightPop enters s stack
      omega
  | succ fuel ih =>
    cases stack with
    | nil => simp [popOrder]
    | cons s stack =>
      have less := weightPop enters s stack
      rw [popOrder,List.mem_cons,ih (by omega),List.exists_mem_cons_iff,metCases]
      simp only [List.mem_append,or_and_right,exists_or]
      cases enters s with
      | true => simp [or_assoc]
      | false => simp

end Located

end KernelTcp

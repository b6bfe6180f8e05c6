import Mathlib.Algebra.GroupWithZero.Nat
import Mathlib.Algebra.Order.BigOperators.Group.List
import Mathlib.Algebra.Order.Group.Nat
import Mathlib.Data.List.Nodup
import Mathlib.Logic.Relation

/-! The loop with a stack and a set of visited nodes. The top of the stack is the head
of the list; `visit` is what the loop collects at a node it sees for the first time.
On a finite graph that `next` never leaves the loop ends, and it has then visited
exactly the nodes reached from its root. -/
namespace KernelTcp.Walk
variable {κ σ : Type} (next : κ → List κ) (visit : σ → κ → σ)

def Reach (next : κ → List κ) : κ → κ → Prop := Relation.ReflTransGen (fun x y => y ∈ next x)

structure Searching (root : κ) (start : σ) (visited stack : List κ) (found : σ) : Prop where
  sound : ∀ x, x ∈ visited ∨ x ∈ stack → Reach next root x
  frontier : ∀ x ∈ visited, ∀ y ∈ next x, y ∈ visited ∨ y ∈ stack
  started : root ∈ visited ∨ root ∈ stack
  distinct : visited.Nodup
  collected : found = visited.foldr (fun x s => visit s x) start

theorem searchingStart (root : κ) (start : σ) : Searching next visit root start [] [root] start := by
  refine ⟨?_,by simp,by simp,by simp,rfl⟩
  intro x hx
  have same : x = root := by simpa using hx
  rw [same]
  exact .refl

variable {next visit}

theorem searchingSeen {root : κ} {start found : σ} {visited stack : List κ} {cur : κ}
    (h : Searching next visit root start visited (cur::stack) found) (seen : cur ∈ visited) :
    Searching next visit root start visited stack found := by
  have drop : ∀ y, y ∈ visited ∨ y ∈ cur::stack → y ∈ visited ∨ y ∈ stack := by
    intro y hy
    rcases hy with old | top
    · exact Or.inl old
    · rcases List.mem_cons.mp top with rfl | below
      · exact Or.inl seen
      · exact Or.inr below
  exact ⟨fun x hx => h.sound x (hx.imp id (List.mem_cons_of_mem _)),
    fun x hx y hy => drop y (h.frontier x hx y hy),drop root h.started,h.distinct,h.collected⟩

theorem searchingNew {root : κ} {start found : σ} {visited stack : List κ} {cur : κ}
    (h : Searching next visit root start visited (cur::stack) found) (unseen : cur ∉ visited) :
    Searching next visit root start (cur::visited) ((next cur).reverse ++ stack) (visit found cur) := by
  have here := h.sound cur (Or.inr (by simp))
  have move : ∀ y, y ∈ visited ∨ y ∈ cur::stack → y ∈ cur::visited ∨ y ∈ (next cur).reverse ++ stack := by
    intro y hy
    rcases hy with old | top
    · exact Or.inl (List.mem_cons_of_mem _ old)
    · rcases List.mem_cons.mp top with rfl | below
      · exact Or.inl (by simp)
      · exact Or.inr (List.mem_append_right _ below)
  refine ⟨?_,?_,move root h.started,List.nodup_cons.mpr ⟨unseen,h.distinct⟩,?_⟩
  · intro x hx
    rcases hx with old | top
    · rcases List.mem_cons.mp old with rfl | older
      · exact here
      · exact h.sound x (Or.inl older)
    · rcases List.mem_append.mp top with fresh | below
      · exact here.tail (List.mem_reverse.mp fresh)
      · exact h.sound x (Or.inr (List.mem_cons_of_mem _ below))
  · intro x hx y hy
    rcases List.mem_cons.mp hx with rfl | old
    · exact Or.inr (List.mem_append_left _ (List.mem_reverse.mpr hy))
    · exact move y (h.frontier x old y hy)
  · rw [h.collected]
    rfl

theorem searchedExactly {root : κ} {start out : σ} {seen : List κ}
    (h : Searching next visit root start seen [] out) (x : κ) : x ∈ seen ↔ Reach next root x := by
  constructor
  · intro mem
    exact h.sound x (Or.inl mem)
  · intro reach
    induction reach with
    | refl => simpa using h.started
    | tail _ edge ih => simpa using h.frontier _ ih _ edge

variable (next visit) [DecidableEq κ]

def loop : Nat → List κ → List κ → σ → Option (List κ × σ)
  | _, visited, [], found => some (visited,found)
  | 0, _, _::_, _ => none
  | fuel+1, visited, cur::stack, found =>
      if cur ∈ visited then loop fuel visited stack found
      else loop fuel (cur::visited) ((next cur).reverse ++ stack) (visit found cur)

variable {next visit}

theorem loopSearches {root : κ} {start : σ} {fuel : Nat} {visited stack : List κ} {found : σ}
    (h : Searching next visit root start visited stack found) {seen : List κ} {out : σ}
    (done : loop next visit fuel visited stack found = some (seen,out)) :
    Searching next visit root start seen [] out := by
  induction fuel generalizing visited stack found with
  | zero =>
    cases stack with
    | nil =>
      cases Option.some.inj done
      exact h
    | cons cur stack => contradiction
  | succ fuel ih =>
    cases stack with
    | nil =>
      cases Option.some.inj done
      exact h
    | cons cur stack =>
      rw [loop] at done
      split at done
      · rename_i old
        exact ih (searchingSeen h old) done
      · rename_i unseen
        exact ih (searchingNew h unseen) done

variable (next)

def edges (nodes visited : List κ) : Nat :=
  (nodes.map (fun x => if x ∈ visited then 0 else (next x).length)).sum

theorem edgesVisit {nodes visited : List κ} {cur : κ} (mem : cur ∈ nodes) (unseen : cur ∉ visited) :
    edges next nodes (cur::visited) + (next cur).length ≤ edges next nodes visited := by
  have one : ∀ x, (if x ∈ cur::visited then 0 else (next x).length) ≤ if x ∈ visited then 0 else (next x).length := by
    intro x
    by_cases old : x ∈ visited
    · simp [old]
    · rw [if_neg old]
      split <;> simp
  induction nodes with
  | nil => simp at mem
  | cons x nodes ih =>
    have head := one x
    simp only [edges,List.map_cons,List.sum_cons] at ih ⊢
    rcases List.mem_cons.mp mem with rfl | below
    · have rest := List.sum_le_sum (l := nodes) (fun y _ => one y)
      rw [if_pos (by simp),if_neg unseen]
      omega
    · have rest := ih below
      omega

theorem loopTotal {nodes : List κ} (closed : ∀ x ∈ nodes, ∀ y ∈ next x, y ∈ nodes) {fuel : Nat}
    {visited stack : List κ} (inside : ∀ x ∈ stack, x ∈ nodes)
    (enough : stack.length + edges next nodes visited ≤ fuel) (found : σ) :
    ∃ result, loop next visit fuel visited stack found = some result := by
  induction fuel generalizing visited stack found with
  | zero =>
    cases stack with
    | nil => exact ⟨_,rfl⟩
    | cons cur stack => simp at enough
  | succ fuel ih =>
    cases stack with
    | nil => exact ⟨_,rfl⟩
    | cons cur stack =>
      rw [List.length_cons] at enough
      have below : ∀ x ∈ stack, x ∈ nodes := fun x hx => inside x (by simp [hx])
      rw [loop]
      split
      · exact ih below (by omega) found
      · rename_i unseen
        have here := inside cur (by simp)
        have fewer := edgesVisit next here unseen
        apply ih
        · intro x hx
          rcases List.mem_append.mp hx with fresh | old
          · exact closed cur here x (List.mem_reverse.mp fresh)
          · exact below x old
        · rw [List.length_append,List.length_reverse]
          omega

variable {next}

theorem loopMono {fuel : Nat} {visited stack : List κ} {found : σ} {result : List κ × σ}
    (done : loop next visit fuel visited stack found = some result) {more : Nat} (le : fuel ≤ more) :
    loop next visit more visited stack found = some result := by
  induction fuel generalizing visited stack found more with
  | zero =>
    cases stack with
    | nil => cases more <;> exact done
    | cons cur stack => contradiction
  | succ fuel ih =>
    cases stack with
    | nil => cases more <;> exact done
    | cons cur stack =>
      obtain ⟨rest,rfl⟩ := Nat.exists_eq_add_of_le le
      rw [Nat.succ_add]
      rw [loop] at done ⊢
      split at done
      · rename_i seen
        rw [if_pos seen]
        exact ih done (Nat.le_add_right _ _)
      · rename_i unseen
        rw [if_neg unseen]
        exact ih done (Nat.le_add_right _ _)

structure Finite (next : κ → List κ) where
  nodes : List κ
  closed : ∀ x ∈ nodes, ∀ y ∈ next x, y ∈ nodes

namespace Finite
variable (graph : Finite next) (visit)

def bound : Nat := 1 + edges next graph.nodes []

theorem ends {root : κ} (mem : root ∈ graph.nodes) (start : σ) :
    (loop next visit graph.bound [] [root] start).isSome = true := by
  have inside : ∀ x ∈ [root], x ∈ graph.nodes := by
    intro x hx
    rw [List.mem_singleton.mp hx]
    exact mem
  obtain ⟨result,done⟩ : ∃ result, loop next visit graph.bound [] [root] start = some result :=
    loopTotal next graph.closed inside (by simp [bound]) start
  rw [done]
  rfl

def explore {root : κ} (mem : root ∈ graph.nodes) (start : σ) : List κ × σ :=
  (loop next visit graph.bound [] [root] start).get (graph.ends visit mem start)

theorem exploreEnds {root : κ} (mem : root ∈ graph.nodes) (start : σ) {fuel : Nat} (enough : graph.bound ≤ fuel) :
    loop next visit fuel [] [root] start = some (graph.explore visit mem start) :=
  loopMono (Option.some_get _).symm enough

theorem exploreSearched {root : κ} (mem : root ∈ graph.nodes) (start : σ) :
    Searching next visit root start (graph.explore visit mem start).1 [] (graph.explore visit mem start).2 :=
  loopSearches (searchingStart next visit root start) (graph.exploreEnds visit mem start (Nat.le_refl _))

theorem memExplore {root : κ} (mem : root ∈ graph.nodes) (start : σ) (x : κ) :
    x ∈ (graph.explore visit mem start).1 ↔ Reach next root x :=
  searchedExactly (graph.exploreSearched visit mem start) x

end Finite
end KernelTcp.Walk

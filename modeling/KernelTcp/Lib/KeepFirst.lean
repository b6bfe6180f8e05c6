import Mathlib.Data.List.Basic

/-! Removing repeated elements of a list, where only the marked ones are remembered. -/
namespace KernelTcp.KeepFirst
variable {α : Type} [DecidableEq α] (marked : α → Bool)

def keepFirst (visited : List α) : List α → List α
  | [] => []
  | x::xs => if x ∈ visited then keepFirst visited xs
      else x::keepFirst (if marked x then x::visited else visited) xs

def visitedAfter (visited : List α) : List α → List α
  | [] => visited
  | x::xs => visitedAfter (if x ∉ visited ∧ marked x then x::visited else visited) xs

variable {marked}

theorem keepFirstAppend (visited xs ys : List α) : keepFirst marked visited (xs ++ ys) =
    keepFirst marked visited xs ++ keepFirst marked (visitedAfter marked visited xs) ys := by
  induction xs generalizing visited with
  | nil => rfl
  | cons x xs ih =>
    simp only [List.cons_append,keepFirst,visitedAfter]
    by_cases seen : x ∈ visited
    · simp [seen,ih]
    · simp [seen,ih]

theorem keepFirstSubset {visited xs : List α} {y : α} (mem : y ∈ keepFirst marked visited xs) : y ∈ xs ∧ y ∉ visited := by
  induction xs generalizing visited with
  | nil => simp [keepFirst] at mem
  | cons x xs ih =>
    rw [keepFirst] at mem
    split at mem
    · exact ⟨List.mem_cons_of_mem x (ih mem).1,(ih mem).2⟩
    · rename_i new
      rcases List.mem_cons.mp mem with rfl | later
      · exact ⟨List.mem_cons_self,new⟩
      · have rest := ih later
        refine ⟨List.mem_cons_of_mem x rest.1,?_⟩
        intro old
        apply rest.2
        split
        · exact List.mem_cons_of_mem x old
        · exact old

theorem memVisited {visited xs : List α} {y : α} :
    y ∈ visitedAfter marked visited xs ↔ y ∈ visited ∨ y ∈ xs ∧ marked y = true := by
  induction xs generalizing visited with
  | nil => simp [visitedAfter]
  | cons x xs ih =>
    rw [visitedAfter,ih,List.mem_cons]
    by_cases fresh : x ∉ visited ∧ marked x = true
    · rw [if_pos fresh,List.mem_cons]
      constructor
      · rintro ((rfl | old) | later)
        · exact Or.inr ⟨Or.inl rfl,fresh.2⟩
        · exact Or.inl old
        · exact Or.inr ⟨Or.inr later.1,later.2⟩
      · rintro (old | ⟨rfl | later,mark⟩)
        · exact Or.inl (Or.inr old)
        · exact Or.inl (Or.inl rfl)
        · exact Or.inr ⟨later,mark⟩
    · rw [if_neg fresh]
      refine or_congr_right' (fun new => and_congr_left (fun mark => ?_))
      refine (or_iff_right ?_).symm
      rintro rfl
      exact fresh ⟨new,mark⟩

theorem keepFirstSnoc (xs : List α) (x : α) : keepFirst marked [] (xs ++ [x]) =
    keepFirst marked [] xs ++ if marked x = true ∧ x ∈ xs then [] else [x] := by
  rw [keepFirstAppend,keepFirst,keepFirst,keepFirst]
  refine congrArg _ (if_congr ?_ rfl rfl)
  rw [memVisited,and_comm]
  simp

theorem keepFirstMarked {first rest : List α} {x : α} (new : x ∉ first) (mark : marked x = true) :
    ∃ later, keepFirst marked [] (first ++ x::rest) = keepFirst marked [] first ++ x::later ∧ x ∉ later := by
  refine ⟨keepFirst marked (x::visitedAfter marked [] first) rest,?_,?_⟩
  · have fresh : x ∉ visitedAfter marked [] first := by
      intro old
      rcases memVisited.mp old with none | here
      · simp at none
      · exact new here.1
    rw [keepFirstAppend,keepFirst,if_neg fresh,if_pos mark]
  · intro again
    exact (keepFirstSubset again).2 List.mem_cons_self

end KernelTcp.KeepFirst

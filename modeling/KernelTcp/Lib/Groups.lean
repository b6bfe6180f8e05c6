import Mathlib.Data.List.SplitBy

/-! Groups of adjacent elements: where `splitBy` puts two neighbours of the list, and what
holds between the groups. -/
namespace KernelTcp.Groups
variable {α β : Type}

def Together (groups : List (List α)) (before : List α) (a b : α) : Prop :=
  ∃ gs u v hs, groups = gs ++ (u ++ a::b::v)::hs ∧ gs.flatten ++ u = before

theorem groupOf {groups : List (List α)} {before rest : List α} {a : α} (whole : groups.flatten = before ++ a::rest) :
    ∃ gs u v hs, groups = gs ++ (u ++ a::v)::hs ∧ gs.flatten ++ u = before ∧ v ++ hs.flatten = rest := by
  induction groups generalizing before with
  | nil => simp at whole
  | cons g groups ih =>
    rw [List.flatten_cons] at whole
    rcases List.append_eq_append_iff.mp whole with ⟨u,rfl,later⟩ | ⟨v,rfl,here⟩
    · obtain ⟨gs,w,v,hs,rfl,front,back⟩ := ih later
      exact ⟨g::gs,w,v,hs,rfl,by rw [List.flatten_cons,List.append_assoc,front],back⟩
    · cases v with
      | nil =>
        obtain ⟨gs,w,v,hs,rfl,front,back⟩ := ih (show groups.flatten = [] ++ a::rest from here.symm)
        exact ⟨(before ++ [])::gs,w,v,hs,rfl,by rw [List.flatten_cons,List.append_assoc,front]; simp,back⟩
      | cons c v =>
        rw [List.cons_append,List.cons.injEq] at here
        obtain ⟨rfl,back⟩ := here
        exact ⟨[],before,v,groups,rfl,rfl,back.symm⟩

variable {r : α → α → Bool} {l : List α}

theorem togetherRelated {before : List α} {a b : α} (together : Together (l.splitBy r) before a b) : r a b = true := by
  obtain ⟨gs,u,v,hs,groups,_⟩ := together
  have chain := List.isChain_of_mem_splitBy (show u ++ a::b::v ∈ l.splitBy r by rw [groups]; simp)
  exact (List.isChain_append_cons_cons.mp chain).2.1

theorem relatedTogether {before after : List α} {a b : α} (whole : l = before ++ a::b::after) (related : r a b = true) :
    Together (l.splitBy r) before a b := by
  obtain ⟨gs,u,v,hs,groups,front,back⟩ := groupOf ((List.flatten_splitBy r l).trans whole)
  cases v with
  | cons c v =>
    rw [List.cons_append,List.cons.injEq] at back
    obtain ⟨rfl,_⟩ := back
    exact ⟨gs,u,v,hs,groups,front⟩
  | nil =>
    -- `a` ends its group, so `b` opens the next one, which the split does only for unrelated neighbours
    cases hs with
    | nil => simp at back
    | cons h hs =>
      have some : h ≠ [] := List.ne_nil_of_mem_splitBy (show h ∈ l.splitBy r by rw [groups]; simp)
      obtain ⟨c,h,rfl⟩ := List.exists_cons_of_ne_nil some
      rw [List.nil_append,List.flatten_cons,List.cons_append,List.cons.injEq] at back
      obtain ⟨rfl,_⟩ := back
      have chain := List.isChain_getLast_head_splitBy r l
      rw [groups] at chain
      obtain ⟨_,_,apart⟩ := (List.isChain_append_cons_cons.mp chain).2.1
      simp [related] at apart

theorem togetherIff {before after : List α} {a b : α} (whole : l = before ++ a::b::after) :
    Together (l.splitBy r) before a b ↔ r a b = true := ⟨togetherRelated,relatedTogether whole⟩

theorem intercalateAppend (sep : List α) {xs ys : List (List α)} (left : xs ≠ []) (right : ys ≠ []) :
    sep.intercalate (xs ++ ys) = sep.intercalate xs ++ sep ++ sep.intercalate ys := by
  induction xs with
  | nil => contradiction
  | cons x xs ih =>
    cases xs with
    | nil =>
      obtain ⟨y,ys,rfl⟩ := List.exists_cons_of_ne_nil right
      rw [List.singleton_append,List.intercalate_cons_cons,List.intercalate_singleton]
    | cons z xs =>
      rw [List.cons_append,List.cons_append,List.intercalate_cons_cons,← List.cons_append,ih (by simp),
        List.intercalate_cons_cons]
      simp only [List.append_assoc]

theorem intercalateFlatten (sep : List α) {groups : List (List (List α))} (some : ∀ g ∈ groups, g ≠ []) :
    sep.intercalate (groups.map sep.intercalate) = sep.intercalate groups.flatten := by
  induction groups with
  | nil => rfl
  | cons g groups ih =>
    cases groups with
    | nil => simp
    | cons h groups =>
      have rest : (h::groups).flatten ≠ [] := by simp [some h (by simp)]
      rw [List.flatten_cons,intercalateAppend sep (some g (by simp)) rest,← ih (fun g mem => some g (by simp [mem])),
        List.map_cons,List.map_cons,List.intercalate_cons_cons]

section ordered
variable {le lt : α → α → Prop}

theorem groupsApart (trans : ∀ a b c, lt a b → le b c → lt a c) (far : ∀ a b, le a b → r a b = false → lt a b)
    {groups : List (List α)} (cut : groups.IsChain (fun g h => ∃ hg hh, r (g.getLast hg) (h.head hh) = false))
    (sorted : groups.flatten.Pairwise le) :
    groups.Pairwise (fun g h => ∀ a ∈ g.getLast?, ∀ b ∈ h.head?, lt a b) := by
  induction groups with
  | nil => exact .nil
  | cons g groups ih =>
    rw [List.flatten_cons,List.pairwise_append] at sorted
    refine .cons ?_ (ih cut.tail sorted.2.1)
    intro h mem a last b first
    cases groups with
    | nil => contradiction
    | cons next rest =>
      obtain ⟨some,opens,apart⟩ := (List.isChain_cons_cons.mp cut).1
      have ends : a = g.getLast some := Option.some.inj (last.symm.trans (List.getLast?_eq_some_getLast some))
      have start : next.head opens ∈ next := List.head_mem opens
      have closer : lt a (next.head opens) := by
        rw [ends]
        exact far _ _ (sorted.2.2 _ (List.getLast_mem some) _ (List.mem_flatten.mpr ⟨next,by simp,start⟩)) apart
      rcases List.mem_cons.mp mem with rfl | later
      · cases Option.some.inj (first.symm.trans (List.head?_eq_some_head opens))
        exact closer
      · have rest := (List.pairwise_append.mp (List.flatten_cons ▸ sorted.2.1)).2.2
        exact trans _ _ _ closer (rest _ start b (List.mem_flatten.mpr ⟨h,later,List.mem_of_mem_head? first⟩))

theorem splitApart (trans : ∀ a b c, lt a b → le b c → lt a c) (far : ∀ a b, le a b → r a b = false → lt a b)
    (sorted : l.Pairwise le) : (l.splitBy r).Pairwise (fun g h => ∀ a ∈ g.getLast?, ∀ b ∈ h.head?, lt a b) :=
  groupsApart trans far (List.isChain_getLast_head_splitBy r l) ((List.flatten_splitBy r l).symm ▸ sorted)

theorem splitSorted (refl : ∀ a, le a a) (sorted : l.Pairwise le) {g : List α} (mem : g ∈ l.splitBy r) {a b : α}
    (first : a ∈ g.head?) (last : b ∈ g.getLast?) : le a b := by
  have inside : g.Pairwise le := by
    rw [← List.flatten_splitBy r l,List.pairwise_flatten] at sorted
    exact sorted.1 g mem
  obtain ⟨rest,rfl⟩ := List.head?_eq_some_iff.mp first
  rcases List.mem_cons.mp (List.mem_of_getLast? last) with rfl | later
  · exact refl b
  · exact List.rel_of_pairwise_cons inside later

end ordered

end KernelTcp.Groups

import KernelTcp.Lib.Py

/-! Cutting a list into consecutive slices of one size, the last one shorter, and slices
between two indices as the language takes them. -/
namespace KernelTcp.Slices
variable {α : Type}

def slices (size : Nat) (xs : List α) : Except PyError (List (List α)) :=
  if size = 0 then .error .valueError
  else .ok ((List.range ((xs.length + size - 1) / size)).map (fun i => (xs.drop (i*size)).take size))

theorem slicesJoin (size count : Nat) (xs : List α) :
    ((List.range count).map (fun i => (xs.drop (i*size)).take size)).flatten = xs.take (count*size) := by
  induction count with
  | zero => simp
  | succ count ih =>
    rw [List.range_succ,List.map_append,List.flatten_append,ih,Nat.succ_mul,List.take_add]
    simp

theorem slicesFlatten {size : Nat} {xs : List α} {parts : List (List α)}
    (cut : slices size xs = .ok parts) : parts.flatten = xs := by
  unfold slices at cut
  split at cut
  · contradiction
  · rename_i positive
    cases Except.ok.inj cut
    rw [slicesJoin]
    apply List.take_of_length_le
    have whole := Nat.div_add_mod (xs.length + size - 1) size
    have rest := Nat.mod_lt (xs.length + size - 1) (Nat.pos_of_ne_zero positive)
    have swap := Nat.mul_comm size ((xs.length + size - 1) / size)
    omega

theorem slicesCut {size : Nat} (positive : 1 ≤ size) (xs : List α) : ∃ parts, slices size xs = .ok parts := by
  unfold slices
  rw [if_neg (by omega)]
  exact ⟨_,rfl⟩

theorem slicesSome {size : Nat} {xs : List α} {parts : List (List α)} (cut : slices size xs = .ok parts)
    {part : List α} (mem : part ∈ parts) : part ≠ [] := by
  unfold slices at cut
  split at cut
  · contradiction
  · rename_i positive
    cases Except.ok.inj cut
    obtain ⟨i,hi,rfl⟩ := List.mem_map.mp mem
    have size : i * size + size ≤ xs.length + size - 1 := by
      have inside : i + 1 ≤ (xs.length + size - 1) / size := List.mem_range.mp hi
      have scaled := (Nat.le_div_iff_mul_le (Nat.pos_of_ne_zero positive)).mp inside
      rwa [Nat.succ_mul] at scaled
    apply List.ne_nil_of_length_pos
    rw [List.length_take,List.length_drop]
    omega

-- negative indices count from the end, and all are cut down to the list
def bound (length : Nat) (i : Int) : Nat := if i < 0 then (i + length).toNat else min i.toNat length

def slice (xs : List α) (start stop : Int) : List α := (xs.take (bound xs.length stop)).drop (bound xs.length start)

theorem boundInside (length n : Nat) : bound length n = min n length := by
  unfold bound
  rw [if_neg (by omega),Int.toNat_natCast]

theorem slicePart (xs : List α) (start size : Nat) : slice xs start (start + size : Nat) = (xs.drop start).take size := by
  unfold slice
  rw [boundInside,boundInside,← List.take_eq_take_min]
  rcases Nat.le_total start xs.length with inside | beyond
  · rw [Nat.min_eq_left inside,List.drop_take,Nat.add_sub_cancel_left]
  · rw [Nat.min_eq_right beyond,List.drop_of_length_le beyond,List.drop_of_length_le (List.length_take_le' _ _),List.take_nil]

theorem sliceRest (xs : List α) (start : Nat) : slice xs start xs.length = xs.drop start := by
  unfold slice
  rw [boundInside,boundInside,Nat.min_self,List.take_length]
  rcases Nat.le_total start xs.length with inside | beyond
  · rw [Nat.min_eq_left inside]
  · rw [Nat.min_eq_right beyond,List.drop_of_length_le beyond,List.drop_length]

theorem sliceInner (a b : α) (xs : List α) : slice (a::(xs ++ [b])) 1 (-1) = xs := by
  have size : (a::(xs ++ [b])).length = xs.length + 2 := by simp
  have stop : bound (xs.length + 2) (-1) = xs.length + 1 := by
    unfold bound
    rw [if_pos (by decide)]
    omega
  have start : bound (xs.length + 2) 1 = 1 := by
    unfold bound
    rw [if_neg (by decide)]
    omega
  rw [slice,size,stop,start]
  simp

end KernelTcp.Slices

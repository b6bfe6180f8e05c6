import Mathlib.Data.List.Forall2

/-! Exceptions and list indexing as the language defines them. A failing operation
ends the computation; nothing is said about partial effects before it. -/
namespace KernelTcp

inductive PyError where
  | indexError
  | keyError
  | valueError
  | typeError
  | attributeError
  | zeroDivisionError
  | fileNotFoundError
  | nameError
  | systemExit
  | overflowError
  | runtimeError
  deriving DecidableEq, Repr

namespace Py
variable {α β γ : Type}

def raiseNone (e : PyError) : Option α → Except PyError α
  | none => .error e
  | some a => .ok a

-- negative indices count from the end of the list
def position (length : Nat) (i : Int) : Option Nat :=
  if 0 ≤ i then (if i < length then some i.toNat else none)
  else if 0 ≤ i + length then some (i + length).toNat else none

def getItem (xs : List α) (i : Int) : Except PyError α :=
  raiseNone .indexError ((position xs.length i).bind (fun n => xs[n]?))

def setItem (xs : List α) (i : Int) (a : α) : Except PyError (List α) :=
  raiseNone .indexError ((position xs.length i).map (fun n => xs.set n a))

def delItem (xs : List α) (i : Int) : Except PyError (List α) :=
  raiseNone .indexError ((position xs.length i).map xs.eraseIdx)

-- `xs.remove(a)` takes out the first of the elements equal to `a`
def remove [DecidableEq α] (xs : List α) (a : α) : Except PyError (List α) :=
  if a ∈ xs then .ok (xs.erase a) else .error .valueError

def transpose : List (List α) → List (List α)
  | [] => []
  | first::rows => (List.range first.length).map (fun i => (first::rows).filterMap (fun row => row[i]?))

theorem raiseNoneOk {e : PyError} {o : Option α} {a : α} : raiseNone e o = .ok a ↔ o = some a := by
  cases o <;> simp [raiseNone]

theorem raiseNoneGoes {e : PyError} {o : Option α} : (∃ a, raiseNone e o = .ok a) ↔ o.isSome = true := by
  cases o <;> simp [raiseNone]

theorem bindOk {x : Except PyError α} {f : α → Except PyError β} {b : β} :
    x >>= f = .ok b ↔ ∃ a, x = .ok a ∧ f a = .ok b := by
  cases x with
  | error e => simp [bind,Except.bind]
  | ok a => simp [bind,Except.bind]

theorem bindError {x : Except PyError α} {f : α → Except PyError β} {e : PyError} :
    x >>= f = .error e ↔ x = .error e ∨ ∃ a, x = .ok a ∧ f a = .error e := by
  cases x <;> simp [bind,Except.bind]

theorem pureOk {a b : α} : (pure a : Except PyError α) = .ok b ↔ a = b := by
  simp [pure,Except.pure]

theorem positionInside {length n : Nat} (inside : n < length) : position length n = some n := by
  have bound : (n : Int) < length := by exact_mod_cast inside
  simp [position,bound]

theorem getItemInside {xs : List α} {n : Nat} {a : α} (found : xs[n]? = some a) :
    getItem xs n = .ok a := by
  have inside : n < xs.length := (List.getElem?_eq_some_iff.mp found).1
  simp [getItem,positionInside inside,found,raiseNone]

theorem getItemAt (xs : List α) (n : Nat) : getItem xs n = raiseNone .indexError xs[n]? := by
  unfold getItem
  by_cases inside : n < xs.length
  · rw [positionInside inside,Option.bind_some]
  · have outside : position xs.length n = none := by simp [position,inside]
    rw [outside,List.getElem?_eq_none (Nat.le_of_not_lt inside)]
    rfl

theorem getItemAfter (before rest : List α) (n : Nat) :
    getItem (before ++ rest) ((before.length : Int) + n) = getItem rest n := by
  rw [← Int.natCast_add,getItemAt,getItemAt,List.getElem?_append_right (Nat.le_add_right _ _),Nat.add_sub_cancel_left]

theorem getItemFirst (a : α) (xs : List α) : getItem (a::xs) 0 = .ok a := getItemInside (n := 0) rfl

theorem getItemFound {xs : List α} {n : Nat} {a : α} (found : getItem xs n = .ok a) : xs[n]? = some a := by
  rw [getItemAt] at found
  exact raiseNoneOk.mp found

theorem getItemError {xs : List α} {i : Int} {e : PyError} (failed : getItem xs i = .error e) : e = .indexError := by
  unfold getItem raiseNone at failed
  split at failed
  · exact (Except.error.inj failed).symm
  · contradiction

theorem getItemMem {xs : List α} {i : Int} {a : α} (found : getItem xs i = .ok a) : a ∈ xs := by
  obtain ⟨n,_,here⟩ := Option.bind_eq_some_iff.mp (raiseNoneOk.mp found)
  exact List.mem_of_getElem? here

theorem getItemBounds {xs : List α} {i : Int} (low : -xs.length ≤ i) (high : i < xs.length) : ∃ a, getItem xs i = .ok a := by
  obtain ⟨n,inside,here⟩ : ∃ n < xs.length, position xs.length i = some n := by
    unfold position
    by_cases positive : 0 ≤ i
    · rw [if_pos positive,if_pos high]
      exact ⟨_,by omega,rfl⟩
    · rw [if_neg positive,if_pos (by omega)]
      exact ⟨_,by omega,rfl⟩
  refine ⟨xs[n],?_⟩
  unfold getItem
  rw [here,Option.bind_some,List.getElem?_eq_getElem inside]
  rfl

theorem positionFromEnd (before after : Nat) (some : 0 < after) :
    position (before + after) (-after) = .some before := by
  unfold position
  rw [if_neg (by omega),if_pos (by omega)]
  exact congrArg Option.some (by omega)

theorem getItemLast (xs : List α) (a : α) : getItem (xs ++ [a]) (-1) = .ok a := by
  have there : position (xs.length+1) (-1) = some xs.length := positionFromEnd xs.length 1 (by omega)
  unfold getItem
  rw [List.length_append,List.length_singleton]
  simp [there,raiseNone]

theorem getItemEnd (xs : List α) (a : α) {n : Nat} (size : xs.length = n) : getItem (xs ++ [a]) n = .ok a := by
  apply getItemInside
  rw [← size]
  exact List.getElem?_concat_length

theorem getItemBeforeLast (xs : List α) (a b : α) : getItem (xs ++ [a,b]) (-2) = .ok a := by
  have there : position (xs.length+2) (-2) = some xs.length := positionFromEnd xs.length 2 (by omega)
  unfold getItem
  rw [List.length_append,List.length_cons,List.length_singleton]
  simp [there,raiseNone]

theorem setItemLast (xs : List α) (a b : α) : setItem (xs ++ [a]) (-1) b = .ok (xs ++ [b]) := by
  have there : position (xs.length+1) (-1) = some xs.length := positionFromEnd xs.length 1 (by omega)
  unfold setItem
  rw [List.length_append,List.length_singleton]
  simp [there,raiseNone]

theorem getItemMiddle (before after : List α) (a : α) : getItem (before ++ a::after) before.length = .ok a :=
  getItemInside (by simp)

theorem setItemInside {xs : List α} {n : Nat} (inside : n < xs.length) (a : α) : setItem xs n a = .ok (xs.set n a) := by
  unfold setItem
  rw [positionInside inside]
  rfl

theorem setItemMiddle (before after : List α) (a b : α) :
    setItem (before ++ a::after) before.length b = .ok (before ++ b::after) := by
  rw [setItemInside (by simp)]
  simp

theorem removeListed [DecidableEq α] {xs : List α} {a : α} (listed : a ∈ xs) : remove xs a = .ok (xs.erase a) :=
  if_pos listed

theorem removeKeeps [DecidableEq α] {xs ys : List α} {a : α} (removed : remove xs a = .ok ys) {x : α} (listed : x ∈ ys) : x ∈ xs := by
  unfold remove at removed
  split at removed
  · cases Except.ok.inj removed
    exact List.mem_of_mem_erase listed
  · contradiction

theorem delItemMiddle (before after : List α) (a : α) :
    delItem (before ++ a::after) before.length = .ok (before ++ after) := by
  unfold delItem
  rw [positionInside (by simp)]
  simp [raiseNone,List.eraseIdx_append_of_length_le]

theorem mapMOk {f : α → Except PyError β} {xs : List α} {ys : List β} :
    xs.mapM f = .ok ys ↔ List.Forall₂ (fun x y => f x = .ok y) xs ys := by
  induction xs generalizing ys with
  | nil => simp [pure,Except.pure,eq_comm]
  | cons x xs ih =>
    simp only [List.mapM_cons,bindOk,pureOk]
    refine ⟨fun h => ?_,fun h => ?_⟩
    · obtain ⟨y,hy,rest,hr,last⟩ := h
      subst last
      exact .cons hy (ih.mp hr)
    · cases h with
      | cons head tail => exact ⟨_,head,_,ih.mpr tail,rfl⟩

theorem rowsRight {R : α → β → Prop} {xs : List α} {ys : List β} (rows : List.Forall₂ R xs ys)
    {y : β} (mem : y ∈ ys) : ∃ x ∈ xs, R x y := by
  induction rows with
  | nil => simp at mem
  | cons head tail ih =>
    rcases List.mem_cons.mp mem with same | inside
    · subst same; exact ⟨_,by simp,head⟩
    · obtain ⟨x,hx,hy⟩ := ih inside
      exact ⟨x,by simp [hx],hy⟩

theorem rowsLeft {R : α → β → Prop} {xs : List α} {ys : List β} (rows : List.Forall₂ R xs ys)
    {x : α} (mem : x ∈ xs) : ∃ y ∈ ys, R x y := rowsRight rows.flip mem

theorem mapMAt {f : α → Except PyError β} {xs : List α} {ys : List β} (done : xs.mapM f = .ok ys) {n : Nat} {x : α}
    (here : xs[n]? = some x) : ∃ y, ys[n]? = some y ∧ f x = .ok y := by
  have rows := mapMOk.mp done
  clear done
  induction rows generalizing n with
  | nil => simp at here
  | @cons first y xs ys head tail ih =>
    cases n with
    | zero =>
      cases Option.some.inj here
      exact ⟨y,rfl,head⟩
    | succ n => exact ih here

theorem mapMEvery {f : α → Except PyError β} {xs : List α} {ys : List β}
    (ok : xs.mapM f = .ok ys) {y : β} (mem : y ∈ ys) : ∃ x ∈ xs, f x = .ok y :=
  rowsRight (mapMOk.mp ok) mem

theorem mapMTotal {f : α → Except PyError β} {g : α → β} {xs : List α}
    (total : ∀ x ∈ xs, f x = .ok (g x)) : xs.mapM f = .ok (xs.map g) := by
  induction xs with
  | nil => rfl
  | cons x xs ih =>
    rw [List.mapM_cons,total x (by simp),ih (fun y hy => total y (by simp [hy]))]
    rfl

theorem mapMRows {f : α → Except PyError β} {P : α → β → Prop} {xs : List α}
    (each : ∀ x ∈ xs, ∃ y, f x = .ok y ∧ P x y) : ∃ ys, xs.mapM f = .ok ys ∧ List.Forall₂ P xs ys := by
  induction xs with
  | nil => exact ⟨[],rfl,.nil⟩
  | cons x xs ih =>
    obtain ⟨y,head,holds⟩ := each x (by simp)
    obtain ⟨ys,tail,rows⟩ := ih (fun z hz => each z (by simp [hz]))
    refine ⟨y::ys,?_,.cons holds rows⟩
    rw [List.mapM_cons,head,tail]
    rfl

theorem mapMRaises {f : α → Except PyError β} {e : PyError} {xs : List α} (each : ∀ x ∈ xs, (∃ y, f x = .ok y) ∨ f x = .error e)
    {x : α} (mem : x ∈ xs) (raises : f x = .error e) : xs.mapM f = .error e := by
  induction xs with
  | nil => contradiction
  | cons z xs ih =>
    rw [List.mapM_cons]
    rcases each z (by simp) with ⟨y,done⟩ | here
    · have later : x ∈ xs := by
        rcases List.mem_cons.mp mem with same | later
        · rw [← same,raises] at done
          contradiction
        · exact later
      rw [done,ih (fun z hz => each z (by simp [hz])) later]
      rfl
    · rw [here]
      rfl

theorem mapMSame {f g : α → Except PyError β} {xs : List α} (same : ∀ x ∈ xs, f x = g x) :
    xs.mapM f = xs.mapM g := by
  induction xs with
  | nil => rfl
  | cons x xs ih =>
    rw [List.mapM_cons,List.mapM_cons,same x (by simp),ih (fun y hy => same y (by simp [hy]))]

theorem foldlMSame {f g : β → α → Except PyError β} {xs : List α} (same : ∀ x ∈ xs, ∀ b, f b x = g b x) (b : β) :
    xs.foldlM f b = xs.foldlM g b := by
  induction xs generalizing b with
  | nil => rfl
  | cons x xs ih =>
    rw [List.foldlM_cons,List.foldlM_cons,same x (by simp)]
    exact bind_congr (fun next => ih (fun y hy => same y (by simp [hy])) next)

theorem bindGoes {x : Except PyError α} {f : α → Except PyError β} {P : Prop} (each : ∀ a, (∃ b, f a = .ok b) ↔ P) :
    (∃ b, x >>= f = .ok b) ↔ (∃ a, x = .ok a) ∧ P := by
  constructor
  · intro h
    obtain ⟨b,done⟩ := h
    obtain ⟨a,first,last⟩ := bindOk.mp done
    exact ⟨⟨a,first⟩,(each a).mp ⟨b,last⟩⟩
  · intro h
    obtain ⟨⟨a,first⟩,holds⟩ := h
    obtain ⟨b,last⟩ := (each a).mpr holds
    exact ⟨b,bindOk.mpr ⟨a,first,last⟩⟩

theorem foldlMGoes {f : β → α → Except PyError β} {Q : α → Prop} (each : ∀ b x, (∃ c, f b x = .ok c) ↔ Q x) (xs : List α) (b : β) :
    (∃ c, xs.foldlM f b = .ok c) ↔ ∀ x ∈ xs, Q x := by
  induction xs generalizing b with
  | nil => simp [pureOk]
  | cons x xs ih => rw [List.foldlM_cons,bindGoes ih,each,List.forall_mem_cons]

theorem foldlMKeeps {f : β → α → Except PyError β} (P : β → Prop)
    (keeps : ∀ {b x c}, f b x = .ok c → P b → P c) {xs : List α} {b c : β}
    (done : xs.foldlM f b = .ok c) (before : P b) : P c := by
  induction xs generalizing b with
  | nil =>
    cases done
    exact before
  | cons x xs ih =>
    rw [List.foldlM_cons] at done
    obtain ⟨next,step,rest⟩ := bindOk.mp done
    exact ih rest (keeps step before)

theorem foldlMFails {f : β → α → Except PyError β} {xs : List α} {b : β} {e : PyError} (failed : xs.foldlM f b = .error e) :
    ∃ x ∈ xs, ∃ c, f c x = .error e := by
  induction xs generalizing b with
  | nil => exact absurd failed (by simp [pure,Except.pure])
  | cons x xs ih =>
    rw [List.foldlM_cons] at failed
    cases bindError.mp failed with
    | inl here => exact ⟨x,List.mem_cons_self,b,here⟩
    | inr later =>
      obtain ⟨c,_,rest⟩ := later
      obtain ⟨y,listed,found⟩ := ih rest
      exact ⟨y,List.mem_cons_of_mem x listed,found⟩

theorem foldlMGrows {f : β → α → Except PyError β} {P : β → Prop} {more : β → β → Prop} {reached : α → β → Prop}
    (refl : ∀ b, more b b) (trans : ∀ {b c d}, more b c → more c d → more b d)
    (stays : ∀ {x b c}, more b c → reached x b → reached x c) {xs : List α}
    (each : ∀ x ∈ xs, ∀ {b}, P b → ∃ c, f b x = .ok c ∧ P c ∧ more b c ∧ reached x c) {b : β} (before : P b) :
    ∃ c, xs.foldlM f b = .ok c ∧ P c ∧ more b c ∧ ∀ x ∈ xs, reached x c := by
  induction xs generalizing b with
  | nil => exact ⟨b,rfl,before,refl b,by simp⟩
  | cons x xs ih =>
    rw [List.forall_mem_cons] at each
    obtain ⟨next,step,kept,grown,here⟩ := each.1 before
    obtain ⟨c,run,still,further,others⟩ := ih each.2 kept
    refine ⟨c,?_,still,trans grown further,List.forall_mem_cons.mpr ⟨stays further here,others⟩⟩
    rw [List.foldlM_cons,step]
    exact run

theorem foldlMCollects {f : List β → α → Except PyError (List β)} {g : α → List β} {xs : List α}
    (each : ∀ x ∈ xs, ∀ b, f b x = .ok (b ++ g x)) (b : List β) : xs.foldlM f b = .ok (b ++ xs.flatMap g) := by
  induction xs generalizing b with
  | nil => rw [List.flatMap_nil,List.append_nil]; rfl
  | cons x xs ih =>
    rw [List.forall_mem_cons] at each
    rw [List.foldlM_cons,each.1 b,List.flatMap_cons,← List.append_assoc]
    exact ih each.2 (b ++ g x)

theorem foldlBoth {f : β → α → β} (P : β → Prop) (Q : α → Prop) (step : ∀ b x, P (f b x) ↔ P b ∧ Q x)
    (xs : List α) (b : β) : P (xs.foldl f b) ↔ P b ∧ ∀ x ∈ xs, Q x := by
  induction xs generalizing b with
  | nil => simp
  | cons x xs ih =>
    rw [List.foldl_cons,ih,step,and_assoc,List.forall_mem_cons]

theorem foldlEither {f : β → α → β} (P : β → Prop) (Q : α → Prop) (step : ∀ b x, P (f b x) ↔ P b ∨ Q x)
    (xs : List α) (b : β) : P (xs.foldl f b) ↔ P b ∨ ∃ x ∈ xs, Q x := by
  induction xs generalizing b with
  | nil => simp
  | cons x xs ih =>
    rw [List.foldl_cons,ih,step,or_assoc,List.exists_mem_cons_iff]

theorem transposeColumns {rows : List (List α)} (some : rows ≠ []) {width : Nat} (wide : ∀ row ∈ rows, row.length = width) :
    (transpose rows).length = width ∧ ∀ column ∈ transpose rows, column.length = rows.length := by
  cases rows with
  | nil => contradiction
  | cons first rows =>
    have size := wide first (by simp)
    unfold transpose
    refine ⟨by simp [size],?_⟩
    intro column mem
    obtain ⟨i,hi,rfl⟩ := List.mem_map.mp mem
    have inside : i < width := by simpa [size] using hi
    have each : ∀ rs : List (List α), (∀ row ∈ rs, row.length = width) →
        (rs.filterMap (fun row => row[i]?)).length = rs.length := by
      intro rs
      induction rs with
      | nil => intro _; rfl
      | cons row rs ih =>
        intro widths
        have here : row[i]? = .some (row.get ⟨i,by rw [widths row (by simp)]; exact inside⟩) :=
          List.getElem?_eq_getElem _
        rw [List.filterMap_cons,here,List.length_cons,List.length_cons,ih (fun r hr => widths r (by simp [hr]))]
    exact each _ wide

end Py
end KernelTcp

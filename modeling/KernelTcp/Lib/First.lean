import KernelTcp.Lib.Py
import Mathlib.Order.Lattice
import Mathlib.Data.List.Induction

/-! The first of the largest elements of a list, and the two loops that find it: a scan that
keeps the first strictly larger one, and `index` of `max`. -/
namespace KernelTcp
variable {α β : Type} [LinearOrder β]

def First (value : α → β) (xs : List α) (x : α) : Prop :=
  ∃ before after, xs = before ++ x::after ∧ (∀ y ∈ before, value y < value x) ∧ ∀ y ∈ after, value y ≤ value x

namespace First
variable {value : α → β} {xs : List α} {x : α}

theorem mem (first : First value xs x) : x ∈ xs := by
  obtain ⟨before,after,rfl,_⟩ := first
  simp

theorem largest (first : First value xs x) {y : α} (listed : y ∈ xs) : value y ≤ value x := by
  obtain ⟨before,after,rfl,early,late⟩ := first
  rw [List.mem_append,List.mem_cons] at listed
  rcases listed with here | rfl | there
  · exact (early y here).le
  · exact le_rfl
  · exact late y there

theorem singleton (value : α → β) (x : α) : First value [x] x := ⟨[],[],rfl,by simp,by simp⟩

theorem better (first : First value xs x) {y : α} (more : value x < value y) : First value (xs ++ [y]) y :=
  ⟨xs,[],rfl,fun _ listed => (first.largest listed).trans_lt more,by simp⟩

theorem noBetter (first : First value xs x) {y : α} (more : ¬ value x < value y) : First value (xs ++ [y]) x := by
  obtain ⟨before,after,rfl,early,late⟩ := first
  refine ⟨before,after ++ [y],by simp,early,?_⟩
  intro z listed
  rcases List.mem_append.mp listed with there | last
  · exact late z there
  · rw [List.mem_singleton.mp last]
    exact le_of_not_gt more

theorem congr {other : α → β} (same : ∀ y ∈ xs, value y = other y) (first : First value xs x) : First other xs x := by
  have here := same x first.mem
  obtain ⟨before,after,rfl,early,late⟩ := first
  refine ⟨before,after,rfl,?_,?_⟩
  · intro y listed
    rw [← here,← same y (List.mem_append_left _ listed)]
    exact early y listed
  · intro y listed
    rw [← here,← same y (by simp [listed])]
    exact late y listed

theorem constant {v : β} (same : ∀ y ∈ xs, value y = v) (first : First value xs x) : xs.head? = some x := by
  have last := same x first.mem
  obtain ⟨before,after,rfl,early,_⟩ := first
  cases before with
  | nil => rfl
  | cons y before => exact absurd ((same y List.mem_cons_self).trans last.symm) (early y List.mem_cons_self).ne

theorem unfiltered {γ : Type} {p : γ → Prop} [DecidablePred p] {g : γ → α} {es : List γ} (first : First value ((es.filter p).map g) x) :
    ∃ before e after, es = before ++ e::after ∧ p e ∧ g e = x ∧ (∀ f ∈ before, p f → value (g f) < value x) ∧
      ∀ f ∈ after, p f → value (g f) ≤ value x := by
  obtain ⟨before,after,split,earlier,later⟩ := first
  obtain ⟨front,rest,whole,rfl,tail⟩ := List.map_eq_append_iff.mp split
  obtain ⟨e,last,rfl,rfl,rfl⟩ := List.map_eq_cons_iff.mp tail
  obtain ⟨left,right,rfl,rfl,others⟩ := List.filter_eq_append_iff.mp whole
  obtain ⟨dropped,remaining,rfl,none,passes,rfl⟩ := List.filter_eq_cons_iff.mp others
  refine ⟨left ++ dropped,e,remaining,(List.append_assoc left dropped _).symm,of_decide_eq_true passes,rfl,?_,?_⟩
  · intro f listed also
    cases List.mem_append.mp listed with
    | inl early => exact earlier _ (List.mem_map.mpr ⟨f,List.mem_filter.mpr ⟨early,decide_eq_true also⟩,rfl⟩)
    | inr gone => exact absurd (decide_eq_true also) (none f gone)
  · intro f listed also
    exact later _ (List.mem_map.mpr ⟨f,List.mem_filter.mpr ⟨listed,decide_eq_true also⟩,rfl⟩)

theorem scaled {γ : Type} [LinearOrder γ] {scale : β → γ} (strict : StrictMono scale) :
    First (fun y => scale (value y)) xs x ↔ First value xs x := by
  unfold First
  simp only [strict.lt_iff_lt,strict.le_iff_le]

variable (value) in
theorem numbered {e : α × Nat} (first : First (fun e => value e.1) xs.zipIdx e) : ∃ before after, xs = before ++ e.1::after
    ∧ e.2 = before.length ∧ (∀ y ∈ before, value y < value e.1) ∧ ∀ y ∈ after, value y ≤ value e.1 := by
  obtain ⟨before,after,split,early,late⟩ := first
  have names := List.zipIdx_map_fst 0 xs
  rw [split,List.map_append,List.map_cons] at names
  have place : xs.zipIdx[before.length]? = some e := by simp [split]
  rw [List.getElem?_zipIdx,Option.map_eq_some_iff] at place
  obtain ⟨y,_,rfl⟩ := place
  refine ⟨before.map Prod.fst,after.map Prod.fst,names.symm,by simp,?_,?_⟩
  · exact List.forall_mem_map.mpr early
  · exact List.forall_mem_map.mpr late

end First

def scanStep (value : α → Except PyError β) (best : β × Option α) (x : α) : Except PyError (β × Option α) := do
  let v ← value x
  .ok (if best.1 < v then (v,some x) else best)

def scan (value : α → Except PyError β) (start : β) (xs : List α) : Except PyError (β × Option α) :=
  xs.foldlM (scanStep value) (start,none)

theorem scanFirst {value : α → Except PyError β} {f : α → β} {start : β} {xs : List α} (total : ∀ x ∈ xs, value x = .ok (f x))
    (above : ∀ x ∈ xs, start < f x) (nonempty : xs ≠ []) : ∃ x, scan value start xs = .ok (f x,some x) ∧ First f xs x := by
  induction xs using List.reverseRecOn with
  | nil => contradiction
  | append_singleton xs y ih =>
    have last : value y = .ok (f y) := total y (by simp)
    unfold scan at ih ⊢
    rw [List.foldlM_append]
    by_cases empty : xs = []
    · subst empty
      refine ⟨y,?_,First.singleton f y⟩
      simp [scanStep,last,above y (by simp),bind,Except.bind,pure,Except.pure]
    · obtain ⟨x,run,first⟩ := ih (fun x mem => total x (List.mem_append_left _ mem))
        (fun x mem => above x (List.mem_append_left _ mem)) empty
      by_cases more : f x < f y
      · refine ⟨y,?_,first.better more⟩
        simp [run,scanStep,last,more,bind,Except.bind,pure,Except.pure]
      · refine ⟨x,?_,first.noBetter more⟩
        simp [run,scanStep,last,more,bind,Except.bind,pure,Except.pure]

theorem scanPure (f : α → β) {start : β} {xs : List α} (above : ∀ x ∈ xs, start < f x) (nonempty : xs ≠ []) :
    ∃ x, scan (fun x => .ok (f x)) start xs = .ok (f x,some x) ∧ First f xs x :=
  scanFirst (fun _ _ => rfl) above nonempty

theorem scanView {σ : Type} {value : α → Except PyError β} (step : σ → α → Except PyError σ) (view : β × Option α → σ) {xs : List α}
    (each : ∀ found, ∀ x ∈ xs, step (view found) x = (scanStep value found x).map view) (found : β × Option α) :
    xs.foldlM step (view found) = (xs.foldlM (scanStep value) found).map view := by
  induction xs generalizing found with
  | nil => rfl
  | cons x xs ih =>
    rw [List.foldlM_cons,List.foldlM_cons,each found x (by simp)]
    cases scanStep value found x with
    | error e => rfl
    | ok next => exact ih (fun found y listed => each found y (by simp [listed])) next

theorem scanTotal {value : α → Except PyError β} {best last : β × Option α} {xs : List α}
    (done : xs.foldlM (scanStep value) best = .ok last) : ∀ x ∈ xs, ∃ v, value x = .ok v := by
  induction xs generalizing best with
  | nil => simp
  | cons x xs ih =>
    rw [List.foldlM_cons] at done
    obtain ⟨next,step,rest⟩ := Py.bindOk.mp done
    obtain ⟨v,found,_⟩ := Py.bindOk.mp step
    rw [List.forall_mem_cons]
    exact ⟨⟨v,found⟩,ih rest⟩

def maxOf : List β → Except PyError β
  | [] => .error .valueError
  | x::xs => .ok (xs.foldl (fun m y => if m < y then y else m) x)

def indexOf [DecidableEq α] (xs : List α) (a : α) : Except PyError Nat := Py.raiseNone .valueError (xs.idxOf? a)

theorem foldMax (xs : List β) (x : β) : ∃ m, xs.foldl (fun m y => if m < y then y else m) x = m
    ∧ m ∈ x::xs ∧ ∀ y ∈ x::xs, y ≤ m := by
  induction xs generalizing x with
  | nil => exact ⟨x,rfl,by simp,by simp⟩
  | cons y xs ih =>
    rw [List.foldl_cons]
    obtain ⟨m,run,inside,most⟩ := ih (if x < y then y else x)
    refine ⟨m,run,?_,?_⟩
    · split at inside <;> grind
    · intro z listed
      have started := most _ List.mem_cons_self
      split at started <;> grind

theorem maxFound {xs : List β} (nonempty : xs ≠ []) : ∃ m, maxOf xs = .ok m ∧ m ∈ xs ∧ ∀ y ∈ xs, y ≤ m := by
  obtain ⟨x,xs,rfl⟩ := List.exists_cons_of_ne_nil nonempty
  obtain ⟨m,run,inside,most⟩ := foldMax xs x
  exact ⟨m,congrArg Except.ok run,inside,most⟩

theorem indexFound [DecidableEq α] {xs : List α} {a : α} (listed : a ∈ xs) :
    ∃ before after, xs = before ++ a::after ∧ a ∉ before ∧ indexOf xs a = .ok before.length := by
  induction xs with
  | nil => contradiction
  | cons x xs ih =>
    by_cases same : x = a
    · refine ⟨[],xs,by simp [same],by simp,?_⟩
      simp [indexOf,List.idxOf?_cons,same,Py.raiseNone]
    · obtain ⟨before,after,rfl,absent,found⟩ := ih (List.mem_of_ne_of_mem (Ne.symm same) listed)
      refine ⟨x::before,after,rfl,by simp [absent,Ne.symm same],?_⟩
      unfold indexOf at found ⊢
      rw [Py.raiseNoneOk] at found
      simp [List.idxOf?_cons,same,found,Py.raiseNone]

theorem indexMax {f : α → β} {xs : List α} (nonempty : xs ≠ []) : ∃ m i x, maxOf (xs.map f) = .ok m
    ∧ indexOf (xs.map f) m = .ok i ∧ xs[i]? = some x ∧ First f xs x := by
  obtain ⟨m,most,inside,above⟩ := maxFound (show xs.map f ≠ [] by simpa using nonempty)
  obtain ⟨before,after,whole,absent,index⟩ := indexFound inside
  obtain ⟨early,rest,rfl,rfl,tail⟩ := List.map_eq_append_iff.mp whole
  obtain ⟨x,late,rfl,rfl,rfl⟩ := List.map_eq_cons_iff.mp tail
  refine ⟨f x,(early.map f).length,x,most,index,by simp,early,late,rfl,?_,?_⟩
  · intro y listed
    have bound := above (f y) (List.mem_map.mpr ⟨y,by simp [listed],rfl⟩)
    exact lt_of_le_of_ne bound (fun same => absent (List.mem_map.mpr ⟨y,listed,same⟩))
  · intro y listed
    exact above (f y) (List.mem_map.mpr ⟨y,by simp [listed],rfl⟩)

section Nearest
variable {distance : α → Nat} {limit : Nat}

def nearestStep (distance : α → Nat) (best : Nat × Option α) (x : α) : Nat × Option α :=
  if distance x < best.1 then (distance x,some x) else best

def nearest (distance : α → Nat) (limit : Nat) (xs : List α) : Option α := (xs.foldl (nearestStep distance) (limit,none)).2

def Nearest (distance : α → Nat) (limit : Nat) (xs : List α) (x : α) : Prop :=
  distance x < limit ∧ First (fun y => OrderDual.toDual (distance y)) xs x

theorem Nearest.least {xs : List α} {x y : α} (near : Nearest distance limit xs x) (listed : y ∈ xs) : distance x ≤ distance y :=
  near.2.largest listed

def Found (distance : α → Nat) (limit : Nat) (xs : List α) (best : Nat × Option α) : Prop :=
  (best = (limit,none) ∧ ∀ x ∈ xs, limit ≤ distance x) ∨ ∃ x, best = (distance x,some x) ∧ Nearest distance limit xs x

theorem nearestScan (distance : α → Nat) (limit : Nat) (xs : List α) :
    Found distance limit xs (xs.foldl (nearestStep distance) (limit,none)) := by
  induction xs using List.reverseRecOn with
  | nil => exact Or.inl ⟨rfl,by simp⟩
  | append_singleton xs y ih =>
    rw [List.foldl_append,List.foldl_cons,List.foldl_nil]
    cases ih with
    | inl none =>
      obtain ⟨run,far⟩ := none
      rw [run,nearestStep]
      by_cases close : distance y < limit
      · rw [if_pos close]
        refine Or.inr ⟨y,rfl,close,xs,[],rfl,?_,by simp⟩
        intro z listed
        exact close.trans_le (far z listed)
      · rw [if_neg close]
        refine Or.inl ⟨rfl,?_⟩
        intro z listed
        cases List.mem_append.mp listed with
        | inl early => exact far z early
        | inr last => exact List.mem_singleton.mp last ▸ not_lt.mp close
    | inr some =>
      obtain ⟨x,run,within,first⟩ := some
      rw [run,nearestStep]
      by_cases closer : distance y < distance x
      · rw [if_pos closer]
        exact Or.inr ⟨y,rfl,closer.trans within,first.better closer⟩
      · rw [if_neg closer]
        exact Or.inr ⟨x,rfl,within,first.noBetter closer⟩

theorem nearestFound {xs : List α} {x : α} (found : nearest distance limit xs = some x) : Nearest distance limit xs x := by
  unfold nearest at found
  cases nearestScan distance limit xs with
  | inl none =>
    rw [none.1] at found
    contradiction
  | inr some =>
    obtain ⟨y,run,near⟩ := some
    rw [run] at found
    exact Option.some.inj found ▸ near

theorem nearestNone {xs : List α} (found : nearest distance limit xs = none) : ∀ x ∈ xs, limit ≤ distance x := by
  unfold nearest at found
  cases nearestScan distance limit xs with
  | inl none => exact none.2
  | inr some =>
    obtain ⟨y,run,_⟩ := some
    rw [run] at found
    contradiction

end Nearest

end KernelTcp

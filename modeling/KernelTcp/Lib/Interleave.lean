import Mathlib.Data.List.Basic
import Mathlib.Data.List.Pairwise

/-! Processes that take turns on a state with one cell for each key. When no two processes work
on the same key, every interleaving leaves each cell as the processes would one after another. -/
namespace KernelTcp.Interleave
variable {κ σ α : Type}

inductive Interleaved : List (List α) → List α → Prop where
  | done {ps : List (List α)} (finished : ∀ p ∈ ps, p = []) : Interleaved ps []
  | next {before after : List (List α)} {a : α} {p as : List α} (rest : Interleaved (before ++ p::after) as) :
      Interleaved (before ++ (a::p)::after) (a::as)

theorem interleavedAfter (before : List (List α)) (finished : ∀ p ∈ before, p = []) (ps : List (List α)) :
    Interleaved (before ++ ps) ps.flatten := by
  induction ps generalizing before with
  | nil => exact .done (by simpa using finished)
  | cons p ps ih =>
    induction p with
    | nil =>
      have more := ih (before ++ [[]]) (fun p listed => (List.mem_append.mp listed).elim (finished p) List.mem_singleton.mp)
      rwa [List.append_assoc] at more
    | cons a p next => exact .next next

theorem interleavedFlat (ps : List (List α)) : Interleaved ps ps.flatten :=
  interleavedAfter [] (by simp) ps

section Local
variable [DecidableEq κ] (step : κ → α → σ → σ)

def touch (cells : κ → σ) (e : κ × α) : κ → σ := fun k => if k = e.1 then step k e.2 (cells k) else cells k

def runAll (es : List (κ × α)) (cells : κ → σ) : κ → σ := es.foldl (touch step) cells

def own (k : κ) (es : List (κ × α)) : List α := (es.filter (fun e => e.1 = k)).map Prod.snd

variable {step}

theorem ownCons (k : κ) (e : κ × α) (es : List (κ × α)) : own k (e::es) = if e.1 = k then e.2::own k es else own k es := by
  unfold own
  by_cases same : e.1 = k
  · simp [same]
  · simp [same]

theorem ownAppend (k : κ) (es fs : List (κ × α)) : own k (es ++ fs) = own k es ++ own k fs := by
  unfold own
  rw [List.filter_append,List.map_append]

theorem ownNone {k : κ} {es : List (κ × α)} (apart : ∀ e ∈ es, e.1 ≠ k) : own k es = [] := by
  unfold own
  rw [List.filter_eq_nil_iff.mpr (fun e listed => by simp [apart e listed]),List.map_nil]

theorem runAllOwn (es : List (κ × α)) (cells : κ → σ) (k : κ) :
    runAll step es cells k = (own k es).foldl (fun s a => step k a s) (cells k) := by
  induction es generalizing cells with
  | nil => rfl
  | cons e es ih =>
    have first : runAll step (e::es) cells = runAll step es (touch step cells e) := rfl
    rw [first,ih,ownCons]
    unfold touch
    by_cases same : e.1 = k
    · rw [if_pos same.symm,if_pos same,List.foldl_cons]
    · rw [if_neg (fun back => same back.symm),if_neg same]

def Apart (ps : List (List (κ × α))) : Prop := ps.Pairwise (fun p q => ∀ e ∈ p, ∀ f ∈ q, e.1 ≠ f.1)

theorem interleavedOwn {ps : List (List (κ × α))} {es : List (κ × α)} (order : Interleaved ps es) (apart : Apart ps) (k : κ) :
    own k es = own k ps.flatten := by
  induction order with
  | done finished => rw [List.flatten_eq_nil_iff.mpr finished]
  | @next before after e p es rest ih =>
    have fewer : Apart (before ++ p::after) := by
      unfold Apart at apart ⊢
      rw [List.pairwise_append,List.pairwise_cons] at apart ⊢
      obtain ⟨front,⟨here,back⟩,across⟩ := apart
      refine ⟨front,⟨fun q listed f inside => here q listed f (List.mem_cons_of_mem e inside),back⟩,?_⟩
      intro q listed r other
      cases List.mem_cons.mp other with
      | inl same =>
        intro f inside g later
        exact across q listed (e::p) List.mem_cons_self f inside g (List.mem_cons_of_mem e (same ▸ later))
      | inr further => exact across q listed r (List.mem_cons_of_mem _ further)
    have flat : (before ++ (e::p)::after).flatten = before.flatten ++ e::(p ++ after.flatten) := by simp
    have rest : (before ++ p::after).flatten = before.flatten ++ (p ++ after.flatten) := by simp
    rw [ownCons,ih fewer,rest,flat,ownAppend k before.flatten (e::_),ownAppend k before.flatten,ownCons]
    split
    · -- No process before this one has the key of its step.
      rename_i same
      have none : own k before.flatten = [] := by
        apply ownNone
        intro f listed
        obtain ⟨q,member,inside⟩ := List.mem_flatten.mp listed
        rw [← same]
        exact (List.pairwise_append.mp apart).2.2 q member (e::p) List.mem_cons_self f inside e List.mem_cons_self
      rw [none,List.nil_append,List.nil_append]
    · rfl

theorem runAllInterleaved {ps : List (List (κ × α))} {es : List (κ × α)} (order : Interleaved ps es) (apart : Apart ps)
    (cells : κ → σ) : runAll step es cells = runAll step ps.flatten cells := by
  funext k
  rw [runAllOwn,runAllOwn,interleavedOwn order apart]

end Local

end KernelTcp.Interleave

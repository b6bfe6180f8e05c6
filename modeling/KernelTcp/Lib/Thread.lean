import Mathlib.Data.List.Basic

/-! A state threaded from left to right through a list, and through lists of lists.
`thread` rewrites every element, `sift` decides which elements stay. -/
namespace KernelTcp.Thread
variable {σ τ α β γ : Type}

def thread (f : σ → α → σ × β) : σ → List α → σ × List β
  | s, [] => (s,[])
  | s, a::as =>
      let head := f s a
      let tail := thread f head.1 as
      (tail.1,head.2::tail.2)

def sift (step : σ → α → σ × Bool) : σ → List α → σ × List α
  | s, [] => (s,[])
  | s, a::as =>
      let head := step s a
      let tail := sift step head.1 as
      (tail.1,if head.2 then a::tail.2 else tail.2)

theorem siftKept (step : σ → α → σ × Bool) {s : σ} {x : α} (kept : (step s x).2 = true) {xs : List α} :
    (sift step s (x::xs)).2 = x::(sift step (step s x).1 xs).2 := by
  simp [sift,kept]

theorem siftDropped (step : σ → α → σ × Bool) {s : σ} {x : α} (dropped : (step s x).2 = false) {xs : List α} :
    (sift step s (x::xs)).2 = (sift step (step s x).1 xs).2 := by
  simp [sift,dropped]

theorem siftAppend (step : σ → α → σ × Bool) (s : σ) (xs ys : List α) :
    sift step s (xs++ys) =
      ((sift step (sift step s xs).1 ys).1,(sift step s xs).2 ++ (sift step (sift step s xs).1 ys).2) := by
  induction xs generalizing s with
  | nil => rfl
  | cons x xs ih =>
    simp only [List.cons_append,sift,ih]
    split <;> rfl

theorem siftSublist (step : σ → α → σ × Bool) (s : σ) (xs : List α) :
    (sift step s xs).2.Sublist xs := by
  induction xs generalizing s with
  | nil => exact .slnil
  | cons x xs ih =>
    simp only [sift]
    split
    · exact (ih _).cons_cons x
    · exact (ih _).cons x

theorem siftIdem (step : σ → α → σ × Bool)
    (idle : ∀ s a, (step s a).2 = false → (step s a).1 = s) (s : σ) (xs : List α) :
    sift step s (sift step s xs).2 = sift step s xs := by
  induction xs generalizing s with
  | nil => rfl
  | cons x xs ih =>
    cases keep : (step s x).2 with
    | true => simp only [sift,keep,if_true,ih]
    | false =>
      have same := idle s x keep
      simp only [sift,keep,same]
      exact ih s

theorem siftSim (R : σ → τ → Prop) (f : σ → α → σ × Bool) (g : τ → α → τ × Bool)
    (step : ∀ s t a, R s t → R (f s a).1 (g t a).1 ∧ (f s a).2 = (g t a).2)
    {s : σ} {t : τ} (start : R s t) (xs : List α) :
    R (sift f s xs).1 (sift g t xs).1 ∧ (sift f s xs).2 = (sift g t xs).2 := by
  induction xs generalizing s t with
  | nil => exact ⟨start,rfl⟩
  | cons x xs ih =>
    have head := step s t x start
    have tail := ih head.1
    exact ⟨tail.1,by simp only [sift,head.2,tail.2]⟩

theorem threadSim (R : σ → τ → Prop) (f : σ → α → σ × β) (g : τ → α → τ × β)
    (step : ∀ s t a, R s t → R (f s a).1 (g t a).1 ∧ (f s a).2 = (g t a).2)
    {s : σ} {t : τ} (start : R s t) (xs : List α) :
    R (thread f s xs).1 (thread g t xs).1 ∧ (thread f s xs).2 = (thread g t xs).2 := by
  induction xs generalizing s t with
  | nil => exact ⟨start,rfl⟩
  | cons x xs ih =>
    have head := step s t x start
    have tail := ih head.1
    exact ⟨tail.1,by simp only [thread,head.2,tail.2]⟩

theorem threadIdem (f : σ → α → σ × α) (again : ∀ s a, f s (f s a).2 = f s a) (s : σ) (xs : List α) :
    thread f s (thread f s xs).2 = thread f s xs := by
  induction xs generalizing s with
  | nil => rfl
  | cons x xs ih => simp only [thread,again,ih]

theorem threadSift (step : σ → γ → σ × Bool) (f : σ → α → σ × β) (parts : α → List γ)
    (left : β → List γ) (each : ∀ s a, ((f s a).1,left (f s a).2) = sift step s (parts a))
    (s : σ) (xs : List α) :
    ((thread f s xs).1,(thread f s xs).2.flatMap left) = sift step s (xs.flatMap parts) := by
  induction xs generalizing s with
  | nil => rfl
  | cons x xs ih =>
    have head := each s x
    have tail := ih (f s x).1
    have state : (f s x).1 = (sift step s (parts x)).1 := congrArg Prod.fst head
    have kept : left (f s x).2 = (sift step s (parts x)).2 := congrArg Prod.snd head
    rw [List.flatMap_cons,siftAppend,← state,← kept,← tail]
    rfl

theorem threadPointwise (f : σ → α → σ × β) (P : α → β → Prop) (each : ∀ s a, P a (f s a).2)
    (s : σ) (xs : List α) : List.Forall₂ P xs (thread f s xs).2 := by
  induction xs generalizing s with
  | nil => exact .nil
  | cons x xs ih => exact .cons (each s x) (ih _)

def threadM {ε : Type} (f : σ → α → Except ε (σ × β)) : σ → List α → Except ε (σ × List β)
  | s, [] => .ok (s,[])
  | s, a::as => do
      let head ← f s a
      let tail ← threadM f head.1 as
      .ok (tail.1,head.2::tail.2)

theorem threadMPointwise {ε : Type} (f : σ → α → Except ε (σ × β)) (P : α → β → Prop)
    (each : ∀ s a out, f s a = .ok out → P a out.2) (s : σ) (xs : List α) {out : σ × List β}
    (done : threadM f s xs = .ok out) : List.Forall₂ P xs out.2 := by
  induction xs generalizing s out with
  | nil =>
    cases Except.ok.inj done
    exact .nil
  | cons x xs ih =>
    rw [threadM] at done
    cases head : f s x with
    | error e =>
      rw [head] at done
      contradiction
    | ok next =>
      rw [head] at done
      change (do let tail ← threadM f next.1 xs; Except.ok (tail.1,next.2::tail.2)) = _ at done
      cases tail : threadM f next.1 xs with
      | error e =>
        rw [tail] at done
        contradiction
      | ok rest =>
        rw [tail] at done
        cases Except.ok.inj done
        exact .cons (each s x next head) (ih next.1 tail)

end KernelTcp.Thread

import Mathlib.Data.List.Basic
import Mathlib.Data.List.Chain
import Mathlib.Data.List.Infix

/-! Chains along successor lists. A chain is chosen by the positions of its edges, so that an
edge listed twice counts twice; `choices` lists the choices of a given length whose nodes are
distinct and not on a path already taken. -/
namespace KernelTcp.Chains
variable {α : Type} (next : α → List α)

def follow (u : α) : List Nat → Option (List α)
  | [] => some []
  | p::ps => (next u)[p]?.bind (fun v => (follow v ps).map (fun rest => v::rest))

def nodes (u : α) (ps : List Nat) : List α := (follow next u ps).getD []

variable {next}

theorem followStep {u v : α} {p : Nat} {ps : List Nat} {ns : List α} :
    follow next u (p::ps) = some (v::ns) ↔ (next u)[p]? = some v ∧ follow next v ps = some ns := by
  rw [follow,Option.bind_eq_some_iff]
  constructor
  · intro h
    obtain ⟨w,edge,rest⟩ := h
    obtain ⟨tail,run,same⟩ := Option.map_eq_some_iff.mp rest
    cases same
    exact ⟨edge,run⟩
  · intro h
    exact ⟨v,h.1,by rw [h.2]; rfl⟩

theorem followCons {u : α} {p : Nat} {ps : List Nat} {ns : List α} (found : follow next u (p::ps) = some ns) :
    ∃ v rest, ns = v::rest := by
  obtain ⟨v,_,rest⟩ := Option.bind_eq_some_iff.mp found
  obtain ⟨tail,_,rfl⟩ := Option.map_eq_some_iff.mp rest
  exact ⟨v,tail,rfl⟩

theorem followLength {u : α} {ps : List Nat} {ns : List α} (found : follow next u ps = some ns) : ns.length = ps.length := by
  induction ps generalizing u ns with
  | nil =>
    cases Option.some.inj found
    rfl
  | cons p ps ih =>
    obtain ⟨v,rest,rfl⟩ := followCons found
    rw [List.length_cons,List.length_cons,ih (followStep.mp found).2]

theorem followChain {u : α} {ns : List α} :
    (∃ ps, follow next u ps = some ns) ↔ List.IsChain (fun a b => b ∈ next a) (u::ns) := by
  induction ns generalizing u with
  | nil => exact ⟨fun _ => List.isChain_singleton u,fun _ => ⟨[],rfl⟩⟩
  | cons n ns ih =>
    rw [List.isChain_cons_cons,← ih]
    constructor
    · intro h
      obtain ⟨ps,found⟩ := h
      cases ps with
      | nil => cases Option.some.inj found
      | cons p ps =>
        obtain ⟨edge,run⟩ := followStep.mp found
        exact ⟨List.mem_of_getElem? edge,ps,run⟩
    · intro h
      obtain ⟨edge,ps,run⟩ := h
      obtain ⟨p,_,here⟩ := List.getElem_of_mem edge
      exact ⟨p::ps,followStep.mpr ⟨List.getElem?_eq_some_iff.mpr ⟨_,here⟩,run⟩⟩

variable (next) [DecidableEq α]

def choices : Nat → List α → α → List (List Nat)
  | 0, _, _ => [[]]
  | d+1, path, u => (next u).zipIdx.flatMap (fun e =>
      if e.1 ∈ path then [] else (choices d (path ++ [e.1]) e.1).map (fun ps => e.2::ps))

variable {next}

theorem memChoices {d : Nat} {path : List α} {u : α} {ps : List Nat} : ps ∈ choices next d path u ↔
    ps.length = d ∧ ∃ ns, follow next u ps = some ns ∧ ns.Nodup ∧ List.Disjoint path ns := by
  induction d generalizing path u ps with
  | zero =>
    rw [choices,List.mem_singleton]
    constructor
    · intro same
      rw [same]
      exact ⟨rfl,[],rfl,List.nodup_nil,List.disjoint_nil_right path⟩
    · intro h
      exact List.length_eq_zero_iff.mp h.1
  | succ d ih =>
    rw [choices,List.mem_flatMap]
    constructor
    · intro h
      obtain ⟨e,edge,inside⟩ := h
      rw [List.mem_zipIdx_iff_getElem?] at edge
      split at inside
      · contradiction
      · rename_i fresh
        obtain ⟨tail,chosen,rfl⟩ := List.mem_map.mp inside
        obtain ⟨size,ns,found,distinct,apart⟩ := ih.mp chosen
        rw [List.disjoint_append_left,List.singleton_disjoint] at apart
        refine ⟨by rw [List.length_cons,size],e.1::ns,followStep.mpr ⟨edge,found⟩,List.nodup_cons.mpr ⟨apart.2,distinct⟩,?_⟩
        exact List.disjoint_cons_right.mpr ⟨fresh,apart.1⟩
    · intro h
      obtain ⟨size,ns,found,distinct,apart⟩ := h
      cases ps with
      | nil => contradiction
      | cons p tail =>
        obtain ⟨v,rest,rfl⟩ := followCons found
        obtain ⟨edge,run⟩ := followStep.mp found
        rw [List.nodup_cons] at distinct
        rw [List.disjoint_cons_right] at apart
        refine ⟨(v,p),List.mem_zipIdx_iff_getElem?.mpr edge,?_⟩
        rw [if_neg apart.1]
        refine List.mem_map.mpr ⟨tail,ih.mpr ⟨Nat.succ.inj size,rest,run,distinct.2,?_⟩,rfl⟩
        rw [List.disjoint_append_left,List.singleton_disjoint]
        exact ⟨apart.2,distinct.1⟩

theorem choicesSorted (d : Nat) (path : List α) (u : α) : (choices next d path u).Pairwise (List.Lex (fun a b : Nat => a < b)) := by
  induction d generalizing path u with
  | zero => exact List.pairwise_singleton _ _
  | succ d ih =>
    rw [choices,List.pairwise_flatMap]
    constructor
    · intro e _
      split
      · exact List.Pairwise.nil
      · rw [List.pairwise_map]
        exact (ih _ _).imp List.Lex.cons
    · have rising : (next u).zipIdx.Pairwise (fun a b => a.2 < b.2) := by
        rw [← List.pairwise_map (f := Prod.snd),List.zipIdx_map_snd]
        exact List.pairwise_lt_range'
      refine rising.imp ?_
      intro a b earlier ps left qs right
      split at left
      · contradiction
      · split at right
        · contradiction
        · obtain ⟨_,_,rfl⟩ := List.mem_map.mp left
          obtain ⟨_,_,rfl⟩ := List.mem_map.mp right
          exact List.Lex.rel earlier

theorem choicesNodes (d : Nat) (path : List α) (u : α) :
    (choices next (d+1) path u).map (fun ps => path ++ nodes next u ps) = (next u).flatMap (fun v =>
      if v ∈ path then [] else (choices next d (path ++ [v]) v).map (fun ps => path ++ [v] ++ nodes next v ps)) := by
  have whole := List.zipIdx_map_fst 0 (next u)
  conv => rhs; rw [← whole]
  rw [choices,List.map_flatMap,List.flatMap_map]
  refine List.flatMap_congr ?_
  intro e edge
  rw [List.mem_zipIdx_iff_getElem?] at edge
  split
  · rfl
  · rw [List.map_map]
    refine List.map_congr_left ?_
    intro ps chosen
    obtain ⟨_,ns,found,_⟩ := memChoices.mp chosen
    simp only [Function.comp_apply,nodes,followStep.mpr ⟨edge,found⟩,found,Option.getD_some,List.append_assoc,List.singleton_append]

theorem foldAppends {σ α β : Type} {step : σ → α → Option σ} (view : List β → σ) {f : α → List β} {xs : List α}
    (each : ∀ x ∈ xs, ∀ out, step (view out) x = some (view (out ++ f x))) (out : List β) :
    xs.foldlM step (view out) = some (view (out ++ xs.flatMap f)) := by
  induction xs generalizing out with
  | nil => simp
  | cons x xs ih =>
    rw [List.foldlM_cons,each x (by simp),List.flatMap_cons,← List.append_assoc]
    exact ih (fun y listed => each y (by simp [listed])) (out ++ f x)

end KernelTcp.Chains

import KernelTcp.Lib.Py
import Mathlib.Algebra.GroupWithZero.Nat
import Mathlib.Data.List.Dedup

/-! Insertion-ordered dictionaries. A key keeps the place of its first assignment
and later assignments replace the value there; a duplicate key cannot be built. -/
namespace KernelTcp

structure Dict (κ ν : Type) where
  entries : List (κ × ν)
  distinct : (entries.map Prod.fst).Nodup

namespace Dict
variable {κ ν α : Type}

def empty : Dict κ ν := ⟨[],by simp⟩

def keys (d : Dict κ ν) : List κ := d.entries.map Prod.fst
def values (d : Dict κ ν) : List ν := d.entries.map Prod.snd

theorem ext {d e : Dict κ ν} (same : d.entries = e.entries) : d = e := by
  cases d; cases e; cases same; rfl

theorem keysDistinct (d : Dict κ ν) : d.keys.Nodup := d.distinct

@[simp] theorem keysEmpty : (empty : Dict κ ν).keys = [] := rfl

def mapValues {μ : Type} (g : κ → ν → μ) (d : Dict κ ν) : Dict κ μ :=
  ⟨d.entries.map (fun e => (e.1,g e.1 e.2)),by rw [List.map_map]; exact d.distinct⟩

theorem keysMapValues {μ : Type} (g : κ → ν → μ) (d : Dict κ ν) : (d.mapValues g).keys = d.keys := by
  unfold keys mapValues
  rw [List.map_map]
  rfl

variable [DecidableEq κ]

def find (k : κ) : List (κ × ν) → Option ν
  | [] => none
  | e::es => if e.1 = k then some e.2 else find k es

def assign (k : κ) (v : ν) : List (κ × ν) → List (κ × ν)
  | [] => [(k,v)]
  | e::es => if e.1 = k then (k,v)::es else e::assign k v es

theorem findAssign (k other : κ) (v : ν) (es : List (κ × ν)) :
    find other (assign k v es) = if k = other then some v else find other es := by
  induction es with
  | nil => simp [assign,find]
  | cons e es ih =>
    by_cases here : e.1 = k
    · subst here
      simp only [assign,if_pos,find]
      split <;> rfl
    · simp only [assign,if_neg here,find,ih]
      split
      · rename_i same
        rw [if_neg (fun h => here (same.trans h.symm))]
      · rfl

theorem keysAssign (k : κ) (v : ν) (es : List (κ × ν)) :
    (assign k v es).map Prod.fst =
      if k ∈ es.map Prod.fst then es.map Prod.fst else es.map Prod.fst ++ [k] := by
  induction es with
  | nil => simp [assign]
  | cons e es ih =>
    by_cases here : e.1 = k
    · simp [assign,here]
    · have there : k ≠ e.1 := fun h => here h.symm
      simp only [assign,if_neg here,List.map_cons,ih,List.mem_cons,there,false_or]
      split <;> rfl

theorem assignDistinct (k : κ) (v : ν) {es : List (κ × ν)} (distinct : (es.map Prod.fst).Nodup) :
    ((assign k v es).map Prod.fst).Nodup := by
  rw [keysAssign]
  split
  · exact distinct
  · rename_i fresh
    rw [List.nodup_append]
    exact ⟨distinct,by simp,fun a ha b hb => by
      rw [List.mem_singleton.mp hb]; exact fun h => fresh (h ▸ ha)⟩

def get? (d : Dict κ ν) (k : κ) : Option ν := find k d.entries

def set (d : Dict κ ν) (k : κ) (v : ν) : Dict κ ν :=
  ⟨assign k v d.entries,assignDistinct k v d.distinct⟩

@[simp] theorem getEmpty (k : κ) : (empty : Dict κ ν).get? k = none := rfl

theorem getSet (d : Dict κ ν) (k other : κ) (v : ν) :
    (d.set k v).get? other = if k = other then some v else d.get? other :=
  findAssign k other v d.entries

@[simp] theorem getSetSame (d : Dict κ ν) (k : κ) (v : ν) : (d.set k v).get? k = some v := by
  simp [getSet]

theorem getSetOther (d : Dict κ ν) {k other : κ} (v : ν) (different : k ≠ other) :
    (d.set k v).get? other = d.get? other := by
  simp [getSet,different]

theorem assignSame {k : κ} {v : ν} {es : List (κ × ν)} (here : find k es = some v) : assign k v es = es := by
  induction es with
  | nil => simp [find] at here
  | cons e es ih =>
    rw [find] at here
    rw [assign]
    split at here
    · rename_i same
      rw [if_pos same,← Option.some.inj here,← same]
    · rename_i other
      rw [if_neg other,ih here]

theorem setSame {d : Dict κ ν} {k : κ} {v : ν} (here : d.get? k = some v) : d.set k v = d :=
  ext (assignSame here)

theorem keysSet (d : Dict κ ν) (k : κ) (v : ν) :
    (d.set k v).keys = if k ∈ d.keys then d.keys else d.keys ++ [k] :=
  keysAssign k v d.entries

theorem memKeysSet (d : Dict κ ν) (k other : κ) (v : ν) :
    other ∈ (d.set k v).keys ↔ other = k ∨ other ∈ d.keys := by
  rw [keysSet]
  split
  · rename_i present
    exact ⟨Or.inr,fun h => h.elim (fun same => same ▸ present) id⟩
  · simp only [List.mem_append,List.mem_singleton]
    exact or_comm

theorem findSome {k : κ} {v : ν} {es : List (κ × ν)} (distinct : (es.map Prod.fst).Nodup) :
    find k es = some v ↔ (k,v) ∈ es := by
  induction es with
  | nil => simp [find]
  | cons e es ih =>
    obtain ⟨fresh,rest⟩ := List.nodup_cons.mp distinct
    by_cases here : e.1 = k
    · subst here
      simp only [find,if_pos,Option.some.injEq,List.mem_cons]
      constructor
      · intro same; exact Or.inl (by rw [← same])
      · intro h
        rcases h with same | inside
        · rw [← same]
        · exact False.elim (fresh (List.mem_map.mpr ⟨_,inside,rfl⟩))
    · simp only [find,if_neg here,ih rest,List.mem_cons]
      constructor
      · exact Or.inr
      · intro h
        rcases h with same | inside
        · exact False.elim (here (by rw [← same]))
        · exact inside

theorem getEntry {d : Dict κ ν} {k : κ} {v : ν} : d.get? k = some v ↔ (k,v) ∈ d.entries :=
  findSome d.distinct

theorem memKeys {d : Dict κ ν} {k : κ} : k ∈ d.keys ↔ ∃ v, d.get? k = some v := by
  constructor
  · intro mem
    obtain ⟨e,he,rfl⟩ := List.mem_map.mp mem
    exact ⟨e.2,getEntry.mpr he⟩
  · intro h
    obtain ⟨v,hv⟩ := h
    exact List.mem_map.mpr ⟨_,getEntry.mp hv,rfl⟩

theorem getNone {d : Dict κ ν} {k : κ} : d.get? k = none ↔ k ∉ d.keys := by
  rw [memKeys,Option.eq_none_iff_forall_ne_some,not_exists]

instance (d : Dict κ ν) (k : κ) : Decidable (k ∈ d.keys) := inferInstanceAs (Decidable (_ ∈ List.map _ _))

theorem findNotMem {k : κ} {es : List (κ × ν)} (absent : k ∉ es.map Prod.fst) : find k es = none := by
  induction es with
  | nil => rfl
  | cons e es ih =>
    simp only [List.map_cons,List.mem_cons,not_or] at absent
    simp only [find,if_neg (Ne.symm absent.1),ih absent.2]

theorem entriesFilter (d : Dict κ ν) (k : κ) :
    d.entries.filter (fun e => e.1 = k) = ((d.get? k).map (fun v => (k,v))).toList := by
  obtain ⟨es,distinct⟩ := d
  unfold get?
  simp only
  induction es with
  | nil => rfl
  | cons e es ih =>
    obtain ⟨fresh,rest⟩ := List.nodup_cons.mp distinct
    have tail := ih rest
    by_cases here : e.1 = k
    · subst here
      rw [findNotMem fresh] at tail
      simp only [find,List.filter_cons,decide_true,if_true,tail]
      rfl
    · simp only [find,List.filter_cons,here,decide_false,if_false,tail]
      rfl

theorem valuesFilter (d : Dict κ ν) (tag : ν → κ) (tagged : ∀ e ∈ d.entries, tag e.2 = e.1) (k : κ) :
    d.values.filter (fun v => tag v = k) = (d.get? k).toList := by
  have same : d.entries.filter (fun e => tag e.2 = k) = d.entries.filter (fun e => e.1 = k) :=
    List.filter_congr (fun e he => by rw [tagged e he])
  have mapped : d.values.filter (fun v => tag v = k) = (d.entries.filter (fun e => tag e.2 = k)).map Prod.snd := by
    unfold values
    rw [List.filter_map]
    rfl
  rw [mapped,same,entriesFilter]
  cases d.get? k <;> rfl

theorem keysLookup (d : Dict κ ν) : d.keys.filterMap d.get? = d.values := by
  have each : ∀ es : List (κ × ν), (∀ e ∈ es, d.get? e.1 = some e.2) →
      (es.map Prod.fst).filterMap d.get? = es.map Prod.snd := by
    intro es
    induction es with
    | nil => intro _; rfl
    | cons e es ih =>
      intro found
      rw [List.map_cons,List.filterMap_cons,found e (by simp),List.map_cons,
        ih (fun x hx => found x (by simp [hx]))]
  exact each d.entries (fun e he => getEntry.mpr he)

theorem assignNew {k : κ} {v : ν} {es : List (κ × ν)} (new : k ∉ es.map Prod.fst) : assign k v es = es ++ [(k,v)] := by
  induction es with
  | nil => rfl
  | cons e es ih =>
    rw [List.map_cons,List.mem_cons,not_or] at new
    obtain ⟨apart,rest⟩ := new
    rw [assign,if_neg (Ne.symm apart),ih rest]
    rfl

theorem entriesSetNew {d : Dict κ ν} {k : κ} (new : k ∉ d.keys) (v : ν) : (d.set k v).entries = d.entries ++ [(k,v)] :=
  assignNew new

theorem lengthSet (d : Dict κ ν) (k : κ) (v : ν) : (d.set k v).entries.length ≤ d.entries.length + 1 := by
  by_cases known : k ∈ d.keys
  · have keys := congrArg List.length (keysSet d k v)
    rw [if_pos known] at keys
    simp only [Dict.keys,List.length_map] at keys
    omega
  · simp [entriesSetNew known v]

theorem getMapValues {μ : Type} (g : κ → ν → μ) (d : Dict κ ν) (k : κ) :
    (d.mapValues g).get? k = (d.get? k).map (g k) := by
  cases found : d.get? k with
  | none =>
    exact getNone.mpr (by rw [keysMapValues]; exact getNone.mp found)
  | some v =>
    exact getEntry.mpr (List.mem_map.mpr ⟨(k,v),getEntry.mp found,rfl⟩)

section pass
variable (key : α → κ) (f : Option ν → α → ν)

def pass (d : Dict κ ν) (xs : List α) : Dict κ ν :=
  xs.foldl (fun d x => d.set (key x) (f (d.get? (key x)) x)) d

theorem passCons (d : Dict κ ν) (x : α) (xs : List α) :
    pass key f d (x::xs) = pass key f (d.set (key x) (f (d.get? (key x)) x)) xs := rfl

theorem passAppend (d : Dict κ ν) (xs ys : List α) :
    pass key f d (xs++ys) = pass key f (pass key f d xs) ys := by
  simp [pass,List.foldl_append]

theorem passGet (d : Dict κ ν) (xs : List α) (k : κ) :
    (pass key f d xs).get? k =
      (xs.filter (fun x => key x = k)).foldl (fun o x => some (f o x)) (d.get? k) := by
  induction xs generalizing d with
  | nil => rfl
  | cons x xs ih =>
    rw [passCons,ih]
    by_cases here : key x = k
    · simp [here]
    · simp [here,getSetOther]

theorem passDistinct (d : Dict κ ν) {xs : List α} (distinct : (xs.map key).Nodup) {x : α} (listed : x ∈ xs) :
    (pass key f d xs).get? (key x) = some (f (d.get? (key x)) x) := by
  obtain ⟨before,after,rfl⟩ := List.append_of_mem listed
  rw [List.map_append,List.map_cons,List.nodup_middle,List.nodup_cons,List.mem_append,not_or] at distinct
  have apart : ∀ ys : List α, key x ∉ ys.map key → ys.filter (fun y => key y = key x) = [] := by
    intro ys absent
    rw [List.filter_eq_nil_iff]
    intro y there
    simpa using fun same => absent (List.mem_map.mpr ⟨y,there,same⟩)
  rw [passGet,List.filter_append,List.filter_cons_of_pos (by simp),apart before distinct.1.1,apart after distinct.1.2]
  rfl

theorem memKeysPass (d : Dict κ ν) (xs : List α) (k : κ) :
    k ∈ (pass key f d xs).keys ↔ k ∈ d.keys ∨ ∃ x ∈ xs, key x = k := by
  induction xs generalizing d with
  | nil => simp [pass]
  | cons x xs ih =>
    rw [passCons,ih,memKeysSet]
    constructor
    · intro h
      rcases h with (same | old) | ⟨y,hy,hk⟩
      · exact Or.inr ⟨x,by simp,same.symm⟩
      · exact Or.inl old
      · exact Or.inr ⟨y,by simp [hy],hk⟩
    · intro h
      rcases h with old | ⟨y,hy,hk⟩
      · exact Or.inl (Or.inr old)
      · rcases List.mem_cons.mp hy with rfl | inside
        · exact Or.inl (Or.inl hk.symm)
        · exact Or.inr ⟨y,inside,hk⟩

theorem passKeys {μ : Type} (g : Option μ → α → μ) {d : Dict κ ν} {e : Dict κ μ} (same : d.keys = e.keys)
    (xs : List α) : (pass key f d xs).keys = (pass key g e xs).keys := by
  induction xs generalizing d e with
  | nil => exact same
  | cons x xs ih =>
    apply ih
    rw [keysSet,keysSet,same]

theorem passEntries {μ : Type} (g : μ → ν) (d : Dict κ ν) (e : Dict κ μ) (k : κ) :
    (pass Prod.fst (fun _ entry => g entry.2) d e.entries).get? k = ((e.get? k).map g).or (d.get? k) := by
  rw [passGet,entriesFilter]
  cases e.get? k <;> rfl

theorem foldSum (g : α → Nat) (n : Option Nat) (xs : List α) :
    xs.foldl (fun o x => some (o.getD 0 + g x)) n = if xs = [] then n else some (n.getD 0 + (xs.map g).sum) := by
  induction xs generalizing n with
  | nil => rfl
  | cons x xs ih =>
    rw [List.foldl_cons,ih]
    cases xs with
    | nil => simp
    | cons y ys => simp [Nat.add_assoc]

end pass

section update
variable (f : κ → ν → Except PyError ν) (g : κ → ν → ν)

def updateStep (d : Dict κ ν) (k : κ) : Except PyError (Dict κ ν) := do
  let v ← Py.raiseNone .keyError (d.get? k)
  let v ← f k v
  .ok (d.set k v)

theorem updateKeys {ks : List κ} (distinct : ks.Nodup) {d : Dict κ ν}
    (each : ∀ k ∈ ks, ∃ v, d.get? k = some v ∧ f k v = .ok (g k v)) :
    ∃ e, ks.foldlM (updateStep f) d = .ok e ∧ e.keys = d.keys ∧
      ∀ k, e.get? k = if k ∈ ks then (d.get? k).map (g k) else d.get? k := by
  induction ks generalizing d with
  | nil => exact ⟨d,rfl,rfl,by simp⟩
  | cons k ks ih =>
    obtain ⟨apart,rest⟩ := List.nodup_cons.mp distinct
    obtain ⟨v,found,done⟩ := each k (by simp)
    have step : updateStep f d k = .ok (d.set k (g k v)) := by
      unfold updateStep
      rw [found]
      simp only [Py.raiseNone,bind,Except.bind,done]
    have later : ∀ x ∈ ks, ∃ u, (d.set k (g k v)).get? x = some u ∧ f x u = .ok (g x u) := by
      intro x hx
      have other : k ≠ x := fun same => apart (same ▸ hx)
      rw [getSetOther d _ other]
      exact each x (by simp [hx])
    obtain ⟨e,run,keys,values⟩ := ih rest later
    refine ⟨e,?_,?_,?_⟩
    · rw [List.foldlM_cons,step]
      exact run
    · rw [keys,keysSet,if_pos (memKeys.mpr ⟨v,found⟩)]
    · intro x
      rw [values,getSet]
      by_cases here : k = x
      · subst here
        rw [if_neg apart,if_pos rfl,if_pos (by simp),found]
        rfl
      · rw [if_neg here]
        simp [Ne.symm here]

theorem updateAll {d : Dict κ ν} (each : ∀ {k v}, d.get? k = some v → f k v = .ok (g k v)) :
    ∃ e, d.keys.foldlM (updateStep f) d = .ok e ∧ e.keys = d.keys ∧ ∀ k, e.get? k = (d.get? k).map (g k) := by
  have present : ∀ k ∈ d.keys, ∃ v, d.get? k = some v ∧ f k v = .ok (g k v) := by
    intro k hk
    obtain ⟨v,found⟩ := memKeys.mp hk
    exact ⟨v,found,each found⟩
  obtain ⟨e,run,keys,values⟩ := updateKeys f g d.keysDistinct present
  refine ⟨e,run,keys,?_⟩
  intro k
  rw [values]
  split
  · rfl
  · rename_i absent
    rw [getNone.mpr absent]
    rfl

end update

def counter (xs : List κ) : Dict κ Nat := pass id (fun n _ => n.getD 0 + 1) empty xs

theorem counterGet [BEq κ] [LawfulBEq κ] (xs : List κ) (k : κ) :
    (counter xs).get? k = if k ∈ xs then some (xs.count k) else none := by
  unfold counter
  rw [passGet,getEmpty,foldSum (fun _ => 1)]
  simp only [id,Option.getD_none,Nat.zero_add,List.map_const',List.sum_replicate_nat,Nat.mul_one]
  by_cases here : k ∈ xs
  · have some : xs.filter (fun x => x = k) ≠ [] := by
      intro none
      exact absurd (List.filter_eq_nil_iff.mp none k here) (by simp)
    have same : xs.filter (fun x => x == k) = xs.filter (fun x => decide (x = k)) :=
      List.filter_congr (fun x _ => beq_eq_decide x k)
    rw [if_neg some,if_pos here,List.count_eq_length_filter,same]
  · have none : xs.filter (fun x => x = k) = [] := by
      apply List.filter_eq_nil_iff.mpr
      intro x hx same
      cases of_decide_eq_true same
      exact here hx
    rw [if_pos none,if_neg here]

theorem memCounter {xs : List κ} {k : κ} : k ∈ (counter xs).keys ↔ k ∈ xs := by
  unfold counter
  rw [memKeysPass,keysEmpty]
  simp

theorem counterSize (xs : List κ) : (counter xs).keys.length = xs.dedup.length := by
  apply List.Perm.length_eq
  apply (List.perm_ext_iff_of_nodup (keysDistinct _) xs.nodup_dedup).mpr
  intro k
  rw [memCounter,List.mem_dedup]

end Dict
end KernelTcp

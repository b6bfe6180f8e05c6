import KernelTcp.CiObjects
import KernelTcp.Lib.Dict
import KernelTcp.Lib.First
import KernelTcp.Lib.Picking
import KernelTcp.Lib.Sets
import Mathlib.Algebra.Order.Ring.Rat
import Mathlib.Tactic.Linarith

/-! FAST: an order of the test cases by MinHash signatures and an LSH index. `datasketch`, the
files, the tokenizer and the order in which a set is visited are given. An encoded token is
written as its text, and the token cache after the run is not kept. -/
namespace KernelTcp.Prior
open CiObjects Picking

/- The library as it is assumed to behave. `keys` says which keys an index holds; a query may
answer any of them and may change anything else about the index. -/
structure Datasketch (μ ℓ : Type) where
  minHash : Nat → μ
  update : μ → Str → μ
  jaccard : μ → μ → ℚ
  union : μ → μ → μ
  minHashLSH : ℚ → Nat → Nat × Nat → ℓ
  insert : ℓ → Str → μ → Except PyError ℓ
  remove : ℓ → Str → Except PyError ℓ
  query : ℓ → μ → List Str × ℓ
  keys : ℓ → Set Str
  jaccardRange : ∀ a b, 0 ≤ jaccard a b ∧ jaccard a b ≤ 1
  newKeys : ∀ threshold numPerm params, keys (minHashLSH threshold numPerm params) = ∅
  insertAbsent : ∀ {lsh key} mh, key ∉ keys lsh → ∃ next, insert lsh key mh = .ok next ∧ keys next = keys lsh ∪ {key}
  removePresent : ∀ {lsh key}, key ∈ keys lsh → ∃ next, remove lsh key = .ok next ∧ keys next = keys lsh \ {key}
  queryListed : ∀ {lsh mh key}, key ∈ (query lsh mh).1 → key ∈ keys lsh
  queryKeeps : ∀ lsh mh, keys (query lsh mh).2 = keys lsh

/- The machine: the texts of the files that exist, their tokens, and the order of a set. No two
sets that one run visits are equal. -/
structure Machine where
  text : Str → Option Str
  getTokens : Str → TestCaseType → List Str
  visit : List Str → List Str
  visits : ∀ s, (visit s).Perm s

theorem Machine.memVisit (machine : Machine) {s : List Str} {c : Str} : c ∈ machine.visit s ↔ c ∈ s :=
  (machine.visits s).mem_iff

variable {μ ℓ : Type} (lib : Datasketch μ ℓ) (machine : Machine)

def mhSignature (h : Nat) (text : List Str) : μ := text.foldl lib.update (lib.minHash h)

def select (mv : μ) (candidateSet : List Str) (signatureMap : Dict Str μ) : Except PyError (Option Str) := do
  let best ← scan (fun candidate => do
    let signature ← Py.raiseNone .keyError (signatureMap.get? candidate)
    .ok (lib.jaccard mv signature)) (-1) (machine.visit candidateSet)
  .ok best.2

structure Index (μ ℓ : Type) where
  lsh : ℓ
  mhMap : Dict Str μ
  idxMap : Dict Str Nat
  tokens : Dict Str (List Str)

def typeOf (testCase : Str) : TestCaseType := if Text.endsWith testCase ".sh".toList then .sh else .c

def readTokens (testCase : Str) : List Str := machine.getTokens ((machine.text testCase).getD []) (typeOf testCase)

def cached (tokens : Dict Str (List Str)) (testCase : Str) : List Str × Dict Str (List Str) :=
  match tokens.get? testCase with
  | some token => (token,tokens)
  | none => (readTokens machine testCase,tokens.set testCase (readTokens machine testCase))

def insertStep (h : Nat) (s : Index μ ℓ) (e : Str × Nat) : Except PyError (Index μ ℓ) := do
  let (token,tokens) := cached machine s.tokens e.1
  let mh := mhSignature lib h token
  let lsh ← lib.insert s.lsh e.1 mh
  .ok ⟨lsh,s.mhMap.set e.1 mh,s.idxMap.set e.1 e.2,tokens⟩

def index (h : Nat) (lsh : ℓ) (tokens : Dict Str (List Str)) (testCases : List Str) : Except PyError (Index μ ℓ) :=
  testCases.zipIdx.foldlM (insertStep lib machine h) ⟨lsh,Dict.empty,Dict.empty,tokens⟩

structure State (μ ℓ : Type) where
  prioritizedList : List Nat
  selectedSet : List Str
  mv : μ
  lsh : ℓ

def blank (h : Nat) : μ := mhSignature lib h [[]]

def answer (h : Nat) (s : State μ ℓ) : List Str × μ × ℓ :=
  let asked := lib.query s.lsh s.mv
  if asked.1.length = 0 then
    let again := lib.query asked.2 (blank lib h)
    (again.1,blank lib h,again.2)
  else (asked.1,s.mv,asked.2)

def unselected (testCases : List Str) (s : State μ ℓ) : List Str := others (Sets.union [] testCases) s.selectedSet

def candidateSet (h : Nat) (testCases : List Str) (s : State μ ℓ) : List Str :=
  let candidates := others (unselected testCases s) (answer lib h s).1
  if candidates.length = 0 then unselected testCases s else candidates

def candidate (h : Nat) (testCases : List Str) (mhMap : Dict Str μ) (s : State μ ℓ) : Except PyError (Option Str) :=
  select lib machine (answer lib h s).2.1 (candidateSet lib h testCases s) mhMap

-- without a candidate the lookup of `None` fails
def fastStep (h : Nat) (testCases : List Str) (mhMap : Dict Str μ) (idxMap : Dict Str Nat) (s : State μ ℓ) :
    Except PyError (State μ ℓ) := do
  let chosen ← candidate lib machine h testCases mhMap s
  let chosen ← Py.raiseNone .keyError chosen
  let idx ← Py.raiseNone .keyError (idxMap.get? chosen)
  let lsh ← lib.remove (answer lib h s).2.2 chosen
  let signature ← Py.raiseNone .keyError (mhMap.get? chosen)
  .ok ⟨s.prioritizedList ++ [idx],Sets.add s.selectedSet chosen,lib.union (answer lib h s).2.1 signature,lsh⟩

/- At most `fuel` rounds of the `while` loop; without a result when they are not enough. -/
def fastLoop (step : State μ ℓ → Except PyError (State μ ℓ)) (size : Nat) : Nat → State μ ℓ → Except PyError (Option (List Nat))
  | 0, s => .ok (if s.prioritizedList.length = size then some s.prioritizedList else none)
  | fuel+1, s =>
      if s.prioritizedList.length = size then .ok (some s.prioritizedList)
      else do
        let s ← step s
        fastLoop step size fuel s

def start (h : Nat) (lsh : ℓ) : State μ ℓ := ⟨[],[],blank lib h,lsh⟩

def fast (tokens : Dict Str (List Str)) (testCases : List Str) (bands rows h : Nat) (threshold : ℚ) (fuel : Nat) :
    Except PyError (Option (List Nat)) :=
  if bands * rows ≠ h then .error .systemExit
  else do
    let indexed ← index lib machine h (lib.minHashLSH threshold h (bands,rows)) tokens testCases
    fastLoop (fastStep lib machine h testCases indexed.mhMap indexed.idxMap) testCases.length fuel (start lib h indexed.lsh)

def similarity (mv : μ) (signatureMap : Dict Str μ) (candidate : Str) : ℚ :=
  (signatureMap.get? candidate).elim 0 (lib.jaccard mv)

theorem selectFirst (mv : μ) {candidates : List Str} {signatureMap : Dict Str μ} (some : candidates ≠ [])
    (signed : ∀ c ∈ candidates, c ∈ signatureMap.keys) :
    ∃ c, select lib machine mv candidates signatureMap = .ok (.some c)
      ∧ First (similarity lib mv signatureMap) (machine.visit candidates) c := by
  have known : ∀ c ∈ machine.visit candidates, ∃ signature, signatureMap.get? c = .some signature :=
    fun c listed => Dict.memKeys.mp (signed c (machine.memVisit.mp listed))
  have total : ∀ c ∈ machine.visit candidates, (do
      let signature ← Py.raiseNone .keyError (signatureMap.get? c)
      .ok (lib.jaccard mv signature)) = Except.ok (similarity lib mv signatureMap c) := by
    intro c listed
    obtain ⟨signature,found⟩ := known c listed
    simp [found,Py.raiseNone,similarity,bind,Except.bind]
  have above : ∀ c ∈ machine.visit candidates, -1 < similarity lib mv signatureMap c := by
    intro c listed
    obtain ⟨signature,found⟩ := known c listed
    rw [similarity,found]
    exact lt_of_lt_of_le (by norm_num) (lib.jaccardRange mv signature).1
  have visited : machine.visit candidates ≠ [] := by
    obtain ⟨c,rest,rfl⟩ := List.exists_cons_of_ne_nil some
    exact List.ne_nil_of_mem (machine.memVisit.mpr List.mem_cons_self)
  obtain ⟨c,run,first⟩ := scanFirst total above visited
  refine ⟨c,?_,first⟩
  unfold select
  rw [run]
  rfl

structure Indexed (s out : Index μ ℓ) (es : List (Str × Nat)) : Prop where
  held : lib.keys out.lsh = lib.keys s.lsh ∪ {t | t ∈ es.map Prod.fst}
  placed : ∀ e ∈ es, out.idxMap.get? e.1 = some e.2
  signed : ∀ e ∈ es, e.1 ∈ out.mhMap.keys
  others : ∀ t, t ∉ es.map Prod.fst → out.idxMap.get? t = s.idxMap.get? t
  kept : ∀ t ∈ s.mhMap.keys, t ∈ out.mhMap.keys

theorem insertIndexes (h : Nat) {s : Index μ ℓ} {e : Str × Nat} (new : e.1 ∉ lib.keys s.lsh) :
    ∃ out, insertStep lib machine h s e = .ok out ∧ Indexed lib s out [e] := by
  obtain ⟨lsh,inserted,keys⟩ := lib.insertAbsent (mhSignature lib h (cached machine s.tokens e.1).1) new
  unfold insertStep
  simp only [inserted,bind,Except.bind]
  refine ⟨_,rfl,?_,?_,?_,?_,?_⟩
  · rw [keys]
    congr 1
    ext t
    simp
  · intro x listed
    rw [List.mem_singleton.mp listed]
    exact Dict.getSetSame ..
  · intro x listed
    rw [List.mem_singleton.mp listed]
    exact (Dict.memKeysSet ..).mpr (Or.inl rfl)
  · intro t absent
    exact Dict.getSetOther _ _ (Ne.symm (by simpa using absent))
  · intro t listed
    exact (Dict.memKeysSet ..).mpr (Or.inr listed)

theorem indexedCons {s next out : Index μ ℓ} {e : Str × Nat} {es : List (Str × Nat)} (fresh : e.1 ∉ es.map Prod.fst)
    (first : Indexed lib s next [e]) (rest : Indexed lib next out es) : Indexed lib s out (e::es) := by
  refine ⟨?_,?_,?_,?_,fun t listed => rest.kept t (first.kept t listed)⟩
  · rw [rest.held,first.held,Set.union_assoc]
    congr 1
    ext t
    simp
  · rw [List.forall_mem_cons]
    refine ⟨?_,rest.placed⟩
    rw [rest.others _ fresh]
    exact first.placed e (by simp)
  · rw [List.forall_mem_cons]
    exact ⟨rest.kept _ (first.signed e (by simp)),rest.signed⟩
  · intro t absent
    rw [List.map_cons,List.mem_cons,not_or] at absent
    rw [rest.others t absent.2]
    exact first.others t (by simpa using absent.1)

theorem indexRuns (h : Nat) {es : List (Str × Nat)} (distinct : (es.map Prod.fst).Nodup) {s : Index μ ℓ}
    (new : ∀ e ∈ es, e.1 ∉ lib.keys s.lsh) :
    ∃ out, es.foldlM (insertStep lib machine h) s = .ok out ∧ Indexed lib s out es := by
  induction es generalizing s with
  | nil => exact ⟨s,rfl,by simp,by simp,by simp,fun _ _ => rfl,fun _ listed => listed⟩
  | cons e es ih =>
    obtain ⟨fresh,rest⟩ := List.nodup_cons.mp distinct
    obtain ⟨next,step,first⟩ := insertIndexes lib machine h (new e (by simp))
    have later : ∀ x ∈ es, x.1 ∉ lib.keys next.lsh := by
      intro x listed held
      rw [first.held] at held
      rcases held with old | same
      · exact new x (by simp [listed]) old
      · have equal : x.1 = e.1 := by simpa using same
        exact fresh (List.mem_map.mpr ⟨x,listed,equal⟩)
    obtain ⟨out,run,done⟩ := ih rest later
    refine ⟨out,?_,indexedCons lib fresh first done⟩
    rw [List.foldlM_cons,step]
    exact run

structure Ready (testCases : List Str) (out : Index μ ℓ) : Prop where
  held : lib.keys out.lsh = {t | t ∈ testCases}
  placed : ∀ t ∈ testCases, out.idxMap.get? t = some (place testCases t)
  signed : ∀ t ∈ testCases, t ∈ out.mhMap.keys

theorem indexReady (h : Nat) {testCases : List Str} (distinct : testCases.Nodup) {lsh : ℓ} (empty : lib.keys lsh = ∅)
    (tokens : Dict Str (List Str)) :
    ∃ out, index lib machine h lsh tokens testCases = .ok out ∧ Ready lib testCases out := by
  have names : testCases.zipIdx.map Prod.fst = testCases := List.zipIdx_map_fst 0 testCases
  have once : (testCases.zipIdx.map Prod.fst).Nodup := by rwa [names]
  obtain ⟨out,run,done⟩ := indexRuns lib machine h once (s := ⟨lsh,Dict.empty,Dict.empty,tokens⟩)
    (fun e _ held => by rw [empty] at held; exact held)
  refine ⟨out,run,?_,?_,?_⟩
  · rw [done.held,names,empty,Set.empty_union]
  · intro t listed
    exact done.placed _ (placeNumbered listed)
  · intro t listed
    exact done.signed _ (placeNumbered listed)

structure Reached (testCases chosen left : List Str) (s : State μ ℓ) : Prop where
  order : s.prioritizedList = chosen.map (place testCases)
  selected : ∀ t, t ∈ s.selectedSet ↔ t ∈ chosen
  remaining : ∀ t, t ∈ left ↔ t ∈ testCases ∧ t ∉ chosen
  distinct : left.Nodup
  held : lib.keys s.lsh = {t | t ∈ left}

theorem answerKeeps (h : Nat) (s : State μ ℓ) : lib.keys (answer lib h s).2.2 = lib.keys s.lsh := by
  unfold answer
  dsimp only
  split
  · rw [lib.queryKeeps,lib.queryKeeps]
  · exact lib.queryKeeps s.lsh s.mv

variable {lib}
section round
variable {h : Nat} {testCases chosen left : List Str} {s : State μ ℓ} (reached : Reached lib testCases chosen left s)
include reached

theorem memUnselected {t : Str} : t ∈ unselected testCases s ↔ t ∈ left := by
  unfold unselected others
  rw [List.mem_filter,Sets.memUnion,reached.remaining]
  simp [reached.selected]

theorem candidatesLeft {t : Str} (offered : t ∈ candidateSet lib h testCases s) : t ∈ left := by
  unfold candidateSet at offered
  dsimp only at offered
  split at offered
  · exact (memUnselected reached).mp offered
  · exact (memUnselected reached).mp (List.mem_filter.mp offered).1

theorem candidatesSome (some : left ≠ []) : candidateSet lib h testCases s ≠ [] := by
  unfold candidateSet
  dsimp only
  split
  · obtain ⟨t,rest,rfl⟩ := List.exists_cons_of_ne_nil some
    exact List.ne_nil_of_mem ((memUnselected reached).mpr List.mem_cons_self)
  · rename_i none
    exact fun empty => none (List.length_eq_zero_iff.mpr empty)

variable {mhMap : Dict Str μ} {idxMap : Dict Str Nat}

theorem roundReached (signed : ∀ t ∈ testCases, t ∈ mhMap.keys) (placed : ∀ t ∈ testCases, idxMap.get? t = some (place testCases t))
    (some : left ≠ []) : ∃ c next, candidate lib machine h testCases mhMap s = .ok (.some c) ∧ c ∈ left
      ∧ First (similarity lib (answer lib h s).2.1 mhMap) (machine.visit (candidateSet lib h testCases s)) c
      ∧ fastStep lib machine h testCases mhMap idxMap s = .ok next
      ∧ Reached lib testCases (chosen ++ [c]) (without left c) next := by
  have listed : ∀ t ∈ left, t ∈ testCases := fun t here => ((reached.remaining t).mp here).1
  obtain ⟨c,selected,first⟩ := selectFirst lib machine (answer lib h s).2.1 (candidatesSome (h := h) reached some)
    (fun t offered => signed t (listed t (candidatesLeft reached offered)))
  have here : c ∈ left := candidatesLeft reached (machine.memVisit.mp first.mem)
  obtain ⟨signature,found⟩ := Dict.memKeys.mp (signed c (listed c here))
  obtain ⟨lsh,removed,keys⟩ : ∃ next, lib.remove (answer lib h s).2.2 c = .ok next ∧ lib.keys next = lib.keys s.lsh \ {c} := by
    rw [← answerKeeps lib h s]
    apply lib.removePresent
    rw [answerKeeps,reached.held]
    exact here
  refine ⟨c,⟨s.prioritizedList ++ [place testCases c],Sets.add s.selectedSet c,lib.union (answer lib h s).2.1 signature,lsh⟩,
    selected,here,first,?_,?_⟩
  · unfold fastStep
    rw [candidate,selected]
    simp only [placed c (listed c here),found,removed,Py.raiseNone,bind,Except.bind]
  · refine ⟨?_,?_,?_,withoutNodup reached.distinct c,?_⟩
    · simp [reached.order]
    · intro t
      rw [Sets.memAdd,reached.selected,List.mem_append,List.mem_singleton]
    · intro t
      rw [memWithout reached.distinct,reached.remaining]
      simp only [List.mem_append,List.mem_singleton]
      tauto
    · rw [keys,reached.held]
      ext t
      simp [memWithout reached.distinct,and_comm]

end round

def rounds (step : State μ ℓ → Except PyError (State μ ℓ)) : Nat → State μ ℓ → Except PyError (State μ ℓ)
  | 0, s => .ok s
  | i+1, s => do
      let s ← rounds step i s
      step s

variable (lib) in
def Chooses (h : Nat) (testCases : List Str) (out : Index μ ℓ) (first : State μ ℓ) (before _left : List Str) (c : Str) : Prop :=
  ∃ s, rounds (fastStep lib machine h testCases out.mhMap out.idxMap) before.length first = .ok s
    ∧ candidate lib machine h testCases out.mhMap s = .ok (some c)
    ∧ First (similarity lib (answer lib h s).2.1 out.mhMap) (machine.visit (candidateSet lib h testCases s)) c

theorem roundsPicked {h : Nat} {testCases : List Str} {out : Index μ ℓ} (ready : Ready lib testCases out)
    {first s : State μ ℓ} {before left : List Str} (reached : Reached lib testCases before left s)
    (whole : before.length + left.length = testCases.length)
    (there : rounds (fastStep lib machine h testCases out.mhMap out.idxMap) before.length first = .ok s) :
    ∃ rest, Picked (Chooses lib machine h testCases out first) before left rest
      ∧ ∀ fuel, fastLoop (fastStep lib machine h testCases out.mhMap out.idxMap) testCases.length fuel s =
          .ok (if fuel < left.length then none else some ((before ++ rest).map (place testCases))) := by
  -- each round takes one test case out of those left, so their number bounds the rounds
  generalize size : left.length = n
  induction n generalizing s before left with
  | zero =>
    cases List.length_eq_zero_iff.mp size
    have full : s.prioritizedList.length = testCases.length := by
      rw [reached.order,List.length_map]
      exact whole
    refine ⟨[],.nil before,?_⟩
    intro fuel
    rw [List.append_nil,← reached.order]
    cases fuel with
    | zero => rw [fastLoop,if_pos full,if_neg (by omega)]
    | succ fuel => rw [fastLoop,if_pos full,if_neg (by omega)]
  | succ n ih =>
    obtain ⟨c,next,selected,here,chosen,step,later⟩ := roundReached machine reached (h := h) ready.signed ready.placed
      (List.ne_nil_of_length_eq_add_one size)
    have fewer := withoutLength here size
    have after : rounds (fastStep lib machine h testCases out.mhMap out.idxMap) (before ++ [c]).length first = .ok next := by
      rw [List.length_append,List.length_singleton,rounds,there]
      exact step
    obtain ⟨rest,picked,loop⟩ := ih later (by rw [List.length_append,List.length_singleton]; omega) after fewer
    refine ⟨c::rest,.cons ⟨s,there,selected,chosen⟩ here picked,?_⟩
    intro fuel
    have short : s.prioritizedList.length ≠ testCases.length := by
      rw [reached.order,List.length_map]
      omega
    cases fuel with
    | zero => rw [fastLoop,if_neg short,if_pos (by omega)]
    | succ fuel =>
      rw [fastLoop,if_neg short,step]
      simp only [bind,Except.bind,loop,Nat.succ_lt_succ_iff,List.append_assoc,List.singleton_append]

section run
variable (lib) (tokens : Dict Str (List Str)) (testCases : List Str) (bands rows h : Nat) (threshold : ℚ)

def fastState (i : Nat) : Except PyError (Index μ ℓ × State μ ℓ) := do
  let indexed ← index lib machine h (lib.minHashLSH threshold h (bands,rows)) tokens testCases
  let s ← rounds (fastStep lib machine h testCases indexed.mhMap indexed.idxMap) i (start lib h indexed.lsh)
  .ok (indexed,s)

variable {testCases} {bands rows h}

theorem fastRuns (distinct : testCases.Nodup) (params : bands * rows = h) : ∃ paths : List Str, paths.Perm testCases
    ∧ (∀ fuel, fast lib machine tokens testCases bands rows h threshold fuel =
        .ok (if fuel < testCases.length then none else some (paths.map (place testCases))))
    ∧ ∀ i < testCases.length, ∃ indexed s c, fastState lib machine tokens testCases bands rows h threshold i = .ok (indexed,s)
        ∧ candidate lib machine h testCases indexed.mhMap s = .ok (some c) ∧ paths[i]? = some c
        ∧ First (similarity lib (answer lib h s).2.1 indexed.mhMap) (machine.visit (candidateSet lib h testCases s)) c := by
  obtain ⟨out,read,ready⟩ := indexReady lib machine h distinct (lib.newKeys threshold h (bands,rows)) tokens
  have begun : Reached lib testCases [] testCases (start lib h out.lsh) :=
    ⟨rfl,by simp [start],by simp,distinct,ready.held⟩
  obtain ⟨paths,picked,loop⟩ := roundsPicked machine ready begun (Nat.zero_add _) rfl
  have perm := picked.perm
  refine ⟨paths,perm,?_,?_⟩
  · intro fuel
    unfold fast
    rw [if_neg (not_not.mpr params),read]
    exact loop fuel
  · intro i inside
    have there : i < paths.length := by rwa [perm.length_eq]
    have split : paths = paths.take i ++ paths.get ⟨i,there⟩::paths.drop (i+1) := by simp
    rw [split] at picked
    obtain ⟨s,reached,selected,first⟩ := picked.chosen distinct
    rw [List.nil_append,List.length_take_of_le there.le] at reached
    refine ⟨out,s,paths.get ⟨i,there⟩,?_,selected,by simp,first⟩
    unfold fastState
    rw [read]
    simp only [bind,Except.bind,reached]

end run

/-- Whatever the index answers, the loop ends after exactly as many rounds as there are test
cases, no round is without a candidate, and the order is a permutation of the indices. -/
theorem fastPermutes (lib : Datasketch μ ℓ) (machine : Machine) (tokens : Dict Str (List Str)) (testCases : List Str)
    (distinct : testCases.Nodup) (bands rows h : Nat) (params : bands * rows = h) (threshold : ℚ) :
    ∃ order : List Nat, order.Perm (List.range testCases.length)
      ∧ (∀ fuel, fast lib machine tokens testCases bands rows h threshold fuel =
          .ok (if fuel < testCases.length then none else some order))
      ∧ ∀ i < testCases.length, ∃ indexed s c,
          fastState lib machine tokens testCases bands rows h threshold i = .ok (indexed,s)
          ∧ candidate lib machine h testCases indexed.mhMap s = .ok (some c) ∧ order[i]? = some (place testCases c) := by
  obtain ⟨paths,perm,runs,each⟩ := fastRuns lib machine tokens threshold distinct params
  refine ⟨paths.map (place testCases),?_,runs,?_⟩
  · rw [← placesRange distinct]
    exact perm.map _
  · intro i inside
    obtain ⟨indexed,s,c,state,selected,place,_⟩ := each i inside
    exact ⟨indexed,s,c,state,selected,by rw [List.getElem?_map,place]; rfl⟩

/- A library in which a signature is the list of the words, two signatures are similar where they
share one, and a query answers the key that was inserted last. -/
def wordLists : Datasketch (List Str) (List Str) where
  minHash _ := []
  update mh word := mh ++ [word]
  jaccard a b := if a.any (fun word => word ∈ b) then 1 else 0
  union a b := a ++ b
  minHashLSH _ _ _ := []
  insert lsh key _ := .ok (lsh ++ [key])
  remove lsh key := .ok (lsh.filter (fun t => t ≠ key))
  query lsh _ := (lsh.getLast?.toList,lsh)
  keys lsh := {t | t ∈ lsh}
  jaccardRange a b := by split <;> norm_num
  newKeys _ _ _ := by simp
  insertAbsent _ _ := ⟨_,rfl,by ext t; simp [or_comm]⟩
  removePresent _ := ⟨_,rfl,by ext t; simp⟩
  queryListed := by
    intro lsh _ key listed
    exact List.mem_of_getLast? (Option.mem_toList.mp listed)
  queryKeeps _ _ := rfl

def inOrder : Machine := ⟨fun _ => none,fun _ _ => [],id,fun _ => List.Perm.refl _⟩

def fourTests : List Str := ["a.c".toList,"b.c".toList,"c.c".toList,"d.sh".toList]

def fourTokens : Dict Str (List Str) :=
  ((Dict.empty.set "a.c".toList ["open".toList]).set "b.c".toList ["open".toList]).set "c.c".toList ["mmap".toList]

theorem fourPermuted : ∃ order : List Nat, order.Perm (List.range 4) ∧
    fast wordLists inOrder fourTokens fourTests 2 5 10 (1/2) 3 = .ok none ∧
    fast wordLists inOrder fourTokens fourTests 2 5 10 (1/2) 4 = .ok (some order) := by
  obtain ⟨order,perm,runs,_⟩ := fastPermutes wordLists inOrder fourTokens fourTests (by decide) 2 5 10 rfl (1/2)
  exact ⟨order,perm,runs 3,runs 4⟩

def distance (lib : Datasketch μ ℓ) (mv : μ) (signatureMap : Dict Str μ) (candidate : Str) : ℚ :=
  1 - similarity lib mv signatureMap candidate

theorem nearestFarthest {mv : μ} {signatureMap : Dict Str μ} {candidates : List Str} {c : Str}
    (first : First (similarity lib mv signatureMap) (machine.visit candidates) c) :
    (∀ o ∈ candidates, distance lib mv signatureMap o ≤ distance lib mv signatureMap c) ↔
      ∀ a ∈ candidates, ∀ b ∈ candidates, distance lib mv signatureMap a = distance lib mv signatureMap b := by
  have near : ∀ o ∈ candidates, distance lib mv signatureMap c ≤ distance lib mv signatureMap o := by
    intro o listed
    have most := first.largest (machine.memVisit.mpr listed)
    unfold distance
    linarith
  constructor
  · intro far a here b there
    rw [le_antisymm (far a here) (near a here),le_antisymm (far b there) (near b there)]
  · intro alike o listed
    exact (alike o listed c (machine.memVisit.mp first.mem)).le

theorem selectSigned {mv : μ} {signatureMap : Dict Str μ} {candidates : List Str} {chosen : Option Str}
    (selected : select lib machine mv candidates signatureMap = .ok chosen) : ∀ c ∈ candidates, c ∈ signatureMap.keys := by
  obtain ⟨best,scanned,_⟩ := Py.bindOk.mp selected
  intro c listed
  obtain ⟨v,found⟩ := scanTotal scanned c (machine.memVisit.mpr listed)
  obtain ⟨signature,there,_⟩ := Py.bindOk.mp found
  exact Dict.memKeys.mpr ⟨signature,Py.raiseNoneOk.mp there⟩

/-- `Select` keeps the most similar candidate. It returns one at maximal distance exactly where
every candidate has a signature and all are equally far, and so does every round after the first. -/
theorem farthestWhenAlike (lib : Datasketch μ ℓ) (machine : Machine) :
    (∀ (mv : μ) (candidates : List Str) (signatureMap : Dict Str μ), candidates ≠ [] →
      ((∃ c ∈ candidates, select lib machine mv candidates signatureMap = .ok (some c) ∧
          ∀ o ∈ candidates, distance lib mv signatureMap o ≤ distance lib mv signatureMap c) ↔
        (∀ c ∈ candidates, c ∈ signatureMap.keys) ∧
          ∀ a ∈ candidates, ∀ b ∈ candidates, distance lib mv signatureMap a = distance lib mv signatureMap b))
    ∧ ∀ (tokens : Dict Str (List Str)) (testCases : List Str) (bands rows h : Nat) (threshold : ℚ), testCases.Nodup →
        bands * rows = h →
      ((∀ i, 0 < i → i < testCases.length → ∃ indexed s c,
          fastState lib machine tokens testCases bands rows h threshold i = .ok (indexed,s)
          ∧ candidate lib machine h testCases indexed.mhMap s = .ok (some c)
          ∧ ∀ o ∈ candidateSet lib h testCases s, distance lib (answer lib h s).2.1 indexed.mhMap o
              ≤ distance lib (answer lib h s).2.1 indexed.mhMap c) ↔
        ∀ i, 0 < i → i < testCases.length → ∃ indexed s,
          fastState lib machine tokens testCases bands rows h threshold i = .ok (indexed,s)
          ∧ ∀ a ∈ candidateSet lib h testCases s, ∀ b ∈ candidateSet lib h testCases s,
              distance lib (answer lib h s).2.1 indexed.mhMap a = distance lib (answer lib h s).2.1 indexed.mhMap b) := by
  constructor
  · intro mv candidates signatureMap nonempty
    constructor
    · intro farthest
      obtain ⟨c,_,selected,far⟩ := farthest
      have signed := selectSigned machine selected
      obtain ⟨d,same,first⟩ := selectFirst lib machine mv nonempty signed
      cases Option.some.inj (Except.ok.inj (selected.symm.trans same))
      exact ⟨signed,(nearestFarthest machine first).mp far⟩
    · intro both
      obtain ⟨c,selected,first⟩ := selectFirst lib machine mv nonempty both.1
      exact ⟨c,machine.memVisit.mp first.mem,selected,(nearestFarthest machine first).mpr both.2⟩
  · intro tokens testCases bands rows h threshold distinct params
    obtain ⟨paths,_,_,each⟩ := fastRuns lib machine tokens threshold distinct params
    constructor
    · intro far i later inside
      obtain ⟨indexed,s,c,state,selected,most⟩ := far i later inside
      obtain ⟨_,_,d,again,same,_,first⟩ := each i inside
      cases Except.ok.inj (state.symm.trans again)
      cases Option.some.inj (Except.ok.inj (selected.symm.trans same))
      exact ⟨indexed,s,state,(nearestFarthest machine first).mp most⟩
    · intro alike i later inside
      obtain ⟨indexed,s,state,same⟩ := alike i later inside
      obtain ⟨_,_,c,again,selected,_,first⟩ := each i inside
      cases Except.ok.inj (state.symm.trans again)
      exact ⟨indexed,s,c,state,selected,(nearestFarthest machine first).mpr same⟩

def twoSigned : Dict Str (List Str) := (Dict.empty.set "a.c".toList ["open".toList]).set "b.c".toList ["open".toList,"read".toList]

theorem twoAlikeFarthest : ∃ c ∈ ["a.c".toList,"b.c".toList],
    select wordLists inOrder ["open".toList] ["a.c".toList,"b.c".toList] twoSigned = .ok (some c) ∧
      ∀ o ∈ ["a.c".toList,"b.c".toList], distance wordLists ["open".toList] twoSigned o ≤ distance wordLists ["open".toList] twoSigned c :=
  ((farthestWhenAlike wordLists inOrder).1 ["open".toList] _ twoSigned (by simp)).mpr ⟨by decide,by decide +kernel⟩

theorem nearestChosen : (do
    let e ← fastState wordLists inOrder fourTokens fourTests 2 5 10 (1/2) 1
    let chosen ← candidate wordLists inOrder 10 fourTests e.1.mhMap e.2
    .ok (chosen,candidateSet wordLists 10 fourTests e.2,
      distance wordLists (answer wordLists 10 e.2).2.1 e.1.mhMap "b.c".toList,
      distance wordLists (answer wordLists 10 e.2).2.1 e.1.mhMap "c.c".toList)) =
    Except.ok (ε := PyError) (some "b.c".toList,["b.c".toList,"c.c".toList],0,1) := by
  decide +kernel

end KernelTcp.Prior

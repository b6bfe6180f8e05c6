import KernelTcp.Lib.Dict
import KernelTcp.Lib.Grid
import KernelTcp.Lib.Picking
import KernelTcp.Lib.Text

/-! Adaptive random prioritisation, in its two copies. Distances come from any linear order;
`distance_metric` is only defaulted and never read, so it is left out. -/
namespace KernelTcp.Prior
open Picking (Picked others without)

/- The outcomes of `random`. No two draws of one run are from the same list, so an outcome
for each list is an outcome for each draw. -/
structure Draws where
  choice : List Nat → Nat
  choiceListed : ∀ {idxList}, idxList ≠ [] → choice idxList ∈ idxList
  sample : List Nat → Nat → List Nat
  sampleLength : ∀ {idxList k}, k ≤ idxList.length → (sample idxList k).length = k
  sampleListed : ∀ {idxList k}, k ≤ idxList.length → (sample idxList k).Subperm idxList

def Draws.randomChoice (draws : Draws) (idxList : List Nat) : Except PyError Nat :=
  if idxList = [] then .error .indexError else .ok (draws.choice idxList)

def Draws.randomSample (draws : Draws) (idxList : List Nat) (k : Int) : Except PyError (List Nat) :=
  if 0 ≤ k ∧ k ≤ idxList.length then .ok (draws.sample idxList k.toNat) else .error .valueError

def arpLoop (draws : Draws) (next : List Nat → List Nat → Except PyError Nat) :
    Nat → Int → List Nat → List Nat → Except PyError (List Nat)
  | 0, _, prioritizedList, _ => .ok prioritizedList
  | idxListLen+1, k, prioritizedList, idxList => do
      let k := min k (idxListLen+1)
      let candidateList ← draws.randomSample idxList k
      let nextPtIdx ← next prioritizedList candidateList
      let idxList ← Py.remove idxList nextPtIdx
      arpLoop draws next idxListLen k (prioritizedList ++ [nextPtIdx]) idxList

def arpFrom (draws : Draws) (next : List Nat → List Nat → Except PyError Nat) (k : Int) (testCasesLen : Nat) :
    Except PyError (List Nat) := do
  let idxList := List.range testCasesLen
  let firstIdx ← draws.randomChoice idxList
  let idxList ← Py.remove idxList firstIdx
  arpLoop draws next idxList.length k [firstIdx] idxList

section loop
variable {δ : Type} [LinearOrder δ]

def Farthest (draws : Draws) (distance : Nat → Nat → δ) (k : Int) (before left : List Nat) (x : Nat) : Prop :=
  First (fun c => (before.map (fun p => distance p c)).minimum) (draws.sample left (min k left.length).toNat) x

def Finds (next : List Nat → List Nat → Except PyError Nat) (distance : Nat → Nat → δ) (n : Nat) : Prop :=
  ∀ {prioritizedList candidateList : List Nat}, prioritizedList ≠ [] → candidateList ≠ [] →
    (∀ p ∈ prioritizedList, p < n) → (∀ c ∈ candidateList, c < n) → ∃ x, next prioritizedList candidateList = .ok x ∧
      First (fun c => (prioritizedList.map (fun p => distance p c)).minimum) candidateList x

variable {draws : Draws} {next : List Nat → List Nat → Except PyError Nat} {distance : Nat → Nat → δ} {n : Nat}

variable (draws) in
theorem candidatesDrawn {most k : Int} (positive : 1 ≤ most) {len : Nat} {idxList : List Nat} (size : idxList.length = len+1)
    (bound : min k (len+1 : Nat) = min most (len+1 : Nat)) :
    draws.randomSample idxList (min k (len+1)) = .ok (draws.sample idxList (min most idxList.length).toNat)
      ∧ draws.sample idxList (min most idxList.length).toNat ≠ []
      ∧ draws.sample idxList (min most idxList.length).toNat ⊆ idxList := by
  have within : (min most idxList.length).toNat ≤ idxList.length := by omega
  have same : min k (len+1) = min most idxList.length := by
    rw [size]
    exact_mod_cast bound
  refine ⟨?_,?_,(draws.sampleListed within).subset⟩
  · unfold Draws.randomSample
    rw [same,if_pos (by omega)]
  · rw [← List.length_pos_iff,draws.sampleLength within]
    omega

variable (draws) in
/- The list holds `idx_list_len` elements, and cutting `k` down to it loses nothing of the bound `most`. -/
theorem loopPicked (finds : Finds next distance n) {most : Int} (positive : 1 ≤ most) {idxListLen : Nat} {k : Int}
    {prioritizedList idxList : List Nat} (size : idxList.length = idxListLen)
    (bound : min k idxListLen = min most idxListLen) (started : prioritizedList ≠ [])
    (taken : ∀ p ∈ prioritizedList, p < n) (left : ∀ i ∈ idxList, i < n) :
    ∃ rest, arpLoop draws next idxListLen k prioritizedList idxList = .ok (prioritizedList ++ rest)
      ∧ Picked (Farthest draws distance most) prioritizedList idxList rest := by
  induction idxListLen generalizing k prioritizedList idxList with
  | zero =>
    cases List.length_eq_zero_iff.mp size
    exact ⟨[],by rw [List.append_nil]; rfl,.nil _⟩
  | succ len ih =>
    obtain ⟨drawn,nonempty,listed⟩ := candidatesDrawn draws positive size bound
    obtain ⟨x,found,first⟩ := finds started nonempty taken (fun c mem => left c (listed mem))
    have here : x ∈ idxList := listed first.mem
    have shorter := Picking.withoutLength here size
    have still : min (min k (len+1)) len = min most len := by
      push_cast at bound
      omega
    have more : ∀ p ∈ prioritizedList ++ [x], p < n := by
      intro p mem
      rcases List.mem_append.mp mem with old | new
      · exact taken p old
      · rw [List.mem_singleton.mp new]
        exact left x here
    obtain ⟨rest,run,picked⟩ := ih shorter still (by simp) more (fun i mem => left i (List.mem_of_mem_erase mem))
    refine ⟨x::rest,?_,.cons first here picked⟩
    rw [arpLoop]
    simp only [drawn,found,Py.removeListed here,bind,Except.bind]
    rw [List.append_assoc] at run
    exact run

theorem arpPicked (draws : Draws) (finds : Finds next distance n) {k : Int} (positive : 1 ≤ k) (some : 0 < n) :
    ∃ first rest, first ∈ List.range n ∧ arpFrom draws next k n = .ok (first::rest)
      ∧ Picked (Farthest draws distance k) [first] (without (List.range n) first) rest := by
  have indices : List.range n ≠ [] := by
    rwa [← List.length_pos_iff,List.length_range]
  have listed := draws.choiceListed indices
  generalize chosen : draws.choice (List.range n) = first at listed
  have alone : ∀ p ∈ [first], p < n := by simpa using listed
  have fewer : ∀ i ∈ (List.range n).erase first, i < n := fun i mem => List.mem_range.mp (List.mem_of_mem_erase mem)
  obtain ⟨rest,run,picked⟩ := loopPicked draws (k := k) finds positive rfl rfl (by simp) alone fewer
  refine ⟨first,rest,listed,?_,picked⟩
  have choice : draws.randomChoice (List.range n) = .ok first := by
    rw [Draws.randomChoice,if_neg indices,chosen]
  unfold arpFrom
  simp only [choice,Py.removeListed listed,bind,Except.bind]
  exact run

theorem farthestAt {k : Int} {first : Nat} {rest before after : List Nat} {x : Nat} (listed : first ∈ List.range n)
    (picked : Picked (Farthest draws distance k) [first] (without (List.range n) first) rest)
    (split : first::rest = before ++ x::after) (later : before ≠ []) :
    (others (List.range n) before).length = n - before.length ∧
      Farthest draws distance k before (others (List.range n) before) x := by
  have distinct : (List.range n).Nodup := List.nodup_range
  have whole : (before ++ x::after).Perm (List.range n) :=
    split ▸ (picked.perm.cons first).trans (Picking.withoutPerm listed)
  obtain ⟨u,early,rfl⟩ := List.exists_cons_of_ne_nil later
  obtain ⟨rfl,rfl⟩ := List.cons.inj split
  have size := (Picking.othersPerm distinct whole).length_eq
  have total := whole.length_eq
  rw [List.length_append,List.length_range] at total
  have chosen := picked.chosen (Picking.withoutNodup distinct first)
  rw [Picking.othersWithout distinct] at chosen
  exact ⟨by omega,chosen⟩

end loop

def TopicMain.arrayAt {δ : Type} (distanceArr : List (List δ)) (pIdx candidateIdx : Nat) : Except PyError δ := do
  let row ← Py.getItem distanceArr pIdx
  Py.getItem row candidateIdx

variable {δ : Type} [NatCast δ]

-- a distance that could not be computed is stored as `None`
abbrev DistanceMap (δ : Type) := Dict Str (Dict Str (Option δ))

def stored (distances : DistanceMap δ) (a b : Str) : Option δ :=
  (distances.get? a).bind (fun row => (row.get? b).join)

def lookedUp (distances : DistanceMap δ) (pt candidate : Str) : δ :=
  match stored distances pt candidate with
  | some distance => distance
  | none =>
    match stored distances candidate pt with
    | some distance => distance
    | none => (10000 : Nat)

def distanceAt (distances : DistanceMap δ) (testCases : List Str) (pIdx candidateIdx : Nat) : Except PyError δ := do
  let candidate ← Py.getItem testCases candidateIdx
  let pt ← Py.getItem testCases pIdx
  .ok (lookedUp distances pt candidate)

def fillDistances (distance : Nat → Nat → Except PyError δ) (prioritizedList candidateList : List Nat) :
    Except PyError (List (List δ)) :=
  Grid.fill distance (0 : Nat) prioritizedList candidateList

def lookedUpAt (distances : DistanceMap δ) (testCases : List Str) (pIdx candidateIdx : Nat) : δ :=
  lookedUp distances (testCases.getD pIdx []) (testCases.getD candidateIdx [])

def lookedUpMatrix (distances : DistanceMap δ) (testCases : List Str) : List (List δ) :=
  Grid.grid (lookedUp distances) testCases testCases

theorem distanceInside (distances : DistanceMap δ) {testCases : List Str} {p c : Nat} (row : p < testCases.length)
    (column : c < testCases.length) : distanceAt distances testCases p c = .ok (lookedUpAt distances testCases p c) := by
  unfold distanceAt lookedUpAt
  rw [Py.getItemAt,Py.getItemAt,List.getElem?_eq_getElem row,List.getElem?_eq_getElem column]
  simp [Py.raiseNone,bind,Except.bind,row,column]

theorem matrixSame (distances : DistanceMap δ) (testCases : List Str) (p c : Nat) :
    TopicMain.arrayAt (lookedUpMatrix distances testCases) p c = distanceAt distances testCases p c := by
  unfold TopicMain.arrayAt distanceAt lookedUpMatrix Grid.grid
  rw [Py.getItemAt,Py.getItemAt,Py.getItemAt,List.getElem?_map]
  cases row : testCases[p]? with
  | none => cases testCases[c]? <;> rfl
  | some pt =>
    show Py.getItem (testCases.map (lookedUp distances pt)) c = _
    rw [Py.getItemAt,List.getElem?_map]
    cases testCases[c]? <;> rfl

variable [LinearOrder δ]

-- with another strategy `next_pt_idx` is never assigned
def nextPtIdx (distances : DistanceMap δ) (testCases : List Str) (candidateStragety : Str)
    (prioritizedList candidateList : List Nat) : Except PyError Nat := do
  let d ← fillDistances (distanceAt distances testCases) prioritizedList candidateList
  if candidateStragety = "min_max".toList then Grid.maxMin candidateList d else .error .nameError

def arp (draws : Draws) (distances : DistanceMap δ) (testCases : List Str) (k : Int) (candidateStragety : Option Str) :
    Except PyError (List Nat) :=
  arpFrom draws (nextPtIdx distances testCases (candidateStragety.getD "min_max".toList)) k testCases.length

namespace TopicMain

def nextPtIdx (distanceArr : List (List δ)) (prioritizedList candidateList : List Nat) : Except PyError Nat := do
  let d ← fillDistances (arrayAt distanceArr) prioritizedList candidateList
  Grid.maxMin candidateList d

def arp {α : Type} (draws : Draws) (distanceArr : List (List δ)) (testCases : List α) : Except PyError (List Nat) :=
  arpFrom draws (nextPtIdx distanceArr) 10 testCases.length

end TopicMain

theorem minMaxFinds (distances : DistanceMap δ) (testCases : List Str) :
    Finds (nextPtIdx distances testCases "min_max".toList) (lookedUpAt distances testCases) testCases.length := by
  intro prioritizedList candidateList some offered rows columns
  obtain ⟨c,found,first⟩ := Grid.maxMinFirst (lookedUpAt distances testCases) some offered
  have filled : fillDistances (distanceAt distances testCases) prioritizedList candidateList =
      .ok (Grid.grid (lookedUpAt distances testCases) prioritizedList candidateList) :=
    Grid.filled (fun p taken c listed => distanceInside distances (rows p taken) (columns c listed)) _
  refine ⟨c,?_,first⟩
  unfold nextPtIdx
  rw [filled]
  exact found

theorem topicSame (draws : Draws) (distances : DistanceMap δ) (testCases : List Str) :
    TopicMain.arp draws (lookedUpMatrix distances testCases) testCases =
      arp draws distances testCases 10 (some "min_max".toList) := by
  have entries : TopicMain.arrayAt (lookedUpMatrix distances testCases) = distanceAt distances testCases :=
    funext (fun p => funext (matrixSame distances testCases p))
  unfold TopicMain.arp TopicMain.nextPtIdx
  rw [entries]
  rfl

/-- For every draw the order is a permutation of the indices in which every element after the
first is, of the sample drawn for it, the first that is farthest from those before it; and on the
matrix of the same distances the copy of the topic experiment gives the same order. -/
theorem arpMaxMin (draws : Draws) (distances : DistanceMap δ) (testCases : List Str) (some : testCases ≠ []) (k : Int)
    (positive : 1 ≤ k) : ∃ order, arp draws distances testCases k (.some "min_max".toList) = .ok order
      ∧ order.Perm (List.range testCases.length)
      ∧ (∀ before x after, order = before ++ x::after → before ≠ [] →
          ∃ sample, sample = draws.sample (others (List.range testCases.length) before)
              (min k (testCases.length - before.length)).toNat
            ∧ (sample.length : Int) = min k (testCases.length - before.length)
            ∧ First (fun c => (before.map (fun p => lookedUpAt distances testCases p c)).minimum) sample x)
      ∧ TopicMain.arp draws (lookedUpMatrix distances testCases) testCases =
          arp draws distances testCases 10 (.some "min_max".toList) := by
  obtain ⟨first,rest,listed,run,picked⟩ := arpPicked draws (minMaxFinds distances testCases) positive
    (List.length_pos_iff.mpr some)
  refine ⟨first::rest,run,(picked.perm.cons first).trans (Picking.withoutPerm listed),?_,
    topicSame draws distances testCases⟩
  intro before x after split later
  obtain ⟨size,farthest⟩ := farthestAt listed picked split later
  have inside : before.length < testCases.length := by
    have total := ((picked.perm.cons first).trans (Picking.withoutPerm listed)).length_eq
    rw [split,List.length_append,List.length_cons,List.length_range] at total
    omega
  have remaining : ((others (List.range testCases.length) before).length : Int) = testCases.length - before.length := by
    omega
  rw [Farthest,remaining] at farthest
  refine ⟨_,rfl,?_,farthest⟩
  rw [draws.sampleLength (by omega)]
  omega

def leading : Draws where
  choice idxList := idxList.headD 0
  choiceListed := by
    intro idxList some
    obtain ⟨i,rest,rfl⟩ := List.exists_cons_of_ne_nil some
    exact List.mem_cons_self
  sample idxList k := idxList.take k
  sampleLength within := List.length_take_of_le within
  sampleListed := fun {idxList k} _ => (List.take_sublist k idxList).subperm

def threeDistances : DistanceMap Nat :=
  Dict.empty.set "a.c".toList ((Dict.empty.set "b.c".toList (some 2)).set "c.c".toList (some 7))

theorem threeTestsMaxMin : ∃ order, arp leading threeDistances ["a.c".toList,"b.c".toList,"c.c".toList] 2 (some "min_max".toList)
      = .ok order ∧ order.Perm (List.range 3) ∧ order = [0,2,1] := by
  obtain ⟨order,run,perm,_,_⟩ := arpMaxMin leading threeDistances ["a.c".toList,"b.c".toList,"c.c".toList] (by simp) 2 (by decide)
  refine ⟨order,run,perm,?_⟩
  have known : arp leading threeDistances ["a.c".toList,"b.c".toList,"c.c".toList] 2 (some "min_max".toList) = .ok [0,2,1] := by
    decide +kernel
  rw [run] at known
  exact Except.ok.inj known

end KernelTcp.Prior

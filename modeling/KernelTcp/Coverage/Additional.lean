import KernelTcp.Lib.Greedy
import KernelTcp.Coverage.CoverageAna
import Mathlib.Data.Finset.Union

/-! The additional-coverage order of the tests: `get_additional_cov`, `combine_cov` and
`additional_cov_generator`, against greedy maximum coverage of (file, line) pairs. -/
namespace KernelTcp.Coverage
open Text

/- A file the base does not have counts all its lines, repeated ones too. -/
def newLines (baseCov : FileLines) (e : Str × List Int) : List Int :=
  match baseCov.get? e.1 with
  | none => e.2
  | some lines => difference e.2 lines

def getAdditionalCov (baseCov additionalCov : FileLines) : Nat :=
  additionalCov.entries.foldl (fun res e => res + (newLines baseCov e).length) 0

def combineFile (baseCov : FileLines) (e : Str × List Int) : FileLines :=
  match baseCov.get? e.1 with
  | none => baseCov.set e.1 e.2
  | some lines => baseCov.set e.1 (Sets.union (setOf lines) e.2)

def combineCov (baseCov additionalCov : FileLines) : FileLines := additionalCov.entries.foldl combineFile baseCov

structure MaxCov where
  idx : Int
  cnt : Int
  deriving DecidableEq

def maxStep (info : CoverageInfo) (baseCov : FileLines) (best : MaxCov) (e : Str × Nat) : Except PyError MaxCov := do
  let cov ← Py.raiseNone .keyError (info.get? e.1)
  let increment : Int := getAdditionalCov baseCov cov
  .ok (if best.cnt < increment then ⟨e.2,increment⟩ else best)

def maxCov (info : CoverageInfo) (baseCov : FileLines) (candidate : List Str) : Except PyError MaxCov :=
  candidate.zipIdx.foldlM (maxStep info baseCov) ⟨-1,-1⟩

-- every round of the loop takes one candidate out
def additionalLoop (info : CoverageInfo) : Nat → List Str → FileLines → List Str → Except PyError (List Str)
  | 0, _, _, fileList => .ok fileList
  | rounds+1, candidate, baseCov, fileList =>
      if 0 < candidate.length then do
        let best ← maxCov info baseCov candidate
        let chooseOne ← Py.getItem candidate best.idx
        let candidate ← Py.delItem candidate best.idx
        let cov ← Py.raiseNone .keyError (info.get? chooseOne)
        additionalLoop info rounds candidate (combineCov baseCov cov) (fileList ++ [chooseOne])
      else .ok fileList

def additionalCovGenerator (info : CoverageInfo) : Except PyError (List Str) :=
  additionalLoop info info.keys.length info.keys Dict.empty []

def linePairs (e : Str × List Int) : List (Str × Int) := e.2.map (fun n => (e.1,n))

def pairs (v : FileLines) : Finset (Str × Int) := (v.entries.flatMap linePairs).toFinset

def testPairs (info : CoverageInfo) (t : Str) : Finset (Str × Int) :=
  match info.get? t with
  | none => ∅
  | some v => pairs v

def cov (info : CoverageInfo) (tests : Finset Str) : Nat := (tests.biUnion (testPairs info)).card

abbrev gainOver (info : CoverageInfo) (baseCov : FileLines) : Str → Nat :=
  Greedy.gain (testPairs info) (pairs baseCov)

def DistinctLines (v : FileLines) : Prop := ∀ e ∈ v.entries, e.2.Nodup
instance (v) : Decidable (DistinctLines v) := by unfold DistinctLines; infer_instance

theorem memPairs {v : FileLines} {f : Str} {n : Int} : (f,n) ∈ pairs v ↔ Covered v f n := by
  unfold pairs linePairs Covered
  rw [List.mem_toFinset,List.mem_flatMap]
  constructor
  · intro h
    obtain ⟨e,mem,line⟩ := h
    obtain ⟨m,inside,same⟩ := List.mem_map.mp line
    cases same
    exact ⟨e.2,Dict.getEntry.mpr mem,inside⟩
  · intro h
    obtain ⟨lines,found,inside⟩ := h
    exact ⟨(f,lines),Dict.getEntry.mp found,List.mem_map.mpr ⟨n,inside,rfl⟩⟩

theorem memNewLines {baseCov : FileLines} {e : Str × List Int} {n : Int} :
    n ∈ newLines baseCov e ↔ n ∈ e.2 ∧ ¬ Covered baseCov e.1 n := by
  unfold newLines Covered
  cases baseCov.get? e.1 with
  | none => simp
  | some lines => simp [memDifference]

theorem newLinesNodup {baseCov : FileLines} {e : Str × List Int} :
    (newLines baseCov e).Nodup ↔ (e.1 ∉ baseCov.keys → e.2.Nodup) := by
  unfold newLines
  cases found : baseCov.get? e.1 with
  | none =>
    have absent := Dict.getNone.mp found
    exact ⟨fun distinct _ => distinct,fun distinct => distinct absent⟩
  | some lines =>
    have present := Dict.memKeys.mpr ⟨lines,found⟩
    exact ⟨fun _ absent => absurd present absent,fun _ => (Sets.unionNodup List.nodup_nil _).filter _⟩

def newPairs (baseCov v : FileLines) : List (Str × Int) :=
  v.entries.flatMap (fun e => linePairs (e.1,newLines baseCov e))

theorem newPairsNodup {baseCov v : FileLines} :
    (newPairs baseCov v).Nodup ↔ ∀ e ∈ v.entries, e.1 ∉ baseCov.keys → e.2.Nodup := by
  have apart : v.entries.Pairwise (Function.onFun List.Disjoint (fun e => linePairs (e.1,newLines baseCov e))) := by
    refine (List.pairwise_map.mp v.distinct).imp ?_
    intro a b different p left right
    obtain ⟨_,_,rfl⟩ := List.mem_map.mp left
    obtain ⟨_,_,same⟩ := List.mem_map.mp right
    exact different (Prod.mk.inj same).1.symm
  unfold newPairs
  rw [List.nodup_flatMap,and_iff_left apart]
  refine forall₂_congr ?_
  intro e _
  rw [← newLinesNodup]
  exact List.nodup_map_iff (fun _ _ same => (Prod.mk.inj same).2)

theorem newPairsSet (baseCov v : FileLines) : (newPairs baseCov v).toFinset = pairs v \ pairs baseCov := by
  ext ⟨f,n⟩
  unfold newPairs linePairs
  rw [List.mem_toFinset,List.mem_flatMap,Finset.mem_sdiff,memPairs,memPairs]
  constructor
  · intro h
    obtain ⟨e,mem,line⟩ := h
    obtain ⟨m,inside,same⟩ := List.mem_map.mp line
    cases same
    have new := memNewLines.mp inside
    exact ⟨⟨e.2,Dict.getEntry.mpr mem,new.1⟩,new.2⟩
  · intro h
    obtain ⟨⟨lines,found,inside⟩,new⟩ := h
    exact ⟨(f,lines),Dict.getEntry.mp found,List.mem_map.mpr ⟨n,memNewLines.mpr ⟨inside,new⟩,rfl⟩⟩

theorem additionalLength (baseCov v : FileLines) : getAdditionalCov baseCov v = (newPairs baseCov v).length := by
  unfold getAdditionalCov newPairs linePairs
  rw [List.length_flatMap,List.sum_eq_foldl,List.foldl_map]
  simp only [List.length_map]

theorem additionalGain {baseCov v : FileLines} (distinct : DistinctLines v) :
    getAdditionalCov baseCov v = (pairs v \ pairs baseCov).card := by
  have nodup := newPairsNodup.mpr (fun e mem (_ : e.1 ∉ baseCov.keys) => distinct e mem)
  rw [additionalLength,← newPairsSet,List.toFinset_card_of_nodup nodup]

theorem combineFileCovered {baseCov : FileLines} {e : Str × List Int} {f : Str} {n : Int} :
    Covered (combineFile baseCov e) f n ↔ Covered baseCov f n ∨ (e.1 = f ∧ n ∈ e.2) := by
  unfold Covered combineFile
  by_cases here : e.1 = f
  · subst here
    cases found : baseCov.get? e.1 with
    | none => simp
    | some lines => simp [Sets.memUnion,setOf]
  · cases found : baseCov.get? e.1 with
    | none => simp [here,Dict.getSetOther _ _ here]
    | some lines => simp [here,Dict.getSetOther _ _ here]

theorem combinePairs (baseCov v : FileLines) : pairs (combineCov baseCov v) = pairs baseCov ∪ pairs v := by
  ext ⟨f,n⟩
  rw [Finset.mem_union,memPairs,memPairs,memPairs]
  unfold combineCov
  rw [Py.foldlEither (fun c => Covered c f n) (fun e => e.1 = f ∧ n ∈ e.2) (fun _ _ => combineFileCovered)]
  apply or_congr_right
  constructor
  · intro h
    obtain ⟨e,mem,rfl,inside⟩ := h
    exact ⟨e.2,Dict.getEntry.mpr mem,inside⟩
  · intro h
    obtain ⟨lines,found,inside⟩ := h
    exact ⟨(f,lines),Dict.getEntry.mp found,rfl,inside⟩

theorem combineGrowth (baseCov v : FileLines) :
    (pairs (combineCov baseCov v)).card = (pairs baseCov).card + (newPairs baseCov v).toFinset.card := by
  rw [combinePairs,newPairsSet,← Finset.union_sdiff_self_eq_union,Finset.card_union_of_disjoint Finset.disjoint_sdiff]

theorem dedupWhole {α : Type} [DecidableEq α] {l : List α} : l.length = l.toFinset.card ↔ l.Nodup := by
  rw [List.card_toFinset]
  constructor
  · intro same
    exact List.dedup_eq_self.mp ((List.dedup_sublist l).eq_of_length same.symm)
  · intro distinct
    rw [distinct.dedup]

/-- The gain of a test is the growth of the covered pairs, exactly when no file that is new to
the base lists a line twice; otherwise it is more. -/
theorem gainIsGrowth (baseCov additionalCov : FileLines) :
    ((getAdditionalCov baseCov additionalCov : Int) = (pairs (combineCov baseCov additionalCov)).card - (pairs baseCov).card ↔
      ∀ e ∈ additionalCov.entries, e.1 ∉ baseCov.keys → e.2.Nodup) ∧
    ((pairs (combineCov baseCov additionalCov)).card - (pairs baseCov).card : Int) ≤ getAdditionalCov baseCov additionalCov := by
  rw [← newPairsNodup,← dedupWhole,additionalLength,combineGrowth]
  have repeated := List.toFinset_card_le (newPairs baseCov additionalCov)
  refine ⟨?_,by omega⟩
  omega

def repeatedLine : FileLines := Dict.empty.set "x.c".toList [1,1]

theorem repeatedLineCountsTwice : getAdditionalCov Dict.empty repeatedLine = 2
    ∧ (pairs (combineCov Dict.empty repeatedLine)).card = 1 ∧ (pairs Dict.empty).card = 0 := by
  decide +kernel

theorem testPairsFound {info : CoverageInfo} {t : Str} {v : FileLines} (found : info.get? t = some v) :
    testPairs info t = pairs v := by
  unfold testPairs
  rw [found]

def maxCovOf (found : Int × Option (Str × Nat)) : MaxCov := ⟨found.2.elim (-1) (fun e => e.2),found.1⟩

section Loop
variable {info : CoverageInfo} (distinct : ∀ e ∈ info.entries, DistinctLines e.2)
include distinct

theorem maxStepScan {baseCov : FileLines} {e : Str × Nat} (known : e.1 ∈ info.keys) (found : Int × Option (Str × Nat)) :
    maxStep info baseCov (maxCovOf found) e =
      (scanStep (fun e : Str × Nat => .ok (gainOver info baseCov e.1 : Int)) found e).map maxCovOf := by
  obtain ⟨v,here⟩ := Dict.memKeys.mp known
  have gained : gainOver info baseCov e.1 = getAdditionalCov baseCov v := by
    unfold gainOver Greedy.gain
    rw [testPairsFound here,additionalGain (distinct (e.1,v) (Dict.getEntry.mp here))]
  unfold maxStep scanStep
  dsimp only
  rw [here,gained]
  show Except.ok (if found.1 < (getAdditionalCov baseCov v : Int) then ⟨e.2,getAdditionalCov baseCov v⟩ else maxCovOf found) =
    Except.ok (maxCovOf (if found.1 < (getAdditionalCov baseCov v : Int) then (getAdditionalCov baseCov v,some e) else found))
  split <;> rfl

theorem maxCovFirst {baseCov : FileLines} {candidate : List Str} (known : ∀ t ∈ candidate, t ∈ info.keys)
    (some : candidate ≠ []) : ∃ before t after, candidate = before ++ t::after
      ∧ maxCov info baseCov candidate = .ok ⟨before.length,gainOver info baseCov t⟩
      ∧ (∀ s ∈ before, gainOver info baseCov s < gainOver info baseCov t)
      ∧ ∀ s ∈ after, gainOver info baseCov s ≤ gainOver info baseCov t := by
  have each : ∀ found, ∀ e ∈ candidate.zipIdx, maxStep info baseCov (maxCovOf found) e =
      (scanStep (fun e : Str × Nat => .ok (gainOver info baseCov e.1 : Int)) found e).map maxCovOf :=
    fun found e mem => maxStepScan distinct (known e.1 (List.fst_mem_of_mem_zipIdx mem)) found
  generalize gainOver info baseCov = gain at each
  -- the scan starts below every gain
  have above : ∀ e ∈ candidate.zipIdx, (-1 : Int) < gain e.1 := fun e _ => by omega
  obtain ⟨e,run,first⟩ := scanPure (fun e : Str × Nat => (gain e.1 : Int)) above (by simpa using some)
  have scanned := scanView (maxStep info baseCov) maxCovOf each (-1,none)
  unfold scan at run
  rw [run] at scanned
  have best : First (fun e : Str × Nat => gain e.1) candidate.zipIdx e := (First.scaled Nat.strictMono_cast).mp first
  obtain ⟨before,after,split,place,early,late⟩ := First.numbered gain best
  refine ⟨before,e.1,after,split,?_,early,late⟩
  rw [← place]
  exact scanned

theorem loopGreedy (rounds : Nat) (candidate : List Str) (baseCov : FileLines) (fileList : List Str)
    (enough : candidate.length = rounds) (known : ∀ t ∈ candidate, t ∈ info.keys) :
    ∃ order, additionalLoop info rounds candidate baseCov fileList = .ok (fileList ++ order)
      ∧ Greedy.Order (testPairs info) (pairs baseCov) candidate order := by
  induction rounds generalizing candidate baseCov fileList with
  | zero =>
    have : candidate = [] := List.length_eq_zero_iff.mp enough
    subst this
    exact ⟨[],by rw [additionalLoop,List.append_nil],.nil _⟩
  | succ rounds ih =>
    have some : candidate ≠ [] := List.ne_nil_of_length_eq_add_one enough
    obtain ⟨before,t,after,rfl,scan,early,late⟩ := maxCovFirst distinct known some
    have rest : ∀ s ∈ before ++ after, s ∈ info.keys := by
      intro s mem
      exact known s (by rw [List.mem_append] at mem ⊢; exact mem.imp_right (List.mem_cons_of_mem t))
    obtain ⟨v,found⟩ := Dict.memKeys.mp (known t (by simp))
    have fewer : (before ++ after).length = rounds := by
      rw [List.length_append,List.length_cons] at enough
      rw [List.length_append]
      omega
    obtain ⟨order,run,greedy⟩ := ih (before ++ after) (combineCov baseCov v) (fileList ++ [t]) fewer rest
    rw [combinePairs,← testPairsFound found] at greedy
    refine ⟨t::order,?_,.cons early late greedy⟩
    rw [additionalLoop,if_pos (List.length_pos_iff.mpr some),scan]
    change (Py.getItem (before ++ t::after) before.length >>= _) = _
    rw [Py.getItemMiddle]
    change (Py.delItem (before ++ t::after) before.length >>= _) = _
    rw [Py.delItemMiddle]
    change (Py.raiseNone .keyError (info.get? t) >>= _) = _
    rw [found]
    change additionalLoop info rounds (before ++ after) (combineCov baseCov v) (fileList ++ [t]) = _
    rw [run,List.append_assoc,List.singleton_append]

theorem generatorGreedy : ∃ order, additionalCovGenerator info = .ok order
    ∧ Greedy.Order (testPairs info) ∅ info.keys order :=
  loopGreedy distinct info.keys.length info.keys Dict.empty [] rfl (fun _ mem => mem)

end Loop

theorem covCovered (info : CoverageInfo) (tests : List Str) :
    cov info tests.toFinset = (Greedy.covered (testPairs info) tests).card := by
  unfold cov
  congr 1
  ext p
  rw [Greedy.memCovered,Finset.mem_biUnion]
  simp only [List.mem_toFinset]

/-- Every prefix of the additional-coverage order approximates the best choice of as many tests. -/
theorem additionalPrefixApproximates (info : CoverageInfo)
    (distinct : ∀ e ∈ info.entries, DistinctLines e.2) :
    ∃ order, additionalCovGenerator info = .ok order ∧ order.Perm info.keys
      ∧ ∀ k : Nat, 1 ≤ k → k ≤ info.keys.length → ∀ tests : Finset Str, (∀ t ∈ tests, t ∈ info.keys) → tests.card = k →
        (k : Int)^k * (cov info tests - cov info (order.take k).toFinset) ≤ (k-1)^k * cov info tests := by
  obtain ⟨order,run,greedy⟩ := generatorGreedy distinct
  refine ⟨order,run,Greedy.orderPerm greedy,?_⟩
  intro k positive enough tests known size
  have listed : tests.toList ≠ [] := by
    intro none
    rw [← Finset.length_toList,none] at size
    exact absurd size.symm (by simp only [List.length_nil]; omega)
  have bound := Greedy.shortfall greedy listed (fun t mem => Or.inl (known t (Finset.mem_toList.mp mem))) k
    (by rw [(Greedy.orderPerm greedy).length_eq]; exact enough)
  rw [Finset.length_toList,size,Finset.empty_union,Finset.card_empty,← covCovered,← covCovered,
    Finset.toList_toFinset] at bound
  simpa using bound

def overlapping : CoverageInfo :=
  ((Dict.empty.set "both".toList (Dict.empty.set "f.c".toList [1,2,3,4])).set
    "low".toList (Dict.empty.set "f.c".toList [1,2,5])).set "high".toList (Dict.empty.set "f.c".toList [3,4,6])

theorem additionalPrefixOverlapping :
    additionalCovGenerator overlapping = .ok ["both".toList,"low".toList,"high".toList]
      ∧ cov overlapping {"both".toList,"low".toList} = 5 ∧ cov overlapping {"low".toList,"high".toList} = 6
      ∧ ∃ order, additionalCovGenerator overlapping = .ok order ∧ order.Perm overlapping.keys
      ∧ ∀ k : Nat, 1 ≤ k → k ≤ overlapping.keys.length → ∀ tests : Finset Str,
        (∀ t ∈ tests, t ∈ overlapping.keys) → tests.card = k →
        (k : Int)^k * (cov overlapping tests - cov overlapping (order.take k).toFinset)
          ≤ (k-1)^k * cov overlapping tests :=
  ⟨by decide +kernel,by decide +kernel,by decide +kernel,additionalPrefixApproximates overlapping (by decide +kernel)⟩

end KernelTcp.Coverage

import KernelTcp.Coverage.Additional

/-! `additional_cov_generator` on the helper's own objects: `coverage_info` refers to dict
objects by address, `base_cov` is a new object, and `combine_cov` writes through the
reference it is given. The line lists are never written to, only replaced. -/
namespace KernelTcp.Coverage

def objectAt (dicts : List FileLines) (address : Nat) : FileLines := dicts.getD address Dict.empty

def view (info : Dict Str Nat) (dicts : List FileLines) : CoverageInfo :=
  info.mapValues (fun _ address => objectAt dicts address)

structure Helper where
  dicts : List FileLines
  coverageInfo : Dict Str Nat
  valid : ∀ e ∈ coverageInfo.entries, e.2 < dicts.length

def Helper.info (h : Helper) : CoverageInfo := view h.coverageInfo h.dicts

def combineAt (base address : Nat) (dicts : List FileLines) : List FileLines :=
  (objectAt dicts address).entries.foldl (fun dicts e => dicts.modify base (fun baseCov => combineFile baseCov e)) dicts

def additionalAt (info : Dict Str Nat) (base : Nat) : Nat → List Str → List FileLines → List Str →
    Except PyError (List Str × List FileLines)
  | 0, _, dicts, fileList => .ok (fileList,dicts)
  | rounds+1, candidate, dicts, fileList =>
      if 0 < candidate.length then do
        let best ← maxCov (view info dicts) (objectAt dicts base) candidate
        let chooseOne ← Py.getItem candidate best.idx
        let candidate ← Py.delItem candidate best.idx
        let address ← Py.raiseNone .keyError (info.get? chooseOne)
        additionalAt info base rounds candidate (combineAt base address dicts) (fileList ++ [chooseOne])
      else .ok (fileList,dicts)

def Helper.additionalCovGenerator (h : Helper) : Except PyError (List Str × List FileLines) :=
  additionalAt h.coverageInfo h.dicts.length h.coverageInfo.keys.length h.coverageInfo.keys (h.dicts ++ [Dict.empty]) []

section fresh
variable {old : List FileLines}

theorem objectFresh (b : FileLines) : objectAt (old ++ [b]) old.length = b := by
  simp [objectAt]

theorem objectOld {address : Nat} (inside : address < old.length) (b : FileLines) :
    objectAt (old ++ [b]) address = objectAt old address := by
  simp [objectAt,List.getElem?_append_left inside]

theorem viewFresh {info : Dict Str Nat} (valid : ∀ e ∈ info.entries, e.2 < old.length) (b : FileLines) :
    view info (old ++ [b]) = view info old := by
  apply Dict.ext
  refine List.map_congr_left ?_
  intro e mem
  exact congrArg (Prod.mk e.1) (objectOld (valid e mem) b)

theorem combineFresh {address : Nat} (inside : address < old.length) (b : FileLines) :
    combineAt old.length address (old ++ [b]) = old ++ [combineCov b (objectAt old address)] := by
  unfold combineAt combineCov
  rw [objectOld inside]
  generalize (objectAt old address).entries = es
  induction es generalizing b with
  | nil => rfl
  | cons e es ih =>
    have written : (old ++ [b]).modify old.length (fun baseCov => combineFile baseCov e) = old ++ [combineFile b e] := by
      simp [List.modify_eq_set_getElem?]
    rw [List.foldl_cons,List.foldl_cons,written,ih]

theorem additionalFresh {info : Dict Str Nat} (valid : ∀ e ∈ info.entries, e.2 < old.length) {rounds : Nat}
    {candidate fileList order : List Str} {b : FileLines}
    (run : additionalLoop (view info old) rounds candidate b fileList = .ok order) :
    ∃ last, additionalAt info old.length rounds candidate (old ++ [b]) fileList = .ok (order,old ++ [last]) := by
  induction rounds generalizing candidate fileList b with
  | zero =>
    cases run
    exact ⟨b,rfl⟩
  | succ rounds ih =>
    rw [additionalLoop] at run
    rw [additionalAt,viewFresh valid,objectFresh]
    split at run
    · rename_i some
      obtain ⟨best,scanned,run⟩ := Py.bindOk.mp run
      obtain ⟨chooseOne,chosen,run⟩ := Py.bindOk.mp run
      obtain ⟨others,removed,run⟩ := Py.bindOk.mp run
      obtain ⟨v,found,run⟩ := Py.bindOk.mp run
      rw [Py.raiseNoneOk,view,Dict.getMapValues] at found
      obtain ⟨address,there,rfl⟩ := Option.map_eq_some_iff.mp found
      obtain ⟨last,rest⟩ := ih run
      refine ⟨last,?_⟩
      rw [if_pos some]
      simp only [scanned,chosen,removed,there,Py.raiseNone,bind,Except.bind]
      rw [combineFresh (valid _ (Dict.getEntry.mp there))]
      exact rest
    · rename_i none
      cases run
      exact ⟨b,by rw [if_neg none]⟩

end fresh

/-- The order takes every test once, each the first of the tests with the most new pairs that
are left; the gains never rise and add up to all pairs covered, and the objects of
`coverage_info` are as they were. -/
theorem additionalExact (h : Helper) (distinct : ∀ e ∈ h.info.entries, DistinctLines e.2) :
    ∃ order dicts, h.additionalCovGenerator = .ok (order,dicts)
      ∧ dicts.take h.dicts.length = h.dicts ∧ view h.coverageInfo dicts = h.info
      ∧ order.Perm h.coverageInfo.keys
      ∧ (∀ before t after, order = before ++ t::after →
          First (Greedy.gain (testPairs h.info) (Greedy.covered (testPairs h.info) before))
            (Picking.others h.coverageInfo.keys before) t)
      ∧ (Greedy.gains (testPairs h.info) ∅ order).Pairwise (fun a b => b ≤ a)
      ∧ (Greedy.gains (testPairs h.info) ∅ order).sum = cov h.info h.coverageInfo.keys.toFinset := by
  have keys : h.info.keys = h.coverageInfo.keys := Dict.keysMapValues _ _
  obtain ⟨order,run,greedy⟩ := generatorGreedy distinct
  unfold additionalCovGenerator at run
  rw [keys] at run greedy
  obtain ⟨last,objects⟩ := additionalFresh h.valid run
  have perm := Greedy.orderPerm greedy
  refine ⟨order,h.dicts ++ [last],objects,by simp,viewFresh h.valid last,perm,?_,Greedy.gainsSorted greedy,?_⟩
  · intro before t after split
    have empty : (∅ : Finset _) ∪ Greedy.covered (testPairs h.info) [] = ∅ := Finset.empty_union _
    rw [split,← empty] at greedy
    have first := (Greedy.orderPicked (Dict.keysDistinct _) greedy).chosen (Dict.keysDistinct _)
    rwa [List.nil_append,Finset.empty_union] at first
  · have total := Greedy.gainsSum (testPairs h.info) ∅ order
    rw [Finset.card_empty,Nat.zero_add,Finset.empty_union,← covCovered] at total
    rw [total,List.toFinset_eq_of_perm _ _ perm]

def overlappingObjects : Helper where
  dicts := [Dict.empty.set "f.c".toList [1,2,3,4],Dict.empty.set "f.c".toList [1,2,5]]
  coverageInfo := ((Dict.empty.set "both".toList 0).set "again".toList 0).set "low".toList 1
  valid := by decide

theorem overlappingExact : ∃ order dicts, overlappingObjects.additionalCovGenerator = .ok (order,dicts)
    ∧ order = ["both".toList,"low".toList,"again".toList]
    ∧ view overlappingObjects.coverageInfo dicts = overlappingObjects.info
    ∧ (Greedy.gains (testPairs overlappingObjects.info) ∅ order).sum =
      cov overlappingObjects.info overlappingObjects.coverageInfo.keys.toFinset := by
  obtain ⟨order,dicts,run,_,same,_,_,_,total⟩ := additionalExact overlappingObjects (by decide)
  refine ⟨order,dicts,run,?_,same,total⟩
  have known : (overlappingObjects.additionalCovGenerator).map Prod.fst =
      .ok ["both".toList,"low".toList,"again".toList] := by decide +kernel
  rw [run] at known
  exact Except.ok.inj known

end KernelTcp.Coverage

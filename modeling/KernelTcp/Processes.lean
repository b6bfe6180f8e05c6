import KernelTcp.Lib.Slices

/-! How the scripts hand a list of tasks to their processes. Every process computes the slice
it takes from its own number alone. -/
namespace KernelTcp.Processes
open Slices
variable {α : Type}

def reproduceSlice (ciObjs : List α) (vmnum vmindex : Int) : Except PyError (List α) :=
  if vmnum = 0 then .error .zeroDivisionError
  else
    let batchPerRun := (ciObjs.length : Int).tdiv vmnum
    let startIndex := (vmindex - 1) * batchPerRun
    let endIndex := vmindex * batchPerRun
    .ok (slice ciObjs startIndex endIndex)

def processSlice (numberOfProcess : Nat) (toList : List α) (i : Nat) : List α :=
  let batch := toList.length / numberOfProcess
  let start := i * batch
  let stop := if i = numberOfProcess - 1 then toList.length else (i + 1) * batch
  slice toList start stop

def processSlices (numberOfProcess : Nat) (toList : List α) : List (List α) :=
  (List.range numberOfProcess).map (processSlice numberOfProcess toList)

def parseInfo (toList : List α) : List (List α) := processSlices 15 toList

def loadCov (taskList : List α) : List (List α) := processSlices 10 taskList

theorem reproducePart (ciObjs : List α) {v : Nat} (positive : 1 ≤ v) (i : Nat) :
    reproduceSlice ciObjs v (i+1) = .ok ((ciObjs.drop (i*(ciObjs.length/v))).take (ciObjs.length/v)) := by
  have batch : (ciObjs.length : Int).tdiv v = (ciObjs.length/v : Nat) := rfl
  have start : ((i : Int)+1-1)*(ciObjs.length/v : Nat) = (i*(ciObjs.length/v) : Nat) := by
    rw [Int.add_sub_cancel,Int.natCast_mul]
  have stop : ((i : Int)+1)*(ciObjs.length/v : Nat) = (i*(ciObjs.length/v) + ciObjs.length/v : Nat) := by
    rw [Int.add_mul,Int.one_mul,Int.natCast_add,Int.natCast_mul]
  unfold reproduceSlice
  rw [if_neg (by omega),batch]
  dsimp only
  rw [start,stop,slicePart]

theorem processJoin {numberOfProcess : Nat} (positive : 1 ≤ numberOfProcess) (toList : List α) :
    (processSlices numberOfProcess toList).flatten = toList := by
  obtain ⟨n,rfl⟩ := Nat.exists_eq_add_of_le' positive
  have early : (List.range n).map (processSlice (n+1) toList) =
      (List.range n).map (fun i => (toList.drop (i*(toList.length/(n+1)))).take (toList.length/(n+1))) := by
    refine List.map_congr_left ?_
    intro i listed
    have before := List.mem_range.mp listed
    rw [processSlice,if_neg (by omega),← slicePart,Nat.succ_mul]
  have last : processSlice (n+1) toList n = toList.drop (n*(toList.length/(n+1))) := by
    rw [processSlice,if_pos (by omega),sliceRest]
  unfold processSlices
  rw [List.range_succ,List.map_append,List.flatten_append,early,slicesJoin,List.map_singleton,last,List.flatten_singleton,
    List.take_append_drop]

/-- The runs with the numbers 1 to v take consecutive checkouts, and every checkout falls to one
of them exactly when v divides their number; otherwise the last ones are taken by none. The
processes of collect_coverage always share the whole list. -/
theorem reproductionDistributed (ciObjs : List α) (v : Nat) (positive : 1 ≤ v) :
    (∃ parts, (List.range v).mapM (fun i : Nat => reproduceSlice ciObjs v (i+1)) = .ok parts ∧
      parts.flatten = ciObjs.take (v * (ciObjs.length / v)) ∧ (parts.flatten.Perm ciObjs ↔ v ∣ ciObjs.length)) ∧
    ∀ toList : List α, (parseInfo toList).flatten = toList ∧ (loadCov toList).flatten = toList := by
  refine ⟨⟨_,Py.mapMTotal (fun i _ => reproducePart ciObjs positive i),?_,?_⟩,
    fun toList => ⟨processJoin (by decide) toList,processJoin (by decide) toList⟩⟩
  · rw [slicesJoin]
  · rw [slicesJoin]
    constructor
    · intro whole
      have size := whole.length_eq
      rw [List.length_take] at size
      have part := Nat.mul_div_le ciObjs.length v
      exact ⟨ciObjs.length/v,by omega⟩
    · intro divides
      rw [Nat.mul_div_cancel' divides,List.take_length]

theorem sixShared : ∃ parts, (List.range 3).mapM (fun i : Nat => reproduceSlice [1,2,3,4,5,6] (3 : Nat) (i+1)) = .ok parts
    ∧ parts.flatten.Perm [1,2,3,4,5,6] := by
  obtain ⟨parts,run,_,shared⟩ := (reproductionDistributed [1,2,3,4,5,6] 3 (by decide)).1
  exact ⟨parts,run,shared.mpr (by decide)⟩

theorem lastCheckoutLeft : (List.range 2).mapM (fun i : Nat => reproduceSlice [1,2,3,4,5] (2 : Nat) (i+1)) = .ok [[1,2],[3,4]]
    ∧ 5 ∉ [[1,2],[3,4]].flatten ∧ ¬ [[1,2],[3,4]].flatten.Perm [1,2,3,4,5] := by
  decide +kernel

end KernelTcp.Processes

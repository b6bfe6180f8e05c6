import KernelTcp.Lib.Edits
import KernelTcp.Lib.Grid
import KernelTcp.Lib.Padded
import KernelTcp.Lib.Text

/-! The distances between texts. Both copies of each distance read alike, but for the edit
distance, which one of them takes from a package. -/
namespace KernelTcp.Prior
open Edits (Script)
open Grid (getCell setCell table put)

def editCell (s1 s2 : Str) (i : Nat) (dp : List (List Nat)) (j : Nat) : Except PyError (List (List Nat)) := do
  let a ← Py.getItem s1 ((i : Int) - 1)
  let b ← Py.getItem s2 ((j : Int) - 1)
  if a = b then do
    let diagonal ← getCell dp ((i : Int) - 1) ((j : Int) - 1)
    setCell dp i j diagonal
  else do
    let above ← getCell dp ((i : Int) - 1) j
    let left ← getCell dp i ((j : Int) - 1)
    let diagonal ← getCell dp ((i : Int) - 1) ((j : Int) - 1)
    setCell dp i j (min (min (above + 1) (left + 1)) (diagonal + 1))

def editRow (s1 s2 : Str) (dp : List (List Nat)) (i : Nat) : Except PyError (List (List Nat)) :=
  (List.range' 1 s2.length).foldlM (editCell s1 s2 i) dp

def editDistance (s1 s2 : Str) : Except PyError Nat := do
  let m := s1.length
  let n := s2.length
  let dp := List.replicate (m+1) (List.replicate (n+1) 0)
  let dp ← (List.range (m+1)).foldlM (fun dp (i : Nat) => setCell dp i 0 i) dp
  let dp ← (List.range (n+1)).foldlM (fun dp (j : Nat) => setCell dp 0 j j) dp
  let dp ← (List.range' 1 m).foldlM (editRow s1 s2) dp
  getCell dp m n

def prefixDistance (s1 s2 : Str) (i j : Nat) : Nat := Edits.distance (s1.take i).reverse (s2.take j).reverse

section table
variable {s1 s2 : Str} {i j : Nat} {f : Nat → Nat → Nat}

variable (s2) in
theorem prefixColumn (inside : i ≤ s1.length) : prefixDistance s1 s2 i 0 = i := by
  unfold prefixDistance
  rw [List.take_zero,List.reverse_nil,Edits.distanceEmpty,List.length_reverse,List.length_take,Nat.min_eq_left inside]

variable (s1) in
theorem prefixRow (inside : j ≤ s2.length) : prefixDistance s1 s2 0 j = j := by
  unfold prefixDistance
  rw [List.take_zero,List.reverse_nil,Edits.distanceNil,List.length_reverse,List.length_take,Nat.min_eq_left inside]

theorem takeReverse (inside : i < s1.length) : (s1.take (i+1)).reverse = s1[i]::(s1.take i).reverse := by
  rw [List.take_add_one,List.getElem?_eq_getElem inside]
  simp

theorem prefixCell (row : i < s1.length) (column : j < s2.length) : prefixDistance s1 s2 (i+1) (j+1) =
    if s1[i] = s2[j] then prefixDistance s1 s2 i j
    else min (min (prefixDistance s1 s2 i (j+1) + 1) (prefixDistance s1 s2 (i+1) j + 1)) (prefixDistance s1 s2 i j + 1) := by
  unfold prefixDistance
  rw [takeReverse row,takeReverse column,Edits.distanceCons]

theorem editCellFilled (row : i < s1.length) (column : j < s2.length) (above : f i (j+1) = prefixDistance s1 s2 i (j+1))
    (left : f (i+1) j = prefixDistance s1 s2 (i+1) j) (diagonal : f i j = prefixDistance s1 s2 i j) :
    editCell s1 s2 (i+1) (table f (s1.length+1) (s2.length+1)) (j+1) =
      .ok (table (put f (i+1) (j+1) (prefixDistance s1 s2 (i+1) (j+1))) (s1.length+1) (s2.length+1)) := by
  have rowBefore : ((i+1 : Nat) : Int) - 1 = (i : Nat) := by omega
  have columnBefore : ((j+1 : Nat) : Int) - 1 = (j : Nat) := by omega
  have up := Grid.getCellTable f (show i < s1.length+1 by omega) (show j+1 < s2.length+1 by omega)
  have back := Grid.getCellTable f (show i+1 < s1.length+1 by omega) (show j < s2.length+1 by omega)
  have both := Grid.getCellTable f (show i < s1.length+1 by omega) (show j < s2.length+1 by omega)
  have written := Grid.setCellTable f (show i+1 < s1.length+1 by omega) (show j+1 < s2.length+1 by omega)
  unfold editCell
  rw [rowBefore,columnBefore,Py.getItemInside (List.getElem?_eq_getElem row),
    Py.getItemInside (List.getElem?_eq_getElem column),up,back,both,above,left,diagonal,prefixCell row column]
  simp only [bind,Except.bind,written]
  split <;> rfl

structure RowsFilled (s1 s2 : Str) (k : Nat) (f : Nat → Nat → Nat) : Prop where
  edge : ∀ a ≤ s1.length, f a 0 = prefixDistance s1 s2 a 0
  rows : ∀ a ≤ k, ∀ b ≤ s2.length, f a b = prefixDistance s1 s2 a b

structure RowFilled (s1 s2 : Str) (k l : Nat) (f : Nat → Nat → Nat) : Prop where
  before : RowsFilled s1 s2 k f
  row : ∀ b ≤ l, f (k+1) b = prefixDistance s1 s2 (k+1) b

theorem editCellStep {k l : Nat} (row : k < s1.length) (column : l < s2.length) (h : RowFilled s1 s2 k l f) :
    ∃ g, editCell s1 s2 (1+k) (table f (s1.length+1) (s2.length+1)) (1+l) = .ok (table g (s1.length+1) (s2.length+1))
      ∧ RowFilled s1 s2 k (l+1) g := by
  refine ⟨put f (k+1) (l+1) (prefixDistance s1 s2 (k+1) (l+1)),?_,⟨?_,?_⟩,?_⟩
  · rw [Nat.add_comm 1 k,Nat.add_comm 1 l]
    exact editCellFilled row column (h.before.rows k (Nat.le_refl k) (l+1) column) (h.row l (Nat.le_refl l))
      (h.before.rows k (Nat.le_refl k) l column.le)
  · intro a inside
    rw [Grid.putOther _ (Or.inr (by omega))]
    exact h.before.edge a inside
  · intro a earlier b inside
    rw [Grid.putOther _ (Or.inl (by omega))]
    exact h.before.rows a earlier b inside
  · intro b upTo
    by_cases here : b = l+1
    · rw [here,Grid.putSame]
    · rw [Grid.putOther _ (Or.inr here)]
      exact h.row b (by omega)

theorem editRowFilled {k : Nat} (row : k < s1.length) (filled : RowsFilled s1 s2 k f) :
    ∃ g, editRow s1 s2 (table f (s1.length+1) (s2.length+1)) (1 + k) = .ok (table g (s1.length+1) (s2.length+1))
      ∧ RowsFilled s1 s2 (k+1) g := by
  have start : RowFilled s1 s2 k 0 f := by
    refine ⟨filled,?_⟩
    intro b none
    cases Nat.le_zero.mp none
    exact filled.edge (k+1) row
  obtain ⟨g,run,done⟩ := Grid.tableLoop (editCell s1 s2 (1+k)) 1 (RowFilled s1 s2 k) start
    (fun _ column _ h => editCellStep row column h)
  refine ⟨g,run,done.before.edge,?_⟩
  intro a upTo b inside
  by_cases last : a = k+1
  · rw [last]
    exact done.row b inside
  · exact done.before.rows a (by omega) b inside

theorem firstColumn (m n : Nat) : ∃ g, (List.range (m+1)).foldlM (fun dp (i : Nat) => setCell dp i 0 i)
    (table (fun _ _ => 0) (m+1) (n+1)) = .ok (table g (m+1) (n+1)) ∧ ∀ a < m+1, g a 0 = a := by
  rw [List.range_eq_range']
  refine Grid.tableLoop (fun dp (i : Nat) => setCell dp i 0 i) 0 (fun k f => ∀ a < k, f a 0 = a) (by simp) ?_
  intro k inside f h
  refine ⟨put f k 0 k,?_,?_⟩
  · rw [Nat.zero_add]
    exact Grid.setCellTable f inside (Nat.succ_pos n) k
  · intro a upTo
    by_cases here : a = k
    · rw [here,Grid.putSame]
    · rw [Grid.putOther _ (Or.inl here)]
      exact h a (by omega)

theorem firstRow (m n : Nat) {f : Nat → Nat → Nat} (column : ∀ a < m+1, f a 0 = a) :
    ∃ g, (List.range (n+1)).foldlM (fun dp (j : Nat) => setCell dp 0 j j) (table f (m+1) (n+1)) = .ok (table g (m+1) (n+1))
      ∧ (∀ a < m+1, g a 0 = a) ∧ ∀ b < n+1, g 0 b = b := by
  rw [List.range_eq_range']
  refine Grid.tableLoop (fun dp (j : Nat) => setCell dp 0 j j) 0
    (fun k f => (∀ a < m+1, f a 0 = a) ∧ ∀ b < k, f 0 b = b) ⟨column,by simp⟩ ?_
  intro k inside f h
  refine ⟨put f 0 k k,?_,?_,?_⟩
  · rw [Nat.zero_add]
    exact Grid.setCellTable f (Nat.succ_pos m) inside k
  · intro a inside
    by_cases here : a = 0 ∧ 0 = k
    · rw [here.1,← here.2,Grid.putSame]
    · rw [Grid.putOther _ (by omega)]
      exact h.1 a inside
  · intro b upTo
    by_cases here : b = k
    · rw [here,Grid.putSame]
    · rw [Grid.putOther _ (Or.inr here)]
      exact h.2 b (by omega)

end table

theorem editDistanceValue (s1 s2 : Str) : editDistance s1 s2 = .ok (Edits.distance s1 s2) := by
  obtain ⟨f,first,column⟩ := firstColumn s1.length s2.length
  obtain ⟨g,second,edge,top⟩ := firstRow s1.length s2.length column
  have start : RowsFilled s1 s2 0 g := by
    constructor
    · intro a inside
      rw [edge a (by omega),prefixColumn s2 inside]
    · intro a none b inside
      cases Nat.le_zero.mp none
      rw [top b (by omega),prefixRow s1 inside]
  obtain ⟨last,third,done⟩ := Grid.tableLoop (editRow s1 s2) 1 (RowsFilled s1 s2) start (fun _ inside _ filled => editRowFilled inside filled)
  have whole : prefixDistance s1 s2 s1.length s2.length = Edits.distance s1 s2 := by
    rw [prefixDistance,List.take_length,List.take_length,Edits.distanceReverse]
  unfold editDistance
  simp only [Grid.tableConst,first,second,third,bind,Except.bind]
  rw [Grid.getCellTable last (Nat.lt_succ_self _) (Nat.lt_succ_self _),
    done.rows s1.length (Nat.le_refl _) s2.length (Nat.le_refl _),whole]

/-- The table never fails, and its last cell is the number of edits of a shortest script,
which any package that returns this number agrees with. -/
theorem editDistanceIsLeast (s1 s2 : Str) :
    (∃ n, editDistance s1 s2 = .ok n ∧ IsLeast {n | Script n s1 s2} n) ∧
    ∀ levenshtein : Str → Str → Nat, (∀ a b, IsLeast {n | Script n a b} (levenshtein a b)) →
      editDistance s1 s2 = .ok (levenshtein s1 s2) := by
  have least := Edits.distanceIsLeast s1 s2
  refine ⟨⟨Edits.distance s1 s2,editDistanceValue s1 s2,least⟩,?_⟩
  intro levenshtein minimal
  rw [editDistanceValue,least.unique (minimal s1 s2)]

def nul : Char := Char.ofNat 0

def pad (s1 s2 : Str) : Str × Str :=
  let lenDiff := ((s1.length : Int) - s2.length).natAbs
  if s1.length < s2.length then (s1 ++ List.replicate lenDiff nul,s2)
  else if s1.length > s2.length then (s1,s2 ++ List.replicate lenDiff nul)
  else (s1,s2)

def differ (a b : Char) : Nat := if a = b then 0 else 1

def apart (p q : Nat) : Nat := ((p : Int) - q).natAbs

def hanmingDistance (s1 s2 : Str) : Except PyError Nat :=
  let padded := pad s1 s2
  Padded.compare differ padded.1 padded.2

def manhattanStringDistance (s1 s2 : Str) : Except PyError Nat :=
  let padded := pad s1 s2
  let point1 := padded.1.map Char.toNat
  let point2 := padded.2.map Char.toNat
  Padded.compare apart point1 point2

theorem padLengths (s1 s2 : Str) :
    (pad s1 s2).1.length = max s1.length s2.length ∧ (pad s1 s2).2.length = max s1.length s2.length := by
  simp only [pad]
  split
  · simp only [List.length_append,List.length_replicate]
    omega
  · split
    · simp only [List.length_append,List.length_replicate]
      omega
    · dsimp only
      omega

theorem padReading (s1 s2 : Str) (i : Nat) : Padded.reading nul (pad s1 s2).1 i = Padded.reading nul s1 i
    ∧ Padded.reading nul (pad s1 s2).2 i = Padded.reading nul s2 i := by
  simp only [pad]
  split
  · exact ⟨Padded.readingAppend _ _ _,rfl⟩
  · split
    · exact ⟨rfl,Padded.readingAppend _ _ _⟩
    · exact ⟨rfl,rfl⟩

theorem padTotal (cost : Char → Char → Nat) (n : Nat) (s1 s2 : Str) :
    Padded.total nul cost n (pad s1 s2).1 (pad s1 s2).2 = Padded.total nul cost n s1 s2 := by
  unfold Padded.total
  simp only [(padReading s1 s2 _).1,(padReading s1 s2 _).2]

theorem differCost : Padded.Cost differ := by
  constructor
  · intro x y
    simp [differ]
  · intro x y
    simp only [differ,eq_comm]
  · intro x y z
    unfold differ
    grind

def pointsApart (a b : Char) : Nat := apart a.toNat b.toNat

theorem pointsApartCost : Padded.Cost pointsApart := by
  constructor
  · intro x y
    rw [← Char.toNat_inj]
    simp only [pointsApart,apart]
    omega
  · intro x y
    simp only [pointsApart,apart]
    omega
  · intro x y z
    simp only [pointsApart,apart]
    omega

theorem hanmingValue (a b : Str) : hanmingDistance a b = .ok (Padded.total nul differ (max a.length b.length) a b) := by
  obtain ⟨left,right⟩ := padLengths a b
  simp only [hanmingDistance]
  rw [Padded.compareTotal nul differ (left.trans right.symm),padTotal,left]

theorem manhattanValue (a b : Str) :
    manhattanStringDistance a b = .ok (Padded.total nul pointsApart (max a.length b.length) a b) := by
  obtain ⟨left,right⟩ := padLengths a b
  simp only [manhattanStringDistance]
  rw [Padded.compareTotal nul.toNat apart (by simp only [List.length_map,left,right]),Padded.totalMap,List.length_map,left]
  exact congrArg Except.ok (padTotal pointsApart _ a b)

theorem distanceFromNothing {b : Str} (clean : nul ∉ b) {n : Nat} (inside : b.length ≤ n) :
    Edits.distance [] b ≤ Padded.total nul differ n [] b := by
  rw [Edits.distanceNil]
  induction b generalizing n with
  | nil => exact Nat.zero_le _
  | cons y b ih =>
    obtain ⟨n,rfl⟩ : ∃ k, n = k + 1 := ⟨n - 1,by simp at inside; omega⟩
    rw [List.mem_cons,not_or] at clean
    have rest := ih clean.2 (Nat.le_of_succ_le_succ inside)
    rw [Padded.totalNil,differ,if_neg clean.1,List.length_cons]
    omega

theorem distanceByPositions {a b : Str} (left : nul ∉ a) (right : nul ∉ b) {n : Nat} (first : a.length ≤ n)
    (second : b.length ≤ n) : Edits.distance a b ≤ Padded.total nul differ n a b := by
  induction a generalizing b n with
  | nil => exact distanceFromNothing right second
  | cons x a ih =>
    cases b with
    | nil =>
      rw [Edits.distanceSymm,Padded.totalSymm differCost]
      exact distanceFromNothing left first
    | cons y b =>
      obtain ⟨n,rfl⟩ : ∃ k, n = k + 1 := ⟨n - 1,by simp at first; omega⟩
      rw [List.mem_cons,not_or] at left right
      have rest := ih left.2 right.2 (Nat.le_of_succ_le_succ first) (Nat.le_of_succ_le_succ second)
      have heads := Edits.distanceHeads x y a b
      rw [Padded.totalCons,differ]
      split
      · rename_i same
        rw [Edits.distanceCons,if_pos same]
        omega
      · omega

theorem differBelow (x y : Char) : differ x y ≤ pointsApart x y := by
  unfold differ
  split
  · exact Nat.zero_le _
  · rename_i different
    exact Nat.one_le_iff_ne_zero.mpr (fun same => different (pointsApartCost.same.mp same))

structure MetricOn (d : Str → Str → Nat) (a b c : Str) : Prop where
  symm : d a b = d b a
  zero : d a b = 0 ↔ a = b
  triangle : d a c ≤ d a b + d b c

theorem paddedMetric {cost : Char → Char → Nat} (h : Padded.Cost cost) {a b c : Str} (left : nul ∉ a) (right : nul ∉ b) :
    MetricOn (fun a b => Padded.total nul cost (max a.length b.length) a b) a b c := by
  -- the three pairs are compared over one length that covers all of them
  have long : ∀ x y : Str, x.length ≤ max a.length (max b.length c.length) → y.length ≤ max a.length (max b.length c.length) →
      Padded.total nul cost (max x.length y.length) x y = Padded.total nul cost (max a.length (max b.length c.length)) x y :=
    fun x y hx hy => (Padded.totalBeyond h (le_max_left _ _) (le_max_right _ _) (max_le hx hy)).symm
  constructor
  · show Padded.total _ _ _ a b = Padded.total _ _ _ b a
    rw [Padded.totalSymm h,max_comm]
  · exact Padded.totalZero h left right (le_max_left _ _) (le_max_right _ _)
  · show Padded.total _ _ _ a c ≤ Padded.total _ _ _ a b + Padded.total _ _ _ b c
    rw [long a c (by omega) (by omega),long a b (by omega) (by omega),long b c (by omega) (by omega)]
    exact Padded.totalTriangle h

/-- On texts without NUL the padded distances are metrics, and no smaller than the edit
distance. -/
theorem paddedDistances (a b c : Str) (left : nul ∉ a) (right : nul ∉ b) :
    ∃ hanming manhattan : Str → Str → Nat, (∀ x y, hanmingDistance x y = .ok (hanming x y)) ∧
      (∀ x y, manhattanStringDistance x y = .ok (manhattan x y)) ∧
      MetricOn hanming a b c ∧ MetricOn manhattan a b c ∧
      ∃ edits, editDistance a b = .ok edits ∧ edits ≤ hanming a b ∧ hanming a b ≤ manhattan a b :=
  ⟨_,_,hanmingValue,manhattanValue,paddedMetric differCost left right,paddedMetric pointsApartCost left right,
    Edits.distance a b,editDistanceValue a b,distanceByPositions left right (le_max_left _ _) (le_max_right _ _),
    Padded.totalMono differBelow⟩

theorem paddedDistancesOpen : ∃ hanming : Str → Str → Nat, (∀ x y, hanmingDistance x y = .ok (hanming x y)) ∧
    MetricOn hanming "open".toList "openat".toList [] ∧
    ∃ edits, editDistance "open".toList "openat".toList = .ok edits ∧ edits ≤ hanming "open".toList "openat".toList := by
  obtain ⟨hanming,_,value,_,metric,_,edits,done,fewer,_⟩ :=
    paddedDistances "open".toList "openat".toList [] (by decide) (by decide)
  exact ⟨hanming,value,metric,edits,done,fewer⟩

end KernelTcp.Prior

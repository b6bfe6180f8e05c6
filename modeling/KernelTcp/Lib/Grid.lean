import KernelTcp.Lib.First
import Mathlib.Data.List.MinMax

/-! A table with a row for each of some `ps` and a column for each of some `cs`, filled cell
by cell, and the smallest entry of every column. -/
namespace KernelTcp.Grid
variable {δ ρ κ : Type}

def cellStep (entry : ρ → Except PyError δ) (col : Nat) (s : List (List δ) × Nat) (p : ρ) :
    Except PyError (List (List δ) × Nat) := do
  let value ← entry p
  let line ← Py.getItem s.1 s.2
  let line ← Py.setItem line col value
  let d ← Py.setItem s.1 s.2 line
  .ok (d,s.2+1)

def columnStep (entry : ρ → κ → Except PyError δ) (ps : List ρ) (s : List (List δ) × Nat) (c : κ) :
    Except PyError (List (List δ) × Nat) := do
  let filled ← ps.foldlM (cellStep (fun p => entry p c) s.2) (s.1,0)
  .ok (filled.1,s.2+1)

def fill (entry : ρ → κ → Except PyError δ) (start : δ) (ps : List ρ) (cs : List κ) : Except PyError (List (List δ)) := do
  let filled ← cs.foldlM (columnStep entry ps) (List.replicate ps.length (List.replicate cs.length start),0)
  .ok filled.1

def grid (f : ρ → κ → δ) (ps : List ρ) (cs : List κ) : List (List δ) := ps.map (fun p => cs.map (f p))

section fill
variable {f : ρ → κ → δ} {ps : List ρ} {cs : List κ}

theorem cellsFilled {entry : ρ → Except PyError δ} {g : ρ → δ} (total : ∀ p ∈ ps, entry p = .ok (g p)) (col : Nat)
    (row : ρ → List δ) (wide : ∀ p, col < (row p).length) (above : List (List δ)) :
    ps.foldlM (cellStep entry col) (above ++ ps.map row,above.length) =
      .ok (above ++ ps.map (fun p => (row p).set col (g p)),above.length + ps.length) := by
  induction ps generalizing above with
  | nil => rfl
  | cons p ps ih =>
    have cell : cellStep entry col (above ++ (p::ps).map row,above.length) p =
        .ok (above ++ (row p).set col (g p)::ps.map row,above.length+1) := by
      unfold cellStep
      simp only [total p (by simp),List.map_cons,Py.getItemMiddle,Py.setItemInside (wide p),Py.setItemMiddle,bind,Except.bind]
    have rest := ih (fun q listed => total q (by simp [listed])) (above ++ [(row p).set col (g p)])
    rw [List.length_append,List.append_assoc,List.append_assoc] at rest
    rw [List.foldlM_cons,cell,List.length_cons,Nat.add_comm ps.length,← Nat.add_assoc]
    exact rest

theorem columnsFilled {entry : ρ → κ → Except PyError δ} (total : ∀ p ∈ ps, ∀ c ∈ cs, entry p c = .ok (f p c)) (start : δ)
    (seen : List κ) :
    cs.foldlM (columnStep entry ps) (ps.map (fun p => seen.map (f p) ++ List.replicate cs.length start),seen.length) =
      .ok (grid f ps (seen ++ cs),seen.length + cs.length) := by
  induction cs generalizing seen with
  | nil => simp [grid,pure,Except.pure]
  | cons c cs ih =>
    have column : columnStep entry ps
        (ps.map (fun p => seen.map (f p) ++ List.replicate (c::cs).length start),seen.length) c =
        .ok (ps.map (fun p => (seen ++ [c]).map (f p) ++ List.replicate cs.length start),seen.length+1) := by
      have cells := cellsFilled (fun p listed => total p listed c (by simp)) seen.length
        (fun p => seen.map (f p) ++ List.replicate (c::cs).length start) (by simp) []
      rw [List.nil_append,List.nil_append,List.length_nil] at cells
      unfold columnStep
      simp only [cells,bind,Except.bind]
      simp [List.replicate_succ]
    have rest := ih (fun p listed d later => total p listed d (by simp [later])) (seen ++ [c])
    rw [List.length_append,List.append_assoc] at rest
    rw [List.foldlM_cons,column,List.length_cons,Nat.add_comm cs.length,← Nat.add_assoc]
    exact rest

theorem filled {entry : ρ → κ → Except PyError δ} (total : ∀ p ∈ ps, ∀ c ∈ cs, entry p c = .ok (f p c)) (start : δ) :
    fill entry start ps cs = .ok (grid f ps cs) := by
  have columns := columnsFilled total start []
  simp only [List.map_nil,List.nil_append,List.map_const',List.length_nil] at columns
  unfold fill
  rw [columns]
  rfl

end fill

section cells

def getCell (d : List (List δ)) (i j : Int) : Except PyError δ := do
  let line ← Py.getItem d i
  Py.getItem line j

def setCell (d : List (List δ)) (i j : Int) (value : δ) : Except PyError (List (List δ)) := do
  let line ← Py.getItem d i
  let line ← Py.setItem line j value
  Py.setItem d i line

def table (f : Nat → Nat → δ) (rows columns : Nat) : List (List δ) := grid f (List.range rows) (List.range columns)

def put (f : Nat → Nat → δ) (i j : Nat) (value : δ) (a b : Nat) : δ := if a = i ∧ b = j then value else f a b

variable {f : Nat → Nat → δ} {rows columns i j : Nat}

variable (f) in
theorem tableRow (row : i < rows) (columns : Nat) :
    Py.getItem (table f rows columns) i = .ok ((List.range columns).map (f i)) := by
  apply Py.getItemInside
  rw [table,grid,List.getElem?_map,List.getElem?_range row]
  rfl

variable (f) in
theorem getCellTable (row : i < rows) (column : j < columns) : getCell (table f rows columns) i j = .ok (f i j) := by
  have cell : ((List.range columns).map (f i))[j]? = some (f i j) := by
    rw [List.getElem?_map,List.getElem?_range column]
    rfl
  unfold getCell
  rw [tableRow f row columns]
  exact Py.getItemInside cell

theorem setRange {g : Nat → δ} (inside : j < columns) (value : δ) :
    ((List.range columns).map g).set j value = (List.range columns).map (fun b => if b = j then value else g b) := by
  refine List.ext_getElem? ?_
  intro b
  rw [List.getElem?_set,List.getElem?_map,List.getElem?_map,List.length_map,List.length_range]
  by_cases here : j = b
  · subst here
    rw [List.getElem?_range inside]
    simp [inside]
  · rw [if_neg here]
    by_cases within : b < columns
    · rw [List.getElem?_range within]
      simp [Ne.symm here]
    · rw [List.getElem?_eq_none (by simpa using within)]
      rfl

variable (f) in
theorem setCellTable (row : i < rows) (column : j < columns) (value : δ) :
    setCell (table f rows columns) i j value = .ok (table (put f i j value) rows columns) := by
  unfold setCell
  rw [tableRow f row columns]
  simp only [bind,Except.bind]
  rw [Py.setItemInside (by simpa using column),setRange column]
  dsimp only
  rw [Py.setItemInside (by simpa [table,grid] using row),table,grid,setRange row]
  congr 1
  apply List.map_congr_left
  intro a _
  unfold put
  by_cases here : a = i
  · simp [here]
  · simp [here]

theorem putSame (f : Nat → Nat → δ) (i j : Nat) (value : δ) : put f i j value i j = value := if_pos ⟨rfl,rfl⟩

theorem putOther (value : δ) {a b : Nat} (other : a ≠ i ∨ b ≠ j) : put f i j value a b = f a b := by
  unfold put
  rw [if_neg (by omega)]

theorem tableConst (value : δ) (rows columns : Nat) :
    List.replicate rows (List.replicate columns value) = table (fun _ _ => value) rows columns := by
  simp [table,grid,List.map_const']

theorem tableLoop (step : List (List δ) → Nat → Except PyError (List (List δ))) (start : Nat) {rounds : Nat}
    (holds : Nat → (Nat → Nat → δ) → Prop) (first : holds 0 f)
    (each : ∀ k < rounds, ∀ f, holds k f →
      ∃ g, step (table f rows columns) (start + k) = .ok (table g rows columns) ∧ holds (k+1) g) :
    ∃ g, (List.range' start rounds).foldlM step (table f rows columns) = .ok (table g rows columns) ∧ holds rounds g := by
  induction rounds with
  | zero => exact ⟨f,rfl,first⟩
  | succ rounds ih =>
    obtain ⟨g,run,kept⟩ := ih (fun k inside => each k (by omega))
    obtain ⟨last,done,after⟩ := each rounds (by omega) g kept
    refine ⟨last,?_,after⟩
    rw [List.range'_1_concat,List.foldlM_append,run]
    simp only [bind,Except.bind,List.foldlM_cons,List.foldlM_nil,done]
    rfl

end cells

theorem transposeGrid {f : ρ → κ → δ} {ps : List ρ} (some : ps ≠ []) (cs : List κ) :
    Py.transpose (grid f ps cs) = cs.map (fun c => ps.map (fun p => f p c)) := by
  obtain ⟨p,ps,rfl⟩ := List.exists_cons_of_ne_nil some
  refine List.ext_getElem? ?_
  intro i
  show ((List.range (cs.map (f p)).length).map (fun i => (grid f (p::ps) cs).filterMap (fun row => row[i]?)))[i]? = _
  rw [List.length_map,List.getElem?_map,List.getElem?_map]
  by_cases inside : i < cs.length
  · rw [List.getElem?_range inside,List.getElem?_eq_getElem inside]
    simp [grid,List.filterMap_map,inside]
  · rw [List.getElem?_eq_none (by simpa using inside),List.getElem?_eq_none (by simpa using inside)]
    rfl

variable [LinearOrder δ]

def least (x : δ) (xs : List δ) : δ := xs.foldl (fun m y => if y < m then y else m) x

def minOf : List δ → Except PyError δ
  | [] => .error .valueError
  | x::xs => .ok (least x xs)

def minColumns : List (List δ) → Except PyError (List δ)
  | [] => .error .valueError
  | first::rows => (Py.transpose (first::rows)).mapM minOf

theorem leastMinimum (x : δ) (xs : List δ) : ((least x xs : δ) : WithTop δ) = (x::xs).minimum := by
  unfold least
  induction xs generalizing x with
  | nil => simp
  | cons y xs ih =>
    have smaller : (if y < x then y else x) = min x y := by
      split <;> grind
    rw [List.foldl_cons,ih,smaller,List.minimum_cons,List.minimum_cons,List.minimum_cons,WithTop.coe_min,min_assoc]

theorem minGrid (f : ρ → κ → δ) (p : ρ) (ps : List ρ) (cs : List κ) :
    minColumns (grid f (p::ps) cs) = .ok (cs.map (fun c => least (f p c) (ps.map (fun q => f q c)))) := by
  show (Py.transpose (grid f (p::ps) cs)).mapM minOf = _
  rw [transposeGrid (by simp),List.mapM_map]
  exact Py.mapMTotal (fun c _ => rfl)

def maxMin (cs : List κ) (d : List (List δ)) : Except PyError κ := do
  let neighbours ← minColumns d
  let best ← maxOf neighbours
  let maxIdx ← indexOf neighbours best
  Py.getItem cs maxIdx

theorem maxMinFirst (f : ρ → κ → δ) {ps : List ρ} {cs : List κ} (rows : ps ≠ []) (columns : cs ≠ []) :
    ∃ c, maxMin cs (grid f ps cs) = .ok c ∧ First (fun c => (ps.map (fun p => f p c)).minimum) cs c := by
  obtain ⟨p,ps,rfl⟩ := List.exists_cons_of_ne_nil rows
  obtain ⟨best,maxIdx,c,most,index,found,first⟩ := indexMax (f := fun c => least (f p c) (ps.map (fun q => f q c))) columns
  refine ⟨c,?_,((First.scaled WithTop.coe_strictMono).mpr first).congr (fun y _ => leastMinimum _ _)⟩
  unfold maxMin
  simp only [minGrid,most,index,bind,Except.bind]
  exact Py.getItemInside found

end KernelTcp.Grid

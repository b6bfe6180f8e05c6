import KernelTcp.Analysis.Choice
import KernelTcp.Analysis.CombineResult

/-! The keys of configurations written as bracketed lists. The text is cut at blanks only, so
that the brackets stay with the first and the last item. -/
namespace KernelTcp.Analysis
open CiObjects Thread

structure IsItem (x : Str) : Prop where
  some : x ≠ []
  plain : ∀ c ∈ x, Text.isSpace c = false ∧ c ≠ '[' ∧ c ≠ ']'

def bracketed (xs : List Str) : Str := "[".toList ++ List.intercalate " ".toList xs ++ "]".toList

def closed (x : Str) : List Str → List Str
  | [] => [x ++ "]".toList]
  | y::ys => x::closed y ys

def marked : List Str → List Str
  | [] => ["[]".toList]
  | x::xs => closed ('['::x) xs

theorem closedText (x : Str) (xs : List Str) :
    List.intercalate " ".toList (closed x xs) = List.intercalate " ".toList (x::xs) ++ "]".toList := by
  induction xs generalizing x with
  | nil => simp [closed]
  | cons y ys ih =>
    have next : ∃ z zs, closed y ys = z::zs := by
      cases ys with
      | nil => exact ⟨_,_,rfl⟩
      | cons z zs => exact ⟨_,_,rfl⟩
    obtain ⟨z,zs,shape⟩ := next
    have rest := ih y
    rw [shape] at rest
    rw [closed,shape,List.intercalate_cons_cons,List.intercalate_cons_cons,rest,List.append_assoc,List.append_assoc,
      List.append_assoc]

theorem markedText (xs : List Str) : List.intercalate " ".toList (marked xs) = bracketed xs := by
  cases xs with
  | nil => rfl
  | cons x xs =>
    rw [marked,closedText]
    cases xs with
    | nil => simp [bracketed]
    | cons y ys => simp [bracketed,List.intercalate_cons_cons]

theorem closedSnoc (x : Str) (mid : List Str) (z : Str) : closed x (mid ++ [z]) = x::mid ++ [z ++ "]".toList] := by
  induction mid generalizing x with
  | nil => rfl
  | cons y mid ih => simp [closed,ih]

theorem closedMember {x : Str} {xs : List Str} {t : Str} (mem : t ∈ closed x xs) : ∃ y ∈ x::xs, t = y ∨ t = y ++ "]".toList := by
  induction xs generalizing x with
  | nil => exact ⟨x,by simp,Or.inr (List.mem_singleton.mp mem)⟩
  | cons y ys ih =>
    rcases List.mem_cons.mp mem with same | later
    · exact ⟨x,by simp,Or.inl same⟩
    · obtain ⟨z,listed,shape⟩ := ih later
      exact ⟨z,List.mem_cons_of_mem x listed,shape⟩

def isWord (t : Str) : Prop := t ≠ [] ∧ ∀ c ∈ t, (!Text.isSpace c) = true

theorem itemWord {x : Str} (item : IsItem x) : isWord x := by
  refine ⟨item.some,?_⟩
  intro c mem
  simp [(item.plain c mem).1]

theorem wordOpened {x : Str} (word : isWord x) : isWord ('['::x) := by
  refine ⟨by simp,?_⟩
  rw [List.forall_mem_cons]
  exact ⟨by decide,word.2⟩

theorem wordClosed {x : Str} (word : isWord x) : isWord (x ++ "]".toList) := by
  refine ⟨by simp,?_⟩
  intro c mem
  rcases List.mem_append.mp mem with inside | last
  · exact word.2 c inside
  · rw [List.mem_singleton.mp last]
    decide

theorem splitBracketed {xs : List Str} (items : ∀ x ∈ xs, IsItem x) : Text.split (bracketed xs) = marked xs := by
  have words : ∀ t ∈ marked xs, isWord t := by
    intro t mem
    cases xs with
    | nil =>
      rw [List.mem_singleton.mp mem]
      exact ⟨by decide,List.all_eq_true.mp (by decide)⟩
    | cons x xs =>
      rw [List.forall_mem_cons] at items
      have each : ∀ y ∈ ('['::x)::xs, isWord y :=
        List.forall_mem_cons.mpr ⟨wordOpened (itemWord items.1),fun y listed => itemWord (items.2 y listed)⟩
      obtain ⟨y,listed,shape⟩ := closedMember mem
      rcases shape with rfl | rfl
      · exact each t listed
      · exact wordClosed (each y listed)
  unfold Text.split
  rw [← markedText]
  exact Text.runsWords (by decide) words

def SameEnds (xs ys : List Str) : Prop := xs.head? = ys.head? ∧ xs.getLast? = ys.getLast?

instance : Decidable (SameEnds xs ys) := inferInstanceAs (Decidable (_ ∧ _))

theorem openedFirst {x y w : Str} {mid : List Str} (items : ∀ t ∈ y::mid ++ [w], IsItem t)
    (mem : '['::x ∈ ('['::y)::mid ++ [w ++ "]".toList]) : x = y := by
  rw [List.cons_append,List.mem_cons,List.mem_append,List.mem_singleton] at mem
  rcases mem with same | inside | last
  · exact (List.cons.inj same).2
  · exact absurd rfl ((items ('['::x) (by simp [inside])).plain '[' (by simp)).2.1
  · have bracket : '[' ∈ w ++ "]".toList := by
      rw [← last]
      simp
    rcases List.mem_append.mp bracket with inside | other
    · exact absurd rfl ((items w (by simp)).plain '[' inside).2.1
    · simp at other

theorem closedLast {z y w : Str} {mid : List Str} (items : ∀ t ∈ y::mid ++ [w], IsItem t)
    (mem : z ++ "]".toList ∈ ('['::y)::mid ++ [w ++ "]".toList]) : z = w := by
  rw [List.cons_append,List.mem_cons,List.mem_append,List.mem_singleton] at mem
  rcases mem with first | inside | same
  · have bracket : ']' ∈ '['::y := by
      rw [← first]
      simp
    rcases List.mem_cons.mp bracket with other | inside
    · simp at other
    · exact absurd rfl ((items y (by simp)).plain ']' inside).2.2
  · exact absurd rfl ((items (z ++ "]".toList) (List.mem_cons_of_mem y (List.mem_append_left _ inside))).plain ']' (by simp)).2.2
  · exact (List.append_inj' same rfl).1

theorem ends (xs : List Str) : xs = [] ∨ (∃ x, xs = [x]) ∨ ∃ x mid z, xs = x::mid ++ [z] := by
  cases xs with
  | nil => exact Or.inl rfl
  | cons x xs =>
    rcases List.eq_nil_or_concat xs with rfl | ⟨mid,z,rfl⟩
    · exact Or.inr (Or.inl ⟨x,rfl⟩)
    · exact Or.inr (Or.inr ⟨x,mid,z,by simp⟩)

theorem markedPerm {xs ys : List Str} (items : ∀ x ∈ xs, IsItem x) (same : ys.Perm xs) :
    (marked xs).Perm (marked ys) ↔ SameEnds xs ys := by
  rcases ends xs with rfl | ⟨x,rfl⟩ | ⟨x,mid,z,rfl⟩
  · rw [List.perm_nil.mp same]
    exact ⟨fun _ => ⟨rfl,rfl⟩,fun _ => List.Perm.refl _⟩
  · rw [List.perm_singleton.mp same]
    exact ⟨fun _ => ⟨rfl,rfl⟩,fun _ => List.Perm.refl _⟩
  · have size := same.length_eq
    have also : ∀ t ∈ ys, IsItem t := fun t mem => items t (same.mem_iff.mp mem)
    rcases ends ys with rfl | ⟨y,rfl⟩ | ⟨y,rest,w,rfl⟩
    · simp at size
    · simp at size
    · have left : marked (x::mid ++ [z]) = ('['::x)::mid ++ [z ++ "]".toList] := closedSnoc _ _ _
      have right : marked (y::rest ++ [w]) = ('['::y)::rest ++ [w ++ "]".toList] := closedSnoc _ _ _
      rw [left,right,SameEnds,List.getLast?_concat,List.getLast?_concat]
      simp only [List.cons_append,List.head?_cons,Option.some.injEq]
      constructor
      · intro perm
        exact ⟨openedFirst also (perm.mem_iff.mp (by simp)),closedLast also (perm.mem_iff.mp (by simp))⟩
      · intro agree
        obtain ⟨rfl,rfl⟩ := agree
        have inner := (List.perm_append_right_iff [z]).mp ((List.perm_cons x).mp same)
        exact (inner.symm.append_right _).cons _

theorem sortedSame {xs ys : List Str} : sorted xs = sorted ys ↔ xs.Perm ys := by
  unfold sorted
  constructor
  · intro same
    have right := List.perm_insertionSort (fun a b : Str => a ≤ b) ys
    rw [← same] at right
    exact (List.perm_insertionSort _ xs).symm.trans right
  · intro perm
    exact ((List.perm_insertionSort _ xs).trans (perm.trans (List.perm_insertionSort _ ys).symm)).eq_of_pairwise
      (fun a b _ _ => le_antisymm) (List.pairwise_insertionSort _ xs) (List.pairwise_insertionSort _ ys)

theorem keyBracketed {b : Build} {xs : List Str} (items : ∀ x ∈ xs, IsItem x)
    (config : b.dbInstance.kconfig = .text (bracketed xs)) : configKey b = .ok (sorted (marked xs)) := by
  unfold configKey
  rw [config]
  exact congrArg (fun tokens => Except.ok (sorted tokens)) (splitBracketed items)

theorem keysBracketed {a b : Build} {xs ys : List Str} (items : ∀ x ∈ xs, IsItem x) (same : ys.Perm xs)
    (first : a.dbInstance.kconfig = .text (bracketed xs)) (second : b.dbInstance.kconfig = .text (bracketed ys)) :
    configKey a = configKey b ↔ SameEnds xs ys := by
  have also : ∀ t ∈ ys, IsItem t := fun t mem => items t (same.mem_iff.mp mem)
  rw [keyBracketed items first,keyBracketed also second,Except.ok.injEq,sortedSame,markedPerm items same]

theorem oneOfTwo {κ : Type} [DecidableEq κ] {ks : List κ} (distinct : ks.Nodup) {p q : κ} (first : p ∈ ks) (second : q ∈ ks) :
    (ks.filter (fun k => k = p ∨ k = q)).length = 1 ↔ p = q := by
  have left : p ∈ ks.filter (fun k => k = p ∨ k = q) := List.mem_filter.mpr ⟨first,by simp⟩
  have right : q ∈ ks.filter (fun k => k = p ∨ k = q) := List.mem_filter.mpr ⟨second,by simp⟩
  constructor
  · intro one
    obtain ⟨k,alone⟩ := List.length_eq_one_iff.mp one
    rw [alone,List.mem_singleton] at left right
    rw [left,right]
  · intro same
    subst same
    have only : ∀ k ∈ ks.filter (fun k => k = p ∨ k = p), k = p := by
      intro k mem
      simpa using (List.mem_filter.mp mem).2
    have replicated := List.eq_replicate_of_mem only
    have single := distinct.filter (fun k => decide (k = p ∨ k = p))
    rw [replicated,List.nodup_replicate] at single
    have some := List.length_pos_of_mem left
    omega

theorem combinedMembers {c out : Checkout} (keyed : Keyed c.builds) (done : combineConfigs c = .ok out) {b : Build}
    (mem : b ∈ c.builds) : configKey b ∈ out.builds.map configKey := by
  obtain ⟨newBuilds,rows,spec⟩ := combineConfigsSpec c keyed
  rw [spec] at done
  cases Except.ok.inj done
  have key : keyOf b ∈ (grouped c.builds).keys :=
    (Dict.memKeysPass keyOf pushInto Dict.empty c.builds (keyOf b)).mpr (Or.inr ⟨b,mem,rfl⟩)
  obtain ⟨e,listed,same⟩ := List.mem_map.mp key
  show configKey b ∈ (newBuilds.map combineBuild).map configKey
  rw [combinedKeys rows,keyedKey (keyed b mem),← same]
  exact List.mem_map.mpr ⟨e,listed,rfl⟩

theorem labelSame {all : List Build} {a b : Build} (mem : a ∈ all) (same : keyOf a = keyOf b) :
    (relabel all a).label = (relabel all b).label := by
  obtain ⟨name,named⟩ := nameOfMember mem rfl
  unfold relabel Build.label
  simp only [← same,named]

/-- Two orders of one list of items give one key exactly when they start and end with the same
items. Where no build lacks a kconfig, they give one merged build under the same condition, and one
label. -/
theorem bracketedKeys (xs ys : List Str) (items : ∀ x ∈ xs, IsItem x) (same : ys.Perm xs) (cs : List Checkout)
    (c : Checkout) (checkout : c ∈ cs) (a b : Build) (left : a ∈ c.builds) (right : b ∈ c.builds)
    (first : a.dbInstance.kconfig = .text (bracketed xs)) (second : b.dbInstance.kconfig = .text (bracketed ys)) :
    (configKey a = configKey b ↔ SameEnds xs ys) ∧
    (Keyed c.builds → ∃ out, combineConfigs c = .ok out ∧
      ((out.builds.filter (fun m => configKey m = configKey a ∨ configKey m = configKey b)).length = 1 ↔ SameEnds xs ys)) ∧
    (Keyed (allBuilds cs) → ∃ tally, threadM tallyCheckout Tally.empty cs = .ok (tally,cs.map (relabelCheckout (allBuilds cs))) ∧
      (SameEnds xs ys → (relabel (allBuilds cs) a).label = (relabel (allBuilds cs) b).label)) := by
  have keys := keysBracketed items same first second
  refine ⟨keys,?_,?_⟩
  · intro here
    obtain ⟨out,done⟩ := combineTotal here
    refine ⟨out,done,?_⟩
    have once := oneOfTwo (combineConfigsKeys here done) (combinedMembers here done left) (combinedMembers here done right)
    rw [List.filter_map,List.length_map] at once
    rw [← keys,← once]
    rfl
  · intro keyed
    have inside : ∀ m ∈ c.builds, m ∈ allBuilds cs := fun m mem => List.mem_flatMap.mpr ⟨c,checkout,mem⟩
    obtain ⟨tally,run,_⟩ := tallyCheckouts [] Tallied.empty keyed
    rw [List.nil_append,List.append_nil] at run
    refine ⟨tally,run,?_⟩
    intro agree
    apply labelSame (inside a left)
    have equal := keys.mpr agree
    rw [keyedKey (keyed a (inside a left)),keyedKey (keyed b (inside b right))] at equal
    exact Except.ok.inj equal

def buildOf (name : String) (xs : List Str) : Build := ⟨⟨.text (bracketed xs),name.toList⟩,[],[],none⟩

def options : List Str := ["A=y".toList,"B=y".toList,"C=y".toList,"D=y".toList]

def swapped : List Str := ["A=y".toList,"C=y".toList,"B=y".toList,"D=y".toList]

def rotated : List Str := ["B=y".toList,"C=y".toList,"D=y".toList,"A=y".toList]

def keyedCheckout (other : List Str) : Checkout := ⟨⟨[],0⟩,[buildOf "gcc" options,buildOf "clang" other]⟩

theorem optionsItems : ∀ x ∈ options, IsItem x := by
  have some : ∀ x ∈ options, x ≠ [] := by decide
  have plain : ∀ x ∈ options, x.all (fun c => !Text.isSpace c && c != '[' && c != ']') = true := by decide
  intro x mem
  have each := List.all_eq_true.mp (plain x mem)
  refine ⟨some x mem,?_⟩
  intro c listed
  simpa [and_assoc] using each c listed

theorem swappedKeys : configKey (buildOf "gcc" options) = configKey (buildOf "clang" swapped) ∧
    ∃ out, combineConfigs (keyedCheckout swapped) = .ok out ∧
      (out.builds.filter (fun m => configKey m = configKey (buildOf "gcc" options) ∨ configKey m = configKey (buildOf "clang" swapped))).length = 1 := by
  have keys := bracketedKeys options swapped optionsItems (by decide) [keyedCheckout swapped] (keyedCheckout swapped) (by decide)
    (buildOf "gcc" options) (buildOf "clang" swapped) (by decide) (by decide) rfl rfl
  obtain ⟨out,done,one⟩ := keys.2.1 (by unfold Keyed; decide)
  exact ⟨keys.1.mpr (by decide),out,done,one.mpr (by decide)⟩

theorem rotatedKeysDiffer : rotated.Perm options
    ∧ configKey (buildOf "gcc" options) = .ok ["B=y".toList,"C=y".toList,"D=y]".toList,"[A=y".toList]
    ∧ configKey (buildOf "clang" rotated) = .ok ["A=y]".toList,"C=y".toList,"D=y".toList,"[B=y".toList]
    ∧ (combineConfigs (keyedCheckout rotated)).map (fun out => out.builds.length) = .ok 2
    ∧ (threadM tallyCheckout Tally.empty [keyedCheckout rotated]).map (fun run => run.2.flatMap (fun c => c.builds.map Build.label))
      = .ok ["gcc".toList,"clang".toList] := by
  decide +kernel

end KernelTcp.Analysis

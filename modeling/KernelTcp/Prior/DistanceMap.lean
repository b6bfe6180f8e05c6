import KernelTcp.Prior.AdaptiveRandom
import KernelTcp.Prior.Metrics
import Mathlib.Algebra.Field.Defs

/-! The map of distances between test files. The packages that measure are outside; of the
compressor only that it never yields nothing is known. The file the map is dumped to is left
out, and `files` gives the texts of the paths that exist. -/
namespace KernelTcp.Prior

structure Packages (δ : Type) where
  levenshtein : Str → Str → Nat
  sqrt : Nat → δ
  compress : ByteArray → ByteArray
  compressed : ∀ bytes, 0 < (compress bytes).size

inductive Metric where
  | hanming
  | edit
  | euclidean
  | manhattan
  | normalizedCompression
  deriving DecidableEq, Repr

def Metric.name : Metric → Str
  | hanming => "hanming_distance".toList
  | edit => "edit_distance".toList
  | euclidean => "euclidean_string_distance".toList
  | manhattan => "manhattan_string_distance".toList
  | normalizedCompression => "normalized_compression_distance".toList

def Metric.named (distanceMetric : Str) : Option Metric :=
  [hanming,edit,euclidean,manhattan,normalizedCompression].find? (fun metric => metric.name = distanceMetric)

theorem metricNamed (metric : Metric) : Metric.named metric.name = some metric := by
  cases metric <;> decide

section measure
variable {δ : Type} [Field δ] (packages : Packages δ)

def euclideanStringDistance (s1 s2 : Str) : δ :=
  let padded := pad s1 s2
  let point1 := padded.1.map Char.toNat
  let point2 := padded.2.map Char.toNat
  let squaredDiff := (List.zipWith (fun p1 p2 => apart p1 p2 ^ 2) point1 point2).sum
  packages.sqrt squaredDiff

def encode (s : Str) : ByteArray := (String.ofList s).toUTF8

def normalizedCompressionDistance (sequenceA sequenceB : Str) : Except PyError δ :=
  let sequenceA := encode sequenceA
  let sequenceB := encode sequenceB
  let compressedConcatenated := packages.compress (sequenceA ++ sequenceB)
  let compressedA := packages.compress sequenceA
  let compressedB := packages.compress sequenceB
  if max compressedA.size compressedB.size = 0 then .error .zeroDivisionError
  else .ok ((compressedConcatenated.size - min compressedA.size compressedB.size : δ) / max compressedA.size compressedB.size)

def measure (metric : Metric) (t1Text t2Text : Str) : Except PyError δ :=
  match metric with
  | .hanming => (fun n : Nat => (n : δ)) <$> hanmingDistance t1Text t2Text
  | .edit => .ok (packages.levenshtein t1Text t2Text : δ)
  | .euclidean => .ok (euclideanStringDistance packages t1Text t2Text)
  | .manhattan => (fun n : Nat => (n : δ)) <$> manhattanStringDistance t1Text t2Text
  | .normalizedCompression => normalizedCompressionDistance packages t1Text t2Text

theorem measureDone (metric : Metric) (a b : Str) : ∃ v, measure packages metric a b = .ok v := by
  cases metric with
  | hanming => exact ⟨_,by rw [measure,hanmingValue]; rfl⟩
  | edit => exact ⟨_,rfl⟩
  | euclidean => exact ⟨_,rfl⟩
  | manhattan => exact ⟨_,by rw [measure,manhattanValue]; rfl⟩
  | normalizedCompression =>
    have some := packages.compressed (encode a)
    exact ⟨_,if_neg (by omega)⟩

-- a metric of another name leaves the distance at None
def newDistance (distanceMetric t1Text t2Text : Str) : Except PyError (Option δ) :=
  match Metric.named distanceMetric with
  | none => .ok none
  | some metric => some <$> measure packages metric t1Text t2Text

def distanceStep (files : Str → Option Str) (distanceMetric t1K t1Text : Str) (distanceMap : DistanceMap δ) (t2K : Str) :
    Except PyError (DistanceMap δ) :=
  match files t2K with
  | none => .ok distanceMap
  | some t2Text => do
      let distance ← match stored distanceMap t2K t1K with
        | none => newDistance packages distanceMetric t1Text t2Text
        | some distance => .ok (some distance)
      let tmpDict := (distanceMap.get? t1K).getD Dict.empty
      .ok (distanceMap.set t1K (tmpDict.set t2K distance))

def distanceRow (files : Str → Option Str) (distanceMetric : Str) (testCases : List Str) (distanceMap : DistanceMap δ) (t1K : Str) :
    Except PyError (DistanceMap δ) :=
  match files t1K with
  | none => .ok distanceMap
  | some t1Text => testCases.foldlM (distanceStep packages files distanceMetric t1K t1Text) distanceMap

def getDistanceMap (files : Str → Option Str) (testCases : List Str) (distanceMetric : Str) : Except PyError (DistanceMap δ) :=
  testCases.foldlM (distanceRow packages files distanceMetric testCases) Dict.empty

end measure

section entries
variable {δ : Type}

def entry (distanceMap : DistanceMap δ) (a b : Str) : Option (Option δ) :=
  (distanceMap.get? a).bind (fun row => row.get? b)

def write (distanceMap : DistanceMap δ) (a b : Str) (distance : Option δ) : DistanceMap δ :=
  distanceMap.set a (((distanceMap.get? a).getD Dict.empty).set b distance)

theorem storedEntry (distanceMap : DistanceMap δ) (a b : Str) : stored distanceMap a b = (entry distanceMap a b).join := by
  unfold stored entry
  cases distanceMap.get? a <;> rfl

theorem entryWrite (distanceMap : DistanceMap δ) (a b : Str) (distance : Option δ) (x y : Str) :
    entry (write distanceMap a b distance) x y = if x = a ∧ y = b then some distance else entry distanceMap x y := by
  unfold entry write
  rw [Dict.getSet]
  by_cases row : a = x
  · subst row
    rw [if_pos rfl,Option.bind_some,Dict.getSet]
    by_cases column : b = y
    · simp [column]
    · rw [if_neg column,if_neg (fun here => column here.2.symm)]
      cases distanceMap.get? a <;> rfl
  · rw [if_neg row,if_neg (fun here => row here.1.symm)]

/- Entries for listed paths only, each measured in one of the two orders, and equal to its
mirror image where both are there. -/
structure Mirrored (listed : Str → Prop) (value : Str → Str → δ) (distanceMap : DistanceMap δ) : Prop where
  inside : ∀ {a b : Str} {o : Option δ}, entry distanceMap a b = some o →
    listed a ∧ listed b ∧ ∃ v, o = some v ∧ (v = value a b ∨ v = value b a)
  mirror : ∀ {a b : Str} {o p : Option δ}, entry distanceMap a b = some o → entry distanceMap b a = some p → o = p

variable {listed : Str → Prop} {value : Str → Str → δ} {distanceMap : DistanceMap δ}

theorem mirroredEmpty : Mirrored listed value Dict.empty := by
  constructor
  · intro a b o found
    contradiction
  · intro a b o p found
    contradiction

theorem mirroredWrite (h : Mirrored listed value distanceMap) {a b : Str} (first : listed a) (second : listed b) {v : δ}
    (measured : v = value a b ∨ v = value b a) (agrees : ∀ o, entry distanceMap b a = some o → o = some v) :
    Mirrored listed value (write distanceMap a b (some v)) := by
  constructor
  · intro x y o found
    rw [entryWrite] at found
    split at found
    · rename_i here
      cases Option.some.inj found
      rw [here.1,here.2]
      exact ⟨first,second,v,rfl,measured⟩
    · exact h.inside found
  · intro x y o p left right
    rw [entryWrite] at left right
    split at left
    · rename_i here
      cases Option.some.inj left
      split at right
      · exact Option.some.inj right
      · rw [here.1,here.2] at right
        exact (agrees p right).symm
    · split at right
      · rename_i here
        cases Option.some.inj right
        rw [here.1,here.2] at left
        exact agrees o left
      · exact h.mirror left right

def Grown (before after : DistanceMap δ) : Prop := ∀ a b, (entry before a b).isSome → (entry after a b).isSome

theorem grownRefl (distanceMap : DistanceMap δ) : Grown distanceMap distanceMap := fun _ _ found => found

theorem grownTrans {first second third : DistanceMap δ} (before : Grown first second) (after : Grown second third) : Grown first third :=
  fun a b found => after a b (before a b found)

theorem grownWrite (distanceMap : DistanceMap δ) (a b : Str) (distance : Option δ) :
    Grown distanceMap (write distanceMap a b distance) := by
  intro x y found
  rw [entryWrite]
  split
  · rfl
  · exact found

theorem writtenEntry (distanceMap : DistanceMap δ) (a b : Str) (distance : Option δ) :
    (entry (write distanceMap a b distance) a b).isSome := by
  rw [entryWrite,if_pos ⟨rfl,rfl⟩]
  rfl

end entries

section run
variable {δ : Type} [Field δ] (packages : Packages δ) {files : Str → Option Str} {metric : Metric} {testCases : List Str}
  {distanceMap : DistanceMap δ}

def Existing (files : Str → Option Str) (testCases : List Str) (a : Str) : Prop := a ∈ testCases ∧ (files a).isSome

def between (files : Str → Option Str) (f : Str → Str → δ) (a b : Str) : δ := f ((files a).getD []) ((files b).getD [])

variable {f : Str → Str → δ} (measured : ∀ a b, measure packages metric a b = .ok (f a b))

include measured in
theorem newDistanceMeasured (a b : Str) : newDistance packages metric.name a b = .ok (some (f a b)) := by
  unfold newDistance
  rw [metricNamed]
  simp only [measured]
  rfl

include measured in
theorem stepMirrored (h : Mirrored (Existing files testCases) (between files f) distanceMap) {t1K t1Text t2K : Str}
    (first : t1K ∈ testCases) (text : files t1K = some t1Text) (second : t2K ∈ testCases) :
    ∃ next, distanceStep packages files metric.name t1K t1Text distanceMap t2K = .ok next
      ∧ Mirrored (Existing files testCases) (between files f) next ∧ Grown distanceMap next
      ∧ ((files t2K).isSome → (entry next t1K t2K).isSome) := by
  unfold distanceStep
  cases read : files t2K with
  | none => exact ⟨distanceMap,rfl,h,grownRefl distanceMap,by simp⟩
  | some t2Text =>
    have here : Existing files testCases t1K := ⟨first,by rw [text]; rfl⟩
    have there : Existing files testCases t2K := ⟨second,by rw [read]; rfl⟩
    have known := storedEntry distanceMap t2K t1K
    cases back : stored distanceMap t2K t1K with
    | none =>
      rw [back] at known
      refine ⟨write distanceMap t1K t2K (some (f t1Text t2Text)),?_,?_,grownWrite _ _ _ _,fun _ => writtenEntry _ _ _ _⟩
      · simp only [newDistanceMeasured packages measured,bind,Except.bind]
        rfl
      · apply mirroredWrite h here there (Or.inl (by simp [between,text,read]))
        intro o found
        obtain ⟨_,_,v,rfl,_⟩ := h.inside found
        rw [found] at known
        contradiction
    | some distance =>
      rw [back] at known
      have found : entry distanceMap t2K t1K = some (some distance) := Option.join_eq_some_iff.mp known.symm
      obtain ⟨_,_,v,same,either⟩ := h.inside found
      cases Option.some.inj same
      refine ⟨write distanceMap t1K t2K (some distance),rfl,?_,grownWrite _ _ _ _,fun _ => writtenEntry _ _ _ _⟩
      apply mirroredWrite h here there either.symm
      intro o also
      exact Option.some.inj (also.symm.trans found)

include measured in
theorem rowMirrored (h : Mirrored (Existing files testCases) (between files f) distanceMap) {t1K : Str} (first : t1K ∈ testCases) :
    ∃ next, distanceRow packages files metric.name testCases distanceMap t1K = .ok next
      ∧ Mirrored (Existing files testCases) (between files f) next ∧ Grown distanceMap next
      ∧ ((files t1K).isSome → ∀ t ∈ testCases, (files t).isSome → (entry next t1K t).isSome) := by
  unfold distanceRow
  cases text : files t1K with
  | none => exact ⟨distanceMap,rfl,h,grownRefl distanceMap,by simp⟩
  | some t1Text =>
    have each : ∀ t ∈ testCases, ∀ {m}, Mirrored (Existing files testCases) (between files f) m →
        ∃ next, distanceStep packages files metric.name t1K t1Text m t = .ok next
          ∧ Mirrored (Existing files testCases) (between files f) next ∧ Grown m next
          ∧ ((files t).isSome → (entry next t1K t).isSome) :=
      fun t second _ h => stepMirrored packages measured h first text second
    obtain ⟨next,run,kept,grown,written⟩ := Py.foldlMGrows grownRefl grownTrans
      (fun grown written present => grown t1K _ (written present)) each h
    exact ⟨next,run,kept,grown,fun _ => written⟩

include measured in
theorem rowsMirrored (h : Mirrored (Existing files testCases) (between files f) distanceMap) :
    ∃ next, testCases.foldlM (distanceRow packages files metric.name testCases) distanceMap = .ok next
      ∧ Mirrored (Existing files testCases) (between files f) next ∧ Grown distanceMap next
      ∧ ∀ a ∈ testCases, (files a).isSome → ∀ b ∈ testCases, (files b).isSome → (entry next a b).isSome := by
  have each : ∀ a ∈ testCases, ∀ {m}, Mirrored (Existing files testCases) (between files f) m →
      ∃ next, distanceRow packages files metric.name testCases m a = .ok next
        ∧ Mirrored (Existing files testCases) (between files f) next ∧ Grown m next
        ∧ ((files a).isSome → ∀ b ∈ testCases, (files b).isSome → (entry next a b).isSome) :=
    fun a first _ h => rowMirrored packages measured h first
  exact Py.foldlMGrows grownRefl grownTrans
    (fun grown written present b listed also => grown _ b (written present b listed also)) each h

/-- The map holds a distance for every pair of listed files and for nothing else, the same
one in both directions, so that no look-up between files falls back. -/
theorem distanceMapComplete (files : Str → Option Str) (testCases : List Str) (metric : Metric) :
    ∃ (f : Str → Str → δ) (distances : DistanceMap δ), (∀ a b, measure packages metric a b = .ok (f a b)) ∧
      getDistanceMap packages files testCases metric.name = .ok distances ∧
      (∀ a b, (∃ row, distances.get? a = some row ∧ b ∈ row.keys) ↔
        Existing files testCases a ∧ Existing files testCases b) ∧
      ∀ a b textA textB, a ∈ testCases → b ∈ testCases → files a = some textA → files b = some textB →
        ∃ v, stored distances a b = some v ∧ stored distances b a = some v ∧ (v = f textA textB ∨ v = f textB textA) ∧
          lookedUp distances a b = v := by
  choose f measured using measureDone packages metric
  have start : Mirrored (Existing files testCases) (between files f) Dict.empty := mirroredEmpty
  obtain ⟨distances,run,kept,_,written⟩ := rowsMirrored packages measured start
  refine ⟨f,distances,measured,run,?_,?_⟩
  · intro a b
    have found : (∃ row, distances.get? a = some row ∧ b ∈ row.keys) ↔ (entry distances a b).isSome := by
      unfold entry
      cases distances.get? a with
      | none => simp
      | some row => simp [Dict.memKeys,Option.isSome_iff_exists]
    rw [found,Option.isSome_iff_exists]
    constructor
    · intro h
      obtain ⟨o,here⟩ := h
      obtain ⟨first,second,_⟩ := kept.inside here
      exact ⟨first,second⟩
    · intro h
      exact Option.isSome_iff_exists.mp (written a h.1.1 h.1.2 b h.2.1 h.2.2)
  · intro a b textA textB first second readA readB
    obtain ⟨o,here⟩ := Option.isSome_iff_exists.mp (written a first (by rw [readA]; rfl) b second (by rw [readB]; rfl))
    obtain ⟨p,back⟩ := Option.isSome_iff_exists.mp (written b second (by rw [readB]; rfl) a first (by rw [readA]; rfl))
    cases kept.mirror here back
    obtain ⟨_,_,v,rfl,either⟩ := kept.inside here
    have value : stored distances a b = some v := by rw [storedEntry,here]; rfl
    refine ⟨v,value,by rw [storedEntry,back]; rfl,?_,by rw [lookedUp,value]⟩
    simpa [between,readA,readB] using either

end run

end KernelTcp.Prior

import KernelTcp.Lib.Rendered

/-! Searching a text for a pattern that opens with a fixed text, and the lines of a file. The
leftmost place counts at which the fixed text stands and the rest of the pattern matches. -/
namespace KernelTcp.Text
variable {α : Type}

-- the fixed text is not empty
def search (opening : Str) (rest : Str → Option α) : Str → Option α
  | [] => none
  | c::cs =>
      if opening.isPrefixOf (c::cs) then (rest ((c::cs).drop opening.length)).or (search opening rest cs)
      else search opening rest cs

/- The group `(.*?)` before one closing character; no group goes past the end of its line. -/
def lazyUntil (closing : Char) : Str → Option Str
  | [] => none
  | c::cs =>
      if c = closing then some []
      else if c = '\n' then none
      else (lazyUntil closing cs).map (List.cons c)

/- The lines that iterating over a file gives: every one but the last ends with its newline. -/
def fileLinesFrom : Str → Str → List Str
  | line, [] => if line.isEmpty then [] else [line]
  | line, c::cs => if c = '\n' then (line ++ [c])::fileLinesFrom [] cs else fileLinesFrom (line ++ [c]) cs

def fileLines (text : Str) : List Str := fileLinesFrom [] text

theorem containsInfix {s part : Str} : contains s part = true ↔ part <:+: s := by
  rw [contains,List.any_eq_true,List.infix_iff_prefix_suffix]
  constructor
  · intro h
    obtain ⟨t,listed,begins⟩ := h
    exact ⟨t,List.isPrefixOf_iff_prefix.mp begins,(List.mem_tails t s).mp listed⟩
  · intro h
    obtain ⟨t,begins,ends⟩ := h
    exact ⟨t,(List.mem_tails t s).mpr ends,List.isPrefixOf_iff_prefix.mpr begins⟩

theorem startsApart {line a b : Str} (apart : ¬ a <+: b ∧ ¬ b <+: a) (here : startsWith line a = true) :
    startsWith line b = false := by
  rw [Bool.eq_false_iff]
  intro there
  rcases List.prefix_or_prefix_of_prefix (List.isPrefixOf_iff_prefix.mp here) (List.isPrefixOf_iff_prefix.mp there) with first | second
  · exact apart.1 first
  · exact apart.2 second

section leftmost
variable {opening u v : Str} {rest : Str → Option α}

theorem searchFirst (unbordered : Unbordered opening) (absent : ¬ opening <:+: u) {a : α} (found : rest v = some a) :
    search opening rest (u ++ (opening ++ v)) = some a := by
  induction u with
  | nil =>
    cases opening with
    | nil => simp at absent
    | cons c cs =>
      rw [List.nil_append,List.cons_append,search,if_pos (by simp),← List.cons_append,List.drop_left,found]
      rfl
  | cons d u ih =>
    have here : ¬ opening.isPrefixOf (d::(u ++ (opening ++ v))) = true := by
      intro begins
      exact absent (unborderedInside unbordered v (List.cons_ne_nil d u) (List.isPrefixOf_iff_prefix.mp begins))
    rw [List.cons_append,search,if_neg here]
    exact ih (fun inside => absent (List.infix_cons inside))

theorem searchFinds (some : opening ≠ []) {s : Str} :
    (search opening rest s).isSome = true ↔ ∃ u v, s = u ++ (opening ++ v) ∧ (rest v).isSome = true := by
  induction s with
  | nil => simp [search,some]
  | cons c cs ih =>
    have later : (∃ u v, cs = u ++ (opening ++ v) ∧ (rest v).isSome = true) →
        ∃ u v, c::cs = u ++ (opening ++ v) ∧ (rest v).isSome = true := by
      intro h
      obtain ⟨u,v,split,found⟩ := h
      exact ⟨c::u,v,by rw [split]; rfl,found⟩
    rw [search]
    constructor
    · intro h
      split at h
      · rename_i begins
        obtain ⟨v,split⟩ := List.isPrefixOf_iff_prefix.mp begins
        rw [Option.isSome_or,Bool.or_eq_true,← split,List.drop_left] at h
        rcases h with here | next
        · exact ⟨[],v,split.symm,here⟩
        · exact later (ih.mp next)
      · exact later (ih.mp h)
    · intro h
      obtain ⟨u,v,split,found⟩ := h
      cases u with
      | nil =>
        rw [List.nil_append] at split
        rw [split,if_pos (by simp),List.drop_left,Option.isSome_or,found,Bool.true_or]
      | cons d u =>
        have next := ih.mpr ⟨u,v,(List.cons.inj split).2,found⟩
        split
        · rw [Option.isSome_or,next,Bool.or_true]
        · exact next

theorem searchFrom {s : Str} {a : α} (found : search opening rest s = some a) : ∃ v, rest v = some a := by
  induction s with
  | nil => contradiction
  | cons c cs ih =>
    rw [search] at found
    split at found
    · rcases Option.or_eq_some_iff.mp found with here | next
      · exact ⟨_,here⟩
      · exact ih next.2
    · exact ih found

theorem lazyUntilFirst {closing : Char} (within : closing ∉ u) (line : '\n' ∉ u) : lazyUntil closing (u ++ closing::v) = some u := by
  induction u with
  | nil => simp [lazyUntil]
  | cons c u ih =>
    rw [List.mem_cons,not_or] at within line
    rw [List.cons_append,lazyUntil,if_neg (Ne.symm within.1),if_neg (Ne.symm line.1),ih within.2 line.2]
    rfl

end leftmost

section run
variable {p : Char → Bool}

theorem runEnds {g v : Str} {c : Char} (run : ∀ d ∈ g, p d = true) (stop : p c = false) :
    (g ++ c::v).takeWhile p = g ∧ (g ++ c::v).dropWhile p = c::v := by
  rw [List.takeWhile_append_of_pos run,List.dropWhile_append_of_pos run,List.takeWhile_cons_of_neg (by simp [stop]),
    List.dropWhile_cons_of_neg (by simp [stop]),List.append_nil]
  exact ⟨rfl,rfl⟩

theorem runSplit {s v : Str} {c : Char} (rest : s.dropWhile p = c::v) :
    s = s.takeWhile p ++ c::v ∧ (∀ d ∈ s.takeWhile p, p d = true) ∧ p c = false := by
  refine ⟨?_,fun d listed => List.mem_takeWhile_imp listed,?_⟩
  · rw [← rest,List.takeWhile_append_dropWhile]
  · have ends := List.head?_dropWhile_not p s
    simpa [rest] using ends

theorem runsFromEach {word : Str} (begun : ∀ d ∈ word, p d = true) (s : Str) :
    ∀ w ∈ runsFrom p word s, w ≠ [] ∧ ∀ d ∈ w, p d = true := by
  induction s generalizing word with
  | nil =>
    rw [runsFrom]
    split
    · simp
    · rename_i some
      simpa using ⟨by simpa using some,begun⟩
  | cons c cs ih =>
    rw [runsFrom]
    split
    · rename_i inside
      exact ih (by simpa [or_imp,forall_and] using ⟨begun,inside⟩)
    split
    · exact ih (by simp)
    · rename_i some
      exact List.forall_mem_cons.mpr ⟨⟨by simpa using some,begun⟩,ih (by simp)⟩

end run

theorem splitFromPlain {c : Char} {piece : Str} (plain : c ∉ piece) (s : Str) : ∀ x ∈ splitFrom [c] 0 piece s, c ∉ x := by
  induction s generalizing piece with
  | nil => simpa [splitFrom] using plain
  | cons d s ih =>
    rw [splitFrom]
    split
    · exact List.forall_mem_cons.mpr ⟨plain,ih (by simp)⟩
    · rename_i other
      have apart : c ≠ d := by simpa using other
      exact ih (by simp [plain,apart])

theorem linesPlain (s : Str) : ∀ line ∈ lines s, '\n' ∉ line := splitFromPlain (by simp) s

theorem splitFromAppend (c : Char) (piece s t : Str) :
    splitFrom [c] 0 piece (s ++ c::t) = splitFrom [c] 0 piece s ++ splitOn [c] t := by
  induction s generalizing piece with
  | nil => simp [splitFrom,splitOn]
  | cons d s ih =>
    have same : [c].isPrefixOf (d::(s ++ c::t)) = [c].isPrefixOf (d::s) := rfl
    rw [List.cons_append,splitFrom.eq_def,splitFrom.eq_def [c] 0 piece (d::s)]
    dsimp only
    rw [same]
    split
    · exact congrArg (List.cons piece) (ih [])
    · exact ih _

theorem linesAppend (s t : Str) : lines (s ++ '\n'::t) = lines s ++ lines t := splitFromAppend '\n' [] s t

theorem linesEnded {ls : List Str} (plain : ∀ line ∈ ls, '\n' ∉ line) :
    lines (ls.flatMap (fun line => line ++ ['\n'])) = ls ++ [[]] := by
  induction ls with
  | nil => rfl
  | cons line ls ih =>
    rw [List.forall_mem_cons] at plain
    rw [List.flatMap_cons,List.append_assoc,List.singleton_append,lines,splitOnNext plain.1]
    exact congrArg (List.cons line) (ih plain.2)

theorem splitOnSnoc (c : Char) (s t : Str) : splitOn [c] (s ++ c::t) = splitOn [c] s ++ splitOn [c] t := splitFromAppend c [] s t

theorem splitOnItems {c : Char} {items : List Str} (some : items ≠ []) :
    splitOn [c] (List.intercalate [c] items) = items.flatMap (splitOn [c]) := by
  induction items with
  | nil => contradiction
  | cons item items ih =>
    cases items with
    | nil => simp
    | cons other items =>
      rw [List.intercalate_cons_cons,List.append_assoc,List.singleton_append,splitOnSnoc,ih (by simp)]
      rfl

theorem splitOnPieces {c : Char} {pieces : List Str} (some : pieces ≠ []) (plain : ∀ piece ∈ pieces, c ∉ piece) :
    splitOn [c] (List.intercalate [c] pieces) = pieces := by
  rw [splitOnItems some]
  have whole : pieces.flatMap (splitOn [c]) = pieces.flatMap (fun piece => [piece]) :=
    List.flatMap_congr (fun piece listed => splitOnWhole (plain piece listed))
  rw [whole]
  simp

theorem splitFromOther {c d : Char} {piece : Str} (begun : d ∉ piece) {s : Str} (absent : d ∉ s) :
    ∀ x ∈ splitFrom [c] 0 piece s, d ∉ x := by
  induction s generalizing piece with
  | nil => simpa [splitFrom] using begun
  | cons e s ih =>
    rw [List.mem_cons,not_or] at absent
    rw [splitFrom]
    split
    · exact List.forall_mem_cons.mpr ⟨begun,ih (by simp) absent.2⟩
    · exact ih (by simp [begun,absent.1]) absent.2

theorem splitFromSome (c : Char) (piece s : Str) : splitFrom [c] 0 piece s ≠ [] := by
  induction s generalizing piece with
  | nil => simp [splitFrom]
  | cons e s ih =>
    rw [splitFrom]
    split
    · simp
    · exact ih _

theorem stripInside {c : Char} {s : Str} (listed : c ∈ strip s) : c ∈ s :=
  (List.dropWhile_sublist isSpace).subset (( List.rdropWhile_prefix isSpace _).subset listed)

theorem intercalateWithout {c : Char} {sep : Str} (plain : c ∉ sep) {items : List Str} (others : ∀ item ∈ items, c ∉ item) :
    c ∉ List.intercalate sep items := by
  induction items with
  | nil => simp
  | cons item items ih =>
    rw [List.forall_mem_cons] at others
    cases items with
    | nil => simpa using others.1
    | cons other items =>
      rw [List.intercalate_cons_cons]
      simp only [List.mem_append,not_or]
      exact ⟨⟨others.1,plain⟩,ih others.2⟩

section file
variable {l : Str}

theorem fileLinesPass (plain : '\n' ∉ l) (line t : Str) : fileLinesFrom line (l ++ t) = fileLinesFrom (line ++ l) t := by
  induction l generalizing line with
  | nil => simp
  | cons c l ih =>
    rw [List.mem_cons,not_or] at plain
    rw [List.cons_append,fileLinesFrom,if_neg (Ne.symm plain.1),ih plain.2,List.append_assoc]
    rfl

theorem fileLinesNext (plain : '\n' ∉ l) (t : Str) : fileLines (l ++ '\n'::t) = (l ++ ['\n'])::fileLines t := by
  rw [fileLines,fileLinesPass plain,fileLinesFrom,if_pos rfl]
  rfl

def Follows (tail t : Str) : Prop := tail = '\n'::t ∨ tail = [] ∧ t = []

theorem fileLinesFollows (plain : '\n' ∉ l) (some : l ≠ []) {tail t : Str} (follows : Follows tail t) :
    ∃ ending, (ending = ['\n'] ∨ ending = []) ∧ fileLines (l ++ tail) = (l ++ ending)::fileLines t := by
  rcases follows with next | ⟨stop,last⟩
  · refine ⟨['\n'],Or.inl rfl,?_⟩
    rw [next,fileLinesNext plain]
  · refine ⟨[],Or.inr rfl,?_⟩
    rw [stop,last,fileLines,fileLinesPass plain,fileLinesFrom,if_neg (by simpa using some),List.append_nil]
    rfl

end file
end KernelTcp.Text

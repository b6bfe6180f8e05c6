import KernelTcp.Lib.Text
import Mathlib.Data.List.Infix

/-! Reading back what was written: texts between markers, lines, trimmed texts and decimal
numbers. A marker is a text whose first character does not come back in it, so that no two
of its occurrences overlap. -/
namespace KernelTcp.Text

def Marker (sep : Str) : Prop := ∃ c rest, sep = c::rest ∧ c ∉ rest

section marker
variable {sep u : Str}

/- No end of the text is a beginning of it, so that two occurrences never overlap. -/
def Unbordered (sep : Str) : Prop := ∀ t ∈ sep.tails, t ≠ [] → t <+: sep → t = sep

instance unborderedDecided (sep : Str) : Decidable (Unbordered sep) :=
  inferInstanceAs (Decidable (∀ t ∈ sep.tails, t ≠ [] → t <+: sep → t = sep))

theorem unborderedInside (unbordered : Unbordered sep) (v : Str) (some : u ≠ []) (here : sep <+: u ++ (sep ++ v)) :
    sep <:+: u := by
  rcases Nat.le_total sep.length u.length with short | long
  · exact (List.prefix_of_prefix_length_le here (List.prefix_append u _) short).isInfix
  · obtain ⟨t,split⟩ := List.prefix_of_prefix_length_le (List.prefix_append u (sep ++ v)) here long
    have start : t <+: sep ++ v := by
      rw [← List.prefix_append_right_inj u,split]
      exact here
    have size : t.length ≤ sep.length := by
      rw [← split,List.length_append]
      exact Nat.le_add_left _ _
    have border := List.prefix_of_prefix_length_le start (List.prefix_append sep v) size
    by_cases empty : t = []
    · rw [empty,List.append_nil] at split
      rw [split]
    · have whole := unbordered t ((List.mem_tails t sep).mpr ⟨u,split⟩) empty border
      rw [whole] at split
      exact absurd (List.append_left_eq_self.mp split) some

theorem markerUnbordered (marker : Marker sep) : Unbordered sep := by
  obtain ⟨c,rest,rfl,once⟩ := marker
  intro t ending some begins
  rcases List.suffix_cons_iff.mp ((List.mem_tails t _).mp ending) with whole | inside
  · exact whole
  · obtain ⟨d,t,rfl⟩ := List.exists_cons_of_ne_nil some
    rw [List.cons_prefix_cons] at begins
    exact absurd (inside.subset (begins.1 ▸ List.mem_cons_self)) once

theorem markerInside (marker : Marker sep) (v : Str) (some : u ≠ []) (here : sep <+: u ++ (sep ++ v)) : sep <:+: u :=
  unborderedInside (markerUnbordered marker) v some here

theorem splitSkip (sep passed piece v : Str) : splitFrom sep passed.length piece (passed ++ v) = splitFrom sep 0 piece v := by
  induction passed with
  | nil => rfl
  | cons d passed ih =>
    rw [List.length_cons,List.cons_append,splitFrom]
    exact ih

theorem splitFromMarker (marker : Marker sep) (absent : ¬ sep <:+: u) (piece v : Str) :
    splitFrom sep 0 piece (u ++ (sep ++ v)) = (piece ++ u)::splitOn sep v := by
  induction u generalizing piece with
  | nil =>
    obtain ⟨c,rest,rfl,_⟩ := marker
    rw [List.nil_append,List.cons_append,splitFrom,if_pos (by simp),List.append_nil]
    exact congrArg (List.cons piece) (splitSkip _ rest [] v)
  | cons x u ih =>
    rw [List.infix_cons_iff,not_or] at absent
    have here : ¬ sep.isPrefixOf (x::(u ++ (sep ++ v))) = true := by
      intro found
      rw [List.isPrefixOf_iff_prefix] at found
      have inside := markerInside marker v (List.cons_ne_nil x u) found
      rw [List.infix_cons_iff] at inside
      exact inside.elim absent.1 absent.2
    rw [List.cons_append,splitFrom,if_neg here,ih absent.2,List.append_assoc]
    rfl

theorem splitOnMarker (marker : Marker sep) (absent : ¬ sep <:+: u) (v : Str) :
    splitOn sep (u ++ (sep ++ v)) = u::splitOn sep v := splitFromMarker marker absent [] v

theorem splitFromAbsent (absent : ¬ sep <:+: u) (piece : Str) : splitFrom sep 0 piece u = [piece ++ u] := by
  induction u generalizing piece with
  | nil => simp [splitFrom]
  | cons x u ih =>
    rw [List.infix_cons_iff,not_or] at absent
    have here : ¬ sep.isPrefixOf (x::u) = true := fun found => absent.1 (List.isPrefixOf_iff_prefix.mp found)
    rw [splitFrom,if_neg here,ih absent.2,List.append_assoc]
    rfl

theorem splitOnAbsent (absent : ¬ sep <:+: u) : splitOn sep u = [u] := splitFromAbsent absent []

theorem splitOnJoined (marker : Marker sep) (absent : ¬ sep <:+: u) {xs : List Str} (others : ∀ x ∈ xs, ¬ sep <:+: x) :
    splitOn sep (u ++ xs.flatMap (fun x => sep ++ x)) = u::xs := by
  induction xs generalizing u with
  | nil => rw [List.flatMap_nil,List.append_nil,splitOnAbsent absent]
  | cons x xs ih =>
    rw [List.forall_mem_cons] at others
    rw [List.flatMap_cons,List.append_assoc,splitOnMarker marker absent,ih others.1 others.2]

theorem replaceFirst (marker : Marker sep) (absent : ¬ sep <:+: u) : replace sep [] (sep ++ u) = u := by
  have cut := splitOnMarker marker (u := []) (fun inside => ?_) u
  · rw [List.nil_append,splitOnAbsent absent] at cut
    rw [replace,cut]
    simp
  · obtain ⟨c,rest,rfl,_⟩ := marker
    simp at inside

end marker

section lines
variable {sep u v : Str} {c : Char}

theorem prefixCut (plain : c ∉ sep) (here : sep <+: u ++ c::v) : sep <+: u := by
  rcases Nat.le_total sep.length u.length with short | long
  · exact List.prefix_of_prefix_length_le here (List.prefix_append u _) short
  · obtain ⟨t,rfl⟩ := List.prefix_of_prefix_length_le (List.prefix_append u (c::v)) here long
    cases t with
    | nil =>
      rw [List.append_nil]
    | cons d t =>
      rw [List.prefix_append_right_inj,List.cons_prefix_cons] at here
      rw [here.1] at plain
      simp at plain

theorem infixCut (plain : c ∉ sep) (inside : sep <:+: u ++ c::v) : sep <:+: u ∨ sep <:+: v := by
  induction u with
  | nil =>
    rw [List.nil_append,List.infix_cons_iff] at inside
    rcases inside with here | later
    · exact Or.inl (prefixCut (u := []) plain here).isInfix
    · exact Or.inr later
  | cons x u ih =>
    rw [List.cons_append,List.infix_cons_iff] at inside
    rcases inside with here | later
    · exact Or.inl (prefixCut (u := x::u) plain here).isInfix
    · rcases ih later with left | right
      · exact Or.inl (List.infix_cons left)
      · exact Or.inr right

theorem infixJoined (plain : c ∉ sep) {xs : List Str} (inside : sep <:+: u ++ xs.flatMap (fun x => c::x)) :
    ∃ x ∈ u::xs, sep <:+: x := by
  induction xs generalizing u with
  | nil =>
    rw [List.flatMap_nil,List.append_nil] at inside
    exact ⟨u,by simp,inside⟩
  | cons x xs ih =>
    rw [List.flatMap_cons,List.cons_append] at inside
    rcases infixCut plain inside with here | later
    · exact ⟨u,by simp,here⟩
    · obtain ⟨y,listed,found⟩ := ih later
      exact ⟨y,List.mem_cons_of_mem u listed,found⟩

theorem linesJoined (plain : '\n' ∉ u) {xs : List Str} (others : ∀ x ∈ xs, '\n' ∉ x) :
    lines (u ++ xs.flatMap (fun x => '\n'::x)) = u::xs := by
  have marker : Marker ['\n'] := ⟨'\n',[],rfl,by simp⟩
  refine splitOnJoined marker ?_ ?_
  · rwa [List.singleton_infix_iff]
  · intro x listed
    rw [List.singleton_infix_iff]
    exact others x listed

theorem cutOnce {s t w x : Str} (early : c ∉ w) (late : c ∉ x) (split : w ++ c::x = s ++ c::t) : s = w := by
  rcases List.append_eq_append_iff.mp split with ⟨m,here,rest⟩ | ⟨m,here,rest⟩
  · cases m with
    | nil => rw [here,List.append_nil]
    | cons d m =>
      rw [List.cons_append,List.cons.injEq] at rest
      rw [rest.2] at late
      simp at late
  · cases m with
    | nil => rw [here,List.append_nil]
    | cons d m =>
      rw [List.cons_append,List.cons.injEq] at rest
      rw [here,← rest.1] at early
      simp at early

theorem infixAcross {w x : Str} (early : c ∉ w) (late : c ∉ x) (inside : w ++ c::x <:+: u ++ c::v) :
    w ++ c::x <:+: u ∨ w ++ c::x <:+: v ∨ w <:+ u := by
  rw [List.infix_append_iff] at inside
  rcases inside with left | right | ⟨s,t,split,ends,starts⟩
  · exact Or.inl left
  · rw [List.infix_cons_iff] at right
    rcases right with here | later
    · cases w with
      | nil => exact Or.inr (Or.inr (List.nil_suffix))
      | cons d w =>
        rw [List.cons_append,List.cons_prefix_cons] at here
        rw [here.1] at early
        simp at early
    · exact Or.inr (Or.inl later)
  · cases t with
    | nil =>
      rw [List.append_nil] at split
      rw [split]
      exact Or.inl ends.isInfix
    | cons d t =>
      rw [List.cons_prefix_cons] at starts
      obtain ⟨rfl,_⟩ := starts
      rw [cutOnce early late split] at ends
      exact Or.inr (Or.inr ends)

end lines

section trimmed
variable {s t u v : Str}

def Opens (s : Str) : Prop := ∃ c ∈ s.head?, isSpace c = false

def Closes (s : Str) : Prop := ∃ c ∈ s.getLast?, isSpace c = false

theorem opensAppend (opens : Opens s) : Opens (s ++ t) := by
  obtain ⟨c,first,ink⟩ := opens
  refine ⟨c,?_,ink⟩
  rw [Option.mem_def] at first
  rw [List.head?_append,first]
  rfl

theorem closesAppend (closes : Closes t) : Closes (s ++ t) := by
  obtain ⟨c,last,ink⟩ := closes
  refine ⟨c,?_,ink⟩
  rw [Option.mem_def] at last
  rw [List.getLast?_append,last]
  rfl

theorem stripEnds (some : s ≠ []) (trimmed : strip s = s) : Opens s ∧ Closes s := by
  have short : s.length ≤ (s.dropWhile isSpace).length := by
    conv => lhs; rw [← trimmed]
    exact (List.rdropWhile_prefix isSpace _).length_le
  have whole : s.dropWhile isSpace = s := (List.dropWhile_suffix isSpace).eq_of_length_le short
  rw [strip,whole,List.rdropWhile_eq_self_iff] at trimmed
  rw [List.dropWhile_eq_self_iff] at whole
  refine ⟨⟨s.head some,List.head?_eq_some_head some,?_⟩,⟨s.getLast some,List.getLast?_eq_some_getLast some,?_⟩⟩
  · have ink := whole (List.length_pos_iff.mpr some)
    rw [List.head_eq_getElem]
    simpa using ink
  · simpa using trimmed some

theorem dropOpens {p : Char → Bool} (space : ∀ c, p c = true → isSpace c = true) (opens : Opens s) : s.dropWhile p = s := by
  obtain ⟨c,first,ink⟩ := opens
  obtain ⟨rest,rfl⟩ := List.head?_eq_some_iff.mp first
  have kept : ¬ p c = true := fun here => absurd (space c here) (by rw [ink]; decide)
  rw [List.dropWhile_cons_of_neg kept]

theorem closesReverse (closes : Closes s) : Opens s.reverse := by
  obtain ⟨c,last,ink⟩ := closes
  exact ⟨c,by rwa [List.head?_reverse],ink⟩

theorem stripAround (opens : Opens s) (closes : Closes s) (before : ∀ c ∈ u, isSpace c = true) (after : ∀ c ∈ v, isSpace c = true) :
    strip (u ++ (s ++ v)) = s := by
  rw [strip,List.dropWhile_append_of_pos before,dropOpens (fun _ space => space) (opensAppend opens),List.rdropWhile,List.reverse_append,
    List.dropWhile_append_of_pos (by simpa using after),dropOpens (fun _ space => space) (closesReverse closes),List.reverse_reverse]

theorem stripSelf (opens : Opens s) (closes : Closes s) : strip s = s := by
  have whole := stripAround (u := []) (v := []) opens closes (by simp) (by simp)
  rwa [List.nil_append,List.append_nil] at whole

theorem intStripSelf (opens : Opens s) (closes : Closes s) : intStrip s = s := by
  have space : ∀ c, isIntSpace c = true → isSpace c = true := fun c here => (Bool.and_eq_true_iff.mp here).1
  rw [intStrip,dropOpens space opens,List.rdropWhile,dropOpens space (closesReverse closes),List.reverse_reverse]

end trimmed

def decimal (z : Int) : Str := if z < 0 then '-'::Nat.toDigits 10 z.natAbs else Nat.toDigits 10 z.natAbs

theorem digitsAscii (n : Nat) : ∀ c ∈ Nat.toDigits 10 n, c.isDigit = true :=
  fun _ listed => Nat.isDigit_of_mem_toDigits (by decide) (by decide) listed

theorem decimalChars {z : Int} {c : Char} (listed : c ∈ decimal z) : c = '-' ∨ c.isDigit = true := by
  unfold decimal at listed
  split at listed
  · rw [List.mem_cons] at listed
    exact listed.imp id (digitsAscii _ c)
  · exact Or.inr (digitsAscii _ c listed)

theorem digitValue {c : Char} (ascii : c.isDigit = true) : digit c = some (c.toNat - '0'.toNat) := by
  unfold digit decimalZeros
  rw [List.find?_cons_of_pos]
  · rfl
  · simp only [Char.isDigit,Bool.and_eq_true,decide_eq_true_eq,ge_iff_le,UInt32.le_iff_toNat_le] at ascii ⊢
    exact ⟨ascii.1,Nat.lt_succ_of_le ascii.2⟩

theorem digitsFromDigit {c : Char} {d : Nat} (known : digit c = some d) (value : Nat) (cs : Str) :
    digitsFrom value (c::cs) = digitsFrom (10*value+d) cs := by
  have plain : c ≠ '_' := by
    intro same
    rw [same] at known
    contradiction
  rw [digitsFrom.eq_def]
  split
  · contradiction
  · rename_i here
    exact absurd (List.cons.inj here).1 plain
  · rename_i here
    obtain ⟨rfl,rfl⟩ := List.cons.inj here
    rw [known]
    rfl

theorem digitsFromNext {c : Char} (ascii : c.isDigit = true) (value : Nat) (cs : Str) :
    digitsFrom value (c::cs) = digitsFrom (10*value+(c.toNat - '0'.toNat)) cs := digitsFromDigit (digitValue ascii) value cs

theorem digitsFromValue {cs : Str} (ascii : ∀ c ∈ cs, c.isDigit = true) (value : Nat) :
    digitsFrom value cs = some (Nat.ofDigitChars 10 cs value) := by
  induction cs generalizing value with
  | nil => rfl
  | cons c cs ih =>
    rw [List.forall_mem_cons] at ascii
    rw [digitsFromNext ascii.1,ih ascii.2,Nat.ofDigitChars_cons]

theorem naturalDigits (n : Nat) : natural (Nat.toDigits 10 n) = some n := by
  have ascii := digitsAscii n
  have read := digitsFromValue ascii 0
  rw [Nat.ofDigitChars_toDigits (by decide) (by decide)] at read
  obtain ⟨c,cs,digits⟩ := List.exists_cons_of_ne_nil (Nat.toDigits_ne_nil (b := 10) (n := n))
  rw [digits] at ascii read ⊢
  rw [List.forall_mem_cons] at ascii
  rw [digitsFromNext ascii.1,Nat.mul_zero,Nat.zero_add] at read
  rw [natural,digitValue ascii.1]
  exact read

theorem digitInk {c : Char} (ascii : c.isDigit = true) : isSpace c = false := by
  simp only [Char.isDigit,Bool.and_eq_true,decide_eq_true_eq,ge_iff_le,UInt32.le_iff_toNat_le] at ascii
  have low : 48 ≤ c.toNat := ascii.1
  have high : c.toNat ≤ 57 := ascii.2
  simp only [isSpace,List.contains_eq_mem,decide_eq_false_iff_not,List.mem_cons,List.not_mem_nil,or_false]
  omega

theorem digitsInk {cs : Str} (some : cs ≠ []) (ascii : ∀ c ∈ cs, c.isDigit = true) : Opens cs ∧ Closes cs :=
  ⟨⟨cs.head some,List.head?_eq_some_head some,digitInk (ascii _ (List.head_mem some))⟩,
    ⟨cs.getLast some,List.getLast?_eq_some_getLast some,digitInk (ascii _ (List.getLast_mem some))⟩⟩

theorem intDecimal (z : Int) : int (decimal z) = .ok z := by
  have ascii := digitsAscii z.natAbs
  obtain ⟨opens,closes⟩ := digitsInk Nat.toDigits_ne_nil ascii
  unfold decimal
  split
  · rename_i negative
    have trimmed := intStripSelf (s := '-'::Nat.toDigits 10 z.natAbs) ⟨'-',rfl,by decide⟩ (closesAppend (s := ['-']) closes)
    rw [int,trimmed]
    simp only [naturalDigits]
    have back : -(z.natAbs : Int) = z := by omega
    exact congrArg Except.ok back
  · rename_i positive
    rw [int,intStripSelf opens closes]
    split
    · rename_i cs here
      rw [here] at ascii
      have := ascii '-' (by simp)
      contradiction
    · rename_i cs here
      rw [here] at ascii
      have := ascii '+' (by simp)
      contradiction
    · rw [naturalDigits]
      have back : (z.natAbs : Int) = z := by omega
      exact congrArg Except.ok back

theorem spaceNotDigit {c : Char} (space : isSpace c = true) : digit c = none := by
  have apart : ∀ n ∈ [0x9,0xa,0xb,0xc,0xd,0x1c,0x1d,0x1e,0x1f,0x20,0x85,0xa0,0x1680,0x2000,0x2001,0x2002,0x2003,0x2004,
      0x2005,0x2006,0x2007,0x2008,0x2009,0x200a,0x2028,0x2029,0x202f,0x205f,0x3000],
      decimalZeros.find? (fun z => z ≤ n && n < z+10) = none := by decide
  rw [isSpace,List.contains_iff_mem] at space
  rw [digit,apart _ space]
  rfl

theorem digitsFromDigits {cs : Str} (digits : ∀ c ∈ cs, (digit c).isSome = true) (value : Nat) :
    ∃ n, digitsFrom value cs = some n := by
  induction cs generalizing value with
  | nil => exact ⟨value,rfl⟩
  | cons c cs ih =>
    rw [List.forall_mem_cons] at digits
    obtain ⟨d,known⟩ := Option.isSome_iff_exists.mp digits.1
    rw [digitsFromDigit known]
    exact ih digits.2 _

theorem intDigits {s : Str} (some : s ≠ []) (digits : ∀ c ∈ s, (digit c).isSome = true) : ∃ z, int s = .ok z := by
  have ink : ∀ c ∈ s, isSpace c = false := by
    intro c listed
    rw [Bool.eq_false_iff]
    intro space
    have known := digits c listed
    rw [spaceNotDigit space] at known
    contradiction
  have trimmed := intStripSelf ⟨s.head some,List.head?_eq_some_head some,ink _ (List.head_mem some)⟩
    ⟨s.getLast some,List.getLast?_eq_some_getLast some,ink _ (List.getLast_mem some)⟩
  have read : ∃ n, natural s = .some n := by
    cases s with
    | nil => contradiction
    | cons c cs =>
      rw [List.forall_mem_cons] at digits
      obtain ⟨d,known⟩ := Option.isSome_iff_exists.mp digits.1
      rw [natural,known]
      exact digitsFromDigits digits.2 d
  obtain ⟨n,value⟩ := read
  rw [int,trimmed]
  split
  · exact absurd (digits '-' (by simp)) (by decide)
  · exact absurd (digits '+' (by simp)) (by decide)
  · rw [value]
    exact ⟨n,rfl⟩

end KernelTcp.Text

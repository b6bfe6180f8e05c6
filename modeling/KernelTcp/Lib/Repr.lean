import KernelTcp.Lib.Rendered

/-! The text the language writes for a string and for a list of strings. Which characters past
ASCII are printable is a table of its own and a parameter here. -/
namespace KernelTcp.Text

def isPrintable (unicode : Char → Bool) (c : Char) : Bool :=
  if c.toNat < 128 then 32 ≤ c.toNat && c.toNat < 127 else unicode c

def hex (width n : Nat) : Str := (Nat.toDigits 16 n).leftpad width '0'

def reprChar (unicode : Char → Bool) (quote c : Char) : Str :=
  if c = quote ∨ c = '\\' then ['\\',c]
  else if c = '\t' then "\\t".toList
  else if c = '\n' then "\\n".toList
  else if c = '\r' then "\\r".toList
  else if isPrintable unicode c then [c]
  else if c.toNat < 0x100 then "\\x".toList ++ hex 2 c.toNat
  else if c.toNat < 0x10000 then "\\u".toList ++ hex 4 c.toNat
  else "\\U".toList ++ hex 8 c.toNat

-- double quotes only around a text that has single quotes and no double ones
def reprText (unicode : Char → Bool) (s : Str) : Str :=
  let quote := if '\x27' ∈ s ∧ '\x22' ∉ s then '\x22' else '\x27'
  quote :: s.flatMap (reprChar unicode quote) ++ [quote]

def reprList (unicode : Char → Bool) (texts : List Str) : Str :=
  "[".toList ++ List.intercalate ", ".toList (texts.map (reprText unicode)) ++ "]".toList

section plain
variable {unicode : Char → Bool} {s : Str}

theorem printableLine {c : Char} (printable : isPrintable unicode c = true) : 32 ≤ c.toNat := by
  unfold isPrintable at printable
  split at printable
  · rw [Bool.and_eq_true,decide_eq_true_eq] at printable
    exact printable.1
  · omega

theorem printableNot {c d : Char} (printable : isPrintable unicode c = true) (control : d.toNat < 32) : c ≠ d := by
  intro same
  have := printableLine printable
  rw [same] at this
  omega

structure Plain (unicode : Char → Bool) (s : Str) : Prop where
  printable : ∀ c ∈ s, isPrintable unicode c = true
  single : '\x27' ∉ s
  double : '\x22' ∉ s
  backslash : '\\' ∉ s

theorem Plain.oneLine (plain : Plain unicode s) : OneLine s :=
  ⟨fun listed => printableNot (plain.printable _ listed) (by decide) rfl,
    fun listed => printableNot (plain.printable _ listed) (by decide) rfl⟩

theorem reprCharSelf (plain : Plain unicode s) {c : Char} (listed : c ∈ s) : reprChar unicode '\x27' c = [c] := by
  have printable := plain.printable c listed
  have quote : ¬ (c = '\x27' ∨ c = '\\') := by
    intro special
    rcases special with same | same
    · exact plain.single (same ▸ listed)
    · exact plain.backslash (same ▸ listed)
  rw [reprChar,if_neg quote,if_neg (printableNot printable (by decide)),if_neg (printableNot printable (by decide)),
    if_neg (printableNot printable (by decide)),if_pos printable]

theorem reprPlain (plain : Plain unicode s) : reprText unicode s = '\x27'::(s ++ ['\x27']) := by
  have same : s.flatMap (reprChar unicode '\x27') = s.flatMap (fun c => [c]) :=
    List.flatMap_congr (fun c listed => reprCharSelf plain listed)
  unfold reprText
  rw [if_neg (fun quotes => plain.single quotes.1)]
  dsimp only
  rw [same,List.flatMap_singleton',List.cons_append]

end plain

section occurrence
variable {sep u : Str}

theorem intercalateFlat (sep u : Str) (xs : List Str) : List.intercalate sep (u::xs) = u ++ xs.flatMap (fun x => sep ++ x) := by
  induction xs generalizing u with
  | nil => simp
  | cons x xs ih =>
    rw [List.intercalate_cons_cons,ih,List.flatMap_cons]
    simp

theorem infixQuoted {q : Char} (some : sep ≠ []) (plain : q ∉ sep) (inside : sep <:+: q::(u ++ [q])) : sep <:+: u := by
  rcases infixCut (u := []) plain inside with left | right
  · exact absurd (List.infix_nil.mp left) some
  · rcases infixCut plain right with here | after
    · exact here
    · exact absurd (List.infix_nil.mp after) some

theorem infixWritten {unicode : Char → Bool} {word : Str} (some : word ≠ []) (signs : ',' ∉ word ∧ ' ' ∉ word ∧ '\x27' ∉ word)
    {texts : List Str} (plain : ∀ t ∈ texts, Plain unicode t)
    (inside : word <:+: List.intercalate ", ".toList (texts.map (reprText unicode))) : ∃ t ∈ texts, word <:+: t := by
  cases texts with
  | nil => exact absurd (List.infix_nil.mp inside) some
  | cons first texts =>
    have shape : ∀ rs : List Str, rs.flatMap (fun r => ", ".toList ++ r) = (rs.map (List.cons ' ')).flatMap (List.cons ',') := by
      intro rs
      rw [List.flatMap_map]
      rfl
    rw [List.map_cons,intercalateFlat,shape] at inside
    obtain ⟨x,listed,here⟩ := infixJoined signs.1 inside
    have written : ∃ t ∈ first::texts, word <:+: reprText unicode t := by
      rcases List.mem_cons.mp listed with same | later
      · exact ⟨first,by simp,same ▸ here⟩
      · obtain ⟨r,among,rfl⟩ := List.mem_map.mp later
        obtain ⟨t,mem,rfl⟩ := List.mem_map.mp among
        refine ⟨t,List.mem_cons_of_mem first mem,?_⟩
        rcases infixCut (u := []) signs.2.1 here with left | right
        · exact absurd (List.infix_nil.mp left) some
        · exact right
    obtain ⟨t,mem,found⟩ := written
    rw [reprPlain (plain t mem)] at found
    exact ⟨t,mem,infixQuoted some signs.2.2 found⟩

theorem splitWritten {unicode : Char → Bool} {texts : List Str} (some : texts ≠ [])
    (plain : ∀ t ∈ texts, Plain unicode t ∧ ¬ ", ".toList <:+: t) :
    splitOn ", ".toList (List.intercalate ", ".toList (texts.map (reprText unicode))) = texts.map (reprText unicode) := by
  have marker : Marker ", ".toList := ⟨',',[' '],rfl,by decide⟩
  have whole : ∀ r ∈ texts.map (reprText unicode), ¬ ", ".toList <:+: r := by
    intro r listed inside
    obtain ⟨t,mem,rfl⟩ := List.mem_map.mp listed
    rw [reprPlain (plain t mem).1] at inside
    exact (plain t mem).2 (infixQuoted (by decide) (by decide) inside)
  cases texts with
  | nil => contradiction
  | cons first texts =>
    rw [List.map_cons,List.forall_mem_cons] at whole
    rw [List.map_cons,intercalateFlat,splitOnJoined marker whole.1 whole.2]

end occurrence
end KernelTcp.Text

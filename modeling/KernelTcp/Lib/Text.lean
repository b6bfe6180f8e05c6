import KernelTcp.Lib.Py
import Mathlib.Data.List.DropRight

/-! Text as sequences of code points, with the string operations of the language
that the readers use. Whitespace and decimal digits are the language's own sets. -/
namespace KernelTcp

abbrev Str := List Char

namespace Text

instance memDecided (s : Str) (texts : List Str) : Decidable (s ∈ texts) := inferInstance

def isSpace (c : Char) : Bool :=
  [0x9,0xa,0xb,0xc,0xd,0x1c,0x1d,0x1e,0x1f,0x20,0x85,0xa0,0x1680,0x2000,0x2001,0x2002,0x2003,0x2004,
    0x2005,0x2006,0x2007,0x2008,0x2009,0x200a,0x2028,0x2029,0x202f,0x205f,0x3000].contains c.toNat

def strip (s : Str) : Str := (s.dropWhile isSpace).rdropWhile isSpace

def isBlank (s : Str) : Bool := (strip s).isEmpty

def runsFrom (p : Char → Bool) : Str → Str → List Str
  | run, [] => if run.isEmpty then [] else [run]
  | run, c::cs =>
      if p c then runsFrom p (run ++ [c]) cs
      else if run.isEmpty then runsFrom p [] cs
      else run :: runsFrom p [] cs

def runs (p : Char → Bool) (s : Str) : List Str := runsFrom p [] s

def split (s : Str) : List Str := runs (fun c => !isSpace c) s

/- Cuts at the leftmost occurrences of `sep`; `skip` counts the characters of the
separator still to be passed over. -/
def splitFrom (sep : Str) : Nat → Str → Str → List Str
  | _, piece, [] => [piece]
  | skip+1, piece, _::cs => splitFrom sep skip piece cs
  | 0, piece, c::cs =>
      if sep.isPrefixOf (c::cs) then piece :: splitFrom sep (sep.length-1) [] cs
      else splitFrom sep 0 (piece ++ [c]) cs

def splitOn (sep s : Str) : List Str := splitFrom sep 0 [] s

def splitOnChecked (sep s : Str) : Except PyError (List Str) :=
  if sep.isEmpty then .error .valueError else .ok (splitOn sep s)

def lines (s : Str) : List Str := splitOn ['\n'] s

/- What a file is read as in text mode; the flag says that a carriage return came just before. -/
def textModeFrom : Bool → Str → Str
  | _, [] => []
  | returned, c::cs =>
      if returned && c = '\n' then textModeFrom false cs
      else if c = '\r' then '\n'::textModeFrom true cs
      else c::textModeFrom false cs

def textMode (s : Str) : Str := textModeFrom false s

structure OneLine (s : Str) : Prop where
  newline : '\n' ∉ s
  carriage : '\r' ∉ s

instance (s : Str) : Decidable (OneLine s) := decidable_of_iff ('\n' ∉ s ∧ '\r' ∉ s) ⟨fun h => ⟨h.1,h.2⟩,fun h => ⟨h.newline,h.carriage⟩⟩

theorem OneLine.append {s t : Str} (left : OneLine s) (right : OneLine t) : OneLine (s ++ t) :=
  ⟨fun listed => (List.mem_append.mp listed).elim left.newline right.newline,
    fun listed => (List.mem_append.mp listed).elim left.carriage right.carriage⟩

theorem textModeSame {s : Str} (plain : '\r' ∉ s) : textMode s = s := by
  unfold textMode
  induction s with
  | nil => rfl
  | cons c s ih =>
    rw [List.mem_cons,not_or] at plain
    rw [textModeFrom,Bool.false_and,if_neg (by decide),if_neg (Ne.symm plain.1),ih plain.2]

def replace (old new s : Str) : Str := List.intercalate new (splitOn old s)

def startsWith (s start : Str) : Bool := start.isPrefixOf s

def endsWith (s ending : Str) : Bool := ending.isSuffixOf s

def contains (s part : Str) : Bool := s.tails.any (fun rest => part.isPrefixOf rest)

def removePrefix (s start : Str) : Str := if start.isPrefixOf s then s.drop start.length else s

def afterLast (c : Char) (s : Str) : Nat := s.length - (s.reverse.takeWhile (fun d => d != c)).length

def decimalZeros : List Nat :=
  [0x30,0x660,0x6f0,0x7c0,0x966,0x9e6,0xa66,0xae6,0xb66,0xbe6,0xc66,0xce6,0xd66,0xde6,0xe50,0xed0,0xf20,
    0x1040,0x1090,0x17e0,0x1810,0x1946,0x19d0,0x1a80,0x1a90,0x1b50,0x1bb0,0x1c40,0x1c50,0xa620,0xa8d0,
    0xa900,0xa9d0,0xa9f0,0xaa50,0xabf0,0xff10,0x104a0,0x10d30,0x11066,0x110f0,0x11136,0x111d0,0x112f0,
    0x11450,0x114d0,0x11650,0x116c0,0x11730,0x118e0,0x11950,0x11c50,0x11d50,0x11da0,0x16a60,0x16ac0,
    0x16b50,0x1d7ce,0x1d7d8,0x1d7e2,0x1d7ec,0x1d7f6,0x1e140,0x1e2f0,0x1e950,0x1fbf0]

def digit (c : Char) : Option Nat :=
  (decimalZeros.find? (fun z => z ≤ c.toNat && c.toNat < z+10)).map (fun z => c.toNat - z)

-- a single underscore may stand between two digits
def digitsFrom : Nat → Str → Option Nat
  | value, [] => some value
  | value, '_'::c::cs => (digit c).bind (fun d => digitsFrom (10*value+d) cs)
  | value, c::cs => (digit c).bind (fun d => digitsFrom (10*value+d) cs)

def natural : Str → Option Nat
  | [] => none
  | c::cs => (digit c).bind (fun d => digitsFrom d cs)

-- int() does not take the four separators for whitespace
def isIntSpace (c : Char) : Bool := isSpace c && !(0x1c ≤ c.toNat && c.toNat ≤ 0x1f)

def intStrip (s : Str) : Str := (s.dropWhile isIntSpace).rdropWhile isIntSpace

def int (s : Str) : Except PyError Int :=
  Py.raiseNone .valueError (match intStrip s with
    | '-'::cs => (natural cs).map (fun n => -(n : Int))
    | '+'::cs => (natural cs).map (fun n => (n : Int))
    | cs => (natural cs).map (fun n => (n : Int)))

section cut
variable {c : Char}

theorem splitFromPass {u : Str} (absent : c ∉ u) (piece v : Str) :
    splitFrom [c] 0 piece (u ++ v) = splitFrom [c] 0 (piece ++ u) v := by
  induction u generalizing piece with
  | nil => simp
  | cons d u ih =>
    rw [List.mem_cons,not_or] at absent
    rw [List.cons_append,splitFrom,if_neg (by simp [absent.1]),ih absent.2]
    simp

theorem splitOnNext {u : Str} (absent : c ∉ u) (v : Str) : splitOn [c] (u ++ c::v) = u::splitOn [c] v := by
  unfold splitOn
  rw [splitFromPass absent,splitFrom,if_pos (by simp)]
  rfl

theorem splitOnWhole {u : Str} (absent : c ∉ u) : splitOn [c] u = [u] := by
  have pass := splitFromPass absent [] []
  rw [List.append_nil] at pass
  exact pass

theorem splitOnFirst (s : Str) : (splitOn [c] s)[0]? = some (s.takeWhile (fun d => d != c)) := by
  have absent : c ∉ s.takeWhile (fun d => d != c) := fun mem => by simpa using List.mem_takeWhile_imp mem
  cases rest : s.dropWhile (fun d => d != c) with
  | nil =>
    have whole := List.takeWhile_append_dropWhile (p := fun d => d != c) (l := s)
    rw [rest,List.append_nil] at whole
    rw [whole] at absent ⊢
    rw [splitOnWhole absent]
    rfl
  | cons d v =>
    have stop : d = c := by
      have ends := List.head?_dropWhile_not (fun d => d != c) s
      simpa [rest] using ends
    have whole := List.takeWhile_append_dropWhile (p := fun d => d != c) (l := s)
    rw [rest,stop] at whole
    conv => lhs; rw [← whole,splitOnNext absent]
    rfl

end cut

theorem runsPass {p : Char → Bool} {w : Str} (word : ∀ c ∈ w, p c = true) (run rest : Str) :
    runsFrom p run (w ++ rest) = runsFrom p (run ++ w) rest := by
  induction w generalizing run with
  | nil => simp
  | cons c w ih =>
    rw [List.forall_mem_cons] at word
    rw [List.cons_append,runsFrom,if_pos word.1,ih word.2]
    simp

theorem runsWords {p : Char → Bool} {c : Char} (gap : p c = false) {ws : List Str}
    (words : ∀ w ∈ ws, w ≠ [] ∧ ∀ d ∈ w, p d = true) : runs p (List.intercalate [c] ws) = ws := by
  unfold runs
  induction ws with
  | nil => rfl
  | cons w ws ih =>
    obtain ⟨⟨some,word⟩,rest⟩ := List.forall_mem_cons.mp words
    cases ws with
    | nil =>
      have pass := runsPass word [] []
      rw [List.append_nil,List.nil_append] at pass
      rw [List.intercalate_singleton,pass,runsFrom,if_neg (by simpa using some)]
    | cons v ws =>
      rw [List.intercalate_cons_cons,List.append_assoc,runsPass word,List.nil_append,List.singleton_append,runsFrom,
        if_neg (by simp [gap]),if_neg (by simpa using some),ih rest]

example : int " +1_0\n".toList = .ok 10 := by decide
example : splitOn ": ".toList "a.c: 12".toList = ["a.c".toList,"12".toList] := by decide
example : split " b  a\n".toList = ["b".toList,"a".toList] := by decide

end Text
end KernelTcp

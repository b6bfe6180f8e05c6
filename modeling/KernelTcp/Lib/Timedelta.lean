import Mathlib.Algebra.GroupWithZero.Nat
import KernelTcp.Lib.Rendered

/-! Durations in microseconds, and the text that the language gives them: the days when there
are any, hours, two digits of minutes and of seconds, and six digits when a part of a second is
left. Days are rounded down, so a negative duration has negative days only. -/
namespace KernelTcp.Timedelta
open Text

def padded (width n : Nat) : Str := (Nat.toDigits 10 n).leftpad width '0'

def day : Nat := 86400000000

def inDay (duration : Int) : Nat := (duration % day).toNat

def hours (us : Nat) : Nat := us / 3600000000
def minutes (us : Nat) : Nat := us / 60000000 % 60
def seconds (us : Nat) : Nat := us / 1000000 % 60
def microseconds (us : Nat) : Nat := us % 1000000

def daysText (days : Int) : Str :=
  if days = 0 then []
  else decimal days ++ " day".toList ++ (if days.natAbs = 1 then [] else "s".toList) ++ ", ".toList

def clockText (us : Nat) : Str :=
  Nat.toDigits 10 (hours us) ++ ":".toList ++ padded 2 (minutes us) ++ ":".toList ++ padded 2 (seconds us) ++
    (if microseconds us = 0 then [] else ".".toList ++ padded 6 (microseconds us))

def text (duration : Int) : Str := daysText (duration / day) ++ clockText (inDay duration)

theorem inDayBound (duration : Int) : inDay duration < day := by
  have positive : (0 : Int) < day := by decide
  have low := Int.emod_nonneg duration (Int.ne_of_gt positive)
  have high := Int.emod_lt_of_pos duration positive
  unfold inDay
  omega

theorem clockParts (us : Nat) :
    us = ((hours us * 60 + minutes us) * 60 + seconds us) * 1000000 + microseconds us := by
  unfold hours minutes seconds microseconds
  omega

theorem paddedDigits (width n : Nat) : ∀ c ∈ padded width n, c.isDigit = true := by
  intro c listed
  rw [padded,List.leftpad,List.mem_append] at listed
  cases listed with
  | inl zero =>
    rw [(List.mem_replicate.mp zero).2]
    rfl
  | inr listed => exact digitsAscii n c listed

theorem paddedSome (width n : Nat) : padded width n ≠ [] := by
  unfold padded List.leftpad
  exact List.append_ne_nil_of_right_ne_nil _ Nat.toDigits_ne_nil

theorem paddedLength {width n : Nat} (some : 0 < width) (fits : n < 10^width) : (padded width n).length = width := by
  have short := (Nat.length_toDigits_le_iff (by decide) some).mpr fits
  rw [padded,List.length_leftpad]
  exact Nat.max_eq_left short

theorem paddedValue (width n init : Nat) : Nat.ofDigitChars 10 (padded width n) init =
    10^(padded width n).length * init + n := by
  have zeros : Nat.ofDigitChars 10 (padded width n) 0 = n := by
    rw [padded,List.leftpad,Nat.ofDigitChars_append,Nat.ofDigitChars_replicate_zero,Nat.mul_zero,
      Nat.ofDigitChars_toDigits (by decide) (by decide)]
  rw [Nat.ofDigitChars_eq_ofDigitChars_zero,zeros]

theorem intAscii {s : Str} (some : s ≠ []) (ascii : ∀ c ∈ s, c.isDigit = true) :
    int s = .ok (Nat.ofDigitChars 10 s 0 : Nat) := by
  obtain ⟨opens,closes⟩ := digitsInk some ascii
  have read : natural s = .some (Nat.ofDigitChars 10 s 0) := by
    obtain ⟨c,cs,rfl⟩ := List.exists_cons_of_ne_nil some
    have whole := digitsFromValue ascii 0
    rw [List.forall_mem_cons] at ascii
    rw [digitsFromNext ascii.1,Nat.mul_zero,Nat.zero_add] at whole
    rw [natural,digitValue ascii.1]
    exact whole
  rw [int,intStripSelf opens closes]
  split
  · exact absurd (ascii '-' (by simp)) (by decide)
  · exact absurd (ascii '+' (by simp)) (by decide)
  · rw [read]
    rfl

theorem intDigitsOf (n : Nat) : int (Nat.toDigits 10 n) = .ok (n : Int) := by
  rw [intAscii Nat.toDigits_ne_nil (digitsAscii n),Nat.ofDigitChars_toDigits (by decide) (by decide)]

theorem intPadded (width n : Nat) : int (padded width n) = .ok (n : Int) := by
  rw [intAscii (paddedSome width n) (paddedDigits width n),paddedValue,Nat.mul_zero,Nat.zero_add]

theorem intPaddedPair (w v a b : Nat) : int (padded w a ++ padded v b) = .ok ((10^(padded v b).length * a + b : Nat) : Int) := by
  have ascii : ∀ c ∈ padded w a ++ padded v b, c.isDigit = true := by
    intro c listed
    exact (List.mem_append.mp listed).elim (paddedDigits w a c) (paddedDigits v b c)
  rw [intAscii (List.append_ne_nil_of_left_ne_nil (paddedSome w a) _) ascii,Nat.ofDigitChars_append,paddedValue,paddedValue,
    Nat.mul_zero,Nat.zero_add]

theorem textChars {duration : Int} {c : Char} (listed : c ∈ text duration) : c.isDigit = true ∨ c ∈ "- days,:.".toList := by
  have literal : ∀ {piece : Str}, c ∈ piece → piece.all (fun d => "- days,:.".toList.contains d) = true → c ∈ "- days,:.".toList := by
    intro piece inside only
    have found := List.all_eq_true.mp only c inside
    rwa [List.contains_iff_mem] at found
  rw [text,List.mem_append] at listed
  cases listed with
  | inl listed =>
    unfold daysText at listed
    split at listed
    · contradiction
    simp only [List.mem_append] at listed
    obtain ((number | word) | plural) | comma := listed
    · cases decimalChars number with
      | inl minus => exact Or.inr (minus ▸ by decide)
      | inr digit => exact Or.inl digit
    · exact Or.inr (literal word (by decide))
    · split at plural
      · contradiction
      · exact Or.inr (literal plural (by decide))
    · exact Or.inr (literal comma (by decide))
  | inr listed =>
    unfold clockText at listed
    simp only [List.mem_append] at listed
    obtain ((((hour | colon) | minute) | colon) | second) | part := listed
    · exact Or.inl (digitsAscii _ c hour)
    · exact Or.inr (literal colon (by decide))
    · exact Or.inl (paddedDigits _ _ c minute)
    · exact Or.inr (literal colon (by decide))
    · exact Or.inl (paddedDigits _ _ c second)
    · split at part
      · contradiction
      · cases List.mem_append.mp part with
        | inl dot => exact Or.inr (literal dot (by decide))
        | inr digit => exact Or.inl (paddedDigits _ _ c digit)

end KernelTcp.Timedelta

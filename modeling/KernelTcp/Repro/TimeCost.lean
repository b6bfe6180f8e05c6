import KernelTcp.Repro.Execute
import KernelTcp.Ltp.Blocks
import KernelTcp.Ltp.Selftest
import Mathlib.Tactic.NormNum
import Mathlib.Tactic.Ring

/-! The time that an attempt writes behind the output of its test, and what the readers of the
saved logs make of it. -/
namespace KernelTcp.Repro
open Text Ltp Timedelta

/- A duration is read when its text has neither days nor a whole number of seconds. -/
def Legible (costTime : Int) : Prop := costTime / day = 0 ∧ microseconds (inDay costTime) ≠ 0

instance (costTime : Int) : Decidable (Legible costTime) := by unfold Legible; infer_instance

def costRead (costTime : Int) (totalCost : ℚ) : ℚ := if Legible costTime then costTime / 1000000 else totalCost

def costText (costTime : Int) : Str := "Time cost: ".toList ++ (Timedelta.text costTime ++ ['s'])

section Clock

theorem asciiDecimal {c : Char} (ascii : c.isDigit = true) : isDecimal c = true := by
  rw [isDecimal,digitValue ascii]
  rfl

theorem digitsThenReads {closing : Char → Bool} {ds v : Str} {c : Char} (some : ds ≠ []) (ascii : ∀ d ∈ ds, d.isDigit = true)
    (stop : isDecimal c = false) : digitsThen closing (ds ++ c::v) = if closing c then .some (ds,v) else none := by
  obtain ⟨taken,left⟩ := runEnds (v := v) (fun d listed => asciiDecimal (ascii d listed)) stop
  unfold digitsThen
  rw [left,taken]
  simp [some]

theorem clockFraction (us : Nat) (part : microseconds us ≠ 0) : clock (clockText us ++ ['s']) =
    some (Nat.toDigits 10 (hours us),padded 2 (minutes us),padded 2 (seconds us),padded 6 (microseconds us)) := by
  have text : clockText us ++ ['s'] = Nat.toDigits 10 (hours us) ++ ':'::(padded 2 (minutes us) ++
      ':'::(padded 2 (seconds us) ++ '.'::(padded 6 (microseconds us) ++ ['s']))) := by
    unfold clockText
    rw [if_neg part]
    simp
  unfold clock
  rw [text,digitsThenReads Nat.toDigits_ne_nil (digitsAscii _) (by decide)]
  simp only [beq_self_eq_true,if_true,bind,Option.bind]
  rw [digitsThenReads (paddedSome _ _) (paddedDigits _ _) (by decide)]
  simp only [beq_self_eq_true,if_true]
  rw [digitsThenReads (paddedSome _ _) (paddedDigits _ _) (by decide)]
  simp only [beq_self_eq_true,if_true]
  rw [digitsThenReads (paddedSome _ _) (paddedDigits _ _) (by decide)]
  simp only [beq_self_eq_true,if_true]

theorem clockWhole (us : Nat) (whole : microseconds us = 0) : clock (clockText us ++ ['s']) = none := by
  have text : clockText us ++ ['s'] = Nat.toDigits 10 (hours us) ++ ':'::(padded 2 (minutes us) ++
      ':'::(padded 2 (seconds us) ++ 's'::[])) := by
    unfold clockText
    rw [if_pos whole]
    simp
  unfold clock
  rw [text,digitsThenReads Nat.toDigits_ne_nil (digitsAscii _) (by decide)]
  simp only [beq_self_eq_true,if_true,bind,Option.bind]
  rw [digitsThenReads (paddedSome _ _) (paddedDigits _ _) (by decide)]
  simp only [beq_self_eq_true,if_true]
  rw [digitsThenReads (paddedSome _ _) (paddedDigits _ _) (by decide)]
  rfl

theorem clockDays {days : Int} (some : days ≠ 0) (rest : Str) : clock (daysText days ++ rest) = none := by
  have first : digitsThen (fun c => c == ':') (daysText days ++ rest) = none := by
    rw [daysText,if_neg some,decimal]
    split
    · rfl
    · simp only [List.append_assoc]
      exact digitsThenReads Nat.toDigits_ne_nil (digitsAscii _) (by decide)
  unfold clock
  rw [first]
  rfl

theorem clockReads (costTime : Int) : clock (Timedelta.text costTime ++ ['s']) =
    if Legible costTime then some (Nat.toDigits 10 (hours (inDay costTime)),padded 2 (minutes (inDay costTime)),
      padded 2 (seconds (inDay costTime)),padded 6 (microseconds (inDay costTime))) else none := by
  unfold Timedelta.text
  by_cases days : costTime / day = 0
  · rw [daysText,if_pos days,List.nil_append]
    by_cases part : microseconds (inDay costTime) = 0
    · rw [clockWhole _ part,if_neg (fun legible => legible.2 part)]
    · rw [clockFraction _ part,if_pos ⟨days,part⟩]
  · rw [List.append_assoc,clockDays days,if_neg (fun legible => days legible.1)]

theorem durationAvoids {c : Char} (digit : c.isDigit = false) (other : c ∉ "- days,:.".toList) (costTime : Int) :
    c ∉ Timedelta.text costTime := by
  intro listed
  cases textChars listed with
  | inl is =>
    rw [digit] at is
    contradiction
  | inr is => exact other is

-- the pattern opens with the only capital letter of the line
theorem costSearch (costTime : Int) : search "Time cost: ".toList clock (costText costTime) = clock (Timedelta.text costTime ++ ['s']) := by
  cases found : clock (Timedelta.text costTime ++ ['s']) with
  | some time => exact searchFirst (u := []) (by decide) (by decide) found
  | none =>
    rw [← Option.not_isSome_iff_eq_none,searchFinds (by decide)]
    intro h
    obtain ⟨u,v,split,here⟩ := h
    cases u with
    | nil =>
      have same : Timedelta.text costTime ++ ['s'] = v := List.append_cancel_left split
      rw [← same,found] at here
      contradiction
    | cons d u =>
      have tail : "ime cost: ".toList ++ (Timedelta.text costTime ++ ['s']) = u ++ ("Time cost: ".toList ++ v) := (List.cons.inj split).2
      have capital : 'T' ∈ "ime cost: ".toList ++ (Timedelta.text costTime ++ ['s']) := by rw [tail]; simp
      simp only [List.mem_append] at capital
      obtain early | duration | last := capital
      · exact absurd early (by decide)
      · exact absurd duration (durationAvoids (by decide) (by decide) costTime)
      · exact absurd last (by decide)

end Clock

section Value
variable {limit : Option Nat}

theorem legibleParts {costTime : Int} (legible : Legible costTime) : costTime = (inDay costTime : Int) := by
  have split := Int.mul_ediv_add_emod costTime day
  have low := Int.emod_nonneg costTime (show (day : Int) ≠ 0 by decide)
  rw [legible.1] at split
  unfold inDay
  omega

theorem shortConverts (limits : ∀ most ∈ limit, 640 ≤ most) {digits : Str} (short : digits.length ≤ 2) :
    convert limit digits = int digits := by
  unfold convert
  cases limit with
  | none => rfl
  | some most =>
    have enough := limits most rfl
    exact if_neg (by simp; omega)

theorem powerGap {p : Int} (positive : 0 < p) : 100000 < p * 2^54 - p := by omega

theorem floatLimitLarge : (100000 : Int) < floatLimit := by
  have power : (2 : Int)^(970+54) = 2^970 * 2^54 := pow_add 2 970 54
  have split : floatLimit = 2^(970+54) - 2^970 := rfl
  rw [split,power]
  exact powerGap (Int.pow_pos (by decide))

theorem fractionReads (seconds : Nat) {us : Nat} (part : us < 10^6) : decimalFraction (padded 2 seconds) (padded 6 us) =
    .ok (((10^6 * seconds + us : Nat) : Int) / 10^6) := by
  rw [decimalFraction,intPaddedPair,paddedLength (by decide) part]
  rfl

theorem hourReads (limits : ∀ most ∈ limit, 640 ≤ most) {h : Nat} (fits : h < 24) :
    convert limit (Nat.toDigits 10 h) = .ok (h : Int) := by
  rw [shortConverts limits ((Nat.length_toDigits_le_iff (by decide) (by decide)).mpr (by omega)),intDigitsOf]

theorem minuteReads (limits : ∀ most ∈ limit, 640 ≤ most) {m : Nat} (fits : m < 60) :
    convert limit (padded 2 m) = .ok (m : Int) := by
  rw [shortConverts limits (Nat.le_of_eq (paddedLength (by decide) (by omega))),intPadded]

theorem timeReads (limits : ∀ most ∈ limit, 640 ≤ most) {h m s us : Nat} (hour : h < 24) (minute : m < 60) (part : us < 10^6) :
    timeCost limit (Nat.toDigits 10 h) (padded 2 m) (padded 2 s) (padded 6 us) =
      .ok (((h * 3600 + m * 60 : Int) : ℚ) + ((10^6 * s + us : Nat) : Int) / 10^6) := by
  have range : (h : Int) * 3600 + (m : Int) * 60 < floatLimit := Int.lt_trans (by omega) floatLimitLarge
  exact Py.bindOk.mpr ⟨_,hourReads limits hour,Py.bindOk.mpr ⟨_,minuteReads limits minute,
    Py.bindOk.mpr ⟨_,fractionReads s part,if_pos range⟩⟩⟩

theorem timeValue (h m s us : Nat) : ((h * 3600 + m * 60 : Int) : ℚ) + ((10^6 * s + us : Nat) : Int) / 10^6 =
    ((((h * 60 + m) * 60 + s) * 1000000 + us : Nat) : Int) / 1000000 := by
  push_cast
  ring

theorem costReads (limits : ∀ most ∈ limit, 640 ≤ most) {costTime : Int} (legible : Legible costTime) :
    timeCost limit (Nat.toDigits 10 (hours (inDay costTime))) (padded 2 (minutes (inDay costTime)))
      (padded 2 (seconds (inDay costTime))) (padded 6 (microseconds (inDay costTime))) = .ok (costTime / 1000000) := by
  have bound := inDayBound costTime
  have hour : hours (inDay costTime) < 24 := by unfold hours day at *; omega
  have minute : minutes (inDay costTime) < 60 := Nat.mod_lt _ (by decide)
  have part : microseconds (inDay costTime) < 10^6 := Nat.mod_lt _ (by decide)
  rw [timeReads limits hour minute part,timeValue,← clockParts,← legibleParts legible]

theorem costOfText (limits : ∀ most ∈ limit, 640 ≤ most) (costTime : Int) (totalCost : ℚ) :
    costOf limit (costText costTime) totalCost = .ok (costRead costTime totalCost) := by
  unfold costOf costRead
  rw [costSearch,clockReads]
  by_cases legible : Legible costTime
  · rw [if_pos legible,if_pos legible]
    exact costReads limits legible
  · rw [if_neg legible,if_neg legible]

end Value

section Readers
variable {limit : Option Nat}

theorem costLines (output : Str) (costTime : Int) : lines (output ++ costLine costTime) = lines output ++ [costText costTime,[]] := by
  have line : costLine costTime = '\n'::(costText costTime ++ '\n'::[]) := by
    unfold costLine costText
    simp
  have plain : '\n' ∉ costText costTime := by
    unfold costText
    simp only [List.mem_append,not_or]
    exact ⟨by decide,durationAvoids (by decide) (by decide) costTime,by decide⟩
  rw [line,linesAppend,lines,lines,splitOnNext plain]
  rfl

theorem costTranslated (costTime : Int) : '\r' ∉ costLine costTime := by
  unfold costLine
  simp only [List.mem_append,not_or]
  exact ⟨⟨by decide,durationAvoids (by decide) (by decide) costTime⟩,by decide⟩

theorem readTimeText (limits : ∀ most ∈ limit, 640 ≤ most) (costTime : Int) (s : Scan) :
    readTime limit s (costText costTime) = .ok { s with totalCost := costRead costTime s.totalCost } := by
  have read := costOfText limits costTime s.totalCost
  unfold readTime
  unfold costOf at read
  split
  · rename_i none
    rw [none] at read
    rw [← Except.ok.inj read]
  · rename_i found
    rw [found] at read
    exact Py.bindOk.mpr ⟨_,read,rfl⟩

theorem extendedTotal (before : List Str) (s : Scan) (line : Str) : (extended before s line).totalCost = s.totalCost := by
  unfold extended
  split
  · rfl
  · rfl

theorem costPlain (costTime : Int) : plainLine (costText costTime) = true := by
  have noStart : isStart (costText costTime) = false := rfl
  have noEnd : isEnd (costText costTime) = false := rfl
  exact plainIff.mpr ⟨noStart,noEnd⟩

theorem scanCost (limits : ∀ most ∈ limit, 640 ≤ most) (costTime : Int) {before : List Str} {s : Scan} (scanned : Scanned before s) :
    ∃ next, [costText costTime,[]].foldlM (scanLine limit) s = .ok next ∧ next.subBlocks = s.subBlocks ∧
      next.totalCost = costRead costTime s.totalCost := by
  have time : startsWith (costText costTime) "Time cost".toList = true := rfl
  have first : scanLine limit s (costText costTime) =
      .ok { extended before s (costText costTime) with totalCost := costRead costTime s.totalCost } := by
    rw [scanPlain scanned (costPlain costTime),if_pos time,readTimeText limits,extendedTotal]
  have kept := extendedPlain scanned (costPlain costTime)
  generalize between : extended before s (costText costTime) = middle at first kept
  have last : scanLine limit { middle with totalCost := costRead costTime s.totalCost } [] = _ :=
    scanPlain ⟨kept.reading,kept.content⟩ rfl
  refine ⟨_,Py.bindOk.mpr ⟨_,first,Py.bindOk.mpr ⟨_,last,rfl⟩⟩,?_,?_⟩
  · rw [extendedBlocks,← between,extendedBlocks]
  · rw [extendedTotal]

theorem ltpReads (limits : ∀ most ∈ limit, 640 ≤ most) (t : TCResult) (output : Str) (costTime : Int) :
    t.parseLtpLog limit (output ++ costLine costTime) = (do
      let r ← t.parseLtpLog limit output
      .ok ⟨r.items,costRead costTime r.totalCost⟩) := by
  unfold TCResult.parseLtpLog
  rw [costLines,List.foldlM_append]
  cases run : (lines output).foldlM (scanLine limit) ⟨[],false,none,t.totalCost⟩ with
  | error e => rfl
  | ok s =>
    obtain ⟨next,rest,blocks,cost⟩ := scanCost limits costTime (scanRun run).1
    simp only [bind,Except.bind] at rest ⊢
    rw [rest]
    simp only
    rw [blocks,cost]
    cases s.subBlocks.mapM (createSubResult limit) with
    | error e => rfl
    | ok items => rfl

theorem selftestReads (limits : ∀ most ∈ limit, 640 ≤ most) (totalCost : ℚ) (output : Str) (costTime : Int) :
    parseSelftestLog limit totalCost (output ++ costLine costTime) = (do
      let s ← parseSelftestLog limit totalCost output
      .ok ⟨s.result,costRead costTime s.totalCost⟩) := by
  unfold parseSelftestLog
  rw [costLines,List.foldlM_append]
  cases (lines output).foldlM (selfLine limit) ⟨.new,totalCost⟩ with
  | error e => rfl
  | ok s =>
    have noTotals : isTotals (costText costTime) = false := rfl
    have time : isTime (costText costTime) = true := rfl
    have noVerdict := timeNotVerdict time
    have first : selfLine limit s (costText costTime) = .ok ⟨s.result,costRead costTime s.totalCost⟩ := by
      refine selfLineSpec.mpr ⟨fun totals => absurd totals (by rw [noTotals]; decide),?_,?_⟩
      · unfold added
        rw [noTotals,noVerdict]
        rfl
      · unfold costAfter
        rw [if_pos time]
        exact costOfText limits costTime s.totalCost
    show [costText costTime,[]].foldlM (selfLine limit) s = .ok ⟨s.result,costRead costTime s.totalCost⟩
    exact readBindOk.mpr ⟨_,first,rfl⟩

theorem createReads (limits : ∀ most ∈ limit, 640 ≤ most) (tcName tcType output : Str) (costTime : Int) :
    create limit tcName tcType (output ++ costLine costTime) = (do
      let r ← create limit tcName tcType output
      .ok { r with totalCost := costRead costTime r.totalCost }) := by
  unfold create parseLog
  split
  · rw [ltpReads limits]
    cases TCResult.parseLtpLog limit ⟨[],-1⟩ output with
    | error e => rfl
    | ok t => rfl
  split
  · rw [selftestReads limits]
    cases parseSelftestLog limit (-1) output with
    | error e => rfl
    | ok s => rfl
  · rfl

end Readers

def printed (res : CompletedProcess) : Str := if res.returncode = 0 then res.stdout else res.stdout ++ res.stderr

def savedTo (site : Site) (name : Str) (res : CompletedProcess) : Str :=
  if res.returncode = 124 then errFile site name else resultFile site name

theorem saveResultWrites (site : Site) (name : Str) (res : CompletedProcess) (costTime : Int) (fs : Files) :
    saveResult site name res costTime fs = fs.put (savedTo site name res) (.file (printed res ++ costLine costTime)) := by
  unfold saveResult savedTo printed
  by_cases passed : res.returncode = 0
  · simp [passed]
  · by_cases late : res.returncode = 124
    · simp [late]
    · simp [passed,late]

def failedRun : CompletedProcess := ⟨1,"<<<test_start>>>\nopen01: TFAIL\n<<<test_end>>>\n".toList,"closed\n".toList⟩

-- the time of a test that takes exactly two seconds is lost
example : ¬ Legible 2000000 := by decide

end KernelTcp.Repro

import KernelTcp.Ltp.Result

/-! When a block and a time of the log can be read. Whether a line fails depends on the line
alone, never on what was read before it. -/
namespace KernelTcp.Ltp
open Text

section pieces
variable {s : Str}

theorem spaceNotDecimal {c : Char} (space : isSpace c = true) : isDecimal c = false := by
  rw [isDecimal,spaceNotDigit space]
  rfl

structure Numeral (ds : Str) : Prop where
  some : ds ≠ []
  digits : ∀ d ∈ ds, isDecimal d = true

theorem digitsThenFinds {closing : Char → Bool} (stops : ∀ c, closing c = true → isDecimal c = false) :
    (digitsThen closing s).isSome = true ↔
      ∃ ds c v, s = ds ++ c::v ∧ ds ≠ [] ∧ (∀ d ∈ ds, isDecimal d = true) ∧ closing c = true := by
  constructor
  · intro h
    unfold digitsThen at h
    split at h
    · rename_i c v rest
      obtain ⟨split,run,_⟩ := runSplit rest
      split at h
      · rename_i both
        exact ⟨_,c,v,split,both.1,run,both.2⟩
      · contradiction
    · contradiction
  · intro h
    obtain ⟨ds,c,v,rfl,some,run,closes⟩ := h
    obtain ⟨taken,left⟩ := runEnds (v := v) run (stops c closes)
    unfold digitsThen
    rw [left,taken]
    simp [some,closes]

theorem digitsThenDigits {closing : Char → Bool} {ds v : Str} (found : digitsThen closing s = some (ds,v)) : Numeral ds := by
  unfold digitsThen at found
  split at found
  · split at found
    · rename_i both
      cases Option.some.inj found
      exact ⟨both.1,fun d listed => List.mem_takeWhile_imp listed⟩
    · contradiction
  · contradiction

theorem quotedFinds : (quoted s).isSome = true ↔ ∃ g v, s = g ++ '\x22'::v ∧ g ≠ [] ∧ '\x22' ∉ g := by
  constructor
  · intro h
    unfold quoted at h
    split at h
    · rename_i both
      obtain ⟨c,v,rest⟩ := List.exists_cons_of_ne_nil both.2
      obtain ⟨split,run,stop⟩ := runSplit rest
      have same : c = '\x22' := by simpa using stop
      rw [same] at split
      refine ⟨_,v,split,both.1,?_⟩
      intro listed
      simpa using run _ listed
    · contradiction
  · intro h
    obtain ⟨g,v,rfl,some,absent⟩ := h
    have run : ∀ d ∈ g, (d != '\x22') = true := by
      intro d listed
      rw [bne_iff_ne]
      exact fun same => absent (same ▸ listed)
    obtain ⟨taken,left⟩ := runEnds (p := fun c => c != '\x22') (v := v) run (by decide : ('\x22' != '\x22') = false)
    unfold quoted
    rw [taken,left,if_pos ⟨some,List.cons_ne_nil _ _⟩]
    rfl

theorem spacedDigitsRun {digits : Str} (found : spacedDigits s = some digits) : Numeral digits := by
  unfold spacedDigits at found
  dsimp only at found
  split at found
  · rename_i both
    cases Option.some.inj found
    exact ⟨both.2,fun d listed => List.mem_takeWhile_imp listed⟩
  · contradiction

theorem summaryDigits {line digits : Str} (found : summary line = some digits) : Numeral digits := by
  obtain ⟨word,_,here⟩ := List.exists_of_findSome?_eq_some found
  split at here
  · exact spacedDigitsRun here
  · contradiction

theorem clockDigits {hours minutes whole fraction : Str} (found : clock s = some (hours,minutes,whole,fraction)) :
    ∀ ds ∈ [hours,minutes,whole,fraction], Numeral ds := by
  simp only [clock,bind,Option.bind_eq_some_iff] at found
  obtain ⟨⟨h,s1⟩,first,⟨m,s2⟩,second,⟨w,s3⟩,third,⟨f,s4⟩,fourth,same⟩ := found
  cases Option.some.inj same
  intro ds listed
  simp only [List.mem_cons,List.not_mem_nil,or_false] at listed
  rcases listed with rfl | rfl | rfl | rfl
  · exact digitsThenDigits first
  · exact digitsThenDigits second
  · exact digitsThenDigits third
  · exact digitsThenDigits fourth

end pieces

section numbers
variable {limit : Option Nat} {digits : Str}

def Converts (limit : Option Nat) (digits : Str) : Prop := ∀ most ∈ limit, digits.length ≤ most

theorem convertOk (numeral : Numeral digits) :
    (∃ z, convert limit digits = .ok z) ↔ Converts limit digits := by
  unfold convert Converts
  cases limit with
  | none => simpa using intDigits numeral.some numeral.digits
  | some most =>
    by_cases long : most < digits.length
    · simp [long]
    · simpa [long,Nat.le_of_not_lt long] using intDigits numeral.some numeral.digits

theorem convertInt {z : Int} (done : convert limit digits = .ok z) : int digits = .ok z := by
  unfold convert at done
  split at done
  · contradiction
  · exact done

structure TimeFits (limit : Option Nat) (hours minutes : Str) : Prop where
  hoursConvert : Converts limit hours
  minutesConvert : Converts limit minutes
  range : ∀ h m, int hours = .ok h → int minutes = .ok m → h * 3600 + m * 60 < floatLimit

theorem timeCostOk {hours minutes whole fraction : Str}
    (numerals : ∀ ds ∈ [hours,minutes,whole,fraction], Numeral ds) :
    (∃ cost, timeCost limit hours minutes whole fraction = .ok cost) ↔ TimeFits limit hours minutes := by
  have hoursOk : (∃ h, convert limit hours = .ok h) ↔ Converts limit hours := convertOk (numerals hours (by simp))
  have minutesOk : (∃ m, convert limit minutes = .ok m) ↔ Converts limit minutes := convertOk (numerals minutes (by simp))
  obtain ⟨wholeSome,wholeRun⟩ := numerals whole (by simp)
  obtain ⟨_,fractionRun⟩ := numerals fraction (by simp)
  constructor
  · intro h
    obtain ⟨cost,done⟩ := h
    obtain ⟨h,first,done⟩ := Py.bindOk.mp done
    obtain ⟨m,second,done⟩ := Py.bindOk.mp done
    obtain ⟨s,_,done⟩ := Py.bindOk.mp done
    refine ⟨hoursOk.mp ⟨h,first⟩,minutesOk.mp ⟨m,second⟩,?_⟩
    intro h' m' hoursRead minutesRead
    rw [convertInt first] at hoursRead
    rw [convertInt second] at minutesRead
    cases Except.ok.inj hoursRead
    cases Except.ok.inj minutesRead
    split at done
    · assumption
    · contradiction
  · intro fits
    obtain ⟨h,first⟩ := hoursOk.mpr fits.hoursConvert
    obtain ⟨m,second⟩ := minutesOk.mpr fits.minutesConvert
    obtain ⟨z,third⟩ := intDigits (s := whole ++ fraction) (by simp [wholeSome]) (by
      intro c listed
      exact (List.mem_append.mp listed).elim (wholeRun c) (fractionRun c))
    have range := fits.range h m (convertInt first) (convertInt second)
    have fractionRead : decimalFraction whole fraction = .ok ((z : ℚ) / 10^fraction.length) := by
      rw [decimalFraction,third]
      rfl
    exact ⟨_,Py.bindOk.mpr ⟨h,first,Py.bindOk.mpr ⟨m,second,Py.bindOk.mpr ⟨_,fractionRead,if_pos range⟩⟩⟩⟩

end numbers

section line
variable {limit : Option Nat} {line : Str}

structure LineReadable (limit : Option Nat) (line : Str) : Prop where
  cmdline : startsWith line "cmdline".toList = true →
    ∃ u g v, line = u ++ ("cmdline=\"".toList ++ (g ++ '\x22'::v)) ∧ g ≠ [] ∧ '\x22' ∉ g
  duration : startsWith line "duration".toList = true →
    ∃ u ds c v, line = u ++ ("duration=".toList ++ (ds ++ c::v)) ∧ ds ≠ [] ∧ (∀ d ∈ ds, isDecimal d = true) ∧ isSpace c = true
  number : ∀ digits, summary line = some digits →
    (∃ word ∈ ["passed".toList,"failed".toList,"broken".toList,"skipped".toList], contains line word = true) →
    Converts limit digits

def TimeReadable (limit : Option Nat) (line : Str) : Prop :=
  startsWith line "Time cost".toList = true →
    ∀ hours minutes whole fraction, search "Time cost: ".toList clock line = some (hours,minutes,whole,fraction) →
      TimeFits limit hours minutes

theorem searchedOk {α : Type} {start opening : Str} {rest : Str → Option α} (some : opening ≠ []) (old : α) :
    (∃ a, (if startsWith line start then Py.raiseNone .attributeError (search opening rest line) else .ok old) = .ok a) ↔
      (startsWith line start = true → ∃ u v, line = u ++ (opening ++ v) ∧ (rest v).isSome = true) := by
  by_cases starts : startsWith line start = true
  · rw [if_pos starts,Py.raiseNoneGoes,searchFinds some,forall_prop_of_true starts]
  · rw [if_neg starts]
    exact ⟨fun _ here => absurd here starts,fun _ => ⟨old,rfl⟩⟩

theorem readCmdlineOk (cmdline : Str) : (∃ c, readCmdline line cmdline = .ok c) ↔ (startsWith line "cmdline".toList = true →
    ∃ u g v, line = u ++ ("cmdline=\"".toList ++ (g ++ '\x22'::v)) ∧ g ≠ [] ∧ '\x22' ∉ g) := by
  unfold readCmdline
  rw [searchedOk (by decide)]
  refine imp_congr_right (fun _ => ⟨fun h => ?_,fun h => ?_⟩)
  · obtain ⟨u,v,split,found⟩ := h
    obtain ⟨g,w,rfl,some,absent⟩ := quotedFinds.mp found
    exact ⟨u,g,w,split,some,absent⟩
  · obtain ⟨u,g,v,split,some,absent⟩ := h
    exact ⟨u,_,split,quotedFinds.mpr ⟨g,v,rfl,some,absent⟩⟩

theorem readDurationOk (duration : Str) : (∃ c, readDuration line duration = .ok c) ↔ (startsWith line "duration".toList = true →
    ∃ u ds c v, line = u ++ ("duration=".toList ++ (ds ++ c::v)) ∧ ds ≠ [] ∧ (∀ d ∈ ds, isDecimal d = true) ∧
      isSpace c = true) := by
  unfold readDuration
  rw [searchedOk (by decide)]
  simp only [Option.isSome_map]
  refine imp_congr_right (fun _ => ⟨fun h => ?_,fun h => ?_⟩)
  · obtain ⟨u,v,split,found⟩ := h
    obtain ⟨ds,c,w,rfl,rest⟩ := (digitsThenFinds (fun _ => spaceNotDecimal)).mp found
    exact ⟨u,ds,c,w,split,rest⟩
  · obtain ⟨u,ds,c,v,split,rest⟩ := h
    exact ⟨u,_,split,(digitsThenFinds (fun _ => spaceNotDecimal)).mpr ⟨ds,c,v,rfl,rest⟩⟩

theorem summarizedOk {digits : Str} (numeral : Numeral digits) (word : Str) (count : Int) :
    (∃ z, summarized limit line word digits count = .ok z) ↔ (contains line word = true → Converts limit digits) := by
  unfold summarized
  by_cases here : contains line word = true
  · rw [if_pos here,convertOk numeral,forall_prop_of_true here]
  · rw [if_neg here]
    exact ⟨fun _ there => absurd there here,fun _ => ⟨count,rfl⟩⟩

theorem readSummaryOk (t : Tally) : (∃ next, readSummary limit line t = .ok next) ↔ ∀ digits, summary line = some digits →
    (∃ word ∈ ["passed".toList,"failed".toList,"broken".toList,"skipped".toList], contains line word = true) →
    Converts limit digits := by
  unfold readSummary
  cases found : summary line with
  | none => simp
  | some digits =>
    have each : ∀ word count, (∃ z, summarized limit line word digits count = .ok z) ↔
        (contains line word = true → Converts limit digits) := summarizedOk (summaryDigits found)
    dsimp only
    rw [Py.bindGoes (fun _ => Py.bindGoes (fun _ => Py.bindGoes (fun _ => Py.bindGoes (fun _ => ⟨fun _ => trivial,fun _ => ⟨_,rfl⟩⟩)))),
      each,each,each,each]
    constructor
    · intro h digits' same named
      obtain ⟨passed,failed,broken,skipped,_⟩ := h
      obtain ⟨word,listed,here⟩ := named
      cases Option.some.inj same
      simp only [List.mem_cons,List.not_mem_nil,or_false] at listed
      rcases listed with rfl | rfl | rfl | rfl
      · exact passed here
      · exact failed here
      · exact broken here
      · exact skipped here
    · intro h
      have all := h digits rfl
      exact ⟨fun here => all ⟨_,by simp,here⟩,fun here => all ⟨_,by simp,here⟩,fun here => all ⟨_,by simp,here⟩,
        fun here => all ⟨_,by simp,here⟩,trivial⟩

theorem subLineOk (t : Tally) (raw : Str) : (∃ next, subLine limit t raw = .ok next) ↔ LineReadable limit (strip raw) := by
  unfold subLine
  rw [Py.bindGoes (fun _ => Py.bindGoes (fun _ => readSummaryOk _)),readCmdlineOk,readDurationOk]
  exact ⟨fun h => ⟨h.1,h.2.1,h.2.2⟩,fun h => ⟨h.cmdline,h.duration,h.number⟩⟩

theorem createSubResultOk (content : Str) :
    (∃ item, createSubResult limit content = .ok item) ↔ ∀ raw ∈ lines content, LineReadable limit (strip raw) := by
  have finish : ∀ t : Tally, (∃ item, (if t.hasSummary then Except.ok t.result
      else .ok { t.result with passCnt := t.passedCount, failCnt := t.failedCount, brokenCnt := t.brokenCount } :
        Except PyError LTPResult) = .ok item) ↔ True := by
    intro t
    split
    · exact ⟨fun _ => trivial,fun _ => ⟨_,rfl⟩⟩
    · exact ⟨fun _ => trivial,fun _ => ⟨_,rfl⟩⟩
  unfold createSubResult
  rw [Py.bindGoes finish,Py.foldlMGoes subLineOk,and_true]

theorem readTimeOk (starts : startsWith line "Time cost".toList = true) (s : Scan) :
    (∃ next, readTime limit s line = .ok next) ↔ TimeReadable limit line := by
  unfold readTime TimeReadable
  rw [forall_prop_of_true starts]
  cases found : search "Time cost: ".toList clock line with
  | none => simp
  | some time =>
    obtain ⟨hours,minutes,whole,fraction⟩ := time
    obtain ⟨v,here⟩ := searchFrom found
    dsimp only
    rw [Py.bindGoes (fun _ => ⟨fun _ => trivial,fun _ => ⟨_,rfl⟩⟩),timeCostOk (clockDigits here),and_true]
    constructor
    · intro fits h m w f same
      cases Option.some.inj same
      exact fits
    · intro h
      exact h _ _ _ _ rfl

end line

end KernelTcp.Ltp

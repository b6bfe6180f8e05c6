import KernelTcp.Lib.Search
import Mathlib.Algebra.Order.Ring.Rat

/-! The results of a kernel test log. Seconds are exact rationals; of the floats only the range
that a whole number must have to become one is kept, and the language's own limit on the digits
it converts, which may be off. -/
namespace KernelTcp.Ltp
open Text

structure LTPResult where
  passCnt : Int
  skipCnt : Int
  brokenCnt : Int
  failCnt : Int
  cmdline : Str
  duration : Str
  deriving DecidableEq, Repr

def LTPResult.new : LTPResult := ⟨0,0,0,0,[],[]⟩

structure TCResult where
  items : List LTPResult
  totalCost : ℚ

namespace TCResult

def totalFailedCnt (t : TCResult) : Int := (t.items.map LTPResult.failCnt).sum

def totalBrokenCnt (t : TCResult) : Int := (t.items.map LTPResult.brokenCnt).sum

def totalPassCnt (t : TCResult) : Int := (t.items.map LTPResult.passCnt).sum

end TCResult

def isDecimal (c : Char) : Bool := (digit c).isSome

def digitsThen (closing : Char → Bool) (s : Str) : Option (Str × Str) :=
  match s.dropWhile isDecimal with
  | c::rest => if s.takeWhile isDecimal ≠ [] ∧ closing c then some (s.takeWhile isDecimal,rest) else none
  | [] => none

-- `([^"]+)"`
def quoted (s : Str) : Option Str :=
  if s.takeWhile (fun c => c != '\x22') ≠ [] ∧ s.dropWhile (fun c => c != '\x22') ≠ [] then
    some (s.takeWhile (fun c => c != '\x22'))
  else none

-- `\s+(\d+)`
def spacedDigits (s : Str) : Option Str :=
  let digits := (s.dropWhile isSpace).takeWhile isDecimal
  if s.takeWhile isSpace ≠ [] ∧ digits ≠ [] then some digits else none

-- `(\d+):(\d+):(\d+\.\d+)s`
def clock (s : Str) : Option (Str × Str × Str × Str) := do
  let (hours,s) ← digitsThen (fun c => c == ':') s
  let (minutes,s) ← digitsThen (fun c => c == ':') s
  let (whole,s) ← digitsThen (fun c => c == '.') s
  let (fraction,_) ← digitsThen (fun c => c == 's') s
  some (hours,minutes,whole,fraction)

def wordsToMatch : List Str := ["passed".toList,"failed".toList,"broken".toList,"skipped".toList,"warnings".toList]

-- the word stands at the start of the line, and a boundary follows it since a space does
def summary (line : Str) : Option Str :=
  wordsToMatch.findSome? (fun word => if word.isPrefixOf line then spacedDigits (line.drop word.length) else none)

def convert (limit : Option Nat) (digits : Str) : Except PyError Int :=
  if limit.any (fun most => most < digits.length) then .error .valueError else int digits

-- whole numbers from here on are rounded past the largest float
def floatLimit : Int := 2^1024 - 2^970

def decimalFraction (whole fraction : Str) : Except PyError ℚ := do
  let value ← int (whole ++ fraction)
  .ok (value / 10^fraction.length)

def timeCost (limit : Option Nat) (hours minutes whole fraction : Str) : Except PyError ℚ := do
  let h ← convert limit hours
  let m ← convert limit minutes
  let s ← decimalFraction whole fraction
  if h * 3600 + m * 60 < floatLimit then .ok ((h * 3600 + m * 60 : Int) + s) else .error .overflowError

structure Tally where
  result : LTPResult
  passedCount : Int
  failedCount : Int
  brokenCount : Int
  hasSummary : Bool

def Tally.start : Tally := ⟨.new,0,0,0,false⟩

def counted (line word : Str) (count : Int) : Int := if contains line word then count + 1 else count

def summarized (limit : Option Nat) (line word digits : Str) (count : Int) : Except PyError Int :=
  if contains line word then convert limit digits else .ok count

def readCmdline (line cmdline : Str) : Except PyError Str :=
  if startsWith line "cmdline".toList then Py.raiseNone .attributeError (search "cmdline=\"".toList quoted line)
  else .ok cmdline

def readDuration (line duration : Str) : Except PyError Str :=
  if startsWith line "duration".toList then
    Py.raiseNone .attributeError (search "duration=".toList (fun s => (digitsThen isSpace s).map Prod.fst) line)
  else .ok duration

def readSummary (limit : Option Nat) (line : Str) (t : Tally) : Except PyError Tally :=
  match summary line with
  | none => .ok t
  | some digits => do
    let passCnt ← summarized limit line "passed".toList digits t.result.passCnt
    let failCnt ← summarized limit line "failed".toList digits t.result.failCnt
    let brokenCnt ← summarized limit line "broken".toList digits t.result.brokenCnt
    let skipCnt ← summarized limit line "skipped".toList digits t.result.skipCnt
    .ok { t with hasSummary := true,
                 result := { t.result with passCnt := passCnt, failCnt := failCnt, brokenCnt := brokenCnt, skipCnt := skipCnt } }

def subLine (limit : Option Nat) (t : Tally) (raw : Str) : Except PyError Tally := do
  let line := strip raw
  let cmdline ← readCmdline line t.result.cmdline
  let duration ← readDuration line t.result.duration
  readSummary limit line
    { t with result := { t.result with cmdline := cmdline, duration := duration },
             passedCount := counted line "TPASS".toList t.passedCount,
             failedCount := counted line "TFAIL".toList t.failedCount,
             brokenCount := counted line "TBROK".toList t.brokenCount }

def createSubResult (limit : Option Nat) (subContent : Str) : Except PyError LTPResult := do
  let t ← (lines subContent).foldlM (subLine limit) .start
  if t.hasSummary then .ok t.result
  else .ok { t.result with passCnt := t.passedCount, failCnt := t.failedCount, brokenCnt := t.brokenCount }

/- The scan of the lines; `extractedContent` has no value before the first start line. -/
structure Scan where
  subBlocks : List Str
  startExtracted : Bool
  extractedContent : Option Str
  totalCost : ℚ

def isStart (line : Str) : Bool := startsWith line "<<<test_start>>>".toList

def isEnd (line : Str) : Bool := startsWith line "<<<test_end>>>".toList

def extract (s : Scan) (line : Str) : Except PyError Scan :=
  if s.startExtracted then do
    let content ← Py.raiseNone .nameError s.extractedContent
    .ok { s with extractedContent := some (content ++ (line ++ ['\n'])) }
  else .ok s

def readTime (limit : Option Nat) (s : Scan) (line : Str) : Except PyError Scan :=
  match search "Time cost: ".toList clock line with
  | none => .ok s
  | some (hours,minutes,whole,fraction) => do
    let totalCost ← timeCost limit hours minutes whole fraction
    .ok { s with totalCost := totalCost }

def scanLine (limit : Option Nat) (s : Scan) (line : Str) : Except PyError Scan := do
  let s ← extract s line
  if isStart line then .ok { s with extractedContent := some [], startExtracted := true }
  else if isEnd line then
    let content ← Py.raiseNone .nameError s.extractedContent
    .ok { s with startExtracted := false, subBlocks := s.subBlocks ++ [content] }
  else if startsWith line "Time cost".toList then readTime limit s line
  else .ok s

def TCResult.parseLtpLog (limit : Option Nat) (t : TCResult) (logContent : Str) : Except PyError TCResult := do
  let s ← (lines logContent).foldlM (scanLine limit) ⟨[],false,none,t.totalCost⟩
  let items ← s.subBlocks.mapM (createSubResult limit)
  .ok ⟨t.items ++ items,s.totalCost⟩

end KernelTcp.Ltp

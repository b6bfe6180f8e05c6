import KernelTcp.Ltp.Readable

/-! The results of a kernel selftest log, and of a log of either kind. -/
namespace KernelTcp.Ltp
open Text

structure SelfTestResult where
  passCnt : Int
  skipCnt : Int
  brokenCnt : Int
  failCnt : Int
  additionMessage : Str
  deriving DecidableEq, Repr

def SelfTestResult.new : SelfTestResult := ⟨0,0,0,0,[]⟩

inductive ReadError where
  | invalidLine (line : Str)
  | unknownType (type : Str)
  | raised (e : PyError)
  deriving DecidableEq, Repr

def raised (x : Except PyError α) : Except ReadError α := x.mapError .raised

def isTotals (line : Str) : Bool := startsWith line "# # Totals".toList

def isTime (line : Str) : Bool := startsWith line "Time cost:".toList

def isVerdict (line : Str) : Bool := startsWith line "ok".toList || startsWith line "not ok".toList

-- `\d+`
def numbers (line : Str) : List Str := runs isDecimal line

def addTotals (limit : Option Nat) (line : Str) (r : SelfTestResult) : Except ReadError SelfTestResult :=
  match numbers line with
  | [passes,fails,xfails,xpasses,skips,errors] => raised (do
      let passes ← convert limit passes
      let xpasses ← convert limit xpasses
      let fails ← convert limit fails
      let xfails ← convert limit xfails
      let skips ← convert limit skips
      let errors ← convert limit errors
      .ok { r with passCnt := r.passCnt + (passes + xpasses), failCnt := r.failCnt + (fails + xfails),
                   skipCnt := r.skipCnt + skips, brokenCnt := r.brokenCnt + errors })
  | _ => .error (.invalidLine line)

def costOf (limit : Option Nat) (line : Str) (totalCost : ℚ) : Except PyError ℚ :=
  match search "Time cost: ".toList clock line with
  | none => .ok totalCost
  | some (hours,minutes,whole,fraction) => timeCost limit hours minutes whole fraction

def messageOf (line : Str) : Str :=
  match splitOn ['#'] line with
  | [_,message] => message ++ ['\n']
  | _ => []

@[ext] structure SelfScan where
  result : SelfTestResult
  totalCost : ℚ

def selfLine (limit : Option Nat) (s : SelfScan) (line : Str) : Except ReadError SelfScan :=
  if isTotals line then do
    let result ← addTotals limit line s.result
    .ok { s with result := result }
  else if isTime line then do
    let totalCost ← raised (costOf limit line s.totalCost)
    .ok { s with totalCost := totalCost }
  else if isVerdict line then
    .ok { s with result := { s.result with additionMessage := s.result.additionMessage ++ messageOf line } }
  else .ok s

def parseSelftestLog (limit : Option Nat) (totalCost : ℚ) (logContent : Str) : Except ReadError SelfScan :=
  (lines logContent).foldlM (selfLine limit) ⟨.new,totalCost⟩

inductive Item where
  | ltp (r : LTPResult)
  | selftest (r : SelfTestResult)
  deriving DecidableEq, Repr

structure Created where
  tcName : Str
  type : Str
  items : List Item
  totalCost : ℚ

def parseLog (limit : Option Nat) (tcType logContent : Str) : Except ReadError (List Item × ℚ) :=
  if tcType = "ltp".toList then do
    let t ← raised (TCResult.parseLtpLog limit ⟨[],-1⟩ logContent)
    .ok (t.items.map Item.ltp,t.totalCost)
  else if tcType = "selftest".toList then do
    let s ← parseSelftestLog limit (-1) logContent
    .ok ([Item.selftest s.result],s.totalCost)
  else .error (.unknownType tcType)

def create (limit : Option Nat) (tcName tcType logContent : Str) : Except ReadError Created := do
  let (items,totalCost) ← parseLog limit tcType logContent
  .ok ⟨tcName,tcType,items,totalCost⟩

section Totals
variable {limit : Option Nat} {line : Str}

def value (digits : Str) : Int :=
  match int digits with
  | .ok z => z
  | .error _ => 0

def entry (line : Str) (i : Nat) : Int := value ((numbers line).getD i [])

structure TotalsFit (limit : Option Nat) (line : Str) : Prop where
  six : (numbers line).length = 6
  convert : ∀ digits ∈ numbers line, Converts limit digits

def CostFits (limit : Option Nat) (line : Str) : Prop :=
  ∀ hours minutes whole fraction, search "Time cost: ".toList clock line = some (hours,minutes,whole,fraction) →
    TimeFits limit hours minutes

structure SelfLineFits (limit : Option Nat) (line : Str) : Prop where
  totals : isTotals line = true → TotalsFit limit line
  cost : isTime line = true → CostFits limit line

def added (line : Str) (r : SelfTestResult) : SelfTestResult :=
  if isTotals line then
    { r with passCnt := r.passCnt + (entry line 0 + entry line 3), failCnt := r.failCnt + (entry line 1 + entry line 2),
             skipCnt := r.skipCnt + entry line 4, brokenCnt := r.brokenCnt + entry line 5 }
  else if isVerdict line then { r with additionMessage := r.additionMessage ++ messageOf line }
  else r

theorem totalsNotTime (totals : isTotals line = true) : isTime line = false := startsApart (by decide) totals

theorem totalsNotVerdict (totals : isTotals line = true) : isVerdict line = false := by
  have noOk : startsWith line "ok".toList = false := startsApart (by decide) totals
  have noNotOk : startsWith line "not ok".toList = false := startsApart (by decide) totals
  rw [isVerdict,noOk,noNotOk]
  rfl

theorem timeNotVerdict (time : isTime line = true) : isVerdict line = false := by
  have noOk : startsWith line "ok".toList = false := startsApart (by decide) time
  have noNotOk : startsWith line "not ok".toList = false := startsApart (by decide) time
  rw [isVerdict,noOk,noNotOk]
  rfl

theorem raisedOk {α : Type} {x : Except PyError α} {a : α} : raised x = .ok a ↔ x = .ok a := by
  cases x with
  | ok b => simp [raised,Except.mapError]
  | error e => simp [raised,Except.mapError]

theorem numbersDigits (line : Str) : ∀ digits ∈ numbers line, Numeral digits := by
  intro digits listed
  obtain ⟨some,run⟩ := runsFromEach (by simp) line digits listed
  exact ⟨some,run⟩

theorem convertValue (numeral : Numeral digits) (fits : Converts limit digits) : convert limit digits = .ok (value digits) := by
  obtain ⟨z,done⟩ := (convertOk numeral).mpr fits
  rw [done,value,convertInt done]

theorem addTotalsOk (totals : isTotals line = true) (r : SelfTestResult) {next : SelfTestResult} :
    addTotals limit line r = .ok next ↔ TotalsFit limit line ∧ next = added line r := by
  unfold addTotals
  split
  · rename_i passes fails xfails xpasses skips errors six
    have digits := numbersDigits line
    constructor
    · intro done
      obtain ⟨a,first,done⟩ := Py.bindOk.mp (raisedOk.mp done)
      obtain ⟨b,second,done⟩ := Py.bindOk.mp done
      obtain ⟨c,third,done⟩ := Py.bindOk.mp done
      obtain ⟨d,fourth,done⟩ := Py.bindOk.mp done
      obtain ⟨e,fifth,done⟩ := Py.bindOk.mp done
      obtain ⟨f,sixth,done⟩ := Py.bindOk.mp done
      cases Except.ok.inj done
      have fits : TotalsFit limit line := by
        refine ⟨by rw [six]; rfl,?_⟩
        rw [six] at digits ⊢
        simp only [List.forall_mem_cons] at digits ⊢
        obtain ⟨da,dc,dd,db,de,df,_⟩ := digits
        exact ⟨(convertOk da).mp ⟨a,first⟩,(convertOk dc).mp ⟨c,third⟩,(convertOk dd).mp ⟨d,fourth⟩,
          (convertOk db).mp ⟨b,second⟩,(convertOk de).mp ⟨e,fifth⟩,(convertOk df).mp ⟨f,sixth⟩,by simp⟩
      refine ⟨fits,?_⟩
      rw [added,if_pos totals]
      simp only [entry,six,List.getD_cons_zero,List.getD_cons_succ,value,convertInt first,convertInt second,convertInt third,
        convertInt fourth,convertInt fifth,convertInt sixth]
    · intro h
      obtain ⟨fits,rfl⟩ := h
      have converts := fits.convert
      rw [six] at digits converts
      simp only [List.forall_mem_cons] at digits converts
      obtain ⟨da,dc,dd,db,de,df,_⟩ := digits
      obtain ⟨ca,cc,cd,cb,ce,cf,_⟩ := converts
      rw [convertValue da ca,convertValue db cb,convertValue dc cc,convertValue dd cd,convertValue de ce,convertValue df cf,
        added,if_pos totals]
      simp only [entry,six,List.getD_cons_zero,List.getD_cons_succ]
      rfl
  · rename_i other
    constructor
    · intro done
      contradiction
    · intro h
      obtain ⟨⟨six,_⟩,_⟩ := h
      match here : numbers line with
      | [passes,fails,xfails,xpasses,skips,errors] => exact absurd here (other _ _ _ _ _ _)
      | [] => simp [here] at six
      | [_] => simp [here] at six
      | [_,_] => simp [here] at six
      | [_,_,_] => simp [here] at six
      | [_,_,_,_] => simp [here] at six
      | [_,_,_,_,_] => simp [here] at six
      | _::_::_::_::_::_::_::_ => simp [here] at six

theorem costOfOk (totalCost : ℚ) : (∃ cost, costOf limit line totalCost = .ok cost) ↔ CostFits limit line := by
  unfold costOf CostFits
  cases found : search "Time cost: ".toList clock line with
  | none => simp
  | some time =>
    obtain ⟨hours,minutes,whole,fraction⟩ := time
    obtain ⟨v,here⟩ := searchFrom found
    dsimp only
    rw [timeCostOk (clockDigits here)]
    constructor
    · intro fits h m w f same
      cases Option.some.inj same
      exact fits
    · intro h
      exact h _ _ _ _ rfl

def costAfter (limit : Option Nat) (line : Str) (totalCost : ℚ) : Except PyError ℚ :=
  if isTime line then costOf limit line totalCost else .ok totalCost

theorem costAfterOk (totalCost : ℚ) :
    (∃ cost, costAfter limit line totalCost = .ok cost) ↔ (isTime line = true → CostFits limit line) := by
  unfold costAfter
  split
  · rename_i time
    rw [costOfOk,forall_prop_of_true time]
  · rename_i other
    exact ⟨fun _ time => absurd time other,fun _ => ⟨totalCost,rfl⟩⟩

theorem selfLineSpec {s next : SelfScan} : selfLine limit s line = .ok next ↔ (isTotals line = true → TotalsFit limit line) ∧
    next.result = added line s.result ∧ costAfter limit line s.totalCost = .ok next.totalCost := by
  obtain ⟨result,totalCost⟩ := next
  unfold selfLine costAfter
  by_cases totals : isTotals line = true
  · rw [if_pos totals,forall_prop_of_true totals,totalsNotTime totals,if_neg Bool.false_ne_true,← and_assoc]
    constructor
    · intro done
      cases here : addTotals limit line s.result with
      | error e =>
        rw [here] at done
        cases done
      | ok r =>
        rw [here] at done
        cases Except.ok.inj done
        exact ⟨(addTotalsOk totals s.result).mp here,rfl⟩
    · intro h
      obtain ⟨done,cost⟩ := h
      rw [(addTotalsOk totals s.result).mpr done]
      cases Except.ok.inj cost
      rfl
  have free : (isTotals line = true → TotalsFit limit line) ↔ True := iff_true_intro (fun here => absurd here totals)
  rw [if_neg totals,free,true_and,added,if_neg totals]
  by_cases time : isTime line = true
  · rw [if_pos time,if_pos time,timeNotVerdict time,if_neg Bool.false_ne_true]
    generalize costOf limit line s.totalCost = cost
    cases cost with
    | error e =>
      constructor
      · intro done
        cases done
      · intro h
        cases h.2
    | ok c =>
      constructor
      · intro done
        cases Except.ok.inj done
        exact ⟨rfl,rfl⟩
      · intro h
        obtain ⟨rfl,same⟩ := h
        cases Except.ok.inj same
        rfl
  · rw [if_neg time,if_neg time]
    split
    · simp [SelfScan.ext_iff,eq_comm]
    · simp [SelfScan.ext_iff,eq_comm]

theorem readBindOk {α β : Type} {x : Except ReadError α} {f : α → Except ReadError β} {b : β} :
    (x >>= f) = .ok b ↔ ∃ a, x = .ok a ∧ f a = .ok b := by
  cases x with
  | error e =>
    constructor
    · intro done
      cases done
    · intro h
      obtain ⟨a,same,_⟩ := h
      cases same
  | ok a =>
    constructor
    · intro done
      exact ⟨a,rfl,done⟩
    · intro h
      obtain ⟨c,same,done⟩ := h
      cases same
      exact done

theorem selfLineOk (s : SelfScan) : (∃ next, selfLine limit s line = .ok next) ↔ SelfLineFits limit line := by
  constructor
  · intro h
    obtain ⟨next,done⟩ := h
    obtain ⟨totals,_,cost⟩ := selfLineSpec.mp done
    exact ⟨totals,(costAfterOk s.totalCost).mp ⟨_,cost⟩⟩
  · intro fits
    obtain ⟨cost,done⟩ := (costAfterOk s.totalCost).mpr fits.cost
    exact ⟨⟨added line s.result,cost⟩,selfLineSpec.mpr ⟨fits.totals,rfl,done⟩⟩

theorem selfRunGoes (ls : List Str) (s : SelfScan) :
    (∃ next, ls.foldlM (selfLine limit) s = .ok next) ↔ ∀ line ∈ ls, SelfLineFits limit line := by
  induction ls generalizing s with
  | nil => exact ⟨fun _ => by simp,fun _ => ⟨s,rfl⟩⟩
  | cons line ls ih =>
    rw [List.forall_mem_cons,List.foldlM_cons]
    constructor
    · intro h
      obtain ⟨next,done⟩ := h
      obtain ⟨middle,first,done⟩ := readBindOk.mp done
      exact ⟨(selfLineOk s).mp ⟨middle,first⟩,(ih middle).mp ⟨next,done⟩⟩
    · intro fits
      obtain ⟨middle,first⟩ := (selfLineOk s).mpr fits.1
      obtain ⟨next,done⟩ := (ih middle).mpr fits.2
      exact ⟨next,readBindOk.mpr ⟨middle,first,done⟩⟩

theorem selfRunAdds {ls : List Str} {s next : SelfScan} (done : ls.foldlM (selfLine limit) s = .ok next) :
    next.result = ls.foldl (fun r line => added line r) s.result := by
  induction ls generalizing s with
  | nil =>
    cases Except.ok.inj done
    rfl
  | cons line ls ih =>
    rw [List.foldlM_cons] at done
    obtain ⟨middle,first,done⟩ := readBindOk.mp done
    rw [ih done,(selfLineSpec.mp first).2.1]
    rfl

end Totals

def totalOf (count : Str → Int) (ls : List Str) : Int := ((ls.filter isTotals).map count).sum

structure AddsUp (ls : List Str) (r : SelfTestResult) : Prop where
  passCnt : r.passCnt = totalOf (fun line => entry line 0 + entry line 3) ls
  failCnt : r.failCnt = totalOf (fun line => entry line 1 + entry line 2) ls
  skipCnt : r.skipCnt = totalOf (fun line => entry line 4) ls
  brokenCnt : r.brokenCnt = totalOf (fun line => entry line 5) ls
  additionMessage : r.additionMessage = (ls.filter isVerdict).flatMap messageOf

theorem totalOfNext (count : Str → Int) (ls : List Str) (line : Str) :
    totalOf count (ls ++ [line]) = totalOf count ls + if isTotals line then count line else 0 := by
  unfold totalOf
  rw [List.filter_append,List.map_append,List.sum_append]
  by_cases totals : isTotals line = true
  · simp [totals]
  · simp [totals]

theorem messagesNext (ls : List Str) (line : Str) : ((ls ++ [line]).filter isVerdict).flatMap messageOf =
    (ls.filter isVerdict).flatMap messageOf ++ if isVerdict line then messageOf line else [] := by
  rw [List.filter_append,List.flatMap_append]
  by_cases verdict : isVerdict line = true
  · simp [verdict]
  · simp [verdict]

theorem addsUpNext {ls : List Str} {r : SelfTestResult} (before : AddsUp ls r) (line : Str) : AddsUp (ls ++ [line]) (added line r) := by
  obtain ⟨passCnt,failCnt,skipCnt,brokenCnt,message⟩ := before
  unfold added
  split
  · rename_i totals
    have none : (if isVerdict line = true then messageOf line else []) = [] := if_neg (by simp [totalsNotVerdict totals])
    refine ⟨?_,?_,?_,?_,?_⟩
    · rw [totalOfNext,if_pos totals,passCnt]
    · rw [totalOfNext,if_pos totals,failCnt]
    · rw [totalOfNext,if_pos totals,skipCnt]
    · rw [totalOfNext,if_pos totals,brokenCnt]
    · rw [messagesNext,none,message,List.append_nil]
  rename_i other
  have same : ∀ count, totalOf count (ls ++ [line]) = totalOf count ls := by
    intro count
    rw [totalOfNext,if_neg other,Int.add_zero]
  split
  · rename_i verdict
    refine ⟨passCnt.trans (same _).symm,failCnt.trans (same _).symm,skipCnt.trans (same _).symm,brokenCnt.trans (same _).symm,?_⟩
    rw [messagesNext,if_pos verdict,message]
  · rename_i plain
    refine ⟨passCnt.trans (same _).symm,failCnt.trans (same _).symm,skipCnt.trans (same _).symm,brokenCnt.trans (same _).symm,?_⟩
    rw [messagesNext,if_neg plain,message,List.append_nil]

theorem addsUp (ls : List Str) : AddsUp ls (ls.foldl (fun r line => added line r) .new) := by
  induction ls using List.reverseRecOn with
  | nil => exact ⟨rfl,rfl,rfl,rfl,rfl⟩
  | append_singleton ls line ih =>
    rw [List.foldl_append]
    exact addsUpNext ih line

end KernelTcp.Ltp

import KernelTcp.Lib.Groups
import KernelTcp.Lib.Repr
import KernelTcp.Lib.Search
import KernelTcp.Lib.Slices

/-! The failure history that is read back from a log. Every checkout is three lines of the log;
the text is the file as the language reads it, with every line break a newline. -/
namespace KernelTcp.EHelper
open Text Slices

structure HistoryInfo where
  gitSha : Str
  totalCasesList : List Str
  faultList : List Str
  deriving DecidableEq, Repr

-- the quotes are taken off without a look at them
def caseList (group : Str) : List Str := (splitOn ", ".toList group).map (fun t => slice t 1 (-1))

/- One round of the loop: a line without the word adds nothing, and a search that finds nothing
fails where its group is taken. -/
def infoAt (lines : List Str) (idx : Nat) : Except PyError (List HistoryInfo) := do
  let curLine ← Py.getItem lines idx
  if contains curLine "checkout".toList then
    let gitSha ← Py.raiseNone .attributeError (search "checkout: ".toList (lazyUntil '\n') curLine)
    let nextLine ← Py.getItem lines (idx + 1)
    let totalCases ← Py.raiseNone .attributeError (search "total_cases: [".toList (lazyUntil ']') nextLine)
    let next2Line ← Py.getItem lines (idx + 2)
    let fault ← Py.raiseNone .attributeError (search "fail_cases: [".toList (lazyUntil ']') next2Line)
    .ok [⟨gitSha,caseList totalCases,caseList fault⟩]
  else .ok []

def addInfo (lines : List Str) (historyInfos : List HistoryInfo) (idx : Nat) : Except PyError (List HistoryInfo) := do
  let more ← infoAt lines idx
  .ok (historyInfos ++ more)

def getCheckoutInfo (text : Str) : Except PyError (List HistoryInfo) :=
  let lines := fileLines text
  (List.range lines.length).foldlM (addInfo lines) []

def faultsArr (hi : HistoryInfo) : List Nat :=
  hi.faultList.flatMap (fun fault => (hi.totalCasesList.zipIdx.filter (fun e => fault = e.1)).map Prod.snd)

section loop
variable {rest : List Str} {infos : List HistoryInfo}

theorem infoAtAfter (before rest : List Str) : infoAt (before ++ rest) before.length = infoAt rest 0 := by
  have first : Py.getItem (before ++ rest) before.length = Py.getItem rest (0 : Nat) := Py.getItemAfter before rest 0
  have second : Py.getItem (before ++ rest) (before.length + 1) = Py.getItem rest ((0 : Nat) + 1) := Py.getItemAfter before rest 1
  have third : Py.getItem (before ++ rest) (before.length + 2) = Py.getItem rest ((0 : Nat) + 2) := Py.getItemAfter before rest 2
  unfold infoAt
  simp only [first,second,third]

def Reads (rest : List Str) (infos : List HistoryInfo) : Prop :=
  ∀ before historyInfos, (List.range' before.length rest.length).foldlM (addInfo (before ++ rest)) historyInfos =
    .ok (historyInfos ++ infos)

theorem readsNil : Reads [] [] := by
  intro before historyInfos
  rw [List.append_nil,List.append_nil]
  rfl

theorem readsCons {line : Str} {more : List HistoryInfo} (here : infoAt (line::rest) 0 = .ok more) (reads : Reads rest infos) :
    Reads (line::rest) (more ++ infos) := by
  intro before historyInfos
  have step : addInfo (before ++ line::rest) historyInfos before.length = .ok (historyInfos ++ more) := by
    rw [addInfo,infoAtAfter,here]
    rfl
  have later := reads (before ++ [line]) (historyInfos ++ more)
  rw [List.length_append,List.length_singleton,List.append_assoc,List.singleton_append,List.append_assoc] at later
  rw [List.length_cons,List.range'_succ,List.foldlM_cons,step]
  exact later

theorem readsAll {text : Str} (reads : Reads (fileLines text) infos) : getCheckoutInfo text = .ok infos := by
  have run := reads [] []
  rw [List.nil_append,List.nil_append,List.length_nil,← List.range_eq_range'] at run
  exact run

theorem infoAtSkip {line : Str} (absent : ¬ "checkout".toList <:+: line) : infoAt (line::rest) 0 = .ok [] := by
  have word : ¬ contains line "checkout".toList = true := fun found => absent (containsInfix.mp found)
  unfold infoAt
  rw [Int.natCast_zero,Py.getItemFirst]
  exact if_neg word

theorem infoAtRead {line next next2 sha total fault : Str} (word : "checkout".toList <:+: line)
    (first : search "checkout: ".toList (lazyUntil '\n') line = some sha)
    (second : search "total_cases: [".toList (lazyUntil ']') next = some total)
    (third : search "fail_cases: [".toList (lazyUntil ']') next2 = some fault) :
    infoAt (line::next::next2::rest) 0 = .ok [⟨sha,caseList total,caseList fault⟩] := by
  have nextItem : Py.getItem (line::next::next2::rest) ((0 : Nat) + 1) = .ok next := Py.getItemInside (n := 1) rfl
  have next2Item : Py.getItem (line::next::next2::rest) ((0 : Nat) + 2) = .ok next2 := Py.getItemInside (n := 2) rfl
  unfold infoAt
  refine Py.bindOk.mpr ⟨line,Py.getItemFirst line _,?_⟩
  rw [if_pos (containsInfix.mpr word)]
  refine Py.bindOk.mpr ⟨sha,Py.raiseNoneOk.mpr first,Py.bindOk.mpr ⟨next,nextItem,?_⟩⟩
  refine Py.bindOk.mpr ⟨total,Py.raiseNoneOk.mpr second,Py.bindOk.mpr ⟨next2,next2Item,?_⟩⟩
  exact Py.bindOk.mpr ⟨fault,Py.raiseNoneOk.mpr third,rfl⟩

end loop

inductive Entry where
  | other (line : Str)
  | checkout (first second third : Str) (info : HistoryInfo)

namespace Entry

def lines (unicode : Char → Bool) : Entry → List Str
  | other line => [line]
  | checkout first second third info =>
      [first ++ ("checkout: ".toList ++ info.gitSha),
        second ++ ("total_cases: ".toList ++ reprList unicode info.totalCasesList),
        third ++ ("fail_cases: ".toList ++ reprList unicode info.faultList)]

def infos : Entry → List HistoryInfo
  | other _ => []
  | checkout _ _ _ info => [info]

end Entry

structure Path (unicode : Char → Bool) (path : Str) : Prop where
  plain : Plain unicode path
  separator : ¬ ", ".toList <:+: path
  bracket : ']' ∉ path
  word : ¬ "checkout".toList <:+: path

structure Paths (unicode : Char → Bool) (paths : List Str) : Prop where
  some : paths ≠ []
  each : ∀ path ∈ paths, Path unicode path

/- What the texts of an entry may be; the first letter of `total_cases` would complete the word. -/
structure Loggable (unicode : Char → Bool) (first second third : Str) (info : HistoryInfo) : Prop where
  breaks : OneLine first ∧ OneLine second ∧ OneLine third ∧ OneLine info.gitSha
  firstMarker : ¬ "checkout: ".toList <:+: first
  secondMarker : ¬ "total_cases: [".toList <:+: second
  thirdMarker : ¬ "fail_cases: [".toList <:+: third
  secondWord : ¬ "checkout".toList <:+: second
  secondEnd : ¬ "checkou".toList <:+ second
  thirdWord : ¬ "checkout".toList <:+: third
  total : Paths unicode info.totalCasesList
  faults : Paths unicode info.faultList

def Entry.Allowed (unicode : Char → Bool) : Entry → Prop
  | .other line => OneLine line ∧ ¬ "checkout".toList <:+: line
  | .checkout first second third info => Loggable unicode first second third info

def logText (unicode : Char → Bool) (entries : List Entry) (ending : Str) : Str :=
  List.intercalate "\n".toList (entries.flatMap (Entry.lines unicode)) ++ ending

section entries
variable {unicode : Char → Bool} {paths : List Str}

def written (unicode : Char → Bool) (paths : List Str) : Str := List.intercalate ", ".toList (paths.map (reprText unicode))

theorem listShape : reprList unicode paths = '['::(written unicode paths ++ [']']) := rfl

theorem writtenWithout (ok : Paths unicode paths) {c : Char} (sign : c ≠ ',' ∧ c ≠ ' ' ∧ c ≠ '\x27')
    (absent : ∀ path ∈ paths, c ∉ path) : c ∉ written unicode paths := by
  intro listed
  have inside : [c] <:+: written unicode paths := by rwa [List.singleton_infix_iff]
  have signs : ',' ∉ [c] ∧ ' ' ∉ [c] ∧ '\x27' ∉ [c] := by
    simp only [List.mem_singleton]
    exact ⟨Ne.symm sign.1,Ne.symm sign.2.1,Ne.symm sign.2.2⟩
  obtain ⟨path,mem,here⟩ := infixWritten (List.cons_ne_nil c []) signs (fun path mem => (ok.each path mem).plain) inside
  rw [List.singleton_infix_iff] at here
  exact absent path mem here

theorem writtenBracket (ok : Paths unicode paths) : ']' ∉ written unicode paths :=
  writtenWithout ok (by decide) (fun path mem => (ok.each path mem).bracket)

theorem writtenLine (ok : Paths unicode paths) : OneLine (written unicode paths) :=
  ⟨writtenWithout ok (by decide) (fun path mem => (ok.each path mem).plain.oneLine.newline),
    writtenWithout ok (by decide) (fun path mem => (ok.each path mem).plain.oneLine.carriage)⟩

theorem writtenWord (ok : Paths unicode paths) : ¬ "checkout".toList <:+: written unicode paths := by
  intro inside
  obtain ⟨path,mem,here⟩ := infixWritten (by decide) (by decide) (fun path mem => (ok.each path mem).plain) inside
  exact (ok.each path mem).word here

theorem caseListWritten (ok : Paths unicode paths) : caseList (written unicode paths) = paths := by
  have unquoted : ∀ path ∈ paths, slice (reprText unicode path) 1 (-1) = path := by
    intro path mem
    rw [reprPlain (ok.each path mem).plain,sliceInner]
  rw [caseList,written,splitWritten ok.some (fun path mem => ⟨(ok.each path mem).plain,(ok.each path mem).separator⟩),List.map_map]
  exact (List.map_congr_left unquoted).trans (List.map_id paths)

theorem listFound (label ending : Str) {pre : Str} (unbordered : Unbordered (label ++ ['['])) (absent : ¬ label ++ ['['] <:+: pre)
    (ok : Paths unicode paths) : search (label ++ ['[']) (lazyUntil ']') (pre ++ (label ++ reprList unicode paths) ++ ending) =
      some (written unicode paths) := by
  have shape : pre ++ (label ++ reprList unicode paths) ++ ending =
      pre ++ (label ++ ['['] ++ (written unicode paths ++ ']'::ending)) := by
    simp [listShape]
  rw [shape]
  exact searchFirst unbordered absent (lazyUntilFirst (writtenBracket ok) (writtenLine ok).newline)

theorem wordEnding {line ending : Str} (newline : ending = ['\n'] ∨ ending = []) (absent : ¬ "checkout".toList <:+: line) :
    ¬ "checkout".toList <:+: line ++ ending := by
  intro inside
  rcases newline with same | same
  · rw [same] at inside
    rcases infixCut (by decide) inside with here | after
    · exact absent here
    · exact absurd after (by decide)
  · rw [same,List.append_nil] at inside
    exact absent inside

theorem listWord (label : Str) {pre : Str} (absent : ¬ "checkout".toList <:+: pre ++ label) (ok : Paths unicode paths) :
    ¬ "checkout".toList <:+: pre ++ (label ++ [' '] ++ reprList unicode paths) := by
  intro inside
  have shape : pre ++ (label ++ [' '] ++ reprList unicode paths) =
      pre ++ label ++ ' '::([] ++ '['::(written unicode paths ++ ']'::[])) := by
    simp [listShape]
  rw [shape] at inside
  rcases infixCut (by decide) inside with here | list
  · exact absent here
  rcases infixCut (by decide) list with before | list
  · exact absurd before (by decide)
  rcases infixCut (by decide) list with here | after
  · exact writtenWord ok here
  · exact absurd after (by decide)

theorem listLine (label : Str) {pre : Str} (before : OneLine pre) (plain : OneLine label) (ok : Paths unicode paths) :
    OneLine (pre ++ (label ++ reprList unicode paths)) := by
  have opening : OneLine ['['] := by decide
  have closing : OneLine [']'] := by decide
  rw [listShape]
  exact before.append (plain.append (opening.append ((writtenLine ok).append closing)))

theorem totalWord {second : Str} (word : ¬ "checkout".toList <:+: second) (ends : ¬ "checkou".toList <:+ second) :
    ¬ "checkout".toList <:+: second ++ "total_cases:".toList := by
  intro inside
  have across := infixAcross (c := 't') (w := "checkou".toList) (x := []) (u := second) (v := "otal_cases:".toList)
    (by decide) (by decide) inside
  rcases across with here | label | start
  · exact word here
  · exact absurd label (by decide)
  · exact ends start

theorem failWord {third : Str} (word : ¬ "checkout".toList <:+: third) :
    ¬ "checkout".toList <:+: third ++ "fail_cases:".toList := by
  intro inside
  rcases infixCut (c := 'f') (v := "ail_cases:".toList) (by decide) inside with here | label
  · exact word here
  · exact absurd label (by decide)

section checkout
variable {first second third : Str} {info : HistoryInfo}

theorem checkoutInfo (allowed : Loggable unicode first second third info) (ending : Str) (rest : List Str) :
    infoAt ((first ++ ("checkout: ".toList ++ info.gitSha) ++ ['\n'])::
      (second ++ ("total_cases: ".toList ++ reprList unicode info.totalCasesList) ++ ['\n'])::
      (third ++ ("fail_cases: ".toList ++ reprList unicode info.faultList) ++ ending)::rest) 0 = .ok [info] := by
  obtain ⟨_,_,_,shaLine⟩ := allowed.breaks
  have shape : first ++ ("checkout: ".toList ++ info.gitSha) ++ ['\n'] =
      first ++ ("checkout: ".toList ++ (info.gitSha ++ '\n'::[])) := by
    simp only [List.append_assoc]
  have word : "checkout".toList <:+: first ++ ("checkout: ".toList ++ (info.gitSha ++ '\n'::[])) :=
    ⟨first,": ".toList ++ (info.gitSha ++ '\n'::[]),by rw [List.append_assoc]; rfl⟩
  have sha := searchFirst (u := first) (v := info.gitSha ++ '\n'::[]) (by decide : Unbordered "checkout: ".toList)
    allowed.firstMarker (lazyUntilFirst shaLine.newline shaLine.newline)
  have total := listFound "total_cases: ".toList ['\n'] (by decide) allowed.secondMarker allowed.total
  have faults := listFound "fail_cases: ".toList ending (by decide) allowed.thirdMarker allowed.faults
  rw [shape,infoAtRead word sha total faults,caseListWritten allowed.total,caseListWritten allowed.faults]

theorem checkoutLines (allowed : Loggable unicode first second third info) :
    OneLine (first ++ ("checkout: ".toList ++ info.gitSha)) ∧
    OneLine (second ++ ("total_cases: ".toList ++ reprList unicode info.totalCasesList)) ∧
    OneLine (third ++ ("fail_cases: ".toList ++ reprList unicode info.faultList)) := by
  obtain ⟨firstLine,secondLine,thirdLine,shaLine⟩ := allowed.breaks
  have label : OneLine "checkout: ".toList := by decide
  exact ⟨firstLine.append (label.append shaLine),listLine "total_cases: ".toList secondLine (by decide) allowed.total,
    listLine "fail_cases: ".toList thirdLine (by decide) allowed.faults⟩

theorem checkoutReads (allowed : Loggable unicode first second third info) {tail t : Str} (follows : Follows tail t)
    {infos : List HistoryInfo} (reads : Reads (fileLines t) infos) :
    Reads (fileLines (List.intercalate "\n".toList ((Entry.checkout first second third info).lines unicode) ++ tail))
      (info::infos) := by
  obtain ⟨plain,plain2,plain3⟩ := checkoutLines allowed
  have word2 := listWord "total_cases:".toList (totalWord allowed.secondWord allowed.secondEnd) allowed.total
  have word3 := listWord "fail_cases:".toList (failWord allowed.thirdWord) allowed.faults
  obtain ⟨ending,newline,next⟩ := fileLinesFollows plain3.newline (by simp [listShape]) follows
  have cut : ∀ a b c : Str, List.intercalate "\n".toList [a,b,c] ++ tail = a ++ '\n'::(b ++ '\n'::(c ++ tail)) := by
    intro a b c
    simp [List.intercalate_cons_cons]
  rw [Entry.lines,cut,fileLinesNext plain.newline,fileLinesNext plain2.newline,next]
  refine readsCons (checkoutInfo allowed ending _) ?_
  refine readsCons (infoAtSkip (wordEnding (Or.inl rfl) word2)) ?_
  exact readsCons (infoAtSkip (wordEnding newline word3)) reads

end checkout

theorem entryReads {e : Entry} (allowed : e.Allowed unicode) {tail t : Str} (follows : Follows tail t)
    {infos : List HistoryInfo} (reads : Reads (fileLines t) infos) :
    Reads (fileLines (List.intercalate "\n".toList (e.lines unicode) ++ tail)) (e.infos ++ infos) := by
  cases e with
  | other line =>
    obtain ⟨plain,absent⟩ := allowed
    rw [Entry.lines,List.intercalate_singleton]
    by_cases empty : line = []
    · rw [empty,List.nil_append]
      rcases follows with next | ⟨stop,last⟩
      · rw [next]
        exact readsCons (infoAtSkip (by decide)) reads
      · rw [stop,← last]
        exact reads
    · obtain ⟨ending,newline,next⟩ := fileLinesFollows plain.newline empty follows
      rw [next]
      exact readsCons (infoAtSkip (wordEnding newline absent)) reads
  | checkout first second third info => exact checkoutReads allowed follows reads

theorem logTextMode {ending : Str} (newline : ending = ['\n'] ∨ ending = []) {entries : List Entry}
    (allowed : ∀ e ∈ entries, e.Allowed unicode) : textMode (logText unicode entries ending) = logText unicode entries ending := by
  have lines : ∀ line ∈ entries.flatMap (Entry.lines unicode), '\r' ∉ line := by
    intro line listed
    obtain ⟨e,mem,here⟩ := List.mem_flatMap.mp listed
    have fits := allowed e mem
    cases e with
    | other text =>
      cases List.mem_singleton.mp here
      exact fits.1.carriage
    | checkout first second third info =>
      obtain ⟨plain,plain2,plain3⟩ := checkoutLines fits
      simp only [Entry.lines,List.mem_cons,List.not_mem_nil,or_false] at here
      rcases here with rfl | rfl | rfl
      · exact plain.carriage
      · exact plain2.carriage
      · exact plain3.carriage
  have last : '\r' ∉ ending := by rcases newline with rfl | rfl <;> decide
  exact textModeSame (fun listed => (List.mem_append.mp listed).elim (intercalateWithout (by decide) lines) last)

theorem entriesRead {ending : Str} (newline : ending = ['\n'] ∨ ending = []) {entries : List Entry}
    (allowed : ∀ e ∈ entries, e.Allowed unicode) :
    Reads (fileLines (logText unicode entries ending)) (entries.flatMap Entry.infos) := by
  induction entries with
  | nil =>
    rcases newline with same | same
    · rw [same]
      exact readsCons (infoAtSkip (by decide)) readsNil
    · rw [same]
      exact readsNil
  | cons e entries ih =>
    rw [List.forall_mem_cons] at allowed
    have reads := ih allowed.2
    have shown : e.lines unicode ≠ [] := by cases e <;> simp [Entry.lines]
    unfold logText at reads ⊢
    rw [List.flatMap_cons,List.flatMap_cons]
    -- a log that ends with the entry ends with its last line
    by_cases last : entries.flatMap (Entry.lines unicode) = []
    · have stop : entries = [] := by
        cases entries with
        | nil => rfl
        | cons e entries => cases e <;> simp [Entry.lines] at last
      rw [stop,List.flatMap_nil,List.flatMap_nil,List.append_nil]
      have follows : Follows ending [] := newline.imp id (fun same => ⟨same,rfl⟩)
      exact entryReads allowed.1 follows readsNil
    · rw [Groups.intercalateAppend _ shown last,List.append_assoc,List.append_assoc]
      exact entryReads allowed.1 (Or.inl rfl) reads

end entries

/-- What was logged is read back, record by record, whatever stands around the records. -/
theorem checkoutInfoRead (unicode : Char → Bool) (entries : List Entry) (allowed : ∀ e ∈ entries, e.Allowed unicode)
    (ending : Str) (newline : ending = ['\n'] ∨ ending = []) :
    getCheckoutInfo (textMode (logText unicode entries ending)) = .ok (entries.flatMap Entry.infos) := by
  rw [logTextMode newline allowed]
  exact readsAll (entriesRead newline allowed)

def shortLog : List Entry :=
  [.other "start".toList,.checkout "INFO ".toList "INFO ".toList [] ⟨"3f".toList,["a.c".toList,"b.c".toList],["b.c".toList]⟩]

theorem shortPaths {path : Str} (listed : path ∈ ["a.c".toList,"b.c".toList]) : Path (fun _ => false) path := by
  have each : path = "a.c".toList ∨ path = "b.c".toList := by simpa using listed
  rcases each with rfl | rfl
  all_goals exact ⟨⟨List.all_eq_true.mp (by decide),by decide,by decide,by decide⟩,by decide,by decide,by decide⟩

theorem shortLogAllowed : ∀ e ∈ shortLog, e.Allowed (fun _ => false) := by
  have total : Paths (fun _ => false) ["a.c".toList,"b.c".toList] := ⟨by decide,fun path listed => shortPaths listed⟩
  have faults : Paths (fun _ => false) ["b.c".toList] :=
    ⟨by decide,fun path listed => shortPaths (List.mem_cons_of_mem _ listed)⟩
  refine List.forall_mem_cons.mpr ⟨⟨by decide,by decide⟩,List.forall_mem_singleton.mpr ?_⟩
  exact ⟨by decide,by decide,by decide,by decide,by decide,by decide,by decide,total,faults⟩

theorem shortLogRead : getCheckoutInfo (textMode (logText (fun _ => false) shortLog ['\n'])) =
    .ok [⟨"3f".toList,["a.c".toList,"b.c".toList],["b.c".toList]⟩] :=
  checkoutInfoRead (fun _ => false) shortLog shortLogAllowed ['\n'] (Or.inl rfl)

theorem completedWordFails : (∀ marker ∈ ["checkout".toList,"total_cases: [".toList,"fail_cases: [".toList],
      ¬ marker <:+: "checkou".toList) ∧
    getCheckoutInfo (textMode (logText (fun _ => false) [.checkout [] "checkou".toList [] ⟨"3f".toList,["a".toList],["a".toList]⟩]
      ['\n'])) = .error .attributeError := by
  refine ⟨by decide,?_⟩
  decide +kernel

end KernelTcp.EHelper

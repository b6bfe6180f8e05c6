import KernelTcp.CiObjects
import KernelTcp.Lib.Search

/-! The kernel configuration of a build: the items of its kconfig column become one text with
blanks between them, and that text becomes the lines of the configuration file that make reads. -/
namespace KernelTcp.Repro
open Text CiObjects

def detailItems (content : Str) : List Str :=
  ((lines content).map strip).filter (fun line => !line.isEmpty && !startsWith line "#".toList)

def configDetail (configs : Str → Option Str) (c : Str) : Except PyError (List Str) :=
  if startsWith c "http".toList then detailItems <$> Py.raiseNone .attributeError (configs c) else .ok []

def configItem (configs : Str → Option Str) (c : Str) : Except PyError (List Str) := do
  let details ← configDetail configs c
  .ok (details ++ if startsWith c "CONFIG_".toList then [c] else [])

def kconfigText : Kconfig → Except PyError Str
  | .text s => .ok s
  | _ => .error .attributeError

-- the empty pieces that the pattern leaves at both ends start with neither
def configItems (configs : Str → Option Str) (b : Build) : Except PyError (List Str) := do
  let kconfig ← kconfigText b.dbInstance.kconfig
  let configList := split (replace "[".toList [] (replace "]".toList [] kconfig))
  let items ← configList.mapM (configItem configs)
  .ok items.flatten

def appended (words : List String) : Str := words.flatMap (fun word => ' '::word.toList)

def kcovWords : List String := ["CONFIG_KCOV=y","CONFIG_DEBUG_INFO_DWARF4=y","CONFIG_KASAN=y","CONFIG_KASAN_INLINE=y",
  "CONFIG_CONFIGFS_FS=y","CONFIG_SECURITYFS=y"]

def gcovWords : List String := ["CONFIG_DEBUG_FS=y","CONFIG_GCOV_KERNEL=y","CONFIG_GCOV_FORMAT_AUTODETECT=y","CONFIG_GCOV_PROFILE_ALL=y"]

def specialWords : List String := ["CONFIG_USER_NS=y","CONFIG_VETH=y","CONFIG_TUN=y","CPU_FREQ=y","SCHED_SMT=y","SCHED_MC=y",
  "CONFIG_MANDATORY_FILE_LOCKING=y","CONFIG_VSOCKETS_LOOPBACK=y","CONFIG_UBSAN_SIGNED_OVERFLOW=y","CONFIG_FS_VERITY=y","CONFIG_NUMA=y"]

def render (configItems : List Str) (gcov : Bool) : Str :=
  let configCmd := List.intercalate " ".toList configItems ++ appended kcovWords
  let configCmd := if gcov then configCmd ++ appended gcovWords else configCmd
  configCmd ++ appended specialWords

def getConfig (configs : Str → Option Str) (b : Build) (gcov : Bool) : Except PyError Str := do
  let items ← configItems configs b
  .ok (render items gcov)

/- The file that the preparation of the image writes. It appends the first options once more. -/
def tempConfig (extraConfig : Str) : Str :=
  List.intercalate "\n".toList (splitOn " ".toList (extraConfig ++ appended kcovWords))

section Lines

def options (gcov : Bool) : List Str :=
  (kcovWords ++ (if gcov then gcovWords else []) ++ specialWords ++ kcovWords).map String.toList

def allWords : List String := kcovWords ++ gcovWords ++ specialWords

theorem wordsPlain {c : Char} (ends : c = ' ' ∨ c = '\n') {word : String} (listed : word ∈ allWords) : c ∉ word.toList := by
  have plain : allWords.all (fun word => word.toList.all (fun d => d != ' ' && d != '\n')) = true := by decide
  intro inside
  have found := List.all_eq_true.mp (List.all_eq_true.mp plain word listed) c inside
  obtain rfl | rfl := ends
  · exact absurd found (by decide)
  · exact absurd found (by decide)

theorem splitOnAppended {words : List String} (known : words ⊆ allWords) (s : Str) :
    splitOn [' '] (s ++ appended words) = splitOn [' '] s ++ words.map String.toList := by
  induction words generalizing s with
  | nil => simp [appended]
  | cons word words ih =>
    obtain ⟨here,later⟩ := List.cons_subset.mp known
    have next : s ++ appended (word::words) = (s ++ ' '::word.toList) ++ appended words := by simp [appended]
    rw [next,ih later,splitOnSnoc,splitOnWhole (wordsPlain (Or.inl rfl) here),List.append_assoc]
    rfl

theorem appendedPlain {words : List String} (known : words ⊆ allWords) : '\n' ∉ appended words := by
  intro listed
  obtain ⟨word,member,inside⟩ := List.mem_flatMap.mp listed
  cases List.mem_cons.mp inside with
  | inl blank => exact absurd blank (by decide)
  | inr inside => exact wordsPlain (Or.inr rfl) (known member) inside

theorem kcovKnown : kcovWords ⊆ allWords := by simp [allWords]
theorem gcovKnown : gcovWords ⊆ allWords := by simp [allWords]
theorem specialKnown : specialWords ⊆ allWords := by simp [allWords]

theorem tempConfigLines {extraConfig : Str} (plain : '\n' ∉ extraConfig) :
    lines (tempConfig extraConfig) = splitOn [' '] extraConfig ++ kcovWords.map String.toList := by
  have absent : '\n' ∉ extraConfig ++ appended kcovWords := by
    rw [List.mem_append,not_or]
    exact ⟨plain,appendedPlain kcovKnown⟩
  rw [← splitOnAppended kcovKnown]
  exact splitOnPieces (splitFromSome ' ' [] _) (splitFromOther (by simp) absent)

theorem configItemPlain {configs : Str → Option Str} {c : Str} {items : List Str} (word : '\n' ∉ c)
    (done : configItem configs c = .ok items) : ∀ item ∈ items, '\n' ∉ item := by
  obtain ⟨details,found,done⟩ := Py.bindOk.mp done
  cases Except.ok.inj done
  unfold configDetail at found
  intro item listed
  cases List.mem_append.mp listed with
  | inl detail =>
    split at found
    · cases content : configs c with
      | none => rw [content] at found; contradiction
      | some text =>
        rw [content] at found
        cases Except.ok.inj found
        obtain ⟨line,inText,rfl⟩ := List.mem_map.mp (List.mem_filter.mp detail).1
        exact fun newline => linesPlain text line inText (stripInside newline)
    · cases Except.ok.inj found
      contradiction
  | inr own =>
    split at own
    · rw [List.mem_singleton.mp own]
      exact word
    · contradiction

theorem splitWords {s : Str} {w : Str} (listed : w ∈ split s) : '\n' ∉ w := by
  obtain ⟨_,word⟩ := runsFromEach (by simp) s w listed
  intro newline
  exact absurd (word _ newline) (by decide)

theorem configItemsPlain {configs : Str → Option Str} {b : Build} {items : List Str} (done : configItems configs b = .ok items) :
    ∀ item ∈ items, '\n' ∉ item := by
  obtain ⟨kconfig,_,done⟩ := Py.bindOk.mp done
  obtain ⟨rows,each,done⟩ := Py.bindOk.mp done
  cases Except.ok.inj done
  intro item listed
  obtain ⟨row,inRows,inRow⟩ := List.mem_flatten.mp listed
  obtain ⟨c,word,here⟩ := Py.mapMEvery each inRows
  exact configItemPlain (splitWords word) here item inRow

theorem itemsWhole {c : Char} {items : List Str} : items.flatMap (splitOn [c]) = items ↔ ∀ item ∈ items, c ∉ item := by
  constructor
  · intro same item listed
    rw [← same] at listed
    obtain ⟨other,_,piece⟩ := List.mem_flatMap.mp listed
    exact splitFromPlain (by simp) other item piece
  · intro plain
    have whole : items.flatMap (splitOn [c]) = items.flatMap (fun item => [item]) :=
      List.flatMap_congr (fun item listed => splitOnWhole (plain item listed))
    rw [whole]
    simp

theorem renderPlain {items : List Str} (plain : ∀ item ∈ items, '\n' ∉ item) (gcov : Bool) : '\n' ∉ render items gcov := by
  unfold render
  split
  · simp only [List.mem_append,not_or]
    exact ⟨⟨⟨intercalateWithout (by decide) plain,appendedPlain kcovKnown⟩,appendedPlain gcovKnown⟩,appendedPlain specialKnown⟩
  · simp only [List.mem_append,not_or]
    exact ⟨⟨intercalateWithout (by decide) plain,appendedPlain kcovKnown⟩,appendedPlain specialKnown⟩

theorem renderWords (items : List Str) (gcov : Bool) : splitOn [' '] (render items gcov) ++ kcovWords.map String.toList =
    splitOn [' '] (List.intercalate " ".toList items) ++ options gcov := by
  unfold render options
  dsimp only
  cases gcov with
  | true =>
    rw [if_pos rfl,if_pos rfl,splitOnAppended specialKnown,splitOnAppended gcovKnown,splitOnAppended kcovKnown]
    simp only [List.map_append,List.append_assoc]
  | false =>
    rw [if_neg Bool.false_ne_true,if_neg Bool.false_ne_true,splitOnAppended specialKnown,splitOnAppended kcovKnown]
    simp only [List.map_append,List.append_assoc,List.nil_append]

end Lines

def storedConfigs (url : Str) : Option Str :=
  if url = "http://c".toList then some "# x\nCONFIG_B=\"p q\"\n\n".toList else none

def smallBuild : Build := ⟨⟨.text "[CONFIG_A=y http://c]".toList,[]⟩,[],[],none⟩

end KernelTcp.Repro

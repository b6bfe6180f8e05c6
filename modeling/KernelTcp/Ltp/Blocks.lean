import KernelTcp.Ltp.Readable

/-! The blocks of a log. An end line closes a block when the last mark before it is a start line;
the scan keeps the text since that line, and keeps it after the block is closed. -/
namespace KernelTcp.Ltp
open Text

def plainLine (line : Str) : Bool := !isStart line && !isEnd line

def sinceStart (before : List Str) : Option (List Str) :=
  match (before.rdropWhile plainLine).getLast? with
  | some mark => if isStart mark then some (before.rtakeWhile plainLine) else none
  | none => none

def closedAt (before : List Str) (line : Str) : Option (List Str) :=
  if isEnd line then (sinceStart before).map (fun between => between ++ [line]) else none

def closedBlocks (ls : List Str) : List (List Str) :=
  (List.range ls.length).filterMap (fun e => ls[e]?.bind (closedAt (ls.take e)))

def joined (block : List Str) : Str := block.flatMap (fun line => line ++ ['\n'])

def AllClose (ls : List Str) : Prop := ∀ u line v, ls = u ++ line::v → isEnd line = true → (sinceStart u).isSome = true

section marks
variable {line : Str} {before : List Str}

theorem startNotEnd (start : isStart line = true) : isEnd line = false := startsApart (by decide) start

theorem endNotStart (stop : isEnd line = true) : isStart line = false := startsApart (by decide) stop

theorem plainIff : plainLine line = true ↔ isStart line = false ∧ isEnd line = false := by
  rw [plainLine,Bool.and_eq_true,Bool.not_eq_true',Bool.not_eq_true']

theorem markNoTime (mark : isStart line = true ∨ isEnd line = true) (limit : Option Nat) : TimeReadable limit line := by
  intro time
  rcases mark with start | stop
  · exact absurd time (Bool.eq_false_iff.mp (startsApart (by decide) start))
  · exact absurd time (Bool.eq_false_iff.mp (startsApart (by decide) stop))

theorem sinceStartStart (start : isStart line = true) : sinceStart (before ++ [line]) = some [] := by
  have mark : plainLine line = false := by simp [plainLine,start]
  rw [sinceStart,List.rdropWhile_concat_neg plainLine before line (by simp [mark]),
    List.rtakeWhile_concat_neg plainLine before line (by simp [mark])]
  simp [start]

theorem sinceStartEnd (stop : isEnd line = true) : sinceStart (before ++ [line]) = none := by
  have mark : plainLine line = false := by simp [plainLine,stop]
  rw [sinceStart,List.rdropWhile_concat_neg plainLine before line (by simp [mark])]
  simp [endNotStart stop]

theorem sinceStartPlain (plain : plainLine line = true) :
    sinceStart (before ++ [line]) = (sinceStart before).map (fun between => between ++ [line]) := by
  unfold sinceStart
  rw [List.rdropWhile_concat_pos plainLine before line plain,List.rtakeWhile_concat_pos plainLine before line plain]
  split
  · split
    · rfl
    · rfl
  · rfl

end marks

section snoc
variable {ls : List Str} {line : Str}

theorem closedBlocksNext (ls : List Str) (line : Str) : closedBlocks (ls ++ [line]) = closedBlocks ls ++ (closedAt ls line).toList := by
  have early : ∀ e ∈ List.range ls.length, (ls ++ [line])[e]?.bind (closedAt ((ls ++ [line]).take e)) =
      ls[e]?.bind (closedAt (ls.take e)) := by
    intro e inside
    have short : e < ls.length := List.mem_range.mp inside
    rw [List.getElem?_append_left short,List.take_append_of_le_length (Nat.le_of_lt short)]
  unfold closedBlocks
  rw [List.length_append,List.length_singleton,List.range_succ,List.filterMap_append,List.filterMap_congr early]
  have here : (ls ++ [line])[ls.length]?.bind (closedAt ((ls ++ [line]).take ls.length)) = closedAt ls line := by
    rw [List.getElem?_concat_length,List.take_left]
    rfl
  cases closed : closedAt ls line with
  | none => simp only [List.filterMap_cons,here,closed,List.filterMap_nil,Option.toList_none]
  | some block => simp only [List.filterMap_cons,here,closed,List.filterMap_nil,Option.toList_some]

theorem allCloseNext : AllClose (ls ++ [line]) ↔ AllClose ls ∧ (isEnd line = true → (sinceStart ls).isSome = true) := by
  constructor
  · intro all
    refine ⟨?_,fun stop => all ls line [] rfl stop⟩
    intro u l v split stop
    exact all u l (v ++ [line]) (by rw [split,List.append_assoc,List.cons_append]) stop
  · intro h u l v split stop
    rcases List.eq_nil_or_concat v with empty | ⟨w,last,shape⟩
    · rw [empty] at split
      obtain ⟨rfl,same⟩ := List.append_inj' split rfl
      cases (List.cons.inj same).1
      exact h.2 stop
    · rw [shape,List.concat_eq_append,← List.cons_append,← List.append_assoc] at split
      exact h.1 u l w (List.append_inj' split rfl).1 stop

theorem closedInside {block : List Str} (closed : block ∈ closedBlocks ls) : ∀ line ∈ block, line ∈ ls := by
  obtain ⟨e,_,found⟩ := List.mem_filterMap.mp closed
  obtain ⟨stop,there,closing⟩ := Option.bind_eq_some_iff.mp found
  unfold closedAt at closing
  split at closing
  · obtain ⟨between,opened,rfl⟩ := Option.map_eq_some_iff.mp closing
    intro line listed
    rcases List.mem_append.mp listed with early | last
    · unfold sinceStart at opened
      split at opened
      · split at opened
        · cases Option.some.inj opened
          exact List.mem_of_mem_take ((List.rtakeWhile_suffix plainLine (ls.take e)).subset early)
        · contradiction
      · contradiction
    · rw [List.mem_singleton.mp last]
      exact List.mem_of_getElem? there
  · contradiction

theorem closedCount (ls : List Str) : (closedBlocks ls).length ≤ ls.countP isEnd ∧
    ((closedBlocks ls).length = ls.countP isEnd → AllClose ls) := by
  induction ls using List.reverseRecOn with
  | nil =>
    refine ⟨Nat.le_refl 0,fun _ u line v split => ?_⟩
    simp at split
  | append_singleton ls line ih =>
    rw [closedBlocksNext,List.length_append,List.countP_append,List.countP_singleton,allCloseNext]
    cases stop : isEnd line with
    | false => simpa [closedAt,stop] using ih
    | true =>
      cases opened : sinceStart ls with
      | none =>
        simp only [closedAt,stop,opened,Option.map_none,if_true,Option.toList_none,List.length_nil]
        exact ⟨by omega,by omega⟩
      | some between =>
        simp only [closedAt,stop,opened,Option.map_some,if_true,Option.toList_some,List.length_singleton]
        exact ⟨by omega,fun same => ⟨ih.2 (by omega),fun _ => rfl⟩⟩

end snoc

structure Scanned (before : List Str) (s : Scan) : Prop where
  reading : s.startExtracted = (sinceStart before).isSome
  content : ∀ between ∈ sinceStart before, s.extractedContent = some (joined between)

section scan
variable {limit : Option Nat} {before : List Str} {s next : Scan} {line : Str}

theorem joinedNext (block : List Str) (line : Str) : joined (block ++ [line]) = joined block ++ (line ++ ['\n']) := by
  simp [joined]

def extended (before : List Str) (s : Scan) (line : Str) : Scan :=
  match sinceStart before with
  | some between => { s with extractedContent := some (joined (between ++ [line])) }
  | none => s

theorem extractExtends (scanned : Scanned before s) : extract s line = .ok (extended before s line) := by
  have reading := scanned.reading
  unfold extract extended
  cases opened : sinceStart before with
  | none =>
    rw [opened] at reading
    rw [reading]
    rfl
  | some between =>
    have content := scanned.content between opened
    rw [opened] at reading
    dsimp only
    rw [reading,content,joinedNext]
    rfl

theorem extendedBlocks (before : List Str) (s : Scan) (line : Str) : (extended before s line).subBlocks = s.subBlocks := by
  unfold extended
  split
  · rfl
  · rfl

theorem extendedPlain (scanned : Scanned before s) (plain : plainLine line = true) : Scanned (before ++ [line]) (extended before s line) := by
  have reading := scanned.reading
  unfold extended
  cases opened : sinceStart before with
  | none =>
    have still : sinceStart (before ++ [line]) = none := by rw [sinceStartPlain plain,opened]; rfl
    rw [opened] at reading
    refine ⟨by rw [still]; exact reading,fun between more => ?_⟩
    rw [still] at more
    contradiction
  | some between =>
    have still : sinceStart (before ++ [line]) = some (between ++ [line]) := by rw [sinceStartPlain plain,opened]; rfl
    rw [opened] at reading
    refine ⟨by rw [still]; exact reading,fun more found => ?_⟩
    rw [still] at found
    cases Option.some.inj found
    rfl

theorem readTimeKeeps (done : readTime limit s line = .ok next) : ∃ cost, next = { s with totalCost := cost } := by
  unfold readTime at done
  split at done
  · exact ⟨s.totalCost,(Except.ok.inj done).symm⟩
  · obtain ⟨cost,_,last⟩ := Py.bindOk.mp done
    exact ⟨cost,(Except.ok.inj last).symm⟩

theorem scanStart (scanned : Scanned before s) (start : isStart line = true) :
    scanLine limit s line = .ok { extended before s line with extractedContent := some [], startExtracted := true } := by
  unfold scanLine
  rw [extractExtends scanned]
  exact if_pos start

theorem scanEnd (scanned : Scanned before s) (stop : isEnd line = true) : scanLine limit s line = (do
    let content ← Py.raiseNone .nameError (extended before s line).extractedContent
    .ok { extended before s line with startExtracted := false, subBlocks := s.subBlocks ++ [content] }) := by
  unfold scanLine
  rw [extractExtends scanned,← extendedBlocks before s line]
  exact (if_neg (Bool.eq_false_iff.mp (endNotStart stop))).trans (if_pos stop)

theorem scanPlain (scanned : Scanned before s) (plain : plainLine line = true) : scanLine limit s line =
    if startsWith line "Time cost".toList then readTime limit (extended before s line) line else .ok (extended before s line) := by
  obtain ⟨noStart,noEnd⟩ := plainIff.mp plain
  unfold scanLine
  rw [extractExtends scanned]
  exact (if_neg (Bool.eq_false_iff.mp noStart)).trans (if_neg (Bool.eq_false_iff.mp noEnd))

theorem lineKinds (line : Str) : isStart line = true ∨ isEnd line = true ∨ plainLine line = true := by
  cases start : isStart line with
  | true => exact Or.inl rfl
  | false =>
    cases stop : isEnd line with
    | true => exact Or.inr (Or.inl rfl)
    | false => exact Or.inr (Or.inr (plainIff.mpr ⟨start,stop⟩))

structure Stepped (limit : Option Nat) (before : List Str) (s next : Scan) (line : Str) : Prop where
  scanned : Scanned (before ++ [line]) next
  time : TimeReadable limit line
  blocks : ∃ more, next.subBlocks = s.subBlocks ++ more ∧ more.length = (if isEnd line then 1 else 0) ∧
    ((isEnd line = true → (sinceStart before).isSome = true) → more = (closedAt before line).toList.map joined)

theorem otherBlocks (other : isEnd line = false) (same : next.subBlocks = s.subBlocks) :
    ∃ more, next.subBlocks = s.subBlocks ++ more ∧ more.length = (if isEnd line then 1 else 0) ∧
      ((isEnd line = true → (sinceStart before).isSome = true) → more = (closedAt before line).toList.map joined) := by
  refine ⟨[],by rw [same,List.append_nil],by simp [other],fun _ => ?_⟩
  simp [closedAt,other]

theorem scanStep (scanned : Scanned before s) (done : scanLine limit s line = .ok next) : Stepped limit before s next line := by
  rcases lineKinds line with start | stop | plain
  · rw [scanStart scanned start] at done
    cases Except.ok.inj done
    refine ⟨⟨by rw [sinceStartStart start]; rfl,fun between found => ?_⟩,markNoTime (Or.inl start) limit,
      otherBlocks (startNotEnd start) (extendedBlocks before s line)⟩
    rw [sinceStartStart start] at found
    cases Option.some.inj found
    rfl
  · rw [scanEnd scanned stop] at done
    obtain ⟨content,held,last⟩ := Py.bindOk.mp done
    cases Except.ok.inj last
    refine ⟨⟨by rw [sinceStartEnd stop]; rfl,fun between found => ?_⟩,markNoTime (Or.inr stop) limit,
      ⟨[content],rfl,by simp [stop],fun closes => ?_⟩⟩
    · rw [sinceStartEnd stop] at found
      contradiction
    · obtain ⟨between,opened⟩ := Option.isSome_iff_exists.mp (closes stop)
      have kept := Py.raiseNoneOk.mp held
      simp only [extended,opened,Option.some.injEq] at kept
      simp [closedAt,stop,opened,kept]
  · rw [scanPlain scanned plain] at done
    split at done
    · rename_i starts
      obtain ⟨cost,same⟩ := readTimeKeeps done
      have kept := extendedPlain scanned plain
      rw [same] at done ⊢
      exact ⟨⟨kept.reading,kept.content⟩,(readTimeOk starts _).mp ⟨_,done⟩,
        otherBlocks (plainIff.mp plain).2 (extendedBlocks before s line)⟩
    · rename_i starts
      cases Except.ok.inj done
      exact ⟨extendedPlain scanned plain,fun time => absurd time starts,
        otherBlocks (plainIff.mp plain).2 (extendedBlocks before s line)⟩

theorem scanGoes (scanned : Scanned before s) (closes : isEnd line = true → (sinceStart before).isSome = true)
    (time : TimeReadable limit line) : ∃ next, scanLine limit s line = .ok next := by
  rcases lineKinds line with start | stop | plain
  · exact ⟨_,scanStart scanned start⟩
  · obtain ⟨between,opened⟩ := Option.isSome_iff_exists.mp (closes stop)
    rw [scanEnd scanned stop]
    simp only [extended,opened]
    exact ⟨_,rfl⟩
  · rw [scanPlain scanned plain]
    split
    · rename_i starts
      exact (readTimeOk starts _).mpr time
    · exact ⟨_,rfl⟩

end scan

section run
variable {limit : Option Nat} {cost : ℚ} {ls : List Str}

theorem scannedNone : Scanned [] ⟨[],false,none,cost⟩ :=
  ⟨rfl,fun between found => by contradiction⟩

theorem runSnoc (ls : List Str) (line : Str) (s : Scan) : (ls ++ [line]).foldlM (scanLine limit) s =
    ls.foldlM (scanLine limit) s >>= fun s => scanLine limit s line := by
  rw [List.foldlM_append]
  simp

theorem scanRun {s : Scan} (run : ls.foldlM (scanLine limit) ⟨[],false,none,cost⟩ = .ok s) :
    Scanned ls s ∧ (∀ line ∈ ls, TimeReadable limit line) ∧ s.subBlocks.length = ls.countP isEnd ∧
      (AllClose ls → s.subBlocks = (closedBlocks ls).map joined) := by
  induction ls using List.reverseRecOn generalizing s with
  | nil =>
    cases Except.ok.inj run
    exact ⟨scannedNone,by simp,rfl,fun _ => rfl⟩
  | append_singleton ls line ih =>
    rw [runSnoc] at run
    obtain ⟨middle,early,last⟩ := Py.bindOk.mp run
    obtain ⟨scanned,times,count,blocks⟩ := ih early
    obtain ⟨next,time,more,added,size,right⟩ := scanStep scanned last
    refine ⟨next,?_,?_,fun all => ?_⟩
    · intro l listed
      rcases List.mem_append.mp listed with early | last
      · exact times l early
      · rw [List.mem_singleton.mp last]
        exact time
    · rw [added,List.length_append,count,size,List.countP_append,List.countP_singleton]
    · obtain ⟨before,closes⟩ := allCloseNext.mp all
      rw [added,blocks before,right closes,closedBlocksNext,List.map_append]

theorem scanRunGoes (cost : ℚ) (all : AllClose ls) (times : ∀ line ∈ ls, TimeReadable limit line) :
    ∃ s, ls.foldlM (scanLine limit) ⟨[],false,none,cost⟩ = .ok s := by
  induction ls using List.reverseRecOn with
  | nil => exact ⟨_,rfl⟩
  | append_singleton ls line ih =>
    obtain ⟨before,closes⟩ := allCloseNext.mp all
    obtain ⟨middle,early⟩ := ih before (fun l listed => times l (by simp [listed]))
    obtain ⟨next,last⟩ := scanGoes (scanRun early).1 closes (times line (by simp))
    rw [runSnoc]
    exact ⟨next,Py.bindOk.mpr ⟨middle,early,last⟩⟩

theorem emptyReadable : LineReadable limit [] :=
  ⟨fun starts => absurd starts (by decide),fun starts => absurd starts (by decide),fun digits found => by contradiction⟩

theorem blockReads {block : List Str} (plain : ∀ line ∈ block, '\n' ∉ line) :
    (∃ item, createSubResult limit (joined block) = .ok item) ↔ ∀ line ∈ block, LineReadable limit (strip line) := by
  rw [createSubResultOk,joined,linesEnded plain,List.forall_mem_append]
  refine ⟨fun h => h.1,fun h => ⟨h,?_⟩⟩
  rw [List.forall_mem_singleton]
  exact emptyReadable

end run

def Splits (limit : Option Nat) (t next : TCResult) (ls : List Str) : Prop :=
  ∃ items, List.Forall₂ (fun block item => createSubResult limit (joined block) = .ok item) (closedBlocks ls) items
    ∧ next.items = t.items ++ items
    ∧ next.totalFailedCnt = t.totalFailedCnt + (items.map LTPResult.failCnt).sum
    ∧ next.totalBrokenCnt = t.totalBrokenCnt + (items.map LTPResult.brokenCnt).sum
    ∧ next.totalPassCnt = t.totalPassCnt + (items.map LTPResult.passCnt).sum

structure LogReadable (limit : Option Nat) (ls : List Str) : Prop where
  closes : AllClose ls
  blocks : ∀ block ∈ closedBlocks ls, ∀ line ∈ block, LineReadable limit (strip line)
  times : ∀ line ∈ ls, TimeReadable limit line

/-- The log is split into its blocks exactly when every end line closes one and every line of a
block and every time can be read; an end line too many fails or gives the last block again. -/
theorem ltpLogBlocks (limit : Option Nat) (t : TCResult) (logContent : Str) :
    (∃ next, t.parseLtpLog limit logContent = .ok next ∧ Splits limit t next (lines logContent)) ↔
      LogReadable limit (lines logContent) := by
  have plain : ∀ block ∈ closedBlocks (lines logContent), ∀ line ∈ block, '\n' ∉ line :=
    fun block closed line listed => linesPlain logContent line (closedInside closed line listed)
  constructor
  · intro h
    obtain ⟨next,done,items,rows,found,_⟩ := h
    obtain ⟨s,run,done⟩ := Py.bindOk.mp done
    obtain ⟨made,results,last⟩ := Py.bindOk.mp done
    cases Except.ok.inj last
    obtain ⟨_,times,count,_⟩ := scanRun run
    -- the items are as many as the end lines, and as many as the closed blocks
    have same : made = items := List.append_cancel_left found
    have size := (Py.mapMOk.mp results).length_eq
    rw [same,← rows.length_eq,count] at size
    refine ⟨(closedCount _).2 size.symm,fun block closed => ?_,times⟩
    obtain ⟨item,_,read⟩ := Py.rowsLeft rows closed
    exact (blockReads (plain block closed)).mp ⟨item,read⟩
  · intro readable
    obtain ⟨s,run⟩ := scanRunGoes t.totalCost readable.closes readable.times
    have blocks := (scanRun run).2.2.2 readable.closes
    have each : ∀ block ∈ closedBlocks (lines logContent), ∃ item, createSubResult limit (joined block) = .ok item
        ∧ createSubResult limit (joined block) = .ok item := by
      intro block closed
      obtain ⟨item,read⟩ := (blockReads (plain block closed)).mpr (readable.blocks block closed)
      exact ⟨item,read,read⟩
    obtain ⟨items,_,rows⟩ := Py.mapMRows (f := fun block => createSubResult limit (joined block))
      (P := fun block item => createSubResult limit (joined block) = .ok item) each
    have results : s.subBlocks.mapM (createSubResult limit) = .ok items := by
      rw [blocks,Py.mapMOk,List.forall₂_map_left_iff]
      exact rows
    refine ⟨⟨t.items ++ items,s.totalCost⟩,Py.bindOk.mpr ⟨s,run,Py.bindOk.mpr ⟨items,results,rfl⟩⟩,items,rows,rfl,?_⟩
    simp only [TCResult.totalFailedCnt,TCResult.totalBrokenCnt,TCResult.totalPassCnt,List.map_append,List.sum_append,and_self]

theorem staleBlockCounted :
    let log := "<<<test_start>>>\nTPASS\n<<<test_end>>>\n<<<test_end>>>".toList
    let item : LTPResult := { LTPResult.new with passCnt := 1 }
    closedBlocks (lines log) = [["TPASS".toList,"<<<test_end>>>".toList]]
      ∧ ((TCResult.mk [] (-1)).parseLtpLog (some 4300) log).map TCResult.items = .ok [item,item]
      ∧ ((TCResult.mk [] (-1)).parseLtpLog (some 4300) log).map TCResult.totalPassCnt = .ok 2
      ∧ ((TCResult.mk [] (-1)).parseLtpLog (some 4300) "<<<test_end>>>".toList).map TCResult.items = .error .nameError := by
  decide +kernel

end KernelTcp.Ltp

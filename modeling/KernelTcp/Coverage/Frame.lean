import KernelTcp.Coverage.Records

/-! What a call of `extract` leaves as it was. The name that was read is looked up before the
next line only, so a name on the last line of the text is never looked up. -/
namespace KernelTcp.Coverage
open Text

def NamedLast (ls : List Str) : Prop := ∃ before line, ls = before ++ [line] ∧ startsWith line "TN".toList = true
  ∧ ∀ early ∈ before, startsWith early "TN".toList = false

theorem namedLastCons {line : Str} {ls : List Str} (other : startsWith line "TN".toList = false) (last : NamedLast ls) :
    NamedLast (line::ls) := by
  obtain ⟨before,name,rfl,named,early⟩ := last
  exact ⟨line::before,name,rfl,named,List.forall_mem_cons.mpr ⟨other,early⟩⟩

theorem nameOther {line : Str} (other : startsWith line "TN".toList = false) (ls : List Str) : nameOf (line::ls) = nameOf ls :=
  if_neg (Bool.eq_false_iff.mp other)

theorem nameHere {line : Str} (here : startsWith line "TN".toList = true) (ls : List Str) : nameOf (line::ls) = nameOf [line] := by
  rw [nameOf,nameOf,if_pos here,if_pos here]

theorem readNameGiven {line : Str} {s next : Reading} (done : readName line s = .ok next) :
    next.tcName = s.tcName.or (nameOf [line]) ∧ (startsWith line "TN".toList = true → next.tcName.isSome) := by
  unfold readName at done
  cases known : s.tcName with
  | some early =>
    rw [if_neg (by simp [known])] at done
    cases Except.ok.inj done
    exact ⟨known,fun _ => by rw [known]; rfl⟩
  | none =>
    cases named : startsWith line "TN".toList with
    | false =>
      rw [if_neg (fun both => Bool.eq_false_iff.mp named both.1)] at done
      cases Except.ok.inj done
      refine ⟨?_,fun no => by contradiction⟩
      rw [known,nameOther named]
      rfl
    | true =>
      rw [if_pos ⟨named,known⟩] at done
      obtain ⟨name,item,same⟩ := Py.bindOk.mp done
      cases Except.ok.inj same
      refine ⟨?_,fun _ => rfl⟩
      rw [nameOf,if_pos named,Py.getItemFound (n := 1) item]
      rfl

theorem readLineGiven {kernelVersion line : Str} {s next : Reading} (done : readLine kernelVersion s line = .ok next) :
    next.tcName = s.tcName.or (nameOf [line]) ∧ (startsWith line "TN".toList = true → next.tcName.isSome) := by
  unfold readLine at done
  obtain ⟨afterName,name,done⟩ := Py.bindOk.mp done
  obtain ⟨afterSource,source,done⟩ := Py.bindOk.mp done
  obtain ⟨afterData,data,done⟩ := Py.bindOk.mp done
  have kept : afterData.tcName = afterName.tcName := by rw [readDataKeeps data,readSourceKeeps source]
  have last : next.tcName = afterName.tcName := by
    cases Except.ok.inj done
    split <;> exact kept
  rw [last]
  exact readNameGiven name

theorem readLinesRead {kernelVersion : Str} {names ls : List Str} {s last : Reading}
    (done : readLines kernelVersion names s ls = .ok (some last)) : ls.foldlM (readLine kernelVersion) s = .ok last := by
  induction ls generalizing s with
  | nil =>
    cases done
    rfl
  | cons line ls ih =>
    rw [readLines] at done
    split at done
    · cases Except.ok.inj done
    · obtain ⟨next,step,rest⟩ := Py.bindOk.mp done
      rw [List.foldlM_cons,step]
      exact ih rest

theorem knownNameLast {kernelVersion : Str} {names ls : List Str} {s last : Reading}
    (done : readLines kernelVersion names s ls = .ok (some last)) {name : Str} (given : last.tcName = some name) (known : name ∈ names) :
    (ls = [] ∧ s.tcName = some name) ∨ (s.tcName = none ∧ NamedLast ls) := by
  induction ls generalizing s with
  | nil =>
    cases done
    exact Or.inl ⟨rfl,given⟩
  | cons line ls ih =>
    rw [readLines] at done
    split at done
    · cases Except.ok.inj done
    · rename_i checked
      obtain ⟨next,step,rest⟩ := Py.bindOk.mp done
      obtain ⟨name',named⟩ := readLineGiven step
      have unnamed : s.tcName = none := by
        cases early : s.tcName with
        | none => rfl
        | some first =>
          have kept := Py.foldlMKeeps (fun s => s.tcName = some first) readLineKeeps (readLinesRead rest) (readLineKeeps step early)
          cases Option.some.inj (kept.symm.trans given)
          simp [early,known] at checked
      refine Or.inr ⟨unnamed,?_⟩
      rcases ih rest with ⟨rfl,here⟩ | ⟨later,last⟩
      · refine ⟨[],line,rfl,?_,by simp⟩
        by_contra other
        rw [name',unnamed,nameOf,if_neg other] at here
        contradiction
      · refine namedLastCons (Bool.eq_false_iff.mpr ?_) last
        intro here
        have some := named here
        rw [later] at some
        contradiction

theorem readLinesLast (kernelVersion : Str) (names : List Str) {ls : List Str} (last : NamedLast ls) {s : Reading}
    (unnamed : s.tcName = none) : readLines kernelVersion names s ls = (ls.foldlM (readLine kernelVersion) s).map some := by
  obtain ⟨before,line,rfl,_,early⟩ := last
  induction before generalizing s with
  | nil =>
    rw [List.nil_append,readLines,if_neg (by simp [unnamed]),List.foldlM_cons]
    cases readLine kernelVersion s line with
    | error e => rfl
    | ok next => rfl
  | cons first before ih =>
    rw [List.forall_mem_cons] at early
    rw [List.cons_append,readLines,if_neg (by simp [unnamed]),List.foldlM_cons]
    cases step : readLine kernelVersion s first with
    | error e => rfl
    | ok next =>
      have still : next.tcName = none := by
        rw [(readLineGiven step).1,unnamed,nameOther early.1]
        rfl
      exact ih still early.2

structure Framed (raw : Str) (info next : CoverageInfo) : Prop where
  kept : ∀ t v, info.get? t = some v → next.get? t = some v
  added : ∃ t, ∀ u ∈ next.keys, u ∈ info.keys ∨ u = t
  skipped : ∀ name ∈ nameOf (lines raw), name ∈ info.keys → next = info

theorem framedSame (raw : Str) (info : CoverageInfo) : Framed raw info info :=
  ⟨fun _ _ found => found,⟨[],fun _ known => Or.inl known⟩,fun _ _ _ => rfl⟩

theorem framedStore {raw : Str} {info : CoverageInfo} {t : Str} (v : FileLines) (new : t ∉ info.keys)
    (named : ∀ name ∈ nameOf (lines raw), name ∉ info.keys) : Framed raw info (info.set t v) := by
  refine ⟨?_,⟨t,?_⟩,fun name given known => absurd known (named name given)⟩
  · intro u w found
    have other : t ≠ u := fun same => new (same ▸ Dict.memKeys.mpr ⟨w,found⟩)
    rw [Dict.getSetOther _ _ other]
    exact found
  · intro u known
    exact ((Dict.memKeysSet info t u v).mp known).symm

theorem nameGiven {kernelVersion : Str} {ls : List Str} {s last : Reading} (done : ls.foldlM (readLine kernelVersion) s = .ok last) :
    last.tcName = s.tcName.or (nameOf ls) := by
  induction ls generalizing s with
  | nil =>
    cases done
    simp [nameOf]
  | cons line ls ih =>
    rw [List.foldlM_cons] at done
    obtain ⟨next,step,rest⟩ := Py.bindOk.mp done
    obtain ⟨given,named⟩ := readLineGiven step
    rw [ih rest]
    cases here : startsWith line "TN".toList with
    | false =>
      rw [given,nameOther here,nameOther here,nameOf,Option.or_none]
    | true =>
      obtain ⟨name,found⟩ := Option.isSome_iff_exists.mp (named here)
      rw [found,Option.some_or,← found,given,← nameHere here ls]

theorem extractFrames {kernelVersion raw : Str} {info next : CoverageInfo} (done : extract kernelVersion info raw = .ok next)
    (checked : ¬ NamedLast (lines raw) ∨ ∀ name ∈ nameOf (lines raw), name ∉ info.keys) : Framed raw info next := by
  unfold extract at done
  obtain ⟨out,read,stored⟩ := Py.bindOk.mp done
  cases out with
  | none =>
    cases Except.ok.inj stored
    exact framedSame raw info
  | some s =>
    cases Except.ok.inj stored
    have given : s.tcName = nameOf (lines raw) := nameGiven (readLinesRead read)
    have new : ∀ name ∈ nameOf (lines raw), name ∉ info.keys := by
      rcases checked with looked | new
      · intro name named known
        rcases knownNameLast read (given.trans named) known with empty | last
        · exact absurd empty.2 (by simp [Reading.start])
        · exact looked last.2
      · exact new
    exact framedStore s.covMap (storedNew (given ▸ new)) new

theorem namedLastReads {kernelVersion raw : Str} (last : NamedLast (lines raw))
    (returns : ∃ info next, extract kernelVersion info raw = .ok next) :
    ∃ s name, (lines raw).foldlM (readLine kernelVersion) Reading.start = .ok s ∧ nameOf (lines raw) = some name := by
  obtain ⟨info,next,done⟩ := returns
  obtain ⟨out,read,_⟩ := Py.bindOk.mp done
  rw [readLinesLast kernelVersion info.keys last rfl] at read
  cases run : (lines raw).foldlM (readLine kernelVersion) Reading.start with
  | error e =>
    rw [run] at read
    contradiction
  | ok s =>
    obtain ⟨before,line,whole,named,_⟩ := last
    have given := nameGiven run
    rw [whole,List.foldlM_append] at run
    obtain ⟨middle,_,step⟩ := Py.bindOk.mp run
    obtain ⟨next,step,same⟩ := Py.bindOk.mp step
    cases Except.ok.inj same
    obtain ⟨name,found⟩ := Option.isSome_iff_exists.mp ((readLineGiven step).2 named)
    exact ⟨s,name,rfl,given.symm.trans found⟩

theorem otherLines (v : FileLines) : ∃ w : FileLines, w ≠ v := by
  refine ⟨v.set [] ((v.get? []).getD [] ++ [0]),?_⟩
  intro same
  have found := congrArg (fun d : FileLines => d.get? []) same
  simp only [Dict.getSetSame] at found
  rw [← found] at found
  simp at found

/-- A call leaves the coverage it finds as it is and adds at most one test, in every state,
exactly when the text does not end with its first TN line; in one state also whenever that
name is not there yet. -/
theorem extractKeepsCoverage (kernelVersion raw : Str) (returns : ∃ info next, extract kernelVersion info raw = .ok next) :
    ((∀ info next, extract kernelVersion info raw = .ok next → Framed raw info next) ↔ ¬ NamedLast (lines raw)) ∧
    ∀ info next, extract kernelVersion info raw = .ok next → (∀ name ∈ nameOf (lines raw), name ∉ info.keys) →
      Framed raw info next := by
  refine ⟨⟨?_,fun looked info next done => extractFrames done (Or.inl looked)⟩,fun info next done new => extractFrames done (Or.inr new)⟩
  intro framed last
  obtain ⟨s,name,read,given⟩ := namedLastReads last returns
  -- a state that has the name, with other lines
  obtain ⟨v,other⟩ : ∃ v : FileLines, v ≠ s.covMap := otherLines s.covMap
  let info : CoverageInfo := Dict.empty.set name v
  have done : extract kernelVersion info raw = .ok (info.set (storedName info.keys s.tcName) s.covMap) := by
    unfold extract
    rw [readLinesLast kernelVersion info.keys last rfl,read]
    rfl
  have same := (framed _ _ done).skipped name given (by simp [info,Dict.memKeysSet])
  have stored := congrArg (fun d : CoverageInfo => d.get? (storedName info.keys s.tcName)) same
  simp only [Dict.getSetSame,info,Dict.getSet,Dict.getEmpty] at stored
  split at stored
  · exact other (Option.some.inj stored).symm
  · contradiction

def firstStored : CoverageInfo := Dict.empty.set "a".toList (Dict.empty.set "x.c".toList [1])

theorem secondTestAdded : ∃ next, extract "6.1".toList firstStored "TN:b\nSF:/k/6.1/y.c\nDA:2,1\nend_of_record\n".toList = .ok next
    ∧ Framed "TN:b\nSF:/k/6.1/y.c\nDA:2,1\nend_of_record\n".toList firstStored next := by
  have read : extract "6.1".toList firstStored "TN:b\nSF:/k/6.1/y.c\nDA:2,1\nend_of_record\n".toList =
      .ok (firstStored.set "b".toList (Dict.empty.set "y.c".toList [2])) := by rfl
  exact ⟨_,read,(extractKeepsCoverage _ _ ⟨_,_,read⟩).2 _ _ read (by decide +kernel)⟩

theorem lastNameOverwrites : ∃ next, extract "6.1".toList firstStored "TN:a".toList = .ok next
    ∧ firstStored.get? "a".toList = some (Dict.empty.set "x.c".toList [1]) ∧ next.get? "a".toList = some Dict.empty :=
  ⟨firstStored.set "a".toList Dict.empty,by rfl,rfl,rfl⟩

end KernelTcp.Coverage

import KernelTcp.Coverage.CoverageAna

/-! What `extract` stores for an info text, record by record. A record starts with its SF
line and ends with end_of_record; a later record of a file starts its list again. -/
namespace KernelTcp.Coverage
open Text

theorem readNameKeeps {line name : Str} {s next : Reading} (done : readName line s = .ok next)
    (named : s.tcName = some name) : next.tcName = some name := by
  unfold readName at done
  rw [if_neg (by simp [named])] at done
  cases done
  exact named

theorem readSourceKeeps {kernelVersion line : Str} {s next : Reading}
    (done : readSource kernelVersion line s = .ok next) : next.tcName = s.tcName := by
  unfold readSource at done
  split at done
  · obtain ⟨_,_,done⟩ := Py.bindOk.mp done
    obtain ⟨_,_,done⟩ := Py.bindOk.mp done
    obtain ⟨_,_,done⟩ := Py.bindOk.mp done
    cases done
    rfl
  · cases done
    rfl

theorem readDataKeeps {line : Str} {s next : Reading} (done : readData line s = .ok next) :
    next.tcName = s.tcName := by
  unfold readData at done
  split at done
  · obtain ⟨_,_,done⟩ := Py.bindOk.mp done
    obtain ⟨_,_,done⟩ := Py.bindOk.mp done
    obtain ⟨_,_,done⟩ := Py.bindOk.mp done
    split at done
    · obtain ⟨_,_,done⟩ := Py.bindOk.mp done
      obtain ⟨_,_,done⟩ := Py.bindOk.mp done
      obtain ⟨_,_,done⟩ := Py.bindOk.mp done
      obtain ⟨_,_,done⟩ := Py.bindOk.mp done
      cases done
      rfl
    · cases done
      rfl
  · cases done
    rfl

theorem readLineKeeps {kernelVersion line name : Str} {s next : Reading}
    (done : readLine kernelVersion s line = .ok next) (named : s.tcName = some name) : next.tcName = some name := by
  unfold readLine at done
  obtain ⟨afterName,hname,done⟩ := Py.bindOk.mp done
  obtain ⟨afterSource,hsource,done⟩ := Py.bindOk.mp done
  obtain ⟨afterData,hdata,done⟩ := Py.bindOk.mp done
  cases done
  have kept : afterData.tcName = some name := by
    rw [readDataKeeps hdata,readSourceKeeps hsource]
    exact readNameKeeps hname named
  split <;> exact kept

theorem readLinesNew {kernelVersion : Str} {names ls : List Str} {s last : Reading}
    (done : ls.foldlM (readLine kernelVersion) s = .ok last) (new : ∀ name ∈ last.tcName, name ∉ names) :
    readLines kernelVersion names s ls = .ok (some last) := by
  induction ls generalizing s with
  | nil =>
    cases done
    rfl
  | cons line ls ih =>
    have free : s.tcName.any (fun name => name ∈ names) = false := by
      cases known : s.tcName with
      | none => rfl
      | some early =>
        have kept := Py.foldlMKeeps (fun s => s.tcName = some early) readLineKeeps done known
        simpa using new early kept
    rw [List.foldlM_cons] at done
    obtain ⟨next,step,rest⟩ := Py.bindOk.mp done
    rw [readLines,if_neg (by simp [free]),step]
    exact ih rest

theorem extractNew {kernelVersion raw : Str} {info : CoverageInfo} {s : Reading}
    (read : (lines raw).foldlM (readLine kernelVersion) Reading.start = .ok s)
    (new : ∀ name ∈ s.tcName, name ∉ info.keys) :
    extract kernelVersion info raw = .ok (info.set (storedName info.keys s.tcName) s.covMap) := by
  unfold extract
  rw [readLinesNew read new]
  rfl

structure Record where
  path : Str
  data : List (Int × Int)
  deriving DecidableEq, Repr

def IsOther (line : Str) : Prop := startsWith line "TN".toList = false ∧ startsWith line "SF".toList = false
  ∧ startsWith line "DA".toList = false ∧ line ≠ "end_of_record".toList
instance (line) : Decidable (IsOther line) := by unfold IsOther; infer_instance

def IsHeading (line : Str) : Prop := startsWith line "TN:".toList = true ∨ IsOther line
instance (line) : Decidable (IsHeading line) := by unfold IsHeading; infer_instance

structure IsData (line : Str) (n count : Int) (number times rest : Str) : Prop where
  spelled : line = "DA:".toList ++ (number ++ ','::(times ++ rest))
  number : ':' ∉ number ∧ ',' ∉ number ∧ int number = .ok n
  times : ':' ∉ times ∧ ',' ∉ times ∧ int times = .ok count
  rest : rest = [] ∨ ∃ more, rest = ','::more

inductive Inside : List Str → List (Int × Int) → Prop where
  | done : Inside [] []
  | other {line : Str} {ls : List Str} {data : List (Int × Int)} (other : IsOther line) (next : Inside ls data) :
      Inside (line::ls) data
  | data {line number times rest : Str} {n count : Int} {ls : List Str} {data : List (Int × Int)}
      (here : IsData line n count number times rest) (next : Inside ls data) : Inside (line::ls) ((n,count)::data)

inductive Spells : List Str → List Record → Prop where
  | done : Spells [] []
  | heading {line : Str} {ls : List Str} {records : List Record} (heading : IsHeading line) (next : Spells ls records) :
      Spells (line::ls) records
  | record {path : Str} {body ls : List Str} {data : List (Int × Int)} {records : List Record}
      (inside : Inside body data) (next : Spells ls records) :
      Spells (("SF:".toList ++ path)::(body ++ "end_of_record".toList::ls)) (⟨path,data⟩::records)

def nameOf : List Str → Option Str
  | [] => none
  | line::ls => if startsWith line "TN".toList then (splitOn ":".toList line)[1]? else nameOf ls

def fileOf (kernelVersion path : Str) : Option Str :=
  if kernelVersion.isEmpty then none
  else (splitOn kernelVersion (path.takeWhile (fun c => c != ':')))[1]?.map (fun part => removePrefix part "/".toList)

def positives (data : List (Int × Int)) : List Int := (data.filter (fun e => 0 < e.2)).map Prod.fst

def lastRecord (kernelVersion : Str) (records : List Record) (f : Str) : Option Record :=
  records.reverse.find? (fun r => fileOf kernelVersion r.path = some f)

theorem readOther {line : Str} (other : IsOther line) (kernelVersion : Str) (s : Reading) :
    readLine kernelVersion s line = .ok s := by
  obtain ⟨name,source,data,last⟩ := other
  unfold readLine readName readSource readData
  simp only [name,source,data,last,Bool.false_eq_true,false_and,if_false,bind,Except.bind]

theorem nameHeading {line : Str} (heading : IsHeading line) (ls : List Str) :
    nameOf (line::ls) = (nameOf [line]).or (nameOf ls) := by
  simp only [nameOf]
  rcases heading with named | other
  · obtain ⟨rest,rfl⟩ := List.isPrefixOf_iff_prefix.mp named
    have found : (splitOn ":".toList ("TN:".toList ++ rest))[1]? = some (rest.takeWhile (fun c => c != ':')) := splitOnFirst rest
    rw [if_pos (by rfl),if_pos (by rfl),found,Option.some_or]
  · rw [if_neg (Bool.eq_false_iff.mp other.1),if_neg (Bool.eq_false_iff.mp other.1),Option.none_or]

theorem readHeading {line : Str} (heading : IsHeading line) (kernelVersion : Str) (s : Reading) :
    readLine kernelVersion s line = .ok { s with tcName := s.tcName.or (nameOf [line]) } := by
  rcases heading with named | other
  · obtain ⟨rest,rfl⟩ := List.isPrefixOf_iff_prefix.mp named
    have source : startsWith ("TN:".toList ++ rest) "SF".toList = false := rfl
    have data : startsWith ("TN:".toList ++ rest) "DA".toList = false := rfl
    have last : "TN:".toList ++ rest ≠ "end_of_record".toList := by simp
    have given : nameOf ["TN:".toList ++ rest] = some (rest.takeWhile (fun c => c != ':')) := splitOnFirst rest
    have piece : Py.getItem (splitOn ":".toList ("TN:".toList ++ rest)) 1 = .ok (rest.takeWhile (fun c => c != ':')) :=
      Py.getItemInside (n := 1) (splitOnFirst rest)
    have read : readName ("TN:".toList ++ rest) s =
        .ok { s with tcName := s.tcName.or (some (rest.takeWhile (fun c => c != ':'))) } := by
      unfold readName
      cases known : s.tcName with
      | none =>
        rw [if_pos ⟨rfl,rfl⟩,piece]
        rfl
      | some early =>
        rw [if_neg (by simp),Option.some_or,← known]
    unfold readLine readSource readData
    rw [read,given]
    simp only [source,data,last,Bool.false_eq_true,if_false,bind,Except.bind]
  · have none : nameOf [line] = none := if_neg (Bool.eq_false_iff.mp other.1)
    rw [readOther other,none,Option.or_none]

theorem readSourceLine {kernelVersion path f : Str} (named : fileOf kernelVersion path = some f) (s : Reading) :
    readLine kernelVersion s ("SF:".toList ++ path) = .ok { s with filePath := some f, covMap := s.covMap.set f [] } := by
  have name : startsWith ("SF:".toList ++ path) "TN".toList = false := rfl
  have source : startsWith ("SF:".toList ++ path) "SF".toList = true := rfl
  have data : startsWith ("SF:".toList ++ path) "DA".toList = false := rfl
  have last : "SF:".toList ++ path ≠ "end_of_record".toList := by simp
  have first : Py.getItem (splitOn ":".toList ("SF:".toList ++ path)) 1 = .ok (path.takeWhile (fun c => c != ':')) :=
    Py.getItemInside (n := 1) (splitOnFirst path)
  unfold fileOf at named
  split at named
  · contradiction
  · rename_i version
    obtain ⟨part,found,rfl⟩ := Option.map_eq_some_iff.mp named
    have second : Py.getItem (splitOn kernelVersion (path.takeWhile (fun c => c != ':'))) 1 = .ok part :=
      Py.getItemInside (n := 1) found
    unfold readLine readName readSource readData splitOnChecked
    simp only [name,source,data,last,first,second,version,Bool.false_eq_true,false_and,if_true,if_false,bind,Except.bind]

theorem dataFields {line number times rest : Str} {n count : Int} (here : IsData line n count number times rest) :
    ∃ fields, (splitOn ":".toList line)[1]? = some fields ∧ (splitOn ",".toList fields)[0]? = some number
      ∧ (splitOn ",".toList fields)[1]? = some times := by
  obtain ⟨rfl,⟨noColon,noComma,_⟩,⟨colonFree,commaFree,_⟩,more⟩ := here
  have kept : (number ++ ','::(times ++ rest)).takeWhile (fun c => c != ':') =
      number ++ ','::(times ++ rest.takeWhile (fun c => c != ':')) := by
    rw [List.takeWhile_append_of_pos (by intro c mem; simpa using ne_of_mem_of_not_mem mem noColon),
      List.takeWhile_cons_of_pos (by decide),
      List.takeWhile_append_of_pos (by intro c mem; simpa using ne_of_mem_of_not_mem mem colonFree)]
  have ends : (times ++ rest.takeWhile (fun c => c != ':')).takeWhile (fun c => c != ',') = times := by
    rw [List.takeWhile_append_of_pos (by intro c mem; simpa using ne_of_mem_of_not_mem mem commaFree)]
    rcases more with rfl | ⟨tail,rfl⟩ <;> simp
  have cut : splitOn ",".toList (number ++ ','::(times ++ rest.takeWhile (fun c => c != ':'))) =
      number::splitOn ",".toList (times ++ rest.takeWhile (fun c => c != ':')) := splitOnNext noComma _
  have fields : (splitOn ":".toList ("DA:".toList ++ (number ++ ','::(times ++ rest))))[1]? =
      some ((number ++ ','::(times ++ rest)).takeWhile (fun c => c != ':')) := splitOnFirst _
  have second : (splitOn ",".toList (times ++ rest.takeWhile (fun c => c != ':')))[0]? =
      some ((times ++ rest.takeWhile (fun c => c != ':')).takeWhile (fun c => c != ',')) := splitOnFirst _
  rw [kept] at fields
  rw [ends] at second
  exact ⟨_,fields,by rw [cut]; rfl,by rw [cut]; exact second⟩

theorem readDataLine {line number times rest : Str} {n count : Int} (here : IsData line n count number times rest)
    (kernelVersion : Str) {s : Reading} {f : Str} (opened : s.filePath = some f) {ls : List Int}
    (known : s.covMap.get? f = some ls) : readLine kernelVersion s line =
      .ok { s with covMap := if 0 < count then s.covMap.set f (ls ++ [n]) else s.covMap } := by
  obtain ⟨fields,found,foundNumber,foundTimes⟩ := dataFields here
  obtain ⟨rfl,⟨_,_,readNumber⟩,⟨_,_,readTimes⟩,_⟩ := here
  have second : Py.getItem (splitOn ":".toList ("DA:".toList ++ (number ++ ','::(times ++ rest)))) 1 = .ok fields :=
    Py.getItemInside (n := 1) found
  have left : Py.getItem (splitOn ",".toList fields) 0 = .ok number := Py.getItemInside (n := 0) foundNumber
  have right : Py.getItem (splitOn ",".toList fields) 1 = .ok times := Py.getItemInside (n := 1) foundTimes
  have name : startsWith ("DA:".toList ++ (number ++ ','::(times ++ rest))) "TN".toList = false := rfl
  have source : startsWith ("DA:".toList ++ (number ++ ','::(times ++ rest))) "SF".toList = false := rfl
  have data : startsWith ("DA:".toList ++ (number ++ ','::(times ++ rest))) "DA".toList = true := rfl
  have last : "DA:".toList ++ (number ++ ','::(times ++ rest)) ≠ "end_of_record".toList := by simp
  obtain ⟨filePath,tcName,covMap⟩ := s
  cases opened
  unfold readLine readName readSource readData
  simp only [name,source,data,last,second,left,right,readNumber,readTimes,known,Py.raiseNone,Bool.false_eq_true,
    false_and,if_true,if_false,bind,Except.bind]
  by_cases positive : 0 < count
  · simp only [positive,if_true]
  · simp only [positive,if_false]

theorem insideRead {body : List Str} {data : List (Int × Int)} (inside : Inside body data) (kernelVersion : Str)
    {s : Reading} {f : Str} (opened : s.filePath = some f) {ls : List Int} (known : s.covMap.get? f = some ls) :
    ∃ m : FileLines, body.foldlM (readLine kernelVersion) s = .ok { s with covMap := m }
      ∧ ∀ k, m.get? k = if f = k then some (ls ++ positives data) else s.covMap.get? k := by
  induction inside generalizing s ls with
  | done =>
    refine ⟨s.covMap,rfl,?_⟩
    intro k
    split
    · rename_i same
      rw [← same,known,positives,List.filter_nil,List.map_nil,List.append_nil]
    · rfl
  | other other _ ih =>
    rw [List.foldlM_cons,readOther other]
    exact ih opened known
  | @data line number times rest n count body data here _ ih =>
    rw [List.foldlM_cons,readDataLine here kernelVersion opened known]
    by_cases positive : 0 < count
    · rw [if_pos positive]
      obtain ⟨m,read,stored⟩ := ih (s := { s with covMap := s.covMap.set f (ls ++ [n]) }) opened (Dict.getSetSame _ _ _)
      refine ⟨m,read,?_⟩
      intro k
      rw [stored]
      by_cases same : f = k
      · simp [same,positives,positive]
      · rw [if_neg same,if_neg same]
        exact Dict.getSetOther _ _ same
    · rw [if_neg positive]
      obtain ⟨m,read,stored⟩ := ih opened known
      refine ⟨m,read,?_⟩
      intro k
      rw [stored]
      simp [positives,positive]

theorem recordRead {path : Str} {body : List Str} {data : List (Int × Int)} (inside : Inside body data)
    {kernelVersion f : Str} (named : fileOf kernelVersion path = some f) (s : Reading) (ls : List Str) :
    ∃ m : FileLines, (("SF:".toList ++ path)::(body ++ "end_of_record".toList::ls)).foldlM (readLine kernelVersion) s =
        ls.foldlM (readLine kernelVersion) { s with filePath := none, covMap := m }
      ∧ ∀ k, m.get? k = if f = k then some (positives data) else s.covMap.get? k := by
  obtain ⟨m,read,stored⟩ := insideRead inside kernelVersion
    (s := { s with filePath := some f, covMap := s.covMap.set f [] }) rfl (Dict.getSetSame _ _ _)
  refine ⟨m,?_,?_⟩
  · rw [List.foldlM_cons,readSourceLine named]
    change (body ++ "end_of_record".toList::ls).foldlM (readLine kernelVersion) _ = _
    rw [List.foldlM_append,read]
    rfl
  · intro k
    rw [stored,List.nil_append]
    by_cases same : f = k
    · rw [if_pos same,if_pos same]
    · rw [if_neg same,if_neg same]
      exact Dict.getSetOther _ _ same

theorem lastNext (kernelVersion : Str) (r : Record) (records : List Record) (f : Str) :
    lastRecord kernelVersion (r::records) f =
      (lastRecord kernelVersion records f).or (if fileOf kernelVersion r.path = some f then some r else none) := by
  unfold lastRecord
  rw [List.reverse_cons,List.find?_append,List.find?_singleton]
  simp

theorem nameInside {body ls : List Str} {data : List (Int × Int)} (inside : Inside body data) :
    nameOf (body ++ "end_of_record".toList::ls) = nameOf ls := by
  induction inside with
  | done => rfl
  | other other _ ih => rw [List.cons_append,nameOf,if_neg (Bool.eq_false_iff.mp other.1),ih]
  | data here _ ih =>
    obtain ⟨rfl,_⟩ := here
    exact ih

theorem spellsRead {ls : List Str} {records : List Record} (spelled : Spells ls records) {kernelVersion : Str}
    (named : ∀ r ∈ records, (fileOf kernelVersion r.path).isSome = true) (s : Reading) :
    ∃ last, ls.foldlM (readLine kernelVersion) s = .ok last ∧ last.tcName = s.tcName.or (nameOf ls)
      ∧ ∀ f, last.covMap.get? f =
        ((lastRecord kernelVersion records f).map (fun r => positives r.data)).or (s.covMap.get? f) := by
  induction spelled generalizing s with
  | done => exact ⟨s,rfl,by simp [nameOf],by simp [lastRecord]⟩
  | @heading line ls records heading _ ih =>
    obtain ⟨last,read,name,stored⟩ := ih named { s with tcName := s.tcName.or (nameOf [line]) }
    refine ⟨last,?_,?_,stored⟩
    · rw [List.foldlM_cons,readHeading heading]
      exact read
    · rw [nameHeading heading ls,← Option.or_assoc]
      exact name
  | @record path body ls data records inside _ ih =>
    obtain ⟨f,file⟩ := Option.isSome_iff_exists.mp (named ⟨path,data⟩ (by simp))
    obtain ⟨m,read,here⟩ := recordRead inside file s ls
    obtain ⟨last,rest,name,stored⟩ := ih (fun r mem => named r (by simp [mem])) { s with filePath := none, covMap := m }
    refine ⟨last,read.trans rest,?_,?_⟩
    · rw [name,← nameInside inside]
      rfl
    · intro k
      rw [stored,here,lastNext,file]
      cases lastRecord kernelVersion records k with
      | some r => simp
      | none =>
        by_cases same : f = k
        · simp [same]
        · simp [same]

/-- The stored lines of every source file are those with a positive count in some record of it,
exactly when every path gives a name and the last record stored under that name already has
these lines. -/
theorem storedAccumulates (kernelVersion : Str) (info : CoverageInfo) (raw : Str) (records : List Record)
    (spelled : Spells (lines raw) records) (new : ∀ name ∈ nameOf (lines raw), name ∉ info.keys) :
    (∃ next v, extract kernelVersion info raw = .ok next
        ∧ next.get? (storedName info.keys (nameOf (lines raw))) = some v
        ∧ ∀ r ∈ records, ∃ f stored, fileOf kernelVersion r.path = some f ∧ v.get? f = some stored
          ∧ ∀ n, n ∈ stored ↔ ∃ other ∈ records, other.path = r.path ∧ n ∈ positives other.data)
      ↔ ∀ r ∈ records, ∃ f last, fileOf kernelVersion r.path = some f ∧ lastRecord kernelVersion records f = some last
          ∧ ∀ n, n ∈ positives last.data ↔ ∃ other ∈ records, other.path = r.path ∧ n ∈ positives other.data := by
  have result : (∀ r ∈ records, (fileOf kernelVersion r.path).isSome = true) →
      ∃ v : FileLines, extract kernelVersion info raw = .ok (info.set (storedName info.keys (nameOf (lines raw))) v)
        ∧ ∀ f, v.get? f = (lastRecord kernelVersion records f).map (fun r => positives r.data) := by
    intro named
    obtain ⟨last,read,name,stored⟩ := spellsRead spelled named Reading.start
    rw [show Reading.start.tcName = none from rfl,Option.none_or] at name
    refine ⟨last.covMap,?_,fun f => (stored f).trans (by simp [Reading.start])⟩
    rw [extractNew read (by rwa [name]),name]
  constructor
  · intro h r mem
    obtain ⟨next,v,done,there,each⟩ := h
    obtain ⟨w,run,stored⟩ := result (fun r mem => by obtain ⟨f,_,file,_⟩ := each r mem; simp [file])
    cases Except.ok.inj (done.symm.trans run)
    rw [Dict.getSetSame] at there
    cases Option.some.inj there
    obtain ⟨f,lines,file,found,same⟩ := each r mem
    obtain ⟨last,isLast,rfl⟩ := Option.map_eq_some_iff.mp ((stored f).symm.trans found)
    exact ⟨f,last,file,isLast,same⟩
  · intro h
    obtain ⟨v,run,stored⟩ := result (fun r mem => by obtain ⟨f,_,file,_⟩ := h r mem; simp [file])
    refine ⟨_,v,run,Dict.getSetSame _ _ _,?_⟩
    intro r mem
    obtain ⟨f,last,file,isLast,same⟩ := h r mem
    exact ⟨f,positives last.data,file,by rw [stored,isLast]; rfl,same⟩

def headerTwice : Str := "TN:t\nSF:/k/6.1/h.h\nDA:1,1\nend_of_record\nSF:/k/6.1/h.h\nDA:2,1\nend_of_record\n".toList

def twoSources : Str := "TN:t\nSF:/k/6.1/h.h\nDA:1,1\nend_of_record\nSF:/k/6.1/x.c\nDA:2,1\nDA:3,0\nend_of_record\n".toList

def header (n : Int) : Record := ⟨"/k/6.1/h.h".toList,[(n,1)]⟩

theorem coveredOnce : IsData "DA:1,1".toList 1 1 "1".toList "1".toList [] :=
  ⟨rfl,by decide,by decide,Or.inl rfl⟩

theorem coveredTwo : IsData "DA:2,1".toList 2 1 "2".toList "1".toList [] :=
  ⟨rfl,by decide,by decide,Or.inl rfl⟩

theorem uncoveredThree : IsData "DA:3,0".toList 3 0 "3".toList "0".toList [] :=
  ⟨rfl,by decide,by decide,Or.inl rfl⟩

theorem lastLine : Spells [[]] [] := .heading (Or.inr (by decide)) .done

theorem headerTwiceSpelled : Spells (lines headerTwice) [header 1,header 2] := by
  have cut : lines headerTwice = ["TN:t".toList,"SF:/k/6.1/h.h".toList,"DA:1,1".toList,"end_of_record".toList,
    "SF:/k/6.1/h.h".toList,"DA:2,1".toList,"end_of_record".toList,[]] := by decide +kernel
  rw [cut]
  have second := @Spells.record "/k/6.1/h.h".toList _ _ _ _ (.data coveredTwo .done) lastLine
  exact .heading (Or.inl (by decide)) (@Spells.record "/k/6.1/h.h".toList _ _ _ _ (.data coveredOnce .done) second)

theorem twoSourcesSpelled : Spells (lines twoSources) [header 1,⟨"/k/6.1/x.c".toList,[(2,1),(3,0)]⟩] := by
  have cut : lines twoSources = ["TN:t".toList,"SF:/k/6.1/h.h".toList,"DA:1,1".toList,"end_of_record".toList,
    "SF:/k/6.1/x.c".toList,"DA:2,1".toList,"DA:3,0".toList,"end_of_record".toList,[]] := by decide +kernel
  rw [cut]
  have second := @Spells.record "/k/6.1/x.c".toList _ _ _ _ (.data coveredTwo (.data uncoveredThree .done)) lastLine
  exact .heading (Or.inl (by decide)) (@Spells.record "/k/6.1/h.h".toList _ _ _ _ (.data coveredOnce .done) second)

theorem twoSourcesAccumulate : ∃ next v, extract "6.1".toList Dict.empty twoSources = .ok next
    ∧ next.get? "t".toList = some v
    ∧ ∀ r ∈ [header 1,⟨"/k/6.1/x.c".toList,[(2,1),(3,0)]⟩], ∃ f stored, fileOf "6.1".toList r.path = some f
      ∧ v.get? f = some stored
      ∧ ∀ n, n ∈ stored ↔ ∃ other ∈ [header 1,⟨"/k/6.1/x.c".toList,[(2,1),(3,0)]⟩],
        other.path = r.path ∧ n ∈ positives other.data := by
  have name : storedName (Dict.empty : CoverageInfo).keys (nameOf (lines twoSources)) = "t".toList := by decide +kernel
  have accumulates := storedAccumulates "6.1".toList Dict.empty twoSources _ twoSourcesSpelled (by simp)
  rw [name] at accumulates
  refine accumulates.mpr ?_
  have apart : "/k/6.1/h.h".toList ≠ "/k/6.1/x.c".toList := by decide
  intro r mem
  rcases List.mem_cons.mp mem with rfl | second
  · refine ⟨"h.h".toList,header 1,by decide +kernel,by decide +kernel,?_⟩
    intro n
    refine ⟨fun inside => ⟨header 1,List.mem_cons_self,rfl,inside⟩,?_⟩
    intro h
    obtain ⟨other,listed,path,inside⟩ := h
    rcases List.mem_cons.mp listed with rfl | last
    · exact inside
    · cases List.mem_singleton.mp last
      exact absurd path.symm apart
  · cases List.mem_singleton.mp second
    refine ⟨"x.c".toList,⟨"/k/6.1/x.c".toList,[(2,1),(3,0)]⟩,by decide +kernel,by decide +kernel,?_⟩
    intro n
    refine ⟨fun inside => ⟨_,List.mem_cons_of_mem _ List.mem_cons_self,rfl,inside⟩,?_⟩
    intro h
    obtain ⟨other,listed,path,inside⟩ := h
    rcases List.mem_cons.mp listed with rfl | last
    · exact absurd path apart
    · cases List.mem_singleton.mp last
      exact inside

theorem earlierRecordLost : Spells (lines headerTwice) [header 1,header 2] ∧ 1 ∈ positives (header 1).data
    ∧ fileOf "6.1".toList (header 1).path = some "h.h".toList
    ∧ ∃ next v, extract "6.1".toList Dict.empty headerTwice = .ok next ∧ next.get? "t".toList = some v
      ∧ v.get? "h.h".toList = some [2] :=
  ⟨headerTwiceSpelled,by decide,by decide +kernel,_,_,rfl,rfl,rfl⟩

end KernelTcp.Coverage

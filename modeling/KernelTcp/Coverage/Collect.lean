import KernelTcp.Lib.Interleave
import KernelTcp.Lib.Dict
import KernelTcp.Lib.Paths
import KernelTcp.Processes

/-! How collect_coverage turns the archives of a kernel version into trace files. The counters of
one archive are unpacked into the version's directory, after those of the archive before it are
removed, and captured under the name of the archive. Fifteen processes share the versions. What
an archive holds and what the capturing tool makes of counters is not the script's to say. -/
namespace KernelTcp.Collect
open Text Interleave

structure Outside where
  unpacked : Str → Str → List (Str × Str)
  captured : Str → Str → Dict Str Str → Option Str

structure Version where
  listing : List Str
  infos : Dict Str Str
  gcda : Dict Str Str

structure Root where
  names : List Str
  distinct : names.Nodup
  version : Str → Option Version

def removeSuffix (s ending : Str) : Str := if endsWith s ending then s.take (s.length - ending.length) else s

def isArchive (f : Str) : Bool := Paths.suffix f == ".gz".toList || Paths.suffix f == ".tar.gz".toList

def tcName (f : Str) : Str := removeSuffix f ".tar.gz".toList

def infoName (f : Str) : Str := tcName f ++ ".info".toList

def removeGcda (v : Version) : Version := { v with gcda := Dict.empty }

def untar (files : List (Str × Str)) (v : Version) : Version :=
  { v with gcda := files.foldl (fun d e => d.set e.1 e.2) v.gcda }

section Parse
variable (out : Outside)

def lcov (name f : Str) (v : Version) : Version :=
  match out.captured name (tcName f) v.gcda with
  | none => v
  | some text => { v with infos := v.infos.set (infoName f) text }

def parseArchive (name f : Str) (v : Version) : Version :=
  if isArchive f then
    if (v.infos.get? (infoName f)).isSome then v
    else lcov out name f (untar (out.unpacked name f) (removeGcda v))
  else v

def parseIn (name f : Str) (v : Option Version) : Option Version := v.map (parseArchive out name f)

end Parse

def waits (v : Version) : Bool := v.listing.any (fun f => isArchive f && !(v.infos.get? (infoName f)).isSome)

def toList (root : Root) : List Str := root.names.filter (fun name => (root.version name).any waits)

def work (root : Root) (name : Str) : List (Str × Str) := ((root.version name).elim [] Version.listing).map (fun f => (name,f))

def processes (root : Root) : List (List (Str × Str)) :=
  (Processes.parseInfo (toList root)).map (fun part => part.flatMap (work root))

def collect (out : Outside) (es : List (Str × Str)) (root : Root) : Root :=
  { root with version := runAll (parseIn out) es root.version }

def trace (out : Outside) (name f : Str) : Option Str :=
  out.captured name (tcName f) ((out.unpacked name f).foldl (fun d e => d.set e.1 e.2) Dict.empty)

def traceOf (out : Outside) (name info f : Str) : Option Str :=
  if isArchive f && infoName f == info then trace out name f else none

section One
variable {out : Outside} {name : Str}

theorem lcovInfos (f : Str) (v : Version) (info : Str) : (lcov out name f v).infos.get? info =
    if infoName f = info then (out.captured name (tcName f) v.gcda).or (v.infos.get? info) else v.infos.get? info := by
  unfold lcov
  cases out.captured name (tcName f) v.gcda with
  | none => simp
  | some text =>
    dsimp only
    rw [Dict.getSet]
    split
    · rfl
    · rfl

theorem parseArchiveInfos (f : Str) (v : Version) (info : Str) :
    (parseArchive out name f v).infos.get? info = (v.infos.get? info).or (traceOf out name info f) := by
  unfold parseArchive traceOf
  by_cases archive : isArchive f = true
  · rw [if_pos archive,archive,Bool.true_and]
    cases known : v.infos.get? (infoName f) with
    | some text =>
      rw [Option.isSome_some,if_pos rfl]
      by_cases same : infoName f = info
      · rw [← same,known,Option.some_or]
      · rw [if_neg (by simpa using same),Option.or_none]
    | none =>
      rw [Option.isSome_none,if_neg Bool.false_ne_true,lcovInfos]
      by_cases same : infoName f = info
      · rw [if_pos same,if_pos (by simpa using same),← same]
        unfold untar removeGcda
        dsimp only
        rw [known,Option.or_none,Option.none_or]
        rfl
      · rw [if_neg same,if_neg (by simpa using same),Option.or_none]
        rfl
  · rw [if_neg archive]
    simp [archive]

@[simp] theorem parseArchiveListing (f : Str) (v : Version) : (parseArchive out name f v).listing = v.listing := by
  unfold parseArchive lcov
  split
  · split
    · rfl
    · split
      · rfl
      · rfl
  · rfl

def parseAll (out : Outside) (name : Str) (fs : List Str) (v : Version) : Version :=
  fs.foldl (fun v f => parseArchive out name f v) v

theorem parseAllInfos (fs : List Str) (v : Version) (info : Str) :
    (parseAll out name fs v).infos.get? info = (v.infos.get? info).or (fs.findSome? (traceOf out name info)) := by
  induction fs generalizing v with
  | nil => rw [List.findSome?_nil,Option.or_none]; rfl
  | cons f fs ih =>
    have first : parseAll out name (f::fs) v = parseAll out name fs (parseArchive out name f v) := rfl
    rw [first,ih,parseArchiveInfos,Option.or_assoc,List.findSome?_cons]
    cases traceOf out name info f with
    | none => rw [Option.none_or]
    | some text => rw [Option.some_or]

theorem parseAllListing (fs : List Str) (v : Version) : (parseAll out name fs v).listing = v.listing := by
  induction fs generalizing v with
  | nil => rfl
  | cons f fs ih => exact (ih _).trans (parseArchiveListing f v)

theorem parseInAll (fs : List Str) (v : Version) :
    fs.foldl (fun s f => parseIn out name f s) (some v) = some (parseAll out name fs v) := by
  induction fs generalizing v with
  | nil => rfl
  | cons f fs ih => exact ih (parseArchive out name f v)

theorem nothingWaits {v : Version} (idle : waits v = false) (info : Str) :
    (v.infos.get? info).or (v.listing.findSome? (traceOf out name info)) = v.infos.get? info := by
  cases known : v.infos.get? info with
  | some text => rfl
  | none =>
    rw [Option.none_or,List.findSome?_eq_none_iff]
    intro f listed
    unfold traceOf
    split
    · rename_i own
      rw [Bool.and_eq_true,beq_iff_eq] at own
      have there := List.any_eq_false.mp idle f listed
      rw [own.1,own.2,known] at there
      simp at there
    · rfl

end One

section Root
variable {root : Root}

theorem workOf {name : Str} {e : Str × Str} (listed : e ∈ work root name) : e.1 = name := by
  obtain ⟨f,_,rfl⟩ := List.mem_map.mp listed
  rfl

theorem toListDistinct (root : Root) : (toList root).Nodup := root.distinct.filter _

theorem parseInfoJoin (root : Root) : (Processes.parseInfo (toList root)).flatten = toList root :=
  Processes.processJoin (by decide) (toList root)

theorem processesFlat (root : Root) : (processes root).flatten = (toList root).flatMap (work root) := by
  have shared := parseInfoJoin root
  unfold processes
  rw [← List.flatMap_def,← List.flatMap_assoc,List.flatMap_id',shared]

theorem processesApart (root : Root) : Apart (processes root) := by
  have shared := parseInfoJoin root
  have distinct := toListDistinct root
  rw [← shared] at distinct
  refine List.Pairwise.map _ ?_ (List.nodup_flatten.mp distinct).2
  intro p q apart e inside f later same
  obtain ⟨m,first,own⟩ := List.mem_flatMap.mp inside
  obtain ⟨n,second,other⟩ := List.mem_flatMap.mp later
  rw [workOf own,workOf other] at same
  exact apart first (same ▸ second)

theorem ownWork (name n : Str) : own name (work root n) = if n = name then (root.version name).elim [] Version.listing else [] := by
  split
  · rename_i same
    subst same
    unfold own work
    rw [List.filter_eq_self.mpr (fun e listed => by simpa using workOf listed),List.map_map]
    exact List.map_id _
  · rename_i other
    exact ownNone (fun e listed same => other ((workOf listed).symm.trans same))

theorem ownAll {names : List Str} (distinct : names.Nodup) (name : Str) : own name (names.flatMap (work root)) =
    if name ∈ names then (root.version name).elim [] Version.listing else [] := by
  induction names with
  | nil => rfl
  | cons n names ih =>
    rw [List.nodup_cons] at distinct
    rw [List.flatMap_cons,ownAppend,ownWork,ih distinct.2]
    by_cases same : n = name
    · subst same
      rw [if_pos rfl,if_neg distinct.1,if_pos List.mem_cons_self,List.append_nil]
    · have back : name ≠ n := fun same' => same same'.symm
      rw [if_neg same,List.nil_append]
      simp only [List.mem_cons,back,false_or]

theorem collectVersion {out : Outside} {es : List (Str × Str)} (order : Interleaved (processes root) es) {name : Str} {v : Version}
    (known : root.version name = some v) : (collect out es root).version name =
      some (if name ∈ toList root then parseAll out name v.listing v else v) := by
  have turns : (collect out es root).version = runAll (parseIn out) es root.version := rfl
  rw [turns,runAllInterleaved order (processesApart root),processesFlat,runAllOwn,ownAll (toListDistinct root),known]
  split
  · exact parseInAll v.listing v
  · rfl

theorem collectInfos (out : Outside) {es : List (Str × Str)} (order : Interleaved (processes root) es) {name : Str} {v : Version}
    (known : root.version name = some v) (listed : name ∈ root.names) :
    ∃ final, (collect out es root).version name = some final ∧ final.listing = v.listing ∧
      ∀ info, final.infos.get? info = (v.infos.get? info).or (v.listing.findSome? (traceOf out name info)) := by
  rw [collectVersion order known]
  by_cases chosen : name ∈ toList root
  · rw [if_pos chosen]
    exact ⟨_,rfl,parseAllListing v.listing v,parseAllInfos v.listing v⟩
  · have idle : waits v = false := by
      unfold toList at chosen
      rw [List.mem_filter,known,Option.any_some] at chosen
      exact Bool.eq_false_iff.mpr (fun waiting => chosen ⟨listed,waiting⟩)
    rw [if_neg chosen]
    exact ⟨_,rfl,rfl,fun info => (nothingWaits idle info).symm⟩

end Root

def Fails (out : Outside) (name : Str) (v : Version) (f : Str) : Prop :=
  isArchive f = true ∧ v.infos.get? (infoName f) = none ∧
    ∀ g ∈ v.listing, isArchive g = true → infoName g = infoName f → trace out name g = none

theorem traceOfNone {out : Outside} {name info : Str} {fs : List Str} : fs.findSome? (traceOf out name info) = none ↔
    ∀ g ∈ fs, isArchive g = true → infoName g = info → trace out name g = none := by
  rw [List.findSome?_eq_none_iff]
  refine forall₂_congr ?_
  intro g listed
  unfold traceOf
  by_cases archive : isArchive g = true
  · by_cases same : infoName g = info
    · simp [archive,same]
    · simp [archive,same]
  · simp [archive]

/-- However the fifteen processes take turns: a trace file that is there stays as it is, a new one
is what its own archive gives when nothing but its counters is unpacked, whatever counters were
left in the directory, and a later run takes up a version again exactly when the capture failed
for one of its archives. -/
theorem tracesCollected (out : Outside) (root : Root) (es : List (Str × Str)) (order : Interleaved (processes root) es)
    (name : Str) (v : Version) (known : root.version name = some v) (listed : name ∈ root.names) :
    (∃ final, (collect out es root).version name = some final ∧
      ∀ info, final.infos.get? info = (v.infos.get? info).or (v.listing.findSome? (traceOf out name info))) ∧
    (name ∈ toList (collect out es root) ↔ ∃ f ∈ v.listing, Fails out name v f) := by
  obtain ⟨final,here,same,infos⟩ := collectInfos out order known listed
  refine ⟨⟨final,here,infos⟩,?_⟩
  have again : name ∈ toList (collect out es root) ↔ waits final = true := by
    unfold toList
    rw [List.mem_filter,here,Option.any_some]
    exact and_iff_right listed
  rw [again]
  unfold waits Fails
  rw [List.any_eq_true,same]
  refine exists_congr ?_
  intro f
  refine and_congr_right ?_
  intro _
  rw [Bool.and_eq_true,infos,Bool.not_eq_true',Option.isSome_eq_false_iff,Option.isNone_iff_eq_none,Option.or_eq_none_iff,
    traceOfNone]

def plainOutside : Outside := ⟨fun _ f => [("m.gcda".toList,f)],fun _ title gcda => some (title ++ gcda.values.flatten)⟩

def twoArchives : Version :=
  ⟨["a.tar.gz".toList,"b.tar.gz".toList,"vmlinux".toList],Dict.empty.set "b.info".toList "old".toList,
    Dict.empty.set "n.gcda".toList "left".toList⟩

def oneVersion : Root := ⟨["1f".toList],List.nodup_singleton _,fun name => if name = "1f".toList then some twoArchives else none⟩

theorem ownArchiveOnly : ∃ final, (collect plainOutside (processes oneVersion).flatten oneVersion).version "1f".toList = some final ∧
    final.infos.get? "a.info".toList = some "aa.tar.gz".toList ∧ final.infos.get? "b.info".toList = some "old".toList := by
  obtain ⟨⟨final,here,infos⟩,_⟩ := tracesCollected plainOutside oneVersion _ (interleavedFlat (processes oneVersion)) "1f".toList
    twoArchives rfl (by decide)
  refine ⟨final,here,?_,?_⟩
  · rw [infos]
    decide
  · rw [infos]
    decide

end KernelTcp.Collect

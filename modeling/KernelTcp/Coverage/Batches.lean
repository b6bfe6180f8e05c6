import KernelTcp.Coverage.Records

/-! Loading a checkout in two runs over one cache, against one run over all its info
files. The first run stores what is left after its common lines are removed. -/
namespace KernelTcp.Coverage
open Text

/- The texts in a directory, and the tests they add: a text of a new test reads to its
end, and the name it gives, if it gives one, is not there yet; a text that is read
again is passed over at the line after its name. -/
inductive Reads (kernelVersion : Str) : List Str → List Str → List (Str × FileLines) → Prop where
  | nil {names : List Str} : Reads kernelVersion names [] []
  | again {names texts : List Str} {es : List (Str × FileLines)} {raw : Str}
      (known : readLines kernelVersion names Reading.start (lines raw) = .ok none)
      (rest : Reads kernelVersion names texts es) : Reads kernelVersion names (raw::texts) es
  | cons {names texts : List Str} {es : List (Str × FileLines)} {raw : Str} {s : Reading}
      (read : (lines raw).foldlM (readLine kernelVersion) Reading.start = .ok s)
      (new : ∀ name ∈ s.tcName, name ∉ names)
      (rest : Reads kernelVersion (names ++ [storedName names s.tcName]) texts es) :
      Reads kernelVersion names (raw::texts) ((storedName names s.tcName,s.covMap)::es)

theorem readsAppend {kernelVersion : Str} {names texts later : List Str} {es fs : List (Str × FileLines)}
    (first : Reads kernelVersion names texts es) (second : Reads kernelVersion (names ++ es.map Prod.fst) later fs) :
    Reads kernelVersion names (texts ++ later) (es ++ fs) := by
  induction first with
  | nil => simpa using second
  | again known rest ih => exact .again known (ih second)
  | cons read new rest ih => exact .cons read new (ih (by simpa using second))

theorem extractBatch {kernelVersion : Str} {names texts : List Str} {es : List (Str × FileLines)}
    (batch : Reads kernelVersion names texts es) {info : CoverageInfo} (known : info.keys = names) :
    ∃ next, texts.foldlM (extract kernelVersion) info = .ok next ∧ next.entries = info.entries ++ es := by
  induction batch generalizing info with
  | nil => exact ⟨info,rfl,by simp⟩
  | @again names texts es raw skipped rest ih =>
    subst known
    obtain ⟨next,done,entries⟩ := ih rfl
    have unchanged : extract kernelVersion info raw = .ok info := by
      unfold extract
      rw [skipped]
      rfl
    refine ⟨next,?_,entries⟩
    rw [List.foldlM_cons,unchanged]
    exact done
  | @cons names texts es raw s read new rest ih =>
    subst known
    have fresh := storedNew new
    have grown : (info.set (storedName info.keys s.tcName) s.covMap).keys =
        info.keys ++ [storedName info.keys s.tcName] := by
      rw [Dict.keysSet,if_neg fresh]
    obtain ⟨next,done,entries⟩ := ih grown
    refine ⟨next,?_,?_⟩
    · rw [List.foldlM_cons,extractNew read new]
      exact done
    · rw [entries,Dict.entriesSetNew fresh,List.append_assoc]
      rfl

theorem loadBatch {kernelVersion : Str} (cache : Option CoverageInfo) {texts : List Str} {es : List (Str × FileLines)}
    (batch : Reads kernelVersion (cache.getD Dict.empty).keys texts es) :
    ∃ info : CoverageInfo, info.entries = (cache.getD Dict.empty).entries ++ es ∧
      loadCoverage4Checkout kernelVersion cache texts =
        .ok (if es = [] then ⟨info,cache⟩ else ⟨removeCommonCoverage info,some (removeCommonCoverage info)⟩) := by
  obtain ⟨info,done,entries⟩ := extractBatch batch rfl
  refine ⟨info,entries,?_⟩
  have grown : (info.keys.length : Int) - (cache.getD Dict.empty).keys.length = es.length := by
    unfold Dict.keys
    rw [entries,List.map_append,List.length_append,List.length_map,List.length_map]
    omega
  unfold loadCoverage4Checkout
  simp only [done,bind,Except.bind,grown]
  cases es with
  | nil => rfl
  | cons e es =>
    rw [if_pos (by simp),if_neg (by simp)]

def Lists (es : List (Str × FileLines)) (t f : Str) (n : Int) : Prop := ∃ v, (t,v) ∈ es ∧ Covered v f n

theorem coversLists {info : CoverageInfo} {t f : Str} {n : Int} : Covers info t f n ↔ Lists info.entries t f n := by
  unfold Covers Lists
  simp only [Dict.getEntry]

theorem listsAppend {es fs : List (Str × FileLines)} {t f : Str} {n : Int} :
    Lists (es ++ fs) t f n ↔ Lists es t f n ∨ Lists fs t f n := by
  unfold Lists
  simp only [List.mem_append,or_and_right,exists_or]

theorem commonAppend {es fs : List (Str × FileLines)} (some : es ≠ []) {f : Str} {n : Int} :
    Common (es ++ fs) f n ↔ Common es f n ∧ Shared fs f n := by
  unfold Common Shared
  rw [List.head?_append_of_ne_nil _ some,List.forall_mem_append,and_assoc]

theorem commonCovers {es : List (Str × FileLines)} {f : Str} {n : Int} (common : Common es f n) :
    ∃ e ∈ es, Covered e.2 f n := by
  obtain ⟨⟨e,first,mentioned⟩,all⟩ := common
  have mem := List.mem_of_mem_head? first
  obtain ⟨lines,found⟩ := Dict.memKeys.mp mentioned
  exact ⟨e,mem,lines,found,all e mem lines found⟩

theorem removeCommon {info : CoverageInfo} {f : Str} {n : Int}
    (common : Common (removeCommonCoverage info).entries f n) : Common info.entries f n := by
  obtain ⟨⟨_,first,mentioned⟩,all⟩ := common
  rw [removeEntries,List.head?_map] at first
  obtain ⟨e,here,rfl⟩ := Option.map_eq_some_iff.mp first
  rw [keysWithout] at mentioned
  refine ⟨⟨e,here,mentioned⟩,?_⟩
  intro other mem lines found
  have image : (other.1,withoutCommon (commonCoverage info) other.2) ∈ (removeCommonCoverage info).entries :=
    List.mem_map.mpr ⟨other,mem,rfl⟩
  have file : f ∈ (withoutCommon (commonCoverage info) other.2).keys := by
    rw [keysWithout]
    exact Dict.memKeys.mpr ⟨lines,found⟩
  obtain ⟨left,hleft⟩ := Dict.memKeys.mp file
  obtain ⟨⟨whole,same,inside⟩,_⟩ := withoutCovered.mp ⟨left,hleft,all _ image left hleft⟩
  cases Option.some.inj (found.symm.trans same)
  exact inside

theorem removeNotCommon (info : CoverageInfo) (f : Str) (n : Int) : ¬ Common (removeCommonCoverage info).entries f n := by
  intro common
  obtain ⟨_,mem,covered⟩ := commonCovers common
  rw [removeEntries] at mem
  obtain ⟨e,_,rfl⟩ := List.mem_map.mp mem
  exact (withoutCovered.mp covered).2 ((commonCovered info f n).mpr (removeCommon common))

def SameLines (a b : CoverageInfo) : Prop := ∀ t f n, Covers a t f n ↔ Covers b t f n

theorem batchLines {es fs : List (Str × FileLines)} (some : es ≠ []) {first once twice : CoverageInfo}
    (hfirst : first.entries = es) (honce : once.entries = es ++ fs)
    (htwice : twice.entries = (removeCommonCoverage first).entries ++ fs) (t f : Str) (n : Int) :
    (Covers (removeCommonCoverage once) t f n ↔
      (Lists es t f n ∨ Lists fs t f n) ∧ ¬ (Common es f n ∧ Shared fs f n)) ∧
    (Covers twice t f n ↔ (Lists es t f n ∧ ¬ Common es f n) ∨ Lists fs t f n) := by
  constructor
  · rw [removeCovers,coversLists,honce,listsAppend,commonAppend some]
  · rw [coversLists,htwice,listsAppend,← coversLists,removeCovers,coversLists,hfirst]

theorem batchesAgree {es fs : List (Str × FileLines)} (distinct : ((es ++ fs).map Prod.fst).Nodup) :
    (∀ t f n, (Lists es t f n ∧ ¬ Common es f n) ∨ Lists fs t f n ↔
      (Lists es t f n ∨ Lists fs t f n) ∧ ¬ (Common es f n ∧ Shared fs f n)) ↔
    ∀ f, (∃ e ∈ fs, f ∈ e.2.keys) → ∀ n, ¬ Common es f n := by
  constructor
  · intro same f ⟨e,mem,mentioned⟩ n common
    obtain ⟨lines,found⟩ := Dict.memKeys.mp mentioned
    by_cases shared : Shared fs f n
    · have covered : Lists fs e.1 f n := ⟨e.2,mem,lines,found,shared e mem lines found⟩
      exact ((same e.1 f n).mp (.inr covered)).2 ⟨common,shared⟩
    · obtain ⟨d,hd,covered⟩ := commonCovers common
      rcases (same d.1 f n).mpr ⟨.inl ⟨d.2,hd,covered⟩,fun both => shared both.2⟩ with kept | ⟨v,later,_⟩
      · exact kept.2 common
      · rw [List.map_append] at distinct
        exact (List.nodup_append.mp distinct).2.2 d.1 (List.mem_map.mpr ⟨d,hd,rfl⟩) d.1
          (List.mem_map.mpr ⟨(d.1,v),later,rfl⟩) rfl
  · intro apart t f n
    by_cases mentioned : ∃ e ∈ fs, f ∈ e.2.keys
    · have none := apart f mentioned n
      simp [none]
    · have shared : Shared fs f n := by
        intro e mem lines found
        exact absurd ⟨e,mem,Dict.memKeys.mpr ⟨lines,found⟩⟩ mentioned
      have later : ¬ Lists fs t f n := by
        intro ⟨v,mem,lines,found,_⟩
        exact mentioned ⟨(t,v),mem,Dict.memKeys.mpr ⟨lines,found⟩⟩
      simp [shared,later]

theorem loadedCovers {info : CoverageInfo} (nothing : ∀ f n, ¬ Common info.entries f n) {fs : List (Str × FileLines)}
    {cache : Option CoverageInfo} {t f : Str} {n : Int} :
    Covers (if fs = [] then (⟨info,cache⟩ : Loaded)
      else ⟨removeCommonCoverage info,some (removeCommonCoverage info)⟩).coverageInfo t f n ↔ Covers info t f n := by
  split
  · rfl
  · rw [removeCovers]
    simp [nothing f n]

/-- The two runs agree with the one run exactly when no file of the second batch has a
line common to the first batch. -/
theorem splitLoadAgrees (kernelVersion : Str) {texts later : List Str} {es fs : List (Str × FileLines)}
    (first : Reads kernelVersion [] texts es) (second : Reads kernelVersion (es.map Prod.fst) later fs) :
    ∃ once start twice, loadCoverage4Checkout kernelVersion none (texts ++ later) = .ok once ∧
      loadCoverage4Checkout kernelVersion none texts = .ok start ∧
      loadCoverage4Checkout kernelVersion start.cache later = .ok twice ∧
      (SameLines twice.coverageInfo once.coverageInfo ↔
        ∀ f, (∃ e ∈ fs, f ∈ e.2.keys) → ∀ n, ¬ Common es f n) := by
  obtain ⟨whole,honce,once⟩ := loadBatch none (readsAppend first second)
  obtain ⟨info,hfirst,start⟩ := loadBatch none first
  cases es with
  | nil =>
    obtain ⟨rest,htwice,twice⟩ := loadBatch none second
    have same : whole = rest := Dict.ext (honce.trans htwice.symm)
    subst same
    refine ⟨_,_,_,once,start,twice,?_⟩
    exact ⟨fun _ _ _ _ common => by simp [Common] at common,fun _ _ _ _ => Iff.rfl⟩
  | cons e es =>
    rw [if_neg (by simp)] at once start
    replace hfirst : info.entries = e::es := hfirst
    replace honce : whole.entries = (e::es) ++ fs := honce
    have names : (removeCommonCoverage info).keys = (e::es).map Prod.fst := by
      rw [← hfirst]
      exact Dict.keysMapValues _ info
    rw [← names] at second
    obtain ⟨rest,htwice,twice⟩ := loadBatch (some (removeCommonCoverage info)) second
    refine ⟨_,_,_,once,start,twice,?_⟩
    have nothing : ∀ f n, ¬ Common rest.entries f n := by
      intro f n common
      rw [htwice,commonAppend (by simp [removeEntries,hfirst])] at common
      exact removeNotCommon info f n common.1
    rw [← batchesAgree (honce ▸ whole.distinct)]
    refine forall_congr' (fun t => forall_congr' (fun f => forall_congr' (fun n => ?_)))
    obtain ⟨lost,kept⟩ := batchLines (by simp) hfirst honce htwice t f n
    rw [lost,← kept,loadedCovers nothing]

def firstText : Str := "TN:a\nSF:/k/6.1/x.c\nDA:1,3\nDA:2,0\nend_of_record".toList
def sameFile : Str := "TN:b\nSF:/k/6.1/x.c\nDA:1,1\nend_of_record".toList
def otherFile : Str := "TN:b\nSF:/k/6.1/y.c\nDA:1,1\nend_of_record".toList

def oneLine (file : Str) : FileLines := Dict.empty.set file [1]

theorem firstTextReads : Reads "6.1".toList [] [firstText] [("a".toList,oneLine "x.c".toList)] :=
  .cons (s := ⟨none,some "a".toList,oneLine "x.c".toList⟩) rfl (by simp) .nil

theorem otherFileReads : Reads "6.1".toList ["a".toList] [otherFile] [("b".toList,oneLine "y.c".toList)] :=
  .cons (s := ⟨none,some "b".toList,oneLine "y.c".toList⟩) rfl (by simp) .nil

theorem otherFileAgrees : ∃ once start twice,
    loadCoverage4Checkout "6.1".toList none [firstText,otherFile] = .ok once ∧
    loadCoverage4Checkout "6.1".toList none [firstText] = .ok start ∧
    loadCoverage4Checkout "6.1".toList start.cache [otherFile] = .ok twice ∧
    SameLines twice.coverageInfo once.coverageInfo := by
  obtain ⟨once,start,twice,honce,hstart,htwice,agree⟩ := splitLoadAgrees "6.1".toList firstTextReads otherFileReads
  refine ⟨once,start,twice,honce,hstart,htwice,agree.mpr ?_⟩
  intro f later n common
  obtain ⟨e,mem,mentioned⟩ := later
  obtain ⟨⟨d,head,file⟩,_⟩ := common
  cases List.mem_singleton.mp mem
  cases Option.some.inj head
  cases List.mem_singleton.mp mentioned
  revert file
  decide

theorem sameFileDiffers : ∃ once start twice,
    loadCoverage4Checkout "6.1".toList none [firstText,sameFile] = .ok once ∧
    loadCoverage4Checkout "6.1".toList none [firstText] = .ok start ∧
    loadCoverage4Checkout "6.1".toList start.cache [sameFile] = .ok twice ∧
    ¬ SameLines twice.coverageInfo once.coverageInfo := by
  refine ⟨_,_,_,rfl,rfl,rfl,?_⟩
  intro same
  have kept := (same "b".toList "x.c".toList 1).mp ⟨oneLine "x.c".toList,rfl,[1],rfl,by decide⟩
  obtain ⟨v,test,lines,file,mem⟩ := kept
  cases Option.some.inj test
  cases Option.some.inj file
  exact absurd mem (by decide)

end KernelTcp.Coverage

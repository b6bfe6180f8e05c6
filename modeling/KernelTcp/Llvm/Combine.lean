import KernelTcp.Lib.Paths
import KernelTcp.Lib.Search
import KernelTcp.Llvm.ParseMakeCmd
import Mathlib.Data.List.Dedup

/-! The second script of `parse_make_cmd`. It reads the lines of the build script again, and links
the bitcode of each compilation with the libraries whose headers the compilation includes. What a
path resolves to and in which order a set is walked through is not the program's to say. -/
namespace KernelTcp.Llvm
open Text

structure Outside where
  resolve : Str → Str
  order : List Str → List Str
  ordered : ∀ xs, (order xs).Perm xs.dedup

def dependencyTable : List (String × String) := [("include","lib/libltp.bc"),("include/old","lib/libltp.bc"),("lib","lib/libltp.bc"),
  ("testcases/kernel/mem/include","testcases/kernel/mem/lib/mem.bc"),
  ("testcases/kernel/include","testcases/kernel/lib/libkerntest.bc"),
  ("testcases/kernel/mem/hugetlb/lib","testcases/kernel/mem/hugetlb/lib/hugetlb.bc"),
  ("utils/sctp/include","utils/sctp/lib/libsctp.bc"),
  ("utils/sctp/testlib","utils/sctp/testlib/libsctputil.bc"),
  ("testcases/network/rpc/rpc-tirpc/tests_pack/lib","testcases/network/rpc/rpc-tirpc/tests_pack/lib/librpc-tirpc.bc"),
  ("testcases/network/rpc/rpc-tirpc/tests_pack/include","testcases/network/rpc/rpc-tirpc/tests_pack/lib/librpc-tirpc.bc"),
  ("testcases/network/rpc/basic_tests/rpc01/lib","testcases/network/rpc/basic_tests/rpc01/lib/librpc01.bc")]

def dependencyBc (dir : Str) : Option Str := (dependencyTable.find? (fun e => e.1.toList = dir)).map (fun e => e.2.toList)

def belowRoot (rootPath dir : Str) : Str := strip (removePrefix dir (rootPath ++ "/".toList))

def libraryOf (rootPath dir : Str) : Option Str := dependencyBc (belowRoot rootPath dir)

def isInclude (item : Str) : Bool := startsWith item "-I".toList

def includePath (item : Str) : Str := strip (removePrefix item "-I".toList)

def bcFile (items : List Str) : Str := items.foldl (fun bc item => if contains item ".bc".toList then strip item else bc) []

def linkLine (rootPath bc : Str) (libraries : List Str) : Str :=
  "llvm-link ".toList ++ libraries.flatMap (fun d => Paths.join (rootPath ++ "/".toList) d ++ " ".toList) ++
    bc ++ " -o dep_".toList ++ bc

section Combine
variable (out : Outside) (rootPath : Str)

def dependency (curDir : Option Str) (item : Str) : Except PyError Str :=
  let depPath := includePath item
  if Paths.isAbsolute depPath then .ok (out.resolve (Paths.text depPath))
  else match curDir with
    | none => .error .typeError
    | some dir => .ok (out.resolve (Paths.join dir depPath))

-- the libraries themselves are not linked
def linkLines (dir : Str) (dependencies : List Str) (bc : Str) : Option (Str × Str) :=
  if (libraryOf rootPath dir).isSome then none
  else
    let libraries := out.order (dependencies.filterMap (libraryOf rootPath))
    if libraries.isEmpty then none else some ("cd ".toList ++ dir,linkLine rootPath bc libraries)

def written (link : Option (Str × Str)) : List Str := link.elim [] (fun l => [l.1,l.2])

def combineLine (s : Option Str × List Str) (line : Str) : Except PyError (Option Str × List Str) := do
  let curDir := if isCd line then some (strip (removePrefix line "cd".toList)) else s.1
  if startsWith line "clang".toList then do
    let temp := splitOn " ".toList line
    let dependencies ← (temp.filter isInclude).mapM (dependency out curDir)
    let dir ← Py.raiseNone .attributeError curDir
    .ok (curDir,s.2 ++ written (linkLines out rootPath dir dependencies (bcFile temp)))
  else .ok (curDir,s.2)

def combine (ls : List Str) : Except PyError (List Str) := do
  let s ← ls.foldlM (combineLine out rootPath) (none,[])
  .ok s.2

end Combine

def fileText (ls : List Str) : Str := ls.flatMap (fun l => l ++ ['\n'])

/- Both scripts, as they are written to the files. The first line of the build script is put in
front after the others were read. -/
def bitcodeScripts (out : Outside) (isDir : Str → Bool) (rootPath makeText : Str) : Except PyError (Str × Str) := do
  let build ← parseMakeCmd isDir rootPath makeText
  let linked ← combine out rootPath (lines (fileText build.tail))
  .ok (fileText build,fileText linked)

def dirOf (cd : Str) : Str := strip (removePrefix cd "cd".toList)

def linkOf (out : Outside) (rootPath : Str) (e : Option Str × Str) : Option (Str × Str) :=
  match e.1 with
  | none => none
  | some cd =>
    if startsWith e.2 "clang".toList then
      let temp := splitOn " ".toList e.2
      linkLines out rootPath (dirOf cd) ((temp.filter isInclude).map (fun item => out.resolve (Paths.join (dirOf cd) (includePath item))))
        (bcFile temp)
    else none

def Includes (out : Outside) (rootPath cd line : Str) (entry : String × String) : Prop :=
  ∃ item ∈ splitOn " ".toList line, isInclude item = true ∧
    belowRoot rootPath (out.resolve (Paths.join (dirOf cd) (includePath item))) = entry.1.toList

instance (out : Outside) (rootPath cd line : Str) (entry : String × String) : Decidable (Includes out rootPath cd line entry) := by
  unfold Includes; infer_instance

def Linked (out : Outside) (rootPath : Str) : Option Str × Str → Prop
  | (none,_) => False
  | (some cd,line) => startsWith line "clang".toList = true ∧
      (∀ entry ∈ dependencyTable, belowRoot rootPath (dirOf cd) ≠ entry.1.toList) ∧
      ∃ entry ∈ dependencyTable, Includes out rootPath cd line entry

instance (out : Outside) (rootPath : Str) (e : Option Str × Str) : Decidable (Linked out rootPath e) := by
  unfold Linked; split <;> infer_instance

def Bitcode (items : List Str) (bc : Str) : Prop :=
  (∃ before item after, items = before ++ item::after ∧ contains item ".bc".toList = true ∧
    (∀ later ∈ after, contains later ".bc".toList = false) ∧ bc = strip item) ∨
  (∀ item ∈ items, contains item ".bc".toList = false) ∧ bc = []

/- The link of a compilation, in its directory: with every library whose headers it uses, and no other. -/
def LinkFor (out : Outside) (rootPath : Str) (e link : Option Str × Str) : Prop :=
  ∃ cd bc libraries, e.1 = some cd ∧ Bitcode (splitOn " ".toList e.2) bc ∧
    link = (some ("cd ".toList ++ dirOf cd),linkLine rootPath bc libraries) ∧ libraries.Nodup ∧
    ∀ library, library ∈ libraries ↔ ∃ entry ∈ dependencyTable, Includes out rootPath cd e.2 entry ∧ library = entry.2.toList

def Placed (es : List (Option Str × Str)) : Prop := ∀ e ∈ es, startsWith e.2 "clang".toList = true → e.1 ≠ none

instance (es : List (Option Str × Str)) : Decidable (Placed es) := by unfold Placed; infer_instance

section Run
variable {out : Outside} {rootPath : Str}

theorem filterMapRelated {α β : Type} {p : α → Prop} [DecidablePred p] {f : α → Option β} {r : α → β → Prop}
    (kept : ∀ a, p a → ∃ b, f a = some b ∧ r a b) (dropped : ∀ a, ¬ p a → f a = none) (xs : List α) :
    List.Forall₂ r (xs.filter p) (xs.filterMap f) := by
  induction xs with
  | nil => exact .nil
  | cons a xs ih =>
    by_cases here : p a
    · obtain ⟨b,found,related⟩ := kept a here
      rw [List.filter_cons_of_pos (by simpa using here),List.filterMap_cons_some found]
      exact .cons related ih
    · rw [List.filter_cons_of_neg (by simpa using here),List.filterMap_cons_none (dropped a here)]
      exact ih

theorem findDistinct {es : List (String × String)} (distinct : es.Pairwise (fun e f => e.1.toList ≠ f.1.toList)) {entry : String × String}
    (listed : entry ∈ es) : es.find? (fun e => e.1.toList = entry.1.toList) = some entry := by
  induction es with
  | nil => exact absurd listed List.not_mem_nil
  | cons e es ih =>
    rw [List.pairwise_cons] at distinct
    cases List.mem_cons.mp listed with
    | inl same => exact same ▸ List.find?_cons_of_pos (by simp)
    | inr later =>
      rw [List.find?_cons_of_neg (by simpa using distinct.1 entry later)]
      exact ih distinct.2 later

theorem dependencyIff {dir d : Str} : dependencyBc dir = some d ↔ ∃ entry ∈ dependencyTable, entry.1.toList = dir ∧ d = entry.2.toList := by
  have distinct : dependencyTable.Pairwise (fun e f => e.1.toList ≠ f.1.toList) := by decide +kernel
  unfold dependencyBc
  rw [Option.map_eq_some_iff]
  constructor
  · intro known
    obtain ⟨entry,found,rfl⟩ := known
    exact ⟨entry,List.mem_of_find?_eq_some found,by simpa using List.find?_some found,rfl⟩
  · intro known
    obtain ⟨entry,listed,rfl,rfl⟩ := known
    exact ⟨entry,findDistinct distinct listed,rfl⟩

theorem bcFileBitcode (items : List Str) : Bitcode items (bcFile items) := by
  unfold bcFile
  induction items using List.reverseRecOn with
  | nil => exact .inr ⟨by simp,rfl⟩
  | append_singleton items item ih =>
    rw [List.foldl_append,List.foldl_cons,List.foldl_nil]
    by_cases named : contains item ".bc".toList = true
    · rw [if_pos named]
      exact .inl ⟨items,item,[],rfl,named,by simp,rfl⟩
    · have other : contains item ".bc".toList = false := Bool.not_eq_true _ ▸ named
      rw [if_neg named]
      rcases ih with ⟨before,last,after,rfl,here,later,same⟩ | ⟨none,same⟩
      · refine .inl ⟨before,last,after ++ [item],by simp,here,?_,same⟩
        intro x listed
        exact (List.mem_append.mp listed).elim (later x) (fun new => List.mem_singleton.mp new ▸ other)
      · refine .inr ⟨?_,same⟩
        intro x listed
        exact (List.mem_append.mp listed).elim (none x) (fun new => List.mem_singleton.mp new ▸ other)

theorem dependencyIn (dir item : Str) : dependency out (some dir) item = .ok (out.resolve (Paths.join dir (includePath item))) := by
  unfold dependency Paths.join
  dsimp only
  split
  · rfl
  · rfl

theorem clangCommand {l : Str} (clang : startsWith l "clang".toList = true) : isCommand l = true := by
  unfold isCommand
  rw [clang]
  rfl

theorem clangNotCd {l : Str} (clang : startsWith l "clang".toList = true) : ¬ isCd l = true := by
  rw [commandNotCd (clangCommand clang)]
  exact Bool.false_ne_true

theorem placedCons (e : Option Str × Str) (es : List (Option Str × Str)) :
    Placed (e::es) ↔ (startsWith e.2 "clang".toList = true → e.1 ≠ none) ∧ Placed es := List.forall_mem_cons

theorem combineLineCd {l : Str} (cd : isCd l = true) (s : Option Str × List Str) :
    combineLine out rootPath s l = .ok (some (dirOf l),s.2) := by
  have other : ¬ startsWith l "clang".toList = true := fun clang => clangNotCd clang cd
  unfold combineLine
  rw [if_pos cd,if_neg other]
  rfl

theorem combineLineOther {l : Str} (cd : ¬ isCd l = true) (other : ¬ startsWith l "clang".toList = true) (s : Option Str × List Str) :
    combineLine out rootPath s l = .ok s := by
  unfold combineLine
  rw [if_neg cd,if_neg other]

theorem combineLineClang {l : Str} (clang : startsWith l "clang".toList = true) (cd : Str) (acc : List Str) :
    combineLine out rootPath (some (dirOf cd),acc) l = .ok (some (dirOf cd),acc ++ written (linkOf out rootPath (some cd,l))) := by
  unfold combineLine linkOf
  rw [if_neg (clangNotCd clang),if_pos clang]
  dsimp only
  rw [if_pos clang]
  exact Py.bindOk.mpr ⟨_,Py.mapMTotal (fun item _ => dependencyIn (dirOf cd) item),Py.bindOk.mpr ⟨_,rfl,rfl⟩⟩

theorem combineLineLost {l : Str} (clang : startsWith l "clang".toList = true) (acc : List Str) (r : Option Str × List Str) :
    combineLine out rootPath (none,acc) l ≠ .ok r := by
  intro done
  unfold combineLine at done
  rw [if_neg (clangNotCd clang),if_pos clang] at done
  obtain ⟨_,_,done⟩ := Py.bindOk.mp done
  obtain ⟨_,found,_⟩ := Py.bindOk.mp done
  contradiction

theorem linkOfOther {l : Str} (other : ¬ startsWith l "clang".toList = true) (dir : Option Str) : linkOf out rootPath (dir,l) = none := by
  unfold linkOf
  cases dir with
  | none => rfl
  | some cd => exact if_neg other

def linked (out : Outside) (rootPath : Str) (es : List (Option Str × Str)) : List Str :=
  (es.filterMap (linkOf out rootPath)).flatMap (fun l => [l.1,l.2])

theorem linkedCons (e : Option Str × Str) (es : List (Option Str × Str)) :
    linked out rootPath (e::es) = written (linkOf out rootPath e) ++ linked out rootPath es := by
  unfold linked written
  rw [List.filterMap_cons]
  cases linkOf out rootPath e with
  | none => rfl
  | some l => rfl

theorem combineRun (ls : List Str) (dir : Option Str) (acc : List Str) (r : Option Str × List Str) :
    ls.foldlM (combineLine out rootPath) (dir.map dirOf,acc) = .ok r ↔
      Placed (executed dir ls) ∧ ((directory dir ls).map dirOf,acc ++ linked out rootPath (executed dir ls)) = r := by
  induction ls generalizing dir acc with
  | nil =>
    have none : Placed [] := fun e listed => absurd listed List.not_mem_nil
    have same : acc ++ linked out rootPath [] = acc := List.append_nil acc
    rw [List.foldlM_nil,Py.pureOk,executed,directory,same]
    exact (and_iff_right none).symm
  | cons l ls ih =>
    rw [List.foldlM_cons,executed,directory]
    by_cases cd : isCd l = true
    · rw [combineLineCd cd,if_pos cd,if_pos cd]
      exact ih (some l) acc
    rw [if_neg cd,if_neg cd]
    by_cases clang : startsWith l "clang".toList = true
    · rw [if_pos (clangCommand clang),linkedCons,placedCons]
      cases dir with
      | none =>
        refine ⟨fun done => ?_,fun h => absurd rfl (h.1.1 clang)⟩
        obtain ⟨middle,first,_⟩ := Py.bindOk.mp done
        exact absurd first (combineLineLost clang acc middle)
      | some cd =>
        have first : combineLine out rootPath ((some cd).map dirOf,acc) l = _ := combineLineClang clang cd acc
        have step := ih (some cd) (acc ++ written (linkOf out rootPath (some cd,l)))
        rw [List.append_assoc] at step
        have here : startsWith l "clang".toList = true → some cd ≠ none := fun _ => Option.some_ne_none cd
        rw [first,and_iff_right here]
        exact step
    · rw [combineLineOther cd clang]
      refine (ih dir acc).trans ?_
      split
      · have here : startsWith l "clang".toList = true → dir ≠ none := fun starts => absurd starts clang
        rw [linkedCons,linkOfOther clang,placedCons,and_iff_right here]
        rfl
      · rfl

theorem linkOfSome {e : Option Str × Str} {l : Str × Str} (link : linkOf out rootPath e = some l) :
    ∃ cd libraries, e.1 = some cd ∧ l = ("cd ".toList ++ dirOf cd,linkLine rootPath (bcFile (splitOn " ".toList e.2)) libraries) ∧
      ∀ d ∈ libraries, ∃ dir, dependencyBc dir = some d := by
  unfold linkOf at link
  split at link
  · contradiction
  rename_i cd here
  split at link
  · unfold linkLines at link
    dsimp only at link
    split at link
    · contradiction
    split at link
    · contradiction
    refine ⟨cd,_,here,(Option.some.inj link).symm,?_⟩
    intro d listed
    rw [(out.ordered _).mem_iff,List.mem_dedup,List.mem_filterMap] at listed
    obtain ⟨x,_,found⟩ := listed
    exact ⟨_,found⟩
  · contradiction

theorem libraryNone {dir : Str} : ¬ (libraryOf rootPath dir).isSome = true ↔ ∀ entry ∈ dependencyTable, belowRoot rootPath dir ≠ entry.1.toList := by
  constructor
  · intro unknown entry listed same
    exact unknown (Option.isSome_iff_exists.mpr ⟨_,dependencyIff.mpr ⟨entry,listed,same.symm,rfl⟩⟩)
  · intro unknown known
    obtain ⟨d,found⟩ := Option.isSome_iff_exists.mp known
    obtain ⟨entry,listed,same,_⟩ := dependencyIff.mp found
    exact unknown entry listed same.symm

def libraries (out : Outside) (rootPath cd line : Str) : List Str :=
  out.order ((((splitOn " ".toList line).filter isInclude).map (fun item => out.resolve (Paths.join (dirOf cd) (includePath item)))).filterMap
    (libraryOf rootPath))

theorem memLibraries {cd line library : Str} : library ∈ libraries out rootPath cd line ↔
    ∃ entry ∈ dependencyTable, Includes out rootPath cd line entry ∧ library = entry.2.toList := by
  unfold libraries
  rw [(out.ordered _).mem_iff,List.mem_dedup,List.mem_filterMap]
  constructor
  · intro used
    obtain ⟨dir,listed,found⟩ := used
    obtain ⟨item,member,rfl⟩ := List.mem_map.mp listed
    obtain ⟨entry,known,same,rfl⟩ := dependencyIff.mp found
    obtain ⟨member,opens⟩ := List.mem_filter.mp member
    exact ⟨entry,known,⟨item,member,opens,same.symm⟩,rfl⟩
  · intro used
    obtain ⟨entry,known,⟨item,member,opens,same⟩,rfl⟩ := used
    exact ⟨_,List.mem_map.mpr ⟨item,List.mem_filter.mpr ⟨member,opens⟩,rfl⟩,dependencyIff.mpr ⟨entry,known,same.symm,rfl⟩⟩

theorem linkOfLinked {e : Option Str × Str} (asked : Linked out rootPath e) :
    ∃ l, linkOf out rootPath e = some l ∧ LinkFor out rootPath e (some l.1,l.2) := by
  obtain ⟨_ | cd,line⟩ := e
  · exact asked.elim
  obtain ⟨clang,test,entry,known,used⟩ := asked
  have nonempty : ¬ (libraries out rootPath cd line).isEmpty = true := fun none =>
    List.ne_nil_of_mem (memLibraries.mpr ⟨entry,known,used,rfl⟩) (List.isEmpty_iff.mp none)
  have found : linkOf out rootPath (some cd,line) =
      some ("cd ".toList ++ dirOf cd,linkLine rootPath (bcFile (splitOn " ".toList line)) (libraries out rootPath cd line)) := by
    unfold libraries at nonempty ⊢
    unfold linkOf linkLines
    dsimp only
    rw [if_pos clang,if_neg (libraryNone.mpr test),if_neg nonempty]
  exact ⟨_,found,cd,_,_,rfl,bcFileBitcode _,rfl,(out.ordered _).nodup_iff.mpr (List.nodup_dedup _),fun library => memLibraries⟩

theorem linkOfNone {e : Option Str × Str} (other : ¬ Linked out rootPath e) : linkOf out rootPath e = none := by
  obtain ⟨_ | cd,line⟩ := e
  · rfl
  unfold linkOf linkLines
  dsimp only
  split
  · rename_i clang
    split
    · rfl
    · rename_i test
      refine if_pos (List.isEmpty_iff.mpr (List.eq_nil_iff_forall_not_mem.mpr ?_))
      intro library listed
      obtain ⟨entry,known,used,_⟩ := memLibraries.mp listed
      exact other ⟨clang,libraryNone.mp test,entry,known,used⟩
  · rfl

theorem linksFollow (es : List (Option Str × Str)) : List.Forall₂ (LinkFor out rootPath) (es.filter (Linked out rootPath))
    ((es.filterMap (linkOf out rootPath)).map (fun l => (some l.1,l.2))) := by
  rw [List.map_filterMap]
  refine filterMapRelated ?_ ?_ es
  · intro e asked
    obtain ⟨l,found,link⟩ := linkOfLinked asked
    exact ⟨_,congrArg _ found,link⟩
  · intro e other
    rw [linkOfNone other]
    rfl

theorem linkedExecuted (es : List (Option Str × Str)) (dir : Option Str) :
    executed dir (linked out rootPath es) = (es.filterMap (linkOf out rootPath)).map (fun l => (some l.1,l.2)) := by
  induction es generalizing dir with
  | nil => rfl
  | cons e es ih =>
    rw [linkedCons,List.filterMap_cons]
    cases link : linkOf out rootPath e with
    | none => exact ih dir
    | some l =>
      obtain ⟨cd,libraries,_,rfl,_⟩ := linkOfSome link
      exact congrArg (List.cons _) (ih _)

theorem dependencyPlain {dir d : Str} (known : dependencyBc dir = some d) : '\n' ∉ d := by
  have plain : dependencyTable.all (fun e => e.2.toList.all (fun c => c != '\n')) = true := by decide +kernel
  unfold dependencyBc at known
  obtain ⟨e,found,rfl⟩ := Option.map_eq_some_iff.mp known
  intro inside
  have other := List.all_eq_true.mp (List.all_eq_true.mp plain e (List.mem_of_find?_eq_some found)) '\n' inside
  exact absurd other (by decide)

theorem bcFilePlain {items : List Str} (plain : ∀ item ∈ items, '\n' ∉ item) : '\n' ∉ bcFile items := by
  have each : ∀ bc : Str, '\n' ∉ bc → '\n' ∉ items.foldl (fun bc item => if contains item ".bc".toList then strip item else bc) bc := by
    induction items with
    | nil => exact fun bc begun => begun
    | cons item items ih =>
      intro bc begun
      rw [List.forall_mem_cons] at plain
      refine ih plain.2 _ ?_
      dsimp only
      split
      · exact fun inside => plain.1 (stripInside inside)
      · exact begun
  exact each [] (by simp)

theorem linkLinePlain (plain : '\n' ∉ rootPath) {bc : Str} (file : '\n' ∉ bc) {libraries : List Str}
    (known : ∀ d ∈ libraries, ∃ dir, dependencyBc dir = some d) : '\n' ∉ linkLine rootPath bc libraries := by
  have root : '\n' ∉ rootPath ++ "/".toList := by simp [plain]
  have listed : '\n' ∉ libraries.flatMap (fun d => Paths.join (rootPath ++ "/".toList) d ++ " ".toList) := by
    intro inside
    obtain ⟨d,member,inside⟩ := List.mem_flatMap.mp inside
    obtain ⟨dir,found⟩ := known d member
    have path := Paths.joinWithout (by decide) (by decide) root (dependencyPlain found)
    exact (List.mem_append.mp inside).elim path (by decide)
  unfold linkLine
  simp only [List.mem_append,not_or]
  exact ⟨⟨⟨⟨by decide,listed⟩,file⟩,by decide⟩,file⟩

theorem dirOfPlain {cd : Str} (plain : '\n' ∉ cd) : '\n' ∉ dirOf cd := by
  intro inside
  have inner := stripInside inside
  unfold removePrefix at inner
  split at inner
  · exact plain (List.mem_of_mem_drop inner)
  · exact plain inner

theorem directoryMem {dir : Option Str} {ls : List Str} {cd : Str} (here : directory dir ls = some cd) : cd ∈ ls ∨ dir = some cd := by
  induction ls generalizing dir with
  | nil => exact Or.inr here
  | cons l ls ih =>
    cases ih here with
    | inl later => exact Or.inl (List.mem_cons_of_mem l later)
    | inr begun =>
      split at begun
      · exact Or.inl (Option.some.inj begun ▸ List.mem_cons_self)
      · exact Or.inr begun

theorem linkedPlain (plain : '\n' ∉ rootPath) {ls : List Str} (lines : ∀ l ∈ ls, '\n' ∉ l) :
    ∀ l ∈ linked out rootPath (executed none ls), '\n' ∉ l := by
  intro line listed
  obtain ⟨l,member,inside⟩ := List.mem_flatMap.mp listed
  obtain ⟨⟨dir,command⟩,ran,link⟩ := List.mem_filterMap.mp member
  obtain ⟨cd,libraries,here,rfl,known⟩ := linkOfSome link
  obtain ⟨_,before,after,split,same⟩ := memExecuted.mp ran
  have inLines : cd ∈ before := (directoryMem (same.symm.trans here)).resolve_right (by simp)
  rw [split] at lines
  have cdPlain := lines cd (List.mem_append_left _ inLines)
  have commandPlain := lines command (List.mem_append_right _ List.mem_cons_self)
  cases List.mem_cons.mp inside with
  | inl first =>
    rw [first,List.mem_append,not_or]
    exact ⟨by decide,dirOfPlain cdPlain⟩
  | inr second =>
    rw [List.mem_singleton.mp second]
    exact linkLinePlain plain (bcFilePlain (splitFromOther (by simp) commandPlain)) known

theorem linesLinked (plain : '\n' ∉ rootPath) (ls : Str) : lines (fileText (linked out rootPath (executed none (lines ls)))) =
    linked out rootPath (executed none (lines ls)) ++ [[]] := by
  rw [fileText,linesEnded (linkedPlain plain (linesPlain _))]

theorem executedAfter {ls : List Str} (placed : Placed (executed none ls)) (first : Str) :
    (executed (some first) ls).filterMap (linkOf out rootPath) = (executed none ls).filterMap (linkOf out rootPath) := by
  induction ls with
  | nil => rfl
  | cons l ls ih =>
    rw [executed] at placed
    rw [executed,executed]
    split
    · rfl
    · rename_i stays
      rw [if_neg stays] at placed
      split
      · rename_i command
        rw [if_pos command,placedCons] at placed
        have other : ¬ startsWith l "clang".toList = true := fun clang => placed.1 clang rfl
        rw [List.filterMap_cons_none (linkOfOther other _),List.filterMap_cons_none (linkOfOther other _)]
        exact ih placed.2
      · rename_i silent
        rw [if_neg silent] at placed
        exact ih placed

theorem combineOk {ls linkLines : List Str} : combine out rootPath ls = .ok linkLines ↔
    Placed (executed none ls) ∧ linked out rootPath (executed none ls) = linkLines := by
  unfold combine
  rw [Py.bindOk]
  constructor
  · intro done
    obtain ⟨s,ran,same⟩ := done
    obtain ⟨placed,rfl⟩ := (combineRun ls none [] s).mp ran
    exact ⟨placed,Except.ok.inj same⟩
  · intro done
    exact ⟨_,(combineRun ls none [] _).mpr ⟨done.1,rfl⟩,congrArg Except.ok done.2⟩

theorem bitcodeScriptsOk {isDir : Str → Bool} {makeText : Str} {build : List Str}
    (parsed : parseMakeCmd isDir rootPath makeText = .ok build) {scripts : Str × Str} :
    bitcodeScripts out isDir rootPath makeText = .ok scripts ↔ Placed (executed none (lines (fileText build.tail))) ∧
      (fileText build,fileText (linked out rootPath (executed none (lines (fileText build.tail))))) = scripts := by
  unfold bitcodeScripts
  rw [Py.bindOk]
  constructor
  · intro done
    obtain ⟨parts,found,done⟩ := done
    obtain ⟨linkLines,combined,same⟩ := Py.bindOk.mp done
    cases Except.ok.inj (parsed.symm.trans found)
    obtain ⟨placed,rfl⟩ := combineOk.mp combined
    exact ⟨placed,Except.ok.inj same⟩
  · intro done
    exact ⟨build,parsed,Py.bindOk.mpr ⟨_,combineOk.mpr ⟨done.1,rfl⟩,congrArg Except.ok done.2⟩⟩

theorem parseMakeCmdFirst {isDir : Str → Bool} {makeText : Str} {build : List Str}
    (parsed : parseMakeCmd isDir rootPath makeText = .ok build) :
    ∃ body, build = ("cd ".toList ++ rootPath ++ "/include && ../lib/gen_version.sh".toList)::body := by
  obtain ⟨cmds,_,parsed⟩ := Py.bindOk.mp parsed
  obtain ⟨handled,_,parsed⟩ := Py.bindOk.mp parsed
  obtain ⟨body,_,parsed⟩ := Py.bindOk.mp parsed
  exact ⟨body,(Except.ok.inj parsed).symm⟩

theorem executedBuild (plain : '\n' ∉ rootPath) (body : List Str) :
    executed none (lines (fileText (("cd ".toList ++ rootPath ++ "/include && ../lib/gen_version.sh".toList)::body))) =
      executed (some ("cd ".toList ++ rootPath ++ "/include && ../lib/gen_version.sh".toList)) (lines (fileText body)) := by
  have first : '\n' ∉ "cd ".toList ++ rootPath ++ "/include && ../lib/gen_version.sh".toList := by
    simp only [List.mem_append,not_or]
    exact ⟨⟨by decide,plain⟩,by decide⟩
  unfold fileText
  rw [List.flatMap_cons,List.append_assoc,List.singleton_append,linesAppend,lines,splitOnWhole first]
  rfl

theorem executedEnded (ls : List Str) (dir : Option Str) : executed dir (ls ++ [[]]) = executed dir ls := by
  induction ls generalizing dir with
  | nil => rfl
  | cons l ls ih => simp only [List.cons_append,executed,ih]

end Run

def oneTest : Str := "gcc -I../include -c t.c -o t.o\necho CC a/t.o".toList

def plainPaths : Outside where
  resolve path := if path = "/r/a/../include".toList then "/r/include".toList else path
  order := List.dedup
  ordered _ := List.Perm.refl _

def oneBuild : List Str := ["cd /r/include && ../lib/gen_version.sh".toList,"cd /r/a".toList,"echo \"1 cd /r/a\"".toList,
  "clang -emit-llvm  -I../include -c t.c -o t.bc".toList,"echo \"3 clang -emit-llvm  -I../include -c t.c -o t.bc\"".toList]

def oneLink : List Str := ["cd /r/a".toList,"llvm-link /r/lib/libltp.bc t.bc -o dep_t.bc".toList]

end KernelTcp.Llvm

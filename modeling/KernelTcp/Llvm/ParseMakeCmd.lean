import KernelTcp.Lib.KeepFirst
import KernelTcp.Lib.Text
import Mathlib.Data.List.Infix

/-! `parse_make_cmd`: the output of `make -n` becomes a bitcode build script, kept as its
lines. -/
namespace KernelTcp.Llvm
open Text KeepFirst

def pieces (line : Str) : List Str :=
  if contains line ";".toList then ((splitOn ";".toList line).map strip).filter (fun t => !t.isEmpty)
  else [line]

/- A line that ends in a backslash goes on in the next one; `temp` is what was read of it. -/
def cmdList : Option Str → List Str → Except PyError (List Str)
  | none, [] => .ok []
  | some _, [] => .error .indexError
  | none, raw::rest =>
      let line := strip raw
      if line.isEmpty then cmdList none rest
      else if endsWith line "\\".toList then cmdList (some line.dropLast) rest
      else do
        let later ← cmdList none rest
        .ok (pieces line ++ later)
  | some temp, raw::rest =>
      let line := strip raw
      let temp := temp ++ line
      if endsWith line "\\".toList then cmdList (some temp.dropLast) rest
      else do
        let later ← cmdList none rest
        .ok (temp::later)

def replaceFirst (old new s : Str) : Str :=
  match splitOn old s with
  | before::after::rest => before ++ new ++ List.intercalate old (after::rest)
  | _ => s

def erasedFlags : List Str := ["-mno-fp-ret-in-387".toList,"-mpreferred-stack-boundary=3".toList,"-mskip-rax-setup".toList,
  "-mindirect-branch=thunk-extern".toList,"-mindirect-branch-register".toList,"-fno-allow-store-data-races".toList,
  "-fno-var-tracking-assignments".toList,"-flive-patching=inline-clone".toList,"-fconserve-stack".toList,
  "-mrecord-mcount".toList]

-- replacing the empty text puts the new one around every character
def spread (new s : Str) : Str := new ++ s.flatMap (fun c => c::new)

-- an output that is no bitcode file gets the ending
def nameOutput (res : Str) : Except PyError Str :=
  if contains res ".bc".toList then .ok res
  else match splitOn "-o ".toList res with
    | before::after::_ => do
        let name ← Py.getItem (splitOn " ".toList (strip after)) 0
        let toReplace := strip name
        let renamed := if toReplace.isEmpty then spread ".bc".toList after
          else replace toReplace (toReplace ++ ".bc".toList) after
        .ok (before ++ " -o ".toList ++ renamed)
    | _ => .ok res

def handleCC (line : Str) : Except PyError Str := do
  let res := replace "-O2".toList "-O0".toList line
  let res := replace "-O3".toList "-O0".toList res
  let res := replace "-Os".toList "-O0".toList res
  let res := replace ".o".toList ".bc".toList res
  let res := erasedFlags.foldl (fun res flag => replace flag [] res) res
  let res := if contains res ".c".toList then replaceFirst "gcc".toList "clang -emit-llvm ".toList res
    else replaceFirst "gcc".toList "clang ".toList res
  let res ← nameOutput res
  .ok (if contains res "-c".toList then res else replace "-o".toList "-c -o".toList res)

def handleAR (line : Str) : Str :=
  replace ".o".toList ".bc".toList (replace ".a".toList ".bc".toList (replace "ar -rc".toList "llvm-link -v -o ".toList line))

def handleOBJCOPY (line : Str) : Str :=
  replace ".o".toList ".bc".toList (replace "objcopy".toList "llvm-objcopy -v -o".toList line)

def jumpTo (isDir : Str → Bool) (line : Str) : Except PyError Str := do
  let temp ← Py.getItem (splitOn "CC".toList line) 1
  let temp ← Py.getItem (splitOn ";".toList (strip temp)) 0
  let temp := strip temp
  let dir := if isDir temp then temp else List.intercalate "/".toList (splitOn "/".toList temp).dropLast
  .ok ("jump cd ".toList ++ dir)

def handleCmdLine (isDir : Str → Bool) (line : Str) : Except PyError Str :=
  if startsWith line "gcc".toList then handleCC line
  else if startsWith line "ar -rc".toList then .ok (handleAR line)
  else if startsWith line "ranlib".toList then .ok []
  else if startsWith line "make".toList then .ok []
  else if startsWith line "objcopy".toList then .ok (handleOBJCOPY line)
  else if startsWith line "echo".toList && contains line "CC".toList then jumpTo isDir line
  else .ok []

def cdLine (root entry : Str) : Except PyError Str := do
  let l := splitOn " ".toList (strip (replace "jump".toList [] entry))
  let first ← Py.getItem l 0
  let second ← Py.getItem l 1
  .ok (first ++ " ".toList ++ root ++ second)

-- the index before the first is the last one
def swapStep (root : Str) (res : List Str) (i : Nat) : Except PyError (List Str) := do
  let l ← Py.getItem res i
  if startsWith l "jump".toList then do
    let l ← cdLine root l
    let temp ← Py.getItem res (i - 1)
    let res ← Py.setItem res (i - 1) l
    Py.setItem res i temp
  else .ok res

def swapJumps (root : Str) (res : List Str) : Except PyError (List Str) :=
  (List.range res.length).foldlM (swapStep root) res

def mentionsTool (l : Str) : Bool :=
  contains l "clang".toList || contains l "llvm-link".toList || contains l "llvm-ranlib".toList
    || contains l "llvm-objcopy".toList

def removeRepeated (res : List Str) : List Str := keepFirst mentionsTool [] res

def isCd (l : Str) : Bool := startsWith l "cd".toList

def echoLine (lineNumber : Nat) (l : Str) : Str :=
  "echo \"".toList ++ Nat.toDigits 10 lineNumber ++ " ".toList ++ replace "\"".toList "'".toList l ++ "\"".toList

def generate : Nat → List Str → List Str
  | _, [] => []
  | lineNumber, l::rest =>
      if isCd l && rest.head?.any isCd then generate lineNumber rest
      else l::echoLine lineNumber l::generate (lineNumber+2) rest

def script (rootPath : Str) (res : List Str) : Except PyError (List Str) := do
  let swapped ← swapJumps (rootPath ++ "/".toList) res
  .ok (generate 1 (removeRepeated swapped))

def parseMakeCmd (isDir : Str → Bool) (rootPath makeText : Str) : Except PyError (List Str) := do
  let cmds ← cmdList none (lines makeText)
  let handled ← cmds.mapM (handleCmdLine isDir)
  let body ← script rootPath (handled.filter (fun l => !l.isEmpty))
  .ok (("cd ".toList ++ rootPath ++ "/include && ../lib/gen_version.sh".toList)::body)

def isCommand (l : Str) : Bool :=
  startsWith l "clang".toList || startsWith l "llvm-link".toList || startsWith l "llvm-ranlib".toList
    || startsWith l "llvm-objcopy".toList

def directory (dir : Option Str) : List Str → Option Str
  | [] => dir
  | l::rest => directory (if isCd l then some l else dir) rest

def executed (dir : Option Str) : List Str → List (Option Str × Str)
  | [] => []
  | l::rest =>
      if isCd l then executed (some l) rest
      else if isCommand l then (dir,l)::executed dir rest
      else executed dir rest

theorem commandNotCd {l : Str} (command : isCommand l = true) : isCd l = false := by
  simp only [isCommand,startsWith,Bool.or_eq_true,List.isPrefixOf_iff_prefix] at command
  rcases command with ((⟨rest,rfl⟩ | ⟨rest,rfl⟩) | ⟨rest,rfl⟩) | ⟨rest,rfl⟩
  all_goals rfl

theorem containsStart {l start : Str} (starts : startsWith l start = true) : contains l start = true :=
  List.any_eq_true.mpr ⟨l,(List.mem_tails l l).mpr List.suffix_rfl,starts⟩

theorem commandMarked {l : Str} (command : isCommand l = true) : mentionsTool l = true := by
  simp only [isCommand,Bool.or_eq_true] at command
  simp only [mentionsTool,Bool.or_eq_true]
  exact command.imp (Or.imp (Or.imp containsStart containsStart) containsStart) containsStart

theorem occursCons {l c : Str} {rest : List Str} {P : List Str → Prop} :
    (∃ before after, l::rest = before ++ c::after ∧ P before) ↔
      (l = c ∧ P []) ∨ ∃ before after, rest = before ++ c::after ∧ P (l::before) := by
  refine ⟨?_,?_⟩
  · intro h
    obtain ⟨before,after,same,holds⟩ := h
    cases before with
    | nil => exact Or.inl ⟨(List.cons.inj same).1,holds⟩
    | cons first before =>
      cases List.cons.inj same with
      | intro head tail =>
        subst head
        exact Or.inr ⟨before,after,tail,holds⟩
  · intro h
    rcases h with ⟨rfl,holds⟩ | ⟨before,after,same,holds⟩
    · exact ⟨[],rest,rfl,holds⟩
    · exact ⟨l::before,after,by rw [same,List.cons_append],holds⟩

theorem memExecuted {dir d : Option Str} {ls : List Str} {c : Str} : (d,c) ∈ executed dir ls ↔
    isCommand c = true ∧ ∃ before after, ls = before ++ c::after ∧ d = directory dir before := by
  induction ls generalizing dir with
  | nil => simp [executed]
  | cons l rest ih =>
    rw [executed,occursCons]
    cases cd : isCd l with
    | true =>
      have other : isCommand c = true → l ≠ c := by
        intro command same
        rw [same,commandNotCd command] at cd
        contradiction
      simp only [if_true,ih,directory,cd]
      exact and_congr_right (fun command => by simp [other command])
    | false =>
      simp only [Bool.false_eq_true,if_false,directory,cd]
      split
      · rename_i command
        rw [List.mem_cons,ih,Prod.mk.injEq]
        constructor
        · intro h
          rcases h with ⟨rfl,rfl⟩ | later
          · exact ⟨command,Or.inl ⟨rfl,rfl⟩⟩
          · exact ⟨later.1,Or.inr later.2⟩
        · intro h
          rcases h.2 with ⟨rfl,rfl⟩ | later
          · exact Or.inl ⟨rfl,rfl⟩
          · exact Or.inr ⟨h.1,later⟩
      · rename_i different
        rw [ih]
        refine and_congr_right (fun command => ?_)
        have other : l ≠ c := fun same => different (same ▸ command)
        simp [other]

theorem echoSilent (lineNumber : Nat) (l : Str) : isCd (echoLine lineNumber l) = false
    ∧ isCommand (echoLine lineNumber l) = false := ⟨rfl,rfl⟩

theorem executedAtCd {ls : List Str} (cd : ls.head?.any isCd = true) (dir other : Option Str) :
    executed dir ls = executed other ls := by
  cases ls with
  | nil => rfl
  | cons l rest =>
    have first : isCd l = true := cd
    simp only [executed,first,if_true]

theorem generateExecutes (lineNumber : Nat) (ls : List Str) (dir : Option Str) :
    executed dir (generate lineNumber ls) = executed dir ls := by
  induction ls generalizing lineNumber dir with
  | nil => rfl
  | cons l rest ih =>
    rw [generate]
    split
    · rename_i skipped
      rw [Bool.and_eq_true] at skipped
      rw [ih,executed,if_pos skipped.1]
      exact executedAtCd skipped.2 dir (some l)
    · have silent := echoSilent lineNumber l
      simp only [executed,silent,Bool.false_eq_true,if_false,ih]

/- A `cd` line that stays in the list: it names no tool, or it stands there for the first time. -/
def Stays (before : List Str) (l : Str) : Prop := isCd l = true ∧ (mentionsTool l = true → l ∉ before)

def LeftIn (dir : Option Str) (ls : List Str) (d : Option Str) : Prop :=
  (d = dir ∧ ∀ l ∈ ls, isCd l = false) ∨
  ∃ before l after, ls = before ++ l::after ∧ d = some l ∧ Stays before l ∧
    ∀ between m rest, after = between ++ m::rest → ¬ Stays (before ++ l::between) m

theorem directorySnoc (dir : Option Str) (ls : List Str) (l : Str) :
    directory dir (ls ++ [l]) = if isCd l then some l else directory dir ls := by
  induction ls generalizing dir with
  | nil => rfl
  | cons first ls ih => exact ih _

theorem occursSnoc {ls before after : List Str} {l c : Str} : ls ++ [l] = before ++ c::after ↔
    (before = ls ∧ c = l ∧ after = []) ∨ ∃ between, after = between ++ [l] ∧ ls = before ++ c::between := by
  constructor
  · intro split
    rcases List.eq_nil_or_concat after with rfl | ⟨between,last,rfl⟩
    · obtain ⟨front,one⟩ := List.append_inj' split rfl
      exact Or.inl ⟨front.symm,(List.cons.inj one).1.symm,rfl⟩
    · rw [List.concat_eq_append,← List.cons_append,← List.append_assoc] at split
      obtain ⟨front,one⟩ := List.append_inj' split rfl
      rw [List.concat_eq_append,(List.cons.inj one).1]
      exact Or.inr ⟨between,rfl,front⟩
  · rintro (⟨rfl,rfl,rfl⟩ | ⟨between,rfl,rfl⟩)
    · rfl
    · simp

theorem leftInStays {dir d : Option Str} {ls : List Str} {l : Str} (stays : Stays ls l) : LeftIn dir (ls ++ [l]) d ↔ d = some l := by
  constructor
  · intro left
    rcases left with ⟨_,none⟩ | ⟨before,m,after,split,same,_,last⟩
    · exact absurd (none l (by simp)) (by rw [stays.1]; decide)
    · rcases occursSnoc.mp split with ⟨rfl,rfl,rfl⟩ | ⟨between,rfl,rfl⟩
      · exact same
      · exact absurd stays (last between l [] rfl)
  · intro same
    exact Or.inr ⟨ls,l,[],rfl,same,stays,by simp⟩

theorem leftInPasses {dir d : Option Str} {ls : List Str} {l : Str} (passes : ¬ Stays ls l) :
    LeftIn dir (ls ++ [l]) d ↔ LeftIn dir ls d := by
  constructor
  · intro left
    rcases left with ⟨same,none⟩ | ⟨before,m,after,split,same,stays,last⟩
    · exact Or.inl ⟨same,fun k listed => none k (List.mem_append_left _ listed)⟩
    · rcases occursSnoc.mp split with ⟨rfl,rfl,rfl⟩ | ⟨between,rfl,rfl⟩
      · exact absurd stays passes
      · refine Or.inr ⟨before,m,between,rfl,same,stays,?_⟩
        intro mid k rest inside
        exact last mid k (rest ++ [l]) (by rw [inside,List.append_assoc,List.cons_append])
  · intro left
    rcases left with ⟨same,none⟩ | ⟨before,m,after,rfl,same,stays,last⟩
    · refine Or.inl ⟨same,fun k listed => ?_⟩
      rcases List.mem_append.mp listed with old | new
      · exact none k old
      · rw [List.mem_singleton.mp new]
        cases cd : isCd l with
        | false => rfl
        | true => exact absurd ⟨cd,fun _ old => absurd (none l old) (by rw [cd]; decide)⟩ passes
    · refine Or.inr ⟨before,m,after ++ [l],by simp,same,stays,?_⟩
      intro mid k rest inside
      rcases occursSnoc.mp inside with ⟨rfl,rfl,rfl⟩ | ⟨between,rfl,rfl⟩
      · exact passes
      · exact last mid k between rfl

theorem leftInRepeated {dir d : Option Str} {ls : List Str} : LeftIn dir ls d ↔ d = directory dir (removeRepeated ls) := by
  induction ls using List.reverseRecOn with
  | nil => simp [LeftIn,removeRepeated,keepFirst,directory]
  | append_singleton ls l ih =>
    by_cases stays : Stays ls l
    · have kept : ¬ (mentionsTool l = true ∧ l ∈ ls) := fun gone => stays.2 gone.1 gone.2
      rw [leftInStays stays,removeRepeated,keepFirstSnoc,if_neg kept,directorySnoc,if_pos stays.1]
    · rw [leftInPasses stays,ih,removeRepeated,removeRepeated,keepFirstSnoc]
      split
      · rw [List.append_nil]
      · rename_i kept
        have other : ¬ isCd l = true := fun cd => stays ⟨cd,fun tool listed => kept ⟨tool,listed⟩⟩
        rw [directorySnoc,if_neg other]

theorem leftInPlain {dir d : Option Str} {ls : List Str} (plain : ∀ l ∈ ls, isCd l = true → mentionsTool l = false) :
    LeftIn dir ls d ↔ d = directory dir ls := by
  induction ls using List.reverseRecOn with
  | nil => simp [LeftIn,directory]
  | append_singleton ls l ih =>
    rw [directorySnoc]
    cases cd : isCd l with
    | true =>
      have stays : Stays ls l := ⟨cd,fun tool => absurd tool (by rw [plain l (by simp) cd]; decide)⟩
      rw [leftInStays stays,if_pos rfl]
    | false =>
      have passes : ¬ Stays ls l := fun stays => absurd stays.1 (by rw [cd]; decide)
      rw [leftInPasses passes,if_neg (by decide),ih (fun k listed => plain k (List.mem_append_left _ listed))]

theorem memRepeated {dir d : Option Str} {ls : List Str} {c : Str} : (d,c) ∈ executed dir (removeRepeated ls) ↔
    isCommand c = true ∧ ∃ first rest, ls = first ++ c::rest ∧ c ∉ first ∧ LeftIn dir first d := by
  rw [memExecuted]
  refine and_congr_right (fun command => ?_)
  constructor
  · intro h
    obtain ⟨before,after,kept,same⟩ := h
    have inside : c ∈ keepFirst mentionsTool [] ls := by
      change c ∈ removeRepeated ls
      rw [kept]
      exact List.mem_append_right before List.mem_cons_self
    obtain ⟨first,rest,rfl,new⟩ := List.eq_append_cons_of_mem (keepFirstSubset inside).1
    obtain ⟨later,whole,gone⟩ := keepFirstMarked new (commandMarked command)
    have split : keepFirst mentionsTool [] first ++ c::later = before ++ c::after := whole ▸ kept
    have early : c ∉ keepFirst mentionsTool [] first := fun mem => new (keepFirstSubset mem).1
    obtain ⟨rfl,_⟩ := (List.append_cons_inj_of_notMem early gone).mp split
    exact ⟨first,rest,rfl,new,leftInRepeated.mpr same⟩
  · intro h
    obtain ⟨first,rest,rfl,new,left⟩ := h
    obtain ⟨later,whole,_⟩ := keepFirstMarked new (commandMarked command)
    exact ⟨_,later,whole,leftInRepeated.mp left⟩

/- Every occurrence of a command is in the directory of the last `cd` line that stays before the first one. -/
def SameDirectories (dir : Option Str) (ls : List Str) : Prop := ∀ before c after first rest, ls = before ++ c::after →
  isCommand c = true → ls = first ++ c::rest → c ∉ first → LeftIn dir first (directory dir before)

def OneDirectory (dir : Option Str) (ls : List Str) : Prop := ∀ before c after other rest, ls = before ++ c::after →
  isCommand c = true → ls = other ++ c::rest → directory dir before = directory dir other

theorem sameDirectoriesPlain {dir : Option Str} {ls : List Str} (plain : ∀ l ∈ ls, isCd l = true → mentionsTool l = false) :
    SameDirectories dir ls ↔ OneDirectory dir ls := by
  have left : ∀ {first rest c d}, ls = first ++ c::rest → (LeftIn dir first d ↔ d = directory dir first) := by
    intro first rest c d split
    exact leftInPlain (fun l listed => plain l (by rw [split]; exact List.mem_append_left _ listed))
  constructor
  · intro same before c after other rest here command there
    obtain ⟨first,last,split,new⟩ := List.eq_append_cons_of_mem (show c ∈ ls by simp [here])
    rw [(left split).mp (same before c after first last here command split new),
      (left split).mp (same other c rest first last there command split new)]
  · intro one before c after first rest here command split _
    exact (left split).mpr (one before c after first rest here command split)

theorem repeatedExecutes {dir : Option Str} {ls : List Str} :
    (∀ e ∈ executed dir ls, e ∈ executed dir (removeRepeated ls)) ↔ SameDirectories dir ls := by
  constructor
  · intro all before c after first rest here command split new
    have ran : (directory dir before,c) ∈ executed dir ls := memExecuted.mpr ⟨command,before,after,here,rfl⟩
    obtain ⟨_,front,back,same,fresh,left⟩ := memRepeated.mp (all _ ran)
    have fronts : front = first := by
      rw [split] at same
      rcases List.append_eq_append_iff.mp same with ⟨between,rfl,tail⟩ | ⟨between,rfl,tail⟩
      · cases between with
        | nil => rw [List.append_nil]
        | cons x between =>
          cases (List.cons.inj tail).1
          exact absurd (List.mem_append_right _ List.mem_cons_self) fresh
      · cases between with
        | nil => rw [List.append_nil]
        | cons x between =>
          cases (List.cons.inj tail).1
          exact absurd (List.mem_append_right _ List.mem_cons_self) new
    exact fronts ▸ left
  · intro same e ran
    obtain ⟨command,before,after,here,dir⟩ := memExecuted.mp (show (e.1,e.2) ∈ _ from ran)
    obtain ⟨first,rest,split,new⟩ := List.eq_append_cons_of_mem (show e.2 ∈ ls by simp [here])
    refine memRepeated.mpr ⟨command,first,rest,split,new,?_⟩
    rw [dir]
    exact same before e.2 after first rest here command split new

/-- The script executes every (directory, command) pair of the swapped list exactly when the
swap succeeds and every occurrence of a command is where the `cd` lines that stay lead its first
one. Where no `cd` line names a tool, that is to say that every command text keeps to one directory. -/
theorem scriptLosesNothing (rootPath : Str) (res : List Str) (dir : Option Str) :
    ((∃ swapped body, swapJumps (rootPath ++ "/".toList) res = .ok swapped ∧ script rootPath res = .ok body
        ∧ ∀ e ∈ executed dir swapped, e ∈ executed dir body)
      ↔ ∃ swapped, swapJumps (rootPath ++ "/".toList) res = .ok swapped ∧ SameDirectories dir swapped) ∧
    ∀ swapped, swapJumps (rootPath ++ "/".toList) res = .ok swapped →
      (∀ l ∈ swapped, isCd l = true → mentionsTool l = false) → (SameDirectories dir swapped ↔ OneDirectory dir swapped) := by
  refine ⟨⟨?_,?_⟩,fun swapped _ plain => sameDirectoriesPlain plain⟩
  · intro h
    obtain ⟨swapped,body,swap,result,all⟩ := h
    refine ⟨swapped,swap,repeatedExecutes.mp ?_⟩
    unfold script at result
    rw [swap] at result
    cases Except.ok.inj result
    rwa [generateExecutes] at all
  · intro h
    obtain ⟨swapped,swap,same⟩ := h
    refine ⟨swapped,generate 1 (removeRepeated swapped),swap,?_,?_⟩
    · unfold script
      rw [swap]
      rfl
    · rw [generateExecutes]
      exact repeatedExecutes.mpr same

def sameNameTwice : Str := "gcc -c t.c -o t.o\necho CC a/t.o\ngcc -c t.c -o t.o\necho CC b/t.o".toList

def compileTwice : List Str := ["clang -emit-llvm  -c t.c -o t.bc".toList,"jump cd a".toList,
  "clang -emit-llvm  -c t.c -o t.bc".toList,"jump cd b".toList]

theorem secondCompilationLost :
    (do let cmds ← cmdList none (lines sameNameTwice)
        cmds.mapM (handleCmdLine (fun _ => false))) = .ok compileTwice
    ∧ swapJumps "/r/".toList compileTwice = .ok ["cd /r/a".toList,"clang -emit-llvm  -c t.c -o t.bc".toList,
      "cd /r/b".toList,"clang -emit-llvm  -c t.c -o t.bc".toList]
    ∧ (some "cd /r/b".toList,"clang -emit-llvm  -c t.c -o t.bc".toList) ∈ executed none ["cd /r/a".toList,
      "clang -emit-llvm  -c t.c -o t.bc".toList,"cd /r/b".toList,"clang -emit-llvm  -c t.c -o t.bc".toList]
    ∧ (∃ body, script "/r".toList compileTwice = .ok body
      ∧ executed none body = [(some "cd /r/a".toList,"clang -emit-llvm  -c t.c -o t.bc".toList)]) := by
  refine ⟨by decide +kernel,by decide +kernel,by decide +kernel,_,rfl,by decide +kernel⟩

end KernelTcp.Llvm

import KernelTcp.Graph.Traversal

/-! From a test file to the kernel functions it may run: through the test's own call
graph to library functions, through the glibc graph to system calls, and through the
kernel graph to everything below them. The files on disk and the module's globals are
one environment; `files` gives the text of the files that exist. -/
namespace KernelTcp.Graph
open Text

structure Environment where
  files : Str → Option Str
  ltpCgDir : Str
  glibcCg : CallGraph
  kernelCg : CallGraph
  syscallList : List Str
  syscallTable : Dict Str Str
  taTmp : Dict Str (List Str)

def kselftestsCgDir : Str := "/home/userpath/projects/selftests_cg".toList
def kernelCgDir : Str := "/home/userpath/kernels/kernel_cg/".toList
def shCgDir : Str := "/home/userpath/projects/sh_cg".toList

-- os.path.join
def join (dir name : Str) : Str :=
  if startsWith name "/".toList then name
  else if dir.isEmpty || endsWith dir "/".toList then dir ++ name
  else dir ++ "/".toList ++ name

def kernelCgFile (gitSha : Str) : Str := kernelCgDir ++ gitSha ++ "-cg.txt".toList

def getKernelCg (env : Environment) (gitSha : Str) : Environment × Option PyError :=
  match env.files (kernelCgFile gitSha) with
  | none => (env,some .fileNotFoundError)
  | some source =>
      let loaded := env.kernelCg.loadFromSource source
      ({ env with kernelCg := loaded.1 },loaded.2)

/- What stands before each opening bracket, back to the bracket before it or the start
of the line. -/
def calledFunctions (text : Str) : List Str := (lines text).flatMap (fun line => (splitOn "(".toList line).dropLast)

-- without a slash `rfind` gives -1, which starts the slice at the last character
def shTestName (filePath : Str) : Str :=
  let slash := afterLast '/' filePath
  replace ".sh".toList ".txt".toList (filePath.drop (if slash = 0 then filePath.length - 1 else slash - 1))

def getShUsedSyscall (env : Environment) (filePath : Str) : List Str :=
  match env.files (shCgDir ++ "/".toList ++ shTestName filePath) with
  | none => []
  | some text =>
      Sets.unionOver (env.glibcCg.getSyscall env.syscallList) (Sets.union [] (calledFunctions text))

def testName (filePath : Str) : Str := (filePath.take (filePath.length - 2)).drop (afterLast '/' filePath)

def testCgFile (env : Environment) (filePath : Str) : Option Str :=
  let name := "cg-".toList ++ testName filePath ++ ".txt".toList
  match env.files (join env.ltpCgDir name) with
  | some text => some text
  | none => env.files (join kselftestsCgDir name)

def topFuncs (testCg : CallGraph) (filePath : Str) : List Str :=
  if contains filePath "selftest".toList then ["main".toList] else testCg.getTopFunc (testName filePath)

def groundFuncs (testCg : CallGraph) (topFuncSet : List Str) : Except PyError (List Str) :=
  topFuncSet.foldlM (fun found topFunc => do
    let ground ← testCg.getGroundFunc topFunc
    .ok (Sets.union found ground)) []

def getUserdSyscall (env : Environment) (filePath : Str) : Except PyError (List Str) :=
  if contains filePath ".sh".toList then .ok (getShUsedSyscall env filePath)
  else match testCgFile env filePath with
    | none => .ok []
    | some source =>
        let loaded := CallGraph.new.loadFromSource source
        match loaded.2 with
        | some e => .error e
        | none => do
            let groundFuncSet ← groundFuncs loaded.1 (topFuncs loaded.1 filePath)
            .ok (Sets.unionOver (env.glibcCg.getSyscall env.syscallList) groundFuncSet)

def getRelatedMethods (env : Environment) (filePath : Str) : Except PyError (Environment × List Str) := do
  let usedSyscallSet ← getUserdSyscall env filePath
  let relatedMethodSet :=
    Sets.unionOver (fun syscall => env.kernelCg.getAllCall (env.syscallTable.get? syscall)) usedSyscallSet
  .ok ({ env with taTmp := env.taTmp.set filePath relatedMethodSet },relatedMethodSet)

theorem groundFuncsFrom {g : CallGraph} {tops : List Str} (present : ∀ t ∈ tops, t ∈ g.nodeMap.keys) (found : List Str) :
    ∃ ground, tops.foldlM (fun found topFunc => do
        let ground ← g.getGroundFunc topFunc
        .ok (Sets.union found ground)) found = Except.ok ground ∧
      ∀ x, x ∈ ground ↔ x ∈ found ∨ ∃ t ∈ tops, Reaches g t x ∧ callers g.nodeMap x = [] := by
  induction tops generalizing found with
  | nil => exact ⟨found,rfl,by simp⟩
  | cons t tops ih =>
    obtain ⟨first,done⟩ := groundFuncPresent (present t (by simp))
    obtain ⟨ground,rest,members⟩ := ih (fun u hu => present u (by simp [hu])) (Sets.union found first)
    refine ⟨ground,?_,?_⟩
    · rw [List.foldlM_cons,done]
      exact rest
    · intro x
      rw [members,Sets.memUnion,memGetGroundFunc done]
      simp only [List.mem_cons,exists_eq_or_imp,or_assoc]

theorem groundFuncsExact {g : CallGraph} {tops : List Str} (present : ∀ t ∈ tops, t ∈ g.nodeMap.keys) :
    ∃ ground, groundFuncs g tops = .ok ground ∧
      ∀ x, x ∈ ground ↔ ∃ t ∈ tops, Reaches g t x ∧ callers g.nodeMap x = [] := by
  obtain ⟨ground,done,members⟩ := groundFuncsFrom present []
  exact ⟨ground,done,fun x => by simpa using members x⟩

def StartsAt (g : CallGraph) (filePath t : Str) : Prop :=
  if contains filePath "selftest".toList = true then t = "main".toList else IsTop g (testName filePath) t

theorem memTopFuncs {g : CallGraph} {filePath t : Str} : t ∈ topFuncs g filePath ↔ StartsAt g filePath t := by
  unfold topFuncs StartsAt
  split
  · simp
  · exact memGetTopFunc

theorem userdSyscallExact {env : Environment} {filePath source : Str} {g : CallGraph}
    (notShell : contains filePath ".sh".toList = false) (file : testCgFile env filePath = some source)
    (loaded : CallGraph.new.loadFromSource source = (g,none))
    (entry : contains filePath "selftest".toList = true → "main".toList ∈ g.nodeMap.keys) :
    ∃ used, getUserdSyscall env filePath = .ok used ∧
      ∀ s, s ∈ used ↔ ∃ t ground, StartsAt g filePath t ∧ Reaches g t ground ∧ callers g.nodeMap ground = [] ∧
        Reaches env.glibcCg ground s ∧ s ∈ env.syscallList := by
  have present : ∀ t ∈ topFuncs g filePath, t ∈ g.nodeMap.keys := by
    intro t ht
    rw [memTopFuncs,StartsAt] at ht
    split at ht
    · rename_i selftest
      rw [ht]
      exact entry selftest
    · obtain ⟨node,_,found,_⟩ := ht
      exact Dict.memKeys.mpr ⟨node,found⟩
  obtain ⟨ground,done,members⟩ := groundFuncsExact present
  refine ⟨Sets.unionOver (env.glibcCg.getSyscall env.syscallList) ground,?_,?_⟩
  · simp only [getUserdSyscall,notShell,file,loaded,done]
    rfl
  · intro s
    simp only [Sets.memUnionOver,members,memTopFuncs,memGetSyscall]
    constructor
    · intro h
      obtain ⟨x,⟨t,starts,reach,leaf⟩,syscall,listed⟩ := h
      exact ⟨t,x,starts,reach,leaf,syscall,listed⟩
    · intro h
      obtain ⟨t,x,starts,reach,leaf,syscall,listed⟩ := h
      exact ⟨x,⟨t,starts,reach,leaf⟩,syscall,listed⟩

/-- The related methods of a test are the kernel functions below the system calls that
its functions reach through the library, and nothing else. -/
theorem relatedMethodsExact {env : Environment} {filePath source : Str} {g : CallGraph}
    (notShell : contains filePath ".sh".toList = false) (file : testCgFile env filePath = some source)
    (loaded : CallGraph.new.loadFromSource source = (g,none))
    (entry : contains filePath "selftest".toList = true → "main".toList ∈ g.nodeMap.keys) :
    ∃ related, getRelatedMethods env filePath =
        .ok ({ env with taTmp := env.taTmp.set filePath related },related) ∧
      ∀ n, n ∈ related ↔ ∃ t ground s, StartsAt g filePath t ∧
        (Reaches g t ground ∧ callers g.nodeMap ground = []) ∧
        (s ∈ env.syscallList ∧ Reaches env.glibcCg ground s) ∧
        ∃ root, env.syscallTable.get? s = some root ∧ Reaches env.kernelCg root n := by
  obtain ⟨used,done,members⟩ := userdSyscallExact notShell file loaded entry
  refine ⟨Sets.unionOver (fun syscall => env.kernelCg.getAllCall (env.syscallTable.get? syscall)) used,?_,?_⟩
  · unfold getRelatedMethods
    rw [done]
    rfl
  · intro n
    rw [Sets.memUnionOver]
    constructor
    · intro h
      obtain ⟨s,hs,below⟩ := h
      obtain ⟨t,ground,starts,reach,leaf,syscall,listed⟩ := (members s).mp hs
      cases table : env.syscallTable.get? s with
      | none =>
        rw [table] at below
        simp [CallGraph.getAllCall] at below
      | some root =>
        rw [table,memGetAllCall] at below
        exact ⟨t,ground,s,starts,⟨reach,leaf⟩,⟨listed,syscall⟩,root,table,below⟩
    · intro h
      obtain ⟨t,ground,s,starts,⟨reach,leaf⟩,⟨listed,syscall⟩,root,table,below⟩ := h
      refine ⟨s,(members s).mpr ⟨t,ground,starts,reach,leaf,syscall,listed⟩,?_⟩
      rw [table,memGetAllCall]
      exact below

theorem loadedWhole {source : Str} (read : WellFormed source) :
    CallGraph.new.loadFromSource source = ((CallGraph.new.loadFromSource source).1,none) := by
  obtain ⟨bs,blocks⟩ := read
  unfold CallGraph.loadFromSource
  rw [loadTextsDone blocks]

theorem missingMainRaises {g : CallGraph} {filePath : Str} (selftest : contains filePath "selftest".toList = true)
    (missing : "main".toList ∉ g.nodeMap.keys) : groundFuncs g (topFuncs g filePath) = .error .attributeError := by
  unfold groundFuncs topFuncs
  rw [if_pos selftest,List.foldlM_cons,CallGraph.getGroundFunc,dif_neg missing]
  rfl

/-- A test whose call graph can be read gets its system calls, none without a top function,
unless it is a selftest whose graph has no node named `main`. -/
theorem userdSyscallReturns (env : Environment) (filePath source : Str) (file : testCgFile env filePath = some source)
    (read : WellFormed source) :
    ((∃ used, getUserdSyscall env filePath = .ok used) ↔ contains filePath ".sh".toList = true ∨
      contains filePath "selftest".toList = false ∨ "main".toList ∈ (CallGraph.new.loadFromSource source).1.nodeMap.keys) ∧
    (contains filePath ".sh".toList = false → topFuncs (CallGraph.new.loadFromSource source).1 filePath = [] →
      getUserdSyscall env filePath = .ok []) := by
  have loaded := loadedWhole read
  generalize (CallGraph.new.loadFromSource source).1 = g at loaded ⊢
  cases shell : contains filePath ".sh".toList with
  | true => exact ⟨⟨fun _ => Or.inl rfl,fun _ => ⟨getShUsedSyscall env filePath,if_pos shell⟩⟩,fun no => by contradiction⟩
  | false =>
    refine ⟨⟨?_,?_⟩,?_⟩
    · intro done
      obtain ⟨used,run⟩ := done
      by_contra other
      simp only [not_or,Bool.not_eq_false] at other
      obtain ⟨_,selftest,missing⟩ := other
      simp only [getUserdSyscall,shell,file,loaded,missingMainRaises selftest missing] at run
      contradiction
    · intro entry
      have present : contains filePath "selftest".toList = true → "main".toList ∈ g.nodeMap.keys := by
        intro selftest
        rcases entry with no | no | present
        · contradiction
        · rw [selftest] at no
          contradiction
        · exact present
      obtain ⟨used,done,_⟩ := userdSyscallExact shell file loaded present
      exact ⟨used,done⟩
    · intro _ none
      simp only [getUserdSyscall,shell,file,loaded,none]
      rfl

def openTest : Str := "Function: main\nOrigin File: ./io/open01.c: 7\nCalls:\nopen\nmain".toList

def openEnvironment : Environment where
  files := fun path => if path = "/ltp/cg-open01.txt".toList then some openTest else none
  ltpCgDir := "/ltp".toList
  glibcCg := glibcGraph "open : openat\nopenat : open\n".toList
  kernelCg := (CallGraph.new.loadFromSource "Function: __do_sys_openat\nCalls:\nvfs_open".toList).1
  syscallList := ["openat".toList,"close".toList]
  syscallTable := Dict.empty.set "openat".toList "__do_sys_openat".toList
  taTmp := Dict.empty

theorem openTestFile : testCgFile openEnvironment "io/selftest/open01.c".toList = some openTest := by decide

theorem openTestReachesKernel : ∃ related,
    getRelatedMethods openEnvironment "io/selftest/open01.c".toList =
      .ok ({ openEnvironment with
        taTmp := openEnvironment.taTmp.set "io/selftest/open01.c".toList related },related) ∧
    "vfs_open".toList ∈ related := by
  have loaded : CallGraph.new.loadFromSource openTest = ((CallGraph.new.loadFromSource openTest).1,none) :=
    Prod.ext rfl (by decide)
  obtain ⟨related,done,exactly⟩ := relatedMethodsExact (by decide) openTestFile loaded (by decide)
  have starts : StartsAt (CallGraph.new.loadFromSource openTest).1 "io/selftest/open01.c".toList "main".toList := by
    unfold StartsAt
    rw [if_pos (by decide)]
  exact ⟨related,done,(exactly _).mpr ⟨"main".toList,"open".toList,"openat".toList,starts,
    ⟨⟨by decide,.single (by decide)⟩,by decide⟩,⟨by decide,by decide,.single (by decide)⟩,
    "__do_sys_openat".toList,by decide,by decide,.single (by decide)⟩⟩

theorem openTestReturns : ∃ used, getUserdSyscall openEnvironment "io/selftest/open01.c".toList = .ok used :=
  (userdSyscallReturns openEnvironment "io/selftest/open01.c".toList openTest openTestFile
    ⟨[⟨"main".toList,some "io/open01.c".toList,7,["open".toList,"main".toList]⟩],by decide⟩).1.mpr
    (Or.inr (Or.inr (by decide)))

def helperTest : Str := "Function: helper\nCalls:\n  open\n".toList

def helperEnvironment : Environment := { openEnvironment with
  files := fun path => if path = "/ltp/cg-open01.txt".toList then some helperTest else none }

theorem missingMainAborts : testCgFile helperEnvironment "selftests/open01.c".toList = some helperTest
    ∧ (blockTexts helperTest).mapM parseBlock = .ok [⟨"helper".toList,none,-1,["open".toList]⟩]
    ∧ getUserdSyscall helperEnvironment "selftests/open01.c".toList = .error .attributeError := by
  decide +kernel

end KernelTcp.Graph

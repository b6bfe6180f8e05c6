import KernelTcp.Graph.CgBased

/-! The kernel graph over the files of several checkouts, all loaded into one graph.
A file replaces the callers of the functions it describes and removes nothing. -/
namespace KernelTcp.Graph
open Text Walk

def getKernelCgs (env : Environment) : List Str → Environment × Option PyError
  | [] => (env,none)
  | gitSha::gitShas =>
      let loaded := getKernelCg env gitSha
      match loaded.2 with
      | some e => (loaded.1,some e)
      | none => getKernelCgs loaded.1 gitShas

def Environment.imported (env : Environment) : Environment := { env with kernelCg := CallGraph.new }

def Readable (env : Environment) (gitSha : Str) : Prop :=
  ∃ source, env.files (kernelCgFile gitSha) = some source ∧ WellFormed source

theorem getKernelCgDone {env : Environment} {gitSha source : Str} {bs : List Block}
    (file : env.files (kernelCgFile gitSha) = some source) (read : (blockTexts source).mapM parseBlock = .ok bs) :
    getKernelCg env gitSha = ({ env with kernelCg := bs.foldl CallGraph.load env.kernelCg },none) := by
  unfold getKernelCg CallGraph.loadFromSource
  rw [file]
  simp only [loadTextsDone read]

theorem getKernelCgsSnoc {env : Environment} {gitShas : List Str} {gitSha source : Str} {bs : List Block}
    (readable : ∀ s ∈ gitShas, Readable env s) (file : env.files (kernelCgFile gitSha) = some source)
    (read : (blockTexts source).mapM parseBlock = .ok bs) :
    (getKernelCgs env (gitShas ++ [gitSha])).1.kernelCg = bs.foldl CallGraph.load (getKernelCgs env gitShas).1.kernelCg := by
  induction gitShas generalizing env with
  | nil => simp only [List.nil_append,getKernelCgs,getKernelCgDone file read]
  | cons first rest ih =>
    obtain ⟨text,found,others,texts⟩ := readable first (by simp)
    simp only [List.cons_append,getKernelCgs,getKernelCgDone found texts]
    exact ih (fun s hs => readable s (by simp [hs])) file

section history
variable {stale : CallGraph} {bs : List Block}

theorem loadedKeys {k : Str} : k ∈ (bs.foldl CallGraph.load stale).nodeMap.keys ↔
    k ∈ stale.nodeMap.keys ∨ k ∈ (bs.foldl CallGraph.load CallGraph.new).nodeMap.keys := by
  rw [memLoadAll,memLoadAll]
  simp [CallGraph.new]

theorem loadedDescribed {k : Str} (described : ∃ b ∈ bs, b.funcName = k) :
    callers (bs.foldl CallGraph.load stale).nodeMap k = callers (bs.foldl CallGraph.load CallGraph.new).nodeMap k := by
  rw [callersLoadAll,callersLoadAll]
  obtain ⟨b,hb,name⟩ := described
  have some : bs.filter (fun b => b.funcName = k) ≠ [] :=
    List.ne_nil_of_mem (List.mem_filter.mpr ⟨hb,by simpa using name⟩)
  rw [List.getLast?_eq_some_getLast some]
  rfl

theorem loadedOther {k : Str} (other : ∀ b ∈ bs, b.funcName ≠ k) (g : CallGraph) :
    callers (bs.foldl CallGraph.load g).nodeMap k = callers g.nodeMap k := by
  have none : bs.filter (fun b => b.funcName = k) = [] := by
    apply List.filter_eq_nil_iff.mpr
    intro b hb
    simpa using other b hb
  rw [callersLoadAll,none]
  rfl

theorem loadedMore {k x : Str} (mem : x ∈ callers (bs.foldl CallGraph.load CallGraph.new).nodeMap k) :
    x ∈ callers (bs.foldl CallGraph.load stale).nodeMap k := by
  by_cases described : ∃ b ∈ bs, b.funcName = k
  · rw [loadedDescribed described]
    exact mem
  · rw [loadedOther (fun b hb same => described ⟨b,hb,same⟩)] at mem
    simp [callers,CallGraph.new,Dict.getEmpty] at mem

theorem loadedReaches (stale : CallGraph) {r x : Str} (h : Reaches (bs.foldl CallGraph.load CallGraph.new) r x) :
    Reaches (bs.foldl CallGraph.load stale) r x :=
  ⟨loadedKeys.mpr (Or.inr h.1),Relation.ReflTransGen.mono (fun _ _ => loadedMore) _ _ h.2⟩

/- Whatever an earlier file said about a function that this file does not describe stays
inside what is reached anyway. -/
structure Unshadowed (stale : CallGraph) (bs : List Block) (r : Str) : Prop where
  root : r ∈ (bs.foldl CallGraph.load CallGraph.new).nodeMap.keys ∨ r ∉ stale.nodeMap.keys
  edges : ∀ f, Reaches (bs.foldl CallGraph.load CallGraph.new) r f → (∀ b ∈ bs, b.funcName ≠ f) →
    ∀ x ∈ callers stale.nodeMap f, Reaches (bs.foldl CallGraph.load CallGraph.new) r x

theorem reachesUnshadowed {r : Str} (h : Unshadowed stale bs r) {x : Str}
    (reach : Reaches (bs.foldl CallGraph.load stale) r x) : Reaches (bs.foldl CallGraph.load CallGraph.new) r x := by
  obtain ⟨present,path⟩ := reach
  have root : r ∈ (bs.foldl CallGraph.load CallGraph.new).nodeMap.keys := by
    rcases h.root with here | absent
    · exact here
    · exact (loadedKeys.mp present).resolve_left absent
  induction path with
  | refl => exact ⟨root,.refl⟩
  | @tail f y _ edge ih =>
    by_cases described : ∃ b ∈ bs, b.funcName = f
    · rw [loadedDescribed described] at edge
      exact ⟨root,ih.2.tail edge⟩
    · have other : ∀ b ∈ bs, b.funcName ≠ f := fun b hb same => described ⟨b,hb,same⟩
      rw [loadedOther other] at edge
      exact h.edges f ih other y edge

theorem unshadowedOf {r : Str} (same : ∀ x, Reaches (bs.foldl CallGraph.load stale) r x →
    Reaches (bs.foldl CallGraph.load CallGraph.new) r x) : Unshadowed stale bs r := by
  constructor
  · by_cases old : r ∈ stale.nodeMap.keys
    · exact Or.inl (same r ⟨loadedKeys.mpr (Or.inl old),.refl⟩).1
    · exact Or.inr old
  · intro f reach other x edge
    rw [← loadedOther other] at edge
    have before := loadedReaches stale reach
    exact same x ⟨before.1,before.2.tail edge⟩

end history

/-- After any sequence of loads the functions found below a root are those of the last
file alone exactly when no earlier file adds a root or an edge that is still followed. -/
theorem allCallOfLastFile {env : Environment} {gitShas : List Str} {gitSha source : Str} {bs : List Block}
    (readable : ∀ s ∈ gitShas, Readable env s) (file : env.files (kernelCgFile gitSha) = some source)
    (read : (blockTexts source).mapM parseBlock = .ok bs) (r : Str) :
    (∀ x, x ∈ (getKernelCgs env.imported (gitShas ++ [gitSha])).1.kernelCg.getAllCall (some r) ↔
        x ∈ (CallGraph.new.loadFromSource source).1.getAllCall (some r)) ↔
      Unshadowed (getKernelCgs env.imported gitShas).1.kernelCg bs r := by
  have loaded : (getKernelCgs env.imported (gitShas ++ [gitSha])).1.kernelCg =
      bs.foldl CallGraph.load (getKernelCgs env.imported gitShas).1.kernelCg := getKernelCgsSnoc readable file read
  rw [loaded,CallGraph.loadFromSource,loadTextsDone read]
  simp only [memGetAllCall]
  constructor
  · intro same
    exact unshadowedOf (fun x => (same x).mp)
  · intro h x
    exact ⟨reachesUnshadowed h,loadedReaches _⟩

def twoCheckouts : Environment where
  files := fun path =>
    if path = kernelCgFile "1".toList then some "Function: f\nCalls:\ng".toList
    else if path = kernelCgFile "2".toList then some "Function: r\nCalls:\nf".toList
    else none
  ltpCgDir := []
  glibcCg := CallGraph.new
  kernelCg := CallGraph.new
  syscallList := []
  syscallTable := Dict.empty
  taTmp := Dict.empty

theorem twoCheckoutsDiffer : (getKernelCgs twoCheckouts.imported ["1".toList,"2".toList]).2 = none ∧
    "g".toList ∈ (getKernelCgs twoCheckouts.imported ["1".toList,"2".toList]).1.kernelCg.getAllCall (some "r".toList) ∧
    "g".toList ∉ (CallGraph.new.loadFromSource "Function: r\nCalls:\nf".toList).1.getAllCall (some "r".toList) := by
  decide

theorem twoCheckoutsSwapped :
    (∀ x, x ∈ (getKernelCgs twoCheckouts.imported (["2".toList] ++ ["1".toList])).1.kernelCg.getAllCall (some "f".toList) ↔
        x ∈ (CallGraph.new.loadFromSource "Function: f\nCalls:\ng".toList).1.getAllCall (some "f".toList)) ↔
      Unshadowed (getKernelCgs twoCheckouts.imported ["2".toList]).1.kernelCg
        [⟨"f".toList,none,-1,["g".toList]⟩] "f".toList := by
  apply allCallOfLastFile
  · intro s hs
    rw [List.mem_singleton.mp hs]
    exact ⟨"Function: r\nCalls:\nf".toList,by decide,[⟨"r".toList,none,-1,["f".toList]⟩],by decide⟩
  · decide
  · decide

end KernelTcp.Graph

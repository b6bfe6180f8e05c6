import KernelTcp.Lib.Text

/-! The machine that a failed test is run on again: the files of the host, the virtual machine
behind it, and the commands that the scripts hand to a shell. What a command answers is not
theirs to say. A command run in the virtual machine leaves the files of the host alone; a copy
from it touches its target only, and when the copy succeeds the target is there. -/
namespace KernelTcp.Repro
open Text

structure CompletedProcess where
  returncode : Int
  stdout : Str
  stderr : Str
  deriving DecidableEq, Repr

inductive Entry where
  | directory
  | file (text : Str)
  deriving DecidableEq, Repr

abbrev Files := Str → Option Entry

namespace Files

def has (fs : Files) (path : Str) : Bool := (fs path).isSome

def put (fs : Files) (path : Str) (entry : Entry) : Files := fun p => if p = path then some entry else fs p

def Grown (before after : Files) : Prop := ∀ path, before.has path = true → after.has path = true

theorem hasPut (fs : Files) (path : Str) (entry : Entry) : (fs.put path entry).has path = true := by
  unfold has put
  rw [if_pos rfl,Option.isSome_some]

theorem putGrown (fs : Files) (path : Str) (entry : Entry) : Grown fs (fs.put path entry) := by
  intro p there
  unfold has put
  split
  · rfl
  · exact there

theorem grownTrans {a b c : Files} (first : Grown a b) (second : Grown b c) : Grown a c :=
  fun path there => second path (first path there)

end Files

structure Site where
  workLinuxDir : Str
  resultDir : Str
  deriving DecidableEq, Repr

inductive Command where
  | vm (cmd : Str)
  | fetch (source target : Str)
  | host (cmd cwd : Str)
  deriving DecidableEq, Repr

structure Issued where
  site : Site
  command : Command
  returncode : Int
  deriving DecidableEq, Repr

structure Outside (ω : Type) where
  inVm : Str → ω → CompletedProcess × ω
  fetch : Str → Str → ω → CompletedProcess × Option Str × ω
  fetched : ∀ source target w, (fetch source target w).1.returncode = 0 → (fetch source target w).2.1.isSome = true
  onHost : Str → Str → ω → Files → CompletedProcess × Files × ω
  now : ω → Int × ω

structure Host (ω : Type) where
  world : ω
  files : Files
  issued : List Issued

section Commands
variable {ω : Type} (out : Outside ω) (site : Site)

def executeCmdInQemu (cmd : Str) (h : Host ω) : CompletedProcess × Host ω :=
  let (res,world) := out.inVm cmd h.world
  (res,⟨world,h.files,h.issued ++ [⟨site,.vm cmd,res.returncode⟩]⟩)

def fetch (source target : Str) (h : Host ω) : CompletedProcess × Host ω :=
  let (res,left,world) := out.fetch source target h.world
  let files := match left with
    | some text => h.files.put target (.file text)
    | none => h.files
  (res,⟨world,files,h.issued ++ [⟨site,.fetch source target,res.returncode⟩]⟩)

def runCommand (cmd cwd : Str) (h : Host ω) : CompletedProcess × Host ω :=
  let (res,files,world) := out.onHost cmd cwd h.world h.files
  (res,⟨world,files,h.issued ++ [⟨site,.host cmd cwd,res.returncode⟩]⟩)

def now (h : Host ω) : Int × Host ω :=
  let (time,world) := out.now h.world
  (time,{ h with world := world })

variable {out site}

@[simp] theorem qemuFiles (cmd : Str) (h : Host ω) : (executeCmdInQemu out site cmd h).2.files = h.files := rfl

@[simp] theorem qemuIssued (cmd : Str) (h : Host ω) : (executeCmdInQemu out site cmd h).2.issued =
    h.issued ++ [⟨site,.vm cmd,(executeCmdInQemu out site cmd h).1.returncode⟩] := rfl

@[simp] theorem fetchIssued (source target : Str) (h : Host ω) : (fetch out site source target h).2.issued =
    h.issued ++ [⟨site,.fetch source target,(fetch out site source target h).1.returncode⟩] := rfl

@[simp] theorem nowFiles (h : Host ω) : (now out h).2.files = h.files := rfl

theorem fetchLeaves (out : Outside ω) (site : Site) (source target : Str) (h : Host ω) :
    (fetch out site source target h).2.files = h.files ∧ (fetch out site source target h).1.returncode ≠ 0 ∨
    ∃ text, (fetch out site source target h).2.files = h.files.put target (.file text) := by
  have arrived := out.fetched source target h.world
  unfold fetch
  generalize out.fetch source target h.world = answer at arrived ⊢
  obtain ⟨res,left,world⟩ := answer
  cases left with
  | some text => exact Or.inr ⟨text,rfl⟩
  | none =>
    refine Or.inl ⟨rfl,?_⟩
    intro succeeded
    exact absurd (arrived succeeded) (by simp)

end Commands

end KernelTcp.Repro

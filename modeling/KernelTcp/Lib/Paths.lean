import KernelTcp.Lib.Search

/-! Relative and absolute paths as the language's path objects cut them: at slashes, without
empty and without single-dot components. -/
namespace KernelTcp.Paths
open Text

def parts (path : Str) : List Str := (splitOn ['/'] path).filter (fun part => !part.isEmpty && part != ['.'])

def name (path : Str) : Str := (parts path).getLast?.getD []

def parentName (path : Str) : Str := (parts path).dropLast.getLast?.getD []

/- Where the suffix of a component starts. A dot at either end of it starts none. -/
def suffixAt (component : Str) : Nat :=
  let dot := afterLast '.' component
  if 1 < dot ∧ dot < component.length then dot - 1 else component.length

def stem (path : Str) : Str := (name path).take (suffixAt (name path))

def suffix (path : Str) : Str := (name path).drop (suffixAt (name path))

/- Two slashes at the start are kept, any other number of them is one. -/
def root (path : Str) : Str :=
  let slashes := (path.takeWhile (fun c => c = '/')).length
  if slashes = 2 then "//".toList else if slashes = 0 then [] else "/".toList

def render (root : Str) (parts : List Str) : Str :=
  let path := root ++ List.intercalate "/".toList parts
  if path.isEmpty then ".".toList else path

def text (path : Str) : Str := render (root path) (parts path)

def isAbsolute (path : Str) : Bool := startsWith path "/".toList

def join (dir path : Str) : Str := if isAbsolute path then text path else render (root dir) (parts dir ++ parts path)

section Without
variable {c : Char}

theorem partsWithout {path : Str} (absent : c ∉ path) : ∀ part ∈ parts path, c ∉ part := by
  intro part listed
  exact splitFromOther (by simp) absent part (List.mem_of_mem_filter listed)

theorem rootWithout (slash : c ≠ '/') (path : Str) : c ∉ root path := by
  unfold root
  dsimp only
  split
  · simp [slash]
  split
  · simp
  · simp [slash]

theorem renderWithout (slash : c ≠ '/') (dot : c ≠ '.') {start : Str} (plain : c ∉ start) {parts : List Str}
    (others : ∀ part ∈ parts, c ∉ part) : c ∉ render start parts := by
  unfold render
  dsimp only
  split
  · simp [dot]
  · rw [List.mem_append,not_or]
    exact ⟨plain,intercalateWithout (by simp [slash]) others⟩

theorem joinWithout (slash : c ≠ '/') (dot : c ≠ '.') {dir path : Str} (inDir : c ∉ dir) (inPath : c ∉ path) : c ∉ join dir path := by
  unfold join
  split
  · exact renderWithout slash dot (rootWithout slash path) (partsWithout inPath)
  · refine renderWithout slash dot (rootWithout slash dir) ?_
    intro part listed
    exact (List.mem_append.mp listed).elim (partsWithout inDir part) (partsWithout inPath part)

end Without

end KernelTcp.Paths

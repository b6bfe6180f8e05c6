import KernelTcp.Lib.Dict

/-! A memory of the answers of a function, which the threads of a process share without a lock, and
the file it is written to whenever the number of stored answers is a multiple of a period. Threads
take turns in any order, between any two accesses to what they share. -/
namespace KernelTcp.Cache
variable {κ ν : Type} [DecidableEq κ]

/- Of a torn file nothing is known: it is emptied when it is opened, and two threads may write it at once. -/
inductive Stored (κ ν : Type) where
  | missing
  | torn
  | whole (d : Dict κ ν)

structure Shared (κ ν : Type) where
  cache : Dict κ ν
  updated : Nat
  file : Stored κ ν
  writers : Nat
  overlap : Bool

/- Where a thread stands in its question; `size` is that of the memory when it began to be written. -/
inductive Stage (κ ν : Type) where
  | idle
  | asked (k : κ)
  | present (k : κ)
  | found (k : κ) (v : ν)
  | stored (k : κ) (v : ν)
  | counting (k : κ) (v : ν) (n : Nat)
  | counted (k : κ) (v : ν)
  | due (k : κ) (v : ν)
  | opened (k : κ) (v : ν)
  | dumping (k : κ) (v : ν) (size done : Nat)
  | dumped (k : κ) (v : ν) (d : Dict κ ν)

abbrev Answer (κ ν : Type) := κ × Except PyError (Option ν)

def Shared.opens (s : Shared κ ν) : Shared κ ν :=
  { s with file := .torn, writers := s.writers + 1, overlap := s.overlap || decide (0 < s.writers) }

def Shared.closes (s : Shared κ ν) (d : Dict κ ν) : Shared κ ν :=
  { s with file := if s.overlap then .torn else .whole d, writers := s.writers - 1,
           overlap := s.overlap && decide (1 < s.writers) }

section Steps
variable (f : κ → Option ν) (period : Nat)

-- a dump fails when the dictionary it goes through has grown, and its error keeps the file open
def turn (s : Shared κ ν) : Stage κ ν → Shared κ ν × Stage κ ν × List (Answer κ ν)
  | .idle => (s,.idle,[])
  | .asked k =>
    if k ∈ s.cache.keys then (s,.present k,[])
    else match f k with
      | none => (s,.idle,[(k,.ok none)])
      | some v => (s,.found k v,[])
  | .present k => (s,.idle,[(k,(Py.raiseNone .keyError (s.cache.get? k)).map some)])
  | .found k v => ({ s with cache := s.cache.set k v },.stored k v,[])
  | .stored k v => (s,.counting k v s.updated,[])
  | .counting k v n => ({ s with updated := n + 1 },.counted k v,[])
  | .counted k v => if s.updated % period = 0 then (s,.due k v,[]) else (s,.idle,[(k,.ok (some v))])
  | .due k v => (s.opens,.opened k v,[])
  | .opened k v => (s,.dumping k v s.cache.entries.length 0,[])
  | .dumping k v size done =>
    if s.cache.entries.length ≠ size then (s,.idle,[(k,.error .runtimeError)])
    else if done < size then (s,.dumping k v size (done + 1),[])
    else (s,.dumped k v s.cache,[])
  | .dumped k v d => (s.closes d,.idle,[(k,.ok (some v))])

structure System (κ ν : Type) where
  shared : Shared κ ν
  stages : Nat → Stage κ ν

inductive Event (κ : Type) where
  | ask (thread : Nat) (k : κ)
  | turn (thread : Nat)

def Event.thread : Event κ → Nat
  | .ask thread _ => thread
  | .turn thread => thread

def place (stages : Nat → Stage κ ν) (thread : Nat) (stage : Stage κ ν) : Nat → Stage κ ν :=
  fun other => if other = thread then stage else stages other

def step (s : System κ ν) : Event κ → System κ ν × List (Answer κ ν)
  | .ask thread k => match s.stages thread with
    | .idle => (⟨s.shared,place s.stages thread (.asked k)⟩,[])
    | _ => (s,[])
  | .turn thread =>
    let (shared,stage,answered) := turn f period s.shared (s.stages thread)
    (⟨shared,place s.stages thread stage⟩,answered)

def run : List (Event κ) → System κ ν → System κ ν × List (Answer κ ν)
  | [], s => (s,[])
  | e::es, s =>
    let (s,answered) := step f period s e
    let (s,later) := run es s
    (s,answered ++ later)

def ask (s : Shared κ ν) (k : κ) : Option ν × Shared κ ν :=
  match s.cache.get? k with
  | some v => (some v,s)
  | none => match f k with
    | none => (none,s)
    | some v =>
      let cache := s.cache.set k v
      let updated := s.updated + 1
      (some v,{ s with cache := cache, updated := updated, file := if updated % period = 0 then .whole cache else s.file })

end Steps

def load (found : Option (Dict κ ν)) : Shared κ ν :=
  ⟨found.getD Dict.empty,0,(found.map Stored.whole).getD .missing,0,false⟩

def started (found : Option (Dict κ ν)) : System κ ν := ⟨load found,fun _ => .idle⟩

def askAll (query : Shared κ ν → κ → Option ν × Shared κ ν) : List κ → Shared κ ν → Shared κ ν
  | [], s => s
  | k::ks, s => askAll query ks (query s k).2

section Coherence
variable {f : κ → Option ν} {period : Nat}

def Coherent (f : κ → Option ν) (d : Dict κ ν) : Prop := ∀ k v, d.get? k = some v → f k = some v

theorem coherentEmpty : Coherent f (Dict.empty : Dict κ ν) := by
  intro k v found
  simp at found

theorem coherentSet {d : Dict κ ν} (coherent : Coherent f d) {k : κ} {v : ν} (right : f k = some v) : Coherent f (d.set k v) := by
  intro other w found
  by_cases same : k = other
  · subst same
    rw [Dict.getSetSame] at found
    rw [right,← found]
  · rw [Dict.getSetOther d v same] at found
    exact coherent other w found

theorem coherentGrows {d : Dict κ ν} (coherent : Coherent f d) {k : κ} {v : ν} (right : f k = some v) :
    d.entries <+: (d.set k v).entries := by
  by_cases known : k ∈ d.keys
  · obtain ⟨w,here⟩ := Dict.memKeys.mp known
    have same : w = v := Option.some.inj ((coherent k w here).symm.trans right)
    exact (Dict.setSame (same ▸ here)).symm ▸ List.prefix_refl _
  · exact Dict.entriesSetNew known v ▸ List.prefix_append _ _

/- What holds of the shared data at every moment, `base` being the memory at the start. -/
structure Safe (f : κ → Option ν) (base : Dict κ ν) (s : Shared κ ν) : Prop where
  cache : Coherent f s.cache
  grown : base.entries <+: s.cache.entries
  file : ∀ d, s.file = .whole d → Coherent f d ∧ base.entries <+: d.entries

def Right (f : κ → Option ν) (base : Dict κ ν) (s : Shared κ ν) : Stage κ ν → Prop
  | .idle | .asked _ => True
  | .present k => k ∈ s.cache.keys
  | .found k v | .stored k v | .counting k v _ | .counted k v | .due k v | .opened k v | .dumping k v _ _ => f k = some v
  | .dumped k v d => f k = some v ∧ Coherent f d ∧ base.entries <+: d.entries

def Answered (f : κ → Option ν) (a : Answer κ ν) : Prop := a.2 = .ok (f a.1) ∨ a.2 = .error .runtimeError

structure Turned (f : κ → Option ν) (base : Dict κ ν) (s : Shared κ ν) (r : Shared κ ν × Stage κ ν × List (Answer κ ν)) : Prop where
  safe : Safe f base r.1
  right : Right f base r.1 r.2.1
  grows : s.cache.entries <+: r.1.cache.entries
  answers : ∀ a ∈ r.2.2, Answered f a

theorem rightGrows {base : Dict κ ν} {s t : Shared κ ν} (grows : s.cache.entries <+: t.cache.entries) {stage : Stage κ ν}
    (right : Right f base s stage) : Right f base t stage := by
  cases stage with
  | present k => exact (grows.map Prod.fst).subset right
  | idle | asked k => trivial
  | found k v | stored k v | counting k v n | counted k v | due k v | opened k v | dumping k v size done | dumped k v d => exact right

theorem turnStays {base : Dict κ ν} {s : Shared κ ν} (safe : Safe f base s) (t : Shared κ ν) (stage : Stage κ ν) (cache : t.cache = s.cache)
    (file : ∀ d, t.file = .whole d → s.file = .whole d ∨ Coherent f d ∧ base.entries <+: d.entries) (right : Right f base t stage)
    {answered : List (Answer κ ν)} (answers : ∀ a ∈ answered, Answered f a) : Turned f base s (t,stage,answered) where
  safe := by
    refine ⟨cache ▸ safe.cache,cache ▸ safe.grown,?_⟩
    intro d here
    exact (file d here).elim (safe.file d) id
  right := right
  grows := cache ▸ List.prefix_refl _
  answers := answers

theorem turnSafe (period : Nat) {base : Dict κ ν} {s : Shared κ ν} (safe : Safe f base s) {stage : Stage κ ν} (right : Right f base s stage) :
    Turned f base s (turn f period s stage) := by
  have same : ∀ d, s.file = .whole d → s.file = .whole d ∨ Coherent f d ∧ base.entries <+: d.entries := fun _ here => .inl here
  have one : ∀ {a : Answer κ ν}, Answered f a → ∀ b ∈ [a], Answered f b := fun given b listed => List.mem_singleton.mp listed ▸ given
  have nothing : ∀ a ∈ ([] : List (Answer κ ν)), Answered f a := by simp
  cases stage with
  | idle => exact turnStays safe s .idle rfl same trivial nothing
  | asked k =>
    rw [turn]
    split
    · rename_i known
      exact turnStays safe s (.present k) rfl same known nothing
    · cases found : f k with
      | none => exact turnStays safe s .idle rfl same trivial (one (.inl (found ▸ rfl)))
      | some v => exact turnStays safe s (.found k v) rfl same found nothing
  | present k =>
    obtain ⟨v,here⟩ := Dict.memKeys.mp right
    refine turnStays safe s .idle rfl same trivial (one (.inl ?_))
    rw [here,safe.cache k v here]
    rfl
  | found k v =>
    have grows := coherentGrows safe.cache right
    exact ⟨⟨coherentSet safe.cache right,safe.grown.trans grows,safe.file⟩,right,grows,nothing⟩
  | stored k v => exact turnStays safe s (.counting k v s.updated) rfl same right nothing
  | counting k v n => exact turnStays safe { s with updated := n + 1 } (.counted k v) rfl same right nothing
  | counted k v =>
    rw [turn]
    split
    · exact turnStays safe s (.due k v) rfl same right nothing
    · exact turnStays safe s .idle rfl same trivial (one (.inl (congrArg Except.ok right.symm)))
  | due k v => exact turnStays safe s.opens (.opened k v) rfl (by simp [Shared.opens]) right nothing
  | opened k v => exact turnStays safe s (.dumping k v s.cache.entries.length 0) rfl same right nothing
  | dumping k v size done =>
    rw [turn]
    split
    · exact turnStays safe s .idle rfl same trivial (one (.inr rfl))
    · split
      · exact turnStays safe s (.dumping k v size (done + 1)) rfl same right nothing
      · exact turnStays safe s (.dumped k v s.cache) rfl same ⟨right,safe.cache,safe.grown⟩ nothing
  | dumped k v d =>
    refine turnStays safe (s.closes d) .idle rfl ?_ trivial (one (.inl (congrArg Except.ok right.1.symm)))
    intro whole here
    dsimp only [Shared.closes] at here
    split at here
    · cases here
    · exact .inr (Stored.whole.inj here ▸ right.2)

structure AllSafe (f : κ → Option ν) (base : Dict κ ν) (s : System κ ν) : Prop where
  shared : Safe f base s.shared
  stages : ∀ thread, Right f base s.shared (s.stages thread)

theorem placeRight {base : Dict κ ν} {s t : Shared κ ν} {stages : Nat → Stage κ ν} (right : ∀ thread, Right f base s (stages thread))
    (grows : s.cache.entries <+: t.cache.entries) {stage : Stage κ ν} (own : Right f base t stage) (thread other : Nat) :
    Right f base t (place stages thread stage other) := by
  unfold place
  split
  · exact own
  · exact rightGrows grows (right other)

theorem stepSafe (period : Nat) {base : Dict κ ν} {s : System κ ν} (safe : AllSafe f base s) (e : Event κ) :
    AllSafe f base (step f period s e).1 ∧ ∀ a ∈ (step f period s e).2, Answered f a := by
  cases e with
  | ask thread k =>
    rw [step]
    split
    · exact ⟨⟨safe.shared,placeRight safe.stages (List.prefix_refl _) (show Right f base s.shared (.asked k) from trivial) thread⟩,by simp⟩
    · exact ⟨safe,by simp⟩
  | turn thread =>
    have turned := turnSafe period safe.shared (safe.stages thread)
    exact ⟨⟨turned.safe,placeRight safe.stages turned.grows turned.right thread⟩,turned.answers⟩

theorem runSafe (period : Nat) {base : Dict κ ν} {s : System κ ν} (safe : AllSafe f base s) (es : List (Event κ)) :
    AllSafe f base (run f period es s).1 ∧ ∀ a ∈ (run f period es s).2, Answered f a := by
  induction es generalizing s with
  | nil => exact ⟨safe,by simp [run]⟩
  | cons e es ih =>
    obtain ⟨now,answered⟩ := stepSafe period safe e
    obtain ⟨after,later⟩ := ih now
    refine ⟨after,?_⟩
    intro a listed
    exact (List.mem_append.mp listed).elim (answered a) (later a)

-- the second thread stores an answer while the first one saves, which then raises
example : (run (fun k : Nat => some k) 1 ([.ask 0 1,.ask 1 2] ++ List.replicate 7 (.turn 0) ++ List.replicate 2 (.turn 1) ++ [.turn 0])
    (started none)).2 = [(1,.error .runtimeError)] := rfl

theorem startedSafe {found : Option (Dict κ ν)} (coherent : ∀ d, found = some d → Coherent f d) :
    AllSafe f (found.getD Dict.empty) (started found) := by
  refine ⟨⟨?_,List.prefix_refl _,?_⟩,fun _ => trivial⟩
  · cases found with
    | none => exact coherentEmpty
    | some d => exact coherent d rfl
  · intro d here
    cases found with
    | none => cases here
    | some e => exact Stored.whole.inj here ▸ ⟨coherent e rfl,List.prefix_refl _⟩

end Coherence

section Ends
variable (f : κ → Option ν) (period : Nat)

def remaining (s : Shared κ ν) : Stage κ ν → Nat
  | .idle => 0
  | .asked _ => s.cache.entries.length + 10
  | .present _ | .dumped _ _ _ => 1
  | .found _ _ => s.cache.entries.length + 9
  | .stored _ _ => s.cache.entries.length + 7
  | .counting _ _ _ => s.cache.entries.length + 6
  | .counted _ _ => s.cache.entries.length + 5
  | .due _ _ => s.cache.entries.length + 4
  | .opened _ _ => s.cache.entries.length + 3
  | .dumping _ _ size done => size - done + 2

theorem turnRemaining (s : Shared κ ν) {stage : Stage κ ν} (busy : stage ≠ .idle) :
    remaining (turn f period s stage).1 (turn f period s stage).2.1 < remaining s stage := by
  cases stage with
  | idle => exact absurd rfl busy
  | asked k =>
    rw [turn]
    split
    · simp [remaining]
    · split <;> simp [remaining]
  | found k v =>
    have grown := Dict.lengthSet s.cache k v
    simp only [turn,remaining]
    omega
  | counted k v =>
    rw [turn]
    split <;> simp [remaining]
  | dumping k v size done =>
    rw [turn]
    split
    · simp [remaining]
    · split
      · simp only [remaining]
        omega
      · simp [remaining]
  | present k | stored k v | counting k v n | due k v | opened k v | dumped k v d => simp [turn,remaining,Shared.opens]

theorem runEnds (thread : Nat) (s : System κ ν) : ∃ n, (run f period (List.replicate n (.turn thread)) s).1.stages thread = .idle := by
  induction bound : remaining s.shared (s.stages thread) using Nat.strongRecOn generalizing s with
  | ind left ih =>
    by_cases ended : s.stages thread = .idle
    · exact ⟨0,ended⟩
    · have fewer := turnRemaining f period s.shared ended
      obtain ⟨n,after⟩ := ih _ (bound ▸ fewer) (step f period s (.turn thread)).1 (by simp [step,place])
      exact ⟨n + 1,after⟩

end Ends

section Alone
variable {f : κ → Option ν} {period : Nat}

structure Quiet (s : Shared κ ν) : Prop where
  writers : s.writers = 0
  overlap : s.overlap = false

def answers (f : κ → Option ν) (period : Nat) : List κ → Shared κ ν → List (Answer κ ν)
  | [], _ => []
  | k::ks, s => (k,.ok (ask f period s k).1)::answers f period ks (ask f period s k).2

def New (f : κ → Option ν) (s : Shared κ ν) (k : κ) (v : ν) : Prop := k ∉ s.cache.keys ∧ f k = some v

def Midway (f : κ → Option ν) (period : Nat) (s : Shared κ ν) : Stage κ ν → Shared κ ν → Prop
  | .idle, now | .asked _, now => now = s
  | .present k, now => now = s ∧ k ∈ s.cache.keys
  | .found k v, now => now = s ∧ New f s k v
  | .stored k v, now => now = { s with cache := s.cache.set k v } ∧ New f s k v
  | .counting k v n, now => now = { s with cache := s.cache.set k v } ∧ n = s.updated ∧ New f s k v
  | .counted k v, now => now = { s with cache := s.cache.set k v, updated := s.updated + 1 } ∧ New f s k v
  | .due k v, now => now = { s with cache := s.cache.set k v, updated := s.updated + 1 } ∧ (s.updated + 1) % period = 0 ∧ New f s k v
  | .opened k v, now => now = Shared.opens { s with cache := s.cache.set k v, updated := s.updated + 1 } ∧
      (s.updated + 1) % period = 0 ∧ New f s k v
  | .dumping k v size _, now => now = Shared.opens { s with cache := s.cache.set k v, updated := s.updated + 1 } ∧
      size = now.cache.entries.length ∧ (s.updated + 1) % period = 0 ∧ New f s k v
  | .dumped k v d, now => now = Shared.opens { s with cache := s.cache.set k v, updated := s.updated + 1 } ∧
      d = s.cache.set k v ∧ (s.updated + 1) % period = 0 ∧ New f s k v

theorem askNew {s : Shared κ ν} {k : κ} {v : ν} (new : New f s k v) : ask f period s k =
    (some v,{ s with cache := s.cache.set k v, updated := s.updated + 1, file := if (s.updated + 1) % period = 0 then .whole (s.cache.set k v) else s.file }) := by
  simp only [ask,Dict.getNone.mpr new.1,new.2]

omit [DecidableEq κ] in
theorem closesOpens {s : Shared κ ν} (quiet : Quiet s) (d : Dict κ ν) : s.opens.closes d = { s with file := .whole d } := by
  simp [Shared.opens,Shared.closes,quiet.writers,quiet.overlap]

theorem turnMidway {s now : Shared κ ν} (quiet : Quiet s) {stage : Stage κ ν} (midway : Midway f period s stage now) :
    ((turn f period now stage).2.2 = [] ∧ Midway f period s (turn f period now stage).2.1 (turn f period now stage).1) ∨
    ∃ k, turn f period now stage = ((ask f period s k).2,.idle,[(k,.ok (ask f period s k).1)]) := by
  cases stage with
  | idle => exact .inl ⟨rfl,midway⟩
  | asked k =>
    obtain rfl : now = s := midway
    by_cases known : k ∈ now.cache.keys
    · exact .inl (by simp [turn,known,Midway])
    · cases found : f k with
      | none => exact .inr ⟨k,by simp [turn,known,found,ask,Dict.getNone.mpr known]⟩
      | some v => exact .inl (by simp [turn,known,found,Midway,New])
  | present k =>
    obtain ⟨rfl,known⟩ := midway
    obtain ⟨v,here⟩ := Dict.memKeys.mp known
    exact .inr ⟨k,by simp only [turn,ask,here]; rfl⟩
  | found k v =>
    obtain ⟨rfl,new⟩ := midway
    exact .inl ⟨rfl,rfl,new⟩
  | stored k v =>
    obtain ⟨rfl,new⟩ := midway
    exact .inl ⟨rfl,rfl,rfl,new⟩
  | counting k v n =>
    obtain ⟨rfl,rfl,new⟩ := midway
    exact .inl ⟨rfl,rfl,new⟩
  | counted k v =>
    obtain ⟨rfl,new⟩ := midway
    by_cases full : (s.updated + 1) % period = 0
    · exact .inl (by simp [turn,full,Midway,new])
    · exact .inr ⟨k,by simp [turn,full,askNew new]⟩
  | due k v =>
    obtain ⟨rfl,full,new⟩ := midway
    exact .inl ⟨rfl,rfl,full,new⟩
  | opened k v =>
    obtain ⟨rfl,full,new⟩ := midway
    exact .inl ⟨rfl,rfl,rfl,full,new⟩
  | dumping k v size done =>
    obtain ⟨rfl,rfl,full,new⟩ := midway
    by_cases rest : done < (Shared.opens { s with cache := s.cache.set k v, updated := s.updated + 1 }).cache.entries.length
    · rw [turn,if_neg (not_not.mpr rfl),if_pos rest]
      exact .inl ⟨rfl,rfl,rfl,full,new⟩
    · rw [turn,if_neg (not_not.mpr rfl),if_neg rest]
      exact .inl ⟨rfl,rfl,rfl,full,new⟩
  | dumped k v d =>
    obtain ⟨rfl,rfl,full,new⟩ := midway
    have saving : Quiet { s with cache := s.cache.set k v, updated := s.updated + 1 } := ⟨quiet.writers,quiet.overlap⟩
    refine .inr ⟨k,?_⟩
    rw [turn,closesOpens saving,askNew new,if_pos full]

theorem askQuiet {s : Shared κ ν} (quiet : Quiet s) (k : κ) : Quiet (ask f period s k).2 := by
  unfold ask
  split
  · exact quiet
  · split
    · exact quiet
    · exact ⟨quiet.writers,quiet.overlap⟩

theorem stepMidway {s : Shared κ ν} (quiet : Quiet s) {now : System κ ν} {e : Event κ}
    (midway : Midway f period s (now.stages e.thread) now.shared) :
    ((step f period now e).2 = [] ∧ Midway f period s ((step f period now e).1.stages e.thread) (step f period now e).1.shared) ∨
    ∃ k, (step f period now e).2 = [(k,.ok (ask f period s k).1)] ∧
      Midway f period (ask f period s k).2 ((step f period now e).1.stages e.thread) (step f period now e).1.shared := by
  cases e with
  | ask thread k =>
    refine .inl ?_
    rw [step]
    split
    · rename_i ended
      rw [Event.thread,ended] at midway
      exact ⟨rfl,by simpa [place,Event.thread,Midway] using midway⟩
    · exact ⟨rfl,midway⟩
  | turn thread =>
    rcases turnMidway quiet midway with ⟨silent,further⟩ | ⟨k,answered⟩
    · exact .inl ⟨silent,by simpa [step,place,Event.thread] using further⟩
    · rw [Event.thread] at answered
      exact .inr ⟨k,by simp [step,answered],by simp [step,place,Event.thread,answered,Midway]⟩

theorem runAlone (thread : Nat) {es : List (Event κ)} (alone : ∀ e ∈ es, e.thread = thread) {s : Shared κ ν} (quiet : Quiet s)
    {now : System κ ν} (midway : Midway f period s (now.stages thread) now.shared) :
    ∃ ks, (run f period es now).2 = answers f period ks s ∧
      Midway f period (askAll (ask f period) ks s) ((run f period es now).1.stages thread) (run f period es now).1.shared := by
  induction es generalizing s now with
  | nil => exact ⟨[],rfl,midway⟩
  | cons e es ih =>
    have rest : ∀ e ∈ es, e.thread = thread := fun e listed => alone e (List.mem_cons_of_mem _ listed)
    obtain rfl := alone e List.mem_cons_self
    rcases stepMidway quiet midway with ⟨silent,further⟩ | ⟨k,answered,further⟩
    · obtain ⟨ks,later,after⟩ := ih rest quiet further
      exact ⟨ks,by simp only [run,silent,later,List.nil_append],after⟩
    · obtain ⟨ks,later,after⟩ := ih rest (askQuiet quiet k) further
      exact ⟨k::ks,by simp only [run,answered,later,answers,List.singleton_append],after⟩

theorem askCoherent (period : Nat) {s : Shared κ ν} (coherent : Coherent f s.cache) (k : κ) :
    (ask f period s k).1 = f k ∧ Coherent f (ask f period s k).2.cache := by
  unfold ask
  cases known : s.cache.get? k with
  | some v => exact ⟨(coherent k v known).symm,coherent⟩
  | none =>
    cases found : f k with
    | none => exact ⟨rfl,coherent⟩
    | some v => exact ⟨rfl,coherentSet coherent found⟩

theorem answersCoherent {s : Shared κ ν} (coherent : Coherent f s.cache) (ks : List κ) :
    answers f period ks s = ks.map (fun k => (k,.ok (f k))) := by
  induction ks generalizing s with
  | nil => rfl
  | cons k ks ih =>
    obtain ⟨answer,after⟩ := askCoherent period coherent k
    rw [answers,ih after,answer]
    rfl

def Stored.dict : Stored κ ν → Option (Dict κ ν)
  | .missing => some Dict.empty
  | .torn => none
  | .whole d => some d

structure Kept (period base : Nat) (s : Shared κ ν) : Prop where
  cache : s.cache.entries.length = base + s.updated
  file : ∃ d, s.file.dict = some d ∧ d.entries.length = base + period * (s.updated / period) ∧ d.entries <+: s.cache.entries

omit [DecidableEq κ] in
theorem loadKept (found : Option (Dict κ ν)) : Kept period (found.getD Dict.empty).entries.length (load found) := by
  refine ⟨rfl,found.getD Dict.empty,?_,by simp [load],List.prefix_refl _⟩
  cases found <;> rfl

theorem askKept {base : Nat} {s : Shared κ ν} (kept : Kept period base s) (k : κ) : Kept period base (ask f period s k).2 := by
  unfold ask
  cases known : s.cache.get? k with
  | some v => exact kept
  | none =>
    cases f k with
    | none => exact kept
    | some v =>
      obtain ⟨d,stored,length,front⟩ := kept.file
      have entries := Dict.entriesSetNew (Dict.getNone.mp known) v
      have grown : (s.cache.set k v).entries.length = base + (s.updated + 1) := by
        rw [entries,List.length_append,kept.cache]
        rfl
      refine ⟨grown,?_⟩
      dsimp only
      split
      · rename_i full
        have whole := Nat.mul_div_cancel' (Nat.dvd_of_mod_eq_zero full)
        exact ⟨s.cache.set k v,rfl,by rw [whole]; exact grown,List.prefix_refl _⟩
      · rename_i partly
        have same : (s.updated + 1) / period = s.updated / period :=
          Nat.succ_div_of_not_dvd (fun divides => partly (Nat.mod_eq_zero_of_dvd divides))
        exact ⟨d,stored,by rw [same]; exact length,front.trans (entries ▸ List.prefix_append _ _)⟩

theorem askAllKept {base : Nat} {s : Shared κ ν} (kept : Kept period base s) (ks : List κ) :
    Kept period base (askAll (ask f period) ks s) := by
  induction ks generalizing s with
  | nil => exact kept
  | cons k ks ih => exact ih (askKept kept k)

end Alone

end KernelTcp.Cache

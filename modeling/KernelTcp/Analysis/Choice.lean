import KernelTcp.Analysis.Jobs

/-! CHOOSE_ONE_BUILD as a function of the builds it sees: every build is labelled with
the first name seen for its configuration, and the label of the configuration with the
highest mean number of test cases is selected. -/
namespace KernelTcp.Analysis
open CiObjects Thread

def allBuilds (ciObjs : List Checkout) : List Build := ciObjs.flatMap Checkout.builds

def withKey (all : List Build) (key : List Str) : List Build := all.filter (fun b => keyOf b = key)

def nameOf (all : List Build) (key : List Str) : Option Str :=
  (all.find? (fun b => keyOf b = key)).map (fun b => b.dbInstance.buildName)

def caseCount (all : List Build) (key : List Str) : Nat :=
  ((withKey all key).map (fun b => b.getAllTestcases.length)).sum

def meanOf (all : List Build) (key : List Str) : ℚ := (caseCount all key : ℚ) / (withKey all key).length

def configs (all : List Build) : List (List Str) := (grouped all).keys

def richerKey (all : List Build) (a b : List Str) : Prop := meanOf all b ≤ meanOf all a
instance (all : List Build) : DecidableRel (richerKey all) :=
  fun a b => inferInstanceAs (Decidable (meanOf all b ≤ meanOf all a))

def winner (all : List Build) : Option (List Str) := ((configs all).insertionSort (richerKey all)).head?

def relabel (all : List Build) (b : Build) : Build := { b with buildName := nameOf all (keyOf b) }

def relabelCheckout (all : List Build) (c : Checkout) : Checkout :=
  { c with builds := c.builds.map (relabel all) }

structure Tallied (s : Tally) (seen : List Build) : Prop where
  names : ∀ key, s.kName.get? key = nameOf seen key
  counts : s.countInEachVersion = Dict.pass keyOf (fun n _ => n.getD 0 + 1) Dict.empty seen
  totals : s.totalTestCases =
    Dict.pass keyOf (fun n b => n.getD 0 + b.getAllTestcases.length) Dict.empty seen

theorem Tallied.empty : Tallied Tally.empty [] := ⟨fun _ => rfl,rfl,rfl⟩

theorem nameOfMember {all : List Build} {b : Build} (mem : b ∈ all) {key : List Str} (same : keyOf b = key) :
    ∃ name, nameOf all key = some name := by
  unfold nameOf
  cases found : all.find? (fun b => keyOf b = key) with
  | none => exact absurd same (by simpa using List.find?_eq_none.mp found b mem)
  | some first => exact ⟨_,rfl⟩

theorem nameOfStable {seen : List Build} {key : List Str} {name : Str} (h : nameOf seen key = some name)
    (rest : List Build) : nameOf (seen ++ rest) key = some name := by
  unfold nameOf at h ⊢
  obtain ⟨b,found,same⟩ := Option.map_eq_some_iff.mp h
  rw [List.find?_append,found]
  exact congrArg some same

theorem nameOfSnoc (seen : List Build) (b : Build) (key : List Str) :
    nameOf (seen ++ [b]) key =
      (nameOf seen key).orElse (fun _ => if keyOf b = key then some b.dbInstance.buildName else none) := by
  unfold nameOf
  rw [List.find?_append]
  cases seen.find? (fun b => keyOf b = key) with
  | some first => rfl
  | none =>
    by_cases here : keyOf b = key
    · simp [here]
    · simp [here]

theorem kNameStep {kName : Dict (List Str) Str} {seen : List Build} (names : ∀ key, kName.get? key = nameOf seen key)
    (b : Build) (key : List Str) :
    (if keyOf b ∈ kName.keys then kName else kName.set (keyOf b) b.dbInstance.buildName).get? key =
      nameOf (seen ++ [b]) key := by
  rw [nameOfSnoc,← names key]
  split
  · rename_i present
    obtain ⟨name,found⟩ := Dict.memKeys.mp present
    by_cases here : keyOf b = key
    · subst here
      rw [found]
      rfl
    · rw [if_neg here]
      cases kName.get? key <;> rfl
  · rename_i absent
    rw [Dict.getSet]
    by_cases here : keyOf b = key
    · subst here
      rw [Dict.getNone.mpr absent]
      simp
    · cases kName.get? key <;> simp [here]

theorem tallyBuildStep {s : Tally} {seen : List Build} (h : Tallied s seen) {b : Build}
    (keyed : b.dbInstance.kconfig ≠ .null) :
    ∃ after, tallyBuild s b = .ok (after,relabel (seen ++ [b]) b) ∧ Tallied after (seen ++ [b]) := by
  have names := kNameStep h.names b
  obtain ⟨name,named⟩ := nameOfMember (show b ∈ seen ++ [b] by simp) rfl
  have sameKeys : s.countInEachVersion.keys = s.totalTestCases.keys := by
    rw [h.counts,h.totals]
    exact Dict.passKeys keyOf _ _ rfl seen
  -- a key that is not counted yet has no entry in either dictionary
  have counts : (if keyOf b ∈ s.countInEachVersion.keys then
      (s.countInEachVersion.set (keyOf b) ((s.countInEachVersion.get? (keyOf b)).getD 0 + 1),
        s.totalTestCases.set (keyOf b) ((s.totalTestCases.get? (keyOf b)).getD 0 + b.getAllTestcases.length))
      else (s.countInEachVersion.set (keyOf b) 1,s.totalTestCases.set (keyOf b) b.getAllTestcases.length)) =
      (s.countInEachVersion.set (keyOf b) ((s.countInEachVersion.get? (keyOf b)).getD 0 + 1),
        s.totalTestCases.set (keyOf b) ((s.totalTestCases.get? (keyOf b)).getD 0 + b.getAllTestcases.length)) := by
    split
    · rfl
    · rename_i absent
      rw [Dict.getNone.mpr absent,Dict.getNone.mpr (sameKeys ▸ absent)]
      simp
  refine ⟨⟨s.countInEachVersion.set (keyOf b) ((s.countInEachVersion.get? (keyOf b)).getD 0 + 1),
    s.totalTestCases.set (keyOf b) ((s.totalTestCases.get? (keyOf b)).getD 0 + b.getAllTestcases.length),
    if keyOf b ∈ s.kName.keys then s.kName else s.kName.set (keyOf b) b.dbInstance.buildName⟩,?_,⟨names,?_,?_⟩⟩
  · unfold tallyBuild
    rw [keyedKey keyed]
    simp only [bind,Except.bind,names,named,Py.raiseNone,counts]
    unfold relabel
    rw [named]
  · rw [h.counts,Dict.passAppend]
    rfl
  · rw [h.totals,Dict.passAppend]
    rfl

theorem relabelStable {seen : List Build} {b : Build} (rest : List Build) :
    relabel (seen ++ b::rest) b = relabel (seen ++ [b]) b := by
  unfold relabel
  obtain ⟨name,named⟩ := nameOfMember (show b ∈ seen ++ [b] by simp) rfl
  have longer := nameOfStable named rest
  rw [List.append_assoc,List.singleton_append] at longer
  rw [named,longer]

theorem tallyBuilds {s : Tally} {seen bs : List Build} (rest : List Build) (h : Tallied s seen) (keyed : Keyed bs) :
    ∃ after, threadM tallyBuild s bs = .ok (after,bs.map (relabel (seen ++ (bs ++ rest)))) ∧
      Tallied after (seen ++ bs) := by
  induction bs generalizing s seen with
  | nil => exact ⟨s,rfl,by simpa using h⟩
  | cons b bs ih =>
    obtain ⟨middle,head,next⟩ := tallyBuildStep h (keyed b (by simp))
    obtain ⟨after,tail,last⟩ := ih next (fun x hx => keyed x (by simp [hx]))
    refine ⟨after,?_,by simpa using last⟩
    rw [threadM,head]
    change (do let tail ← threadM tallyBuild middle bs; Except.ok (tail.1,_::tail.2)) = _
    rw [tail]
    simp only [bind,Except.bind,List.map_cons,List.cons_append,relabelStable]
    rw [List.append_assoc,List.singleton_append]

theorem tallyCheckouts {s : Tally} {seen : List Build} (rest : List Build) {cs : List Checkout} (h : Tallied s seen)
    (keyed : Keyed (allBuilds cs)) :
    ∃ after, threadM tallyCheckout s cs =
        .ok (after,cs.map (relabelCheckout (seen ++ (allBuilds cs ++ rest)))) ∧
      Tallied after (seen ++ allBuilds cs) := by
  induction cs generalizing s seen with
  | nil => exact ⟨s,rfl,by simpa [allBuilds] using h⟩
  | cons c cs ih =>
    have split : allBuilds (c::cs) = c.builds ++ allBuilds cs := rfl
    rw [split] at keyed ⊢
    obtain ⟨middle,head,next⟩ := tallyBuilds (allBuilds cs ++ rest) h
      (fun x hx => keyed x (List.mem_append_left _ hx))
    obtain ⟨after,tail,last⟩ := ih next (fun x hx => keyed x (List.mem_append_right _ hx))
    refine ⟨after,?_,by simpa using last⟩
    rw [threadM,tallyCheckout,head]
    change (do let tail ← threadM tallyCheckout middle cs; Except.ok (tail.1,_::tail.2)) = _
    rw [tail]
    simp only [bind,Except.bind,List.map_cons,List.append_assoc]
    rfl

def candidateOf (all : List Build) (key : List Str) : Candidate :=
  ⟨(withKey all key).length,meanOf all key,(nameOf all key).getD []⟩

theorem candidateStep {s : Tally} {all : List Build} (h : Tallied s all) {e : List Str × Nat}
    (mem : e ∈ s.countInEachVersion.entries) : candidate s e = .ok (candidateOf all e.1) := by
  have count := Dict.getEntry.mpr mem
  rw [h.counts,Dict.passGet,Dict.getEmpty,Dict.foldSum (fun _ => 1)] at count
  have total := congrArg (fun d => d.get? e.1) h.totals
  simp only [Dict.passGet,Dict.getEmpty,Dict.foldSum] at total
  split at count
  · contradiction
  · rename_i some
    rw [if_neg some] at total
    obtain ⟨b,hb⟩ := List.exists_mem_of_ne_nil _ some
    obtain ⟨inside,key⟩ := List.mem_filter.mp hb
    obtain ⟨name,named⟩ := nameOfMember inside (by simpa using key)
    have size := Option.some.inj count
    unfold candidate candidateOf meanOf caseCount withKey
    rw [total,h.names,named,← size]
    simp [Py.raiseNone,bind,Except.bind]

theorem candidates {s : Tally} {all : List Build} (h : Tallied s all) :
    s.countInEachVersion.entries.mapM (candidate s) = .ok ((configs all).map (candidateOf all)) := by
  have keys : configs all = s.countInEachVersion.keys := by
    rw [h.counts]
    exact Dict.passKeys keyOf pushInto (μ := Nat) _ rfl all
  rw [Py.mapMTotal (fun e he => candidateStep h he),keys]
  unfold Dict.keys
  rw [List.map_map]
  rfl

def pick (all : List Build) (best : List Str) (c : Checkout) : Checkout :=
  (relabelCheckout all c).selectBuildByConfig ((nameOf all best).getD [])

theorem chooseSpec {cs : List Checkout} (keyed : Keyed (allBuilds cs)) :
    chooseOneBuild cs = match winner (allBuilds cs) with
      | none => .error .indexError
      | some best => .ok (cs.map (pick (allBuilds cs) best)) := by
  obtain ⟨after,loaded,tallied⟩ := tallyCheckouts [] Tallied.empty keyed
  rw [List.nil_append,List.append_nil] at loaded
  rw [List.nil_append] at tallied
  have order := List.map_insertionSort (richerKey (allBuilds cs)) richer (candidateOf (allBuilds cs))
    (configs (allBuilds cs)) (fun a _ b _ => Iff.rfl)
  unfold chooseOneBuild
  rw [loaded]
  simp only [bind,Except.bind,candidates tallied]
  rw [← order]
  unfold winner
  cases (configs (allBuilds cs)).insertionSort (richerKey (allBuilds cs)) with
  | nil => rfl
  | cons best others =>
    simp only [List.map_cons,List.head?_cons,List.map_map]
    rfl

theorem winnerSeen {all : List Build} {best : List Str} (h : winner all = some best) :
    ∃ b ∈ all, keyOf b = best := by
  have member : best ∈ configs all := by
    have sortedMember := List.mem_of_mem_head? h
    rwa [List.mem_insertionSort] at sortedMember
  have seen := (Dict.memKeysPass keyOf pushInto Dict.empty all best).mp member
  simpa using seen

end KernelTcp.Analysis

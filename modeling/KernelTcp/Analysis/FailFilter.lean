import KernelTcp.CiObjects
import KernelTcp.Lib.Dict
import KernelTcp.Lib.Thread
import Mathlib.Data.List.Chain

/-! Removal of failures that repeat the last version. One dictionary from file path to
"failed last" is threaded through checkouts, builds, test runs and test cases. -/
namespace KernelTcp.Analysis
open CiObjects Thread

section sifting
variable {σ : Type} (step : σ → Test → σ × Bool)

def siftRun (s : σ) (r : TestRun) : σ × TestRun :=
  let kept := sift step s r.tests
  (kept.1,{ r with tests := kept.2 })

def siftBuild (s : σ) (b : Build) : σ × Build :=
  let runs := thread (siftRun step) s b.testruns
  (runs.1,{ b with testruns := runs.2 })

def siftCheckout (s : σ) (c : Checkout) : σ × Checkout :=
  let builds := thread (siftBuild step) s c.builds
  (builds.1,{ c with builds := builds.2 })

def siftCheckouts (s : σ) (cs : List Checkout) : σ × List Checkout := thread (siftCheckout step) s cs

theorem siftBuildTests (s : σ) (b : Build) :
    ((siftBuild step s b).1,(siftBuild step s b).2.getAllTestcases) = sift step s b.getAllTestcases :=
  threadSift step (siftRun step) TestRun.getAllTestcases TestRun.getAllTestcases (fun _ _ => rfl) s b.testruns

theorem siftCheckoutTests (s : σ) (c : Checkout) :
    ((siftCheckout step s c).1,(siftCheckout step s c).2.getAllTestcases) = sift step s c.getAllTestcases :=
  threadSift step (siftBuild step) Build.getAllTestcases Build.getAllTestcases (siftBuildTests step) s c.builds

theorem siftCheckoutsTests (s : σ) (cs : List Checkout) :
    ((siftCheckouts step s cs).1,getAllTestcases (siftCheckouts step s cs).2) =
      sift step s (getAllTestcases cs) :=
  threadSift step (siftCheckout step) Checkout.getAllTestcases Checkout.getAllTestcases
    (siftCheckoutTests step) s cs

theorem siftCheckoutsIdem (idle : ∀ s t, (step s t).2 = false → (step s t).1 = s)
    (s : σ) (cs : List Checkout) :
    siftCheckouts step s (siftCheckouts step s cs).2 = siftCheckouts step s cs := by
  have runs : ∀ s r, siftRun step s (siftRun step s r).2 = siftRun step s r := by
    intro s r
    simp only [siftRun,siftIdem step idle]
  have builds : ∀ s b, siftBuild step s (siftBuild step s b).2 = siftBuild step s b := by
    intro s b
    simp only [siftBuild,threadIdem (siftRun step) runs]
  have checkouts : ∀ s c, siftCheckout step s (siftCheckout step s c).2 = siftCheckout step s c := by
    intro s c
    simp only [siftCheckout,threadIdem (siftBuild step) builds]
  exact threadIdem (siftCheckout step) checkouts s cs

end sifting

def SameBuild (b kept : Build) : Prop :=
  kept.dbInstance = b.dbInstance ∧ kept.previousBuildNames = b.previousBuildNames ∧
  kept.buildName = b.buildName ∧
  List.Forall₂ (fun r kept : TestRun => kept.tests.Sublist r.tests) b.testruns kept.testruns

def SameCheckout (c kept : Checkout) : Prop :=
  kept.dbInstance = c.dbInstance ∧ List.Forall₂ SameBuild c.builds kept.builds

theorem siftKeepsBuild {σ : Type} (step : σ → Test → σ × Bool) (s : σ) (b : Build) :
    SameBuild b (siftBuild step s b).2 :=
  ⟨rfl,rfl,rfl,threadPointwise _ _ (fun s r => siftSublist step s r.tests) s b.testruns⟩

theorem siftKeepsCheckout {σ : Type} (step : σ → Test → σ × Bool) (s : σ) (c : Checkout) :
    SameCheckout c (siftCheckout step s c).2 :=
  ⟨rfl,threadPointwise _ _ (siftKeepsBuild step) s c.builds⟩

theorem siftKeepsCheckouts {σ : Type} (step : σ → Test → σ × Bool) (s : σ) (cs : List Checkout) :
    List.Forall₂ SameCheckout cs (siftCheckouts step s cs).2 :=
  threadPointwise _ _ (siftKeepsCheckout step) s cs

theorem sameBuildTests {b kept : Build} (h : SameBuild b kept) : kept.getAllTestcases.Sublist b.getAllTestcases := by
  have whole : ∀ {runs others : List TestRun},
      List.Forall₂ (fun r kept : TestRun => kept.tests.Sublist r.tests) runs others →
      (others.flatMap TestRun.getAllTestcases).Sublist (runs.flatMap TestRun.getAllTestcases) := by
    intro runs others rows
    induction rows with
    | nil => exact List.Sublist.refl _
    | cons head tail ih => exact head.append ih
  exact whole h.2.2.2

def failStep (caseStatus : Dict (Option Str) Bool) (t : Test) : Dict (Option Str) Bool × Bool :=
  if t.isFailed then
    if (caseStatus.get? t.filePath).getD false then (caseStatus,false)
    else (caseStatus.set t.filePath true,true)
  else (caseStatus.set t.filePath false,true)

def filterFailCasesInLastVersion (ciObjs : List Checkout) : List Checkout :=
  (siftCheckouts failStep Dict.empty ciObjs).2

def predecessor (before : List Test) (t : Test) : Option Test := (occurrences t.filePath before).getLast?

def repeatsFailure (before : List Test) (t : Test) : Bool :=
  t.isFailed && (predecessor before t).any Test.isFailed

def historyStep (before : List Test) (t : Test) : List Test × Bool :=
  (before ++ [t],!repeatsFailure before t)

theorem historySift (before ts : List Test) :
    sift historyStep before ts = (before ++ ts,
      (ts.zipIdx.filter (fun e => !repeatsFailure (before ++ ts.take e.2) e.1)).map Prod.fst) := by
  induction ts generalizing before with
  | nil => simp [sift]
  | cons t ts ih =>
    have shifted : ((ts.zipIdx 1).filter (fun e => !repeatsFailure (before ++ (t::ts).take e.2) e.1)).map Prod.fst =
        (ts.zipIdx.filter (fun e => !repeatsFailure (before ++ [t] ++ ts.take e.2) e.1)).map Prod.fst := by
      rw [List.zipIdx_succ,List.filter_map,List.map_map]
      have same : ((fun e : Test × Nat => !repeatsFailure (before ++ (t::ts).take e.2) e.1) ∘ fun x : Test × Nat => (x.1,x.2+1)) =
          fun e : Test × Nat => !repeatsFailure (before ++ [t] ++ ts.take e.2) e.1 := by
        funext e
        simp
      rw [same]
      rfl
    simp only [sift,historyStep,ih,List.zipIdx_cons,List.filter_cons,List.take_zero,List.append_nil,
      Nat.zero_add]
    rw [← shifted]
    simp only [List.append_assoc,List.cons_append,List.nil_append]
    split <;> rfl

def Remembers (m : Dict (Option Str) Bool) (before : List Test) : Prop :=
  ∀ p, m.get? p = (occurrences p before).getLast?.map Test.isFailed

theorem occurrencesSnoc (p : Option Str) (before : List Test) (t : Test) :
    occurrences p (before ++ [t]) = if t.filePath = p then occurrences p before ++ [t] else occurrences p before := by
  unfold occurrences
  rw [List.filter_append]
  by_cases here : t.filePath = p
  · simp [here]
  · simp [here]

theorem remembersSet {m : Dict (Option Str) Bool} {before : List Test} (h : Remembers m before) (t : Test) :
    Remembers (m.set t.filePath t.isFailed) (before ++ [t]) := by
  intro p
  rw [Dict.getSet,occurrencesSnoc]
  split
  · simp
  · exact h p

theorem failStepRemembers (m : Dict (Option Str) Bool) (before : List Test) (t : Test)
    (h : Remembers m before) :
    Remembers (failStep m t).1 (historyStep before t).1 ∧ (failStep m t).2 = (historyStep before t).2 := by
  have last : (m.get? t.filePath).getD false = (predecessor before t).any Test.isFailed := by
    rw [h t.filePath]
    unfold predecessor
    cases (occurrences t.filePath before).getLast? <;> rfl
  have next := remembersSet h t
  unfold failStep historyStep repeatsFailure
  cases failed : t.isFailed with
  | false =>
    rw [failed] at next
    exact ⟨next,by simp⟩
  | true =>
    rw [failed] at next
    rw [last]
    cases previous : (predecessor before t).any Test.isFailed with
    | false => exact ⟨next,by simp⟩
    | true =>
      -- the entry of a dropped failure already says that the path failed last
      refine ⟨?_,by simp⟩
      intro p
      have entry := next p
      rw [Dict.getSet] at entry
      by_cases here : t.filePath = p
      · rw [if_pos here] at entry
        subst here
        rw [← entry]
        cases stored : m.get? t.filePath with
        | none => rw [stored,previous] at last; simp at last
        | some b =>
          rw [stored,previous] at last
          exact stored.trans (congrArg some last)
      · rw [if_neg here] at entry
        exact entry

theorem filterBySift (cs : List Checkout) :
    filterFailCasesInLastVersion cs = (siftCheckouts historyStep [] cs).2 := by
  have start : Remembers Dict.empty [] := fun p => rfl
  have step := failStepRemembers
  have runs : ∀ m before r, Remembers m before →
      Remembers (siftRun failStep m r).1 (siftRun historyStep before r).1 ∧
      (siftRun failStep m r).2 = (siftRun historyStep before r).2 := by
    intro m before r h
    have all := siftSim Remembers failStep historyStep step h r.tests
    exact ⟨all.1,by simp only [siftRun,all.2]⟩
  have builds : ∀ m before b, Remembers m before →
      Remembers (siftBuild failStep m b).1 (siftBuild historyStep before b).1 ∧
      (siftBuild failStep m b).2 = (siftBuild historyStep before b).2 := by
    intro m before b h
    have all := threadSim Remembers _ _ runs h b.testruns
    exact ⟨all.1,by simp only [siftBuild,all.2]⟩
  have checkouts : ∀ m before c, Remembers m before →
      Remembers (siftCheckout failStep m c).1 (siftCheckout historyStep before c).1 ∧
      (siftCheckout failStep m c).2 = (siftCheckout historyStep before c).2 := by
    intro m before c h
    have all := threadSim Remembers _ _ builds h c.builds
    exact ⟨all.1,by simp only [siftCheckout,all.2]⟩
  exact (threadSim Remembers _ _ checkouts start cs).2

theorem failStepIdle (m : Dict (Option Str) Bool) (t : Test) (dropped : (failStep m t).2 = false) :
    (failStep m t).1 = m := by
  unfold failStep at dropped ⊢
  split at dropped
  · split at dropped
    · rename_i failed seen
      rw [if_pos failed,if_pos seen]
    · contradiction
  · contradiction

def NotBothFailed (a b : Test) : Prop := ¬ (a.isFailed = true ∧ b.isFailed = true)

theorem failStepKept (m : Dict (Option Str) Bool) (t : Test) (kept : (failStep m t).2 = true) :
    (failStep m t).1 = m.set t.filePath t.isFailed ∧ (m.get? t.filePath = some true → t.isFailed = false) := by
  unfold failStep at kept ⊢
  cases failed : t.isFailed with
  | false => exact ⟨rfl,fun _ => rfl⟩
  | true =>
    rw [failed] at kept
    cases seen : (m.get? t.filePath).getD false with
    | true => simp [seen] at kept
    | false =>
      refine ⟨rfl,fun stored => ?_⟩
      rw [stored] at seen
      exact absurd seen (by simp)

theorem occurrencesCons (p : Option Str) (t : Test) (ts : List Test) :
    occurrences p (t::ts) = if t.filePath = p then t::occurrences p ts else occurrences p ts := by
  unfold occurrences
  by_cases here : t.filePath = p
  · simp [here]
  · simp [here]

theorem siftNoRepeat (m : Dict (Option Str) Bool) (p : Option Str) (ts : List Test) :
    (occurrences p (sift failStep m ts).2).IsChain NotBothFailed ∧
    (m.get? p = some true → ∀ t, (occurrences p (sift failStep m ts).2).head? = some t → t.isFailed = false) := by
  induction ts generalizing m with
  | nil => exact ⟨by simp [sift,occurrences],by simp [sift,occurrences]⟩
  | cons t ts ih =>
    have rest := ih (failStep m t).1
    cases keep : (failStep m t).2 with
    | false =>
      rw [siftDropped failStep keep]
      rwa [failStepIdle m t keep] at rest ⊢
    | true =>
      obtain ⟨entry,passing⟩ := failStepKept m t keep
      rw [siftKept failStep keep,occurrencesCons]
      rw [entry] at rest ⊢
      split
      · rename_i here
        subst here
        refine ⟨List.isChain_cons.mpr ⟨?_,rest.1⟩,?_⟩
        · intro next hn both
          have stored : (m.set t.filePath t.isFailed).get? t.filePath = some true := by
            rw [Dict.getSetSame,both.1]
          have passed := rest.2 stored next hn
          rw [both.2] at passed
          contradiction
        · intro stored first hf
          cases Option.some.inj hf
          exact passing stored
      · rename_i other
        rw [Dict.getSetOther m _ other] at rest
        exact rest

/-- Exactly the failures that directly follow a failure of the same path are
removed, and nothing else changes. -/
theorem repeatedFailuresRemoved (ciObjs : List Checkout) :
    getAllTestcases (filterFailCasesInLastVersion ciObjs) =
      ((getAllTestcases ciObjs).zipIdx.filter
        (fun e => !repeatsFailure ((getAllTestcases ciObjs).take e.2) e.1)).map Prod.fst ∧
    filterFailCasesInLastVersion ciObjs = (siftCheckouts historyStep [] ciObjs).2 ∧
    List.Forall₂ SameCheckout ciObjs (filterFailCasesInLastVersion ciObjs) ∧
    (∀ p, (occurrences p (getAllTestcases (filterFailCasesInLastVersion ciObjs))).IsChain NotBothFailed) ∧
    filterFailCasesInLastVersion (filterFailCasesInLastVersion ciObjs) = filterFailCasesInLastVersion ciObjs := by
  have flat := congrArg Prod.snd (siftCheckoutsTests historyStep [] ciObjs)
  have kept := congrArg Prod.snd (siftCheckoutsTests failStep Dict.empty ciObjs)
  rw [historySift] at flat
  refine ⟨?_,filterBySift ciObjs,siftKeepsCheckouts failStep _ ciObjs,?_,?_⟩
  · rw [filterBySift]
    exact flat
  · intro p
    change (occurrences p (getAllTestcases (siftCheckouts failStep Dict.empty ciObjs).2)).IsChain _
    rw [show getAllTestcases (siftCheckouts failStep Dict.empty ciObjs).2 = _ from kept]
    exact (siftNoRepeat Dict.empty p _).1
  · exact congrArg Prod.snd (siftCheckoutsIdem failStep failStepIdle Dict.empty ciObjs)

end KernelTcp.Analysis

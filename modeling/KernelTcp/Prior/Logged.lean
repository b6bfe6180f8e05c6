import KernelTcp.CheckoutInfo
import KernelTcp.EHelper
import KernelTcp.Prior.DistanceMap

/-! The experiments on the logged failure history. One run measures the distances between the test
files of an LTP version and stores them; another loads the map of each checkout's version, orders
the tests and scores the order. Both cut the quotes off the logged paths, which the reader of the
log has done already. -/
namespace KernelTcp.Prior
open Text Slices EHelper
open Picking (Picked without)

def ltpPath (ltpVersion : Str) : Str :=
  "/home/userpath/projects/ltp_projects/ltp_".toList ++ ltpVersion ++ "/ltp-".toList ++ ltpVersion

def testPath (ltpVersion tc : Str) : Str :=
  if contains tc "test_cases/selftests".toList then slice tc 1 (-1)
  else ltpPath ltpVersion ++ "/".toList ++ slice tc 16 (-1)

def mapFile (distanceMetric ltpVersion : Str) : Str :=
  "/home/userpath/projects/testcase_distance/ltp_".toList ++ ltpVersion ++ "/distance_".toList ++ distanceMetric ++
    "_map.json".toList

structure Disk (δ : Type) where
  files : Str → Option Str
  maps : Str → Option (DistanceMap δ)

def Disk.store {δ : Type} (disk : Disk δ) (path : Str) (distances : DistanceMap δ) : Disk δ :=
  { disk with maps := fun p => if p = path then some distances else disk.maps p }

section Runs
variable {δ : Type} [Field δ]

structure Walk where
  order : List Str → List Str
  walked : ∀ {xs x}, x ∈ order xs ↔ x ∈ xs

-- an error is printed and nothing is stored
def doExp3 (packages : Packages δ) (walk : Walk) (text distanceMetric : Str) (disk : Disk δ) (ltpVersion : Str) :
    Except PyError (Disk δ) := do
  let historyInfos ← getCheckoutInfo text
  let testsSet := (historyInfos.filter (fun hi => !(faultsArr hi).isEmpty)).flatMap
    (fun hi => hi.totalCasesList.map (testPath ltpVersion))
  match getDistanceMap packages disk.files (walk.order testsSet) distanceMetric with
  | .error _ => .ok disk
  | .ok distances => .ok (disk.store (mapFile distanceMetric ltpVersion) distances)

-- a version that is not in the table is written as None
def versionOf (ltpVersions : Str → Option Str) (gitSha : Str) : Str := (ltpVersions gitSha).getD "None".toList

section Exp2
variable [LinearOrder δ] (draws : Nat → Draws) (ltpVersions : Str → Option Str) (disk : Disk δ) (k : Int) (distanceMetric : Str)
  (candidateStragety : Option Str)

def evaluateCheckout (apfdRes : List (Str × ℚ)) (e : HistoryInfo × Nat) : Except PyError (List (Str × ℚ)) := do
  let ltpVersion := versionOf ltpVersions e.1.gitSha
  let distances ← Py.raiseNone .fileNotFoundError (disk.maps (mapFile distanceMetric ltpVersion))
  if (faultsArr e.1).isEmpty then .ok apfdRes
  else match arp (draws e.2) distances (e.1.totalCasesList.map (testPath ltpVersion)) k candidateStragety with
    | .error _ => .ok apfdRes
    | .ok prioritizedList => .ok (apfdRes ++ [(e.1.gitSha,apfd (faultsArr e.1) prioritizedList)])

def doExp2 (text : Str) : Except PyError (List (Str × ℚ)) := do
  let historyInfos ← getCheckoutInfo text
  historyInfos.zipIdx.foldlM (evaluateCheckout draws ltpVersions disk k distanceMetric candidateStragety) []

-- the version is given, and not looked up
def doExp4 (ltpVersion text : Str) : Except PyError (List (Str × ℚ)) :=
  doExp2 draws (fun _ => some ltpVersion) disk k distanceMetric candidateStragety text

end Exp2

end Runs

section Stored
variable {δ : Type} {files : Str → Option Str} {f : Str → Str → δ}

/- The distances between paths: measured in one of the two orders where both files are there, and
10000 where one of them is missing. -/
structure Between [NatCast δ] (files : Str → Option Str) (f : Str → Str → δ) (listed : Str → Prop) (distance : Str → Str → δ) : Prop where
  measured : ∀ {a b textA textB : Str}, listed a → listed b → files a = some textA → files b = some textB →
    distance a b = distance b a ∧ (distance a b = f textA textB ∨ distance a b = f textB textA)
  missing : ∀ {a b : Str}, files a = none ∨ files b = none → distance a b = (10000 : Nat)

theorem storedMissing {testCases : List Str} {value : Str → Str → δ} {distances : DistanceMap δ}
    (kept : Mirrored (Existing files testCases) value distances) {a b : Str} (absent : files a = none ∨ files b = none) :
    stored distances a b = none := by
  rw [storedEntry]
  cases here : entry distances a b with
  | none => rfl
  | some o =>
    obtain ⟨first,second,_⟩ := kept.inside here
    cases absent with
    | inl gone => rw [Existing,gone] at first; simp at first
    | inr gone => rw [Existing,gone] at second; simp at second

variable [Field δ]

theorem lookedUpMissing {distances : DistanceMap δ} {a b : Str} (one : stored distances a b = none) (other : stored distances b a = none) :
    lookedUp distances a b = (10000 : Nat) := by
  rw [lookedUp,one]
  dsimp only
  rw [other]

theorem mapBetween (packages : Packages δ) (files : Str → Option Str) {metric : Metric} (measured : ∀ a b, measure packages metric a b = .ok (f a b))
    (testCases : List Str) : ∃ distances, getDistanceMap packages files testCases metric.name = .ok distances ∧
      Between files f (· ∈ testCases) (lookedUp distances) := by
  have start : Mirrored (Existing files testCases) (between files f) Dict.empty := mirroredEmpty
  obtain ⟨distances,run,kept,_,written⟩ := rowsMirrored packages measured start
  refine ⟨distances,run,?_,?_⟩
  · intro a b textA textB first second readA readB
    have hereA : (files a).isSome := by rw [readA]; rfl
    have hereB : (files b).isSome := by rw [readB]; rfl
    obtain ⟨o,here⟩ := Option.isSome_iff_exists.mp (written a first hereA b second hereB)
    obtain ⟨p,back⟩ := Option.isSome_iff_exists.mp (written b second hereB a first hereA)
    cases kept.mirror here back
    obtain ⟨_,_,v,rfl,either⟩ := kept.inside here
    have value : lookedUp distances a b = v := by rw [lookedUp,storedEntry,here]; rfl
    have mirrored : lookedUp distances b a = v := by rw [lookedUp,storedEntry,back]; rfl
    rw [value,mirrored]
    simpa [between,readA,readB] using either
  · intro a b absent
    exact lookedUpMissing (storedMissing kept absent) (storedMissing kept absent.symm)

def Logged (infos : List HistoryInfo) (ltpVersion a : Str) : Prop :=
  ∃ hi ∈ infos, faultsArr hi ≠ [] ∧ ∃ tc ∈ hi.totalCasesList, testPath ltpVersion tc = a

variable {text : Str} {infos : List HistoryInfo}

theorem exp3Stores (packages : Packages δ) (walk : Walk) (files : Str → Option Str) {metric : Metric} (measured : ∀ a b, measure packages metric a b = .ok (f a b))
    (read : getCheckoutInfo text = .ok infos) (ltpVersion : Str) :
    ∃ distances, Between files f (Logged infos ltpVersion) (lookedUp distances) ∧ ∀ disk : Disk δ, disk.files = files →
      doExp3 packages walk text metric.name disk ltpVersion = .ok (disk.store (mapFile metric.name ltpVersion) distances) := by
  obtain ⟨distances,run,between⟩ := mapBetween packages files measured (walk.order ((infos.filter
    (fun hi => !(faultsArr hi).isEmpty)).flatMap (fun hi => hi.totalCasesList.map (testPath ltpVersion))))
  have listed : ∀ {a}, Logged infos ltpVersion a → a ∈ walk.order ((infos.filter (fun hi => !(faultsArr hi).isEmpty)).flatMap
      (fun hi => hi.totalCasesList.map (testPath ltpVersion))) := by
    intro a logged
    obtain ⟨hi,info,failed,tc,test,rfl⟩ := logged
    rw [walk.walked,List.mem_flatMap]
    exact ⟨hi,List.mem_filter.mpr ⟨info,by simpa using failed⟩,List.mem_map_of_mem test⟩
  refine ⟨distances,⟨fun first second => between.measured (listed first) (listed second),between.missing⟩,?_⟩
  intro disk same
  unfold doExp3
  simp only [read,bind,Except.bind,same,run]

theorem mapFileInjective (distanceMetric : Str) : Function.Injective (mapFile distanceMetric) := by
  intro v w same
  unfold mapFile at same
  simpa only [List.append_assoc,List.append_cancel_left_eq,List.append_cancel_right_eq] using same

theorem exp3Run {packages : Packages δ} {walk : Walk} {distanceMetric : Str} {distances : Str → DistanceMap δ}
    (stores : ∀ v, ∀ disk : Disk δ, disk.files = files →
      doExp3 packages walk text distanceMetric disk v = .ok (disk.store (mapFile distanceMetric v) (distances v)))
    (versions : List Str) {disk : Disk δ} (same : disk.files = files) :
    ∃ last, versions.foldlM (doExp3 packages walk text distanceMetric) disk = .ok last ∧ last.files = files ∧
      ∀ v, last.maps (mapFile distanceMetric v) =
        if v ∈ versions then some (distances v) else disk.maps (mapFile distanceMetric v) := by
  induction versions generalizing disk with
  | nil => exact ⟨disk,rfl,same,by simp⟩
  | cons w versions ih =>
    have kept : (disk.store (mapFile distanceMetric w) (distances w)).files = files := same
    obtain ⟨last,run,files,maps⟩ := ih kept
    refine ⟨last,?_,files,?_⟩
    · rw [List.foldlM_cons,stores w disk same]
      exact run
    · intro v
      rw [maps v]
      unfold Disk.store
      by_cases here : v = w
      · subst here
        simp
      · simp [here,(mapFileInjective distanceMetric).ne here]

end Stored

section Ordered
variable {δ : Type} [LinearOrder δ] {draws : Draws} {k : Int} {n : Nat}

def Ordered (draws : Draws) (distance : Nat → Nat → δ) (k : Int) (n : Nat) (order : List Nat) : Prop :=
  ∃ rest, order = draws.choice (List.range n)::rest ∧
    Picked (Farthest draws distance k) [draws.choice (List.range n)] (without (List.range n) (draws.choice (List.range n))) rest

def drawLoop (draws : Draws) (k : Int) : Nat → List Nat → List Nat
  | 0, _ => []
  | left+1, idxList =>
      let x := (draws.sample idxList (min k idxList.length).toNat).headD 0
      x::drawLoop draws k left (without idxList x)

def drawOrder (draws : Draws) (k : Int) (n : Nat) : List Nat :=
  draws.choice (List.range n)::drawLoop draws k (n-1) (without (List.range n) (draws.choice (List.range n)))

theorem arpOrdered (draws : Draws) {next : List Nat → List Nat → Except PyError Nat} {distance : Nat → Nat → δ} (finds : Finds next distance n)
    (positive : 1 ≤ k) (some : 0 < n) : ∃ order, arpFrom draws next k n = .ok order ∧ Ordered draws distance k n order := by
  have indices : List.range n ≠ [] := by rwa [← List.length_pos_iff,List.length_range]
  have listed := draws.choiceListed indices
  have alone : ∀ p ∈ [draws.choice (List.range n)], p < n := by simpa using listed
  have fewer : ∀ i ∈ (List.range n).erase (draws.choice (List.range n)), i < n :=
    fun i mem => List.mem_range.mp (List.mem_of_mem_erase mem)
  obtain ⟨rest,run,picked⟩ := loopPicked draws (k := k) finds positive rfl rfl (by simp) alone fewer
  refine ⟨_,?_,rest,rfl,picked⟩
  have choice : draws.randomChoice (List.range n) = .ok (draws.choice (List.range n)) := by rw [Draws.randomChoice,if_neg indices]
  unfold arpFrom
  simp only [choice,Py.removeListed listed,bind,Except.bind]
  exact run

theorem pickedDrawn {distance : Nat → Nat → δ} {d : δ} (same : ∀ p < n, ∀ c < n, distance p c = d) {before left rest : List Nat}
    (picked : Picked (Farthest draws distance k) before left rest) (taken : ∀ p ∈ before, p < n) (still : ∀ i ∈ left, i < n) :
    rest = drawLoop draws k left.length left := by
  induction picked with
  | nil => rfl
  | @cons before left rest x first listed _ ih =>
    obtain ⟨len,size⟩ := Nat.exists_eq_succ_of_ne_zero (List.length_pos_of_mem listed).ne'
    have drawn := (draws.sampleListed (show (min k left.length).toNat ≤ left.length by omega)).subset
    have equal : ∀ c ∈ draws.sample left (min k left.length).toNat,
        (before.map (fun p => distance p c)).minimum = (before.map (fun _ => d)).minimum := by
      intro c sampled
      rw [List.map_congr_left (fun p early => same p (taken p early) c (still c (drawn sampled)))]
    have head : (draws.sample left (min k left.length).toNat).headD 0 = x := by
      rw [List.headD_eq_head?_getD,First.constant equal first]
      rfl
    have more : ∀ p ∈ before ++ [x], p < n := by
      intro p member
      cases List.mem_append.mp member with
      | inl old => exact taken p old
      | inr new => exact List.mem_singleton.mp new ▸ still x listed
    have later := ih more (fun i member => still i (List.mem_of_mem_erase member))
    rw [Picking.withoutLength listed size] at later
    rw [later,size,drawLoop]
    simp only [head]

theorem orderedDrawn {distance : Nat → Nat → δ} {d : δ} (same : ∀ p < n, ∀ c < n, distance p c = d) (some : 0 < n) {order : List Nat}
    (ordered : Ordered draws distance k n order) : order = drawOrder draws k n := by
  obtain ⟨rest,rfl,picked⟩ := ordered
  have indices : List.range n ≠ [] := by rwa [← List.length_pos_iff,List.length_range]
  have listed := draws.choiceListed indices
  have size : (List.range n).length = (n-1)+1 := by rw [List.length_range]; omega
  have alone : ∀ p ∈ [draws.choice (List.range n)], p < n := by simpa using listed
  have later := pickedDrawn same picked alone (fun i member => List.mem_range.mp (List.mem_of_mem_erase member))
  rw [Picking.withoutLength listed size] at later
  rw [drawOrder,later]

theorem Ordered.perm {distance : Nat → Nat → δ} (some : 0 < n) {order : List Nat} (ordered : Ordered draws distance k n order) :
    order.Perm (List.range n) := by
  obtain ⟨rest,rfl,picked⟩ := ordered
  have indices : List.range n ≠ [] := by rwa [← List.length_pos_iff,List.length_range]
  exact (picked.perm.cons _).trans (Picking.withoutPerm (draws.choiceListed indices))

end Ordered

section Pipeline
variable {δ : Type} [Field δ] [LinearOrder δ]

theorem faultsTests {hi : HistoryInfo} (failed : faultsArr hi ≠ []) : 0 < hi.totalCasesList.length := by
  rw [List.length_pos_iff]
  intro none
  refine failed ?_
  unfold faultsArr
  rw [none]
  simp

def tests (ltpVersion : Str) (hi : HistoryInfo) : List Str := hi.totalCasesList.map (testPath ltpVersion)

theorem testsLength (ltpVersion : Str) (hi : HistoryInfo) : (tests ltpVersion hi).length = hi.totalCasesList.length :=
  List.length_map _

theorem testsAt (ltpVersion : Str) {hi : HistoryInfo} {i : Nat} (inside : i < hi.totalCasesList.length) :
    ∃ tc ∈ hi.totalCasesList, (tests ltpVersion hi).getD i [] = testPath ltpVersion tc := by
  refine ⟨hi.totalCasesList[i],List.getElem_mem inside,?_⟩
  rw [tests,List.getD_eq_getElem?_getD,List.getElem?_map,List.getElem?_eq_getElem inside]
  rfl

variable {draws : Nat → Draws} {ltpVersions : Str → Option Str} {disk : Disk δ} {k : Int} {distanceMetric : Str}
  {candidateStragety : Option Str}

theorem checkoutScored {distances : DistanceMap δ} {e : HistoryInfo × Nat} {order : List Nat}
    (found : disk.maps (mapFile distanceMetric (versionOf ltpVersions e.1.gitSha)) = some distances)
    (run : faultsArr e.1 ≠ [] → arp (draws e.2) distances (tests (versionOf ltpVersions e.1.gitSha) e.1) k candidateStragety = .ok order)
    (apfdRes : List (Str × ℚ)) : evaluateCheckout draws ltpVersions disk k distanceMetric candidateStragety apfdRes e =
      .ok (apfdRes ++ if faultsArr e.1 = [] then [] else [(e.1.gitSha,apfd (faultsArr e.1) order)]) := by
  unfold evaluateCheckout
  simp only [found,Py.raiseNone,bind,Except.bind,List.isEmpty_iff]
  by_cases none : faultsArr e.1 = []
  · rw [if_pos none,if_pos none,List.append_nil]
  · have ordered := run none
    unfold tests at ordered
    rw [if_neg none,if_neg none,ordered]

theorem checkoutOrdered {files : Str → Option Str} {f : Str → Str → δ} {listed : Str → Prop} {distances : DistanceMap δ}
    {ltpVersion : Str} (between : Between files f listed (lookedUp distances)) (positive : 1 ≤ k) {hi : HistoryInfo}
    (failed : faultsArr hi ≠ []) (draw : Draws) :
    ∃ order, arp draw distances (tests ltpVersion hi) k (some "min_max".toList) = .ok order ∧
      Ordered draw (lookedUpAt distances (tests ltpVersion hi)) k hi.totalCasesList.length order ∧
      ((∀ tc ∈ hi.totalCasesList, files (testPath ltpVersion tc) = none) → order = drawOrder draw k hi.totalCasesList.length) := by
  have size := testsLength ltpVersion hi
  obtain ⟨order,run,ordered⟩ := arpOrdered draw (minMaxFinds distances (tests ltpVersion hi)) positive
    (by rw [size]; exact faultsTests failed)
  rw [size] at ordered
  refine ⟨order,run,ordered,?_⟩
  intro absent
  refine orderedDrawn (d := ((10000 : Nat) : δ)) ?_ (faultsTests failed) ordered
  intro p rows c columns
  obtain ⟨tc,test,path⟩ := testsAt ltpVersion rows
  rw [lookedUpAt,path]
  exact between.missing (Or.inl (absent tc test))

end Pipeline

/-- Measuring the versions of a log, whose maps can be written, and then running the experiment with
at least one candidate scores every checkout with a failed test, in the order of the log. Its order
of tests is by the distances between the files at the twice cut paths; where no such file is there,
it is the order of the random draws alone. -/
theorem loggedOrdersScored {δ : Type} [Field δ] [LinearOrder δ] (packages : Packages δ) (walk : Walk) (draws : Nat → Draws)
    (ltpVersions : Str → Option Str) (disk : Disk δ) (k : Int) (positive : 1 ≤ k) (metric : Metric) (text : Str)
    (infos : List HistoryInfo) (read : getCheckoutInfo text = .ok infos) (versions : List Str)
    (covers : ∀ hi ∈ infos, versionOf ltpVersions hi.gitSha ∈ versions) :
    ∃ (f : Str → Str → δ) (last : Disk δ) (distance : Str → Str → Str → δ) (order : HistoryInfo × Nat → List Nat),
      (∀ a b, measure packages metric a b = .ok (f a b)) ∧
      versions.foldlM (doExp3 packages walk text metric.name) disk = .ok last ∧
      (∀ v, Between disk.files f (Logged infos v) (distance v)) ∧
      doExp2 draws ltpVersions last k metric.name (some "min_max".toList) text = .ok (infos.zipIdx.flatMap (fun e =>
        if faultsArr e.1 = [] then [] else [(e.1.gitSha,apfd (faultsArr e.1) (order e))])) ∧
      ∀ e ∈ infos.zipIdx, faultsArr e.1 ≠ [] → ∃ paths, paths = e.1.totalCasesList.map (testPath (versionOf ltpVersions e.1.gitSha)) ∧
        (order e).Perm (List.range paths.length) ∧
        Ordered (draws e.2) (fun p c => distance (versionOf ltpVersions e.1.gitSha) (paths.getD p []) (paths.getD c [])) k
          paths.length (order e) ∧
        ((∀ path ∈ paths, disk.files path = none) → order e = drawOrder (draws e.2) k paths.length) := by
  choose f measured using measureDone packages metric
  choose distances between stores using fun v => exp3Stores packages walk disk.files measured read v
  obtain ⟨last,run,_,maps⟩ := exp3Run stores versions rfl
  have each : ∀ e : HistoryInfo × Nat, ∃ order, faultsArr e.1 ≠ [] →
      arp (draws e.2) (distances (versionOf ltpVersions e.1.gitSha)) (tests (versionOf ltpVersions e.1.gitSha) e.1) k
        (some "min_max".toList) = .ok order ∧
      Ordered (draws e.2) (lookedUpAt (distances (versionOf ltpVersions e.1.gitSha)) (tests (versionOf ltpVersions e.1.gitSha) e.1)) k
        e.1.totalCasesList.length order ∧
      ((∀ tc ∈ e.1.totalCasesList, disk.files (testPath (versionOf ltpVersions e.1.gitSha) tc) = none) →
        order = drawOrder (draws e.2) k e.1.totalCasesList.length) := by
    intro e
    by_cases none : faultsArr e.1 = []
    · exact ⟨[],fun failed => absurd none failed⟩
    · obtain ⟨order,facts⟩ := checkoutOrdered (between (versionOf ltpVersions e.1.gitSha)) positive none (draws e.2)
      exact ⟨order,fun _ => facts⟩
  choose order facts using each
  refine ⟨f,last,fun v => lookedUp (distances v),order,measured,run,between,?_,?_⟩
  · unfold doExp2
    simp only [read,bind,Except.bind]
    refine Py.foldlMCollects ?_ []
    intro e listed apfdRes
    refine checkoutScored ?_ (fun failed => (facts e failed).1) apfdRes
    rw [maps,if_pos (covers e.1 (List.fst_mem_of_mem_zipIdx listed))]
  · intro e _ failed
    obtain ⟨_,ordered,drawn⟩ := facts e failed
    refine ⟨_,rfl,?_⟩
    rw [List.length_map]
    refine ⟨ordered.perm (faultsTests failed),ordered,?_⟩
    intro absent
    exact drawn (fun tc test => absent _ (List.mem_map_of_mem test))

def oneFailed : Str :=
  "checkout: 9abd\ntotal_cases: ['test_cases/ltp/dup.c', 'test_cases/ltp/open.c']\nfail_cases: ['test_cases/ltp/open.c']\n".toList

def oneInfo : HistoryInfo :=
  ⟨"9abd".toList,["test_cases/ltp/dup.c".toList,"test_cases/ltp/open.c".toList],["test_cases/ltp/open.c".toList]⟩

def plainPackages : Packages ℚ where
  levenshtein _ _ := 0
  sqrt n := n
  compress _ := ⟨#[0]⟩
  compressed _ := Nat.one_pos

def ltpFiles (path : Str) : Option Str :=
  if path = ltpPath "20230127".toList ++ "/dup.c".toList ∨ path = ltpPath "20230127".toList ++ "/open.c".toList then some "int main".toList
  else none

theorem oneOrderDrawn : ∃ last : Disk ℚ, ∃ order : List Nat,
    doExp3 plainPackages ⟨id,Iff.rfl⟩ oneFailed Metric.edit.name ⟨ltpFiles,fun _ => none⟩ "20230127".toList = .ok last ∧
    doExp4 (fun _ => leading) last 10 Metric.edit.name (some "min_max".toList) "20230127".toList oneFailed =
      .ok [("9abd".toList,apfd [1] order)] ∧ order = [0,1] := by
  have read : getCheckoutInfo oneFailed = .ok [oneInfo] := by decide +kernel
  obtain ⟨f,last,distance,order,_,stored,_,run,orders⟩ := loggedOrdersScored plainPackages ⟨id,Iff.rfl⟩ (fun _ => leading)
    (fun _ => some "20230127".toList) ⟨ltpFiles,fun _ => none⟩ 10 (by decide) .edit oneFailed [oneInfo] read ["20230127".toList] (by simp [versionOf])
  obtain ⟨paths,rfl,_,_,drawn⟩ := orders (oneInfo,0) (by decide) (by decide)
  rw [List.foldlM_cons] at stored
  obtain ⟨disk,first,rest⟩ := Py.bindOk.mp stored
  cases rest
  exact ⟨last,order (oneInfo,0),first,run,(drawn (by decide +kernel)).trans (by decide +kernel)⟩

end KernelTcp.Prior

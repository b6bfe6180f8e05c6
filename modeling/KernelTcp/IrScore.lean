import KernelTcp.IrModel

/-! The scores of a fresh BM25 model: the sum that they are, when it is the BM25 formula,
and that nothing on the way to them fails. -/
namespace KernelTcp.IrModel
open scoped BigOperators

def documentFrequency (docs : List (List Str)) (w : Str) : Nat := docs.countP (fun doc => w ∈ doc)

theorem frequenciesCount (docs : List (List Str)) (w : Str) :
    (docs.flatMap (fun doc => (Dict.counter doc).keys)).count w = documentFrequency docs w := by
  unfold documentFrequency
  induction docs with
  | nil => rfl
  | cons doc docs ih =>
    rw [List.flatMap_cons,List.count_append,ih,List.countP_cons]
    by_cases inside : w ∈ doc
    · rw [List.count_eq_one_of_mem (Dict.keysDistinct _) (Dict.memCounter.mpr inside)]
      simp [inside,Nat.add_comm]
    · rw [List.count_eq_zero_of_not_mem (fun mem => inside (Dict.memCounter.mp mem))]
      simp [inside]

theorem frequenciesGet {docs : List (List Str)} {w : Str} {n : Nat} (found : (frequencies docs).get? w = some n) :
    n = documentFrequency docs w := by
  have counted : (frequencies docs).get? w = _ := Dict.counterGet _ w
  rw [counted] at found
  split at found
  · rw [← Option.some.inj found,frequenciesCount]
  · contradiction

section formula
variable {α : Type} [Field α]

def averageLength (docs : List (List Str)) : α := ((docs.map List.length).sum : α) / docs.length

def weight (k1 k2 b avgdl length : α) (tf qf : Nat) : α :=
  tf * (k1 + 1) / (tf + k1 * (1 - b + b * length / avgdl)) * (qf * (k2 + 1) / (qf + k2))

def bm25 (log : α → α) (k1 k2 b : α) (docs : List (List Str)) (length : α) (doc query : List Str) : α :=
  ∑ q ∈ query.toFinset.filter (fun q => q ∈ doc), idfOf log docs.length (documentFrequency docs q) *
    weight k1 k2 b (averageLength docs) length (doc.count q) (query.count q)

theorem weightIgnoresLength {k1 k2 b avgdl length other : α} (tf qf : Nat) (ignored : k1 = 0 ∨ b = 0) :
    weight k1 k2 b avgdl length tf qf = weight k1 k2 b avgdl other tf qf := by
  unfold weight
  rcases ignored with none | none
  · rw [none,zero_mul,zero_mul]
  · rw [none,zero_mul,zero_mul]

theorem freshIdf (wordChar : Char → Bool) (log : α → α) (k1 k2 b : α) {corpus : List Str} {doc : Str} (mem : doc ∈ corpus)
    {w : Str} (inside : w ∈ tokens wordChar doc) :
    (init wordChar log (Bm25Model.new k1 k2 b) corpus).1.idf.get? w =
      some (idfOf log corpus.length (documentFrequency (corpus.map (tokens wordChar)) w)) := by
  obtain ⟨n,found⟩ := frequenciesMember (List.mem_map.mpr ⟨doc,mem,rfl⟩) inside
  rw [initDone wordChar log _ (List.ne_nil_of_mem mem),← frequenciesGet found]
  simp only [Dict.passEntries,found,Option.map_some,Option.some_or]

theorem freshAverage (wordChar : Char → Bool) (log : α → α) (k1 k2 b : α) {corpus : List Str} (some : corpus ≠ []) :
    (init wordChar log (Bm25Model.new k1 k2 b) corpus).1.avgDocLen = averageLength (corpus.map (tokens wordChar)) := by
  rw [initDone wordChar log _ some,averageLength,List.length_map]

theorem divideNonzero [DecidableEq α] {x y : α} (nonzero : y ≠ 0) : divide x y = .ok (x / y) := if_neg nonzero

theorem sumRun {step : α → Str → Except PyError α} {share : Str → α} {words : List Str}
    (each : ∀ w ∈ words, ∀ score, step score w = .ok (score + share w)) (score : α) :
    words.foldlM step score = .ok (score + (words.map share).sum) := by
  induction words generalizing score with
  | nil => simp [pure,Except.pure]
  | cons w words ih =>
    rw [List.foldlM_cons,each w (by simp),List.map_cons,List.sum_cons,← add_assoc]
    exact ih (fun v mem => each v (by simp [mem])) (score + share w)

end formula

section ordered
variable {α : Type} [Field α] [LinearOrder α] [IsStrictOrderedRing α]

structure Weights (k1 k2 b : α) : Prop where
  k1 : 0 ≤ k1
  k2 : 0 ≤ k2
  low : 0 ≤ b
  high : b ≤ 1

theorem averagePositive {docs : List (List Str)} {doc : List Str} (mem : doc ∈ docs) {w : Str} (inside : w ∈ doc) :
    (0 : α) < averageLength docs := by
  have some : 0 < docs.length := List.length_pos_of_mem mem
  have long : 0 < doc.length := List.length_pos_of_mem inside
  have most : doc.length ≤ (docs.map List.length).sum := List.le_sum_of_mem (List.mem_map.mpr ⟨doc,mem,rfl⟩)
  have total : 0 < (docs.map List.length).sum := by omega
  unfold averageLength
  positivity

section weights
variable {k1 k2 b avgdl length : α} {tf qf : Nat}

theorem lengthFactor (h : Weights k1 k2 b) (positive : 0 < avgdl) (long : 0 ≤ length) :
    0 ≤ 1 - b + b * length / avgdl := by
  have first : 0 ≤ b * length / avgdl := div_nonneg (mul_nonneg h.low long) positive.le
  have second := h.high
  linarith

theorem documentPositive (h : Weights k1 k2 b) (positive : 0 < avgdl) (long : 0 ≤ length) (counted : 0 < tf) :
    0 < tf + k1 * (1 - b + b * length / avgdl) := by
  have factor := mul_nonneg h.k1 (lengthFactor h positive long)
  have first : (0 : α) < tf := Nat.cast_pos.mpr counted
  linarith

theorem queryPositive (h : Weights k1 k2 b) (asked : 0 < qf) : 0 < (qf : α) + k2 := by
  have first : (0 : α) < qf := Nat.cast_pos.mpr asked
  have second := h.k2
  linarith

theorem weightDecreases (h : Weights k1 k2 b) (positive : 0 < avgdl) {longer : α} (short : 0 ≤ length) (more : length < longer)
    (counted : 0 < tf) (asked : 0 < qf) (first : k1 ≠ 0) (second : b ≠ 0) :
    weight k1 k2 b avgdl longer tf qf < weight k1 k2 b avgdl length tf qf := by
  have saturation : 0 < k1 := lt_of_le_of_ne h.k1 first.symm
  have slope : 0 < b := lt_of_le_of_ne h.low second.symm
  have denominators : tf + k1 * (1 - b + b * length / avgdl) < tf + k1 * (1 - b + b * longer / avgdl) := by gcongr
  have top : 0 < tf * (k1 + 1) := mul_pos (Nat.cast_pos.mpr counted) (by linarith)
  have right : 0 < qf * (k2 + 1) / (qf + k2) := by
    have above := h.k2
    exact div_pos (mul_pos (Nat.cast_pos.mpr asked) (by linarith)) (queryPositive h asked)
  unfold weight
  exact mul_lt_mul_of_pos_right
    (div_lt_div_of_pos_left top (documentPositive h positive short counted) denominators) right

end weights

section fresh
variable (wordChar : Char → Bool) (log : α → α) {k1 k2 b : α} {corpus : List Str} {doc : Str} {query : List Str}

theorem scoreWordFresh (h : Weights k1 k2 b) (mem : doc ∈ corpus) {q : Str} (asked : q ∈ query) (score : α) :
    scoreWord (init wordChar log (Bm25Model.new k1 k2 b) corpus).1 (Dict.counter (tokens wordChar doc)) (Dict.counter query)
      score q = .ok (score + if q ∈ tokens wordChar doc then
        idfOf log corpus.length (documentFrequency (corpus.map (tokens wordChar)) q) *
          weight k1 k2 b (averageLength (corpus.map (tokens wordChar))) (tokens wordChar doc).dedup.length
            ((tokens wordChar doc).count q) (query.count q) else 0) := by
  unfold scoreWord
  rw [Dict.counterGet,Dict.counterGet,if_pos asked,Dict.counterSize]
  split
  · rename_i absent
    split at absent
    · contradiction
    · rename_i outside
      rw [if_neg outside,add_zero]
  · rename_i tf counted
    split at counted
    · rename_i inside
      cases Option.some.inj counted
      have average : (0 : α) < averageLength (corpus.map (tokens wordChar)) :=
        averagePositive (List.mem_map.mpr ⟨doc,mem,rfl⟩) inside
      obtain ⟨_,first,second,third⟩ := initKeeps wordChar log (Bm25Model.new k1 k2 b) corpus
      rw [if_pos inside,freshIdf wordChar log k1 k2 b mem inside,freshAverage wordChar log k1 k2 b (List.ne_nil_of_mem mem),
        first,second,third]
      simp only [Bm25Model.new,Py.raiseNone,bind,Except.bind,divideNonzero average.ne']
      rw [divideNonzero (documentPositive h average (Nat.cast_nonneg _) (List.count_pos_iff.mpr inside)).ne']
      simp only [divideNonzero (queryPositive h (List.count_pos_iff.mpr asked)).ne',weight,mul_assoc]
    · contradiction

theorem getScoreFresh (h : Weights k1 k2 b) {i : Nat} (here : corpus[i]? = some doc) (query : List Str) :
    getScore (init wordChar log (Bm25Model.new k1 k2 b) corpus).1 i query =
      .ok (bm25 log k1 k2 b (corpus.map (tokens wordChar)) (tokens wordChar doc).dedup.length (tokens wordChar doc) query) := by
  have counts : (init wordChar log (Bm25Model.new k1 k2 b) corpus).1.tf[i]? = some (Dict.counter (tokens wordChar doc)) := by
    rw [(initKeeps wordChar log (Bm25Model.new k1 k2 b) corpus).1,Bm25Model.new,List.nil_append,List.getElem?_map,here]
    rfl
  have words : (Dict.counter query).keys.toFinset = query.toFinset := by
    ext q
    rw [List.mem_toFinset,List.mem_toFinset,Dict.memCounter]
  unfold getScore bm25
  rw [Py.getItemInside counts]
  simp only [bind,Except.bind]
  rw [sumRun (fun q listed score => scoreWordFresh wordChar log h (List.mem_of_getElem? here) (Dict.memCounter.mp listed) score),
    zero_add,← List.sum_toFinset _ (Dict.keysDistinct _),words,Finset.sum_filter,List.length_map]

end fresh

theorem repeatedWordScores {k1 k2 b : α} (h : Weights k1 k2 b) (first : k1 ≠ 0) (second : b ≠ 0) {docs : List (List Str)}
    {doc query : List Str} (mem : doc ∈ docs) {q : Str} (asked : q ∈ query) (inside : q ∈ doc) (repeated : ¬ doc.Nodup) :
    bm25 (fun _ => 1) k1 k2 b docs doc.length doc query < bm25 (fun _ => 1) k1 k2 b docs doc.dedup.length doc query := by
  have fewer : doc.dedup.length < doc.length :=
    lt_of_le_of_ne (List.dedup_sublist doc).length_le
      (fun same => repeated ((List.dedup_sublist doc).eq_of_length same ▸ doc.nodup_dedup))
  unfold bm25 idfOf
  apply Finset.sum_lt_sum_of_nonempty
  · exact ⟨q,Finset.mem_filter.mpr ⟨List.mem_toFinset.mpr asked,inside⟩⟩
  · intro w scored
    obtain ⟨listed,found⟩ := Finset.mem_filter.mp scored
    rw [one_mul,one_mul]
    exact weightDecreases h (averagePositive mem found) (Nat.cast_nonneg _) (Nat.cast_lt.mpr fewer)
      (List.count_pos_iff.mpr found) (List.count_pos_iff.mpr (List.mem_toFinset.mp listed)) first second

/-- A score is the BM25 sum over the number of different words of the document. It is the
one over the number of its words, whatever the logarithm, exactly when no word repeats, no
word of the query occurs, or the length has no influence. -/
theorem scoreIsBm25 (wordChar : Char → Bool) (k1 k2 b : α) (h : Weights k1 k2 b) (corpus : List Str) (i : Nat) (doc : Str)
    (here : corpus[i]? = some doc) (query : List Str) :
    (∀ log : α → α, getScore (init wordChar log (Bm25Model.new k1 k2 b) corpus).1 i query = .ok (bm25 log k1 k2 b
      (corpus.map (tokens wordChar)) (tokens wordChar doc).dedup.length (tokens wordChar doc) query)) ∧
    ((∀ log : α → α, getScore (init wordChar log (Bm25Model.new k1 k2 b) corpus).1 i query = .ok (bm25 log k1 k2 b
        (corpus.map (tokens wordChar)) (tokens wordChar doc).length (tokens wordChar doc) query)) ↔
      k1 = 0 ∨ b = 0 ∨ (tokens wordChar doc).Nodup ∨ ∀ q ∈ query, q ∉ tokens wordChar doc) := by
  refine ⟨fun log => getScoreFresh wordChar log h here query,?_⟩
  simp only [getScoreFresh wordChar _ h here query,Except.ok.injEq]
  constructor
  · intro same
    by_contra other
    simp only [not_or] at other
    obtain ⟨first,second,repeated,occurs⟩ := other
    push Not at occurs
    obtain ⟨q,asked,inside⟩ := occurs
    have mem : tokens wordChar doc ∈ corpus.map (tokens wordChar) := List.mem_map.mpr ⟨doc,List.mem_of_getElem? here,rfl⟩
    exact (repeatedWordScores h first second mem asked inside repeated).ne (same _).symm
  · intro agree log
    unfold bm25
    apply Finset.sum_congr rfl
    intro q scored
    obtain ⟨asked,inside⟩ := Finset.mem_filter.mp scored
    congr 1
    rcases agree with first | second | distinct | outside
    · exact weightIgnoresLength _ _ (Or.inl first)
    · exact weightIgnoresLength _ _ (Or.inr second)
    · rw [distinct.dedup]
    · exact absurd inside (outside q (List.mem_toFinset.mp asked))

theorem idfPositive {docs : List (List Str)} {e : Str × Nat} (counted : e ∈ (frequencies docs).entries) :
    (0 : α) < (e.2 : α) + 1/2 ∧ (0 : α) < ((docs.length : α) - e.2 + 1/2) / ((e.2 : α) + 1/2) := by
  have few : e.2 ≤ docs.length := by
    rw [frequenciesGet (Dict.getEntry.mpr counted)]
    exact List.countP_le_length
  have cast : (e.2 : α) ≤ docs.length := Nat.cast_le.mpr few
  have below : (0 : α) < (e.2 : α) + 1/2 := by positivity
  exact ⟨below,div_pos (by linarith [show (0 : α) < 1/2 by positivity]) below⟩

theorem initSameLog (wordChar : Char → Bool) {log other : α → α} (agree : ∀ x, 0 < x → log x = other x) (k1 k2 b : α)
    {corpus : List Str} (some : corpus ≠ []) :
    init wordChar log (Bm25Model.new k1 k2 b) corpus = init wordChar other (Bm25Model.new k1 k2 b) corpus := by
  rw [initDone wordChar log _ some,initDone wordChar other _ some]
  have same : ∀ (d : Dict Str α) (es : List (Str × Nat)),
      (∀ e ∈ es, e ∈ (frequencies (corpus.map (tokens wordChar))).entries) →
      Dict.pass Prod.fst (fun _ e => idfOf log corpus.length e.2) d es =
        Dict.pass Prod.fst (fun _ e => idfOf other corpus.length e.2) d es := by
    intro d es listed
    induction es generalizing d with
    | nil => rfl
    | cons e es ih =>
      have positive := (idfPositive (α := α) (listed e (by simp))).2
      rw [List.length_map] at positive
      rw [Dict.passCons,Dict.passCons,idfOf,agree _ positive]
      exact ih _ (fun e later => listed e (by simp [later]))
  rw [same _ _ (fun _ listed => listed)]

theorem docScoresFresh (wordChar : Char → Bool) (log : α → α) {k1 k2 b : α} (h : Weights k1 k2 b) {corpus : List Str}
    (queries : List Str) (some : corpus ≠ []) : ∃ scores, (queries.map (tokens wordChar)).mapM
      (getDocScore (init wordChar log (Bm25Model.new k1 k2 b) corpus).1) = .ok scores := by
  have count : (init wordChar log (Bm25Model.new k1 k2 b) corpus).1.docNum = corpus.length := by
    rw [initDone wordChar log _ some]
  have row : ∀ query ∈ queries.map (tokens wordChar),
      ∃ scores, getDocScore (init wordChar log (Bm25Model.new k1 k2 b) corpus).1 query = .ok scores ∧ True := by
    intro query _
    have each : ∀ i ∈ List.range corpus.length,
        ∃ score, getScore (init wordChar log (Bm25Model.new k1 k2 b) corpus).1 i query = .ok score ∧ True := by
      intro i inside
      have here := List.getElem?_eq_getElem (List.mem_range.mp inside)
      exact ⟨_,getScoreFresh wordChar log h here query,trivial⟩
    unfold getDocScore
    rw [count]
    obtain ⟨scores,done,_⟩ := Py.mapMRows each
    exact ⟨scores,done,trivial⟩
  obtain ⟨scores,done,_⟩ := Py.mapMRows row
  exact ⟨scores,done⟩

/-- No score of a fresh model divides by zero or looks up a missing entry, and only
positive numbers have their logarithm taken. -/
theorem similaritySafe (wordChar : Char → Bool) (log : α → α) (k1 k2 b : α) (h : Weights k1 k2 b) (corpus queries : List Str)
    (some : corpus ≠ []) :
    (∃ scores, (getSimilarity wordChar log (Bm25Model.new k1 k2 b) ⟨corpus,queries⟩).2 = .ok scores) ∧
    (∀ e ∈ (frequencies (corpus.map (tokens wordChar))).entries, (e.2 : α) + 1/2 ≠ 0 ∧
      0 < ((corpus.length : α) - e.2 + 1/2) / ((e.2 : α) + 1/2)) ∧
    ∀ other : α → α, (∀ x, 0 < x → log x = other x) →
      getSimilarity wordChar log (Bm25Model.new k1 k2 b) ⟨corpus,queries⟩ =
        getSimilarity wordChar other (Bm25Model.new k1 k2 b) ⟨corpus,queries⟩ := by
  refine ⟨?_,?_,?_⟩
  · obtain ⟨scores,done⟩ := docScoresFresh wordChar log h queries some
    have started : (init wordChar log (Bm25Model.new k1 k2 b) corpus).2 = none := by rw [initDone wordChar log _ some]
    simp only [getSimilarity,started,done]
    exact ⟨_,rfl⟩
  · intro e counted
    obtain ⟨below,positive⟩ := idfPositive (α := α) counted
    rw [List.length_map] at positive
    exact ⟨below.ne',positive⟩
  · intro other agree
    simp only [getSimilarity,initSameLog wordChar agree k1 k2 b some]

end ordered

theorem defaultWeights : Weights (2 : ℝ) 2 (3/4) := by
  constructor
  all_goals norm_num

theorem distinctWordsScore : getScore (init asciiWord Real.log (Bm25Model.new 2 2 (3/4))
      ["int open".toList,[]]).1 0 ["open".toList] = .ok (bm25 Real.log 2 2 (3/4) [["int".toList,"open".toList],[]] 2
        ["int".toList,"open".toList] ["open".toList]) :=
  (scoreIsBm25 asciiWord 2 2 (3/4) defaultWeights ["int open".toList,[]] 0 "int open".toList rfl ["open".toList]).2.mpr
    (Or.inr (Or.inr (Or.inl (by decide)))) Real.log

def openDocuments : List Str := ["int open".toList,"open close".toList,[]]

theorem openDocumentsSafe : (∃ scores, (getSimilarity asciiWord Real.log (Bm25Model.new 2 2 (3/4)) ⟨openDocuments,["open".toList]⟩).2 = .ok scores) ∧
    ∀ e ∈ (frequencies (openDocuments.map (tokens asciiWord))).entries, (e.2 : ℝ) + 1/2 ≠ 0 ∧
      0 < ((openDocuments.length : ℝ) - e.2 + 1/2) / ((e.2 : ℝ) + 1/2) :=
  have safe := similaritySafe asciiWord Real.log 2 2 (3/4) defaultWeights openDocuments ["open".toList] (by decide)
  ⟨safe.1,safe.2.1⟩

theorem repeatedWordShortens : getScore (init asciiWord Real.log (Bm25Model.new 2 2 (3/4)) ["a a".toList]).1 0 [['a']] ≠
    .ok (bm25 Real.log 2 2 (3/4) [[['a'],['a']]] 2 [['a'],['a']] [['a']]) := by
  have score := getScoreFresh asciiWord Real.log defaultWeights (show ["a a".toList][0]? = some "a a".toList from rfl) [['a']]
  have text : tokens asciiWord "a a".toList = [['a'],['a']] := by decide
  have scored : ([['a']] : List Str).toFinset.filter (fun q => q ∈ [['a'],['a']]) = {['a']} := by decide
  have one : documentFrequency [[['a'],['a']]] ['a'] = 1 := by decide
  rw [score,List.map_singleton,text]
  intro same
  have values := Except.ok.inj same
  unfold bm25 at values
  rw [scored,Finset.sum_singleton,Finset.sum_singleton,one] at values
  norm_num [idfOf,weight,averageLength] at values

end KernelTcp.IrModel

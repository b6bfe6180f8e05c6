import KernelTcp.Lib.Dict
import KernelTcp.Lib.Text
import Mathlib.Analysis.SpecialFunctions.Log.Basic

/-! The BM25 model with the fields it keeps between calls. Numbers are exact, the
logarithm and the word characters of the regular expression are parameters; a failed
call leaves what it assigned before it failed. -/
namespace KernelTcp.IrModel
variable {α : Type} [Field α]

structure Bm25Model (α : Type) where
  corpus : Option (List (List Str))
  docNum : Nat
  avgDocLen : α
  tf : List (Dict Str Nat)
  idf : Dict Str α
  k1 : α
  k2 : α
  b : α

def Bm25Model.new (k1 k2 b : α) : Bm25Model α := ⟨none,0,0,[],Dict.empty,k1,k2,b⟩

structure Call where
  corpus : List Str
  queries : List Str

section model
variable (wordChar : Char → Bool) (log : α → α)

def tokens (doc : Str) : List Str := Text.runs wordChar doc

def countDocument (s : List (Dict Str Nat) × Dict Str Nat) (doc : List Str) : List (Dict Str Nat) × Dict Str Nat :=
  let tmp := Dict.counter doc
  (s.1 ++ [tmp],Dict.pass id (fun n _ => n.getD 0 + 1) s.2 tmp.keys)

def idfOf (docNum value : Nat) : α := log (((docNum : α) - value + 1/2) / ((value : α) + 1/2))

def init (m : Bm25Model α) (corpus : List Str) : Bm25Model α × Option PyError :=
  let corpus := corpus.map (tokens wordChar)
  let m := { m with corpus := some corpus, docNum := corpus.length }
  if corpus.length = 0 then (m,some .zeroDivisionError)
  else
    let m := { m with avgDocLen := ((corpus.map List.length).sum : α) / corpus.length }
    let counted := corpus.foldl countDocument (m.tf,Dict.empty)
    ({ m with
      tf := counted.1
      idf := Dict.pass Prod.fst (fun _ e => idfOf log corpus.length e.2) m.idf counted.2.entries },none)

def frequencies (docs : List (List Str)) : Dict Str Nat :=
  Dict.pass id (fun n _ => n.getD 0 + 1) Dict.empty (docs.flatMap (fun doc => (Dict.counter doc).keys))

theorem countDocuments (tf : List (Dict Str Nat)) (df : Dict Str Nat) (docs : List (List Str)) :
    docs.foldl countDocument (tf,df) = (tf ++ docs.map Dict.counter,
      Dict.pass id (fun n _ => n.getD 0 + 1) df (docs.flatMap (fun doc => (Dict.counter doc).keys))) := by
  induction docs generalizing tf df with
  | nil => simp [Dict.pass]
  | cons doc docs ih =>
    rw [List.foldl_cons,countDocument,ih,List.flatMap_cons,Dict.passAppend]
    simp

theorem frequenciesMember {docs : List (List Str)} {doc : List Str} (mem : doc ∈ docs) {w : Str} (inside : w ∈ doc) :
    ∃ n, (frequencies docs).get? w = some n := by
  apply Dict.memKeys.mp
  unfold frequencies
  rw [Dict.memKeysPass]
  exact Or.inr ⟨w,List.mem_flatMap.mpr ⟨doc,mem,Dict.memCounter.mpr inside⟩,rfl⟩

theorem initDone (m : Bm25Model α) {corpus : List Str} (some : corpus ≠ []) :
    init wordChar log m corpus =
      ({ m with
        corpus := .some (corpus.map (tokens wordChar))
        docNum := corpus.length
        avgDocLen := (((corpus.map (tokens wordChar)).map List.length).sum : α) / corpus.length
        tf := m.tf ++ corpus.map (fun doc => Dict.counter (tokens wordChar doc))
        idf := Dict.pass Prod.fst (fun _ e => idfOf log corpus.length e.2) m.idf
          (frequencies (corpus.map (tokens wordChar))).entries },none) := by
  unfold init
  have count : corpus.length ≠ 0 := by simpa using some
  simp only [countDocuments,List.length_map,List.map_map,if_neg count]
  rfl

theorem initKeeps (m : Bm25Model α) (corpus : List Str) :
    (init wordChar log m corpus).1.tf = m.tf ++ corpus.map (fun doc => Dict.counter (tokens wordChar doc)) ∧
    (init wordChar log m corpus).1.k1 = m.k1 ∧ (init wordChar log m corpus).1.k2 = m.k2 ∧
    (init wordChar log m corpus).1.b = m.b := by
  cases corpus with
  | nil => exact ⟨(List.append_nil m.tf).symm,rfl,rfl,rfl⟩
  | cons doc docs =>
    rw [initDone wordChar log m (List.cons_ne_nil doc docs)]
    exact ⟨rfl,rfl,rfl,rfl⟩

theorem initIdf (m other : Bm25Model α) {corpus : List Str} {doc : Str} (mem : doc ∈ corpus) {w : Str}
    (inside : w ∈ tokens wordChar doc) :
    (init wordChar log m corpus).1.idf.get? w = (init wordChar log other corpus).1.idf.get? w := by
  have some := List.ne_nil_of_mem mem
  obtain ⟨n,found⟩ := frequenciesMember (List.mem_map.mpr ⟨doc,mem,rfl⟩) inside
  rw [initDone wordChar log m some,initDone wordChar log other some]
  simp only [Dict.passEntries,found,Option.map_some,Option.some_or]

variable [DecidableEq α]

def divide (x y : α) : Except PyError α := if y = 0 then .error .zeroDivisionError else .ok (x / y)

def scoreWord (m : Bm25Model α) (counts qf : Dict Str Nat) (score : α) (q : Str) : Except PyError α :=
  match counts.get? q with
  | none => .ok score
  | some tf => do
      let idf ← Py.raiseNone .keyError (m.idf.get? q)
      let ratio ← divide (m.b * counts.keys.length) m.avgDocLen
      let inDocument ← divide (tf * (m.k1 + 1)) (tf + m.k1 * (1 - m.b + ratio))
      let qf ← Py.raiseNone .keyError (qf.get? q)
      let inQuery ← divide (qf * (m.k2 + 1)) (qf + m.k2)
      .ok (score + idf * inDocument * inQuery)

def getScore (m : Bm25Model α) (index : Nat) (query : List Str) : Except PyError α := do
  let counts ← Py.getItem m.tf index
  let qf := Dict.counter query
  qf.keys.foldlM (scoreWord m counts qf) 0

def getDocScore (m : Bm25Model α) (query : List Str) : Except PyError (List α) :=
  (List.range m.docNum).mapM (fun i => getScore m i query)

def getSimilarity (m : Bm25Model α) (call : Call) : Bm25Model α × Except PyError (List (List α)) :=
  let started := init wordChar log m call.corpus
  match started.2 with
  | some e => (started.1,.error e)
  | none => (started.1,Py.transpose <$> (call.queries.map (tokens wordChar)).mapM (getDocScore started.1))

def after (m : Bm25Model α) (calls : List Call) : Bm25Model α :=
  calls.foldl (fun m call => (getSimilarity wordChar log m call).1) m

structure SameSettings (m other : Bm25Model α) : Prop where
  avgDocLen : m.avgDocLen = other.avgDocLen
  k1 : m.k1 = other.k1
  k2 : m.k2 = other.k2
  b : m.b = other.b

theorem getScoreSame {m other : Bm25Model α} (settings : SameSettings m other) {index : Nat} {query : List Str}
    (counts reference : Dict Str Nat) (here : m.tf[index]? = some counts) (there : other.tf[index]? = some reference)
    (words : ∀ w ∈ query, counts.get? w = reference.get? w)
    (sizes : (∃ w ∈ query, w ∈ reference.keys) → counts.keys.length = reference.keys.length)
    (idfs : ∀ w ∈ query, w ∈ reference.keys → m.idf.get? w = other.idf.get? w) :
    getScore m index query = getScore other index query := by
  unfold getScore
  rw [Py.getItemInside here,Py.getItemInside there]
  apply Py.foldlMSame
  intro w hw score
  have asked := Dict.memCounter.mp hw
  unfold scoreWord
  rw [words w asked]
  cases found : reference.get? w with
  | none => rfl
  | some tf =>
    have present : w ∈ reference.keys := Dict.memKeys.mpr ⟨tf,found⟩
    simp only [idfs w asked present,sizes ⟨w,asked,present⟩,settings.avgDocLen,settings.k1,settings.k2,settings.b]

def documents (calls : List Call) : List Str := calls.flatMap Call.corpus

theorem getSimilarityState (m : Bm25Model α) (call : Call) :
    (getSimilarity wordChar log m call).1 = (init wordChar log m call.corpus).1 := by
  simp only [getSimilarity]
  split <;> rfl

theorem afterCalls (m : Bm25Model α) (calls : List Call) :
    (after wordChar log m calls).tf = m.tf ++ (documents calls).map (fun doc => Dict.counter (tokens wordChar doc)) ∧
    (after wordChar log m calls).k1 = m.k1 ∧ (after wordChar log m calls).k2 = m.k2 ∧
    (after wordChar log m calls).b = m.b := by
  induction calls generalizing m with
  | nil => simp [after,documents]
  | cons call calls ih =>
    have step : after wordChar log m (call::calls) = after wordChar log (init wordChar log m call.corpus).1 calls := by
      rw [← getSimilarityState]
      rfl
    obtain ⟨grown,k1,k2,b⟩ := initKeeps wordChar log m call.corpus
    obtain ⟨tf,rest⟩ := ih (init wordChar log m call.corpus).1
    rw [k1,k2,b] at rest
    rw [grown] at tf
    rw [step]
    refine ⟨?_,rest⟩
    unfold documents at tf ⊢
    rw [List.flatMap_cons,List.map_append,← List.append_assoc]
    exact tf

/- The document read in the place of `doc` looks the same to every word of the queries,
and is as long when one of them occurs. -/
structure SameReading (queries : List Str) (stale doc : Str) : Prop where
  counts : ∀ query ∈ queries, ∀ w ∈ tokens wordChar query,
    (tokens wordChar stale).count w = (tokens wordChar doc).count w
  sizes : (∃ query ∈ queries, ∃ w ∈ tokens wordChar query, w ∈ tokens wordChar doc) →
    (tokens wordChar stale).dedup.length = (tokens wordChar doc).dedup.length

def Undisturbed (earlier : List Call) (call : Call) : Prop :=
  ∀ (i : Nat) (stale doc : Str), (documents earlier ++ call.corpus)[i]? = some stale → call.corpus[i]? = some doc →
    SameReading wordChar call.queries stale doc

theorem counterSame {stale doc : List Str} {w : Str} (same : stale.count w = doc.count w) :
    (Dict.counter stale).get? w = (Dict.counter doc).get? w := by
  rw [Dict.counterGet,Dict.counterGet,same]
  have members : w ∈ stale ↔ w ∈ doc := by
    rw [← List.count_pos_iff,same,List.count_pos_iff]
  simp only [members]

theorem scoresUndisturbed {k1 k2 b : α} {earlier : List Call} {call : Call}
    (undisturbed : Undisturbed wordChar earlier call) {query : Str} (asked : query ∈ call.queries) {i : Nat}
    (inside : i < call.corpus.length) :
    getScore (init wordChar log (after wordChar log (Bm25Model.new k1 k2 b) earlier) call.corpus).1 i
        (tokens wordChar query) =
      getScore (init wordChar log (Bm25Model.new k1 k2 b) call.corpus).1 i (tokens wordChar query) := by
  obtain ⟨tf,sameK1,sameK2,sameB⟩ := afterCalls wordChar log (Bm25Model.new k1 k2 b) earlier
  generalize after wordChar log (Bm25Model.new k1 k2 b) earlier = m at tf sameK1 sameK2 sameB ⊢
  have settings : SameSettings (init wordChar log m call.corpus).1
      (init wordChar log (Bm25Model.new k1 k2 b) call.corpus).1 := by
    have some : call.corpus ≠ [] := List.ne_nil_of_length_pos (by omega)
    rw [initDone wordChar log _ some,initDone wordChar log _ some]
    exact ⟨rfl,sameK1,sameK2,sameB⟩
  have used := (initKeeps wordChar log m call.corpus).1
  have fresh := (initKeeps wordChar log (Bm25Model.new k1 k2 b) call.corpus).1
  obtain ⟨stale,there⟩ : ∃ stale, (documents earlier ++ call.corpus)[i]? = some stale :=
    ⟨_,List.getElem?_eq_getElem (by rw [List.length_append]; omega)⟩
  have here : call.corpus[i]? = some call.corpus[i] := List.getElem?_eq_getElem inside
  have reading := undisturbed i stale _ there here
  refine getScoreSame settings (Dict.counter (tokens wordChar stale))
    (Dict.counter (tokens wordChar call.corpus[i])) ?_ ?_ ?_ ?_ ?_
  · rw [used,tf,Bm25Model.new,List.nil_append,← List.map_append,List.getElem?_map,there]
    rfl
  · rw [fresh,Bm25Model.new,List.nil_append,List.getElem?_map,here]
    rfl
  · intro w hw
    exact counterSame (reading.counts query asked w hw)
  · intro h
    obtain ⟨w,hw,present⟩ := h
    rw [Dict.counterSize,Dict.counterSize]
    exact reading.sizes ⟨query,asked,w,hw,Dict.memCounter.mp present⟩
  · intro w _ present
    exact initIdf wordChar log m _ (List.getElem_mem inside) (Dict.memCounter.mp present)

/-- A call whose documents are read as if no earlier call had been made returns what
a new instance returns. -/
theorem similarityOfNewInstance (k1 k2 b : α) (earlier : List Call) (call : Call) (some : call.corpus ≠ [])
    (undisturbed : Undisturbed wordChar earlier call) :
    (getSimilarity wordChar log (after wordChar log (Bm25Model.new k1 k2 b) earlier) call).2 =
      (getSimilarity wordChar log (Bm25Model.new k1 k2 b) call).2 := by
  have count : ∀ m : Bm25Model α, (init wordChar log m call.corpus).1.docNum = call.corpus.length := by
    intro m
    rw [initDone wordChar log m some]
  have done : ∀ m : Bm25Model α, (init wordChar log m call.corpus).2 = none := by
    intro m
    rw [initDone wordChar log m some]
  simp only [getSimilarity,done]
  congr 1
  apply Py.mapMSame
  intro words hw
  obtain ⟨query,asked,rfl⟩ := List.mem_map.mp hw
  unfold getDocScore
  rw [count,count]
  exact Py.mapMSame (fun i hi => scoresUndisturbed wordChar log undisturbed asked (List.mem_range.mp hi))

end model

def asciiWord (c : Char) : Bool := c.isAlphanum || c == '_'

def single (doc : Str) : Call := ⟨[doc],[doc]⟩

theorem singleWord : scoreWord (init asciiWord Real.log (Bm25Model.new 2 2 (3/4)) [['b']]).1
    (Dict.counter [['b']]) (Dict.counter [['b']]) 0 ['b'] = .ok (Real.log (1/3)) := by
  change (do
      let ratio ← divide (3/4 * ((1 : Nat) : ℝ)) (((1 : Nat) : ℝ) / (1 : Nat))
      let inDocument ← divide (((1 : Nat) : ℝ) * (2 + 1)) ((1 : Nat) + 2 * (1 - 3/4 + ratio))
      let inQuery ← divide (((1 : Nat) : ℝ) * (2 + 1)) ((1 : Nat) + 2)
      Except.ok (0 + idfOf Real.log 1 1 * inDocument * inQuery)) = _
  norm_num [divide,bind,Except.bind,idfOf]

theorem singleFresh :
    (getSimilarity asciiWord Real.log (Bm25Model.new 2 2 (3/4)) (single ['b'])).2 = .ok [[Real.log (1/3)]] := by
  have score : getScore (init asciiWord Real.log (Bm25Model.new 2 2 (3/4)) [['b']]).1 0 [['b']] =
      .ok (Real.log (1/3)) := by
    change scoreWord _ (Dict.counter [['b']]) (Dict.counter [['b']]) (0 : ℝ) ['b'] >>= pure = _
    rw [singleWord]
    rfl
  have row : getDocScore (init asciiWord Real.log (Bm25Model.new 2 2 (3/4)) [['b']]).1 [['b']] =
      .ok [Real.log (1/3)] := by
    change List.mapM _ [0] = _
    rw [List.mapM_cons,score]
    rfl
  change Py.transpose <$> List.mapM (getDocScore (init asciiWord Real.log (Bm25Model.new 2 2 (3/4)) [['b']]).1) [[['b']]] = _
  rw [List.mapM_cons,row]
  rfl

theorem secondCallScoresFirstDocument :
    (getSimilarity asciiWord Real.log (after asciiWord Real.log (Bm25Model.new 2 2 (3/4)) [single ['a']])
      (single ['b'])).2 ≠ (getSimilarity asciiWord Real.log (Bm25Model.new 2 2 (3/4)) (single ['b'])).2 := by
  have stale : (getSimilarity asciiWord Real.log
    (after asciiWord Real.log (Bm25Model.new 2 2 (3/4)) [single ['a']]) (single ['b'])).2 = .ok [[0]] := rfl
  rw [stale,singleFresh]
  intro same
  have zero : (0 : ℝ) = Real.log (1/3) := by simpa using same
  have negative := Real.log_neg (show (0 : ℝ) < 1/3 by norm_num) (by norm_num)
  linarith

theorem repeatedDocumentUndisturbed :
    Undisturbed asciiWord [single "a b".toList] ⟨["a b".toList,"a b".toList],["b c".toList]⟩ ∧
    (getSimilarity asciiWord Real.log (after asciiWord Real.log (Bm25Model.new 2 2 (3/4)) [single "a b".toList])
      ⟨["a b".toList,"a b".toList],["b c".toList]⟩).2 =
      (getSimilarity asciiWord Real.log (Bm25Model.new 2 2 (3/4)) ⟨["a b".toList,"a b".toList],["b c".toList]⟩).2 := by
  have undisturbed : Undisturbed asciiWord [single "a b".toList] ⟨["a b".toList,"a b".toList],["b c".toList]⟩ := by
    intro i stale doc there here
    have same : stale = doc := by
      rcases i with _ | _ | i
      · exact Option.some.inj (there.symm.trans here)
      · exact Option.some.inj (there.symm.trans here)
      · simp at here
    subst same
    exact ⟨fun _ _ _ _ => rfl,fun _ => rfl⟩
  exact ⟨undisturbed,similarityOfNewInstance asciiWord Real.log 2 2 (3/4) _ _ (by simp) undisturbed⟩

end KernelTcp.IrModel

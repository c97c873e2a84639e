import WaiNative.Segment.Prediction
import WaiNative.Training.MultiWord

/-!
# `PhoenixWord` and `ZhiZiWord`

The two segmenters: their state, `cut` and `learn`. Both run the same stages
(`prepare`) and then predict group by group; `ZhiZiWord::cut` uses the phrase
graph for Chinese and the word graph otherwise.

- `prepare_spec`: what the stages establish on a run;
- `predict_spec`: over all groups, what is selected is the picks of the groups,
  one after the other.

What the functions print, return as JSON or draw is left out.
-/

namespace WaiNative

open Cxx ShortestPath ChainGraph Tiling

/-- The members that every call of `cut` and `learn` sets anew. -/
structure SegmentState where
  statisticsMinWordSize_ : ℕ
  wordHintSeq_ : List WordElement
  wordAdjustedSeq_ : List WordElement
  noConflictWordSeq_ : List (List WordElement)
  wordSeqTopSelected_ : List WordElement
deriving DecidableEq

structure PhoenixWord extends SegmentState where
  dictInputCN_ : Dictionary
  dictInputJA_ : Dictionary
  multiWordOfOneArticle_ : MultiWord

structure ZhiZiWord extends SegmentState where
  dictInputCN_ : Dictionary
  dictInputJA_ : Dictionary
  phraseInputCN_ : Dictionary
  phraseInputJA_ : Dictionary

section Members

variable (pow : ℚ → ℚ → ℚ) (dijkstra : WGraph ℚ → ℕ → ℕ)

/-- `getRawRank`, `getOutRank`, `adjustRank` and `getNoConflictSeq`. -/
def prepare (pred : Str → ℚ) (Bytes : List Str) (text : Str) :
    Option SegmentState := do
  let raw := getRawRank pred Bytes
  let wordHintSeq_ ← getOutRank text raw.wordHintSeq_
  let wordAdjustedSeq_ := adjustRank pow raw.statisticsMinWordSize_ wordHintSeq_
  return { statisticsMinWordSize_ := raw.statisticsMinWordSize_
           wordHintSeq_ := wordHintSeq_
           wordAdjustedSeq_ := wordAdjustedSeq_
           noConflictWordSeq_ := getNoConflictSeq wordAdjustedSeq_
           wordSeqTopSelected_ := [] }

/-- The loop over the groups, around the prediction of one of them. -/
def predict (calcPrediction : (wordHintSeq_ confuse top : List WordElement) →
    Option (List WordElement)) (st : SegmentState) : Option SegmentState := do
  let top ← st.noConflictWordSeq_.foldlM
    (fun top clearSeq => calcPrediction st.wordHintSeq_ clearSeq top) st.wordSeqTopSelected_
  return { st with wordSeqTopSelected_ := top }

def PhoenixWord.cut (p : PhoenixWord) (Bytes : List Str) (text : Str)
    (lang : Lang) : Option PhoenixWord := do
  let st ← prepare pow (inputPred p.dictInputCN_ p.dictInputJA_ lang) Bytes text
  let st ← predict (PhoenixWord.calcPrediction dijkstra) st
  return { p with toSegmentState := st }

/-- `jointPair`: count each pair of neighbours. -/
def jointPair : List WordElement → MultiWord → MultiWord
  | it :: nextIt :: rest, m =>
      jointPair (nextIt :: rest) (pushMultiWord m (it.word ++ [45] ++ nextIt.word))
  | _, m => m

def PhoenixWord.learn (p : PhoenixWord) (wordBytes : List Str) (text : Str)
    (lang : Lang) : Option PhoenixWord :=
  if wordBytes.length < 2 then some p
  else do
    let st ← prepare pow (inputPred p.dictInputCN_ p.dictInputJA_ lang) wordBytes text
    let st ← predict (PhoenixWord.calcPrediction dijkstra) st
    return { p with
      toSegmentState := st
      multiWordOfOneArticle_ :=
        jointPair st.wordSeqTopSelected_ p.multiWordOfOneArticle_ }

def ZhiZiWord.cut (z : ZhiZiWord) (Bytes : List Str) (text : Str)
    (lang : Lang) : Option ZhiZiWord := do
  let st ← prepare pow (inputPred z.dictInputCN_ z.dictInputJA_ lang) Bytes text
  let st ←
    if lang = .cn then
      predict (ZhiZiWord.calcPredictionPhrase z.phraseInputCN_ z.phraseInputJA_ lang
        dijkstra) st
    else predict (ZhiZiWord.calcPrediction dijkstra) st
  return { z with toSegmentState := st }

/-- The edge weights by which `ZhiZiWord::cut` predicts. -/
def ZhiZiWord.rule (z : ZhiZiWord) (lang : Lang) : EdgeRule :=
  if lang = .cn then phraseRule z.phraseInputCN_ z.phraseInputJA_ lang else wordRule

/-- How `ZhiZiWord::cut` looks up the words of the path. -/
def ZhiZiWord.pick (lang : Lang) : LabelVertex → WordElement → Bool :=
  if lang = .cn then byWordAndPosition else byWord

section Calls

variable {pow dijkstra} {Bytes : List Str} {text : Str} {lang : Lang}
  {st st' : SegmentState}

theorem PhoenixWord.cut_of_predict (p : PhoenixWord)
    (hst : prepare pow (inputPred p.dictInputCN_ p.dictInputJA_ lang) Bytes text =
      some st)
    (hst' : predict (calcPredictionBy wordRule byWordAndPosition dijkstra) st =
      some st') :
    p.cut pow dijkstra Bytes text lang = some { p with toSegmentState := st' } := by
  have hcalc : predict (PhoenixWord.calcPrediction dijkstra) st = some st' := hst'
  rw [PhoenixWord.cut, hst, Option.bind_eq_bind, Option.bind_some, hcalc]
  rfl

theorem PhoenixWord.learn_of_predict (p : PhoenixWord)
    (hst : prepare pow (inputPred p.dictInputCN_ p.dictInputJA_ lang) Bytes text =
      some st)
    (hst' : predict (calcPredictionBy wordRule byWordAndPosition dijkstra) st =
      some st') (hlong : ¬ Bytes.length < 2) :
    p.learn pow dijkstra Bytes text lang = some { p with
      toSegmentState := st'
      multiWordOfOneArticle_ :=
        jointPair st'.wordSeqTopSelected_ p.multiWordOfOneArticle_ } := by
  have hcalc : predict (PhoenixWord.calcPrediction dijkstra) st = some st' := hst'
  rw [PhoenixWord.learn, if_neg hlong, hst, Option.bind_eq_bind, Option.bind_some,
    hcalc]
  rfl

theorem ZhiZiWord.cut_of_predict (z : ZhiZiWord)
    (hst : prepare pow (inputPred z.dictInputCN_ z.dictInputJA_ lang) Bytes text =
      some st)
    (hst' : predict (calcPredictionBy (z.rule lang) (ZhiZiWord.pick lang) dijkstra) st =
      some st') :
    z.cut pow dijkstra Bytes text lang = some { z with toSegmentState := st' } := by
  rw [ZhiZiWord.cut, hst, Option.bind_eq_bind, Option.bind_some]
  by_cases hlang : lang = .cn
  · simp only [ZhiZiWord.rule, ZhiZiWord.pick, if_pos hlang] at hst'
    have hcalc : predict (ZhiZiWord.calcPredictionPhrase z.phraseInputCN_
        z.phraseInputJA_ lang dijkstra) st = some st' := hst'
    rw [if_pos hlang, hcalc]
    rfl
  · simp only [ZhiZiWord.rule, ZhiZiWord.pick, if_neg hlang] at hst'
    have hcalc : predict (ZhiZiWord.calcPrediction dijkstra) st = some st' := hst'
    rw [if_neg hlang, hcalc]
    rfl

end Calls

end Members

/-- In another language than Chinese, or when the least weight of the Chinese phrases is
positive, every chain has a way through the graph. -/
theorem ZhiZiWord.rule_total (z : ZhiZiWord) {lang : Lang}
    (hmin : lang = .cn → 0 < z.phraseInputCN_.getRangeMin) : (z.rule lang).Total := by
  unfold ZhiZiWord.rule
  split
  · rename_i hlang
    refine phraseRule_total ?_
    rw [hlang]
    exact hmin hlang
  · exact wordRule_total

/-- Otherwise no path leads to the end. -/
theorem ZhiZiWord.rule_last (z : ZhiZiWord) (hmin : ¬ 0 < z.phraseInputCN_.getRangeMin)
    (a : WordElement) (w : ℚ) : ¬ (z.rule .cn).weights.last a w := by
  have hphrase : ¬ 0 < phraseRangeMin z.phraseInputCN_ z.phraseInputJA_ .cn := hmin
  exact phraseRule_last hphrase a w

/-! ## What the stages establish -/

/-- The state behind `getNoConflictSeq`. -/
structure Prepared (Bytes : List Str) (st : SegmentState) : Prop where
  hints : HintSeq Bytes st.wordHintSeq_
  linked : Linked st.wordHintSeq_
  adjusted : ∃ pow, st.wordAdjustedSeq_ =
    st.wordHintSeq_.map (adjustElement pow st.statisticsMinWordSize_)
  flatten : st.noConflictWordSeq_.flatten = st.wordAdjustedSeq_
  good : GoodGroups st.noConflictWordSeq_

section Stages

variable {Bytes : List Str} {text : Str} {st : SegmentState}

/-- **On a run the stages never throw.** -/
theorem prepare_eq (pow : ℚ → ℚ → ℚ) (pred : Str → ℚ) (hrun : CtrlClaw.Run Bytes text) :
    ∃ st, prepare pow pred Bytes text = some st ∧ Prepared Bytes st ∧
      st.wordSeqTopSelected_ = [] ∧
      st.statisticsMinWordSize_ = (getRawRank pred Bytes).statisticsMinWordSize_ ∧
      st.wordHintSeq_ =
        fillGaps Bytes.flatten (getRawRank pred Bytes).wordHintSeq_ ∧
      st.wordAdjustedSeq_ =
        st.wordHintSeq_.map (adjustElement pow st.statisticsMinWordSize_) := by
  have hraw := getRawRank_hints pred hrun.ne_nil
  have hfill := fillGaps_hints hraw
  have hadjust := adjustRank_eq pow
    (getRawRank pred Bytes).statisticsMinWordSize_ hfill
  obtain ⟨hflat, hgood⟩ := getNoConflictSeq_good (map_adjust_hints pow
    (getRawRank pred Bytes).statisticsMinWordSize_ hfill).ordered.sorted
  have hout : getOutRank text (getRawRank pred Bytes).wordHintSeq_ =
      some (fillGaps Bytes.flatten (getRawRank pred Bytes).wordHintSeq_) := by
    rw [hrun.text_eq]
    exact getOutRank_eq hraw
  refine ⟨_, by simp only [prepare, hout, Option.bind_eq_bind, Option.bind_some]; rfl,
    ?_, rfl, rfl, rfl, hadjust⟩
  refine ⟨hfill, fillGaps_linked hraw, ⟨pow, hadjust⟩, ?_, ?_⟩
  · rw [hadjust]
    exact hflat
  · rw [hadjust]
    exact hgood

theorem Prepared.adjusted_hints (h : Prepared Bytes st) :
    HintSeq Bytes st.wordAdjustedSeq_ := by
  obtain ⟨pow, hadjust⟩ := h.adjusted
  rw [hadjust]
  exact map_adjust_hints _ _ h.hints

theorem Prepared.group_sublist (h : Prepared Bytes st) {c : List WordElement}
    (hc : c ∈ st.noConflictWordSeq_) : c.Sublist st.wordAdjustedSeq_ := by
  rw [← h.flatten]
  exact List.sublist_flatten_of_mem hc

/-- Each group comes with what the graph needs. -/
theorem Prepared.group (h : Prepared Bytes st) (hrun : CtrlClaw.Run Bytes text)
    {c : List WordElement} (hc : c ∈ st.noConflictWordSeq_) :
    GroupOf Bytes st.wordHintSeq_ c := by
  have hthree : ∀ {m : List WordElement}, HintSeq Bytes m → ∀ e ∈ m, 3 ≤ e.range := by
    intro m hm e he
    have hpos := hm.range_pos e he
    have hgap := (hm.start e he).gap (hm.stop e he) hrun.three
      (by rw [WordElement.stop]; omega)
    rw [WordElement.stop] at hgap
    omega
  have hhints := h.adjusted_hints.sublist (h.group_sublist hc)
  refine ⟨hhints, h.good.nonempty c hc, hthree hhints, hthree h.hints, ?_⟩
  intro e he
  obtain ⟨pow, hadjust⟩ := h.adjusted
  have hmem := (h.group_sublist hc).subset he
  rw [hadjust] at hmem
  obtain ⟨x, hx, rfl⟩ := List.mem_map.mp hmem
  exact ⟨x, hx, rfl, rfl⟩

/-- The groups tile from the first hint to the end of the last one. -/
theorem Prepared.tiles (h : Prepared Bytes st) (hne : st.noConflictWordSeq_ ≠ []) :
    Tiles startPos posLast (startPos st.wordAdjustedSeq_) (posLast st.wordAdjustedSeq_)
      st.noConflictWordSeq_ := by
  obtain ⟨pow, hadjust⟩ := h.adjusted
  have hlinked : Linked st.noConflictWordSeq_.flatten := by
    rw [h.flatten, hadjust]
    exact map_adjust_linked _ _ h.linked
  have htiles := groups_tile h.good hne hlinked
  rwa [h.flatten] at htiles

end Stages

/-! ## What is predicted -/

/-- The picks of one group: the entries of the chain that the parents lead back along,
or nothing. -/
def PickOf (rule : EdgeRule) (pick : LabelVertex → WordElement → Bool)
    (dijkstra : WGraph ℚ → ℕ → ℕ) (wordHintSeq_ confuse picked : List WordElement) :
    Prop :=
  (∃ sel, OnPath rule dijkstra wordHintSeq_ confuse sel ∧ EdgeChain rule confuse sel ∧
    picked = Multimap.insertAll WordElement.position (found pick confuse sel) []) ∨
  ((∀ sel, ¬ EdgeChain rule confuse sel) ∧ picked = [])

/-- Boost's parents lead back along edges of the graphs of a run. -/
def ValidOn (dijkstra : WGraph ℚ → ℕ → ℕ) (rule : EdgeRule) (st : SegmentState) :
    Prop :=
  ∀ c ∈ st.noConflictWordSeq_,
    PathTree (buildGraph rule st.wordHintSeq_ c) vrtxStart
      (dijkstra (buildGraph rule st.wordHintSeq_ c))

section Predict

variable {Bytes : List Str} {hints : List WordElement} {rule : EdgeRule}
  (pick : LabelVertex → WordElement → Bool) {dijkstra : WGraph ℚ → ℕ → ℕ}

variable {pick} in
theorem mem_found {confuse sel : List WordElement} {e : WordElement}
    (h : e ∈ found pick confuse sel) : e ∈ confuse := by
  obtain ⟨x, -, hx⟩ := List.mem_filterMap.mp h
  exact List.mem_of_find?_eq_some hx

variable {pick} in
theorem PickOf.mem {confuse picked : List WordElement}
    (h : PickOf rule pick dijkstra hints confuse picked) : ∀ e ∈ picked, e ∈ confuse := by
  rcases h with ⟨sel, -, -, rfl⟩ | ⟨-, rfl⟩
  · intro e he
    rcases Multimap.mem_insertAll.mp he with he | he
    · exact absurd he List.not_mem_nil
    · exact mem_found he
  · intro e he
    exact absurd he List.not_mem_nil

variable {pick} in
/-- Nothing is picked where nothing leads to the end. -/
theorem picks_eq_nil {gs picks : List (List WordElement)}
    (hlast : ∀ a w, ¬ rule.weights.last a w)
    (hpicks : List.Forall₂ (PickOf rule pick dijkstra hints) gs picks) :
    picks.flatten = [] := by
  rw [List.flatten_eq_nil_iff]
  intro picked hpicked
  obtain ⟨c, -, hpick⟩ := exists_of_mem_right hpicks hpicked
  rcases hpick with ⟨sel, -, hchain, -⟩ | ⟨-, hnil⟩
  · exact absurd hchain (not_edgeChain hlast sel)
  · exact hnil

/-- One group: its picks go behind what earlier groups selected. -/
theorem calcPredictionBy_append {confuse top : List WordElement}
    (hg : GroupOf Bytes hints confuse)
    (htree : PathTree (buildGraph rule hints confuse) vrtxStart
      (dijkstra (buildGraph rule hints confuse)))
    (hbehind : ∀ x ∈ top, ∀ e ∈ confuse, x.position ≤ e.position) :
    ∃ picked, PickOf rule pick dijkstra hints confuse picked ∧
      calcPredictionBy rule pick dijkstra hints confuse top = some (top ++ picked) := by
  rcases calcPredictionBy_spec hg htree top with
    ⟨sel, hpath, hchain, heq⟩ | ⟨hno, heq⟩
  · refine ⟨_, Or.inl ⟨sel, hpath, hchain, rfl⟩, ?_⟩
    rw [heq, ← Multimap.insertAll_append_left, List.append_nil]
    intro x hx e he
    exact hbehind x hx e (mem_found he)
  · exact ⟨[], Or.inr ⟨hno, rfl⟩, by rw [heq, List.append_nil]⟩

/-- The loop over the groups, from any point on. -/
theorem foldlM_predict : ∀ (gs : List (List WordElement))
    (top : List WordElement), GoodGroups gs →
    (∀ c ∈ gs, GroupOf Bytes hints c) →
    (∀ c ∈ gs, PathTree (buildGraph rule hints c) vrtxStart
      (dijkstra (buildGraph rule hints c))) →
    (∀ x ∈ top, ∀ c ∈ gs, ∀ e ∈ c, x.position ≤ e.position) →
    ∃ picks, List.Forall₂ (PickOf rule pick dijkstra hints) gs picks ∧
      gs.foldlM (fun top c => calcPredictionBy rule pick dijkstra hints c top) top =
        some (top ++ picks.flatten)
  | [], top, _, _, _, _ => ⟨[], List.Forall₂.nil, by simp⟩
  | c :: gs, top, hgood, hgroup, htree, hbehind => by
      obtain ⟨picked, hpicked, heq⟩ := calcPredictionBy_append pick
        (hgroup c List.mem_cons_self) (htree c List.mem_cons_self)
        (fun x hx => hbehind x hx c List.mem_cons_self)
      have hbehind' : ∀ x ∈ top ++ picked, ∀ d ∈ gs, ∀ e ∈ d,
          x.position ≤ e.position := by
        intro x hx d hd e he
        rcases List.mem_append.mp hx with hx | hx
        · exact hbehind x hx d (List.mem_cons_of_mem _ hd) e he
        · have happart := (List.pairwise_cons.mp hgood.apart).1 d hd x
            (hpicked.mem x hx) e he
          rw [WordElement.stop] at happart
          omega
      obtain ⟨picks, hpicks, hrest⟩ := foldlM_predict gs (top ++ picked) hgood.tail
        (fun d hd => hgroup d (List.mem_cons_of_mem _ hd))
        (fun d hd => htree d (List.mem_cons_of_mem _ hd)) hbehind'
      refine ⟨picked :: picks, List.Forall₂.cons hpicked hpicks, ?_⟩
      rw [List.foldlM_cons, heq, Option.bind_eq_bind, Option.bind_some, hrest]
      simp

/-- **Over all groups, the picks of the groups are selected**, in order. -/
theorem predict_spec {text : Str} {st : SegmentState} (h : Prepared Bytes st)
    (hrun : CtrlClaw.Run Bytes text) (hvalid : ValidOn dijkstra rule st) (htop : st.wordSeqTopSelected_ = []) :
    ∃ picks, List.Forall₂ (PickOf rule pick dijkstra st.wordHintSeq_)
      st.noConflictWordSeq_ picks ∧
      predict (calcPredictionBy rule pick dijkstra) st =
        some { st with wordSeqTopSelected_ := picks.flatten } := by
  obtain ⟨picks, hpicks, heq⟩ := foldlM_predict pick _ [] h.good
    (fun c hc => h.group hrun hc) hvalid (by simp)
  refine ⟨picks, hpicks, ?_⟩
  rw [predict, htop, heq]
  rfl

end Predict

end WaiNative

import WaiNative.Segment.Contiguity
import Mathlib.Algebra.Order.Field.Basic
import Mathlib.Tactic.Positivity

/-!
# What the selected chain minimises

The edge weights of a word graph are put together in three places: on the edges
from the start, on those from a word to the next, and on the edges to the end.
`SelectsLeast` says of one of the three predictions that it inserts a chain of the
group that minimises a given sum, whatever shortest-path tree Boost answers with.

- `calcPredictionPhrase` minimises the sum of the phrase distances, with a closing
  factor for the last word (`calcPredictionPhrase_least`);
- both `calcPrediction` draw `1 / weight` of a word on the edges that leave it, on
  the edge that enters the first word once more, and zero on the edge that leaves
  the last one. So they minimise the sum with the first word counted twice and the
  last one not at all, and the plain sum only where that is the same
  (`calcPrediction_least_iff`).
-/

namespace WaiNative

open Cxx ShortestPath ChainGraph Tiling

section Definitions

/-- Among the chains of the group, `sel` minimises `f`. -/
def LeastChain (f : List WordElement → ℚ) (confuse sel : List WordElement) : Prop :=
  Least f WordElement.position WordElement.stop (· ∈ confuse) (startPos confuse)
    (posLast confuse) sel

/-- If the group has a chain, one that minimises `f` is inserted, for every
shortest-path tree. -/
def SelectsLeast (rule : EdgeRule)
    (calcPrediction : (dijkstra : WGraph ℚ → ℕ → ℕ) →
      (wordHintSeq_ confuse wordSeqTopSelected_ : List WordElement) →
      Option (List WordElement))
    (f : List WordElement → ℚ) (wordHintSeq_ confuse : List WordElement) : Prop :=
  ∀ dijkstra, ShortestPathTree (buildGraph rule wordHintSeq_ confuse) vrtxStart
      (dijkstra (buildGraph rule wordHintSeq_ confuse)) → HasChain confuse →
    ∃ sel, LeastChain f confuse sel ∧ ∀ top,
      calcPrediction dijkstra wordHintSeq_ confuse top =
        some (Multimap.insertAll WordElement.position sel top)

/-- The distance of a word. -/
def distance (e : WordElement) : ℚ := 1 / e.weight

/-- Each word counted once. -/
def sumOfDistances (sel : List WordElement) : ℚ := (sel.map distance).sum

/-- The first word counted twice, the last one not at all. -/
def skewedSum (sel : List WordElement) : ℚ :=
  sumOfDistances sel + (sel.head?.map distance).getD 0 -
    (sel.getLast?.map distance).getD 0

variable (phraseInputCN_ phraseInputJA_ : Dictionary) (lang : Lang)

/-- The distance of a known phrase, or that of the least weight. -/
def phraseDistance (u v : WordElement) : ℚ :=
  let pred := inputPred phraseInputCN_ phraseInputJA_ lang (u.word ++ [45] ++ v.word)
  if pred > 0 then 1 / pred else 1 / phraseRangeMin phraseInputCN_ phraseInputJA_ lang

/-- The phrases of the chain, each over the weight of its first word, and the last
word as the first one of an unknown phrase. -/
def sumOfPhrases (sel : List WordElement) : ℚ :=
  ((neighbours sel).map (fun x =>
    phraseDistance phraseInputCN_ phraseInputJA_ lang x.1 x.2 / x.1.weight)).sum +
  (sel.getLast?.map (fun u =>
    1 / phraseRangeMin phraseInputCN_ phraseInputJA_ lang / u.weight)).getD 0

end Definitions

/-! ## The lightest chains decide -/

section Lightest

variable {Bytes : List Str} {hints confuse : List WordElement} {rule : EdgeRule}
  {f : List WordElement → ℚ}

theorem HasChain.edgeChain (hg : GroupOf Bytes hints confuse) (hrule : rule.Total)
    (h : HasChain confuse) : ∃ sel, EdgeChain rule confuse sel := by
  obtain ⟨sel, hmem, htiles⟩ := h
  exact ⟨sel, edgeChain_of_total hg hrule hmem htiles⟩

/-- What is inserted along a path is the chain as it is found again. -/
theorem inserts_iff (h : HintSeq Bytes confuse) {dijkstra : WGraph ℚ → ℕ → ℕ}
    {pick : LabelVertex → WordElement → Bool} {sel : List WordElement} {b t : ℕ}
    (htiles : Tiles WordElement.position WordElement.stop b t sel)
    (hpath : OnPath rule dijkstra hints confuse sel) {Q : List WordElement → Prop}
    (hQ : ∀ l, Q l → Multimap.insertAll WordElement.position l [] = l) :
    (∃ l, Q l ∧ ∀ top, calcPredictionBy rule pick dijkstra hints confuse top =
        some (Multimap.insertAll WordElement.position l top)) ↔
      Q (Multimap.insertAll WordElement.position (found pick confuse sel) []) := by
  constructor
  · rintro ⟨l, hl, hcalc⟩
    have heq := hcalc []
    rw [calcPredictionBy_path h htiles hpath, hQ l hl] at heq
    rw [Option.some.inj heq]
    exact hl
  · intro hfound
    refine ⟨_, hfound, ?_⟩
    intro top
    rw [calcPredictionBy_path h htiles hpath,
      Multimap.insertAll_insertAll _ List.Pairwise.nil]
    rfl

/-- A least chain is inserted for every tree exactly when each lightest chain is
found again as a least one. -/
theorem selectsLeast_iff (hg : GroupOf Bytes hints confuse) (hrule : rule.Total)
    (pick : LabelVertex → WordElement → Bool) :
    SelectsLeast rule (calcPredictionBy rule pick) f hints confuse ↔
      ∀ sel, Lightest rule.weights WordElement.position WordElement.stop (· ∈ confuse)
          (startPos confuse) (posLast confuse) sel →
        LeastChain f confuse
          (Multimap.insertAll WordElement.position (found pick confuse sel) []) := by
  have hQ : ∀ l, LeastChain f confuse l →
      Multimap.insertAll WordElement.position l [] = l :=
    fun l hl => insertAll_chain hl.tiles (hg.hints.positive hl.mem)
  constructor
  · intro hselects sel hlight
    obtain ⟨dijkstra, htree, hpath⟩ := exists_tree_along hg hlight
    obtain ⟨d, hchain, -⟩ := hlight
    exact (inserts_iff hg.hints hchain.tiles hpath hQ).mp
      (hselects dijkstra htree ⟨sel, hchain.mem, hchain.tiles⟩)
  · intro hleast dijkstra htree hchain
    obtain ⟨sel, hpath, hsel⟩ :=
      exists_onPath hg htree.pathTree (hchain.edgeChain hg hrule)
    have hfound := hleast sel (hpath.lightest hg htree)
    exact (inserts_iff hg.hints hsel.tiles hpath hQ).mpr hfound

/-- Looked up by word and position, a chain is found again as it is. -/
theorem inserted_self (h : HintSeq Bytes confuse) {sel : List WordElement} {b t : ℕ}
    (hmem : ∀ e ∈ sel, e ∈ confuse)
    (htiles : Tiles WordElement.position WordElement.stop b t sel) :
    Multimap.insertAll WordElement.position (found byWordAndPosition confuse sel) [] =
      sel := by
  rw [found_self h hmem, insertAll_chain htiles (h.positive hmem)]

/-- Looked up by word, a chain no word of which occurs earlier is found again as it
is. -/
theorem inserted_byWord (h : HintSeq Bytes confuse) {sel : List WordElement} {b t : ℕ}
    (hmem : ∀ e ∈ sel, e ∈ confuse)
    (htiles : Tiles WordElement.position WordElement.stop b t sel)
    (hno : NoEarlier confuse sel) :
    Multimap.insertAll WordElement.position (found byWord confuse sel) [] = sel := by
  rw [← (found_byWord_eq_iff h hmem []).mpr hno, insertAll_chain htiles (h.positive hmem)]

end Lightest

/-! ## Words -/

section Words

variable {Bytes : List Str} {hints confuse : List WordElement}

/-- Along a path, all words but the last are counted on the edges that leave them. -/
theorem wordRule_lengthFrom : ∀ (l : List WordElement) (e : WordElement),
    chainLengthFrom (fun a _ => distance a) (fun _ => 0) e l =
      sumOfDistances (e :: l) - ((e :: l).getLast?.map distance).getD 0
  | [], e => by simp [chainLengthFrom, sumOfDistances]
  | e' :: l, e => by
      have hsum : sumOfDistances (e :: e' :: l) = distance e + sumOfDistances (e' :: l) := by
        simp [sumOfDistances]
      rw [chainLengthFrom, wordRule_lengthFrom l e', hsum, List.getLast?_cons_cons]
      ring

theorem wordRule_length : ∀ sel : List WordElement,
    chainLength wordRule.weights.first (fun a _ => distance a) (fun _ => 0) sel =
      skewedSum sel
  | [] => by simp [chainLength, skewedSum, sumOfDistances]
  | e :: l => by
      have hfirst : wordRule.weights.first e = distance e := rfl
      rw [chainLength, wordRule_lengthFrom, hfirst, skewedSum, List.head?_cons,
        Option.map_some, Option.getD_some]
      ring

/-- The lightest chains of the word graph minimise the skewed sum. -/
theorem lightest_word_iff (hg : GroupOf Bytes hints confuse)
    (hweight : ∀ e ∈ confuse, 0 < e.weight) {sel : List WordElement} :
    Lightest wordRule.weights WordElement.position WordElement.stop (· ∈ confuse)
        (startPos confuse) (posLast confuse) sel ↔ LeastChain skewedSum confuse sel := by
  have hleast : LeastWeights wordRule.weights (· ∈ confuse) (fun a _ => distance a)
      (fun _ => 0) := by
    constructor
    · intro e _ e' _
      exact ⟨rfl, fun w hw => (Option.some.inj hw).le⟩
    · -- of the two parallel edges to the end, the dummy one is lighter
      intro e he
      refine ⟨Or.inr rfl, ?_⟩
      rintro w (hnext | hlast)
      · obtain rfl : 1 / e.weight = w := Option.some.inj hnext
        have hpos := hweight e he
        positivity
      · exact (Option.some.inj hlast).le
  have hlt := hg.hints.startPos_lt_posLast hg.nonempty
  rw [lightest_iff_least hleast hlt.ne, LeastChain, funext wordRule_length]

/-- Every chain that minimises the skewed sum minimises the sum. -/
def SkewHarmless (confuse : List WordElement) : Prop :=
  ∀ sel, LeastChain skewedSum confuse sel → LeastChain sumOfDistances confuse sel

/-- **The selected chain minimises the sum of the distances exactly when the skewed
sum has no other minimum**; for `ZhiZiWord`, whose lookup is by word alone, no word
of such a chain may occur earlier in the group. -/
theorem calcPrediction_least_iff (hg : GroupOf Bytes hints confuse)
    (hweight : ∀ e ∈ confuse, 0 < e.weight) :
    (SelectsLeast wordRule PhoenixWord.calcPrediction sumOfDistances hints confuse ↔
      SkewHarmless confuse) ∧
    (SelectsLeast wordRule ZhiZiWord.calcPrediction sumOfDistances hints confuse ↔
      SkewHarmless confuse ∧
        ∀ sel, LeastChain skewedSum confuse sel → NoEarlier confuse sel) := by
  have hphoenix :=
    selectsLeast_iff (f := sumOfDistances) hg wordRule_total byWordAndPosition
  have hzhizi := selectsLeast_iff (f := sumOfDistances) hg wordRule_total byWord
  simp only [lightest_word_iff hg hweight] at hphoenix hzhizi
  constructor
  · refine hphoenix.trans ⟨?_, ?_⟩
    · intro hleast sel hsel
      have hself := hleast sel hsel
      rwa [inserted_self hg.hints hsel.mem hsel.tiles] at hself
    · intro hharmless sel hsel
      rw [inserted_self hg.hints hsel.mem hsel.tiles]
      exact hharmless sel hsel
  · refine hzhizi.trans ⟨?_, ?_⟩
    · intro hleast
      have hno : ∀ sel, LeastChain skewedSum confuse sel → NoEarlier confuse sel :=
        fun sel hsel => noEarlier_of_tiles hg.hints hsel.mem hsel.tiles
          (hleast sel hsel).tiles le_rfl
      refine ⟨?_, hno⟩
      intro sel hsel
      have hself := hleast sel hsel
      rwa [inserted_byWord hg.hints hsel.mem hsel.tiles (hno sel hsel)] at hself
    · rintro ⟨hharmless, hno⟩ sel hsel
      rw [inserted_byWord hg.hints hsel.mem hsel.tiles (hno sel hsel)]
      exact hharmless sel hsel

/-! ### The pair of known characters, and one with unequal weights

The chains of the group of two characters are the pair and the two characters one
after the other. -/

theorem pair_chains {a b ab : WordElement}
    (ha : a.position = 0 ∧ a.stop = 3) (hab : ab.position = 0 ∧ ab.stop = 6)
    (hb : b.position = 3 ∧ b.stop = 6) {sel : List WordElement}
    (hmem : ∀ e ∈ sel, e ∈ [a, ab, b])
    (htiles : Tiles WordElement.position WordElement.stop 0 6 sel) :
    sel = [ab] ∨ sel = [a, b] := by
  -- nothing of the group starts at the end
  have hend : ∀ {l : List WordElement}, (∀ e ∈ l, e ∈ [a, ab, b]) →
      Tiles WordElement.position WordElement.stop 6 6 l → l = [] := by
    intro l hl h
    cases h with
    | nil => rfl
    | @cons _ _ e _ hs _ =>
        rcases (by simpa using hl e List.mem_cons_self : e = a ∨ e = ab ∨ e = b) with
          rfl | rfl | rfl <;> omega
  cases htiles with
  | @cons _ _ e l hs hrest =>
      have hl : ∀ x ∈ l, x ∈ [a, ab, b] := fun x hx => hmem x (List.mem_cons_of_mem _ hx)
      rcases (by simpa using hmem e List.mem_cons_self : e = a ∨ e = ab ∨ e = b) with
        rfl | rfl | rfl
      · rw [ha.2] at hrest
        cases hrest with
        | @cons _ _ e' l hs' hrest =>
            rcases (by simpa using hl e' List.mem_cons_self :
              e' = e ∨ e' = ab ∨ e' = b) with rfl | rfl | rfl
            · omega
            · omega
            · rw [hb.2] at hrest
              rw [hend (fun x hx => hl x (List.mem_cons_of_mem _ hx)) hrest]
              exact Or.inr rfl
      · rw [hab.2] at hrest
        rw [hend hl hrest]
        exact Or.inl rfl
      · omega

/-- The pair is lighter than the two characters, however often they are counted. -/
theorem pair_harmless : SkewHarmless pairGroup := by
  intro sel hsel
  have hchains : ∀ l : List WordElement, (∀ e ∈ l, e ∈ pairGroup) →
      Tiles WordElement.position WordElement.stop (startPos pairGroup) (posLast pairGroup)
        l → l = (pairGroup.drop 1).take 1 ∨ l = [pairGroup[0], pairGroup[2]] :=
    fun l hl ht => pair_chains (by decide) (by decide) (by decide) hl ht
  have hpair := hsel.le ((pairGroup.drop 1).take 1) (by with_unfolding_all decide)
    (.cons rfl (.nil _))
  rcases hchains sel hsel.mem hsel.tiles with rfl | rfl
  · refine ⟨hsel.mem, hsel.tiles, ?_⟩
    intro sel' hmem' htiles'
    rcases hchains sel' hmem' htiles' with rfl | rfl
    · exact le_rfl
    · with_unfolding_all decide
  · exact absurd hpair (by with_unfolding_all decide)

theorem calcPrediction_least_pair :
    SelectsLeast wordRule PhoenixWord.calcPrediction sumOfDistances pairState.wordHintSeq_
        pairGroup ∧
    SelectsLeast wordRule ZhiZiWord.calcPrediction sumOfDistances pairState.wordHintSeq_
        pairGroup := by
  have hleast := calcPrediction_least_iff pair_group (by with_unfolding_all decide)
  refine ⟨hleast.1.mpr pair_harmless, hleast.2.mpr ⟨pair_harmless, ?_⟩⟩
  intro sel hsel e he
  have hgroup : ∀ e ∈ pairGroup, ∀ y ∈ pairGroup, y.word = e.word →
      e.position ≤ y.position := by
    decide
  exact hgroup e (hsel.mem e he)

/-- The first character is the heaviest, the pair is rare. -/
def skewDictionary : Dictionary where
  getDoublePred := fun w =>
    if w = charX then 1 / 2 else if w = charY then 1 / 4
    else if w = charX ++ charY then 1 / 20480 else -1
  getRangeMin := 1 / 20480

def skewGroup : List WordElement :=
  [WordElement.make charX 0 (1 / 2) (1 / 2),
   WordElement.make (charX ++ charY) 0 (1 / 5) (1 / 20480),
   WordElement.make charY 3 (1 / 4) (1 / 4)]

def skewState : SegmentState where
  statisticsMinWordSize_ := 3
  wordHintSeq_ := [WordElement.make charX 0 (1 / 2) (1 / 2),
    WordElement.make (charX ++ charY) 0 (1 / 20480) (1 / 20480),
    WordElement.make charY 3 (1 / 4) (1 / 4)]
  wordAdjustedSeq_ := skewGroup
  noConflictWordSeq_ := [skewGroup]
  wordSeqTopSelected_ := []

theorem skew_prepare : prepare natPow (inputPred skewDictionary (halfDictionary []) .cn)
    [charX, charY] (charX ++ charY) = some skewState := by
  with_unfolding_all decide

/-- The way back is the end, the second character, the first character. -/
def skewParents (_ : WGraph ℚ) (v : ℕ) : ℕ := [0, 0, 0, 1, 3].getD v 0

theorem skew_tree : ShortestPathTree (buildGraph wordRule skewState.wordHintSeq_ skewGroup)
    vrtxStart (skewParents (buildGraph wordRule skewState.wordHintSeq_ skewGroup)) := by
  apply tree_of_labels (fun v => [0, 2, 5, 4, 4].getD v 0)
  · rfl
  · with_unfolding_all decide
  · with_unfolding_all decide

/-- The distances are 2, 5 and 4. The pair alone has the smaller sum, 5 against 6,
but the two characters are measured as twice the first one. -/
theorem rare_pair_not_selected :
    CtrlClaw.Emits [charX, charY] (charX ++ charY) ∧
    prepare natPow (inputPred skewDictionary (halfDictionary []) .cn)
      [charX, charY] (charX ++ charY) = some skewState ∧
    skewGroup ∈ skewState.noConflictWordSeq_ ∧ (∀ e ∈ skewGroup, 0 < e.weight) ∧
    ¬ SelectsLeast wordRule PhoenixWord.calcPrediction sumOfDistances
      skewState.wordHintSeq_ skewGroup ∧
    ¬ SelectsLeast wordRule ZhiZiWord.calcPrediction sumOfDistances
      skewState.wordHintSeq_ skewGroup := by
  have hpair : HasChain skewGroup :=
    ⟨(skewGroup.drop 1).take 1, by with_unfolding_all decide, .cons rfl (.nil _)⟩
  -- what is inserted is the two characters, and their sum is not the least
  have hsum : ∀ sel, Multimap.insertAll WordElement.position sel [] =
      [skewGroup[0], skewGroup[2]] → ¬ LeastChain sumOfDistances skewGroup sel := by
    intro sel heq hleast
    have hperm : (Multimap.insertAll WordElement.position sel []).Perm ([] ++ sel) :=
      Multimap.insertAll_perm _ _
    have hsum : sumOfDistances [skewGroup[0], skewGroup[2]] = sumOfDistances sel := by
      rw [heq] at hperm
      exact (hperm.map distance).sum_eq
    have hle := hleast.le ((skewGroup.drop 1).take 1) (by with_unfolding_all decide) (.cons rfl (.nil _))
    rw [← hsum] at hle
    exact absurd hle (by with_unfolding_all decide)
  refine ⟨pair_emits, skew_prepare, List.mem_singleton.mpr rfl, by with_unfolding_all decide, ?_, ?_⟩
  · intro hselects
    obtain ⟨sel, hleast, hcalc⟩ := hselects skewParents skew_tree hpair
    have hphoenix : PhoenixWord.calcPrediction skewParents skewState.wordHintSeq_ skewGroup
        [] = some [skewGroup[0], skewGroup[2]] := by
      with_unfolding_all decide
    exact hsum sel (Option.some.inj ((hcalc []).symm.trans hphoenix)) hleast
  · intro hselects
    obtain ⟨sel, hleast, hcalc⟩ := hselects skewParents skew_tree hpair
    have hzhizi : ZhiZiWord.calcPrediction skewParents skewState.wordHintSeq_ skewGroup
        [] = some [skewGroup[0], skewGroup[2]] := by
      with_unfolding_all decide
    exact hsum sel (Option.some.inj ((hcalc []).symm.trans hzhizi)) hleast

end Words

/-! ## Phrases -/

section Phrases

variable {Bytes : List Str} {hints confuse : List WordElement}
  (phraseInputCN_ phraseInputJA_ : Dictionary) (lang : Lang)

/-- The weight of the edge from a word to the next. -/
def phraseEdge (u v : WordElement) : ℚ :=
  phraseDistance phraseInputCN_ phraseInputJA_ lang u v / u.weight

/-- The weight of the edge from a word to the end. -/
def phraseEnd (u : WordElement) : ℚ :=
  1 / phraseRangeMin phraseInputCN_ phraseInputJA_ lang / u.weight

theorem phraseRule_lengthFrom : ∀ (l : List WordElement) (e : WordElement),
    chainLengthFrom (phraseEdge phraseInputCN_ phraseInputJA_ lang)
        (phraseEnd phraseInputCN_ phraseInputJA_ lang) e l =
      sumOfPhrases phraseInputCN_ phraseInputJA_ lang (e :: l)
  | [], e => by simp [chainLengthFrom, phraseEnd, sumOfPhrases, neighbours]
  | e' :: l, e => by
      have hcons : neighbours (e :: e' :: l) = (e, e') :: neighbours (e' :: l) := rfl
      rw [chainLengthFrom, phraseRule_lengthFrom l e', phraseEdge, sumOfPhrases,
        sumOfPhrases, hcons, List.map_cons, List.sum_cons, List.getLast?_cons_cons]
      ring

theorem phraseRule_length : ∀ sel : List WordElement,
    chainLength (phraseRule phraseInputCN_ phraseInputJA_ lang).weights.first
        (phraseEdge phraseInputCN_ phraseInputJA_ lang)
        (phraseEnd phraseInputCN_ phraseInputJA_ lang) sel =
      sumOfPhrases phraseInputCN_ phraseInputJA_ lang sel
  | [] => by simp [chainLength, sumOfPhrases, neighbours]
  | e :: l => by
      have hfirst : (phraseRule phraseInputCN_ phraseInputJA_ lang).weights.first e = 0 :=
        rfl
      rw [chainLength, hfirst, zero_add, phraseRule_lengthFrom]

variable {phraseInputCN_ phraseInputJA_ lang}

theorem lightest_phrase_iff (hg : GroupOf Bytes hints confuse)
    (hmin : 0 < phraseRangeMin phraseInputCN_ phraseInputJA_ lang)
    {sel : List WordElement} :
    Lightest (phraseRule phraseInputCN_ phraseInputJA_ lang).weights WordElement.position
        WordElement.stop (· ∈ confuse) (startPos confuse) (posLast confuse) sel ↔
      LeastChain (sumOfPhrases phraseInputCN_ phraseInputJA_ lang) confuse sel := by
  have hnotFound := notFoundWeight_of_pos hmin
  have hleast : LeastWeights (phraseRule phraseInputCN_ phraseInputJA_ lang).weights
      (· ∈ confuse) (phraseEdge phraseInputCN_ phraseInputJA_ lang)
      (phraseEnd phraseInputCN_ phraseInputJA_ lang) := by
    constructor
    · intro e _ e' he'
      have hedge : (phraseRule phraseInputCN_ phraseInputJA_ lang).next e.word e.weight
          e'.word = some (phraseEdge phraseInputCN_ phraseInputJA_ lang e e') := by
        simp only [phraseRule, if_neg (hg.word_ne_labelE he'), hnotFound, phraseEdge,
          phraseDistance]
        split
        · rfl
        · rfl
      refine ⟨hedge, ?_⟩
      intro w hw
      exact (Option.some.inj (hedge.symm.trans hw)).le
    · -- no edge but the dummy one leads to the end
      intro e _
      have hend : (phraseRule phraseInputCN_ phraseInputJA_ lang).last e.weight =
          some (phraseEnd phraseInputCN_ phraseInputJA_ lang e) := by
        simp [phraseRule, hnotFound, phraseEnd]
      refine ⟨Or.inr hend, ?_⟩
      rintro w (hnext | hlast)
      · simp [phraseRule] at hnext
      · exact (Option.some.inj (hend.symm.trans hlast)).le
  have hlt := hg.hints.startPos_lt_posLast hg.nonempty
  rw [lightest_iff_least hleast hlt.ne, LeastChain, funext (phraseRule_length _ _ _)]

/-- **The chain that `calcPredictionPhrase` selects minimises the sum of the phrase
distances.** -/
theorem calcPredictionPhrase_least (hg : GroupOf Bytes hints confuse)
    (hmin : 0 < phraseRangeMin phraseInputCN_ phraseInputJA_ lang) :
    SelectsLeast (phraseRule phraseInputCN_ phraseInputJA_ lang)
      (ZhiZiWord.calcPredictionPhrase phraseInputCN_ phraseInputJA_ lang)
      (sumOfPhrases phraseInputCN_ phraseInputJA_ lang) hints confuse := by
  apply (selectsLeast_iff hg (phraseRule_total hmin) _).mpr
  intro sel hlight
  have hsel := (lightest_phrase_iff hg hmin).mp hlight
  rw [inserted_self hg.hints hsel.mem hsel.tiles]
  exact hsel

/-- No phrase is known. One pair and no phrase is a shorter way than two words. -/
theorem calcPredictionPhrase_least_pair :
    ∃ sel, LeastChain (sumOfPhrases (halfDictionary []) (halfDictionary []) .cn) pairGroup
        sel ∧
      ∀ top, ZhiZiWord.calcPredictionPhrase (halfDictionary []) (halfDictionary []) .cn
          pairParents pairState.wordHintSeq_ pairGroup top =
        some (Multimap.insertAll WordElement.position sel top) :=
  calcPredictionPhrase_least pair_group (by with_unfolding_all decide) pairParents
    pair_phrase_tree ⟨(pairGroup.drop 1).take 1, by with_unfolding_all decide, .cons rfl (.nil _)⟩

end Phrases

end WaiNative

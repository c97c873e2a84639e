import WaiNative.Segment.Conflicts
import WaiNative.Segment.Distances

/-!
# Where the end vertex stands

The end vertex of a word graph stands at the end of the element that comes last in
map order, which need not be the end of the group: a word may lie inside an earlier
one. A group whose words can be tiled is predicted in full where the two are the
same, by `ZhiZiWord::calcPrediction` only if the lookup by word moves no word of the
path, and by `ZhiZiWord::calcPredictionPhrase` only if the least weight of the phrases
is positive: otherwise the edges to the end are infinite.
-/

namespace WaiNative

open Cxx ShortestPath ChainGraph Tiling

section Definitions

/-- The largest position plus range of the group's elements. -/
def groupEnd (confuse : List WordElement) : ℕ := furthest WordElement.stop confuse

/-- Elements of the group that tile it from end to end. -/
def Covering (confuse sel : List WordElement) : Prop :=
  (∀ e ∈ sel, e ∈ confuse) ∧
    Tiles WordElement.position WordElement.stop (startPos confuse) (groupEnd confuse) sel

/-- A chain of the group from its start to the end vertex. -/
def ToTheEnd (confuse sel : List WordElement) : Prop :=
  (∀ e ∈ sel, e ∈ confuse) ∧
    Tiles WordElement.position WordElement.stop (startPos confuse) (posLast confuse) sel

/-- Whatever paths Boost's parents lead back along, the exit without a path is not taken
and the inserted elements tile the group. -/
def SelectsCovering (rule : EdgeRule)
    (calcPrediction : (dijkstra : WGraph ℚ → ℕ → ℕ) →
      (wordHintSeq_ confuse wordSeqTopSelected_ : List WordElement) →
      Option (List WordElement))
    (wordHintSeq_ confuse : List WordElement) : Prop :=
  ∀ dijkstra, PathTree (buildGraph rule wordHintSeq_ confuse) vrtxStart
      (dijkstra (buildGraph rule wordHintSeq_ confuse)) →
    dijkstra (buildGraph rule wordHintSeq_ confuse) (vrtxEnd confuse) ≠ vrtxEnd confuse ∧
    ∃ sel, Covering confuse sel ∧ ∀ top,
      calcPrediction dijkstra wordHintSeq_ confuse top =
        some (Multimap.insertAll WordElement.position sel top)

/-- No other word of the group reaches further than the one that starts last. -/
def LastReachesFurthest (confuse : List WordElement) : Prop :=
  posLast confuse = groupEnd confuse

end Definitions

section Group

variable {Bytes : List Str} {hints confuse : List WordElement} {rule : EdgeRule}

theorem stop_le_groupEnd {e : WordElement} (he : e ∈ confuse) : e.stop ≤ groupEnd confuse := by
  by_contra hlt
  have hself : groupEnd confuse < groupEnd confuse :=
    lt_furthest.mpr ⟨e, he, not_le.mp hlt⟩
  exact lt_irrefl _ hself

theorem posLast_le_groupEnd (hne : confuse ≠ []) : posLast confuse ≤ groupEnd confuse := by
  obtain ⟨l, e, rfl⟩ := (List.eq_nil_or_concat' confuse).resolve_left hne
  rw [posLast_append_singleton]
  exact stop_le_groupEnd (by simp)

/-- If the way from the start to the end is not missing, the group has a chain. -/
theorem edgeChain_of_parent_ne (hg : GroupOf Bytes hints confuse)
    {dijkstra : WGraph ℚ → ℕ → ℕ}
    (htree : PathTree (buildGraph rule hints confuse) vrtxStart
      (dijkstra (buildGraph rule hints confuse)))
    (hne : dijkstra (buildGraph rule hints confuse) (vrtxEnd confuse) ≠ vrtxEnd confuse) :
    ∃ sel, EdgeChain rule confuse sel := by
  rw [vrtxEnd_eq hg.hints] at hne
  rw [← reached_iff_edgeChain hg]
  by_contra hn
  exact hne (htree.unreached _ (end_lt_num_vertices hg) hn)

/-- The group is tiled for every tree exactly when it has a chain to the end vertex
and each one is found again as a tiling. -/
theorem selectsCovering_iff (hg : GroupOf Bytes hints confuse)
    (pick : LabelVertex → WordElement → Bool) :
    SelectsCovering rule (calcPredictionBy rule pick) hints confuse ↔
      (∃ sel, EdgeChain rule confuse sel) ∧
        ∀ sel, EdgeChain rule confuse sel → Covering confuse
          (Multimap.insertAll WordElement.position (found pick confuse sel) []) := by
  have hQ : ∀ l, Covering confuse l → Multimap.insertAll WordElement.position l [] = l :=
    fun l hl => insertAll_chain hl.2 (hg.hints.positive hl.1)
  constructor
  · intro hselects
    constructor
    · obtain ⟨dijkstra, hback⟩ := exists_leadsBack (W := ℚ) vrtxStart
      have htree := hback (buildGraph rule hints confuse) (buildGraph_forward hg)
      exact edgeChain_of_parent_ne hg htree (hselects dijkstra htree).1
    · intro sel hsel
      obtain ⟨dijkstra, hback, hpath⟩ := exists_pathTree_along hg hsel
      exact (inserts_iff hg.hints hsel.tiles hpath hQ).mp
        (hselects dijkstra (hback _ (buildGraph_forward hg))).2
  · rintro ⟨hchain, hcovering⟩ dijkstra htree
    obtain ⟨sel, hpath, hsel⟩ := exists_onPath hg htree hchain
    refine ⟨?_, (inserts_iff hg.hints hsel.tiles hpath hQ).mpr (hcovering sel hsel)⟩
    obtain ⟨ids, -, hfollows⟩ := hpath
    rw [vrtxEnd_eq hg.hints]
    exact hfollows.parent_ne (Nat.succ_ne_zero _)

theorem selectsCovering_hasChain (hg : GroupOf Bytes hints confuse)
    {pick : LabelVertex → WordElement → Bool}
    (h : SelectsCovering rule (calcPredictionBy rule pick) hints confuse) :
    HasChain confuse := by
  obtain ⟨⟨sel, hsel⟩, -⟩ := (selectsCovering_iff hg pick).mp h
  exact ⟨sel, hsel.mem, hsel.tiles⟩

/-- By word and position: the end vertex must stand at the end of the group. -/
theorem selectsCovering_byPosition (hg : GroupOf Bytes hints confuse) (hrule : rule.Total)
    (htileable : ∃ sel, Covering confuse sel) :
    SelectsCovering rule (calcPredictionBy rule byWordAndPosition) hints confuse ↔
      LastReachesFurthest confuse := by
  rw [selectsCovering_iff hg]
  constructor
  · rintro ⟨⟨sel, hsel⟩, hcovering⟩
    have hfound := hcovering sel hsel
    rw [inserted_self hg.hints hsel.mem hsel.tiles] at hfound
    exact hsel.tiles.stop_unique hfound.2
  · intro hends
    rw [LastReachesFurthest] at hends
    obtain ⟨sel, hmem, htiles⟩ := htileable
    refine ⟨⟨sel, edgeChain_of_total hg hrule hmem (hends ▸ htiles)⟩, ?_⟩
    intro sel hsel
    rw [inserted_self hg.hints hsel.mem hsel.tiles]
    exact ⟨hsel.mem, hends ▸ hsel.tiles⟩

/-- Where the lookup by word moves no word of a chain, looking up the position too
changes nothing. -/
theorem selectsCovering_byWord_iff (hg : GroupOf Bytes hints confuse)
    (hno : ∀ sel, EdgeChain rule confuse sel → NoEarlier confuse sel) :
    SelectsCovering rule (calcPredictionBy rule byWord) hints confuse ↔
      SelectsCovering rule (calcPredictionBy rule byWordAndPosition) hints confuse := by
  rw [selectsCovering_iff hg, selectsCovering_iff hg]
  apply and_congr_right
  intro _
  apply forall_congr'
  intro sel
  apply imp_congr_right
  intro hsel
  rw [inserted_self hg.hints hsel.mem hsel.tiles,
    inserted_byWord hg.hints hsel.mem hsel.tiles (hno sel hsel)]

theorem edgeChain_iff_toTheEnd (hg : GroupOf Bytes hints confuse) (hrule : rule.Total)
    {sel : List WordElement} : EdgeChain rule confuse sel ↔ ToTheEnd confuse sel := by
  constructor
  · intro h
    exact ⟨h.mem, h.tiles⟩
  · rintro ⟨hmem, htiles⟩
    exact edgeChain_of_total hg hrule hmem htiles

/-- By word alone: no word of a chain may be moved either. -/
theorem selectsCovering_byWord (hg : GroupOf Bytes hints confuse) (hrule : rule.Total)
    (htileable : ∃ sel, Covering confuse sel) :
    SelectsCovering rule (calcPredictionBy rule byWord) hints confuse ↔
      LastReachesFurthest confuse ∧ ∀ sel, ToTheEnd confuse sel → NoEarlier confuse sel := by
  have hle := posLast_le_groupEnd hg.nonempty
  simp only [← edgeChain_iff_toTheEnd hg hrule]
  constructor
  · intro hselects
    have hcovering := (selectsCovering_iff hg _).mp hselects
    have hno : ∀ sel, EdgeChain rule confuse sel → NoEarlier confuse sel := by
      intro sel hsel
      exact noEarlier_of_tiles hg.hints hsel.mem hsel.tiles (hcovering.2 sel hsel).2 hle
    refine ⟨?_, hno⟩
    exact (selectsCovering_byPosition hg hrule htileable).mp
      ((selectsCovering_byWord_iff hg hno).mp hselects)
  · rintro ⟨hends, hno⟩
    exact (selectsCovering_byWord_iff hg hno).mpr
      ((selectsCovering_byPosition hg hrule htileable).mpr hends)

/-- By phrases: the edges to the end must be finite too. -/
theorem selectsCovering_phrase (hg : GroupOf Bytes hints confuse)
    (phraseInputCN_ phraseInputJA_ : Dictionary) (lang : Lang)
    (htileable : ∃ sel, Covering confuse sel) :
    SelectsCovering (phraseRule phraseInputCN_ phraseInputJA_ lang)
        (ZhiZiWord.calcPredictionPhrase phraseInputCN_ phraseInputJA_ lang) hints confuse ↔
      0 < phraseRangeMin phraseInputCN_ phraseInputJA_ lang ∧
        LastReachesFurthest confuse := by
  by_cases hmin : 0 < phraseRangeMin phraseInputCN_ phraseInputJA_ lang
  · rw [and_iff_right hmin]
    exact selectsCovering_byPosition hg (phraseRule_total hmin) htileable
  · -- without an edge to the end there is no chain along edges
    constructor
    · intro hselects
      obtain ⟨⟨sel, hsel⟩, -⟩ := (selectsCovering_iff hg byWordAndPosition).mp hselects
      exact absurd hsel (not_edgeChain (phraseRule_last hmin) sel)
    · rintro ⟨hpos, -⟩
      exact absurd hpos hmin

/-- **A group that can be tiled is predicted in full exactly when the word that comes
last reaches furthest**; by `ZhiZiWord::calcPrediction`, exactly when moreover no word
of a chain to the end vertex occurs earlier in the group, and by `calcPredictionPhrase`
when moreover the least weight of the phrases is positive. -/
theorem tileable_selected_iff (hg : GroupOf Bytes hints confuse)
    (phraseInputCN_ phraseInputJA_ : Dictionary) (lang : Lang)
    (htileable : ∃ sel, Covering confuse sel) :
    (SelectsCovering wordRule PhoenixWord.calcPrediction hints confuse ↔
      LastReachesFurthest confuse) ∧
    (SelectsCovering wordRule ZhiZiWord.calcPrediction hints confuse ↔
      LastReachesFurthest confuse ∧
        ∀ sel, ToTheEnd confuse sel → NoEarlier confuse sel) ∧
    (SelectsCovering (phraseRule phraseInputCN_ phraseInputJA_ lang)
        (ZhiZiWord.calcPredictionPhrase phraseInputCN_ phraseInputJA_ lang) hints confuse ↔
      0 < phraseRangeMin phraseInputCN_ phraseInputJA_ lang ∧
        LastReachesFurthest confuse) :=
  ⟨selectsCovering_byPosition hg wordRule_total htileable,
    selectsCovering_byWord hg wordRule_total htileable,
    selectsCovering_phrase hg phraseInputCN_ phraseInputJA_ lang htileable⟩

end Group

/-! ## The pair of known characters, and a word inside another -/

section Examples

theorem pair_selected_in_full :
    SelectsCovering wordRule PhoenixWord.calcPrediction pairState.wordHintSeq_ pairGroup ∧
    SelectsCovering wordRule ZhiZiWord.calcPrediction pairState.wordHintSeq_ pairGroup ∧
    SelectsCovering pairPhraseRule
      (ZhiZiWord.calcPredictionPhrase (halfDictionary []) (halfDictionary []) .cn)
      pairState.wordHintSeq_ pairGroup := by
  have hends : LastReachesFurthest pairGroup := by
    rw [LastReachesFurthest]
    decide
  have hselected := tileable_selected_iff pair_group (halfDictionary []) (halfDictionary [])
    .cn ⟨(pairGroup.drop 1).take 1, by with_unfolding_all decide, .cons rfl (.nil _)⟩
  refine ⟨hselected.1.mpr hends, hselected.2.1.mpr ⟨hends, ?_⟩,
    hselected.2.2.mpr ⟨by with_unfolding_all decide, hends⟩⟩
  rintro sel ⟨hmem, -⟩ e he
  have hgroup : ∀ e ∈ pairGroup, ∀ y ∈ pairGroup, y.word = e.word →
      e.position ≤ y.position := by
    decide
  exact hgroup e (hmem e he)

def nestBytes : List Str := [charX, charY, [228, 184, 128]]

/-- The dictionary knows the whole text and its second character. -/
def nestDictionary : Dictionary := halfDictionary [nestBytes.flatten, charY]

def nestGroup : List WordElement :=
  [WordElement.make nestBytes.flatten 0 8388608 (1 / 2),
   WordElement.make charY 3 (1 / 2) (1 / 2)]

def nestState : SegmentState where
  statisticsMinWordSize_ := 3
  wordHintSeq_ := [WordElement.make nestBytes.flatten 0 (1 / 2) (1 / 2),
    WordElement.make charY 3 (1 / 2) (1 / 2)]
  wordAdjustedSeq_ := nestGroup
  noConflictWordSeq_ := [nestGroup]
  wordSeqTopSelected_ := []

theorem nest_emits : CtrlClaw.Emits nestBytes nestBytes.flatten := by
  have hchars : characters nestBytes.flatten = nestBytes := by with_unfolding_all decide
  have hne : nestBytes.flatten ≠ [] := by decide
  have hemits := CtrlClaw.emits_of_ordinary hne (by rw [hchars]; decide)
  rwa [hchars] at hemits

theorem nest_prepare : prepare natPow (inputPred nestDictionary (halfDictionary []) .cn)
    nestBytes nestBytes.flatten = some nestState := by
  with_unfolding_all decide

theorem nest_group : GroupOf nestBytes nestState.wordHintSeq_ nestGroup := by
  obtain ⟨st, hst, hprep, -⟩ := prepare_eq natPow
    (inputPred nestDictionary (halfDictionary []) .cn) nest_emits.run
  obtain rfl := Option.some.inj (nest_prepare.symm.trans hst)
  exact hprep.group nest_emits.run (List.mem_singleton.mpr rfl)

/-- No word of the group leads from its start to the end of the inner word. -/
theorem nest_no_chain : ¬ HasChain nestGroup :=
  not_hasChain_of_dead_end (by decide : 0 ≠ 6) (by decide : 9 ≠ 6) (by decide) (by decide)

/-- The outer word tiles the group, yet there is no path to the end vertex, which
stands behind the inner one. -/
theorem covered_group_not_selected :
    CtrlClaw.Emits nestBytes nestBytes.flatten ∧
    prepare natPow (inputPred nestDictionary (halfDictionary []) .cn) nestBytes
      nestBytes.flatten = some nestState ∧
    nestGroup ∈ nestState.noConflictWordSeq_ ∧ (∃ sel, Covering nestGroup sel) ∧
    ¬ SelectsCovering wordRule PhoenixWord.calcPrediction nestState.wordHintSeq_
      nestGroup ∧
    ¬ SelectsCovering wordRule ZhiZiWord.calcPrediction nestState.wordHintSeq_ nestGroup ∧
    ¬ SelectsCovering pairPhraseRule
      (ZhiZiWord.calcPredictionPhrase (halfDictionary []) (halfDictionary []) .cn)
      nestState.wordHintSeq_ nestGroup := by
  have hcovering : Covering nestGroup (nestGroup.take 1) :=
    ⟨by with_unfolding_all decide, .cons rfl (.nil _)⟩
  refine ⟨nest_emits, nest_prepare, List.mem_singleton.mpr rfl, ⟨_, hcovering⟩, ?_, ?_, ?_⟩
  · intro hselects
    exact nest_no_chain (selectsCovering_hasChain nest_group hselects)
  · intro hselects
    exact nest_no_chain (selectsCovering_hasChain nest_group hselects)
  · intro hselects
    exact nest_no_chain (selectsCovering_hasChain nest_group hselects)

end Examples

end WaiNative

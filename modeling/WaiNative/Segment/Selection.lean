import WaiNative.Segment.Segmenters
import Mathlib.Algebra.Field.Rat

/-!
# The selected words

What `wordSeqTopSelected_` holds after a run has been cut or learned by a
segmenter that looks its path up by word and position (`PhoenixWord`, and
`ZhiZiWord::cut` for Chinese): words of the text in strictly increasing
position that do not overlap, and in each conflict group either nothing or a
gap-free chain from the group's first position to the end of its last element.

The groups are apart, so the words of the whole run that lie in one group are
that group's picks (`filter_group`).
-/

namespace WaiNative

open Cxx ShortestPath ChainGraph Tiling

/-- What the segmenter's state says about the selected words. -/
structure Selection (text : Str) (st : SegmentState) : Prop where
  increasing : st.wordSeqTopSelected_.Pairwise (fun e e' => e.position < e'.position)
  disjoint : st.wordSeqTopSelected_.Pairwise
    (fun e e' => e.position + e.range ≤ e'.position)
  word_eq : ∀ e ∈ st.wordSeqTopSelected_,
    substr text e.position e.range = some e.word
  grouped : ∀ e ∈ st.wordSeqTopSelected_, ∃ c ∈ st.noConflictWordSeq_, e ∈ c
  chain : ∀ c ∈ st.noConflictWordSeq_,
    st.wordSeqTopSelected_.filter (· ∈ c) = [] ∨
      Tiles WordElement.position WordElement.stop (startPos c) (posLast c)
        (st.wordSeqTopSelected_.filter (· ∈ c))

section Picks

variable {Bytes : List Str} {rule : EdgeRule} {dijkstra : WGraph ℚ → ℕ → ℕ}
  {hints : List WordElement}

/-- The elements of a chain are inserted in order. -/
theorem insertAll_chain {sel : List WordElement} {b t : ℕ}
    (htiles : Tiles WordElement.position WordElement.stop b t sel)
    (hpos : Positive WordElement.position WordElement.stop sel) :
    Multimap.insertAll WordElement.position sel [] = sel := by
  rw [Multimap.insertAll_sorted]
  · rfl
  · apply List.Pairwise.imp_of_mem _ (htiles.ordered hpos)
    intro e e' he _ hle
    exact (hpos e he).le.trans hle

/-- By word and position, a group's picks are a chain of it or nothing. -/
theorem PickOf.tiles {confuse picked : List WordElement} (h : HintSeq Bytes confuse)
    (hpick : PickOf rule byWordAndPosition dijkstra hints confuse picked) :
    picked = [] ∨ Tiles WordElement.position WordElement.stop (startPos confuse)
      (posLast confuse) picked := by
  rcases hpick with ⟨sel, -, hchain, rfl⟩ | ⟨-, rfl⟩
  · right
    rw [found_self h hchain.mem, insertAll_chain hchain.tiles (h.positive hchain.mem)]
    exact hchain.tiles
  · exact Or.inl rfl

/-- No word lies in two groups. -/
theorem GoodGroups.notMem {c : List WordElement} {gs : List (List WordElement)}
    (h : GoodGroups (c :: gs)) (hrange : ∀ e ∈ c, 0 < e.range) {e : WordElement}
    (he : e ∈ c) : ∀ c' ∈ gs, e ∉ c' := by
  intro c' hc' he'
  have hapart := (List.pairwise_cons.mp h.apart).1 c' hc' e he e he'
  have hpos := hrange e he
  rw [WordElement.stop] at hapart
  omega

/-- The words of the whole run that lie in a group are the group's own picks. -/
theorem filter_group : ∀ {gs picks : List (List WordElement)}
    (pre : List WordElement), GoodGroups gs → (∀ c ∈ gs, ∀ e ∈ c, 0 < e.range) →
    List.Forall₂ (fun c picked => ∀ e ∈ picked, e ∈ c) gs picks →
    (∀ e ∈ pre, ∀ c ∈ gs, e ∉ c) →
    List.Forall₂ (fun c picked => (pre ++ picks.flatten).filter (· ∈ c) = picked)
      gs picks
  | [], [], _, _, _, _, _ => List.Forall₂.nil
  | c :: gs, picked :: picks, pre, hgood, hrange, hmem, hpre => by
      obtain ⟨hpicked, hpicks⟩ := List.forall₂_cons.mp hmem
      have hrange' : ∀ d ∈ gs, ∀ e ∈ d, 0 < e.range :=
        fun d hd => hrange d (List.mem_cons_of_mem _ hd)
      have hother : ∀ e ∈ c, ∀ d ∈ gs, e ∉ d := fun e he =>
        hgood.notMem (hrange c List.mem_cons_self) he
      have hlater : ∀ e ∈ picks.flatten, e ∉ c := by
        intro e he hec
        obtain ⟨l, hl, hel⟩ := List.mem_flatten.mp he
        obtain ⟨d, hd, hld⟩ := exists_of_mem_right hpicks hl
        exact hother e hec d hd (hld e hel)
      refine List.Forall₂.cons ?_ ?_
      · have h₁ : pre.filter (· ∈ c) = [] :=
          List.filter_eq_nil_iff.mpr (fun e he => by
            simpa using hpre e he c List.mem_cons_self)
        have h₂ : picked.filter (· ∈ c) = picked :=
          List.filter_eq_self.mpr (fun e he => by simpa using hpicked e he)
        have h₃ : picks.flatten.filter (· ∈ c) = [] :=
          List.filter_eq_nil_iff.mpr (fun e he => by simpa using hlater e he)
        rw [List.flatten_cons, List.filter_append, List.filter_append, h₁, h₂, h₃]
        simp
      · have hpre' : ∀ e ∈ pre ++ picked, ∀ d ∈ gs, e ∉ d := by
          intro e he d hd
          rcases List.mem_append.mp he with he | he
          · exact hpre e he d (List.mem_cons_of_mem _ hd)
          · exact hother e (hpicked e he) d hd
        simpa using filter_group (pre ++ picked) hgood.tail hrange' hpicks hpre'

/-- Picks of groups that are apart keep apart. -/
theorem picks_apart {gs picks : List (List WordElement)} (hgood : GoodGroups gs)
    (hmem : List.Forall₂ (fun c picked => ∀ e ∈ picked, e ∈ c) gs picks) :
    picks.Pairwise (fun l l' => ∀ e ∈ l, ∀ e' ∈ l', e.stop ≤ e'.position) := by
  have hpair := hgood.apart
  clear hgood
  induction hmem with
  | nil => exact List.Pairwise.nil
  | @cons c l gs picks hl hrest ih =>
      obtain ⟨hc, hgs⟩ := List.pairwise_cons.mp hpair
      refine List.pairwise_cons.mpr ⟨?_, ih hgs⟩
      intro l' hl' e he e' he'
      obtain ⟨d, hd, hld⟩ := exists_of_mem_right hrest hl'
      exact hc d hd e (hl e he) e' (hld e' he')

end Picks

/-- The picks of all groups make a selection. -/
theorem selection_of_picks {Bytes : List Str} {text : Str} {rule : EdgeRule}
    {dijkstra : WGraph ℚ → ℕ → ℕ} {st : SegmentState} {picks : List (List WordElement)} (h : Prepared Bytes st)
    (hrun : CtrlClaw.Run Bytes text)
    (hpicks : List.Forall₂ (PickOf rule byWordAndPosition dijkstra st.wordHintSeq_)
      st.noConflictWordSeq_ picks) :
    Selection text { st with wordSeqTopSelected_ := picks.flatten } := by
  have hhints : ∀ c ∈ st.noConflictWordSeq_, HintSeq Bytes c :=
    fun c hc => (h.group hrun hc).hints
  have hmem : List.Forall₂ (fun c picked => ∀ e ∈ picked, e ∈ c)
      st.noConflictWordSeq_ picks := hpicks.imp (fun _ _ hp => hp.mem)
  have hgroup : ∀ e ∈ picks.flatten, ∃ c ∈ st.noConflictWordSeq_, e ∈ c := by
    intro e he
    obtain ⟨l, hl, hel⟩ := List.mem_flatten.mp he
    obtain ⟨c, hc, hlc⟩ := exists_of_mem_right hmem hl
    exact ⟨c, hc, hlc e hel⟩
  have hrange : ∀ c ∈ st.noConflictWordSeq_, ∀ e ∈ c, 0 < e.range :=
    fun c hc e he => (hhints c hc).range_pos e he
  have htiles : ∀ c ∈ st.noConflictWordSeq_, ∀ picked,
      PickOf rule byWordAndPosition dijkstra st.wordHintSeq_ c picked → picked = [] ∨
        Tiles WordElement.position WordElement.stop (startPos c) (posLast c) picked :=
    fun c hc picked hp => hp.tiles (hhints c hc)
  have hdisjoint : picks.flatten.Pairwise (fun e e' => e.stop ≤ e'.position) := by
    refine List.pairwise_flatten.mpr ⟨?_, picks_apart h.good hmem⟩
    intro picked hpicked
    obtain ⟨c, hc, hp⟩ := exists_of_mem_right hpicks hpicked
    rcases htiles c hc picked hp with rfl | ht
    · exact List.Pairwise.nil
    · exact ht.ordered ((hhints c hc).positive hp.mem)
  have hfilter := filter_group [] h.good hrange hmem (by simp)
  refine ⟨?_, hdisjoint, ?_, hgroup, ?_⟩
  · apply List.Pairwise.imp_of_mem _ hdisjoint
    intro e e' he _ hle
    obtain ⟨c, hc, hec⟩ := hgroup e he
    have hpos := hrange c hc e hec
    rw [WordElement.stop] at hle
    omega
  · intro e he
    obtain ⟨c, hc, hec⟩ := hgroup e he
    have hle := ((hhints c hc).start e hec).le
    rw [← hrun.text_eq] at hle
    rw [substr_eq_some hle, (hhints c hc).word_eq e hec, hrun.text_eq]
  · intro c hc
    have hboth : List.Forall₂ (fun c picked =>
        PickOf rule byWordAndPosition dijkstra st.wordHintSeq_ c picked ∧
        ([] ++ picks.flatten).filter (· ∈ c) = picked) st.noConflictWordSeq_ picks :=
      List.Forall₂.mp (fun _ _ hp heq => ⟨hp, heq⟩) hpicks hfilter
    obtain ⟨picked, -, hp, heq⟩ := exists_of_mem_left hboth hc
    rw [List.nil_append] at heq
    rw [heq]
    exact htiles c hc picked hp

/-- A segmenter that looks up by word and position selects on every run. -/
theorem predict_selection {Bytes : List Str} {text : Str} (hrun : CtrlClaw.Run Bytes text)
    (pow : ℚ → ℚ → ℚ) (pred : Str → ℚ) {rule : EdgeRule}
    {dijkstra : WGraph ℚ → ℕ → ℕ}
    (hvalid : ∀ st, prepare pow pred Bytes text = some st → ValidOn dijkstra rule st) :
    ∃ st st', prepare pow pred Bytes text = some st ∧
      predict (calcPredictionBy rule byWordAndPosition dijkstra) st = some st' ∧
      Selection text st' := by
  obtain ⟨st, hst, hprep, htop, -⟩ := prepare_eq pow pred hrun
  obtain ⟨picks, hpicks, heq⟩ :=
    predict_spec byWordAndPosition hprep hrun (hvalid st hst) htop
  exact ⟨st, _, hst, heq, selection_of_picks hprep hrun hpicks⟩

/-- **The words selected over a run**, for every dictionary, language and
answer of Boost that leads back along edges. A run of one character is not learned. -/
theorem selection_of_run {Bytes : List Str} {text : Str}
    (hemits : CtrlClaw.Emits Bytes text) (pow : ℚ → ℚ → ℚ)
    (dijkstra : WGraph ℚ → ℕ → ℕ) (phoenix : PhoenixWord) (zhizi : ZhiZiWord)
    (lang : Lang)
    (hphoenix : ∀ st, prepare pow
        (inputPred phoenix.dictInputCN_ phoenix.dictInputJA_ lang) Bytes text = some st →
      ValidOn dijkstra wordRule st)
    (hzhizi : ∀ st, prepare pow
        (inputPred zhizi.dictInputCN_ zhizi.dictInputJA_ .cn) Bytes text = some st →
      ValidOn dijkstra (phraseRule zhizi.phraseInputCN_ zhizi.phraseInputJA_ .cn) st) :
    (∃ p, phoenix.cut pow dijkstra Bytes text lang = some p ∧
      Selection text p.toSegmentState) ∧
    (∃ p, phoenix.learn pow dijkstra Bytes text lang = some p ∧
      if Bytes.length < 2 then p = phoenix else Selection text p.toSegmentState) ∧
    (∃ z, zhizi.cut pow dijkstra Bytes text .cn = some z ∧
      Selection text z.toSegmentState) := by
  have hrun := hemits.run
  obtain ⟨st, st', hst, hpred, hsel⟩ :=
    predict_selection hrun pow _ hphoenix
  obtain ⟨zt, zt', hzt, hzpred, hzsel⟩ :=
    predict_selection hrun pow _ hzhizi
  refine ⟨⟨_, phoenix.cut_of_predict hst hpred, hsel⟩, ?_,
    ⟨_, zhizi.cut_of_predict hzt hzpred, hzsel⟩⟩
  by_cases hlong : Bytes.length < 2
  · exact ⟨phoenix, if_pos hlong, by rw [if_pos hlong]⟩
  · exact ⟨_, phoenix.learn_of_predict hst hpred hlong, by rwa [if_neg hlong]⟩

/-! ## A run of two characters

The dictionary knows both characters and the pair. They make one group, in
which the pair is lighter than the two characters. -/

section TwoCharacters

def charX : Str := [228, 184, 173]

def charY : Str := [229, 155, 189]

/-- A dictionary with the weight one half for the given words. -/
def halfDictionary (words : List Str) : Dictionary where
  getDoublePred := fun w => if w ∈ words then 1 / 2 else -1
  getRangeMin := 1 / 2

/-- The C library's `pow` where the exponent is a natural number. -/
def natPow (b r : ℚ) : ℚ := b ^ r.num.toNat

theorem pair_emits : CtrlClaw.Emits [charX, charY] (charX ++ charY) := by
  have hchars : characters (charX ++ charY) = [charX, charY] := by with_unfolding_all decide
  rw [← hchars]
  exact CtrlClaw.emits_of_ordinary (by decide) (by rw [hchars]; decide)

def pairDictionary : Dictionary := halfDictionary [charX, charY, charX ++ charY]

def pairPhoenix : PhoenixWord where
  toSegmentState := ⟨32, [], [], [], []⟩
  dictInputCN_ := pairDictionary
  dictInputJA_ := halfDictionary []
  multiWordOfOneArticle_ := ∅

def pairZhiZi : ZhiZiWord where
  toSegmentState := ⟨32, [], [], [], []⟩
  dictInputCN_ := pairDictionary
  dictInputJA_ := halfDictionary []
  phraseInputCN_ := halfDictionary []
  phraseInputJA_ := halfDictionary []

def pairState : SegmentState :=
  let hints : List WordElement :=
    [WordElement.make charX 0 (1 / 2) (1 / 2),
     WordElement.make (charX ++ charY) 0 (1 / 2) (1 / 2),
     WordElement.make charY 3 (1 / 2) (1 / 2)]
  let adjusted : List WordElement :=
    [WordElement.make charX 0 (1 / 2) (1 / 2),
     WordElement.make (charX ++ charY) 0 2048 (1 / 2),
     WordElement.make charY 3 (1 / 2) (1 / 2)]
  ⟨3, hints, adjusted, [adjusted], []⟩

/-- The vertices are the start, the first character, the pair, the second
character and the end. -/
def pairParents (_ : WGraph ℚ) (v : ℕ) : ℕ := if v = 4 then 2 else if v = 3 then 1 else 0

theorem pair_prepare : prepare natPow (inputPred pairDictionary (halfDictionary []) .cn)
    [charX, charY] (charX ++ charY) = some pairState := by
  with_unfolding_all decide

theorem pair_valid {rule : EdgeRule} {st : SegmentState}
    (hst : prepare natPow (inputPred pairDictionary (halfDictionary []) .cn)
      [charX, charY] (charX ++ charY) = some st)
    (htree : ∀ c ∈ pairState.noConflictWordSeq_,
      PathTree (buildGraph rule pairState.wordHintSeq_ c) vrtxStart
        (pairParents (buildGraph rule pairState.wordHintSeq_ c))) :
    ValidOn pairParents rule st := by
  obtain rfl := Option.some.inj (pair_prepare.symm.trans hst)
  exact htree

/-- The group of the run. -/
def pairGroup : List WordElement := pairState.wordAdjustedSeq_

theorem pair_group : GroupOf [charX, charY] pairState.wordHintSeq_ pairGroup := by
  obtain ⟨st, hst, hprep, -⟩ := prepare_eq natPow
    (inputPred pairDictionary (halfDictionary []) .cn) pair_emits.run
  obtain rfl := Option.some.inj (pair_prepare.symm.trans hst)
  exact hprep.group pair_emits.run (List.mem_singleton.mpr rfl)

theorem pair_tree : ShortestPathTree (buildGraph wordRule pairState.wordHintSeq_ pairGroup)
    vrtxStart (pairParents (buildGraph wordRule pairState.wordHintSeq_ pairGroup)) := by
  apply tree_of_labels (fun v => [0, 2, 1 / 2048, 4, 1 / 2048].getD v 0)
  · rfl
  · with_unfolding_all decide
  · with_unfolding_all decide

/-- The weights with phrases of which none is known. -/
def pairPhraseRule : EdgeRule := phraseRule (halfDictionary []) (halfDictionary []) .cn

theorem pair_phrase_tree :
    ShortestPathTree (buildGraph pairPhraseRule pairState.wordHintSeq_ pairGroup)
      vrtxStart (pairParents (buildGraph pairPhraseRule pairState.wordHintSeq_ pairGroup)) := by
  apply tree_of_labels (fun v => [0, 0, 0, 4, 1 / 1024].getD v 0)
  · rfl
  · with_unfolding_all decide
  · with_unfolding_all decide

theorem selection_of_pair :
    (∃ p, pairPhoenix.cut natPow pairParents [charX, charY] (charX ++ charY) .cn =
        some p ∧ Selection (charX ++ charY) p.toSegmentState) ∧
    (∃ p, pairPhoenix.learn natPow pairParents [charX, charY] (charX ++ charY) .cn =
        some p ∧
      if [charX, charY].length < 2 then p = pairPhoenix
      else Selection (charX ++ charY) p.toSegmentState) ∧
    (∃ z, pairZhiZi.cut natPow pairParents [charX, charY] (charX ++ charY) .cn =
        some z ∧ Selection (charX ++ charY) z.toSegmentState) := by
  have hword : ∀ c ∈ pairState.noConflictWordSeq_,
      PathTree (buildGraph wordRule pairState.wordHintSeq_ c) vrtxStart
        (pairParents (buildGraph wordRule pairState.wordHintSeq_ c)) := by
    intro c hc
    rw [List.mem_singleton.mp hc]
    exact pair_tree.pathTree
  have hphrase : ∀ c ∈ pairState.noConflictWordSeq_,
      PathTree (buildGraph pairPhraseRule pairState.wordHintSeq_ c) vrtxStart
        (pairParents (buildGraph pairPhraseRule pairState.wordHintSeq_ c)) := by
    intro c hc
    rw [List.mem_singleton.mp hc]
    exact pair_phrase_tree.pathTree
  exact selection_of_run pair_emits natPow pairParents pairPhoenix pairZhiZi .cn
    (fun _ hst => pair_valid hst hword) (fun _ hst => pair_valid hst hphrase)

end TwoCharacters

end WaiNative

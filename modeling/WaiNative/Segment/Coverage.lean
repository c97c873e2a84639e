import WaiNative.Segment.Stretches

/-!
# Which sentences are spelled in full

The words that `cut` selects, read in position order, spell the sentence
exactly under a condition on the sentence and the dictionary:

- looked up by word and position (`PhoenixWord`, and `ZhiZiWord` for Chinese),
  when the sentence is `Covered`;
- looked up by word alone (`ZhiZiWord` for other languages), when moreover no
  chain of a stretch is garbled by moving its words to where they occur first
  (`KeepsSpelling`).

`ZhiZiWord` finds no path for Chinese when the least weight of its phrases is zero.

The picks of a group are never longer than the group, so the whole is spelled
exactly when each group is (`spelled_iff`).
-/

namespace WaiNative

open Cxx ShortestPath ChainGraph Tiling

/-- The words in position order, joined. -/
def spell (picked : List WordElement) : Str := (picked.map WordElement.word).flatten

section Definitions

variable (pow : ℚ → ℚ → ℚ) (pred : Str → ℚ) (Bytes : List Str)

/-- The entries of the pieces inside `[b, t)`. -/
def Within (b t : ℕ) (e : WordElement) : Prop :=
  IsPiece pow pred Bytes e ∧ b ≤ e.position ∧ e.stop ≤ t

/-- Every chain of a stretch still spells it when each of its words is moved to where
it first occurs in the stretch. -/
def KeepsSpelling : Prop :=
  ∀ b t, Stretch pred Bytes b t → ∀ sel moved,
    (∀ e ∈ sel, Within pow pred Bytes b t e) →
    Tiles WordElement.position WordElement.stop b t sel →
    List.Forall₂ (FirstOf (Within pow pred Bytes b t)) sel moved →
    spell (Multimap.insertAll WordElement.position moved []) =
      slice Bytes.flatten b (t - b)

end Definitions

/-! ## One group -/

section Group

variable {Bytes : List Str} {text : Str} {rule : EdgeRule}
  {pick : LabelVertex → WordElement → Bool} {dijkstra : WGraph ℚ → ℕ → ℕ}
  {hints confuse : List WordElement}

theorem spell_perm_length {l m : List WordElement} (h : l.Perm m) :
    (spell l).length = (spell m).length := by
  simp only [spell, List.length_flatten, List.map_map]
  exact (h.map _).sum_eq

/-- A lookup that never changes the word. -/
def KeepsWords (pick : LabelVertex → WordElement → Bool) : Prop :=
  ∀ {Bytes : List Str} {confuse sel : List WordElement}, HintSeq Bytes confuse →
    (∀ e ∈ sel, e ∈ confuse) →
    (found pick confuse sel).map WordElement.word = sel.map WordElement.word

theorem byWordAndPosition_keepsWords : KeepsWords byWordAndPosition := by
  intro Bytes confuse sel h hsel
  rw [found_self h hsel]

theorem byWord_keepsWords : KeepsWords byWord := by
  intro Bytes confuse sel h hsel
  have hfound := (found_byWord h hsel).imp (fun e x hx => hx.word.symm)
  have hmap : List.Forall₂ Eq (sel.map WordElement.word)
      ((found byWord confuse sel).map WordElement.word) := by
    simpa using hfound
  rw [List.forall₂_eq_eq_eq] at hmap
  exact hmap.symm

/-- A chain of a group spells it. -/
theorem spell_chain (h : HintSeq Bytes confuse) {sel : List WordElement} {b t : ℕ}
    (hmem : ∀ e ∈ sel, e ∈ confuse)
    (htiles : Tiles WordElement.position WordElement.stop b t sel) :
    spell sel = slice Bytes.flatten b (t - b) := by
  apply htiles.spell (h.positive hmem)
  intro e he
  rw [h.word_eq e (hmem e he), WordElement.stop, Nat.add_sub_cancel_left]

/-- The group can be tiled by its own elements. -/
def HasChain (confuse : List WordElement) : Prop :=
  ∃ sel, (∀ e ∈ sel, e ∈ confuse) ∧
    Tiles WordElement.position WordElement.stop (startPos confuse) (posLast confuse) sel

/-- It cannot where every way from its start leads to a place that nothing starts at. -/
theorem not_hasChain_of_dead_end {confuse : List WordElement} {stop : ℕ}
    (hfirst : startPos confuse ≠ posLast confuse) (hstop : stop ≠ posLast confuse)
    (hends : ∀ e ∈ confuse, e.position = startPos confuse → e.stop = stop)
    (hbegins : ∀ e ∈ confuse, e.position ≠ stop) : ¬ HasChain confuse := by
  rintro ⟨sel, hsel, htiles⟩
  exact not_tiles_of_dead_end hfirst hstop (fun e he => hends e (hsel e he))
    (fun e he => hbegins e (hsel e he)) htiles

/-- The picks of a group are never longer than the group. -/
theorem PickOf.fits (h : HintSeq Bytes confuse) (hkeep : KeepsWords pick)
    {picked : List WordElement}
    (hpick : PickOf rule pick dijkstra hints confuse picked)
    (hle : posLast confuse ≤ Bytes.flatten.length) (hne : confuse ≠ []) :
    (spell picked).length ≤ posLast confuse - startPos confuse := by
  rcases hpick with ⟨sel, -, hchain, rfl⟩ | ⟨-, rfl⟩
  · have hlt := h.startPos_lt_posLast hne
    have hlen : (spell (Multimap.insertAll WordElement.position
        (found pick confuse sel) [])).length = (spell sel).length := by
      rw [spell_perm_length (Multimap.insertAll_perm _ _), List.nil_append, spell,
        hkeep h hchain.mem, spell]
    rw [hlen, spell_chain h hchain.mem hchain.tiles, length_slice (by omega)]
  · simp [spell]

/-- A group is spelled only if it has a chain. -/
theorem PickOf.hasChain (h : HintSeq Bytes confuse) {picked : List WordElement}
    (hpick : PickOf rule pick dijkstra hints confuse picked)
    (hle : posLast confuse ≤ Bytes.flatten.length) (hne : confuse ≠ [])
    (hspell : spell picked =
      slice Bytes.flatten (startPos confuse) (posLast confuse - startPos confuse)) :
    HasChain confuse := by
  rcases hpick with ⟨sel, -, hchain, rfl⟩ | ⟨-, rfl⟩
  · exact ⟨sel, hchain.mem, hchain.tiles⟩
  · have hlt := h.startPos_lt_posLast hne
    have hlen := congrArg List.length hspell
    rw [length_slice (by omega)] at hlen
    simp only [spell, List.map_nil, List.flatten_nil, List.length_nil] at hlen
    omega

/-- A group with a chain is picked from along the way back. -/
theorem PickOf.onPath (hg : GroupOf Bytes hints confuse) (hrule : rule.Total)
    {picked : List WordElement} (hpick : PickOf rule pick dijkstra hints confuse picked)
    (hchain : HasChain confuse) :
    ∃ sel, OnPath rule dijkstra hints confuse sel ∧ EdgeChain rule confuse sel ∧
      picked = Multimap.insertAll WordElement.position (found pick confuse sel) [] := by
  rcases hpick with hpicked | ⟨hno, -⟩
  · exact hpicked
  · obtain ⟨sel, hmem, htiles⟩ := hchain
    exact absurd (edgeChain_of_total hg hrule hmem htiles) (hno sel)

/-- By word and position, a group with a chain is spelled. -/
theorem PickOf.spells (hg : GroupOf Bytes hints confuse) (hrule : rule.Total)
    {picked : List WordElement}
    (hpick : PickOf rule byWordAndPosition dijkstra hints confuse picked)
    (hchain : HasChain confuse) :
    spell picked =
      slice Bytes.flatten (startPos confuse) (posLast confuse - startPos confuse) := by
  obtain ⟨sel, -, hsel, rfl⟩ := hpick.onPath hg hrule hchain
  rw [found_self hg.hints hsel.mem,
    insertAll_chain hsel.tiles (hg.hints.positive hsel.mem)]
  exact spell_chain hg.hints hsel.mem hsel.tiles

end Group

/-! ## The whole sentence -/

section Sentence

variable {pow : ℚ → ℚ → ℚ} {pred : Str → ℚ} {Bytes : List Str} {text : Str}
  {st : SegmentState} {rule : EdgeRule} {pick : LabelVertex → WordElement → Bool}
  {dijkstra : WGraph ℚ → ℕ → ℕ} {picks : List (List WordElement)}

theorem spell_flatten (picks : List (List WordElement)) :
    spell picks.flatten = (picks.map spell).flatten := by
  induction picks with
  | nil => rfl
  | cons picked picks ih =>
      rw [List.flatten_cons, List.map_cons, List.flatten_cons, ← ih]
      simp [spell]

/-- **The sentence is spelled exactly when the groups reach from end to end and
each is spelled.** -/
theorem Collected.spelled_iff (h : Collected pow pred Bytes st)
    (hrun : CtrlClaw.Run Bytes text) (hkeep : KeepsWords pick)
    (hpicks : List.Forall₂ (PickOf rule pick dijkstra st.wordHintSeq_)
      st.noConflictWordSeq_ picks) :
    spell picks.flatten = text ↔ EndToEnd Bytes st ∧
      List.Forall₂ (fun c picked => spell picked =
        slice Bytes.flatten (startPos c) (posLast c - startPos c))
        st.noConflictWordSeq_ picks := by
  have hlen := hrun.length_pos
  rw [spell_flatten, hrun.text_eq]
  by_cases hne : st.noConflictWordSeq_ = []
  · -- without hints nothing is selected
    have hadj := h.prepared.flatten
    rw [hne] at hpicks hadj
    cases hpicks
    constructor
    · intro heq
      rw [← heq] at hlen
      simp at hlen
    · rintro ⟨hends, -⟩
      have hstop := hends.stop
      rw [← hadj] at hstop
      have hzero : posLast ([] : List (List WordElement)).flatten = 0 := rfl
      omega
  · have htiles := h.prepared.tiles hne
    have hpos := h.groups_positive hrun
    have hbound : posLast st.wordAdjustedSeq_ ≤ Bytes.flatten.length := by
      obtain ⟨e, he, hes⟩ := posLast_mem (c := st.wordAdjustedSeq_) (by
        intro hnil
        have hflat := h.prepared.flatten
        rw [hnil, List.flatten_eq_nil_iff] at hflat
        obtain ⟨c, hc⟩ := List.exists_mem_of_ne_nil _ hne
        exact h.prepared.good.nonempty c hc (hflat c hc))
      rw [← hes]
      exact h.prepared.adjusted_hints.stop_le he
    have hfits : Fits startPos posLast st.noConflictWordSeq_ (picks.map spell) := by
      rw [Fits, List.forall₂_map_right_iff]
      apply forall₂_imp_of_mem hpicks
      intro c hc picked hpick
      exact hpick.fits (h.group_hints hrun c hc) hkeep
        ((htiles.bounds hpos hc).2.trans hbound) (h.prepared.good.nonempty c hc)
    rw [hfits.spell_all_iff htiles hpos hbound, Spells, List.forall₂_map_right_iff]
    constructor
    · rintro ⟨hstart, hstop, hspell⟩
      exact ⟨⟨hstart, hstop⟩, hspell⟩
    · rintro ⟨⟨hstart, hstop⟩, hspell⟩
      exact ⟨hstart, hstop, hspell⟩

theorem Collected.covered_of_spelled (h : Collected pow pred Bytes st)
    (hrun : CtrlClaw.Run Bytes text) (hkeep : KeepsWords pick)
    (hpicks : List.Forall₂ (PickOf rule pick dijkstra st.wordHintSeq_)
      st.noConflictWordSeq_ picks) (hspell : spell picks.flatten = text) :
    Covered pred Bytes := by
  obtain ⟨hends, hspells⟩ := (h.spelled_iff hrun hkeep hpicks).mp hspell
  refine (h.covered_iff hrun).mpr ⟨hends, ?_⟩
  intro c hc
  have hboth : List.Forall₂ (fun c picked =>
      PickOf rule pick dijkstra st.wordHintSeq_ c picked ∧ spell picked =
        slice Bytes.flatten (startPos c) (posLast c - startPos c))
      st.noConflictWordSeq_ picks :=
    List.Forall₂.mp (fun _ _ hp hs => ⟨hp, hs⟩) hpicks hspells
  obtain ⟨picked, -, hp, hs⟩ := exists_of_mem_left hboth hc
  exact hp.hasChain (h.group_hints hrun c hc)
    ((h.tiles hrun hends).bounds (h.groups_positive hrun) hc).2
    (h.prepared.good.nonempty c hc) hs

theorem Collected.spelled_of_covered (h : Collected pow pred Bytes st)
    (hrun : CtrlClaw.Run Bytes text) (hrule : rule.Total)
    (hpicks : List.Forall₂ (PickOf rule byWordAndPosition dijkstra st.wordHintSeq_)
      st.noConflictWordSeq_ picks) (hcov : Covered pred Bytes) :
    spell picks.flatten = text := by
  obtain ⟨hends, hchain⟩ := (h.covered_iff hrun).mp hcov
  refine (h.spelled_iff hrun byWordAndPosition_keepsWords hpicks).mpr ⟨hends, ?_⟩
  apply forall₂_imp_of_mem hpicks
  intro c hc picked hp
  exact hp.spells (h.prepared.group hrun hc) hrule (hchain c hc)

/-- The elements of a group are the entries within its stretch. -/
theorem Collected.mem_group_eq (h : Collected pow pred Bytes st)
    (hrun : CtrlClaw.Run Bytes text) (hends : EndToEnd Bytes st)
    {c : List WordElement} (hc : c ∈ st.noConflictWordSeq_) :
    (· ∈ c) = Within pow pred Bytes (startPos c) (posLast c) := by
  ext e
  constructor
  · intro he
    exact ⟨h.group_piece hc he, (h.group_hints hrun c hc).startPos_le he,
      h.group_stop_le hrun hends c hc e he⟩
  · rintro ⟨hpiece, hb, ht⟩
    exact h.mem_group hrun hc hpiece hb ht

theorem Collected.spelled_of_keeps (h : Collected pow pred Bytes st)
    (hrun : CtrlClaw.Run Bytes text)
    (hpicks : List.Forall₂ (PickOf wordRule byWord dijkstra st.wordHintSeq_)
      st.noConflictWordSeq_ picks) (hcov : Covered pred Bytes)
    (hkeeps : KeepsSpelling pow pred Bytes) : spell picks.flatten = text := by
  obtain ⟨hends, hchain⟩ := (h.covered_iff hrun).mp hcov
  refine (h.spelled_iff hrun byWord_keepsWords hpicks).mpr ⟨hends, ?_⟩
  apply forall₂_imp_of_mem hpicks
  intro c hc picked hp
  have hgroup := h.prepared.group hrun hc
  obtain ⟨sel, -, hsel, rfl⟩ := hp.onPath hgroup wordRule_total (hchain c hc)
  have hmem := hsel.mem
  have hfound := found_byWord hgroup.hints hmem
  have hstretch := (h.stretch_iff_group hrun hends).mpr ⟨c, hc, rfl, rfl⟩
  rw [h.mem_group_eq hrun hends hc] at hfound
  have hwithin : ∀ e ∈ sel, Within pow pred Bytes (startPos c) (posLast c) e := by
    rw [← h.mem_group_eq hrun hends hc]
    exact hmem
  exact hkeeps _ _ hstretch sel _ hwithin hsel.tiles hfound

/-- Whatever paths Boost's parents lead back along, what is predicted spells the text. -/
def Spelled (rule : EdgeRule) (pick : LabelVertex → WordElement → Bool)
    (st : SegmentState) (text : Str) : Prop :=
  ∀ dijkstra, ValidOn dijkstra rule st → ∃ st',
    predict (calcPredictionBy rule pick dijkstra) st = some st' ∧
      spell st'.wordSeqTopSelected_ = text

theorem Collected.spelled_of_picks (h : Collected pow pred Bytes st)
    (hrun : CtrlClaw.Run Bytes text) (htop : st.wordSeqTopSelected_ = [])
    (hspell : ∀ dijkstra picks, List.Forall₂ (PickOf rule pick dijkstra st.wordHintSeq_)
      st.noConflictWordSeq_ picks → spell picks.flatten = text) :
    Spelled rule pick st text := by
  intro dijkstra hvalid
  obtain ⟨picks, hpicks, hpred⟩ := predict_spec pick h.prepared hrun hvalid htop
  exact ⟨_, hpred, hspell dijkstra picks hpicks⟩

theorem Collected.picks_of_spelled (h : Collected pow pred Bytes st)
    (hrun : CtrlClaw.Run Bytes text) (htop : st.wordSeqTopSelected_ = [])
    (hspelled : Spelled rule pick st text)
    (hvalid : ValidOn dijkstra rule st) :
    ∃ picks, List.Forall₂ (PickOf rule pick dijkstra st.wordHintSeq_)
      st.noConflictWordSeq_ picks ∧ spell picks.flatten = text := by
  obtain ⟨picks, hpicks, hpred⟩ := predict_spec pick h.prepared hrun hvalid htop
  obtain ⟨st', hst', hspell⟩ := hspelled dijkstra hvalid
  obtain rfl := Option.some.inj (hpred.symm.trans hst')
  exact ⟨picks, hpicks, hspell⟩

/-- An algorithm that leads back along edges is valid on every run. -/
theorem Collected.validOn (h : Collected pow pred Bytes st)
    (hrun : CtrlClaw.Run Bytes text) (hback : LeadsBack vrtxStart dijkstra) :
    ValidOn dijkstra rule st :=
  fun _ hc => hback _ (buildGraph_forward (h.prepared.group hrun hc))

/-- By word and position, the sentence is spelled exactly when it is covered. -/
theorem Collected.spelled_iff_covered (h : Collected pow pred Bytes st)
    (hrun : CtrlClaw.Run Bytes text) (hrule : rule.Total)
    (htop : st.wordSeqTopSelected_ = []) :
    Spelled rule byWordAndPosition st text ↔ Covered pred Bytes := by
  constructor
  · intro hspelled
    obtain ⟨dijkstra, hback⟩ := exists_leadsBack (W := ℚ) vrtxStart
    obtain ⟨picks, hpicks, hspell⟩ :=
      h.picks_of_spelled hrun htop hspelled (h.validOn hrun hback)
    exact h.covered_of_spelled hrun byWordAndPosition_keepsWords hpicks hspell
  · intro hcov
    exact h.spelled_of_picks hrun htop
      (fun _ _ hpicks => h.spelled_of_covered hrun hrule hpicks hcov)

/-- Where nothing leads to the end, the sentence is not spelled. -/
theorem Collected.not_spelled (h : Collected pow pred Bytes st)
    (hrun : CtrlClaw.Run Bytes text) (hlast : ∀ a w, ¬ rule.weights.last a w)
    (htop : st.wordSeqTopSelected_ = []) : ¬ Spelled rule pick st text := by
  intro hspelled
  obtain ⟨dijkstra, hback⟩ := exists_leadsBack (W := ℚ) vrtxStart
  obtain ⟨picks, hpicks, hspell⟩ :=
    h.picks_of_spelled hrun htop hspelled (h.validOn hrun hback)
  have hlen := hrun.length_pos
  rw [picks_eq_nil hlast hpicks] at hspell
  rw [← hrun.text_eq, ← hspell] at hlen
  exact absurd hlen (by simp [spell])

/-- If the sentence is always spelled, the chains keep their spelling: Boost's parents
may lead back along each of them. -/
theorem Collected.keeps_of_spelled (h : Collected pow pred Bytes st)
    (hrun : CtrlClaw.Run Bytes text) (htop : st.wordSeqTopSelected_ = [])
    (hcov : Covered pred Bytes) (hspelled : Spelled wordRule byWord st text) :
    KeepsSpelling pow pred Bytes := by
  obtain ⟨hends, -⟩ := (h.covered_iff hrun).mp hcov
  intro b t hstretch sel moved hwithin htiles hmoved
  obtain ⟨c, hc, rfl, rfl⟩ := (h.stretch_iff_group hrun hends).mp hstretch
  rw [← h.mem_group_eq hrun hends hc] at hwithin hmoved
  have hgroup := h.prepared.group hrun hc
  have hchain := edgeChain_of_total hgroup wordRule_total hwithin htiles
  obtain ⟨dijkstra, hback, hpath⟩ := exists_pathTree_along hgroup hchain
  obtain ⟨picks, hp, hspell⟩ :=
    h.picks_of_spelled hrun htop hspelled (h.validOn hrun hback)
  obtain ⟨-, hall⟩ := (h.spelled_iff hrun byWord_keepsWords hp).mp hspell
  have hboth : List.Forall₂ (fun c picked =>
      PickOf wordRule byWord dijkstra st.wordHintSeq_ c picked ∧ spell picked =
        slice Bytes.flatten (startPos c) (posLast c - startPos c))
      st.noConflictWordSeq_ picks :=
    List.Forall₂.mp (fun _ _ hp hs => ⟨hp, hs⟩) hp hall
  obtain ⟨picked, -, hpick, hspell⟩ := exists_of_mem_left hboth hc
  -- the parents lead along `sel`, so `moved` is what is picked
  obtain ⟨sel', hpath', -, rfl⟩ :=
    hpick.onPath hgroup wordRule_total ⟨sel, hwithin, htiles⟩
  obtain rfl := hpath'.unique hpath
  have heq := List.right_unique_forall₂' (firstOf_unique hgroup.hints) hmoved
    (found_byWord hgroup.hints hwithin)
  rw [heq]
  exact hspell

/-- By word alone, the chains must keep their spelling too. -/
theorem Collected.spelled_iff_keeps (h : Collected pow pred Bytes st)
    (hrun : CtrlClaw.Run Bytes text) (htop : st.wordSeqTopSelected_ = []) :
    Spelled wordRule byWord st text ↔
      Covered pred Bytes ∧ KeepsSpelling pow pred Bytes := by
  constructor
  · intro hspelled
    obtain ⟨dijkstra, hback⟩ := exists_leadsBack (W := ℚ) vrtxStart
    obtain ⟨picks, hpicks, hspell⟩ :=
      h.picks_of_spelled hrun htop hspelled (h.validOn hrun hback)
    have hcov := h.covered_of_spelled hrun byWord_keepsWords hpicks hspell
    exact ⟨hcov, h.keeps_of_spelled hrun htop hcov hspelled⟩
  · rintro ⟨hcov, hkeeps⟩
    exact h.spelled_of_picks hrun htop
      (fun _ _ hpicks => h.spelled_of_keeps hrun hpicks hcov hkeeps)

end Sentence

/-! ## The two segmenters -/

section Segmenters

variable (pow : ℚ → ℚ → ℚ) (Bytes : List Str) (text : Str) (lang : Lang)

/-- What `PhoenixWord::cut` selects spells the text, whatever paths Boost's parents
lead back along. -/
def PhoenixSpells (p : PhoenixWord) : Prop :=
  ∀ dijkstra, (∀ st, prepare pow (inputPred p.dictInputCN_ p.dictInputJA_ lang) Bytes
      text = some st → ValidOn dijkstra wordRule st) →
    ∃ p', p.cut pow dijkstra Bytes text lang = some p' ∧
      spell p'.wordSeqTopSelected_ = text

/-- What `ZhiZiWord::cut` selects spells the text, whatever paths Boost's parents lead
back along. -/
def ZhiZiSpells (z : ZhiZiWord) : Prop :=
  ∀ dijkstra, (∀ st, prepare pow (inputPred z.dictInputCN_ z.dictInputJA_ lang) Bytes
      text = some st → ValidOn dijkstra (z.rule lang) st) →
    ∃ z', z.cut pow dijkstra Bytes text lang = some z' ∧
      spell z'.wordSeqTopSelected_ = text

variable {Bytes text}

/-- A `cut` that returns what `predict` selects spells the text when `predict` does. -/
theorem Collected.spells_iff_spelled {σ : Type} {pred : Str → ℚ} {st : SegmentState}
    {rule : EdgeRule} {pick : LabelVertex → WordElement → Bool}
    (h : Collected pow pred Bytes st) (hrun : CtrlClaw.Run Bytes text)
    (hst : prepare pow pred Bytes text = some st)
    (htop : st.wordSeqTopSelected_ = []) {cut : (WGraph ℚ → ℕ → ℕ) → Option σ}
    (segments : σ → SegmentState)
    (hcut : ∀ {dijkstra st'}, predict (calcPredictionBy rule pick dijkstra) st = some st' →
      ∃ x, cut dijkstra = some x ∧ segments x = st') :
    (∀ dijkstra, (∀ st', prepare pow pred Bytes text = some st' →
        ValidOn dijkstra rule st') →
      ∃ x, cut dijkstra = some x ∧ spell (segments x).wordSeqTopSelected_ = text) ↔
      Spelled rule pick st text := by
  constructor
  · intro hspells dijkstra hvalid
    obtain ⟨x, hx, hspell⟩ := hspells dijkstra (fun st' hst' => by
      rwa [← Option.some.inj (hst.symm.trans hst')])
    obtain ⟨picks, -, hpred⟩ := predict_spec pick h.prepared hrun hvalid htop
    obtain ⟨y, hy, hseg⟩ := hcut hpred
    obtain rfl := Option.some.inj (hy.symm.trans hx)
    exact ⟨_, hpred, hseg ▸ hspell⟩
  · intro hspelled dijkstra hvalid
    obtain ⟨st', hpred, hspell⟩ := hspelled dijkstra (hvalid st hst)
    obtain ⟨x, hx, rfl⟩ := hcut hpred
    exact ⟨x, hx, hspell⟩

theorem phoenixSpells_iff (hrun : CtrlClaw.Run Bytes text) (p : PhoenixWord) :
    PhoenixSpells pow Bytes text lang p ↔
      Covered (inputPred p.dictInputCN_ p.dictInputJA_ lang) Bytes := by
  obtain ⟨st, hst, hcoll, htop⟩ := prepare_collected pow
    (inputPred p.dictInputCN_ p.dictInputJA_ lang) hrun
  rw [← hcoll.spelled_iff_covered hrun wordRule_total htop]
  exact hcoll.spells_iff_spelled pow hrun hst htop PhoenixWord.toSegmentState
    (fun hpred => ⟨_, p.cut_of_predict hst hpred, rfl⟩)

theorem zhizi_spelled_iff {pred : Str → ℚ} {st : SegmentState} (z : ZhiZiWord)
    (h : Collected pow pred Bytes st) (hrun : CtrlClaw.Run Bytes text)
    (htop : st.wordSeqTopSelected_ = []) :
    Spelled (z.rule lang) (ZhiZiWord.pick lang) st text ↔
      Covered pred Bytes ∧ (lang = .cn → 0 < z.phraseInputCN_.getRangeMin) ∧
        (lang ≠ .cn → KeepsSpelling pow pred Bytes) := by
  by_cases hlang : lang = .cn
  · have hpick : ZhiZiWord.pick lang = byWordAndPosition := if_pos hlang
    rw [hpick]
    by_cases hmin : 0 < z.phraseInputCN_.getRangeMin
    · -- every chain has a way through the graph, and its words are looked up in place
      rw [h.spelled_iff_covered hrun (z.rule_total (fun _ => hmin)) htop]
      exact ⟨fun hcov => ⟨hcov, fun _ => hmin, fun hne => absurd hlang hne⟩, And.left⟩
    · -- the edges to the end are infinite, and nothing is selected
      constructor
      · intro hspelled
        subst hlang
        exact absurd hspelled (h.not_spelled hrun (z.rule_last hmin) htop)
      · rintro ⟨-, hpos, -⟩
        exact absurd (hpos hlang) hmin
  · have hpick : ZhiZiWord.pick lang = byWord := if_neg hlang
    have hrule : z.rule lang = wordRule := if_neg hlang
    rw [hpick, hrule, h.spelled_iff_keeps hrun htop]
    constructor
    · rintro ⟨hcov, hkeeps⟩
      exact ⟨hcov, fun heq => absurd heq hlang, fun _ => hkeeps⟩
    · rintro ⟨hcov, -, hkeeps⟩
      exact ⟨hcov, hkeeps hlang⟩

theorem zhiziSpells_iff (hrun : CtrlClaw.Run Bytes text) (z : ZhiZiWord) :
    ZhiZiSpells pow Bytes text lang z ↔
      Covered (inputPred z.dictInputCN_ z.dictInputJA_ lang) Bytes ∧
        (lang = .cn → 0 < z.phraseInputCN_.getRangeMin) ∧
        (lang ≠ .cn →
          KeepsSpelling pow (inputPred z.dictInputCN_ z.dictInputJA_ lang) Bytes) := by
  obtain ⟨st, hst, hcoll, htop⟩ := prepare_collected pow
    (inputPred z.dictInputCN_ z.dictInputJA_ lang) hrun
  rw [← zhizi_spelled_iff pow lang z hcoll hrun htop]
  exact hcoll.spells_iff_spelled pow hrun hst htop ZhiZiWord.toSegmentState
    (fun hpred => ⟨_, z.cut_of_predict hst hpred, rfl⟩)

/-- **When the selected words spell the run.** -/
theorem spells_text_iff (hemits : CtrlClaw.Emits Bytes text) (p : PhoenixWord)
    (z : ZhiZiWord) :
    (PhoenixSpells pow Bytes text lang p ↔
      Covered (inputPred p.dictInputCN_ p.dictInputJA_ lang) Bytes) ∧
    (ZhiZiSpells pow Bytes text lang z ↔
      Covered (inputPred z.dictInputCN_ z.dictInputJA_ lang) Bytes ∧
        (lang = .cn → 0 < z.phraseInputCN_.getRangeMin) ∧
        (lang ≠ .cn →
          KeepsSpelling pow (inputPred z.dictInputCN_ z.dictInputJA_ lang) Bytes)) :=
  ⟨phoenixSpells_iff pow lang hemits.run p, zhiziSpells_iff pow lang hemits.run z⟩

end Segmenters

/-! ## A covered run, and one with an unknown start -/

section Examples

/-- The pair of known characters is covered: by the pair itself. -/
theorem pair_covered :
    Covered (inputPred pairDictionary (halfDictionary []) .cn) [charX, charY] := by
  have hraw : (getRawRank (inputPred pairDictionary (halfDictionary []) .cn)
      [charX, charY]).wordHintSeq_ = pairState.wordHintSeq_ := by
    with_unfolding_all decide
  refine ⟨⟨[(0, 6)], .cons rfl (.nil 6), ?_⟩, 3, ?_, ?_⟩
  · rintro x hx
    rw [List.mem_singleton.mp hx]
    refine Or.inl (knownAt_iff.mpr ?_)
    rw [hraw]
    decide
  · refine knownAt_iff.mpr ?_
    rw [hraw]
    decide
  · intro b' q hb'
    obtain ⟨e, he, rfl, -⟩ := knownAt_iff.mp hb'
    rw [hraw] at he
    clear hb'
    revert e
    decide

/-- Both segmenters spell the run of two known characters. -/
theorem spells_pair :
    PhoenixSpells natPow [charX, charY] (charX ++ charY) .cn pairPhoenix ∧
    ZhiZiSpells natPow [charX, charY] (charX ++ charY) .cn pairZhiZi :=
  have hspells := spells_text_iff natPow .cn pair_emits pairPhoenix pairZhiZi
  ⟨hspells.1.mpr pair_covered,
    hspells.2.mpr ⟨pair_covered, fun _ => by with_unfolding_all decide,
      fun h => absurd rfl h⟩⟩

/-- A dictionary with the second character only, for both languages. -/
def tailDictionary : Dictionary := halfDictionary [charY]

def tailPhoenix : PhoenixWord :=
  { pairPhoenix with dictInputCN_ := tailDictionary, dictInputJA_ := tailDictionary }

def tailZhiZi : ZhiZiWord :=
  { pairZhiZi with dictInputCN_ := tailDictionary, dictInputJA_ := tailDictionary }

def tailState : SegmentState :=
  let hint := WordElement.make charY 3 (1 / 2) (1 / 2)
  ⟨3, [hint], [hint], [[hint]], []⟩

/-- The one way: the start, the character, the end. -/
def tailParents (_ : WGraph ℚ) (v : ℕ) : ℕ := v - 1

theorem tail_prepare : ∀ lang ∈ [Lang.cn, Lang.ja],
    prepare natPow (inputPred tailDictionary tailDictionary lang) [charX, charY]
      (charX ++ charY) = some tailState := by
  with_unfolding_all decide

theorem tail_valid {rule : EdgeRule} {lang : Lang} (hlang : lang ∈ [Lang.cn, Lang.ja])
    (htree : ∀ c ∈ tailState.noConflictWordSeq_,
      PathTree (buildGraph rule tailState.wordHintSeq_ c) vrtxStart
        (tailParents (buildGraph rule tailState.wordHintSeq_ c))) :
    ∀ st, prepare natPow (inputPred tailDictionary tailDictionary lang) [charX, charY]
      (charX ++ charY) = some st → ValidOn tailParents rule st := by
  intro st hst
  obtain rfl := Option.some.inj ((tail_prepare lang hlang).symm.trans hst)
  exact htree

theorem tail_tree : ∀ lang ∈ [Lang.cn, Lang.ja], ∀ rule ∈ [wordRule, tailZhiZi.rule lang],
    ∀ c ∈ tailState.noConflictWordSeq_,
      ShortestPathTree (buildGraph rule tailState.wordHintSeq_ c) vrtxStart
        (tailParents (buildGraph rule tailState.wordHintSeq_ c)) := by
  intro lang hlang rule hrule c hc
  rw [List.mem_singleton.mp hc]
  apply tree_of_labels (fun v =>
    [0, rule.start (1 / 2), rule.start (1 / 2) + (rule.last (1 / 2)).getD 0].getD v 0)
  · rfl
  · revert rule
    revert lang
    with_unfolding_all decide
  · revert rule
    revert lang
    with_unfolding_all decide

theorem tail_selected : ∀ lang ∈ [Lang.cn, Lang.ja],
    (tailPhoenix.cut natPow tailParents [charX, charY] (charX ++ charY) lang).map
      (fun p => spell p.wordSeqTopSelected_) = some charY ∧
    (tailZhiZi.cut natPow tailParents [charX, charY] (charX ++ charY) lang).map
      (fun z => spell z.wordSeqTopSelected_) = some charY := by
  with_unfolding_all decide

theorem tail_not_spelled {lang : Lang} (hlang : lang ∈ [Lang.cn, Lang.ja]) :
    ¬ PhoenixSpells natPow [charX, charY] (charX ++ charY) lang tailPhoenix ∧
    ¬ ZhiZiSpells natPow [charX, charY] (charX ++ charY) lang tailZhiZi := by
  obtain ⟨hphoenix, hzhizi⟩ := tail_selected lang hlang
  have hne : charY ≠ charX ++ charY := by decide
  refine ⟨?_, ?_⟩
  · intro hspells
    obtain ⟨p', hp', hspell⟩ := hspells tailParents (tail_valid hlang
      (fun c hc => (tail_tree lang hlang wordRule (by simp) c hc).pathTree))
    rw [hp', Option.map_some, hspell] at hphoenix
    exact hne (Option.some.inj hphoenix).symm
  · intro hspells
    obtain ⟨z', hz', hspell⟩ := hspells tailParents (tail_valid hlang
      (fun c hc => (tail_tree lang hlang (tailZhiZi.rule lang) (by simp) c hc).pathTree))
    rw [hz', Option.map_some, hspell] at hzhizi
    exact hne (Option.some.inj hzhizi).symm

/-- An unknown character in front of a known one: no segmenter selects it. -/
theorem unknown_start_dropped :
    CtrlClaw.Emits [charX, charY] (charX ++ charY) ∧ ∀ lang ∈ [Lang.cn, Lang.ja],
      prepare natPow (inputPred tailDictionary tailDictionary lang) [charX, charY]
        (charX ++ charY) = some tailState ∧
      (∀ rule ∈ [wordRule, tailZhiZi.rule lang], ∀ c ∈ tailState.noConflictWordSeq_,
        ShortestPathTree (buildGraph rule tailState.wordHintSeq_ c) vrtxStart
          (tailParents (buildGraph rule tailState.wordHintSeq_ c))) ∧
      ((tailPhoenix.cut natPow tailParents [charX, charY] (charX ++ charY) lang).map
          (fun p => spell p.wordSeqTopSelected_) = some charY ∧
        (tailZhiZi.cut natPow tailParents [charX, charY] (charX ++ charY) lang).map
          (fun z => spell z.wordSeqTopSelected_) = some charY) ∧
      ¬ PhoenixSpells natPow [charX, charY] (charX ++ charY) lang tailPhoenix ∧
      ¬ ZhiZiSpells natPow [charX, charY] (charX ++ charY) lang tailZhiZi :=
  ⟨pair_emits, fun lang hlang => ⟨tail_prepare lang hlang, tail_tree lang hlang,
    tail_selected lang hlang, tail_not_spelled hlang⟩⟩

end Examples

end WaiNative

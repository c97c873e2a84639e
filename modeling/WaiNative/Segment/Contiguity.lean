import WaiNative.Segment.Coverage

/-!
# Which sentences are selected without a hole

`jointPair` counts neighbours of the selection as a pair of words. They follow
each other in the text when nothing between the first and the last selected word
has been left out.

The groups of a sentence tile what lies between its first and its last hint, and
a group is selected in full or not at all. `Spellable` says of the sentence and
the dictionary alone which bytes lie in a group with a chain, and the pairs are
adjacent exactly when these bytes make one stretch (`pairsAdjacent_iff`).
-/

namespace WaiNative

open Cxx ShortestPath ChainGraph Tiling

section Definitions

variable (pred : Str → ℚ) (Bytes : List Str)

/-- A position at which the sentence falls apart: no piece reaches over it, or the
known word that starts last ends there. -/
def Cut (m : ℕ) : Prop :=
  LastStop pred Bytes m ∨ (Unspanned pred Bytes m ∧ ∃ t, LastStop pred Bytes t ∧ m ≤ t)

/-- The byte lies between two cuts that the pieces can tile. -/
def Spellable (m : ℕ) : Prop :=
  ∃ b t, Cut pred Bytes b ∧ Cut pred Bytes t ∧ b ≤ m ∧ m < t ∧
    ∃ l : List (ℕ × ℕ), Tiles Prod.fst Prod.snd b t l ∧ ∀ x ∈ l, PieceAt pred Bytes x.1 x.2

/-- The spellable bytes make one stretch. -/
def Unbroken : Prop :=
  ∀ m₁ m₂ m₃, m₁ ≤ m₂ → m₂ ≤ m₃ → Spellable pred Bytes m₁ → Spellable pred Bytes m₃ →
    Spellable pred Bytes m₂

end Definitions

section Collected

variable {pow : ℚ → ℚ → ℚ} {pred : Str → ℚ} {Bytes : List Str} {text : Str}
  {st : SegmentState}

/-- The byte lies in a group with a chain. -/
def InChain (st : SegmentState) (m : ℕ) : Prop :=
  ∃ c ∈ st.noConflictWordSeq_, HasChain c ∧ startPos c ≤ m ∧ m < posLast c

/-! ## Cuts -/

theorem Collected.groups_tile (h : Collected pow pred Bytes st) {c : List WordElement}
    (hc : c ∈ st.noConflictWordSeq_) :
    Tiles startPos posLast (startPos st.wordAdjustedSeq_) (posLast st.wordAdjustedSeq_)
      st.noConflictWordSeq_ :=
  h.prepared.tiles (List.ne_nil_of_mem hc)

theorem Collected.adjusted_ne_nil (h : Collected pow pred Bytes st) {c : List WordElement}
    (hc : c ∈ st.noConflictWordSeq_) : st.wordAdjustedSeq_ ≠ [] := by
  intro hnil
  have hsub := h.prepared.group_sublist hc
  rw [hnil, List.sublist_nil] at hsub
  exact h.prepared.good.nonempty c hc hsub

/-- No piece reaches over the start of a group. -/
theorem Collected.unspanned_start (h : Collected pow pred Bytes st)
    (hrun : CtrlClaw.Run Bytes text) {c : List WordElement}
    (hc : c ∈ st.noConflictWordSeq_) : Unspanned pred Bytes (startPos c) := by
  have hlt := h.groups_positive hrun c hc
  apply (h.unspanned_iff hrun).mpr
  rintro d hd e he ⟨hl, hr⟩
  rcases group_side h.prepared.good hc hd he with hbefore | hec | hbehind
  · omega
  · have hle := (h.group_hints hrun c hc).startPos_le hec
    omega
  · omega

theorem Collected.cut_start (h : Collected pow pred Bytes st)
    (hrun : CtrlClaw.Run Bytes text) {c : List WordElement}
    (hc : c ∈ st.noConflictWordSeq_) : Cut pred Bytes (startPos c) := by
  have hbounds := (h.groups_tile hc).bounds (h.groups_positive hrun) hc
  have hlt := h.groups_positive hrun c hc
  refine Or.inr ⟨h.unspanned_start hrun hc, posLast st.wordAdjustedSeq_, ?_, by omega⟩
  exact (h.lastStop_iff hrun).mpr ⟨h.adjusted_ne_nil hc, rfl⟩

/-- A group ends where the next one starts, the last with the last hint. -/
theorem Collected.cut_stop (h : Collected pow pred Bytes st)
    (hrun : CtrlClaw.Run Bytes text) {c : List WordElement}
    (hc : c ∈ st.noConflictWordSeq_) : Cut pred Bytes (posLast c) := by
  rcases (h.groups_tile hc).next hc with hlast | ⟨d, hd, heq⟩
  · exact Or.inl ((h.lastStop_iff hrun).mpr ⟨h.adjusted_ne_nil hc, hlast.symm⟩)
  · rw [← heq]
    exact h.cut_start hrun hd

/-- Inside a group there is no cut. -/
theorem Collected.not_cut_inside (h : Collected pow pred Bytes st)
    (hrun : CtrlClaw.Run Bytes text) {c : List WordElement}
    (hc : c ∈ st.noConflictWordSeq_) {m : ℕ} (hb : startPos c < m) (ht : m < posLast c) :
    ¬ Cut pred Bytes m := by
  have hbounds := (h.groups_tile hc).bounds (h.groups_positive hrun) hc
  rintro (hlast | ⟨hun, -⟩)
  · have heq := ((h.lastStop_iff hrun).mp hlast).2
    omega
  · exact h.spanned_inside hrun hc hb ht hun

theorem Cut.le_last (h : Collected pow pred Bytes st) (hrun : CtrlClaw.Run Bytes text)
    {m : ℕ} (hcut : Cut pred Bytes m) : m ≤ posLast st.wordAdjustedSeq_ := by
  rcases hcut with hlast | ⟨-, t, hlast, hle⟩
  · exact ((h.lastStop_iff hrun).mp hlast).2.ge
  · have heq := ((h.lastStop_iff hrun).mp hlast).2
    omega

/-! ## Spellable bytes -/

/-- Between two cuts that can be tiled, each group has a chain. -/
theorem Collected.hasChain_of_tiles (h : Collected pow pred Bytes st)
    (hrun : CtrlClaw.Run Bytes text) {c : List WordElement}
    (hc : c ∈ st.noConflictWordSeq_) {b t : ℕ} (hb : b ≤ startPos c) (ht : posLast c ≤ t)
    (hcut : Cut pred Bytes t) {sel : List WordElement}
    (hsel : ∀ e ∈ sel, IsPiece pow pred Bytes e)
    (htiles : Tiles WordElement.position WordElement.stop b t sel) : HasChain c := by
  have hstop : ∀ e ∈ sel, posLast c ≤ e.position ∨ e.stop ≤ posLast c := by
    intro e he
    rcases (h.groups_tile hc).next hc with hlast | ⟨d, hd, heq⟩
    · -- the last group ends where the tiling does
      have hle := hcut.le_last h hrun
      have hbound := (htiles.bounds (fun e he => (hsel e he).lt h) he).2
      exact Or.inr (by omega)
    · rw [← heq]
      exact (h.unspanned_start hrun hd).side hrun (hsel e he)
  exact h.chain_inside hrun hc hb ht hsel htiles
    (fun e he => (h.unspanned_start hrun hc).side hrun (hsel e he)) hstop

/-- **The spellable bytes are those of the groups with a chain.** -/
theorem Collected.spellable_iff (h : Collected pow pred Bytes st)
    (hrun : CtrlClaw.Run Bytes text) {m : ℕ} : Spellable pred Bytes m ↔ InChain st m := by
  constructor
  · rintro ⟨b, t, hcb, hct, hbm, hmt, htiled⟩
    obtain ⟨sel, hsel, htiles⟩ := (tiled_iff pow hrun).mp htiled
    have hle := hct.le_last h hrun
    obtain ⟨x, hx, hxb, hbx⟩ := htiles.exists_mem le_rfl (by omega)
    obtain ⟨d, hd, -⟩ := h.exists_group (hsel x hx)
    have hfirst := h.prepared.adjusted_hints.startPos_le ((h.piece x).mpr (hsel x hx))
    -- the group in which the byte lies
    obtain ⟨c, hc, hcm, hmc⟩ :=
      (h.groups_tile hd).exists_mem (show startPos st.wordAdjustedSeq_ ≤ m by omega)
        (by omega)
    have hb : b ≤ startPos c := by
      by_contra hin
      exact h.not_cut_inside hrun hc (by omega) (by omega) hcb
    have ht : posLast c ≤ t := by
      by_contra hin
      exact h.not_cut_inside hrun hc (by omega) (by omega) hct
    exact ⟨c, hc, h.hasChain_of_tiles hrun hc hb ht hct hsel htiles, hcm, hmc⟩
  · rintro ⟨c, hc, ⟨sel, hsel, htiles⟩, hcm, hmc⟩
    exact ⟨startPos c, posLast c, h.cut_start hrun hc, h.cut_stop hrun hc, hcm, hmc,
      (tiled_iff pow hrun).mpr ⟨sel, fun e he => h.group_piece hc (hsel e he), htiles⟩⟩

/-! ## The selection -/

variable {dijkstra : WGraph ℚ → ℕ → ℕ} {picks : List (List WordElement)}

/-- A group with a chain is picked in full, another one not at all. -/
theorem PickOf.full_or_nil {confuse picked hints : List WordElement} {rule : EdgeRule}
    (hg : GroupOf Bytes hints confuse) (hrule : rule.Total)
    (hpick : PickOf rule byWordAndPosition dijkstra hints confuse picked) :
    (HasChain confuse ∧ Tiles WordElement.position WordElement.stop (startPos confuse)
      (posLast confuse) picked) ∨ (¬ HasChain confuse ∧ picked = []) := by
  by_cases hchain : HasChain confuse
  · left
    obtain ⟨sel, -, hsel, rfl⟩ := hpick.onPath hg hrule hchain
    rw [found_self hg.hints hsel.mem,
      insertAll_chain hsel.tiles (hg.hints.positive hsel.mem)]
    exact ⟨hchain, hsel.tiles⟩
  · right
    refine ⟨hchain, (hpick.tiles hg.hints).resolve_right ?_⟩
    intro htiles
    exact hchain ⟨picked, hpick.mem, htiles⟩

theorem Collected.covers_iff (h : Collected pow pred Bytes st)
    (hrun : CtrlClaw.Run Bytes text) {rule : EdgeRule} (hrule : rule.Total)
    (hpicks : List.Forall₂ (PickOf rule byWordAndPosition dijkstra st.wordHintSeq_)
      st.noConflictWordSeq_ picks) {m : ℕ} :
    Covers WordElement.position WordElement.stop picks.flatten m ↔ InChain st m := by
  have hpositive : ∀ c ∈ st.noConflictWordSeq_, ∀ picked, (∀ e ∈ picked, e ∈ c) →
      Positive WordElement.position WordElement.stop picked :=
    fun c hc _ hmem => (h.group_hints hrun c hc).positive hmem
  constructor
  · rintro ⟨e, he, hem, hme⟩
    obtain ⟨picked, hpicked, hep⟩ := List.mem_flatten.mp he
    obtain ⟨c, hc, hpick⟩ := exists_of_mem_right hpicks hpicked
    rcases hpick.full_or_nil (h.prepared.group hrun hc) hrule with
      ⟨hchain, htiles⟩ | ⟨-, rfl⟩
    · have hbounds := htiles.bounds (hpositive c hc picked hpick.mem) hep
      exact ⟨c, hc, hchain, by omega, by omega⟩
    · exact absurd hep List.not_mem_nil
  · rintro ⟨c, hc, hchain, hcm, hmc⟩
    obtain ⟨picked, hpicked, hpick⟩ := exists_of_mem_left hpicks hc
    rcases hpick.full_or_nil (h.prepared.group hrun hc) hrule with
      ⟨-, htiles⟩ | ⟨hno, -⟩
    · obtain ⟨e, he, hem, hme⟩ := htiles.exists_mem hcm hmc
      exact ⟨e, List.mem_flatten.mpr ⟨picked, hpicked, he⟩, hem, hme⟩
    · exact absurd hchain hno

/-- **The selected words touch each other exactly when the groups with a chain stand
next to each other.** -/
theorem Collected.touching_iff (h : Collected pow pred Bytes st)
    (hrun : CtrlClaw.Run Bytes text) {rule : EdgeRule} (hrule : rule.Total)
    (hpicks : List.Forall₂ (PickOf rule byWordAndPosition dijkstra st.wordHintSeq_)
      st.noConflictWordSeq_ picks) :
    picks.flatten.IsChain (fun e e' => e.stop = e'.position) ↔
      ∀ m₁ m₂ m₃, m₁ ≤ m₂ → m₂ ≤ m₃ → InChain st m₁ → InChain st m₃ → InChain st m₂ := by
  have hsel := selection_of_picks h.prepared hrun hpicks
  have hpos : Positive WordElement.position WordElement.stop picks.flatten := by
    intro e he
    obtain ⟨picked, hpicked, hep⟩ := List.mem_flatten.mp he
    obtain ⟨c, hc, hpick⟩ := exists_of_mem_right hpicks hpicked
    exact (h.group_hints hrun c hc).positive hpick.mem e hep
  have hdisjoint : picks.flatten.Pairwise (fun e e' => e.stop ≤ e'.position) := hsel.disjoint
  rw [isChain_iff_convex hdisjoint hpos]
  simp only [h.covers_iff hrun hrule hpicks]

end Collected

/-- A covered sentence is spellable from end to end. -/
theorem unbroken_of_covered {pred : Str → ℚ} {Bytes : List Str} {text : Str}
    (hrun : CtrlClaw.Run Bytes text) (hcov : Covered pred Bytes) : Unbroken pred Bytes := by
  obtain ⟨st, -, h, -⟩ := prepare_collected (fun _ _ => 0) pred hrun
  obtain ⟨hends, hchain⟩ := (h.covered_iff hrun).mp hcov
  have htiles := h.tiles hrun hends
  intro m₁ m₂ m₃ _ h₂₃ _ h₃
  rw [h.spellable_iff hrun] at h₃ ⊢
  obtain ⟨c, hc, -, -, hlt⟩ := h₃
  have hbound := (htiles.bounds (h.groups_positive hrun) hc).2
  obtain ⟨d, hd, hdm, hmd⟩ := htiles.exists_mem (Nat.zero_le m₂) (by omega)
  exact ⟨d, hd, hchain d hd, hdm, hmd⟩

/-! ## Word pairs -/

section Pairs

/-- An element of the list with the one behind it. -/
def neighbours {α : Type*} (l : List α) : List (α × α) := l.zip l.tail

/-- `joint`, counted. -/
def countPair (m : MultiWord) (x : WordElement × WordElement) : MultiWord :=
  pushMultiWord m (x.1.word ++ [45] ++ x.2.word)

/-- `jointPair` counts the pairs of neighbours. -/
theorem jointPair_eq : ∀ (l : List WordElement) (m : MultiWord),
    jointPair l m = (neighbours l).foldl countPair m
  | [], _ => rfl
  | [_], _ => rfl
  | it :: nextIt :: rest, m => jointPair_eq (nextIt :: rest) (countPair m (it, nextIt))

theorem isChain_iff_neighbours {α : Type*} {R : α → α → Prop} : ∀ {l : List α},
    l.IsChain R ↔ ∀ x ∈ neighbours l, R x.1 x.2
  | [] => by simp [neighbours]
  | [a] => by simp [neighbours]
  | a :: b :: l => by
      have hcons : neighbours (a :: b :: l) = (a, b) :: neighbours (b :: l) := rfl
      rw [List.isChain_cons_cons, isChain_iff_neighbours, hcons, List.forall_mem_cons]

variable (pow : ℚ → ℚ → ℚ) (dijkstra : WGraph ℚ → ℕ → ℕ) (Bytes : List Str) (text : Str)
  (lang : Lang)

/-- `learn` counts the pairs of neighbours of its selection, and each of them follows
each other in the text. -/
def PhoenixWord.PairsAdjacent (p : PhoenixWord) : Prop :=
  ∃ p', p.learn pow dijkstra Bytes text lang = some p' ∧
    if Bytes.length < 2 then p' = p
    else
      p'.multiWordOfOneArticle_ = (neighbours p'.wordSeqTopSelected_).foldl countPair
        p.multiWordOfOneArticle_ ∧
      ∀ x ∈ neighbours p'.wordSeqTopSelected_, x.1.position + x.1.range = x.2.position

variable {dijkstra Bytes text lang}

/-- Said about the groups. -/
theorem PhoenixWord.pairsAdjacent_iff_groups (hrun : CtrlClaw.Run Bytes text)
    (p : PhoenixWord) (hlong : ¬ Bytes.length < 2) {st : SegmentState}
    (h : Collected pow (inputPred p.dictInputCN_ p.dictInputJA_ lang) Bytes st)
    (hst : prepare pow (inputPred p.dictInputCN_ p.dictInputJA_ lang) Bytes text = some st)
    (hvalid : ValidOn dijkstra wordRule st) (htop : st.wordSeqTopSelected_ = []) :
    p.PairsAdjacent pow dijkstra Bytes text lang ↔
      ∀ m₁ m₂ m₃, m₁ ≤ m₂ → m₂ ≤ m₃ → InChain st m₁ → InChain st m₃ → InChain st m₂ := by
  obtain ⟨picks, hpicks, hpred⟩ :=
    predict_spec byWordAndPosition h.prepared hrun hvalid htop
  have hlearn := p.learn_of_predict hst hpred hlong
  have htouching := h.touching_iff hrun wordRule_total hpicks
  constructor
  · rintro ⟨p', hp', hpairs⟩
    obtain rfl := Option.some.inj (hlearn.symm.trans hp')
    rw [if_neg hlong] at hpairs
    exact htouching.mp (isChain_iff_neighbours.mpr hpairs.2)
  · intro hconvex
    refine ⟨_, hlearn, ?_⟩
    rw [if_neg hlong]
    exact ⟨jointPair_eq _ _, isChain_iff_neighbours.mp (htouching.mpr hconvex)⟩

/-- **The pairs that are counted follow each other in the text exactly when the
spellable bytes of the sentence make one stretch**, whatever paths Boost's parents lead
back along. -/
theorem pairsAdjacent_iff (hemits : CtrlClaw.Emits Bytes text) (p : PhoenixWord)
    (hvalid : ∀ st, prepare pow (inputPred p.dictInputCN_ p.dictInputJA_ lang) Bytes
      text = some st → ValidOn dijkstra wordRule st) :
    p.PairsAdjacent pow dijkstra Bytes text lang ↔ Bytes.length < 2 ∨
      Unbroken (inputPred p.dictInputCN_ p.dictInputJA_ lang) Bytes := by
  by_cases hlong : Bytes.length < 2
  · constructor
    · exact fun _ => Or.inl hlong
    · intro _
      refine ⟨p, if_pos hlong, ?_⟩
      rw [if_pos hlong]
  · obtain ⟨st, hst, h, htop⟩ := prepare_collected pow
      (inputPred p.dictInputCN_ p.dictInputJA_ lang) hemits.run
    rw [p.pairsAdjacent_iff_groups pow hemits.run hlong h hst (hvalid st hst) htop,
      or_iff_right hlong, Unbroken]
    simp only [h.spellable_iff hemits.run]

end Pairs

/-! ## A group without a chain between two others

Of five characters the dictionary knows the first, the last and two words that
overlap in the middle. -/

section Hole

theorem pairsAdjacent_pair :
    pairPhoenix.PairsAdjacent natPow pairParents [charX, charY] (charX ++ charY) .cn := by
  refine (pairsAdjacent_iff natPow pair_emits pairPhoenix ?_).mpr
    (Or.inr (unbroken_of_covered pair_emits.run pair_covered))
  intro st hst
  apply pair_valid hst
  intro c hc
  rw [List.mem_singleton.mp hc]
  exact pair_tree.pathTree

def holeBytes : List Str :=
  [[228, 184, 128], [228, 184, 129], [228, 184, 130], [228, 184, 131], [228, 184, 132]]

def holeElements : List WordElement :=
  [WordElement.make [228, 184, 128] 0 (1 / 2) (1 / 2),
   WordElement.make [228, 184, 129, 228, 184, 130] 3 2048 (1 / 2),
   WordElement.make [228, 184, 130, 228, 184, 131] 6 2048 (1 / 2),
   WordElement.make [228, 184, 132] 12 (1 / 2) (1 / 2)]

def holePhoenix : PhoenixWord :=
  { pairPhoenix with dictInputCN_ := halfDictionary (holeElements.map WordElement.word) }

def holeGroups : List (List WordElement) :=
  [holeElements.take 1, (holeElements.drop 1).take 2, holeElements.drop 3]

theorem hole_emits : CtrlClaw.Emits holeBytes holeBytes.flatten := by
  have hchars : characters holeBytes.flatten = holeBytes := by with_unfolding_all decide
  have hne : holeBytes.flatten ≠ [] := by decide
  have hemits := CtrlClaw.emits_of_ordinary hne (by rw [hchars]; decide)
  rwa [hchars] at hemits

theorem hole_prepare : (prepare natPow (inputPred holePhoenix.dictInputCN_
    holePhoenix.dictInputJA_ .cn) holeBytes holeBytes.flatten).map
      SegmentState.noConflictWordSeq_ = some holeGroups := by
  with_unfolding_all decide

/-- Neither word of the middle group starts where the other one ends. -/
theorem hole_middle : ¬ HasChain ((holeElements.drop 1).take 2) :=
  not_hasChain_of_dead_end (by decide : 3 ≠ 12) (by decide : 9 ≠ 12) (by decide) (by decide)

/-- The first and the last character are counted as a pair, whatever Boost answers. -/
theorem joined_over_hole :
    CtrlClaw.Emits holeBytes holeBytes.flatten ∧
    (∃ dijkstra : WGraph ℚ → ℕ → ℕ, LeadsBack vrtxStart dijkstra) ∧
    ∀ dijkstra, LeadsBack vrtxStart dijkstra →
      ¬ holePhoenix.PairsAdjacent natPow dijkstra holeBytes holeBytes.flatten .cn := by
  refine ⟨hole_emits, exists_leadsBack vrtxStart, ?_⟩
  intro dijkstra hback hadjacent
  obtain ⟨st, hst, h, htop⟩ := prepare_collected natPow
    (inputPred holePhoenix.dictInputCN_ holePhoenix.dictInputJA_ .cn) hole_emits.run
  have hgroups := hole_prepare
  rw [hst, Option.map_some, Option.some.injEq] at hgroups
  have hconvex := (holePhoenix.pairsAdjacent_iff_groups natPow hole_emits.run (by decide) h
    hst (h.validOn hole_emits.run hback) htop).mp hadjacent
  have hsingle : ∀ e : WordElement, HasChain [e] := by
    intro e
    have hstop : posLast [e] = e.stop := posLast_append_singleton [] e
    refine ⟨[e], fun _ hx => hx, ?_⟩
    rw [hstop]
    exact tiles_singleton e
  have hfirst : InChain st 0 := by
    refine ⟨holeElements.take 1, by rw [hgroups]; simp [holeGroups], hsingle _, ?_⟩
    decide
  have hlast : InChain st 12 := by
    refine ⟨holeElements.drop 3, by rw [hgroups]; simp [holeGroups], hsingle _, ?_⟩
    decide
  obtain ⟨c, hc, hchain, hbounds⟩ := hconvex 0 3 12 (by decide) (by decide) hfirst hlast
  rw [hgroups] at hc
  have honly : ∀ c ∈ holeGroups, startPos c ≤ 3 ∧ 3 < posLast c →
      c = (holeElements.drop 1).take 2 := by
    with_unfolding_all decide
  rw [honly c hc hbounds] at hchain
  exact hole_middle hchain

end Hole

end WaiNative

import WaiNative.Segment.Pieces

/-!
# Coverage and stretches

`Covered` says, of the sentence and the dictionary alone, when the pieces reach
over the whole sentence: they can tile it, and the known word that starts last
reaches its end. `Stretch` is a piece of the sentence that falls into no two.

For a covered sentence the conflict groups are its stretches
(`stretch_iff_group`), and a sentence is covered exactly when its groups reach
from end to end and each has a chain (`covered_iff`).
-/

namespace WaiNative

open Cxx Tiling

section Definitions

variable (pred : Str → ℚ) (Bytes : List Str)

/-- The pieces reach over the whole sentence. -/
structure Covered : Prop where
  tiled : ∃ l : List (ℕ × ℕ), Tiles Prod.fst Prod.snd 0 Bytes.flatten.length l ∧
    ∀ x ∈ l, PieceAt pred Bytes x.1 x.2
  last : ∃ b, KnownAt pred Bytes b Bytes.flatten.length ∧
    ∀ b' q, KnownAt pred Bytes b' q → b' ≤ b

/-- No piece reaches over the byte position `m`. -/
def Unspanned (m : ℕ) : Prop :=
  ∀ p q, PieceAt pred Bytes p q → ¬ (p < m ∧ m < q)

/-- The known word that starts last, the longest if there are several, ends at `t`. -/
def LastStop (t : ℕ) : Prop :=
  ∃ b, KnownAt pred Bytes b t ∧
    ∀ b' q, KnownAt pred Bytes b' q → b' < b ∨ (b' = b ∧ q ≤ t)

/-- A part of the sentence that can be cut off at its ends and nowhere inside. -/
structure Stretch (b t : ℕ) : Prop where
  lt : b < t
  le : t ≤ Bytes.flatten.length
  start : Unspanned pred Bytes b
  stop : Unspanned pred Bytes t
  inside : ∀ m, b < m → m < t → ¬ Unspanned pred Bytes m

end Definitions

/-! ## Groups by position -/

section Groups

variable {Bytes : List Str} {gs : List (List WordElement)}

theorem startPos_mem {c : List WordElement} (hc : c ≠ []) :
    ∃ e ∈ c, e.position = startPos c := by
  cases c with
  | nil => exact absurd rfl hc
  | cons e c => exact ⟨e, List.mem_cons_self, rfl⟩

theorem posLast_mem {c : List WordElement} (hc : c ≠ []) :
    ∃ e ∈ c, e.stop = posLast c := by
  obtain ⟨l, e, rfl⟩ := (List.eq_nil_or_concat' c).resolve_left hc
  exact ⟨e, by simp, (posLast_append_singleton l e).symm⟩

/-- When no element reaches further than the last group, none reaches out of its
own. -/
theorem stop_le_posLast {b t : ℕ} (htiles : Tiles startPos posLast b t gs)
    (hgood : GoodGroups gs) (ht : ∀ c ∈ gs, ∀ e ∈ c, e.stop ≤ t) :
    ∀ c ∈ gs, ∀ e ∈ c, e.stop ≤ posLast c := by
  induction htiles with
  | nil => exact fun c hc => absurd hc List.not_mem_nil
  | @cons b t c gs hs htiles ih =>
      intro d hd e he
      rcases List.mem_cons.mp hd with rfl | hd
      · cases htiles with
        | nil => exact ht d List.mem_cons_self e he
        | @cons _ _ c' gs hs' _ =>
            -- the next group starts where this one ends
            obtain ⟨x, hx, hxp⟩ := startPos_mem (hgood.nonempty c' (by simp))
            have hle := (List.pairwise_cons.mp hgood.apart).1 c' (by simp) e he x hx
            omega
      · exact ih hgood.tail (fun c' hc' => ht c' (List.mem_cons_of_mem _ hc')) d hd e he

/-- Two groups are the same, or one lies before the other. -/
theorem group_compare (hgood : GoodGroups gs) {c d : List WordElement} (hc : c ∈ gs)
    (hd : d ∈ gs) : c = d ∨ (∀ e ∈ c, ∀ e' ∈ d, e.stop ≤ e'.position) ∨
      (∀ e ∈ d, ∀ e' ∈ c, e.stop ≤ e'.position) := by
  have hpair := hgood.apart
  clear hgood
  induction gs with
  | nil => exact absurd hc List.not_mem_nil
  | cons x gs ih =>
      obtain ⟨hx, hgs⟩ := List.pairwise_cons.mp hpair
      rcases List.mem_cons.mp hc with rfl | hc' <;>
        rcases List.mem_cons.mp hd with rfl | hd'
      · exact Or.inl rfl
      · exact Or.inr (Or.inl (hx d hd'))
      · exact Or.inr (Or.inr (hx c hc'))
      · exact ih hc' hd' hgs

/-- An element of some group ends before any other group, or is in it, or starts
behind it. -/
theorem group_side (hgood : GoodGroups gs) {c d : List WordElement} (hc : c ∈ gs)
    (hd : d ∈ gs) {e : WordElement} (he : e ∈ d) :
    e.stop ≤ startPos c ∨ e ∈ c ∨ posLast c ≤ e.position := by
  rcases group_compare hgood hc hd with rfl | hbefore | hbehind
  · exact Or.inr (Or.inl he)
  · obtain ⟨x, hx, hxs⟩ := posLast_mem (hgood.nonempty c hc)
    exact Or.inr (Or.inr (hxs ▸ hbefore x hx e he))
  · obtain ⟨x, hx, hxp⟩ := startPos_mem (hgood.nonempty c hc)
    exact Or.inl (hxp ▸ hbehind e he x hx)

/-- An element of some group lies before, in or behind any other group. -/
theorem group_position (hgood : GoodGroups gs) (hhints : ∀ c ∈ gs, HintSeq Bytes c)
    (hstop : ∀ c ∈ gs, ∀ e ∈ c, e.stop ≤ posLast c) {c d : List WordElement}
    (hc : c ∈ gs) (hd : d ∈ gs) {e : WordElement} (he : e ∈ d) :
    e.stop ≤ startPos c ∨ (e ∈ c ∧ startPos c ≤ e.position ∧ e.stop ≤ posLast c) ∨
      posLast c ≤ e.position := by
  rcases group_side hgood hc hd he with hbefore | hec | hbehind
  · exact Or.inl hbefore
  · exact Or.inr (Or.inl ⟨hec, (hhints c hc).startPos_le hec, hstop c hc e hec⟩)
  · exact Or.inr (Or.inr hbehind)

/-- Strictly inside a group, every position is reached over. -/
theorem exists_spanning (hgood : GoodGroups gs) {c : List WordElement} (hc : c ∈ gs)
    {m : ℕ} (hb : startPos c < m) (ht : m < posLast c) :
    ∃ e ∈ c, e.position < m ∧ m < e.stop := by
  by_contra hn
  push Not at hn
  obtain ⟨x, hx, hxs⟩ := posLast_mem (hgood.nonempty c hc)
  obtain ⟨y, hy, hyp⟩ := startPos_mem (hgood.nonempty c hc)
  -- the first element that starts behind `m` is reached over by none before it
  cases hfind : c.find? (fun e => decide (m ≤ e.position)) with
  | none =>
      have hlt : x.position < m := by simpa using List.find?_eq_none.mp hfind x hx
      have hle := hn x hx hlt
      omega
  | some e =>
      obtain ⟨hme, l, r, hsplit, hl⟩ := List.find?_eq_some_iff_append.mp hfind
      have hme' : m ≤ e.position := by simpa using hme
      have hlt : ∀ z ∈ l, z.position < m := fun z hz => by simpa using hl z hz
      have hne : l ≠ [] := by
        rintro rfl
        rw [hsplit, List.nil_append] at hb
        have : startPos (e :: r) = e.position := rfl
        omega
      obtain ⟨z, hz, hzs⟩ := hgood.joint c hc l e r hsplit hne
      have hle := hn z (by rw [hsplit]; simp [hz]) (hlt z hz)
      omega

/-- Chains of all groups join to one. -/
theorem chains_join {b t : ℕ} (htiles : Tiles startPos posLast b t gs)
    (hchain : ∀ c ∈ gs, ∃ sel, (∀ e ∈ sel, e ∈ c) ∧
      Tiles WordElement.position WordElement.stop (startPos c) (posLast c) sel) :
    ∃ sel, (∀ e ∈ sel, e ∈ gs.flatten) ∧
      Tiles WordElement.position WordElement.stop b t sel := by
  induction htiles with
  | nil b => exact ⟨[], by simp, Tiles.nil b⟩
  | @cons b t c gs hs _ ih =>
      obtain ⟨sel, hsel, htiles⟩ := hchain c List.mem_cons_self
      obtain ⟨rest, hrest, htiles'⟩ :=
        ih (fun d hd => hchain d (List.mem_cons_of_mem _ hd))
      refine ⟨sel ++ rest, ?_, hs ▸ htiles.append htiles'⟩
      intro e he
      rw [List.flatten_cons]
      rcases List.mem_append.mp he with he | he
      · exact List.mem_append_left _ (hsel e he)
      · exact List.mem_append_right _ (hrest e he)

end Groups

/-! ## Groups are stretches -/

section Collected

variable {pow : ℚ → ℚ → ℚ} {pred : Str → ℚ} {Bytes : List Str} {text : Str}
  {st : SegmentState}

/-- The state behind the stages, with its elements as pieces of the sentence. -/
structure Collected (pow : ℚ → ℚ → ℚ) (pred : Str → ℚ) (Bytes : List Str)
    (st : SegmentState) : Prop where
  prepared : Prepared Bytes st
  piece : ∀ e, e ∈ st.wordAdjustedSeq_ ↔ IsPiece pow pred Bytes e

theorem prepare_collected (pow : ℚ → ℚ → ℚ) (pred : Str → ℚ)
    (hrun : CtrlClaw.Run Bytes text) :
    ∃ st, prepare pow pred Bytes text = some st ∧ Collected pow pred Bytes st ∧
      st.wordSeqTopSelected_ = [] := by
  obtain ⟨st, hst, hprep, htop, hmin, hhints, hadj⟩ := prepare_eq pow pred hrun
  refine ⟨st, hst, ⟨hprep, ?_⟩, htop⟩
  intro e
  rw [hadj, hhints, hmin]
  exact mem_adjusted_iff hrun.ne_nil

theorem Collected.group_piece (h : Collected pow pred Bytes st) {c : List WordElement}
    (hc : c ∈ st.noConflictWordSeq_) {e : WordElement} (he : e ∈ c) :
    IsPiece pow pred Bytes e :=
  (h.piece e).mp ((h.prepared.group_sublist hc).subset he)

theorem Collected.exists_group (h : Collected pow pred Bytes st) {e : WordElement}
    (he : IsPiece pow pred Bytes e) : ∃ c ∈ st.noConflictWordSeq_, e ∈ c := by
  have hmem := (h.piece e).mpr he
  rw [← h.prepared.flatten] at hmem
  exact List.mem_flatten.mp hmem

theorem Collected.stop_le (h : Collected pow pred Bytes st) {e : WordElement}
    (he : IsPiece pow pred Bytes e) : e.stop ≤ Bytes.flatten.length :=
  h.prepared.adjusted_hints.stop_le ((h.piece e).mpr he)

/-- A position is unspanned when no element of the state reaches over it. -/
theorem Collected.unspanned_iff (h : Collected pow pred Bytes st)
    (hrun : CtrlClaw.Run Bytes text) {m : ℕ} :
    Unspanned pred Bytes m ↔
      ∀ c ∈ st.noConflictWordSeq_, ∀ e ∈ c, ¬ (e.position < m ∧ m < e.stop) := by
  constructor
  · intro hun c hc e he
    exact hun _ _ ((pieceAt_iff pow hrun.ne_nil).mpr ⟨e, h.group_piece hc he, rfl, rfl⟩)
  · intro hun p q hpiece
    obtain ⟨e, he, rfl, rfl⟩ := (pieceAt_iff pow hrun.ne_nil).mp hpiece
    obtain ⟨c, hc, hec⟩ := h.exists_group he
    exact hun c hc e hec

/-- The groups reach from end to end. -/
structure EndToEnd (Bytes : List Str) (st : SegmentState) : Prop where
  start : startPos st.wordAdjustedSeq_ = 0
  stop : posLast st.wordAdjustedSeq_ = Bytes.flatten.length

theorem Collected.tiles (h : Collected pow pred Bytes st)
    (hrun : CtrlClaw.Run Bytes text) (hends : EndToEnd Bytes st) :
    Tiles startPos posLast 0 Bytes.flatten.length st.noConflictWordSeq_ := by
  have hne : st.noConflictWordSeq_ ≠ [] := by
    intro hnil
    have hflat := h.prepared.flatten
    rw [hnil, List.flatten_nil] at hflat
    have hstop := hends.stop
    rw [← hflat] at hstop
    have hpos := hrun.length_pos
    have hzero : posLast [] = 0 := rfl
    omega
  have htiles := h.prepared.tiles hne
  rwa [hends.start, hends.stop] at htiles

theorem Collected.group_stop_le (h : Collected pow pred Bytes st)
    (hrun : CtrlClaw.Run Bytes text) (hends : EndToEnd Bytes st) :
    ∀ c ∈ st.noConflictWordSeq_, ∀ e ∈ c, e.stop ≤ posLast c :=
  stop_le_posLast (h.tiles hrun hends) h.prepared.good
    (fun _ hc _ he => h.stop_le (h.group_piece hc he))

theorem Collected.group_hints (h : Collected pow pred Bytes st)
    (hrun : CtrlClaw.Run Bytes text) :
    ∀ c ∈ st.noConflictWordSeq_, HintSeq Bytes c :=
  fun _ hc => (h.prepared.group hrun hc).hints

theorem Collected.groups_positive (h : Collected pow pred Bytes st)
    (hrun : CtrlClaw.Run Bytes text) :
    Positive startPos posLast st.noConflictWordSeq_ :=
  fun c hc => (h.group_hints hrun c hc).startPos_lt_posLast
    (h.prepared.good.nonempty c hc)

/-- No element reaches over the start or the end of a group. -/
theorem Collected.unspanned_ends (h : Collected pow pred Bytes st)
    (hrun : CtrlClaw.Run Bytes text) (hends : EndToEnd Bytes st)
    {c : List WordElement} (hc : c ∈ st.noConflictWordSeq_) :
    Unspanned pred Bytes (startPos c) ∧ Unspanned pred Bytes (posLast c) := by
  have hlt := h.groups_positive hrun c hc
  have hposition : ∀ d ∈ st.noConflictWordSeq_, ∀ e ∈ d, _ := fun d hd e he =>
    group_position h.prepared.good (h.group_hints hrun) (h.group_stop_le hrun hends)
      hc hd he
  constructor
  · apply (h.unspanned_iff hrun).mpr
    rintro d hd e he ⟨hl, hr⟩
    rcases hposition d hd e he with hbefore | ⟨-, hin, -⟩ | hbehind
    · omega
    · omega
    · omega
  · apply (h.unspanned_iff hrun).mpr
    rintro d hd e he ⟨hl, hr⟩
    rcases hposition d hd e he with hbefore | ⟨-, -, hin⟩ | hbehind
    · omega
    · omega
    · omega

theorem Collected.spanned_inside (h : Collected pow pred Bytes st)
    (hrun : CtrlClaw.Run Bytes text) {c : List WordElement}
    (hc : c ∈ st.noConflictWordSeq_) {m : ℕ} (hb : startPos c < m)
    (ht : m < posLast c) : ¬ Unspanned pred Bytes m := by
  intro hun
  obtain ⟨e, he, hspan⟩ := exists_spanning h.prepared.good hc hb ht
  exact (h.unspanned_iff hrun).mp hun c hc e he hspan

/-- **When the groups reach from end to end, they are the stretches.** -/
theorem Collected.stretch_iff_group (h : Collected pow pred Bytes st)
    (hrun : CtrlClaw.Run Bytes text) (hends : EndToEnd Bytes st) {b t : ℕ} :
    Stretch pred Bytes b t ↔
      ∃ c ∈ st.noConflictWordSeq_, startPos c = b ∧ posLast c = t := by
  have htiles := h.tiles hrun hends
  have hpos := h.groups_positive hrun
  constructor
  · intro hs
    have hlt := hs.lt
    have hle := hs.le
    obtain ⟨c, hc, hcb, hbc⟩ := htiles.exists_mem (Nat.zero_le b) (by omega)
    have hb : startPos c = b := by
      by_contra hne
      exact h.spanned_inside hrun hc (by omega) hbc hs.start
    refine ⟨c, hc, hb, le_antisymm ?_ ?_⟩
    · by_contra hgt
      exact h.spanned_inside hrun hc (by omega) (by omega) hs.stop
    · by_contra hgt
      exact hs.inside (posLast c) (by omega) (by omega)
        (h.unspanned_ends hrun hends hc).2
  · rintro ⟨c, hc, rfl, rfl⟩
    have hun := h.unspanned_ends hrun hends hc
    exact ⟨hpos c hc, (htiles.bounds hpos hc).2, hun.1, hun.2,
      fun m hb ht => h.spanned_inside hrun hc hb ht⟩

/-! ## Coverage by groups -/

/-- The last entry of a state is a known word: behind a gap comes another. -/
theorem Collected.last_known (h : Collected pow pred Bytes st)
    (hrun : CtrlClaw.Run Bytes text) {l : List WordElement} {x : WordElement}
    (hlast : st.wordAdjustedSeq_ = l ++ [x]) : KnownAt pred Bytes x.position x.stop := by
  have hpiece := (pieceAt_iff pow hrun.ne_nil).mpr
    ⟨x, (h.piece x).mp (by rw [hlast]; simp), rfl, rfl⟩
  rcases hpiece with hknown | ⟨hlt, -, r, hr⟩
  · exact hknown
  · obtain ⟨y, hy, hyp, -⟩ := (pieceAt_iff pow hrun.ne_nil).mp (Or.inl hr)
    have hmem := (h.piece y).mpr hy
    have hord := h.prepared.adjusted_hints.ordered
    rw [hlast] at hmem hord
    have hle : y.position ≤ x.position := by
      rcases List.mem_append.mp hmem with hmem | hmem
      · exact ((List.pairwise_append.mp hord).2.2 y hmem x (by simp)).le
      · rw [List.mem_singleton.mp hmem]
    omega

/-- The last entry is the known word that starts last. -/
theorem Collected.lastStop_iff (h : Collected pow pred Bytes st)
    (hrun : CtrlClaw.Run Bytes text) {t : ℕ} :
    LastStop pred Bytes t ↔
      st.wordAdjustedSeq_ ≠ [] ∧ posLast st.wordAdjustedSeq_ = t := by
  have hbefore : ∀ {l : List WordElement} {x y : WordElement},
      st.wordAdjustedSeq_ = l ++ [x] → y ∈ st.wordAdjustedSeq_ →
        y.position < x.position ∨ (y.position = x.position ∧ y.stop ≤ x.stop) := by
    intro l x y hlast hy
    have hord := h.prepared.adjusted_hints.ordered
    rw [hlast] at hord hy
    rcases List.mem_append.mp hy with hy | hy
    · rcases (List.pairwise_append.mp hord).2.2 y hy x (by simp) with hlt | ⟨hp, hr⟩
      · exact Or.inl hlt
      · refine Or.inr ⟨hp, ?_⟩
        rw [WordElement.stop, WordElement.stop]
        omega
    · obtain rfl := List.mem_singleton.mp hy
      exact Or.inr ⟨rfl, le_rfl⟩
  constructor
  · rintro ⟨b, hb, hmax⟩
    obtain ⟨y, hy, rfl, rfl⟩ := (pieceAt_iff pow hrun.ne_nil).mp (Or.inl hb)
    have hmem := (h.piece y).mpr hy
    have hne := List.ne_nil_of_mem hmem
    obtain ⟨l, x, hlast⟩ := (List.eq_nil_or_concat' st.wordAdjustedSeq_).resolve_left hne
    refine ⟨hne, ?_⟩
    rw [hlast, posLast_append_singleton]
    have hxy := hmax _ _ (h.last_known hrun hlast)
    have hyx := hbefore hlast hmem
    omega
  · rintro ⟨hne, rfl⟩
    obtain ⟨l, x, hlast⟩ := (List.eq_nil_or_concat' st.wordAdjustedSeq_).resolve_left hne
    rw [hlast, posLast_append_singleton]
    refine ⟨x.position, h.last_known hrun hlast, ?_⟩
    intro b' q hb'
    obtain ⟨y, hy, rfl, rfl⟩ := (pieceAt_iff pow hrun.ne_nil).mp (Or.inl hb')
    exact hbefore hlast ((h.piece y).mpr hy)

/-- The known word that starts last reaches the end exactly when the last entry
does. -/
theorem Collected.last_iff (h : Collected pow pred Bytes st)
    (hrun : CtrlClaw.Run Bytes text) :
    (∃ b, KnownAt pred Bytes b Bytes.flatten.length ∧
      ∀ b' q, KnownAt pred Bytes b' q → b' ≤ b) ↔
      posLast st.wordAdjustedSeq_ = Bytes.flatten.length := by
  have hlast : (∃ b, KnownAt pred Bytes b Bytes.flatten.length ∧
      ∀ b' q, KnownAt pred Bytes b' q → b' ≤ b) ↔
      LastStop pred Bytes Bytes.flatten.length := by
    constructor
    · rintro ⟨b, hb, hmax⟩
      refine ⟨b, hb, ?_⟩
      intro b' q hq
      have hle := (hq.bounds hrun.ne_nil).2
      exact (hmax b' q hq).lt_or_eq.imp_right (fun heq => ⟨heq, hle⟩)
    · rintro ⟨b, hb, hmax⟩
      exact ⟨b, hb, fun b' q hq => (hmax b' q hq).elim le_of_lt (fun heq => heq.1.le)⟩
  rw [hlast, h.lastStop_iff hrun, and_iff_right_iff_imp]
  intro hstop hnil
  have hpos := hrun.length_pos
  have hzero : posLast [] = 0 := rfl
  rw [hnil] at hstop
  omega

/-- A tiling by pieces is a chain of entries, and the other way round. -/
theorem tiled_iff (pow : ℚ → ℚ → ℚ) (hrun : CtrlClaw.Run Bytes text) {b t : ℕ} :
    (∃ l : List (ℕ × ℕ), Tiles Prod.fst Prod.snd b t l ∧
      ∀ x ∈ l, PieceAt pred Bytes x.1 x.2) ↔
    ∃ sel, (∀ e ∈ sel, IsPiece pow pred Bytes e) ∧
      Tiles WordElement.position WordElement.stop b t sel := by
  constructor
  · rintro ⟨l, htiles, hl⟩
    induction htiles with
    | nil b => exact ⟨[], by simp, Tiles.nil b⟩
    | @cons b t x l hs _ ih =>
        obtain ⟨sel, hsel, htiles⟩ := ih (fun y hy => hl y (List.mem_cons_of_mem _ hy))
        obtain ⟨e, he, hp, hq⟩ :=
          (pieceAt_iff pow hrun.ne_nil).mp (hl x List.mem_cons_self)
        exact ⟨e :: sel, List.forall_mem_cons.mpr ⟨he, hsel⟩,
          Tiles.cons (hp.trans hs) (hq ▸ htiles)⟩
  · rintro ⟨sel, hsel, htiles⟩
    refine ⟨sel.map (fun e => (e.position, e.stop)), ?_, ?_⟩
    · clear hsel
      induction htiles with
      | nil b => exact Tiles.nil b
      | cons hs _ ih => exact Tiles.cons hs ih
    · rintro x hx
      obtain ⟨e, he, rfl⟩ := List.mem_map.mp hx
      exact (pieceAt_iff pow hrun.ne_nil).mpr ⟨e, hsel e he, rfl, rfl⟩

/-- Inside a group, a chain of pieces is a chain of the group's elements. -/
theorem Collected.mem_group (h : Collected pow pred Bytes st)
    (hrun : CtrlClaw.Run Bytes text) {c : List WordElement}
    (hc : c ∈ st.noConflictWordSeq_) {e : WordElement} (he : IsPiece pow pred Bytes e)
    (hb : startPos c ≤ e.position) (ht : e.stop ≤ posLast c) : e ∈ c := by
  obtain ⟨d, hd, hed⟩ := h.exists_group he
  have hpos := (h.group_hints hrun d hd).range_pos e hed
  have hstop : e.stop = e.position + e.range := rfl
  rcases group_side h.prepared.good hc hd hed with hbefore | hec | hbehind
  · omega
  · exact hec
  · omega

theorem IsPiece.lt (h : Collected pow pred Bytes st) {e : WordElement}
    (he : IsPiece pow pred Bytes e) : e.position < e.stop := by
  have hpos := h.prepared.adjusted_hints.range_pos e ((h.piece e).mpr he)
  rw [WordElement.stop]
  omega

/-- An entry lies on one side of a position that no piece reaches over. -/
theorem Unspanned.side (hrun : CtrlClaw.Run Bytes text) {m : ℕ}
    (hm : Unspanned pred Bytes m) {e : WordElement} (he : IsPiece pow pred Bytes e) :
    m ≤ e.position ∨ e.stop ≤ m := by
  have hnot := hm _ _ ((pieceAt_iff pow hrun.ne_nil).mpr ⟨e, he, rfl, rfl⟩)
  omega

/-- A tiling over a group, cut at the ends of the group, is a chain of it. -/
theorem Collected.chain_inside (h : Collected pow pred Bytes st)
    (hrun : CtrlClaw.Run Bytes text) {c : List WordElement}
    (hc : c ∈ st.noConflictWordSeq_) {b t : ℕ} (hb : b ≤ startPos c) (ht : posLast c ≤ t)
    {sel : List WordElement} (hsel : ∀ e ∈ sel, IsPiece pow pred Bytes e)
    (htiles : Tiles WordElement.position WordElement.stop b t sel)
    (hstart : ∀ e ∈ sel, startPos c ≤ e.position ∨ e.stop ≤ startPos c)
    (hstop : ∀ e ∈ sel, posLast c ≤ e.position ∨ e.stop ≤ posLast c) :
    ∃ chain, (∀ e ∈ chain, e ∈ c) ∧
      Tiles WordElement.position WordElement.stop (startPos c) (posLast c) chain := by
  obtain ⟨chain, hchain, hmid⟩ := htiles.middle (fun e he => (hsel e he).lt h) hb
    (h.groups_positive hrun c hc).le ht hstart hstop
  refine ⟨chain, ?_, hmid⟩
  intro e he
  obtain ⟨hmem, hin⟩ := hchain e he
  exact h.mem_group hrun hc (hsel e hmem) hin.1 hin.2

/-- **A sentence is covered exactly when its groups reach from end to end and
each of them has a chain.** -/
theorem Collected.covered_iff (h : Collected pow pred Bytes st)
    (hrun : CtrlClaw.Run Bytes text) :
    Covered pred Bytes ↔ EndToEnd Bytes st ∧
      ∀ c ∈ st.noConflictWordSeq_, ∃ sel, (∀ e ∈ sel, e ∈ c) ∧
        Tiles WordElement.position WordElement.stop (startPos c) (posLast c) sel := by
  constructor
  · intro hcov
    obtain ⟨sel, hsel, htiles⟩ := (tiled_iff pow hrun).mp hcov.tiled
    have hends : EndToEnd Bytes st := by
      refine ⟨?_, (h.last_iff hrun).mp hcov.last⟩
      obtain ⟨e, he, hzero, -⟩ := htiles.exists_mem le_rfl hrun.length_pos
      have hle := h.prepared.adjusted_hints.startPos_le ((h.piece e).mpr (hsel e he))
      omega
    refine ⟨hends, ?_⟩
    intro c hc
    have hun := h.unspanned_ends hrun hends hc
    have hbounds := (h.tiles hrun hends).bounds (h.groups_positive hrun) hc
    exact h.chain_inside hrun hc (Nat.zero_le _) hbounds.2 hsel htiles
      (fun e he => hun.1.side hrun (hsel e he)) (fun e he => hun.2.side hrun (hsel e he))
  · rintro ⟨hends, hchain⟩
    refine ⟨(tiled_iff pow hrun).mpr ?_, (h.last_iff hrun).mpr hends.stop⟩
    obtain ⟨sel, hsel, htiles⟩ := chains_join (h.tiles hrun hends) hchain
    rw [h.prepared.flatten] at hsel
    exact ⟨sel, fun e he => (h.piece e).mp (hsel e he), htiles⟩

end Collected

end WaiNative

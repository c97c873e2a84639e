import WaiNative.Segment.Lookup

/-!
# The pieces of a sentence

What the segmenters can choose from, said about the sentence and the dictionary
alone: the known words (`KnownAt`), and the bytes between a known word and the
next one behind it (`GapAt`). `mem_adjusted_iff` says that these pieces are what
`prepare` leaves in `wordAdjustedSeq_`, with the weights of `IsPiece`.
-/

namespace WaiNative

open Cxx

section Pieces

variable (pow : ℚ → ℚ → ℚ) (pred : Str → ℚ) (Bytes : List Str)

/-- The dictionary knows the word at the bytes `[p, q)`. -/
def KnownAt (p q : ℕ) : Prop :=
  ∃ w, WindowAt true Bytes w p ∧ 0 < pred w ∧ q = p + w.length

/-- The bytes `[p, q)` lie between the longest known word that starts where it
starts, and the next start of a known word. -/
structure GapAt (p q : ℕ) : Prop where
  lt : p < q
  behind : ∃ b, KnownAt pred Bytes b p ∧ (∀ r, KnownAt pred Bytes b r → r ≤ p) ∧
    ∀ b' r, KnownAt pred Bytes b' r → b < b' → q ≤ b'
  next : ∃ r, KnownAt pred Bytes q r

/-- The bytes `[p, q)` are a known word or a gap. -/
def PieceAt (p q : ℕ) : Prop := KnownAt pred Bytes p q ∨ GapAt pred Bytes p q

/-- The size of the shortest known word, at most 32. -/
def shortest : ℕ :=
  (((windows true Bytes).filter (fun v => 0 < pred v.1)).map
    (fun v => v.1.length)).foldl min 32

/-- The entry of a piece, with its adjusted weight. -/
inductive IsPiece : WordElement → Prop
  | known {w : Str} {p : ℕ} : WindowAt true Bytes w p → 0 < pred w →
      IsPiece (adjustElement pow (shortest pred Bytes) (hintOf pred (w, p)))
  | gap {p q : ℕ} : GapAt pred Bytes p q →
      IsPiece (adjustElement pow (shortest pred Bytes) (filler Bytes.flatten p q))

end Pieces

section Entries

variable {pow : ℚ → ℚ → ℚ} {pred : Str → ℚ} {Bytes : List Str}

/-- The least size of the words that are kept. -/
theorem foldl_pushHint_shortest : ∀ (vs : List (Str × ℕ)) (st : RawRank),
    (vs.foldl (fun st v => pushHint pred st v.1 v.2) st).statisticsMinWordSize_ =
      ((vs.filter (fun v => 0 < pred v.1)).map (fun v => v.1.length)).foldl min
        st.statisticsMinWordSize_
  | [], _ => rfl
  | v :: vs, st => by
      rw [List.foldl_cons, foldl_pushHint_shortest vs]
      by_cases hv : 0 < pred v.1
      · have hmin : (if st.statisticsMinWordSize_ > v.1.length then v.1.length
            else st.statisticsMinWordSize_) =
              min st.statisticsMinWordSize_ v.1.length := by
          split <;> omega
        simp [pushHint, hv, hmin]
      · simp [pushHint, hv]

theorem getRawRank_shortest (pred : Str → ℚ) (Bytes : List Str) :
    (getRawRank pred Bytes).statisticsMinWordSize_ = shortest pred Bytes := by
  rw [getRawRank, forWindows_eq, foldl_pushHint_shortest]
  rfl

/-- A known word is a hint, and the other way round. -/
theorem knownAt_iff {p q : ℕ} : KnownAt pred Bytes p q ↔
    ∃ e ∈ (getRawRank pred Bytes).wordHintSeq_, e.position = p ∧ e.stop = q := by
  constructor
  · rintro ⟨w, hw, hpos, rfl⟩
    exact ⟨hintOf pred (w, p), mem_getRawRank.mpr ⟨w, p, hw, hpos, rfl⟩, rfl, rfl⟩
  · rintro ⟨e, he, rfl, rfl⟩
    obtain ⟨w, p, hw, hpos, rfl⟩ := mem_getRawRank.mp he
    exact ⟨w, hw, hpos, rfl⟩

section Neighbours

variable {e e' x : WordElement}

/-- No hint behind `e` starts before its successor. -/
theorem HintSeq.next_position_le {m : List WordElement} (h : HintSeq Bytes m)
    (hnext : [e, e'] <:+: m) (hx : x ∈ m)
    (hbefore : Multimap.Before WordElement.position WordElement.range e x) :
    e'.position ≤ x.position := by
  rcases h.ordered.neighbour hnext x hx hbefore with rfl | hlater
  · exact le_rfl
  · exact hlater.le

/-- What lies between a hint and its successor is a gap. -/
theorem gapAt_of_neighbours (hne : ∀ t ∈ Bytes, t ≠ [])
    (hnext : [e, e'] <:+: (getRawRank pred Bytes).wordHintSeq_)
    (hlt : e.stop < e'.position) : GapAt pred Bytes e.stop e'.position := by
  have hraw := getRawRank_hints pred hne
  have he : e ∈ (getRawRank pred Bytes).wordHintSeq_ := hnext.subset (by simp)
  have he' : e' ∈ (getRawRank pred Bytes).wordHintSeq_ := hnext.subset (by simp)
  have hpos := hraw.range_pos e he
  refine ⟨hlt, ⟨e.position, knownAt_iff.mpr ⟨e, he, rfl, rfl⟩, ?_, ?_⟩,
    e'.stop, knownAt_iff.mpr ⟨e', he', rfl, rfl⟩⟩
  · -- a longer word with the same start would come behind `e'`
    intro r hr
    obtain ⟨x, hx, hxp, rfl⟩ := knownAt_iff.mp hr
    by_contra hlong
    have hbefore : Multimap.Before WordElement.position WordElement.range e x := by
      refine Or.inr ⟨hxp.symm, ?_⟩
      simp only [WordElement.stop] at hlong
      omega
    have hle := hraw.next_position_le hnext hx hbefore
    rw [WordElement.stop] at hlt
    omega
  · intro b' r hr hb
    obtain ⟨x, hx, rfl, rfl⟩ := knownAt_iff.mp hr
    exact hraw.next_position_le hnext hx (Or.inl hb)

/-- A gap lies between a hint and its successor. -/
theorem neighbours_of_gapAt (hne : ∀ t ∈ Bytes, t ≠ []) {p q : ℕ}
    (hgap : GapAt pred Bytes p q) :
    ∃ e e', [e, e'] <:+: (getRawRank pred Bytes).wordHintSeq_ ∧ e.stop = p ∧
      e'.position = q := by
  obtain ⟨hlt, ⟨b, hb, hlong, hskip⟩, r, hr⟩ := hgap
  have hraw := getRawRank_hints pred hne
  obtain ⟨e, he, rfl, rfl⟩ := knownAt_iff.mp hb
  obtain ⟨x, hx, hxq, -⟩ := knownAt_iff.mp hr
  have hpos := hraw.range_pos e he
  have hstop : e.stop = e.position + e.range := rfl
  have hex : Multimap.Before WordElement.position WordElement.range e x :=
    Or.inl (by omega)
  obtain ⟨e', hnext⟩ := hraw.ordered.exists_neighbour he hx hex
  have he' : e' ∈ (getRawRank pred Bytes).wordHintSeq_ := hnext.subset (by simp)
  have hee : Multimap.Before WordElement.position WordElement.range e e' := by
    obtain ⟨l, r, hm⟩ := hnext
    have hord := hraw.ordered
    rw [← hm] at hord
    have hmid := (List.pairwise_append.mp (List.pairwise_append.mp hord).1).2.1
    exact (List.pairwise_cons.mp hmid).1 e' (by simp)
  -- the successor starts at `q`: not before, by the gap, nor behind, by `x`
  have hge : q ≤ e'.position := by
    rcases hee with h | ⟨hp, hr'⟩
    · exact hskip e'.position e'.stop (knownAt_iff.mpr ⟨e', he', rfl, rfl⟩) h
    · have hle := hlong e'.stop (knownAt_iff.mpr ⟨e', he', hp.symm, rfl⟩)
      rw [WordElement.stop] at hle
      omega
  have hle := hraw.next_position_le hnext hx hex
  exact ⟨e, e', hnext, rfl, by omega⟩

end Neighbours

/-- The gaps are where `getOutRank` puts a filler. -/
theorem mem_fillers_iff (hne : ∀ t ∈ Bytes, t ≠ []) {text : Str}
    {x : WordElement} : x ∈ fillers text (getRawRank pred Bytes).wordHintSeq_ ↔
      ∃ p q, GapAt pred Bytes p q ∧ x = filler text p q := by
  rw [mem_fillers]
  constructor
  · rintro ⟨e, e', hnext, hlt, rfl⟩
    exact ⟨e.stop, e'.position, gapAt_of_neighbours hne hnext hlt, rfl⟩
  · rintro ⟨p, q, hgap, rfl⟩
    obtain ⟨e, e', hnext, rfl, rfl⟩ := neighbours_of_gapAt hne hgap
    exact ⟨e, e', hnext, hgap.lt, rfl⟩

/-- **`wordAdjustedSeq_` holds exactly the pieces of the sentence.** -/
theorem mem_adjusted_iff (hne : ∀ t ∈ Bytes, t ≠ []) {e : WordElement} :
    e ∈ (fillGaps Bytes.flatten (getRawRank pred Bytes).wordHintSeq_).map
        (adjustElement pow (getRawRank pred Bytes).statisticsMinWordSize_) ↔
      IsPiece pow pred Bytes e := by
  rw [List.mem_map, getRawRank_shortest]
  constructor
  · rintro ⟨x, hx, rfl⟩
    rcases (mem_fillGaps _ _ _).mp hx with hx | hx
    · obtain ⟨w, p, hw, hpos, rfl⟩ := mem_getRawRank.mp hx
      exact IsPiece.known hw hpos
    · obtain ⟨p, q, hgap, rfl⟩ := (mem_fillers_iff hne).mp hx
      exact IsPiece.gap hgap
  · intro h
    cases h with
    | @known w p hw hpos =>
        exact ⟨_, (mem_fillGaps _ _ _).mpr (Or.inl
          (mem_getRawRank.mpr ⟨w, p, hw, hpos, rfl⟩)), rfl⟩
    | @gap p q hgap =>
        exact ⟨_, (mem_fillGaps _ _ _).mpr (Or.inr
          ((mem_fillers_iff hne).mpr ⟨p, q, hgap, rfl⟩)), rfl⟩

theorem KnownAt.bounds (hne : ∀ t ∈ Bytes, t ≠ []) {p q : ℕ}
    (h : KnownAt pred Bytes p q) : p < q ∧ q ≤ Bytes.flatten.length := by
  have hraw := getRawRank_hints pred hne
  obtain ⟨e, he, rfl, rfl⟩ := knownAt_iff.mp h
  have hpos := hraw.range_pos e he
  refine ⟨?_, (hraw.stop e he).le⟩
  rw [WordElement.stop]
  omega

/-- A piece is where its entry says. -/
theorem pieceAt_iff (pow : ℚ → ℚ → ℚ) (hne : ∀ t ∈ Bytes, t ≠ []) {p q : ℕ} :
    PieceAt pred Bytes p q ↔
      ∃ e, IsPiece pow pred Bytes e ∧ e.position = p ∧ e.stop = q := by
  have hstop : ∀ {p q}, GapAt pred Bytes p q →
      (filler Bytes.flatten p q).stop = q := by
    rintro p q ⟨hlt, -, r, hr⟩
    have hb := hr.bounds hne
    exact filler_stop hlt.le (by omega)
  constructor
  · rintro (⟨w, hw, hpos, rfl⟩ | hgap)
    · exact ⟨_, IsPiece.known hw hpos, rfl, rfl⟩
    · exact ⟨_, IsPiece.gap hgap, rfl, hstop hgap⟩
  · rintro ⟨e, he, rfl, rfl⟩
    cases he with
    | @known w p hw hpos => exact Or.inl ⟨w, hw, hpos, rfl⟩
    | @gap p q hgap =>
        right
        have heq : (adjustElement pow (shortest pred Bytes)
            (filler Bytes.flatten p q)).stop = q := hstop hgap
        rw [heq]
        exact hgap

end Entries

end WaiNative

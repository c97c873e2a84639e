import WaiNative.Segment.Pieces

/-!
# What the added hints cover

`getOutRank` adds a hint for the bytes between a hint and the next one in map order.
Nothing is added before the first hint or behind the last one, and a word that starts
earlier may reach over such a gap, or beyond it.

`getOutRank_covers_iff` says, of the sentence and the dictionary alone, when every
byte is covered afterwards and no added hint lies over a known word: a known word
starts the text, one ends it, and of the known words that start before a gap none ends
behind its start.
-/

namespace WaiNative

open Cxx Tiling

section Definitions

/-- Some hint lies over the byte. -/
def CoveredBy (hints : List WordElement) (m : ℕ) : Prop :=
  Covers WordElement.position WordElement.stop hints m

/-- Behind `getOutRank` every byte is covered, and the hints it has added cover none
that a hint had covered before. -/
def OutRankCovers (text : Str) (wordHintSeq_ : List WordElement) : Prop :=
  ∃ out added, getOutRank text wordHintSeq_ = some out ∧
    out.Perm (wordHintSeq_ ++ added) ∧ (∀ m < text.length, CoveredBy out m) ∧
    ∀ m, CoveredBy added m → ¬ CoveredBy wordHintSeq_ m

variable (pred : Str → ℚ) (Bytes : List Str)

/-- No known word that starts before a gap ends behind the start of the gap. -/
def NoneReachesIntoGap : Prop :=
  ∀ p q, GapAt pred Bytes p q → ∀ b r, KnownAt pred Bytes b r → b < p → r ≤ p

end Definitions

section Gaps

variable {pred : Str → ℚ} {Bytes : List Str}

theorem coveredBy_hints_iff {m : ℕ} :
    CoveredBy (getRawRank pred Bytes).wordHintSeq_ m ↔
      ∃ p q, KnownAt pred Bytes p q ∧ p ≤ m ∧ m < q := by
  constructor
  · rintro ⟨e, he, hp, hq⟩
    exact ⟨e.position, e.stop, knownAt_iff.mpr ⟨e, he, rfl, rfl⟩, hp, hq⟩
  · rintro ⟨p, q, hknown, hp, hq⟩
    obtain ⟨e, he, rfl, rfl⟩ := knownAt_iff.mp hknown
    exact ⟨e, he, hp, hq⟩

/-- The end of a gap lies before the end of the text. -/
theorem GapAt.stop_lt (hne : ∀ t ∈ Bytes, t ≠ []) {p q : ℕ} (h : GapAt pred Bytes p q) :
    q < Bytes.flatten.length := by
  obtain ⟨r, hr⟩ := h.next
  have hbounds := hr.bounds hne
  omega

theorem GapAt.start_pos (hne : ∀ t ∈ Bytes, t ≠ []) {p q : ℕ} (h : GapAt pred Bytes p q) :
    0 < p := by
  obtain ⟨b, hb, -⟩ := h.behind
  have hbounds := hb.bounds hne
  omega

theorem coveredBy_fillers_iff (hne : ∀ t ∈ Bytes, t ≠ []) {m : ℕ} :
    CoveredBy (fillers Bytes.flatten (getRawRank pred Bytes).wordHintSeq_) m ↔
      ∃ p q, GapAt pred Bytes p q ∧ p ≤ m ∧ m < q := by
  have hstop : ∀ {p q}, GapAt pred Bytes p q → (filler Bytes.flatten p q).stop = q :=
    fun hgap => filler_stop hgap.lt.le (hgap.stop_lt hne).le
  constructor
  · rintro ⟨x, hx, hp, hq⟩
    obtain ⟨p, q, hgap, rfl⟩ := (mem_fillers_iff hne).mp hx
    rw [hstop hgap] at hq
    exact ⟨p, q, hgap, hp, hq⟩
  · rintro ⟨p, q, hgap, hp, hq⟩
    refine ⟨_, (mem_fillers_iff hne).mpr ⟨p, q, hgap, rfl⟩, hp, ?_⟩
    rw [hstop hgap]
    exact hq

theorem coveredBy_append {l l' : List WordElement} {m : ℕ} :
    CoveredBy (l ++ l') m ↔ CoveredBy l m ∨ CoveredBy l' m := by
  simp [CoveredBy, Covers, List.mem_append, or_and_right, exists_or]

/-- The filled hints are the known words and the fillers. -/
theorem fillGaps_perm (text : Str) {m : List WordElement} (h : HintSeq Bytes m) :
    (fillGaps text m).Perm (m ++ fillers text m) := by
  rw [← insertAll_fillers text h]
  exact Multimap.insertAll_perm _ _

/-- Only one list of hints can have been added. -/
theorem outRankCovers_iff (hne : ∀ t ∈ Bytes, t ≠ []) :
    OutRankCovers Bytes.flatten (getRawRank pred Bytes).wordHintSeq_ ↔
      (∀ m < Bytes.flatten.length,
        CoveredBy (fillGaps Bytes.flatten (getRawRank pred Bytes).wordHintSeq_) m) ∧
      ∀ m, CoveredBy (fillers Bytes.flatten (getRawRank pred Bytes).wordHintSeq_) m →
        ¬ CoveredBy (getRawRank pred Bytes).wordHintSeq_ m := by
  have hraw := getRawRank_hints pred hne
  have hperm := fillGaps_perm Bytes.flatten hraw
  constructor
  · rintro ⟨out, added, hout, hadded, hall, happart⟩
    rw [getOutRank_eq hraw] at hout
    obtain rfl := Option.some.inj hout
    have hsame := (List.perm_append_left_iff _).mp (hperm.symm.trans hadded)
    refine ⟨hall, ?_⟩
    rintro m ⟨x, hx, hm⟩
    exact happart m ⟨x, hsame.subset hx, hm⟩
  · rintro ⟨hall, happart⟩
    exact ⟨_, _, getOutRank_eq hraw, hperm, hall, happart⟩

/-- Everything is covered exactly when a known word starts the text and one ends
it. -/
theorem filled_covers_iff (hne : ∀ t ∈ Bytes, t ≠ [])
    (hhints : (getRawRank pred Bytes).wordHintSeq_ ≠ []) :
    (∀ m < Bytes.flatten.length,
      CoveredBy (fillGaps Bytes.flatten (getRawRank pred Bytes).wordHintSeq_) m) ↔
      (∃ r, KnownAt pred Bytes 0 r) ∧ ∃ b, KnownAt pred Bytes b Bytes.flatten.length := by
  have hraw := getRawRank_hints pred hne
  have hcovered : ∀ m,
      CoveredBy (fillGaps Bytes.flatten (getRawRank pred Bytes).wordHintSeq_) m ↔
        (∃ p q, KnownAt pred Bytes p q ∧ p ≤ m ∧ m < q) ∨
        ∃ p q, GapAt pred Bytes p q ∧ p ≤ m ∧ m < q := by
    intro m
    rw [← coveredBy_hints_iff, ← coveredBy_fillers_iff hne, ← coveredBy_append]
    constructor
    · rintro ⟨x, hx, hm⟩
      exact ⟨x, (fillGaps_perm _ hraw).subset hx, hm⟩
    · rintro ⟨x, hx, hm⟩
      exact ⟨x, (fillGaps_perm _ hraw).symm.subset hx, hm⟩
  constructor
  · intro hall
    obtain ⟨e, he⟩ := List.exists_mem_of_ne_nil _ hhints
    have hbounds := (knownAt_iff.mpr ⟨e, he, rfl, rfl⟩ : KnownAt pred Bytes _ _).bounds hne
    constructor
    · -- a gap does not start the text
      rcases (hcovered 0).mp (hall 0 (by omega)) with ⟨p, q, hknown, hp, -⟩ | ⟨p, q, hgap, hp, -⟩
      · obtain rfl : p = 0 := by omega
        exact ⟨q, hknown⟩
      · have hpos := hgap.start_pos hne
        omega
    · rcases (hcovered (Bytes.flatten.length - 1)).mp (hall _ (by omega)) with
        ⟨p, q, hknown, -, hq⟩ | ⟨p, q, hgap, -, hq⟩
      · have hle := (hknown.bounds hne).2
        obtain rfl : q = Bytes.flatten.length := by omega
        exact ⟨p, hknown⟩
      · have hlt := hgap.stop_lt hne
        omega
  · rintro ⟨⟨r, hr⟩, ⟨b, hb⟩⟩ m hm
    obtain ⟨first, hfirst, hstart, -⟩ := knownAt_iff.mp hr
    obtain ⟨last, hlast, -, hstop⟩ := knownAt_iff.mp hb
    have hlinked : Linked (fillGaps Bytes.flatten (getRawRank pred Bytes).wordHintSeq_) :=
      fillGaps_linked hraw
    have hsorted := (fillGaps_hints hraw).ordered.sorted
    have hmem : first ∈ fillGaps Bytes.flatten (getRawRank pred Bytes).wordHintSeq_ :=
      (mem_fillGaps _ _ _).mpr (Or.inl hfirst)
    have hreach : ∃ x ∈ fillGaps Bytes.flatten (getRawRank pred Bytes).wordHintSeq_,
        m < x.stop :=
      ⟨last, (mem_fillGaps _ _ _).mpr (Or.inl hlast), hstop ▸ hm⟩
    rw [CoveredBy]
    revert hlinked hsorted hmem hreach
    generalize fillGaps Bytes.flatten (getRawRank pred Bytes).wordHintSeq_ = filled
    intro hlinked hsorted hmem hreach
    cases filled with
    | nil => exact absurd hmem List.not_mem_nil
    | cons a l =>
        apply covers_of_linked hlinked _ hreach
        -- the first entry starts no later than the word that starts the text
        rcases List.mem_cons.mp hmem with rfl | hmem
        · omega
        · have hle := (List.pairwise_cons.mp hsorted).1 first hmem
          omega

/-- A known word that lies over a byte of a gap starts before it. -/
theorem fillers_apart_iff (hne : ∀ t ∈ Bytes, t ≠ []) :
    (∀ m, CoveredBy (fillers Bytes.flatten (getRawRank pred Bytes).wordHintSeq_) m →
      ¬ CoveredBy (getRawRank pred Bytes).wordHintSeq_ m) ↔
      NoneReachesIntoGap pred Bytes := by
  simp only [coveredBy_fillers_iff hne, coveredBy_hints_iff]
  constructor
  · intro happart p q hgap b r hknown hb
    by_contra hr
    exact happart p ⟨p, q, hgap, le_rfl, hgap.lt⟩ ⟨b, r, hknown, hb.le, not_le.mp hr⟩
  · rintro hnone m ⟨p, q, hgap, hp, hq⟩ ⟨b, r, hknown, hb, hr⟩
    by_cases hbp : b < p
    · have hle := hnone p q hgap b r hknown hbp
      omega
    · obtain ⟨b', hb', -, hskip⟩ := hgap.behind
      have hlt := (hb'.bounds hne).1
      have hle := hskip b r hknown (by omega)
      omega

/-- **After `getOutRank` everything is covered and nothing is covered needlessly
exactly when** a known word starts the text, one ends it, and none reaches into a gap
between a known word and the next start. -/
theorem getOutRank_covers_iff (hne : ∀ t ∈ Bytes, t ≠ [])
    (hhints : (getRawRank pred Bytes).wordHintSeq_ ≠ []) :
    OutRankCovers Bytes.flatten (getRawRank pred Bytes).wordHintSeq_ ↔
      (∃ r, KnownAt pred Bytes 0 r) ∧ (∃ b, KnownAt pred Bytes b Bytes.flatten.length) ∧
        NoneReachesIntoGap pred Bytes := by
  rw [outRankCovers_iff hne, filled_covers_iff hne hhints, fillers_apart_iff hne, and_assoc]

end Gaps

/-! ## A gap that is filled, and two that are filled wrongly -/

section Examples

/-- Of three characters the first and the last are known. -/
theorem getOutRank_covers_between :
    OutRankCovers (charX ++ [228, 184, 128] ++ charY)
      (getRawRank (halfDictionary [charX, charY]).getDoublePred
        [charX, [228, 184, 128], charY]).wordHintSeq_ := by
  have hhints : (getRawRank (halfDictionary [charX, charY]).getDoublePred
      [charX, [228, 184, 128], charY]).wordHintSeq_ =
        [WordElement.make charX 0 (1 / 2) (1 / 2), WordElement.make charY 6 (1 / 2) (1 / 2)] := by
    with_unfolding_all decide
  have hknown : ∀ {p q}, KnownAt (halfDictionary [charX, charY]).getDoublePred
      [charX, [228, 184, 128], charY] p q ↔ (p = 0 ∧ q = 3) ∨ (p = 6 ∧ q = 9) := by
    intro p q
    rw [knownAt_iff, hhints]
    constructor
    · rintro ⟨e, he, rfl, rfl⟩
      rcases List.mem_pair.mp he with rfl | rfl
      · exact Or.inl ⟨rfl, rfl⟩
      · exact Or.inr ⟨rfl, rfl⟩
    · rintro (⟨rfl, rfl⟩ | ⟨rfl, rfl⟩)
      · exact ⟨_, List.mem_cons_self, rfl, rfl⟩
      · exact ⟨_, List.mem_cons_of_mem _ List.mem_cons_self, rfl, rfl⟩
  refine (getOutRank_covers_iff (by decide) (by rw [hhints]; exact List.cons_ne_nil _ _)).mpr
    ⟨⟨3, hknown.mpr (Or.inl ⟨rfl, rfl⟩)⟩, ⟨6, hknown.mpr (Or.inr ⟨rfl, rfl⟩)⟩, ?_⟩
  rintro p q hgap b r hbr hb
  rw [hknown] at hbr
  obtain ⟨b', hb', -⟩ := hgap.behind
  rw [hknown] at hb'
  omega

def overlapBytes : List Str := [charX, charY, [228, 184, 128], [228, 184, 129]]

def overlapDictionary : Dictionary :=
  halfDictionary [(overlapBytes.take 3).flatten, charY, [228, 184, 129]]

/-- In the first text the second character only is known, so nothing covers the
first. In the second text the word of the first three characters lies over the third
one, which is added as a gap between the second and the fourth. -/
theorem getOutRank_misses_and_overlaps :
    ¬ OutRankCovers [charX, charY].flatten
      (getRawRank (halfDictionary [charY]).getDoublePred [charX, charY]).wordHintSeq_ ∧
    ¬ OutRankCovers overlapBytes.flatten
      (getRawRank overlapDictionary.getDoublePred overlapBytes).wordHintSeq_ := by
  constructor
  · intro hcovers
    have hall := ((outRankCovers_iff (by decide)).mp hcovers).1
    obtain ⟨e, he, hp, -⟩ := hall 0 (by decide)
    have hnot : ∀ e ∈ fillGaps [charX, charY].flatten
        (getRawRank (halfDictionary [charY]).getDoublePred [charX, charY]).wordHintSeq_,
        ¬ e.position ≤ 0 := by
      with_unfolding_all decide
    exact hnot e he hp
  · intro hcovers
    have happart := ((outRankCovers_iff (by decide)).mp hcovers).2
    apply happart 6
    · show ∃ x ∈ fillers _ _, x.position ≤ 6 ∧ 6 < x.stop
      with_unfolding_all decide
    · show ∃ x ∈ RawRank.wordHintSeq_ _, x.position ≤ 6 ∧ 6 < x.stop
      with_unfolding_all decide

end Examples

end WaiNative

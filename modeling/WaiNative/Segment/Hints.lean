import WaiNative.Segment.Windows
import WaiNative.Cxx.Multimap
import WaiNative.Text.CtrlClaw
import Mathlib.Data.Rat.Defs
import Mathlib.Algebra.Order.Ring.Rat

/-!
# Dictionary hints of a sentence

The stages with which `PhoenixWord` and `ZhiZiWord` build the candidate words
of a run:

- `getRawRank`: the windows the dictionary knows, in a multimap by position;
- `getOutRank`: the gaps between neighbouring hints, filled in;
- `adjustRank`: the same words with weights that favour long ones.

`HintSeq` is what every stage keeps: strictly ordered by position and length,
each word the slice of the text between two character boundaries. After
`getOutRank` the hints are moreover `Linked`: none starts behind the end of the
one before it.
-/

namespace WaiNative

open Cxx

/-- The values of a `lang` string that the code tells apart. -/
inductive Lang
  | cn
  | ja
  | other
deriving DecidableEq

/-- What a segmenter reads of a `MasterDBWord`. -/
structure Dictionary where
  getDoublePred : Str → ℚ
  getRangeMin : ℚ

/-- The `WordElement` tuple; the code always builds it with `word.size()` as
its range. -/
structure WordElement where
  word : Str
  position : ℕ
  range : ℕ
  weight : ℚ
  weightO : ℚ
  range_eq : range = word.length
deriving DecidableEq

/-- `std::make_tuple(word, pos, word.size(), weight, weightO)`. -/
def WordElement.make (word : Str) (position : ℕ) (weight weightO : ℚ) :
    WordElement :=
  ⟨word, position, word.length, weight, weightO, rfl⟩

/-- The first position behind the word. -/
def WordElement.stop (e : WordElement) : ℕ := e.position + e.range


/-! ## Character boundaries -/

/-- A byte position between two characters, or at an end of the sentence. -/
def Boundary (Bytes : List Str) (p : ℕ) : Prop :=
  ∃ pre suf, Bytes = pre ++ suf ∧ p = pre.flatten.length

theorem Boundary.le {Bytes : List Str} {p : ℕ} (h : Boundary Bytes p) :
    p ≤ Bytes.flatten.length := by
  obtain ⟨pre, suf, rfl, rfl⟩ := h
  simp

/-- Between two boundaries lies at least one character. -/
theorem Boundary.gap {Bytes : List Str} {p q : ℕ} (h : Boundary Bytes p)
    (h' : Boundary Bytes q) (hthree : ∀ t ∈ Bytes, 3 ≤ t.length) (hlt : p < q) :
    p + 3 ≤ q := by
  obtain ⟨pre, suf, rfl, rfl⟩ := h
  obtain ⟨pre', suf', hsplit, rfl⟩ := h'
  rcases List.append_eq_append_iff.mp hsplit with ⟨c, rfl, rfl⟩ | ⟨c, rfl, -⟩
  · cases c with
    | nil => simp at hlt
    | cons t c =>
        have ht := hthree t (by simp)
        simp only [List.flatten_append, List.flatten_cons, List.length_append]
        omega
  · simp only [List.flatten_append, List.length_append] at hlt
    omega

/-- What every stage keeps of the words it holds. -/
structure HintSeq (Bytes : List Str) (m : List WordElement) : Prop where
  ordered : Multimap.Ordered WordElement.position WordElement.range m
  start : ∀ e ∈ m, Boundary Bytes e.position
  stop : ∀ e ∈ m, Boundary Bytes e.stop
  range_pos : ∀ e ∈ m, 0 < e.range
  word_eq : ∀ e ∈ m, e.word = slice Bytes.flatten e.position e.range

/-! ## `getRawRank` -/

/-- What `getRawRank` leaves behind. -/
structure RawRank where
  statisticsMinWordSize_ : ℕ
  wordHintSeq_ : List WordElement

/-- The dictionary that `lang` chooses; for other languages `pred` stays
`-1.0`. -/
def inputPred (dictInputCN_ dictInputJA_ : Dictionary) (lang : Lang) (word : Str) :
    ℚ :=
  match lang with
  | .cn => dictInputCN_.getDoublePred word
  | .ja => dictInputJA_.getDoublePred word
  | .other => -1

/-- The body of both loops: keep the word when the dictionary knows it. -/
def pushHint (pred : Str → ℚ) (st : RawRank) (word : Str) (wordPos : ℕ) : RawRank :=
  if pred word > 0 then
    { statisticsMinWordSize_ :=
        if st.statisticsMinWordSize_ > word.length then word.length
        else st.statisticsMinWordSize_
      wordHintSeq_ :=
        Multimap.insert WordElement.position
          (WordElement.make word wordPos (pred word) (pred word)) st.wordHintSeq_ }
  else st

def getRawRank (pred : Str → ℚ) (Bytes : List Str) : RawRank :=
  forWindows true (pushHint pred) Bytes [] 0 ⟨32, []⟩

section RawRank

variable {pred : Str → ℚ} {Bytes : List Str}

/-- The hint a known window becomes. -/
def hintOf (pred : Str → ℚ) (v : Str × ℕ) : WordElement :=
  WordElement.make v.1 v.2 (pred v.1) (pred v.1)

theorem foldl_pushHint : ∀ (vs : List (Str × ℕ)) (st : RawRank),
    (vs.foldl (fun st v => pushHint pred st v.1 v.2) st).wordHintSeq_ =
      Multimap.insertAll WordElement.position
        ((vs.filter (fun v => 0 < pred v.1)).map (hintOf pred)) st.wordHintSeq_
  | [], _ => rfl
  | v :: vs, st => by
      rw [List.foldl_cons, foldl_pushHint vs]
      by_cases hv : 0 < pred v.1
      · simp [pushHint, hv, hintOf, Multimap.insertAll]
      · simp [pushHint, hv]

theorem getRawRank_wordHintSeq (pred : Str → ℚ) (Bytes : List Str) :
    (getRawRank pred Bytes).wordHintSeq_ =
      Multimap.insertAll WordElement.position
        (((windows true Bytes).filter (fun v => 0 < pred v.1)).map (hintOf pred))
        [] := by
  rw [getRawRank, forWindows_eq, foldl_pushHint]
  rfl

/-- The hints are the windows of positive weight. -/
theorem mem_getRawRank {e : WordElement} :
    e ∈ (getRawRank pred Bytes).wordHintSeq_ ↔
      ∃ w p, WindowAt true Bytes w p ∧ 0 < pred w ∧ e = hintOf pred (w, p) := by
  rw [getRawRank_wordHintSeq, Multimap.mem_insertAll]
  simp only [List.not_mem_nil, false_or, List.mem_map, List.mem_filter,
    decide_eq_true_eq]
  constructor
  · rintro ⟨⟨w, p⟩, ⟨hmem, hpos⟩, rfl⟩
    exact ⟨w, p, mem_windows.mp hmem, hpos, rfl⟩
  · rintro ⟨w, p, hw, hpos, rfl⟩
    exact ⟨(w, p), ⟨mem_windows.mpr hw, hpos⟩, rfl⟩

/-- Windows of equal start come shortest first. -/
theorem VisitedBefore.range_lt {v v' : Str × ℕ} (h : VisitedBefore v v')
    (hpos : v.2 = v'.2) : v.1.length < v'.1.length := by
  rcases h with h | ⟨-, h⟩
  · omega
  · omega

theorem WindowAt.word_ne_nil {w : Str} {p : ℕ} (h : WindowAt true Bytes w p)
    (hne : ∀ t ∈ Bytes, t ≠ []) : 0 < w.length := by
  obtain ⟨pre, mid, suf, rfl, hlo, -, rfl, -⟩ := h
  apply CtrlClaw.flatten_length_pos
  · intro t ht
    exact hne t (by simp [ht])
  · rintro rfl
    simp [leastChars] at hlo

theorem getRawRank_hints (pred : Str → ℚ) (hne : ∀ t ∈ Bytes, t ≠ []) :
    HintSeq Bytes (getRawRank pred Bytes).wordHintSeq_ where
  ordered := by
    rw [getRawRank_wordHintSeq]
    apply Multimap.insertAll_ordered List.Pairwise.nil _ (by simp)
    have hvis := (windows_visited true hne).filter
      (fun v => decide (0 < pred v.1))
    apply List.Pairwise.map (hintOf pred) _ hvis
    intro v v' hbefore hpos
    exact hbefore.range_lt hpos
  start := by
    intro e he
    obtain ⟨w, p, ⟨pre, mid, suf, rfl, -, -, -, rfl⟩, -, rfl⟩ := mem_getRawRank.mp he
    exact ⟨pre, mid ++ suf, by simp, rfl⟩
  stop := by
    intro e he
    obtain ⟨w, p, ⟨pre, mid, suf, rfl, -, -, rfl, rfl⟩, -, rfl⟩ :=
      mem_getRawRank.mp he
    exact ⟨pre ++ mid, suf, rfl, by simp [hintOf, WordElement.stop, WordElement.make]⟩
  range_pos := by
    intro e he
    obtain ⟨w, p, hw, -, rfl⟩ := mem_getRawRank.mp he
    exact hw.word_ne_nil hne
  word_eq := by
    intro e he
    obtain ⟨w, p, ⟨pre, mid, suf, rfl, -, -, rfl, rfl⟩, -, rfl⟩ :=
      mem_getRawRank.mp he
    simp only [hintOf, WordElement.make, List.flatten_append]
    rw [slice_append_append]

end RawRank

/-! ## `getOutRank` -/

def dConstMissMatchPred : ℚ := 1 / 10 ^ 8

/-- The entry for the bytes between two hints. -/
def missElement (wordOut : Str) (coverNext : ℕ) : WordElement :=
  WordElement.make wordOut coverNext dConstMissMatchPred dConstMissMatchPred

/-- The first loop, over each hint and its successor; `none` is the exception
of `text.substr`. -/
def collectMiss (text : Str) : List WordElement → List WordElement →
    Option (List WordElement)
  | e :: itNext :: rest, wordMissSeq =>
      let coverNext := e.position + e.word.length
      if coverNext < itNext.position then do
        let wordOut ← substr text coverNext (itNext.position - coverNext)
        collectMiss text (itNext :: rest)
          (Multimap.insert WordElement.position (missElement wordOut coverNext)
            wordMissSeq)
      else
        collectMiss text (itNext :: rest) wordMissSeq
  | _, wordMissSeq => some wordMissSeq

def getOutRank (text : Str) (wordHintSeq_ : List WordElement) :
    Option (List WordElement) := do
  let wordMissSeq ← collectMiss text wordHintSeq_ []
  return Multimap.insertAll WordElement.position wordMissSeq wordHintSeq_

section OutRank

variable {Bytes : List Str}

/-- The filler of the gap `[p, q)`. -/
def filler (text : Str) (p q : ℕ) : WordElement :=
  missElement (slice text p (q - p)) p

/-- The fillers of all gaps between neighbours. -/
def fillers (text : Str) : List WordElement → List WordElement
  | e :: e' :: rest =>
      (if e.stop < e'.position then [filler text e.stop e'.position] else []) ++
        fillers text (e' :: rest)
  | _ => []

/-- The hints with each gap filled in place. -/
def fillGaps (text : Str) : List WordElement → List WordElement
  | e :: e' :: rest =>
      e :: (if e.stop < e'.position then [filler text e.stop e'.position] else []) ++
        fillGaps text (e' :: rest)
  | m => m

theorem WordElement.stop_eq (e : WordElement) :
    e.stop = e.position + e.word.length := by
  rw [stop, e.range_eq]

/-- A filler starts where some hint ends, before a later hint starts. -/
theorem mem_fillers {text : Str} {x : WordElement} : ∀ {m : List WordElement},
    x ∈ fillers text m ↔ ∃ e e', [e, e'] <:+: m ∧ e.stop < e'.position ∧
      x = filler text e.stop e'.position
  | [] => by simp [fillers]
  | [e] => by
      simp only [fillers, List.not_mem_nil, false_iff]
      rintro ⟨a, a', hinfix, -⟩
      have hlen := hinfix.length_le
      simp at hlen
  | e :: e' :: rest => by
      rw [fillers, List.mem_append, mem_fillers]
      constructor
      · rintro (hx | ⟨a, a', hinfix, hlt, rfl⟩)
        · split at hx
          · rename_i hlt
            refine ⟨e, e', ⟨[], rest, rfl⟩, hlt, List.mem_singleton.mp hx⟩
          · exact absurd hx List.not_mem_nil
        · exact ⟨a, a', hinfix.trans (List.suffix_cons e _).isInfix, hlt, rfl⟩
      · rintro ⟨a, a', hinfix, hlt, rfl⟩
        rcases List.infix_cons_iff.mp hinfix with hprefix | hinfix
        · obtain ⟨h₁, hprefix⟩ := List.cons_prefix_cons.mp hprefix
          obtain ⟨h₂, -⟩ := List.cons_prefix_cons.mp hprefix
          left
          rw [← h₁, ← h₂, if_pos hlt]
          exact List.mem_singleton_self _
        · exact Or.inr ⟨a, a', hinfix, hlt, rfl⟩

theorem mem_fillGaps (text : Str) (x : WordElement) : ∀ m : List WordElement,
    x ∈ fillGaps text m ↔ x ∈ m ∨ x ∈ fillers text m
  | [] => by simp [fillGaps, fillers]
  | [e] => by simp [fillGaps, fillers]
  | e :: e' :: rest => by
      have ih := mem_fillGaps text x (e' :: rest)
      rw [fillGaps, fillers, List.cons_append, List.mem_cons, List.mem_append,
        List.mem_append, ih, List.mem_cons (a := x) (b := e)]
      tauto

/-- Positions of neighbours, as the order gives them. -/
theorem HintSeq.tail {e : WordElement} {m : List WordElement}
    (h : HintSeq Bytes (e :: m)) : HintSeq Bytes m where
  ordered := h.ordered.tail
  start := fun x hx => h.start x (List.mem_cons_of_mem _ hx)
  stop := fun x hx => h.stop x (List.mem_cons_of_mem _ hx)
  range_pos := fun x hx => h.range_pos x (List.mem_cons_of_mem _ hx)
  word_eq := fun x hx => h.word_eq x (List.mem_cons_of_mem _ hx)

theorem HintSeq.head_le {e : WordElement} {m : List WordElement}
    (h : HintSeq Bytes (e :: m)) : ∀ x ∈ m, e.position ≤ x.position :=
  fun x hx => ((List.pairwise_cons.mp h.ordered).1 x hx).le

theorem HintSeq.stop_le {m : List WordElement} (h : HintSeq Bytes m)
    {e : WordElement} (he : e ∈ m) : e.stop ≤ Bytes.flatten.length :=
  (h.stop e he).le

theorem filler_position_lt {text : Str} {m : List WordElement}
    (h : HintSeq Bytes m) {x : WordElement} (hx : x ∈ fillers text m) :
    ∃ e ∈ m, e.position < x.position := by
  obtain ⟨a, a', hinfix, -, rfl⟩ := mem_fillers.mp hx
  have ha : a ∈ m := hinfix.subset (by simp)
  have hpos := h.range_pos a ha
  refine ⟨a, ha, ?_⟩
  show a.position < a.position + a.range
  omega

/-- Every filler lies behind the first hint. -/
theorem fillers_lt {text : Str} {e : WordElement} {m : List WordElement}
    (h : HintSeq Bytes (e :: m)) {x : WordElement}
    (hx : x ∈ fillers text (e :: m)) : e.position < x.position := by
  obtain ⟨a, ha, hlt⟩ := filler_position_lt h hx
  rcases List.mem_cons.mp ha with rfl | ha
  · exact hlt
  · exact (h.head_le a ha).trans_lt hlt

theorem fillers_sorted (text : Str) : ∀ {m : List WordElement},
    HintSeq Bytes m → Multimap.Sorted WordElement.position (fillers text m)
  | [], _ => List.Pairwise.nil
  | [_], _ => List.Pairwise.nil
  | e :: e' :: rest, h => by
      have ih := fillers_sorted text h.tail
      rw [fillers]
      split
      · rename_i hlt
        refine List.pairwise_cons.mpr ⟨?_, ih⟩
        intro x hx
        have hx' := fillers_lt h.tail hx
        show e.stop ≤ x.position
        omega
      · exact ih

/-- The fillers are collected in order. -/
theorem collectMiss_eq : ∀ (m : List WordElement) {miss : List WordElement},
    HintSeq Bytes m →
    Multimap.Sorted WordElement.position (miss ++ fillers Bytes.flatten m) →
    collectMiss Bytes.flatten m miss = some (miss ++ fillers Bytes.flatten m)
  | [], miss, _, _ => by simp [collectMiss, fillers]
  | [e], miss, _, _ => by simp [collectMiss, fillers]
  | e :: e' :: rest, miss, h, hsorted => by
      have hstop := h.stop_le List.mem_cons_self
      rw [collectMiss, ← WordElement.stop_eq]
      rw [fillers] at hsorted ⊢
      by_cases hlt : e.stop < e'.position
      · simp only [hlt, ↓reduceIte, List.singleton_append] at hsorted ⊢
        have hlast : Multimap.insert WordElement.position
            (filler Bytes.flatten e.stop e'.position) miss =
              miss ++ [filler Bytes.flatten e.stop e'.position] := by
          apply Multimap.insert_last
          intro y hy
          exact (List.pairwise_append.mp hsorted).2.2 y hy _ List.mem_cons_self
        rw [substr_eq_some hstop, Option.bind_eq_bind, Option.bind_some]
        rw [← filler, hlast, collectMiss_eq _ h.tail (by simpa using hsorted)]
        simp
      · simp only [hlt, ↓reduceIte, List.nil_append] at hsorted ⊢
        exact collectMiss_eq _ h.tail hsorted

/-- Inserting the fillers puts each into its gap. -/
theorem insertAll_fillers (text : Str) : ∀ {m : List WordElement},
    HintSeq Bytes m →
    Multimap.insertAll WordElement.position (fillers text m) m = fillGaps text m
  | [], _ => rfl
  | [_], _ => rfl
  | e :: e' :: rest, h => by
      have ih := insertAll_fillers text h.tail
      have hle := h.head_le e' List.mem_cons_self
      have hlater : ∀ x ∈ fillers text (e' :: rest), e'.position < x.position :=
        fun x hx => fillers_lt h.tail hx
      rw [fillers, fillGaps]
      by_cases hlt : e.stop < e'.position
      · -- the filler of the first gap goes behind `e`, the others behind `e'`
        have hinsert : Multimap.insert WordElement.position
            (filler text e.stop e'.position) (e :: e' :: rest) =
              [e, filler text e.stop e'.position] ++ e' :: rest := by
          have hbehind : e.position ≤ (filler text e.stop e'.position).position := by
            show e.position ≤ e.position + e.range
            omega
          have hfront : ∀ y ∈ e' :: rest,
              (filler text e.stop e'.position).position < y.position := by
            rintro y (_ | ⟨_, hy⟩)
            · exact hlt
            · exact lt_of_lt_of_le hlt (h.tail.head_le y hy)
          have hsplit := Multimap.insert_append_right hfront [e]
          rw [List.singleton_append] at hsplit
          rw [hsplit, Multimap.insert_last (by simpa using hbehind)]
          rfl
        simp only [hlt, ↓reduceIte, List.singleton_append]
        show Multimap.insertAll WordElement.position (fillers text (e' :: rest))
          (Multimap.insert WordElement.position (filler text e.stop e'.position)
            (e :: e' :: rest)) = _
        rw [hinsert, Multimap.insertAll_append_left, ih]
        intro y hy x hx
        have hx' := hlater x hx
        rcases List.mem_cons.mp hy with rfl | hy
        · omega
        · rw [List.mem_singleton.mp hy]
          show e.stop ≤ x.position
          omega
      · simp only [hlt, ↓reduceIte, List.nil_append]
        show Multimap.insertAll WordElement.position (fillers text (e' :: rest))
          ([e] ++ e' :: rest) = _
        rw [Multimap.insertAll_append_left, ih]
        intro y hy x hx
        have hx' := hlater x hx
        rw [List.mem_singleton.mp hy]
        omega

/-- **`getOutRank` never throws and fills every gap in place.** -/
theorem getOutRank_eq {m : List WordElement} (h : HintSeq Bytes m) :
    getOutRank Bytes.flatten m = some (fillGaps Bytes.flatten m) := by
  have hmiss : collectMiss Bytes.flatten m [] = some (fillers Bytes.flatten m) :=
    collectMiss_eq m h (by simpa using fillers_sorted _ h)
  rw [getOutRank, hmiss, Option.bind_eq_bind, Option.bind_some,
    insertAll_fillers _ h]
  rfl

theorem fillGaps_ordered (text : Str) : ∀ {m : List WordElement},
    HintSeq Bytes m →
    Multimap.Ordered WordElement.position WordElement.range (fillGaps text m)
  | [], _ => List.Pairwise.nil
  | [_], _ => List.pairwise_singleton _ _
  | e :: e' :: rest, h => by
      have ih := fillGaps_ordered text h.tail
      have hbefore : ∀ x ∈ fillGaps text (e' :: rest),
          Multimap.Before WordElement.position WordElement.range e x := by
        intro x hx
        rcases (mem_fillGaps _ _ _).mp hx with hx | hx
        · exact (List.pairwise_cons.mp h.ordered).1 x hx
        · left
          exact (h.head_le e' List.mem_cons_self).trans_lt (fillers_lt h.tail hx)
      rw [fillGaps]
      split
      · rename_i hlt
        have hpos := h.range_pos e List.mem_cons_self
        refine List.pairwise_cons.mpr ⟨?_, List.pairwise_cons.mpr ⟨?_, ih⟩⟩
        · rintro x (_ | ⟨_, hx⟩)
          · left
            show e.position < e.position + e.range
            omega
          · exact hbefore x hx
        · intro x hx
          left
          show e.stop < x.position
          rcases (mem_fillGaps _ _ _).mp hx with hx | hx
          · rcases List.mem_cons.mp hx with rfl | hx
            · exact hlt
            · exact lt_of_lt_of_le hlt (h.tail.head_le x hx)
          · exact hlt.trans (fillers_lt h.tail hx)
      · exact List.pairwise_cons.mpr ⟨hbefore, ih⟩

theorem filler_stop {p q : ℕ} {text : Str} (hpq : p ≤ q) (hq : q ≤ text.length) :
    (filler text p q).stop = q := by
  show p + (slice text p (q - p)).length = q
  rw [length_slice (by omega)]
  omega

theorem fillGaps_hints {m : List WordElement} (h : HintSeq Bytes m) :
    HintSeq Bytes (fillGaps Bytes.flatten m) := by
  have hfiller : ∀ x ∈ fillers Bytes.flatten m, ∃ e ∈ m, ∃ e' ∈ m,
      e.stop < e'.position ∧ x = filler Bytes.flatten e.stop e'.position ∧
        x.stop = e'.position := by
    intro x hx
    obtain ⟨e, e', hinfix, hlt, rfl⟩ := mem_fillers.mp hx
    have he' : e' ∈ m := hinfix.subset (by simp)
    refine ⟨e, hinfix.subset (by simp), e', he', hlt, rfl, ?_⟩
    exact filler_stop hlt.le (h.start e' he').le
  refine ⟨fillGaps_ordered _ h, ?_, ?_, ?_, ?_⟩
  · intro x hx
    rcases (mem_fillGaps _ _ _).mp hx with hx | hx
    · exact h.start x hx
    · obtain ⟨e, he, -, -, -, rfl, -⟩ := hfiller x hx
      exact h.stop e he
  · intro x hx
    rcases (mem_fillGaps _ _ _).mp hx with hx | hx
    · exact h.stop x hx
    · obtain ⟨-, -, e', he', -, -, hstop⟩ := hfiller x hx
      rw [hstop]
      exact h.start e' he'
  · intro x hx
    rcases (mem_fillGaps _ _ _).mp hx with hx | hx
    · exact h.range_pos x hx
    · obtain ⟨e, -, e', -, hlt, rfl, hstop⟩ := hfiller x hx
      rw [WordElement.stop] at hstop
      have hpos : (filler Bytes.flatten e.stop e'.position).position = e.stop := rfl
      omega
  · intro x hx
    rcases (mem_fillGaps _ _ _).mp hx with hx | hx
    · exact h.word_eq x hx
    · obtain ⟨e, -, e', -, hlt, rfl, hstop⟩ := hfiller x hx
      rw [WordElement.stop] at hstop
      have hpos : (filler Bytes.flatten e.stop e'.position).position = e.stop := rfl
      show slice Bytes.flatten e.stop (e'.position - e.stop) = _
      rw [hpos] at hstop ⊢
      congr 1
      omega

/-- No hint starts behind the end of the one before it. -/
def Linked (m : List WordElement) : Prop :=
  m.IsChain (fun e e' => e'.position ≤ e.stop)

theorem fillGaps_linked : ∀ {m : List WordElement}, HintSeq Bytes m →
    Linked (fillGaps Bytes.flatten m)
  | [], _ => List.IsChain.nil
  | [_], _ => List.IsChain.singleton _
  | e :: e' :: rest, h => by
      have ih := fillGaps_linked h.tail
      have hcons : ∃ l, fillGaps Bytes.flatten (e' :: rest) = e' :: l := by
        cases rest with
        | nil => exact ⟨_, rfl⟩
        | cons e'' rest => exact ⟨_, rfl⟩
      obtain ⟨l, hl⟩ := hcons
      rw [hl] at ih
      rw [fillGaps, hl]
      split
      · rename_i hlt
        have hstop := filler_stop hlt.le
          (h.start e' (List.mem_cons_of_mem _ List.mem_cons_self)).le
        exact List.isChain_cons_cons.mpr ⟨le_rfl,
          List.isChain_cons_cons.mpr ⟨hstop.ge, ih⟩⟩
      · rename_i hlt
        exact List.isChain_cons_cons.mpr ⟨not_lt.mp hlt, ih⟩

end OutRank

/-! ## `adjustRank` -/

def gWeigthAdjustBase : ℚ := 4096

section Adjust

variable (pow : ℚ → ℚ → ℚ)

/-- `pow` stands for the C library's function. -/
def adjustWeight (statisticsMinWordSize_ width : ℕ) (weight : ℚ) : ℚ :=
  let rate : ℚ := width / statisticsMinWordSize_ - 1
  weight * pow gWeigthAdjustBase rate

/-- The entry with its adjusted weight. -/
def adjustElement (statisticsMinWordSize_ : ℕ) (e : WordElement) : WordElement :=
  { e with
    weight := adjustWeight pow statisticsMinWordSize_ e.word.length e.weight }

def adjustRank (statisticsMinWordSize_ : ℕ) (wordHintSeq_ : List WordElement) :
    List WordElement :=
  wordHintSeq_.foldl (fun wordAdjustedSeq_ elem =>
    Multimap.insert WordElement.position (adjustElement pow statisticsMinWordSize_ elem)
      wordAdjustedSeq_) []

theorem adjustRank_eq (n : ℕ) {Bytes : List Str} {m : List WordElement}
    (h : HintSeq Bytes m) : adjustRank pow n m = m.map (adjustElement pow n) := by
  have hsorted : Multimap.Sorted WordElement.position
      ([] ++ m.map (adjustElement pow n)) := by
    apply List.Pairwise.map (adjustElement pow n) _ h.ordered.sorted
    exact fun _ _ hle => hle
  rw [adjustRank, ← List.foldl_map (f := adjustElement pow n)
    (g := fun acc elem => Multimap.insert WordElement.position elem acc)]
  exact Multimap.insertAll_sorted hsorted

theorem map_adjust_hints (n : ℕ) {Bytes : List Str} {m : List WordElement}
    (h : HintSeq Bytes m) : HintSeq Bytes (m.map (adjustElement pow n)) where
  ordered := List.Pairwise.map _ (fun _ _ hab => hab) h.ordered
  start := List.forall_mem_map.mpr h.start
  stop := List.forall_mem_map.mpr h.stop
  range_pos := List.forall_mem_map.mpr h.range_pos
  word_eq := List.forall_mem_map.mpr h.word_eq

theorem map_adjust_linked (n : ℕ) {m : List WordElement} (h : Linked m) :
    Linked (m.map (adjustElement pow n)) :=
  (List.isChain_map _).mpr h

end Adjust

end WaiNative

import WaiNative.Segment.Pieces
import WaiNative.Training.Learn

/-!
# One hint for each known window

`getRawRank` of `PhoenixWord` and `ZhiZiWord` looks at the windows of up to 32
tokens, that of `ParrotWord` at those of two and more. `FillsHints` says what it
leaves behind, by the number of the first token of a window and how many there are:
one hint for each window that the dictionary knows (`getRawRank_fills`).
-/

namespace WaiNative

open Cxx

/-! ## Windows by number -/

section Windows

/-- Behind more tokens, more bytes. -/
theorem flatten_take_lt {Bytes : List Str} (hne : ∀ t ∈ Bytes, t ≠ []) {i j : ℕ}
    (hij : i < j) (hj : j ≤ Bytes.length) :
    (Bytes.take i).flatten.length < (Bytes.take j).flatten.length := by
  have hsplit : Bytes.take j = Bytes.take i ++ (Bytes.drop i).take (j - i) := by
    rw [← List.take_add, Nat.add_sub_cancel' hij.le]
  have hrest : (Bytes.drop i).take (j - i) ≠ [] := by
    intro hnil
    have hlen := congrArg List.length hnil
    simp only [List.length_take, List.length_drop, List.length_nil] at hlen
    omega
  have hpos := CtrlClaw.flatten_length_pos
    (fun t ht => hne t (List.mem_of_mem_drop (List.mem_of_mem_take ht))) hrest
  rw [hsplit, List.flatten_append, List.length_append]
  omega

theorem flatten_take_inj {Bytes : List Str} (hne : ∀ t ∈ Bytes, t ≠ []) {i j : ℕ}
    (hi : i ≤ Bytes.length) (hj : j ≤ Bytes.length)
    (heq : (Bytes.take i).flatten.length = (Bytes.take j).flatten.length) : i = j := by
  rcases Nat.lt_trichotomy i j with hlt | hsame | hlt
  · exact absurd heq (flatten_take_lt hne hlt hj).ne
  · exact hsame
  · exact absurd heq (flatten_take_lt hne hlt hi).ne'

variable (single : Bool) (pred : Str → ℚ) (Bytes : List Str)

/-- The concatenation of `n` tokens from the `i`-th on. -/
def windowWord (i n : ℕ) : Str := ((Bytes.drop i).take n).flatten

/-- The entry of that window. -/
def windowEntry (i n : ℕ) : WordElement :=
  WordElement.make (windowWord Bytes i n) (Bytes.take i).flatten.length
    (pred (windowWord Bytes i n)) (pred (windowWord Bytes i n))

/-- The window is not too long, lies in the sentence, and the dictionary knows it. -/
structure KnownWindow (i n : ℕ) : Prop where
  least : leastChars single ≤ n
  most : n ≤ gWordLength
  inside : i + n ≤ Bytes.length
  known : 0 < pred (windowWord Bytes i n)

/-- Each known window has one entry, with the place and the size of the window and
its weight, and there are no others. Entries at one place come by increasing size. -/
structure FillsHints (statisticsMinWordSize_ : ℕ) (wordHintSeq_ : List WordElement) :
    Prop where
  entries : ∀ e, e ∈ wordHintSeq_ ↔
    ∃ i n, KnownWindow single pred Bytes i n ∧ e = windowEntry pred Bytes i n
  once : wordHintSeq_.Nodup
  distinct : ∀ {i n i' n'}, KnownWindow single pred Bytes i n →
    KnownWindow single pred Bytes i' n' →
    windowEntry pred Bytes i n = windowEntry pred Bytes i' n' → i = i' ∧ n = n'
  ordered : Multimap.Ordered WordElement.position WordElement.range wordHintSeq_
  atMost : statisticsMinWordSize_ ≤ 32 ∧ ∀ e ∈ wordHintSeq_, statisticsMinWordSize_ ≤ e.range
  attained : statisticsMinWordSize_ = 32 ∨ ∃ e ∈ wordHintSeq_, statisticsMinWordSize_ = e.range
  positive : 0 < statisticsMinWordSize_

variable {single pred Bytes}

theorem windowAt_iff {w : Str} {p : ℕ} : WindowAt single Bytes w p ↔
    ∃ i n, leastChars single ≤ n ∧ n ≤ gWordLength ∧ i + n ≤ Bytes.length ∧
      w = windowWord Bytes i n ∧ p = (Bytes.take i).flatten.length := by
  constructor
  · rintro ⟨pre, mid, suf, rfl, hlo, hhi, rfl, rfl⟩
    refine ⟨pre.length, mid.length, hlo, hhi, by simp, ?_, ?_⟩
    · rw [windowWord, List.append_assoc, List.drop_left, List.take_left]
    · rw [List.append_assoc, List.take_left]
  · rintro ⟨i, n, hlo, hhi, hin, rfl, rfl⟩
    have hlen : ((Bytes.drop i).take n).length = n := by
      rw [List.length_take, List.length_drop]
      omega
    refine ⟨Bytes.take i, (Bytes.drop i).take n, Bytes.drop (i + n), ?_, ?_, ?_, rfl, rfl⟩
    · rw [← List.take_add, List.take_append_drop]
    · rwa [hlen]
    · rwa [hlen]

/-- Two windows with one entry are one window. -/
theorem windowEntry_inj (hne : ∀ t ∈ Bytes, t ≠ []) {i n i' n' : ℕ}
    (h : KnownWindow single pred Bytes i n) (h' : KnownWindow single pred Bytes i' n')
    (heq : windowEntry pred Bytes i n = windowEntry pred Bytes i' n') : i = i' ∧ n = n' := by
  have hin := h.inside
  have hin' := h'.inside
  have hplace : (Bytes.take i).flatten.length = (Bytes.take i').flatten.length :=
    congrArg WordElement.position heq
  have hword : windowWord Bytes i n = windowWord Bytes i' n' := congrArg WordElement.word heq
  obtain rfl := flatten_take_inj hne (by omega) (by omega) hplace
  refine ⟨rfl, ?_⟩
  have hrest : ∀ t ∈ Bytes.drop i, t ≠ [] := fun t ht => hne t (List.mem_of_mem_drop ht)
  apply flatten_take_inj hrest
  · rw [List.length_drop]
    omega
  · rw [List.length_drop]
    omega
  · exact congrArg List.length hword

end Windows

/-! ## What the loops leave behind -/

section Loops

variable {single : Bool} {pred : Str → ℚ} {Bytes : List Str}

/-- The loops of `getRawRank`, with or without the windows of one token. -/
def rawRank (single : Bool) (pred : Str → ℚ) (Bytes : List Str) : RawRank :=
  forWindows single (pushHint pred) Bytes [] 0 ⟨32, []⟩

/-- The known windows, as the loops meet them. -/
def knownWindows (single : Bool) (pred : Str → ℚ) (Bytes : List Str) : List (Str × ℕ) :=
  (windows single Bytes).filter (fun v => 0 < pred v.1)

theorem rawRank_wordHintSeq (single : Bool) (pred : Str → ℚ) (Bytes : List Str) :
    (rawRank single pred Bytes).wordHintSeq_ =
      Multimap.insertAll WordElement.position
        ((knownWindows single pred Bytes).map (hintOf pred)) [] := by
  rw [rawRank, forWindows_eq, foldl_pushHint]
  rfl

theorem rawRank_shortest (single : Bool) (pred : Str → ℚ) (Bytes : List Str) :
    (rawRank single pred Bytes).statisticsMinWordSize_ =
      ((knownWindows single pred Bytes).map (fun v => v.1.length)).foldl min 32 := by
  rw [rawRank, forWindows_eq, foldl_pushHint_shortest]
  rfl

theorem mem_rawRank {e : WordElement} : e ∈ (rawRank single pred Bytes).wordHintSeq_ ↔
    ∃ v ∈ knownWindows single pred Bytes, e = hintOf pred v := by
  rw [rawRank_wordHintSeq, Multimap.mem_insertAll, List.mem_map]
  constructor
  · rintro (habs | ⟨v, hv, rfl⟩)
    · exact absurd habs List.not_mem_nil
    · exact ⟨v, hv, rfl⟩
  · rintro ⟨v, hv, rfl⟩
    exact Or.inr ⟨v, hv, rfl⟩

theorem mem_rawRank_iff {e : WordElement} : e ∈ (rawRank single pred Bytes).wordHintSeq_ ↔
    ∃ i n, KnownWindow single pred Bytes i n ∧ e = windowEntry pred Bytes i n := by
  rw [mem_rawRank]
  constructor
  · rintro ⟨⟨w, p⟩, hv, rfl⟩
    obtain ⟨hmem, hpos⟩ := List.mem_filter.mp hv
    obtain ⟨i, n, hlo, hhi, hin, rfl, rfl⟩ := windowAt_iff.mp (mem_windows.mp hmem)
    exact ⟨i, n, ⟨hlo, hhi, hin, of_decide_eq_true hpos⟩, rfl⟩
  · rintro ⟨i, n, ⟨hlo, hhi, hin, hpos⟩, rfl⟩
    refine ⟨(windowWord Bytes i n, (Bytes.take i).flatten.length), ?_, rfl⟩
    apply List.mem_filter.mpr
    exact ⟨mem_windows.mpr (windowAt_iff.mpr ⟨i, n, hlo, hhi, hin, rfl, rfl⟩),
      decide_eq_true hpos⟩

/-- Each newcomer is longer than the entries at its place. -/
theorem rawRank_ordered (hne : ∀ t ∈ Bytes, t ≠ []) :
    Multimap.Ordered WordElement.position WordElement.range
      (rawRank single pred Bytes).wordHintSeq_ := by
  rw [rawRank_wordHintSeq]
  apply Multimap.insertAll_ordered List.Pairwise.nil _ (by simp)
  have hvis : (knownWindows single pred Bytes).Pairwise VisitedBefore := by
    unfold knownWindows
    exact (windows_visited single hne).filter _
  apply List.Pairwise.map (hintOf pred) _ hvis
  intro v v' hbefore hpos
  exact hbefore.range_lt hpos

/-- The minimum of a number and those of a list. -/
theorem foldl_min_spec : ∀ (l : List ℕ) (n : ℕ),
    (l.foldl min n ≤ n ∧ ∀ x ∈ l, l.foldl min n ≤ x) ∧ (l.foldl min n = n ∨ l.foldl min n ∈ l)
  | [], n => by simp
  | x :: l, n => by
      obtain ⟨⟨hle, hall⟩, hmem⟩ := foldl_min_spec l (min n x)
      rw [List.foldl_cons]
      refine ⟨⟨hle.trans (min_le_left n x), ?_⟩, ?_⟩
      · rintro y (_ | ⟨_, hy⟩)
        · exact hle.trans (min_le_right n x)
        · exact hall y hy
      · rcases hmem with heq | hmem
        · rcases min_choice n x with hn | hx
          · exact Or.inl (heq.trans hn)
          · exact Or.inr (List.mem_cons.mpr (Or.inl (heq.trans hx)))
        · exact Or.inr (List.mem_cons_of_mem x hmem)

theorem KnownWindow.word_ne_nil (hne : ∀ t ∈ Bytes, t ≠ []) {i n : ℕ}
    (h : KnownWindow single pred Bytes i n) : 0 < (windowWord Bytes i n).length := by
  have hleast : 1 ≤ n := by
    have hlo := h.least
    cases single with
    | false => exact le_trans (by decide) hlo
    | true => exact hlo
  have hin := h.inside
  apply CtrlClaw.flatten_length_pos
  · exact fun t ht => hne t (List.mem_of_mem_drop (List.mem_of_mem_take ht))
  · intro hnil
    have hlen := congrArg List.length hnil
    simp only [List.length_take, List.length_drop, List.length_nil] at hlen
    omega

/-- **The loops fill the hints** with each known window once. -/
theorem rawRank_fills (single : Bool) (pred : Str → ℚ) (hne : ∀ t ∈ Bytes, t ≠ []) :
    FillsHints single pred Bytes (rawRank single pred Bytes).statisticsMinWordSize_
      (rawRank single pred Bytes).wordHintSeq_ := by
  have hrange : ∀ x, x ∈ (knownWindows single pred Bytes).map (fun v => v.1.length) ↔
      ∃ e ∈ (rawRank single pred Bytes).wordHintSeq_, x = e.range := by
    intro x
    rw [List.mem_map]
    constructor
    · rintro ⟨v, hv, rfl⟩
      exact ⟨hintOf pred v, mem_rawRank.mpr ⟨v, hv, rfl⟩, rfl⟩
    · rintro ⟨e, he, rfl⟩
      obtain ⟨v, hv, rfl⟩ := mem_rawRank.mp he
      exact ⟨v, hv, rfl⟩
  obtain ⟨⟨hle, hall⟩, hmem⟩ :=
    foldl_min_spec ((knownWindows single pred Bytes).map (fun v => v.1.length)) 32
  rw [← rawRank_shortest] at hle hall hmem
  have hattained : (rawRank single pred Bytes).statisticsMinWordSize_ = 32 ∨
      ∃ e ∈ (rawRank single pred Bytes).wordHintSeq_,
        (rawRank single pred Bytes).statisticsMinWordSize_ = e.range :=
    hmem.imp_right (hrange _).mp
  refine ⟨fun e => mem_rawRank_iff, (rawRank_ordered hne).nodup,
    fun h h' heq => windowEntry_inj hne h h' heq, rawRank_ordered hne, ⟨hle, ?_⟩, hattained, ?_⟩
  · exact fun e he => hall e.range ((hrange _).mpr ⟨e, he, rfl⟩)
  · rcases hattained with heq | ⟨e, he, heq⟩
    · rw [heq]
      exact Nat.succ_pos 31
    · obtain ⟨i, n, hknown, rfl⟩ := mem_rawRank_iff.mp he
      rw [heq]
      exact hknown.word_ne_nil hne

/-- **`getRawRank` keeps one hint for each known window**, of up to 32 tokens and in
`ParrotWord` of at least two, and the least of their sizes. -/
theorem getRawRank_fills (hne : ∀ t ∈ Bytes, t ≠ []) (dictInputCN_ dictInputJA_ : Dictionary)
    (p : ParrotWord) (lang : Lang) :
    FillsHints true (inputPred dictInputCN_ dictInputJA_ lang) Bytes
      (getRawRank (inputPred dictInputCN_ dictInputJA_ lang) Bytes).statisticsMinWordSize_
      (getRawRank (inputPred dictInputCN_ dictInputJA_ lang) Bytes).wordHintSeq_ ∧
    FillsHints false (inputPred p.dictInputCN_ p.dictInputJA_ lang) Bytes
      (p.getRawRank Bytes lang).statisticsMinWordSize_ (p.getRawRank Bytes lang).wordHintSeq_ :=
  ⟨rawRank_fills true _ hne, rawRank_fills false _ hne⟩

/-- Two characters, both of which and their pair the dictionary knows. -/
theorem getRawRank_fills_pair :
    FillsHints true (inputPred pairDictionary pairDictionary .cn) [charX, charY]
      (getRawRank (inputPred pairDictionary pairDictionary .cn)
        [charX, charY]).statisticsMinWordSize_
      (getRawRank (inputPred pairDictionary pairDictionary .cn) [charX, charY]).wordHintSeq_ ∧
    FillsHints false (inputPred pairDictionary pairDictionary .cn) [charX, charY]
      ((⟨pairDictionary, pairDictionary, 0, [], [], [], ∅⟩ : ParrotWord).getRawRank
        [charX, charY] .cn).statisticsMinWordSize_
      ((⟨pairDictionary, pairDictionary, 0, [], [], [], ∅⟩ : ParrotWord).getRawRank
        [charX, charY] .cn).wordHintSeq_ :=
  getRawRank_fills (by decide) pairDictionary pairDictionary
    ⟨pairDictionary, pairDictionary, 0, [], [], [], ∅⟩ .cn

end Loops

end WaiNative

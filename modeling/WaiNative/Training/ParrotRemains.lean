import WaiNative.Training.ParrotSelection

/-!
# What `ParrotWord` takes for the remains

`getWordPredictionOfOne` should collect the stretches of two or three bytes that no
selected word covers. It forgets where the words were selected: every occurrence of each
of them, in turn, becomes a space, and what is left is split at white space.

- `isStretch_iff`: the stretches lie between neighbouring words;
- `joined_mask`: a replacement that hits the places of the word and nothing else;
- `remains_iff`: when all replacements do, which stretches come out.
-/

namespace WaiNative.ParrotWord

open Cxx

/-! ## Stretches of a text -/

/-- Words selected from a text, with their positions: none is empty, each stands where it
says, and no two share a byte. -/
structure SelectedWords (text : Str) where
  words : List WordElement
  sorted : Multimap.Sorted WordElement.position words
  disjoint : words.Pairwise (fun a b => ¬ Overlap a b)
  stands : ∀ e ∈ words, e.word ≠ [] ∧ e.word <+: text.drop e.position

/-- A byte of some word. -/
def CoveredBy (words : List WordElement) (i : ℕ) : Prop := ∃ e ∈ words, Covers e i

/-- A maximal stretch that no word covers. -/
structure IsStretch (text : Str) (words : List WordElement) (s : ℕ × ℕ) : Prop where
  lt : s.1 < s.2
  le : s.2 ≤ text.length
  free : ∀ i, s.1 ≤ i → i < s.2 → ¬ CoveredBy words i
  left : s.1 = 0 ∨ CoveredBy words (s.1 - 1)
  right : s.2 = text.length ∨ CoveredBy words s.2

/-- The bytes of a stretch. -/
def bytesOf (text : Str) (s : ℕ × ℕ) : Str := slice text s.1 (s.2 - s.1)

/-- What lies between neighbouring words, from `start` on. -/
def between (text : Str) : ℕ → List WordElement → List (ℕ × ℕ)
  | start, [] => [(start, text.length)]
  | start, e :: words => (start, e.position) :: between text e.stop words

/-- Words that follow one another from `start` to the end of the text. -/
def Follow (text : Str) : ℕ → List WordElement → Prop
  | start, [] => start ≤ text.length
  | start, e :: words =>
      start ≤ e.position ∧ e.word ≠ [] ∧ slice text e.position e.range = e.word ∧
        e.stop ≤ text.length ∧ Follow text e.stop words

section Between

variable {text : Str}

theorem covers_iff {e : WordElement} {i : ℕ} :
    Covers e i ↔ e.position ≤ i ∧ i < e.stop := Iff.rfl

theorem lt_stop {e : WordElement} (hne : e.word ≠ []) : e.position < e.stop := by
  rw [WordElement.stop, e.range_eq]
  exact Nat.lt_add_of_pos_right (List.length_pos_iff.mpr hne)

/-- The words that follow start at `start` or later. -/
theorem Follow.le_position : ∀ {words : List WordElement} {start : ℕ},
    Follow text start words → ∀ e ∈ words, start ≤ e.position
  | [], _, _ => by simp
  | e :: words, start, h => by
      obtain ⟨hle, hne, -, -, hrest⟩ := h
      refine List.forall_mem_cons.mpr ⟨hle, fun e' he' => ?_⟩
      have hstop := hrest.le_position e' he'
      exact (hle.trans (lt_stop hne).le).trans hstop

/-- A byte in front of the words is none of theirs. -/
theorem Follow.not_covered {words : List WordElement} {start i : ℕ}
    (h : Follow text start words) (hi : i < start) : ¬ CoveredBy words i := by
  rintro ⟨e, he, hle, -⟩
  exact absurd (h.le_position e he) (by omega)

theorem coveredBy_cons {e : WordElement} {words : List WordElement} {i : ℕ} :
    CoveredBy (e :: words) i ↔ Covers e i ∨ CoveredBy words i := by
  simp [CoveredBy]

/-- A maximal stretch behind `start` that no word covers. -/
structure IsGap (text : Str) (start : ℕ) (words : List WordElement) (s : ℕ × ℕ) : Prop where
  lt : s.1 < s.2
  le : s.2 ≤ text.length
  ge : start ≤ s.1
  free : ∀ i, s.1 ≤ i → i < s.2 → ¬ CoveredBy words i
  left : s.1 = start ∨ CoveredBy words (s.1 - 1)
  right : s.2 = text.length ∨ CoveredBy words s.2

theorem isGap_nil {start : ℕ} {s : ℕ × ℕ} :
    IsGap text start [] s ↔ s = (start, text.length) ∧ s.1 < s.2 := by
  have hno : ∀ i, ¬ CoveredBy [] i := by simp [CoveredBy]
  constructor
  · rintro ⟨hlt, -, -, -, hleft, hright⟩
    exact ⟨Prod.ext (hleft.resolve_right (hno _)) (hright.resolve_right (hno _)), hlt⟩
  · rintro ⟨rfl, hlt⟩
    exact ⟨hlt, le_rfl, le_rfl, fun i _ _ => hno i, Or.inl rfl, Or.inl rfl⟩

section Cons

variable {e : WordElement} {words : List WordElement} {start : ℕ} {s : ℕ × ℕ}

/-- A word that follows covers no byte in front of the first one's end. -/
theorem Follow.stop_le (h : Follow text e.stop words) {i : ℕ} (hi : CoveredBy words i) :
    e.stop ≤ i := by
  by_contra hlt
  exact h.not_covered (not_le.mp hlt) hi

/-- In front of the first word there is a gap, if there is room. -/
theorem isGap_first (h : Follow text start (e :: words)) (hlt : start < e.position) :
    IsGap text start (e :: words) (start, e.position) where
  lt := hlt
  le := (lt_stop h.2.1).le.trans h.2.2.2.1
  ge := le_rfl
  free := by
    rintro i - hi hcovered
    rcases coveredBy_cons.mp hcovered with ⟨hge, -⟩ | hc
    · exact absurd hi (not_lt.mpr hge)
    · exact absurd (h.2.2.2.2.stop_le hc) (not_le.mpr (hi.trans (lt_stop h.2.1)))
  left := Or.inl rfl
  right := Or.inr (coveredBy_cons.mpr (Or.inl ⟨le_rfl, lt_stop h.2.1⟩))

/-- The gaps behind it are those of the words that follow. -/
theorem IsGap.later (h : Follow text start (e :: words)) (hs : IsGap text e.stop words s) :
    IsGap text start (e :: words) s where
  lt := hs.lt
  le := hs.le
  ge := (h.1.trans (lt_stop h.2.1).le).trans hs.ge
  free := by
    intro i hge hi hcovered
    rcases coveredBy_cons.mp hcovered with ⟨-, hlt⟩ | hc
    · exact absurd (hs.ge.trans hge) (not_le.mpr hlt)
    · exact hs.free i hge hi hc
  left := by
    right
    rw [coveredBy_cons]
    rcases hs.left with hstart | hc
    · have hlt := lt_stop h.2.1
      left
      rw [covers_iff, hstart]
      omega
    · exact Or.inr hc
  right := hs.right.imp_right fun hc => coveredBy_cons.mpr (Or.inr hc)

/-- There are no others: a gap does not reach over the first word. -/
theorem IsGap.first_or_later (h : Follow text start (e :: words))
    (hs : IsGap text start (e :: words) s) :
    s = (start, e.position) ∨ IsGap text e.stop words s := by
  obtain ⟨hlt, hle, hge, hfree, hleft, hright⟩ := hs
  have hword := lt_stop h.2.1
  have hrest : ∀ i, s.1 ≤ i → i < s.2 → ¬ CoveredBy words i := fun i hi hi' hc =>
    hfree i hi hi' (coveredBy_cons.mpr (Or.inr hc))
  rw [coveredBy_cons, covers_iff] at hleft hright
  by_cases hfront : s.2 ≤ e.position
  · left
    have hbehind : ∀ i, CoveredBy words i → s.2 < i := fun i hc =>
      (hfront.trans_lt hword).trans_le (h.2.2.2.2.stop_le hc)
    ext
    · rcases hleft with hstart | ⟨hin, -⟩ | hc
      · exact hstart
      · exact absurd hin (by omega)
      · exact absurd (hbehind _ hc) (by omega)
    · rcases hright with hend | ⟨hin, -⟩ | hc
      · exact absurd (hend ▸ hfront) (not_le.mpr (hword.trans_le h.2.2.2.1))
      · exact le_antisymm hfront hin
      · exact absurd (hbehind _ hc) (lt_irrefl _)
  · right
    have hstop : e.stop ≤ s.1 := by
      by_contra hover
      -- the first byte of both the stretch and the word
      exact hfree (max s.1 e.position) (le_max_left _ _)
        (max_lt hlt (not_le.mp hfront))
        (coveredBy_cons.mpr (Or.inl ⟨le_max_right _ _, max_lt (not_le.mp hover) hword⟩))
    refine ⟨hlt, hle, hstop, hrest, ?_, ?_⟩
    · rcases hleft with hstart | ⟨-, hin⟩ | hc
      · exact absurd hstop (by rw [hstart]; exact not_le.mpr (h.1.trans_lt hword))
      · left
        omega
      · exact Or.inr hc
    · rcases hright with hend | ⟨-, hin⟩ | hc
      · exact Or.inl hend
      · exact absurd (hstop.trans hlt.le) (not_le.mpr hin)
      · exact Or.inr hc

end Cons

/-- The gaps between words that follow one another are what they leave uncovered, as far
as it reaches. -/
theorem mem_between : ∀ {words : List WordElement} {start : ℕ} {s : ℕ × ℕ},
    Follow text start words →
    (s ∈ between text start words ∧ s.1 < s.2 ↔ IsGap text start words s)
  | [], start, s, _ => by rw [isGap_nil, between, List.mem_singleton]
  | e :: words, start, s, h => by
      have ih := @mem_between words e.stop s h.2.2.2.2
      rw [between, List.mem_cons]
      constructor
      · rintro ⟨rfl | hmem, hlt⟩
        · exact isGap_first h hlt
        · exact (ih.mp ⟨hmem, hlt⟩).later h
      · intro hs
        refine ⟨?_, hs.lt⟩
        rcases hs.first_or_later h with hfirst | hlater
        · exact Or.inl hfirst
        · exact Or.inr (ih.mpr hlater).1

/-- The gaps stand in the order of the text. -/
theorem between_ordered : ∀ {words : List WordElement} {start : ℕ},
    Follow text start words →
    (between text start words).Pairwise (fun s t => s.2 ≤ t.1) ∧
      ∀ s ∈ between text start words, start ≤ s.1
  | [], start, _ => ⟨List.pairwise_singleton _ _, by simp [between]⟩
  | e :: words, start, h => by
      obtain ⟨hle, hne, -, -, hrest⟩ := h
      obtain ⟨hpairs, hstart⟩ := between_ordered hrest
      have hlt := lt_stop hne
      constructor
      · refine List.Pairwise.cons (fun t ht => ?_) hpairs
        exact hlt.le.trans (hstart t ht)
      · refine List.forall_mem_cons.mpr ⟨le_rfl, fun s hs => ?_⟩
        exact (hle.trans hlt.le).trans (hstart s hs)

end Between

section Selected

variable {text : Str}

/-- Selected words follow one another. -/
theorem follow_of_stands : ∀ {words : List WordElement} {start : ℕ},
    Multimap.Sorted WordElement.position words →
    words.Pairwise (fun a b => ¬ Overlap a b) →
    (∀ e ∈ words, e.word ≠ [] ∧ e.word <+: text.drop e.position) →
    start ≤ text.length → (∀ e ∈ words, start ≤ e.position) → Follow text start words
  | [], _, _, _, _, hstart, _ => hstart
  | e :: words, start, hsorted, hdisjoint, hstands, _, hle => by
      obtain ⟨⟨hne, hbegins⟩, hstands'⟩ := List.forall_mem_cons.mp hstands
      obtain ⟨hpos, hpos'⟩ := List.pairwise_cons.mp hsorted
      obtain ⟨hdis, hdis'⟩ := List.pairwise_cons.mp hdisjoint
      have hlen := hbegins.length_le
      have hword : 0 < e.word.length := List.length_pos_iff.mpr hne
      rw [List.length_drop] at hlen
      have hstop : e.stop ≤ text.length := by
        rw [WordElement.stop, e.range_eq]
        omega
      refine ⟨hle e List.mem_cons_self, hne, ?_, hstop, ?_⟩
      · rw [slice, e.range_eq]
        exact (List.prefix_iff_eq_take.mp hbegins).symm
      · refine follow_of_stands hpos' hdis' hstands' hstop fun e' he' => ?_
        -- the later of two words that share no byte starts behind the earlier one
        have hafter := hpos e' he'
        have hno := hdis e' he'
        have hlt' := lt_stop (hstands' e' he').1
        rw [Overlap, max_eq_right hafter] at hno
        by_contra hlt
        exact hno (lt_min (not_le.mp hlt) hlt')

theorem SelectedWords.follow (sel : SelectedWords text) : Follow text 0 sel.words :=
  follow_of_stands sel.sorted sel.disjoint sel.stands (Nat.zero_le _) fun _ _ => Nat.zero_le _

/-- **The stretches are the gaps between neighbouring words**, where there is one. -/
theorem isStretch_iff (sel : SelectedWords text) {s : ℕ × ℕ} :
    IsStretch text sel.words s ↔ s ∈ between text 0 sel.words ∧ s.1 < s.2 := by
  rw [mem_between sel.follow]
  constructor
  · rintro ⟨hlt, hle, hfree, hleft, hright⟩
    exact ⟨hlt, hle, Nat.zero_le _, hfree, hleft, hright⟩
  · rintro ⟨hlt, hle, -, hfree, hleft, hright⟩
    exact ⟨hlt, hle, hfree, hleft, hright⟩

end Selected

/-! ## Replacing the words in turn -/

/-- A part of the text: a gap, or the place of a selected word with what it reads. -/
inductive Part
  | gap (bytes : Str)
  | place (bytes : Str)
deriving DecidableEq

def Part.bytes : Part → Str
  | .gap bytes => bytes
  | .place bytes => bytes

def joined (parts : List Part) : Str := parts.flatMap Part.bytes

/-- The places of a word read as one space from now on. -/
def mask (word : Str) : Part → Part
  | .gap bytes => .gap bytes
  | .place bytes => .place (if bytes = word then [32] else bytes)

/-- No occurrence of the word begins outside its own places. -/
def NoStray (word : Str) (parts : List Part) : Prop :=
  ∀ front part rest, parts = front ++ part :: rest → part ≠ .place word →
    ∀ x y, part.bytes = x ++ y → y ≠ [] → ¬ word <+: y ++ joined rest

/-- Each word in turn: in the text where the places of the words before it already read as
one space, it has no occurrence that begins outside its own places. -/
def Clean : List Str → List Part → Prop
  | [], _ => True
  | word :: words, parts => NoStray word parts ∧ Clean words (parts.map (mask word))

/-- The parts of a text. -/
def partsOf (text : Str) : ℕ → List WordElement → List Part
  | start, [] => [.gap (text.drop start)]
  | start, e :: words =>
      .gap (bytesOf text (start, e.position)) :: .place e.word :: partsOf text e.stop words

/-- `NoStray`, read part by part. -/
def strayFree (word : Str) : List Part → Bool
  | [] => true
  | part :: rest =>
      (decide (part = .place word) ||
        part.bytes.tails.all (fun y => y.isEmpty || !word.isPrefixOf (y ++ joined rest))) &&
        strayFree word rest

section Replacing

variable {text : Str}

theorem joined_cons (part : Part) (parts : List Part) :
    joined (part :: parts) = part.bytes ++ joined parts := rfl

theorem NoStray.tail {word : Str} {part : Part} {parts : List Part}
    (h : NoStray word (part :: parts)) : NoStray word parts :=
  fun front part' rest heq => h (part :: front) part' rest (by rw [heq]; rfl)

theorem strayFree_iff {word : Str} : ∀ {parts : List Part},
    strayFree word parts = true ↔ NoStray word parts
  | [] => iff_of_true rfl fun front part rest heq => by simp at heq
  | part :: parts => by
      rw [strayFree, Bool.and_eq_true, Bool.or_eq_true, decide_eq_true_eq, strayFree_iff,
        List.all_eq_true]
      constructor
      · rintro ⟨hpart, hrest⟩ front part' rest heq hown x y hxy hy
        rcases front with _ | ⟨_, front⟩
        · obtain ⟨rfl, rfl⟩ := List.cons.inj heq
          have hmem : y ∈ part.bytes.tails := (List.mem_tails _ _).mpr ⟨x, hxy.symm⟩
          intro hbegins
          have hall := hpart.resolve_left hown y hmem
          rw [List.isPrefixOf_iff_prefix.mpr hbegins] at hall
          simp [hy] at hall
        · exact hrest front part' rest (List.cons.inj heq).2 hown x y hxy hy
      · intro h
        refine ⟨or_iff_not_imp_left.mpr fun hown y hy => ?_, h.tail⟩
        obtain ⟨x, hxy⟩ := (List.mem_tails _ _).mp hy
        have hno := h [] part parts rfl hown x y hxy.symm
        cases y with
        | nil => rfl
        | cons c y =>
            simpa [← List.isPrefixOf_iff_prefix] using hno (List.cons_ne_nil c y)

instance (word : Str) (parts : List Part) : Decidable (NoStray word parts) :=
  decidable_of_iff _ strayFree_iff

instance decidableClean : ∀ (words : List Str) (parts : List Part), Decidable (Clean words parts)
  | [], _ => inferInstanceAs (Decidable True)
  | word :: words, parts =>
      have : Decidable (Clean words (parts.map (mask word))) := decidableClean _ _
      inferInstanceAs (Decidable (NoStray word parts ∧ Clean words (parts.map (mask word))))

/-- **A replacement without strays hits the places of the word and nothing else.** -/
theorem joined_mask {word : Str} (hne : word ≠ []) : ∀ {parts : List Part},
    NoStray word parts →
    replace_all (joined parts) word [32] = joined (parts.map (mask word))
  | [], _ => rfl
  | part :: parts, h => by
      have ih := joined_mask hne h.tail
      rw [List.map_cons, joined_cons, joined_cons, ← ih]
      by_cases hown : part = .place word
      · subst hown
        rw [mask, if_pos rfl]
        exact replace_all_word hne _
      · have hsame : (mask word part).bytes = part.bytes := by
          cases part with
          | gap bytes => rfl
          | place bytes =>
              rw [mask, if_neg fun heq => hown (by rw [heq])]
        rw [hsame]
        exact replace_all_free (h [] part parts rfl hown)

/-- The loop over the selected words. -/
theorem joined_masks : ∀ {words : List WordElement} {parts : List Part},
    (∀ e ∈ words, e.word ≠ []) → Clean (words.map WordElement.word) parts →
    words.foldl (fun textRemain e => replace_all textRemain e.word [32]) (joined parts) =
      joined (words.foldl (fun parts e => parts.map (mask e.word)) parts)
  | [], _, _, _ => rfl
  | e :: words, parts, hne, h => by
      obtain ⟨hword, hrest⟩ := List.forall_mem_cons.mp hne
      obtain ⟨hstray, hclean⟩ := h
      rw [List.foldl_cons, List.foldl_cons, joined_mask hword hstray]
      exact joined_masks hrest hclean

/-- The masks of all words, part by part. -/
theorem masks_map : ∀ (words : List WordElement) (parts : List Part),
    words.foldl (fun parts e => parts.map (mask e.word)) parts =
      parts.map (fun part => words.foldl (fun part e => mask e.word part) part)
  | [], parts => by simp
  | e :: words, parts => by
      rw [List.foldl_cons, masks_map words, List.map_map]
      rfl

theorem masks_gap : ∀ (words : List WordElement) (bytes : Str),
    words.foldl (fun part e => mask e.word part) (.gap bytes) = .gap bytes
  | [], _ => rfl
  | _ :: words, bytes => masks_gap words bytes

theorem masks_space : ∀ words : List WordElement,
    words.foldl (fun part e => mask e.word part) (.place [32]) = .place [32]
  | [] => rfl
  | e :: words => by
      rw [List.foldl_cons, mask, ite_self]
      exact masks_space words

/-- The place of each selected word ends up as a space. -/
theorem masks_place : ∀ {words : List WordElement} {bytes : Str},
    (∃ e ∈ words, e.word = bytes) →
    words.foldl (fun part e => mask e.word part) (.place bytes) = .place [32]
  | [], _, h => by simp at h
  | e :: words, bytes, h => by
      rw [List.foldl_cons, mask]
      split
      · exact masks_space words
      · next hne =>
          apply masks_place
          obtain ⟨e', he', rfl⟩ := h
          rcases List.mem_cons.mp he' with rfl | he'
          · exact absurd rfl hne
          · exact ⟨e', he', rfl⟩

theorem slice_append_drop (s : Str) (pos n : ℕ) : slice s pos n ++ s.drop (pos + n) = s.drop pos := by
  rw [slice, ← List.drop_drop, List.take_append_drop]

/-- The parts put together are the text. -/
theorem joined_partsOf : ∀ {words : List WordElement} {start : ℕ}, Follow text start words →
    joined (partsOf text start words) = text.drop start
  | [], start, _ => by simp [partsOf, joined, Part.bytes]
  | e :: words, start, h => by
      obtain ⟨hle, -, hslice, -, hrest⟩ := h
      rw [partsOf, joined_cons, joined_cons, joined_partsOf hrest]
      show slice text start (e.position - start) ++ (e.word ++ text.drop e.stop) = _
      have hgap := slice_append_drop text start (e.position - start)
      rw [← hslice, WordElement.stop, slice_append_drop]
      rwa [Nat.add_sub_cancel' hle] at hgap

end Replacing

/-! ## What comes out -/

/-- The size of one character. -/
def small (remain : Str) : Bool := decide (remain.length > 1 ∧ remain.length < 4)

/-- `prediWords_` grows by the stretches of that size, each once, in the order of the
text. -/
def AppendsStretches (text : Str) (words : List WordElement) (p : ParrotWord) : Prop :=
  ∃ stretches : List (ℕ × ℕ), stretches.Pairwise (fun s t => s.2 ≤ t.1) ∧
    (∀ s, s ∈ stretches ↔ IsStretch text words s ∧ 1 < s.2 - s.1 ∧ s.2 - s.1 < 4) ∧
    (getWordPredictionOfOne { p with wordSeqTopSelected_ := words } text).prediWords_ =
      p.prediWords_ ++ stretches.map (bytesOf text)

/-- A stretch with white space in it neither has the size of a character nor has a piece of
that size between its white space. -/
def NoSmallPieces (text : Str) (words : List WordElement) : Prop :=
  ∀ s, IsStretch text words s → (∃ c ∈ bytesOf text s, isSpace c = true) →
    small (bytesOf text s) = false ∧
      ∀ piece ∈ tokens isSpace (bytesOf text s), small piece = false

section Remains

variable {text : Str}

/-- The tokens of the text, once every place reads as a space. -/
theorem tokens_masks : ∀ {words all : List WordElement} {start : ℕ}, words ⊆ all →
    Follow text start words →
    tokens isSpace (joined ((partsOf text start words).map
      (fun part => all.foldl (fun part e => mask e.word part) part))) =
      (between text start words).flatMap (fun s => tokens isSpace (bytesOf text s))
  | [], all, start, _, hstart => by
      have hdrop : bytesOf text (start, text.length) = text.drop start := by
        rw [bytesOf, slice, List.take_of_length_le (by rw [List.length_drop])]
      rw [partsOf, List.map_singleton, masks_gap, between, List.flatMap_singleton, hdrop]
      simp [joined, Part.bytes]
  | e :: words, all, start, hsub, h => by
      obtain ⟨-, -, -, -, hrest⟩ := h
      have hplace : ∃ e' ∈ all, e'.word = e.word := ⟨e, hsub List.mem_cons_self, rfl⟩
      have hspace : isSpace 32 = true := by decide
      rw [partsOf, List.map_cons, List.map_cons, masks_gap, masks_place hplace, joined_cons,
        joined_cons]
      show tokens isSpace (bytesOf text (start, e.position) ++ 32 :: joined _) = _
      rw [tokens_append_delim hspace,
        tokens_masks (fun x hx => hsub (List.mem_cons_of_mem _ hx)) hrest]
      rfl

/-- What `getWordPredictionOfOne` appends when no replacement strays. -/
theorem remains_eq (sel : SelectedWords text) (p : ParrotWord)
    (hclean : Clean (sel.words.map WordElement.word) (partsOf text 0 sel.words)) :
    (getWordPredictionOfOne { p with wordSeqTopSelected_ := sel.words } text).prediWords_ =
      p.prediWords_ ++ (between text 0 sel.words).flatMap
        (fun s => (tokens isSpace (bytesOf text s)).filter small) := by
  have htext : joined (partsOf text 0 sel.words) = text := joined_partsOf sel.follow
  have hloop := joined_masks (fun e he => (sel.stands e he).1) hclean
  rw [htext, masks_map] at hloop
  show p.prediWords_ ++ (split isSpace (sel.words.foldl (fun textRemain e =>
    replace_all textRemain e.word [32]) text)).filter small = _
  rw [hloop, filter_split rfl, tokens_masks (List.Subset.refl _) sel.follow, List.filter_flatMap]

theorem length_bytesOf {s : ℕ × ℕ} (h : s.2 ≤ text.length) (hlt : s.1 < s.2) :
    (bytesOf text s).length = s.2 - s.1 :=
  length_slice (by omega)

/-- The stretches of the size of a character. -/
def smallStretches (text : Str) (words : List WordElement) : List (ℕ × ℕ) :=
  (between text 0 words).filter (fun s => decide (1 < s.2 - s.1 ∧ s.2 - s.1 < 4))

theorem mem_smallStretches (sel : SelectedWords text) {s : ℕ × ℕ} :
    s ∈ smallStretches text sel.words ↔
      IsStretch text sel.words s ∧ 1 < s.2 - s.1 ∧ s.2 - s.1 < 4 := by
  rw [smallStretches, List.mem_filter, isStretch_iff sel, decide_eq_true_eq]
  constructor
  · rintro ⟨hmem, hsize⟩
    exact ⟨⟨hmem, by omega⟩, hsize⟩
  · rintro ⟨⟨hmem, -⟩, hsize⟩
    exact ⟨hmem, hsize⟩

/-- There is one list of them in the order of the text. -/
theorem smallStretches_unique (sel : SelectedWords text) {stretches : List (ℕ × ℕ)}
    (hpairs : stretches.Pairwise (fun s t => s.2 ≤ t.1))
    (hmem : ∀ s, s ∈ stretches ↔ IsStretch text sel.words s ∧ 1 < s.2 - s.1 ∧ s.2 - s.1 < 4) :
    stretches = smallStretches text sel.words := by
  have hstrict {l : List (ℕ × ℕ)} (hl : l.Pairwise (fun s t => s.2 ≤ t.1))
      (hlt : ∀ s ∈ l, s.1 < s.2) : l.Pairwise (fun s t => s.1 < t.1) :=
    hl.imp_of_mem fun hs _ hst => (hlt _ hs).trans_le hst
  have hirrefl : Std.Irrefl (fun s t : ℕ × ℕ => s.1 < t.1) := ⟨fun s => lt_irrefl s.1⟩
  have hanti : Std.Antisymm (fun s t : ℕ × ℕ => s.1 < t.1) :=
    ⟨fun s t hst hts => absurd hst (lt_asymm hts)⟩
  refine List.Pairwise.eq_of_mem_iff (hstrict hpairs ?_) (hstrict ?_ ?_) fun s => ?_
  · exact fun s hs => ((hmem s).mp hs).1.lt
  · exact (between_ordered sel.follow).1.filter _
  · exact fun s hs => ((mem_smallStretches sel).mp hs).1.lt
  · rw [hmem, mem_smallStretches sel]

/-- The stretches appended are those, in the order of the text. -/
theorem appendsStretches_iff (sel : SelectedWords text) (p : ParrotWord) :
    AppendsStretches text sel.words p ↔
      (getWordPredictionOfOne { p with wordSeqTopSelected_ := sel.words } text).prediWords_ =
        p.prediWords_ ++ (smallStretches text sel.words).map (bytesOf text) := by
  constructor
  · rintro ⟨stretches, hpairs, hmem, heq⟩
    rwa [smallStretches_unique sel hpairs hmem] at heq
  · intro heq
    exact ⟨_, (between_ordered sel.follow).1.filter _, fun s => mem_smallStretches sel, heq⟩

/-- What a gap should give. -/
def expected (text : Str) (s : ℕ × ℕ) : List Str :=
  if small (bytesOf text s) then [bytesOf text s] else []

/-- What it gives. -/
def given (text : Str) (s : ℕ × ℕ) : List Str :=
  (tokens isSpace (bytesOf text s)).filter small

theorem smallStretches_map (sel : SelectedWords text) :
    (smallStretches text sel.words).map (bytesOf text) =
      (between text 0 sel.words).flatMap (expected text) := by
  have hsize : ∀ s ∈ between text 0 sel.words,
      decide (1 < s.2 - s.1 ∧ s.2 - s.1 < 4) = small (bytesOf text s) := by
    intro s hs
    by_cases hlt : s.1 < s.2
    · rw [small, length_bytesOf ((isStretch_iff sel).mpr ⟨hs, hlt⟩).le hlt]
    · have hzero : s.2 - s.1 = 0 := by omega
      rw [small, bytesOf, hzero]
      rfl
  rw [smallStretches, List.filter_congr hsize]
  generalize between text 0 sel.words = gaps
  induction gaps with
  | nil => rfl
  | cons s gaps ih =>
      rw [List.flatMap_cons, ← ih, List.filter_cons, expected]
      split <;> rfl

/-- Lists put together are equal only part by part, when no part is longer on one side. -/
theorem forall_eq_of_flatMap {α β : Type*} {f g : α → List β} : ∀ {l : List α},
    l.flatMap f = l.flatMap g → (∀ a ∈ l, (g a).length ≤ (f a).length) → ∀ a ∈ l, f a = g a
  | [], _, _ => by simp
  | a :: l, heq, hle => by
      obtain ⟨ha, hl⟩ := List.forall_mem_cons.mp hle
      have hrest : (l.flatMap g).length ≤ (l.flatMap f).length := by
        clear heq hle
        induction l with
        | nil => exact le_rfl
        | cons b l ih =>
            obtain ⟨hb, hl⟩ := List.forall_mem_cons.mp hl
            rw [List.flatMap_cons, List.flatMap_cons, List.length_append, List.length_append]
            exact Nat.add_le_add hb (ih hl)
      have hlen := congrArg List.length heq
      rw [List.flatMap_cons, List.flatMap_cons] at heq hlen
      rw [List.length_append, List.length_append] at hlen
      obtain ⟨hfg, htail⟩ := List.append_inj heq (by omega)
      exact List.forall_mem_cons.mpr ⟨hfg, forall_eq_of_flatMap htail hl⟩

/-- A gap without white space gives what it should. -/
theorem given_of_free {s : ℕ × ℕ} (hfree : ∀ c ∈ bytesOf text s, isSpace c = false) :
    given text s = expected text s := by
  rw [given, expected]
  by_cases hnil : bytesOf text s = []
  · rw [hnil]
    rfl
  · rw [tokens_self hnil hfree, List.filter_cons, List.filter_nil]

/-- A gap with white space should give nothing and has nothing to give, or it does not give
what it should. -/
theorem given_of_space {s : ℕ × ℕ} (hspace : ∃ c ∈ bytesOf text s, isSpace c = true) :
    given text s = expected text s ↔ small (bytesOf text s) = false ∧
      ∀ piece ∈ tokens isSpace (bytesOf text s), small piece = false := by
  rw [given, expected]
  obtain ⟨c, hc, hspace⟩ := hspace
  by_cases hsmall : small (bytesOf text s) = true
  · rw [if_pos hsmall, hsmall]
    refine iff_of_false (fun heq => ?_) (by simp)
    have hmem : bytesOf text s ∈ (tokens isSpace (bytesOf text s)).filter small := by
      rw [heq]
      exact List.mem_singleton.mpr rfl
    have hfree := (mem_tokens (List.mem_of_mem_filter hmem)).2 c hc
    rw [hspace] at hfree
    contradiction
  · rw [if_neg hsmall, List.filter_eq_nil_iff, and_iff_right (by simpa using hsmall)]
    simp

/-- White space in no gap that should be given. -/
theorem free_of_eq {gaps : List (ℕ × ℕ)}
    (heq : gaps.flatMap (given text) = gaps.flatMap (expected text)) {s : ℕ × ℕ} (hs : s ∈ gaps)
    (hsmall : small (bytesOf text s) = true) : ∀ c ∈ bytesOf text s, isSpace c = false := by
  have hmem : bytesOf text s ∈ gaps.flatMap (given text) := by
    rw [heq]
    refine List.mem_flatMap.mpr ⟨s, hs, ?_⟩
    rw [expected, if_pos hsmall]
    exact List.mem_singleton.mpr rfl
  obtain ⟨t, -, ht⟩ := List.mem_flatMap.mp hmem
  exact (mem_tokens (List.mem_of_mem_filter ht)).2

/-- All gaps give what they should exactly when each of them does. -/
theorem flatMap_given_iff {gaps : List (ℕ × ℕ)} :
    gaps.flatMap (given text) = gaps.flatMap (expected text) ↔
      ∀ s ∈ gaps, given text s = expected text s := by
  refine ⟨fun heq => forall_eq_of_flatMap heq fun s hs => ?_, List.flatMap_congr⟩
  by_cases hsmall : small (bytesOf text s) = true
  · rw [given_of_free (free_of_eq heq hs hsmall)]
  · rw [expected, if_neg hsmall]
    exact Nat.zero_le _

/-- **When no replacement strays, the stretches of the size of a character come out, and
nothing else, exactly when white space neither hides nor makes one.** -/
theorem remains_iff (text : Str) (sel : SelectedWords text) (p : ParrotWord)
    (hclean : Clean (sel.words.map WordElement.word) (partsOf text 0 sel.words)) :
    AppendsStretches text sel.words p ↔ NoSmallPieces text sel.words := by
  rw [appendsStretches_iff sel, remains_eq sel p hclean, smallStretches_map sel,
    List.append_cancel_left_eq]
  refine flatMap_given_iff.trans ?_
  constructor
  · intro h s hstretch hspace
    exact (given_of_space hspace).mp (h s ((isStretch_iff sel).mp hstretch).1)
  · intro h s hs
    by_cases hspace : ∃ c ∈ bytesOf text s, isSpace c = true
    · refine (given_of_space hspace).mpr (h s ((isStretch_iff sel).mpr ⟨hs, ?_⟩) hspace)
      by_contra hge
      obtain ⟨c, hc, -⟩ := hspace
      rw [bytesOf, Nat.sub_eq_zero_of_le (not_lt.mp hge)] at hc
      exact absurd hc (by simp [slice])
    · refine given_of_free fun c hc => ?_
      by_contra hc'
      exact hspace ⟨c, hc, by simpa using hc'⟩

end Remains

/-! ## Words found twice -/

/-- `abcdab` with both `ab` selected. -/
def twiceSelected : SelectedWords [97, 98, 99, 100, 97, 98] where
  words := [WordElement.make [97, 98] 0 1 1, WordElement.make [97, 98] 4 1 1]
  sorted := by simp [Multimap.Sorted, WordElement.make]
  disjoint := by decide
  stands := by decide

theorem remains_iff_twice :
    AppendsStretches [97, 98, 99, 100, 97, 98] twiceSelected.words emptyParrot ↔
      NoSmallPieces [97, 98, 99, 100, 97, 98] twiceSelected.words :=
  remains_iff _ twiceSelected emptyParrot (by decide)

/-- Six characters `ABXABC` of three bytes. -/
def sixCharacters : Str :=
  [65, 66, 88, 65, 66, 67].flatMap (fun c => [228, 184, c + 64])

/-- The first `AB` and, heavier than the second one, `BC`. -/
def strayed : SelectedWords sixCharacters where
  words := [WordElement.make (slice sixCharacters 0 6) 0 1 1,
    WordElement.make (slice sixCharacters 12 6) 12 2 2]
  sorted := by simp [Multimap.Sorted, WordElement.make]
  disjoint := by decide
  stands := by decide

/-- The six bytes between the words are no character, yet `X` and `C` come out: the second
`AB` is replaced too, and `BC` is not found any more. -/
theorem not_appendsStretches_six :
    (getWordPredictionOfOne { emptyParrot with wordSeqTopSelected_ := strayed.words }
      sixCharacters).prediWords_ = [slice sixCharacters 6 3, slice sixCharacters 15 3] ∧
    ¬ AppendsStretches sixCharacters strayed.words emptyParrot := by
  constructor
  · decide
  · rw [appendsStretches_iff]
    decide

end WaiNative.ParrotWord

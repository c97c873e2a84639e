import WaiNative.Training.Learn

/-!
# What `ParrotWord` selects

`calcPrediction` goes through the hints from the heaviest down and takes the places of
each byte by byte. A hint that meets a taken place is not selected, but the free places
in front of that one stay taken.

- `calcPrediction_disjoint`: selected hints share no byte, although the places end with
  the last hint;
- `isGreedy_iff`: when the selection is the greedy one.
-/

namespace WaiNative.ParrotWord

open Cxx

/-! ## Hints as intervals of bytes -/

/-- The byte `i` belongs to the hint. -/
def Covers (e : WordElement) (i : ℕ) : Prop := e.position ≤ i ∧ i < e.stop

/-- The later start lies before the earlier end. -/
def Overlap (a b : WordElement) : Prop := max a.position b.position < min a.stop b.stop

instance (e : WordElement) (i : ℕ) : Decidable (Covers e i) :=
  inferInstanceAs (Decidable (_ ∧ _))

instance (a b : WordElement) : Decidable (Overlap a b) := inferInstanceAs (Decidable (_ < _))

/-- Hints overlap when they share a byte. -/
theorem overlap_iff {a b : WordElement} : Overlap a b ↔ ∃ i, Covers a i ∧ Covers b i := by
  constructor
  · intro h
    obtain ⟨ha, hb⟩ := lt_min_iff.mp h
    exact ⟨_, ⟨le_max_left _ _, ha⟩, le_max_right _ _, hb⟩
  · rintro ⟨i, ⟨ha, ha'⟩, hb, hb'⟩
    exact (max_le ha hb).trans_lt (lt_min ha' hb')

theorem overlap_comm {a b : WordElement} : Overlap a b ↔ Overlap b a := by
  rw [Overlap, Overlap, max_comm, min_comm]

/-- Two hints that overlap share the byte at which the later one starts. -/
theorem Overlap.covers {a b : WordElement} (h : Overlap a b) :
    Covers a (max a.position b.position) ∧ Covers b (max a.position b.position) := by
  obtain ⟨ha, hb⟩ := lt_min_iff.mp h
  exact ⟨⟨le_max_left _ _, ha⟩, le_max_right _ _, hb⟩

/-- The hints with their adjusted weights, heaviest first. -/
def weightOrder (pow : ℚ → ℚ → ℚ) (p : ParrotWord) : List WordElement :=
  (Multimap.insertAll WordElement.weight
    (p.wordHintSeq_.map (fun elem =>
      { elem with weight := adjustWeight pow p elem.word.length elem.weight })) []).reverse

/-! ## The places -/

section Places

theorem getD_set {placeholder : List Bool} {i : ℕ} (h : i < placeholder.length) (j : ℕ) :
    (placeholder.set i true).getD j false = true ↔ j = i ∨ placeholder.getD j false = true := by
  rw [List.getD_eq_getElem?_getD, List.getD_eq_getElem?_getD, List.getElem?_set]
  by_cases hij : i = j
  · subst hij
    simp [h]
  · simp [hij, Ne.symm hij]

theorem takePlaces_length : ∀ (n i : ℕ) (placeholder : List Bool),
    (takePlaces n i placeholder).2.length = placeholder.length
  | 0, _, _ => rfl
  | n + 1, i, placeholder => by
      rw [takePlaces]
      split
      · exact takePlaces_length n _ _
      · split
        · rfl
        · rw [takePlaces_length, List.length_set]

/-- A taken place stays taken. -/
theorem takePlaces_grows : ∀ {n i : ℕ} {placeholder : List Bool} {j : ℕ},
    placeholder.getD j false = true → (takePlaces n i placeholder).2.getD j false = true
  | 0, _, _, _, h => h
  | n + 1, i, placeholder, j, h => by
      rw [takePlaces]
      split
      · exact takePlaces_grows h
      · next hi =>
          split
          · exact h
          · exact takePlaces_grows ((getD_set (not_le.mp hi) j).mpr (Or.inr h))

/-- The word is selected when none of its places is taken. -/
theorem takePlaces_fst : ∀ {n i : ℕ} {placeholder : List Bool},
    (takePlaces n i placeholder).1 = true ↔
      ∀ j, i ≤ j → j < i + n → placeholder.getD j false = false
  | 0, i, placeholder => by
      refine iff_of_true rfl fun j hj hlt => ?_
      omega
  | n + 1, i, placeholder => by
      have hsplit : (∀ j, i ≤ j → j < i + (n + 1) → placeholder.getD j false = false) ↔
          placeholder.getD i false = false ∧
            ∀ j, i + 1 ≤ j → j < i + 1 + n → placeholder.getD j false = false := by
        constructor
        · intro h
          exact ⟨h i le_rfl (by omega), fun j hj hlt => h j (by omega) (by omega)⟩
        · rintro ⟨h, hrest⟩ j hj hlt
          rcases hj.eq_or_lt with rfl | hj
          · exact h
          · exact hrest j hj (by omega)
      rw [hsplit, takePlaces]
      split
      · next hi =>
          have hfree : placeholder.getD i false = false := by
            rw [List.getD_eq_getElem?_getD, List.getElem?_eq_none hi]
            rfl
          rw [takePlaces_fst]
          exact (and_iff_right hfree).symm
      · next hi =>
          split
          · next htaken =>
              refine iff_of_false Bool.false_ne_true fun h => ?_
              exact Bool.false_ne_true (h.1.symm.trans htaken)
          · next hfree =>
              rw [takePlaces_fst, and_iff_right (by simpa using hfree)]
              refine forall_congr' fun j => forall_congr' fun hj => forall_congr' fun _ => ?_
              have hset := getD_set (not_le.mp hi) j
              rw [or_iff_right (by omega)] at hset
              rw [← Bool.not_eq_true, ← Bool.not_eq_true, hset]

/-- A selected word takes its places and no other. -/
theorem takePlaces_snd : ∀ {n i : ℕ} {placeholder : List Bool} {j : ℕ},
    (takePlaces n i placeholder).1 = true → j < placeholder.length →
    ((takePlaces n i placeholder).2.getD j false = true ↔
      (i ≤ j ∧ j < i + n) ∨ placeholder.getD j false = true)
  | 0, i, placeholder, j, _, _ => by
      rw [takePlaces, or_iff_right]
      omega
  | n + 1, i, placeholder, j, h, hj => by
      rw [takePlaces] at h ⊢
      split at h
      · next hi =>
          rw [if_pos hi, takePlaces_snd h hj]
          refine or_congr_left ?_
          omega
      · next hi =>
          rw [if_neg hi]
          split at h
          · contradiction
          · next hfree =>
              rw [if_neg hfree, takePlaces_snd h (by rwa [List.length_set]),
                getD_set (not_le.mp hi), ← or_assoc]
              refine or_congr_left ?_
              omega

/-- Where the first place is taken, nothing happens. -/
theorem takePlaces_of_taken {n i : ℕ} {placeholder : List Bool}
    (h : placeholder.getD i false = true) :
    takePlaces (n + 1) i placeholder = (false, placeholder) := by
  have hi : ¬ placeholder.length ≤ i := by
    intro hle
    rw [List.getD_eq_getElem?_getD, List.getElem?_eq_none hle] at h
    contradiction
  rw [takePlaces, if_neg hi, if_pos h]

/-- Where it is free, it is taken afterwards. -/
theorem takePlaces_of_free {n i : ℕ} {placeholder : List Bool} (hi : i < placeholder.length)
    (h : placeholder.getD i false = false) :
    (takePlaces (n + 1) i placeholder).2.getD i false = true := by
  rw [takePlaces, if_neg (not_le.mpr hi), if_neg (by rw [h]; exact Bool.false_ne_true)]
  exact takePlaces_grows ((getD_set hi i).mpr (Or.inl rfl))

end Places

/-! ## The selection -/

section Selection

variable {place_begin : ℕ}

/-- Every byte of a selected word is marked, as far as the places reach. -/
def Marks (place_begin : ℕ) (placeholder : List Bool) (selected : List WordElement) : Prop :=
  ∀ e ∈ selected, ∀ i, Covers e i → i - place_begin < placeholder.length →
    placeholder.getD (i - place_begin) false = true

/-- The start of every word has a place. -/
def InReach (place_begin : ℕ) (placeholder : List Bool) (words : List WordElement) : Prop :=
  ∀ e ∈ words, place_begin ≤ e.position ∧ e.position - place_begin < placeholder.length

/-- The places of a word that is asked for. -/
def takeWord (place_begin : ℕ) (itWeight : WordElement) (placeholder : List Bool) :
    Bool × List Bool :=
  takePlaces itWeight.range (itWeight.position - place_begin) placeholder

theorem takeWord_fst {itWeight : WordElement} {placeholder : List Bool}
    (hbegin : place_begin ≤ itWeight.position) :
    (takeWord place_begin itWeight placeholder).1 = true ↔
      ∀ i, Covers itWeight i → placeholder.getD (i - place_begin) false = false := by
  rw [takeWord, takePlaces_fst]
  constructor
  · rintro h i ⟨hle, hlt⟩
    rw [WordElement.stop] at hlt
    exact h _ (by omega) (by omega)
  · intro h j hj hlt
    have hj' := h (j + place_begin) ⟨by omega, by rw [WordElement.stop]; omega⟩
    rwa [Nat.add_sub_cancel] at hj'

theorem takeWord_snd {itWeight : WordElement} {placeholder : List Bool}
    (hbegin : place_begin ≤ itWeight.position)
    (h : (takeWord place_begin itWeight placeholder).1 = true) {i : ℕ} (hi : place_begin ≤ i)
    (hlt : i - place_begin < placeholder.length) :
    (takeWord place_begin itWeight placeholder).2.getD (i - place_begin) false = true ↔
      Covers itWeight i ∨ placeholder.getD (i - place_begin) false = true := by
  rw [takeWord, takePlaces_snd h hlt]
  refine or_congr_left ?_
  rw [Covers, WordElement.stop]
  omega

/-- A word that overlaps a selected one finds a place taken: the later of the two starts
has a place, wherever the array ends. -/
theorem not_overlap_of_taken {itWeight : WordElement} {placeholder : List Bool}
    {selected : List WordElement} (hmarks : Marks place_begin placeholder selected)
    (hreach : InReach place_begin placeholder (itWeight :: selected))
    (h : (takeWord place_begin itWeight placeholder).1 = true) :
    ∀ e ∈ selected, ¬ Overlap itWeight e := by
  intro e he hover
  obtain ⟨hself, hself'⟩ := List.forall_mem_cons.mp hreach
  obtain ⟨hcover, hcover'⟩ := hover.covers
  have hlt : max itWeight.position e.position - place_begin < placeholder.length := by
    rcases max_choice itWeight.position e.position with heq | heq
    · rw [heq]
      exact hself.2
    · rw [heq]
      exact (hself' e he).2
  have hfree := (takeWord_fst hself.1).mp h _ hcover
  rw [hmarks e he _ hcover' hlt] at hfree
  contradiction

/-- The words selected, in the order in which they are. -/
def chosen (place_begin : ℕ) : List WordElement → List Bool → List WordElement
  | [], _ => []
  | itWeight :: rest, placeholder =>
      if (takeWord place_begin itWeight placeholder).1 then
        itWeight :: chosen place_begin rest (takeWord place_begin itWeight placeholder).2
      else chosen place_begin rest (takeWord place_begin itWeight placeholder).2

theorem selectPlaces_eq : ∀ (order : List WordElement) (placeholder : List Bool)
    (wordSeqTopSelected_ : List WordElement),
    selectPlaces place_begin order placeholder wordSeqTopSelected_ =
      Multimap.insertAll WordElement.position (chosen place_begin order placeholder)
        wordSeqTopSelected_
  | [], _, _ => rfl
  | itWeight :: rest, placeholder, wordSeqTopSelected_ => by
      show selectPlaces place_begin rest (takeWord place_begin itWeight placeholder).2
        (if (takeWord place_begin itWeight placeholder).1 then _ else _) = _
      rw [chosen, selectPlaces_eq]
      split <;> rfl

/-- The marks after a word has been asked for. -/
theorem Marks.take {itWeight : WordElement} {placeholder : List Bool}
    {selected : List WordElement} (hmarks : Marks place_begin placeholder selected) :
    Marks place_begin (takeWord place_begin itWeight placeholder).2 selected := by
  intro e he i hi hlt
  rw [takeWord, takePlaces_length] at hlt
  exact takePlaces_grows (hmarks e he i hi hlt)

theorem Marks.select {itWeight : WordElement} {placeholder : List Bool}
    {selected : List WordElement} (hmarks : Marks place_begin placeholder selected)
    (hbegin : place_begin ≤ itWeight.position)
    (h : (takeWord place_begin itWeight placeholder).1 = true) :
    Marks place_begin (takeWord place_begin itWeight placeholder).2 (itWeight :: selected) := by
  refine List.forall_mem_cons.mpr ⟨?_, hmarks.take⟩
  intro i hi hlt
  rw [takeWord, takePlaces_length] at hlt
  exact (takeWord_snd hbegin h (hbegin.trans hi.1) hlt).mpr (Or.inl hi)

theorem InReach.head {itWeight : WordElement} {placeholder : List Bool}
    {rest selected : List WordElement}
    (h : InReach place_begin placeholder (itWeight :: rest ++ selected)) :
    InReach place_begin placeholder (itWeight :: selected) := by
  obtain ⟨hself, hrest⟩ := List.forall_mem_cons.mp h
  exact List.forall_mem_cons.mpr ⟨hself, fun e he => hrest e (List.mem_append_right _ he)⟩

/-- The words that are left, when the places have been asked for one. -/
theorem InReach.step {itWeight : WordElement} {placeholder : List Bool}
    {rest selected after : List WordElement}
    (h : InReach place_begin placeholder (itWeight :: rest ++ selected))
    (hsub : after ⊆ itWeight :: rest ++ selected) :
    InReach place_begin (takeWord place_begin itWeight placeholder).2 after := by
  intro e he
  rw [takeWord, takePlaces_length]
  exact h e (hsub he)

/-- **No two words selected share a byte.** -/
theorem chosen_disjoint : ∀ {order : List WordElement} {placeholder : List Bool}
    {selected : List WordElement}, Marks place_begin placeholder selected →
    InReach place_begin placeholder (order ++ selected) →
    (chosen place_begin order placeholder).Pairwise (fun a b => ¬ Overlap a b) ∧
      ∀ w ∈ chosen place_begin order placeholder, ∀ e ∈ selected, ¬ Overlap w e
  | [], _, _, _, _ => ⟨List.Pairwise.nil, by simp [chosen]⟩
  | itWeight :: rest, placeholder, selected, hmarks, hreach => by
      rw [chosen]
      split
      · next h =>
          have hover := not_overlap_of_taken hmarks hreach.head h
          -- the word goes from those asked for to those selected
          have hsub : rest ++ itWeight :: selected ⊆ itWeight :: rest ++ selected :=
            List.perm_middle.subset
          have hself := (hreach.head itWeight List.mem_cons_self).1
          obtain ⟨hpairs, hold⟩ := chosen_disjoint (hmarks.select hself h) (hreach.step hsub)
          constructor
          · refine List.Pairwise.cons ?_ hpairs
            intro w hw hself'
            exact hold w hw itWeight List.mem_cons_self (by rwa [overlap_comm])
          · refine List.forall_mem_cons.mpr ⟨hover, ?_⟩
            intro w hw e he
            exact hold w hw e (List.mem_cons_of_mem _ he)
      · exact chosen_disjoint hmarks.take (hreach.step (List.subset_cons_self _ _))

end Selection

/-! ## `calcPrediction` -/

section Calc

variable (pow : ℚ → ℚ → ℚ) {p : ParrotWord}

/-- The places before any is taken: they end one behind the last hint. -/
def places (firstPos lastPos : WordElement) : List Bool :=
  List.replicate (lastPos.position - firstPos.position + lastPos.range + 1) false

/-- What `calcPrediction` selects, heaviest word first. -/
def selection (p : ParrotWord) : List WordElement :=
  match p.wordHintSeq_.head?, p.wordHintSeq_.getLast? with
  | some firstPos, some lastPos =>
      chosen firstPos.position (weightOrder pow p) (places firstPos lastPos)
  | _, _ => []

theorem calcPrediction_selected :
    (calcPrediction pow p).wordSeqTopSelected_ =
      Multimap.insertAll WordElement.position (selection pow p) p.wordSeqTopSelected_ := by
  rw [calcPrediction, selection]
  rcases p.wordHintSeq_.head? with _ | firstPos
  · rfl
  · rcases p.wordHintSeq_.getLast? with _ | lastPos
    · rfl
    · exact selectPlaces_eq _ _ _

/-- Weighing leaves the hints where they are. -/
theorem mem_weightOrder {e : WordElement} (h : e ∈ weightOrder pow p) :
    ∃ hint ∈ p.wordHintSeq_, hint.position = e.position ∧ hint.range = e.range := by
  rw [weightOrder, List.mem_reverse, Multimap.mem_insertAll] at h
  rcases h with h | h
  · contradiction
  · obtain ⟨hint, hhint, rfl⟩ := List.mem_map.mp h
    exact ⟨hint, hhint, rfl, rfl⟩

/-- All hints start between the first and the last. -/
theorem inReach_places (hsorted : Multimap.Sorted WordElement.position p.wordHintSeq_)
    {firstPos lastPos : WordElement} (hfirst : p.wordHintSeq_.head? = some firstPos)
    (hlast : p.wordHintSeq_.getLast? = some lastPos) :
    InReach firstPos.position (places firstPos lastPos) (weightOrder pow p) := by
  intro e he
  obtain ⟨hint, hhint, hpos, -⟩ := mem_weightOrder pow he
  have hle : firstPos.position ≤ hint.position := by
    obtain ⟨rest, hrest⟩ := List.head?_eq_some_iff.mp hfirst
    rw [hrest] at hsorted hhint
    rcases List.mem_cons.mp hhint with rfl | h
    · exact le_rfl
    · exact List.rel_of_pairwise_cons hsorted h
  have hge : hint.position ≤ lastPos.position := by
    obtain ⟨front, hfront⟩ := List.getLast?_eq_some_iff.mp hlast
    rw [hfront] at hsorted hhint
    rcases List.mem_append.mp hhint with h | h
    · exact (List.pairwise_append.mp hsorted).2.2 _ h _ (List.mem_singleton.mpr rfl)
    · rw [List.mem_singleton.mp h]
  rw [← hpos, places, List.length_replicate]
  omega

theorem marks_nil (place_begin : ℕ) (placeholder : List Bool) :
    Marks place_begin placeholder [] := by
  simp [Marks]

theorem chosen_sublist {place_begin : ℕ} : ∀ (order : List WordElement)
    (placeholder : List Bool), (chosen place_begin order placeholder).Sublist order
  | [], _ => List.Sublist.refl _
  | itWeight :: rest, placeholder => by
      rw [chosen]
      split
      · exact (chosen_sublist rest _).cons_cons itWeight
      · exact (chosen_sublist rest _).cons itWeight

theorem selection_sublist : (selection pow p).Sublist (weightOrder pow p) := by
  rw [selection]
  split
  · exact chosen_sublist _ _
  · exact List.nil_sublist _

/-- **The words that `calcPrediction` selects share no byte**, for every order of the
adjusted weights and wherever the places end. -/
theorem calcPrediction_disjoint (pow : ℚ → ℚ → ℚ) (p : ParrotWord)
    (hsorted : Multimap.Sorted WordElement.position p.wordHintSeq_) :
    ∃ selected : List WordElement, selected.Sublist (weightOrder pow p) ∧
      (calcPrediction pow p).wordSeqTopSelected_ =
        Multimap.insertAll WordElement.position selected p.wordSeqTopSelected_ ∧
      selected.Pairwise (fun a b => ¬ Overlap a b) := by
  refine ⟨selection pow p, selection_sublist pow, calcPrediction_selected pow, ?_⟩
  rw [selection]
  split
  · next firstPos lastPos hfirst hlast =>
      have hreach := inReach_places pow hsorted hfirst hlast
      rw [← List.append_nil (weightOrder pow p)] at hreach
      exact (chosen_disjoint (marks_nil _ _) hreach).1
  · exact List.Pairwise.nil

end Calc

/-! ## The greedy selection -/

/-- Of the words in their order each one that overlaps none selected before it. -/
def greedy : List WordElement → List WordElement → List WordElement
  | [], _ => []
  | itWeight :: rest, selected =>
      if ∃ e ∈ selected, Overlap itWeight e then greedy rest selected
      else itWeight :: greedy rest (itWeight :: selected)

/-- Along the run every word rejected overlaps one selected before it, and its rejection
leaves the places as they were. -/
def GreedyRun (place_begin : ℕ) : List WordElement → List Bool → List WordElement → Prop
  | [], _, _ => True
  | itWeight :: rest, placeholder, selected =>
      if (takeWord place_begin itWeight placeholder).1 then
        GreedyRun place_begin rest (takeWord place_begin itWeight placeholder).2
          (itWeight :: selected)
      else
        (∃ e ∈ selected, Overlap itWeight e) ∧
          (takeWord place_begin itWeight placeholder).2 = placeholder ∧
          GreedyRun place_begin rest (takeWord place_begin itWeight placeholder).2 selected

/-- `calcPrediction` makes the greedy selection, step by step. -/
def IsGreedy (pow : ℚ → ℚ → ℚ) (p : ParrotWord) : Prop :=
  selection pow p = greedy (weightOrder pow p) [] ∧
    ∀ firstPos ∈ p.wordHintSeq_.head?, ∀ lastPos ∈ p.wordHintSeq_.getLast?,
      GreedyRun firstPos.position (weightOrder pow p) (places firstPos lastPos) []

/-- In the greedy selection the first byte of every word rejected belongs to a word
selected before it. -/
def StartTaken : List WordElement → List WordElement → Prop
  | [], _ => True
  | itWeight :: rest, selected =>
      if ∃ e ∈ selected, Overlap itWeight e then
        (∃ e ∈ selected, Covers e itWeight.position) ∧ StartTaken rest selected
      else StartTaken rest (itWeight :: selected)

section Greedy

variable {place_begin : ℕ}

/-- The places taken are those of the selected words. -/
def Exact (place_begin : ℕ) (placeholder : List Bool) (selected : List WordElement) : Prop :=
  ∀ i, place_begin ≤ i → i - place_begin < placeholder.length →
    (placeholder.getD (i - place_begin) false = true ↔ ∃ e ∈ selected, Covers e i)

variable {itWeight : WordElement} {placeholder : List Bool} {selected : List WordElement}

theorem Exact.marks (h : Exact place_begin placeholder selected)
    (hreach : InReach place_begin placeholder selected) :
    Marks place_begin placeholder selected := fun e he i hi hlt =>
  (h i ((hreach e he).1.trans hi.1) hlt).mpr ⟨e, he, hi⟩

theorem lt_of_getD {i : ℕ} (h : placeholder.getD i false = true) : i < placeholder.length := by
  by_contra hge
  rw [List.getD_eq_getElem?_getD, List.getElem?_eq_none (not_lt.mp hge)] at h
  contradiction

/-- While the places are exact, a word is selected when it overlaps none selected. -/
theorem Exact.takes_iff (h : Exact place_begin placeholder selected)
    (hreach : InReach place_begin placeholder (itWeight :: selected)) :
    (takeWord place_begin itWeight placeholder).1 = true ↔
      ¬ ∃ e ∈ selected, Overlap itWeight e := by
  obtain ⟨hself, hselected⟩ := List.forall_mem_cons.mp hreach
  constructor
  · rintro htake ⟨e, he, hover⟩
    exact not_overlap_of_taken (h.marks hselected) hreach htake e he hover
  · intro hno
    rw [takeWord_fst hself.1]
    intro i hi
    by_contra htaken
    rw [Bool.not_eq_false] at htaken
    obtain ⟨e, he, hcover⟩ := (h i (hself.1.trans hi.1) (lt_of_getD htaken)).mp htaken
    exact hno ⟨e, he, overlap_iff.mpr ⟨i, hi, hcover⟩⟩

theorem Exact.select (h : Exact place_begin placeholder selected)
    (hbegin : place_begin ≤ itWeight.position)
    (htake : (takeWord place_begin itWeight placeholder).1 = true) :
    Exact place_begin (takeWord place_begin itWeight placeholder).2 (itWeight :: selected) := by
  intro i hi hlt
  rw [takeWord, takePlaces_length] at hlt
  rw [takeWord_snd hbegin htake hi hlt, h i hi hlt]
  simp

/-- A rejected word leaves the places alone when its first one is taken, and only then. -/
theorem Exact.unchanged_iff (h : Exact place_begin placeholder selected)
    (hreach : InReach place_begin placeholder (itWeight :: selected))
    (hover : ∃ e ∈ selected, Overlap itWeight e) :
    (takeWord place_begin itWeight placeholder).2 = placeholder ↔
      ∃ e ∈ selected, Covers e itWeight.position := by
  obtain ⟨hself, -⟩ := List.forall_mem_cons.mp hreach
  obtain ⟨n, hn⟩ : ∃ n, itWeight.range = n + 1 := by
    obtain ⟨e, -, hover⟩ := hover
    obtain ⟨i, hi, -⟩ := overlap_iff.mp hover
    rw [Covers, WordElement.stop] at hi
    exact ⟨itWeight.range - 1, by omega⟩
  rw [← h itWeight.position hself.1 hself.2, takeWord, hn]
  constructor
  · intro heq
    by_contra hfree
    rw [Bool.not_eq_true] at hfree
    have htaken := takePlaces_of_free (n := n) hself.2 hfree
    rw [heq, hfree] at htaken
    contradiction
  · intro htaken
    rw [takePlaces_of_taken htaken]

/-- **The run goes on as a greedy one while the first byte of every word rejected is
taken.** -/
theorem greedyRun_iff : ∀ {order : List WordElement} {placeholder : List Bool}
    {selected : List WordElement}, Exact place_begin placeholder selected →
    InReach place_begin placeholder (order ++ selected) →
    (GreedyRun place_begin order placeholder selected ↔ StartTaken order selected)
  | [], _, _, _, _ => Iff.rfl
  | itWeight :: rest, placeholder, selected, hexact, hreach => by
      rw [GreedyRun, StartTaken]
      have htakes := hexact.takes_iff hreach.head
      by_cases hover : ∃ e ∈ selected, Overlap itWeight e
      · rw [if_pos hover, if_neg (by rw [htakes]; exact not_not.mpr hover), and_iff_right hover,
          hexact.unchanged_iff hreach.head hover]
        refine and_congr_right fun hcover => ?_
        have hsame := (hexact.unchanged_iff hreach.head hover).mpr hcover
        rw [hsame]
        exact greedyRun_iff hexact fun e he => hreach e (List.mem_cons_of_mem _ he)
      · rw [if_neg hover, if_pos (htakes.mpr hover)]
        have hself := (hreach.head itWeight List.mem_cons_self).1
        exact greedyRun_iff (hexact.select hself (htakes.mpr hover))
          (hreach.step List.perm_middle.subset)

/-- A greedy run selects what the greedy selection has. -/
theorem chosen_eq_greedy : ∀ {order : List WordElement} {placeholder : List Bool}
    {selected : List WordElement}, Exact place_begin placeholder selected →
    InReach place_begin placeholder (order ++ selected) →
    GreedyRun place_begin order placeholder selected →
    chosen place_begin order placeholder = greedy order selected
  | [], _, _, _, _, _ => rfl
  | itWeight :: rest, placeholder, selected, hexact, hreach, hrun => by
      rw [GreedyRun] at hrun
      rw [chosen, greedy]
      have htakes := hexact.takes_iff hreach.head
      by_cases hover : ∃ e ∈ selected, Overlap itWeight e
      · have hnot : ¬ (takeWord place_begin itWeight placeholder).1 = true := by
          rw [htakes]
          exact not_not.mpr hover
        rw [if_neg hnot] at hrun
        obtain ⟨-, hsame, hrun⟩ := hrun
        rw [hsame] at hrun
        rw [if_neg hnot, if_pos hover, hsame]
        exact chosen_eq_greedy hexact (fun e he => hreach e (List.mem_cons_of_mem _ he)) hrun
      · rw [if_pos (htakes.mpr hover)] at hrun ⊢
        rw [if_neg hover]
        congr 1
        have hself := (hreach.head itWeight List.mem_cons_self).1
        exact chosen_eq_greedy (hexact.select hself (htakes.mpr hover))
          (hreach.step List.perm_middle.subset) hrun

theorem exact_places (firstPos lastPos : WordElement) :
    Exact firstPos.position (places firstPos lastPos) [] := by
  intro i _ hlt
  rw [places, List.length_replicate] at hlt
  simp [places, hlt]

end Greedy

/-- **`calcPrediction` is the greedy selection exactly when the first byte of every word
it rejects is already taken.** -/
theorem isGreedy_iff (pow : ℚ → ℚ → ℚ) (p : ParrotWord)
    (hsorted : Multimap.Sorted WordElement.position p.wordHintSeq_) :
    IsGreedy pow p ↔ StartTaken (weightOrder pow p) [] := by
  rcases hhints : p.wordHintSeq_ with _ | ⟨hint, rest⟩
  · have horder : weightOrder pow p = [] := by
      rw [weightOrder, hhints]
      rfl
    rw [IsGreedy, selection, horder, hhints]
    simp [greedy, StartTaken]
  · have hfirst : p.wordHintSeq_.head? = some hint := by rw [hhints]; rfl
    have hlast := List.getLast?_eq_some_getLast (l := p.wordHintSeq_) (by simp [hhints])
    have hreach := inReach_places pow hsorted hfirst hlast
    rw [← List.append_nil (weightOrder pow p)] at hreach
    have hexact := exact_places hint (p.wordHintSeq_.getLast (by simp [hhints]))
    have hiff := greedyRun_iff hexact hreach
    rw [IsGreedy, selection, hfirst, hlast, ← hiff]
    simp only [Option.mem_some_iff, forall_eq']
    exact and_iff_right_of_imp fun hrun => chosen_eq_greedy hexact hreach hrun

/-! ## Three words -/

/-- `pow`, as far as the words below need it. -/
def powAtUnits (base rate : ℚ) : ℚ := if rate = 0 then 1 else base

/-- Over the bytes `abcd` the word `cd`, the word `abcd`, half as heavy, and the word `ab`,
lighter again. -/
def threeHints (p : ParrotWord) : ParrotWord :=
  { p with
    statisticsMinWordSize_ := 2
    wordHintSeq_ := [WordElement.make [97, 98] 0 (1 / 4) (1 / 4),
      WordElement.make [97, 98, 99, 100] 0 (1 / 512) (1 / 512),
      WordElement.make [99, 100] 2 1 1]
    wordSeqTopSelected_ := [] }

theorem threeHints_sorted (p : ParrotWord) :
    Multimap.Sorted WordElement.position (threeHints p).wordHintSeq_ := by
  simp [threeHints, Multimap.Sorted, WordElement.make]

def emptyParrot : ParrotWord := ⟨⟨fun _ => 0, 0⟩, ⟨fun _ => 0, 0⟩, 32, [], [], [], ∅⟩

theorem weightOrder_threeHints : weightOrder powAtUnits (threeHints emptyParrot) =
    [WordElement.make [99, 100] 2 1 1, WordElement.make [97, 98, 99, 100] 0 (1 / 2) (1 / 512),
      WordElement.make [97, 98] 0 (1 / 4) (1 / 4)] := by
  with_unfolding_all decide

theorem calcPrediction_disjoint_three : ∃ selected : List WordElement,
    selected.Sublist (weightOrder powAtUnits (threeHints emptyParrot)) ∧
      (calcPrediction powAtUnits (threeHints emptyParrot)).wordSeqTopSelected_ =
        Multimap.insertAll WordElement.position selected [] ∧
      selected.Pairwise (fun a b => ¬ Overlap a b) :=
  calcPrediction_disjoint powAtUnits _ (threeHints_sorted emptyParrot)

theorem isGreedy_iff_three : IsGreedy powAtUnits (threeHints emptyParrot) ↔
    StartTaken (weightOrder powAtUnits (threeHints emptyParrot)) [] :=
  isGreedy_iff powAtUnits _ (threeHints_sorted emptyParrot)

/-- `ab` is lost: `abcd` is rejected at its third byte and keeps the places of `ab`. -/
theorem not_isGreedy_three :
    selection powAtUnits (threeHints emptyParrot) = [WordElement.make [99, 100] 2 1 1] ∧
      ¬ IsGreedy powAtUnits (threeHints emptyParrot) := by
  have hselection : selection powAtUnits (threeHints emptyParrot) =
      [WordElement.make [99, 100] 2 1 1] := by
    show chosen 0 (weightOrder powAtUnits (threeHints emptyParrot)) (List.replicate 5 false) = _
    rw [weightOrder_threeHints]
    decide
  refine ⟨hselection, fun hgreedy => ?_⟩
  have heq := hgreedy.1
  rw [hselection, weightOrder_threeHints] at heq
  revert heq
  decide

end WaiNative.ParrotWord

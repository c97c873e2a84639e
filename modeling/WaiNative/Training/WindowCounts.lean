import WaiNative.Segment.RawRank
import WaiNative.Training.Commit
import Mathlib.Data.Set.Card

/-!
# What `OstrichWord` counts

Between two commits `multiWordOfOneArticle_` is a table of all windows of two to 32 tokens of
all calls of `learn`. The loops grow each window backwards, one token at a time, from a list
that keeps the last 31 tokens.

- `windows_words`: the windows of one call by their numbers, none twice;
- `learnAll_counts`: the counts of a sequence of calls, without a bound;
- `countsWindows_iff`: while they are `int`s, the table has them, in whatever order the
  calls come.
-/

namespace WaiNative

open Cxx

/-! ## The windows of one call -/

/-- The windows of 2 to 32 tokens, from the `i`-th on `n` of them, that read `w`. -/
def windowsReading (Bytes : List Str) (w : Str) : Set (ℕ × ℕ) :=
  {x | 2 ≤ x.2 ∧ x.2 ≤ gWordLength ∧ x.1 + x.2 ≤ Bytes.length ∧ windowWord Bytes x.1 x.2 = w}

/-- How many windows of all calls read `w`. -/
noncomputable def readingCount (calls : List LearnCall) (w : Str) : ℕ :=
  (calls.map (fun c => (windowsReading c.wordBytes w).ncard)).sum

/-- The windows in the order of the loops: by their last token, then by their size. -/
def windowNumbers (length : ℕ) : List (ℕ × ℕ) :=
  (List.range length).flatMap (fun e =>
    (List.range (min e (gWordLength - 1))).map (fun k => (e - (k + 1), k + 2)))

section Numbers

theorem mem_windowNumbers {length : ℕ} {x : ℕ × ℕ} :
    x ∈ windowNumbers length ↔ 2 ≤ x.2 ∧ x.2 ≤ gWordLength ∧ x.1 + x.2 ≤ length := by
  obtain ⟨i, n⟩ := x
  simp only [windowNumbers, List.mem_flatMap, List.mem_range, List.mem_map, Prod.mk.injEq,
    lt_min_iff, gWordLength]
  constructor
  · rintro ⟨e, he, k, ⟨hke, hk⟩, rfl, rfl⟩
    omega
  · rintro ⟨hlo, hhi, hle⟩
    exact ⟨i + n - 1, by omega, n - 2, by omega, by omega, by omega⟩

theorem windowNumbers_nodup (length : ℕ) : (windowNumbers length).Nodup := by
  rw [windowNumbers, List.nodup_flatMap]
  constructor
  · intro e _
    refine List.Nodup.map_on ?_ List.nodup_range
    intro k _ k' _ heq
    have := (Prod.mk.inj heq).2
    omega
  · refine List.pairwise_lt_range.imp ?_
    intro e e' hlt x hx hx'
    -- the last token tells windows of different ends apart
    simp only [List.mem_map, List.mem_range, lt_min_iff] at hx hx'
    obtain ⟨k, hk, rfl⟩ := hx
    obtain ⟨k', hk', heq⟩ := hx'
    obtain ⟨h₁, h₂⟩ := Prod.mk.inj heq
    omega

/-- The windows that end in one token join it with the last of those before it. -/
theorem windowsBack_words : ∀ {pre : List Str} {w : Str} {p : ℕ},
    (windowsBack pre.reverse w p).map Prod.fst =
      (List.range pre.length).map (fun k => (pre.drop (pre.length - (k + 1))).flatten ++ w) := by
  intro pre
  induction pre using List.reverseRecOn with
  | nil => intros; rfl
  | append_singleton pre it ih =>
      intro w p
      rw [List.reverse_append, List.reverse_singleton, List.singleton_append, windowsBack,
        List.map_cons, ih, List.length_append, List.length_singleton, List.range_succ_eq_map,
        List.map_cons, List.map_map]
      congr 1
      · simp
      · apply List.map_congr_left
        intro k hk
        have hk := List.mem_range.mp hk
        have hdrop : (pre ++ [it]).drop (pre.length + 1 - (k + 1 + 1)) =
            pre.drop (pre.length - (k + 1)) ++ [it] := by
          rw [List.drop_append_of_le_length (by omega)]
          congr 2
          omega
        show (pre.drop (pre.length - (k + 1))).flatten ++ (it ++ w) =
          ((pre ++ [it]).drop (pre.length + 1 - (k + 1 + 1))).flatten ++ w
        rw [hdrop, List.flatten_append, List.flatten_singleton, List.append_assoc]

theorem recent_length (done : List Str) :
    (recent done).length = min done.length (gWordLength - 1) := by
  rw [recent, List.length_drop]
  omega

/-- The windows that end in the token after `done`. -/
theorem windowsAt_words (done rest : List Str) (w : Str) :
    (windowsAt false done w).map Prod.fst =
      (List.range (min done.length (gWordLength - 1))).map
        (fun k => windowWord (done ++ w :: rest) (done.length - (k + 1)) (k + 2)) := by
  rw [windowsAt, if_neg Bool.false_ne_true, List.nil_append, windowsBack_words, recent_length]
  apply List.map_congr_left
  intro k hk
  have hk := List.mem_range.mp hk
  have hlast : (recent done).drop (min done.length (gWordLength - 1) - (k + 1)) =
      done.drop (done.length - (k + 1)) := by
    rw [recent, List.drop_drop]
    congr 1
    omega
  have hlen : (done.drop (done.length - (k + 1))).length = k + 1 := by
    rw [List.length_drop]
    omega
  have hsplit : (done ++ w :: rest).drop (done.length - (k + 1)) =
      (done.drop (done.length - (k + 1)) ++ [w]) ++ rest := by
    rw [List.drop_append_of_le_length (by omega)]
    simp
  rw [hlast, windowWord, hsplit, List.take_append_of_le_length (by simp [hlen]),
    List.take_of_length_le (by simp [hlen]), List.flatten_append, List.flatten_singleton]

theorem windowsFrom_words : ∀ (rest done : List Str),
    (windowsFrom false rest (recent done) done.flatten.length).map Prod.fst =
      (List.range' done.length rest.length).flatMap (fun e =>
        (List.range (min e (gWordLength - 1))).map
          (fun k => windowWord (done ++ rest) (e - (k + 1)) (k + 2)))
  | [], _ => rfl
  | w :: rest, done => by
      have ih := windowsFrom_words rest (done ++ [w])
      rw [List.append_assoc, List.singleton_append, List.length_append,
        List.length_singleton] at ih
      rw [windowsFrom_cons, List.map_append, windowsAt_words done rest w, ih, List.length_cons,
        List.range'_succ, List.flatMap_cons]

/-- **The loops make every window of a call once.** -/
theorem windows_words (Bytes : List Str) :
    (windows false Bytes).map Prod.fst =
      (windowNumbers Bytes.length).map (fun x => windowWord Bytes x.1 x.2) := by
  have h := windowsFrom_words Bytes []
  rw [List.nil_append] at h
  rw [windowNumbers, List.map_flatMap, List.range_eq_range']
  refine h.trans ?_
  apply List.flatMap_congr
  intro e _
  rw [List.map_map]
  rfl

/-- The windows of a call that read `w` are as many as are visited. -/
theorem ncard_windowsReading (Bytes : List Str) (w : Str) :
    (windowsReading Bytes w).ncard = ((windows false Bytes).map Prod.fst).count w := by
  have hset : windowsReading Bytes w = (((windowNumbers Bytes.length).filter
      (fun x => windowWord Bytes x.1 x.2 = w)).toFinset : Set (ℕ × ℕ)) := by
    ext x
    simp [windowsReading, mem_windowNumbers, and_assoc]
  rw [hset, Set.ncard_coe_finset,
    List.toFinset_card_of_nodup ((windowNumbers_nodup _).filter _), windows_words, List.count,
    List.countP_map, List.countP_eq_length_filter]
  congr 1
  exact List.filter_congr fun x _ => (beq_eq_decide _ _).symm

end Numbers

/-! ## The table -/

section Table

/-- The words that a call of `learn` counts. -/
theorem learn_eq (o : OstrichWord) (Bytes : List Str) :
    (o.learn Bytes).multiWordOfOneArticle_ =
      ((windows false Bytes).map Prod.fst).foldl pushMultiWord o.multiWordOfOneArticle_ := by
  rw [OstrichWord.learn]
  split
  · next hshort =>
      -- with fewer than two tokens there is no window
      have hnil : (windows false Bytes).map Prod.fst = [] := by
        rw [windows_words, List.map_eq_nil_iff, List.eq_nil_iff_forall_not_mem]
        intro x hx
        have := mem_windowNumbers.mp hx
        omega
      rw [hnil]
      rfl
  · rw [List.foldl_map]
    exact forWindows_eq false (fun m jointWord _ => pushMultiWord m jointWord) Bytes [] 0 _

theorem learnAll_eq : ∀ (calls : List LearnCall) (o : OstrichWord),
    (o.learnAll calls).multiWordOfOneArticle_ =
      (calls.flatMap (fun c => (windows false c.wordBytes).map Prod.fst)).foldl pushMultiWord
        o.multiWordOfOneArticle_
  | [], _ => rfl
  | c :: calls, o => by
      rw [List.flatMap_cons, List.foldl_append, ← learn_eq]
      exact learnAll_eq calls (o.learn c.wordBytes)

theorem readingCount_eq (calls : List LearnCall) (w : Str) :
    readingCount calls w =
      (calls.flatMap (fun c => (windows false c.wordBytes).map Prod.fst)).count w := by
  rw [readingCount, List.count_flatMap]
  congr 1
  apply List.map_congr_left
  intro c _
  exact ncard_windowsReading c.wordBytes w

/-- Counted without a bound, the table has the number of windows that read each word, and
leaves out the words that none reads. -/
theorem learnAll_counts (calls : List LearnCall) (w : Str) :
    ((⟨∅⟩ : OstrichWord).learnAll calls).multiWordOfOneArticle_[w]? =
      if readingCount calls w = 0 then none else some (readingCount calls w : ℤ) := by
  rw [learnAll_eq, getElem?_foldl_push, ← readingCount_eq]
  simp

theorem intValues_learnAll_iff (calls : List LearnCall) :
    IntValues ((⟨∅⟩ : OstrichWord).learnAll calls).multiWordOfOneArticle_ ↔
      ∀ w, (readingCount calls w : ℤ) ≤ INT_MAX := by
  constructor
  · intro h w
    by_cases hzero : readingCount calls w = 0
    · rw [hzero]
      decide
    · exact h w _ (by rw [learnAll_counts, if_neg hzero])
  · intro h w n hn
    rw [learnAll_counts, Option.ite_none_left_eq_some] at hn
    obtain rfl := Option.some.inj hn.2
    exact h w

theorem readingCount_perm {calls calls' : List LearnCall} (hperm : calls.Perm calls')
    (w : Str) : readingCount calls' w = readingCount calls w :=
  (hperm.map _).sum_eq.symm

/-- After the calls, from an empty table on, the table has the number of windows that read
each word, and none for a word that none reads; so it is after the calls in any other
order. -/
def CountsWindows (calls : List LearnCall) : Prop :=
  ∀ calls' : List LearnCall, calls.Perm calls' →
    ∃ o : OstrichWord, OstrichWord.checkedLearnAll ⟨∅⟩ calls' = some o ∧
      ∀ w : Str, o.multiWordOfOneArticle_[w]? =
        if readingCount calls w = 0 then none else some (readingCount calls w : ℤ)

/-- **The windows are counted exactly when no word is read by more of them than an `int`
counts.** -/
theorem countsWindows_iff (calls : List LearnCall) :
    CountsWindows calls ↔ ∀ w, (readingCount calls w : ℤ) ≤ INT_MAX := by
  constructor
  · intro h
    obtain ⟨o, ho, -⟩ := h calls (List.Perm.refl calls)
    obtain ⟨rfl, hint⟩ := (OstrichWord.checkedLearnAll_iff intValues_empty).mp ho
    exact (intValues_learnAll_iff calls).mp hint
  · intro h calls' hperm
    refine ⟨OstrichWord.learnAll ⟨∅⟩ calls',
      (OstrichWord.checkedLearnAll_iff intValues_empty).mpr ⟨rfl, ?_⟩, ?_⟩
    · rw [intValues_learnAll_iff]
      intro w
      rw [readingCount_perm hperm]
      exact h w
    · intro w
      rw [learnAll_counts, readingCount_perm hperm]

/-- A call that counts one pair twice. -/
def twiceCall : LearnCall := ⟨[charX, charX, charX], charX ++ charX ++ charX, .cn⟩

theorem readingCount_replicate (n : ℕ) (c : LearnCall) (w : Str) :
    readingCount (List.replicate n c) w = n * readingCount [c] w := by
  rw [readingCount, readingCount, List.map_replicate, List.sum_replicate_nat,
    List.map_singleton, List.sum_singleton]

/-- After `2^30` such calls the count of the pair is no `int`. -/
theorem not_countsWindows_replicate :
    ¬ CountsWindows (List.replicate (2 ^ 30) twiceCall) := by
  intro h
  obtain ⟨o, ho, -⟩ := h _ (List.Perm.refl _)
  obtain ⟨rfl, hint⟩ := (OstrichWord.checkedLearnAll_iff intValues_empty).mp ho
  have htwice : readingCount [twiceCall] (charX ++ charX) = 2 := by
    rw [readingCount_eq]
    with_unfolding_all decide
  have hover := (intValues_learnAll_iff _).mp hint (charX ++ charX)
  rw [readingCount_replicate, htwice] at hover
  exact absurd hover (by decide)

end Table

end WaiNative

import WaiNative.Browser.JsObject
import WaiNative.Browser.JsText
import Mathlib.Data.Finset.Max
import Mathlib.Data.List.Infix
import Mathlib.Algebra.BigOperators.Group.List.Basic

/-!
# `WaiParrot`: the words of a block

The browser's word counter. `article` cuts a document into runs of table
characters, counts the windows of 2 to 65 characters of each run, drops the
words counted fewer than five times (`FilterOutLowFreq_`) and those inside
another word of the same count (`FilterOutInside_`), and adds the rest to the
object of the block (`mergeCollect_`). Between `entryBlock` and `leaveBlock` any
number of articles come.

- `count_onSentence_`: the loops count each window once;
- `sum_occurrences`: the windows of the runs are the places in the document;
- `Inside`, `get?_FilterOutInside_`: although it deletes entries that it goes on
  comparing with, the filter deletes exactly the words inside a longer word of
  the same count, because a longest such word is never deleted;
- `leaveBlock_words`: the object that `leaveBlock` returns.

Strings are sequences of UTF-16 units, as `length`, `[i]`, `slice` and `includes`
take them, and counters are natural numbers: the source's are doubles, which count
without error below 2^53.
-/

namespace WaiNative

/-- The object of word counters. -/
abbrev Collect := JsObject JsString ℕ

/-- The keys of `CJK_Table`: U+3400 to U+4DBF, U+4E00 to U+9FFF and, as surrogate
pairs, U+20000 to U+2F7FF. A lookup by one unit never finds a pair. -/
def CJK_Table : JsString → Bool
  | [u] => (0x3400 ≤ u && u ≤ 0x4DBF) || (0x4E00 ≤ u && u ≤ 0x9FFF)
  | [hi, lo] => (0xD840 ≤ hi && hi ≤ 0xD87D) && (0xDC00 ≤ lo && lo ≤ 0xDFFF)
  | _ => false

/-- The member that articles change. -/
structure WaiBase where
  collectBlock_ : Collect

namespace WaiBase

def iConstWordFilterOutStageOne : ℕ := 5

/-- The constructor. -/
def new : WaiBase := ⟨JsObject.empty⟩

def entryBlock (_ : WaiBase) : WaiBase := ⟨JsObject.empty⟩

def leaveBlock (wai : WaiBase) : Collect := wai.collectBlock_

/-- The first loop of `article`: the runs of table characters. -/
def collectRuns : JsString → List JsString → JsString → List JsString
  | [], cjkCollect, cjkBuffer =>
      if cjkBuffer.length > 0 then cjkCollect ++ [cjkBuffer] else cjkCollect
  | utf8 :: doc, cjkCollect, cjkBuffer =>
      if CJK_Table [utf8] then collectRuns doc cjkCollect (cjkBuffer ++ [utf8])
      else
        collectRuns doc
          (if cjkBuffer.length > 0 then cjkCollect ++ [cjkBuffer] else cjkCollect) []

def mergeCollect_ (wai : WaiBase) (collect : Collect) : WaiBase :=
  { wai with collectBlock_ := collect.entries.foldl JsObject.addTo wai.collectBlock_ }

/-- The body of `FilterOutLowFreq_`; `undefined < 5` is false. -/
def dropRare (outCollect : Collect) (key : JsString) : Collect :=
  match outCollect.get? key with
  | some n => if n < iConstWordFilterOutStageOne then outCollect.delete key else outCollect
  | none => outCollect

def FilterOutLowFreq_ (collect : Collect) : Collect := collect.keys.foldl dropRare collect

/-- The body of the inner loop of `FilterOutInside_`. -/
def dropInside (key : JsString) (outCollect : Collect) (keyFound : JsString) : Collect :=
  if keyFound ≠ key ∧ key <:+: keyFound then
    if outCollect.get? keyFound = outCollect.get? key then outCollect.delete key
    else outCollect
  else outCollect

def FilterOutInside_ (collect : Collect) : Collect :=
  collect.keys.foldl (fun outCollect key => collect.keys.foldl (dropInside key) outCollect)
    collect

def article (wai : WaiBase) (doc : JsString)
    (onSentence : JsString → Collect → Collect) : WaiBase :=
  let cjkCollect := collectRuns doc [] []
  let aDocumentStatistics :=
    cjkCollect.foldl (fun collect sentence => onSentence sentence collect) JsObject.empty
  let highFreq := FilterOutLowFreq_ aDocumentStatistics
  let uniqWords := FilterOutInside_ highFreq
  wai.mergeCollect_ uniqWords

end WaiBase

namespace WaiParrot

def iConstNGramMaxWindow : ℕ := 64

/-- The clipped number of steps back from character `i`. -/
def backIndex (i : ℕ) : ℕ := if i > iConstNGramMaxWindow then iConstNGramMaxWindow else i

/-- `onSentence_`: for each character, the words that end with it. -/
def onSentence_ (sentence : JsString) (collect : Collect) : Collect :=
  (List.range sentence.length).foldl
    (fun collect i =>
      (List.range' 1 (backIndex i)).foldl
        (fun collect j =>
          -- `start` is never below zero, `j` being at most `i`
          let start := i - j
          let word := (sentence.take (i + 1)).drop start
          collect.tally word)
        collect)
    collect

def article (wai : WaiBase) (doc : JsString) : WaiBase := wai.article doc onSentence_

/-- The calls of one block: `entryBlock`, the articles, `leaveBlock`. -/
def block (wai : WaiBase) (docs : List JsString) : Collect :=
  (docs.foldl article wai.entryBlock).leaveBlock

end WaiParrot

/-! ## What is counted -/

section Occurrences

/-- How often a word stands in a text. -/
def occurrences (w text : JsString) : ℕ :=
  (List.range text.length).countP (fun i => decide (w <+: text.drop i))

/-- 2 to 65 table characters. -/
def IsWindow (w : JsString) : Prop :=
  2 ≤ w.length ∧ w.length ≤ 65 ∧ ∀ u ∈ w, CJK_Table [u] = true

instance (w : JsString) : Decidable (IsWindow w) :=
  have : Decidable (∀ u ∈ w, CJK_Table [u] = true) := List.decidableBAll _ _
  inferInstanceAs (Decidable (2 ≤ w.length ∧ w.length ≤ 65 ∧ ∀ u ∈ w, CJK_Table [u] = true))

/-- How often a word occurs in an article as a window of table characters. -/
def windowCount (w doc : JsString) : ℕ := if IsWindow w then occurrences w doc else 0

/-- The word occurs at least five times, and no longer word around it as often. -/
def Kept (w doc : JsString) : Prop :=
  5 ≤ windowCount w doc ∧
    ¬ ∃ v, w.length < v.length ∧ w <:+: v ∧ windowCount v doc = windowCount w doc

open Classical in
/-- What an article adds to a word. -/
noncomputable def contribution (w doc : JsString) : ℕ :=
  if Kept w doc then windowCount w doc else 0

@[simp] theorem occurrences_nil (w : JsString) : occurrences w [] = 0 := rfl

theorem occurrences_cons (w : JsString) (u : UInt16) (text : JsString) :
    occurrences w (u :: text) =
      (if w <+: u :: text then 1 else 0) + occurrences w text := by
  rw [occurrences, List.length_cons, List.range_succ_eq_map, List.countP_cons,
    List.countP_map]
  simp only [List.drop_zero, decide_eq_true_eq]
  rw [Nat.add_comm]
  rfl

/-- A character behind a text adds the word that ends with it. -/
theorem occurrences_concat {w : JsString} (hw : w ≠ []) (u : UInt16) : ∀ text : JsString,
    occurrences w (text ++ [u]) =
      occurrences w text + (if w <:+ text ++ [u] then 1 else 0)
  | [] => by
      rw [List.nil_append, occurrences_cons, occurrences_nil]
      have hpre : w <+: [u] ↔ w = [u] := by
        rw [show [u] = [] ++ [u] from rfl, List.prefix_concat_iff]
        simp [hw]
      have hsuf : w <:+ [u] ↔ w = [u] := by
        rw [List.suffix_cons_iff]
        simp [hw]
      rw [if_congr hpre rfl rfl, if_congr hsuf rfl rfl, Nat.add_comm]
  | x :: text => by
      rw [List.cons_append, occurrences_cons, occurrences_cons, occurrences_concat hw u text]
      have hpre : w <+: x :: (text ++ [u]) ↔ w = x :: (text ++ [u]) ∨ w <+: x :: text := by
        rw [← List.cons_append, List.prefix_concat_iff]
      have hsuf : w <:+ x :: (text ++ [u]) ↔ w = x :: (text ++ [u]) ∨ w <:+ text ++ [u] :=
        List.suffix_cons_iff
      rw [if_congr hpre rfl rfl, if_congr hsuf rfl rfl]
      by_cases hall : w = x :: (text ++ [u])
      · -- the whole text is counted as a prefix before and as a suffix now
        have hnot : ¬ w <+: x :: text := fun h => by
          have hlen := h.length_le
          simp only [hall, List.length_cons, List.length_append] at hlen
          omega
        have hnot' : ¬ w <:+ text ++ [u] := fun h => by
          have hlen := h.length_le
          simp only [hall, List.length_cons, List.length_append] at hlen
          omega
        simp only [hall, true_or, if_true, if_neg (hall ▸ hnot), if_neg (hall ▸ hnot')]
        omega
      · simp only [hall, false_or]
        omega

/-- A word does not stand across a character it does not have. -/
theorem prefix_of_split {w b : JsString} {u : UInt16} (hu : u ∉ w) : ∀ {a : JsString},
    w <+: a ++ u :: b → w <+: a := by
  intro a h
  rcases List.prefix_or_prefix_of_prefix h (List.prefix_append a (u :: b)) with h' | ⟨r, rfl⟩
  · exact h'
  · cases r with
    | nil => simp
    | cons x r =>
        have h' := (List.prefix_append_right_inj a).mp h
        obtain ⟨rfl, -⟩ := List.cons_prefix_cons.mp h'
        exact absurd (by simp) hu

theorem occurrences_split {w b : JsString} {u : UInt16} (hw : w ≠ []) (hu : u ∉ w) :
    ∀ a : JsString, occurrences w (a ++ u :: b) = occurrences w a + occurrences w b
  | [] => by
      rw [List.nil_append, occurrences_cons, occurrences_nil, if_neg]
      intro h
      exact hw (List.prefix_nil.mp (prefix_of_split hu (show w <+: [] ++ u :: b from h)))
  | x :: a => by
      have h : w <+: x :: (a ++ u :: b) ↔ w <+: x :: a := by
        rw [← List.cons_append]
        exact ⟨prefix_of_split hu, fun h => h.trans (List.prefix_append (x :: a) (u :: b))⟩
      rw [List.cons_append, occurrences_cons, occurrences_cons, occurrences_split hw hu a,
        if_congr h rfl rfl, Nat.add_assoc]

/-! ### The runs -/

/-- A word of table characters stands in the runs as often as in the document. -/
theorem sum_collectRuns {w : JsString} (hw : w ≠ [])
    (htable : ∀ u ∈ w, CJK_Table [u] = true) : ∀ (doc : JsString) (cjkCollect : List JsString)
    (cjkBuffer : JsString),
    ((WaiBase.collectRuns doc cjkCollect cjkBuffer).map (occurrences w)).sum =
      (cjkCollect.map (occurrences w)).sum + occurrences w (cjkBuffer ++ doc)
  | [], cjkCollect, cjkBuffer => by
      rw [WaiBase.collectRuns, List.append_nil]
      split
      · simp
      · rename_i hempty
        rw [List.length_eq_zero_iff.mp (by omega : cjkBuffer.length = 0)]
        simp
  | u :: doc, cjkCollect, cjkBuffer => by
      rw [WaiBase.collectRuns]
      split
      · rw [sum_collectRuns hw htable doc, List.append_assoc]
        rfl
      · rename_i hu
        have hnot : u ∉ w := fun h => hu (htable u h)
        rw [sum_collectRuns hw htable doc, occurrences_split hw hnot, List.nil_append]
        split
        · simp [Nat.add_assoc]
        · rename_i hempty
          rw [List.length_eq_zero_iff.mp (by omega : cjkBuffer.length = 0)]
          simp

/-- The runs hold table characters only. -/
theorem table_collectRuns : ∀ (doc : JsString) (cjkCollect : List JsString)
    (cjkBuffer : JsString), (∀ s ∈ cjkCollect, ∀ u ∈ s, CJK_Table [u] = true) →
    (∀ u ∈ cjkBuffer, CJK_Table [u] = true) →
    ∀ s ∈ WaiBase.collectRuns doc cjkCollect cjkBuffer, ∀ u ∈ s, CJK_Table [u] = true
  | [], cjkCollect, cjkBuffer => by
      intro hcollect hbuffer
      rw [WaiBase.collectRuns]
      split
      · exact List.forall_mem_append.mpr ⟨hcollect, List.forall_mem_singleton.mpr hbuffer⟩
      · exact hcollect
  | u :: doc, cjkCollect, cjkBuffer => by
      intro hcollect hbuffer
      rw [WaiBase.collectRuns]
      split
      · rename_i hu
        exact table_collectRuns doc _ _ hcollect
          (List.forall_mem_append.mpr ⟨hbuffer, List.forall_mem_singleton.mpr hu⟩)
      · apply table_collectRuns doc _ _ _ (List.forall_mem_nil _)
        split
        · exact List.forall_mem_append.mpr ⟨hcollect, List.forall_mem_singleton.mpr hbuffer⟩
        · exact hcollect

end Occurrences

/-! ## `onSentence_` -/

section Counting

open WaiParrot

variable {w : JsString}

/-- The words that end with character `i`. -/
def wordsAt (sentence : JsString) (i : ℕ) : List JsString :=
  (List.range' 1 (backIndex i)).map (fun j => (sentence.take (i + 1)).drop (i - j))

theorem onSentence_eq (sentence : JsString) (collect : Collect) :
    onSentence_ sentence collect =
      ((List.range sentence.length).flatMap (wordsAt sentence)).foldl JsObject.tally collect := by
  rw [List.foldl_flatMap]
  unfold onSentence_ wordsAt
  simp only [List.foldl_map]

theorem le_backIndex {i j : ℕ} : j ≤ backIndex i ↔ j ≤ i ∧ j ≤ 64 := by
  unfold backIndex iConstNGramMaxWindow
  split <;> omega

theorem mem_wordsAt {sentence : JsString} {i : ℕ} (hi : i < sentence.length) :
    w ∈ wordsAt sentence i ↔
      (2 ≤ w.length ∧ w.length ≤ 65) ∧ w <:+ sentence.take (i + 1) := by
  have htake : (sentence.take (i + 1)).length = i + 1 := by
    rw [List.length_take]
    omega
  have hstep : ∀ j, j ∈ List.range' 1 (backIndex i) ↔ 1 ≤ j ∧ j ≤ i ∧ j ≤ 64 := by
    intro j
    rw [List.mem_range'_1, Nat.lt_one_add_iff, le_backIndex]
  rw [wordsAt, List.mem_map]
  constructor
  · rintro ⟨j, hj, rfl⟩
    obtain ⟨hone, hle, hmax⟩ := (hstep j).mp hj
    refine ⟨?_, List.drop_suffix _ _⟩
    rw [List.length_drop, htake]
    omega
  · rintro ⟨⟨htwo, hmax⟩, hsuf⟩
    have hlen := hsuf.length_le
    have hdrop := List.suffix_iff_eq_drop.mp hsuf
    rw [htake] at hlen hdrop
    refine ⟨w.length - 1, (hstep _).mpr (by omega), ?_⟩
    rw [show i - (w.length - 1) = i + 1 - w.length by omega, ← hdrop]

theorem nodup_wordsAt {sentence : JsString} {i : ℕ} (hi : i < sentence.length) :
    (wordsAt sentence i).Nodup := by
  have htake : (sentence.take (i + 1)).length = i + 1 := by
    rw [List.length_take]
    omega
  apply List.Nodup.map_on _ List.nodup_range'
  intro j hj k hk heq
  have hlen := congrArg List.length heq
  rw [List.length_drop, List.length_drop, htake] at hlen
  rw [List.mem_range'_1, Nat.lt_one_add_iff, le_backIndex] at hj hk
  omega

/-- A run's windows up to some character, counted. -/
theorem count_wordsAt (hw : 2 ≤ w.length ∧ w.length ≤ 65) (sentence : JsString) :
    ∀ n ≤ sentence.length,
      ((List.range n).flatMap (wordsAt sentence)).count w = occurrences w (sentence.take n)
  | 0 => fun _ => by simp
  | n + 1 => by
      intro hn
      have hlt : n < sentence.length := hn
      have hne : w ≠ [] := by
        rintro rfl
        exact absurd hw.1 (by simp)
      have ih := count_wordsAt hw sentence n (by omega)
      have htake : sentence.take (n + 1) = sentence.take n ++ [sentence[n]] :=
        (List.take_concat_get' sentence n hlt).symm
      have hmem : w ∈ wordsAt sentence n ↔ w <:+ sentence.take n ++ [sentence[n]] := by
        rw [mem_wordsAt hlt, htake]
        exact and_iff_right hw
      rw [List.range_succ, List.flatMap_append, List.count_append, ih, List.flatMap_singleton,
        (nodup_wordsAt hlt).count, htake, occurrences_concat hne, if_congr hmem rfl rfl]

/-- **The loops count each window once.** -/
theorem count_onSentence_ (sentence : JsString) (collect : Collect) :
    (onSentence_ sentence collect).count w = collect.count w +
      (if 2 ≤ w.length ∧ w.length ≤ 65 then occurrences w sentence else 0) := by
  rw [onSentence_eq, JsObject.count_foldl_tally]
  congr 1
  split
  · rename_i hw
    rw [count_wordsAt hw sentence _ le_rfl, List.take_length]
  · rename_i hw
    rw [List.count_eq_zero, List.mem_flatMap]
    rintro ⟨i, hi, hmem⟩
    exact hw ((mem_wordsAt (List.mem_range.mp hi)).mp hmem).1

theorem count_foldl_onSentence_ : ∀ (cjkCollect : List JsString) (collect : Collect),
    (cjkCollect.foldl (fun collect sentence => onSentence_ sentence collect) collect).count w =
      collect.count w +
        if 2 ≤ w.length ∧ w.length ≤ 65 then (cjkCollect.map (occurrences w)).sum else 0
  | [], collect => by simp
  | sentence :: cjkCollect, collect => by
      rw [List.foldl_cons, count_foldl_onSentence_ cjkCollect, count_onSentence_]
      split
      · rw [List.map_cons, List.sum_cons, Nat.add_assoc]
      · rfl

theorem positive_foldl_onSentence_ : ∀ (cjkCollect : List JsString) {collect : Collect},
    collect.Positive →
    (cjkCollect.foldl (fun collect sentence => onSentence_ sentence collect) collect).Positive
  | [], _, h => h
  | sentence :: cjkCollect, collect, h => by
      rw [List.foldl_cons, onSentence_eq]
      exact positive_foldl_onSentence_ cjkCollect (JsObject.Positive.foldl_tally _ h)

/-- A text of table characters has no words but such of table characters. -/
theorem occurrences_eq_zero {u : UInt16} (hu : u ∈ w) : ∀ {text : JsString},
    u ∉ text → occurrences w text = 0
  | [] => fun _ => rfl
  | x :: text => by
      intro hnot
      rw [occurrences_cons, occurrences_eq_zero hu (fun h => hnot (List.mem_cons_of_mem _ h)),
        if_neg (fun h => hnot (h.subset hu))]

/-- **The statistics of a document** hold each window as often as it occurs. -/
theorem count_statistics (doc : JsString) :
    ((WaiBase.collectRuns doc [] []).foldl
      (fun collect sentence => onSentence_ sentence collect) JsObject.empty).count w =
      windowCount w doc := by
  rw [count_foldl_onSentence_, JsObject.count_empty, Nat.zero_add, windowCount]
  by_cases hlen : 2 ≤ w.length ∧ w.length ≤ 65
  · rw [if_pos hlen]
    by_cases htable : ∀ u ∈ w, CJK_Table [u] = true
    · have hne : w ≠ [] := by
        rintro rfl
        exact absurd hlen.1 (by simp)
      rw [if_pos ⟨hlen.1, hlen.2, htable⟩, sum_collectRuns hne htable]
      simp
    · rw [if_neg (fun h => htable h.2.2)]
      push Not at htable
      obtain ⟨u, hu, hnot⟩ := htable
      apply List.sum_eq_zero
      intro n hn
      obtain ⟨s, hs, rfl⟩ := List.mem_map.mp hn
      have hruns := table_collectRuns doc [] [] (List.forall_mem_nil _) (List.forall_mem_nil _)
      exact occurrences_eq_zero hu (fun h => hnot (hruns s hs u h))
  · rw [if_neg hlen, if_neg (fun h => hlen ⟨h.1, h.2.1⟩)]

end Counting

/-! ## The filters -/

section Filters

open WaiBase

variable {c o : Collect} {w : JsString}

theorem dropRare_eq (o : Collect) (key : JsString) :
    dropRare o key = if o.get? key ≠ none ∧ o.count key < 5 then o.delete key else o := by
  unfold dropRare JsObject.count
  cases o.get? key with
  | none => rw [if_neg (fun h => h.1 rfl)]
  | some n => exact if_congr (by simp [iConstWordFilterOutStageOne]) rfl rfl

theorem count_dropRare (o : Collect) (key w : JsString) :
    (dropRare o key).count w = if w = key ∧ o.count w < 5 then 0 else o.count w := by
  rw [dropRare_eq]
  by_cases hw : w = key
  · subst hw
    by_cases hrare : o.get? w ≠ none ∧ o.count w < 5
    · rw [if_pos hrare, if_pos ⟨rfl, hrare.2⟩, JsObject.count_delete, if_pos rfl]
    · rw [if_neg hrare]
      split
      · rename_i h
        -- a key that is not there counts as `0`
        have hnone : o.get? w = none := by
          by_contra hne
          exact hrare ⟨hne, h.2⟩
        rw [JsObject.count, hnone]
        rfl
      · rfl
  · by_cases hrare : o.get? key ≠ none ∧ o.count key < 5
    · rw [if_pos hrare, JsObject.count_delete, if_neg hw, if_neg (fun h => hw h.1)]
    · rw [if_neg hrare, if_neg (fun h => hw h.1)]

theorem positive_dropRare (ho : o.Positive) (key : JsString) : (dropRare o key).Positive := by
  unfold dropRare
  split
  · split
    · exact ho.delete key
    · exact ho
  · exact ho

theorem foldl_dropRare : ∀ (keys : List JsString) {o : Collect}, o.Positive →
    (keys.foldl dropRare o).Positive ∧ (keys.foldl dropRare o).count w =
      if w ∈ keys ∧ o.count w < 5 then 0 else o.count w
  | [], o, ho => ⟨ho, by simp⟩
  | key :: keys, o, ho => by
      obtain ⟨hpos, hcount⟩ := foldl_dropRare keys (positive_dropRare ho key)
      refine ⟨hpos, ?_⟩
      rw [List.foldl_cons, hcount, count_dropRare]
      by_cases hw : w = key
      · subst hw
        by_cases hrare : o.count w < 5
        · simp [hrare]
        · simp [hrare]
      · simp [hw]

/-- **The rare words go.** -/
theorem count_FilterOutLowFreq_ (hc : c.Positive) (w : JsString) :
    (FilterOutLowFreq_ c).count w = if c.count w < 5 then 0 else c.count w := by
  rw [FilterOutLowFreq_, (foldl_dropRare c.keys hc).2]
  by_cases hw : w ∈ c.keys
  · simp [hw]
  · have hzero : c.count w = 0 := by
      by_contra hne
      exact hw (JsObject.mem_keys_of_count hne)
    simp [hzero]

theorem positive_FilterOutLowFreq_ (hc : c.Positive) : (FilterOutLowFreq_ c).Positive :=
  (foldl_dropRare (w := []) c.keys hc).1

/-- The word is inside another one of the same count. -/
def Inside (c : Collect) (w : JsString) : Prop :=
  ∃ v, v ≠ w ∧ w <:+: v ∧ c.count v = c.count w

/-- Around each word there is one of the same count that is inside no other. -/
theorem exists_outermost (hw : c.count w ≠ 0) :
    ∃ v, w <:+: v ∧ c.count v = c.count w ∧ ¬ Inside c v := by
  have hself : w ∈ c.keys.toFinset.filter (fun v => w <:+: v ∧ c.count v = c.count w) :=
    Finset.mem_filter.mpr ⟨List.mem_toFinset.mpr (JsObject.mem_keys_of_count hw),
      List.infix_rfl, rfl⟩
  obtain ⟨v, hv, hmax⟩ := Finset.exists_max_image _ List.length ⟨w, hself⟩
  obtain ⟨-, hsub, hcount⟩ := Finset.mem_filter.mp hv
  refine ⟨v, hsub, hcount, ?_⟩
  rintro ⟨u, hne, hsub', hcount'⟩
  have hu : c.count u = c.count w := hcount'.trans hcount
  have hle := hmax u (Finset.mem_filter.mpr
    ⟨List.mem_toFinset.mpr (JsObject.mem_keys_of_count (hu ▸ hw)), hsub.trans hsub', hu⟩)
  exact hne (hsub'.eq_of_length (Nat.le_antisymm hsub'.length_le hle)).symm

theorem dropInside_eq (ho : o.Positive) (key keyFound : JsString) :
    dropInside key o keyFound =
      if keyFound ≠ key ∧ key <:+: keyFound ∧ o.count keyFound = o.count key then o.delete key
      else o := by
  unfold dropInside
  by_cases hinside : keyFound ≠ key ∧ key <:+: keyFound
  · rw [if_pos hinside]
    exact if_congr (by rw [ho.get?_eq_iff]; tauto) rfl rfl
  · rw [if_neg hinside, if_neg (fun h => hinside ⟨h.1, h.2.1⟩)]

/-- The inner loop deletes its key when some other word around it has its count. -/
theorem foldl_dropInside (key : JsString) : ∀ (keys : List JsString) {o : Collect},
    o.Positive → (keys.foldl (dropInside key) o).Positive ∧
      (keys.foldl (dropInside key) o).count w =
        if w = key ∧ ∃ v ∈ keys, v ≠ key ∧ key <:+: v ∧ o.count v = o.count key then 0
        else o.count w
  | [], o, ho => ⟨ho, by simp⟩
  | keyFound :: keys, o, ho => by
      rw [List.foldl_cons, dropInside_eq ho]
      split
      · -- the key is gone, whatever the rest of the loop compares
        rename_i hdrop
        obtain ⟨hpos, hcount⟩ := foldl_dropInside key keys (ho.delete key)
        refine ⟨hpos, hcount.trans ?_⟩
        by_cases hw : w = key
        · rw [show (o.delete key).count w = 0 by rw [JsObject.count_delete, if_pos hw],
            ite_self, if_pos ⟨hw, keyFound, List.mem_cons_self, hdrop⟩]
        · rw [if_neg (fun h => hw h.1), if_neg (fun h => hw h.1), JsObject.count_delete,
            if_neg hw]
      · rename_i hkeep
        obtain ⟨hpos, hcount⟩ := foldl_dropInside key keys ho
        refine ⟨hpos, hcount.trans (if_congr ?_ rfl rfl)⟩
        rw [List.exists_mem_cons_iff]
        tauto

/-- The inner loop on a key, when of the words visited before those inside another
word are gone. -/
theorem count_dropInside {keys : List JsString} (ho : o.Positive)
    (hcount : ∀ v, o.count v =
      open Classical in if v ∈ keys ∧ Inside c v then 0 else c.count v) (key : JsString) :
    (c.keys.foldl (dropInside key) o).count key =
      open Classical in if Inside c key then 0 else c.count key := by
  -- a live word has its count, and a word inside no other is live
  have hlive : ∀ v, o.count v ≠ 0 → o.count v = c.count v := by
    intro v hv
    rw [hcount v] at hv ⊢
    split
    · rename_i h
      exact absurd (if_pos h) hv
    · rfl
  have houter : ∀ v, ¬ Inside c v → o.count v = c.count v := fun v hv => by
    rw [hcount v, if_neg (fun h => hv h.2)]
  rw [(foldl_dropInside key c.keys ho).2]
  by_cases hinside : Inside c key
  · rw [if_pos hinside]
    split
    · rfl
    · rename_i hkeep
      by_contra hne
      have hkey : o.count key = c.count key := hlive key hne
      obtain ⟨v, hsub, hv, hout⟩ := exists_outermost (hkey ▸ hne)
      refine hkeep ⟨rfl, v, JsObject.mem_keys_of_count ?_, ?_, hsub, ?_⟩
      · rw [hv, ← hkey]
        exact hne
      · rintro rfl
        exact hout hinside
      · rw [houter v hout, hv, hkey]
  · rw [if_neg hinside]
    split
    · rename_i hdrop
      obtain ⟨-, v, -, hne, hsub, hv⟩ := hdrop
      rw [houter key hinside] at hv
      by_contra hzero
      have hcv := hlive v (by rw [hv]; exact Ne.symm hzero)
      exact hinside ⟨v, hne, hsub, hcv.symm.trans hv⟩
    · exact houter key hinside

/-- The invariant of the outer loop: of the keys visited so far those inside
another word are gone. -/
theorem foldl_filterInside (hc : c.Positive) : ∀ keys : List JsString,
    (∀ w, (keys.foldl (fun o key => c.keys.foldl (dropInside key) o) c).count w =
      open Classical in if w ∈ keys ∧ Inside c w then 0 else c.count w) ∧
    (keys.foldl (fun o key => c.keys.foldl (dropInside key) o) c).Positive := by
  classical
  intro keys
  induction keys using List.reverseRecOn with
  | nil => exact ⟨fun w => by simp, hc⟩
  | append_singleton keys key ih =>
      obtain ⟨hcount, hpos⟩ := ih
      rw [List.foldl_concat]
      generalize keys.foldl (fun o key => c.keys.foldl (dropInside key) o) c = o at hcount hpos
      refine ⟨?_, (foldl_dropInside (w := key) key c.keys hpos).1⟩
      intro w
      by_cases hw : w = key
      · subst hw
        rw [count_dropInside hpos hcount]
        exact if_congr (by simp) rfl rfl
      · -- the other words are not touched
        rw [(foldl_dropInside key c.keys hpos).2, if_neg (fun h => hw h.1), hcount]
        exact if_congr (by simp [hw]) rfl rfl

open Classical in
/-- **The words inside another one go**: the order of the keys, and that deleted
entries are compared with, changes nothing. -/
theorem count_FilterOutInside_ (hc : c.Positive) (w : JsString) :
    (FilterOutInside_ c).count w = if Inside c w then 0 else c.count w := by
  rw [FilterOutInside_, (foldl_filterInside hc c.keys).1]
  by_cases hw : w ∈ c.keys
  · exact if_congr (and_iff_right hw) rfl rfl
  · have hzero : c.count w = 0 := by
      by_contra hne
      exact hw (JsObject.mem_keys_of_count hne)
    rw [hzero, ite_self, ite_self]

end Filters

/-! ## `article` and the block -/

section Block

variable {wai : WaiBase} {w : JsString}

/-- What is left of a document's statistics after both filters. -/
theorem count_filtered {c : Collect} {doc : JsString} (hc : c.Positive)
    (hcount : ∀ v, c.count v = windowCount v doc) :
    (WaiBase.FilterOutInside_ (WaiBase.FilterOutLowFreq_ c)).count w = contribution w doc := by
  have hhigh : ∀ v, (WaiBase.FilterOutLowFreq_ c).count v =
      if windowCount v doc < 5 then 0 else windowCount v doc := fun v => by
    rw [count_FilterOutLowFreq_ hc, hcount]
  rw [count_FilterOutInside_ (positive_FilterOutLowFreq_ hc), hhigh, contribution]
  by_cases hrare : windowCount w doc < 5
  · rw [if_pos hrare, ite_self, if_neg (fun h : Kept w doc => absurd h.1 (by omega))]
  · have hinside : Inside (WaiBase.FilterOutLowFreq_ c) w ↔ ¬ Kept w doc := by
      rw [Kept, not_and_not_right]
      constructor
      · rintro ⟨v, hne, hsub, hv⟩ -
        rw [hhigh, hhigh, if_neg hrare] at hv
        split at hv
        · omega
        · have hlt : w.length < v.length := lt_of_le_of_ne hsub.length_le
            (fun h => hne (hsub.eq_of_length h).symm)
          exact ⟨v, hlt, hsub, hv⟩
      · intro hkept
        obtain ⟨v, hlt, hsub, hv⟩ := hkept (by omega)
        refine ⟨v, ?_, hsub, ?_⟩
        · rintro rfl
          exact absurd hlt (Nat.lt_irrefl _)
        · rw [hhigh, hhigh, hv]
    rw [if_neg hrare]
    by_cases hkept : Kept w doc
    · rw [if_pos hkept, if_neg (fun h => hinside.mp h hkept)]
    · rw [if_neg hkept, if_pos (hinside.mpr hkept)]

/-- The statistics of a document have no zero entry. -/
theorem positive_filtered {c : Collect} (hc : c.Positive) :
    (WaiBase.FilterOutInside_ (WaiBase.FilterOutLowFreq_ c)).Positive :=
  (foldl_filterInside (positive_FilterOutLowFreq_ hc) _).2

/-- An article adds its contribution to each word. -/
theorem count_article (hwai : wai.collectBlock_.Positive) (doc : JsString) :
    (WaiParrot.article wai doc).collectBlock_.Positive ∧
      (WaiParrot.article wai doc).collectBlock_.count w =
        wai.collectBlock_.count w + contribution w doc := by
  have hstat := positive_foldl_onSentence_ (WaiBase.collectRuns doc [] [])
    JsObject.positive_empty
  refine ⟨JsObject.Positive.foldl_addTo hwai (positive_filtered hstat), ?_⟩
  rw [← count_filtered hstat (fun v => count_statistics doc)]
  exact JsObject.count_foldl_addTo _ _ w

theorem count_foldl_article : ∀ (docs : List JsString) {wai : WaiBase},
    wai.collectBlock_.Positive → (docs.foldl WaiParrot.article wai).collectBlock_.Positive ∧
      (docs.foldl WaiParrot.article wai).collectBlock_.count w =
        wai.collectBlock_.count w + (docs.map (contribution w)).sum
  | [], _, hwai => ⟨hwai, by simp⟩
  | doc :: docs, wai, hwai => by
      obtain ⟨hpos, hcount⟩ := count_article (w := w) hwai doc
      obtain ⟨hpos', hcount'⟩ := count_foldl_article docs hpos
      refine ⟨hpos', ?_⟩
      rw [List.foldl_cons, hcount', hcount, List.map_cons, List.sum_cons, Nat.add_assoc]

end Block

end WaiNative

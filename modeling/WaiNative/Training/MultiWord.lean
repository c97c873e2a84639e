import WaiNative.Cxx.Strings
import WaiNative.Cxx.Decimal
import Std.Data.TreeMap.Lemmas

/-!
# The words of one article

`multiWordOfOneArticle_`, the word counts that `OstrichWord`, `ParrotWord` and
`PhoenixWord` collect between two commits, and how they count a word. The counts are
`int`s; `pushMultiWord` counts on behind `INT_MAX`, where `checkedPushMultiWord` has no
value.
-/

namespace WaiNative

open Cxx

/-- `map<string, int>`, ordered by the bytes of the keys. -/
abbrev MultiWord := Std.TreeMap Str ℤ

/-- Count a word: `it->second++`, or `1` the first time. -/
def pushMultiWord (multiWordOfOneArticle_ : MultiWord) (word : Str) : MultiWord :=
  match multiWordOfOneArticle_[word]? with
  | some n => multiWordOfOneArticle_.insert word (n + 1)
  | none => multiWordOfOneArticle_.insert word 1

/-- The same with the `++` checked. -/
def checkedPushMultiWord (multiWordOfOneArticle_ : MultiWord) (word : Str) :
    Option MultiWord :=
  match multiWordOfOneArticle_[word]? with
  | some n =>
      if n + 1 ≤ INT_MAX then some (multiWordOfOneArticle_.insert word (n + 1)) else none
  | none => some (multiWordOfOneArticle_.insert word 1)

/-- No value is above the largest `int` (the counts only grow). -/
def IntValues (m : MultiWord) : Prop :=
  ∀ (w : Str) (n : ℤ), m[w]? = some n → n ≤ INT_MAX

theorem intValues_empty : IntValues ∅ := by
  intro w n hn
  simp at hn

/-! ## Counting the words of a list -/

section Table

theorem getElem?_push (m : MultiWord) (word w : Str) :
    (pushMultiWord m word)[w]? = if word = w then some (m[w]?.getD 0 + 1) else m[w]? := by
  rw [pushMultiWord]
  rcases hm : m[word]? with _ | n
  · by_cases heq : word = w
    · subst heq
      simp [hm]
    · simp [Std.TreeMap.getElem?_insert, heq]
  · by_cases heq : word = w
    · subst heq
      simp [hm]
    · simp [Std.TreeMap.getElem?_insert, heq]

/-- Counting words into a table adds how often each is among them. -/
theorem getElem?_foldl_push : ∀ (words : List Str) (m : MultiWord) (w : Str),
    (words.foldl pushMultiWord m)[w]? =
      if words.count w = 0 then m[w]? else some (m[w]?.getD 0 + words.count w)
  | [], m, w => by simp
  | word :: words, m, w => by
      rw [List.foldl_cons, getElem?_foldl_push words, getElem?_push, List.count_cons]
      by_cases heq : word = w
      · subst heq
        by_cases hzero : words.count word = 0
        · simp [hzero]
        · simp only [hzero, if_true, if_false, beq_self_eq_true, Option.getD_some,
            Nat.add_eq_zero_iff, one_ne_zero, and_false]
          congr 1
          push_cast
          ring
      · simp [heq]

/-- Counts only grow. -/
theorem IntValues.of_foldl {words : List Str} {m : MultiWord}
    (h : IntValues (words.foldl pushMultiWord m)) : IntValues m := by
  intro w n hn
  by_cases hzero : words.count w = 0
  · refine h w n ?_
    rw [getElem?_foldl_push, if_pos hzero, hn]
  · have hle := h w (n + words.count w) (by
      rw [getElem?_foldl_push, if_neg hzero, hn, Option.getD_some])
    omega

theorem checkedPushMultiWord_eq (m : MultiWord) (word : Str) :
    checkedPushMultiWord m word =
      if m[word]?.getD 0 + 1 ≤ INT_MAX then some (pushMultiWord m word) else none := by
  unfold checkedPushMultiWord pushMultiWord
  rcases hword : m[word]? with _ | n
  · exact (if_pos (by decide)).symm
  · rfl

/-- Only the count of the word itself can leave the range. -/
theorem intValues_push_iff {m : MultiWord} {word : Str} (hm : IntValues m) :
    IntValues (pushMultiWord m word) ↔ m[word]?.getD 0 + 1 ≤ INT_MAX := by
  constructor
  · intro h
    exact h word _ (by rw [getElem?_push, if_pos rfl])
  · intro hle w n hn
    rw [getElem?_push] at hn
    split at hn
    · rename_i heq
      obtain rfl := Option.some.inj hn
      exact heq ▸ hle
    · exact hm w n hn

theorem checkedPushMultiWord_iff {m m' : MultiWord} {word : Str} (hm : IntValues m) :
    checkedPushMultiWord m word = some m' ↔ m' = pushMultiWord m word ∧ IntValues m' := by
  rw [checkedPushMultiWord_eq, Option.ite_none_right_eq_some, Option.some_inj]
  constructor
  · rintro ⟨hle, rfl⟩
    exact ⟨rfl, (intValues_push_iff hm).mpr hle⟩
  · rintro ⟨rfl, hint⟩
    exact ⟨(intValues_push_iff hm).mp hint, rfl⟩

/-- **Counting a list overflows exactly when some count at its end is no `int`.** -/
theorem foldlM_checkedPush_iff : ∀ {words : List Str} {m m' : MultiWord}, IntValues m →
    (words.foldlM checkedPushMultiWord m = some m' ↔
      m' = words.foldl pushMultiWord m ∧ IntValues m')
  | [], m, m', hm => by
      rw [List.foldlM_nil, List.foldl_nil]
      constructor
      · intro h
        obtain rfl := Option.some.inj h
        exact ⟨rfl, hm⟩
      · rintro ⟨rfl, -⟩
        rfl
  | word :: words, m, m', hm => by
      rw [List.foldlM_cons, List.foldl_cons, Option.bind_eq_bind, Option.bind_eq_some_iff]
      constructor
      · rintro ⟨m₁, hpush, hrest⟩
        obtain ⟨rfl, hm₁⟩ := (checkedPushMultiWord_iff hm).mp hpush
        exact (foldlM_checkedPush_iff hm₁).mp hrest
      · rintro ⟨rfl, hint⟩
        have hm₁ : IntValues (pushMultiWord m word) := hint.of_foldl
        exact ⟨_, (checkedPushMultiWord_iff hm).mpr ⟨rfl, hm₁⟩,
          (foldlM_checkedPush_iff hm₁).mpr ⟨rfl, hint⟩⟩

end Table

end WaiNative

import WaiNative.Segment.Hints
import WaiNative.Text.Utf8
import WaiNative.Cxx.Map

/-!
# `QiangbaoWord`: words first, places afterwards

`PhoenixWord::getRawRank` notes the place of each window as it meets it.
`QiangbaoWord` makes two passes: `getRawRank` collects which words the sentence
has, in a map without places, and `cutTextByRank` then searches the bytes of the
whole text for each of them.

- `mem_getRawRank`: the keys of the map are the known windows;
- `mem_find_all_substr`: the search finds every place, overlapping ones too;
- `mem_cutTextByRank`: what the second pass enters;
- `cut_finds_hints`: on encoded text the two methods agree.
-/

namespace WaiNative

open Cxx

namespace QiangbaoWord

/-! ## The two passes -/

/-- The tuple that `cutTextByRank` builds; its last member is always `0`. -/
structure WordElement where
  word : Str
  pos : ℕ
  range : ℕ
  rankRepeat : ℚ
  rankorig : ℚ
  last : ℤ

/-- `map<string, tuple<double, double>>`, ordered by the bytes of the keys. -/
abbrev PhoenixRank := Std.TreeMap Str (ℚ × ℚ)

/-- What `getRawRank` leaves behind. -/
structure RawRank where
  rawRankMinWordSize_ : ℕ
  phoenixRank_ : PhoenixRank

def gWeightAdjustBase : ℚ := 4

def gWeightAdjustRateMax : ℚ := 16

section Passes

variable (pred : Str → ℚ)

/-- The body of both loops: keep the word when the dictionary knows it. -/
def pushRank (st : RawRank) (word : Str) : RawRank :=
  if pred word > 0 then
    { rawRankMinWordSize_ :=
        if st.rawRankMinWordSize_ > word.length then word.length
        else st.rawRankMinWordSize_
      phoenixRank_ := st.phoenixRank_.insert word (pred word, pred word) }
  else st

/-- The inner loop: `it` runs backwards over `preWords`. -/
def joinBack : List Str → Str → RawRank → RawRank
  | [], _, st => st
  | it :: rest, jointWord, st =>
      let jointWord := it ++ jointWord
      joinBack rest jointWord (pushRank pred st jointWord)

/-- The outer loop: joined words first, the character of its own after them. -/
def rankFrom : List Str → List Str → RawRank → RawRank
  | [], _, st => st
  | word :: Bytes, preWords, st =>
      let st := joinBack pred preWords.reverse word st
      let st := pushRank pred st word
      rankFrom Bytes (pushPreWord preWords word) st

def getRawRank (Bytes : List Str) : RawRank := rankFrom pred Bytes [] ⟨32, ∅⟩

/-- `(int)rate2`. Where the value fits no `int` the source is undefined; `Multipliers` says
when that happens. -/
def truncate (rate2 : ℚ) : ℤ := rate2.num.tdiv rate2.den

/-- `adjustRank`: each entry is overwritten while the loop stands on it. -/
def adjustRank (pow : ℚ → ℚ → ℚ) (st : RawRank) : PhoenixRank :=
  st.phoenixRank_.toList.foldl
    (fun phoenixRank_ rPair =>
      let word := rPair.1
      let weight := rPair.2.1
      let rate : ℚ := word.length / st.rawRankMinWordSize_ - 1
      let rate2 := if rate > gWeightAdjustRateMax then 1 else pow gWeightAdjustBase rate
      phoenixRank_.insert word (weight * truncate rate2, weight))
    st.phoenixRank_

end Passes

/-- The loop of `find_all_substr` from the search at `pos` on. -/
def findAllFrom (sub text : Str) (pos : ℕ) : List ℕ :=
  match h : find_from text sub pos with
  | none => []
  | some p => p :: findAllFrom sub text (p + 1)
termination_by text.length + 1 - pos
decreasing_by
  obtain ⟨⟨hle, hlen, -⟩, -⟩ := find_from_eq_some.mp h
  omega

def find_all_substr (sub text : Str) : List ℕ := findAllFrom sub text 0

/-- The entries of one word. -/
def elements (text : Str) (rPair : Str × ℚ × ℚ) : List WordElement :=
  (find_all_substr rPair.1 text).map
    (fun pos => ⟨rPair.1, pos, rPair.1.length, rPair.2.1, rPair.2.2, 0⟩)

/-- `cutTextByRank(text)`: the words in key order, the places of each from left to
right, into a `multimap` by place. -/
def cutTextByRank (phoenixRank_ : PhoenixRank) (text : Str) : List WordElement :=
  Multimap.insertAll WordElement.pos (phoenixRank_.toList.flatMap (elements text)) []

/-! ## What the passes find -/

section Found

variable {pred : Str → ℚ} {w : Str}

theorem mem_pushRank {st : RawRank} {word : Str} :
    w ∈ (pushRank pred st word).phoenixRank_ ↔
      w ∈ st.phoenixRank_ ∨ (w = word ∧ 0 < pred word) := by
  unfold pushRank
  split
  · rename_i hpos
    show w ∈ st.phoenixRank_.insert word (pred word, pred word) ↔ _
    rw [Std.TreeMap.mem_insert, Std.LawfulEqCmp.compare_eq_iff_eq]
    constructor
    · rintro (rfl | h)
      · exact Or.inr ⟨rfl, hpos⟩
      · exact Or.inl h
    · rintro (h | ⟨rfl, -⟩)
      · exact Or.inr h
      · exact Or.inl rfl
  · rename_i hpos
    constructor
    · exact Or.inl
    · rintro (h | ⟨-, hword⟩)
      · exact h
      · exact absurd hword hpos

/-- The inner loop keeps the windows that end in the character; places are those
of the other method, from any base on. -/
theorem mem_joinBack : ∀ (pre : List Str) (j : Str) (p : ℕ) (st : RawRank),
    w ∈ (joinBack pred pre j st).phoenixRank_ ↔
      w ∈ st.phoenixRank_ ∨ (0 < pred w ∧ ∃ q, (w, q) ∈ windowsBack pre j p)
  | [], j, p, st => by simp [joinBack, windowsBack]
  | it :: rest, j, p, st => by
      rw [joinBack, mem_joinBack rest (it ++ j) (p - it.length), mem_pushRank, windowsBack]
      simp only [List.mem_cons, Prod.mk.injEq]
      constructor
      · rintro ((h | ⟨rfl, hpos⟩) | ⟨hpos, q, hq⟩)
        · exact Or.inl h
        · exact Or.inr ⟨hpos, _, Or.inl ⟨rfl, rfl⟩⟩
        · exact Or.inr ⟨hpos, q, Or.inr hq⟩
      · rintro (h | ⟨hpos, q, ⟨rfl, -⟩ | hq⟩)
        · exact Or.inl (Or.inl h)
        · exact Or.inl (Or.inr ⟨rfl, hpos⟩)
        · exact Or.inr ⟨hpos, q, hq⟩

theorem mem_rankFrom : ∀ (Bytes pre : List Str) (p : ℕ) (st : RawRank),
    w ∈ (rankFrom pred Bytes pre st).phoenixRank_ ↔
      w ∈ st.phoenixRank_ ∨ (0 < pred w ∧ ∃ q, (w, q) ∈ windowsFrom true Bytes pre p)
  | [], pre, p, st => by simp [rankFrom, windowsFrom]
  | word :: Bytes, pre, p, st => by
      rw [rankFrom, mem_rankFrom Bytes (pushPreWord pre word) (p + word.length), mem_pushRank,
        mem_joinBack pre.reverse word p, windowsFrom, if_pos rfl]
      simp only [List.mem_append, List.mem_singleton, Prod.mk.injEq]
      constructor
      · rintro (((h | ⟨hpos, q, hq⟩) | ⟨rfl, hpos⟩) | ⟨hpos, q, hq⟩)
        · exact Or.inl h
        · exact Or.inr ⟨hpos, q, Or.inl (Or.inr hq)⟩
        · exact Or.inr ⟨hpos, p, Or.inl (Or.inl ⟨rfl, rfl⟩)⟩
        · exact Or.inr ⟨hpos, q, Or.inr hq⟩
      · rintro (h | ⟨hpos, q, (⟨rfl, -⟩ | hq) | hq⟩)
        · exact Or.inl (Or.inl (Or.inl h))
        · exact Or.inl (Or.inr ⟨rfl, hpos⟩)
        · exact Or.inl (Or.inl (Or.inr ⟨hpos, q, hq⟩))
        · exact Or.inr ⟨hpos, q, hq⟩

/-- **The keys of the rank map are the known windows.** -/
theorem mem_getRawRank {Bytes : List Str} :
    w ∈ (getRawRank pred Bytes).phoenixRank_ ↔
      0 < pred w ∧ ∃ p, WindowAt true Bytes w p := by
  rw [getRawRank, mem_rankFrom Bytes [] 0]
  show w ∈ (∅ : PhoenixRank) ∨ (0 < pred w ∧ ∃ q, (w, q) ∈ windows true Bytes) ↔ _
  simp only [Std.TreeMap.not_mem_emptyc, false_or, mem_windows]

/-- `adjustRank` changes no key. -/
theorem mem_adjustRank (pow : ℚ → ℚ → ℚ) (st : RawRank) :
    w ∈ adjustRank pow st ↔ w ∈ st.phoenixRank_ := by
  apply Map.mem_foldl_insert
  intro r hr
  exact Std.TreeMap.mem_iff_isSome_getElem?.mpr
    (by rw [Std.TreeMap.mem_toList_iff_getElem?_eq_some.mp hr]; rfl)

theorem mem_findAllFrom {sub text : Str} {p : ℕ} (pos : ℕ) :
    p ∈ findAllFrom sub text pos ↔ pos ≤ p ∧ p ≤ text.length ∧ sub <+: text.drop p := by
  induction pos using findAllFrom.induct sub text with
  | case1 pos h =>
      unfold findAllFrom
      split
      · simp only [List.not_mem_nil, false_iff]
        rintro ⟨hle, hlen, hsub⟩
        exact find_from_eq_none.mp h p hle hlen hsub
      · rename_i q hq
        rw [h] at hq
        exact absurd hq (Option.some_ne_none q).symm
  | case2 pos q h ih =>
      unfold findAllFrom
      split
      · rename_i hnone
        rw [h] at hnone
        exact absurd hnone (Option.some_ne_none q)
      · rename_i q' hq'
        obtain rfl : q = q' := Option.some.inj (h.symm.trans hq')
        obtain ⟨⟨hle, hlen, hsub⟩, hbefore⟩ := find_from_eq_some.mp h
        rw [List.mem_cons, ih]
        constructor
        · rintro (rfl | ⟨hlt, hp, hfound⟩)
          · exact ⟨hle, hlen, hsub⟩
          · exact ⟨by omega, hp, hfound⟩
        · rintro ⟨hpos, hp, hfound⟩
          rcases Nat.lt_trichotomy p q with hlt | rfl | hgt
          · exact absurd hfound (hbefore p hpos hlt)
          · exact Or.inl rfl
          · exact Or.inr ⟨hgt, hp, hfound⟩

/-- **The search finds every place of the word.** -/
theorem mem_find_all_substr {sub text : Str} {p : ℕ} :
    p ∈ find_all_substr sub text ↔ p ≤ text.length ∧ sub <+: text.drop p := by
  rw [find_all_substr, mem_findAllFrom]
  simp only [Nat.zero_le, true_and]

/-- The pairs of word and place that the second pass enters. -/
theorem mem_cutTextByRank {phoenixRank_ : PhoenixRank} {text : Str} {p : ℕ} :
    (∃ e ∈ cutTextByRank phoenixRank_ text, e.word = w ∧ e.pos = p) ↔
      w ∈ phoenixRank_ ∧ p ≤ text.length ∧ w <+: text.drop p := by
  simp only [cutTextByRank, Multimap.mem_insertAll, List.not_mem_nil, false_or,
    List.mem_flatMap, elements, List.mem_map, mem_find_all_substr]
  constructor
  · rintro ⟨e, ⟨r, hr, q, hq, rfl⟩, rfl, rfl⟩
    refine ⟨?_, hq⟩
    exact Std.TreeMap.mem_iff_isSome_getElem?.mpr
      (by rw [Std.TreeMap.mem_toList_iff_getElem?_eq_some.mp hr]; rfl)
  · rintro ⟨hw, hp⟩
    obtain ⟨ranks, hranks⟩ := Option.isSome_iff_exists.mp
      (Std.TreeMap.mem_iff_isSome_getElem?.mp hw)
    exact ⟨_, ⟨(w, ranks), Std.TreeMap.mem_toList_iff_getElem?_eq_some.mpr hranks, p, hp,
      rfl⟩, rfl, rfl⟩

end Found

/-! ## Agreement with `PhoenixWord` -/

section Agreement

variable {Bytes : List Str} {w : Str} {p : ℕ}

/-- A window stands where it was found. -/
theorem WindowAt.found (h : WindowAt true Bytes w p) :
    p ≤ Bytes.flatten.length ∧ w <+: Bytes.flatten.drop p := by
  obtain ⟨pre, mid, suf, rfl, -, -, rfl, rfl⟩ := h
  rw [List.append_assoc, List.flatten_append, List.drop_left, List.flatten_append]
  exact ⟨by simp, List.prefix_append _ _⟩

/-- Where the bytes of a window stand in encoded text, there is a window. -/
theorem WindowAt.move {q : ℕ} (hBytes : ∀ t ∈ Bytes, utf8Code.Word t)
    (h : WindowAt true Bytes w q) (hfound : w <+: Bytes.flatten.drop p) :
    WindowAt true Bytes w p := by
  obtain ⟨before, mid, after, hsplit, hlo, hhi, rfl, -⟩ := h
  have hmid : ∀ t ∈ mid, utf8Code.Word t := by
    intro t ht
    exact hBytes t (by rw [hsplit]; simp [ht])
  have hstarts : utf8Code.Starts mid.flatten := by
    cases mid with
    | nil => simp [leastChars] at hlo
    | cons t mid =>
        obtain ⟨b, bs, rfl, hb, -⟩ := hmid t List.mem_cons_self
        exact ⟨b, bs ++ mid.flatten, rfl, hb⟩
  obtain ⟨pre, suf, rfl, rfl⟩ := Code.cut_of_prefix hstarts hBytes hfound
  rw [List.flatten_append, List.drop_left] at hfound
  obtain ⟨rest, rfl⟩ := Code.prefix_of_flatten hmid
    (fun u hu => hBytes u (List.mem_append_right pre hu)) hfound
  exact ⟨pre, mid, rest, (List.append_assoc pre mid rest).symm, hlo, hhi, rfl, rfl⟩

/-- A word that the rank map has stands in encoded text exactly where a window of
it is. -/
theorem found_iff_windowAt {pred : Str → ℚ} (hBytes : ∀ t ∈ Bytes, utf8Code.Word t) :
    (w ∈ (getRawRank pred Bytes).phoenixRank_ ∧ p ≤ Bytes.flatten.length ∧
      w <+: Bytes.flatten.drop p) ↔ WindowAt true Bytes w p ∧ 0 < pred w := by
  rw [mem_getRawRank]
  constructor
  · rintro ⟨⟨hpos, q, hq⟩, -, hfound⟩
    exact ⟨WindowAt.move hBytes hq hfound, hpos⟩
  · rintro ⟨hw, hpos⟩
    exact ⟨⟨hpos, p, hw⟩, WindowAt.found hw⟩

/-- The pairs of word and place among the hints of `PhoenixWord`. -/
theorem mem_hints {pred : Str → ℚ} :
    (∃ e ∈ (WaiNative.getRawRank pred Bytes).wordHintSeq_, e.word = w ∧ e.position = p) ↔
      WindowAt true Bytes w p ∧ 0 < pred w := by
  constructor
  · rintro ⟨e, he, rfl, rfl⟩
    obtain ⟨w, p, hw, hpos, rfl⟩ := WaiNative.mem_getRawRank.mp he
    exact ⟨hw, hpos⟩
  · rintro ⟨hw, hpos⟩
    exact ⟨hintOf pred (w, p), WaiNative.mem_getRawRank.mpr ⟨w, p, hw, hpos, rfl⟩, rfl, rfl⟩

/-- **The two methods agree.** For any code points and any dictionary, the
places of words that the second pass enters, from the rank map as `getRawRank`
leaves it and as `adjustRank` does, are those of the hints of
`PhoenixWord::getRawRank`. -/
theorem cut_finds_hints (pow : ℚ → ℚ → ℚ) (pred : Str → ℚ) (cs : List CodePoint) :
    let text := encode cs
    let Bytes := characters text
    let raw := getRawRank pred Bytes
    let hints := {v | v ∈ (WaiNative.getRawRank pred Bytes).wordHintSeq_.map
      (fun e => (e.word, e.position))}
    {v | v ∈ (cutTextByRank raw.phoenixRank_ text).map (fun e => (e.word, e.pos))} = hints ∧
      {v | v ∈ (cutTextByRank (adjustRank pow raw) text).map (fun e => (e.word, e.pos))} =
        hints := by
  intro text Bytes raw hints
  have hBytes : ∀ t ∈ Bytes, utf8Code.Word t := by
    intro t ht
    rw [show Bytes = cs.map CodePoint.utf8 from characters_encode cs] at ht
    obtain ⟨c, -, rfl⟩ := List.mem_map.mp ht
    exact utf8_word c
  have htext : Bytes.flatten = text := characters_flatten text
  have hagree : ∀ rank : PhoenixRank, (∀ w, w ∈ rank ↔ w ∈ raw.phoenixRank_) →
      {v | v ∈ (cutTextByRank rank text).map (fun e => (e.word, e.pos))} = hints := by
    intro rank hrank
    ext ⟨w, p⟩
    simp only [hints, Set.mem_ofPred_eq, List.mem_map, Prod.mk.injEq]
    rw [mem_cutTextByRank, mem_hints, hrank, ← htext]
    exact found_iff_windowAt hBytes
  exact ⟨hagree _ (fun _ => Iff.rfl), hagree _ (fun _ => mem_adjustRank pow raw)⟩

end Agreement

end QiangbaoWord

end WaiNative

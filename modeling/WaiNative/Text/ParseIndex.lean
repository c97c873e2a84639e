import WaiNative.Text.UnicodeToUtf8
import WaiNative.Cxx.Decimal

/-!
# The index of `parseUTF8`

Both overloads of `parseUTF8` keep their place in an `int` and advance it by what the
lead byte promises, also where the string ends earlier. Here the accesses and the
addition are checked.

- `checkedParseUTF8Words_eq`, `checkedParseUTF8_eq`: the accesses never fail, and the
  addition overflows exactly when the end that the lead bytes announce is no `int`;
- `length_le_announced`, `announced_words`: that end is not before the end of the
  string, and it is the end of a text of whole characters;
- `parsesExactly_iff`: up to there both overloads cut the string exactly;
- `comesApart_iff`: written code points come apart again up to there.
-/

namespace WaiNative

open Cxx

/-! ## The loops, checked -/

/-- The loop of the overload that returns the characters. `none` is an exception of `at`
or `substr`, or an overflow of `i`. -/
def checkedParseUTF8WordsFrom (words : Str) (i : ℕ) (ret : List Str) : Option (List Str) :=
  if _h : i < words.length then
    match words[i]? with
    | none => none
    | some ch =>
      match substr words i (charSize ch) with
      | none => none
      | some sub =>
        if (i + charSize ch : ℕ) ≤ INT_MAX then
          checkedParseUTF8WordsFrom words (i + charSize ch) (ret ++ [sub])
        else none
  else some ret
termination_by words.length - i
decreasing_by
  have := charSize_pos ch
  omega

def checkedParseUTF8Words (words : Str) : Option (List Str) :=
  checkedParseUTF8WordsFrom words 0 []

/-- The loop of the overload that fills two vectors. -/
def checkedParseUTF8From (article : Str) (i : ℕ) (words : List Str) (positions : List ℕ) :
    Option (List Str × List ℕ) :=
  if _h : i < article.length then
    match article[i]? with
    | none => none
    | some ch =>
      match substr article i (charSize ch) with
      | none => none
      | some sub =>
        if (i + charSize ch : ℕ) ≤ INT_MAX then
          checkedParseUTF8From article (i + charSize ch) (words ++ [sub]) (positions ++ [i])
        else none
  else some (words, positions)
termination_by article.length - i
decreasing_by
  have := charSize_pos ch
  omega

def checkedParseUTF8 (article : Str) (words : List Str) (positions : List ℕ) :
    Option (List Str × List ℕ) :=
  checkedParseUTF8From article 0 words positions

/-! ## The announced end -/

/-- The sum of the lengths that the lead bytes promise; only the last one can be more than
what is left. -/
def announced : Str → ℕ
  | [] => 0
  | ch :: rest => charSize ch + announced (rest.drop (charSize ch - 1))
termination_by words => words.length
decreasing_by
  simp only [List.length_drop, List.length_cons]
  omega

theorem announced_drop {words : Str} {i : ℕ} (h : i < words.length) :
    announced (words.drop i) =
      charSize words[i] + announced (words.drop (i + charSize words[i])) := by
  have hpos := charSize_pos words[i]
  rw [List.drop_eq_getElem_cons h, announced, List.drop_drop]
  congr 3
  omega

theorem length_le_announced (words : Str) : words.length ≤ announced words := by
  induction words using announced.induct with
  | case1 => exact Nat.zero_le _
  | case2 ch rest ih =>
      have hpos := charSize_pos ch
      rw [List.length_drop] at ih
      rw [announced, List.length_cons]
      omega

/-! ## Where the checks succeed -/

section Checks

variable (words : Str)

theorem checkedParseUTF8WordsFrom_eq (i : ℕ) (hi : (i : ℤ) ≤ INT_MAX) (ret : List Str) :
    checkedParseUTF8WordsFrom words i ret =
      if ((i + announced (words.drop i) : ℕ) : ℤ) ≤ INT_MAX then
        some (ret ++ parseUTF8WordsFrom words i)
      else none := by
  induction i using parseUTF8WordsFrom.induct words generalizing ret with
  | case1 i h size ih =>
      have hsub : substr words i (charSize words[i]) = some (slice words i size) :=
        substr_eq_some h.le
      rw [checkedParseUTF8WordsFrom, dif_pos h, List.getElem?_eq_getElem h,
        parseUTF8WordsFrom, dif_pos h, announced_drop h, ← Nat.add_assoc]
      simp only [hsub]
      by_cases hfits : ((i + charSize words[i] : ℕ) : ℤ) ≤ INT_MAX
      · rw [if_pos hfits, ih hfits, List.append_assoc]
        rfl
      · rw [if_neg hfits, if_neg (by omega)]
  | case2 i h =>
      rw [checkedParseUTF8WordsFrom, dif_neg h, parseUTF8WordsFrom, dif_neg h,
        List.drop_eq_nil_of_le (Nat.le_of_not_lt h), announced, Nat.add_zero, if_pos hi,
        List.append_nil]

theorem checkedParseUTF8From_eq (i : ℕ) (hi : (i : ℤ) ≤ INT_MAX) (ws : List Str)
    (positions : List ℕ) :
    checkedParseUTF8From words i ws positions =
      if ((i + announced (words.drop i) : ℕ) : ℤ) ≤ INT_MAX then
        some (ws ++ (parseUTF8From words i).map Prod.fst,
          positions ++ (parseUTF8From words i).map Prod.snd)
      else none := by
  induction i using parseUTF8From.induct words generalizing ws positions with
  | case1 i h size ih =>
      have hsub : substr words i (charSize words[i]) = some (slice words i size) :=
        substr_eq_some h.le
      rw [checkedParseUTF8From, dif_pos h, List.getElem?_eq_getElem h, parseUTF8From, dif_pos h,
        announced_drop h, ← Nat.add_assoc]
      simp only [hsub]
      by_cases hfits : ((i + charSize words[i] : ℕ) : ℤ) ≤ INT_MAX
      · rw [if_pos hfits, ih hfits, List.append_assoc, List.append_assoc]
        rfl
      · rw [if_neg hfits, if_neg (by omega)]
  | case2 i h =>
      rw [checkedParseUTF8From, dif_neg h, parseUTF8From, dif_neg h,
        List.drop_eq_nil_of_le (Nat.le_of_not_lt h), announced, Nat.add_zero, if_pos hi]
      simp only [List.map_nil, List.append_nil]

/-- The accesses are in range; the index overflows when the announced end is no `int`. -/
theorem checkedParseUTF8Words_eq : checkedParseUTF8Words words =
    if (announced words : ℤ) ≤ INT_MAX then some (characters words) else none := by
  have h := checkedParseUTF8WordsFrom_eq words 0 (by decide) []
  rw [Nat.zero_add, List.drop_zero, List.nil_append] at h
  rw [checkedParseUTF8Words, h]
  exact congrArg (ite _ · _) (congrArg some (parseUTF8Words_eq words))

theorem checkedParseUTF8_eq (ws : List Str) (positions : List ℕ) :
    checkedParseUTF8 words ws positions =
      if (announced words : ℤ) ≤ INT_MAX then some (parseUTF8 words ws positions) else none := by
  have h := checkedParseUTF8From_eq words 0 (by decide) ws positions
  rwa [Nat.zero_add, List.drop_zero] at h

end Checks

/-! ## Exact up to there -/

/-- Both overloads end without a fault and cut alike: characters of one to six bytes that
concatenate to the string, each at the number of bytes before it. -/
def ParsesExactly (words : Str) : Prop :=
  ∃ ts : List Str, checkedParseUTF8Words words = some ts ∧
    (∀ (ws : List Str) (positions : List ℕ), checkedParseUTF8 words ws positions =
      some (ws ++ ts,
        positions ++ (List.range ts.length).map (fun i => (ts.take i).flatten.length))) ∧
    (∀ t ∈ ts, t ≠ [] ∧ t.length ≤ 6) ∧ ts.flatten = words

theorem parsesExactly_of_announced {words : Str} (h : (announced words : ℤ) ≤ INT_MAX) :
    ParsesExactly words := by
  refine ⟨characters words, ?_, ?_, parseUTF8From_size words 0, characters_flatten words⟩
  · rw [checkedParseUTF8Words_eq, if_pos h]
  · intro ws positions
    have hplaces : (parseUTF8From words 0).map Prod.snd =
        (List.range (characters words).length).map
          (fun i => ((characters words).take i).flatten.length) := by
      rw [parseUTF8From_positions, ← characters, withPositions_snd]
      simp only [zero_add]
    rw [checkedParseUTF8_eq, if_pos h, parseUTF8, hplaces]
    rfl

theorem ParsesExactly.announced {words : Str} (h : ParsesExactly words) :
    (announced words : ℤ) ≤ INT_MAX := by
  obtain ⟨ts, hwords, -⟩ := h
  rw [checkedParseUTF8Words_eq] at hwords
  by_contra hover
  rw [if_neg hover] at hwords
  cases hwords

/-- **Every string is cut exactly, well formed or not, as long as the end it announces is
an `int`**; behind that the index overflows. -/
theorem parsesExactly_iff (words : Str) :
    ParsesExactly words ↔ (announced words : ℤ) ≤ INT_MAX :=
  ⟨ParsesExactly.announced, parsesExactly_of_announced⟩

/-- Two gigabytes of one letter. -/
theorem not_parsesExactly_replicate : ¬ ParsesExactly (List.replicate (2 ^ 31) 97) := by
  intro h
  have hlen := length_le_announced (List.replicate (2 ^ 31) 97)
  rw [List.length_replicate] at hlen
  have hover : ((2 ^ 31 : ℕ) : ℤ) ≤ INT_MAX := (Int.ofNat_le.mpr hlen).trans h.announced
  exact absurd hover (by decide)

/-! ## Written text -/

/-- Text of whole characters announces its own end. -/
theorem announced_words : ∀ ts : List Str, (∀ t ∈ ts, utf8Code.Word t) →
    announced ts.flatten = ts.flatten.length
  | [], _ => by simp [announced]
  | t :: ts, hts => by
      obtain ⟨ht, hts⟩ := List.forall_mem_cons.mp hts
      have ih := announced_words ts hts
      obtain ⟨b, bs, rfl, -, -, hsize⟩ := ht
      have hsize : charSize b = bs.length + 1 := hsize.symm
      rw [List.flatten_cons, List.cons_append, announced, hsize, Nat.add_sub_cancel,
        List.drop_left, ih, List.length_cons, List.length_append]
      omega

/-- Concatenated characters come apart again, in both overloads and without a fault:
one token for each code point, at the offset of its first byte. -/
structure ComesApart (cs : List ℕ) : Prop where
  bytes : ∀ c ∈ cs, ∀ x ∈ unicode_to_utf8 c, x < 256
  words : checkedParseUTF8Words (cs.map utf8Bytes).flatten = some (cs.map utf8Bytes)
  positions : ∀ (words : List Str) (positions : List ℕ),
    checkedParseUTF8 (cs.map utf8Bytes).flatten words positions =
      some (words ++ cs.map utf8Bytes,
        positions ++ (List.range cs.length).map
          (fun k => ((cs.take k).map utf8Bytes).flatten.length))

section Written

variable {cs : List ℕ}

theorem announced_written (hcs : ∀ c ∈ cs, c < 2 ^ 31) :
    announced (cs.map utf8Bytes).flatten = (cs.map utf8Bytes).flatten.length := by
  apply announced_words
  intro t ht
  obtain ⟨c, hc, rfl⟩ := List.mem_map.mp ht
  exact (unicode_to_utf8_word (hcs c hc)).2

/-- **Written code points come apart again exactly when their bytes are no more than an
`int` counts.** -/
theorem comesApart_iff (hcs : ∀ c ∈ cs, c < 2 ^ 31) :
    ComesApart cs ↔ ((cs.map utf8Bytes).flatten.length : ℤ) ≤ INT_MAX := by
  rw [← announced_written hcs]
  constructor
  · intro h
    have hwords := h.words
    rw [checkedParseUTF8Words_eq] at hwords
    by_contra hover
    rw [if_neg hover] at hwords
    cases hwords
  · intro hfits
    refine ⟨(parseUTF8_unicode_to_utf8 cs hcs [] []).1, ?_, ?_⟩
    · rw [checkedParseUTF8Words_eq, if_pos hfits, ← parseUTF8Words_eq,
        (parseUTF8_unicode_to_utf8 cs hcs [] []).2.1]
    · intro words positions
      rw [checkedParseUTF8_eq, if_pos hfits,
        (parseUTF8_unicode_to_utf8 cs hcs words positions).2.2]

end Written

/-- A character of each length, at the lower end of its range. -/
theorem comesApart_lengths :
    ComesApart [0x7F, 0x80, 0x800, 0x10000, 0x200000, 0x4000000] := by
  apply (comesApart_iff (by decide)).mpr
  with_unfolding_all decide

/-- One letter, two gigabytes of it. -/
theorem not_comesApart_replicate :
    (∀ c ∈ List.replicate (2 ^ 31) 97, c < 2 ^ 31) ∧
      ¬ ComesApart (List.replicate (2 ^ 31) 97) := by
  have hcs : ∀ c ∈ List.replicate (2 ^ 31) 97, c < 2 ^ 31 := by
    intro c hc
    rw [List.eq_of_mem_replicate hc]
    decide
  refine ⟨hcs, ?_⟩
  intro h
  have hletter : utf8Bytes 97 = [97] := by
    rw [utf8Bytes, unicode_to_utf8, if_pos (by decide)]
    rfl
  have hlen : ((List.replicate (2 ^ 31) 97).map utf8Bytes).flatten.length = 2 ^ 31 := by
    rw [List.map_replicate, hletter, List.flatten_replicate_singleton, List.length_replicate]
  have hwords := h.words
  rw [checkedParseUTF8Words_eq, announced_written hcs, hlen, if_neg (by decide)] at hwords
  cases hwords

end WaiNative

import WaiNative.Segment.Qiangbao
import WaiNative.Segment.Selection
import WaiNative.Cxx.Decimal
import Mathlib.Data.Rat.Floor
import Mathlib.Tactic.Linarith
import Mathlib.Tactic.FieldSimp
import Mathlib.Tactic.NormNum

/-!
# The multipliers of `QiangbaoWord::adjustRank`

`adjustRank` multiplies the weight of a found word by `(int)pow(4, rate)`, where `rate`
is how many times longer it is than the shortest one, less one. The exponent is cut off
above `16`, but `4^16` is `2^32` and an `int` ends at `2^31 - 1`: between the rates
`15.5` and `16` the conversion is undefined.

- `Collected`: the map and the least length that `getRawRank` leaves;
- `multiplier_iff`: the conversion is defined, and the multiplier positive, outside
  that band;
- `soundMultipliers_iff`: so for a whole run, by the lengths of its known words.
-/

namespace WaiNative

open Cxx

namespace QiangbaoWord

/-! ## The conversion -/

/-- `(int)x`, defined when the truncated value is an `int`. -/
def toInt (x : ℚ) : Option ℤ :=
  if -INT_MAX - 1 ≤ truncate x ∧ truncate x ≤ INT_MAX then some (truncate x) else none

/-- `rate` in `adjustRank`. -/
def rate (st : RawRank) (word : Str) : ℚ := word.length / st.rawRankMinWordSize_ - 1

/-- `rate2` in `adjustRank`, behind the cut-off. -/
def rate2 (pow : ℚ → ℚ → ℚ) (st : RawRank) (word : Str) : ℚ :=
  if rate st word > gWeightAdjustRateMax then 1 else pow gWeightAdjustBase (rate st word)

/-- Every multiplier of a run is an `int` from `1` on, and the adjusted weights are the
weights times the multipliers, positive. -/
def SoundMultipliers (pow : ℚ → ℚ → ℚ) (pred : Str → ℚ) (Bytes : List Str) : Prop :=
  ∀ w ∈ (getRawRank pred Bytes).phoenixRank_, ∃ n : ℤ,
    toInt (rate2 pow (getRawRank pred Bytes) w) = some n ∧ 1 ≤ n ∧ n ≤ INT_MAX ∧
    (adjustRank pow (getRawRank pred Bytes))[w]? = some (pred w * n, pred w) ∧
    0 < pred w * n

/-- What is used of the C library's `pow` to the base `4`: representable results are
exact, and exponents that are a 64th apart, far more than rounding, keep their order. -/
structure PowSound (pow : ℚ → ℚ → ℚ) : Prop where
  exact : ∀ k : ℕ, k ≤ 32 → pow 4 (k / 2) = 2 ^ k
  separated : ∀ r r' : ℚ, 0 ≤ r → r' ≤ 16 → r + 1 / 64 ≤ r' → pow 4 r < pow 4 r'

theorem truncate_eq_floor {x : ℚ} (hx : 0 ≤ x) : truncate x = ⌊x⌋ := by
  rw [truncate, Rat.floor_def', Int.tdiv_eq_ediv_of_nonneg (Rat.num_nonneg.mpr hx)]

theorem toInt_eq_some_iff {x : ℚ} (hx : 1 ≤ x) :
    (∃ n, toInt x = some n ∧ 1 ≤ n ∧ n ≤ INT_MAX) ↔ x < 2 ^ 31 := by
  have hfloor := truncate_eq_floor (zero_le_one.trans hx)
  have hone : 1 ≤ ⌊x⌋ := Int.le_floor.mpr (by exact_mod_cast hx)
  have hbound : ⌊x⌋ ≤ INT_MAX ↔ x < 2 ^ 31 := by
    rw [← Int.lt_add_one_iff, Int.floor_lt]
    norm_num [INT_MAX]
  rw [← hbound]
  constructor
  · rintro ⟨n, hn, -, hle⟩
    unfold toInt at hn
    split at hn
    · rename_i hrange
      rw [← hfloor]
      exact hrange.2
    · cases hn
  · intro hle
    refine ⟨⌊x⌋, ?_, hone, hle⟩
    have hlow : -INT_MAX - 1 ≤ ⌊x⌋ := by
      unfold INT_MAX
      omega
    rw [toInt, hfloor, if_pos ⟨hlow, hle⟩]

/-! ## The power -/

section Power

variable {pow : ℚ → ℚ → ℚ} {r : ℚ}

/-- Exponents that are used are `0` or well above it. -/
theorem PowSound.one_le (h : PowSound pow) (hr : r = 0 ∨ 1 / 64 ≤ r) (hle : r ≤ 16) :
    1 ≤ pow 4 r := by
  have hzero : pow 4 0 = 1 := by simpa using h.exact 0 (by decide)
  rcases hr with rfl | hr
  · exact hzero.ge
  · have hlt := h.separated 0 r le_rfl hle (by linarith)
    rw [hzero] at hlt
    exact hlt.le

/-- Exponents that are used are `15.5` or well off it. -/
theorem PowSound.lt_iff (h : PowSound pow) (h0 : 0 ≤ r) (hle : r ≤ 16)
    (hr : r + 1 / 64 ≤ 31 / 2 ∨ r = 31 / 2 ∨ 31 / 2 + 1 / 64 ≤ r) :
    pow 4 r < 2 ^ 31 ↔ r < 31 / 2 := by
  have hedge : pow 4 (31 / 2) = 2 ^ 31 := by
    have hexact := h.exact 31 (by decide)
    exact_mod_cast hexact
  rcases hr with hr | rfl | hr
  · have hlt := h.separated r (31 / 2) h0 (by norm_num) hr
    rw [hedge] at hlt
    exact iff_of_true hlt (by linarith)
  · rw [hedge]
    exact iff_of_false (lt_irrefl _) (lt_irrefl _)
  · have hlt := h.separated (31 / 2) r (by norm_num) hle hr
    rw [hedge] at hlt
    exact iff_of_false (not_lt.mpr hlt.le) (by linarith)

end Power

/-! ## The band of lengths -/

/-- A word of `len` bytes is from 16.5 to 17 times as long as one of `least`. -/
def Critical (least len : ℕ) : Prop := 33 * least ≤ 2 * len ∧ len ≤ 17 * least

instance (least len : ℕ) : Decidable (Critical least len) :=
  inferInstanceAs (Decidable (_ ∧ _))

section Band

variable {st : RawRank} {w : Str}

/-- With a least length up to `32`, the rate is a half integer or a 64th off it. -/
theorem rate_off (hleast : 0 < st.rawRankMinWordSize_) (hle : st.rawRankMinWordSize_ ≤ 32)
    (w : Str) (p : ℕ) :
    (2 * w.length < (p + 2) * st.rawRankMinWordSize_ ∧ rate st w + 1 / 64 ≤ p / 2) ∨
      (2 * w.length = (p + 2) * st.rawRankMinWordSize_ ∧ rate st w = p / 2) ∨
      ((p + 2) * st.rawRankMinWordSize_ < 2 * w.length ∧ (p / 2 : ℚ) + 1 / 64 ≤ rate st w) := by
  unfold rate
  generalize st.rawRankMinWordSize_ = least at *
  generalize w.length = len
  have hpos : (0 : ℚ) < least := by exact_mod_cast hleast
  have hle' : (least : ℚ) ≤ 32 := by exact_mod_cast hle
  have hmul : (len / least : ℚ) * least = len := div_mul_cancel₀ _ hpos.ne'
  rcases Nat.lt_trichotomy (2 * len) ((p + 2) * least) with hlt | heq | hgt
  · refine Or.inl ⟨hlt, le_of_mul_le_mul_right ?_ hpos⟩
    have hstep : 2 * (len : ℚ) + 1 ≤ (p + 2) * least := by exact_mod_cast hlt
    rw [add_mul, sub_mul, hmul]
    linarith
  · refine Or.inr (Or.inl ⟨heq, ?_⟩)
    have heq' : 2 * (len : ℚ) = (p + 2) * least := by exact_mod_cast heq
    rw [sub_eq_iff_eq_add, div_eq_iff hpos.ne']
    linarith
  · refine Or.inr (Or.inr ⟨hgt, le_of_mul_le_mul_right ?_ hpos⟩)
    have hstep : (p + 2) * (least : ℚ) + 1 ≤ 2 * len := by exact_mod_cast hgt
    rw [add_mul, sub_mul, hmul]
    linarith

theorem rate_le_iff (hleast : 0 < st.rawRankMinWordSize_) :
    rate st w ≤ 16 ↔ w.length ≤ 17 * st.rawRankMinWordSize_ := by
  have hpos : (0 : ℚ) < st.rawRankMinWordSize_ := by exact_mod_cast hleast
  rw [rate, sub_le_iff_le_add, div_le_iff₀ hpos]
  norm_num
  exact_mod_cast Iff.rfl

/-- **The multiplier is a positive `int` outside the band.** -/
theorem multiplier_iff {pow : ℚ → ℚ → ℚ} (hpow : PowSound pow)
    (hleast : 0 < st.rawRankMinWordSize_) (hle : st.rawRankMinWordSize_ ≤ 32)
    (hw : st.rawRankMinWordSize_ ≤ w.length) :
    (∃ n, toInt (rate2 pow st w) = some n ∧ 1 ≤ n ∧ n ≤ INT_MAX) ↔
      ¬ Critical st.rawRankMinWordSize_ w.length := by
  have hcut := rate_le_iff (w := w) hleast
  by_cases hover : rate st w ≤ 16
  · have hlen := hcut.mp hover
    have hrate2 : rate2 pow st w = pow 4 (rate st w) := if_neg (not_lt.mpr hover)
    have hr0 : rate st w = 0 ∨ 1 / 64 ≤ rate st w := by
      rcases rate_off hleast hle w 0 with ⟨hlt, -⟩ | ⟨-, heq⟩ | ⟨-, hge⟩
      · omega
      · exact Or.inl (by simpa using heq)
      · exact Or.inr (by simpa using hge)
    have hr : 0 ≤ rate st w := by
      rcases hr0 with hr0 | hr0
      · exact hr0.ge
      · exact le_trans (by norm_num) hr0
    rw [hrate2, toInt_eq_some_iff (hpow.one_le hr0 hover)]
    have hedge := rate_off hleast hle w 31
    rw [hpow.lt_iff hr hover (hedge.imp And.right (Or.imp And.right And.right))]
    unfold Critical
    rcases hedge with ⟨hlt, hoff⟩ | ⟨heq, hoff⟩ | ⟨hgt, hoff⟩
    · exact iff_of_true (lt_of_lt_of_le (by norm_num) hoff) (by omega)
    · exact iff_of_false hoff.not_lt (by omega)
    · exact iff_of_false (not_lt.mpr (le_trans (by norm_num) hoff)) (by omega)
  · have hrate2 : rate2 pow st w = 1 := if_pos (not_le.mp hover)
    rw [hrate2, toInt_eq_some_iff le_rfl]
    refine iff_of_true (by norm_num) (fun hband => ?_)
    exact hover (hcut.mpr hband.2)

end Band

/-! ## What `getRawRank` leaves -/

section Collected

variable {pred : Str → ℚ} {st : RawRank}

/-- Each word with its weight, and the least of their lengths, if it is below `32`. -/
structure Collected (pred : Str → ℚ) (st : RawRank) : Prop where
  le : st.rawRankMinWordSize_ ≤ 32
  least : ∀ w ∈ st.phoenixRank_, st.rawRankMinWordSize_ ≤ w.length
  attained : st.rawRankMinWordSize_ = 32 ∨
    ∃ w ∈ st.phoenixRank_, w.length = st.rawRankMinWordSize_
  weights : ∀ w ∈ st.phoenixRank_, st.phoenixRank_[w]? = some (pred w, pred w)

theorem collected_nil : Collected pred ⟨32, ∅⟩ where
  le := le_rfl
  least := fun _ hw => absurd hw Std.TreeMap.not_mem_emptyc
  attained := Or.inl rfl
  weights := fun _ hw => absurd hw Std.TreeMap.not_mem_emptyc

theorem Collected.pushRank (h : Collected pred st) (word : Str) :
    Collected pred (pushRank pred st word) := by
  unfold QiangbaoWord.pushRank
  by_cases hpos : pred word > 0
  · rw [if_pos hpos]
    have hmem {w : Str} : w ∈ st.phoenixRank_.insert word (pred word, pred word) ↔
        w = word ∨ w ∈ st.phoenixRank_ := by
      rw [Std.TreeMap.mem_insert, Std.LawfulEqCmp.compare_eq_iff_eq, eq_comm]
    have hmin : (if st.rawRankMinWordSize_ > word.length then word.length
        else st.rawRankMinWordSize_) = min st.rawRankMinWordSize_ word.length := by
      rcases Nat.lt_or_ge word.length st.rawRankMinWordSize_ with hlt | hge
      · rw [if_pos hlt, Nat.min_eq_right hlt.le]
      · rw [if_neg (Nat.not_lt.mpr hge), Nat.min_eq_left hge]
    rw [hmin]
    constructor
    · exact (Nat.min_le_left _ _).trans h.le
    · intro w hw
      rcases hmem.mp hw with rfl | hw
      · exact Nat.min_le_right _ _
      · exact (Nat.min_le_left _ _).trans (h.least w hw)
    · rcases Nat.lt_or_ge word.length st.rawRankMinWordSize_ with hlt | hge
      · exact Or.inr ⟨word, hmem.mpr (Or.inl rfl), (Nat.min_eq_right hlt.le).symm⟩
      · rw [Nat.min_eq_left hge]
        rcases h.attained with hall | ⟨w, hw, hlen⟩
        · exact Or.inl hall
        · exact Or.inr ⟨w, hmem.mpr (Or.inr hw), hlen⟩
    · intro w hw
      rw [Std.TreeMap.getElem?_insert]
      by_cases heq : word = w
      · rw [if_pos (Std.LawfulEqCmp.compare_eq_iff_eq.mpr heq), heq]
      · have hne : ¬ compare word w = .eq := fun hcmp =>
          heq (Std.LawfulEqCmp.compare_eq_iff_eq.mp hcmp)
        rw [if_neg hne]
        exact h.weights w ((hmem.mp hw).resolve_left (Ne.symm heq))
  · rw [if_neg hpos]
    exact h

theorem Collected.joinBack : ∀ (pre : List Str) (jointWord : Str) {st : RawRank},
    Collected pred st → Collected pred (joinBack pred pre jointWord st)
  | [], _, _, h => h
  | it :: rest, jointWord, _, h =>
      Collected.joinBack rest (it ++ jointWord) (h.pushRank (it ++ jointWord))

theorem Collected.rankFrom : ∀ (Bytes preWords : List Str) {st : RawRank},
    Collected pred st → Collected pred (rankFrom pred Bytes preWords st)
  | [], _, _, h => h
  | word :: Bytes, preWords, _, h =>
      Collected.rankFrom Bytes (pushPreWord preWords word)
        ((h.joinBack preWords.reverse word).pushRank word)

theorem collected_getRawRank (pred : Str → ℚ) (Bytes : List Str) :
    Collected pred (getRawRank pred Bytes) := collected_nil.rankFrom Bytes []

/-- Each weight is multiplied once. -/
theorem Collected.adjustRank (h : Collected pred st) (pow : ℚ → ℚ → ℚ) {w : Str}
    (hw : w ∈ st.phoenixRank_) :
    (adjustRank pow st)[w]? = some (pred w * truncate (rate2 pow st w), pred w) := by
  unfold QiangbaoWord.adjustRank
  rw [Map.getElem?_foldl_insert
    (fun w => (pred w * truncate (rate2 pow st w), pred w)) w, if_pos]
  · exact Map.mem_iff_exists_toList.mp hw
  · intro r hr
    have hget := Std.TreeMap.mem_toList_iff_getElem?_eq_some.mp hr
    have hmem : r.1 ∈ st.phoenixRank_ :=
      Std.TreeMap.mem_iff_isSome_getElem?.mpr (by rw [hget]; rfl)
    have hweight : r.2 = (pred r.1, pred r.1) :=
      Option.some.inj (hget.symm.trans (h.weights r.1 hmem))
    rw [hweight]
    rfl

end Collected

/-! ## A whole run -/

section WholeRun

variable {pow : ℚ → ℚ → ℚ} {pred : Str → ℚ} {Bytes : List Str} {text : Str}

/-- The dictionary knows the word, and the run has it as a window. -/
def Found (pred : Str → ℚ) (Bytes : List Str) (w : Str) : Prop :=
  0 < pred w ∧ ∃ p, WindowAt true Bytes w p

/-- No found word is shorter. -/
def ShortestFound (pred : Str → ℚ) (Bytes : List Str) (v : Str) : Prop :=
  Found pred Bytes v ∧ ∀ u, Found pred Bytes u → v.length ≤ u.length

theorem emits_size (h : CtrlClaw.Emits Bytes text) : ∀ t ∈ Bytes, t.length ≤ 6 := by
  obtain ⟨c, c', article, hclaw, hmem⟩ := h
  obtain ⟨c'', hclaw', -, hspelled⟩ := CtrlClaw.claw_entries c article
  obtain rfl : c' = c'' := Option.some.inj (hclaw.symm.trans hclaw')
  intro t ht
  exact (parseUTF8From_size article 0 t
    (CtrlClaw.mem_characters_of_entry hspelled hmem ht)).2

theorem length_flatten_le {n : ℕ} : ∀ {l : List Str}, (∀ t ∈ l, t.length ≤ n) →
    l.flatten.length ≤ n * l.length
  | [], _ => Nat.zero_le _
  | t :: l, hl => by
      obtain ⟨ht, hl⟩ := List.forall_mem_cons.mp hl
      have ih := length_flatten_le hl
      rw [List.flatten_cons, List.length_append, List.length_cons, Nat.mul_succ]
      omega

/-- A window has at most 32 characters of at most six bytes. -/
theorem found_length (h : CtrlClaw.Emits Bytes text) {w : Str} (hw : Found pred Bytes w) :
    0 < w.length ∧ w.length ≤ 192 := by
  obtain ⟨-, p, hwin⟩ := hw
  refine ⟨hwin.word_ne_nil h.run.ne_nil, ?_⟩
  obtain ⟨pre, mid, suf, rfl, -, hhi, rfl, -⟩ := hwin
  have hsize : ∀ t ∈ mid, t.length ≤ 6 := fun t ht => emits_size h t (by simp [ht])
  exact (length_flatten_le hsize).trans (Nat.mul_le_mul_left 6 hhi)

/-- One word's multiplier, with the least length as the loops have it. -/
theorem sound_iff_of_found (hpow : PowSound pow) (h : CtrlClaw.Emits Bytes text) :
    SoundMultipliers pow pred Bytes ↔ ∀ w, Found pred Bytes w →
      ¬ Critical (getRawRank pred Bytes).rawRankMinWordSize_ w.length := by
  have hst := collected_getRawRank pred Bytes
  have hfound {w : Str} : w ∈ (getRawRank pred Bytes).phoenixRank_ ↔ Found pred Bytes w :=
    mem_getRawRank
  have hpos : 0 < (getRawRank pred Bytes).rawRankMinWordSize_ := by
    rcases hst.attained with hall | ⟨v, hv, hlen⟩
    · rw [hall]
      decide
    · rw [← hlen]
      exact (found_length h (hfound.mp hv)).1
  constructor
  · intro hsound w hw
    obtain ⟨n, hn, hone, hle, -⟩ := hsound w (hfound.mpr hw)
    exact (multiplier_iff hpow hpos hst.le (hst.least w (hfound.mpr hw))).mp ⟨n, hn, hone, hle⟩
  · intro hband w hw
    have hweight : 0 < pred w := (hfound.mp hw).1
    obtain ⟨n, hn, hone, hle⟩ :=
      (multiplier_iff hpow hpos hst.le (hst.least w hw)).mpr (hband w (hfound.mp hw))
    have htrunc : truncate (rate2 pow (getRawRank pred Bytes) w) = n := by
      unfold toInt at hn
      split at hn
      · exact Option.some.inj hn
      · cases hn
    refine ⟨n, hn, hone, hle, ?_, ?_⟩
    · rw [hst.adjustRank pow hw, htrunc]
    · exact mul_pos hweight (by exact_mod_cast hone)

/-- The least length of the loops is that of a shortest found word, unless all are longer
than any word in the band could be. -/
theorem critical_iff (h : CtrlClaw.Emits Bytes text) {v w : Str}
    (hv : ShortestFound pred Bytes v) (hw : Found pred Bytes w) :
    Critical (getRawRank pred Bytes).rawRankMinWordSize_ w.length ↔
      Critical v.length w.length := by
  have hst := collected_getRawRank pred Bytes
  have hleast := hst.least v (mem_getRawRank.mpr hv.1)
  rcases hst.attained with hall | ⟨u, hu, hlen⟩
  · have hlong := (found_length h hw).2
    rw [hall] at hleast ⊢
    unfold Critical
    exact iff_of_false (by omega) (by omega)
  · have hle := hv.2 u (mem_getRawRank.mp hu)
    rw [← hlen] at hleast ⊢
    rw [Nat.le_antisymm hleast hle]

theorem exists_shortest {w : Str} (hw : Found pred Bytes w) :
    ∃ v, ShortestFound pred Bytes v := by
  obtain ⟨v, hv, hmin⟩ := (measure List.length).wf.has_min {u | Found pred Bytes u} ⟨w, hw⟩
  exact ⟨v, hv, fun u hu => Nat.le_of_not_lt (hmin u hu)⟩

/-- **Every multiplier of a run is a positive `int` exactly when no found word is from
16.5 to 17 times as long as the shortest one.** -/
theorem soundMultipliers_iff (hpow : PowSound pow) (h : CtrlClaw.Emits Bytes text) :
    SoundMultipliers pow pred Bytes ↔ ∀ v w, ShortestFound pred Bytes v →
      Found pred Bytes w → ¬ Critical v.length w.length := by
  rw [sound_iff_of_found hpow h]
  constructor
  · intro hband v w hv hw hcritical
    exact hband w hw ((critical_iff h hv hw).mpr hcritical)
  · intro hband w hw hcritical
    obtain ⟨v, hv⟩ := exists_shortest hw
    exact hband v w hv hw ((critical_iff h hv hw).mp hcritical)

end WholeRun

/-! ## A power, and a run in the band -/

/-- `pow` to the base `4`: exact at half integers, linear between them. -/
def halfPow (_ r : ℚ) : ℚ := 2 ^ ⌊2 * r⌋₊ * (1 + (2 * r - ⌊2 * r⌋₊))

theorem halfPow_sound : PowSound halfPow where
  exact := by
    intro k _
    have hfloor : ⌊2 * ((k : ℚ) / 2)⌋₊ = k := by
      rw [mul_div_cancel₀ (k : ℚ) two_ne_zero, Nat.floor_natCast]
    rw [halfPow, hfloor]
    ring
  separated := by
    intro r r' h0 _ hstep
    have hlt : 2 * r < 2 * r' := by linarith
    have hx : (0 : ℚ) ≤ 2 * r := by linarith
    unfold halfPow
    generalize 2 * r = x at *
    generalize 2 * r' = x' at *
    have hlow' := Nat.floor_le (hx.trans hlt.le)
    have hhigh := Nat.lt_floor_add_one x
    have hpow : (0 : ℚ) < 2 ^ ⌊x⌋₊ := by positivity
    rcases (Nat.floor_mono hlt.le).eq_or_lt with heq | hless
    · rw [← heq]
      exact mul_lt_mul_of_pos_left (by linarith) hpow
    · calc (2 : ℚ) ^ ⌊x⌋₊ * (1 + (x - ⌊x⌋₊)) < 2 ^ ⌊x⌋₊ * 2 :=
            mul_lt_mul_of_pos_left (by linarith) hpow
        _ = 2 ^ (⌊x⌋₊ + 1) := (pow_succ _ _).symm
        _ ≤ 2 ^ ⌊x'⌋₊ := pow_le_pow_right₀ (by norm_num) hless
        _ ≤ 2 ^ ⌊x'⌋₊ * (1 + (x' - ⌊x'⌋₊)) :=
            le_mul_of_one_le_right (by positivity) (by linarith)

/-- Two characters and their pair: the multipliers are `1` and `4`. -/
theorem soundMultipliers_iff_pair :
    SoundMultipliers halfPow pairDictionary.getDoublePred [charX, charY] ↔
      ∀ v w, ShortestFound pairDictionary.getDoublePred [charX, charY] v →
        Found pairDictionary.getDoublePred [charX, charY] w →
        ¬ Critical v.length w.length :=
  soundMultipliers_iff halfPow_sound pair_emits

def longBytes : List Str := List.replicate 17 charX

/-- A dictionary with one character and a word of 17 characters. -/
def longDictionary : Dictionary := halfDictionary [charX, longBytes.flatten]

theorem halfDictionary_pos {words : List Str} {w : Str} :
    0 < (halfDictionary words).getDoublePred w ↔ w ∈ words := by
  show (0 : ℚ) < (if w ∈ words then 1 / 2 else -1) ↔ _
  split
  · rename_i hw
    exact iff_of_true (by norm_num) hw
  · rename_i hw
    exact iff_of_false (by norm_num) hw

theorem long_emits : CtrlClaw.Emits longBytes longBytes.flatten := by
  have hchars : characters longBytes.flatten = longBytes := by with_unfolding_all decide
  have hne : longBytes.flatten ≠ [] := by decide
  have hemits := CtrlClaw.emits_of_ordinary hne (by rw [hchars]; decide)
  rwa [hchars] at hemits

/-- The rate of the long word is `16`, which the cut-off lets pass, and `4^16` is no
`int`. -/
theorem long_not_sound : CtrlClaw.Emits longBytes longBytes.flatten ∧ PowSound halfPow ∧
    ¬ SoundMultipliers halfPow longDictionary.getDoublePred longBytes := by
  refine ⟨long_emits, halfPow_sound, fun hsound => ?_⟩
  have hlong : Found longDictionary.getDoublePred longBytes longBytes.flatten :=
    ⟨halfDictionary_pos.mpr (by simp), 0, [], longBytes, [], by simp, by decide, by decide,
      rfl, rfl⟩
  have hchar : Found longDictionary.getDoublePred longBytes charX :=
    ⟨halfDictionary_pos.mpr (by simp), 0, [], [charX], List.replicate 16 charX, rfl,
      by decide, by decide, by decide, rfl⟩
  have hshortest : ShortestFound longDictionary.getDoublePred longBytes charX := by
    refine ⟨hchar, fun u hu => ?_⟩
    have hword : u ∈ [charX, longBytes.flatten] := halfDictionary_pos.mp hu.1
    rcases List.mem_pair.mp hword with rfl | rfl
    · exact le_rfl
    · decide
  refine (sound_iff_of_found halfPow_sound long_emits).mp hsound _ hlong ?_
  rw [critical_iff long_emits hshortest hlong]
  decide

end QiangbaoWord

end WaiNative

import WaiNative.Cxx.Decimal
import Mathlib.Data.Rat.Floor
import Mathlib.Algebra.Order.Floor.Ring
import Mathlib.Tactic.Linarith
import Mathlib.Tactic.NormNum
import Mathlib.Tactic.FieldSimp
import Mathlib.Tactic.Ring

/-!
# Doubles as text with six decimals

`std::to_string(double)` and the part of `std::stod` that reads such a text. A
double is taken as an exact rational number; writing it rounds to a multiple of
one millionth, ties to even. `printf` rounds the binary double itself, so that where
the rational is a tie (1/640) the last digit may be the other one; no proof uses which
way a tie goes.

- `stod_toFixed`: what is read back is the rounded number;
- `rounded_mono`, `rounded_pos_iff`: rounding keeps the order, and keeps a number
  positive exactly when it is above half a millionth.
-/

namespace WaiNative.Cxx

/-- The nearest integer, ties to even. -/
def roundHalfEven (q : ℚ) : ℤ :=
  if q - ⌊q⌋ < 1 / 2 ∨ (q - ⌊q⌋ = 1 / 2 ∧ ⌊q⌋ % 2 = 0) then ⌊q⌋ else ⌊q⌋ + 1

/-- The nearest multiple of one millionth. -/
def rounded (x : ℚ) : ℚ := roundHalfEven (x * 1000000) / 1000000

/-- The six digits behind the point. -/
def sixDigits (n : ℕ) : Str :=
  [n / 100000, n / 10000, n / 1000, n / 100, n / 10, n].map (fun d => digitChar (d % 10))

/-- `std::to_string` of a double. -/
def toFixed (x : ℚ) : Str :=
  let n := (roundHalfEven (|x| * 1000000)).toNat
  let digits := toChars (n / 1000000) ++ [46] ++ sixDigits (n % 1000000)
  if x < 0 then 45 :: digits else digits

/-- The digits behind the point, if there is one. -/
def fraction (s : Str) : Str :=
  match s with
  | 46 :: cs => cs.takeWhile isDigit
  | _ => []

/-- `std::stod`, without the exponents, hexadecimal numbers and infinities that it
reads too and `std::to_string` never writes. -/
def stod (s : Str) : Option ℚ :=
  let (negative, rest) := scanSign (s.dropWhile isSpace)
  let whole := rest.takeWhile isDigit
  let digits := fraction (rest.dropWhile isDigit)
  if whole = [] ∧ digits = [] then none
  else
    let x : ℚ := valueOf whole + valueOf digits / 10 ^ digits.length
    some (if negative then -x else x)

/-! ## Rounding -/

section Rounding

theorem roundHalfEven_floor (q : ℚ) :
    roundHalfEven q = ⌊q⌋ ∨ roundHalfEven q = ⌊q⌋ + 1 := by
  unfold roundHalfEven
  split
  · exact Or.inl rfl
  · exact Or.inr rfl

theorem roundHalfEven_mono {q r : ℚ} (h : q ≤ r) :
    roundHalfEven q ≤ roundHalfEven r := by
  rcases (Int.floor_mono h).lt_or_eq with hlt | heq
  · rcases roundHalfEven_floor q with hq | hq <;>
      rcases roundHalfEven_floor r with hr | hr <;> omega
  · -- with the same floor, the larger remainder decides
    unfold roundHalfEven
    rw [heq]
    split
    · split <;> omega
    · rename_i hq
      rw [if_neg]
      rintro (hr | ⟨hr, heven⟩)
      · exact hq (Or.inl (by linarith))
      · rcases h.lt_or_eq with hlt | rfl
        · exact hq (Or.inl (by linarith))
        · exact hq (Or.inr ⟨hr, heven⟩)

theorem roundHalfEven_zero : roundHalfEven 0 = 0 := by with_unfolding_all decide

theorem roundHalfEven_nonneg {q : ℚ} (h : 0 ≤ q) : 0 ≤ roundHalfEven q := by
  rw [← roundHalfEven_zero]
  exact roundHalfEven_mono h

/-- Half is rounded down to zero. -/
theorem roundHalfEven_pos_iff {q : ℚ} (h : 0 ≤ q) : 0 < roundHalfEven q ↔ 1 / 2 < q := by
  constructor
  · intro hpos
    by_contra hle
    have hmono := roundHalfEven_mono (not_lt.mp hle)
    have hhalf : roundHalfEven (1 / 2) = 0 := by with_unfolding_all decide
    omega
  · intro hhalf
    rcases roundHalfEven_floor q with hq | hq
    · by_contra hnot
      have hfloor : ⌊q⌋ = 0 := by
        have hle := Int.floor_nonneg.mpr h
        omega
      unfold roundHalfEven at hnot
      rw [hfloor, if_neg] at hnot
      · exact hnot (by decide)
      · rintro (hlt | ⟨heq, -⟩) <;> simp only [Int.cast_zero, sub_zero] at * <;> linarith
    · have hle := Int.floor_nonneg.mpr h
      omega

theorem rounded_mono {x y : ℚ} (h : x ≤ y) : rounded x ≤ rounded y := by
  have hround := roundHalfEven_mono (q := x * 1000000) (r := y * 1000000) (by linarith)
  have hcast : (roundHalfEven (x * 1000000) : ℚ) ≤ roundHalfEven (y * 1000000) := by
    exact_mod_cast hround
  unfold rounded
  linarith

/-- **A number stays positive exactly when it is above half a millionth.** -/
theorem rounded_pos_iff {x : ℚ} (h : 0 ≤ x) : 0 < rounded x ↔ 1 / 2000000 < x := by
  have hround := roundHalfEven_pos_iff (q := x * 1000000) (by linarith)
  have hcast : 0 < rounded x ↔ 0 < roundHalfEven (x * 1000000) := by
    unfold rounded
    rw [div_pos_iff_of_pos_right (by norm_num), Int.cast_pos]
  rw [hcast, hround]
  constructor <;> intro hlt <;> linarith

end Rounding

/-! ## Reading back -/

section RoundTrip

theorem sixDigits_isDigit (n : ℕ) : ∀ c ∈ sixDigits n, isDigit c = true := by
  intro c hc
  obtain ⟨d, -, rfl⟩ := List.mem_map.mp hc
  exact isDigit_digitChar (Nat.mod_lt _ (by decide))

theorem valueOf_sixDigits {n : ℕ} (h : n < 1000000) : valueOf (sixDigits n) = n := by
  have hdigit : ∀ d : ℕ, (digitChar (d % 10)).toNat - 48 = d % 10 := by
    intro d
    rw [toNat_digitChar (Nat.mod_lt _ (by decide)), Nat.add_sub_cancel_left]
  simp only [valueOf, sixDigits, List.map_cons, List.map_nil, List.foldl_cons,
    List.foldl_nil, hdigit]
  omega

/-- Digits, a point and six digits are read as their number. -/
theorem stod_digits {w : Str} (hw : ∀ c ∈ w, isDigit c = true) (hne : w ≠ []) (n : ℕ) :
    stod (w ++ [46] ++ sixDigits n) =
      some ((valueOf w : ℚ) + (valueOf (sixDigits n) : ℚ) / 1000000) := by
  obtain ⟨c, cs, rfl⟩ := List.exists_cons_of_ne_nil hne
  have hc := hw c List.mem_cons_self
  have hdrop : (c :: cs ++ [46] ++ sixDigits n).dropWhile isSpace =
      c :: cs ++ [46] ++ sixDigits n := by
    rw [List.cons_append, List.cons_append, List.dropWhile_cons_of_neg]
    simpa using isSpace_of_isDigit hc
  have htake : (c :: cs ++ [46] ++ sixDigits n).takeWhile isDigit = c :: cs := by
    rw [List.append_assoc, List.takeWhile_append_of_pos hw, List.singleton_append,
      List.takeWhile_cons_of_neg (by decide), List.append_nil]
  have hrest : (c :: cs ++ [46] ++ sixDigits n).dropWhile isDigit =
      46 :: sixDigits n := by
    rw [List.append_assoc, List.dropWhile_append_of_pos hw, List.singleton_append,
      List.dropWhile_cons_of_neg (by decide)]
  have hfraction : fraction (46 :: sixDigits n) = sixDigits n :=
    List.takeWhile_eq_self_iff.mpr (sixDigits_isDigit n)
  have hsign : scanSign (c :: cs ++ [46] ++ sixDigits n) =
      (false, c :: cs ++ [46] ++ sixDigits n) := scanSign_of_isDigit hc _
  have hlen : (sixDigits n).length = 6 := rfl
  unfold stod
  rw [hdrop, hsign]
  simp only [htake, hrest, hfraction, hlen]
  rw [if_neg (by simp)]
  norm_num

/-- **A written double is read back rounded.** -/
theorem stod_toFixed {x : ℚ} (h : 0 ≤ x) : stod (toFixed x) = some (rounded x) := by
  have hneg : ¬ x < 0 := not_lt.mpr h
  unfold toFixed
  rw [abs_of_nonneg h]
  simp only [if_neg hneg]
  rw [stod_digits (toChars_isDigit _) (toChars_ne_nil _), valueOf_toChars,
    valueOf_sixDigits (Nat.mod_lt _ (by decide))]
  have hround := roundHalfEven_nonneg (q := x * 1000000) (by linarith)
  have hcast : ((roundHalfEven (x * 1000000)).toNat : ℚ) = roundHalfEven (x * 1000000) := by
    exact_mod_cast Int.toNat_of_nonneg hround
  generalize (roundHalfEven (x * 1000000)).toNat = n at hcast
  unfold rounded
  rw [← hcast]
  have hdiv : (n : ℚ) = 1000000 * (n / 1000000 : ℕ) + (n % 1000000 : ℕ) := by
    exact_mod_cast (Nat.div_add_mod n 1000000).symm
  congr 1
  rw [hdiv]
  field_simp

end RoundTrip

end WaiNative.Cxx

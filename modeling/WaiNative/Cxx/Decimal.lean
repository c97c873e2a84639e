import WaiNative.Cxx.Strings
import Mathlib.Data.Nat.Digits.Defs
import Mathlib.Data.List.TakeWhile
import Mathlib.Tactic.Common

/-!
# Numbers as decimal text

`std::to_string`, `std::stoi` and `std::stoull`. A conversion that throws
(`std::invalid_argument`, `std::out_of_range`) returns `none`; text behind the
number is ignored, as the library does.

- `valueOf_toChars`: the digits of a number have its value;
- `stoi_to_string`, `stoull_to_string`: what a conversion gives back of a
  written number.
-/

namespace WaiNative.Cxx

/-- The largest `int`. -/
def INT_MAX : ℤ := 2147483647

/-- The number of values of a 64-bit integer. -/
def twoPow64 : ℕ := 18446744073709551616

/-! ## Writing -/

def digitChar (d : ℕ) : UInt8 := UInt8.ofNat (48 + d)

/-- The decimal digits of a number, without leading zeros. -/
def toChars (n : ℕ) : Str :=
  if n = 0 then [48] else ((Nat.digits 10 n).reverse).map digitChar

/-- `std::to_string` of an integer. -/
def to_string (n : ℤ) : Str :=
  if n < 0 then 45 :: toChars n.natAbs else toChars n.natAbs

/-! ## Reading -/

def isDigit (c : UInt8) : Bool := 48 ≤ c && c ≤ 57

/-- `isspace` of the classic locale. -/
def isSpace (c : UInt8) : Bool := c == 32 || (9 ≤ c && c ≤ 13)

/-- The value of a digit string. -/
def valueOf (s : Str) : ℕ := s.foldl (fun v c => 10 * v + (c.toNat - 48)) 0

/-- An optional sign, and the text behind it. -/
def scanSign (s : Str) : Bool × Str :=
  match s with
  | c :: cs => if c = 45 then (true, cs) else if c = 43 then (false, cs) else (false, s)
  | [] => (false, [])

/-- What `strtol` and `strtoull` read: white space, a sign and digits; `none`
when there is no digit. -/
def scanInt (s : Str) : Option (Bool × ℕ) :=
  let (negative, rest) := scanSign (s.dropWhile isSpace)
  let digits := rest.takeWhile isDigit
  if digits = [] then none else some (negative, valueOf digits)

/-- A value with its sign. -/
def signed (negative : Bool) (v : ℕ) : ℤ := if negative then -(v : ℤ) else v

/-- `std::stoi`. -/
def stoi (s : Str) : Option ℤ := do
  let (negative, v) ← scanInt s
  let n := signed negative v
  if -INT_MAX - 1 ≤ n ∧ n ≤ INT_MAX then some n else none

/-- `std::stoull`; a sign negates modulo `2 ^ 64`. -/
def stoull (s : Str) : Option ℕ := do
  let (negative, v) ← scanInt s
  if v < twoPow64 then some (if negative then (twoPow64 - v) % twoPow64 else v)
  else none

/-! ## Digits -/

section Digits

theorem toNat_digitChar {d : ℕ} (h : d < 10) : (digitChar d).toNat = 48 + d := by
  rw [digitChar, UInt8.toNat_ofNat']
  omega

theorem isDigit_digitChar {d : ℕ} (h : d < 10) : isDigit (digitChar d) = true := by
  have hle : (48 : UInt8) ≤ digitChar d ∧ digitChar d ≤ 57 := by
    rw [UInt8.le_iff_toNat_le, UInt8.le_iff_toNat_le, toNat_digitChar h]
    exact ⟨Nat.le_add_right _ _, by simpa using (by omega : 48 + d ≤ 57)⟩
  simp [isDigit, hle]

theorem valueOf_append_singleton (s : Str) (c : UInt8) :
    valueOf (s ++ [c]) = 10 * valueOf s + (c.toNat - 48) := by
  simp [valueOf, List.foldl_append]

/-- Digits in place have the value of their number. -/
theorem valueOf_digits : ∀ {l : List ℕ}, (∀ d ∈ l, d < 10) →
    valueOf (l.reverse.map digitChar) = Nat.ofDigits 10 l
  | [], _ => rfl
  | d :: l, h => by
      have hd := h d List.mem_cons_self
      have hl := valueOf_digits (fun x hx => h x (List.mem_cons_of_mem _ hx))
      rw [List.reverse_cons, List.map_append, List.map_singleton,
        valueOf_append_singleton, hl, toNat_digitChar hd, Nat.ofDigits_cons,
        Nat.add_sub_cancel_left, Nat.add_comm]

theorem toChars_isDigit (n : ℕ) : ∀ c ∈ toChars n, isDigit c = true := by
  unfold toChars
  split
  · intro c hc
    rw [List.mem_singleton.mp hc]
    rfl
  · intro c hc
    obtain ⟨d, hd, rfl⟩ := List.mem_map.mp hc
    exact isDigit_digitChar (Nat.digits_lt_base (by decide) (List.mem_reverse.mp hd))

theorem toChars_ne_nil (n : ℕ) : toChars n ≠ [] := by
  unfold toChars
  split
  · decide
  · rename_i hn
    simpa using Nat.digits_ne_nil_iff_ne_zero.mpr hn

/-- **The digits of a number have its value.** -/
theorem valueOf_toChars (n : ℕ) : valueOf (toChars n) = n := by
  unfold toChars
  split
  · rename_i hn
    rw [hn]
    rfl
  · rw [valueOf_digits (fun d hd => Nat.digits_lt_base (by decide) hd),
      Nat.ofDigits_digits]

theorem isSpace_of_isDigit {c : UInt8} (h : isDigit c = true) : isSpace c = false := by
  simp only [isDigit, isSpace, Bool.and_eq_true, decide_eq_true_eq,
    UInt8.le_iff_toNat_le, Bool.or_eq_false_iff, beq_eq_false_iff_ne, ne_eq,
    Bool.and_eq_false_iff, decide_eq_false_iff_not] at h ⊢
  refine ⟨?_, Or.inr ?_⟩
  · rintro rfl
    exact absurd h (by decide)
  · have h13 : (13 : UInt8).toNat = 13 := rfl
    have h48 : (48 : UInt8).toNat = 48 := rfl
    omega

theorem scanSign_of_isDigit {c : UInt8} (h : isDigit c = true) (s : Str) :
    scanSign (c :: s) = (false, c :: s) := by
  have hminus : c ≠ 45 := by
    rintro rfl
    exact absurd h (by decide)
  have hplus : c ≠ 43 := by
    rintro rfl
    exact absurd h (by decide)
  rw [scanSign, if_neg hminus, if_neg hplus]

/-- Digits up to the first other byte are read as their number. -/
theorem scanInt_digits {s rest : Str} (hs : ∀ c ∈ s, isDigit c = true) (hne : s ≠ [])
    (hrest : ∀ c ∈ rest.head?, isDigit c = false) :
    scanInt (s ++ rest) = some (false, valueOf s) := by
  obtain ⟨c, cs, rfl⟩ := List.exists_cons_of_ne_nil hne
  have hc := hs c List.mem_cons_self
  have htake : (c :: cs ++ rest).takeWhile isDigit = c :: cs := by
    rw [List.takeWhile_append_of_pos hs]
    cases rest with
    | nil => simp
    | cons d rest => simp [hrest d rfl]
  have hdrop : (c :: cs ++ rest).dropWhile isSpace = c :: cs ++ rest := by
    rw [List.cons_append, List.dropWhile_cons_of_neg]
    simpa using isSpace_of_isDigit hc
  rw [scanInt, hdrop, List.cons_append, scanSign_of_isDigit hc, ← List.cons_append]
  simp only [htake, if_neg hne]

theorem scanInt_negative {s : Str} (hs : ∀ c ∈ s, isDigit c = true) (hne : s ≠ []) :
    scanInt (45 :: s) = some (true, valueOf s) := by
  have htake : s.takeWhile isDigit = s := List.takeWhile_eq_self_iff.mpr hs
  have hdrop : (45 :: s).dropWhile isSpace = 45 :: s :=
    List.dropWhile_cons_of_neg (by decide)
  have hsign : scanSign (45 :: s) = (true, s) := rfl
  rw [scanInt, hdrop, hsign]
  simp only [htake, if_neg hne]

end Digits

/-! ## Round trips -/

theorem scanInt_to_string (n : ℤ) :
    scanInt (to_string n) = some (decide (n < 0), n.natAbs) := by
  have hdigit := toChars_isDigit n.natAbs
  have hne := toChars_ne_nil n.natAbs
  unfold to_string
  split
  · rename_i hneg
    rw [scanInt_negative hdigit hne, valueOf_toChars, decide_eq_true hneg]
  · rename_i hneg
    have hscan : scanInt (toChars n.natAbs ++ []) =
        some (false, valueOf (toChars n.natAbs)) := scanInt_digits hdigit hne (by simp)
    rw [List.append_nil] at hscan
    rw [hscan, valueOf_toChars, decide_eq_false hneg]

theorem signed_natAbs (n : ℤ) : signed (decide (n < 0)) n.natAbs = n := by
  unfold signed
  by_cases hneg : n < 0
  · rw [decide_eq_true hneg, if_pos rfl, Int.ofNat_natAbs_of_nonpos hneg.le, Int.neg_neg]
  · rw [decide_eq_false hneg, if_neg Bool.false_ne_true,
      Int.natAbs_of_nonneg (Int.not_lt.mp hneg)]

/-- **`stoi` reads back exactly the numbers in the range of `int`.** -/
theorem stoi_to_string (n : ℤ) :
    stoi (to_string n) = if -INT_MAX - 1 ≤ n ∧ n ≤ INT_MAX then some n else none := by
  rw [stoi, scanInt_to_string, Option.bind_eq_bind, Option.bind_some]
  simp only [signed_natAbs]

theorem stoi_range {s : Str} {n : ℤ} (h : stoi s = some n) : n ≤ INT_MAX := by
  simp only [stoi, Option.bind_eq_bind, Option.bind_eq_some_iff] at h
  obtain ⟨⟨negative, v⟩, -, h⟩ := h
  obtain ⟨hrange, hn⟩ := Option.ite_none_right_eq_some.mp h
  rw [← Option.some.inj hn]
  exact hrange.2

/-- `stoull` reads a written 64-bit integer back modulo `2 ^ 64`. -/
theorem stoull_to_string {n : ℤ} (hlo : -(twoPow64 : ℤ) < n) (hhi : n < twoPow64) :
    stoull (to_string n) = some (n % twoPow64).toNat := by
  have hlt : n.natAbs < twoPow64 := by omega
  rw [stoull, scanInt_to_string, Option.bind_eq_bind, Option.bind_some]
  simp only [if_pos hlt, Option.some.injEq]
  unfold twoPow64 at *
  split <;> rename_i hneg <;> simp only [decide_eq_true_eq, not_lt] at hneg <;> omega

end WaiNative.Cxx

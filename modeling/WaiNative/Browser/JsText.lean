import WaiNative.Cxx.Decimal
import Mathlib.Data.List.Forall2
import Mathlib.Data.Fintype.Basic
import Mathlib.Tactic.FinCases

/-!
# JavaScript strings and JSON text

Strings as sequences of UTF-16 units, their length in UTF-8, and what
`JSON.stringify` writes: `quote` for strings, `decimal` for numbers, `bracket` for
arrays and objects, with or without line breaks. Surrogates are not escaped, as in
Node 10, and numbers are integers below `2 ^ 53`.

Each part ends where it says: from a text that starts with it, it can be read off and
leaves the rest (`PrefixFree`), a number if no digit follows it.
-/

namespace WaiNative

open Cxx

/-- A JavaScript string. -/
abbrev JsString := List UInt16

/-- The units of a text without surrogates. -/
def units (text : String) : JsString := text.toList.map (fun c => UInt16.ofNat c.toNat)

/-! ## Length in UTF-8 -/

def isLeadSurrogate (u : UInt16) : Bool := 0xD800 ≤ u && u ≤ 0xDBFF

def isTrailSurrogate (u : UInt16) : Bool := 0xDC00 ≤ u && u ≤ 0xDFFF

/-- The bytes of a unit that is no half of a pair. -/
def unitLength (u : UInt16) : ℕ := if u < 0x80 then 1 else if u < 0x800 then 2 else 3

/-- `Buffer.byteLength(text)`. -/
def byteLength : JsString → ℕ
  | [] => 0
  | [u] => unitLength u
  | u :: v :: rest =>
      if isLeadSurrogate u && isTrailSurrogate v then 4 + byteLength rest
      else unitLength u + byteLength (v :: rest)

/-! ## Writing JSON -/

def hexDigit (d : UInt16) : UInt16 := if d < 10 then 48 + d else 87 + d

/-- A unit inside the quotes. -/
def escapeUnit (u : UInt16) : JsString :=
  if u = 34 then [92, 34]
  else if u = 92 then [92, 92]
  else if u = 8 then [92, 98]
  else if u = 9 then [92, 116]
  else if u = 10 then [92, 110]
  else if u = 12 then [92, 102]
  else if u = 13 then [92, 114]
  else if u < 32 then [92, 117, 48, 48, hexDigit (u / 16), hexDigit (u % 16)]
  else [u]

/-- `JSON.stringify` of a string. -/
def quote (s : JsString) : JsString := 34 :: (s.flatMap escapeUnit ++ [34])

/-- `JSON.stringify` of a number. -/
def decimal (n : ℕ) : JsString := (toChars n).map UInt8.toUInt16

/-- The line break in front of an item; `gap` is the third argument of
`JSON.stringify`. -/
def lineBreak (gap : Option ℕ) (depth : ℕ) : JsString :=
  match gap with
  | none => []
  | some gap => 10 :: List.replicate (gap * depth) 32

/-- The items between brackets, at `depth` levels of nesting. -/
def bracket (opening closing : UInt16) (gap : Option ℕ) (depth : ℕ) :
    List JsString → JsString
  | [] => [opening, closing]
  | item :: items =>
      opening :: (lineBreak gap (depth + 1) ++ item ++
        items.flatMap (fun item => 44 :: (lineBreak gap (depth + 1) ++ item)) ++
        lineBreak gap depth ++ [closing])

/-- An array of written items. -/
def jsonArray (gap : Option ℕ) (depth : ℕ) (items : List JsString) : JsString :=
  bracket 91 93 gap depth items

/-- An object of keys and written values. -/
def jsonObject (gap : Option ℕ) (depth : ℕ) (members : List (JsString × JsString)) :
    JsString :=
  bracket 123 125 gap depth (members.map (fun m =>
    quote m.1 ++ 58 :: ((if gap.isSome then [32] else []) ++ m.2)))

/-! ## Reading it off -/

/-- From a text that starts with it, the value can be read off. -/
def PrefixFree {α : Type} (write : α → JsString) : Prop :=
  ∀ a b r r', write a ++ r = write b ++ r' → a = b ∧ r = r'

section Strings

/-- The unit at the front of an escaped text, and what is behind it. -/
def unescape : JsString → Option (UInt16 × JsString)
  | 92 :: 117 :: 48 :: 48 :: h :: l :: r =>
      some ((if h < 58 then h - 48 else h - 87) * 16 + (if l < 58 then l - 48 else l - 87), r)
  | 92 :: u :: r =>
      some (if u = 98 then 8 else if u = 116 then 9 else if u = 110 then 10
        else if u = 102 then 12 else if u = 114 then 13 else u, r)
  | u :: r => some (u, r)
  | [] => none

/-- What is no control character, no quote and no backslash is written as it is. -/
theorem escapeUnit_plain {u : UInt16} (hcontrol : ¬ u < 32) (hquote : u ≠ 34)
    (hback : u ≠ 92) : escapeUnit u = [u] := by
  have hne : ∀ n : UInt16, n < 32 → u ≠ n := by
    rintro n hn rfl
    exact hcontrol hn
  simp only [escapeUnit, if_neg hquote, if_neg hback, if_neg (hne 8 (by decide)),
    if_neg (hne 9 (by decide)), if_neg (hne 10 (by decide)), if_neg (hne 12 (by decide)),
    if_neg (hne 13 (by decide)), if_neg hcontrol]

theorem unescape_escapeUnit (u : UInt16) (r : JsString) :
    unescape (escapeUnit u ++ r) = some (u, r) := by
  by_cases hcontrol : u < 32
  · have hcontrols : ∀ n : Fin 32, unescape (escapeUnit (UInt16.ofNat n) ++ r) =
        some (UInt16.ofNat n, r) := by
      intro n
      fin_cases n <;> rfl
    have hlt : u.toNat < 32 := UInt16.lt_iff_toNat_lt.mp hcontrol
    have heq := hcontrols ⟨u.toNat, hlt⟩
    rwa [UInt16.ofNat_toNat] at heq
  by_cases hquote : u = 34
  · subst hquote
    rfl
  by_cases hback : u = 92
  · subst hback
    rfl
  rw [escapeUnit_plain hcontrol hquote hback, List.singleton_append, unescape]
  · rintro h l r' heq -
    exact hback heq
  · rintro v r' heq -
    exact hback heq

/-- An escaped unit does not start with the closing quote. -/
theorem escapeUnit_ne_quote (u : UInt16) (r r' : JsString) :
    escapeUnit u ++ r ≠ 34 :: r' := by
  intro heq
  have hread := unescape_escapeUnit u r
  rw [heq] at hread
  obtain ⟨rfl, -⟩ := Prod.mk.inj (Option.some.inj hread)
  exact absurd (List.cons.inj heq).1 (by decide)

/-- A string ends with its closing quote. -/
theorem quote_prefixFree : PrefixFree quote := by
  have hbody : ∀ a b r r' : JsString, a.flatMap escapeUnit ++ 34 :: r =
      b.flatMap escapeUnit ++ 34 :: r' → a = b ∧ r = r' := by
    intro a
    induction a with
    | nil =>
        intro b r r' heq
        cases b with
        | nil => exact ⟨rfl, (List.cons.inj heq).2⟩
        | cons v b =>
            rw [List.flatMap_cons, List.append_assoc] at heq
            exact absurd heq.symm (escapeUnit_ne_quote v _ _)
    | cons u a ih =>
        intro b r r' heq
        rw [List.flatMap_cons, List.append_assoc] at heq
        cases b with
        | nil => exact absurd heq (escapeUnit_ne_quote u _ _)
        | cons v b =>
            rw [List.flatMap_cons, List.append_assoc] at heq
            have hread := unescape_escapeUnit u (a.flatMap escapeUnit ++ 34 :: r)
            rw [heq, unescape_escapeUnit] at hread
            obtain ⟨huv, hrest⟩ := Prod.mk.inj (Option.some.inj hread)
            obtain ⟨hab, hr⟩ := ih b r r' hrest.symm
            exact ⟨by rw [huv, hab], hr⟩
  intro a b r r' heq
  simp only [quote, List.cons_append, List.append_assoc, List.nil_append,
    List.cons.injEq, true_and] at heq
  exact hbody a b r r' heq

end Strings

section Numbers

def isDigitUnit (u : UInt16) : Bool := 48 ≤ u && u ≤ 57

theorem isDigitUnit_toUInt16 {c : UInt8} (h : isDigit c = true) :
    isDigitUnit c.toUInt16 = true := by
  simp only [isDigit, isDigitUnit, Bool.and_eq_true, decide_eq_true_eq,
    UInt8.le_iff_toNat_le, UInt16.le_iff_toNat_le, UInt8.toNat_toUInt16] at h ⊢
  exact h

theorem decimal_takeWhile (n : ℕ) {r : JsString} (hr : ∀ u ∈ r.head?, isDigitUnit u = false) :
    (decimal n ++ r).takeWhile isDigitUnit = decimal n := by
  have hdigits : ∀ u ∈ decimal n, isDigitUnit u = true := by
    intro u hu
    obtain ⟨c, hc, rfl⟩ := List.mem_map.mp hu
    exact isDigitUnit_toUInt16 (toChars_isDigit n c hc)
  rw [List.takeWhile_append_of_pos hdigits]
  cases r with
  | nil => simp
  | cons u r => simp [hr u rfl]

theorem decimal_injective : Function.Injective decimal := by
  intro m n heq
  have hchars : toChars m = toChars n := by
    apply List.map_injective_iff.mpr _ heq
    intro c c' hc
    have hnat := congrArg UInt16.toNat hc
    rw [UInt8.toNat_toUInt16, UInt8.toNat_toUInt16] at hnat
    exact UInt8.toNat_inj.mp hnat
  rw [← valueOf_toChars m, ← valueOf_toChars n, hchars]

/-- A number ends where no digit follows. -/
theorem decimal_append_inj {m n : ℕ} {r r' : JsString}
    (hr : ∀ u ∈ r.head?, isDigitUnit u = false) (hr' : ∀ u ∈ r'.head?, isDigitUnit u = false)
    (heq : decimal m ++ r = decimal n ++ r') : m = n ∧ r = r' := by
  have htake := decimal_takeWhile m hr
  rw [heq, decimal_takeWhile n hr'] at htake
  refine ⟨decimal_injective htake.symm, ?_⟩
  rw [htake] at heq
  exact List.append_cancel_left heq

end Numbers

section Arrays

/-- Behind the first item: no comma stands in front of the closing bracket. -/
theorem quotes_tail_inj (gap : Option ℕ) (depth : ℕ) : ∀ xs ys r r' : List _,
    (xs.map quote).flatMap (fun item => 44 :: (lineBreak gap (depth + 1) ++ item)) ++
        (lineBreak gap depth ++ 93 :: r) =
      (ys.map quote).flatMap (fun item => 44 :: (lineBreak gap (depth + 1) ++ item)) ++
        (lineBreak gap depth ++ 93 :: r') → xs = ys ∧ r = r' := by
  have hcomma : ∀ a r : JsString, 44 :: a ≠ lineBreak gap depth ++ 93 :: r := by
    intro a r heq
    cases gap with
    | none => exact absurd (List.cons.inj heq).1 (by decide)
    | some gap => exact absurd (List.cons.inj heq).1 (by decide)
  intro xs
  induction xs with
  | nil =>
      intro ys r r' heq
      cases ys with
      | nil => exact ⟨rfl, (List.cons.inj (List.append_cancel_left heq)).2⟩
      | cons y ys =>
          rw [List.map_cons, List.flatMap_cons, List.cons_append, List.cons_append] at heq
          exact absurd heq.symm (hcomma _ _)
  | cons x xs ih =>
      intro ys r r' heq
      rw [List.map_cons, List.flatMap_cons] at heq
      cases ys with
      | nil =>
          rw [List.cons_append, List.cons_append] at heq
          exact absurd heq (hcomma _ _)
      | cons y ys =>
          rw [List.map_cons, List.flatMap_cons] at heq
          simp only [List.cons_append, List.append_assoc, List.cons.injEq, true_and] at heq
          obtain ⟨hxy, hrest⟩ := quote_prefixFree x y _ _ (List.append_cancel_left heq)
          obtain ⟨hxs, hr⟩ := ih ys r r' hrest
          exact ⟨by rw [hxy, hxs], hr⟩

theorem jsonArray_nil_append (gap : Option ℕ) (depth : ℕ) (r : JsString) :
    jsonArray gap depth [] ++ r = 91 :: 93 :: r := rfl

theorem jsonArray_cons_append (gap : Option ℕ) (depth : ℕ) (item : JsString)
    (items : List JsString) (r : JsString) :
    jsonArray gap depth (item :: items) ++ r =
      91 :: (lineBreak gap (depth + 1) ++ (item ++
        (items.flatMap (fun item => 44 :: (lineBreak gap (depth + 1) ++ item)) ++
          (lineBreak gap depth ++ 93 :: r)))) := by
  simp only [jsonArray, bracket, List.cons_append, List.append_assoc, List.nil_append]

/-- An array of strings ends with its closing bracket. -/
theorem quotes_prefixFree (gap : Option ℕ) (depth : ℕ) :
    PrefixFree (fun xs : List JsString => jsonArray gap depth (xs.map quote)) := by
  -- the second unit of an array with items is a line break or a quote
  have hempty : ∀ (x a r : JsString),
      lineBreak gap (depth + 1) ++ (quote x ++ a) ≠ 93 :: r := by
    intro x a r heq
    cases gap with
    | none => exact absurd (List.cons.inj heq).1 (by decide)
    | some gap => exact absurd (List.cons.inj heq).1 (by decide)
  intro xs ys r r' heq
  dsimp only at heq
  cases xs with
  | nil =>
      rw [List.map_nil, jsonArray_nil_append] at heq
      cases ys with
      | nil =>
          rw [List.map_nil, jsonArray_nil_append] at heq
          exact ⟨rfl, (List.cons.inj (List.cons.inj heq).2).2⟩
      | cons y ys =>
          rw [List.map_cons, jsonArray_cons_append] at heq
          exact absurd (List.cons.inj heq).2.symm (hempty _ _ _)
  | cons x xs =>
      rw [List.map_cons, jsonArray_cons_append] at heq
      cases ys with
      | nil =>
          rw [List.map_nil, jsonArray_nil_append] at heq
          exact absurd (List.cons.inj heq).2 (hempty _ _ _)
      | cons y ys =>
          rw [List.map_cons, jsonArray_cons_append] at heq
          have hitems := List.append_cancel_left (List.cons.inj heq).2
          obtain ⟨hxy, hrest⟩ := quote_prefixFree x y _ _ hitems
          obtain ⟨hxs, hr⟩ := quotes_tail_inj gap depth xs ys r r' hrest
          exact ⟨by rw [hxy, hxs], hr⟩

end Arrays

end WaiNative

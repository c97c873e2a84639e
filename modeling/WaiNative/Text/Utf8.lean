import WaiNative.Text.CtrlClaw
import WaiNative.Theory.SelfSync

/-!
# UTF-8

The encoding of code points as bytes. `parseUTF8` reads the length of a
character off its lead byte, so on encoded text its characters are the encoded
code points (`characters_encode`), and UTF-8 is a self-synchronising code
(`utf8_word`).
-/

namespace WaiNative

open Cxx

/-- A code point, at most `0x10FFFF`. -/
structure CodePoint where
  value : ℕ
  lt : value < 0x110000

/-- A continuation byte with the low six bits of `n`. -/
def continuationByte (n : ℕ) : UInt8 := UInt8.ofNat (0x80 + n % 64)

/-- The UTF-8 encoding of one code point. -/
def CodePoint.utf8 (c : CodePoint) : Str :=
  if c.value < 0x80 then [UInt8.ofNat c.value]
  else if c.value < 0x800 then
    [UInt8.ofNat (0xC0 + c.value / 64), continuationByte c.value]
  else if c.value < 0x10000 then
    [UInt8.ofNat (0xE0 + c.value / 4096), continuationByte (c.value / 64),
      continuationByte c.value]
  else
    [UInt8.ofNat (0xF0 + c.value / 262144), continuationByte (c.value / 4096),
      continuationByte (c.value / 64), continuationByte c.value]

/-- The UTF-8 encoding of a text. -/
def encode (cs : List CodePoint) : Str := (cs.map CodePoint.utf8).flatten

/-- Bytes `10xxxxxx` continue a character; other bytes begin one, of the length
that `parseUTF8` gives it. -/
def utf8Code : Code UInt8 where
  trails b := b &&& 0b11000000 == 0b10000000
  size := charSize

/-! ## Lead bytes and continuation bytes -/

theorem continuationByte_trails (n : ℕ) : utf8Code.trails (continuationByte n) = true := by
  have h : ∀ m < 64, utf8Code.trails (UInt8.ofNat (0x80 + m)) = true := by decide
  exact h _ (Nat.mod_lt n (by decide))

theorem lead_one : ∀ n < 0x80, utf8Code.trails (UInt8.ofNat n) = false ∧
    charSize (UInt8.ofNat n) = 1 := by decide

theorem lead_two : ∀ n < 32, utf8Code.trails (UInt8.ofNat (0xC0 + n)) = false ∧
    charSize (UInt8.ofNat (0xC0 + n)) = 2 := by decide

theorem lead_three : ∀ n < 16, utf8Code.trails (UInt8.ofNat (0xE0 + n)) = false ∧
    charSize (UInt8.ofNat (0xE0 + n)) = 3 := by decide

theorem lead_four : ∀ n < 8, utf8Code.trails (UInt8.ofNat (0xF0 + n)) = false ∧
    charSize (UInt8.ofNat (0xF0 + n)) = 4 := by decide

/-- A lead byte and the continuation bytes it announces are a word. -/
theorem utf8Code_word {b : UInt8} (ns : List ℕ)
    (hlead : utf8Code.trails b = false ∧ charSize b = ns.length + 1) :
    utf8Code.Word (b :: ns.map continuationByte) := by
  refine ⟨b, ns.map continuationByte, rfl, hlead.1, ?_, ?_⟩
  · intro x hx
    obtain ⟨n, -, rfl⟩ := List.mem_map.mp hx
    exact continuationByte_trails n
  · show (b :: ns.map continuationByte).length = charSize b
    rw [List.length_cons, List.length_map, hlead.2]

/-- **Each encoded code point is a word of the code.** -/
theorem utf8_word (c : CodePoint) : utf8Code.Word c.utf8 := by
  have hlt := c.lt
  unfold CodePoint.utf8
  split
  · rename_i h
    exact utf8Code_word [] (lead_one c.value h)
  split
  · exact utf8Code_word [c.value] (lead_two (c.value / 64) (by omega))
  split
  · exact utf8Code_word [c.value / 64, c.value] (lead_three (c.value / 4096) (by omega))
  · exact utf8Code_word [c.value / 4096, c.value / 64, c.value] (lead_four (c.value / 262144) (by omega))

/-! ## Reading text back -/

/-- Behind whole characters `parseUTF8` reads whole characters. -/
theorem parseUTF8From_words : ∀ (ts pre : List Str), (∀ t ∈ ts, utf8Code.Word t) →
    (parseUTF8From (pre.flatten ++ ts.flatten) pre.flatten.length).map Prod.fst = ts
  | [], pre => by
      intro _
      rw [parseUTF8From, dif_neg (by simp)]
      rfl
  | t :: ts, pre => by
      intro hts
      obtain ⟨ht, hts⟩ := List.forall_mem_cons.mp hts
      have ih := parseUTF8From_words ts (pre ++ [t]) hts
      simp only [List.flatten_append, List.flatten_cons, List.flatten_nil, List.append_nil,
        List.append_assoc, List.length_append] at ih
      obtain ⟨b, bs, rfl, -, -, hsize⟩ := ht
      have hsize : charSize b = (b :: bs).length := hsize.symm
      have hlt : pre.flatten.length < (pre.flatten ++ ((b :: bs) :: ts).flatten).length := by
        simp
      have hget : (pre.flatten ++ ((b :: bs) :: ts).flatten)[pre.flatten.length] = b := by
        simp
      rw [parseUTF8From, dif_pos hlt]
      simp only [hget, hsize, List.map_cons]
      rw [List.flatten_cons, ih, ← List.append_assoc, slice_append_append]

/-- Concatenated words come apart again. -/
theorem characters_words {ts : List Str} (hts : ∀ t ∈ ts, utf8Code.Word t) :
    characters ts.flatten = ts := parseUTF8From_words ts [] hts

/-- **The characters of encoded text are the encoded code points.** -/
theorem characters_encode (cs : List CodePoint) :
    characters (encode cs) = cs.map CodePoint.utf8 := by
  apply characters_words
  intro t ht
  obtain ⟨c, -, rfl⟩ := List.mem_map.mp ht
  exact utf8_word c

end WaiNative

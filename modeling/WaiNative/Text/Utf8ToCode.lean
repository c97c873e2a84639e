import WaiNative.Text.ParseIndex
import WaiNative.Text.Utf8ToUnicode

/-!
# Code points of a text: `utf8toCode`

`utf8toCode` cuts a text into characters and hands the bytes of each to
`utf8_to_unicode` as `int`s. It widens a `char` through `unsigned int`, and `char` is
signed: a byte from `0x80` on arrives as a negative number, which the decoder takes for
ASCII.

- `utf8toCode_eq`: each character gives its lead byte, sign-extended;
- `utf8toCode_written_iff`: on written text that is the code point exactly for ASCII.
-/

namespace WaiNative

open Cxx

/-! ## Conversions -/

/-- The value of a plain `char`, which is signed. -/
def charValue (b : UInt8) : ℤ := if b.toNat < 128 then b.toNat else b.toNat - 256

/-- Conversion to `unsigned int`. -/
def toUnsigned (x : ℤ) : ℕ := (x % twoPow32).toNat

/-- Conversion of an `unsigned int` to `int`. -/
def toSigned (u : ℕ) : ℤ := if (u : ℤ) ≤ INT_MAX then u else u - twoPow32

/-- `for (unsigned int ch : w) inputW.push_back((int)ch)` -/
def inputW (w : Str) : List ℤ := w.map (fun b => toSigned (toUnsigned (charValue b)))

/-- `utf8toCode`. `none` is undefined behaviour in `parseUTF8` or in `utf8_to_unicode`. -/
def utf8toCode (words : Str) : Option (List ℕ) := do
  let wordStr ← checkedParseUTF8Words words
  wordStr.foldlM (fun ret w => do
    let (code, _) ← utf8_to_unicode (inputW w)
    pure (ret ++ [code])) []

/-- A byte keeps its sign on the way. -/
theorem toSigned_toUnsigned (b : UInt8) : toSigned (toUnsigned (charValue b)) = charValue b := by
  have hb := b.toNat_lt
  unfold toSigned toUnsigned charValue INT_MAX twoPow32
  split <;> split <;> omega

/-- No `char` is too large for the decoder's ASCII branch. -/
theorem charValue_lt (b : UInt8) : charValue b < 128 := by
  have hb := b.toNat_lt
  unfold charValue
  split <;> omega

theorem toUnsigned_ascii {b : UInt8} (hb : b.toNat < 128) :
    toUnsigned (charValue b) = b.toNat := by
  unfold toUnsigned charValue twoPow32
  rw [if_pos hb]
  omega

theorem toUnsigned_high {b : UInt8} (hb : 128 ≤ b.toNat) :
    2 ^ 31 ≤ toUnsigned (charValue b) := by
  have hlt := b.toNat_lt
  unfold toUnsigned charValue twoPow32
  rw [if_neg (Nat.not_lt.mpr hb)]
  omega

/-! ## What `utf8toCode` returns -/

/-- The lead byte of a character, sign-extended. -/
def leadCode (w : Str) : ℕ := toUnsigned (charValue (w.headD 0))

theorem utf8_to_unicode_inputW {w : Str} (hw : w ≠ []) :
    utf8_to_unicode (inputW w) = some (leadCode w, inputW w.tail) := by
  obtain ⟨b, bs, rfl⟩ := List.exists_cons_of_ne_nil hw
  show utf8_to_unicode (toSigned (toUnsigned (charValue b)) :: inputW bs) = _
  rw [toSigned_toUnsigned, utf8_to_unicode, if_pos (charValue_lt b)]
  rfl

theorem foldlM_leadCode : ∀ (ws : List Str) (ret : List ℕ), (∀ w ∈ ws, w ≠ []) →
    ws.foldlM (fun ret w => do
      let (code, _) ← utf8_to_unicode (inputW w)
      pure (ret ++ [code])) ret = some (ret ++ ws.map leadCode)
  | [], ret, _ => by simp
  | w :: ws, ret, hws => by
      obtain ⟨hw, hws⟩ := List.forall_mem_cons.mp hws
      have ih := foldlM_leadCode ws (ret ++ [leadCode w]) hws
      rw [List.foldlM_cons, utf8_to_unicode_inputW hw]
      rw [List.append_assoc] at ih
      exact ih

/-- Each character gives its lead byte, sign-extended; the other bytes are not read. -/
theorem utf8toCode_eq (words : Str) : utf8toCode words =
    if (announced words : ℤ) ≤ INT_MAX then some ((characters words).map leadCode)
    else none := by
  rw [utf8toCode, checkedParseUTF8Words_eq]
  split
  · exact foldlM_leadCode (characters words) [] (characters_ne_nil words)
  · rfl

/-! ## On written text -/

theorem utf8Bytes_ascii {c : ℕ} (hc : c < 128) : utf8Bytes c = [UInt8.ofNat c] := by
  rw [utf8Bytes, unicode_to_utf8, if_pos hc]
  rfl

/-- The code point itself for ASCII; beyond, a number that is none below `2^31`. -/
theorem leadCode_utf8Bytes {c : ℕ} (hc : c < 2 ^ 31) :
    leadCode (utf8Bytes c) = c ↔ c < 128 := by
  by_cases hshort : c < 128
  · have hbyte : (UInt8.ofNat c).toNat = c := UInt8.toNat_ofNat_of_lt' (hshort.trans (by decide))
    have hascii : (UInt8.ofNat c).toNat < 128 := hbyte.trans_lt hshort
    rw [utf8Bytes_ascii hshort]
    refine iff_of_true ?_ hshort
    show toUnsigned (charValue (UInt8.ofNat c)) = c
    rw [toUnsigned_ascii hascii, hbyte]
  · have hlead : ∀ b < 6, 1 ≤ b → ∀ n < 2 ^ b,
        128 ≤ (UInt8.ofNat (leadBase b + n)).toNat := by decide
    obtain ⟨bits, payload, rest, hshape, hlow, hhigh, hpayload, -, -⟩ :=
      (unicode_to_utf8_written (Nat.le_of_not_lt hshort) hc).lead
    have hhuge := toUnsigned_high (hlead bits (by omega) hlow payload hpayload)
    have hcode : leadCode (utf8Bytes c) =
        toUnsigned (charValue (UInt8.ofNat (leadBase bits + payload))) := by
      rw [utf8Bytes, hshape]
      rfl
    rw [hcode]
    exact iff_of_false (by omega) hshort

section Written

variable {cs : List ℕ}

theorem utf8toCode_written (hcs : ∀ c ∈ cs, c < 2 ^ 31) :
    utf8toCode (cs.map utf8Bytes).flatten =
      if ((cs.map utf8Bytes).flatten.length : ℤ) ≤ INT_MAX then
        some (cs.map (fun c => leadCode (utf8Bytes c)))
      else none := by
  have hwords : ∀ t ∈ cs.map utf8Bytes, utf8Code.Word t := by
    intro t ht
    obtain ⟨c, hc, rfl⟩ := List.mem_map.mp ht
    exact (unicode_to_utf8_word (hcs c hc)).2
  rw [utf8toCode_eq, announced_words _ hwords, characters_words hwords, List.map_map]
  rfl

theorem length_utf8Bytes_ascii : ∀ {cs : List ℕ}, (∀ c ∈ cs, c < 128) →
    (cs.map utf8Bytes).flatten.length = cs.length
  | [], _ => rfl
  | c :: cs, hcs => by
      obtain ⟨hc, hcs⟩ := List.forall_mem_cons.mp hcs
      rw [List.map_cons, List.flatten_cons, utf8Bytes_ascii hc, List.length_append,
        length_utf8Bytes_ascii hcs]
      exact Nat.add_comm 1 cs.length

/-- **The code points of a written text come back exactly when all are ASCII** (and the
text is not too long for the index of `parseUTF8`). -/
theorem utf8toCode_written_iff (hcs : ∀ c ∈ cs, c < 2 ^ 31) :
    utf8toCode (cs.map utf8Bytes).flatten = some cs ↔
      (∀ c ∈ cs, c < 128) ∧ (cs.length : ℤ) ≤ INT_MAX := by
  rw [utf8toCode_written hcs]
  constructor
  · intro h
    split at h
    · rename_i hlen
      have hsame : cs.map (fun c => leadCode (utf8Bytes c)) = cs.map id := by
        rw [List.map_id]
        exact Option.some.inj h
      have hascii : ∀ c ∈ cs, c < 128 := fun c hc =>
        (leadCode_utf8Bytes (hcs c hc)).mp (List.map_inj_left.mp hsame c hc)
      rw [length_utf8Bytes_ascii hascii] at hlen
      exact ⟨hascii, hlen⟩
    · cases h
  · rintro ⟨hascii, hlen⟩
    have hsame : cs.map (fun c => leadCode (utf8Bytes c)) = cs.map id :=
      List.map_congr_left (fun c hc => (leadCode_utf8Bytes (hcs c hc)).mpr (hascii c hc))
    rw [length_utf8Bytes_ascii hascii, if_pos hlen, hsame, List.map_id]

/-- Two ASCII characters, the last of them at the border. -/
theorem utf8toCode_written_iff_ascii :
    utf8toCode ([0x41, 0x7F].map utf8Bytes).flatten = some [0x41, 0x7F] ↔
      (∀ c ∈ [0x41, 0x7F], c < 128) ∧ (([0x41, 0x7F] : List ℕ).length : ℤ) ≤ INT_MAX :=
  utf8toCode_written_iff (by decide)

/-- A Chinese character comes back as its lead byte `0xE4`, sign-extended. -/
theorem utf8toCode_written_cjk :
    utf8toCode ([0x4E2D].map utf8Bytes).flatten = some [0xFFFFFFE4] ∧
      utf8toCode ([0x4E2D].map utf8Bytes).flatten ≠ some [0x4E2D] := by
  have hbytes : unicode_to_utf8 0x4E2D = [0xE4, 0xB8, 0xAD] := by
    rw [unicode_to_utf8_long (by decide), encodeLoop_long (by decide) le_rfl (by decide),
      encodeLoop_short (by decide) (by decide) (by decide)]
    decide
  have hcode : utf8toCode ([0x4E2D].map utf8Bytes).flatten = some [0xFFFFFFE4] := by
    rw [utf8toCode_written (by decide)]
    simp only [List.map_cons, List.map_nil, utf8Bytes, hbytes]
    decide
  refine ⟨hcode, ?_⟩
  rw [hcode]
  decide

end Written

end WaiNative

import WaiNative.Text.UnicodeToUtf8

/-!
# Decoding UTF-8 with replacement

Node decodes a byte stream by the state machine of the Encoding Standard: a sequence
that is not well formed becomes U+FFFD, and the byte that broke it is looked at again.
Text is a list of code points here.

- `decodeFrom_encodeText`: well-formed text is decoded as it is;
- `drop_encodeText`: cut anywhere, it is some continuation bytes and whole characters;
- `decodeFrom_drop`: each of those bytes becomes a replacement character.
-/

namespace WaiNative

open Cxx

/-! ## The machine -/

/-- The bits read so far, how many bytes are needed, and the bounds of the next one. -/
structure Utf8Decoder where
  codePoint : ℕ
  needed : ℕ
  lower : ℕ
  upper : ℕ

def Utf8Decoder.start : Utf8Decoder := ⟨0, 0, 0x80, 0xBF⟩

def replacement : ℕ := 0xFFFD

/-- A byte outside a sequence. -/
def firstByte (b : ℕ) : List ℕ × Utf8Decoder :=
  if b ≤ 0x7F then ([b], .start)
  else if 0xC2 ≤ b ∧ b ≤ 0xDF then ([], ⟨b % 32, 1, 0x80, 0xBF⟩)
  else if 0xE0 ≤ b ∧ b ≤ 0xEF then
    ([], ⟨b % 16, 2, if b = 0xE0 then 0xA0 else 0x80, if b = 0xED then 0x9F else 0xBF⟩)
  else if 0xF0 ≤ b ∧ b ≤ 0xF4 then
    ([], ⟨b % 8, 3, if b = 0xF0 then 0x90 else 0x80, if b = 0xF4 then 0x8F else 0xBF⟩)
  else ([replacement], .start)

def nextByte (d : Utf8Decoder) (b : ℕ) : List ℕ × Utf8Decoder :=
  if d.needed = 0 then firstByte b
  else if d.lower ≤ b ∧ b ≤ d.upper then
    if d.needed = 1 then ([d.codePoint * 64 + b % 64], .start)
    else ([], ⟨d.codePoint * 64 + b % 64, d.needed - 1, 0x80, 0xBF⟩)
  else (replacement :: (firstByte b).1, (firstByte b).2)

/-- What the rest of the stream gives; at its end an open sequence is replaced. -/
def decodeFrom (d : Utf8Decoder) : Str → List ℕ
  | [] => if d.needed = 0 then [] else [replacement]
  | b :: bs => (nextByte d b.toNat).1 ++ decodeFrom (nextByte d b.toNat).2 bs

def decodeUtf8 (bytes : Str) : List ℕ := decodeFrom .start bytes

/-- The UTF-8 bytes of a text. -/
def encodeText (text : List ℕ) : Str := text.flatMap utf8Bytes

/-- A code point that is no surrogate. -/
def IsScalar (c : ℕ) : Prop := c < 0xD800 ∨ (0xE000 ≤ c ∧ c < 0x110000)

instance (c : ℕ) : Decidable (IsScalar c) := inferInstanceAs (Decidable (_ ∨ _))

/-! ## Single bytes -/

section Bytes

variable {codePoint lower upper n : ℕ} {b : UInt8} {bs : Str}

theorem decodeFrom_start_cons : decodeFrom .start (b :: bs) =
    (firstByte b.toNat).1 ++ decodeFrom (firstByte b.toNat).2 bs := rfl

/-- A byte in its bounds, with more to come. -/
theorem decodeFrom_more (h : lower ≤ b.toNat ∧ b.toNat ≤ upper) :
    decodeFrom ⟨codePoint, n + 2, lower, upper⟩ (b :: bs) =
      decodeFrom ⟨codePoint * 64 + b.toNat % 64, n + 1, 0x80, 0xBF⟩ bs := by
  have hnext : nextByte ⟨codePoint, n + 2, lower, upper⟩ b.toNat =
      ([], ⟨codePoint * 64 + b.toNat % 64, n + 1, 0x80, 0xBF⟩) := by
    rw [nextByte, if_neg (Nat.succ_ne_zero _), if_pos h, if_neg (by simp)]
    rfl
  rw [decodeFrom, hnext]
  rfl

/-- The last byte of a sequence. -/
theorem decodeFrom_last (h : lower ≤ b.toNat ∧ b.toNat ≤ upper) :
    decodeFrom ⟨codePoint, 1, lower, upper⟩ (b :: bs) =
      (codePoint * 64 + b.toNat % 64) :: decodeFrom .start bs := by
  have hnext : nextByte ⟨codePoint, 1, lower, upper⟩ b.toNat =
      ([codePoint * 64 + b.toNat % 64], .start) := by
    rw [nextByte, if_neg one_ne_zero, if_pos h, if_pos rfl]
  rw [decodeFrom, hnext]
  rfl

/-- A continuation byte outside a sequence. -/
theorem decodeFrom_stray (h : 0x80 ≤ b.toNat ∧ b.toNat ≤ 0xBF) :
    decodeFrom .start (b :: bs) = replacement :: decodeFrom .start bs := by
  have hfirst : firstByte b.toNat = ([replacement], .start) := by
    rw [firstByte, if_neg (by omega), if_neg (by omega), if_neg (by omega), if_neg (by omega)]
  rw [decodeFrom_start_cons, hfirst]
  rfl

end Bytes

/-! ## Whole characters -/

theorem toNat_byte {n : ℕ} (h : n < 256) : (UInt8.ofNat n).toNat = n :=
  UInt8.toNat_ofNat_of_lt' h

theorem toNat_continuationByte (n : ℕ) : (continuationByte n).toNat = 0x80 + n % 64 :=
  toNat_byte (by omega)

/-- The bounds that a three-byte lead sets let in what comes second, unless the code
point has a shorter form or is a surrogate. -/
theorem firstByte_three {c : ℕ} (hlow : 0x800 ≤ c) (hhigh : c < 0x10000) (hc : IsScalar c) :
    ∃ lower upper, firstByte (0xE0 + c / 4096) = ([], ⟨c / 4096, 2, lower, upper⟩) ∧
      lower ≤ 0x80 + c / 64 % 64 ∧ 0x80 + c / 64 % 64 ≤ upper := by
  unfold IsScalar at hc
  have hbits : (0xE0 + c / 4096) % 16 = c / 4096 := by omega
  rw [firstByte, if_neg (by omega), if_neg (by omega), if_pos (by omega), hbits]
  refine ⟨_, _, rfl, ?_, ?_⟩
  · split
    · omega
    · omega
  · split
    · omega
    · omega

/-- The bounds that a four-byte lead sets let in what comes second, unless the code point
has a shorter form or is beyond the last one. -/
theorem firstByte_four {c : ℕ} (hlow : 0x10000 ≤ c) (hhigh : c < 0x110000) :
    ∃ lower upper, firstByte (0xF0 + c / 262144) = ([], ⟨c / 262144, 3, lower, upper⟩) ∧
      lower ≤ 0x80 + c / 4096 % 64 ∧ 0x80 + c / 4096 % 64 ≤ upper := by
  have hbits : (0xF0 + c / 262144) % 8 = c / 262144 := by omega
  rw [firstByte, if_neg (by omega), if_neg (by omega), if_neg (by omega), if_pos (by omega),
    hbits]
  refine ⟨_, _, rfl, ?_, ?_⟩
  · split
    · omega
    · omega
  · split
    · omega
    · omega

/-- **A character is decoded as it is**, whatever follows. -/
theorem decodeFrom_utf8Bytes {c : ℕ} (hc : IsScalar c) (bs : Str) :
    decodeFrom .start (utf8Bytes c ++ bs) = c :: decodeFrom .start bs := by
  have hlt : c < 0x110000 := by
    unfold IsScalar at hc
    omega
  rw [utf8Bytes_codePoint ⟨c, hlt⟩, CodePoint.utf8]
  dsimp only
  by_cases hone : c < 0x80
  · have hfirst : firstByte (UInt8.ofNat c).toNat = ([c], .start) := by
      rw [toNat_byte (by omega), firstByte, if_pos (by omega)]
    rw [if_pos hone, List.singleton_append, decodeFrom_start_cons, hfirst]
    rfl
  rw [if_neg hone]
  by_cases htwo : c < 0x800
  · have hfirst : firstByte (UInt8.ofNat (0xC0 + c / 64)).toNat =
        ([], ⟨c / 64, 1, 0x80, 0xBF⟩) := by
      rw [toNat_byte (by omega), firstByte, if_neg (by omega), if_pos (by omega)]
      congr 2
      omega
    rw [if_pos htwo, List.cons_append, decodeFrom_start_cons, hfirst, List.nil_append,
      List.singleton_append, decodeFrom_last (by rw [toNat_continuationByte]; omega),
      toNat_continuationByte]
    congr 1
    omega
  rw [if_neg htwo]
  have hrange (n : ℕ) : 0x80 ≤ (continuationByte n).toNat ∧
      (continuationByte n).toNat ≤ 0xBF := by
    rw [toNat_continuationByte]
    omega
  by_cases hthree : c < 0x10000
  · obtain ⟨lower, upper, hfirst, hlo, hhi⟩ := firstByte_three (Nat.le_of_not_lt htwo) hthree hc
    have hsecond : lower ≤ (continuationByte (c / 64)).toNat ∧
        (continuationByte (c / 64)).toNat ≤ upper := by
      rw [toNat_continuationByte]
      exact ⟨hlo, hhi⟩
    rw [if_pos hthree, List.cons_append, decodeFrom_start_cons, toNat_byte (by omega), hfirst,
      List.nil_append, List.cons_append, decodeFrom_more hsecond, List.singleton_append,
      decodeFrom_last (hrange c), toNat_continuationByte, toNat_continuationByte]
    congr 1
    omega
  · obtain ⟨lower, upper, hfirst, hlo, hhi⟩ := firstByte_four (Nat.le_of_not_lt hthree) hlt
    have hsecond : lower ≤ (continuationByte (c / 4096)).toNat ∧
        (continuationByte (c / 4096)).toNat ≤ upper := by
      rw [toNat_continuationByte]
      exact ⟨hlo, hhi⟩
    rw [if_neg hthree, List.cons_append, decodeFrom_start_cons, toNat_byte (by omega), hfirst,
      List.nil_append, List.cons_append, decodeFrom_more hsecond, List.cons_append,
      decodeFrom_more (hrange (c / 64)), List.singleton_append, decodeFrom_last (hrange c),
      toNat_continuationByte, toNat_continuationByte, toNat_continuationByte]
    congr 1
    omega

theorem encodeText_cons (c : ℕ) (text : List ℕ) :
    encodeText (c :: text) = utf8Bytes c ++ encodeText text := List.flatMap_cons

theorem encodeText_append (text text' : List ℕ) :
    encodeText (text ++ text') = encodeText text ++ encodeText text' := List.flatMap_append

theorem isInfix_encodeText {text text' : List ℕ} (h : text <:+: text') :
    encodeText text <:+: encodeText text' := by
  obtain ⟨before, after, rfl⟩ := h
  rw [encodeText_append, encodeText_append]
  exact List.infix_append _ _ _

/-- **Well-formed text is decoded as it is.** -/
theorem decodeFrom_encodeText (bs : Str) : ∀ text : List ℕ, (∀ c ∈ text, IsScalar c) →
    decodeFrom .start (encodeText text ++ bs) = text ++ decodeFrom .start bs
  | [], _ => rfl
  | c :: text, h => by
      obtain ⟨hc, htext⟩ := List.forall_mem_cons.mp h
      rw [encodeText_cons, List.append_assoc, decodeFrom_utf8Bytes hc,
        decodeFrom_encodeText bs text htext]
      rfl

/-! ## Text from the middle of a character -/

/-- Bytes that continue a character. -/
def Continues (r : Str) : Prop := ∀ b ∈ r, 0x80 ≤ b.toNat ∧ b.toNat ≤ 0xBF

/-- Each of them is replaced. -/
theorem decodeFrom_continues (bs : Str) : ∀ r : Str, Continues r →
    decodeFrom .start (r ++ bs) = List.replicate r.length replacement ++ decodeFrom .start bs
  | [], _ => rfl
  | b :: r, h => by
      obtain ⟨hb, hr⟩ := List.forall_mem_cons.mp h
      rw [List.cons_append, decodeFrom_stray hb, decodeFrom_continues bs r hr]
      rfl

set_option maxRecDepth 4000 in
/-- A byte that continues characters in the code. -/
theorem range_of_trails : ∀ n < 256, utf8Code.trails (UInt8.ofNat n) = true →
    0x80 ≤ n ∧ n ≤ 0xBF := by decide

theorem continues_of_trails {r : Str} (h : ∀ b ∈ r, utf8Code.trails b = true) : Continues r := by
  intro b hb
  apply range_of_trails b.toNat b.toNat_lt
  rw [UInt8.ofNat_toNat]
  exact h b hb

/-- Cut anywhere, text is the rest of a character and whole characters. -/
theorem drop_encodeText : ∀ (text : List ℕ) (n : ℕ), (∀ c ∈ text, IsScalar c) →
    ∃ r text', (encodeText text).drop n = r ++ encodeText text' ∧ Continues r ∧ text' <:+ text
  | [], n, _ => ⟨[], [], by simp [encodeText], List.forall_mem_nil _, List.suffix_rfl⟩
  | c :: text, n, h => by
      obtain ⟨hc, htext⟩ := List.forall_mem_cons.mp h
      have hlt : c < 2 ^ 31 := by
        unfold IsScalar at hc
        omega
      obtain ⟨b, bs, hbytes, -, htrails, -⟩ := (unicode_to_utf8_word hlt).2
      rw [encodeText_cons]
      rcases Nat.eq_zero_or_pos n with rfl | hpos
      · exact ⟨[], c :: text, rfl, List.forall_mem_nil _, List.suffix_rfl⟩
      rcases Nat.le_total n (utf8Bytes c).length with hin | hout
      · -- inside the character, behind its lead byte
        refine ⟨(utf8Bytes c).drop n, text, List.drop_append_of_le_length hin, ?_,
          List.suffix_cons c text⟩
        apply continues_of_trails
        intro x hx
        obtain ⟨k, rfl⟩ : ∃ k, n = k + 1 := ⟨n - 1, by omega⟩
        rw [hbytes, List.drop_succ_cons] at hx
        exact htrails x (List.mem_of_mem_drop hx)
      · obtain ⟨r, text', hdrop, hr, hsuffix⟩ :=
          drop_encodeText text (n - (utf8Bytes c).length) htext
        refine ⟨r, text', ?_, hr, hsuffix.trans (List.suffix_cons c text)⟩
        rw [List.drop_append, List.drop_eq_nil_of_le hout, List.nil_append, hdrop]

/-- An ASCII byte is only the byte of its own character. -/
theorem mem_utf8Bytes_ascii {c n : ℕ} (hc : c < 2 ^ 31) (hn : n < 128)
    (h : UInt8.ofNat n ∈ utf8Bytes c) : c = n := by
  have hbyte : (UInt8.ofNat n).toNat = n := toNat_byte (hn.trans (by decide))
  by_cases hshort : c < 128
  · rw [utf8Bytes, unicode_to_utf8, if_pos hshort, List.map_singleton, List.mem_singleton] at h
    rw [← hbyte, h, toNat_byte (hshort.trans (by decide))]
  · have hlead : ∀ b < 6, 1 ≤ b → ∀ m < 2 ^ b, 128 ≤ leadBase b + m ∧ leadBase b + m < 256 := by
      decide
    obtain ⟨bits, payload, rest, hshape, hlow, hhigh, hpayload, -, hrest⟩ :=
      (unicode_to_utf8_written (Nat.le_of_not_lt hshort) hc).lead
    obtain ⟨hlong, hlt⟩ := hlead bits (by omega) hlow payload hpayload
    rw [utf8Bytes, hshape, List.map_cons, List.mem_cons, List.mem_map] at h
    rcases h with h | ⟨x, hx, h⟩
    · have heq := congrArg UInt8.toNat h
      rw [hbyte, toNat_byte hlt] at heq
      omega
    · obtain ⟨m, rfl⟩ := hrest x hx
      have heq := congrArg UInt8.toNat h
      rw [hbyte, toNat_byte (by omega)] at heq
      omega

end WaiNative

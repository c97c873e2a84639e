import WaiNative.Text.Utf8
import Mathlib.Algebra.Order.Group.Nat

/-!
# Writing code points: `unicode_to_utf8`

`unicode_to_utf8` writes numbers below `2^31` in one to six bytes; it makes room in
the lead byte bit by bit until the rest of the number fits. `parseUTF8` tells the
length of a character from masks of the lead byte. Both agree at every length: what
is written is a word of `utf8Code` (`unicode_to_utf8_word`), so concatenated
characters come apart again (`parseUTF8_unicode_to_utf8`).
-/

namespace WaiNative

open Cxx

/-! ## `unicode_to_utf8` -/

def other_bits : ℕ := 6

/-- The loop, with the bytes pushed so far in `d`. Below `2^31` it ends before
`first_bits` reaches zero. -/
def encodeLoop (charcode first_bits first_val : ℕ) (d : List ℕ) : List ℕ :=
  if charcode ≥ 1 <<< first_bits then
    encodeLoop (charcode >>> other_bits) (first_bits - 1) (first_val ||| 1 <<< first_bits)
      ((128 ||| (charcode &&& (1 <<< other_bits) - 1)) :: d)
  else (first_val ||| charcode) :: d
termination_by charcode
decreasing_by
  rename_i h
  have hpos : 0 < charcode := (Nat.one_shiftLeft first_bits ▸ Nat.two_pow_pos first_bits).trans_le h
  rw [Nat.shiftRight_eq_div_pow]
  exact Nat.div_lt_self hpos (by decide)

def unicode_to_utf8 (charcode : ℕ) : List ℕ :=
  if charcode < 128 then [charcode] else encodeLoop charcode 6 0xC0 []

/-- The bytes of a character. -/
def utf8Bytes (charcode : ℕ) : Str := (unicode_to_utf8 charcode).map UInt8.ofNat

/-! ## The other `parseUTF8` -/

/-- The loop of the overload that returns the characters alone. -/
def parseUTF8WordsFrom (words : Str) (i : ℕ) : List Str :=
  if h : i < words.length then
    let size := charSize words[i]
    slice words i size :: parseUTF8WordsFrom words (i + size)
  else []
termination_by words.length - i
decreasing_by
  have := charSize_pos words[i]
  omega

def parseUTF8Words (words : Str) : List Str := parseUTF8WordsFrom words 0

theorem parseUTF8WordsFrom_eq (words : Str) (i : ℕ) :
    parseUTF8WordsFrom words i = (parseUTF8From words i).map Prod.fst := by
  induction i using parseUTF8WordsFrom.induct words with
  | case1 i h size ih =>
      rw [parseUTF8WordsFrom, dif_pos h, parseUTF8From, dif_pos h, List.map_cons]
      dsimp only
      rw [ih]
  | case2 i h =>
      rw [parseUTF8WordsFrom, dif_neg h, parseUTF8From, dif_neg h]
      rfl

/-- The overloads cut alike. -/
theorem parseUTF8Words_eq (words : Str) : parseUTF8Words words = characters words :=
  parseUTF8WordsFrom_eq words 0

/-! ## The loop in numbers -/

/-- The lead byte without payload when the payload has `bits` bits. -/
def leadBase (bits : ℕ) : ℕ := 256 - 2 ^ (bits + 1)

section Loop

variable {charcode bits : ℕ} {d : List ℕ}

theorem payload_eq (charcode : ℕ) :
    128 ||| (charcode &&& (1 <<< other_bits) - 1) = 128 + charcode % 64 := by
  have hlow : charcode &&& (1 <<< other_bits) - 1 = charcode % 64 := by
    rw [Nat.one_shiftLeft]
    exact Nat.and_two_pow_sub_one_eq_mod charcode 6
  have hor : ∀ m < 64, 128 ||| m = 128 + m := by decide
  rw [hlow]
  exact hor _ (Nat.mod_lt _ (by decide))

/-- The number does not fit yet: its low six bits go into a byte of their own. -/
theorem encodeLoop_long (hlow : 2 ≤ bits) (hhigh : bits ≤ 5) (hlong : 2 ^ bits ≤ charcode) :
    encodeLoop charcode bits (leadBase bits) d =
      encodeLoop (charcode / 64) (bits - 1) (leadBase (bits - 1))
        ((128 + charcode % 64) :: d) := by
  have hlead : ∀ b < 6, 2 ≤ b → leadBase b ||| 1 <<< b = leadBase (b - 1) := by decide
  rw [encodeLoop, if_pos (by rwa [Nat.one_shiftLeft]), payload_eq,
    hlead bits (by omega) hlow, Nat.shiftRight_eq_div_pow]
  rfl

/-- The rest of the number fits into the lead byte. -/
theorem encodeLoop_short (hlow : 1 ≤ bits) (hhigh : bits ≤ 5) (hshort : charcode < 2 ^ bits) :
    encodeLoop charcode bits (leadBase bits) d = (leadBase bits + charcode) :: d := by
  have hor : ∀ b < 6, 1 ≤ b → ∀ n < 2 ^ b, leadBase b ||| n = leadBase b + n := by decide
  rw [encodeLoop, if_neg (by rw [Nat.one_shiftLeft]; omega), hor bits (by omega) hlow _ hshort]

/-- The first turn is always taken, and leaves a lead byte for five bits. -/
theorem unicode_to_utf8_long (hlong : 128 ≤ charcode) : unicode_to_utf8 charcode =
    encodeLoop (charcode / 64) 5 (leadBase 5) [128 + charcode % 64] := by
  have hfirst : charcode ≥ 1 <<< 6 := le_trans (by decide) hlong
  have hlead : 0xC0 ||| 1 <<< 6 = leadBase 5 := by decide
  rw [unicode_to_utf8, if_neg (by omega), encodeLoop, if_pos hfirst, payload_eq, hlead,
    Nat.shiftRight_eq_div_pow]
  rfl

end Loop

/-- Six bits for each byte, behind those of `payload`. -/
def readBack (payload : ℕ) (bs : List ℕ) : ℕ := bs.foldl (fun n b => n * 64 + b % 64) payload

@[simp] theorem readBack_nil (payload : ℕ) : readBack payload [] = payload := rfl

@[simp] theorem readBack_cons (payload b : ℕ) (bs : List ℕ) :
    readBack payload (b :: bs) = readBack (payload * 64 + b % 64) bs := rfl

theorem readBack_concat (payload b : ℕ) (bs : List ℕ) :
    readBack payload (bs ++ [b]) = readBack payload bs * 64 + b % 64 := by
  rw [readBack, List.foldl_append]
  rfl

/-- The loop ends with enough room, since with each bit taken from the lead byte six
bits of the number are gone. The bytes it adds and the payload give the number back, and
with one byte less there was no room yet. -/
theorem encodeLoop_spec : ∀ (bits charcode : ℕ) (d : List ℕ), 1 ≤ bits → bits ≤ 5 →
    charcode < 2 ^ (6 * bits - 5) →
    ∃ payload more, encodeLoop charcode bits (leadBase bits) d =
        (leadBase (bits - more.length) + payload) :: (more ++ d) ∧
      more.length < bits ∧ payload < 2 ^ (bits - more.length) ∧
      (∀ b ∈ more, ∃ n, b = 128 + n % 64) ∧ readBack payload more = charcode ∧
      (more ≠ [] → 2 ^ (bits + 1 - more.length) * 64 ^ (more.length - 1) ≤ charcode) := by
  intro bits
  induction bits with
  | zero => exact fun _ _ hlow => absurd hlow (by decide)
  | succ bits ih =>
      intro charcode d hlow hhigh hlt
      by_cases hfits : charcode < 2 ^ (bits + 1)
      · rw [encodeLoop_short hlow hhigh hfits]
        exact ⟨charcode, [], rfl, hlow, hfits, by simp, rfl, fun h => absurd rfl h⟩
      · -- with one bit left the number fits
        have hbits : 1 ≤ bits := by
          by_contra hzero
          obtain rfl : bits = 0 := by omega
          exact hfits hlt
        have hroom : charcode / 64 < 2 ^ (6 * bits - 5) := by
          apply Nat.div_lt_of_lt_mul
          refine hlt.trans_le (le_of_eq ?_)
          rw [show (64 : ℕ) = 2 ^ 6 from rfl, ← pow_add]
          congr 1
          omega
        obtain ⟨payload, more, hloop, hmore, hpayload, hbytes, hback, hneeded⟩ :=
          ih (charcode / 64) ((128 + charcode % 64) :: d) hbits (by omega) hroom
        rw [encodeLoop_long (by omega) hhigh (Nat.le_of_not_lt hfits)]
        refine ⟨payload, more ++ [128 + charcode % 64], ?_, ?_, ?_, ?_, ?_, ?_⟩
        · rw [Nat.add_sub_cancel, hloop, List.length_append, List.length_singleton,
            Nat.add_sub_add_right, List.append_assoc]
          rfl
        · rw [List.length_append]
          exact Nat.succ_lt_succ hmore
        · rwa [List.length_append, List.length_singleton, Nat.add_sub_add_right]
        · intro b hb
          rcases List.mem_append.mp hb with hb | hb
          · exact hbytes b hb
          · exact ⟨charcode, List.mem_singleton.mp hb⟩
        · rw [readBack_concat, hback]
          omega
        · intro _
          rw [List.length_append, List.length_singleton, Nat.add_sub_cancel,
            Nat.add_sub_add_right]
          rcases Nat.eq_zero_or_pos more.length with hnil | hpos
          · rw [hnil, pow_zero, mul_one]
            exact Nat.le_of_not_lt hfits
          · have hbound := hneeded (List.length_pos_iff.mp hpos)
            obtain ⟨k, hk⟩ : ∃ k, more.length = k + 1 := ⟨more.length - 1, by omega⟩
            rw [hk, Nat.add_sub_cancel] at hbound
            rw [hk, pow_succ, ← mul_assoc]
            exact (Nat.mul_le_mul_right 64 hbound).trans (Nat.div_mul_le_self charcode 64)

/-! ## What is written is a word of the code -/

/-- A lead byte that announces as many bytes as there are, and bytes that continue. -/
structure Written (l : List ℕ) : Prop where
  lead : ∃ bits payload rest, l = (leadBase bits + payload) :: rest ∧ 1 ≤ bits ∧ bits ≤ 5 ∧
    payload < 2 ^ bits ∧ rest.length = 6 - bits ∧ ∀ x ∈ rest, ∃ n, x = 128 + n % 64

theorem unicode_to_utf8_written {charcode : ℕ} (hlong : 128 ≤ charcode)
    (hlt : charcode < 2 ^ 31) : Written (unicode_to_utf8 charcode) := by
  obtain ⟨payload, more, hloop, hmore, hpayload, hbytes, -, -⟩ :=
    encodeLoop_spec 5 (charcode / 64) [128 + charcode % 64] (by decide) le_rfl
      (Nat.div_lt_of_lt_mul hlt)
  rw [unicode_to_utf8_long hlong, hloop]
  refine ⟨5 - more.length, payload, more ++ [128 + charcode % 64], rfl, by omega, by omega,
    hpayload, ?_, ?_⟩
  · rw [List.length_append, List.length_singleton]
    omega
  · intro x hx
    rcases List.mem_append.mp hx with hx | hx
    · exact hbytes x hx
    · exact ⟨charcode, List.mem_singleton.mp hx⟩

/-- `parseUTF8` tells from each lead byte how many bytes were written. -/
theorem lead_size : ∀ bits < 6, 1 ≤ bits → ∀ payload < 2 ^ bits,
    utf8Code.trails (UInt8.ofNat (leadBase bits + payload)) = false ∧
      charSize (UInt8.ofNat (leadBase bits + payload)) = 6 - bits + 1 ∧
      leadBase bits + payload < 256 := by decide

theorem Written.bytes {l : List ℕ} (h : Written l) : ∀ x ∈ l, x < 256 := by
  obtain ⟨bits, payload, rest, rfl, hlow, hhigh, hpayload, -, hrest⟩ := h
  rintro x (_ | ⟨_, hx⟩)
  · exact (lead_size bits (by omega) hlow payload hpayload).2.2
  · obtain ⟨n, rfl⟩ := hrest x hx
    omega

theorem Written.word {l : List ℕ} (h : Written l) : utf8Code.Word (l.map UInt8.ofNat) := by
  obtain ⟨bits, payload, rest, rfl, hlow, hhigh, hpayload, hlen, hrest⟩ := h
  obtain ⟨htrails, hsize, -⟩ := lead_size bits (by omega) hlow payload hpayload
  refine ⟨_, _, rfl, htrails, ?_, ?_⟩
  · intro x hx
    obtain ⟨y, hy, rfl⟩ := List.mem_map.mp hx
    obtain ⟨n, rfl⟩ := hrest y hy
    exact continuationByte_trails n
  · show (List.map UInt8.ofNat (_ :: rest)).length = charSize _
    rw [List.length_map, List.length_cons, hlen, hsize]

/-- **Each character that is written is a word of the code.** -/
theorem unicode_to_utf8_word {charcode : ℕ} (hlt : charcode < 2 ^ 31) :
    (∀ x ∈ unicode_to_utf8 charcode, x < 256) ∧ utf8Code.Word (utf8Bytes charcode) := by
  by_cases hshort : charcode < 128
  · have hone : unicode_to_utf8 charcode = [charcode] := if_pos hshort
    rw [utf8Bytes, hone]
    refine ⟨?_, utf8Code_word [] (lead_one charcode hshort)⟩
    intro x hx
    rw [List.mem_singleton.mp hx]
    omega
  · have hwritten := unicode_to_utf8_written (Nat.le_of_not_lt hshort) hlt
    exact ⟨hwritten.bytes, hwritten.word⟩

/-! ## Reading back -/

theorem withPositions_snd : ∀ (ts : List Str) (i : ℕ), (withPositions i ts).map Prod.snd =
    (List.range ts.length).map (fun k => i + (ts.take k).flatten.length)
  | [], _ => rfl
  | t :: ts, i => by
      rw [withPositions, List.map_cons, withPositions_snd ts, List.length_cons,
        List.range_succ_eq_map, List.map_cons, List.map_map]
      congr 1
      apply List.map_congr_left
      intro k _
      simp [add_assoc]

/-- **Concatenated characters come apart again**, in both overloads: one token for
each code point, at the offset of its first byte. -/
theorem parseUTF8_unicode_to_utf8 (cs : List ℕ) (hcs : ∀ c ∈ cs, c < 2 ^ 31)
    (words : List Str) (positions : List ℕ) :
    (∀ c ∈ cs, ∀ x ∈ unicode_to_utf8 c, x < 256) ∧
    parseUTF8Words (cs.map utf8Bytes).flatten = cs.map utf8Bytes ∧
    parseUTF8 (cs.map utf8Bytes).flatten words positions =
      (words ++ cs.map utf8Bytes,
        positions ++ (List.range cs.length).map
          (fun k => ((cs.take k).map utf8Bytes).flatten.length)) := by
  have hwords : ∀ t ∈ cs.map utf8Bytes, utf8Code.Word t := by
    intro t ht
    obtain ⟨c, hc, rfl⟩ := List.mem_map.mp ht
    exact (unicode_to_utf8_word (hcs c hc)).2
  have hchars := characters_words hwords
  have hplaces : (parseUTF8From (cs.map utf8Bytes).flatten 0).map Prod.snd =
      (List.range cs.length).map (fun k => ((cs.take k).map utf8Bytes).flatten.length) := by
    rw [parseUTF8From_positions, ← characters, hchars, withPositions_snd, List.length_map]
    apply List.map_congr_left
    intro k _
    rw [zero_add, ← List.map_take]
  refine ⟨fun c hc => (unicode_to_utf8_word (hcs c hc)).1, ?_, ?_⟩
  · rw [parseUTF8Words_eq, hchars]
  · rw [parseUTF8, hplaces, ← characters, hchars]

/-- Up to `0x10FFFF` the bytes are those of UTF-8. -/
theorem utf8Bytes_codePoint (c : CodePoint) : utf8Bytes c.value = c.utf8 := by
  have hlt := c.lt
  unfold CodePoint.utf8
  by_cases hone : c.value < 0x80
  · rw [if_pos hone, utf8Bytes, unicode_to_utf8, if_pos hone]
    rfl
  rw [if_neg hone, utf8Bytes, unicode_to_utf8_long (by omega)]
  by_cases htwo : c.value < 0x800
  · rw [if_pos htwo, encodeLoop_short (by decide) le_rfl (by omega)]
    rfl
  rw [if_neg htwo, encodeLoop_long (by decide) le_rfl (by omega)]
  by_cases hthree : c.value < 0x10000
  · rw [if_pos hthree, encodeLoop_short (by decide) (by decide) (by omega),
      Nat.div_div_eq_div_mul]
    rfl
  · rw [if_neg hthree, encodeLoop_long (by decide) (by decide) (by omega),
      encodeLoop_short (by decide) (by decide) (by omega)]
    simp only [Nat.div_div_eq_div_mul]
    rfl

end WaiNative

import WaiNative.Text.UnicodeToUtf8
import WaiNative.Cxx.Decimal

/-!
# Reading code points: `utf8_to_unicode`

`utf8_to_unicode` shifts the lead byte left once for each byte that follows, and puts
the lead byte's own bits on top at the end, by a mask and a shift that the loop made.
In numbers this is `readBack`: six bits for each continuation byte behind the payload
of the lead byte.

- `IsForm`: what a form of a number is, in one to six bytes;
- `unicode_to_utf8_form`, `unicode_to_utf8_least`: what is written is a form, and any
  other form of the number is longer;
- `utf8_to_unicode_form`: the decoder reads any form back and leaves what follows it;
- `utf8_to_unicode_unicode_to_utf8`: both together.
-/

namespace WaiNative

open Cxx

/-! ## `utf8_to_unicode` -/

/-- The number of values of `char32_t`. -/
def twoPow32 : ℕ := 4294967296

/-- The low six bits of an `int`. -/
def lowBits (front : ℤ) : ℕ := (front % (1 <<< other_bits : ℕ)).toNat

/-- The loop, then the bits of the lead byte. `none` is a `front` of an empty deque, or
a shift by more bits than an `int` has. -/
def decodeLoop (t high_bit_mask high_bit_shift total_bits charcode : ℕ) (coded : List ℤ) :
    Option (ℕ × List ℤ) :=
  if t &&& 0xC0 = 0xC0 then
    match coded with
    | [] => none
    | front :: coded =>
      decodeLoop ((t <<< 1) &&& 0xff) (high_bit_mask >>> 1) (high_bit_shift + 1)
        (total_bits + 6) (charcode <<< other_bits % twoPow32 ||| lowBits front) coded
  else if total_bits < 32 then
    some (charcode ||| ((t >>> high_bit_shift) &&& high_bit_mask) <<< total_bits, coded)
  else none

/-- The code point, and what is left in the deque. -/
def utf8_to_unicode (coded : List ℤ) : Option (ℕ × List ℤ) :=
  match coded with
  | [] => none
  | t :: coded =>
    if t < 128 then some ((t % twoPow32).toNat, coded)
    else decodeLoop t.toNat ((1 <<< 6) - 1) 0 0 0 coded

/-! ## Forms of a number -/

/-- A byte `10xxxxxx`. -/
def IsContinuation (b : ℕ) : Prop := 0x80 ≤ b ∧ b ≤ 0xBF

instance (b : ℕ) : Decidable (IsContinuation b) := inferInstanceAs (Decidable (_ ∧ _))

/-- The forms of a number: a byte `0xxxxxxx`, or a lead byte with as many leading ones
as there are bytes, then bytes `10xxxxxx`. -/
inductive IsForm : ℕ → List ℕ → Prop
  | one {c : ℕ} (hc : c < 128) : IsForm c [c]
  | long {bits payload : ℕ} {bs : List ℕ} (hlow : 1 ≤ bits) (hhigh : bits ≤ 5)
      (hpayload : payload < 2 ^ bits) (hlen : bs.length = 6 - bits)
      (hbs : ∀ b ∈ bs, IsContinuation b) :
      IsForm (readBack payload bs) ((leadBase bits + payload) :: bs)

section ReadBack

variable {payload : ℕ} {bs : List ℕ}

/-- The payload stands on top of the bits that the other bytes give. -/
theorem readBack_eq_add : ∀ (bs : List ℕ) (payload : ℕ),
    readBack payload bs = payload * 64 ^ bs.length + readBack 0 bs
  | [], payload => by simp
  | b :: bs, payload => by
      rw [readBack_cons, readBack_cons, readBack_eq_add bs, readBack_eq_add bs (0 * 64 + b % 64),
        List.length_cons, pow_succ]
      ring

theorem readBack_zero_lt : ∀ bs : List ℕ, readBack 0 bs < 64 ^ bs.length
  | [] => by simp
  | b :: bs => by
      have ih := readBack_zero_lt bs
      have hlow : b % 64 < 64 := Nat.mod_lt _ (by decide)
      rw [readBack_cons, readBack_eq_add, List.length_cons, pow_succ, zero_mul, zero_add]
      calc b % 64 * 64 ^ bs.length + readBack 0 bs
          < b % 64 * 64 ^ bs.length + 64 ^ bs.length := Nat.add_lt_add_left ih _
        _ = (b % 64 + 1) * 64 ^ bs.length := by ring
        _ ≤ 64 * 64 ^ bs.length := Nat.mul_le_mul_right _ hlow
        _ = 64 ^ bs.length * 64 := Nat.mul_comm _ _

theorem readBack_lt {bits : ℕ} (hpayload : payload < 2 ^ bits) :
    readBack payload bs < 2 ^ bits * 64 ^ bs.length := by
  have hlow := readBack_zero_lt bs
  rw [readBack_eq_add]
  calc payload * 64 ^ bs.length + readBack 0 bs
      < payload * 64 ^ bs.length + 64 ^ bs.length := Nat.add_lt_add_left hlow _
    _ = (payload + 1) * 64 ^ bs.length := by ring
    _ ≤ 2 ^ bits * 64 ^ bs.length := Nat.mul_le_mul_right _ hpayload

/-- Among forms of one length the number tells the bytes. -/
theorem readBack_inj : ∀ (bs bs' : List ℕ) (payload payload' : ℕ), bs.length = bs'.length →
    (∀ b ∈ bs, IsContinuation b) → (∀ b ∈ bs', IsContinuation b) →
    readBack payload bs = readBack payload' bs' → payload = payload' ∧ bs = bs'
  | [], [], _, _, _, _, _, heq => ⟨heq, rfl⟩
  | b :: bs, b' :: bs', payload, payload', hlen, hbs, hbs', heq => by
      obtain ⟨hb, hbs⟩ := List.forall_mem_cons.mp hbs
      obtain ⟨hb', hbs'⟩ := List.forall_mem_cons.mp hbs'
      obtain ⟨htop, htail⟩ := readBack_inj bs bs' (payload * 64 + b % 64)
        (payload' * 64 + b' % 64) (Nat.succ.inj hlen) hbs hbs' heq
      unfold IsContinuation at hb hb'
      have hsame : b = b' := by omega
      refine ⟨by omega, ?_⟩
      rw [hsame, htail]

end ReadBack

/-! ## What is written is a form -/

theorem isContinuation_low (n : ℕ) : IsContinuation (128 + n % 64) := by
  have hlow : n % 64 < 64 := Nat.mod_lt _ (by decide)
  exact ⟨Nat.le_add_right _ _, by omega⟩

/-- The numbers that `size` bytes have room for, below this bound. -/
def room : ℕ → ℕ
  | 0 => 0
  | 1 => 2 ^ 7
  | size + 2 => 2 ^ (5 * size + 11)

theorem room_le_succ : ∀ size : ℕ, room size ≤ room (size + 1)
  | 0 => Nat.zero_le _
  | 1 => Nat.pow_le_pow_right (by decide) (by decide)
  | _ + 2 => Nat.pow_le_pow_right (by decide) (by omega)

theorem room_mono : Monotone room := monotone_nat_of_le_succ room_le_succ

theorem two_pow_mul_room {m : ℕ} (hm : m ≤ 5) :
    2 ^ (6 - m) * 64 ^ m = 2 ^ (5 * m + 6) := by
  rw [show (64 : ℕ) = 2 ^ 6 from rfl, ← pow_mul, ← pow_add]
  congr 1
  omega

/-- A number is a form's only if it has room there. -/
theorem IsForm.lt_room {c : ℕ} {l : List ℕ} (h : IsForm c l) : c < room l.length := by
  cases h with
  | one hc => exact hc
  | @long bits payload bs hlow hhigh hpayload hlen hbs =>
      have hlt : readBack payload bs < 2 ^ bits * 64 ^ bs.length := readBack_lt hpayload
      obtain ⟨k, hk⟩ : ∃ k, bs.length = k + 1 := ⟨bs.length - 1, by omega⟩
      have hbits : bits = 6 - (k + 1) := by omega
      rw [hk, hbits, two_pow_mul_room (by omega)] at hlt
      rw [List.length_cons, hk]
      exact hlt

/-- What is written is a form of the number, and with one byte less it has no room. -/
theorem unicode_to_utf8_form {charcode : ℕ} (hlt : charcode < 2 ^ 31) :
    IsForm charcode (unicode_to_utf8 charcode) ∧
      room ((unicode_to_utf8 charcode).length - 1) ≤ charcode := by
  by_cases hshort : charcode < 128
  · rw [unicode_to_utf8, if_pos hshort]
    exact ⟨IsForm.one hshort, Nat.zero_le _⟩
  have hlong := Nat.le_of_not_lt hshort
  obtain ⟨payload, more, hloop, hmore, hpayload, hbytes, hback, hneeded⟩ :=
    encodeLoop_spec 5 (charcode / 64) [128 + charcode % 64] (by decide) le_rfl
      (Nat.div_lt_of_lt_mul hlt)
  have hwhole : readBack payload (more ++ [128 + charcode % 64]) = charcode := by
    rw [readBack_concat, hback]
    omega
  have hlen : (more ++ [128 + charcode % 64]).length = more.length + 1 := List.length_append
  rw [unicode_to_utf8_long hlong, hloop]
  constructor
  · have hform : IsForm (readBack payload (more ++ [128 + charcode % 64])) _ :=
      IsForm.long (by omega) (Nat.sub_le 5 _) hpayload (by rw [hlen]; omega) (by
        intro b hb
        rcases List.mem_append.mp hb with hb | hb
        · obtain ⟨n, rfl⟩ := hbytes b hb
          exact isContinuation_low n
        · rw [List.mem_singleton.mp hb]
          exact isContinuation_low charcode)
    rwa [hwhole] at hform
  · rw [List.length_cons, hlen, Nat.add_sub_cancel]
    rcases Nat.eq_zero_or_pos more.length with hnil | hpos
    · rw [hnil]
      exact hlong
    · obtain ⟨k, hk⟩ : ∃ k, more.length = k + 1 := ⟨more.length - 1, by omega⟩
      have hbound := hneeded (List.length_pos_iff.mp hpos)
      rw [hk, Nat.add_sub_cancel] at hbound
      rw [hk]
      have hroom : 2 ^ (6 - (k + 1)) * 64 ^ (k + 1) = 2 ^ (5 * (k + 1) + 6) :=
        two_pow_mul_room (by omega)
      calc 2 ^ (5 * k + 11) = 2 ^ (6 - (k + 1)) * 64 ^ (k + 1) := by rw [hroom, mul_add]
        _ = 2 ^ (5 + 1 - (k + 1)) * 64 ^ k * 64 := by rw [pow_succ, mul_assoc]
        _ ≤ charcode / 64 * 64 := Nat.mul_le_mul_right 64 hbound
        _ ≤ charcode := Nat.div_mul_le_self charcode 64

/-- Forms of one number that are equally long are the same. -/
theorem IsForm.unique {c : ℕ} {l l' : List ℕ} (h : IsForm c l) (h' : IsForm c l')
    (hlen : l.length = l'.length) : l = l' := by
  cases h with
  | one _ =>
      cases h' with
      | one _ => rfl
      | long hlow hhigh hpayload hbs =>
          simp only [List.length_cons, List.length_nil] at hlen
          omega
  | @long bits payload bs hlow hhigh hpayload hbs hcont =>
      generalize hc : readBack payload bs = c at h'
      cases h' with
      | one _ =>
          simp only [List.length_cons, List.length_nil] at hlen
          omega
      | @long bits' payload' bs' hlow' hhigh' hpayload' hbs' hcont' =>
          have hbslen : bs.length = bs'.length := Nat.succ.inj hlen
          obtain rfl : bits = bits' := by omega
          obtain ⟨rfl, rfl⟩ := readBack_inj bs bs' payload payload' hbslen hcont hcont' hc
          rfl

/-- Any other form of the number is longer. -/
theorem unicode_to_utf8_least {charcode : ℕ} (hlt : charcode < 2 ^ 31) {l : List ℕ}
    (h : IsForm charcode l) (hne : l ≠ unicode_to_utf8 charcode) :
    (unicode_to_utf8 charcode).length < l.length := by
  obtain ⟨hform, hroom⟩ := unicode_to_utf8_form hlt
  rcases Nat.lt_trichotomy l.length (unicode_to_utf8 charcode).length with hlt' | heq | hgt
  · have hfits := room_mono (Nat.le_sub_one_of_lt hlt')
    exact absurd h.lt_room (Nat.not_lt.mpr (hfits.trans hroom))
  · exact absurd (h.unique hform heq) hne
  · exact hgt

/-! ## The decoder -/

/-- The lead byte after `j` turns. -/
def shifted (lead j : ℕ) : ℕ := lead * 2 ^ j % 256

theorem shifted_succ (lead j : ℕ) : shifted lead j <<< 1 &&& 0xff = shifted lead (j + 1) := by
  have hmask (n : ℕ) : n &&& 0xff = n % 256 := Nat.and_two_pow_sub_one_eq_mod n 8
  rw [hmask, Nat.shiftLeft_eq, shifted, shifted, Nat.mod_mul_mod, mul_assoc, ← pow_add]

/-- The loop takes as many turns as the lead byte announces further bytes. -/
theorem shifted_guard : ∀ bits < 6, 1 ≤ bits → ∀ payload < 2 ^ bits, ∀ j < 7 - bits,
    shifted (leadBase bits + payload) j &&& 0xC0 = 0xC0 ↔ j < 6 - bits := by decide

/-- At the end the mask leaves the payload. -/
theorem shifted_mask : ∀ bits < 6, 1 ≤ bits → ∀ payload < 2 ^ bits,
    shifted (leadBase bits + payload) (6 - bits) >>> (6 - bits) &&&
      ((1 <<< 6) - 1) >>> (6 - bits) = payload := by decide

theorem lowBits_natCast (b : ℕ) : lowBits b = b % 64 := rfl

section Decoder

variable {bits payload : ℕ} (rest : List ℤ)

/-- The loop from its turn `j` on, when `charcode` holds the bits of the `j` bytes read. -/
theorem decodeLoop_form (hlow : 1 ≤ bits) (hhigh : bits ≤ 5) (hpayload : payload < 2 ^ bits) :
    ∀ (bs : List ℕ) (j charcode : ℕ), j + bs.length = 6 - bits → charcode < 64 ^ j →
      decodeLoop (shifted (leadBase bits + payload) j) (((1 <<< 6) - 1) >>> j) j (6 * j)
          charcode (bs.map Nat.cast ++ rest) =
        some (payload * 64 ^ (j + bs.length) + readBack charcode bs, rest) := by
  intro bs
  induction bs with
  | nil =>
      intro j charcode hj hcode
      obtain rfl : j = 6 - bits := hj
      have hguard := shifted_guard bits (by omega) hlow payload hpayload (6 - bits) (by omega)
      have hmask := shifted_mask bits (by omega) hlow payload hpayload
      rw [decodeLoop.eq_def, if_neg (fun h => lt_irrefl _ (hguard.mp h)), if_pos (by omega),
        hmask]
      have hshift : payload <<< (6 * (6 - bits)) + charcode =
          payload <<< (6 * (6 - bits)) ||| charcode := by
        apply Nat.shiftLeft_add_eq_or_of_lt
        rwa [pow_mul]
      rw [Nat.or_comm, ← hshift, Nat.shiftLeft_eq, pow_mul]
      rfl
  | cons b bs ih =>
      intro j charcode hj hcode
      rw [List.length_cons] at hj
      have hguard := shifted_guard bits (by omega) hlow payload hpayload j (by omega)
      have hcode' : charcode * 64 < 64 ^ (j + 1) := by
        rw [pow_succ]
        exact Nat.mul_lt_mul_of_pos_right hcode (by decide)
      have hword : 64 ^ (j + 1) ≤ twoPow32 :=
        (Nat.pow_le_pow_right (by decide) (show j + 1 ≤ 5 by omega)).trans (by decide)
      have hlowBits : b % 64 < 2 ^ 6 := Nat.mod_lt _ (by decide)
      have hturn : charcode <<< other_bits % twoPow32 ||| lowBits b = charcode * 64 + b % 64 := by
        rw [Nat.shiftLeft_eq, show 2 ^ other_bits = 64 from rfl,
          Nat.mod_eq_of_lt (hcode'.trans_le hword), lowBits_natCast]
        have hor := Nat.shiftLeft_add_eq_or_of_lt hlowBits charcode
        rw [Nat.shiftLeft_eq] at hor
        exact hor.symm
      rw [List.map_cons, List.cons_append, decodeLoop, if_pos (hguard.mpr (by omega)),
        shifted_succ, hturn, ← Nat.shiftRight_add, show 6 * j + 6 = 6 * (j + 1) from rfl,
        ih (j + 1) (charcode * 64 + b % 64) (by omega) (by rw [pow_succ] at hcode' ⊢; omega),
        List.length_cons, readBack_cons, Nat.add_right_comm j 1, Nat.add_assoc]

/-- **Any form is read back**, and what follows it stays. -/
theorem utf8_to_unicode_form {c : ℕ} {l : List ℕ} (h : IsForm c l) :
    utf8_to_unicode (l.map Nat.cast ++ rest) = some (c, rest) := by
  cases h with
  | one hc =>
      have hshort : ((c : ℕ) : ℤ) < 128 := by exact_mod_cast hc
      have hsmall : c % twoPow32 = c := Nat.mod_eq_of_lt (hc.trans (by decide))
      show utf8_to_unicode ((c : ℤ) :: rest) = _
      rw [utf8_to_unicode, if_pos hshort]
      show some (c % twoPow32, rest) = _
      rw [hsmall]
  | @long bits payload bs hlow hhigh hpayload hlen hbs =>
      have hlead : ∀ b < 6, 1 ≤ b → ∀ n < 2 ^ b,
          128 ≤ leadBase b + n ∧ shifted (leadBase b + n) 0 = leadBase b + n := by decide
      obtain ⟨hlong, hbyte⟩ := hlead bits (by omega) hlow payload hpayload
      have hloop := decodeLoop_form rest hlow hhigh hpayload bs 0 0 (by omega) (by decide)
      rw [hbyte, zero_add, ← readBack_eq_add] at hloop
      have hbig : ¬ ((leadBase bits + payload : ℕ) : ℤ) < 128 := by
        rw [not_lt]
        exact_mod_cast hlong
      rw [List.map_cons, List.cons_append, utf8_to_unicode, if_neg hbig]
      exact hloop

end Decoder

/-- A form is a byte that leads and bytes that continue, six at most. -/
theorem IsForm.shape {c : ℕ} {l : List ℕ} (h : IsForm c l) :
    ∃ lead bs, l = lead :: bs ∧ ¬ IsContinuation lead ∧
      (∀ b ∈ bs, IsContinuation b) ∧ l.length ≤ 6 := by
  cases h with
  | one hc =>
      refine ⟨c, [], rfl, fun hcont => ?_, by simp, by simp⟩
      exact absurd hcont.1 (Nat.not_le.mpr hc)
  | @long bits payload bs hlow hhigh hpayload hlen hbs =>
      have hlead : ∀ b < 6, 1 ≤ b → ∀ n < 2 ^ b,
          ¬ IsContinuation (leadBase b + n) := by decide
      refine ⟨_, bs, rfl, hlead bits (by omega) hlow payload hpayload, hbs, ?_⟩
      rw [List.length_cons, hlen]
      omega

/-- **Writing and reading back.** Every number below `2^31` is written as bytes, the
first of which leads and the others continue; they are its shortest form, of at most six
bytes, and the decoder reads exactly them. -/
theorem utf8_to_unicode_unicode_to_utf8 {c : ℕ} (hc : c < 2 ^ 31) (rest : List ℤ) :
    (∀ b ∈ unicode_to_utf8 c, b < 256) ∧
    (∃ lead bs, unicode_to_utf8 c = lead :: bs ∧ ¬ IsContinuation lead ∧
      ∀ b ∈ bs, IsContinuation b) ∧
    (unicode_to_utf8 c).length ≤ 6 ∧
    IsForm c (unicode_to_utf8 c) ∧
    (∀ l, IsForm c l → l ≠ unicode_to_utf8 c → (unicode_to_utf8 c).length < l.length) ∧
    utf8_to_unicode ((unicode_to_utf8 c).map Nat.cast ++ rest) = some (c, rest) := by
  obtain ⟨hform, -⟩ := unicode_to_utf8_form hc
  obtain ⟨lead, bs, hshape, hleads, hbs, hlen⟩ := hform.shape
  exact ⟨(unicode_to_utf8_word hc).1, ⟨lead, bs, hshape, hleads, hbs⟩, hlen, hform,
    fun l hl hne => unicode_to_utf8_least hc hl hne, utf8_to_unicode_form rest hform⟩

/-- The euro sign, with a byte behind it that belongs to no form. -/
theorem utf8_to_unicode_unicode_to_utf8_euro :
    (∀ b ∈ unicode_to_utf8 0x20AC, b < 256) ∧
    (∃ lead bs, unicode_to_utf8 0x20AC = lead :: bs ∧ ¬ IsContinuation lead ∧
      ∀ b ∈ bs, IsContinuation b) ∧
    (unicode_to_utf8 0x20AC).length ≤ 6 ∧
    IsForm 0x20AC (unicode_to_utf8 0x20AC) ∧
    (∀ l, IsForm 0x20AC l → l ≠ unicode_to_utf8 0x20AC →
      (unicode_to_utf8 0x20AC).length < l.length) ∧
    utf8_to_unicode ((unicode_to_utf8 0x20AC).map Nat.cast ++ [0xFF]) =
      some (0x20AC, [0xFF]) :=
  utf8_to_unicode_unicode_to_utf8 (by decide) [0xFF]

end WaiNative

import WaiNative.Cxx.Decimal

/-!
# Batches of word records

How the clients write the ranking of an article and how the server reads it
back. A record is `{word,counter};`; records are joined until a counter that
starts at one reaches a multiple of 256, and each batch ends with `{}`
(`Batches`). The server's `eachWord` splits a batch at any of `{};`, and each
piece at commas.

`Batches.Holds` says which records have been written so far, in which batches;
`eachWord_finish` that the server reads exactly these, wherever the batches were
cut.
-/

namespace WaiNative

open Cxx

/-! ## Reading -/

/-- The bytes of `{};`. -/
def isDelim (c : UInt8) : Bool := c == 123 || c == 125 || c == 59

/-- The byte of `,`. -/
def isDelim2 (c : UInt8) : Bool := c == 44

/-- What `eachWord` does with one piece: `fn` is called for two fields of which
the second is a positive number. -/
def readPair (wordPair : Str) : Option (Str × ℤ) :=
  match split isDelim2 wordPair with
  | [key, val] =>
      match stoi val with
      | some counter => if counter > 0 then some (key, counter) else none
      | none => none
  | _ => none

/-- The calls of `fn`, in order. What `fn` throws is caught, so that the loop
goes on. -/
def eachWord (word : Str) : List (Str × ℤ) :=
  (tokens isDelim word).filterMap readPair

/-! ## Writing -/

/-- `{word,counter};` -/
def record (word : Str) (counter : ℤ) : Str :=
  [123] ++ word ++ [44] ++ to_string counter ++ [125, 59]

/-- `{}` -/
def emptyRecord : Str := [123, 125]

structure Batches where
  wordArrays : List Str
  upWords : Str
  iCounter : ℕ
deriving DecidableEq

def Batches.start : Batches := ⟨[], [], 1⟩

/-- Write one record; a full batch is closed. -/
def Batches.append (b : Batches) (word : Str) (counter : ℤ) : Batches :=
  let upWords := b.upWords ++ record word counter
  let iCounter := b.iCounter + 1
  if iCounter % 256 = 0 then
    ⟨b.wordArrays ++ [upWords ++ emptyRecord], [], iCounter⟩
  else ⟨b.wordArrays, upWords, iCounter⟩

/-- The two tests behind the loop: what is left makes a batch, and so does
having had no words. -/
def Batches.finish (b : Batches) (noWords : Bool) : List Str :=
  let (upWords, wordArrays) :=
    if b.upWords.isEmpty then (b.upWords, b.wordArrays)
    else (b.upWords ++ emptyRecord, b.wordArrays ++ [b.upWords ++ emptyRecord])
  if noWords then wordArrays ++ [upWords ++ emptyRecord] else wordArrays

/-- Write a list of records. -/
def Batches.appendAll (b : Batches) (rs : List (Str × ℤ)) : Batches :=
  rs.foldl (fun b r => b.append r.1 r.2) b

/-! ## One record -/

/-- A word without delimiters. -/
def Plain (word : Str) : Prop :=
  ∀ c ∈ word, c ≠ 123 ∧ c ≠ 125 ∧ c ≠ 59 ∧ c ≠ 44

instance (word : Str) : Decidable (Plain word) :=
  inferInstanceAs (Decidable (∀ c ∈ word, c ≠ 123 ∧ c ≠ 125 ∧ c ≠ 59 ∧ c ≠ 44))

/-- A record that survives the way to the server. -/
structure Sendable (r : Str × ℤ) : Prop where
  plain : Plain r.1
  pos : 0 < r.2
  le : r.2 ≤ INT_MAX

section Records

theorem isDelim_false {c : UInt8} : isDelim c = false ↔ c ≠ 123 ∧ c ≠ 125 ∧ c ≠ 59 := by
  simp [isDelim, and_assoc]

theorem isDelim2_false {c : UInt8} : isDelim2 c = false ↔ c ≠ 44 := by
  simp [isDelim2]

/-- A digit is no delimiter. -/
theorem digit_plain {s : Str} (hs : ∀ c ∈ s, isDigit c = true) : Plain s := by
  intro c hc
  have hdigit := hs c hc
  refine ⟨?_, ?_, ?_, ?_⟩
  all_goals
    rintro rfl
    revert hdigit
    decide

theorem to_string_pos {n : ℤ} (h : 0 < n) : to_string n = toChars n.natAbs :=
  if_neg (by omega)

theorem readPair_record {r : Str × ℤ} (h : Sendable r) :
    readPair (r.1 ++ 44 :: to_string r.2) = some r := by
  have hdigits : Plain (to_string r.2) := by
    rw [to_string_pos h.pos]
    exact digit_plain (toChars_isDigit _)
  have hne : to_string r.2 ≠ [] := by
    rw [to_string_pos h.pos]
    exact toChars_ne_nil _
  have hpair : split isDelim2 (r.1 ++ 44 :: to_string r.2) = [r.1, to_string r.2] :=
    split_pair (fun c hc => isDelim2_false.mpr (h.plain c hc).2.2.2) rfl
      (fun c hc => isDelim2_false.mpr (hdigits c hc).2.2.2) hne
  have hrange : -INT_MAX - 1 ≤ r.2 ∧ r.2 ≤ INT_MAX := by
    have hpos := h.pos
    refine ⟨?_, h.le⟩
    unfold INT_MAX
    omega
  have hstoi : stoi (to_string r.2) = some r.2 := by rw [stoi_to_string, if_pos hrange]
  unfold readPair
  rw [hpair]
  simp only [hstoi, gt_iff_lt, if_pos h.pos]

/-- **A record is read back, and nothing else of it.** -/
theorem eachWord_record {r : Str × ℤ} (h : Sendable r) (s : Str) :
    eachWord (record r.1 r.2 ++ s) = r :: eachWord s := by
  have hfree : ∀ c ∈ r.1 ++ 44 :: to_string r.2, isDelim c = false := by
    intro c hc
    rw [isDelim_false]
    rcases List.mem_append.mp hc with hc | hc
    · exact ⟨(h.plain c hc).1, (h.plain c hc).2.1, (h.plain c hc).2.2.1⟩
    · rcases List.mem_cons.mp hc with rfl | hc
      · decide
      · rw [to_string_pos h.pos] at hc
        have hplain := digit_plain (toChars_isDigit _) c hc
        exact ⟨hplain.1, hplain.2.1, hplain.2.2.1⟩
  have hbytes : record r.1 r.2 ++ s =
      123 :: ((r.1 ++ 44 :: to_string r.2) ++ 125 :: 59 :: s) := by
    simp [record]
  rw [eachWord, hbytes, tokens_cons_delim (by decide),
    tokens_free_delim hfree (by simp) (by decide), tokens_cons_delim (by decide),
    List.filterMap_cons, readPair_record h]
  rfl

@[simp] theorem eachWord_emptyRecord : eachWord emptyRecord = [] := by decide

end Records

/-! ## What has been written -/

/-- The records of a batch, joined. -/
def joined (rs : List (Str × ℤ)) : Str := (rs.map (fun r => record r.1 r.2)).flatten

/-- The records written so far, in closed batches and in the open one. -/
def Batches.Holds (b : Batches) (rs : List (Str × ℤ)) : Prop :=
  ∃ (closed : List (List (Str × ℤ))) (rest : List (Str × ℤ)),
    b.wordArrays = closed.map (fun l => joined l ++ emptyRecord) ∧
    b.upWords = joined rest ∧ closed.flatten ++ rest = rs ∧ ∀ l ∈ closed, l ≠ []

section Holds

variable {b : Batches} {rs : List (Str × ℤ)}

theorem joined_append_singleton (rs : List (Str × ℤ)) (r : Str × ℤ) :
    joined (rs ++ [r]) = joined rs ++ record r.1 r.2 := by
  simp [joined]

theorem joined_eq_nil : joined rs = [] ↔ rs = [] := by
  constructor
  · intro h
    cases rs with
    | nil => rfl
    | cons r rs => simp [joined, record] at h
  · rintro rfl
    rfl

theorem eachWord_joined (h : ∀ r ∈ rs, Sendable r) :
    eachWord (joined rs ++ emptyRecord) = rs := by
  induction rs with
  | nil => exact eachWord_emptyRecord
  | cons r rs ih =>
      have hjoined : joined (r :: rs) = record r.1 r.2 ++ joined rs := by
        simp [joined]
      rw [hjoined, List.append_assoc, eachWord_record (h r List.mem_cons_self),
        ih (fun x hx => h x (List.mem_cons_of_mem _ hx))]

theorem holds_start : Batches.start.Holds [] := ⟨[], [], rfl, rfl, rfl, by simp⟩

theorem Batches.Holds.append (h : b.Holds rs) (r : Str × ℤ) :
    (b.append r.1 r.2).Holds (rs ++ [r]) := by
  obtain ⟨closed, rest, harrays, hup, rfl, hne⟩ := h
  by_cases hfull : (b.iCounter + 1) % 256 = 0
  · simp only [Batches.append, if_pos hfull]
    refine ⟨closed ++ [rest ++ [r]], [], ?_, rfl, by simp, ?_⟩
    · simp [harrays, hup, joined_append_singleton]
    · intro l hl
      rcases List.mem_append.mp hl with hl | hl
      · exact hne l hl
      · rw [List.mem_singleton.mp hl]
        simp
  · simp only [Batches.append, if_neg hfull]
    exact ⟨closed, rest ++ [r], harrays, by rw [hup, joined_append_singleton], by simp, hne⟩

theorem Batches.Holds.appendAll (h : b.Holds rs) (rs' : List (Str × ℤ)) :
    (b.appendAll rs').Holds (rs ++ rs') := by
  induction rs' generalizing b rs with
  | nil => simpa [Batches.appendAll] using h
  | cons r rs' ih =>
      have happend := ih (h.append r)
      rw [List.append_assoc] at happend
      exact happend

/-- **The server reads every record once, wherever the batches were cut.** -/
theorem eachWord_finish (h : b.Holds rs) (hsend : ∀ r ∈ rs, Sendable r)
    (noWords : Bool) (hnone : noWords = true → rs = []) :
    (b.finish noWords).flatMap eachWord = rs := by
  obtain ⟨closed, rest, harrays, hup, rfl, -⟩ := h
  have hclosed : b.wordArrays.flatMap eachWord = closed.flatten := by
    rw [harrays]
    clear harrays hnone
    induction closed with
    | nil => rfl
    | cons l closed ih =>
        rw [List.map_cons, List.flatMap_cons, List.flatten_cons,
          eachWord_joined (fun r hr => hsend r (by simp [hr])),
          ih (fun r hr => hsend r (by
            rcases List.mem_append.mp hr with hr | hr
            · simp only [List.flatten_cons, List.append_assoc, List.mem_append]
              exact Or.inr (Or.inl hr)
            · simp [hr]))]
  have hopen : eachWord (b.upWords ++ emptyRecord) = rest := by
    rw [hup]
    exact eachWord_joined (fun r hr => hsend r (List.mem_append_right _ hr))
  unfold Batches.finish
  by_cases hempty : b.upWords = []
  · have hrest : rest = [] := joined_eq_nil.mp (hup ▸ hempty)
    cases noWords with
    | false => simp [hempty, hclosed, hrest]
    | true => simp [hempty, hclosed, hrest]
  · cases noWords with
    | false => simp [hempty, hclosed, hopen]
    | true =>
        obtain ⟨-, hrest⟩ := List.append_eq_nil_iff.mp (hnone rfl)
        rw [hrest] at hup
        exact absurd hup hempty

/-- There is a batch exactly when there were no words or some record was
written. -/
theorem finish_ne_nil_iff (h : b.Holds rs) (noWords : Bool) :
    b.finish noWords ≠ [] ↔ noWords = true ∨ rs ≠ [] := by
  obtain ⟨closed, rest, harrays, hup, rfl, hne⟩ := h
  unfold Batches.finish
  have hrest : b.upWords = [] ↔ rest = [] := by rw [hup, joined_eq_nil]
  have hclosed : b.wordArrays = [] ↔ closed.flatten = [] := by
    rw [harrays, List.map_eq_nil_iff, List.flatten_eq_nil_iff]
    constructor
    · rintro rfl
      simp
    · intro hall
      cases closed with
      | nil => rfl
      | cons l closed => exact absurd (hall l List.mem_cons_self) (hne l List.mem_cons_self)
  cases noWords with
  | true =>
      constructor
      · exact fun _ => Or.inl rfl
      · intro _
        by_cases hempty : b.upWords = [] <;> simp [hempty]
  | false =>
      by_cases hempty : b.upWords = []
      · simp only [hempty, List.isEmpty_nil, if_true, Bool.false_eq_true, if_false,
          false_or, ne_eq, List.append_eq_nil_iff, hclosed]
        simp [hrest.mp hempty]
      · have hne' : rest ≠ [] := fun hnil => hempty (hrest.mpr hnil)
        simp [hempty, hne']

end Holds

end WaiNative

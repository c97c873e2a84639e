import WaiNative.Text.ParseIndex

/-!
# The indices of `claw`

`claw` first lets `parseUTF8` fill `words_` and `positions_`, and then walks them with
an `int i`; an `int startPos` takes the end of the last delimiter. Here all three are
checked.

- `checkedClaw_eq`: the index of `parseUTF8` is the only one that overflows, and it does
  where the end that the lead bytes announce is no `int`;
- `claws_iff`: up to there the article is partitioned.
-/

namespace WaiNative

open Cxx

namespace CtrlClaw

/-- The body of the loop; `i`, which is counted up behind it, is where `nowIt` stands. -/
def checkedClawStep (article : Str) (words : List Str) (l : Loop) (c : Str × ℕ) :
    Option Loop := do
  let l ← clawStep article words l c
  if (l.startPos : ℤ) ≤ INT_MAX ∧ (l.nowIt : ℤ) ≤ INT_MAX then some l else none

/-- `claw` with its `int`s checked; `none` is an exception or an overflow. -/
def checkedClaw (c : CtrlClaw) (article : Str) : Option CtrlClaw := do
  let c := c.clear
  let (words, positions) ← checkedParseUTF8 article c.words_ c.positions_
  let l ← (words.zip positions).foldlM (checkedClawStep article words)
    (Loop.start c.sentence_words_)
  pure
    { article_ := article
      sentence_words_ := clawEnd article words l
      words_ := words
      positions_ := positions }

section Loop

/-- There are no more characters than bytes. -/
theorem length_le_flatten : ∀ {l : List Str}, (∀ t ∈ l, t ≠ []) → l.length ≤ l.flatten.length
  | [], _ => Nat.le_refl _
  | t :: l, hl => by
      obtain ⟨ht, hl⟩ := List.forall_mem_cons.mp hl
      have hpos := List.length_pos_iff.mpr ht
      have ih := length_le_flatten hl
      rw [List.length_cons, List.flatten_cons, List.length_append]
      omega

/-- After the characters `done` both places are within them. -/
theorem ClawInv.places {done : List Str} {l : Loop} (h : ClawInv done l)
    (hdone : ∀ t ∈ done, t ≠ []) :
    l.startPos ≤ done.flatten.length ∧ l.nowIt ≤ done.flatten.length := by
  have hlen := h.flatten_length
  have hle := length_le_flatten hdone
  rw [h.nowIt]
  omega

/-- **While the article is no longer than an `int` counts, the loop's own places fit.** -/
theorem checkedClawLoop_eq : ∀ (rest done : List Str) (l : Loop), ClawInv done l →
    (∀ t ∈ done ++ rest, t ≠ []) → ((done ++ rest).flatten.length : ℤ) ≤ INT_MAX →
    (withPositions done.flatten.length rest).foldlM
        (checkedClawStep (done ++ rest).flatten (done ++ rest)) l =
      (withPositions done.flatten.length rest).foldlM
        (clawStep (done ++ rest).flatten (done ++ rest)) l
  | [], _, _, _, _, _ => rfl
  | t :: rest, done, l, h, hne, hfits => by
      obtain ⟨l₁, hstep, h₁⟩ := clawStep_inv h t rest
        (fun x hx => hne x (List.mem_append_left _ hx))
      have hassoc : done ++ t :: rest = (done ++ [t]) ++ rest := by simp
      have hbase : done.flatten.length + t.length = (done ++ [t]).flatten.length := by simp
      rw [hassoc] at hne hfits
      -- behind `t` both places still lie within the article
      have hplaces := h₁.places (fun x hx => hne x (List.mem_append_left _ hx))
      have hchecked : checkedClawStep (done ++ t :: rest).flatten (done ++ t :: rest) l
          (t, done.flatten.length) = some l₁ := by
        rw [List.flatten_append, List.length_append] at hfits
        have hin : (l₁.startPos : ℤ) ≤ INT_MAX ∧ (l₁.nowIt : ℤ) ≤ INT_MAX := by omega
        rw [checkedClawStep, hstep, Option.bind_eq_bind, Option.bind_some, if_pos hin]
      have ih := checkedClawLoop_eq rest (done ++ [t]) l₁ h₁ hne hfits
      rw [withPositions, List.foldlM_cons, List.foldlM_cons, hstep, hchecked, hbase, hassoc]
      exact ih

end Loop

theorem checkedClaw_eq (c : CtrlClaw) (article : Str) : c.checkedClaw article =
    if (announced article : ℤ) ≤ INT_MAX then c.claw article else none := by
  rw [checkedClaw, claw, checkedParseUTF8_eq]
  by_cases hfits : (announced article : ℤ) ≤ INT_MAX
  · have hlen : (article.length : ℤ) ≤ INT_MAX :=
      (Int.ofNat_le.mpr (length_le_announced article)).trans hfits
    have hloop := checkedClawLoop_eq (characters article) [] (Loop.start []) clawInv_start
      (characters_ne_nil article) (by rwa [List.nil_append, characters_flatten])
    simp only [List.nil_append, List.flatten_nil, List.length_nil, characters_flatten] at hloop
    have hwords : (parseUTF8 article [] []).1 = characters article := by
      simp [parseUTF8, characters]
    have hzip := parseUTF8_zip article
    rw [hwords] at hzip
    rw [if_pos hfits, if_pos hfits]
    simp only [clear, hwords, hzip, hloop, Option.bind_eq_bind, Option.bind_some]
  · rw [if_neg hfits, if_neg hfits]
    rfl

/-- `claw` returns, with entries that partition the article. -/
def Claws (c : CtrlClaw) (article : Str) : Prop :=
  ∃ c', c.checkedClaw article = some c' ∧ Partition article c'.sentence_words_

/-- **`claw` partitions an article exactly when the end it announces is an `int`**,
whatever the object clawed before. -/
theorem claws_iff (c : CtrlClaw) (article : Str) :
    c.Claws article ↔ (announced article : ℤ) ≤ INT_MAX := by
  rw [Claws, checkedClaw_eq]
  constructor
  · rintro ⟨c', hclaw, -⟩
    by_contra hover
    rw [if_neg hover] at hclaw
    cases hclaw
  · intro hfits
    rw [if_pos hfits]
    exact claw_partition c article

/-- Two gigabytes of one letter, in a fresh object. -/
theorem not_claws_replicate : ¬ Claws ⟨[], [], [], []⟩ (List.replicate (2 ^ 31) 97) := by
  rintro ⟨c', hclaw, -⟩
  have hlen := length_le_announced (List.replicate (2 ^ 31) 97)
  rw [List.length_replicate] at hlen
  have hover : ¬ ((announced (List.replicate (2 ^ 31) 97) : ℕ) : ℤ) ≤ INT_MAX := by
    unfold INT_MAX
    omega
  rw [checkedClaw_eq, if_neg hover] at hclaw
  cases hclaw

end CtrlClaw

end WaiNative

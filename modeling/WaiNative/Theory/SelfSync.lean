import Mathlib.Data.List.Infix
import Mathlib.Tactic.Common

/-!
# Self-synchronising codes

A code whose words begin with a symbol that occurs nowhere else in a word and
tells the length of the word. A sequence of words is then read back from any
place: where the first symbol of a word stands, a word begins
(`Code.cut_of_prefix`), and what the symbols of some words start, these words
start (`Code.prefix_of_flatten`).
-/

namespace WaiNative

/-- Which symbols continue a word, and how long the word is that another symbol
begins. -/
structure Code (α : Type*) where
  trails : α → Bool
  size : α → ℕ

namespace Code

variable {α : Type*} (C : Code α)

/-- The sequence begins like a word. -/
def Starts (w : List α) : Prop := ∃ b bs, w = b :: bs ∧ C.trails b = false

/-- A word of the code. -/
def Word (t : List α) : Prop :=
  ∃ b bs, t = b :: bs ∧ C.trails b = false ∧ (∀ x ∈ bs, C.trails x = true) ∧
    t.length = C.size b

variable {C}

theorem Word.ne_nil {t : List α} (h : C.Word t) : t ≠ [] := by
  obtain ⟨b, bs, rfl, -⟩ := h
  exact List.cons_ne_nil b bs

/-- Inside a word no word begins. -/
theorem Word.drop_trails {t r w : List α} {p : ℕ} (h : C.Word t) (hp : 0 < p)
    (hlt : p < t.length) (hw : w <+: t.drop p ++ r) : ¬ C.Starts w := by
  obtain ⟨b, bs, rfl, -, hbs, -⟩ := h
  rintro ⟨c, cs, rfl, hc⟩
  obtain ⟨p, rfl⟩ : ∃ q, p = q + 1 := ⟨p - 1, by omega⟩
  have hlt' : p < bs.length := by simpa using hlt
  rw [List.drop_succ_cons, List.drop_eq_getElem_cons hlt', List.cons_append] at hw
  obtain ⟨hhead, -⟩ := List.cons_prefix_cons.mp hw
  have htrails := hbs _ (List.getElem_mem hlt')
  rw [← hhead, hc] at htrails
  exact Bool.noConfusion htrails

/-- **Where something that begins like a word is found, a word begins.** -/
theorem cut_of_prefix {w : List α} (hw : C.Starts w) : ∀ {ts : List (List α)} {p : ℕ},
    (∀ t ∈ ts, C.Word t) → w <+: ts.flatten.drop p →
      ∃ pre suf, ts = pre ++ suf ∧ p = pre.flatten.length
  | [], p => by
      intro _ h
      obtain ⟨b, bs, rfl, -⟩ := hw
      rw [List.flatten_nil, List.drop_nil] at h
      exact absurd (List.prefix_nil.mp h) (List.cons_ne_nil b bs)
  | t :: ts, p => by
      intro hts h
      obtain ⟨ht, hts⟩ := List.forall_mem_cons.mp hts
      by_cases hp : p = 0
      · subst hp
        exact ⟨[], t :: ts, rfl, rfl⟩
      by_cases hlt : p < t.length
      · rw [List.flatten_cons, List.drop_append_of_le_length hlt.le] at h
        exact absurd hw (ht.drop_trails (Nat.pos_of_ne_zero hp) hlt h)
      · have hle : t.length ≤ p := Nat.le_of_not_lt hlt
        rw [List.flatten_cons, List.drop_append, List.drop_eq_nil_of_le hle,
          List.nil_append] at h
        obtain ⟨pre, suf, rfl, hpre⟩ := cut_of_prefix hw hts h
        refine ⟨t :: pre, suf, rfl, ?_⟩
        rw [List.flatten_cons, List.length_append]
        omega

/-- Two words of which one starts the other, whatever follows, are one word. -/
theorem Word.eq_of_prefix {t u r r' : List α} (ht : C.Word t) (hu : C.Word u)
    (h : t ++ r <+: u ++ r') : t = u := by
  have hlen : t.length = u.length := by
    obtain ⟨b, bs, rfl, -, -, hsize⟩ := ht
    obtain ⟨b', bs', rfl, -, -, hsize'⟩ := hu
    rw [List.cons_append, List.cons_append] at h
    obtain ⟨rfl, -⟩ := List.cons_prefix_cons.mp h
    rw [hsize, hsize']
  obtain ⟨s, hs⟩ := h
  rw [List.append_assoc] at hs
  exact (List.append_inj hs hlen).1

/-- **Words whose symbols start a sequence of words start that sequence.** -/
theorem prefix_of_flatten : ∀ {ts us : List (List α)}, (∀ t ∈ ts, C.Word t) →
    (∀ u ∈ us, C.Word u) → ts.flatten <+: us.flatten → ts <+: us
  | [], us => fun _ _ _ => List.nil_prefix
  | t :: ts, [] => by
      intro hts _ h
      rw [List.flatten_nil, List.prefix_nil, List.flatten_cons, List.append_eq_nil_iff] at h
      exact absurd h.1 (hts t List.mem_cons_self).ne_nil
  | t :: ts, u :: us => by
      intro hts hus h
      obtain ⟨ht, htail⟩ := List.forall_mem_cons.mp hts
      obtain ⟨hu, hutail⟩ := List.forall_mem_cons.mp hus
      rw [List.flatten_cons, List.flatten_cons] at h
      obtain rfl := ht.eq_of_prefix hu h
      have hrest := (List.prefix_append_right_inj t).mp h
      exact List.cons_prefix_cons.mpr ⟨rfl, prefix_of_flatten htail hutail hrest⟩

end Code

end WaiNative

import WaiNative.Cxx.Strings
import Mathlib.Data.List.Chain
import Mathlib.Tactic.Ring

/-!
# Tilings of an interval

Elements of any type with a start `s` and an end `e`. `Tiles s e b t l` says
that `l` is a gap-free chain from `b` to `t`: it starts at `b`, every element
starts where the previous one ends, and the last ends at `t`.

- a tiling can be cut at every point no element spans (`Tiles.cut`);
- the lengths of its elements, weighted with where they lie, add up to a value
  that only the ends determine (`Tiles.sum_moments`);
- its elements are disjoint and in order; conversely, disjoint elements in order
  touch each other exactly when what they cover has no hole
  (`isChain_iff_convex`);
- the words of a tiling, each the slice of a text its element covers, spell
  the slice of the whole interval (`Tiles.spell`);
- texts for consecutive blocks, none longer than its block, spell the whole
  exactly when each spells its block (`Fits.spell_all_iff`).
-/

namespace WaiNative.Tiling

open Cxx

variable {α γ : Type*} {s e : α → ℕ}

/-- A gap-free chain from `b` to `t`. -/
inductive Tiles (s e : α → ℕ) : ℕ → ℕ → List α → Prop
  | nil (b : ℕ) : Tiles s e b b []
  | cons {b t : ℕ} {a : α} {l : List α} :
      s a = b → Tiles s e (e a) t l → Tiles s e b t (a :: l)

/-- Every element has a positive length. -/
def Positive (s e : α → ℕ) (l : List α) : Prop := ∀ a ∈ l, s a < e a

theorem Positive.tail {a : α} {l : List α} (h : Positive s e (a :: l)) :
    Positive s e l := fun x hx => h x (List.mem_cons_of_mem _ hx)

theorem Positive.head {a : α} {l : List α} (h : Positive s e (a :: l)) :
    s a < e a := h a List.mem_cons_self

/-! ## Joining and cutting -/

theorem Tiles.append {b m t : ℕ} {l l' : List α} (h : Tiles s e b m l)
    (h' : Tiles s e m t l') : Tiles s e b t (l ++ l') := by
  induction h with
  | nil b => exact h'
  | cons hs _ ih => exact Tiles.cons hs (ih h')

theorem tiles_singleton (a : α) : Tiles s e (s a) (e a) [a] :=
  Tiles.cons rfl (Tiles.nil _)

theorem Tiles.le {b t : ℕ} {l : List α} (h : Tiles s e b t l)
    (hpos : Positive s e l) : b ≤ t := by
  induction h with
  | nil b => exact le_rfl
  | cons hs _ ih =>
      have hlt := hpos.head
      have hle := ih hpos.tail
      omega

/-- Every element lies inside the interval. -/
theorem Tiles.bounds {b t : ℕ} {l : List α} (h : Tiles s e b t l)
    (hpos : Positive s e l) {a : α} (ha : a ∈ l) : b ≤ s a ∧ e a ≤ t := by
  induction h with
  | nil b => exact absurd ha List.not_mem_nil
  | cons hs h ih =>
      have hlt := hpos.head
      have hle := h.le hpos.tail
      rcases List.mem_cons.mp ha with rfl | ha
      · exact ⟨hs.ge, hle⟩
      · obtain ⟨hb, ht⟩ := ih hpos.tail ha
        exact ⟨by omega, ht⟩

/-- The elements are disjoint and in order. -/
theorem Tiles.ordered {b t : ℕ} {l : List α} (h : Tiles s e b t l)
    (hpos : Positive s e l) : l.Pairwise (fun a a' => e a ≤ s a') := by
  induction h with
  | nil b => exact List.Pairwise.nil
  | cons hs h ih =>
      refine List.pairwise_cons.mpr ⟨?_, ih hpos.tail⟩
      intro a' ha'
      exact (h.bounds hpos.tail ha').1

/-- A chain has one end only. -/
theorem Tiles.stop_unique {b t t' : ℕ} {l : List α} (h : Tiles s e b t l)
    (h' : Tiles s e b t' l) : t = t' := by
  induction h with
  | nil b => cases h'; rfl
  | cons hs _ ih =>
      cases h' with
      | cons _ h' => exact ih h'

/-- No chain leads over a position where every element from the start ends and none
begins. -/
theorem not_tiles_of_dead_end {b m t : ℕ} {l : List α} (hb : b ≠ t) (hm : m ≠ t)
    (hends : ∀ a ∈ l, s a = b → e a = m) (hbegins : ∀ a ∈ l, s a ≠ m) :
    ¬ Tiles s e b t l := by
  intro h
  cases h with
  | nil => exact hb rfl
  | @cons _ _ a l hs h =>
      rw [hends a List.mem_cons_self hs] at h
      cases h with
      | nil => exact hm rfl
      | @cons _ _ a' l' hs' h' => exact hbegins a' (by simp) hs'

/-- An element ends where the interval does, or another one starts there. -/
theorem Tiles.next {b t : ℕ} {l : List α} (h : Tiles s e b t l) {a : α} (ha : a ∈ l) :
    e a = t ∨ ∃ a' ∈ l, s a' = e a := by
  induction h with
  | nil b => exact absurd ha List.not_mem_nil
  | @cons b t x l hs h ih =>
      rcases List.mem_cons.mp ha with rfl | ha
      · cases h with
        | nil => exact Or.inl rfl
        | @cons _ _ y l hy _ => exact Or.inr ⟨y, by simp, hy⟩
      · exact (ih ha).imp_right (fun ⟨y, hy, heq⟩ => ⟨y, List.mem_cons_of_mem _ hy, heq⟩)

/-- A position inside a tiled interval lies in one of the elements. -/
theorem Tiles.exists_mem {b t m : ℕ} {l : List α}
    (h : Tiles s e b t l) (hb : b ≤ m) (ht : m < t) : ∃ a ∈ l, s a ≤ m ∧ m < e a := by
  induction h with
  | nil => omega
  | @cons b t a l hs _ ih =>
      by_cases hm : m < e a
      · exact ⟨a, List.mem_cons_self, by omega, hm⟩
      · obtain ⟨a', ha', hm'⟩ := ih (by omega) ht
        exact ⟨a', List.mem_cons_of_mem _ ha', hm'⟩

/-- A tiling can be cut at every point that none of its elements spans. -/
theorem Tiles.cut {b t m : ℕ} {l : List α} (h : Tiles s e b t l)
    (hpos : Positive s e l) (hb : b ≤ m) (hm : m ≤ t)
    (hspan : ∀ a ∈ l, m ≤ s a ∨ e a ≤ m) :
    ∃ l₁ l₂, l = l₁ ++ l₂ ∧ Tiles s e b m l₁ ∧ Tiles s e m t l₂ := by
  induction h with
  | nil b =>
      obtain rfl : b = m := le_antisymm hb hm
      exact ⟨[], [], rfl, Tiles.nil _, Tiles.nil _⟩
  | @cons b t a l hs h ih =>
      by_cases hbm : b = m
      · subst hbm
        exact ⟨[], a :: l, rfl, Tiles.nil _, Tiles.cons hs h⟩
      · -- the first element starts before the cut, so it ends before it
        have hea : e a ≤ m := by
          rcases hspan a List.mem_cons_self with hge | hle
          · omega
          · exact hle
        obtain ⟨l₁, l₂, rfl, h₁, h₂⟩ := ih hpos.tail hea hm
          (fun x hx => hspan x (List.mem_cons_of_mem _ hx))
        exact ⟨a :: l₁, l₂, rfl, Tiles.cons hs h₁, h₂⟩

/-- Cut at two points, a tiling leaves one of what is between them. -/
theorem Tiles.middle {b t p q : ℕ} {l : List α} (h : Tiles s e b t l)
    (hpos : Positive s e l) (hbp : b ≤ p) (hpq : p ≤ q) (hqt : q ≤ t)
    (hp : ∀ a ∈ l, p ≤ s a ∨ e a ≤ p) (hq : ∀ a ∈ l, q ≤ s a ∨ e a ≤ q) :
    ∃ m, (∀ a ∈ m, a ∈ l ∧ p ≤ s a ∧ e a ≤ q) ∧ Tiles s e p q m := by
  obtain ⟨l₁, rest, rfl, -, hrest⟩ := h.cut hpos hbp (hpq.trans hqt) hp
  obtain ⟨m, l₃, rfl, hmid, -⟩ := hrest.cut
    (fun a ha => hpos a (List.mem_append_right _ ha)) hpq hqt
    (fun a ha => hq a (List.mem_append_right _ ha))
  refine ⟨m, ?_, hmid⟩
  intro a ha
  have hin := hmid.bounds (fun x hx => hpos x (by simp [hx])) ha
  exact ⟨by simp [ha], hin⟩

/-! ## Moments -/

/-- Twice the first moment of the interval: the difference of the squares of its ends. -/
def moment (s e : α → ℕ) (a : α) : ℕ := (e a - s a) * (e a + s a)

/-- The moments of a tiling add up to the moment of the whole interval. -/
theorem Tiles.sum_moments {b t : ℕ} {l : List α} (h : Tiles s e b t l)
    (hpos : Positive s e l) : (l.map (moment s e)).sum + b * b = t * t := by
  induction h with
  | nil b => simp
  | @cons b t a l hs h ih =>
      obtain ⟨k, hk⟩ := Nat.exists_eq_add_of_le hpos.head.le
      have hrest := ih hpos.tail
      have hmoment : moment s e a + b * b = e a * e a := by
        rw [moment, hk, hs, Nat.add_sub_cancel_left]
        ring
      rw [List.map_cons, List.sum_cons]
      calc moment s e a + (l.map (moment s e)).sum + b * b
          = (l.map (moment s e)).sum + (moment s e a + b * b) := by ring
        _ = t * t := by rw [hmoment, hrest]

/-! ## Neighbours that touch -/

/-- Some element of the list lies over the position. -/
def Covers (s e : α → ℕ) (l : List α) (m : ℕ) : Prop := ∃ a ∈ l, s a ≤ m ∧ m < e a

/-- Elements none of which starts behind the end of the one before it leave out no
position between where the first starts and where one of them ends. -/
theorem covers_of_linked {m : ℕ} : ∀ {l : List α} {a : α},
    (a :: l).IsChain (fun a a' => s a' ≤ e a) → s a ≤ m → (∃ x ∈ a :: l, m < e x) →
    Covers s e (a :: l) m
  | [], a, _, hs, hreach => by
      obtain ⟨x, hx, hxe⟩ := hreach
      rw [List.mem_singleton] at hx
      exact ⟨a, List.mem_cons_self, hs, hx ▸ hxe⟩
  | a' :: l, a, h, hs, hreach => by
      obtain ⟨hlink, hrest⟩ := List.isChain_cons_cons.mp h
      by_cases hm : m < e a
      · exact ⟨a, List.mem_cons_self, hs, hm⟩
      · have hreach' : ∃ x ∈ a' :: l, m < e x := by
          obtain ⟨x, hx, hxe⟩ := hreach
          rcases List.mem_cons.mp hx with rfl | hx
          · exact absurd hxe hm
          · exact ⟨x, hx, hxe⟩
        obtain ⟨x, hx, hcover⟩ :=
          covers_of_linked hrest (hlink.trans (not_lt.mp hm)) hreach'
        exact ⟨x, List.mem_cons_of_mem _ hx, hcover⟩

/-- Elements each of which starts where the one before it ends make a tiling. -/
theorem tiles_of_isChain : ∀ {l : List α} {a : α},
    (a :: l).IsChain (fun a a' => e a = s a') → ∃ t, Tiles s e (s a) t (a :: l)
  | [], a, _ => ⟨e a, tiles_singleton a⟩
  | a' :: l, a, h => by
      obtain ⟨htouch, hrest⟩ := List.isChain_cons_cons.mp h
      obtain ⟨t, ht⟩ := tiles_of_isChain hrest
      exact ⟨t, Tiles.cons rfl (htouch ▸ ht)⟩

/-- **Disjoint elements in order touch each other exactly when they leave out no
position between two that they cover.** -/
theorem isChain_iff_convex {l : List α} (hord : l.Pairwise (fun a a' => e a ≤ s a'))
    (hpos : Positive s e l) :
    l.IsChain (fun a a' => e a = s a') ↔ ∀ m₁ m₂ m₃, m₁ ≤ m₂ → m₂ ≤ m₃ →
      Covers s e l m₁ → Covers s e l m₃ → Covers s e l m₂ := by
  constructor
  · rintro hchain m₁ m₂ m₃ h₁₂ h₂₃ ⟨a, ha, hs, -⟩ ⟨a', ha', -, he⟩
    cases l with
    | nil => exact absurd ha List.not_mem_nil
    | cons x l =>
        obtain ⟨t, ht⟩ := tiles_of_isChain hchain
        have hlo := (ht.bounds hpos ha).1
        have hhi := (ht.bounds hpos ha').2
        exact ht.exists_mem (by omega) (by omega)
  · intro hconvex
    rw [List.isChain_iff_forall_rel_of_append_cons_cons]
    rintro a a' l₁ l₂ rfl
    obtain ⟨-, htail, hleft⟩ := List.pairwise_append.mp hord
    obtain ⟨hhead, htail⟩ := List.pairwise_cons.mp htail
    have hlt := hpos a (by simp)
    have hlt' := hpos a' (by simp)
    have hle := hhead a' List.mem_cons_self
    by_contra hne
    -- the end of `a` is left out
    obtain ⟨x, hx, hxs, hxe⟩ := hconvex (s a) (e a) (s a') hlt.le hle
      ⟨a, by simp, le_rfl, hlt⟩ ⟨a', by simp, le_rfl, hlt'⟩
    rcases List.mem_append.mp hx with hx | hx
    · have hbefore := hleft x hx a List.mem_cons_self
      omega
    · rcases List.mem_cons.mp hx with rfl | hx
      · omega
      · rcases List.mem_cons.mp hx with rfl | hx
        · omega
        · have hbehind := (List.pairwise_cons.mp htail).1 x hx
          omega

/-! ## Spelling -/

/-- The words of a tiling spell the interval it tiles. -/
theorem Tiles.spell {b t : ℕ} {l : List α} (h : Tiles s e b t l)
    (hpos : Positive s e l) {text : Str} {word : α → Str}
    (hword : ∀ a ∈ l, word a = slice text (s a) (e a - s a)) :
    (l.map word).flatten = slice text b (t - b) := by
  induction h with
  | nil b => simp [slice]
  | @cons b t a l hs h ih =>
      have hlt := hpos.head
      have hle := h.le hpos.tail
      have hrest := ih hpos.tail
        (fun x hx => hword x (List.mem_cons_of_mem _ hx))
      calc ((a :: l).map word).flatten
          = slice text (s a) (e a - s a) ++ slice text (e a) (t - e a) := by
            rw [List.map_cons, List.flatten_cons, hrest,
              hword a List.mem_cons_self]
        _ = slice text (s a) (e a - s a) ++
              slice text (s a + (e a - s a)) (t - e a) := by
            rw [Nat.add_sub_cancel' hlt.le]
        _ = slice text b (t - b) := by
            rw [slice_add, hs]
            congr 1
            omega

/-! ## Spelling block by block -/

/-- Each right element of related lists has a left one. -/
theorem exists_of_mem_right {β : Type*} {R : γ → β → Prop} {l : List γ} {m : List β}
    (h : List.Forall₂ R l m) {y : β} (hy : y ∈ m) : ∃ x ∈ l, R x y := by
  induction h with
  | nil => exact absurd hy List.not_mem_nil
  | cons hxy _ ih =>
      rcases List.mem_cons.mp hy with rfl | hy
      · exact ⟨_, List.mem_cons_self, hxy⟩
      · obtain ⟨x, hx, hr⟩ := ih hy
        exact ⟨x, List.mem_cons_of_mem _ hx, hr⟩

/-- Each left element of related lists has a right one. -/
theorem exists_of_mem_left {β : Type*} {R : γ → β → Prop} {l : List γ} {m : List β}
    (h : List.Forall₂ R l m) {x : γ} (hx : x ∈ l) : ∃ y ∈ m, R x y := by
  induction h with
  | nil => exact absurd hx List.not_mem_nil
  | cons hxy _ ih =>
      rcases List.mem_cons.mp hx with rfl | hx
      · exact ⟨_, List.mem_cons_self, hxy⟩
      · obtain ⟨y, hy, hr⟩ := ih hx
        exact ⟨y, List.mem_cons_of_mem _ hy, hr⟩

/-- Related lists stay related when the relation is weakened on their elements. -/
theorem forall₂_imp_of_mem {β : Type*} {R S : γ → β → Prop} {l : List γ} {m : List β}
    (h : List.Forall₂ R l m) (himp : ∀ x ∈ l, ∀ y, R x y → S x y) : List.Forall₂ S l m := by
  have hboth := (List.forall₂_and_left l m).mpr ⟨fun x hx => hx, h⟩
  apply hboth.imp
  rintro x y ⟨hx, hr⟩
  exact himp x hx y hr

section Blocks

variable {gs ge : γ → ℕ} {text : Str}

/-- Each block has a text of its own, no longer than the block. -/
def Fits (gs ge : γ → ℕ) (blocks : List γ) (texts : List Str) : Prop :=
  List.Forall₂ (fun g w => w.length ≤ ge g - gs g) blocks texts

/-- The text of each block is the slice the block covers. -/
def Spells (text : Str) (gs ge : γ → ℕ) (blocks : List γ) (texts : List Str) : Prop :=
  List.Forall₂ (fun g w => w = slice text (gs g) (ge g - gs g)) blocks texts

theorem Fits.length_le {blocks : List γ} {texts : List Str} {b t : ℕ}
    (h : Fits gs ge blocks texts) (hb : Tiles gs ge b t blocks)
    (hpos : Positive gs ge blocks) : b + texts.flatten.length ≤ t := by
  induction h generalizing b with
  | nil => cases hb; exact le_rfl
  | cons hgw _ ih =>
      cases hb with
      | cons hs hb =>
          have hrest := ih hb hpos.tail
          have hlt := hpos.head
          rw [List.flatten_cons, List.length_append]
          omega

/-- The texts spell the slice of all blocks exactly when each spells its own. -/
theorem Fits.spell_iff {blocks : List γ} {texts : List Str} {b t : ℕ}
    (h : Fits gs ge blocks texts) (hb : Tiles gs ge b t blocks)
    (hpos : Positive gs ge blocks) (ht : t ≤ text.length) :
    texts.flatten = slice text b (t - b) ↔ Spells text gs ge blocks texts := by
  induction h generalizing b with
  | nil =>
      cases hb
      simp [slice, Spells]
  | @cons g w blocks texts hgw hrest ih =>
      cases hb with
      | cons hs hb =>
          have hlt := hpos.head
          have hle := hb.le hpos.tail
          have hfits : texts.flatten.length ≤ t - ge g := by
            have := Fits.length_le hrest hb hpos.tail
            omega
          have hsplit : slice text b (t - b) =
              slice text (gs g) (ge g - gs g) ++ slice text (ge g) (t - ge g) := by
            have hadd := slice_add text (gs g) (ge g - gs g) (t - ge g)
            rw [Nat.add_sub_cancel' hlt.le] at hadd
            rw [hadd, hs]
            congr 1
            omega
          rw [List.flatten_cons, hsplit, Spells, List.forall₂_cons]
          constructor
          · intro heq
            -- neither part is longer than its slice, so both are as long
            have hlen := congrArg List.length heq
            rw [List.length_append, List.length_append, length_slice (by omega),
              length_slice (by omega)] at hlen
            have hw : w.length = (slice text (gs g) (ge g - gs g)).length := by
              rw [length_slice (by omega)]
              omega
            obtain ⟨hw', htexts⟩ := List.append_inj heq hw
            exact ⟨hw', (ih hb hpos.tail).mp htexts⟩
          · rintro ⟨rfl, htexts⟩
            rw [(ih hb hpos.tail).mpr htexts]

/-- **The texts spell everything exactly when the blocks reach from one end to
the other and each is spelled.** -/
theorem Fits.spell_all_iff {blocks : List γ} {texts : List Str} {b t : ℕ}
    (h : Fits gs ge blocks texts) (hb : Tiles gs ge b t blocks)
    (hpos : Positive gs ge blocks) (ht : t ≤ text.length) :
    texts.flatten = text ↔
      b = 0 ∧ t = text.length ∧ Spells text gs ge blocks texts := by
  constructor
  · intro heq
    have hle := h.length_le hb hpos
    rw [heq] at hle
    obtain ⟨rfl, rfl⟩ : b = 0 ∧ t = text.length := by omega
    refine ⟨rfl, rfl, (h.spell_iff hb hpos ht).mp ?_⟩
    rw [heq, Nat.sub_zero, slice_all]
  · rintro ⟨rfl, rfl, hspell⟩
    rw [(h.spell_iff hb hpos ht).mpr hspell, Nat.sub_zero, slice_all]

end Blocks

end WaiNative.Tiling

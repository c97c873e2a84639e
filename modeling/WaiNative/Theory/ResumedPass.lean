import Mathlib.Data.Set.Insert
import Mathlib.Tactic.Common

/-!
# A pass that skips what a mark stands for

A pass works through a list of items and leaves marks on the way. When it is started again,
it takes up all items but those that a mark lets it skip. Marks may get lost.

- `Sound`: each item is done or still to come, and so is done if a mark lets it be skipped;
- `Step.sound`: a pass stays sound if it only sets a mark that skips nothing to come.
-/

namespace WaiNative.ResumedPass

variable {α μ : Type*}

/-- What is done, the marks, and the items to come. -/
structure Pass (α μ : Type*) where
  done : Set α
  marks : Set μ
  rest : List α

variable (items : List α) (skips : μ → α → Prop)

structure Sound (p : Pass α μ) : Prop where
  placed : ∀ a ∈ items, a ∈ p.done ∨ a ∈ p.rest
  marked : ∀ m ∈ p.marks, ∀ a ∈ items, skips m a → a ∈ p.done

inductive Step : Pass α μ → Pass α μ → Prop
  /-- the next item is done -/
  | work (a : α) (rest : List α) {done done' : Set α} (marks : Set μ) (hsub : done ⊆ done')
      (ha : a ∈ done') : Step ⟨done, marks, a :: rest⟩ ⟨done', marks, rest⟩
  | mark (p : Pass α μ) (m : μ) (h : ∀ a ∈ p.rest, ¬ skips m a) :
      Step p ⟨p.done, insert m p.marks, p.rest⟩
  /-- more is done, and marks get lost -/
  | forget (p : Pass α μ) {done : Set α} {marks : Set μ} (hsub : p.done ⊆ done)
      (hmarks : marks ⊆ p.marks) : Step p ⟨done, marks, p.rest⟩
  /-- the pass starts again, and takes up what no mark skips -/
  | restart (p : Pass α μ) (rest : List α)
      (h : ∀ a ∈ items, a ∈ rest ∨ ∃ m ∈ p.marks, skips m a) : Step p ⟨p.done, p.marks, rest⟩

variable {items skips} {p q : Pass α μ}

/-- **A step keeps a pass sound.** -/
theorem Step.sound (h : Sound items skips p) (hstep : Step items skips p q) :
    Sound items skips q := by
  cases hstep with
  | work a rest marks hsub ha =>
      refine ⟨fun b hb => ?_, fun m hm b hb hskip => hsub (h.marked m hm b hb hskip)⟩
      rcases h.placed b hb with hdone | hrest
      · exact Or.inl (hsub hdone)
      · rcases List.mem_cons.mp hrest with rfl | hrest
        · exact Or.inl ha
        · exact Or.inr hrest
  | mark _ m hm =>
      refine ⟨h.placed, fun m' hm' b hb hskip => ?_⟩
      rcases Set.mem_insert_iff.mp hm' with rfl | hm'
      · exact (h.placed b hb).resolve_right (fun hrest => hm b hrest hskip)
      · exact h.marked m' hm' b hb hskip
  | forget _ hsub hmarks =>
      exact ⟨fun b hb => (h.placed b hb).imp (fun hin => hsub hin) id,
        fun m hm b hb hskip => hsub (h.marked m (hmarks hm) b hb hskip)⟩
  | restart _ rest hrest =>
      refine ⟨fun b hb => ?_, h.marked⟩
      rcases hrest b hb with hin | ⟨m, hm, hskip⟩
      · exact Or.inr hin
      · exact Or.inl (h.marked m hm b hb hskip)

/-- At the end of a pass all is done. -/
theorem Sound.finished (h : Sound items skips p) (hend : p.rest = []) :
    ∀ a ∈ items, a ∈ p.done := by
  intro a ha
  have hplaced := h.placed a ha
  rw [hend] at hplaced
  exact hplaced.resolve_right List.not_mem_nil

end WaiNative.ResumedPass

import Mathlib.Data.List.Basic
import Mathlib.Data.List.Induction
import Mathlib.Tactic.Common

/-!
# Chains of blocks linked by hash

Each block holds the hash of the one before it, the first one the hash of nothing,
`genesis`. `tip` is the hash of the last block.

When the hash tells blocks apart and is never `genesis`, the tip determines the chain
(`LinkedFrom.unique`).
-/

namespace WaiNative.HashChain

variable {β η : Type*} (prev hash : β → η)

/-- Each block holds the hash of the one before it. -/
def LinkedFrom : η → List β → Prop
  | _, [] => True
  | genesis, b :: bs => prev b = genesis ∧ LinkedFrom (hash b) bs

/-- The hash of the last block. -/
def tip (genesis : η) (bs : List β) : η := (bs.getLast?.map hash).getD genesis

variable {prev hash} {genesis : η}

@[simp] theorem tip_nil : tip hash genesis [] = genesis := rfl

@[simp] theorem tip_append_singleton (bs : List β) (b : β) :
    tip hash genesis (bs ++ [b]) = hash b := by
  simp [tip]

theorem tip_cons (b : β) (bs : List β) :
    tip hash genesis (b :: bs) = tip hash (hash b) bs := by
  cases bs with
  | nil => rfl
  | cons c bs => simp [tip, List.getLast?_cons]

/-- A chain grows at its tip. -/
theorem linked_append_singleton : ∀ {bs : List β} {genesis : η} {b : β},
    LinkedFrom prev hash genesis (bs ++ [b]) ↔
      LinkedFrom prev hash genesis bs ∧ prev b = tip hash genesis bs
  | [], genesis, b => by simp [LinkedFrom]
  | c :: bs, genesis, b => by
      rw [List.cons_append, LinkedFrom, LinkedFrom, linked_append_singleton, tip_cons, and_assoc]

/-- **The tip determines the chain.** -/
theorem LinkedFrom.unique (hinj : Function.Injective hash) (hne : ∀ b, hash b ≠ genesis)
    {bs cs : List β} (hbs : LinkedFrom prev hash genesis bs) (hcs : LinkedFrom prev hash genesis cs)
    (htip : tip hash genesis bs = tip hash genesis cs) : bs = cs := by
  induction bs using List.reverseRecOn generalizing cs with
  | nil =>
      obtain rfl | ⟨cs, c, rfl⟩ := List.eq_nil_or_concat' cs
      · rfl
      · rw [tip_nil, tip_append_singleton] at htip
        exact absurd htip.symm (hne c)
  | append_singleton bs b ih =>
      obtain rfl | ⟨cs, c, rfl⟩ := List.eq_nil_or_concat' cs
      · rw [tip_nil, tip_append_singleton] at htip
        exact absurd htip (hne b)
      · rw [tip_append_singleton, tip_append_singleton] at htip
        obtain rfl := hinj htip
        obtain ⟨hbs, hb⟩ := linked_append_singleton.mp hbs
        obtain ⟨hcs, hc⟩ := linked_append_singleton.mp hcs
        rw [ih hbs hcs (hb.symm.trans hc)]

end WaiNative.HashChain

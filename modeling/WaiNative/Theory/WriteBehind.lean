import Mathlib.Data.Set.Insert
import Mathlib.Data.List.Basic
import Mathlib.Tactic.Common

/-!
# A mark that is stored with each item

A store keeps a set of items and one mark, which says how far a source was read. Items wait
in a queue, each with the mark that is to be stored with it, and they are stored in the
order of the queue. The last of them are lost when something fails, or all when the process
ends.

- `Backed`: each mark in the queue is covered by what is stored and what waits in front of
  it, its own item included;
- `Log.Sound`: the stored mark is covered by what is stored, and the queue is backed;
- `Step.sound`: pushing, storing and losing items keep a log sound.
-/

namespace WaiNative.WriteBehind

variable {α π : Type*}

/-- The items stored, the mark stored with the last of them, and the items that wait. -/
structure Log (α π : Type*) where
  kept : Set α
  mark : π
  queue : List (α × π)

namespace Log

/-- The items that wait. -/
def waiting (queue : List (α × π)) : Set α := {a | ∃ p, (a, p) ∈ queue}

/-- The items stored, and those that wait. -/
def known (l : Log α π) : Set α := l.kept ∪ waiting l.queue

theorem waiting_nil : waiting ([] : List (α × π)) = ∅ := by
  ext a
  simp [waiting]

theorem waiting_cons (a : α) (p : π) (queue : List (α × π)) :
    waiting ((a, p) :: queue) = insert a (waiting queue) := by
  ext b
  simp [waiting, exists_or]

theorem waiting_append (queue queue' : List (α × π)) :
    waiting (queue ++ queue') = waiting queue ∪ waiting queue' := by
  ext b
  simp [waiting, exists_or]

theorem known_push (kept : Set α) (p mark : π) (a : α) (queue : List (α × π)) :
    known ⟨kept, mark, queue ++ [(a, p)]⟩ = insert a (known ⟨kept, mark, queue⟩) := by
  rw [known, known, waiting_append, waiting_cons, waiting_nil, Set.union_insert, Set.union_empty,
    Set.union_insert]

theorem known_commit (kept : Set α) (p mark : π) (a : α) (queue : List (α × π)) :
    known ⟨insert a kept, p, queue⟩ = known ⟨kept, mark, (a, p) :: queue⟩ := by
  rw [known, known, waiting_cons, Set.insert_union, Set.union_insert]

/-- Nothing waits. -/
theorem known_of_nil {l : Log α π} (h : l.queue = []) : l.known = l.kept := by
  rw [known, h, waiting_nil, Set.union_empty]

variable (covers : Set α → π → Prop)

/-- Each mark is covered by what is stored and what waits in front of it. -/
def Backed (kept : Set α) : List (α × π) → Prop
  | [] => True
  | (a, p) :: queue => covers (insert a kept) p ∧ Backed (insert a kept) queue

structure Sound (l : Log α π) : Prop where
  stored : covers l.kept l.mark
  backed : Backed covers l.kept l.queue

/-- What can happen to a log. -/
inductive Step : Log α π → Log α π → Prop
  /-- an item waits behind the others, with a mark that it and they cover -/
  | push (l : Log α π) (a : α) (p : π) (h : covers (insert a l.known) p) :
      Step l ⟨l.kept, l.mark, l.queue ++ [(a, p)]⟩
  /-- the first item is stored, and its mark -/
  | commit (kept : Set α) (mark : π) (a : α) (p : π) (queue : List (α × π)) :
      Step ⟨kept, mark, (a, p) :: queue⟩ ⟨insert a kept, p, queue⟩
  /-- only so many of the items wait still -/
  | lose (l : Log α π) (n : ℕ) : Step l ⟨l.kept, l.mark, l.queue.take n⟩

variable {covers} {l m : Log α π}

/-- A mark that all cover is backed at the end of the queue. -/
theorem Backed.push {a : α} {p : π} {queue : List (α × π)} :
    ∀ {kept : Set α}, Backed covers kept queue →
      covers (insert a (kept ∪ waiting queue)) p →
        Backed covers kept (queue ++ [(a, p)]) := by
  induction queue with
  | nil =>
      intro kept _ hp
      rw [waiting_nil, Set.union_empty] at hp
      exact ⟨hp, trivial⟩
  | cons head queue ih =>
      obtain ⟨b, q⟩ := head
      intro kept hqueue hp
      refine ⟨hqueue.1, ih hqueue.2 ?_⟩
      rw [Set.insert_union, ← Set.union_insert, ← waiting_cons b q]
      exact hp

theorem Backed.take {queue : List (α × π)} :
    ∀ {kept : Set α}, Backed covers kept queue → ∀ n, Backed covers kept (queue.take n) := by
  induction queue with
  | nil =>
      intro kept h n
      rw [List.take_nil]
      exact h
  | cons head queue ih =>
      intro kept h n
      cases n with
      | zero => exact trivial
      | succ n => exact ⟨h.1, ih h.2 n⟩

/-- **The stored mark is covered** by what is stored, whatever happens. -/
theorem Step.sound (h : Sound covers l) (hstep : Step covers l m) : Sound covers m := by
  cases hstep with
  | push _ a p hp => exact ⟨h.stored, h.backed.push hp⟩
  | commit kept mark a p queue => exact ⟨h.backed.1, h.backed.2⟩
  | lose _ n => exact ⟨h.stored, h.backed.take n⟩

end Log

end WaiNative.WriteBehind

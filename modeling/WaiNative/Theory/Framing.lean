import Mathlib.Data.List.Basic
import Mathlib.Tactic.Common

/-!
# Readers that are called again

A reader takes what has arrived: it stops behind a value, uses everything up and wants
more, or fails. `drain` calls it again on what it has left; `feed` gives it one symbol
at a time.

A reader is `Resumable` when one symbol less at the front makes no difference. What it
reads then depends on the symbols alone, not on the pieces in which they arrive
(`drain_eq_feed`, `feed_append`), and a stream of frames is read frame by frame
(`feed_frames`).
-/

namespace WaiNative.Framing

inductive Outcome (σ β ν φ : Type)
  | value (s : σ) (v : ν) (rest : List β)
  | more (s : σ)
  | failed (f : φ)

section Reading

variable {σ β ν φ : Type}

/-- The values in front of what is read later. -/
def andThen (values : List ν) (r : List ν × Except φ σ) : List ν × Except φ σ :=
  (values ++ r.1, r.2)

variable (read : σ → List β → Outcome σ β ν φ)

/-- Symbol by symbol. -/
def feed : σ → List β → List ν × Except φ σ
  | s, [] => ([], .ok s)
  | s, c :: cs =>
      match read s [c] with
      | .value s v _ => andThen [v] (feed s cs)
      | .more s => feed s cs
      | .failed f => ([], .error f)

/-- The reader is called again on what it has left; as many calls as there are symbols
are enough. -/
def drain : ℕ → σ → List β → List ν × Except φ σ
  | _, s, [] => ([], .ok s)
  | 0, s, _ :: _ => ([], .ok s)
  | n + 1, s, c :: cs =>
      match read s (c :: cs) with
      | .value s v rest => andThen [v] (drain n s rest)
      | .more s => ([], .ok s)
      | .failed f => ([], .error f)

/-- The pieces, each as far as the ones before it have been read. -/
def drains : σ → List (List β) → List ν × Except φ σ
  | s, [] => ([], .ok s)
  | s, piece :: pieces =>
      match drain read piece.length s piece with
      | (values, .ok s) => andThen values (drains s pieces)
      | (values, .error f) => (values, .error f)

/-- The reader can stop behind every symbol. -/
structure Resumable : Prop where
  one : ∀ {s c s' v rest}, read s [c] = .value s' v rest → rest = []
  cons : ∀ s c d cs, read s (c :: d :: cs) =
    match read s [c] with
    | .value s v _ => .value s v (d :: cs)
    | .more s => read s (d :: cs)
    | .failed f => .failed f

variable {read} {s : σ}

theorem andThen_andThen (vs ws : List ν) (r : List ν × Except φ σ) :
    andThen vs (andThen ws r) = andThen (vs ++ ws) r := by
  simp only [andThen, List.append_assoc]

/-- **What is read of two pieces** is what is read of the first and, if it does not fail,
of the second. -/
theorem feed_append (a b : List β) : ∀ s, feed read s (a ++ b) =
    match feed read s a with
    | (values, .ok s) => andThen values (feed read s b)
    | (values, .error f) => (values, .error f) := by
  induction a with
  | nil => exact fun s => rfl
  | cons c a ih =>
      intro s
      rw [List.cons_append, feed, feed]
      cases read s [c] with
      | value s v _ =>
          simp only [ih s]
          rcases feed read s a with ⟨values, s | f⟩
          · rfl
          · exact andThen_andThen [v] values _
      | more s => exact ih s
      | failed f => rfl

/-- **A resumable reader reads a piece as if its symbols came one by one.** -/
theorem drain_eq_feed (h : Resumable read) : ∀ (n : ℕ) (s : σ) (cs : List β), cs.length ≤ n →
    drain read n s cs = feed read s cs
  | 0, s, [], _ | _ + 1, s, [], _ => rfl
  | n + 1, s, [c], _ => by
      rw [drain, feed]
      cases hread : read s [c] with
      | value s v rest =>
          obtain rfl := h.one hread
          cases n <;> rfl
      | more s => rfl
      | failed f => rfl
  | n + 1, s, c :: d :: cs, hle => by
      have hle' : (d :: cs).length ≤ n := Nat.le_of_succ_le_succ hle
      rw [drain, feed, h.cons]
      cases read s [c] with
      | value s v _ => exact congrArg (andThen [v]) (drain_eq_feed h n s (d :: cs) hle')
      | more s =>
          -- the same call, made one symbol later
          have hlater := drain_eq_feed h (n + 1) s (d :: cs) (Nat.le_succ_of_le hle')
          rwa [drain] at hlater
      | failed f => rfl

/-- **How a stream is cut into pieces makes no difference.** -/
theorem drains_eq_feed (h : Resumable read) : ∀ (pieces : List (List β)) (s : σ),
    drains read s pieces = feed read s pieces.flatten
  | [], _ => rfl
  | piece :: pieces, s => by
      rw [drains, drain_eq_feed h _ s piece (Nat.le_refl _), List.flatten_cons, feed_append]
      rcases feed read s piece with ⟨values, f | s⟩
      · rfl
      · exact congrArg (andThen values) (drains_eq_feed h pieces s)

/-- **A stream of frames is read frame by frame**, when each is read as its own value
and leaves the reader between two frames. -/
theorem feed_frames {τ : Type} {Between : σ → Prop} {frame : τ → List β} {value : τ → ν}
    {ts : List τ} (h : ∀ t ∈ ts, ∀ s, Between s →
      ∃ s', feed read s (frame t) = ([value t], .ok s') ∧ Between s') :
    ∀ {s : σ}, Between s →
      ∃ s', feed read s (ts.flatMap frame) = (ts.map value, .ok s') ∧ Between s' := by
  induction ts with
  | nil => exact fun hs => ⟨_, rfl, hs⟩
  | cons t ts ih =>
      intro s hs
      obtain ⟨mid, hmid, hbetween⟩ := h t List.mem_cons_self s hs
      obtain ⟨last, hlast, hend⟩ := ih (fun t ht => h t (List.mem_cons_of_mem _ ht)) hbetween
      refine ⟨last, ?_, hend⟩
      rw [List.flatMap_cons, feed_append, hmid]
      simp only [hlast]
      rfl

/-- What is read of the beginning of a stream. -/
theorem feed_prefix {a b : List β} {values : List ν} {t : σ}
    (h : feed read s (a ++ b) = (values, .ok t)) :
    ∃ mid, feed read s a = ((feed read s a).1, .ok mid) ∧ (feed read s a).1 <+: values := by
  rw [feed_append] at h
  rcases hfeed : feed read s a with ⟨first, f | mid⟩
  · rw [hfeed] at h
    exact nomatch congrArg Prod.snd h
  · rw [hfeed] at h
    have hvalues : first ++ (feed read mid b).1 = values := congrArg Prod.fst h
    exact ⟨mid, rfl, hvalues ▸ List.prefix_append first _⟩

/-- **A value is not read before its last symbol.** -/
theorem feed_part (h : Resumable read) {v : ν} {b : List β} (hb : b ≠ []) {t : σ} :
    ∀ {a : List β} {s : σ}, read s (a ++ b) = .value t v [] → ∃ s', feed read s a = ([], .ok s')
  | [], s, _ => ⟨s, rfl⟩
  | c :: a, s, hread => by
      obtain ⟨d, cs, hcs⟩ := List.exists_cons_of_ne_nil (List.append_ne_nil_of_right_ne_nil a hb)
      rw [List.cons_append, hcs, h.cons] at hread
      rw [feed]
      cases hone : read s [c] with
      | value s v _ =>
          rw [hone] at hread
          obtain ⟨-, -, hrest⟩ := Outcome.value.inj hread
          exact absurd hrest (List.cons_ne_nil _ _)
      | more s =>
          rw [hone] at hread
          exact feed_part h hb (hcs ▸ hread)
      | failed f =>
          rw [hone] at hread
          exact nomatch hread

end Reading

end WaiNative.Framing

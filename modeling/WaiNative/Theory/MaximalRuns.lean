import Mathlib.Data.List.Basic
import Mathlib.Data.Nat.Find
import Mathlib.Order.Nat
import Mathlib.Order.Lattice
import Mathlib.Tactic.Common

/-!
# Maximal runs

The maximal runs of a list are the intervals of places whose elements meet a test, with
no such place next to them.

- `exists_isRun`: each element that meets the test is in one;
- `mem_places_iff`, `places_ordered`: `places` lists them from left to right;
- `collect_eq`: a loop that buffers elements and flushes its buffer collects them.
-/

namespace WaiNative.MaximalRuns

variable {α : Type} (p : α → Bool)

/-- The element at a place meets the test. -/
def holdsAt (l : List α) (j : ℕ) : Bool := (l[j]?).any p

/-- The `n` places from `i` on are a maximal run. -/
structure IsRun (l : List α) (i n : ℕ) : Prop where
  pos : 0 < n
  inside : ∀ j, i ≤ j → j < i + n → holdsAt p l j = true
  before : ∀ j, j + 1 = i → holdsAt p l j = false
  behind : holdsAt p l (i + n) = false

/-- The runs of what is left, when the last `n` elements before it, from place `i` on,
met the test. -/
def placesFrom : List α → ℕ → ℕ → List (ℕ × ℕ)
  | [], i, n => if n > 0 then [(i, n)] else []
  | x :: l, i, n =>
      if p x then placesFrom l i (n + 1)
      else (if n > 0 then [(i, n)] else []) ++ placesFrom l (i + n + 1) 0

def places (l : List α) : List (ℕ × ℕ) := placesFrom p l 0 0

/-- The loop: the runs that are complete, and the one that may go on. -/
def collect : List α → List (List α) → List α → List (List α)
  | [], runs, buffer => if buffer.length > 0 then runs ++ [buffer] else runs
  | x :: l, runs, buffer =>
      if p x then collect l runs (buffer ++ [x])
      else collect l (if buffer.length > 0 then runs ++ [buffer] else runs) []

variable {p} {l rest : List α} {i n j m k : ℕ} {x : α}

/-! ## Places -/

theorem holdsAt_of_length_le (h : l.length ≤ j) : holdsAt p l j = false := by
  rw [holdsAt, List.getElem?_eq_none h]
  rfl

theorem holdsAt_of_drop (h : l.drop k = x :: rest) : holdsAt p l k = p x := by
  have hget : l[k]? = some x := by
    rw [← Nat.add_zero k, ← List.getElem?_drop, h]
    rfl
  rw [holdsAt, hget]
  rfl

theorem drop_succ_of_drop (h : l.drop k = x :: rest) : l.drop (k + 1) = rest := by
  rw [← List.drop_drop, h]
  rfl

theorem holdsAt_of_drop_nil (h : l.drop k = []) : holdsAt p l k = false :=
  holdsAt_of_length_le (List.drop_eq_nil_iff.mp h)

/-- Runs that meet are the same. -/
theorem IsRun.eq_of_mem (h : IsRun p l i n) (h' : IsRun p l j m) (hle : i ≤ j)
    (hlt : j < i + n) : j = i ∧ m = n := by
  have hstart : j = i := by
    by_contra hne
    obtain ⟨k, rfl⟩ : ∃ k, j = k + 1 := ⟨j - 1, by omega⟩
    have htrue := h.inside k (by omega) (by omega)
    rw [h'.before k rfl] at htrue
    cases htrue
  subst hstart
  refine ⟨rfl, ?_⟩
  rcases Nat.lt_trichotomy m n with hless | heq | hmore
  · have htrue := h.inside (j + m) (by omega) (by omega)
    rw [h'.behind] at htrue
    cases htrue
  · exact heq
  · have htrue := h'.inside (j + n) (by omega) (by omega)
    rw [h.behind] at htrue
    cases htrue

/-- Each element that meets the test is in a maximal run. -/
theorem exists_isRun (hk : holdsAt p l k = true) :
    ∃ i n, IsRun p l i n ∧ i ≤ k ∧ k < i + n := by
  have hstart : ∀ k, holdsAt p l k = true → ∃ i, i ≤ k ∧
      (∀ j, i ≤ j → j ≤ k → holdsAt p l j = true) ∧
      ∀ j, j + 1 = i → holdsAt p l j = false := by
    intro k
    induction k with
    | zero =>
        intro hk
        refine ⟨0, le_rfl, fun j _ hj => ?_, fun j hj => absurd hj (by omega)⟩
        rwa [Nat.le_zero.mp hj]
    | succ k ih =>
        intro hk
        cases hprev : holdsAt p l k with
        | false =>
            refine ⟨k + 1, le_rfl, fun j hlo hhi => ?_, fun j hj => ?_⟩
            · rwa [Nat.le_antisymm hhi hlo]
            · rwa [Nat.succ.inj hj]
        | true =>
            obtain ⟨i, hle, hin, hbefore⟩ := ih hprev
            refine ⟨i, hle.trans (Nat.le_succ k), fun j hlo hhi => ?_, hbefore⟩
            rcases Nat.le_succ_iff.mp hhi with hj | rfl
            · exact hin j hlo hj
            · exact hk
  have hstop : ∃ e, k ≤ e ∧ holdsAt p l e = false :=
    ⟨max k l.length, le_max_left _ _, holdsAt_of_length_le (le_max_right _ _)⟩
  obtain ⟨i, hle, hin, hbefore⟩ := hstart k hk
  obtain ⟨hke, hend⟩ := Nat.find_spec hstop
  have hne : k ≠ Nat.find hstop := by
    intro heq
    rw [← heq, hk] at hend
    cases hend
  refine ⟨i, Nat.find hstop - i, ⟨by omega, ?_, hbefore, ?_⟩, hle, by omega⟩
  · intro j hlo hhi
    rcases Nat.lt_or_ge k j with hlt | hge
    · have hmin := Nat.find_min hstop (m := j) (by omega)
      rw [not_and, Bool.not_eq_false] at hmin
      exact hmin hlt.le
    · exact hin j hlo hge
  · rwa [Nat.add_sub_cancel' (hle.trans hke)]

/-! ## The runs from left to right -/

section Places

/-- What the buffer stands for: `n` elements from place `i` on met the test, and the one
before them did not. -/
structure Buffered (p : α → Bool) (l : List α) (i n : ℕ) : Prop where
  inside : ∀ j, i ≤ j → j < i + n → holdsAt p l j = true
  before : ∀ j, j + 1 = i → holdsAt p l j = false

theorem Buffered.push (h : Buffered p l i n) (hx : holdsAt p l (i + n) = true) :
    Buffered p l i (n + 1) where
  inside := by
    intro j hlo hhi
    rcases Nat.lt_or_ge j (i + n) with hlt | hge
    · exact h.inside j hlo hlt
    · rwa [show j = i + n by omega]
  before := h.before

theorem buffered_zero (hx : holdsAt p l k = false) : Buffered p l (k + 1) 0 where
  inside := fun j hlo hhi => absurd hhi (by omega)
  before := by
    intro j hj
    rwa [Nat.succ.inj hj]

/-- The buffer is flushed where a run ends. -/
theorem Buffered.mem_flush (h : Buffered p l i n) (hbehind : holdsAt p l (i + n) = false) :
    (j, m) ∈ (if n > 0 then [(i, n)] else []) ↔ IsRun p l j m ∧ i ≤ j ∧ j < i + n + 1 := by
  constructor
  · intro hmem
    split at hmem
    · rename_i hpos
      obtain ⟨rfl, rfl⟩ := Prod.mk.inj (List.mem_singleton.mp hmem)
      exact ⟨⟨hpos, h.inside, h.before, hbehind⟩, le_rfl, by omega⟩
    · cases hmem
  · rintro ⟨hrun, hlo, hhi⟩
    have hne : j ≠ i + n := by
      rintro rfl
      have htrue := hrun.inside (i + n) le_rfl (Nat.lt_add_of_pos_right hrun.pos)
      rw [hbehind] at htrue
      cases htrue
    have hpos : n > 0 := by omega
    obtain ⟨rfl, rfl⟩ := IsRun.eq_of_mem ⟨hpos, h.inside, h.before, hbehind⟩ hrun hlo (by omega)
    rw [if_pos hpos]
    exact List.mem_singleton_self _

theorem mem_placesFrom : ∀ (rest : List α) (i n : ℕ), Buffered p l i n →
    l.drop (i + n) = rest →
    ((j, m) ∈ placesFrom p rest i n ↔ IsRun p l j m ∧ i ≤ j)
  | [], i, n, h, hdrop => by
      have hbehind := holdsAt_of_drop_nil (p := p) hdrop
      rw [placesFrom, h.mem_flush hbehind]
      constructor
      · rintro ⟨hrun, hlo, -⟩
        exact ⟨hrun, hlo⟩
      · rintro ⟨hrun, hlo⟩
        refine ⟨hrun, hlo, ?_⟩
        by_contra hout
        -- behind the end there is no run
        have htrue := hrun.inside j le_rfl (Nat.lt_add_of_pos_right hrun.pos)
        have hlen := List.drop_eq_nil_iff.mp hdrop
        rw [holdsAt_of_length_le (by omega)] at htrue
        cases htrue
  | x :: rest, i, n, h, hdrop => by
      have hx := holdsAt_of_drop (p := p) hdrop
      have hdrop' := drop_succ_of_drop hdrop
      rw [placesFrom]
      split
      · rename_i hpx
        exact mem_placesFrom rest i (n + 1) (h.push (hx.trans hpx)) hdrop'
      · rename_i hpx
        have hbehind : holdsAt p l (i + n) = false := hx.trans (Bool.eq_false_of_not_eq_true hpx)
        rw [List.mem_append, h.mem_flush hbehind,
          mem_placesFrom rest (i + n + 1) 0 (buffered_zero hbehind) hdrop']
        constructor
        · rintro (⟨hrun, hlo, -⟩ | ⟨hrun, hlo⟩)
          · exact ⟨hrun, hlo⟩
          · exact ⟨hrun, by omega⟩
        · rintro ⟨hrun, hlo⟩
          rcases Nat.lt_or_ge j (i + n + 1) with hlt | hge
          · exact Or.inl ⟨hrun, hlo, hlt⟩
          · exact Or.inr ⟨hrun, hge⟩

theorem buffered_start : Buffered p l 0 0 where
  inside := fun j _ hhi => absurd hhi (by omega)
  before := fun j hj => absurd hj (by omega)

/-- **`places` has the maximal runs and nothing else.** -/
theorem mem_places_iff : (j, m) ∈ places p l ↔ IsRun p l j m := by
  rw [places, mem_placesFrom l 0 0 buffered_start rfl]
  exact and_iff_left (Nat.zero_le j)

theorem placesFrom_ordered : ∀ (rest : List α) (i n : ℕ),
    (∀ r ∈ placesFrom p rest i n, i ≤ r.1) ∧
      (placesFrom p rest i n).Pairwise (fun r s => r.1 + r.2 < s.1)
  | [], i, n => by
      rw [placesFrom]
      split
      · exact ⟨List.forall_mem_singleton.mpr le_rfl, List.pairwise_singleton _ _⟩
      · exact ⟨List.forall_mem_nil _, List.Pairwise.nil⟩
  | x :: rest, i, n => by
      rw [placesFrom]
      split
      · exact placesFrom_ordered rest i (n + 1)
      · obtain ⟨hstart, hpairs⟩ := placesFrom_ordered rest (i + n + 1) 0
        split
        · refine ⟨?_, List.pairwise_cons.mpr ⟨fun s hs => ?_, hpairs⟩⟩
          · exact List.forall_mem_cons.mpr ⟨le_rfl, fun s hs => by
              have := hstart s hs
              omega⟩
          · have := hstart s hs
            show i + n < s.1
            omega
        · exact ⟨fun s hs => by
            have := hstart s hs
            omega, hpairs⟩

theorem places_ordered : (places p l).Pairwise (fun r s => r.1 + r.2 < s.1) :=
  (placesFrom_ordered l 0 0).2

/-- The loop collects the elements of the runs. -/
theorem collect_eq_placesFrom : ∀ (rest : List α) (i n : ℕ) (runs : List (List α))
    (buffer : List α), l.drop (i + n) = rest → buffer = (l.drop i).take n → buffer.length = n →
    collect p rest runs buffer =
      runs ++ (placesFrom p rest i n).map (fun r => (l.drop r.1).take r.2)
  | [], i, n, runs, buffer, _, hbuffer, hlen => by
      rw [collect, placesFrom, hlen]
      split
      · rw [hbuffer]
        rfl
      · exact (List.append_nil runs).symm
  | x :: rest, i, n, runs, buffer, hdrop, hbuffer, hlen => by
      have hdrop' := drop_succ_of_drop hdrop
      rw [collect, placesFrom, hlen]
      split
      · have hpush : buffer ++ [x] = (l.drop i).take (n + 1) := by
          rw [List.take_add, ← hbuffer, List.drop_drop, hdrop]
          rfl
        exact collect_eq_placesFrom rest i (n + 1) runs (buffer ++ [x]) hdrop' hpush
          (by rw [List.length_append, hlen]; rfl)
      · rw [collect_eq_placesFrom rest (i + n + 1) 0 _ [] hdrop' rfl rfl]
        split
        · rw [hbuffer, List.append_assoc]
          rfl
        · rfl

/-- **The loop collects the maximal runs**, from left to right. -/
theorem collect_eq (l : List α) :
    collect p l [] [] = (places p l).map (fun r => (l.drop r.1).take r.2) :=
  collect_eq_placesFrom l 0 0 [] [] rfl rfl rfl

end Places

end WaiNative.MaximalRuns

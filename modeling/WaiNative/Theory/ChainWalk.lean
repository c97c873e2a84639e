import Mathlib.Algebra.Ring.Nat
import Mathlib.Data.List.Basic
import Mathlib.Data.List.Pairwise
import Mathlib.Order.Lattice
import Mathlib.Tactic.Common

/-!
# Walks that cannot be prolonged

Edges lead from a start to a stop and are kept in a list. `walks` lists depth first,
each edge in the order of the list, the walks from a place to where no edge leaves.

When every edge leads forward, `walks` ends and has exactly the complete walks
(`mem_walks`), in the order of their edges (`walks_lex`), hence each once
(`walks_nodup`).
-/

namespace WaiNative.ChainWalk

variable {ε δ κ : Type*}

section Walks

variable (start stop : ε → κ) (es : List ε)

/-- A walk from a place to a place where no edge leaves. -/
inductive Complete : κ → List ε → Prop
  | done {p} : (∀ e ∈ es, start e ≠ p) → Complete p []
  | step {e c} : e ∈ es → Complete (stop e) c → Complete (start e) (e :: c)

variable {start stop es} in
theorem complete_nil {p : κ} : Complete start stop es p [] ↔ ∀ e ∈ es, start e ≠ p := by
  refine ⟨fun h => ?_, .done⟩
  cases h with
  | done h => exact h

variable [DecidableEq κ]

/-- The edges that leave `p`. -/
def leaving (p : κ) : List ε := es.filter (fun e => start e = p)

def walks : ℕ → κ → List (List ε)
  | 0, _ => []
  | fuel + 1, p =>
      match leaving start es p with
      | [] => [[]]
      | e :: rest => (e :: rest).flatMap (fun e => (walks fuel (stop e)).map (e :: ·))

end Walks

section Lemmas

variable [DecidableEq κ] {start stop : ε → κ} {es : List ε}

@[simp] theorem mem_leaving {p : κ} {e : ε} :
    e ∈ leaving start es p ↔ e ∈ es ∧ start e = p := by
  simp [leaving]

theorem leaving_eq_nil {p : κ} : leaving start es p = [] ↔ ∀ e ∈ es, start e ≠ p := by
  simp [leaving]

theorem walks_of_nil {p : κ} (h : leaving start es p = []) (fuel : ℕ) :
    walks start stop es (fuel + 1) p = [[]] := by
  rw [walks, h]

theorem walks_of_ne_nil {p : κ} (h : leaving start es p ≠ []) (fuel : ℕ) :
    walks start stop es (fuel + 1) p =
      (leaving start es p).flatMap
        (fun e => (walks start stop es fuel (stop e)).map (e :: ·)) := by
  rw [walks]
  split
  · contradiction
  · next heq => rw [heq]

/-- Listed walks are complete, whatever the fuel. -/
theorem complete_of_mem_walks : ∀ {fuel : ℕ} {p : κ} {c : List ε},
    c ∈ walks start stop es fuel p → Complete start stop es p c
  | 0, _, _, h => by simp [walks] at h
  | fuel + 1, p, c, h => by
      by_cases hl : leaving start es p = []
      · rw [walks_of_nil hl] at h
        rw [List.mem_singleton.mp h]
        exact .done (leaving_eq_nil.mp hl)
      · rw [walks_of_ne_nil hl] at h
        obtain ⟨e, he, h⟩ := List.mem_flatMap.mp h
        obtain ⟨c, hc, rfl⟩ := List.mem_map.mp h
        obtain ⟨hmem, rfl⟩ := mem_leaving.mp he
        exact .step hmem (complete_of_mem_walks hc)

/-- The walk follows the order of the edges at every branch. -/
theorem walks_lex {r : ε → ε → Prop} (hr : es.Pairwise r) : ∀ (fuel : ℕ) (p : κ),
    (walks start stop es fuel p).Pairwise (List.Lex r)
  | 0, _ => by simp [walks]
  | fuel + 1, p => by
      by_cases hl : leaving start es p = []
      · simp [walks_of_nil hl]
      · rw [walks_of_ne_nil hl, List.pairwise_flatMap]
        constructor
        · intro e _
          rw [List.pairwise_map]
          exact (walks_lex hr fuel (stop e)).imp fun h => .cons h
        · refine (hr.filter _).imp ?_
          intro e e' hee c hc c' hc'
          obtain ⟨c, -, rfl⟩ := List.mem_map.mp hc
          obtain ⟨c', -, rfl⟩ := List.mem_map.mp hc'
          exact .rel hee

theorem lex_irrefl {r : ε → ε → Prop} (hr : ∀ e, ¬ r e e) : ∀ c : List ε, ¬ List.Lex r c c
  | e :: _, .rel h => hr e h
  | _ :: c, .cons h => lex_irrefl hr c h

/-- No walk is listed twice. -/
theorem walks_nodup {r : ε → ε → Prop} (hirrefl : ∀ e, ¬ r e e) (hr : es.Pairwise r) (fuel : ℕ)
    (p : κ) : (walks start stop es fuel p).Nodup := by
  refine (walks_lex hr fuel p).imp ?_
  rintro c _ h rfl
  exact lex_irrefl hirrefl c h

/-- Renaming the edges renames the walks. -/
theorem walks_map {start' stop' : δ → κ} (f : ε → δ) (hstart : ∀ e ∈ es, start' (f e) = start e)
    (hstop : ∀ e ∈ es, stop' (f e) = stop e) : ∀ (fuel : ℕ) (p : κ),
    walks start' stop' (es.map f) fuel p = (walks start stop es fuel p).map (List.map f)
  | 0, _ => rfl
  | fuel + 1, p => by
      have hleaving : leaving start' (es.map f) p = (leaving start es p).map f := by
        rw [leaving, leaving, List.filter_map]
        congr 1
        apply List.filter_congr
        intro e he
        simp [hstart e he]
      by_cases hl : leaving start es p = []
      · rw [walks_of_nil hl, walks_of_nil (by rw [hleaving, hl, List.map_nil])]
        rfl
      · rw [walks_of_ne_nil hl, walks_of_ne_nil (by rw [hleaving]; simpa using hl), hleaving,
          List.map_flatMap, List.flatMap_map]
        apply List.flatMap_congr
        intro e he
        rw [hstop e (mem_leaving.mp he).1, walks_map f hstart hstop fuel (stop e), List.map_map,
          List.map_map]
        rfl

end Lemmas

/-! ## Edges that lead forward -/

section Forward

variable [LinearOrder κ] {start stop : ε → κ} {es : List ε}

/-- The number of edges at `p` or behind it. -/
def ahead (start : ε → κ) (es : List ε) (p : κ) : ℕ := es.countP (p ≤ start ·)

theorem ahead_le (p : κ) : ahead start es p ≤ es.length := List.countP_le_length

/-- Each edge taken leaves fewer to take. -/
theorem ahead_stop_lt (hforward : ∀ e ∈ es, start e < stop e) {e : ε} (he : e ∈ es) :
    ahead start es (stop e) < ahead start es (start e) := by
  have hlt := hforward e he
  obtain ⟨l, r, rfl⟩ := List.append_of_mem he
  have hmono : ∀ m : List ε, ahead start m (stop e) ≤ ahead start m (start e) := by
    intro m
    apply List.countP_mono_left
    intro x _ hx
    simpa using hlt.le.trans (by simpa using hx)
  have hl := hmono l
  have hr := hmono r
  have hself : ¬ stop e ≤ start e := not_le.mpr hlt
  simp only [ahead, List.countP_append, List.countP_cons, hself, le_refl, decide_true,
    decide_false] at hl hr ⊢
  simp only [if_true, Bool.false_eq_true, if_false]
  omega

variable (hforward : ∀ e ∈ es, start e < stop e)

include hforward in
/-- **With fuel for the edges ahead, the walks listed are the complete ones.** -/
theorem mem_walks {fuel : ℕ} {p : κ} (hfuel : ahead start es p < fuel) {c : List ε} :
    c ∈ walks start stop es fuel p ↔ Complete start stop es p c := by
  refine ⟨complete_of_mem_walks, fun h => ?_⟩
  induction h generalizing fuel with
  | done hno =>
      obtain ⟨fuel, rfl⟩ := Nat.exists_eq_add_of_lt hfuel
      rw [walks_of_nil (leaving_eq_nil.mpr hno)]
      exact List.mem_singleton.mpr rfl
  | @step e c he _ ih =>
      obtain ⟨fuel, rfl⟩ : ∃ n, fuel = n + 1 := ⟨fuel - 1, by omega⟩
      have hmem : e ∈ leaving start es (start e) := mem_leaving.mpr ⟨he, rfl⟩
      rw [walks_of_ne_nil (List.ne_nil_of_mem hmem)]
      have hlt := ahead_stop_lt hforward he
      exact List.mem_flatMap.mpr ⟨e, hmem, List.mem_map.mpr ⟨c, ih (by omega), rfl⟩⟩

include hforward in
/-- More fuel changes nothing. -/
theorem walks_fuel : ∀ {m n : ℕ} {p : κ}, ahead start es p < m → ahead start es p < n →
    walks start stop es m p = walks start stop es n p
  | 0, _, _, h, _ => absurd h (Nat.not_lt_zero _)
  | _, 0, _, _, h => absurd h (Nat.not_lt_zero _)
  | m + 1, n + 1, p, hm, hn => by
      by_cases hl : leaving start es p = []
      · rw [walks_of_nil hl, walks_of_nil hl]
      · rw [walks_of_ne_nil hl, walks_of_ne_nil hl]
        apply List.flatMap_congr
        intro e he
        obtain ⟨hmem, rfl⟩ := mem_leaving.mp he
        have hlt := ahead_stop_lt hforward hmem
        rw [walks_fuel (Nat.lt_of_lt_of_le hlt (Nat.le_of_lt_succ hm))
          (Nat.lt_of_lt_of_le hlt (Nat.le_of_lt_succ hn))]

include hforward in
/-- From every place some walk runs to its end. -/
theorem walks_ne_nil : ∀ {fuel : ℕ} {p : κ}, ahead start es p < fuel →
    walks start stop es fuel p ≠ []
  | 0, _, h => absurd h (Nat.not_lt_zero _)
  | fuel + 1, p, h => by
      by_cases hl : leaving start es p = []
      · simp [walks_of_nil hl]
      · rw [walks_of_ne_nil hl]
        obtain ⟨e, he⟩ := List.exists_mem_of_ne_nil _ hl
        obtain ⟨hmem, rfl⟩ := mem_leaving.mp he
        have hlt := ahead_stop_lt hforward hmem
        have hrest : walks start stop es fuel (stop e) ≠ [] := walks_ne_nil (by omega)
        obtain ⟨c, hc⟩ := List.exists_mem_of_ne_nil _ hrest
        exact List.ne_nil_of_mem
          (List.mem_flatMap.mpr ⟨e, he, List.mem_map.mpr ⟨c, hc, rfl⟩⟩)

include hforward in
/-- Counting without listing: `f` counts the walks from every end of an edge when it adds up
over the edges that leave, and is `1` where none does. -/
theorem length_walks {f : κ → ℕ}
    (hsum : ∀ e ∈ es,
      f (start e) = ((leaving start es (start e)).map (fun e => f (stop e))).sum)
    (hone : ∀ e ∈ es, leaving start es (stop e) = [] → f (stop e) = 1) :
    ∀ {fuel : ℕ} {p : κ}, (∃ e ∈ es, start e = p ∨ stop e = p) → ahead start es p < fuel →
      (walks start stop es fuel p).length = f p
  | 0, _, _, h => absurd h (Nat.not_lt_zero _)
  | fuel + 1, p, hp, h => by
      by_cases hl : leaving start es p = []
      · rw [walks_of_nil hl]
        obtain ⟨e, he, rfl | rfl⟩ := hp
        · exact absurd rfl (leaving_eq_nil.mp hl e he)
        · exact (hone e he hl).symm
      · rw [walks_of_ne_nil hl, List.length_flatMap]
        obtain ⟨e, he⟩ := List.exists_mem_of_ne_nil _ hl
        obtain ⟨hmem, rfl⟩ := mem_leaving.mp he
        rw [hsum e hmem]
        congr 1
        apply List.map_congr_left
        intro e' he'
        obtain ⟨hmem', hstart⟩ := mem_leaving.mp he'
        have hlt := ahead_stop_lt hforward hmem'
        rw [hstart] at hlt
        rw [List.length_map]
        exact length_walks hsum hone ⟨e', hmem', Or.inr rfl⟩
          (Nat.lt_of_lt_of_le hlt (Nat.le_of_lt_succ h))

end Forward

end WaiNative.ChainWalk

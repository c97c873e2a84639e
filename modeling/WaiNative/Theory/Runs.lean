import Mathlib.Data.List.Basic
import Mathlib.Tactic.Common

/-!
# Runs of partial steps

A system is a partial function `step` from a state and an action to the next
state; an action that is not enabled has no next state. A run is a list of
actions.

- `Along` says that each action of a run meets a condition in the state before
  it; it can be decided for a given run;
- `invariant`: what every such step preserves, every such run preserves;
- `length_add_measure`: a measure that every such step lowers bounds the run.
-/

namespace WaiNative.Runs

variable {σ α : Type} (step : σ → α → Option σ)

/-- The state behind a run. -/
def run (s : σ) (acts : List α) : Option σ := acts.foldlM step s

/-- Each action meets the condition in the state before it. -/
def Along (ok : σ → α → Prop) : σ → List α → Prop
  | _, [] => True
  | s, a :: acts =>
      ok s a ∧
        match step s a with
        | some t => Along ok t acts
        | none => True

instance decidableAlong (ok : σ → α → Prop) [∀ s a, Decidable (ok s a)] :
    ∀ (s : σ) (acts : List α), Decidable (Along step ok s acts)
  | _, [] => inferInstanceAs (Decidable True)
  | s, a :: acts =>
      have : Decidable (match step s a with
          | some t => Along step ok t acts
          | none => True) :=
        match step s a with
        | some t => decidableAlong ok t acts
        | none => inferInstanceAs (Decidable True)
      inferInstanceAs (Decidable (_ ∧ _))

variable {step} {ok : σ → α → Prop} {s t u : σ} {a : α} {acts acts' : List α}

theorem run_nil : run step s [] = some s := rfl

theorem run_cons_iff :
    run step s (a :: acts) = some u ↔ ∃ t, step s a = some t ∧ run step t acts = some u := by
  rw [run, List.foldlM_cons, Option.bind_eq_bind, Option.bind_eq_some_iff]
  rfl

theorem Along.cons (h : Along step ok s (a :: acts)) (hstep : step s a = some t) :
    ok s a ∧ Along step ok t acts := by
  obtain ⟨hok, hrest⟩ := h
  rw [hstep] at hrest
  exact ⟨hok, hrest⟩

/-- What holds along a run holds at each of its actions. -/
theorem Along.at {a : α} {post : List α} : ∀ {pre : List α} {s : σ},
    Along step ok s (pre ++ a :: post) → run step s pre = some t → ok t a
  | [], s, h, hrun => by
      obtain rfl := Option.some.inj (run_nil.symm.trans hrun)
      exact h.1
  | b :: pre, s, h, hrun => by
      obtain ⟨s', hstep, hrest⟩ := run_cons_iff.mp hrun
      exact Along.at (h.cons hstep).2 hrest

/-- **What every step under the condition preserves, every run does.** -/
theorem invariant {Inv : σ → Prop}
    (hpreserved : ∀ s a t, Inv s → ok s a → step s a = some t → Inv t) :
    ∀ {acts : List α} {s t : σ}, Inv s → Along step ok s acts →
      run step s acts = some t → Inv t
  | [], s, t, hs, _, hrun => by
      obtain rfl := Option.some.inj (run_nil.symm.trans hrun)
      exact hs
  | a :: acts, s, t, hs, hok, hrun => by
      obtain ⟨s', hstep, hrest⟩ := run_cons_iff.mp hrun
      obtain ⟨hoka, hoks⟩ := hok.cons hstep
      exact invariant hpreserved (hpreserved s a s' hs hoka hstep) hoks hrest

/-- A condition on the actions alone. -/
theorem along_of_forall : ∀ {acts : List α} {s : σ}, (∀ a ∈ acts, ∀ s, ok s a) →
    Along step ok s acts
  | [], _, _ => trivial
  | a :: acts, s, h => by
      refine ⟨h a List.mem_cons_self s, ?_⟩
      split
      · exact along_of_forall (fun b hb => h b (List.mem_cons_of_mem _ hb))
      · trivial

/-- An invariant of every step. -/
theorem invariant_always {Inv : σ → Prop}
    (hpreserved : ∀ s a t, Inv s → step s a = some t → Inv t) {acts : List α} {s t : σ}
    (hs : Inv s) (hrun : run step s acts = some t) : Inv t :=
  have hok : Along step (fun _ _ => True) s acts := along_of_forall (fun _ _ _ => trivial)
  invariant (fun s a t hs _ hstep => hpreserved s a t hs hstep) hs hok hrun

/-- **A measure that each step lowers bounds the run.** -/
theorem length_add_measure {Inv : σ → Prop} {m : σ → ℕ}
    (hlower : ∀ s a t, Inv s → ok s a → step s a = some t → Inv t ∧ m t < m s) :
    ∀ {acts : List α} {s t : σ}, Inv s → Along step ok s acts →
      run step s acts = some t → acts.length + m t ≤ m s
  | [], s, t, _, _, hrun => by
      obtain rfl := Option.some.inj (run_nil.symm.trans hrun)
      exact Nat.le_of_eq (Nat.zero_add _)
  | a :: acts, s, t, hs, hok, hrun => by
      obtain ⟨s', hstep, hrest⟩ := run_cons_iff.mp hrun
      obtain ⟨hoka, hoks⟩ := hok.cons hstep
      obtain ⟨hs', hless⟩ := hlower s a s' hs hoka hstep
      have hspent := length_add_measure hlower hs' hoks hrest
      rw [List.length_cons]
      omega

end WaiNative.Runs

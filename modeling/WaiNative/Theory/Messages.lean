import WaiNative.Theory.Runs
import Mathlib.Data.List.Perm.Basic
import Mathlib.Logic.Function.Basic

/-!
# Messages in flight

Parties that send messages to one server. A turn of a party takes an event and
sends messages; the network delivers what is in flight in any order, or loses it.

When every turn of a party ends in a state like the one it began in, what is sent
depends on the events alone, and `delivered_of_fresh` accounts for all of it: it is
delivered, in flight or lost, and the server has handled what was delivered.
-/

namespace WaiNative.Messages

open Runs

structure Net (ι W M S : Type) where
  parties : ι → W
  inFlight : List M
  lost : List M
  server : S

/-- A turn of a party, or the fate of a message by its place. -/
inductive Action (ι E : Type)
  | turn (party : ι) (event : E)
  | deliver (place : ℕ)
  | lose (place : ℕ)

section Steps

variable {ι W M S E : Type} [DecidableEq ι]
variable (turn : W → E → Option (W × List M)) (handle : S → M → S)

def step (n : Net ι W M S) : Action ι E → Option (Net ι W M S)
  | .turn i e =>
      (turn (n.parties i) e).map (fun next =>
        { n with
          parties := Function.update n.parties i next.1
          inFlight := n.inFlight ++ next.2 })
  | .deliver k =>
      n.inFlight[k]?.map (fun m =>
        { n with inFlight := n.inFlight.eraseIdx k, server := handle n.server m })
  | .lose k =>
      n.inFlight[k]?.map (fun m =>
        { n with inFlight := n.inFlight.eraseIdx k, lost := n.lost ++ [m] })

/-- The events of the turns, in order. -/
def events : List (Action ι E) → List E
  | [] => []
  | .turn _ e :: acts => e :: events acts
  | .deliver _ :: acts => events acts
  | .lose _ :: acts => events acts

end Steps

section Runs

variable {ι W M S E : Type} [DecidableEq ι]
variable {turn : W → E → Option (W × List M)} {handle : S → M → S}
variable {n n' : Net ι W M S}

/-- Taking a message out of flight. -/
theorem perm_eraseIdx {l : List M} {k : ℕ} {m : M} (h : l[k]? = some m) :
    (m :: l.eraseIdx k).Perm l := by
  obtain ⟨hlt, rfl⟩ := List.getElem?_eq_some_iff.mp h
  exact List.getElem_cons_eraseIdx_perm hlt

/-- What a step can do. -/
theorem step_cases {a : Action ι E} (hstep : step turn handle n a = some n') :
    (∃ i e w ms, a = .turn i e ∧ turn (n.parties i) e = some (w, ms) ∧
      n' = { n with
        parties := Function.update n.parties i w
        inFlight := n.inFlight ++ ms }) ∨
    (∃ k m, a = .deliver k ∧ n.inFlight[k]? = some m ∧
      n' = { n with inFlight := n.inFlight.eraseIdx k, server := handle n.server m }) ∨
    (∃ k m, a = .lose k ∧ n.inFlight[k]? = some m ∧
      n' = { n with inFlight := n.inFlight.eraseIdx k, lost := n.lost ++ [m] }) := by
  cases a with
  | turn i e =>
      obtain ⟨⟨w, ms⟩, hturn, rfl⟩ := Option.map_eq_some_iff.mp hstep
      exact Or.inl ⟨i, e, w, ms, rfl, hturn, rfl⟩
  | deliver k =>
      obtain ⟨m, hm, rfl⟩ := Option.map_eq_some_iff.mp hstep
      exact Or.inr (Or.inl ⟨k, m, rfl, hm, rfl⟩)
  | lose k =>
      obtain ⟨m, hm, rfl⟩ := Option.map_eq_some_iff.mp hstep
      exact Or.inr (Or.inr ⟨k, m, rfl, hm, rfl⟩)

/-- What is left of the messages when some have been delivered. -/
def Net.left (n : Net ι W M S) : List M := n.inFlight ++ n.lost

/-- **Every message is delivered, in flight or lost, and nothing else is**, when all
turns of a party in a state of `Fresh` send `out` of their event and end in `Fresh`. -/
theorem delivered_of_fresh {Fresh : W → Prop} {out : E → List M}
    (hturn : ∀ w e w' ms, Fresh w → turn w e = some (w', ms) → ms = out e ∧ Fresh w')
    {acts : List (Action ι E)} (hrun : run (step turn handle) n acts = some n')
    (hfresh : ∀ i, Fresh (n.parties i)) :
    ∃ received, n'.server = received.foldl handle n.server ∧
      (received ++ n'.left).Perm (n.left ++ (events acts).flatMap out) := by
  induction acts generalizing n with
  | nil =>
      obtain rfl := Option.some.inj hrun
      exact ⟨[], rfl, by simp [events]⟩
  | cons a acts ih =>
      obtain ⟨mid, hstep, hrest⟩ := run_cons_iff.mp hrun
      obtain ⟨i, e, w, ms, rfl, hw, rfl⟩ | ⟨k, m, rfl, hm, rfl⟩ | ⟨k, m, rfl, hm, rfl⟩ :=
        step_cases hstep
      · obtain ⟨rfl, hw'⟩ := hturn _ e w ms (hfresh i) hw
        have hnext : ∀ j, Fresh (Function.update n.parties i w j) := by
          intro j
          by_cases hj : j = i
          · rw [hj, Function.update_self]
            exact hw'
          · rw [Function.update_of_ne hj]
            exact hfresh j
        obtain ⟨received, hserver, hperm⟩ := ih hrest hnext
        refine ⟨received, hserver, hperm.trans ?_⟩
        have hsent : (n.inFlight ++ out e ++ n.lost).Perm (n.left ++ out e) := by
          rw [Net.left, List.append_assoc, List.append_assoc]
          exact List.perm_append_comm.append_left n.inFlight
        rw [events, List.flatMap_cons, ← List.append_assoc]
        exact hsent.append_right _
      · obtain ⟨received, hserver, hperm⟩ := ih hrest hfresh
        refine ⟨m :: received, hserver, (hperm.cons m).trans ?_⟩
        exact ((perm_eraseIdx hm).append_right n.lost).append_right _
      · obtain ⟨received, hserver, hperm⟩ := ih hrest hfresh
        refine ⟨received, hserver, hperm.trans ?_⟩
        have hmoved : (n.inFlight.eraseIdx k ++ (n.lost ++ [m])).Perm n.left := by
          rw [← List.append_assoc]
          exact (List.perm_append_singleton m _).trans
            ((perm_eraseIdx hm).append_right n.lost)
        exact hmoved.append_right _

end Runs

end WaiNative.Messages

import WaiNative.Theory.Runs
import Mathlib.Data.List.Perm.Basic
import Mathlib.Logic.Function.Basic

/-!
# Pools refilled from a store

A server hands out items from queues, one for each key, and a second thread refills an
empty queue with what it reads in a store. Nothing keeps the two apart: the first takes
the last item of a queue in two steps (`back`, `pop_back`), and the second pushes the
items one by one. The store changes meanwhile by steps of its own.

- `of_run`: what is true of the items of the store for good is true of everything that is
  queued or handed out;
- `accounted`: every item that a refill reads is handed out once or still waits, when no
  push falls between a `back` and its `pop_back`.
-/

namespace WaiNative.RefilledPool

open Runs

/-- Where the thread that hands out is: behind finding the queue filled, behind reading
its last item, behind removing the last item. -/
inductive Fetching (L α : Type)
  | idle
  | found (key : L)
  | taken (key : L) (top : α)
  | popped (key : L) (top : α)
deriving DecidableEq

/-- Where the thread that refills is: before looking at the queues of these keys, with
the items left to push for one, waiting for a notify. -/
inductive Collecting (L α : Type)
  | looking (keys : List L)
  | pushing (key : L) (rest : List α) (keys : List L)
  | waiting
deriving DecidableEq

inductive Reply (L α : Type)
  | task (key : L) (item : α)
  | nothing
deriving DecidableEq

/-- What a server does with its store: the items that a refill reads, what it pushes when
there are none, how many empty replies end every answer, and the steps of the store. -/
structure Server (L α σ B : Type) where
  keys : List L
  snapshot : σ → L → List α
  seed : L → Option α
  trailer : ℕ
  storeStep : σ → B → Option σ

structure Pool (L α σ : Type) where
  store : σ
  queue : L → List α
  fetching : Fetching L α
  collecting : Collecting L α
  sent : List (Reply L α)

inductive Action (L B : Type)
  | fetch (key : L)
  | back
  | pop_back
  | send
  | collect
  | wake
  | store (b : B)

section Steps

variable {L α σ B : Type} [DecidableEq L] (S : Server L α σ B)

/-- The empty replies behind an answer. -/
def trail : List (Reply L α) := List.replicate S.trailer .nothing

/-- A notify reaches a waiting thread only. -/
def notify : Collecting L α → Collecting L α
  | .waiting => .looking S.keys
  | c => c

/-- The queue behind the last push of a refill. -/
def seeded (key : L) (items : List α) : List α :=
  if items.isEmpty then (S.seed key).toList else items

def Pool.setQueue (p : Pool L α σ) (key : L) (items : List α) : Pool L α σ :=
  { p with queue := Function.update p.queue key items }

def collect (p : Pool L α σ) : Option (Pool L α σ) :=
  match p.collecting with
  | .looking [] => some { p with collecting := .waiting }
  | .looking (key :: keys) =>
      if (p.queue key).isEmpty then
        some { p with collecting := .pushing key (S.snapshot p.store key) keys }
      else some { p with collecting := .looking keys }
  | .pushing key (item :: rest) keys =>
      some { p.setQueue key (p.queue key ++ [item]) with collecting := .pushing key rest keys }
  | .pushing key [] keys =>
      some { p.setQueue key (seeded S key (p.queue key)) with collecting := .looking keys }
  | .waiting => none

def step (p : Pool L α σ) : Action L B → Option (Pool L α σ)
  | .fetch key =>
      match p.fetching with
      | .idle =>
          if key ∈ S.keys then
            if (p.queue key).isEmpty then
              some { p with
                collecting := notify S p.collecting
                sent := p.sent ++ .nothing :: trail S }
            else some { p with fetching := .found key }
          else some { p with sent := p.sent ++ trail S }
      | _ => none
  | .back =>
      match p.fetching with
      | .found key =>
          (p.queue key).getLast?.map (fun top => { p with fetching := .taken key top })
      | _ => none
  | .pop_back =>
      match p.fetching with
      | .taken key top =>
          some { p.setQueue key (p.queue key).dropLast with fetching := .popped key top }
      | _ => none
  | .send =>
      match p.fetching with
      | .popped key top =>
          some { p with fetching := .idle, sent := p.sent ++ .task key top :: trail S }
      | _ => none
  | .collect => collect S p
  | .wake =>
      match p.collecting with
      | .waiting => some { p with collecting := .looking S.keys }
      | _ => none
  | .store b => (S.storeStep p.store b).map (fun st => { p with store := st })

/-- The server when it starts: nothing is queued, and the refill looks at all keys. -/
def start (store : σ) : Pool L α σ := ⟨store, fun _ => [], .idle, .looking S.keys, []⟩

end Steps

/-! ## Where the items are -/

section Places

variable {L α σ B : Type} [DecidableEq L]

/-- The items handed out for a key, in order. -/
def handedIn (key : L) (sent : List (Reply L α)) : List α :=
  sent.filterMap (fun r =>
    match r with
    | .task k item => if k = key then some item else none
    | .nothing => none)

/-- The items that a refill still has to push. -/
def restOf (key : L) : Collecting L α → List α
  | .pushing k rest _ => if k = key then rest else []
  | _ => []

/-- The item that has left the queue and is not sent yet. -/
def handOf (key : L) : Fetching L α → List α
  | .popped k top => if k = key then [top] else []
  | _ => []

/-- All items of a key: handed out, in hand, queued, or to be pushed. -/
def Pool.items (p : Pool L α σ) (key : L) : List α :=
  handedIn key p.sent ++ handOf key p.fetching ++ p.queue key ++ restOf key p.collecting

/-- What a step reads in the store, or seeds. -/
def gained (S : Server L α σ B) (p : Pool L α σ) : Action L B → L → List α
  | .collect, key =>
      match p.collecting with
      | .looking (k :: _) =>
          if k = key ∧ (p.queue k).isEmpty then S.snapshot p.store k else []
      | .pushing k [] _ => if k = key ∧ (p.queue k).isEmpty then (S.seed k).toList else []
      | _ => []
  | _, _ => []

theorem handedIn_append (key : L) (sent sent' : List (Reply L α)) :
    handedIn key (sent ++ sent') = handedIn key sent ++ handedIn key sent' :=
  List.filterMap_append

theorem handedIn_task (key k : L) (item : α) (sent : List (Reply L α)) :
    handedIn k (.task key item :: sent) =
      (if key = k then [item] else []) ++ handedIn k sent := by
  by_cases hk : key = k
  · simp [handedIn, hk]
  · simp [handedIn, hk]

theorem handedIn_nothing (key : L) (n : ℕ) :
    handedIn (α := α) key (List.replicate n .nothing) = [] := by
  induction n with
  | zero => rfl
  | succ n ih => exact ih

end Places

/-! ## What one step can do -/

section Effects

variable {L α σ B : Type} [DecidableEq L] {S : Server L α σ B} {p q : Pool L α σ}
  {a : Action L B}

/-- A step looks at the queues and sends empty replies at most; or it is one of the steps
that move an item, read the store or change it. -/
theorem step_cases (h : step S p a = some q) :
    (∃ c n, q = { p with collecting := c, sent := p.sent ++ List.replicate n .nothing } ∧
      (∀ key, restOf key c = restOf key p.collecting) ∧ ∀ key, gained S p a key = []) ∨
    (∃ key, p.queue key ≠ [] ∧ q = { p with fetching := .found key } ∧ p.fetching = .idle ∧
      ∀ key, gained S p a key = []) ∨
    (∃ key top, p.fetching = .found key ∧ (p.queue key).getLast? = some top ∧
      q = { p with fetching := .taken key top } ∧ ∀ key, gained S p a key = []) ∨
    (∃ key top, p.fetching = .taken key top ∧
      q = { p.setQueue key (p.queue key).dropLast with fetching := .popped key top } ∧
      ∀ key, gained S p a key = []) ∨
    (∃ key top, p.fetching = .popped key top ∧
      q = { p with fetching := .idle, sent := p.sent ++ .task key top :: trail S } ∧
      ∀ key, gained S p a key = []) ∨
    (∃ key keys, p.collecting = .looking (key :: keys) ∧ p.queue key = [] ∧
      q = { p with collecting := .pushing key (S.snapshot p.store key) keys } ∧
      ∀ k, gained S p a k = if key = k then S.snapshot p.store key else []) ∨
    (∃ key item rest keys, a = .collect ∧ p.collecting = .pushing key (item :: rest) keys ∧
      q = { p.setQueue key (p.queue key ++ [item]) with
        collecting := .pushing key rest keys } ∧ ∀ key, gained S p a key = []) ∨
    (∃ key keys, a = .collect ∧ p.collecting = .pushing key [] keys ∧
      q = { p.setQueue key (seeded S key (p.queue key)) with collecting := .looking keys } ∧
      ∀ k, gained S p a k =
        if key = k ∧ (p.queue key).isEmpty then (S.seed key).toList else []) ∨
    (∃ b st, a = .store b ∧ S.storeStep p.store b = some st ∧ q = { p with store := st } ∧
      ∀ key, gained S p a key = []) := by
  cases a with
  | fetch key =>
      simp only [step] at h
      split at h
      · rename_i hidle
        split at h
        · split at h
          · obtain rfl := Option.some.inj h
            refine Or.inl ⟨_, S.trailer + 1, rfl, fun k => ?_, fun _ => rfl⟩
            cases p.collecting <;> rfl
          · rename_i hempty
            obtain rfl := Option.some.inj h
            exact Or.inr (Or.inl ⟨key, by simpa using hempty, rfl, hidle, fun _ => rfl⟩)
        · obtain rfl := Option.some.inj h
          exact Or.inl ⟨_, S.trailer, rfl, fun _ => rfl, fun _ => rfl⟩
      · exact absurd h (by simp)
  | back =>
      simp only [step] at h
      split at h
      · rename_i key hfound
        obtain ⟨top, htop, rfl⟩ := Option.map_eq_some_iff.mp h
        exact Or.inr (Or.inr (Or.inl ⟨key, top, hfound, htop, rfl, fun _ => rfl⟩))
      · exact absurd h (by simp)
  | pop_back =>
      simp only [step] at h
      split at h
      · rename_i key top htaken
        obtain rfl := Option.some.inj h
        exact Or.inr (Or.inr (Or.inr (Or.inl ⟨key, top, htaken, rfl, fun _ => rfl⟩)))
      · exact absurd h (by simp)
  | send =>
      simp only [step] at h
      split at h
      · rename_i key top hpopped
        obtain rfl := Option.some.inj h
        exact Or.inr (Or.inr (Or.inr (Or.inr (Or.inl ⟨key, top, hpopped, rfl, fun _ => rfl⟩))))
      · exact absurd h (by simp)
  | collect =>
      simp only [step, collect] at h
      split at h
      · rename_i hlooking
        obtain rfl := Option.some.inj h
        refine Or.inl ⟨.waiting, 0, by simp, fun k => ?_, fun k => ?_⟩
        · rw [hlooking]
          rfl
        · simp only [gained, hlooking]
      · rename_i key keys hlooking
        split at h
        · rename_i hempty
          obtain rfl := Option.some.inj h
          refine Or.inr (Or.inr (Or.inr (Or.inr (Or.inr (Or.inl
            ⟨key, keys, hlooking, List.isEmpty_iff.mp hempty, rfl, fun k => ?_⟩)))))
          simp only [gained, hlooking, hempty, and_true]
        · rename_i hfilled
          obtain rfl := Option.some.inj h
          refine Or.inl ⟨.looking keys, 0, by simp, fun k => ?_, fun k => ?_⟩
          · rw [hlooking]
            rfl
          · simp only [gained, hlooking, hfilled, and_false, if_false, Bool.false_eq_true]
      · rename_i key item rest keys hpushing
        obtain rfl := Option.some.inj h
        refine Or.inr (Or.inr (Or.inr (Or.inr (Or.inr (Or.inr (Or.inl
          ⟨key, item, rest, keys, rfl, hpushing, rfl, fun k => ?_⟩))))))
        simp only [gained, hpushing]
      · rename_i key keys hpushing
        obtain rfl := Option.some.inj h
        refine Or.inr (Or.inr (Or.inr (Or.inr (Or.inr (Or.inr (Or.inr (Or.inl
          ⟨key, keys, rfl, hpushing, rfl, fun k => ?_⟩)))))))
        simp only [gained, hpushing]
      · exact absurd h (by simp)
  | wake =>
      simp only [step] at h
      split at h
      · rename_i hwaiting
        obtain rfl := Option.some.inj h
        refine Or.inl ⟨.looking S.keys, 0, by simp, fun k => ?_, fun _ => rfl⟩
        rw [hwaiting]
        rfl
      · exact absurd h (by simp)
  | store b =>
      obtain ⟨st, hst, rfl⟩ := Option.map_eq_some_iff.mp h
      exact Or.inr (Or.inr (Or.inr (Or.inr (Or.inr (Or.inr (Or.inr (Or.inr
        ⟨b, st, rfl, hst, rfl, fun _ => rfl⟩)))))))

@[simp] theorem setQueue_self (p : Pool L α σ) (key : L) (items : List α) :
    (p.setQueue key items).queue key = items :=
  Function.update_self ..

theorem setQueue_of_ne (p : Pool L α σ) {key k : L} (hne : k ≠ key) (items : List α) :
    (p.setQueue key items).queue k = p.queue k :=
  Function.update_of_ne hne ..

/-- **A step adds what it gained behind the items**, unless it removes one from a
queue. -/
theorem step_items (h : step S p a = some q) :
    (∀ key, q.items key = p.items key ++ gained S p a key) ∨
    (∀ key, gained S p a key = []) ∧ ∃ key top, p.fetching = .taken key top ∧
      q = { p.setQueue key (p.queue key).dropLast with fetching := .popped key top } := by
  obtain ⟨c, n, rfl, hrest, hgained⟩ | ⟨key, -, rfl, hidle, hgained⟩ |
    ⟨key, top, hfound, -, rfl, hgained⟩ | ⟨key, top, htaken, rfl, hgained⟩ |
    ⟨key, top, hpopped, rfl, hgained⟩ | ⟨key, keys, hlooking, hempty, rfl, hgained⟩ |
    ⟨key, item, rest, keys, -, hpushing, rfl, hgained⟩ |
    ⟨key, keys, -, hpushing, rfl, hgained⟩ | ⟨b, st, -, -, rfl, hgained⟩ := step_cases h
  · left
    intro k
    simp only [Pool.items, handedIn_append, handedIn_nothing, List.append_nil, hrest, hgained]
  · left
    intro k
    simp only [Pool.items, hidle, handOf, hgained, List.append_nil]
  · left
    intro k
    simp only [Pool.items, hfound, handOf, hgained, List.append_nil]
  · exact Or.inr ⟨hgained, key, top, htaken, rfl⟩
  · left
    intro k
    have htrail : handedIn (α := α) k (trail S) = [] := handedIn_nothing k S.trailer
    simp only [Pool.items, handedIn_append, handedIn_task, htrail, hpopped, handOf, hgained,
      List.append_nil]
  · left
    intro k
    simp only [Pool.items, hlooking, restOf, hgained, List.append_nil]
  · left
    intro k
    by_cases hk : key = k
    · subst hk
      simp [Pool.items, hpushing, restOf, hgained, Pool.setQueue]
    · simp only [Pool.items, hpushing, restOf, hgained, if_neg hk, List.append_nil]
      rw [setQueue_of_ne p (Ne.symm hk)]
      rfl
  · left
    intro k
    by_cases hk : key = k
    · subst hk
      simp only [Pool.items, hpushing, restOf, hgained, true_and, setQueue_self, if_true,
        List.append_nil, seeded]
      by_cases hempty : p.queue key = []
      · simp [hempty, Pool.setQueue]
      · simp [hempty, Pool.setQueue]
    · have hother : ¬ (key = k ∧ (p.queue key).isEmpty = true) := fun h => hk h.1
      simp only [Pool.items, hpushing, restOf, hgained, if_neg hk, if_neg hother,
        List.append_nil]
      rw [setQueue_of_ne p (Ne.symm hk)]
      rfl
  · left
    intro k
    simp only [Pool.items, hgained, List.append_nil]

end Effects

/-! ## Whole runs -/

section Reads

variable {L α σ B : Type} {S : Server L α σ B} {p q : Pool L α σ}

/-- A queue that was found filled stays so, and the item that was read is as `R` says. -/
def Holds (R : List α → α → Prop) (p : Pool L α σ) : Prop :=
  match p.fetching with
  | .found key => p.queue key ≠ []
  | .taken key top => R (p.queue key) top
  | _ => True

theorem holds_found {R : List α → α → Prop} {key : L} (h : p.fetching = .found key) :
    Holds R p ↔ p.queue key ≠ [] := by
  rw [Holds, h]

theorem holds_taken {R : List α → α → Prop} {key : L} {top : α}
    (h : p.fetching = .taken key top) : Holds R p ↔ R (p.queue key) top := by
  rw [Holds, h]

theorem seeded_of_ne {key : L} {items : List α} (hne : items ≠ []) :
    seeded S key items = items := by
  rw [seeded, if_neg (by simpa using hne)]

/-- Filled queues, all but the one under a `pop_back`, are only pushed to. -/
theorem holds_of_queue {R : List α → α → Prop} (hne : ∀ l top, R l top → l ≠ [])
    (hp : Holds R p) (hfetching : q.fetching = p.fetching)
    (hqueue : ∀ key, p.queue key ≠ [] → q.queue key = p.queue key ∨
      ∃ item, q.queue key = p.queue key ++ [item] ∧
        ∀ top, p.fetching = .taken key top → R (p.queue key ++ [item]) top) :
    Holds R q := by
  cases hstate : p.fetching with
  | found key =>
      have hfilled := (holds_found hstate).mp hp
      rw [holds_found (hfetching.trans hstate)]
      obtain hsame | ⟨item, hmore, -⟩ := hqueue key hfilled
      · rw [hsame]
        exact hfilled
      · simp [hmore]
  | taken key top =>
      have hread := (holds_taken hstate).mp hp
      rw [holds_taken (hfetching.trans hstate)]
      obtain hsame | ⟨item, hmore, hR⟩ := hqueue key (hne _ _ hread)
      · rw [hsame]
        exact hread
      · rw [hmore]
        exact hR top hstate
  | idle =>
      rw [Holds, hfetching, hstate]
      trivial
  | popped key top =>
      rw [Holds, hfetching, hstate]
      trivial

end Reads

section Moves

variable {L α σ B : Type} [DecidableEq L] {S : Server L α σ B} {p q : Pool L α σ}
  {a : Action L B}

/-- The step pushes behind an item that was read and is not removed yet. -/
def overlaps (p : Pool L α σ) : Action L B → Bool
  | .collect =>
      match p.fetching, p.collecting with
      | .taken key _, .pushing k (_ :: _) _ => k = key
      | _, _ => false
  | _ => false

/-- **What was read stays as `R` says**, when pushes keep `R` or none falls in between. -/
theorem step_holds {R : List α → α → Prop}
    (hlast : ∀ l top, l.getLast? = some top → R l top) (hne : ∀ l top, R l top → l ≠ [])
    (hpush : overlaps p a = true → ∀ l top item, R l top → R (l ++ [item]) top)
    (hp : Holds R p) (h : step S p a = some q) : Holds R q := by
  obtain ⟨c, n, rfl, -⟩ | ⟨key, hfilled, rfl, -⟩ | ⟨key, top, -, htop, rfl, -⟩ |
    ⟨key, top, -, rfl, -⟩ | ⟨key, top, -, rfl, -⟩ | ⟨key, keys, -, -, rfl, -⟩ |
    ⟨key, item, rest, keys, rfl, hpushing, rfl, -⟩ | ⟨key, keys, -, -, rfl, -⟩ |
    ⟨b, st, -, -, rfl, -⟩ := step_cases h
  · exact hp
  · exact hfilled
  · exact hlast _ _ htop
  · trivial
  · trivial
  · exact hp
  · refine holds_of_queue hne hp rfl (fun k hk => ?_)
    by_cases hsame : k = key
    · subst hsame
      refine Or.inr ⟨item, setQueue_self .., fun top htaken => ?_⟩
      refine hpush ?_ _ _ item ((holds_taken htaken).mp hp)
      simp [overlaps, htaken, hpushing]
    · exact Or.inl (setQueue_of_ne p hsame _)
  · refine holds_of_queue hne hp rfl (fun k hk => Or.inl ?_)
    by_cases hsame : k = key
    · subst hsame
      exact (setQueue_self ..).trans (seeded_of_ne hk)
    · exact setQueue_of_ne p hsame _
  · exact hp

end Moves

section Runs

variable {L α σ B : Type} [DecidableEq L] {S : Server L α σ B} {p q : Pool L α σ}

/-- What the steps of a run read in the store, or seed. -/
def supplied (S : Server L α σ B) (key : L) : Pool L α σ → List (Action L B) → List α
  | _, [] => []
  | p, a :: acts =>
      gained S p a key ++
        match step S p a with
        | some q => supplied S key q acts
        | none => []

/-- The item that was read is still the last one. -/
abbrev Exact (p : Pool L α σ) : Prop := Holds (fun l top => l.getLast? = some top) p

/-- The item that was read is still queued. -/
abbrev Held (p : Pool L α σ) : Prop := Holds (fun l top => top ∈ l) p

theorem step_exact {a : Action L B} (hexact : Exact p) (hok : overlaps p a = false)
    (h : step S p a = some q) :
    Exact q ∧ ∀ key, (q.items key).Perm (p.items key ++ gained S p a key) := by
  refine ⟨step_holds (fun _ _ => id) ?_ (fun hover => absurd (hok.symm.trans hover) (by simp))
    hexact h, fun k => ?_⟩
  · rintro l top hlast rfl
    exact absurd hlast (by simp)
  · obtain hitems | ⟨hgained, key, top, htaken, rfl⟩ := step_items h
    · exact List.Perm.of_eq (hitems k)
    · have hlast := (holds_taken htaken).mp hexact
      rw [hgained, List.append_nil]
      simp only [Pool.items, htaken, handOf, List.append_nil]
      by_cases hk : key = k
      · subst hk
        rw [if_pos rfl, setQueue_self, List.append_assoc (handedIn key _)]
        refine (List.Perm.append_left _ ?_).append_right _
        have hqueue := List.dropLast_append_getLast? top hlast
        exact List.perm_append_comm.trans (List.Perm.of_eq hqueue)
      · rw [if_neg hk, List.append_nil, setQueue_of_ne p (Ne.symm hk)]
        exact List.Perm.refl _

/-- **Every item that is read or seeded is handed out once, or still waits.** -/
theorem accounted {acts : List (Action L B)} (hexact : Exact p)
    (hok : Along (step S) (fun p a => overlaps p a = false) p acts)
    (hrun : run (step S) p acts = some q) (key : L) :
    (q.items key).Perm (p.items key ++ supplied S key p acts) := by
  induction acts generalizing p with
  | nil =>
      obtain rfl := Option.some.inj hrun
      simp [supplied]
  | cons a acts ih =>
      obtain ⟨mid, hstep, hrest⟩ := run_cons_iff.mp hrun
      obtain ⟨hoka, hoks⟩ := hok.cons hstep
      obtain ⟨hmid, hitems⟩ := step_exact hexact hoka hstep
      rw [supplied, hstep, ← List.append_assoc]
      exact (ih hmid hoks hrest).trans ((hitems key).append_right _)

/-- What a step gains was read in the store or seeded. -/
theorem mem_gained {a : Action L B} {key : L} {item : α} (h : item ∈ gained S p a key) :
    item ∈ S.snapshot p.store key ∨ S.seed key = some item := by
  unfold gained at h
  split at h
  · split at h
    · obtain ⟨⟨rfl, -⟩, hmem⟩ := List.mem_ite_nil_right.mp h
      exact Or.inl hmem
    · obtain ⟨⟨rfl, -⟩, hmem⟩ := List.mem_ite_nil_right.mp h
      exact Or.inr (Option.mem_toList.mp hmem)
    · exact absurd h List.not_mem_nil
  · exact absurd h List.not_mem_nil

theorem step_store {a : Action L B} (h : step S p a = some q) :
    q.store = p.store ∨ ∃ b, a = .store b ∧ S.storeStep p.store b = some q.store := by
  obtain ⟨c, n, rfl, -⟩ | ⟨k, -, rfl, -⟩ | ⟨k, top, -, -, rfl, -⟩ | ⟨k, top, -, rfl, -⟩ |
    ⟨k, top, -, rfl, -⟩ | ⟨k, keys, -, -, rfl, -⟩ | ⟨k, item, rest, keys, -, -, rfl, -⟩ |
    ⟨k, keys, -, -, rfl, -⟩ | ⟨b, st, rfl, hst, rfl, -⟩ := step_cases h
  all_goals first | exact Or.inl rfl | exact Or.inr ⟨b, rfl, hst⟩

/-- A step leaves no item that was not there, read or seeded. -/
theorem step_mem {a : Action L B} (hheld : Held p) (h : step S p a = some q) :
    Held q ∧ ∀ key, ∀ item ∈ q.items key, item ∈ p.items key ∨ item ∈ gained S p a key := by
  refine ⟨step_holds (fun _ _ => List.mem_of_getLast?) (fun _ _ => List.ne_nil_of_mem)
    (fun _ _ _ _ => List.mem_append_left _) hheld h, fun k item hitem => ?_⟩
  obtain hitems | ⟨-, key, top, htaken, rfl⟩ := step_items h
  · rw [hitems k] at hitem
    exact List.mem_append.mp hitem
  · have hqueued := (holds_taken htaken).mp hheld
    left
    simp only [Pool.items, htaken, handOf, List.mem_append] at hitem ⊢
    by_cases hk : key = k
    · subst hk
      rw [if_pos rfl, setQueue_self] at hitem
      obtain ((hsent | hhand) | hqueue) | hrest := hitem
      · exact Or.inl (Or.inl (Or.inl hsent))
      · rw [List.mem_singleton.mp hhand]
        exact Or.inl (Or.inr hqueued)
      · exact Or.inl (Or.inr ((List.dropLast_sublist _).subset hqueue))
      · exact Or.inr hrest
    · rw [if_neg hk, setQueue_of_ne p (Ne.symm hk)] at hitem
      exact hitem

/-- A condition on the steps of the store alone. -/
def StoreOk (ok : σ → B → Prop) (p : Pool L α σ) : Action L B → Prop
  | .store b => ok p.store b
  | _ => True

/-- **What is true of the items of the store for good is true of all that is queued or
handed out**, but for the seeds. -/
theorem of_run {I : σ → Prop} {G : σ → L → α → Prop} {ok : σ → B → Prop}
    (hsnap : ∀ s key item, I s → item ∈ S.snapshot s key → G s key item)
    (hstore : ∀ s b t, I s → ok s b → S.storeStep s b = some t →
      I t ∧ ∀ key item, G s key item → G t key item)
    {acts : List (Action L B)} (hok : Along (step S) (StoreOk ok) p acts)
    (hrun : run (step S) p acts = some q) (hheld : Held p) (hinv : I p.store)
    (hgood : ∀ key, ∀ item ∈ p.items key, G p.store key item ∨ S.seed key = some item) :
    I q.store ∧
      ∀ key, ∀ item ∈ q.items key, G q.store key item ∨ S.seed key = some item := by
  have hpreserved : ∀ (s : Pool L α σ) (a : Action L B) (t : Pool L α σ),
      (Held s ∧ I s.store ∧
        ∀ key, ∀ item ∈ s.items key, G s.store key item ∨ S.seed key = some item) →
      StoreOk ok s a → step S s a = some t →
      Held t ∧ I t.store ∧
        ∀ key, ∀ item ∈ t.items key, G t.store key item ∨ S.seed key = some item := by
    rintro s a t ⟨hheld, hinv, hgood⟩ hoka hstep
    obtain ⟨hheld', hmem⟩ := step_mem hheld hstep
    have hnext : I t.store ∧ ∀ key item, G s.store key item → G t.store key item := by
      obtain hsame | ⟨b, rfl, hb⟩ := step_store hstep
      · rw [hsame]
        exact ⟨hinv, fun _ _ => id⟩
      · exact hstore _ b _ hinv hoka hb
    refine ⟨hheld', hnext.1, fun key item hitem => ?_⟩
    obtain hold | hnew := hmem key item hitem
    · exact (hgood key item hold).imp_left (hnext.2 key item)
    · exact (mem_gained hnew).imp_left
        (fun hread => hnext.2 key item (hsnap _ _ _ hinv hread))
  exact (invariant hpreserved ⟨hheld, hinv, hgood⟩ hok hrun).2

end Runs

end WaiNative.RefilledPool

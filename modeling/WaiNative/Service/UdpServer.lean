import WaiNative.Cxx.Strings
import WaiNative.Theory.Runs
import Mathlib.Data.List.Perm.Basic

/-!
# The UDP server

All services answer over `udp_server`. It has one buffer and one `remote_endpoint_`,
and two receives under way from the start: one by the constructor and one by
`start_receive(fn)`. A receive that completes writes both; its handler, which runs
later, gives the buffer to `func_` and starts the next receive. `send` goes to whatever
`remote_endpoint_` is then; a worker like that of the crawler (`processTextInSide`)
calls it long after the handler.

So two receives that complete before their handlers run hand over the later datagram
twice, and a reply goes to whoever was received last (`clients_mixed_up`). Where
neither comes in between, nothing is mixed up (`served_one_by_one`).

A datagram is named by its place among those received. The buffer is long enough for
any datagram; only what was written to it is kept here.
-/

namespace WaiNative

open Cxx Runs

structure Datagram (ε : Type) where
  endpoint : ε
  bytes : Str

/-- A receive that has completed, before its handler has run: what the handler will be
called with, and the datagram received; there is none with an error. -/
structure Received where
  error : Bool
  bytes_transferred : ℕ
  datagram : Option ℕ
deriving DecidableEq

/-- A reply: the datagram it answers, and where it went. -/
structure UdpReply (ε : Type) where
  answers : ℕ
  endpoint : Option ε
  message : Str
deriving DecidableEq

/-- The members of `udp_server`, the receives under way and completed, what the socket
holds, and what the outside has seen: the datagrams received, the calls of `func_` and
the replies. -/
structure UdpServer (ε : Type) where
  remote_endpoint_ : Option ε
  recv_buffer_ : Str
  receiving : ℕ
  arrived : List (Datagram ε)
  completed : List Received
  received : List (Datagram ε)
  handed : List (Option ℕ × Str)
  sent : List (UdpReply ε)

namespace UdpServer

variable {ε : Type}

/-- Another `async_receive_from`. -/
def async_receive (s : UdpServer ε) : UdpServer ε := { s with receiving := s.receiving + 1 }

/-- The constructor and `start_receive(fn)`. -/
def new : UdpServer ε :=
  async_receive (async_receive
    { remote_endpoint_ := none, recv_buffer_ := [], receiving := 0, arrived := [],
      completed := [], received := [], handed := [], sent := [] })

/-- `handle_receive` of a completed receive; the call of `func_` is recorded. -/
def handle_receive (op : Received) (s : UdpServer ε) : UdpServer ε :=
  let recv_str := s.recv_buffer_.take op.bytes_transferred
  let s := { s with handed := s.handed ++ [(op.datagram, recv_str)] }
  if op.error then s else s.async_receive

/-- A datagram arrives at the socket; a receive under way completes with the first one
there, or with an error; a handler runs; somebody who was handed a datagram replies. -/
inductive Action (ε : Type) where
  | arrive (d : Datagram ε)
  | complete
  | fail
  | handle (i : ℕ)
  | send (k : ℕ) (msg : Str)

def step (s : UdpServer ε) : Action ε → Option (UdpServer ε)
  | .arrive d => some { s with arrived := s.arrived ++ [d] }
  | .complete =>
      match s.receiving, s.arrived with
      | n + 1, d :: arrived =>
          some { s with
            remote_endpoint_ := some d.endpoint
            recv_buffer_ := d.bytes ++ s.recv_buffer_.drop d.bytes.length
            receiving := n
            arrived := arrived
            completed := s.completed ++ [⟨false, d.bytes.length, some s.received.length⟩]
            received := s.received ++ [d] }
      | _, _ => none
  | .fail =>
      match s.receiving with
      | n + 1 =>
          some { s with receiving := n, completed := s.completed ++ [⟨true, 0, none⟩] }
      | 0 => none
  | .handle i => do
      let op ← s.completed[i]?
      some (handle_receive op { s with completed := s.completed.eraseIdx i })
  | .send k msg =>
      if some k ∈ s.handed.map Prod.fst then
        some { s with sent := s.sent ++ [⟨k, s.remote_endpoint_, msg⟩] }
      else none

/-! ## One datagram after the other -/

/-- No receive completes while a datagram waits for its handler, and who replies to a
datagram does so before a receive from another endpoint completes. -/
def OneByOne (s : UdpServer ε) : Action ε → Prop
  | .complete => ∀ op ∈ s.completed, op.datagram = none
  | .send k _ =>
      ∀ d ∈ s.received[k]?, ∀ d' ∈ s.received.drop (k + 1), d'.endpoint = d.endpoint
  | _ => True

instance decidableOneByOne [DecidableEq ε] (s : UdpServer ε) :
    ∀ a, Decidable (OneByOne s a)
  | .complete => inferInstanceAs (Decidable (∀ op ∈ s.completed, op.datagram = none))
  | .send k _ => inferInstanceAs (Decidable
      (∀ d ∈ s.received[k]?, ∀ d' ∈ s.received.drop (k + 1), d'.endpoint = d.endpoint))
  | .arrive _ | .fail | .handle _ => inferInstanceAs (Decidable True)

/-- Each received datagram was handed to `func_` once, with its own bytes, or waits for
its handler; and each reply went to the endpoint of the datagram it answers. -/
structure Served (s : UdpServer ε) : Prop where
  once : (s.handed.filterMap Prod.fst ++ s.completed.filterMap Received.datagram).Perm
    (List.range s.received.length)
  bytes : ∀ k b, (some k, b) ∈ s.handed → s.received[k]?.map Datagram.bytes = some b
  replies : ∀ r ∈ s.sent, ∃ d, s.received[r.answers]? = some d ∧ r.endpoint = some d.endpoint

/-- What one step at a time preserves. -/
structure Inv (s : UdpServer ε) : Prop where
  served : Served s
  last : s.remote_endpoint_ = s.received.getLast?.map Datagram.endpoint
  waiting : ∀ op ∈ s.completed, ∀ k ∈ op.datagram,
    s.received[k]?.map Datagram.bytes = some (s.recv_buffer_.take op.bytes_transferred)

section OneByOne

variable {s t : UdpServer ε}

theorem inv_new : Inv (new : UdpServer ε) where
  served := ⟨List.Perm.refl _, by simp [new, async_receive], by simp [new, async_receive]⟩
  last := rfl
  waiting := by simp [new, async_receive]

/-- What is received stays at its place. -/
theorem received_concat {l : List (Datagram ε)} {k : ℕ} {d : Datagram ε}
    (h : l[k]? = some d) (d' : Datagram ε) : (l ++ [d'])[k]? = some d := by
  rw [List.getElem?_append_left (List.getElem?_eq_some_iff.mp h).1, h]

theorem bytes_concat {l : List (Datagram ε)} {k : ℕ} {b : Str}
    (h : l[k]?.map Datagram.bytes = some b) (d' : Datagram ε) :
    (l ++ [d'])[k]?.map Datagram.bytes = some b := by
  obtain ⟨d, hd, rfl⟩ := Option.map_eq_some_iff.mp h
  rw [received_concat hd]
  rfl

/-- Where all that follow a datagram are of its endpoint, the last one is. -/
theorem last_endpoint {l : List (Datagram ε)} {k : ℕ} {d : Datagram ε} (h : l[k]? = some d)
    (hafter : ∀ d' ∈ l.drop (k + 1), d'.endpoint = d.endpoint) :
    l.getLast?.map Datagram.endpoint = some d.endpoint := by
  obtain ⟨hk, rfl⟩ := List.getElem?_eq_some_iff.mp h
  rcases Nat.lt_or_ge (k + 1) l.length with hmore | hlast
  · have hdrop : (l.drop (k + 1)).getLast? = l.getLast? := by
      rw [List.getLast?_drop, if_neg (by omega)]
    have hne : l.drop (k + 1) ≠ [] := by simpa using hmore
    rw [← hdrop, List.getLast?_eq_some_getLast hne, Option.map_some,
      hafter _ (List.getLast_mem hne)]
  · obtain rfl : k = l.length - 1 := by omega
    rw [List.getLast?_eq_getElem?, h, Option.map_some]

/-- A receive completes when none waits: the buffer is its own. -/
theorem Inv.complete (h : Inv s) (hok : OneByOne s .complete)
    (hstep : step s .complete = some t) : Inv t := by
  rw [step] at hstep
  split at hstep
  · rename_i n d arrived hreceiving harrived
    obtain rfl := Option.some.inj hstep
    have hnone : s.completed.filterMap Received.datagram = [] :=
      List.filterMap_eq_nil_iff.mpr hok
    refine ⟨⟨?_, ?_, ?_⟩, ?_, ?_⟩
    · have honce := h.served.once
      rw [hnone, List.append_nil] at honce
      show (s.handed.filterMap Prod.fst ++
        List.filterMap Received.datagram
          (s.completed ++ [⟨false, d.bytes.length, some s.received.length⟩])).Perm
            (List.range (s.received ++ [d]).length)
      rw [List.filterMap_append, hnone, List.length_append, List.length_singleton,
        List.range_succ]
      exact honce.append_right _
    · intro k b hb
      exact bytes_concat (h.served.bytes k b hb) d
    · intro r hr
      obtain ⟨d', hd', hendpoint⟩ := h.served.replies r hr
      exact ⟨d', received_concat hd' d, hendpoint⟩
    · show some d.endpoint = ((s.received ++ [d]).getLast?).map Datagram.endpoint
      rw [List.getLast?_concat]
      rfl
    · intro op hop k hk
      rcases List.mem_append.mp hop with hop | hop
      · rw [hok op hop] at hk
        exact absurd hk (by simp)
      · obtain rfl := List.mem_singleton.mp hop
        obtain rfl : s.received.length = k := by simpa using hk
        show ((s.received ++ [d])[s.received.length]?).map Datagram.bytes =
          some ((d.bytes ++ s.recv_buffer_.drop d.bytes.length).take d.bytes.length)
        rw [List.getElem?_concat_length, List.take_left]
        rfl
  · exact absurd hstep (by simp)

/-- A handler hands over what waits for it. -/
theorem Inv.handle (h : Inv s) {i : ℕ} (hstep : step s (.handle i) = some t) : Inv t := by
  obtain ⟨op, hi, hstep⟩ := Option.bind_eq_some_iff.mp hstep
  obtain rfl := Option.some.inj hstep
  have hop : op ∈ s.completed := List.mem_of_getElem? hi
  have hsub : ∀ op' ∈ s.completed.eraseIdx i, op' ∈ s.completed :=
    fun op' hop' => List.mem_of_mem_eraseIdx hop'
  -- whether the next receive starts does not matter
  suffices hgoal : Inv { s with
      completed := s.completed.eraseIdx i
      handed := s.handed ++
        [(op.datagram, s.recv_buffer_.take op.bytes_transferred)] } by
    unfold handle_receive
    dsimp only
    split
    · exact hgoal
    · exact ⟨⟨hgoal.served.once, hgoal.served.bytes, hgoal.served.replies⟩, hgoal.last,
        hgoal.waiting⟩
  refine ⟨⟨?_, ?_, h.served.replies⟩, h.last, fun op' hop' => h.waiting op' (hsub op' hop')⟩
  · have honce := h.served.once
    obtain ⟨hlt, rfl⟩ := List.getElem?_eq_some_iff.mp hi
    have herase := (List.getElem_cons_eraseIdx_perm hlt).filterMap Received.datagram
    rw [← List.singleton_append, List.filterMap_append] at herase
    have hone : [(s.completed[i].datagram, s.recv_buffer_.take
        s.completed[i].bytes_transferred)].filterMap Prod.fst =
        [s.completed[i]].filterMap Received.datagram := rfl
    rw [List.filterMap_append, hone, List.append_assoc]
    exact (herase.append_left _).trans honce
  · intro k b hb
    rcases List.mem_append.mp hb with hb | hb
    · exact h.served.bytes k b hb
    · obtain ⟨hk, rfl⟩ := Prod.mk.inj (List.mem_singleton.mp hb)
      exact h.waiting op hop k hk.symm

/-- A reply before a receive from another endpoint completes: `remote_endpoint_` is
still that of the datagram it answers. -/
theorem Inv.send (h : Inv s) {k : ℕ} {msg : Str} (hok : OneByOne s (.send k msg))
    (hstep : step s (.send k msg) = some t) : Inv t := by
  rw [step] at hstep
  split at hstep
  · rename_i hhanded
    obtain rfl := Option.some.inj hstep
    refine ⟨⟨h.served.once, h.served.bytes, ?_⟩, h.last, h.waiting⟩
    intro r hr
    rcases List.mem_append.mp hr with hr | hr
    · exact h.served.replies r hr
    · obtain rfl := List.mem_singleton.mp hr
      obtain ⟨⟨k', b⟩, hb, rfl⟩ := List.mem_map.mp hhanded
      obtain ⟨d, hd, -⟩ := Option.map_eq_some_iff.mp (h.served.bytes k b hb)
      exact ⟨d, hd, h.last.trans (last_endpoint hd (hok d hd))⟩
  · exact absurd hstep (by simp)

theorem Inv.step {a : Action ε} (h : Inv s) (hok : OneByOne s a)
    (hstep : UdpServer.step s a = some t) : Inv t := by
  cases a with
  | arrive d =>
      obtain rfl := Option.some.inj hstep
      exact ⟨⟨h.served.once, h.served.bytes, h.served.replies⟩, h.last, h.waiting⟩
  | complete => exact h.complete hok hstep
  | fail =>
      rw [UdpServer.step] at hstep
      split at hstep
      · obtain rfl := Option.some.inj hstep
        refine ⟨⟨?_, h.served.bytes, h.served.replies⟩, h.last, ?_⟩
        · rw [List.filterMap_append]
          simpa using h.served.once
        · intro op hop k hk
          rcases List.mem_append.mp hop with hop | hop
          · exact h.waiting op hop k hk
          · obtain rfl := List.mem_singleton.mp hop
            exact absurd hk (by simp)
      · exact absurd hstep (by simp)
  | handle i => exact h.handle hstep
  | send k msg => exact h.send hok hstep

/-- **One datagram after the other is served right.** In any run in which no receive
completes while a datagram waits for its handler, and from a datagram's being received
to each reply to it no receive from another endpoint completes, each received datagram
is handed to `func_` once, with its own bytes, and each reply goes to its endpoint. -/
theorem served_one_by_one {acts : List (Action ε)} (hrun : run step new acts = some s)
    (hok : Along step OneByOne new acts) : Served s :=
  (invariant (fun _ _ _ h hok hstep => h.step hok hstep) inv_new hok hrun).served

end OneByOne

/-! ## Two clients -/

section Clients

def first : Datagram ℕ := ⟨1, [0x41]⟩

def second : Datagram ℕ := ⟨2, [0x42]⟩

/-- Each client is answered before the next receive completes. -/
def inTurn : List (Action ℕ) :=
  [.arrive first, .arrive second, .complete, .handle 0, .send 0 [0x61], .complete,
    .handle 0, .send 1 [0x62]]

theorem served_in_turn : ∃ s, run step new inTurn = some s ∧
    s.sent = [⟨0, some 1, [0x61]⟩, ⟨1, some 2, [0x62]⟩] ∧ Served s := by
  have hany : (run step new inTurn).any
      (fun s => s.sent == [⟨0, some 1, [0x61]⟩, ⟨1, some 2, [0x62]⟩]) = true := by
    decide
  obtain ⟨s, hrun, hsent⟩ := (Option.any_eq_true _ _).mp hany
  exact ⟨s, hrun, eq_of_beq hsent, served_one_by_one hrun (by decide)⟩

/-- Both receives complete before the handlers run. -/
def atOnce : List (Action ℕ) :=
  [.arrive first, .arrive second, .complete, .complete, .handle 0, .handle 0]

/-- The next receive completes before the worker answers. -/
def late : List (Action ℕ) :=
  [.arrive first, .complete, .handle 0, .arrive second, .complete, .send 0 [0x61]]

/-- **Two clients mixed up**: the second datagram is handed over twice and the first
one never, and a reply to the first client goes to the second. -/
theorem clients_mixed_up :
    (∃ s, run step new atOnce = some s ∧
      s.handed = [(some 0, second.bytes), (some 1, second.bytes)] ∧ ¬ Served s) ∧
    ∃ s, run step new late = some s ∧ s.sent = [⟨0, some 2, [0x61]⟩] ∧ ¬ Served s := by
  constructor
  · have hany : (run step new atOnce).any (fun s =>
        s.handed == [(some 0, second.bytes), (some 1, second.bytes)] &&
        s.received[0]?.map Datagram.bytes == some first.bytes) = true := by
      decide
    obtain ⟨s, hrun, hboth⟩ := (Option.any_eq_true _ _).mp hany
    obtain ⟨hhanded, hreceived⟩ := (Bool.and_eq_true_iff).mp hboth
    have hhanded := eq_of_beq hhanded
    refine ⟨s, hrun, hhanded, ?_⟩
    intro hserved
    have hbytes := hserved.bytes 0 second.bytes (by rw [hhanded]; exact List.mem_cons_self)
    rw [eq_of_beq hreceived] at hbytes
    exact absurd hbytes (by decide)
  · have hany : (run step new late).any (fun s => s.sent == [⟨0, some 2, [0x61]⟩] &&
        s.received[0]?.map Datagram.endpoint == some 1) = true := by
      decide
    obtain ⟨s, hrun, hboth⟩ := (Option.any_eq_true _ _).mp hany
    obtain ⟨hsent, hreceived⟩ := (Bool.and_eq_true_iff).mp hboth
    have hsent := eq_of_beq hsent
    refine ⟨s, hrun, hsent, ?_⟩
    intro hserved
    obtain ⟨d, hd, hendpoint⟩ := hserved.replies ⟨0, some 2, [0x61]⟩
      (by rw [hsent]; exact List.mem_singleton_self _)
    have hone := eq_of_beq hreceived
    rw [show s.received[0]? = some d from hd] at hone
    have htwo : some 2 = some d.endpoint := hendpoint
    rw [show some d.endpoint = some 1 from hone] at htwo
    exact absurd htwo (by decide)

end Clients

end UdpServer

end WaiNative

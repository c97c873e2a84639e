import WaiNative.Cxx.Strings
import WaiNative.Theory.Runs
import Mathlib.Data.List.ReduceOption
import Mathlib.Data.List.Forall2

/-!
# The IPFS text pump

Blocks are announced over Redis. `RedisRelayClient::onMessage` publishes the name of
the task in one locked section and the cid of the block in a second one; on another
thread `IpfsTextPump::fetchMasterTask`, called over and over, takes an announced
block, hands out its resources one a call, from the back, and then commits a message
that the block is finished. A block taken takes the published name away with its cid.

- `reported`: at any time what the pump has done, followed by what it still owes
  (`owed`), is the report of each block it took, one after the other;
- `settled`: as many calls as it owes events settle what it owes, whatever is
  announced in between;
- `blocks_reported`: so a block that has resources is reported as its own; of its
  resources the first 20 are handed out. Its group is the one held before where it has
  none, and its task is empty where it is taken between the two sections of a message
  (`blocks_misreported`).

The gateway's answer to the cid of a block comes with the call, parsed: an answer that
does not parse, or a resource that is no string, throws and ends the process. What
`fetchIpfsResource` yields for a resource is handed on unread and left out here.
-/

namespace WaiNative

open Cxx Runs

/-- `"Qm"` -/
def strQm : Str := [0x51, 0x6D]

/-- `"wator.ipfs.ostrich.app"` -/
def strOstrichApp : Str :=
  [0x77, 0x61, 0x74, 0x6F, 0x72, 0x2E, 0x69, 0x70, 0x66, 0x73, 0x2E, 0x6F, 0x73, 0x74,
    0x72, 0x69, 0x63, 0x68, 0x2E, 0x61, 0x70, 0x70]

/-- `boost::starts_with(s, "Qm")` -/
def startsQm (s : Str) : Bool := strQm.isPrefixOf s

namespace IpfsTextPump

/-- The members of a block; `none` is an element, or a group, that is no string. -/
structure Block where
  resource : List (Option Str)
  group : Option Str
deriving DecidableEq

/-- A block that the pump has taken: its cid, the name published then, what it holds,
and the group that the pump held before. -/
structure Taken where
  cid : Str
  task : Str
  block : Block
  before : Str
deriving DecidableEq

/-- What the pump does for the outside: take a block, return a resource to the caller,
commit the message `"finnish"`. -/
inductive Event where
  | taken (t : Taken)
  | delivered (cid task group : Str)
  | finnish (task group cid : Str)
deriving DecidableEq

end IpfsTextPump

/-- The globals of the two threads, the message whose first section has run, the
members of the pump, and the log of what it did. -/
structure IpfsTextPump where
  gBlockCID : Str
  gTask : Str
  relay : Option (Option Str)
  resoureCIDs_ : List Str
  blockCID_ : Str
  group_ : Str
  task_ : Str
  isRunBlock_ : Bool
  log : List IpfsTextPump.Event

namespace IpfsTextPump

def new : IpfsTextPump :=
  { gBlockCID := [], gTask := [], relay := none, resoureCIDs_ := [], blockCID_ := [],
    group_ := [], task_ := [], isRunBlock_ := false, log := [] }

/-- The body of the loop of `parseResourceBlock`. -/
def pushResource (resoureCIDs_ : List Str) (resoureCID : Str) : List Str :=
  if startsQm resoureCID then
    if resoureCIDs_.length < 20 then resoureCIDs_ ++ [resoureCID] else resoureCIDs_
  else resoureCIDs_

/-- `parseResourceBlock`; `none` is an exception. -/
def parseResourceBlock (jsonBlock : Block) (s : IpfsTextPump) : Option IpfsTextPump := do
  let resoureCIDs_ ← jsonBlock.resource.foldlM
    (fun resoureCIDs_ element => element.map (pushResource resoureCIDs_)) s.resoureCIDs_
  let s := { s with resoureCIDs_ := resoureCIDs_ }
  match jsonBlock.group with
  | some group => some { s with group_ := group }
  | none => some s

/-- `fetchBlockResource`, which holds the mutex throughout. -/
def fetchBlockResource (answer : Option Block) (s : IpfsTextPump) : Option IpfsTextPump :=
  if s.gBlockCID.isEmpty then some s
  else do
    let blocks ← answer
    let t ← s.parseResourceBlock blocks
    some { t with
      task_ := s.gTask
      blockCID_ := s.gBlockCID
      gBlockCID := []
      gTask := []
      log := s.log ++ [.taken ⟨s.gBlockCID, s.gTask, blocks, s.group_⟩] }

def fetchMasterTask (answer : Option Block) (s : IpfsTextPump) : Option IpfsTextPump :=
  match s.resoureCIDs_.getLast? with
  | none =>
      let s :=
        if s.isRunBlock_ then
          { s with log := s.log ++ [.finnish s.task_ s.group_ s.blockCID_] }
        else s
      fetchBlockResource answer { s with isRunBlock_ := false }
  | some cid =>
      some { s with
        isRunBlock_ := true
        log := s.log ++ [.delivered cid s.task_ s.group_]
        resoureCIDs_ := s.resoureCIDs_.dropLast }

/-- A message that comes, up to the end of its first section; the second section of a
message; a call of the pump. Messages come one at a time. -/
inductive Action where
  | message (jsonTask jsonBlock : Option Str)
  | block
  | fetch (answer : Option Block)

/-- One step of either thread. -/
def step (s : IpfsTextPump) : Action → Option IpfsTextPump
  | .message jsonTask jsonBlock =>
      match s.relay with
      | none =>
          if jsonTask = some strOstrichApp then
            some { s with gTask := strOstrichApp, relay := some jsonBlock }
          else some s
      | some _ => none
  | .block =>
      match s.relay with
      | none => none
      | some (some block) =>
          if startsQm block then some { s with gBlockCID := block, relay := none }
          else some { s with relay := none }
      | some none => some { s with relay := none }
  | .fetch answer => s.fetchMasterTask answer

/-! ## Reports -/

/-- The resources of a block that start with `Qm`. -/
def Block.qm (b : Block) : List Str := b.resource.reduceOption.filter startsQm

/-- The group that the pump holds while it works on the block. -/
def Taken.group (t : Taken) : Str := t.block.group.getD t.before

/-- The deliveries of some resources and the message behind them. -/
def deliveries (task group cid : Str) (resources : List Str) : List Event :=
  resources.map (fun r => .delivered r task group) ++ [.finnish task group cid]

/-- What the pump does from the time it takes a block. -/
def Taken.report (t : Taken) : List Event :=
  .taken t ::
    if (t.block.qm.take 20).isEmpty then []
    else deliveries t.task t.group t.cid (t.block.qm.take 20).reverse

/-- The blocks taken, in order. -/
def takens (log : List Event) : List Taken :=
  log.filterMap (fun e => match e with | .taken t => some t | _ => none)

/-- What the pump still has to do for the block it is at. -/
def owed (s : IpfsTextPump) : List Event :=
  if s.resoureCIDs_.isEmpty && !s.isRunBlock_ then []
  else deliveries s.task_ s.group_ s.blockCID_ s.resoureCIDs_.reverse

section Reports

variable {s t u : IpfsTextPump} {answer : Option Block}

theorem foldlM_pushResource : ∀ {resource : List (Option Str)} {acc acc' : List Str},
    acc.length ≤ 20 →
    resource.foldlM (fun acc element => element.map (pushResource acc)) acc = some acc' →
    acc' = (acc ++ resource.reduceOption.filter startsQm).take 20
  | [], acc, acc' => by
      intro hlen h
      obtain rfl := Option.some.inj h
      simp [List.take_of_length_le hlen]
  | none :: resource, acc, acc' => by
      intro _ h
      exact absurd h (by simp)
  | some r :: resource, acc, acc' => by
      intro hlen h
      have h : resource.foldlM (fun acc element => element.map (pushResource acc))
          (pushResource acc r) = some acc' := h
      rw [List.reduceOption_cons_of_some, List.filter_cons]
      unfold pushResource at h
      split at h
      · rename_i hqm
        rw [if_pos hqm]
        split at h
        · have ih := foldlM_pushResource (by simp; omega) h
          rw [ih, List.append_assoc, List.singleton_append]
        · -- the list is full
          have hfull : acc.length = 20 := by omega
          rw [foldlM_pushResource hlen h, ← hfull, List.take_left, List.take_left]
      · rename_i hqm
        rw [if_neg hqm]
        exact foldlM_pushResource hlen h

/-- **What taking a block does.** Without an announced cid nothing happens; else the
pump starts on the block's first 20 resources. -/
theorem fetchBlockResource_cases (hempty : s.resoureCIDs_ = [])
    (h : s.fetchBlockResource answer = some t) :
    t = s ∨ ∃ b, s.gBlockCID ≠ [] ∧ t = { s with
      resoureCIDs_ := b.qm.take 20
      group_ := b.group.getD s.group_
      task_ := s.gTask
      blockCID_ := s.gBlockCID
      gBlockCID := []
      gTask := []
      log := s.log ++ [.taken ⟨s.gBlockCID, s.gTask, b, s.group_⟩] } := by
  unfold fetchBlockResource at h
  split at h
  · exact Or.inl (Option.some.inj h).symm
  · rename_i hcid
    obtain ⟨b, -, h⟩ := Option.bind_eq_some_iff.mp h
    obtain ⟨s', hparse, h⟩ := Option.bind_eq_some_iff.mp h
    obtain rfl := Option.some.inj h
    obtain ⟨resources, hfold, hgroup⟩ := Option.bind_eq_some_iff.mp hparse
    rw [hempty] at hfold
    have hres := foldlM_pushResource (by simp) hfold
    rw [List.nil_append] at hres
    refine Or.inr ⟨b, by simpa using hcid, ?_⟩
    cases hg : b.group with
    | none =>
        rw [hg] at hgroup
        obtain rfl := Option.some.inj hgroup
        rw [hres]
        rfl
    | some g =>
        rw [hg] at hgroup
        obtain rfl := Option.some.inj hgroup
        rw [hres]
        rfl

theorem takens_append (l l' : List Event) : takens (l ++ l') = takens l ++ takens l' :=
  List.filterMap_append

theorem takens_deliveries (task group cid : Str) (resources : List Str) :
    takens (deliveries task group cid resources) = [] := by
  rw [takens, List.filterMap_eq_nil_iff]
  intro e he
  rcases List.mem_append.mp he with he | he
  · obtain ⟨r, -, rfl⟩ := List.mem_map.mp he
    rfl
  · rw [List.mem_singleton.mp he]

theorem takens_owed (s : IpfsTextPump) : takens s.owed = [] := by
  unfold owed
  split
  · rfl
  · exact takens_deliveries _ _ _ _

/-- A report is the taking and nothing of other blocks. -/
theorem Taken.report_eq (t : Taken) : ∃ body, t.report = .taken t :: body ∧ takens body = [] := by
  refine ⟨_, rfl, ?_⟩
  split
  · rfl
  · exact takens_deliveries _ _ _ _

/-- A call hands out the next resource, or closes the block and looks for another. -/
theorem fetch_cases (h : s.fetchMasterTask answer = some t) :
    (∃ e rest, s.owed = e :: rest ∧ t.owed = rest ∧ t.log = s.log ++ [e] ∧
      t.resoureCIDs_.length ≤ s.resoureCIDs_.length ∧ t.gTask = s.gTask) ∨
    (t.log = s.log ++ s.owed ∧ t.owed = [] ∧ t.resoureCIDs_ = [] ∧ t.gTask = s.gTask) ∨
    (t.resoureCIDs_.length ≤ 20 ∧ t.gTask = [] ∧ ∃ b,
      t.log = s.log ++ s.owed ++ [.taken b] ∧ .taken b :: t.owed = b.report ∧
      b.task = s.gTask) := by
  unfold fetchMasterTask at h
  rcases List.eq_nil_or_concat s.resoureCIDs_ with hempty | ⟨init, cid, hcids⟩
  · right
    rw [hempty] at h
    -- the state behind the message of the block before
    obtain ⟨s', hs', hlog, hcids, htask, hrun, hfetch⟩ : ∃ s' : IpfsTextPump,
        s'.group_ = s.group_ ∧ s'.log = s.log ++ s.owed ∧ s'.resoureCIDs_ = [] ∧
        s'.gTask = s.gTask ∧ s'.isRunBlock_ = false ∧
        s'.fetchBlockResource answer = some t := by
      refine ⟨_, ?_, ?_, ?_, ?_, ?_, h⟩
      all_goals
        cases hrun : s.isRunBlock_ <;> simp [owed, deliveries, hempty, hrun]
    rcases fetchBlockResource_cases hcids hfetch with rfl | ⟨b, -, rfl⟩
    · left
      exact ⟨hlog, by simp [owed, hcids, hrun], hcids, htask⟩
    · right
      refine ⟨List.length_take_le _ _, rfl, ⟨s'.gBlockCID, s'.gTask, b, s'.group_⟩, ?_, ?_,
        htask⟩
      · rw [← hlog]
      · unfold owed Taken.report Taken.group
        dsimp only
        rw [hrun, Bool.not_false, Bool.and_true]
  · left
    rw [List.concat_eq_append] at hcids
    rw [hcids, List.getLast?_concat] at h
    obtain rfl := Option.some.inj h
    refine ⟨.delivered cid s.task_ s.group_,
      deliveries s.task_ s.group_ s.blockCID_ init.reverse, ?_, ?_, rfl, ?_, rfl⟩
    · simp [owed, deliveries, hcids]
    · simp [owed, deliveries]
    · simp [hcids]

/-! ## Runs -/

/-- What every step preserves. -/
structure Inv (s : IpfsTextPump) : Prop where
  reported : s.log ++ s.owed = (takens s.log).flatMap Taken.report
  room : s.resoureCIDs_.length ≤ 20
  named : s.gTask = [] ∨ s.gTask = strOstrichApp
  taken : ∀ b ∈ takens s.log, b.task = [] ∨ b.task = strOstrichApp

theorem inv_new : Inv new := ⟨rfl, Nat.zero_le _, Or.inl rfl, List.forall_mem_nil _⟩

/-- Messages leave what the pump has done and owes. -/
theorem message_cases {a : Action} (ha : ∀ answer, a ≠ .fetch answer)
    (h : step s a = some t) : t.log = s.log ∧ t.owed = s.owed ∧
      t.resoureCIDs_ = s.resoureCIDs_ ∧ (t.gTask = s.gTask ∨ t.gTask = strOstrichApp) := by
  cases a with
  | message jsonTask jsonBlock =>
      rw [step] at h
      split at h
      · split at h
        · obtain rfl := Option.some.inj h
          exact ⟨rfl, rfl, rfl, Or.inr rfl⟩
        · obtain rfl := Option.some.inj h
          exact ⟨rfl, rfl, rfl, Or.inl rfl⟩
      · exact absurd h (by simp)
  | block =>
      rw [step] at h
      split at h
      · exact absurd h (by simp)
      · split at h <;> (obtain rfl := Option.some.inj h; exact ⟨rfl, rfl, rfl, Or.inl rfl⟩)
      · obtain rfl := Option.some.inj h
        exact ⟨rfl, rfl, rfl, Or.inl rfl⟩
  | fetch answer => exact absurd rfl (ha answer)

theorem Inv.fetch (h : Inv s) (hfetch : s.fetchMasterTask answer = some t) : Inv t := by
  have hrep := h.reported
  rcases fetch_cases hfetch with ⟨e, rest, howed, hrest, hlog, hroom, htask⟩ |
    ⟨hlog, howed, hroom, htask⟩ | ⟨hroom, htask, b, hlog, hb, hname⟩
  · have he : takens [e] = [] ∧ takens rest = [] := by
      have hnone := takens_owed s
      rw [howed, ← List.singleton_append, takens_append, List.append_eq_nil_iff] at hnone
      exact hnone
    have htakens : takens t.log = takens s.log := by
      rw [hlog, takens_append, he.1, List.append_nil]
    refine ⟨?_, hroom.trans h.room, htask ▸ h.named, htakens ▸ h.taken⟩
    rw [htakens, ← hrep, hlog, hrest, howed, List.append_assoc, List.singleton_append]
  · have htakens : takens t.log = takens s.log := by
      rw [hlog, takens_append, takens_owed, List.append_nil]
    refine ⟨?_, by rw [hroom]; exact Nat.zero_le _, htask ▸ h.named, htakens ▸ h.taken⟩
    rw [htakens, ← hrep, hlog, howed, List.append_nil]
  · have htakens : takens t.log = takens s.log ++ [b] := by
      rw [hlog, takens_append, takens_append, takens_owed, List.append_nil]
      rfl
    refine ⟨?_, hroom, Or.inl htask, ?_⟩
    · rw [htakens, List.flatMap_append, ← hrep, hlog, List.append_assoc, List.singleton_append,
        hb, List.flatMap_singleton]
    · rw [htakens]
      exact List.forall_mem_append.mpr ⟨h.taken, List.forall_mem_singleton.mpr
        (hname ▸ h.named)⟩

theorem Inv.step {a : Action} (h : Inv s) (hstep : step s a = some t) : Inv t := by
  by_cases ha : ∃ answer, a = .fetch answer
  · obtain ⟨answer, rfl⟩ := ha
    exact h.fetch hstep
  · obtain ⟨hlog, howed, hcids, htask⟩ := message_cases (fun answer h => ha ⟨answer, h⟩) hstep
    refine ⟨by rw [hlog, howed, h.reported], hcids ▸ h.room, ?_, hlog ▸ h.taken⟩
    rcases htask with htask | htask
    · exact htask ▸ h.named
    · exact Or.inr htask

/-- How often the pump is called. -/
def fetches (acts : List Action) : ℕ :=
  acts.countP (fun a => match a with | .fetch _ => true | _ => false)

theorem step_grows {a : Action} (hstep : step s a = some t) : s.log <+: t.log := by
  by_cases ha : ∃ answer, a = .fetch answer
  · obtain ⟨answer, rfl⟩ := ha
    rcases fetch_cases hstep with ⟨e, rest, -, -, hlog, -⟩ | ⟨hlog, -⟩ | ⟨-, -, b, hlog, -⟩
    · exact ⟨_, hlog.symm⟩
    · exact ⟨_, hlog.symm⟩
    · exact ⟨_, by rw [hlog, List.append_assoc]⟩
  · rw [(message_cases (fun answer h => ha ⟨answer, h⟩) hstep).1]

theorem run_grows : ∀ {acts : List Action} {s : IpfsTextPump},
    run step s acts = some t → s.log <+: t.log
  | [], s, hrun => by
      obtain rfl := Option.some.inj (run_nil.symm.trans hrun)
      exact List.prefix_rfl
  | a :: acts, s, hrun => by
      obtain ⟨s', hstep, hrest⟩ := run_cons_iff.mp hrun
      exact (step_grows hstep).trans (run_grows hrest)

/-- **What the pump owes is settled**, one event a call. -/
theorem settled : ∀ {acts : List Action} {s : IpfsTextPump}, run step s acts = some t →
    s.owed.length ≤ fetches acts → s.log ++ s.owed <+: t.log
  | [], s, hrun, hcalls => by
      obtain rfl := Option.some.inj (run_nil.symm.trans hrun)
      rw [List.length_eq_zero_iff.mp (Nat.le_zero.mp hcalls), List.append_nil]
  | a :: acts, s, hrun, hcalls => by
      obtain ⟨s', hstep, hrest⟩ := run_cons_iff.mp hrun
      by_cases ha : ∃ answer, a = .fetch answer
      · obtain ⟨answer, rfl⟩ := ha
        have hcount : fetches (.fetch answer :: acts) = fetches acts + 1 :=
          List.countP_cons_of_pos rfl
        rcases fetch_cases hstep with ⟨e, rest, howed, hnext, hlog, -⟩ | ⟨hlog, -⟩ |
          ⟨-, -, b, hlog, -⟩
        · have ih := settled hrest (by
            rw [hnext]
            rw [howed, hcount, List.length_cons] at hcalls
            omega)
          rw [hlog, hnext, List.append_assoc, List.singleton_append] at ih
          rwa [howed]
        · rw [← hlog]
          exact run_grows hrest
        · have hle : s.log ++ s.owed <+: s'.log := ⟨_, hlog.symm⟩
          exact hle.trans (run_grows hrest)
      · obtain ⟨hlog, howed, -⟩ := message_cases (fun answer h => ha ⟨answer, h⟩) hstep
        have hcount : fetches (a :: acts) = fetches acts := by
          apply List.countP_cons_of_neg
          cases a with
          | fetch answer => exact absurd ⟨answer, rfl⟩ ha
          | message jsonTask jsonBlock => simp
          | block => simp
        have ih := settled hrest (by rw [howed]; rwa [hcount] at hcalls)
        rwa [hlog, howed] at ih

theorem inv_of_run {acts : List Action} (hrun : run step new acts = some s) : Inv s :=
  invariant_always (fun _ _ _ h hstep => h.step hstep) inv_new hrun

theorem owed_length_le (h : s.resoureCIDs_.length ≤ 20) : s.owed.length ≤ 21 := by
  unfold owed
  split
  · exact Nat.zero_le _
  · rw [deliveries, List.length_append, List.length_map, List.length_reverse,
      List.length_singleton]
    omega

/-! ## The blocks' own reports -/

/-- The report that is the block's own: its first 20 resources, each with the task and
the group it was taken with, then the message with these and its cid. -/
def Taken.ownReport (b : Taken) : List Event :=
  .taken b :: deliveries b.task b.group b.cid (b.block.qm.take 20).reverse

theorem Taken.report_own {b : Taken} (h : b.block.qm ≠ []) : b.report = b.ownReport := by
  have hsome : (b.block.qm.take 20).isEmpty = false := by
    rw [List.isEmpty_eq_false_iff, ne_eq, List.take_eq_nil_iff]
    simp [h]
  rw [Taken.report, Taken.ownReport, hsome]
  rfl

/-- What is reported of a block: nothing of other blocks; where it has a resource to
hand out, its own report. It was taken with its own group, if it has one, and with the
task that is published, if there is one. -/
structure Taken.ReportedBy (b : Taken) (report : List Event) : Prop where
  alone : ∃ body, report = .taken b :: body ∧ takens body = []
  own : b.block.qm ≠ [] → report = b.ownReport
  group : ∀ g ∈ b.block.group, b.group = g
  task : b.task = [] ∨ b.task = strOstrichApp

/-- **Each block is reported.** At any time of any run, the log is the reports of the
blocks taken, one after the other, the last one perhaps unfinished; 21 more calls
finish it, whatever is announced in between. A block with resources has its own report:
its first 20 resources, each once with its task and group, and then one message with
its task, group and cid. -/
theorem blocks_reported {acts : List Action} (hrun : run step new acts = some s) :
    ∃ reports : List (List Event),
      List.Forall₂ Taken.ReportedBy (takens s.log) reports ∧
      s.log <+: reports.flatten ∧
      ∀ acts' u, run step s acts' = some u → 21 ≤ fetches acts' →
        reports.flatten <+: u.log := by
  have hinv := inv_of_run hrun
  have hflat : ((takens s.log).map Taken.report).flatten = s.log ++ s.owed := by
    rw [hinv.reported, List.flatMap_def]
  refine ⟨(takens s.log).map Taken.report, ?_, ?_, ?_⟩
  · rw [List.forall₂_map_right_iff, List.forall₂_same]
    intro b hb
    refine ⟨b.report_eq, Taken.report_own, ?_, hinv.taken b hb⟩
    intro g hg
    rw [Taken.group, Option.mem_def.mp hg, Option.getD_some]
  · rw [hflat]
    exact List.prefix_append _ _
  · intro acts' u hrun' hcalls
    rw [hflat]
    exact settled hrun' ((owed_length_le hinv.room).trans hcalls)

/-- A message in full. -/
def announce (cid : Str) : List Action := [.message (some strOstrichApp) (some cid), .block]

/-- `"Qm"` and one more byte -/
def cidOf (b : UInt8) : Str := strQm ++ [b]

/-- A block of one resource. -/
def oneResource (group : Option Str) : Action := .fetch (some ⟨[some (cidOf 0x31)], group⟩)

def group : Str := [0x67]

/-- A block of one resource, from its message to its own. -/
def oneBlock : List Action :=
  announce (cidOf 0x41) ++ [oneResource (some group), .fetch none]

theorem blocks_reported_one : ∃ s, run step new oneBlock = some s ∧
    (∃ b ∈ takens s.log, b.block.qm ≠ []) ∧
    ∃ reports : List (List Event),
      List.Forall₂ Taken.ReportedBy (takens s.log) reports ∧
      s.log <+: reports.flatten ∧
      ∀ acts' u, run step s acts' = some u → 21 ≤ fetches acts' →
        reports.flatten <+: u.log := by
  have hany : (run step new oneBlock).any (fun s => (takens s.log).any
      (fun b => decide (b.block.qm ≠ []))) = true := by
    decide
  obtain ⟨s, hrun, htaken⟩ := (Option.any_eq_true _ _).mp hany
  obtain ⟨b, hb, hqm⟩ := List.any_eq_true.mp htaken
  exact ⟨s, hrun, ⟨b, hb, of_decide_eq_true hqm⟩, blocks_reported hrun⟩

end Reports

/-! ## Other blocks -/

section Others

/-- A block reported in full: all its resources, in any order, and then the message,
with the task announced and its own group. -/
def FullReport (b : Taken) (report : List Event) : Prop :=
  ∃ ds : List Event,
    ds.Perm (b.block.qm.map (fun r => .delivered r strOstrichApp (b.block.group.getD []))) ∧
    report = .taken b :: (ds ++ [.finnish strOstrichApp (b.block.group.getD []) b.cid])

/-- Every block taken is reported in full, the last one perhaps not yet. -/
def AsClaimed (log : List Event) : Prop :=
  ∃ reports : List (List Event),
    List.Forall₂ FullReport (takens log) reports ∧ log <+: reports.flatten

/-- The full report of a block, from the first resource to the last. -/
def Taken.fullReport (b : Taken) : List Event :=
  .taken b :: deliveries strOstrichApp (b.block.group.getD []) b.cid b.block.qm

variable {log : List Event}

/-- With at most one resource there is no choice of an order. -/
theorem FullReport.unique {b : Taken} {report : List Event} (h : FullReport b report)
    (hsmall : b.block.qm.length ≤ 1) : report = b.fullReport := by
  obtain ⟨ds, hperm, rfl⟩ := h
  have hds : ds = b.block.qm.map
      (fun r => .delivered r strOstrichApp (b.block.group.getD [])) := by
    rcases hqm : b.block.qm with _ | ⟨r, _ | ⟨r', rs⟩⟩
    · rw [hqm] at hperm
      exact List.perm_nil.mp hperm
    · rw [hqm] at hperm
      exact List.perm_singleton.mp hperm
    · rw [hqm] at hsmall
      simp at hsmall
  rw [hds]
  rfl

theorem fullReports_unique : ∀ {bs : List Taken} {reports : List (List Event)},
    List.Forall₂ FullReport bs reports → (∀ b ∈ bs, b.block.qm.length ≤ 1) →
    reports = bs.map Taken.fullReport
  | _, _, .nil, _ => rfl
  | _, _, .cons hreport hrest, hsmall => by
      obtain ⟨hb, hbs⟩ := List.forall_mem_cons.mp hsmall
      rw [hreport.unique hb, fullReports_unique hrest hbs, List.map_cons]

theorem AsClaimed.fullReports (h : AsClaimed log)
    (hsmall : ∀ b ∈ takens log, b.block.qm.length ≤ 1) :
    log <+: (takens log).flatMap Taken.fullReport := by
  obtain ⟨reports, hreports, hlog⟩ := h
  rwa [fullReports_unique hreports hsmall, ← List.flatMap_def] at hlog

/-- The message of a single block stands behind all its resources. -/
theorem AsClaimed.length_eq {b : Taken} {task group cid : Str} (h : AsClaimed log)
    (hone : takens log = [b]) (hfinnish : .finnish task group cid ∈ log) :
    log.length = b.block.qm.length + 2 := by
  obtain ⟨reports, hreports, hlog⟩ := h
  rw [hone, List.forall₂_cons_left_iff] at hreports
  obtain ⟨report, rest, ⟨ds, hperm, rfl⟩, hrest, rfl⟩ := hreports
  obtain rfl := List.forall₂_nil_left_iff.mp hrest
  rw [List.flatten_singleton, ← List.cons_append, List.prefix_concat_iff] at hlog
  rcases hlog with rfl | hlog
  · simp [hperm.length_eq]
  · rcases List.mem_cons.mp (hlog.subset hfinnish) with hmem | hmem
    · exact absurd hmem (by simp)
    · obtain ⟨r, -, hr⟩ := List.mem_map.mp (hperm.mem_iff.mp hmem)
      exact absurd hr (by simp)

/-- A block of 21 resources. -/
def manyResources : List Action :=
  announce (cidOf 0x41) ++
    .fetch (some ⟨(List.range 21).map (fun i => some (cidOf (UInt8.ofNat i))), some group⟩) ::
    List.replicate 21 (.fetch none)

/-- Two blocks without resources. -/
def noResources : List Action :=
  announce (cidOf 0x41) ++ .fetch (some ⟨[], some group⟩) ::
    (announce (cidOf 0x42) ++ [.fetch (some ⟨[], some group⟩)])

/-- A block without a group behind one with a group. -/
def noGroup : List Action :=
  announce (cidOf 0x41) ++ oneResource (some group) :: .fetch none ::
    (announce (cidOf 0x42) ++ [oneResource none, .fetch none])

/-- A block taken between the two sections of the next one's message. -/
def betweenSections : List Action :=
  announce (cidOf 0x41) ++ [.message (some strOstrichApp) (some (cidOf 0x42)),
    oneResource (some group), .block, .fetch none, oneResource (some group), .fetch none]

/-- Where small blocks are not reported in full. -/
theorem not_asClaimed {acts : List Action}
    (h : (run step new acts).any (fun s =>
      (takens s.log).all (fun b => decide (b.block.qm.length ≤ 1)) &&
        !decide (s.log <+: (takens s.log).flatMap Taken.fullReport)) = true) :
    ∃ s, run step new acts = some s ∧ ¬ AsClaimed s.log := by
  obtain ⟨s, hrun, hboth⟩ := (Option.any_eq_true _ _).mp h
  obtain ⟨hsmall, hlog⟩ := (Bool.and_eq_true_iff).mp hboth
  refine ⟨s, hrun, ?_⟩
  intro hclaimed
  have hfull := hclaimed.fullReports
    (fun b hb => of_decide_eq_true (List.all_eq_true.mp hsmall b hb))
  simp [hfull] at hlog

/-- **Other blocks are not reported in full**: of 21 resources one is left out; a block
without resources has no message; a block without a group has that of the block
before; a block taken between the two sections of the next one's message leaves that
one without a task. -/
theorem blocks_misreported :
    (∃ s, run step new manyResources = some s ∧ ¬ AsClaimed s.log) ∧
    (∃ s, run step new noResources = some s ∧ ¬ AsClaimed s.log) ∧
    (∃ s, run step new noGroup = some s ∧ ¬ AsClaimed s.log) ∧
    ∃ s, run step new betweenSections = some s ∧ ¬ AsClaimed s.log := by
  refine ⟨?_, not_asClaimed (by decide), not_asClaimed (by decide),
    not_asClaimed (by decide)⟩
  have hany : (run step new manyResources).any (fun s =>
      s.log.length == 22 &&
      decide (.finnish strOstrichApp group (cidOf 0x41) ∈ s.log) &&
      (takens s.log).length == 1 &&
      (takens s.log).all (fun b => b.block.qm.length == 21)) = true := by
    decide
  obtain ⟨s, hrun, hall⟩ := (Option.any_eq_true _ _).mp hany
  simp only [Bool.and_eq_true, beq_iff_eq, decide_eq_true_eq, List.all_eq_true] at hall
  obtain ⟨⟨⟨hlen, hfinnish⟩, hone⟩, hqm⟩ := hall
  obtain ⟨b, hb⟩ := List.length_eq_one_iff.mp hone
  refine ⟨s, hrun, ?_⟩
  intro hclaimed
  have hfull := hclaimed.length_eq hb hfinnish
  rw [hlen, hqm b (by rw [hb]; exact List.mem_singleton_self b)] at hfull
  exact absurd hfull (by decide)

end Others

end IpfsTextPump

end WaiNative

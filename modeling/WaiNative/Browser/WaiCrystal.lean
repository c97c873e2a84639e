import WaiNative.Browser.WaiParrot
import WaiNative.Theory.Runs

/-!
# `WaiCrystal`: one block after the other

The browser client of the pool. `onBlockTask_` takes a task when `idle_` is up:
it keeps the task in `currentTask_` and requests the task's block. When the block
arrives, `onBlockFromCrystalPool_` runs up to its first `await`; each resource that
arrives then moves it on, and behind the last one it sends the `'finnish'` message.

A step of the model is one event of the browser: what runs from one `await` to the
next is not interrupted. `idle_` only goes down when the block arrives, so a task that
comes between the request and the block is taken too, and the first block is reported
under the second task (`task_overtaken`). In a run without such a task each
`'finnish'` message is of one task, one block and the articles of this block
(`finnish_unmixed`).

`$.get`, `JSON.parse` and the hash behind `addressOfContent_` are not part of the
repository. What a request yields comes with the action; `parse` and
`addressOfContent_` are parameters.
-/

namespace WaiNative

open Runs

section Objects

variable (ν : Type)

/-- `shortBlockInfo`; `none` is a missing member. -/
structure BlockInfo where
  prev : Option ν
  group : Option ν
  size : Option ν
deriving DecidableEq

/-- The members of a parsed block that are read. -/
structure JsonBlock extends BlockInfo ν where
  resource : Option (List JsString)

/-- The stages that `WaiCrystal` writes, and what else a message may have there. -/
inductive TaskStage where
  | catching
  | finnish
  | other (stage : JsString)
deriving DecidableEq

/-- A message of the pool: the members that are read or written, and the others. -/
structure TaskObject where
  cid : Option JsString
  other : List (JsString × ν)
  stage : Option TaskStage
  error : Option Bool
  block : Option (BlockInfo ν)
  words : Option Collect

end Objects

variable {ν : Type}

/-- `{}` -/
def TaskObject.empty : TaskObject ν := ⟨none, [], none, none, none, none⟩

/-- `msgJson.cid` is neither missing nor empty. -/
def TaskObject.hasCid (task : TaskObject ν) : Bool :=
  match task.cid with
  | some cid => !cid.isEmpty
  | none => false

/-- A call of `onBlockFromCrystalPool_` that waits for a resource. -/
structure BlockRun (ν : Type) where
  shortBlockInfo : BlockInfo ν
  resourceAddress : JsString
  rest : List JsString

/-- The members of a `WaiCrystal`, the requests and calls under way, and what the
outside has seen: the messages sent and the blocks served, each with the task that
asked for it. Before the first block `error_` has no value; nothing reads it. -/
structure WaiCrystal (ν : Type) where
  idle_ : Bool
  error_ : Bool
  currentTask_ : Option (TaskObject ν)
  wai_ : WaiBase
  requests : List (TaskObject ν)
  runs : List (BlockRun ν)
  sent : List (TaskObject ν)
  served : List (TaskObject ν × JsString)

/-- The events of the browser. -/
inductive CrystalEvent (ν : Type) where
  | poolMessage (msgJson : Option (TaskObject ν))
  | blockDone (i : ℕ) (block : JsString)
  | blockFailed (i : ℕ)
  | resourceDone (i : ℕ) (result : JsString)
  | resourceFailed (i : ℕ)

namespace WaiCrystal

/-- The constructor. -/
def new : WaiCrystal ν :=
  { idle_ := true, error_ := false, currentTask_ := none, wai_ := .new, requests := [],
    runs := [], sent := [], served := [] }

def onBlockTask_ (task : TaskObject ν) (s : WaiCrystal ν) : WaiCrystal ν :=
  if s.idle_ then { s with currentTask_ := some task, requests := s.requests ++ [task] }
  else s

/-- `onPoolMessage_`; `none` is data that does not parse. -/
def onPoolMessage_ (msgJson : Option (TaskObject ν)) (s : WaiCrystal ν) : WaiCrystal ν :=
  match msgJson with
  | some msgJson => if msgJson.hasCid then s.onBlockTask_ msgJson else s
  | none => s

/-- The end of `onBlockFromCrystalPool_`. Writing to a member of `undefined` throws;
the exception is caught. -/
def finish (shortBlockInfo : BlockInfo ν) (s : WaiCrystal ν) : WaiCrystal ν :=
  match s.currentTask_ with
  | some currentTask_ =>
      let wordCollect := s.wai_.leaveBlock
      let currentTask_ :=
        { currentTask_ with
          stage := some .finnish, error := some s.error_, block := some shortBlockInfo,
          words := some wordCollect }
      { s with
        currentTask_ := some currentTask_
        sent := s.sent ++ [currentTask_]
        idle_ := true }
  | none => { s with idle_ := true }

/-- The head of the loop over the resources. -/
def nextResource (shortBlockInfo : BlockInfo ν) (resource : List JsString)
    (s : WaiCrystal ν) : WaiCrystal ν :=
  match resource with
  | [] => s.finish shortBlockInfo
  | resourceAddress :: rest =>
      { s with runs := s.runs ++ [⟨shortBlockInfo, resourceAddress, rest⟩] }

section Events

variable (parse : JsString → Option (JsonBlock ν)) (addressOfContent_ : JsString → JsString)

/-- `onBlockFromCrystalPool_` up to its first `await`. -/
def onBlockFromCrystalPool_ (block : JsString) (s : WaiCrystal ν) : WaiCrystal ν :=
  let s := { s with idle_ := false, error_ := false, wai_ := s.wai_.entryBlock }
  match parse block with
  | some jsonBlock =>
      match jsonBlock.resource with
      | some resource =>
          let respTask :=
            { s.currentTask_.getD .empty with
              stage := some .catching, block := some jsonBlock.toBlockInfo }
          nextResource jsonBlock.toBlockInfo resource { s with sent := s.sent ++ [respTask] }
      -- `jsonBlock.resource.length` throws
      | none => { s with idle_ := true }
  | none => { s with idle_ := true }

/-- The body of the loop behind its `await`. -/
def onResource (run : BlockRun ν) (result : JsString) (s : WaiCrystal ν) : WaiCrystal ν :=
  if addressOfContent_ result ≠ run.resourceAddress then
    finish run.shortBlockInfo { s with error_ := true }
  else
    nextResource run.shortBlockInfo run.rest { s with wai_ := WaiParrot.article s.wai_ result }

/-- One event; requests and calls are named by their place. -/
def step (s : WaiCrystal ν) : CrystalEvent ν → Option (WaiCrystal ν)
  | .poolMessage msgJson => some (s.onPoolMessage_ msgJson)
  | .blockDone i block => do
      let task ← s.requests[i]?
      some (onBlockFromCrystalPool_ parse block
        { s with requests := s.requests.eraseIdx i, served := s.served ++ [(task, block)] })
  | .blockFailed i => do
      let _ ← s.requests[i]?
      some { s with requests := s.requests.eraseIdx i }
  | .resourceDone i result => do
      let run ← s.runs[i]?
      some (onResource addressOfContent_ run result { s with runs := s.runs.eraseIdx i })
  | .resourceFailed i => do
      let _ ← s.runs[i]?
      some { s with runs := s.runs.eraseIdx i, idle_ := true }

end Events

/-! ## One block at a time -/

/-- No task with a cid comes while `idle_` is up and a block is still requested. -/
def NoOverlap (s : WaiCrystal ν) : CrystalEvent ν → Prop
  | .poolMessage (some msgJson) => msgJson.hasCid = true → s.idle_ = true → s.requests = []
  | _ => True

instance decidableNoOverlap (s : WaiCrystal ν) : ∀ e, Decidable (NoOverlap s e)
  | .poolMessage (some msgJson) =>
      have : Decidable (s.requests = []) := decidable_of_iff _ List.isEmpty_iff
      inferInstanceAs (Decidable (msgJson.hasCid = true → s.idle_ = true → s.requests = []))
  | .poolMessage none | .blockDone _ _ | .blockFailed _ | .resourceDone _ _
  | .resourceFailed _ => inferInstanceAs (Decidable True)

/-- A resource arrives with its own content. -/
def RightContent (addressOfContent_ : JsString → JsString) (s : WaiCrystal ν) :
    CrystalEvent ν → Prop
  | .resourceDone i result => ∀ run, s.runs[i]? = some run →
      addressOfContent_ result = run.resourceAddress
  | _ => True

/-- The `'finnish'` message of a task, a block and the articles counted. -/
def finnishOf (task : TaskObject ν) (block : JsonBlock ν) (error : Bool)
    (articles : List JsString) : TaskObject ν :=
  { task with
    stage := some .finnish
    error := some error
    block := some block.toBlockInfo
    words := some (WaiParrot.block .new articles) }

section Unmixed

variable {parse : JsString → Option (JsonBlock ν)} {addressOfContent_ : JsString → JsString}

/-- One task, the block served for it and articles that are its first resources, those
in front of `rest`. -/
structure Serves (parse : JsString → Option (JsonBlock ν))
    (addressOfContent_ : JsString → JsString) (served : List (TaskObject ν × JsString))
    (task : TaskObject ν) (block : JsonBlock ν) (articles rest : List JsString) : Prop where
  served : ∃ text, (task, text) ∈ served ∧ parse text = some block
  resource : block.resource = some (articles.map addressOfContent_ ++ rest)

/-- What the steps of a run without overlap preserve. -/
structure Inv (parse : JsString → Option (JsonBlock ν))
    (addressOfContent_ : JsString → JsString) (s : WaiCrystal ν) : Prop where
  one : s.requests.length + s.runs.length ≤ 1
  busy : s.runs ≠ [] → s.idle_ = false
  requested : ∀ task ∈ s.requests, s.currentTask_ = some task
  running : ∀ run ∈ s.runs, s.error_ = false ∧ ∃ task block articles,
    Serves parse addressOfContent_ s.served task block articles
      (run.resourceAddress :: run.rest) ∧
    s.currentTask_ = some task ∧ run.shortBlockInfo = block.toBlockInfo ∧
    s.wai_.collectBlock_ = WaiParrot.block .new articles
  finnish : ∀ m ∈ s.sent, m.stage = some .finnish → ∃ task block articles rest,
    Serves parse addressOfContent_ s.served task block articles rest ∧
    m = finnishOf task block (!rest.isEmpty) articles

theorem Serves.grows {served : List (TaskObject ν × JsString)} {task : TaskObject ν}
    {block : JsonBlock ν} {articles rest : List JsString}
    (h : Serves parse addressOfContent_ served task block articles rest)
    (e : TaskObject ν × JsString) :
    Serves parse addressOfContent_ (served ++ [e]) task block articles rest := by
  obtain ⟨⟨text, hserved, hparse⟩, hresource⟩ := h
  exact ⟨⟨text, List.mem_append_left _ hserved, hparse⟩, hresource⟩

/-- The messages are right and nothing is under way. -/
structure Free (parse : JsString → Option (JsonBlock ν))
    (addressOfContent_ : JsString → JsString) (s : WaiCrystal ν) : Prop where
  requests : s.requests = []
  runs : s.runs = []
  finnish : ∀ m ∈ s.sent, m.stage = some .finnish → ∃ task block articles rest,
    Serves parse addressOfContent_ s.served task block articles rest ∧
    m = finnishOf task block (!rest.isEmpty) articles

theorem Free.inv {s : WaiCrystal ν} (h : Free parse addressOfContent_ s) :
    Inv parse addressOfContent_ s where
  one := by rw [h.requests, h.runs]; exact Nat.zero_le 1
  busy := fun hne => absurd h.runs hne
  requested := by rw [h.requests]; exact List.forall_mem_nil _
  running := by rw [h.runs]; exact List.forall_mem_nil _
  finnish := h.finnish

theorem inv_start : Inv parse addressOfContent_ (new : WaiCrystal ν) :=
  Free.inv ⟨rfl, rfl, List.forall_mem_nil _⟩

/-- Behind the loop a message of its one block is sent. -/
theorem Free.finish {s : WaiCrystal ν} (h : Free parse addressOfContent_ s)
    {task : TaskObject ν} {block : JsonBlock ν} {articles rest : List JsString}
    (hserves : Serves parse addressOfContent_ s.served task block articles rest)
    (htask : s.currentTask_ = some task)
    (hwords : s.wai_.collectBlock_ = WaiParrot.block .new articles)
    (herror : s.error_ = !rest.isEmpty) :
    Free parse addressOfContent_ (s.finish block.toBlockInfo) := by
  unfold WaiCrystal.finish
  rw [htask]
  refine ⟨h.requests, h.runs, ?_⟩
  intro m hm hstage
  rcases List.mem_append.mp hm with hm | hm
  · exact h.finnish m hm hstage
  · rw [List.mem_singleton.mp hm]
    refine ⟨task, block, articles, rest, hserves, ?_⟩
    rw [finnishOf, ← hwords, ← herror]
    rfl

/-- The loop goes on with its one block. -/
theorem Free.nextResource {s : WaiCrystal ν} (h : Free parse addressOfContent_ s)
    {task : TaskObject ν} {block : JsonBlock ν} {articles rest : List JsString}
    (hserves : Serves parse addressOfContent_ s.served task block articles rest)
    (htask : s.currentTask_ = some task)
    (hwords : s.wai_.collectBlock_ = WaiParrot.block .new articles)
    (herror : s.error_ = false) (hidle : s.idle_ = false) :
    Inv parse addressOfContent_ (s.nextResource block.toBlockInfo rest) := by
  cases rest with
  | nil => exact (h.finish hserves htask hwords herror).inv
  | cons resourceAddress rest =>
      refine ⟨?_, fun _ => hidle, ?_, ?_, h.finnish⟩
      · show s.requests.length + (s.runs ++ [_]).length ≤ 1
        rw [h.requests, h.runs]
        exact le_rfl
      · show ∀ task ∈ s.requests, _
        rw [h.requests]
        exact List.forall_mem_nil _
      · show ∀ run ∈ s.runs ++ [_], _
        rw [h.runs]
        exact List.forall_mem_singleton.mpr
          ⟨herror, task, block, articles, hserves, htask, rfl, hwords⟩

theorem Free.sent {s : WaiCrystal ν} (h : Free parse addressOfContent_ s) (m : TaskObject ν)
    (hm : m.stage ≠ some .finnish) :
    Free parse addressOfContent_ { s with sent := s.sent ++ [m] } := by
  refine ⟨h.requests, h.runs, ?_⟩
  intro m' hm' hstage
  rcases List.mem_append.mp hm' with hm' | hm'
  · exact h.finnish m' hm' hstage
  · rw [List.mem_singleton.mp hm'] at hstage
    exact absurd hstage hm

/-- A block that arrives starts its own task's run. -/
theorem Free.onBlock {s : WaiCrystal ν} (h : Free parse addressOfContent_ s)
    {task : TaskObject ν} {text : JsString} (hserved : (task, text) ∈ s.served)
    (htask : s.currentTask_ = some task) :
    Inv parse addressOfContent_ (onBlockFromCrystalPool_ parse text s) := by
  unfold onBlockFromCrystalPool_
  dsimp only
  cases hparse : parse text with
  | none => exact Free.inv ⟨h.requests, h.runs, h.finnish⟩
  | some jsonBlock =>
      dsimp only
      cases hresource : jsonBlock.resource with
      | none => exact Free.inv ⟨h.requests, h.runs, h.finnish⟩
      | some resource =>
          have hfree : Free parse addressOfContent_
              { s with idle_ := false, error_ := false, wai_ := s.wai_.entryBlock } :=
            ⟨h.requests, h.runs, h.finnish⟩
          have hserves : Serves parse addressOfContent_ s.served task jsonBlock [] resource :=
            ⟨⟨text, hserved, hparse⟩, hresource⟩
          exact (hfree.sent _ (by simp)).nextResource hserves htask rfl rfl rfl

/-- A resource that arrives is counted for its own block, or ends the run. -/
theorem Free.onResource {s : WaiCrystal ν} (h : Free parse addressOfContent_ s)
    {run : BlockRun ν} {task : TaskObject ν} {block : JsonBlock ν} {articles : List JsString}
    (hserves : Serves parse addressOfContent_ s.served task block articles
      (run.resourceAddress :: run.rest))
    (htask : s.currentTask_ = some task) (hinfo : run.shortBlockInfo = block.toBlockInfo)
    (hwords : s.wai_.collectBlock_ = WaiParrot.block .new articles)
    (herror : s.error_ = false) (hidle : s.idle_ = false) (result : JsString) :
    Inv parse addressOfContent_ (onResource addressOfContent_ run result s) := by
  unfold WaiCrystal.onResource
  rw [hinfo]
  split
  · have hfree : Free parse addressOfContent_ { s with error_ := true } :=
      ⟨h.requests, h.runs, h.finnish⟩
    exact (hfree.finish hserves htask hwords rfl).inv
  · rename_i haddress
    have hfree : Free parse addressOfContent_
        { s with wai_ := WaiParrot.article s.wai_ result } := ⟨h.requests, h.runs, h.finnish⟩
    have hserves' : Serves parse addressOfContent_ s.served task block (articles ++ [result])
        run.rest := by
      refine ⟨hserves.served, ?_⟩
      rw [hserves.resource, List.map_append, List.append_assoc, List.map_singleton,
        not_not.mp haddress]
      rfl
    have hwords' : (WaiParrot.article s.wai_ result).collectBlock_ =
        WaiParrot.block .new (articles ++ [result]) := by
      have hwai : s.wai_ = articles.foldl WaiParrot.article WaiBase.new.entryBlock :=
        congrArg WaiBase.mk hwords
      rw [WaiParrot.block, List.foldl_concat, hwai]
      rfl
    exact hfree.nextResource hserves' htask hwords' herror hidle

/-- The place of the only element. -/
theorem only_element {α : Type} {l : List α} {i : ℕ} {a : α} (hlen : l.length ≤ 1)
    (ha : l[i]? = some a) : l = [a] ∧ l.eraseIdx i = [] := by
  obtain ⟨hi, rfl⟩ := List.getElem?_eq_some_iff.mp ha
  obtain ⟨b, rfl⟩ := List.length_eq_one_iff.mp (by omega : l.length = 1)
  obtain rfl : i = 0 := by simpa using hi
  exact ⟨rfl, rfl⟩

theorem Inv.of_request {s : WaiCrystal ν} (h : Inv parse addressOfContent_ s) {i : ℕ}
    {task : TaskObject ν} (hi : s.requests[i]? = some task) :
    s.requests.eraseIdx i = [] ∧ s.runs = [] ∧ s.currentTask_ = some task := by
  have hone := h.one
  obtain ⟨hreq, herase⟩ := only_element (by omega) hi
  have hlen : s.requests.length = 1 := by rw [hreq]; rfl
  exact ⟨herase, List.length_eq_zero_iff.mp (by omega),
    h.requested task (List.mem_of_getElem? hi)⟩

theorem Inv.of_run {s : WaiCrystal ν} (h : Inv parse addressOfContent_ s) {i : ℕ}
    {run : BlockRun ν} (hi : s.runs[i]? = some run) :
    s.runs.eraseIdx i = [] ∧ s.requests = [] ∧ s.idle_ = false := by
  have hone := h.one
  obtain ⟨hruns, herase⟩ := only_element (by omega) hi
  have hlen : s.runs.length = 1 := by rw [hruns]; rfl
  exact ⟨herase, List.length_eq_zero_iff.mp (by omega), h.busy (by rw [hruns]; simp)⟩

/-- A task that is taken is the only thing under way. -/
theorem Inv.message {s : WaiCrystal ν} (h : Inv parse addressOfContent_ s)
    {msgJson : Option (TaskObject ν)} (hok : NoOverlap s (.poolMessage msgJson)) :
    Inv parse addressOfContent_ (s.onPoolMessage_ msgJson) := by
  cases msgJson with
  | none => exact h
  | some task =>
      unfold onPoolMessage_ onBlockTask_
      dsimp only
      split
      · rename_i hcid
        split
        · rename_i hidle
          have hreq : s.requests = [] := hok hcid hidle
          have hruns : s.runs = [] := by
            by_contra hne
            rw [h.busy hne] at hidle
            exact Bool.noConfusion hidle
          refine ⟨?_, fun hne => absurd hruns hne, ?_, ?_, h.finnish⟩
          · show (s.requests ++ [task]).length + s.runs.length ≤ 1
            rw [hreq, hruns]
            exact le_rfl
          · show ∀ task' ∈ s.requests ++ [task], some task = some task'
            rw [hreq]
            exact List.forall_mem_singleton.mpr rfl
          · show ∀ run ∈ s.runs, _
            rw [hruns]
            exact List.forall_mem_nil _
        · exact h
      · exact h

/-- **One event keeps the invariant, unless it overlaps.** -/
theorem Inv.step {s t : WaiCrystal ν} {e : CrystalEvent ν}
    (h : Inv parse addressOfContent_ s) (hok : NoOverlap s e)
    (hstep : step parse addressOfContent_ s e = some t) : Inv parse addressOfContent_ t := by
  cases e with
  | poolMessage msgJson =>
      obtain rfl := Option.some.inj hstep
      exact h.message hok
  | blockDone i block =>
      obtain ⟨task, hi, hstep⟩ := Option.bind_eq_some_iff.mp hstep
      obtain rfl := Option.some.inj hstep
      obtain ⟨hreq, hruns, htask⟩ := h.of_request hi
      have hfree : Free parse addressOfContent_
          { s with
            requests := s.requests.eraseIdx i
            served := s.served ++ [(task, block)] } := by
        refine ⟨hreq, hruns, ?_⟩
        intro m hm hstage
        obtain ⟨task', block', articles, rest, hserves, heq⟩ := h.finnish m hm hstage
        exact ⟨task', block', articles, rest, hserves.grows _, heq⟩
      exact hfree.onBlock (List.mem_append_right _ (List.mem_singleton_self _)) htask
  | blockFailed i =>
      obtain ⟨task, hi, hstep⟩ := Option.bind_eq_some_iff.mp hstep
      obtain rfl := Option.some.inj hstep
      obtain ⟨hreq, hruns, -⟩ := h.of_request hi
      exact Free.inv ⟨hreq, hruns, h.finnish⟩
  | resourceDone i result =>
      obtain ⟨run, hi, hstep⟩ := Option.bind_eq_some_iff.mp hstep
      obtain rfl := Option.some.inj hstep
      obtain ⟨hruns, hreq, hidle⟩ := h.of_run hi
      obtain ⟨herror, task, block, articles, hserves, htask, hinfo, hwords⟩ :=
        h.running run (List.mem_of_getElem? hi)
      have hfree : Free parse addressOfContent_ { s with runs := s.runs.eraseIdx i } :=
        ⟨hreq, hruns, h.finnish⟩
      exact hfree.onResource hserves htask hinfo hwords herror hidle result
  | resourceFailed i =>
      obtain ⟨run, hi, hstep⟩ := Option.bind_eq_some_iff.mp hstep
      obtain rfl := Option.some.inj hstep
      obtain ⟨hruns, hreq, -⟩ := h.of_run hi
      exact Free.inv ⟨hreq, hruns, h.finnish⟩

/-! ## Blocks reported in full -/

/-- What the steps preserve while each resource has its own content. -/
def Unflagged (s : WaiCrystal ν) : Prop :=
  s.error_ = false ∧ ∀ m ∈ s.sent, m.stage = some .finnish → m.error = some false

theorem Unflagged.finish {s : WaiCrystal ν} (h : Unflagged s) (info : BlockInfo ν) :
    Unflagged (s.finish info) := by
  unfold WaiCrystal.finish
  split
  · refine ⟨h.1, ?_⟩
    intro m hm hstage
    rcases List.mem_append.mp hm with hm | hm
    · exact h.2 m hm hstage
    · rw [List.mem_singleton.mp hm]
      exact congrArg some h.1
  · exact h

theorem Unflagged.nextResource {s : WaiCrystal ν} (h : Unflagged s) (info : BlockInfo ν)
    (resource : List JsString) : Unflagged (s.nextResource info resource) := by
  cases resource with
  | nil => exact h.finish info
  | cons resourceAddress rest => exact h

theorem Unflagged.onBlock {s : WaiCrystal ν} (h : Unflagged s) (block : JsString) :
    Unflagged (onBlockFromCrystalPool_ parse block s) := by
  unfold onBlockFromCrystalPool_
  dsimp only
  split
  · split
    · apply Unflagged.nextResource
      refine ⟨rfl, ?_⟩
      intro m hm hstage
      rcases List.mem_append.mp hm with hm | hm
      · exact h.2 m hm hstage
      · rw [List.mem_singleton.mp hm] at hstage
        simp at hstage
    · exact ⟨rfl, h.2⟩
  · exact ⟨rfl, h.2⟩

theorem Unflagged.step {s t : WaiCrystal ν} {e : CrystalEvent ν} (h : Unflagged s)
    (hok : RightContent addressOfContent_ s e)
    (hstep : WaiCrystal.step parse addressOfContent_ s e = some t) : Unflagged t := by
  cases e with
  | poolMessage msgJson =>
      obtain rfl := Option.some.inj hstep
      unfold onPoolMessage_ onBlockTask_
      split
      · split
        · split <;> exact h
        · exact h
      · exact h
  | blockDone i block =>
      obtain ⟨task, hi, hstep⟩ := Option.bind_eq_some_iff.mp hstep
      obtain rfl := Option.some.inj hstep
      apply Unflagged.onBlock
      exact h
  | blockFailed i =>
      obtain ⟨task, hi, hstep⟩ := Option.bind_eq_some_iff.mp hstep
      obtain rfl := Option.some.inj hstep
      exact h
  | resourceDone i result =>
      obtain ⟨run, hi, hstep⟩ := Option.bind_eq_some_iff.mp hstep
      obtain rfl := Option.some.inj hstep
      unfold WaiCrystal.onResource
      rw [if_neg (not_not.mpr (hok run hi))]
      apply Unflagged.nextResource
      exact h
  | resourceFailed i =>
      obtain ⟨run, hi, hstep⟩ := Option.bind_eq_some_iff.mp hstep
      obtain rfl := Option.some.inj hstep
      exact h

/-! ## Runs -/

/-- A `'finnish'` message is of one task, the block served for it, and exactly the
articles of this block. -/
def OfOneBlock (parse : JsString → Option (JsonBlock ν))
    (addressOfContent_ : JsString → JsString) (s : WaiCrystal ν) (m : TaskObject ν) : Prop :=
  ∃ task text block articles, (task, text) ∈ s.served ∧ parse text = some block ∧
    block.resource = some (articles.map addressOfContent_) ∧
    m = finnishOf task block false articles

/-- **Blocks are reported one by one and unmixed.** In any run in which no task comes
while another one's block is still requested, at most one block is requested or under
way, and each `'finnish'` message has the members of one task, the information of the
block served for it and the counts of the first articles of this block, up to the
first resource of another content; it is flagged when there is such a resource. Where
each resource has its own content, these are exactly the articles of the block. -/
theorem finnish_unmixed {acts : List (CrystalEvent ν)} {s : WaiCrystal ν}
    (hrun : run (step parse addressOfContent_) new acts = some s)
    (hok : Along (step parse addressOfContent_) NoOverlap new acts) :
    s.requests.length + s.runs.length ≤ 1 ∧
    (∀ m ∈ s.sent, m.stage = some .finnish → ∃ task block articles rest,
      Serves parse addressOfContent_ s.served task block articles rest ∧
      m = finnishOf task block (!rest.isEmpty) articles) ∧
    (Along (step parse addressOfContent_) (RightContent addressOfContent_) new acts →
      ∀ m ∈ s.sent, m.stage = some .finnish → OfOneBlock parse addressOfContent_ s m) := by
  have hinv : Inv parse addressOfContent_ s :=
    invariant (fun _ _ _ h hok hstep => h.step hok hstep) inv_start hok hrun
  refine ⟨hinv.one, hinv.finnish, ?_⟩
  intro hright m hm hstage
  have hstart : Unflagged (new : WaiCrystal ν) := ⟨rfl, List.forall_mem_nil _⟩
  have hunflagged : Unflagged s :=
    invariant (fun _ _ _ h hok hstep => h.step hok hstep) hstart hright hrun
  obtain ⟨task, block, articles, rest, ⟨⟨text, hserved, hparse⟩, hresource⟩, rfl⟩ :=
    hinv.finnish m hm hstage
  have hempty : (!rest.isEmpty) = false := Option.some.inj (hunflagged.2 _ hm hstage)
  obtain rfl : rest = [] := by simpa using hempty
  rw [List.append_nil] at hresource
  exact ⟨task, text, block, articles, hserved, hparse, hresource, rfl⟩

end Unmixed

/-! ## Two tasks -/

section Examples

def taskOf (cid : String) : TaskObject Unit := { TaskObject.empty with cid := some (units cid) }

/-- A block of one article. -/
def oneArticle : JsonBlock Unit :=
  ⟨⟨none, none, none⟩, some [units "UFgJLkTCuvH2fGZbT9tgjjrHNLD"]⟩

def oneArticleText : JsString :=
  units "\x7b\"resource\":[\"UFgJLkTCuvH2fGZbT9tgjjrHNLD\"]\x7d"

def fiveWords : JsString := units "一二 一二 一二 一二 一二"

/-- A task, its block and the block's article. -/
def oneBlock : List (CrystalEvent Unit) :=
  [.poolMessage (some (taskOf "QmA")), .blockDone 0 oneArticleText, .resourceDone 0 fiveWords]

/-- The hash of `fiveWords`, whatever the content. -/
def oneAddress (_ : JsString) : JsString := units "UFgJLkTCuvH2fGZbT9tgjjrHNLD"

theorem finnish_unmixed_one : ∃ s : WaiCrystal Unit,
    run (step (fun _ => some oneArticle) oneAddress) new oneBlock = some s ∧
    (∃ m ∈ s.sent, m.stage = some .finnish ∧
      m.words.bind (fun words => words.get? (units "一二")) = some 5) ∧
    s.requests.length + s.runs.length ≤ 1 ∧
    ∀ m ∈ s.sent, m.stage = some .finnish → ∃ task block articles rest,
      Serves (fun _ => some oneArticle) oneAddress s.served task block articles rest ∧
      m = finnishOf task block (!rest.isEmpty) articles := by
  have hany : (run (step (fun _ => some oneArticle) oneAddress) new oneBlock).any
      (fun s => s.sent.any (fun m => m.stage == some .finnish &&
        m.words.bind (fun words => words.get? (units "一二")) == some 5)) = true := by
    decide
  have hok : Along (step (fun _ => some oneArticle) oneAddress) NoOverlap
      (new : WaiCrystal Unit) oneBlock := by
    decide
  obtain ⟨s, hrun, hsent⟩ := (Option.any_eq_true _ _).mp hany
  obtain ⟨m, hm, hboth⟩ := List.any_eq_true.mp hsent
  obtain ⟨hstage, hwords⟩ := (Bool.and_eq_true_iff).mp hboth
  obtain ⟨hone, hfinnish, -⟩ := finnish_unmixed hrun hok
  exact ⟨s, hrun, ⟨m, hm, eq_of_beq hstage, eq_of_beq hwords⟩, hone, hfinnish⟩

def noArticles : JsonBlock Unit := ⟨⟨none, none, none⟩, some []⟩

def noArticlesText : JsString := units "\x7b\"resource\":[]\x7d"

/-- A second task comes before the first one's block. -/
def overtaken : List (CrystalEvent Unit) :=
  [.poolMessage (some (taskOf "QmA")), .poolMessage (some (taskOf "QmB")),
    .blockDone 0 noArticlesText]

/-- **A task overtaken**: both blocks are requested at once, and the block of the
first task, the only one served, is reported under the cid of the second. -/
theorem task_overtaken :
    (∃ s : WaiCrystal Unit,
      run (step (fun _ => some noArticles) id) new (overtaken.take 2) = some s ∧
      s.requests.length = 2) ∧
    ∃ s : WaiCrystal Unit, run (step (fun _ => some noArticles) id) new overtaken = some s ∧
      ∃ m ∈ s.sent, m.stage = some .finnish ∧ m.cid = some (units "QmB") ∧
        ¬ OfOneBlock (fun _ => some noArticles) id s m := by
  have htwo : (run (step (fun _ => some noArticles) id) new (overtaken.take 2)).any
      (fun s => s.requests.length == 2) = true := by
    decide
  have hany : (run (step (fun _ => some noArticles) id) new overtaken).any
      (fun s => s.served.all (fun e => e.1.cid == some (units "QmA")) &&
        s.sent.any (fun m => m.stage == some .finnish && m.cid == some (units "QmB"))) =
      true := by
    decide
  obtain ⟨s, hrun, hlen⟩ := (Option.any_eq_true _ _).mp htwo
  refine ⟨⟨s, hrun, eq_of_beq hlen⟩, ?_⟩
  obtain ⟨s, hrun, hboth⟩ := (Option.any_eq_true _ _).mp hany
  obtain ⟨hserved, hsent⟩ := (Bool.and_eq_true_iff).mp hboth
  obtain ⟨m, hm, hboth⟩ := List.any_eq_true.mp hsent
  obtain ⟨hstage, hcid⟩ := (Bool.and_eq_true_iff).mp hboth
  refine ⟨s, hrun, m, hm, eq_of_beq hstage, eq_of_beq hcid, ?_⟩
  rintro ⟨task, text, block, articles, htask, -, -, rfl⟩
  have hfirst : task.cid = some (units "QmA") := eq_of_beq (List.all_eq_true.mp hserved _ htask)
  have hsecond : task.cid = some (units "QmB") := eq_of_beq hcid
  rw [hfirst] at hsecond
  exact absurd hsecond (by decide)

end Examples

end WaiCrystal

end WaiNative

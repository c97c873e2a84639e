import WaiNative.Redis.RedisParser
import WaiNative.Theory.Runs

/-!
# A connection to redis

`RedisClientImpl` on one connection: commands are posted, queued and written in the
background, their handlers wait in a queue, and what a read of the socket brings is parsed
and handed to the handler in front or, on a connection that has subscribed, to the
handlers of the channel. The socket takes and gives any number of bytes at a time.

- `replies_matched`: on a connection that publishes, every handler is called at most once,
  with the server's reply to the command that it was given with, in the order of the
  commands;
- `messages_delivered`: on a connection that has subscribed, the handlers of a channel
  get each message of it once, in the order in which the server has published them;
- `reads_never_throw`: on both, no read of the socket throws.

A connection that fails throws and is made anew by its owner; it is not modelled, and
neither is `unsubscribe`, which nobody calls.
-/

namespace WaiNative

open Cxx Framing Runs

namespace Redisclient

/-- `"message"` -/
def strMessage : Str := [109, 101, 115, 115, 97, 103, 101]

/-- `"pmessage"` -/
def strPmessage : Str := 112 :: strMessage

/-- `"subscribe"` -/
def strSubscribe : Str := [115, 117, 98, 115, 99, 114, 105, 98, 101]

/-- `"unsubscribe"` -/
def strUnsubscribe : Str := 117 :: 110 :: strSubscribe

/-- `"psubscribe"` -/
def strPsubscribe : Str := 112 :: strSubscribe

/-- `"punsubscribe"` -/
def strPunsubscribe : Str := 112 :: strUnsubscribe

namespace RedisValue

def toByteArray : RedisValue → Str
  | .bytes buf _ => buf
  | .nil | .int _ | .array _ => []

def toArray : RedisValue → List RedisValue
  | .array values => values
  | .nil | .int _ | .bytes _ _ => []

end RedisValue

inductive ClientState
  | Unconnected
  | Connecting
  | Connected
  | Subscribed
  | Closed
deriving DecidableEq

/-- What is posted to the strand: a command with its handler, or a message. -/
inductive Posted (K M : Type)
  | command (buff : Str) (handler : K)
  | message (handler : M) (payload : Str)

/-- `writing` is what `async_write` has not written of the buffers in `dataWrited`;
`called` and `delivered` are the calls of the handlers. -/
structure RedisClientImpl (K M : Type) where
  redisParser : RedisParser
  subscribeSeq : ℕ
  handlers : List K
  dataWrited : List Str
  dataQueued : List Str
  msgHandlers : List (Str × ℕ × M)
  state : ClientState
  posted : List (Posted K M)
  writing : Str
  called : List (K × RedisValue)
  delivered : List (M × Str)

namespace RedisClientImpl

variable {K M : Type}

/-- A client whose connection has been made. -/
def connected : RedisClientImpl K M :=
  ⟨.start, 0, [], [], [], [], .Connected, [], [], [], []⟩

/-- The handlers of a channel, in the order in which they came. -/
def messageHandlers (c : RedisClientImpl K M) (channel : Str) : List M :=
  (c.msgHandlers.filter (fun entry => entry.1 == channel)).map (fun entry => entry.2.2)

/-- The handler in front gets the value. -/
def callHandler (c : RedisClientImpl K M) (v : RedisValue) : Option (RedisClientImpl K M) :=
  match c.handlers with
  | handler :: handlers =>
      some { c with handlers := handlers, called := c.called ++ [(handler, v)] }
  | [] => none

/-- The errors end in `defaulErrorHandler`, which throws. -/
def doProcessMessage (c : RedisClientImpl K M) (v : RedisValue) : Option (RedisClientImpl K M) :=
  if c.state = .Subscribed then
    match v.toArray with
    | command :: second :: third :: rest =>
        let cmd := command.toByteArray
        let queueName := if rest = [] then second else third
        let value := rest.headD third
        let pattern := if rest.length = 1 then second else queueName
        if cmd = strMessage ∨ cmd = strPmessage then
          let calls := (c.messageHandlers pattern.toByteArray).map
            (fun handler => Posted.message handler value.toByteArray)
          some { c with posted := c.posted ++ calls }
        else if cmd = strSubscribe ∨ cmd = strUnsubscribe ∨ cmd = strPsubscribe ∨
            cmd = strPunsubscribe then c.callHandler v
        else none
    | _ => none
  else c.callHandler v

def asyncWrite (c : RedisClientImpl K M) : RedisClientImpl K M :=
  if c.dataQueued = [] then { c with dataWrited := [] }
  else { c with
    dataWrited := c.dataQueued
    dataQueued := []
    writing := c.dataQueued.flatten }

def doAsyncCommand (c : RedisClientImpl K M) (buff : Str) (handler : K) : RedisClientImpl K M :=
  let c := { c with handlers := c.handlers ++ [handler], dataQueued := c.dataQueued ++ [buff] }
  if c.dataWrited = [] then c.asyncWrite else c

/-- The loop of `asyncRead` over what has been read. -/
def asyncRead : ℕ → RedisClientImpl K M → Str → Option (RedisClientImpl K M)
  | _, c, [] => some c
  | 0, c, _ :: _ => some c
  | n + 1, c, b :: bs =>
      match c.redisParser.parseChunk (b :: bs) with
      | .ok (.Completed, p, rest) =>
          ({ c with redisParser := p.result.2 }.doProcessMessage p.result.1).bind
            (fun c => asyncRead n c rest)
      | .ok (.Incompleted, p, _) => some { c with redisParser := p }
      | .error _ => none

/-- `command` and `publish`. -/
def command (c : RedisClientImpl K M) (items : List Str) (handler : K) :
    Option (RedisClientImpl K M) :=
  if c.state = .Connected then
    some { c with posted := c.posted ++ [.command (makeCommand items) handler] }
  else none

def subscribe (c : RedisClientImpl K M) (command channel : Str) (msgHandler : M) (handler : K) :
    Option (RedisClientImpl K M) :=
  if c.state = .Connected ∨ c.state = .Subscribed then
    some { c with
      posted := c.posted ++ [.command (makeCommand [command, channel]) handler]
      msgHandlers := c.msgHandlers ++ [(channel, c.subscribeSeq, msgHandler)]
      state := .Subscribed
      subscribeSeq := c.subscribeSeq + 1 }
  else none

/-- The strand runs what was posted first. -/
def runPosted (c : RedisClientImpl K M) : Option (RedisClientImpl K M) :=
  match c.posted with
  | .command buff handler :: posted =>
      some ({ c with posted := posted }.doAsyncCommand buff handler)
  | .message handler payload :: posted =>
      some { c with posted := posted, delivered := c.delivered ++ [(handler, payload)] }
  | [] => none

end RedisClientImpl

/-! ## The connection -/

/-- What the server sends: the reply to a command, or a message that it publishes. -/
inductive Sent
  | answer (items : List Str) (reply : Reply)
  | push (reply : Reply)

def Sent.reply : Sent → Reply
  | .answer _ reply => reply
  | .push reply => reply

/-- The client, the bytes under way, the commands that were given to the client, and what
the server has sent. -/
structure Connection (K M : Type) where
  client : RedisClientImpl K M
  toServer : Str
  fromServer : Str
  issued : List (List Str × K)
  sent : List Sent

inductive Action (K : Type)
  | command (items : List Str) (handler : K)
  | runPosted
  | write (size : ℕ)
  | written
  | serve (items : List Str) (reply : Reply)
  | push (reply : Reply)
  | read (size : ℕ)

namespace Connection

variable {K M : Type}

/-- The server takes a command when all of it is there. A read brings up to 4096 bytes. -/
def step (s : Connection K M) : Action K → Option (Connection K M)
  | .command items handler =>
      (s.client.command items handler).map (fun c =>
        { s with client := c, issued := s.issued ++ [(items, handler)] })
  | .runPosted => s.client.runPosted.map (fun c => { s with client := c })
  | .write size =>
      some { s with
        client := { s.client with writing := s.client.writing.drop size }
        toServer := s.toServer ++ s.client.writing.take size }
  | .written =>
      if s.client.writing = [] ∧ s.client.dataWrited ≠ [] then
        some { s with client := s.client.asyncWrite }
      else none
  | .serve items reply =>
      if makeCommand items <+: s.toServer then
        some { s with
          toServer := s.toServer.drop (makeCommand items).length
          fromServer := s.fromServer ++ reply.bytes
          sent := s.sent ++ [.answer items reply] }
      else none
  | .push reply =>
      some { s with fromServer := s.fromServer ++ reply.bytes, sent := s.sent ++ [.push reply] }
  | .read size =>
      if 0 < size ∧ size ≤ 4096 ∧ size ≤ s.fromServer.length then
        (s.client.asyncRead size (s.fromServer.take size)).map (fun c =>
          { s with client := c, fromServer := s.fromServer.drop size })
      else none

/-- The connection has been made, and its callback has subscribed to the channels. -/
def start (subscriptions : List (Str × M × K)) : Option (Connection K M) :=
  (subscriptions.foldlM
    (fun (c : RedisClientImpl K M) entry => c.subscribe strSubscribe entry.1 entry.2.1 entry.2.2)
    .connected).map (fun c =>
      ⟨c, [], [], subscriptions.map (fun entry => ([strSubscribe, entry.1], entry.2.2)), []⟩)

end Connection

/-! ## What a read brings -/

namespace RedisClientImpl

variable {K M : Type} {c c' : RedisClientImpl K M}

def withParser (c : RedisClientImpl K M) (p : RedisParser) : RedisClientImpl K M :=
  { c with redisParser := p }

/-- The parser is not touched by what is done with its values. -/
theorem doProcessMessage_withParser (c : RedisClientImpl K M) (p : RedisParser) (v : RedisValue) :
    (c.withParser p).doProcessMessage v = (c.doProcessMessage v).map (·.withParser p) := by
  have hcall : (c.withParser p).callHandler v = (c.callHandler v).map (·.withParser p) := by
    obtain ⟨_, _, _ | ⟨handler, handlers⟩, _⟩ := c <;> rfl
  unfold doProcessMessage
  rw [hcall]
  show (if c.state = .Subscribed then _ else _) = _
  split
  · split
    · dsimp only
      split
      · rfl
      · split <;> rfl
    · rfl
  · rfl

theorem foldlM_withParser (p : RedisParser) : ∀ (values : List RedisValue)
    (c : RedisClientImpl K M), values.foldlM doProcessMessage (c.withParser p) =
      (values.foldlM doProcessMessage c).map (·.withParser p)
  | [], _ => rfl
  | v :: values, c => by
      rw [List.foldlM_cons, List.foldlM_cons, doProcessMessage_withParser]
      rcases c.doProcessMessage v with _ | c'
      · rfl
      · exact foldlM_withParser p values c'

/-- **A read hands on the values that it has completed**, in their order. -/
theorem asyncRead_of_drain {p : RedisParser} :
    ∀ {n : ℕ} {c : RedisClientImpl K M} {s : Str} {values : List RedisValue},
      drain RedisParser.read n c.redisParser s = (values, .ok p) →
      c.asyncRead n s = (values.foldlM doProcessMessage c).map (·.withParser p)
  | 0, c, [], values, h | 0, c, _ :: _, values, h | _ + 1, c, [], values, h => by
      obtain ⟨rfl, hp⟩ := Prod.mk.inj h
      rw [← Except.ok.inj hp]
      rfl
  | n + 1, c, b :: bs, values, h => by
      rw [drain, RedisParser.read] at h
      rw [asyncRead]
      rcases hparse : c.redisParser.parseChunk (b :: bs) with f | ⟨_ | _, q, rest⟩
      · rw [hparse] at h
        cases (Prod.mk.inj h).2
      · rw [hparse] at h
        obtain ⟨hvalues, hp⟩ := Prod.mk.inj h
        obtain rfl : q.result.1 :: (drain RedisParser.read n q.result.2 rest).1 = values := hvalues
        have hrest : drain RedisParser.read n q.result.2 rest =
            ((drain RedisParser.read n q.result.2 rest).1, .ok p) := Prod.ext rfl hp
        show ((c.withParser q.result.2).doProcessMessage q.result.1).bind _ = _
        rw [doProcessMessage_withParser, List.foldlM_cons]
        rcases c.doProcessMessage q.result.1 with _ | c'
        · rfl
        · have hnext := asyncRead_of_drain (c := c'.withParser q.result.2) hrest
          rw [foldlM_withParser, Option.map_map] at hnext
          exact hnext
      · rw [hparse] at h
        obtain ⟨rfl, hp⟩ := Prod.mk.inj h
        rw [← Except.ok.inj hp]
        rfl

/-! ### What the server may send -/

end RedisClientImpl

namespace Sent

variable {K M : Type}

/-- The server answers a command in its format; on a connection that has subscribed it
confirms the subscription and publishes messages. -/
def Expected (state : ClientState) : Sent → Prop
  | .answer items reply => Fits items ∧ reply.Sound ∧ (state = .Subscribed →
      ∃ channel count, reply = .array [.bulk strSubscribe, .bulk channel, .int count])
  | .push reply => reply.Sound ∧ state = .Subscribed ∧
      ∃ channel payload, reply = .array [.bulk strMessage, .bulk channel, .bulk payload]

theorem Expected.sound {state : ClientState} : ∀ {x : Sent}, x.Expected state → x.reply.Sound
  | .answer _ _, h => h.2.1
  | .push _, h => h.1

/-- The calls that a message asks for. -/
def calls (handlers : Str → List M) : Sent → List (M × Str)
  | .push (.array [_, .bulk channel, .bulk payload]) =>
      (handlers channel).map (fun handler => (handler, payload))
  | .push _ | .answer _ _ => []

/-- The values for the handlers of the commands. -/
def answers (sent : List Sent) : List (List Str × RedisValue) :=
  sent.filterMap fun
    | .answer items reply => some (items, reply.value)
    | .push _ => none

end Sent

/-- The commands among what is posted, and the messages. -/
def Posted.commands {K M : Type} (posted : List (Posted K M)) : List (Str × K) :=
  posted.filterMap fun
    | .command buff handler => some (buff, handler)
    | .message _ _ => none

def Posted.messages {K M : Type} (posted : List (Posted K M)) : List (M × Str) :=
  posted.filterMap fun
    | .command _ _ => none
    | .message handler payload => some (handler, payload)

theorem Posted.commands_append {K M : Type} (posted : List (Posted K M)) (calls : List (M × Str)) :
    Posted.commands (posted ++ calls.map (fun call => .message call.1 call.2)) =
      Posted.commands posted := by
  simp [Posted.commands]

theorem Posted.messages_append {K M : Type} (posted : List (Posted K M)) (calls : List (M × Str)) :
    Posted.messages (posted ++ calls.map (fun call => .message call.1 call.2)) =
      Posted.messages posted ++ calls := by
  simp [Posted.messages]

/-- The first elements of a list, paired with as many others. -/
theorem map_fst_zip_take {α β : Type} : ∀ {l : List α} {l' : List β}, l'.length ≤ l.length →
    (l.zip l').map Prod.fst = l.take l'.length
  | _, [], _ => by simp
  | a :: l, b :: l', h => by
      rw [List.zip_cons_cons, List.map_cons, map_fst_zip_take (Nat.le_of_succ_le_succ h)]
      rfl

namespace RedisClientImpl

variable {K M : Type} {c : RedisClientImpl K M}

theorem doProcessMessage_answer {items : List Str} {reply : Reply}
    (h : (Sent.answer items reply).Expected c.state) :
    c.doProcessMessage reply.value = c.callHandler reply.value := by
  unfold doProcessMessage
  split
  · rename_i hstate
    obtain ⟨channel, count, rfl⟩ := h.2.2 hstate
    simp [Reply.value, Reply.values, RedisValue.toArray, RedisValue.toByteArray, strSubscribe,
      strMessage, strPmessage]
  · rfl

theorem doProcessMessage_push {reply : Reply} (h : (Sent.push reply).Expected c.state) :
    c.doProcessMessage reply.value = some { c with
      posted := c.posted ++ ((Sent.push reply).calls c.messageHandlers).map
        (fun call => .message call.1 call.2) } := by
  obtain ⟨-, hstate, channel, payload, rfl⟩ := h
  simp [doProcessMessage, hstate, Reply.value, Reply.values, RedisValue.toArray,
    RedisValue.toByteArray, Sent.calls, Function.comp_def]

/-- What has been read is handled: the handlers in front get the answers, the messages are
posted for their handlers. -/
def handled (c : RedisClientImpl K M) (sent : List Sent) : RedisClientImpl K M :=
  { c with
    handlers := c.handlers.drop (Sent.answers sent).length
    called := c.called ++ c.handlers.zip ((Sent.answers sent).map Prod.snd)
    posted := c.posted ++ (sent.flatMap (Sent.calls c.messageHandlers)).map
      (fun call => .message call.1 call.2) }

/-- **Every value finds its handler**, when there is one for each answer. -/
theorem foldlM_handled : ∀ {sent : List Sent} {c : RedisClientImpl K M},
    (∀ x ∈ sent, x.Expected c.state) → (Sent.answers sent).length ≤ c.handlers.length →
      (sent.map (fun x => x.reply.value)).foldlM doProcessMessage c = some (c.handled sent)
  | [], c, _, _ => by
      simp [handled, Sent.answers]
  | .push reply :: sent, c, h, hle => by
      rw [List.map_cons, List.foldlM_cons, Sent.reply,
        doProcessMessage_push (h _ List.mem_cons_self)]
      have hrest : ∀ x ∈ sent, x.Expected c.state := fun x hx => h x (List.mem_cons_of_mem _ hx)
      have hnext := foldlM_handled (c := { c with
        posted := c.posted ++ ((Sent.push reply).calls c.messageHandlers).map
          (fun call => .message call.1 call.2) }) hrest hle
      refine hnext.trans ?_
      simp [handled, Sent.answers]
      rfl
  | .answer items reply :: sent, c, h, hle => by
      rw [List.map_cons, List.foldlM_cons, Sent.reply,
        doProcessMessage_answer (h _ List.mem_cons_self)]
      rcases hhandlers : c.handlers with _ | ⟨handler, handlers⟩
      · exact absurd hle (by simp [hhandlers, Sent.answers])
      · have hcall : c.callHandler reply.value = some { c with
            handlers := handlers, called := c.called ++ [(handler, reply.value)] } := by
          unfold callHandler
          rw [hhandlers]
        rw [hcall]
        have hrest : ∀ x ∈ sent, x.Expected c.state :=
          fun x hx => h x (List.mem_cons_of_mem _ hx)
        have hnext := foldlM_handled (c := { c with
            handlers := handlers, called := c.called ++ [(handler, reply.value)] }) hrest
          (by simpa [hhandlers, Sent.answers] using hle)
        refine hnext.trans ?_
        simp [handled, Sent.answers, hhandlers, Sent.calls]
        rfl

end RedisClientImpl

/-! ## Runs of a connection -/

/-- What an action hands to the server or to the client has the format for it. -/
def Action.Expected {K : Type} (state : ClientState) : Action K → Prop
  | .command items _ => Fits items
  | .serve items reply => (Sent.answer items reply).Expected state
  | .push reply => (Sent.push reply).Expected state
  | .runPosted | .write _ | .written | .read _ => True

namespace Connection

variable {K M : Type} {s t : Connection K M}

/-- The commands that the server has answered, those that it will find in the bytes under
way, and those that are still posted; of what it has sent, what the client has read and
what it has not. -/
structure Accounts (state : ClientState) (handlers : Str → List M) (s : Connection K M)
    (answered pending waiting : List (List Str × K)) (seen coming : List Sent) : Prop where
  inState : s.client.state = state
  withHandlers : s.client.messageHandlers = handlers
  issued : s.issued = answered ++ (pending ++ waiting)
  fits : ∀ e ∈ s.issued, Fits e.1
  posted : Posted.commands s.client.posted = waiting.map (fun e => (makeCommand e.1, e.2))
  toServer : s.toServer ++ (s.client.writing ++ s.client.dataQueued.flatten) =
    pending.flatMap (fun e => makeCommand e.1)
  idle : s.client.dataWrited = [] → s.client.writing = [] ∧ s.client.dataQueued = []
  queue : s.client.called.map Prod.fst ++ s.client.handlers = (answered ++ pending).map Prod.snd
  sent : s.sent = seen ++ coming
  expected : ∀ x ∈ s.sent, x.Expected state
  served : (Sent.answers s.sent).map Prod.fst = answered.map Prod.fst
  called : s.client.called.map Prod.snd = (Sent.answers seen).map Prod.snd
  delivered : s.client.delivered ++ Posted.messages s.client.posted =
    seen.flatMap (Sent.calls handlers)
  fromServer : ∃ got, got ++ s.fromServer = s.sent.flatMap (fun x => x.reply.bytes) ∧
    feed RedisParser.read .start got =
      (seen.map (fun x => x.reply.value), .ok s.client.redisParser)

def Accounted (state : ClientState) (handlers : Str → List M) (s : Connection K M) : Prop :=
  ∃ answered pending waiting seen coming,
    s.Accounts state handlers answered pending waiting seen coming

variable {state : ClientState} {handlers : Str → List M}
variable {answered pending waiting : List (List Str × K)} {seen coming : List Sent}

theorem Accounts.command (h : s.Accounts state handlers answered pending waiting seen coming)
    {items : List Str} (hfits : Fits items) {handler : K} {c : RedisClientImpl K M}
    (hc : s.client.command items handler = some c) :
    Accounts state handlers { s with client := c, issued := s.issued ++ [(items, handler)] }
      answered pending (waiting ++ [(items, handler)]) seen coming := by
  obtain ⟨-, rfl⟩ : s.client.state = .Connected ∧ _ = c := by
    simpa [RedisClientImpl.command] using hc
  exact { h with
    issued := by simp [h.issued]
    fits := by
      intro e he
      rcases List.mem_append.mp he with hmem | hmem
      · exact h.fits e hmem
      · rw [List.mem_singleton.mp hmem]
        exact hfits
    posted := by
      have hposted := h.posted
      simp only [Posted.commands] at hposted
      simp [Posted.commands, hposted]
    delivered := by
      have hdelivered := h.delivered
      simp only [Posted.messages] at hdelivered
      simp [Posted.messages, hdelivered] }

/-- A command that is run waits for its answer, and its bytes to be written. -/
theorem Accounts.runCommand {e : List Str × K}
    (h : s.Accounts state handlers answered pending (e :: waiting) seen coming)
    {posted : List (Posted K M)}
    (hposted : s.client.posted = .command (makeCommand e.1) e.2 :: posted) :
    Accounts state handlers
      { s with client := { s.client with posted := posted }.doAsyncCommand (makeCommand e.1) e.2 }
      answered (pending ++ [e]) waiting seen coming := by
  have hissued : s.issued = answered ++ (pending ++ [e] ++ waiting) := by
    rw [h.issued, List.append_assoc, List.singleton_append]
  have hwaiting : Posted.commands posted = waiting.map (fun e => (makeCommand e.1, e.2)) := by
    have hall := h.posted
    rw [hposted] at hall
    exact (List.cons.inj hall).2
  have hdelivered : s.client.delivered ++ Posted.messages posted =
      seen.flatMap (Sent.calls handlers) := by
    have hall := h.delivered
    rw [hposted] at hall
    exact hall
  have hqueue : s.client.called.map Prod.fst ++ (s.client.handlers ++ [e.2]) =
      (answered ++ (pending ++ [e])).map Prod.snd := by
    rw [← List.append_assoc, h.queue]
    simp
  have hbytes : s.toServer ++ (s.client.writing ++ (s.client.dataQueued ++ [makeCommand e.1]).flatten)
      = (pending ++ [e]).flatMap (fun e => makeCommand e.1) := by
    rw [List.flatMap_append, ← h.toServer]
    simp
  unfold RedisClientImpl.doAsyncCommand
  dsimp only
  split
  · rename_i hnone
    obtain ⟨hwriting, hqueued⟩ := h.idle hnone
    have hsome : s.client.dataQueued ++ [makeCommand e.1] ≠ [] := by simp
    rw [hwriting, List.nil_append] at hbytes
    rw [RedisClientImpl.asyncWrite, if_neg hsome]
    exact { h with
      issued := hissued
      posted := hwaiting
      delivered := hdelivered
      queue := hqueue
      toServer := by rw [← hbytes, List.flatten_nil, List.append_nil]
      idle := fun hnone => absurd hnone hsome }
  · rename_i hbusy
    exact { h with
      issued := hissued
      posted := hwaiting
      delivered := hdelivered
      queue := hqueue
      toServer := hbytes
      idle := fun hnone => absurd hnone hbusy }

/-- A message that is run has been delivered. -/
theorem Accounts.runMessage (h : s.Accounts state handlers answered pending waiting seen coming)
    {handler : M} {payload : Str} {posted : List (Posted K M)}
    (hposted : s.client.posted = .message handler payload :: posted) :
    Accounts state handlers { s with client := { s.client with
        posted := posted, delivered := s.client.delivered ++ [(handler, payload)] } }
      answered pending waiting seen coming :=
  { h with
    posted := by
      have hwaiting := h.posted
      rw [hposted] at hwaiting
      exact hwaiting
    delivered := by
      have hdelivered := h.delivered
      rw [hposted] at hdelivered
      rw [← hdelivered, List.append_assoc]
      rfl }

theorem Accounts.write (h : s.Accounts state handlers answered pending waiting seen coming)
    (size : ℕ) :
    Accounts state handlers { s with
        client := { s.client with writing := s.client.writing.drop size }
        toServer := s.toServer ++ s.client.writing.take size }
      answered pending waiting seen coming :=
  { h with
    toServer := by
      have hbytes := h.toServer
      rw [← List.take_append_drop size s.client.writing] at hbytes
      simpa only [List.append_assoc] using hbytes
    idle := fun hnone => by
      obtain ⟨hwriting, hqueued⟩ := h.idle hnone
      exact ⟨by rw [hwriting]; exact List.drop_nil, hqueued⟩ }

theorem Accounts.written (h : s.Accounts state handlers answered pending waiting seen coming)
    (hwriting : s.client.writing = []) :
    Accounts state handlers { s with client := s.client.asyncWrite }
      answered pending waiting seen coming := by
  have hbytes := h.toServer
  rw [hwriting, List.nil_append] at hbytes
  unfold RedisClientImpl.asyncWrite
  split
  · rename_i hqueued
    exact { h with idle := fun _ => ⟨hwriting, hqueued⟩ }
  · rename_i hqueued
    exact { h with
      toServer := by rw [← hbytes, List.flatten_nil, List.append_nil]
      idle := fun hnone => absurd hnone hqueued }

/-- The server takes the first of the commands under way, whatever it is given. -/
theorem Accounts.serve (h : s.Accounts state handlers answered pending waiting seen coming)
    {items : List Str} {reply : Reply} (hexpected : (Sent.answer items reply).Expected state)
    (hfront : makeCommand items <+: s.toServer) :
    ∃ e rest, pending = e :: rest ∧ Accounts state handlers
      { s with
        toServer := s.toServer.drop (makeCommand items).length
        fromServer := s.fromServer ++ reply.bytes
        sent := s.sent ++ [.answer items reply] }
      (answered ++ [e]) rest waiting seen (coming ++ [.answer items reply]) := by
  obtain ⟨more, hmore⟩ := hfront
  have hbytes := h.toServer
  rw [← hmore, List.append_assoc] at hbytes
  rcases pending with _ | ⟨e, rest⟩
  · have hne : makeCommand items ≠ [] := List.cons_ne_nil _ _
    exact absurd (List.append_eq_nil_iff.mp hbytes).1 hne
  · have hfits : Fits e.1 := h.fits e (by rw [h.issued]; simp)
    obtain ⟨hitems, hrest⟩ := makeCommand_append_inj hexpected.1 hfits hbytes
    obtain ⟨got, hgot, hfeed⟩ := h.fromServer
    refine ⟨e, rest, rfl, { h with
      issued := by simp [h.issued]
      toServer := by
        rw [← hmore, List.drop_left]
        exact hrest
      queue := by simpa [List.append_assoc] using h.queue
      sent := by rw [h.sent, List.append_assoc]
      expected := by
        intro x hx
        rcases List.mem_append.mp hx with hmem | hmem
        · exact h.expected x hmem
        · rw [List.mem_singleton.mp hmem]
          exact hexpected
      served := by
        have hserved := h.served
        simp only [Sent.answers] at hserved
        simp [Sent.answers, hserved, hitems]
      fromServer := ⟨got, ?_, hfeed⟩ }⟩
    rw [← List.append_assoc, hgot, List.flatMap_append]
    simp [Sent.reply]

theorem Accounts.push (h : s.Accounts state handlers answered pending waiting seen coming)
    {reply : Reply} (hexpected : (Sent.push reply).Expected state) :
    Accounts state handlers
      { s with fromServer := s.fromServer ++ reply.bytes, sent := s.sent ++ [.push reply] }
      answered pending waiting seen (coming ++ [.push reply]) := by
  obtain ⟨got, hgot, hfeed⟩ := h.fromServer
  refine { h with
    sent := by rw [h.sent, List.append_assoc]
    expected := by
      intro x hx
      rcases List.mem_append.mp hx with hmem | hmem
      · exact h.expected x hmem
      · rw [List.mem_singleton.mp hmem]
        exact hexpected
    served := by
      have hserved := h.served
      simp only [Sent.answers] at hserved
      simp [Sent.answers, hserved]
    fromServer := ⟨got, ?_, hfeed⟩ }
  rw [← List.append_assoc, hgot, List.flatMap_append]
  simp [Sent.reply]

theorem Accounts.answers_le (h : s.Accounts state handlers answered pending waiting seen coming) :
    (Sent.answers seen).length + (Sent.answers coming).length ≤
      s.client.called.length + s.client.handlers.length := by
  have hserved := congrArg List.length h.served
  have hqueue := congrArg List.length h.queue
  rw [h.sent] at hserved
  simp only [Sent.answers, List.filterMap_append, List.length_map, List.length_append]
    at hserved hqueue ⊢
  omega

theorem Accounts.sound (h : s.Accounts state handlers answered pending waiting seen coming) :
    ∀ r ∈ s.sent.map Sent.reply, r.Sound := by
  intro r hr
  obtain ⟨x, hx, rfl⟩ := List.mem_map.mp hr
  exact (h.expected x hx).sound

/-- **A read of any number of bytes is handled**, and brings some of the values that were
coming. -/
theorem Accounts.read (h : s.Accounts state handlers answered pending waiting seen coming)
    (size : ℕ) :
    ∃ c more rest, s.client.asyncRead size (s.fromServer.take size) = some c ∧
      coming = more ++ rest ∧
      Accounts state handlers { s with client := c, fromServer := s.fromServer.drop size }
        answered pending waiting (seen ++ more) rest := by
  obtain ⟨got, hgot, hfeed⟩ := h.fromServer
  obtain ⟨last, hlast, -⟩ := RedisParser.feed_replies h.sound RedisParser.between_start
  -- what the parser reads of all that is under way are the values that are coming
  have hcoming : feed RedisParser.read s.client.redisParser s.fromServer =
      (coming.map (fun x => x.reply.value), .ok last) := by
    rw [List.flatMap_map, ← hgot, feed_append, hfeed, List.map_map, h.sent, List.map_append] at hlast
    obtain ⟨hvalues, hparser⟩ := Prod.mk.inj hlast
    exact Prod.ext (List.append_cancel_left hvalues) hparser
  rw [← List.take_append_drop size s.fromServer] at hcoming
  obtain ⟨mid, hmid, hfront⟩ := feed_prefix hcoming
  have hmore := List.prefix_iff_eq_take.mp hfront
  rw [← List.map_take] at hmore
  generalize hk : (feed RedisParser.read s.client.redisParser (s.fromServer.take size)).1.length = k
    at hmore
  rw [hmore] at hmid
  have hchunk : feed RedisParser.read .start (got ++ s.fromServer.take size) =
      ((seen ++ coming.take k).map (fun x => x.reply.value), .ok mid) := by
    rw [feed_append, hfeed, List.map_append]
    simp only [hmid]
    rfl
  have hsplit : seen ++ coming.take k ++ coming.drop k = s.sent := by
    rw [List.append_assoc, List.take_append_drop, h.sent]
  have hanswers : (Sent.answers (coming.take k)).length ≤ s.client.handlers.length := by
    have hle := h.answers_le
    have hcalled := congrArg List.length h.called
    have hpart : (Sent.answers (coming.take k)).length ≤ (Sent.answers coming).length :=
      ((List.take_sublist k coming).filterMap _).length_le
    simp only [List.length_map] at hcalled
    omega
  have hexpected : ∀ x ∈ coming.take k, x.Expected s.client.state := by
    intro x hx
    rw [h.inState]
    exact h.expected x (by rw [h.sent]; exact List.mem_append_right _ (List.mem_of_mem_take hx))
  have hread : s.client.asyncRead size (s.fromServer.take size) =
      some ((s.client.handled (coming.take k)).withParser mid) := by
    rw [RedisClientImpl.asyncRead_of_drain ((drain_eq_feed RedisParser.resumable size _ _
      (List.length_take_le _ _)).trans hmid), RedisClientImpl.foldlM_handled hexpected hanswers]
    rfl
  refine ⟨_, coming.take k, coming.drop k, hread, (List.take_append_drop k coming).symm, { h with
    posted := ?_
    queue := ?_
    sent := hsplit.symm
    called := ?_
    delivered := ?_
    fromServer := ⟨got ++ s.fromServer.take size, ?_, hchunk⟩ }⟩
  · exact (Posted.commands_append _ _).trans h.posted
  · show (s.client.called ++ s.client.handlers.zip _).map Prod.fst ++
      s.client.handlers.drop (Sent.answers (coming.take k)).length = _
    rw [List.map_append, map_fst_zip_take (by simpa using hanswers), List.length_map,
      List.append_assoc, List.take_append_drop, h.queue]
  · show (s.client.called ++ s.client.handlers.zip _).map Prod.snd = _
    rw [List.map_append, h.called, List.map_snd_zip (by simpa using hanswers)]
    simp [Sent.answers]
  · show s.client.delivered ++ Posted.messages (s.client.posted ++
      ((coming.take k).flatMap (Sent.calls s.client.messageHandlers)).map _) = _
    rw [Posted.messages_append, ← List.append_assoc, h.delivered, h.withHandlers,
      List.flatMap_append]
  · rw [List.append_assoc, List.take_append_drop, hgot]

/-- **Every action keeps the accounts.** -/
theorem Accounted.step {a : Action K} (h : s.Accounted state handlers) (ha : a.Expected state)
    (hstep : s.step a = some t) : t.Accounted state handlers := by
  obtain ⟨answered, pending, waiting, seen, coming, h⟩ := h
  cases a with
  | command items handler =>
      obtain ⟨c, hc, rfl⟩ := Option.map_eq_some_iff.mp hstep
      exact ⟨_, _, _, _, _, h.command ha hc⟩
  | runPosted =>
      obtain ⟨c, hc, rfl⟩ := Option.map_eq_some_iff.mp hstep
      unfold RedisClientImpl.runPosted at hc
      split at hc
      · rename_i buff handler posted hposted
        obtain rfl := Option.some.inj hc
        have hwaiting := h.posted
        rw [hposted] at hwaiting
        obtain ⟨e, rest, rfl, hentry, -⟩ := List.map_eq_cons_iff.mp hwaiting.symm
        obtain ⟨rfl, rfl⟩ := Prod.mk.inj hentry
        exact ⟨_, _, _, _, _, h.runCommand hposted⟩
      · rename_i handler payload posted hposted
        obtain rfl := Option.some.inj hc
        exact ⟨_, _, _, _, _, h.runMessage hposted⟩
      · exact nomatch hc
  | write size =>
      obtain rfl := Option.some.inj hstep
      exact ⟨_, _, _, _, _, h.write size⟩
  | written =>
      obtain ⟨⟨hwriting, -⟩, ht⟩ := Option.ite_none_right_eq_some.mp hstep
      obtain rfl := Option.some.inj ht
      exact ⟨_, _, _, _, _, h.written hwriting⟩
  | serve items reply =>
      obtain ⟨hfront, ht⟩ := Option.ite_none_right_eq_some.mp hstep
      obtain rfl := Option.some.inj ht
      obtain ⟨e, rest, rfl, hserved⟩ := h.serve ha hfront
      exact ⟨_, _, _, _, _, hserved⟩
  | push reply =>
      obtain rfl := Option.some.inj hstep
      exact ⟨_, _, _, _, _, h.push ha⟩
  | read size =>
      obtain ⟨-, ht⟩ := Option.ite_none_right_eq_some.mp hstep
      obtain ⟨c, hc, rfl⟩ := Option.map_eq_some_iff.mp ht
      obtain ⟨c', more, rest, hread, -, hnext⟩ := h.read size
      obtain rfl := Option.some.inj (hread.symm.trans hc)
      exact ⟨_, _, _, _, _, hnext⟩

/-- The handlers that have subscribed to a channel. -/
def subscribers (subscriptions : List (Str × M × K)) (channel : Str) : List M :=
  (subscriptions.filter (fun entry => entry.1 == channel)).map (fun entry => entry.2.1)

/-- A connection without subscriptions publishes. -/
def mode (subscriptions : List (Str × M × K)) : ClientState :=
  if subscriptions = [] then .Connected else .Subscribed

/-- The subscriptions, one after the other. -/
theorem subscribe_all : ∀ (subscriptions : List (Str × M × K)) (c : RedisClientImpl K M),
    c.state = .Connected ∨ c.state = .Subscribed →
    ∃ msgHandlers subscribeSeq,
      subscriptions.foldlM (fun (c : RedisClientImpl K M) entry =>
        c.subscribe strSubscribe entry.1 entry.2.1 entry.2.2) c = some { c with
          posted := c.posted ++ subscriptions.map (fun entry =>
            .command (makeCommand [strSubscribe, entry.1]) entry.2.2)
          state := if subscriptions = [] then c.state else .Subscribed
          msgHandlers := msgHandlers
          subscribeSeq := subscribeSeq } ∧
      ∀ channel, (msgHandlers.filter (fun entry => entry.1 == channel)).map
        (fun entry => entry.2.2) = c.messageHandlers channel ++ subscribers subscriptions channel
  | [], c, _ => ⟨c.msgHandlers, c.subscribeSeq, by simp, by
      simp [subscribers, RedisClientImpl.messageHandlers]⟩
  | (channel, msgHandler, handler) :: subscriptions, c, hstate => by
      rw [List.foldlM_cons, RedisClientImpl.subscribe, if_pos hstate]
      obtain ⟨msgHandlers, subscribeSeq, hall, htable⟩ := subscribe_all subscriptions
        { c with
          posted := c.posted ++ [.command (makeCommand [strSubscribe, channel]) handler]
          msgHandlers := c.msgHandlers ++ [(channel, c.subscribeSeq, msgHandler)]
          state := .Subscribed
          subscribeSeq := c.subscribeSeq + 1 } (Or.inr rfl)
      refine ⟨msgHandlers, subscribeSeq, ?_, fun other => ?_⟩
      · refine hall.trans ?_
        simp
      · rw [htable]
        by_cases heq : channel = other
        · simp [RedisClientImpl.messageHandlers, subscribers, heq]
        · simp [RedisClientImpl.messageHandlers, subscribers, heq]

theorem accounted_start {subscriptions : List (Str × M × K)}
    (hfits : ∀ entry ∈ subscriptions, entry.1.length ≤ LONG_MAX)
    (h : start subscriptions = some s) :
    s.Accounted (mode subscriptions) (subscribers subscriptions) := by
  obtain ⟨msgHandlers, subscribeSeq, hall, htable⟩ :=
    subscribe_all subscriptions (RedisClientImpl.connected : RedisClientImpl K M) (Or.inl rfl)
  rw [start, hall] at h
  obtain rfl := Option.some.inj h
  refine ⟨[], [], subscriptions.map (fun entry => ([strSubscribe, entry.1], entry.2.2)), [], [], {
    inState := rfl
    withHandlers := funext htable
    issued := rfl
    fits := ?_
    posted := ?_
    toServer := rfl
    idle := fun _ => ⟨rfl, rfl⟩
    queue := rfl
    sent := rfl
    expected := fun x hx => absurd hx List.not_mem_nil
    served := rfl
    called := rfl
    delivered := ?_
    fromServer := ⟨[], rfl, rfl⟩ }⟩
  · intro e he
    obtain ⟨entry, hentry, rfl⟩ := List.mem_map.mp he
    refine ⟨(by decide : 2 ≤ LONG_MAX), ?_⟩
    intro item hitem
    rcases List.mem_pair.mp hitem with rfl | rfl
    · decide
    · exact hfits entry hentry
  · simp [RedisClientImpl.connected, Posted.commands]
  · simp [RedisClientImpl.connected, Posted.messages]

theorem accounted_of_run {subscriptions : List (Str × M × K)} {acts : List (Action K)}
    (hfits : ∀ entry ∈ subscriptions, entry.1.length ≤ LONG_MAX)
    (hstart : start subscriptions = some s)
    (hok : ∀ a ∈ acts, a.Expected (mode subscriptions)) (hrun : run step s acts = some t) :
    t.Accounted (mode subscriptions) (subscribers subscriptions) := by
  have hpreserved : ∀ (s : Connection K M) a t,
      s.Accounted (mode subscriptions) (subscribers subscriptions) →
      a.Expected (mode subscriptions) → s.step a = some t →
      t.Accounted (mode subscriptions) (subscribers subscriptions) :=
    fun _ _ _ hs ha hstep => hs.step ha hstep
  exact invariant hpreserved (accounted_start hfits hstart)
    (along_of_forall (fun a ha _ => hok a ha)) hrun

/-- Nothing is posted or under way. -/
structure Quiet (s : Connection K M) : Prop where
  posted : s.client.posted = []
  dataWrited : s.client.dataWrited = []
  toServer : s.toServer = []
  fromServer : s.fromServer = []

theorem Accounts.quiet (h : s.Accounts state handlers answered pending waiting seen coming)
    (hquiet : s.Quiet) : pending = [] ∧ waiting = [] ∧ coming = [] := by
  refine ⟨?_, ?_, ?_⟩
  · have hbytes := h.toServer
    obtain ⟨hwriting, hqueued⟩ := h.idle hquiet.dataWrited
    rw [hquiet.toServer, hwriting, hqueued] at hbytes
    rcases pending with _ | ⟨e, rest⟩
    · rfl
    · exact absurd (List.append_eq_nil_iff.mp hbytes.symm).1 (List.cons_ne_nil _ _)
  · have hposted := h.posted
    rw [hquiet.posted] at hposted
    exact List.map_eq_nil_iff.mp hposted.symm
  · obtain ⟨got, hgot, hfeed⟩ := h.fromServer
    obtain ⟨last, hlast, -⟩ := RedisParser.feed_replies h.sound RedisParser.between_start
    rw [hquiet.fromServer, List.append_nil] at hgot
    rw [List.flatMap_map, ← hgot, hfeed, List.map_map, h.sent] at hlast
    have hlength := congrArg List.length (Prod.mk.inj hlast).1
    simp only [List.length_map, List.length_append] at hlength
    exact List.length_eq_zero_iff.mp (by omega)

/-- The calls of the handlers are those of the first commands with the first answers. -/
theorem Accounts.called_eq (h : s.Accounts state handlers answered pending waiting seen coming) :
    s.client.called = ((s.issued.map Prod.snd).zip ((Sent.answers s.sent).map Prod.snd)).take
      s.client.called.length := by
  have hcalls : s.client.called =
      (s.client.called.map Prod.fst).zip (s.client.called.map Prod.snd) :=
    List.zip_of_prod rfl rfl
  have hfst : s.client.called.map Prod.fst =
      (s.issued.map Prod.snd).take s.client.called.length := by
    have hissued : s.issued.map Prod.snd =
        s.client.called.map Prod.fst ++ (s.client.handlers ++ waiting.map Prod.snd) := by
      rw [← List.append_assoc, h.queue, h.issued, ← List.append_assoc, List.map_append]
    rw [hissued, List.take_left' (List.length_map _)]
  have hsnd : s.client.called.map Prod.snd =
      ((Sent.answers s.sent).map Prod.snd).take s.client.called.length := by
    have hanswers : (Sent.answers s.sent).map Prod.snd =
        s.client.called.map Prod.snd ++ (Sent.answers coming).map Prod.snd := by
      rw [h.called, h.sent, Sent.answers, List.filterMap_append, List.map_append]
      rfl
    rw [hanswers, List.take_left' (List.length_map _)]
  rw [List.zip, List.take_zipWith, ← hfst, ← hsnd]
  exact hcalls

/-- **Every handler is called with the answer to its own command**: the server answers the
commands in the order in which they were given, the calls are those of the first of them,
and when nothing is under way, all have been answered and all handlers called. -/
theorem replies_matched {acts : List (Action K)} (hstart : start [] = some s)
    (hok : ∀ a ∈ acts, a.Expected .Connected) (hrun : run step s acts = some t) :
    let matched := (t.issued.map Prod.snd).zip ((Sent.answers t.sent).map Prod.snd)
    (Sent.answers t.sent).map Prod.fst <+: t.issued.map Prod.fst ∧
      t.client.called <+: matched ∧
      (t.Quiet → (Sent.answers t.sent).map Prod.fst = t.issued.map Prod.fst ∧
        t.client.called = matched) := by
  intro matched
  obtain ⟨answered, pending, waiting, seen, coming, h⟩ :=
    accounted_of_run (M := M) (by simp) hstart hok hrun
  have hcalled := h.called_eq
  refine ⟨?_, ?_, fun hquiet => ?_⟩
  · rw [h.served, h.issued, List.map_append]
    exact List.prefix_append _ _
  · rw [hcalled]
    exact List.take_prefix _ _
  · obtain ⟨rfl, rfl, rfl⟩ := h.quiet hquiet
    have hissued := h.issued
    rw [List.append_nil, List.append_nil] at hissued
    refine ⟨h.served.trans (by rw [hissued]), ?_⟩
    have hlength : matched.length ≤ t.client.called.length := by
      have hanswers := congrArg List.length h.called
      rw [← List.append_nil seen, ← h.sent] at hanswers
      simp only [List.length_map] at hanswers
      simp only [matched, List.length_zip, List.length_map]
      omega
    rw [hcalled, List.take_of_length_le hlength]

/-- **The messages of a channel reach its handlers**, each once and in their order; when
nothing is under way, all of them have. -/
theorem messages_delivered {subscriptions : List (Str × M × K)} {acts : List (Action K)}
    (hfits : ∀ entry ∈ subscriptions, entry.1.length ≤ LONG_MAX)
    (hstart : start subscriptions = some s)
    (hok : ∀ a ∈ acts, a.Expected (mode subscriptions)) (hrun : run step s acts = some t) :
    t.client.delivered <+: t.sent.flatMap (Sent.calls (subscribers subscriptions)) ∧
      (t.Quiet → t.client.delivered = t.sent.flatMap (Sent.calls (subscribers subscriptions))) := by
  obtain ⟨answered, pending, waiting, seen, coming, h⟩ :=
    accounted_of_run hfits hstart hok hrun
  have hdelivered := h.delivered
  refine ⟨?_, fun hquiet => ?_⟩
  · rw [h.sent, List.flatMap_append, ← hdelivered, List.append_assoc]
    exact List.prefix_append _ _
  · obtain ⟨rfl, rfl, rfl⟩ := h.quiet hquiet
    rw [hquiet.posted] at hdelivered
    rw [h.sent, List.append_nil, ← hdelivered]
    exact (List.append_nil _).symm

/-- **No read throws**, wherever it cuts the bytes. -/
theorem reads_never_throw {subscriptions : List (Str × M × K)} {acts : List (Action K)}
    (hfits : ∀ entry ∈ subscriptions, entry.1.length ≤ LONG_MAX)
    (hstart : start subscriptions = some s)
    (hok : ∀ a ∈ acts, a.Expected (mode subscriptions)) (hrun : run step s acts = some t)
    {size : ℕ} (hpos : 0 < size) (hbuf : size ≤ 4096) (hsize : size ≤ t.fromServer.length) :
    (t.step (.read size)).isSome := by
  obtain ⟨answered, pending, waiting, seen, coming, h⟩ :=
    accounted_of_run hfits hstart hok hrun
  obtain ⟨c, more, rest, hread, -, -⟩ := h.read size
  simp [step, hpos, hbuf, hsize, hread]

/-- A message is published; the bytes and the reply are cut anywhere. -/
def onePublish : List (Action ℕ) :=
  [.command [[80, 85, 66], [99], [120]] 7, .runPosted, .write 10, .write 100,
    .serve [[80, 85, 66], [99], [120]] (.int 1), .read 3, .written, .read 1]

theorem replies_matched_publish :
    ∃ s t : Connection ℕ Unit, start [] = some s ∧ run step s onePublish = some t ∧
      t.client.called <+: (t.issued.map Prod.snd).zip ((Sent.answers t.sent).map Prod.snd) := by
  have hrun : ((start [] : Option (Connection ℕ Unit)).any
      (fun s => (run step s onePublish).isSome)) = true := by decide +kernel
  obtain ⟨s, hs, ht⟩ := (Option.any_eq_true _ _).mp hrun
  obtain ⟨t, ht⟩ := Option.isSome_iff_exists.mp ht
  have hfits : Fits [[80, 85, 66], [99], [120]] := ⟨by decide, by decide⟩
  have hint : (Reply.int 1).Sound := by simp [Reply.Sound, LONG_MAX]
  have hok : ∀ a ∈ onePublish, a.Expected .Connected := by
    simp only [onePublish, List.forall_mem_cons, Action.Expected, Sent.Expected]
    exact ⟨hfits, trivial, trivial, trivial, ⟨hfits, hint, fun h => absurd h (by decide)⟩, trivial, trivial,
      trivial, fun _ h => absurd h List.not_mem_nil⟩
  exact ⟨s, t, hs, ht, (replies_matched hs hok ht).2.1⟩

/-- A subscription is confirmed, a message follows, -/
def oneMessage : List (Action ℕ) :=
  [.runPosted, .write 100,
    .serve [strSubscribe, [99]] (.array [.bulk strSubscribe, .bulk [99], .int 1]),
    .push (.array [.bulk strMessage, .bulk [99], .bulk [104]])]

/-- and both are read in two parts. -/
def twoReads : List (Action ℕ) := [.read 33, .read 28, .runPosted]

theorem oneMessage_expected :
    ∀ a ∈ oneMessage, a.Expected (mode [(([99] : Str), 5, 7)]) := by
  have hconfirm : (Reply.array [.bulk strSubscribe, .bulk [99], .int 1]).Sound := by
    simp [Reply.Sound, Reply.AllSound, LONG_MAX, strSubscribe]
  have hmessage : (Reply.array [.bulk strMessage, .bulk [99], .bulk [104]]).Sound := by
    simp [Reply.Sound, Reply.AllSound, LONG_MAX, strMessage]
  have hfits : Fits [strSubscribe, [99]] := ⟨by decide, by decide⟩
  simp only [oneMessage, List.forall_mem_cons, Action.Expected, Sent.Expected]
  exact ⟨trivial, trivial, ⟨hfits, hconfirm, fun _ => ⟨_, _, rfl⟩⟩,
    ⟨hmessage, rfl, _, _, rfl⟩, fun _ h => absurd h List.not_mem_nil⟩

theorem messages_delivered_message :
    ∃ s t : Connection ℕ ℕ, start [([99], 5, 7)] = some s ∧
      run step s (oneMessage ++ twoReads) = some t ∧
      t.client.delivered <+: t.sent.flatMap (Sent.calls (subscribers [([99], 5, 7)])) := by
  have hrun : ((start [([99], 5, 7)] : Option (Connection ℕ ℕ)).any
      (fun s => (run step s (oneMessage ++ twoReads)).isSome)) = true := by decide +kernel
  obtain ⟨s, hs, ht⟩ := (Option.any_eq_true _ _).mp hrun
  obtain ⟨t, ht⟩ := Option.isSome_iff_exists.mp ht
  have hok : ∀ a ∈ oneMessage ++ twoReads, a.Expected (mode [(([99] : Str), 5, 7)]) := by
    intro a ha
    rcases List.mem_append.mp ha with hmem | hmem
    · exact oneMessage_expected a hmem
    · simp only [twoReads, List.mem_cons, List.not_mem_nil, or_false] at hmem
      rcases hmem with rfl | rfl | rfl <;> trivial
  exact ⟨s, t, hs, ht, (messages_delivered (by decide) hs hok ht).1⟩

theorem reads_never_throw_message :
    ∃ s t : Connection ℕ ℕ, start [([99], 5, 7)] = some s ∧ run step s oneMessage = some t ∧
      (t.step (.read 33)).isSome := by
  have hrun : ((start [([99], 5, 7)] : Option (Connection ℕ ℕ)).any
      (fun s => (run step s oneMessage).any (fun t => 33 ≤ t.fromServer.length))) = true := by
    decide +kernel
  obtain ⟨s, hs, ht⟩ := (Option.any_eq_true _ _).mp hrun
  obtain ⟨t, ht, hsize⟩ := (Option.any_eq_true _ _).mp ht
  exact ⟨s, t, hs, ht, reads_never_throw (by decide) hs oneMessage_expected ht (by decide)
    (by decide) (of_decide_eq_true hsize)⟩

end Connection

end Redisclient

end WaiNative

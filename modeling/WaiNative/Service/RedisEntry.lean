import WaiNative.Redis.RedisClient
import WaiNative.Service.ProcessText
import Mathlib.Data.List.Flatten

/-!
# The API behind redis

`wator.webservice.wai.app`: one thread subscribes to `wai.train` and hands each message to
`processText`, another keeps a connection that publishes, and the answers go out on
`wai.train.response`. Each thread makes its connection anew when it has failed; an answer
that finds no connection to publish on is dropped.

- `requests_answered`: in every run, whatever the sockets and the failures do, each message
  is answered once and in order, in the language that the messages before it have left, and
  what redis is told to publish are some of the answers, in their order;
- `answers_published`: while no connection fails, these are all of them.
-/

namespace WaiNative

open Cxx Runs

namespace Redisclient

namespace RedisClientImpl

variable {K M : Type} {c c' : RedisClientImpl K M}

/-- A read calls no handler of a message: they are posted. -/
theorem doProcessMessage_delivered {v : RedisValue} (h : c.doProcessMessage v = some c') :
    c'.delivered = c.delivered := by
  have hcall : ∀ {c' : RedisClientImpl K M}, c.callHandler v = some c' →
      c'.delivered = c.delivered := by
    intro c' hcall
    unfold callHandler at hcall
    split at hcall
    · obtain rfl := Option.some.inj hcall
      rfl
    · cases hcall
  unfold doProcessMessage at h
  split at h
  · split at h
    · dsimp only at h
      split at h
      · obtain rfl := Option.some.inj h
        rfl
      split at h
      · exact hcall h
      · cases h
    · cases h
  · exact hcall h

theorem asyncRead_delivered : ∀ {n : ℕ} {c c' : RedisClientImpl K M} {s : Str},
    c.asyncRead n s = some c' → c'.delivered = c.delivered
  | 0, _, _, [], h | 0, _, _, _ :: _, h | _ + 1, _, _, [], h => by
      obtain rfl := Option.some.inj h
      rfl
  | n + 1, c, c', b :: bs, h => by
      rw [asyncRead] at h
      rcases hparse : c.redisParser.parseChunk (b :: bs) with f | ⟨_ | _, p, rest⟩
      · rw [hparse] at h
        cases h
      · rw [hparse] at h
        obtain ⟨d, hd, hrest⟩ := Option.bind_eq_some_iff.mp h
        have hprocess := doProcessMessage_delivered hd
        exact (asyncRead_delivered hrest).trans hprocess
      · rw [hparse] at h
        obtain rfl := Option.some.inj h
        rfl

end RedisClientImpl

/-- The message of a channel that redis publishes. -/
def Sent.message? (channel : Str) : Sent → Option Str
  | .push (.array [_, .bulk queue, .bulk payload]) =>
      if channel = queue then some payload else none
  | .push _ | .answer _ _ => none

def Sent.messages (channel : Str) (sent : List Sent) : List Str :=
  sent.filterMap (Sent.message? channel)

namespace Connection

variable {K M : Type} {s t : Connection K M}

/-- The message whose handler an action calls. -/
def message? (s : Connection K M) : Action K → Option Str
  | .runPosted =>
      match s.client.posted with
      | .message _ payload :: _ => some payload
      | _ => none
  | _ => none

/-- The messages whose handler has been called. -/
def heard (s : Connection K M) : List Str := s.client.delivered.map Prod.snd

/-- The commands that the client has been given. -/
def given (s : Connection K M) : List (List Str) := s.issued.map Prod.fst

/-- The commands that redis has taken. -/
def served (s : Connection K M) : List (List Str) := (Sent.answers s.sent).map Prod.fst

theorem step_heard {a : Action K} (h : s.step a = some t) :
    t.heard = s.heard ++ (s.message? a).toList := by
  unfold heard message?
  cases a with
  | command items handler =>
      obtain ⟨c, hc, rfl⟩ := Option.map_eq_some_iff.mp h
      obtain ⟨-, hc⟩ := Option.ite_none_right_eq_some.mp hc
      obtain rfl := Option.some.inj hc
      exact (List.append_nil _).symm
  | runPosted =>
      obtain ⟨c, hc, rfl⟩ := Option.map_eq_some_iff.mp h
      unfold RedisClientImpl.runPosted at hc
      split at hc
      · rename_i hposted
        obtain rfl := Option.some.inj hc
        rw [hposted]
        dsimp only
        unfold RedisClientImpl.doAsyncCommand RedisClientImpl.asyncWrite
        dsimp only
        split
        · split
          · exact (List.append_nil _).symm
          · exact (List.append_nil _).symm
        · exact (List.append_nil _).symm
      · rename_i hposted
        obtain rfl := Option.some.inj hc
        rw [hposted]
        exact List.map_append
      · cases hc
  | write size =>
      obtain rfl := Option.some.inj h
      exact (List.append_nil _).symm
  | written =>
      obtain ⟨-, ht⟩ := Option.ite_none_right_eq_some.mp h
      obtain rfl := Option.some.inj ht
      dsimp only
      unfold RedisClientImpl.asyncWrite
      split
      · exact (List.append_nil _).symm
      · exact (List.append_nil _).symm
  | serve items reply =>
      obtain ⟨-, ht⟩ := Option.ite_none_right_eq_some.mp h
      obtain rfl := Option.some.inj ht
      exact (List.append_nil _).symm
  | push reply =>
      obtain rfl := Option.some.inj h
      exact (List.append_nil _).symm
  | read size =>
      obtain ⟨-, ht⟩ := Option.ite_none_right_eq_some.mp h
      obtain ⟨c, hc, rfl⟩ := Option.map_eq_some_iff.mp ht
      dsimp only
      rw [RedisClientImpl.asyncRead_delivered hc]
      exact (List.append_nil _).symm

/-- The commands that have been given are those before the action, and its own. -/
theorem step_given {a : Action K} (h : s.step a = some t) :
    t.given = s.given ∨ ∃ items handler, a = .command items handler ∧
      t.given = s.given ++ [items] := by
  cases a with
  | command items handler =>
      obtain ⟨c, -, rfl⟩ := Option.map_eq_some_iff.mp h
      exact Or.inr ⟨items, handler, rfl, List.map_append⟩
  | runPosted =>
      obtain ⟨c, -, rfl⟩ := Option.map_eq_some_iff.mp h
      exact Or.inl rfl
  | write size =>
      obtain rfl := Option.some.inj h
      exact Or.inl rfl
  | written =>
      obtain ⟨-, ht⟩ := Option.ite_none_right_eq_some.mp h
      obtain rfl := Option.some.inj ht
      exact Or.inl rfl
  | serve items reply =>
      obtain ⟨-, ht⟩ := Option.ite_none_right_eq_some.mp h
      obtain rfl := Option.some.inj ht
      exact Or.inl rfl
  | push reply =>
      obtain rfl := Option.some.inj h
      exact Or.inl rfl
  | read size =>
      obtain ⟨-, ht⟩ := Option.ite_none_right_eq_some.mp h
      obtain ⟨c, -, rfl⟩ := Option.map_eq_some_iff.mp ht
      exact Or.inl rfl

theorem start_fresh {subscriptions : List (Str × M × K)} (h : start subscriptions = some s) :
    s.heard = [] ∧ s.given = subscriptions.map (fun entry => [strSubscribe, entry.1]) := by
  obtain ⟨msgHandlers, subscribeSeq, hall, -⟩ :=
    subscribe_all subscriptions (RedisClientImpl.connected : RedisClientImpl K M) (Or.inl rfl)
  rw [start, hall] at h
  obtain rfl := Option.some.inj h
  exact ⟨rfl, List.map_map⟩

/-- One subscriber gets the messages of its channel. -/
theorem calls_subscriber (channel : Str) (x : Sent) :
    (x.calls (subscribers [(channel, (), ())])).map Prod.snd = (x.message? channel).toList := by
  unfold Sent.calls
  split
  · rename_i queue payload
    by_cases heq : channel = queue
    · simp [subscribers, Sent.message?, heq]
    · simp [subscribers, Sent.message?, heq]
  · rename_i reply hother
    rw [Sent.message?]
    · rfl
    · exact hother
  · rfl

theorem calls_messages (channel : Str) : ∀ sent : List Sent,
    (sent.flatMap (Sent.calls (subscribers [(channel, (), ())]))).map Prod.snd =
      Sent.messages channel sent
  | [] => rfl
  | x :: sent => by
      rw [List.flatMap_cons, List.map_append, calls_messages channel sent, calls_subscriber,
        Sent.messages, Sent.messages, List.filterMap_cons]
      cases Sent.message? channel x with
      | none => rfl
      | some payload => rfl

variable {state : ClientState} {handlers : Str → List M}

/-- **A subscriber hears its channel**, in the order of the messages. -/
theorem Accounted.heard {c : Connection Unit Unit} {channel : Str}
    (h : c.Accounted state (subscribers [(channel, (), ())])) :
    c.heard <+: Sent.messages channel c.sent ∧
      (c.Quiet → c.heard = Sent.messages channel c.sent) := by
  obtain ⟨answered, pending, waiting, seen, coming, h⟩ := h
  have hdelivered := congrArg (List.map Prod.snd) h.delivered
  rw [List.map_append, calls_messages] at hdelivered
  have hsent : Sent.messages channel c.sent =
      Sent.messages channel seen ++ Sent.messages channel coming := by
    rw [h.sent, Sent.messages, List.filterMap_append]
    rfl
  refine ⟨?_, fun hquiet => ?_⟩
  · rw [hsent, ← hdelivered, List.append_assoc]
    exact List.prefix_append _ _
  · obtain ⟨-, -, rfl⟩ := h.quiet hquiet
    rw [hquiet.posted] at hdelivered
    rw [hsent, ← hdelivered]
    simp [Connection.heard, Posted.messages, Sent.messages]

/-- **Redis takes the commands in their order.** -/
theorem Accounted.served (h : s.Accounted state handlers) :
    s.served <+: s.given ∧ (s.Quiet → s.served = s.given) := by
  obtain ⟨answered, pending, waiting, seen, coming, h⟩ := h
  refine ⟨?_, fun hquiet => ?_⟩
  · rw [Connection.served, h.served, given, h.issued, List.map_append]
    exact List.prefix_append _ _
  · obtain ⟨rfl, rfl, -⟩ := h.quiet hquiet
    rw [Connection.served, h.served, given, h.issued, List.append_nil, List.append_nil]

end Connection

end Redisclient

/-! ## The service -/

open Redisclient

/-- `"wai.train"` -/
def strConstTrainChannelName : Str := [119, 97, 105, 46, 116, 114, 97, 105, 110]

/-- `"wai.train.response"` -/
def strConstTrainResponseChannelName : Str :=
  strConstTrainChannelName ++ [46, 114, 101, 115, 112, 111, 110, 115, 101]

/-- `"PUBLISH"` -/
def publishStr : Str := [80, 85, 66, 76, 73, 83, 72]

/-- `{"finnish":true}` -/
def emptyObj : Str :=
  [123, 34, 102, 105, 110, 110, 105, 115, 104, 34, 58, 116, 114, 117, 101, 125]

/-- `/autogen/wai/audio/`, the random name of the play list, `.m3u8` -/
def playListUrl (fileName : Str) : Str :=
  [47, 97, 117, 116, 111, 103, 101, 110, 47, 119, 97, 105, 47, 97, 117, 100, 105, 111, 47] ++
    fileName ++ [46, 109, 51, 117, 56]

/-- `dump` of the results and the address of the play list; a string is no longer than
`max_size`. -/
structure AnswerWriter where
  dump : List WaiResult → Str → Str
  short : ∀ resultTotal url, (dump resultTotal url).length ≤ LONG_MAX

namespace AnswerWriter

variable (w : AnswerWriter)

def text : WaiReply → Str → Str
  | .empty, _ => []
  | .wai resultTotal _, fileName => w.dump resultTotal (playListUrl fileName)

/-- What is published for a result of `processText`. -/
def answer (reply : WaiReply) (fileName : Str) : Str :=
  if w.text reply fileName = [] then emptyObj else w.text reply fileName

theorem answer_length (reply : WaiReply) (fileName : Str) :
    (w.answer reply fileName).length ≤ LONG_MAX := by
  unfold answer
  split
  · decide
  · cases reply with
    | empty => exact Nat.zero_le _
    | wai resultTotal m3u8 => exact w.short _ _

end AnswerWriter

/-- A message that has been handled, and whether its answer found a connection. -/
structure Exchange where
  request : Str
  fileName : Str
  answer : Str
  published : Bool

/-- The arguments of `publish`. -/
def Exchange.command (e : Exchange) : List Str :=
  [publishStr, strConstTrainResponseChannelName, e.answer]

abbrev RedisConnection := Connection Unit Unit

/-- The connections of the two threads, and the globals of the API. No function reads what
has been exchanged and the connections that have failed. -/
structure RedisEntry where
  subscriber : Option RedisConnection
  publisher : Option RedisConnection
  api : WaiApi
  exchanges : List Exchange
  subscribersGone : List RedisConnection
  publishersGone : List RedisConnection

namespace RedisEntry

inductive Act
  /-- the connection of `redis_sub_main` has been made -/
  | subscribe
  | subscriberLost
  /-- the connection of `redis_pub_main` has been made -/
  | connect
  | publisherLost
  /-- an action of the subscriber; the name is that of the play list, if a message is handled -/
  | subscriber (a : Action Unit) (fileName : Str)
  | publisher (a : Action Unit)

/-- What redis and the sockets do has the format for it. -/
def Act.Expected : Act → Prop
  | .subscriber a _ => a.Expected .Subscribed
  | .publisher a => a.Expected .Connected
  | .subscribe | .subscriberLost | .connect | .publisherLost => True

def subscribers (s : RedisEntry) : List RedisConnection :=
  s.subscribersGone ++ s.subscriber.toList

def publishers (s : RedisEntry) : List RedisConnection :=
  s.publishersGone ++ s.publisher.toList

/-- What `redis_sub_main` subscribes to. -/
def channels : List (Str × Unit × Unit) := [(strConstTrainChannelName, (), ())]

/-- Before the threads have connected. -/
def start (gZhiZi : ZhiZiObject) : RedisEntry := ⟨none, none, ⟨gZhiZi, strJa⟩, [], [], []⟩

section Steps

variable (lib : WaiLibraries) (w : AnswerWriter)

/-- `none` where `processText` is undefined. -/
def onMessageAPI (s : RedisEntry) (msg fileName : Str) : Option RedisEntry :=
  (lib.processText s.api msg).bind fun out =>
    let result := w.answer out.1 fileName
    let s := { s with api := out.2 }
    match s.publisher with
    | some publish =>
        (publish.step (.command [publishStr, strConstTrainResponseChannelName, result] ())).map
          fun publish => { s with
            publisher := some publish
            exchanges := s.exchanges ++ [⟨msg, fileName, result, true⟩] }
    | none => some { s with exchanges := s.exchanges ++ [⟨msg, fileName, result, false⟩] }

/-- The service publishes by `onMessageAPI` only. -/
def step (s : RedisEntry) : Act → Option RedisEntry
  | .subscribe =>
      if s.subscriber.isNone then
        (Connection.start channels).map (fun c => { s with subscriber := some c })
      else none
  | .subscriberLost =>
      s.subscriber.map (fun c =>
        { s with subscriber := none, subscribersGone := s.subscribersGone ++ [c] })
  | .connect =>
      if s.publisher.isNone then
        (Connection.start []).map (fun c => { s with publisher := some c })
      else none
  | .publisherLost =>
      s.publisher.map (fun c =>
        { s with publisher := none, publishersGone := s.publishersGone ++ [c] })
  | .subscriber a fileName =>
      s.subscriber.bind fun c => (c.step a).bind fun c' =>
        match c.message? a with
        | some msg => { s with subscriber := some c' }.onMessageAPI lib w msg fileName
        | none => some { s with subscriber := some c' }
  | .publisher (.command _ _) => none
  | .publisher a =>
      s.publisher.bind fun c => (c.step a).map (fun c => { s with publisher := some c })

/-- The language that the messages leave. -/
def langBehind (gLang : Str) (exchanges : List Exchange) : Str :=
  exchanges.foldl (fun gLang e => lib.langAfter e.request gLang) gLang

/-- Each answer is that of the dictionaries, in the language that the messages before it
have left. -/
def Answers (o : ZhiZiObject) : Str → List Exchange → Prop
  | _, [] => True
  | gLang, e :: exchanges =>
      (∃ reply, lib.answer o gLang e.request = some reply ∧
        e.answer = w.answer reply e.fileName) ∧
        Answers o (lib.langAfter e.request gLang) exchanges

theorem answers_concat {o : ZhiZiObject} {e : Exchange} {reply : WaiReply} :
    ∀ {exchanges : List Exchange} {gLang : Str}, Answers lib w o gLang exchanges →
      lib.answer o (langBehind lib gLang exchanges) e.request = some reply →
      e.answer = w.answer reply e.fileName → Answers lib w o gLang (exchanges ++ [e])
  | [], _, _, hreply, hanswer => ⟨⟨reply, hreply, hanswer⟩, trivial⟩
  | _ :: _, _, h, hreply, hanswer => ⟨h.1, answers_concat h.2 hreply hanswer⟩

end Steps

/-! ## Every run -/

section Runs

variable {lib : WaiLibraries} {w : AnswerWriter} {o : ZhiZiObject} {s t : RedisEntry}
variable {requests : List Str} {c : RedisConnection}

theorem subscribers_of_some (h : s.subscriber = some c) :
    s.subscribers = s.subscribersGone ++ [c] := by
  rw [subscribers, h]
  rfl

theorem publishers_of_some (h : s.publisher = some c) :
    s.publishers = s.publishersGone ++ [c] := by
  rw [publishers, h]
  rfl

theorem subscribers_of_none (h : s.subscriber = none) :
    s.subscribers = s.subscribersGone ++ [] := by
  rw [subscribers, h]
  rfl

theorem publishers_of_none (h : s.publisher = none) : s.publishers = s.publishersGone ++ [] := by
  rw [publishers, h]
  rfl

/-- The last connection is a new one, or the old one behind an action. -/
theorem forall_mem_replaced {P : RedisConnection → Prop} {gone last : List RedisConnection}
    (hall : ∀ d ∈ gone ++ last, P d) (hnew : P c) : ∀ d ∈ gone ++ [c], P d := by
  intro d hd
  rcases List.mem_append.mp hd with hgone | hlast
  · exact hall d (List.mem_append_left _ hgone)
  · rw [List.mem_singleton.mp hlast]
    exact hnew

/-- What an action of the subscriber does, with the message that it may bring. -/
theorem step_subscriber {a : Action Unit} {fileName : Str}
    (h : s.step lib w (.subscriber a fileName) = some t) :
    ∃ c c', s.subscriber = some c ∧ c.step a = some c' ∧
      ((c.message? a = none ∧ t = { s with subscriber := some c' }) ∨
        ∃ msg, c.message? a = some msg ∧
          { s with subscriber := some c' }.onMessageAPI lib w msg fileName = some t) := by
  obtain ⟨c, hc, h⟩ := Option.bind_eq_some_iff.mp h
  obtain ⟨c', hc', h⟩ := Option.bind_eq_some_iff.mp h
  refine ⟨c, c', hc, hc', ?_⟩
  cases hmsg : c.message? a with
  | none =>
      rw [hmsg] at h
      exact Or.inl ⟨rfl, (Option.some.inj h).symm⟩
  | some msg =>
      rw [hmsg] at h
      exact Or.inr ⟨msg, rfl, h⟩

/-- An action of the publisher gives no command. -/
theorem step_publisher {a : Action Unit} (h : s.step lib w (.publisher a) = some t) :
    ∃ c c', s.publisher = some c ∧ c.step a = some c' ∧ c'.given = c.given ∧
      t = { s with publisher := some c' } := by
  by_cases hcommand : ∃ items handler, a = .command items handler
  · obtain ⟨items, handler, rfl⟩ := hcommand
    cases h
  · rw [step] at h
    · obtain ⟨c, hc, h⟩ := Option.bind_eq_some_iff.mp h
      obtain ⟨c', hc', rfl⟩ := Option.map_eq_some_iff.mp h
      refine ⟨c, c', hc, hc', ?_, rfl⟩
      rcases Connection.step_given hc' with hsame | ⟨items, handler, heq, -⟩
      · exact hsame
      · exact absurd ⟨items, handler, heq⟩ hcommand
    · exact fun items handler heq => hcommand ⟨items, handler, heq⟩

/-- The exchanges are the answers to the messages that have been heard, and the commands
that have been given are those that were published. -/
structure Inv (lib : WaiLibraries) (w : AnswerWriter) (o : ZhiZiObject) (requests : List Str)
    (s : RedisEntry) : Prop where
  dictionaries : s.api.gZhiZi.dictionaries = o.dictionaries
  gLang : s.api.gLang = langBehind lib strJa s.exchanges
  answers : Answers lib w o strJa s.exchanges
  requests : s.exchanges.map Exchange.request = requests
  commands : (s.exchanges.filter Exchange.published).map Exchange.command =
    s.publishers.flatMap Connection.given
  subscribed : ∀ c ∈ s.subscribers, c.Accounted .Subscribed (Connection.subscribers channels)
  connected : ∀ c ∈ s.publishers, c.Accounted .Connected
    (Connection.subscribers ([] : List (Str × Unit × Unit)))

theorem fits_answer (reply : WaiReply) (fileName : Str) :
    Fits [publishStr, strConstTrainResponseChannelName, w.answer reply fileName] := by
  refine ⟨(by decide : 3 ≤ LONG_MAX), fun item hitem => ?_⟩
  rcases List.mem_cons.mp hitem with rfl | hitem
  · decide
  rcases List.mem_cons.mp hitem with rfl | hitem
  · decide
  · rw [List.mem_singleton.mp hitem]
    exact w.answer_length reply fileName

/-- **A message is handled**: it is answered, and the answer published or dropped. -/
theorem Inv.onMessageAPI (h : Inv lib w o requests s) {msg fileName : Str}
    (hstep : s.onMessageAPI lib w msg fileName = some t) :
    Inv lib w o (requests ++ [msg]) t ∧ t.subscribers = s.subscribers := by
  obtain ⟨g, hg, hspec⟩ := lib.processText_spec h.dictionaries msg
  obtain ⟨out, hout, hrest⟩ := Option.bind_eq_some_iff.mp hstep
  rw [hspec] at hout
  obtain ⟨reply, hreply, rfl⟩ := Option.map_eq_some_iff.mp hout
  rw [h.gLang] at hreply
  have hanswers : ∀ published, Answers lib w o strJa
      (s.exchanges ++ [⟨msg, fileName, w.answer reply fileName, published⟩]) :=
    fun published => answers_concat lib w h.answers hreply rfl
  have hlang : ∀ published, lib.langAfter msg s.api.gLang = langBehind lib strJa
      (s.exchanges ++ [⟨msg, fileName, w.answer reply fileName, published⟩]) := by
    intro published
    rw [langBehind, List.foldl_append, h.gLang]
    rfl
  have hrequests : ∀ published : Bool, List.map Exchange.request
      (s.exchanges ++ [⟨msg, fileName, w.answer reply fileName, published⟩]) =
        requests ++ [msg] := by
    intro published
    rw [List.map_append, h.requests]
    rfl
  dsimp only at hrest
  cases hpublisher : s.publisher with
  | none =>
      rw [hpublisher] at hrest
      obtain rfl := Option.some.inj hrest
      have hcommands := h.commands
      have hconnected := h.connected
      rw [publishers_of_none hpublisher] at hcommands hconnected
      refine ⟨⟨hg, hlang false, hanswers false, hrequests false, ?_, h.subscribed, hconnected⟩, rfl⟩
      rw [List.filter_append, List.map_append]
      exact (List.append_nil _).trans hcommands
  | some publish =>
      rw [hpublisher] at hrest
      obtain ⟨publish', hcommand, rfl⟩ := Option.map_eq_some_iff.mp hrest
      have hcommands := h.commands
      have hconnected := h.connected
      rw [publishers_of_some hpublisher] at hcommands hconnected
      have hgiven : publish'.given = publish.given ++
          [[publishStr, strConstTrainResponseChannelName, w.answer reply fileName]] := by
        obtain ⟨c, -, rfl⟩ := Option.map_eq_some_iff.mp hcommand
        exact List.map_append
      have hexpected : (Action.command [publishStr, strConstTrainResponseChannelName,
          w.answer reply fileName] ()).Expected .Connected := fits_answer reply fileName
      have hold : publish.Accounted .Connected (Connection.subscribers []) :=
        hconnected publish (List.mem_append_right _ List.mem_cons_self)
      refine ⟨⟨hg, hlang true, hanswers true, hrequests true, ?_, h.subscribed,
        forall_mem_replaced hconnected (hold.step hexpected hcommand)⟩, rfl⟩
      rw [List.flatMap_append, List.flatMap_singleton] at hcommands
      show ((s.exchanges ++ [_]).filter Exchange.published).map Exchange.command =
        (s.publishersGone ++ [publish']).flatMap _
      rw [List.filter_append, List.map_append, hcommands, List.flatMap_append,
        List.flatMap_singleton, hgiven, List.append_assoc]
      rfl

/-- The messages that have been heard are those of all connections. -/
def Served (lib : WaiLibraries) (w : AnswerWriter) (o : ZhiZiObject) (s : RedisEntry) : Prop :=
  Inv lib w o (s.subscribers.flatMap Connection.heard) s

theorem Served.subscribe (h : Served lib w o s) (hnone : s.subscriber = none)
    (hc : Connection.start channels = some c) : Served lib w o { s with subscriber := some c } := by
  have hfits : ∀ entry ∈ channels, entry.1.length ≤ LONG_MAX := by
    rw [channels, List.forall_mem_singleton]
    decide
  have hrequests := h.requests
  have hsubscribed := h.subscribed
  rw [subscribers_of_none hnone] at hrequests hsubscribed
  have hheard : (s.subscribersGone ++ [c]).flatMap Connection.heard =
      (s.subscribersGone ++ []).flatMap Connection.heard := by
    rw [List.flatMap_append, List.flatMap_append, List.flatMap_singleton,
      (Connection.start_fresh hc).1]
    rfl
  exact { h with
    requests := hrequests.trans hheard.symm
    subscribed := forall_mem_replaced hsubscribed (Connection.accounted_start hfits hc) }

theorem Served.connect (h : Served lib w o s) (hnone : s.publisher = none)
    (hc : Connection.start [] = some c) : Served lib w o { s with publisher := some c } := by
  have hcommands := h.commands
  have hconnected := h.connected
  rw [publishers_of_none hnone] at hcommands hconnected
  have hgiven : (s.publishersGone ++ [c]).flatMap Connection.given =
      (s.publishersGone ++ []).flatMap Connection.given := by
    rw [List.flatMap_append, List.flatMap_append, List.flatMap_singleton,
      (Connection.start_fresh hc).2]
    rfl
  have hfresh : c.Accounted .Connected (Connection.subscribers ([] : List (Str × Unit × Unit))) :=
    Connection.accounted_start (fun _ hentry => absurd hentry List.not_mem_nil) hc
  exact { h with
    commands := hcommands.trans hgiven.symm
    connected := forall_mem_replaced hconnected hfresh }

/-- **The subscriber acts**, and hands on the message that it may have brought. -/
theorem Served.subscriber (h : Served lib w o s) {a : Action Unit} {fileName : Str}
    (ha : a.Expected .Subscribed) (hstep : s.step lib w (.subscriber a fileName) = some t) :
    Served lib w o t := by
  obtain ⟨c, c', hc, hc', hcases⟩ := step_subscriber hstep
  have hsubscribed := h.subscribed
  rw [subscribers_of_some hc] at hsubscribed
  have hold := hsubscribed c (List.mem_append_right _ List.mem_cons_self)
  have hnext : Inv lib w o (s.subscribers.flatMap Connection.heard)
      { s with subscriber := some c' } :=
    { h with subscribed := forall_mem_replaced hsubscribed (hold.step ha hc') }
  have hheard : (s.subscribersGone ++ [c']).flatMap Connection.heard =
      s.subscribers.flatMap Connection.heard ++ (c.message? a).toList := by
    rw [subscribers_of_some hc, List.flatMap_append, List.flatMap_append, List.flatMap_singleton,
      List.flatMap_singleton, Connection.step_heard hc', List.append_assoc]
  rcases hcases with ⟨hmsg, rfl⟩ | ⟨msg, hmsg, hstep⟩
  · rw [hmsg, Option.toList_none, List.append_nil] at hheard
    rw [← hheard] at hnext
    exact hnext
  · obtain ⟨hinv, hsame⟩ := hnext.onMessageAPI hstep
    rw [hmsg, Option.toList_some] at hheard
    rw [← hheard] at hinv
    rw [Served, hsame]
    exact hinv

/-- **The publisher acts.** -/
theorem Served.publisher (h : Served lib w o s) {a : Action Unit}
    (ha : a.Expected .Connected) (hstep : s.step lib w (.publisher a) = some t) :
    Served lib w o t := by
  obtain ⟨c, c', hc, hc', hsame, rfl⟩ := step_publisher hstep
  have hcommands := h.commands
  have hconnected := h.connected
  rw [publishers_of_some hc] at hcommands hconnected
  have hold := hconnected c (List.mem_append_right _ List.mem_cons_self)
  have hgiven : (s.publishersGone ++ [c']).flatMap Connection.given =
      (s.publishersGone ++ [c]).flatMap Connection.given := by
    rw [List.flatMap_append, List.flatMap_append, List.flatMap_singleton,
      List.flatMap_singleton, hsame]
  exact { h with
    commands := hcommands.trans hgiven.symm
    connected := forall_mem_replaced hconnected (hold.step ha hc') }

theorem step_served {act : Act} (h : Served lib w o s) (hok : act.Expected)
    (hstep : s.step lib w act = some t) : Served lib w o t := by
  cases act with
  | subscribe =>
      obtain ⟨hnone, hstep⟩ := Option.ite_none_right_eq_some.mp hstep
      obtain ⟨c, hc, rfl⟩ := Option.map_eq_some_iff.mp hstep
      exact h.subscribe (Option.isNone_iff_eq_none.mp hnone) hc
  | connect =>
      obtain ⟨hnone, hstep⟩ := Option.ite_none_right_eq_some.mp hstep
      obtain ⟨c, hc, rfl⟩ := Option.map_eq_some_iff.mp hstep
      exact h.connect (Option.isNone_iff_eq_none.mp hnone) hc
  | subscriberLost =>
      obtain ⟨c, hc, rfl⟩ := Option.map_eq_some_iff.mp hstep
      have hsame := subscribers_of_some hc
      rw [← List.append_nil (s.subscribersGone ++ [c])] at hsame
      have hrequests := h.requests
      have hsubscribed := h.subscribed
      rw [hsame] at hrequests hsubscribed
      exact { h with
        requests := hrequests
        subscribed := hsubscribed }
  | publisherLost =>
      obtain ⟨c, hc, rfl⟩ := Option.map_eq_some_iff.mp hstep
      have hsame := publishers_of_some hc
      rw [← List.append_nil (s.publishersGone ++ [c])] at hsame
      have hcommands := h.commands
      have hconnected := h.connected
      rw [hsame] at hcommands hconnected
      exact { h with
        commands := hcommands
        connected := hconnected }
  | subscriber a fileName => exact h.subscriber hok hstep
  | publisher a => exact h.publisher hok hstep

theorem served_start : Served lib w o (start o) where
  dictionaries := rfl
  gLang := rfl
  answers := trivial
  requests := rfl
  commands := rfl
  subscribed := fun _ hc => absurd hc List.not_mem_nil
  connected := fun _ hc => absurd hc List.not_mem_nil

theorem served_of_run {acts : List Act} (hok : ∀ a ∈ acts, a.Expected)
    (hrun : run (step lib w) (start o) acts = some t) : Served lib w o t := by
  have hpreserved : ∀ (s : RedisEntry) (a : Act) (t : RedisEntry), Served lib w o s →
      a.Expected → s.step lib w a = some t → Served lib w o t :=
    fun _ _ _ hs ha hstep => step_served hs ha hstep
  exact invariant hpreserved served_start (along_of_forall (fun a ha _ => hok a ha)) hrun

/-- **Each message is answered once**, whatever the order of the threads, the pieces in which
the sockets bring the bytes, and the failures: the answers are those to the messages that the
connections have brought, in their order and each in the language that those before it have
left, and what redis is told to publish are some of them, in their order. A connection has
brought all messages of its channel when nothing is under way on it. -/
theorem requests_answered {acts : List Act} (hok : ∀ a ∈ acts, a.Expected)
    (hrun : run (step lib w) (start o) acts = some t) :
    t.exchanges.map Exchange.request = t.subscribers.flatMap Connection.heard ∧
      (∀ c ∈ t.subscribers, c.heard <+: Sent.messages strConstTrainChannelName c.sent ∧
        (c.Quiet → c.heard = Sent.messages strConstTrainChannelName c.sent)) ∧
      Answers lib w o strJa t.exchanges ∧
      List.Sublist (t.publishers.flatMap Connection.served) (t.exchanges.map Exchange.command) := by
  have h := served_of_run hok hrun
  refine ⟨h.requests, fun c hc => (h.subscribed c hc).heard, h.answers, ?_⟩
  have hserved : List.Sublist (t.publishers.flatMap Connection.served)
      (t.publishers.flatMap Connection.given) :=
    List.Sublist.flatMap_right _ (fun c hc => (h.connected c hc).served.1.sublist)
  rw [← h.commands] at hserved
  exact hserved.trans (List.filter_sublist.map Exchange.command)

/-- Both connections are made, a client names a language, -/
def oneRequest : List Act :=
  [.connect, .subscribe, .subscriber .runPosted [], .subscriber (.write 100) [],
    .subscriber .written [],
    .subscriber (.serve [strSubscribe, strConstTrainChannelName]
      (.array [.bulk strSubscribe, .bulk strConstTrainChannelName, .int 1])) [],
    .subscriber (.push (.array [.bulk strMessage, .bulk strConstTrainChannelName,
      .bulk (langRequest strCn)])) [],
    .subscriber (.read 40) [], .subscriber (.read 50) [], .subscriber .runPosted []]

/-- and the answer goes out. -/
def oneAnswer : List Act :=
  [.publisher .runPosted, .publisher (.write 30), .publisher (.write 100), .publisher .written,
    .publisher (.serve [publishStr, strConstTrainResponseChannelName, emptyObj] (.int 1)),
    .publisher (.read 4)]

/-- A writer for requests without a sentence. -/
def emptyWriter : AnswerWriter := ⟨fun _ _ => [], fun _ _ => Nat.zero_le _⟩

theorem oneRequest_expected : ∀ a ∈ oneRequest, a.Expected := by
  have hconfirm :
      (Reply.array [.bulk strSubscribe, .bulk strConstTrainChannelName, .int 1]).Sound := by
    simp [Reply.Sound, Reply.AllSound, LONG_MAX, strSubscribe, strConstTrainChannelName]
  have hmessage : (Reply.array [.bulk strMessage, .bulk strConstTrainChannelName,
      .bulk (langRequest strCn)]).Sound := by
    simp [Reply.Sound, Reply.AllSound, LONG_MAX, strMessage, strConstTrainChannelName, langRequest,
      strLang, strCn]
  have hfits : Fits [strSubscribe, strConstTrainChannelName] := ⟨by decide, by decide⟩
  simp only [oneRequest, List.forall_mem_cons, Act.Expected, Action.Expected, Sent.Expected]
  exact ⟨trivial, trivial, trivial, trivial, trivial, ⟨hfits, hconfirm, fun _ => ⟨_, _, rfl⟩⟩,
    ⟨hmessage, trivial, _, _, rfl⟩, trivial, trivial, trivial, fun _ h => absurd h List.not_mem_nil⟩

theorem oneAnswer_expected : ∀ a ∈ oneAnswer, a.Expected := by
  have hfits : Fits [publishStr, strConstTrainResponseChannelName, emptyObj] :=
    ⟨by decide, by decide⟩
  have hint : (Reply.int 1).Sound := by simp [Reply.Sound, LONG_MAX]
  simp only [oneAnswer, List.forall_mem_cons, Act.Expected, Action.Expected, Sent.Expected]
  exact ⟨trivial, trivial, trivial, trivial, ⟨hfits, hint, fun h => absurd h (by decide)⟩,
    trivial, fun _ h => absurd h List.not_mem_nil⟩

/-- The connection to publish on is lost before the message is handled. -/
def lostAnswer : List Act := oneRequest.dropLast ++ [.publisherLost, .subscriber .runPosted []]

theorem requests_answered_lost :
    ∃ t, run (step WaiLibraries.splitLibraries emptyWriter) (start WaiLibraries.splitZhiZi)
        lostAnswer = some t ∧
      t.exchanges.map Exchange.published = [false] ∧
      t.exchanges.map Exchange.request = t.subscribers.flatMap Connection.heard := by
  have hrun : ((run (step WaiLibraries.splitLibraries emptyWriter) (start WaiLibraries.splitZhiZi)
      lostAnswer).any (fun t => t.exchanges.map Exchange.published = [false])) = true := by
    decide +kernel
  obtain ⟨t, ht, hpublished⟩ := (Option.any_eq_true _ _).mp hrun
  have hok : ∀ a ∈ lostAnswer, a.Expected := by
    intro a ha
    rcases List.mem_append.mp ha with ha | ha
    · exact oneRequest_expected a (List.mem_of_mem_dropLast ha)
    · rcases List.mem_pair.mp ha with rfl | rfl
      · trivial
      · trivial
  exact ⟨t, ht, of_decide_eq_true hpublished, (requests_answered hok ht).1⟩

/-- No connection fails. -/
def Act.Keeps : Act → Prop
  | .subscriberLost | .publisherLost => False
  | .subscribe | .connect | .subscriber _ _ | .publisher _ => True

/-- There is one connection to publish on, and each answer has found it. -/
structure Kept (s : RedisEntry) : Prop where
  publisher : s.publisher.isSome
  subscribersGone : s.subscribersGone = []
  publishersGone : s.publishersGone = []
  published : ∀ e ∈ s.exchanges, e.published = true

theorem Kept.onMessageAPI (h : Kept s) {msg fileName : Str}
    (hstep : s.onMessageAPI lib w msg fileName = some t) : Kept t := by
  obtain ⟨out, -, hrest⟩ := Option.bind_eq_some_iff.mp hstep
  obtain ⟨publish, hpublish⟩ := Option.isSome_iff_exists.mp h.publisher
  dsimp only at hrest
  rw [hpublish] at hrest
  obtain ⟨publish', -, rfl⟩ := Option.map_eq_some_iff.mp hrest
  refine ⟨rfl, h.subscribersGone, h.publishersGone, fun e he => ?_⟩
  rcases List.mem_append.mp he with he | he
  · exact h.published e he
  · rw [List.mem_singleton.mp he]

theorem step_kept {act : Act} (h : Kept s) (hkeeps : act.Keeps)
    (hstep : s.step lib w act = some t) : Kept t := by
  cases act with
  | subscribe =>
      obtain ⟨-, hstep⟩ := Option.ite_none_right_eq_some.mp hstep
      obtain ⟨c, -, rfl⟩ := Option.map_eq_some_iff.mp hstep
      exact { h with }
  | connect =>
      obtain ⟨-, hstep⟩ := Option.ite_none_right_eq_some.mp hstep
      obtain ⟨c, -, rfl⟩ := Option.map_eq_some_iff.mp hstep
      exact { h with publisher := rfl }
  | subscriberLost => exact hkeeps.elim
  | publisherLost => exact hkeeps.elim
  | subscriber a fileName =>
      obtain ⟨c, c', -, -, ⟨-, rfl⟩ | ⟨msg, -, hstep⟩⟩ := step_subscriber hstep
      · exact { h with }
      · have hnext : Kept { s with subscriber := some c' } := { h with }
        exact hnext.onMessageAPI hstep
  | publisher a =>
      obtain ⟨c, c', -, -, -, rfl⟩ := step_publisher hstep
      exact { h with publisher := rfl }

/-- **While no connection fails**, redis publishes the answers to the first messages of the
channel, all in their order, and when nothing is under way the answers to all of them. -/
theorem answers_published {acts : List Act} (hok : ∀ a ∈ acts, a.Expected)
    (hkeeps : ∀ a ∈ acts, a.Keeps)
    (hrun : run (step lib w) (start o) (.connect :: acts) = some t) {c p : RedisConnection}
    (hsubscriber : t.subscriber = some c) (hpublisher : t.publisher = some p) :
    t.exchanges.map Exchange.request <+: Sent.messages strConstTrainChannelName c.sent ∧
      p.served <+: t.exchanges.map Exchange.command ∧ Answers lib w o strJa t.exchanges ∧
      (c.Quiet → p.Quiet →
        t.exchanges.map Exchange.request = Sent.messages strConstTrainChannelName c.sent ∧
          p.served = t.exchanges.map Exchange.command) := by
  have hexpected : ∀ a ∈ Act.connect :: acts, a.Expected := by
    intro a ha
    rcases List.mem_cons.mp ha with rfl | ha
    · trivial
    · exact hok a ha
  have h := served_of_run hexpected hrun
  obtain ⟨first, hfirst, hrest⟩ := run_cons_iff.mp hrun
  have hpreserved : ∀ (s : RedisEntry) (a : Act) (t : RedisEntry), Kept s → a.Keeps →
      s.step lib w a = some t → Kept t := fun _ _ _ hs ha hstep => step_kept hs ha hstep
  have hkept : Kept t := by
    refine invariant hpreserved ?_ (along_of_forall (fun a ha _ => hkeeps a ha)) hrest
    rw [step] at hfirst
    obtain ⟨-, hfirst⟩ := Option.ite_none_right_eq_some.mp hfirst
    obtain ⟨publish, -, rfl⟩ := Option.map_eq_some_iff.mp hfirst
    exact ⟨rfl, rfl, rfl, fun e he => absurd he List.not_mem_nil⟩
  have hsubscribers : t.subscribers = [c] := by
    rw [subscribers_of_some hsubscriber, hkept.subscribersGone]
    rfl
  have hpublishers : t.publishers = [p] := by
    rw [publishers_of_some hpublisher, hkept.publishersGone]
    rfl
  have hrequests : t.exchanges.map Exchange.request = c.heard := by
    rw [h.requests, hsubscribers, List.flatMap_singleton]
  have hgiven : p.given = t.exchanges.map Exchange.command := by
    have hcommands := h.commands
    rw [hpublishers, List.flatMap_singleton, List.filter_eq_self.mpr hkept.published] at hcommands
    exact hcommands.symm
  have hheard := (h.subscribed c (by rw [hsubscribers]; exact List.mem_cons_self)).heard
  have hserved := (h.connected p (by rw [hpublishers]; exact List.mem_cons_self)).served
  rw [← hrequests] at hheard
  rw [hgiven] at hserved
  exact ⟨hheard.1, hserved.1, h.answers, fun hc hp => ⟨hheard.2 hc, hserved.2 hp⟩⟩

theorem answers_published_language :
    ∃ t c p, run (step WaiLibraries.splitLibraries emptyWriter) (start WaiLibraries.splitZhiZi)
        (oneRequest ++ oneAnswer) = some t ∧
      t.subscriber = some c ∧ t.publisher = some p ∧ p.served.length = 1 ∧
      p.served <+: t.exchanges.map Exchange.command := by
  have hrun : ((run (step WaiLibraries.splitLibraries emptyWriter) (start WaiLibraries.splitZhiZi)
      (oneRequest ++ oneAnswer)).any (fun t =>
        t.subscriber.isSome && t.publisher.any (fun p => p.served.length = 1))) = true := by
    decide +kernel
  obtain ⟨t, ht, hboth⟩ := (Option.any_eq_true _ _).mp hrun
  obtain ⟨hsubscriber, hpublisher⟩ := (Bool.and_eq_true _ _).mp hboth
  obtain ⟨c, hc⟩ := Option.isSome_iff_exists.mp hsubscriber
  obtain ⟨p, hp, hserved⟩ := (Option.any_eq_true _ _).mp hpublisher
  have hall : ∀ a ∈ oneRequest ++ oneAnswer, a.Expected ∧ a.Keeps := by
    intro a ha
    refine ⟨?_, ?_⟩
    · rcases List.mem_append.mp ha with ha | ha
      · exact oneRequest_expected a ha
      · exact oneAnswer_expected a ha
    · revert a
      simp [oneRequest, oneAnswer, Act.Keeps]
  have hrest : ∀ a ∈ (oneRequest ++ oneAnswer).tail, a.Expected ∧ a.Keeps :=
    fun a ha => hall a (List.mem_of_mem_tail ha)
  exact ⟨t, c, p, ht, hc, hp, of_decide_eq_true hserved,
    (answers_published (fun a ha => (hrest a ha).1) (fun a ha => (hrest a ha).2) ht hc hp).2.1⟩

end Runs

end RedisEntry

end WaiNative

import WaiNative.Theory.Runs
import Mathlib.Data.List.Basic
import Mathlib.Logic.Function.Basic

/-!
# The crawler on redis

`WikiCrawler` of `ipfs-crawler`: any number of crawler processes share the done and the
todo keys of one redis server. Everything a crawler does is a callback: of a reply, of a
page, of `ipfs.files.add`, of a timer. Redis executes the commands of a connection in
their order and replies in this order; the connections interleave.

- `known_kept`: no page that is done or to do is ever forgotten, even when crawlers exit
  in the middle of a page and start again;
- `links_kept`: each link of a page that a crawler has parsed is done, to do, or on its way
  there, as long as the crawler does not exit;
- `rounds_answered`: every `runOnce` is answered by one call of its callback, and until
  then there is something that the crawler waits for.
-/

namespace WaiNative

open Runs

namespace IpfsCrawler

/-! ## Redis -/

/-- The done and the todo keys, by the hash behind their prefix, and the pages whose text
is stored. -/
structure Redis (U H : Type) where
  done : H → Option U
  todo : H → Option U
  texts : List U

inductive Command (U H : Type)
  | scan
  | getUrl (key : H)
  | setDone (url : U)
  | delTodo (url : U)
  | getDone (link : U)
  | getTodo (link : U)
  | setTodo (link : U)
  | setText (url : U)
deriving DecidableEq

/-- The replies that a callback handles. -/
inductive Reply (U H : Type)
  | scanned (keys : List H)
  | wikiUrl (url : Option U)
  | resultInDone (link : U) (found : Bool)
  | resultTodo (link : U) (found : Bool)
deriving DecidableEq

section Redis

variable {U H : Type} [DecidableEq H] (sha512 : U → H)

/-- A command and its reply. `SCAN` with a count of one returns some of the todo keys, or
none. -/
def Redis.exec (db : Redis U H) (scanned : List H) :
    Command U H → Option (Redis U H × Option (Reply U H))
  | .scan =>
      if ∀ key ∈ scanned, (db.todo key).isSome then some (db, some (.scanned scanned)) else none
  | .getUrl key => some (db, some (.wikiUrl (db.todo key)))
  | .setDone url =>
      some ({ db with done := Function.update db.done (sha512 url) (some url) }, none)
  | .delTodo url => some ({ db with todo := Function.update db.todo (sha512 url) none }, none)
  | .getDone link => some (db, some (.resultInDone link (db.done (sha512 link)).isSome))
  | .getTodo link => some (db, some (.resultTodo link (db.todo (sha512 link)).isSome))
  | .setTodo link =>
      some ({ db with todo := Function.update db.todo (sha512 link) (some link) }, none)
  | .setText url => some ({ db with texts := db.texts ++ [url] }, none)

/-- The page is done or to do. -/
def Redis.Known (db : Redis U H) (url : U) : Prop :=
  (db.done (sha512 url)).isSome ∨ (db.todo (sha512 url)).isSome

end Redis

/-! ## One crawler -/

/-- What has been sent and not executed, executed and not handled, the pages, texts and
timers under way, and the members of the object. `rounds` and `finished` count the calls
of `runOnce` and of its callback; `counter` is the local variable of `saveLinkedWiki_`. -/
structure Crawler (U H : Type) where
  commands : List (Command U H)
  replies : List (Reply U H)
  getting : List U
  adding : List U
  timeouts : ℕ
  first : Bool
  ipfsWritten : Bool
  todoWritten : Bool
  doneWritten : Bool
  counter : ℕ
  rounds : ℕ
  finished : ℕ
  exited : Bool

/-- What `request.get` calls back with. -/
inductive Response (U : Type)
  | invalidChar
  | error
  | status
  | page (hrefsLinks : List U)

/-- What `ipfs.files.add` calls back with. -/
inductive AddResult
  | error
  | empty
  | hash

namespace Crawler

variable {U H : Type}

/-- A process that has just been started; the first round is on a timer. -/
def start : Crawler U H := ⟨[], [], [], [], 1, true, false, false, false, 0, 0, 0, false⟩

def send (c : Crawler U H) (commands : List (Command U H)) : Crawler U H :=
  { c with commands := c.commands ++ commands }

def onApiError_ (c : Crawler U H) : Crawler U H := { c with exited := true }

def runOnce (c : Crawler U H) : Crawler U H :=
  { c.send [.scan] with
    timeouts := c.timeouts - 1
    ipfsWritten := false
    todoWritten := false
    doneWritten := false
    rounds := c.rounds + 1 }

/-- The callback `onFinnish`. -/
def cb (c : Crawler U H) : Crawler U H :=
  { c with timeouts := c.timeouts + 1, finished := c.finished + 1 }

/-- The test that follows each of the three writes. -/
def cbIfWritten (c : Crawler U H) : Crawler U H :=
  if c.ipfsWritten && c.todoWritten && c.doneWritten then c.cb else c

def getOneTitle_ (c : Crawler U H) (url : U) : Crawler U H :=
  { c with getting := c.getting ++ [url] }

def saveDoneWiki_ (c : Crawler U H) (url : U) : Crawler U H :=
  { c.send [.setDone url, .delTodo url] with doneWritten := true, adding := c.adding ++ [url] }

section Links

variable [DecidableEq U]

/-- The links, each at its first place. -/
def uniqueHrefsLinks (hrefsLinks : List U) : List U :=
  (hrefsLinks.zipIdx.filter (fun x => hrefsLinks.idxOf x.1 == x.2)).map Prod.fst

def saveLinkedWiki_ (c : Crawler U H) (hrefsLinks : List U) : Crawler U H :=
  let links := uniqueHrefsLinks hrefsLinks
  let c := { c.send (links.map .getDone) with counter := links.length }
  if links.length < 1 then { c with todoWritten := true }.cbIfWritten else c

/-- The callback of `request.get`. -/
def gotTitle (c : Crawler U H) (url : U) : Response U → Crawler U H
  | .invalidChar => { c with todoWritten := true }.saveDoneWiki_ url
  | .error => c.onApiError_
  | .status => { c with todoWritten := true }.saveDoneWiki_ url
  | .page hrefsLinks => (c.saveDoneWiki_ url).saveLinkedWiki_ hrefsLinks

end Links

/-- The callback of `ipfs.files.add`. -/
def added (c : Crawler U H) (url : U) : AddResult → Crawler U H
  | .error => c.onApiError_
  | .empty => c
  | .hash => { c.send [.setText url] with ipfsWritten := true }.cbIfWritten

/-- The callbacks of the commands. -/
def gotReply (seed : U) (c : Crawler U H) : Reply U H → Crawler U H
  | .scanned (key :: _) => c.send [.getUrl key]
  | .scanned [] =>
      if c.first then { c.getOneTitle_ seed with first := false } else c.cb
  | .wikiUrl (some url) => c.getOneTitle_ url
  | .wikiUrl none => c.onApiError_
  | .resultInDone link found =>
      let c := { c with counter := c.counter - 1 }
      let c := if found then c else c.send [.getTodo link]
      if c.counter = 0 then { c with todoWritten := true }.cbIfWritten else c
  | .resultTodo link found => if found then c else c.send [.setTodo link]

end Crawler

/-! ## The crawlers and the server -/

structure System (ι U H : Type) where
  redis : Redis U H
  crawlers : ι → Crawler U H

inductive Event (ι U H : Type)
  | exec (i : ι) (scanned : List H)
  | reply (i : ι)
  | title (i : ι) (place : ℕ) (response : Response U)
  | added (i : ι) (place : ℕ) (result : AddResult)
  | timeout (i : ι)
  | exit (i : ι)
  | restart (i : ι)

section Steps

variable {ι U H : Type} [DecidableEq ι] [DecidableEq U] [DecidableEq H]
variable (sha512 : U → H) (seed : U)

def System.set (s : System ι U H) (i : ι) (c : Crawler U H) : System ι U H :=
  { s with crawlers := Function.update s.crawlers i c }

/-- A callback of a process that runs. -/
def callback (c : Crawler U H) : Event ι U H → Option (Crawler U H)
  | .reply _ =>
      match c.replies with
      | reply :: replies => some ({ c with replies := replies }.gotReply seed reply)
      | [] => none
  | .title _ place response =>
      c.getting[place]?.map (fun url =>
        { c with getting := c.getting.eraseIdx place }.gotTitle url response)
  | .added _ place result =>
      c.adding[place]?.map (fun url =>
        { c with adding := c.adding.eraseIdx place }.added url result)
  | .timeout _ => if c.timeouts = 0 then none else some c.runOnce
  | .exit _ => some c.onApiError_
  | .exec _ _ => none
  | .restart _ => none

/-- Whose event it is. -/
def Event.owner : Event ι U H → ι
  | .exec i _ | .reply i | .title i _ _ | .added i _ _ | .timeout i | .exit i | .restart i => i

/-- Redis executes what was sent also when the process is gone; a new process starts
with nothing of the old one. -/
def step (s : System ι U H) (e : Event ι U H) : Option (System ι U H) :=
  let c := s.crawlers e.owner
  match e with
  | .exec i scanned =>
      match c.commands with
      | command :: commands =>
          (s.redis.exec sha512 scanned command).map (fun result =>
            { s.set i { c with
                commands := commands
                replies := c.replies ++ result.2.toList } with redis := result.1 })
      | [] => none
  | .restart i => some (s.set i .start)
  | e => if c.exited then none else (callback seed c e).map (s.set e.owner)

/-- Processes that have just been started, and the keys that earlier ones have left. -/
def start (redis : Redis U H) : System ι U H := ⟨redis, fun _ => .start⟩

end Steps

/-! ## What one event can do -/

section Effects

variable {ι U H : Type} [DecidableEq ι]

@[simp] theorem set_self (s : System ι U H) (i : ι) (c : Crawler U H) :
    (s.set i c).crawlers i = c :=
  Function.update_self ..

theorem set_of_ne (s : System ι U H) {i j : ι} (hne : j ≠ i) (c : Crawler U H) :
    (s.set i c).crawlers j = s.crawlers j :=
  Function.update_of_ne hne ..

variable [DecidableEq U] [DecidableEq H]
variable {sha512 : U → H} {seed : U} {s t : System ι U H} {e : Event ι U H}

/-- Redis executes a command, a process is started again, or one that runs has a
callback. -/
theorem step_cases (h : step sha512 seed s e = some t) :
    (∃ i scanned command commands redis reply, e = .exec i scanned ∧
      (s.crawlers i).commands = command :: commands ∧
      s.redis.exec sha512 scanned command = some (redis, reply) ∧
      t = { s.set i { s.crawlers i with
        commands := commands
        replies := (s.crawlers i).replies ++ reply.toList } with redis := redis }) ∨
    (∃ i, e = .restart i ∧ t = s.set i .start) ∨
    ((s.crawlers e.owner).exited = false ∧
      ∃ c, callback seed (s.crawlers e.owner) e = some c ∧ t = s.set e.owner c) := by
  cases e with
  | exec i scanned =>
      simp only [step, Event.owner] at h
      split at h
      · rename_i command commands hcommands
        obtain ⟨⟨redis, reply⟩, hexec, rfl⟩ := Option.map_eq_some_iff.mp h
        exact Or.inl ⟨i, scanned, command, commands, redis, reply, rfl, hcommands, hexec, rfl⟩
      · exact absurd h (by simp)
  | restart i => exact Or.inr (Or.inl ⟨i, rfl, (Option.some.inj h).symm⟩)
  | reply i | title i place response | added i place result | timeout i | exit i =>
      right; right
      cases hexited : (s.crawlers i).exited with
      | true => exact absurd h (by simp [step, Event.owner, hexited])
      | false =>
          simp only [step, Event.owner, hexited, Bool.false_eq_true, if_false] at h
          obtain ⟨c, hc, rfl⟩ := Option.map_eq_some_iff.mp h
          exact ⟨hexited, c, hc, rfl⟩

end Effects

/-! ### The commands of a callback -/

section Commands

variable {U H : Type}

/-- What has been executed or is sent before makes every page done that is taken from the
todo keys. -/
def Covered (done : U → Prop) : List (Command U H) → Prop
  | [] => True
  | .setDone url :: commands => Covered (fun u => u = url ∨ done u) commands
  | .delTodo url :: commands => done url ∧ Covered done commands
  | _ :: commands => Covered done commands

theorem Covered.mono {commands : List (Command U H)} : ∀ {done done' : U → Prop},
    (∀ u, done u → done' u) → Covered done commands → Covered done' commands := by
  induction commands with
  | nil => exact fun _ _ => trivial
  | cons command commands ih =>
      intro done done' hle h
      cases command with
      | setDone url => exact ih (fun u hu => hu.imp_right (hle u)) h
      | delTodo url => exact ⟨hle url h.1, ih hle h.2⟩
      | scan | getUrl _ | getDone _ | getTodo _ | setTodo _ | setText _ => exact ih hle h

theorem Covered.append {commands commands' : List (Command U H)} : ∀ {done : U → Prop},
    Covered done commands → Covered done commands' → Covered done (commands ++ commands') := by
  induction commands with
  | nil => exact fun _ h' => h'
  | cons command commands ih =>
      intro done h h'
      cases command with
      | setDone url => exact ih h (h'.mono (fun _ => Or.inr))
      | delTodo url => exact ⟨h.1, ih h.2 h'⟩
      | scan | getUrl _ | getDone _ | getTodo _ | setTodo _ | setText _ => exact ih h h'

theorem covered_getDone (done : U → Prop) : ∀ links : List U,
    Covered (H := H) done (links.map .getDone)
  | [] => trivial
  | _ :: links => covered_getDone done links

end Commands

namespace Crawler

variable {U H : Type} {c : Crawler U H}

@[simp] theorem cbIfWritten_commands : c.cbIfWritten.commands = c.commands := by
  unfold cbIfWritten
  split <;> rfl

@[simp] theorem cbIfWritten_replies : c.cbIfWritten.replies = c.replies := by
  unfold cbIfWritten
  split <;> rfl

theorem gotReply_resultInDone_commands (seed link : U) (found : Bool) :
    (c.gotReply seed (.resultInDone link found)).commands =
      c.commands ++ if found then [] else [.getTodo link] := by
  cases found <;> simp only [gotReply, send, Bool.false_eq_true, if_true, if_false,
    List.append_nil] <;> split <;> simp only [cbIfWritten_commands]

theorem gotReply_replies (seed : U) : ∀ reply, (c.gotReply seed reply).replies = c.replies
  | .scanned (_ :: _) | .wikiUrl (some _) | .wikiUrl none => rfl
  | .scanned [] => by simp only [gotReply]; split <;> rfl
  | .resultInDone _ found => by
      cases found <;> simp only [gotReply, send, Bool.false_eq_true, if_true, if_false] <;>
        split <;> simp only [cbIfWritten_replies]
  | .resultTodo _ found => by cases found <;> rfl

theorem added_replies (url : U) : ∀ result, (c.added url result).replies = c.replies
  | .error | .empty => rfl
  | .hash => cbIfWritten_replies

variable [DecidableEq U]

@[simp] theorem saveLinkedWiki_commands (hrefsLinks : List U) :
    (c.saveLinkedWiki_ hrefsLinks).commands =
      c.commands ++ (uniqueHrefsLinks hrefsLinks).map .getDone := by
  unfold saveLinkedWiki_
  dsimp only
  split
  · exact cbIfWritten_commands
  · rfl

@[simp] theorem saveLinkedWiki_replies (hrefsLinks : List U) :
    (c.saveLinkedWiki_ hrefsLinks).replies = c.replies := by
  unfold saveLinkedWiki_
  dsimp only
  split
  · exact cbIfWritten_replies
  · rfl

theorem gotTitle_replies (url : U) : ∀ response, (c.gotTitle url response).replies = c.replies
  | .invalidChar | .error | .status => rfl
  | .page hrefsLinks => saveLinkedWiki_replies hrefsLinks

end Crawler

/-! ## Nothing is forgotten -/

/-- What a callback adds to the commands. -/
def Sends {U H : Type} (c c' : Crawler U H) : Prop :=
  ∃ sent, c'.commands = c.commands ++ sent ∧ ∀ done, Covered done sent

section Sends

variable {ι U H : Type} {c c' c'' : Crawler U H}

theorem Sends.of_eq (h : c'.commands = c.commands) : Sends c c' :=
  ⟨[], by rw [h, List.append_nil], fun _ => trivial⟩

theorem Sends.trans : Sends c c' → Sends c' c'' → Sends c c'' := by
  rintro ⟨sent, hsent, hcov⟩ ⟨sent', hsent', hcov'⟩
  refine ⟨sent ++ sent', ?_, fun done => (hcov done).append (hcov' done)⟩
  rw [hsent', hsent, List.append_assoc]

theorem Sends.covered {done : U → Prop} : Sends c c' → Covered done c.commands →
    Covered done c'.commands := by
  rintro ⟨sent, hsent, hcov⟩ hc
  rw [hsent]
  exact hc.append (hcov done)

theorem Sends.saveDoneWiki_ (url : U) : Sends c (c.saveDoneWiki_ url) :=
  ⟨_, rfl, fun _ => ⟨Or.inl rfl, trivial⟩⟩

theorem Sends.added (url : U) : ∀ result, Sends c (c.added url result)
  | .error | .empty => Sends.of_eq rfl
  | .hash => ⟨[.setText url], Crawler.cbIfWritten_commands, fun _ => trivial⟩

theorem Sends.gotReply (seed : U) : ∀ reply, Sends c (c.gotReply seed reply)
  | .scanned (key :: _) => ⟨[.getUrl key], rfl, fun _ => trivial⟩
  | .scanned [] => Sends.of_eq (by simp only [Crawler.gotReply]; split <;> rfl)
  | .wikiUrl (some _) | .wikiUrl none => Sends.of_eq rfl
  | .resultInDone link found =>
      ⟨if found then [] else [.getTodo link], Crawler.gotReply_resultInDone_commands seed link found,
        fun done => by cases found <;> trivial⟩
  | .resultTodo link found => by
      cases found with
      | true => exact Sends.of_eq rfl
      | false => exact ⟨[.setTodo link], rfl, fun _ => trivial⟩

variable [DecidableEq U]

theorem Sends.saveLinkedWiki_ (hrefsLinks : List U) : Sends c (c.saveLinkedWiki_ hrefsLinks) :=
  ⟨_, c.saveLinkedWiki_commands hrefsLinks, fun done => covered_getDone done _⟩

theorem Sends.gotTitle (url : U) : ∀ response, Sends c (c.gotTitle url response)
  | .invalidChar | .status => Sends.saveDoneWiki_ url
  | .error => Sends.of_eq rfl
  | .page hrefsLinks => (Sends.saveDoneWiki_ url).trans (Sends.saveLinkedWiki_ hrefsLinks)

/-- **Every callback only adds commands, and none that takes a page from the todo keys
before it is done.** -/
theorem sends_of_callback {seed : U} {e : Event ι U H} (h : callback seed c e = some c') :
    Sends c c' := by
  cases e with
  | exec i scanned | restart i => exact absurd h (by simp [callback])
  | exit i => exact Sends.of_eq (by rw [← Option.some.inj h]; rfl)
  | timeout i =>
      simp only [callback] at h
      split at h
      · exact absurd h (by simp)
      · rw [← Option.some.inj h]
        exact ⟨[.scan], rfl, fun _ => trivial⟩
  | reply i =>
      simp only [callback] at h
      split at h
      · rw [← Option.some.inj h]
        exact Sends.trans (Sends.of_eq rfl) (Sends.gotReply seed _)
      · exact absurd h (by simp)
  | title i place response =>
      obtain ⟨url, -, rfl⟩ := Option.map_eq_some_iff.mp h
      exact Sends.trans (Sends.of_eq rfl) (Sends.gotTitle url response)
  | added i place result =>
      obtain ⟨url, -, rfl⟩ := Option.map_eq_some_iff.mp h
      exact Sends.trans (Sends.of_eq rfl) (Sends.added url result)

end Sends

section Kept

variable {ι U H : Type} {sha512 : U → H}

def Redis.Done (sha512 : U → H) (db : Redis U H) (url : U) : Prop := (db.done (sha512 url)).isSome

/-- The commands of every crawler, on what is done now. -/
def AllCovered (sha512 : U → H) (s : System ι U H) : Prop :=
  ∀ i, Covered (s.redis.Done sha512) (s.crawlers i).commands

theorem allCovered_start (redis : Redis U H) : AllCovered sha512 (start redis : System ι U H) :=
  fun _ => trivial

variable [DecidableEq H]

theorem Redis.isSome_update {f : H → Option U} {key key' : H} {url : U}
    (h : key' = key ∨ (f key').isSome) : (Function.update f key (some url) key').isSome := by
  rcases eq_or_ne key' key with rfl | hne
  · rw [Function.update_self]
    rfl
  · rw [Function.update_of_ne hne]
    exact h.resolve_left hne

/-- **What a covered command does to the pages**: those that are done stay so, none is
forgotten, and what follows it is covered by what is done then. -/
theorem Redis.exec_covered {db db' : Redis U H} {scanned : List H} {command : Command U H}
    {commands : List (Command U H)} {reply : Option (Reply U H)}
    (h : db.exec sha512 scanned command = some (db', reply))
    (hcov : Covered (db.Done sha512) (command :: commands)) :
    (∀ url, db.Done sha512 url → db'.Done sha512 url) ∧
      (∀ url, db.Known sha512 url → db'.Known sha512 url) ∧
      Covered (db'.Done sha512) commands := by
  cases command with
  | scan =>
      simp only [Redis.exec] at h
      split at h
      · obtain ⟨rfl, -⟩ := Prod.mk.inj (Option.some.inj h)
        exact ⟨fun _ => id, fun _ => id, hcov⟩
      · exact absurd h (by simp)
  | getUrl _ | getDone _ | getTodo _ | setText _ =>
      obtain ⟨rfl, -⟩ := Prod.mk.inj (Option.some.inj h)
      exact ⟨fun _ => id, fun _ => id, hcov⟩
  | setDone url =>
      obtain ⟨rfl, -⟩ := Prod.mk.inj (Option.some.inj h)
      have hdone : ∀ v, v = url ∨ db.Done sha512 v →
          (Function.update db.done (sha512 url) (some url) (sha512 v)).isSome :=
        fun v hv => Redis.isSome_update (hv.imp_left (congrArg sha512))
      exact ⟨fun v hv => hdone v (Or.inr hv),
        fun v hv => hv.imp_left (fun hv => hdone v (Or.inr hv)), Covered.mono hdone hcov⟩
  | delTodo url =>
      obtain ⟨rfl, -⟩ := Prod.mk.inj (Option.some.inj h)
      refine ⟨fun _ => id, fun v hv => ?_, hcov.2⟩
      rcases eq_or_ne (sha512 v) (sha512 url) with heq | hne
      · left
        have hurl : (db.done (sha512 url)).isSome := hcov.1
        simpa only [heq] using hurl
      · exact hv.imp_right (fun hv => by simpa only [Function.update_of_ne hne] using hv)
  | setTodo link =>
      obtain ⟨rfl, -⟩ := Prod.mk.inj (Option.some.inj h)
      exact ⟨fun _ => id, fun v hv => hv.imp_right (fun hv => Redis.isSome_update (Or.inr hv)),
        hcov⟩

variable [DecidableEq ι] [DecidableEq U]
variable {seed : U} {s t u : System ι U H} {e : Event ι U H}

/-- **One event keeps the commands covered, and every known page known.** -/
theorem AllCovered.step (hs : AllCovered sha512 s) (h : step sha512 seed s e = some t) :
    AllCovered sha512 t ∧ ∀ url, s.redis.Known sha512 url → t.redis.Known sha512 url := by
  obtain ⟨i, scanned, command, commands, redis, reply, -, hcommands, hexec, rfl⟩ |
    ⟨i, -, rfl⟩ | ⟨-, c, hc, rfl⟩ := step_cases h
  · obtain ⟨hdone, hknown, hcov⟩ := Redis.exec_covered hexec (hcommands ▸ hs i)
    refine ⟨fun j => ?_, hknown⟩
    rcases eq_or_ne j i with rfl | hne
    · show Covered _ ((s.set j _).crawlers j).commands
      rw [set_self]
      exact hcov
    · show Covered _ ((s.set i _).crawlers j).commands
      rw [set_of_ne s hne]
      exact (hs j).mono hdone
  · refine ⟨fun j => ?_, fun _ => id⟩
    rcases eq_or_ne j i with rfl | hne
    · rw [set_self]
      trivial
    · rw [set_of_ne s hne]
      exact hs j
  · refine ⟨fun j => ?_, fun _ => id⟩
    rcases eq_or_ne j e.owner with rfl | hne
    · rw [set_self]
      exact (sends_of_callback hc).covered (hs _)
    · rw [set_of_ne s hne]
      exact hs j

theorem allCovered_of_run {redis : Redis U H} {events : List (Event ι U H)}
    (h : run (step sha512 seed) (start redis) events = some t) : AllCovered sha512 t :=
  invariant_always (fun _ _ _ hs hstep => (hs.step hstep).1) (allCovered_start redis) h

/-- **A page that is done or to do stays so**, in every order of the commands, callbacks,
exits and starts of all crawlers. -/
theorem known_kept {redis : Redis U H} {pre post : List (Event ι U H)} {url : U}
    (hpre : run (step sha512 seed) (start redis) pre = some s)
    (hpost : run (step sha512 seed) s post = some t) (hurl : s.redis.Known sha512 url) :
    t.redis.Known sha512 url := by
  have hpreserved : ∀ (s : System ι U H) e t, AllCovered sha512 s ∧ s.redis.Known sha512 url →
      step sha512 seed s e = some t → AllCovered sha512 t ∧ t.redis.Known sha512 url :=
    fun s e t hs hstep => ⟨(hs.1.step hstep).1, (hs.1.step hstep).2 url hs.2⟩
  exact (invariant_always hpreserved ⟨allCovered_of_run hpre, hurl⟩ hpost).2

end Kept

/-- A crawler loads the seed, which has two links, -/
def seedLoaded : List (Event Bool ℕ ℕ) :=
  [.timeout false, .exec false [], .reply false]

/-- parses it, asks for the links -/
def seedParsed : List (Event Bool ℕ ℕ) :=
  List.replicate 4 (.exec false []) ++ [.reply false, .reply false, .exec false [],
    .exec false [], .reply false, .reply false, .exec false [], .exec false []]

/-- and another one, which takes up the first of them, exits between two commands. -/
def linkLoaded : List (Event Bool ℕ ℕ) :=
  [.timeout true, .exec true [1], .reply true, .exec true [], .reply true, .title true 0 .status,
    .exec true [], .exit true, .exec true [], .restart true]

def noKeys : Redis ℕ ℕ := ⟨fun _ => none, fun _ => none, []⟩

theorem known_kept_links :
    ∃ s t, run (step id 0) (start noKeys)
        (seedLoaded ++ .title false 0 (.page [1, 2, 1]) :: seedParsed) = some s ∧
      run (step id 0) s linkLoaded = some t ∧ t.redis.Known id 1 := by
  have hrun : ((run (step id 0) (start noKeys)
      (seedLoaded ++ .title false 0 (.page [1, 2, 1]) :: seedParsed)).any
      (fun s => (s.redis.todo 1).isSome && (run (step id 0) s linkLoaded).isSome)) = true := by
    decide +kernel
  obtain ⟨s, hs, hboth⟩ := (Option.any_eq_true _ _).mp hrun
  obtain ⟨hknown, hpost⟩ := (Bool.and_eq_true _ _).mp hboth
  obtain ⟨t, ht⟩ := Option.isSome_iff_exists.mp hpost
  exact ⟨s, t, hs, ht, known_kept hs ht (Or.inr hknown)⟩

/-! ## The links of a page -/

section About

variable {ι U H : Type} {seed : U} {e : Event ι U H}

/-- A command that makes the page known, or asks whether it has to be. -/
def Command.About (link : U) : Command U H → Prop
  | .setDone url => url = link
  | .getDone url | .getTodo url | .setTodo url => url = link
  | .scan | .getUrl _ | .delTodo _ | .setText _ => False

/-- A reply that the page is missing. -/
def Reply.About (link : U) : Reply U H → Prop
  | .resultInDone url found | .resultTodo url found => url = link ∧ found = false
  | .scanned _ | .wikiUrl _ => False

/-- A command or a reply about the page waits in the crawler. -/
def OnItsWay (link : U) (c : Crawler U H) : Prop :=
  (∃ command ∈ c.commands, command.About link) ∨ ∃ reply ∈ c.replies, reply.About link

theorem onItsWay_gotReply {c : Crawler U H} {reply : Reply U H} {link : U}
    (habout : reply.About link) : OnItsWay link (c.gotReply seed reply) := by
  cases reply with
  | scanned _ | wikiUrl _ => exact habout.elim
  | resultInDone url found =>
      obtain ⟨rfl, rfl⟩ := habout
      refine Or.inl ⟨.getTodo url, ?_, rfl⟩
      rw [Crawler.gotReply_resultInDone_commands]
      simp
  | resultTodo url found =>
      obtain ⟨rfl, rfl⟩ := habout
      exact Or.inl ⟨.setTodo url, List.mem_append_right _ (List.mem_singleton_self _), rfl⟩

theorem Redis.exec_about [DecidableEq H] {sha512 : U → H} {db db' : Redis U H} {scanned : List H} {command : Command U H}
    {reply : Option (Reply U H)} {link : U}
    (h : db.exec sha512 scanned command = some (db', reply)) (habout : command.About link) :
    db'.Known sha512 link ∨ ∃ r ∈ reply.toList, r.About link := by
  cases command with
  | scan | getUrl _ | delTodo _ | setText _ => exact habout.elim
  | setDone url =>
      obtain ⟨rfl, -⟩ := Prod.mk.inj (Option.some.inj h)
      exact Or.inl (Or.inl (Redis.isSome_update (Or.inl (congrArg sha512 habout.symm))))
  | setTodo url =>
      obtain ⟨rfl, -⟩ := Prod.mk.inj (Option.some.inj h)
      exact Or.inl (Or.inr (Redis.isSome_update (Or.inl (congrArg sha512 habout.symm))))
  | getDone url =>
      obtain rfl : url = link := habout
      obtain ⟨rfl, rfl⟩ := Prod.mk.inj (Option.some.inj h)
      cases hfound : (db.done (sha512 url)).isSome with
      | true => exact Or.inl (Or.inl hfound)
      | false => exact Or.inr ⟨_, List.mem_singleton_self _, rfl, rfl⟩
  | getTodo url =>
      obtain rfl : url = link := habout
      obtain ⟨rfl, rfl⟩ := Prod.mk.inj (Option.some.inj h)
      cases hfound : (db.todo (sha512 url)).isSome with
      | true => exact Or.inl (Or.inr hfound)
      | false => exact Or.inr ⟨_, List.mem_singleton_self _, rfl, rfl⟩

variable [DecidableEq U]

/-- The replies change only when one of them is handled. -/
theorem replies_of_callback {c c' : Crawler U H} (h : callback seed c e = some c') :
    c'.replies = c.replies ∨ ∃ reply replies, c.replies = reply :: replies ∧
      c' = { c with replies := replies }.gotReply seed reply ∧ c'.replies = replies := by
  cases e with
  | exec i scanned | restart i => exact absurd h (by simp [callback])
  | exit i => exact Or.inl (by rw [← Option.some.inj h]; rfl)
  | timeout i =>
      simp only [callback] at h
      split at h
      · exact absurd h (by simp)
      · exact Or.inl (by rw [← Option.some.inj h]; rfl)
  | reply i =>
      simp only [callback] at h
      split at h
      · rename_i reply replies hreplies
        obtain rfl := Option.some.inj h
        exact Or.inr ⟨reply, replies, hreplies, rfl, Crawler.gotReply_replies seed reply⟩
      · exact absurd h (by simp)
  | title i place response =>
      obtain ⟨url, -, rfl⟩ := Option.map_eq_some_iff.mp h
      exact Or.inl (Crawler.gotTitle_replies url response)
  | added i place result =>
      obtain ⟨url, -, rfl⟩ := Option.map_eq_some_iff.mp h
      exact Or.inl (Crawler.added_replies url result)

theorem onItsWay_of_callback {c c' : Crawler U H} {link : U} (h : callback seed c e = some c')
    (hc : OnItsWay link c) : OnItsWay link c' := by
  rcases hc with ⟨command, hcommand, habout⟩ | ⟨reply, hreply, habout⟩
  · obtain ⟨sent, hsent, -⟩ := sends_of_callback h
    exact Or.inl ⟨command, hsent ▸ List.mem_append_left _ hcommand, habout⟩
  · rcases replies_of_callback h with hsame | ⟨head, replies, hreplies, hgot, hrest⟩
    · exact Or.inr ⟨reply, hsame ▸ hreply, habout⟩
    · rcases List.mem_cons.mp (hreplies ▸ hreply) with rfl | hmem
      · rw [hgot]
        exact onItsWay_gotReply habout
      · exact Or.inr ⟨reply, hrest ▸ hmem, habout⟩

theorem mem_uniqueHrefsLinks {hrefsLinks : List U} {link : U} :
    link ∈ Crawler.uniqueHrefsLinks hrefsLinks ↔ link ∈ hrefsLinks := by
  simp only [Crawler.uniqueHrefsLinks, List.mem_map, List.mem_filter, beq_iff_eq]
  constructor
  · rintro ⟨⟨link, place⟩, ⟨hmem, -⟩, rfl⟩
    exact (List.mem_zipIdx hmem).2.2 ▸ List.getElem_mem _
  · intro hmem
    have hlt : hrefsLinks.idxOf link < hrefsLinks.length := List.idxOf_lt_length_iff.mpr hmem
    refine ⟨(link, hrefsLinks.idxOf link), ⟨List.mem_zipIdx_iff_getElem?.mpr ?_, rfl⟩, rfl⟩
    rw [List.getElem?_eq_getElem hlt, List.getElem_idxOf hlt]

/-- A page that has been parsed, and each of its links, is on its way. -/
theorem onItsWay_of_title {i : ι} {link : U} {c c' : Crawler U H} {place : ℕ} {url : U} {links : List U}
    (h : callback seed c (.title i place (.page links) : Event ι U H) = some c')
    (hurl : c.getting[place]? = some url) (hlink : link = url ∨ link ∈ links) :
    OnItsWay link c' := by
  simp only [callback, hurl, Option.map_some, Option.some.injEq] at h
  subst h
  left
  rw [Crawler.gotTitle, Crawler.saveLinkedWiki_commands]
  rcases hlink with rfl | hlink
  · refine ⟨.setDone link, List.mem_append_left _ (List.mem_append_right _ ?_), rfl⟩
    exact List.mem_cons_self
  · refine ⟨.getDone link, List.mem_append_right _ (List.mem_map.mpr ⟨link, ?_, rfl⟩), rfl⟩
    exact mem_uniqueHrefsLinks.mpr hlink

variable [DecidableEq ι] [DecidableEq H]
variable {sha512 : U → H} {s t u : System ι U H} {i : ι} {link : U}

/-- **One event**: a page that is on its way in a crawler stays so, or has arrived. -/
theorem onItsWay_step (h : step sha512 seed s e = some t)
    (hrestart : e ≠ .restart i) (hs : OnItsWay link (s.crawlers i)) :
    t.redis.Known sha512 link ∨ OnItsWay link (t.crawlers i) := by
  obtain ⟨j, scanned, command, commands, redis, reply, -, hcommands, hexec, rfl⟩ |
    ⟨j, rfl, rfl⟩ | ⟨-, c, hc, rfl⟩ := step_cases h
  · show redis.Known sha512 link ∨ OnItsWay link ((s.set j _).crawlers i)
    rcases eq_or_ne i j with rfl | hne
    · rw [set_self]
      rcases hs with ⟨command', hcommand, habout⟩ | ⟨reply', hreply, habout⟩
      · rcases List.mem_cons.mp (hcommands ▸ hcommand) with rfl | hmem
        · refine (Redis.exec_about hexec habout).imp_right (fun ⟨r, hr, hr'⟩ => ?_)
          exact Or.inr ⟨r, List.mem_append_right _ hr, hr'⟩
        · exact Or.inr (Or.inl ⟨command', hmem, habout⟩)
      · exact Or.inr (Or.inr ⟨reply', List.mem_append_left _ hreply, habout⟩)
    · rw [set_of_ne s hne]
      exact Or.inr hs
  · rw [set_of_ne s (fun heq => hrestart (congrArg _ heq.symm))]
    exact Or.inr hs
  · right
    rcases eq_or_ne i e.owner with rfl | hne
    · rw [set_self]
      exact onItsWay_of_callback hc hs
    · rw [set_of_ne s hne]
      exact hs

/-- **The page that a crawler has parsed, and each link of it, is done or to do or on its
way there**, whatever the other crawlers do in the meantime. -/
theorem links_kept {redis : Redis U H} {pre post : List (Event ι U H)} {place : ℕ} {url : U}
    {links : List U} (hpre : run (step sha512 seed) (start redis) pre = some s)
    (hurl : (s.crawlers i).getting[place]? = some url)
    (htitle : step sha512 seed s (.title i place (.page links)) = some t)
    (hpost : run (step sha512 seed) t post = some u) (hrestart : .restart i ∉ post)
    (hlink : link = url ∨ link ∈ links) :
    u.redis.Known sha512 link ∨ OnItsWay link (u.crawlers i) := by
  have htitled : OnItsWay link (t.crawlers i) := by
    obtain ⟨_, _, _, _, _, _, he, -⟩ | ⟨_, he, -⟩ | ⟨-, c, hc, rfl⟩ := step_cases htitle
    · exact absurd he (by simp)
    · exact absurd he (by simp)
    · show OnItsWay link ((s.set i c).crawlers i)
      rw [set_self]
      exact onItsWay_of_title hc hurl hlink
  have hpreserved : ∀ (s : System ι U H) e t,
      (AllCovered sha512 s ∧ (s.redis.Known sha512 link ∨ OnItsWay link (s.crawlers i))) →
      e ≠ .restart i → step sha512 seed s e = some t →
      AllCovered sha512 t ∧ (t.redis.Known sha512 link ∨ OnItsWay link (t.crawlers i)) := by
    intro s e t hs he hstep
    obtain ⟨hcovered, hknown⟩ := hs.1.step hstep
    exact ⟨hcovered, hs.2.elim (fun h => Or.inl (hknown link h)) (onItsWay_step hstep he)⟩
  have hok : Along (step sha512 seed) (fun _ e => e ≠ .restart i) t post :=
    along_of_forall (by rintro e he _ rfl; exact hrestart he)
  exact (invariant hpreserved ⟨((allCovered_of_run hpre).step htitle).1, Or.inr htitled⟩
    hok hpost).2

end About

theorem links_kept_links :
    ∃ s t u, run (step id 0) (start noKeys) seedLoaded = some s ∧
      step id 0 s (.title false 0 (.page [1, 2, 1])) = some t ∧
      run (step id 0) t (seedParsed ++ linkLoaded) = some u ∧
      (u.redis.Known id 2 ∨ OnItsWay 2 (u.crawlers false)) := by
  have hrun : ((run (step id 0) (start noKeys) seedLoaded).any (fun s =>
      (s.crawlers false).getting[0]? = some 0 ∧
        ((step id 0 s (.title false 0 (.page [1, 2, 1]))).any (fun t =>
          (run (step id 0) t (seedParsed ++ linkLoaded)).isSome)) = true)) = true := by
    decide +kernel
  obtain ⟨s, hs, hrest⟩ := (Option.any_eq_true _ _).mp hrun
  obtain ⟨hurl, hrest⟩ := of_decide_eq_true hrest
  obtain ⟨t, ht, hpost⟩ := (Option.any_eq_true _ _).mp hrest
  obtain ⟨u, hu⟩ := Option.isSome_iff_exists.mp hpost
  exact ⟨s, t, u, hs, ht, hu,
    links_kept hs hurl ht hu (by simp [seedParsed, linkLoaded]) (Or.inr (by decide))⟩

/-! ## Every round is answered -/

/-- What a round waits for before its page is parsed. -/
def Command.early {U H : Type} : Command U H → Bool
  | .scan | .getUrl _ => true
  | .setDone _ | .delTodo _ | .getDone _ | .getTodo _ | .setTodo _ | .setText _ => false

def Reply.early {U H : Type} : Reply U H → Bool
  | .scanned _ | .wikiUrl _ => true
  | .resultInDone _ _ | .resultTodo _ _ => false

/-- What `counter` counts. -/
def Command.asks {U H : Type} : Command U H → Bool
  | .getDone _ => true
  | .scan | .getUrl _ | .setDone _ | .delTodo _ | .getTodo _ | .setTodo _ | .setText _ => false

def Reply.asks {U H : Type} : Reply U H → Bool
  | .resultInDone _ _ => true
  | .scanned _ | .wikiUrl _ | .resultTodo _ _ => false

namespace Crawler

section Rounds

variable {U H : Type} {c c' : Crawler U H}

def early (c : Crawler U H) : ℕ :=
  c.commands.countP Command.early + c.replies.countP Reply.early + c.getting.length

def asks (c : Crawler U H) : ℕ :=
  c.commands.countP Command.asks + c.replies.countP Reply.asks

@[simp] theorem early_send (commands : List (Command U H)) :
    (c.send commands).early = c.early + commands.countP Command.early := by
  simp only [early, send, List.countP_append]
  omega

@[simp] theorem asks_send (commands : List (Command U H)) :
    (c.send commands).asks = c.asks + commands.countP Command.asks := by
  simp only [asks, send, List.countP_append]
  omega

@[simp] theorem early_saveDoneWiki_ (url : U) : (c.saveDoneWiki_ url).early = c.early :=
  c.early_send [.setDone url, .delTodo url]

@[simp] theorem asks_saveDoneWiki_ (url : U) : (c.saveDoneWiki_ url).asks = c.asks :=
  c.asks_send [.setDone url, .delTodo url]

theorem early_getDone (links : List U) :
    (c.send (links.map .getDone)).early = c.early := by
  simp [Function.comp_def, Command.early]

theorem asks_getDone (links : List U) :
    (c.send (links.map .getDone)).asks = c.asks + links.length := by
  simp [Function.comp_def, Command.asks]

/-- No round runs; the timer of the next one does. -/
structure Idle (c : Crawler U H) : Prop where
  rounds : c.rounds = c.finished
  timeouts : c.timeouts = 1
  early : c.early = 0
  asks : c.asks = 0
  adding : c.adding.length = 0

/-- A round runs and its page is not parsed; `n` things are waited for until then. -/
structure Loading (c : Crawler U H) (n : ℕ) : Prop where
  rounds : c.rounds = c.finished + 1
  timeouts : c.timeouts = 0
  early : c.early = n
  asks : c.asks = 0
  adding : c.adding.length = 0
  ipfs : c.ipfsWritten = false
  todo : c.todoWritten = false

/-- The page has been parsed: its text is being added or has been, and its links are being
asked for, `n` of them in the running callback, or have been. -/
structure Saving (c : Crawler U H) (n : ℕ) : Prop where
  rounds : c.rounds = c.finished + 1
  timeouts : c.timeouts = 0
  early : c.early = 0
  doneW : c.doneWritten = true
  adding : c.ipfsWritten = true ∧ c.adding.length = 0 ∨
    c.ipfsWritten = false ∧ c.adding.length = 1
  asks : c.todoWritten = true ∧ c.asks + n = 0 ∨
    c.todoWritten = false ∧ c.asks + n = c.counter ∧ 0 < c.counter

/-- Where a process is in its round. -/
inductive Phase (c : Crawler U H) : Prop
  | idle (idle : Idle c)
  | loading (loading : Loading c 1)
  | saving (saving : Saving c 0) (both : ¬ (c.ipfsWritten = true ∧ c.todoWritten = true))
  | exited (exited : c.exited = true)

theorem phase_start : (start : Crawler U H).Phase := .idle ⟨rfl, rfl, rfl, rfl, rfl⟩

/-- The test behind a write ends the round as soon as nothing is left of it. -/
theorem Saving.cbIfWritten (h : Saving c 0) : Phase c.cbIfWritten := by
  unfold Crawler.cbIfWritten
  split
  · rename_i hwritten
    simp only [Bool.and_eq_true] at hwritten
    obtain ⟨⟨hipfs, htodo⟩, -⟩ := hwritten
    refine .idle ⟨h.rounds, congrArg (· + 1) h.timeouts, h.early, ?_, ?_⟩
    · exact h.asks.elim (fun h => h.2) (fun h => absurd htodo (by simp [h.1]))
    · exact h.adding.elim (fun h => h.2) (fun h => absurd hipfs (by simp [h.1]))
  · rename_i hwritten
    exact .saving h (fun hboth => hwritten (by simp [hboth.1, hboth.2, h.doneW]))

theorem Idle.runOnce (h : Idle c) : Phase c.runOnce :=
  .loading ⟨congrArg (· + 1) h.rounds, congrArg (· - 1) h.timeouts,
    (c.early_send [.scan]).trans (congrArg (· + 1) h.early), (c.asks_send [.scan]).trans h.asks,
    h.adding, rfl, rfl⟩

theorem Loading.cb (h : Loading c 0) : Phase c.cb :=
  .idle ⟨h.rounds, congrArg (· + 1) h.timeouts, h.early, h.asks, h.adding⟩

theorem Loading.getOneTitle_ (h : Loading c 0) (url : U) : Loading (c.getOneTitle_ url) 1 where
  rounds := h.rounds
  timeouts := h.timeouts
  early := by
    have hearly := h.early
    simp only [Crawler.early, Crawler.getOneTitle_, List.length_append, List.length_singleton]
      at hearly ⊢
    omega
  asks := h.asks
  adding := h.adding
  ipfs := h.ipfs
  todo := h.todo

theorem Loading.scanned (h : Loading c 0) (seed : U) :
    ∀ keys : List H, Phase (c.gotReply seed (.scanned keys))
  | key :: _ =>
      .loading ⟨h.rounds, h.timeouts, (c.early_send [.getUrl key]).trans (congrArg (· + 1) h.early),
        (c.asks_send [.getUrl key]).trans h.asks, h.adding, h.ipfs, h.todo⟩
  | [] => by
      simp only [gotReply]
      split
      · exact .loading ⟨h.rounds, h.timeouts, (h.getOneTitle_ seed).early, h.asks, h.adding, h.ipfs,
          h.todo⟩
      · exact h.cb

theorem Loading.wikiUrl (h : Loading c 0) (seed : U) :
    ∀ url : Option U, Phase (c.gotReply seed (.wikiUrl url))
  | some url => .loading (h.getOneTitle_ url)
  | none => .exited rfl

/-- The page is done and its text is being added; it has no links, or none are wanted. -/
theorem Loading.saveDoneWiki_ (h : Loading c 0) (url : U) :
    Saving { c.saveDoneWiki_ url with todoWritten := true } 0 where
  rounds := h.rounds
  timeouts := h.timeouts
  early := (early_saveDoneWiki_ url).trans h.early
  doneW := rfl
  adding := Or.inr ⟨h.ipfs, by simp [Crawler.saveDoneWiki_, h.adding]⟩
  asks := Or.inl ⟨rfl, (asks_saveDoneWiki_ url).trans h.asks⟩

/-- A reply takes one link off the counter. -/
theorem Saving.counted (h : Saving c 1) (commands : List (Command U H))
    (hearly : commands.countP Command.early = 0) (hasks : commands.countP Command.asks = 0) :
    let c' := { c.send commands with counter := c.counter - 1 }
    Phase (if c'.counter = 0 then { c' with todoWritten := true }.cbIfWritten else c') := by
  intro c'
  obtain ⟨htodo, hcount, hpos⟩ := h.asks.resolve_left (by omega)
  have hasked : c'.asks = c.asks := (c.asks_send commands).trans (by rw [hasks, Nat.add_zero])
  have hearly' : c'.early = 0 :=
    (c.early_send commands).trans (by rw [hearly, Nat.add_zero, h.early])
  have hcounter : c'.counter = c.asks := by
    show c.counter - 1 = c.asks
    omega
  split
  · rename_i hzero
    exact Saving.cbIfWritten ⟨h.rounds, h.timeouts, hearly', h.doneW, h.adding,
      Or.inl ⟨rfl, hasked.trans (hcounter.symm.trans hzero)⟩⟩
  · rename_i hsome
    refine .saving ⟨h.rounds, h.timeouts, hearly', h.doneW, h.adding,
      Or.inr ⟨htodo, hasked.trans hcounter.symm, Nat.pos_of_ne_zero hsome⟩⟩ (fun hboth => ?_)
    exact absurd (hboth.2.symm.trans htodo) (by simp)

theorem Saving.resultInDone (h : Saving c 1) (seed link : U) :
    ∀ found, Phase (c.gotReply seed (.resultInDone link found))
  | true => by
      have hphase := h.counted [] rfl rfl
      simpa [gotReply, send] using hphase
  | false => by
      have hphase := h.counted [.getTodo link] rfl rfl
      simpa [gotReply, send] using hphase

theorem Idle.nothing (h : Idle c) : c.getting = [] ∧ c.adding = [] := by
  have hearly := h.early
  simp only [Crawler.early] at hearly
  exact ⟨List.length_eq_zero_iff.mp (by omega), List.length_eq_zero_iff.mp h.adding⟩

theorem Loading.something (h : Loading c 1) :
    c.commands ≠ [] ∨ c.replies ≠ [] ∨ c.getting ≠ [] ∨ c.adding ≠ [] := by
  by_contra hnothing
  simp only [not_or, not_not] at hnothing
  obtain ⟨hcommands, hreplies, hgetting, -⟩ := hnothing
  have hearly := h.early
  simp [Crawler.early, hcommands, hreplies, hgetting] at hearly

theorem Loading.length_le {n : ℕ} (h : Loading c n) :
    c.getting.length + c.adding.length ≤ n := by
  have hearly := h.early
  have hadding := h.adding
  simp only [Crawler.early] at hearly
  omega

theorem Saving.something (h : Saving c 0)
    (both : ¬ (c.ipfsWritten = true ∧ c.todoWritten = true)) :
    c.commands ≠ [] ∨ c.replies ≠ [] ∨ c.getting ≠ [] ∨ c.adding ≠ [] := by
  by_contra hnothing
  simp only [not_or, not_not] at hnothing
  obtain ⟨hcommands, hreplies, -, hadding⟩ := hnothing
  rcases h.adding with ⟨hipfs, -⟩ | ⟨-, hone⟩
  · rcases h.asks with ⟨htodo, -⟩ | ⟨-, hcount, hpos⟩
    · exact both ⟨hipfs, htodo⟩
    · simp [Crawler.asks, hcommands, hreplies] at hcount
      omega
  · simp [hadding] at hone

theorem Saving.length_le {n : ℕ} (h : Saving c n) :
    c.getting.length + c.adding.length ≤ 1 := by
  have hearly := h.early
  simp only [Crawler.early] at hearly
  rcases h.adding with ⟨-, h⟩ | ⟨-, h⟩ <;> omega

/-- The phase depends on how much is waited for, not on what it is. -/
theorem Phase.of_waits (h : Phase c) (commands : List (Command U H)) (replies : List (Reply U H))
    (hearly : { c with commands := commands, replies := replies }.early = c.early)
    (hasks : { c with commands := commands, replies := replies }.asks = c.asks) :
    Phase { c with commands := commands, replies := replies } := by
  cases h with
  | idle h =>
      exact .idle ⟨h.rounds, h.timeouts, hearly.trans h.early, hasks.trans h.asks, h.adding⟩
  | loading h =>
      exact .loading ⟨h.rounds, h.timeouts, hearly.trans h.early, hasks.trans h.asks, h.adding,
        h.ipfs, h.todo⟩
  | saving h both =>
      exact .saving ⟨h.rounds, h.timeouts, hearly.trans h.early, h.doneW, h.adding,
        hasks.symm ▸ h.asks⟩ both
  | exited h => exact .exited h

theorem Phase.resultTodo (h : Phase c) (seed link : U) :
    ∀ found, Phase (c.gotReply seed (.resultTodo link found))
  | true => h
  | false => h.of_waits _ _ (c.early_send [.setTodo link]) (c.asks_send [.setTodo link])

theorem Saving.added (h : Saving c 0) {place : ℕ} (hplace : place < c.adding.length) (url : U) :
    ∀ {result : AddResult}, result ≠ .empty →
      Phase ({ c with adding := c.adding.eraseIdx place }.added url result)
  | .error, _ => .exited rfl
  | .empty, hempty => absurd rfl hempty
  | .hash, _ => by
      refine Saving.cbIfWritten ⟨h.rounds, h.timeouts, ?_, h.doneW, Or.inl ⟨rfl, ?_⟩, ?_⟩
      · exact (c.early_send [.setText url]).trans h.early
      · show (c.adding.eraseIdx place).length = 0
        rw [List.length_eraseIdx_of_lt hplace]
        rcases h.adding with ⟨-, h⟩ | ⟨-, h⟩ <;> omega
      · exact h.asks.imp (And.imp_right (c.asks_send [.setText url]).trans)
          (And.imp_right (And.imp_left (c.asks_send [.setText url]).trans))

/-- A reply that is handled is no longer waited for. -/
theorem phase_gotReply {seed : U} {reply : Reply U H} {replies : List (Reply U H)} (h : Phase c)
    (hrunning : c.exited = false) (hreplies : c.replies = reply :: replies) :
    Phase ({ c with replies := replies }.gotReply seed reply) := by
  have hearly : c.early = { c with replies := replies }.early + if reply.early then 1 else 0 := by
    simp only [Crawler.early, hreplies, List.countP_cons]
    omega
  have hasks : c.asks = { c with replies := replies }.asks + if reply.asks then 1 else 0 := by
    simp only [Crawler.asks, hreplies, List.countP_cons]
    omega
  cases h with
  | exited h => exact absurd h (by simp [hrunning])
  | idle h =>
      cases reply with
      | scanned _ | wikiUrl _ => exact absurd (hearly.symm.trans h.early) (Nat.succ_ne_zero _)
      | resultInDone _ _ => exact absurd (hasks.symm.trans h.asks) (Nat.succ_ne_zero _)
      | resultTodo link found =>
          have hidle : Idle { c with replies := replies } :=
            ⟨h.rounds, h.timeouts, hearly.symm.trans h.early, hasks.symm.trans h.asks, h.adding⟩
          exact Phase.resultTodo (.idle hidle) seed link found
  | loading h =>
      have hloading : Loading { c with replies := replies } (1 - if reply.early then 1 else 0) :=
        ⟨h.rounds, h.timeouts, by have := h.early; omega, by have := h.asks; omega,
          h.adding, h.ipfs, h.todo⟩
      cases reply with
      | scanned keys => exact hloading.scanned seed keys
      | wikiUrl url => exact hloading.wikiUrl seed url
      | resultInDone _ _ => exact absurd (hasks.symm.trans h.asks) (Nat.succ_ne_zero _)
      | resultTodo link found => exact Phase.resultTodo (.loading hloading) seed link found
  | saving h both =>
      have hsaving : Saving { c with replies := replies } (if reply.asks then 1 else 0) :=
        ⟨h.rounds, h.timeouts, by have := h.early; omega, h.doneW, h.adding, hasks ▸ h.asks⟩
      cases reply with
      | scanned _ | wikiUrl _ => exact absurd (hearly.symm.trans h.early) (Nat.succ_ne_zero _)
      | resultInDone link found => exact hsaving.resultInDone seed link found
      | resultTodo link found => exact Phase.resultTodo (.saving hsaving both) seed link found

variable [DecidableEq U]

theorem Loading.gotTitle (h : Loading c 0) (url : U) :
    ∀ response, Phase (c.gotTitle url response)
  | .invalidChar | .status =>
      .saving (h.saveDoneWiki_ url) (fun hboth => absurd (hboth.1.symm.trans h.ipfs) (by simp))
  | .error => .exited rfl
  | .page hrefsLinks => by
      rw [Crawler.gotTitle, saveLinkedWiki_]
      have hsaved := h.saveDoneWiki_ url
      have hearly := (early_getDone (c := c.saveDoneWiki_ url) (uniqueHrefsLinks hrefsLinks)).trans
        hsaved.early
      have hasks := asks_getDone (c := c.saveDoneWiki_ url) (uniqueHrefsLinks hrefsLinks)
      have hnone : (c.saveDoneWiki_ url).asks = 0 := (asks_saveDoneWiki_ url).trans h.asks
      rw [hnone, Nat.zero_add] at hasks
      dsimp only
      split
      · rename_i hlt
        exact Saving.cbIfWritten ⟨h.rounds, h.timeouts, hearly, rfl, hsaved.adding,
          Or.inl ⟨rfl, hasks.trans (Nat.lt_one_iff.mp hlt)⟩⟩
      · rename_i hge
        exact .saving ⟨h.rounds, h.timeouts, hearly, rfl, hsaved.adding,
          Or.inr ⟨h.todo, hasks, Nat.pos_of_ne_zero (fun hzero => hge (Nat.lt_one_iff.mpr hzero))⟩⟩
          (fun hboth => absurd (hboth.1.symm.trans h.ipfs) (by simp))

end Rounds

end Crawler

section Rounds

variable {ι U H : Type} {seed : U} {e : Event ι U H}

/-- **Each callback keeps the phase**, but for the one of `ipfs.files.add` without a
result. -/
theorem phase_of_callback [DecidableEq U] {c c' : Crawler U H} (h : callback seed c e = some c')
    (hrunning : c.exited = false) (hempty : ∀ i place, e ≠ .added i place .empty)
    (hc : c.Phase) : c'.Phase := by
  cases e with
  | exec i scanned | restart i => exact absurd h (by simp [callback])
  | exit i =>
      obtain rfl := Option.some.inj h
      exact .exited rfl
  | timeout i =>
      simp only [callback] at h
      split at h
      · exact absurd h (by simp)
      · rename_i htimeout
        obtain rfl := Option.some.inj h
        cases hc with
        | idle hc => exact hc.runOnce
        | loading hc => exact absurd hc.timeouts htimeout
        | saving hc => exact absurd hc.timeouts htimeout
        | exited hc => exact absurd hc (by simp [hrunning])
  | reply i =>
      simp only [callback] at h
      split at h
      · rename_i reply replies hreplies
        obtain rfl := Option.some.inj h
        exact Crawler.phase_gotReply hc hrunning hreplies
      · exact absurd h (by simp)
  | title i place response =>
      obtain ⟨url, hurl, rfl⟩ := Option.map_eq_some_iff.mp h
      have hlt : place < c.getting.length := (List.getElem?_eq_some_iff.mp hurl).1
      cases hc with
      | loading hc =>
          have hearly : { c with getting := c.getting.eraseIdx place }.early = 0 := by
            have hone := hc.early
            simp only [Crawler.early, List.length_eraseIdx_of_lt hlt] at hone ⊢
            omega
          have hloading : Crawler.Loading { c with getting := c.getting.eraseIdx place } 0 :=
            ⟨hc.rounds, hc.timeouts, hearly, hc.asks, hc.adding, hc.ipfs, hc.todo⟩
          exact hloading.gotTitle url response
      | idle hc => exact absurd hc.early (by simp only [Crawler.early]; omega)
      | saving hc => exact absurd hc.early (by simp only [Crawler.early]; omega)
      | exited hc => exact absurd hc (by simp [hrunning])
  | added i place result =>
      obtain ⟨url, hurl, rfl⟩ := Option.map_eq_some_iff.mp h
      have hlt : place < c.adding.length := (List.getElem?_eq_some_iff.mp hurl).1
      cases hc with
      | saving hc =>
          exact hc.added hlt url (fun heq => hempty i place (by rw [heq]))
      | idle hc => exact absurd hc.adding (by omega)
      | loading hc => exact absurd hc.adding (by omega)
      | exited hc => exact absurd hc (by simp [hrunning])

variable [DecidableEq H] {sha512 : U → H}

/-- Redis only turns a command into its reply. -/
theorem exec_weights {db db' : Redis U H} {scanned : List H} {command : Command U H}
    {reply : Option (Reply U H)} (h : db.exec sha512 scanned command = some (db', reply)) :
    (reply.toList.countP Reply.early = if command.early then 1 else 0) ∧
      reply.toList.countP Reply.asks = if command.asks then 1 else 0 := by
  cases command with
  | scan =>
      simp only [Redis.exec] at h
      split at h
      · obtain ⟨-, rfl⟩ := Prod.mk.inj (Option.some.inj h)
        exact ⟨rfl, rfl⟩
      · exact absurd h (by simp)
  | getUrl _ | setDone _ | delTodo _ | getDone _ | getTodo _ | setTodo _ | setText _ =>
      obtain ⟨-, rfl⟩ := Prod.mk.inj (Option.some.inj h)
      exact ⟨rfl, rfl⟩

variable [DecidableEq ι] [DecidableEq U] {s t : System ι U H} {i : ι}

theorem phase_step (h : step sha512 seed s e = some t) (hempty : ∀ place, e ≠ .added i place .empty)
    (hs : (s.crawlers i).Phase) : (t.crawlers i).Phase := by
  obtain ⟨j, scanned, command, commands, redis, reply, -, hcommands, hexec, rfl⟩ |
    ⟨j, -, rfl⟩ | ⟨hrunning, c, hc, rfl⟩ := step_cases h
  · show Crawler.Phase ((s.set j _).crawlers i)
    rcases eq_or_ne i j with rfl | hne
    · rw [set_self]
      obtain ⟨hearly, hasks⟩ := exec_weights hexec
      apply hs.of_waits
      · simp only [Crawler.early, hcommands, List.countP_append, List.countP_cons]
        omega
      · simp only [Crawler.asks, hcommands, List.countP_append, List.countP_cons]
        omega
    · rw [set_of_ne s hne]
      exact hs
  · rcases eq_or_ne i j with rfl | hne
    · rw [set_self]
      exact Crawler.phase_start
    · rw [set_of_ne s hne]
      exact hs
  · rcases eq_or_ne i e.owner with rfl | hne
    · rw [set_self]
      refine phase_of_callback hc hrunning (fun j place heq => ?_) hs
      exact hempty place (heq ▸ rfl)
    · rw [set_of_ne s hne]
      exact hs

/-- **Every round is answered exactly once**: a process that runs has either answered all its
rounds, and one timer starts the next, or one round is open, and something of it is waited
for. It loads and stores one page at a time. -/
theorem rounds_answered {redis : Redis U H} {events : List (Event ι U H)}
    (h : run (step sha512 seed) (start redis) events = some t)
    (hempty : ∀ place, .added i place .empty ∉ events) (hrunning : (t.crawlers i).exited = false) :
    let c := t.crawlers i
    (c.rounds = c.finished ∧ c.timeouts = 1 ∧ c.getting = [] ∧ c.adding = [] ∨
      c.rounds = c.finished + 1 ∧ c.timeouts = 0 ∧
        (c.commands ≠ [] ∨ c.replies ≠ [] ∨ c.getting ≠ [] ∨ c.adding ≠ [])) ∧
      c.getting.length + c.adding.length ≤ 1 := by
  intro c
  have hpreserved : ∀ (s : System ι U H) e t, (s.crawlers i).Phase →
      (∀ place, e ≠ .added i place .empty) → step sha512 seed s e = some t →
      (t.crawlers i).Phase :=
    fun s e t hs he hstep => phase_step hstep he hs
  have hok : Along (step sha512 seed) (fun _ e => ∀ place, e ≠ .added i place .empty)
      (start redis) events :=
    along_of_forall (by rintro e he _ place rfl; exact hempty place he)
  have hphase : c.Phase := invariant hpreserved Crawler.phase_start hok h
  cases hphase with
  | exited h => exact absurd h (by simp [c, hrunning])
  | idle h =>
      obtain ⟨hgetting, hadding⟩ := h.nothing
      exact ⟨Or.inl ⟨h.rounds, h.timeouts, hgetting, hadding⟩, by simp [hgetting, hadding]⟩
  | loading h =>
      exact ⟨Or.inr ⟨h.rounds, h.timeouts, h.something⟩, h.length_le⟩
  | saving h both =>
      exact ⟨Or.inr ⟨h.rounds, h.timeouts, h.something both⟩, h.length_le⟩

end Rounds

theorem rounds_answered_seed :
    ∃ t, run (step id 0) (start noKeys) (seedLoaded ++ .title false 0 (.page [1, 2, 1]) ::
        seedParsed ++ [.added false 0 .hash]) = some t ∧
      (t.crawlers false).getting.length + (t.crawlers false).adding.length ≤ 1 := by
  have hrun : (run (step id 0) (start noKeys) (seedLoaded ++ .title false 0 (.page [1, 2, 1]) ::
      seedParsed ++ [.added false 0 .hash])).any (fun t => !(t.crawlers false).exited) = true := by
    decide +kernel
  obtain ⟨t, ht, hrunning⟩ := (Option.any_eq_true _ _).mp hrun
  exact ⟨t, ht, (rounds_answered ht (by simp [seedLoaded, seedParsed])
    (by simpa using hrunning)).2⟩

end IpfsCrawler

end WaiNative

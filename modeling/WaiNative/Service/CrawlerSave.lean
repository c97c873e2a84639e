import WaiNative.Storage.UrlStorage
import WaiNative.Training.Records
import WaiNative.Segment.Hints
import WaiNative.Theory.Runs

/-!
# Saving what a crawler found

The crawler server has two threads. One receives messages (`processText2`): it puts
each into the slot `gTask`, raises `gNewTaskFlag` and notifies. The other
(`url_crawler_write_main`) waits, reads the slot and stores the URLs of the message;
it stops early when the flag is up. A step of a thread ends with its next access to
what they share, the slot, the flag and the condition variable.

A notify is only seen by a waiting thread, and the slot holds one message. So a
message that comes while another one is under way may be lost (`message_lost`). One
whose notify finds the thread waiting, and which is not followed by another, has its
effect (`messages_stored`).
-/

namespace WaiNative

open Cxx Runs

/-! ## The stores -/

structure CrawlerStores where
  gCNMasterStorage : URLStorage
  gCNTodoStorage : URLStorage
  gJAMasterStorage : URLStorage
  gJATodoStorage : URLStorage

namespace CrawlerStores

section Stores

variable (sha1 : Str → Str)

def markCrawler (url : Str) (lang : Lang) (st : CrawlerStores) : CrawlerStores :=
  let doneName := sha1 url
  match lang with
  | .cn =>
      { st with
        gCNMasterStorage := st.gCNMasterStorage.add doneName url
        gCNTodoStorage := st.gCNTodoStorage.remove doneName }
  | .ja =>
      { st with
        gJAMasterStorage := st.gJAMasterStorage.add doneName url
        gJATodoStorage := st.gJATodoStorage.remove doneName }
  | .other => st

def newCrawler (url : Str) (lang : Lang) (st : CrawlerStores) : CrawlerStores :=
  let todoName := sha1 url
  match lang with
  | .cn =>
      if st.gCNMasterStorage.is_has todoName = false then
        { st with gCNTodoStorage := st.gCNTodoStorage.add todoName url }
      else st
  | .ja =>
      if st.gJAMasterStorage.is_has todoName = false then
        { st with gJATodoStorage := st.gJATodoStorage.add todoName url }
      else st
  | .other => st

/-- The stores of a language; there are none for other languages. -/
def master (st : CrawlerStores) : Lang → URLStorage
  | .cn => st.gCNMasterStorage
  | .ja => st.gJAMasterStorage
  | .other => ∅

def todo (st : CrawlerStores) : Lang → URLStorage
  | .cn => st.gCNTodoStorage
  | .ja => st.gJATodoStorage
  | .other => ∅

/-- The URL is in the master store. -/
def Mastered (st : CrawlerStores) (lang : Lang) (url : Str) : Prop :=
  (st.master lang).is_has (sha1 url) = true

/-- The URL is in the master store or in the todo store. -/
def Known (st : CrawlerStores) (lang : Lang) (url : Str) : Prop :=
  (st.master lang).is_has (sha1 url) = true ∨ (st.todo lang).is_has (sha1 url) = true

/-- No URL is lost between the two: what is mastered stays so, and what is known. -/
structure Grows (st st' : CrawlerStores) : Prop where
  mastered : ∀ {lang url}, st.Mastered sha1 lang url → st'.Mastered sha1 lang url
  known : ∀ {lang url}, st.Known sha1 lang url → st'.Known sha1 lang url

variable {sha1} {st st' st'' : CrawlerStores} {url : Str} {lang : Lang}

theorem Grows.refl (st : CrawlerStores) : Grows sha1 st st := ⟨id, id⟩

theorem Grows.trans (h : Grows sha1 st st') (h' : Grows sha1 st' st'') :
    Grows sha1 st st'' :=
  ⟨fun hm => h'.mastered (h.mastered hm), fun hk => h'.known (h.known hk)⟩

theorem master_markCrawler (lang' : Lang) :
    (markCrawler sha1 url lang st).master lang' =
      if lang = lang' ∧ lang ≠ .other then (st.master lang').add (sha1 url) url
      else st.master lang' := by
  cases lang <;> cases lang' <;> rfl

theorem todo_markCrawler (lang' : Lang) :
    (markCrawler sha1 url lang st).todo lang' =
      if lang = lang' ∧ lang ≠ .other then (st.todo lang').remove (sha1 url)
      else st.todo lang' := by
  cases lang <;> cases lang' <;> rfl

theorem markCrawler_mastered (hlang : lang ≠ .other) :
    (markCrawler sha1 url lang st).Mastered sha1 lang url := by
  unfold Mastered
  rw [master_markCrawler, if_pos ⟨rfl, hlang⟩]
  exact URLStorage.is_has_add_self

/-- What `markCrawler` takes from the todo store it puts into the master store. -/
theorem markCrawler_grows : Grows sha1 st (markCrawler sha1 url lang st) := by
  have hmaster : ∀ {lang' u}, (st.master lang').is_has (sha1 u) = true →
      ((markCrawler sha1 url lang st).master lang').is_has (sha1 u) = true := by
    intro lang' u h
    rw [master_markCrawler]
    split
    · rw [URLStorage.is_has_add, h, Bool.or_true]
    · exact h
  refine ⟨hmaster, ?_⟩
  rintro lang' u (h | h)
  · exact Or.inl (hmaster h)
  · unfold Known
    rw [master_markCrawler, todo_markCrawler]
    split
    · rw [URLStorage.is_has_add, URLStorage.is_has_remove, h, Bool.and_true]
      by_cases hsame : sha1 url = sha1 u
      · exact Or.inl (by rw [decide_eq_true hsame, Bool.true_or])
      · exact Or.inr (decide_eq_true hsame)
    · exact Or.inr h

theorem master_newCrawler (lang' : Lang) :
    (newCrawler sha1 url lang st).master lang' = st.master lang' := by
  cases lang
  case other => rfl
  all_goals
    dsimp only [newCrawler]
    split <;> cases lang' <;> rfl

theorem todo_newCrawler (lang' : Lang) :
    (newCrawler sha1 url lang st).todo lang' =
      if lang = lang' ∧ lang ≠ .other ∧ (st.master lang).is_has (sha1 url) = false then
        (st.todo lang').add (sha1 url) url
      else st.todo lang' := by
  cases lang
  case other => exact (if_neg (fun h => h.2.1 rfl)).symm
  all_goals
    dsimp only [newCrawler, master]
    split <;> rename_i h <;> cases lang' <;> simp [h, todo]

theorem newCrawler_known (hlang : lang ≠ .other) :
    (newCrawler sha1 url lang st).Known sha1 lang url := by
  unfold Known
  rw [master_newCrawler, todo_newCrawler]
  by_cases hmaster : (st.master lang).is_has (sha1 url) = true
  · exact Or.inl hmaster
  · rw [if_pos ⟨rfl, hlang, Bool.eq_false_iff.mpr hmaster⟩]
    exact Or.inr URLStorage.is_has_add_self

theorem newCrawler_grows : Grows sha1 st (newCrawler sha1 url lang st) := by
  refine ⟨fun hm => ?_, ?_⟩
  · unfold Mastered
    rw [master_newCrawler]
    exact hm
  · rintro lang' u (h | h)
    · refine Or.inl ?_
      rw [master_newCrawler]
      exact h
    · refine Or.inr ?_
      rw [todo_newCrawler]
      split
      · rw [URLStorage.is_has_add, h, Bool.or_true]
      · exact h

end Stores

end CrawlerStores

/-! ## The two threads -/

/-- The fields of a message that the server reads. -/
structure SaveMessage where
  lang : Option Lang
  url : Option Str
  crawler : Option Str
deriving DecidableEq

namespace SaveMessage

/-- The defaults of `processTextInSide`. -/
def langOf (configJson : SaveMessage) : Lang := configJson.lang.getD .other

def urlDone (configJson : SaveMessage) : Str := configJson.url.getD []

def list_string (configJson : SaveMessage) : List Str :=
  match configJson.crawler with
  | some crawler => split isDelim crawler
  | none => []

/-- A save message: a language with stores, a URL and what was found on its page. -/
structure WellFormed (m : SaveMessage) : Prop where
  lang : m.lang = some .cn ∨ m.lang = some .ja
  url : m.url.isSome
  crawler : m.crawler.isSome

theorem WellFormed.langOf_ne {m : SaveMessage} (h : m.WellFormed) :
    m.langOf ≠ .other := by
  unfold langOf
  obtain hcn | hja := h.lang
  · rw [hcn]
    exact fun habs => absurd habs (by decide)
  · rw [hja]
    exact fun habs => absurd habs (by decide)

end SaveMessage

/-- `pt::read_json`, which throws on what is no JSON; an empty text is none. -/
structure JsonReader where
  read_json : Str → Option SaveMessage
  read_json_nil : read_json [] = none

/-- Where `processText2` is: waiting for a message, behind writing the slot, behind
raising the flag. -/
inductive ServerPhase
  | idle
  | stored
  | flagged
deriving DecidableEq

/-- Where `url_crawler_write_main` is: before `wait`, in it, behind it, with a text
from the slot, in the loop of `processTextInSide`, behind that loop. -/
inductive WorkerPhase
  | top
  | waiting
  | woken
  | taken (text : Str)
  | storing (configJson : SaveMessage) (rest : List Str)
  | replying (configJson : SaveMessage) (rest : List Str)
deriving DecidableEq

inductive Reply
  | success
  | failure

structure CrawlerServer where
  stores : CrawlerStores
  gTask : Str
  gNewTaskFlag : Bool
  server : ServerPhase
  worker : WorkerPhase
  replies : List Reply

namespace CrawlerServer

open CrawlerStores

/-- A message arrives, a thread goes on, or a wait ends without a notify. -/
inductive Action
  | arrive (text : Str)
  | serve
  | work
  | spurious

section Steps

variable (r : JsonReader) (sha1 : Str → Str)

/-- The rest of `processText2`. -/
def serve (s : CrawlerServer) : Option CrawlerServer :=
  match s.server with
  | .idle => none
  | .stored => some { s with gNewTaskFlag := true, server := .flagged }
  | .flagged =>
      some { s with
        server := .idle
        worker := if s.worker = .waiting then .woken else s.worker }

/-- `processTextInSide` up to its loop. -/
def processTextInSide (text : Str) (s : CrawlerServer) : CrawlerServer :=
  match r.read_json text with
  | some configJson =>
      { s with
        stores := s.stores.markCrawler sha1 configJson.urlDone configJson.langOf
        worker := .storing configJson configJson.list_string }
  | none => { s with worker := .top, replies := s.replies ++ [.failure, .success] }

/-- One URL of the loop, and the look at the flag behind it. -/
def storeNext (configJson : SaveMessage) (url : Str) (rest : List Str)
    (s : CrawlerServer) : CrawlerServer :=
  { s with
    stores :=
      if url.isEmpty then s.stores
      else s.stores.newCrawler sha1 url configJson.langOf
    worker :=
      if s.gNewTaskFlag then .replying configJson rest else .storing configJson rest }

/-- `url_crawler_write_main`. -/
def work (s : CrawlerServer) : Option CrawlerServer :=
  match s.worker with
  | .top => some { s with worker := .waiting }
  | .waiting => none
  | .woken =>
      if s.gTask.isEmpty then some { s with worker := .top }
      else some { s with worker := .taken s.gTask }
  | .taken text => some (processTextInSide r sha1 text { s with gNewTaskFlag := false })
  | .storing configJson (url :: rest) => some (storeNext sha1 configJson url rest s)
  | .storing configJson [] => some { s with worker := .replying configJson [] }
  | .replying _ _ => some { s with worker := .top, replies := s.replies ++ [.success] }

def step (s : CrawlerServer) : Action → Option CrawlerServer
  | .arrive text =>
      match s.server with
      | .idle => some { s with gTask := text, server := .stored }
      | _ => none
  | .serve => serve s
  | .work => work r sha1 s
  | .spurious =>
      match s.worker with
      | .waiting => some { s with worker := .woken }
      | _ => none

/-- The server when it starts. -/
def start (stores : CrawlerStores) : CrawlerServer := ⟨stores, [], false, .idle, .top, []⟩

end Steps

/-! ## What a message leaves in the stores -/

section Effects

variable (r : JsonReader) (sha1 : Str → Str)

/-- The effect of a message: its URL is in the master store, and what was found on
its page in one of the two. -/
structure HasEffect (m : SaveMessage) (st : CrawlerStores) : Prop where
  done : st.Mastered sha1 m.langOf m.urlDone
  found : ∀ url ∈ m.list_string, url ≠ [] → st.Known sha1 m.langOf url

/-- The effect but for the URLs left over. -/
structure StoredUpTo (m : SaveMessage) (rest : List Str) (st : CrawlerStores) : Prop where
  done : st.Mastered sha1 m.langOf m.urlDone
  found : ∀ url ∈ m.list_string, url ≠ [] → url ∈ rest ∨ st.Known sha1 m.langOf url

variable {r sha1} {m : SaveMessage} {rest : List Str} {st st' : CrawlerStores}

theorem hasEffect_iff : HasEffect sha1 m st ↔ StoredUpTo sha1 m [] st := by
  constructor
  · rintro ⟨hdone, hfound⟩
    exact ⟨hdone, fun url hurl hne => Or.inr (hfound url hurl hne)⟩
  · rintro ⟨hdone, hfound⟩
    refine ⟨hdone, fun url hurl hne => ?_⟩
    obtain habs | hknown := hfound url hurl hne
    · exact absurd habs List.not_mem_nil
    · exact hknown

/-- An effect is never taken back. -/
theorem StoredUpTo.grows (h : StoredUpTo sha1 m rest st) (hst : Grows sha1 st st') :
    StoredUpTo sha1 m rest st' := by
  refine ⟨hst.mastered h.done, fun url hurl hne => ?_⟩
  exact (h.found url hurl hne).imp_right hst.known

theorem storedUpTo_start (hlang : m.langOf ≠ .other) :
    StoredUpTo sha1 m m.list_string (st.markCrawler sha1 m.urlDone m.langOf) :=
  ⟨markCrawler_mastered hlang, fun _ hurl _ => Or.inl hurl⟩

/-- A turn of the loop makes the URL known. -/
theorem storeNext_stored {s : CrawlerServer} {url : Str} (hlang : m.langOf ≠ .other)
    (h : StoredUpTo sha1 m (url :: rest) s.stores) :
    StoredUpTo sha1 m rest (storeNext sha1 m url rest s).stores := by
  have hgrows : Grows sha1 s.stores (storeNext sha1 m url rest s).stores := by
    dsimp only [storeNext]
    split
    · exact Grows.refl _
    · exact newCrawler_grows
  refine ⟨hgrows.mastered h.done, fun u hu hne => ?_⟩
  obtain hleft | hknown := h.found u hu hne
  · obtain rfl | hrest := List.mem_cons.mp hleft
    · right
      dsimp only [storeNext]
      rw [if_neg (by simpa using hne)]
      exact newCrawler_known hlang
    · exact Or.inl hrest
  · exact Or.inr (hgrows.known hknown)

/-- A step of the worker, or one that leaves the stores alone, at most raises the
flag and at most wakes the worker. -/
theorem step_cases {s t : CrawlerServer} {a : Action} (hstep : step r sha1 s a = some t) :
    (a = .work ∧ work r sha1 s = some t) ∨
    (t.stores = s.stores ∧ (s.gNewTaskFlag = true → t.gNewTaskFlag = true) ∧
      (t.worker = s.worker ∨ t.worker = .woken)) := by
  cases a with
  | arrive text =>
      simp only [step] at hstep
      split at hstep
      · obtain rfl := Option.some.inj hstep
        exact Or.inr ⟨rfl, id, Or.inl rfl⟩
      · exact absurd hstep (by simp)
  | serve =>
      simp only [step, serve] at hstep
      split at hstep
      · exact absurd hstep (by simp)
      · obtain rfl := Option.some.inj hstep
        exact Or.inr ⟨rfl, fun _ => rfl, Or.inl rfl⟩
      · obtain rfl := Option.some.inj hstep
        refine Or.inr ⟨rfl, id, ?_⟩
        show (if s.worker = .waiting then WorkerPhase.woken else s.worker) = s.worker ∨ _
        split
        · exact Or.inr rfl
        · exact Or.inl rfl
  | work => exact Or.inl ⟨rfl, hstep⟩
  | spurious =>
      simp only [step] at hstep
      split at hstep
      · obtain rfl := Option.some.inj hstep
        exact Or.inr ⟨rfl, id, Or.inr rfl⟩
      · exact absurd hstep (by simp)

/-- The worker takes up a text, or is in the loop for one, or does neither. -/
theorem work_cases {s t : CrawlerServer} (hwork : work r sha1 s = some t) :
    (∃ text, s.worker = .taken text ∧
      t = processTextInSide r sha1 text { s with gNewTaskFlag := false }) ∨
    (∃ m url rest, s.worker = .storing m (url :: rest) ∧ t = storeNext sha1 m url rest s) ∨
    (∃ m, s.worker = .storing m [] ∧ t = { s with worker := .replying m [] }) ∨
    (t.stores = s.stores ∧
      ∀ m rest, t.worker ≠ .storing m rest ∧ t.worker ≠ .replying m rest) := by
  unfold work at hwork
  split at hwork
  case h_1 =>
      obtain rfl := Option.some.inj hwork
      exact Or.inr (Or.inr (Or.inr ⟨rfl, fun _ _ => by simp⟩))
  case h_2 => exact absurd hwork (by simp)
  case h_3 =>
      refine Or.inr (Or.inr (Or.inr ?_))
      split at hwork
      · obtain rfl := Option.some.inj hwork
        exact ⟨rfl, fun _ _ => by simp⟩
      · obtain rfl := Option.some.inj hwork
        exact ⟨rfl, fun _ _ => by simp⟩
  case h_4 text hphase => exact Or.inl ⟨text, hphase, (Option.some.inj hwork).symm⟩
  case h_5 m url rest hphase =>
      exact Or.inr (Or.inl ⟨m, url, rest, hphase, (Option.some.inj hwork).symm⟩)
  case h_6 m hphase =>
      exact Or.inr (Or.inr (Or.inl ⟨m, hphase, (Option.some.inj hwork).symm⟩))
  case h_7 =>
      obtain rfl := Option.some.inj hwork
      exact Or.inr (Or.inr (Or.inr ⟨rfl, fun _ _ => by simp⟩))

theorem processTextInSide_grows {text : Str} {s : CrawlerServer} :
    Grows sha1 s.stores (processTextInSide r sha1 text s).stores := by
  unfold processTextInSide
  split
  · exact markCrawler_grows
  · exact Grows.refl _

theorem storeNext_grows {s : CrawlerServer} {url : Str} :
    Grows sha1 s.stores (storeNext sha1 m url rest s).stores := by
  dsimp only [storeNext]
  split
  · exact Grows.refl _
  · exact newCrawler_grows

/-- **No step loses a URL.** -/
theorem step_grows {s t : CrawlerServer} {a : Action} (hstep : step r sha1 s a = some t) :
    Grows sha1 s.stores t.stores := by
  obtain ⟨-, hwork⟩ | ⟨hst, -, -⟩ := step_cases hstep
  · obtain ⟨text, -, rfl⟩ | ⟨m, url, rest, -, rfl⟩ | ⟨m, -, rfl⟩ | ⟨hst, -⟩ := work_cases hwork
    · exact processTextInSide_grows (s := { s with gNewTaskFlag := false })
    · exact storeNext_grows
    · exact Grows.refl _
    · rw [hst]
      exact Grows.refl _
  · rw [hst]
    exact Grows.refl _

theorem run_grows {s t : CrawlerServer} {acts : List Action}
    (hrun : run (step r sha1) s acts = some t) : Grows sha1 s.stores t.stores := by
  have hpreserved : ∀ u a v, Grows sha1 s.stores u.stores → step r sha1 u a = some v →
      Grows sha1 s.stores v.stores :=
    fun _ _ _ hu hstep => hu.trans (step_grows hstep)
  exact invariant_always hpreserved (Grows.refl _) hrun

end Effects

/-! ## A message taken up -/

section TakenUp

variable {r : JsonReader} {sha1 : Str → Str} {s t : CrawlerServer} {a : Action}

/-- While the worker is in the loop, and behind it, the message is stored but for
the rest of its list; it leaves a rest behind only when the flag is up. -/
structure InLoop (sha1 : Str → Str) (s : CrawlerServer) : Prop where
  storing : ∀ m rest, s.worker = .storing m rest → m.langOf ≠ .other →
    StoredUpTo sha1 m rest s.stores
  replying : ∀ m rest, s.worker = .replying m rest → m.langOf ≠ .other →
    StoredUpTo sha1 m rest s.stores ∧ (rest ≠ [] → s.gNewTaskFlag = true)

/-- Outside of the loop nothing is to be shown. -/
theorem inLoop_outside
    (h : ∀ m rest, s.worker ≠ .storing m rest ∧ s.worker ≠ .replying m rest) :
    InLoop sha1 s :=
  ⟨fun m rest hw => absurd hw (h m rest).1, fun m rest hw => absurd hw (h m rest).2⟩

theorem InLoop.work (h : InLoop sha1 s) (hwork : work r sha1 s = some t) :
    InLoop sha1 t := by
  obtain ⟨text, -, rfl⟩ | ⟨m, url, rest, hphase, rfl⟩ | ⟨m, hphase, rfl⟩ | ⟨-, hout⟩ :=
    work_cases hwork
  · unfold processTextInSide
    split
    · rename_i configJson _
      refine ⟨?_, fun m rest hw => absurd hw (by simp)⟩
      rintro m rest hw hlang
      obtain ⟨rfl, rfl⟩ := WorkerPhase.storing.inj hw
      exact storedUpTo_start hlang
    · exact inLoop_outside (fun _ _ => by simp)
  · have hnext : m.langOf ≠ .other →
        StoredUpTo sha1 m rest (storeNext sha1 m url rest s).stores :=
      fun hlang => storeNext_stored hlang (h.storing m _ hphase hlang)
    have hworker : (storeNext sha1 m url rest s).worker =
        if s.gNewTaskFlag then .replying m rest else .storing m rest := rfl
    by_cases hflag : s.gNewTaskFlag = true
    · rw [if_pos hflag] at hworker
      refine ⟨fun m' rest' hw => ?_, fun m' rest' hw hlang => ?_⟩
      · exact absurd (hworker.symm.trans hw) (by simp)
      · obtain ⟨rfl, rfl⟩ := WorkerPhase.replying.inj (hworker.symm.trans hw)
        exact ⟨hnext hlang, fun _ => hflag⟩
    · rw [if_neg hflag] at hworker
      refine ⟨fun m' rest' hw hlang => ?_, fun m' rest' hw => ?_⟩
      · obtain ⟨rfl, rfl⟩ := WorkerPhase.storing.inj (hworker.symm.trans hw)
        exact hnext hlang
      · exact absurd (hworker.symm.trans hw) (by simp)
  · refine ⟨fun m' rest' hw => absurd hw (by simp), fun m' rest' hw hlang => ?_⟩
    obtain ⟨rfl, rfl⟩ := WorkerPhase.replying.inj hw
    exact ⟨h.storing m [] hphase hlang, fun hne => absurd rfl hne⟩
  · exact inLoop_outside hout

theorem InLoop.step (h : InLoop sha1 s) (hstep : step r sha1 s a = some t) :
    InLoop sha1 t := by
  obtain ⟨-, hwork⟩ | ⟨hst, hflag, hsame | hwoken⟩ := step_cases hstep
  · exact h.work hwork
  · refine ⟨fun m rest hw hlang => ?_, fun m rest hw hlang => ?_⟩
    · rw [hst]
      exact h.storing m rest (hsame.symm.trans hw) hlang
    · rw [hst]
      obtain ⟨hstored, hup⟩ := h.replying m rest (hsame.symm.trans hw) hlang
      exact ⟨hstored, fun hne => hflag (hup hne)⟩
  · exact inLoop_outside (fun m rest => by simp [hwoken])

theorem inLoop_of_run {stores : CrawlerStores} {acts : List Action}
    (hrun : run (CrawlerServer.step r sha1) (start stores) acts = some s) : InLoop sha1 s :=
  invariant_always (fun _ _ _ h hstep => InLoop.step h hstep)
    (inLoop_outside (fun _ _ => by simp [start])) hrun

end TakenUp

/-! ## A message left alone -/

section LeftAlone

/-- No message arrives, and the notify finds the worker waiting. -/
def Undisturbed (s : CrawlerServer) : Action → Prop
  | .arrive _ => False
  | .serve => s.server = .flagged → s.worker = .waiting
  | .work | .spurious => True

instance (s : CrawlerServer) : (a : Action) → Decidable (Undisturbed s a)
  | .arrive _ => inferInstanceAs (Decidable False)
  | .serve => inferInstanceAs (Decidable (s.server = .flagged → s.worker = .waiting))
  | .work | .spurious => inferInstanceAs (Decidable True)

/-- The way of a message: in the slot, announced, taken from the slot, in the loop
with the flag down, and stored. -/
inductive Underway (sha1 : Str → Str) (text : Str) (m : SaveMessage) :
    CrawlerServer → Prop
  | slot {s} (hserver : s.server ≠ .idle) (htask : s.gTask = text) : Underway sha1 text m s
  | woken {s} (hserver : s.server = .idle) (hworker : s.worker = .woken)
      (htask : s.gTask = text) : Underway sha1 text m s
  | taken {s} (hserver : s.server = .idle) (hworker : s.worker = .taken text) :
      Underway sha1 text m s
  | storing {s} {rest : List Str} (hserver : s.server = .idle)
      (hworker : s.worker = .storing m rest) (hflag : s.gNewTaskFlag = false)
      (hstored : StoredUpTo sha1 m rest s.stores) : Underway sha1 text m s
  | stored {s} (hserver : s.server = .idle) (heffect : HasEffect sha1 m s.stores) :
      Underway sha1 text m s

variable {r : JsonReader} {sha1 : Str → Str} {s t : CrawlerServer} {a : Action}
variable {text : Str} {m : SaveMessage}

theorem HasEffect.grows {st st' : CrawlerStores} (h : HasEffect sha1 m st)
    (hst : Grows sha1 st st') : HasEffect sha1 m st' :=
  hasEffect_iff.mpr ((hasEffect_iff.mp h).grows hst)

/-- The worker does not touch the slot. -/
theorem work_slot (hwork : work r sha1 s = some t) :
    t.server = s.server ∧ t.gTask = s.gTask := by
  unfold work at hwork
  split at hwork
  case h_2 => exact absurd hwork (by simp)
  case h_3 =>
      split at hwork
      · obtain rfl := Option.some.inj hwork
        exact ⟨rfl, rfl⟩
      · obtain rfl := Option.some.inj hwork
        exact ⟨rfl, rfl⟩
  case h_4 =>
      obtain rfl := Option.some.inj hwork
      unfold processTextInSide
      split
      · exact ⟨rfl, rfl⟩
      · exact ⟨rfl, rfl⟩
  all_goals
    obtain rfl := Option.some.inj hwork
    exact ⟨rfl, rfl⟩

/-- The way of a message goes on with each turn of the worker. -/
theorem Underway.work (h : Underway sha1 text m s) (hread : r.read_json text = some m)
    (hlang : m.langOf ≠ .other) (hwork : work r sha1 s = some t) :
    Underway sha1 text m t := by
  have hstep : step r sha1 s .work = some t := hwork
  obtain ⟨hsame, htask'⟩ := work_slot hwork
  cases h with
  | slot hserver htask => exact .slot (hsame ▸ hserver) (htask'.trans htask)
  | woken hserver hworker htask =>
      have hne : s.gTask.isEmpty = false := by
        rw [htask, List.isEmpty_eq_false_iff]
        rintro rfl
        exact absurd (r.read_json_nil.symm.trans hread) (by simp)
      simp only [CrawlerServer.work, hworker, hne] at hwork
      obtain rfl := Option.some.inj hwork
      exact .taken hserver (htask ▸ rfl)
  | taken hserver hworker =>
      simp only [CrawlerServer.work, hworker, processTextInSide, hread] at hwork
      obtain rfl := Option.some.inj hwork
      exact .storing hserver rfl rfl (storedUpTo_start hlang)
  | storing hserver hworker hflag hstored =>
      rename_i rest
      cases rest with
      | nil =>
          simp only [CrawlerServer.work, hworker] at hwork
          obtain rfl := Option.some.inj hwork
          exact .stored hserver (hasEffect_iff.mpr hstored)
      | cons url rest =>
          simp only [CrawlerServer.work, hworker] at hwork
          obtain rfl := Option.some.inj hwork
          refine .storing hserver ?_ hflag (storeNext_stored hlang hstored)
          show (if s.gNewTaskFlag = true then _ else _) = _
          rw [hflag]
          rfl
  | stored hserver heffect =>
      exact .stored (hsame.trans hserver) (heffect.grows (step_grows hstep))

/-- While the message is announced it stays in the slot; the notify finds the worker
waiting and wakes it. -/
theorem Underway.serve (h : Underway sha1 text m s)
    (hok : s.server = .flagged → s.worker = .waiting) (hserve : serve s = some t) :
    Underway sha1 text m t := by
  unfold CrawlerServer.serve at hserve
  cases h with
  | slot hserver htask =>
      split at hserve
      · exact absurd hserve (by simp)
      · obtain rfl := Option.some.inj hserve
        exact .slot (by simp) htask
      · rename_i hflagged
        obtain rfl := Option.some.inj hserve
        exact .woken rfl (if_pos (hok hflagged)) htask
  | woken hserver =>
      rw [hserver] at hserve
      exact absurd hserve (by simp)
  | taken hserver =>
      rw [hserver] at hserve
      exact absurd hserve (by simp)
  | storing hserver =>
      rw [hserver] at hserve
      exact absurd hserve (by simp)
  | stored hserver =>
      rw [hserver] at hserve
      exact absurd hserve (by simp)

/-- The way of a message goes on with each undisturbed step. -/
theorem Underway.step (h : Underway sha1 text m s) (hread : r.read_json text = some m)
    (hlang : m.langOf ≠ .other) (hok : Undisturbed s a)
    (hstep : step r sha1 s a = some t) : Underway sha1 text m t := by
  cases a with
  | arrive text => exact absurd hok id
  | serve => exact h.serve hok hstep
  | work => exact h.work hread hlang hstep
  | spurious =>
      simp only [CrawlerServer.step] at hstep
      split at hstep
      · rename_i hwaiting
        obtain rfl := Option.some.inj hstep
        cases h with
        | slot hserver htask => exact .slot hserver htask
        | woken _ hworker => exact absurd (hwaiting.symm.trans hworker) (by simp)
        | taken _ hworker => exact absurd (hwaiting.symm.trans hworker) (by simp)
        | storing _ hworker => exact absurd (hwaiting.symm.trans hworker) (by simp)
        | stored hserver heffect => exact .stored hserver heffect
      · exact absurd hstep (by simp)

/-- Nobody has anything left to do. -/
def AtRest (s : CrawlerServer) : Prop := s.server = .idle ∧ s.worker = .waiting

instance (s : CrawlerServer) : Decidable s.AtRest :=
  inferInstanceAs (Decidable (_ ∧ _))

/-- At rest, the way of a message has come to its end. -/
theorem Underway.at_rest (h : Underway sha1 text m s) (hrest : s.AtRest) :
    HasEffect sha1 m s.stores := by
  obtain ⟨hidle, hwaiting⟩ := hrest
  cases h with
  | slot hserver => exact absurd hidle hserver
  | woken _ hworker => exact absurd (hwaiting.symm.trans hworker) (by simp)
  | taken _ hworker => exact absurd (hwaiting.symm.trans hworker) (by simp)
  | storing _ hworker => exact absurd (hwaiting.symm.trans hworker) (by simp)
  | stored _ heffect => exact heffect

end LeftAlone

/-! ## Coming to rest -/

section Rest

variable (r : JsonReader)

/-- A step of one of the threads itself. -/
def Own : Action → Prop
  | .serve | .work => True
  | .arrive _ | .spurious => False

/-- How many steps a text takes once it is taken from the slot. -/
def textCost (text : Str) : ℕ :=
  match r.read_json text with
  | some configJson => configJson.list_string.length + 4
  | none => 2

def workerCost (s : CrawlerServer) : ℕ :=
  match s.worker with
  | .top => 1
  | .waiting => 0
  | .woken => textCost r s.gTask + 1
  | .taken text => textCost r text
  | .storing _ rest => rest.length + 3
  | .replying _ _ => 2

/-- How many steps the threads take at most: the notify may wake the worker for what
is in the slot. -/
def cost (s : CrawlerServer) : ℕ :=
  match s.server with
  | .idle => workerCost r s
  | .stored => workerCost r s + (textCost r s.gTask + 3)
  | .flagged => workerCost r s + (textCost r s.gTask + 2)

variable {r} {sha1 : Str → Str} {s t : CrawlerServer}

theorem textCost_pos (text : Str) : 2 ≤ textCost r text := by
  unfold textCost
  split
  · exact Nat.le_add_left 2 _
  · exact le_rfl

/-- Each turn of the worker brings it nearer to its next wait. -/
theorem work_cost (hwork : work r sha1 s = some t) : workerCost r t < workerCost r s := by
  unfold work at hwork
  split at hwork <;> rename_i hphase
  case h_1 =>
      obtain rfl := Option.some.inj hwork
      simp only [workerCost, hphase]
      exact Nat.one_pos
  case h_2 => exact absurd hwork (by simp)
  case h_3 =>
      have hpos := textCost_pos (r := r) s.gTask
      split at hwork
      · obtain rfl := Option.some.inj hwork
        simp only [workerCost, hphase]
        exact Nat.lt_succ_of_lt hpos
      · obtain rfl := Option.some.inj hwork
        simp only [workerCost, hphase]
        exact Nat.lt_succ_self _
  case h_4 text =>
      obtain rfl := Option.some.inj hwork
      simp only [workerCost, hphase, processTextInSide, textCost]
      cases r.read_json text with
      | some configJson => exact Nat.lt_succ_self _
      | none => exact Nat.one_lt_two
  case h_5 configJson url rest =>
      obtain rfl := Option.some.inj hwork
      simp only [workerCost, hphase, storeNext, List.length_cons]
      cases s.gNewTaskFlag with
      | true =>
          show 2 < rest.length + 1 + 3
          omega
      | false =>
          show rest.length + 3 < rest.length + 1 + 3
          omega
  case h_6 =>
      obtain rfl := Option.some.inj hwork
      simp only [workerCost, hphase]
      exact Nat.lt_succ_self 2
  case h_7 =>
      obtain rfl := Option.some.inj hwork
      simp only [workerCost, hphase]
      exact Nat.one_lt_two

theorem serve_cost (hserve : serve s = some t) : cost r t < cost r s := by
  unfold serve at hserve
  split at hserve <;> rename_i hphase
  case h_1 => exact absurd hserve (by simp)
  case h_2 =>
      obtain rfl := Option.some.inj hserve
      simp only [cost, hphase]
      exact Nat.lt_succ_self _
  case h_3 =>
      obtain rfl := Option.some.inj hserve
      simp only [cost, hphase]
      by_cases hwaiting : s.worker = .waiting
      · simp only [workerCost, hwaiting, if_true]
        omega
      · simp only [workerCost, if_neg hwaiting]
        exact Nat.lt_add_of_pos_right (Nat.succ_pos _)

theorem own_step_cost {a : Action} (ha : Own a) (hstep : step r sha1 s a = some t) :
    cost r t < cost r s := by
  cases a with
  | arrive text => exact absurd ha id
  | serve => exact serve_cost hstep
  | work =>
      obtain ⟨hserver, htask⟩ := work_slot hstep
      have hlt := work_cost hstep
      unfold cost
      rw [hserver, htask]
      split
      · exact hlt
      · exact Nat.add_lt_add_right hlt _
      · exact Nat.add_lt_add_right hlt _
  | spurious => exact absurd ha id

/-- The threads take finitely many steps of their own. -/
theorem own_run_length : ∀ {acts : List Action} {s : CrawlerServer}, (∀ a ∈ acts, Own a) →
    run (step r sha1) s acts = some t → acts.length + cost r t ≤ cost r s
  | [], s, _, hrun => by
      obtain rfl := Option.some.inj (run_nil.symm.trans hrun)
      exact (Nat.zero_add _).le
  | a :: acts, s, hown, hrun => by
      obtain ⟨u, hstep, hrest⟩ := run_cons_iff.mp hrun
      have hlt := own_step_cost (hown a List.mem_cons_self) hstep
      have hle := own_run_length (fun b hb => hown b (List.mem_cons_of_mem _ hb)) hrest
      rw [List.length_cons]
      omega

/-- As long as they are not at rest, one of them can go on. -/
theorem own_step_of_not_at_rest (h : ¬ s.AtRest) :
    ∃ a, Own a ∧ (step r sha1 s a).isSome := by
  by_cases hserver : s.server = .idle
  · refine ⟨.work, trivial, ?_⟩
    have hworker : s.worker ≠ .waiting := fun hw => h ⟨hserver, hw⟩
    show (work r sha1 s).isSome
    unfold work
    split
    case h_2 hwaiting => exact absurd hwaiting hworker
    case h_3 => split <;> rfl
    all_goals rfl
  · refine ⟨.serve, trivial, ?_⟩
    show (serve s).isSome
    unfold serve
    split
    · exact absurd ‹_› hserver
    · rfl
    · rfl

end Rest

/-! ## Every run -/

section Runs

variable (r : JsonReader) (sha1 : Str → Str)

/-- A message is received and then left alone until the server is at rest. -/
structure LeftAlone (s : CrawlerServer) (text : Str) (acts : List Action)
    (t : CrawlerServer) : Prop where
  received : ∃ s', step r sha1 s (.arrive text) = some s' ∧
    Along (step r sha1) Undisturbed s' acts ∧ run (step r sha1) s' acts = some t
  at_rest : t.AtRest

variable {r sha1}

theorem LeftAlone.hasEffect {s t : CrawlerServer} {text : Str} {acts : List Action}
    {m : SaveMessage} (h : LeftAlone r sha1 s text acts t)
    (hread : r.read_json text = some m) (hlang : m.langOf ≠ .other) :
    HasEffect sha1 m t.stores := by
  obtain ⟨s', harrive, hok, hrun⟩ := h.received
  have hslot : Underway sha1 text m s' := by
    simp only [step] at harrive
    split at harrive
    · obtain rfl := Option.some.inj harrive
      exact .slot (by simp) rfl
    · exact absurd harrive (by simp)
  exact (invariant (fun _ _ _ hs hoka hstep => Underway.step hs hread hlang hoka hstep)
    hslot hok hrun).at_rest h.at_rest

/-- **What becomes of the messages**, in any run.

Left to themselves the threads come to rest. A message that is left alone has its
effect, from the rest behind it on. And of each message that is taken up, whatever
comes meanwhile, the URL is in the master store and the list in one of the two, from
the reply on, but for a rest that is left behind only when the flag is up. -/
theorem messages_stored (stores : CrawlerStores) (acts : List Action) (s : CrawlerServer)
    (hrun : run (step r sha1) (start stores) acts = some s) :
    (∀ acts' t, (∀ a ∈ acts', Own a) → run (step r sha1) s acts' = some t →
      acts'.length ≤ cost r s ∧ (¬ t.AtRest → ∃ a, Own a ∧ (step r sha1 t a).isSome)) ∧
    (∀ text m acts' t acts'' u, r.read_json text = some m → m.WellFormed →
      LeftAlone r sha1 s text acts' t → run (step r sha1) t acts'' = some u →
      HasEffect sha1 m u.stores) ∧
    (∀ m rest acts' u, m.WellFormed → s.worker = .replying m rest →
      run (step r sha1) s acts' = some u →
      StoredUpTo sha1 m rest u.stores ∧ (rest ≠ [] → s.gNewTaskFlag = true)) := by
  refine ⟨?_, ?_, ?_⟩
  · intro acts' t hown hrest
    have hlen := own_run_length hown hrest
    exact ⟨le_trans (Nat.le_add_right _ _) hlen, own_step_of_not_at_rest⟩
  · intro text m acts' t acts'' u hread hm halone hlater
    exact (halone.hasEffect hread hm.langOf_ne).grows (run_grows hlater)
  · intro m rest acts' u hm hreply hlater
    obtain ⟨hstored, hflag⟩ := (inLoop_of_run hrun).replying m rest hreply hm.langOf_ne
    exact ⟨hstored.grows (run_grows hlater), hflag⟩

/-! ### Two messages -/

/-- `{"lang":"cn","url":"a","crawler":"b"}` -/
def textA : Str :=
  [123, 34, 108, 97, 110, 103, 34, 58, 34, 99, 110, 34, 44, 34, 117, 114, 108, 34, 58, 34,
    97, 34, 44, 34, 99, 114, 97, 119, 108, 101, 114, 34, 58, 34, 98, 34, 125]

/-- `{"lang":"cn","url":"b","crawler":"a"}` -/
def textB : Str :=
  [123, 34, 108, 97, 110, 103, 34, 58, 34, 99, 110, 34, 44, 34, 117, 114, 108, 34, 58, 34,
    98, 34, 44, 34, 99, 114, 97, 119, 108, 101, 114, 34, 58, 34, 97, 34, 125]

def messageA : SaveMessage := ⟨some .cn, some pageA, some pageB⟩

def messageB : SaveMessage := ⟨some .cn, some pageB, some pageA⟩

/-- What the parser makes of the two texts. -/
def pageReader : JsonReader where
  read_json text :=
    if text = textA then some messageA else if text = textB then some messageB else none
  read_json_nil := by decide

/-- A server with empty stores whose worker waits. -/
def waitingServer : CrawlerServer := { start ⟨∅, ∅, ∅, ∅⟩ with worker := .waiting }

/-- One message and all that follows it, until the server is at rest again. -/
def oneMessage : List Action :=
  [.serve, .serve, .work, .work, .work, .work, .work, .work]

/-- Two messages, the second before the worker has read the first. -/
def twoMessages : List Action :=
  [.work, .arrive textA, .serve, .serve, .arrive textB, .serve, .serve, .work, .work, .work,
    .work, .work, .work]

theorem messages_stored_one :
    ∃ t, LeftAlone pageReader pageSha1 waitingServer textA oneMessage t ∧
      HasEffect pageSha1 messageA t.stores := by
  have hrun : (run (step pageReader pageSha1)
      { waitingServer with gTask := textA, server := .stored } oneMessage).any
      (fun t => t.AtRest) := by decide
  obtain ⟨t, ht, hrest⟩ := (Option.any_eq_true _ _).mp hrun
  have halone : LeftAlone pageReader pageSha1 waitingServer textA oneMessage t :=
    ⟨⟨_, rfl, by decide, ht⟩, of_decide_eq_true hrest⟩
  have hread : pageReader.read_json textA = some messageA := by decide
  exact ⟨t, halone, (messages_stored ⟨∅, ∅, ∅, ∅⟩ [.work] waitingServer rfl).2.1 textA messageA
    oneMessage t [] t hread ⟨Or.inl rfl, rfl, rfl⟩ halone run_nil⟩

/-- The server is at rest and the first message has no effect. -/
theorem message_lost :
    ∃ t, run (step pageReader pageSha1) (start ⟨∅, ∅, ∅, ∅⟩) twoMessages = some t ∧
      t.AtRest ∧ .arrive textA ∈ twoMessages ∧ messageA.WellFormed ∧
      pageReader.read_json textA = some messageA ∧ ¬ HasEffect pageSha1 messageA t.stores := by
  have hrun : (run (step pageReader pageSha1) (start ⟨∅, ∅, ∅, ∅⟩) twoMessages).any
      (fun t => t.AtRest ∧ (t.stores.master .cn).is_has (pageSha1 pageA) = false) := by
    decide
  obtain ⟨t, ht, hend⟩ := (Option.any_eq_true _ _).mp hrun
  obtain ⟨hrest, hmissing⟩ := of_decide_eq_true hend
  refine ⟨t, ht, hrest, ?_, ⟨Or.inl rfl, rfl, rfl⟩, by decide, fun heffect => ?_⟩
  · exact List.mem_cons_of_mem _ List.mem_cons_self
  · exact absurd (hmissing.symm.trans heffect.done) (by decide)

end Runs

end CrawlerServer

end WaiNative

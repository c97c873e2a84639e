import WaiNative.Service.SaveTask
import WaiNative.Theory.Runs

/-!
# Handing out tasks

The server of the ostrich stage under any number of workers: fetching a task
(`fetchOstrichTask`), refilling the queue of a language from its Todo store
(`TRY_FIND_TASK`) and saving a task (`saveOstrichTask`), in any order. A step is
an operation on a store, a turn of the loop in `TRY_FIND_TASK` or the sending of a
URL. A fetch and a refill exclude each other by `gTodoMutex`; saves take no part in
it, and come one after the other.

A refill leaves out what is done, but nothing looks again afterwards. So a done
URL is sent only if it was saved while it stood in the queue (`send_not_done`),
which two workers and a refill between fetch and save bring about
(`send_done_twice`). What is saved there will always be sent (`clean_iff`).
-/

namespace WaiNative

open Cxx Runs

def iConstPathCacheMax : ℕ := 32

/-- Who has `gTodoMutex`: nobody, `fetchOstrichTask` with the URL it took, or
`TRY_FIND_TASK` with the place of its iterator. -/
inductive MutexHolder
  | free
  | sending (lang : Lang) (top : Str)
  | refilling (lang : Lang) (it : ℕ)
deriving DecidableEq

/-- Where `saveOstrichTask` is. -/
inductive Saving
  | idle
  | marked (lang : Lang) (url word : Str)
  | unmarked (lang : Lang) (word : Str)

structure OstrichServer where
  stores : StageStores
  gOstrichTodoCN : List Str
  gOstrichTodoJA : List Str
  gTodoMutex : MutexHolder
  saving : Saving

namespace OstrichServer

/-- The queue of a language. -/
def todo (s : OstrichServer) : Lang → List Str
  | .cn => s.gOstrichTodoCN
  | .ja => s.gOstrichTodoJA
  | .other => []

def setTodo (s : OstrichServer) (lang : Lang) (urls : List Str) : OstrichServer :=
  match lang with
  | .cn => { s with gOstrichTodoCN := urls }
  | .ja => { s with gOstrichTodoJA := urls }
  | .other => s

/-- Takes the last URL of the queue; with an empty queue no URL is sent. -/
def fetchOstrichTask (lang : Lang) (s : OstrichServer) : OstrichServer :=
  match (s.todo lang).getLast? with
  | some top =>
      { s.setTodo lang (s.todo lang).dropLast with gTodoMutex := .sending lang top }
  | none => s

inductive Action
  | fetch (lang : Lang)
  | send
  | gets (lang : Lang)
  | check
  | save (lang : Lang) (url word : Str)
  | unmark
  | put

section Steps

variable (sha1 : Str → Str)

/-- One turn of the loop in `TRY_FIND_TASK`; behind the last URL the mutex is
released. -/
def checkNext (s : OstrichServer) (lang : Lang) (it : ℕ) : OstrichServer :=
  match (s.todo lang)[it]?, s.stores.get lang with
  | some url, some st =>
      if st.Done.is_has (sha1 url) then
        { s.setTodo lang ((s.todo lang).eraseIdx it) with
          stores := s.stores.modify lang (LangStores.unmarkTodo sha1 url)
          gTodoMutex := .refilling lang it }
      else { s with gTodoMutex := .refilling lang (it + 1) }
  | _, _ => { s with gTodoMutex := .free }

def step (s : OstrichServer) : Action → Option OstrichServer
  | .fetch lang =>
      match s.gTodoMutex with
      | .free => some (s.fetchOstrichTask lang)
      | _ => none
  | .send =>
      match s.gTodoMutex with
      | .sending _ _ => some { s with gTodoMutex := .free }
      | _ => none
  | .gets lang =>
      match s.gTodoMutex, s.stores.get lang with
      | .free, some st =>
          if (s.todo lang).isEmpty then
            some { s.setTodo lang (st.Todo.gets iConstPathCacheMax) with
              gTodoMutex := .refilling lang 0 }
          else some s
      | _, _ => none
  | .check =>
      match s.gTodoMutex with
      | .refilling lang it => some (checkNext sha1 s lang it)
      | _ => none
  | .save lang url word =>
      match s.saving with
      | .idle =>
          some { s with
            stores := s.stores.modify lang (LangStores.markDone sha1 url)
            saving := .marked lang url word }
      | _ => none
  | .unmark =>
      match s.saving with
      | .marked lang url word =>
          some { s with
            stores := s.stores.modify lang (LangStores.unmarkTodo sha1 url)
            saving := .unmarked lang word }
      | _ => none
  | .put =>
      match s.saving with
      | .unmarked lang word =>
          some { s with
            stores := s.stores.modify lang (LangStores.putWords word)
            saving := .idle }
      | _ => none

end Steps

section Queues

variable {sha1 : Str → Str} {s : OstrichServer} {lang : Lang}

/-- The steps of a save make `saveOstrichTask`. -/
theorem save_steps (h : s.saving = .idle) (lang : Lang) (url word : Str) :
    run (step sha1) s [.save lang url word, .unmark, .put] =
      some { s with stores := s.stores.save sha1 lang url word } := by
  simp only [run, List.foldlM_cons, List.foldlM_nil, step, h, StageStores.save]
  rfl

/-- What a language's queue will send without another look: all of it with the URL
in hand, and during a refill what the iterator has passed. -/
def queued (s : OstrichServer) (lang : Lang) : List Str :=
  match s.gTodoMutex with
  | .free => s.todo lang
  | .sending l top => if l = lang then s.todo lang ++ [top] else s.todo lang
  | .refilling l it => if l = lang then (s.todo lang).take it else s.todo lang

theorem queued_free (h : s.gTodoMutex = .free) : s.queued lang = s.todo lang := by
  unfold queued
  rw [h]

theorem queued_sending {l : Lang} {top : Str} (h : s.gTodoMutex = .sending l top) :
    s.queued lang = if l = lang then s.todo lang ++ [top] else s.todo lang := by
  unfold queued
  rw [h]

theorem queued_refilling {l : Lang} {it : ℕ} (h : s.gTodoMutex = .refilling l it) :
    s.queued lang = if l = lang then (s.todo lang).take it else s.todo lang := by
  unfold queued
  rw [h]

theorem todo_setTodo (s : OstrichServer) (lang lang' : Lang) (urls : List Str) :
    (s.setTodo lang urls).todo lang' =
      if lang = lang' ∧ lang ≠ .other then urls else s.todo lang' := by
  cases lang <;> cases lang' <;> rfl

theorem setTodo_stores (s : OstrichServer) (lang : Lang) (urls : List Str) :
    (s.setTodo lang urls).stores = s.stores := by
  cases lang <;> rfl

/-- The queues do not depend on the other fields. -/
theorem todo_with (s : OstrichServer) (st : StageStores) (m : MutexHolder) (lang : Lang) :
    { s with stores := st, gTodoMutex := m }.todo lang = s.todo lang := by
  cases lang <;> rfl

theorem queued_with (s : OstrichServer) (st : StageStores) (saving : Saving) (lang : Lang) :
    { s with stores := st, saving := saving }.queued lang = s.queued lang := by
  cases lang <;> rfl

end Queues

/-! ## What one step can do -/

section Effects

variable {sha1 : Str → Str} {s t : OstrichServer} {a : Action} {lang : Lang} {url : Str}

/-- Taking a URL from a queue adds nothing to what will be sent. -/
theorem fetch_queued {l : Lang} (h : s.gTodoMutex = .free)
    (hurl : url ∈ (s.fetchOstrichTask l).queued lang) : url ∈ s.queued lang := by
  unfold fetchOstrichTask at hurl
  split at hurl
  · rename_i top htop
    have hkept : ∀ u ∈ (s.setTodo l (s.todo l).dropLast).todo lang, u ∈ s.todo lang := by
      intro u hu
      rw [todo_setTodo] at hu
      split at hu
      · rename_i hsame
        rw [← hsame.1]
        exact List.mem_of_mem_dropLast hu
      · exact hu
    rw [queued_sending rfl, todo_with] at hurl
    rw [queued_free h]
    split at hurl
    · rename_i hlang
      obtain hrest | hlast := List.mem_append.mp hurl
      · exact hkept url hrest
      · rw [List.mem_singleton.mp hlast, ← hlang]
        exact List.mem_of_getLast? htop
    · exact hkept url hurl
  · exact hurl

theorem fetch_stores {l : Lang} : (s.fetchOstrichTask l).stores = s.stores := by
  unfold fetchOstrichTask
  split
  · exact setTodo_stores s l _
  · rfl

/-- A turn of the loop on a URL that is done, on one that is not, and behind the
last one. -/
theorem checkNext_cases (sha1 : Str → Str) (s : OstrichServer) (l : Lang) (it : ℕ) :
    (∃ url, (s.todo l)[it]? = some url ∧ checkNext sha1 s l it =
      { s.setTodo l ((s.todo l).eraseIdx it) with
        stores := s.stores.modify l (LangStores.unmarkTodo sha1 url)
        gTodoMutex := .refilling l it }) ∨
    (∃ url, (s.todo l)[it]? = some url ∧ ¬ s.stores.IsDone sha1 l url ∧
      checkNext sha1 s l it = { s with gTodoMutex := .refilling l (it + 1) }) ∨
    ((s.todo l).length ≤ it ∧ checkNext sha1 s l it = { s with gTodoMutex := .free }) := by
  unfold checkNext
  split
  · rename_i url st hurl hst
    by_cases hdone : st.Done.is_has (sha1 url) = true
    · exact Or.inl ⟨url, hurl, if_pos hdone⟩
    · exact Or.inr (Or.inl ⟨url, hurl, fun h => hdone ((isDone_of_get hst).mp h),
        if_neg hdone⟩)
  · rename_i hnone
    refine Or.inr (Or.inr ⟨?_, rfl⟩)
    by_contra hlt
    have hurl := List.getElem?_eq_getElem (not_le.mp hlt)
    by_cases hother : l = .other
    · subst hother
      exact hlt (Nat.zero_le it)
    · obtain ⟨st, hst⟩ := get_ne_none s.stores hother
      exact hnone _ st hurl hst

/-- A turn of the loop passes on the next URL if it is not done. -/
theorem queued_checkNext (sha1 : Str → Str) (lang : Lang) {l : Lang} {it : ℕ}
    (h : s.gTodoMutex = .refilling l it) :
    (checkNext sha1 s l it).queued lang = s.queued lang ∨
      ∃ url, ¬ s.stores.IsDone sha1 lang url ∧
        (checkNext sha1 s l it).queued lang = s.queued lang ++ [url] := by
  rw [queued_refilling h]
  obtain ⟨_, -, hnext⟩ | ⟨next, hget, hdone, hnext⟩ | ⟨hend, hnext⟩ :=
    checkNext_cases sha1 s l it
  · -- the iterator stays, the URL under it is gone
    left
    rw [hnext, queued_refilling rfl, todo_with, todo_setTodo]
    by_cases hlang : l = lang
    · subst hlang
      rw [if_pos rfl, if_pos rfl]
      split
      · exact List.take_eraseIdx_eq_take_of_le _ _ _ le_rfl
      · rfl
    · rw [if_neg hlang, if_neg hlang, if_neg (fun hsame => hlang hsame.1)]
  · rw [hnext, queued_refilling rfl, todo_with]
    by_cases hlang : l = lang
    · subst hlang
      refine Or.inr ⟨next, hdone, ?_⟩
      rw [if_pos rfl, if_pos rfl, List.take_add_one, hget, Option.toList_some]
    · rw [if_neg hlang, if_neg hlang]
      exact Or.inl rfl
  · left
    rw [hnext, queued_free rfl, todo_with]
    by_cases hlang : l = lang
    · subst hlang
      rw [if_pos rfl, List.take_of_length_le hend]
    · rw [if_neg hlang]

theorem checkNext_isDone {l : Lang} {it : ℕ} :
    (checkNext sha1 s l it).stores.IsDone sha1 lang url ↔ s.stores.IsDone sha1 lang url := by
  obtain ⟨next, -, hnext⟩ | ⟨_, _, _, hnext⟩ | ⟨_, hnext⟩ := checkNext_cases sha1 s l it
  · rw [hnext]
    exact isDone_modify (f := LangStores.unmarkTodo sha1 next) (fun _ => rfl)
  · rw [hnext]
  · rw [hnext]

/-- What a step can do: the mutex changes hands, a save marks a URL as done, or the
stores change elsewhere than in a Done store. -/
theorem step_cases (hstep : step sha1 s a = some t) :
    (∃ l, s.gTodoMutex = .free ∧ t = s.fetchOstrichTask l) ∨
    (∃ l top, s.gTodoMutex = .sending l top ∧ t = { s with gTodoMutex := .free }) ∨
    (∃ l urls, s.gTodoMutex = .free ∧
      t = { s.setTodo l urls with gTodoMutex := .refilling l 0 }) ∨
    t = s ∨
    (∃ l it, s.gTodoMutex = .refilling l it ∧ t = checkNext sha1 s l it) ∨
    (∃ l url word, a = .save l url word ∧
      t = { s with
        stores := s.stores.modify l (LangStores.markDone sha1 url)
        saving := .marked l url word }) ∨
    (∃ l f saving, (∀ st : LangStores, (f st).Done = st.Done) ∧
      t = { s with stores := s.stores.modify l f, saving := saving }) := by
  cases a with
  | fetch l =>
      left
      simp only [step] at hstep
      split at hstep
      · rename_i hfree
        exact ⟨l, hfree, (Option.some.inj hstep).symm⟩
      · exact absurd hstep (by simp)
  | send =>
      right; left
      simp only [step] at hstep
      split at hstep
      · rename_i l top hsending
        exact ⟨l, top, hsending, (Option.some.inj hstep).symm⟩
      · exact absurd hstep (by simp)
  | gets l =>
      right; right
      simp only [step] at hstep
      split at hstep
      · rename_i st hfree hst
        split at hstep
        · exact Or.inl ⟨l, _, hfree, (Option.some.inj hstep).symm⟩
        · exact Or.inr (Or.inl (Option.some.inj hstep).symm)
      · exact absurd hstep (by simp)
  | check =>
      right; right; right; right; left
      simp only [step] at hstep
      split at hstep
      · rename_i l it hrefilling
        exact ⟨l, it, hrefilling, (Option.some.inj hstep).symm⟩
      · exact absurd hstep (by simp)
  | save l url word =>
      right; right; right; right; right; left
      simp only [step] at hstep
      split at hstep
      · exact ⟨l, url, word, rfl, (Option.some.inj hstep).symm⟩
      · exact absurd hstep (by simp)
  | unmark =>
      right; right; right; right; right; right
      simp only [step] at hstep
      split at hstep
      · rename_i l url word _
        exact ⟨l, LangStores.unmarkTodo sha1 url, _, fun _ => rfl,
          (Option.some.inj hstep).symm⟩
      · exact absurd hstep (by simp)
  | put =>
      right; right; right; right; right; right
      simp only [step] at hstep
      split at hstep
      · rename_i l word _
        exact ⟨l, LangStores.putWords word, _, fun _ => rfl, (Option.some.inj hstep).symm⟩
      · exact absurd hstep (by simp)

/-- **What a step leaves to be sent** was queued before it, or was not done. -/
theorem step_queued (hstep : step sha1 s a = some t) (hurl : url ∈ t.queued lang) :
    url ∈ s.queued lang ∨ ¬ s.stores.IsDone sha1 lang url := by
  obtain ⟨l, hfree, rfl⟩ | ⟨l, top, hsending, rfl⟩ | ⟨l, urls, hfree, rfl⟩ | rfl |
    ⟨l, it, hrefilling, rfl⟩ | ⟨l, u, w, -, rfl⟩ | ⟨l, f, saving, -, rfl⟩ :=
    step_cases hstep
  · exact Or.inl (fetch_queued hfree hurl)
  · left
    rw [queued_free rfl, todo_with] at hurl
    rw [queued_sending hsending]
    split
    · exact List.mem_append_left _ hurl
    · exact hurl
  · left
    rw [queued_refilling rfl, todo_with, List.take_zero] at hurl
    rw [queued_free hfree]
    split at hurl
    · exact absurd hurl List.not_mem_nil
    · rename_i hlang
      rw [todo_setTodo, if_neg (fun hsame => hlang hsame.1)] at hurl
      exact hurl
  · exact Or.inl hurl
  · obtain hsame | ⟨next, hnext, hmore⟩ := queued_checkNext sha1 lang hrefilling
    · rw [hsame] at hurl
      exact Or.inl hurl
    · rw [hmore] at hurl
      obtain hold | hlast := List.mem_append.mp hurl
      · exact Or.inl hold
      · rw [List.mem_singleton.mp hlast]
        exact Or.inr hnext
  · rw [queued_with] at hurl
    exact Or.inl hurl
  · rw [queued_with] at hurl
    exact Or.inl hurl

/-- **Only a save makes a URL done**, and it leaves the queues as they are. -/
theorem step_isDone (hstep : step sha1 s a = some t) (hdone : t.stores.IsDone sha1 lang url) :
    s.stores.IsDone sha1 lang url ∨
      ∃ saved word, a = .save lang saved word ∧ sha1 saved = sha1 url ∧
        t.queued lang = s.queued lang := by
  obtain ⟨l, -, rfl⟩ | ⟨l, top, -, rfl⟩ | ⟨l, urls, -, rfl⟩ | rfl | ⟨l, it, -, rfl⟩ |
    ⟨l, saved, word, rfl, rfl⟩ | ⟨l, f, saving, hf, rfl⟩ := step_cases hstep
  · rw [fetch_stores] at hdone
    exact Or.inl hdone
  · exact Or.inl hdone
  · rw [setTodo_stores] at hdone
    exact Or.inl hdone
  · exact Or.inl hdone
  · exact Or.inl (checkNext_isDone.mp hdone)
  · obtain hold | ⟨rfl, -, hsame⟩ := isDone_markDone.mp hdone
    · exact Or.inl hold
    · exact Or.inr ⟨saved, word, rfl, hsame, queued_with s _ _ l⟩
  · exact Or.inl ((isDone_modify hf).mp hdone)

end Effects

/-! ## Whole runs -/

section Sent

variable (sha1 : Str → Str)

/-- Nothing that will be sent without another look is done. -/
def Clean (s : OstrichServer) : Prop :=
  ∀ lang, ∀ url ∈ s.queued lang, ¬ s.stores.IsDone sha1 lang url

/-- A save does not mark a URL that is queued. -/
def NotQueued (s : OstrichServer) : Action → Prop
  | .save lang url _ => ∀ queued ∈ s.queued lang, sha1 url ≠ sha1 queued
  | _ => True

instance (s : OstrichServer) : (a : Action) → Decidable (NotQueued sha1 s a)
  | .save lang url _ =>
      inferInstanceAs (Decidable (∀ queued ∈ s.queued lang, sha1 url ≠ sha1 queued))
  | .fetch _ | .send | .gets _ | .check | .unmark | .put => inferInstanceAs (Decidable True)

/-- The server when it starts: both queues are empty. -/
def start (stores : StageStores) : OstrichServer := ⟨stores, [], [], .free, .idle⟩

variable {sha1}

theorem clean_start (stores : StageStores) : Clean sha1 (start stores) := by
  intro lang
  cases lang <;> exact fun _ hurl => absurd hurl List.not_mem_nil

/-- A step that marks nothing queued keeps the queues clean. -/
theorem Clean.step {s t : OstrichServer} {a : Action} (hclean : Clean sha1 s)
    (hok : NotQueued sha1 s a) (hstep : step sha1 s a = some t) : Clean sha1 t := by
  intro lang url hurl hdone
  obtain hbefore | ⟨saved, word, rfl, hsame, hqueues⟩ := step_isDone hstep hdone
  · obtain hqueued | hfresh := step_queued hstep hurl
    · exact hclean lang url hqueued hbefore
    · exact hfresh hbefore
  · rw [hqueues] at hurl
    exact hok url hurl hsame

theorem Clean.run {s t : OstrichServer} {acts : List Action} (hclean : Clean sha1 s)
    (hok : Along (OstrichServer.step sha1) (NotQueued sha1) s acts)
    (hrun : Runs.run (OstrichServer.step sha1) s acts = some t) : Clean sha1 t :=
  invariant (fun _ _ _ hclean hoka hstep => Clean.step hclean hoka hstep) hclean hok hrun

theorem Clean.sends {s : OstrichServer} (hclean : Clean sha1 s) {lang : Lang} {url : Str}
    (hsend : s.gTodoMutex = .sending lang url) : ¬ s.stores.IsDone sha1 lang url := by
  refine hclean lang url ?_
  rw [queued_sending hsend, if_pos rfl]
  exact List.mem_append_right _ (List.mem_singleton_self url)

/-- **No URL is sent that is done**, in any run of fetches, refills and saves in which
no save marks a URL that is still queued. -/
theorem send_not_done {stores : StageStores} {acts : List Action} {s : OstrichServer}
    (hok : Along (step sha1) (NotQueued sha1) (start stores) acts)
    (hrun : run (step sha1) (start stores) acts = some s) {lang : Lang} {url : Str}
    (hsend : s.gTodoMutex = .sending lang url) : ¬ s.stores.IsDone sha1 lang url :=
  ((clean_start stores).run hok hrun).sends hsend

/-! ### What is queued will be sent -/

/-- Some steps later, none of them a save, a URL that is done is about to be sent. -/
def WillSendDone (sha1 : Str → Str) (s : OstrichServer) : Prop :=
  ∃ acts t lang url, (∀ a ∈ acts, ∀ s', NotQueued sha1 s' a) ∧
    run (step sha1) s acts = some t ∧ t.gTodoMutex = .sending lang url ∧
    t.stores.IsDone sha1 lang url

theorem WillSendDone.of_step {s t : OstrichServer} {a : Action}
    (hstep : step sha1 s a = some t) (ha : ∀ s', NotQueued sha1 s' a)
    (ht : WillSendDone sha1 t) : WillSendDone sha1 s := by
  obtain ⟨acts, u, lang, url, hok, hrun, hu⟩ := ht
  exact ⟨a :: acts, u, lang, url, List.forall_mem_cons.mpr ⟨ha, hok⟩,
    run_cons_iff.mpr ⟨t, hstep, hrun⟩, hu⟩

theorem willSendDone_now {s : OstrichServer} {lang : Lang} {url : Str}
    (hsend : s.gTodoMutex = .sending lang url) (hdone : s.stores.IsDone sha1 lang url) :
    WillSendDone sha1 s :=
  ⟨[], s, lang, url, fun _ h => absurd h List.not_mem_nil, run_nil, hsend, hdone⟩

theorem fetch_last {s : OstrichServer} {lang : Lang} {us : List Str} {top : Str}
    (h : s.todo lang = us ++ [top]) :
    s.fetchOstrichTask lang =
      { s.setTodo lang us with gTodoMutex := .sending lang top } := by
  unfold fetchOstrichTask
  rw [h, List.getLast?_concat, List.dropLast_concat]

/-- A done URL in a queue is sent when those behind it have been. -/
theorem willSendDone_free {lang : Lang} {url : Str} (us : List Str) :
    ∀ {s : OstrichServer}, s.todo lang = us → s.gTodoMutex = .free → url ∈ us →
      s.stores.IsDone sha1 lang url → WillSendDone sha1 s := by
  induction us using List.reverseRecOn with
  | nil => exact fun _ _ hurl => absurd hurl List.not_mem_nil
  | append_singleton us top ih =>
      intro s htodo hfree hurl hdone
      have hfetch : step sha1 s (.fetch lang) = some (s.fetchOstrichTask lang) := by
        simp only [step, hfree]
      refine WillSendDone.of_step hfetch (fun _ => trivial) ?_
      have hdone' : (s.fetchOstrichTask lang).stores.IsDone sha1 lang url := by
        rw [fetch_stores]
        exact hdone
      rw [fetch_last htodo] at hdone' ⊢
      by_cases htop : top = url
      · subst htop
        exact willSendDone_now rfl hdone'
      · have hrest : url ∈ us := by
          obtain hrest | hlast := List.mem_append.mp hurl
          · exact hrest
          · exact absurd (List.mem_singleton.mp hlast).symm htop
        have hother : lang ≠ .other := by
          rintro rfl
          exact absurd htodo (by simp [todo])
        refine WillSendDone.of_step (a := .send) rfl (fun _ => trivial)
          (ih ?_ rfl hrest hdone')
        rw [todo_with, todo_with, todo_setTodo, if_pos ⟨rfl, hother⟩]

/-- What a refill has passed on is sent when the refill is over. -/
theorem willSendDone_refilling {l lang : Lang} {url : Str} :
    ∀ (n : ℕ) {s : OstrichServer} {it : ℕ}, (s.todo l).length - it = n →
      s.gTodoMutex = .refilling l it → url ∈ s.queued lang →
      s.stores.IsDone sha1 lang url → WillSendDone sha1 s := by
  intro n
  induction n using Nat.strong_induction_on with
  | h n ih =>
      intro s it hn hrefilling hurl hdone
      have hstep : step sha1 s .check = some (checkNext sha1 s l it) := by
        simp only [step, hrefilling]
      refine WillSendDone.of_step hstep (fun _ => trivial) ?_
      have hurl' : url ∈ (checkNext sha1 s l it).queued lang := by
        obtain hsame | ⟨next, -, hmore⟩ := queued_checkNext sha1 lang hrefilling
        · rw [hsame]
          exact hurl
        · rw [hmore]
          exact List.mem_append_left _ hurl
      have hdone' : (checkNext sha1 s l it).stores.IsDone sha1 lang url :=
        checkNext_isDone.mpr hdone
      obtain ⟨next, hget, hnext⟩ | ⟨next, hget, -, hnext⟩ | ⟨-, hnext⟩ :=
        checkNext_cases sha1 s l it
      · have hlt : it < (s.todo l).length := (List.getElem?_eq_some_iff.mp hget).1
        have hother : l ≠ .other := by
          rintro rfl
          exact absurd hlt (Nat.not_lt_zero it)
        rw [hnext] at hurl' hdone' ⊢
        refine ih ((s.todo l).length - 1 - it) (by omega) ?_ rfl hurl' hdone'
        rw [todo_with, todo_setTodo, if_pos ⟨rfl, hother⟩, List.length_eraseIdx_of_lt hlt]
      · have hlt : it < (s.todo l).length := (List.getElem?_eq_some_iff.mp hget).1
        rw [hnext] at hurl' hdone' ⊢
        exact ih ((s.todo l).length - (it + 1)) (by omega) rfl rfl hurl' hdone'
      · rw [hnext] at hurl' hdone' ⊢
        rw [queued_free rfl] at hurl'
        exact willSendDone_free _ rfl rfl hurl' hdone'

/-- **The queues are clean exactly if no done URL will be sent** before a save marks
another queued URL. -/
theorem clean_iff {s : OstrichServer} : Clean sha1 s ↔ ¬ WillSendDone sha1 s := by
  constructor
  · rintro hclean ⟨acts, t, lang, url, hok, hrun, hsend, hdone⟩
    exact (hclean.run (along_of_forall hok) hrun).sends hsend hdone
  · intro hnever lang url hurl hdone
    apply hnever
    cases hmutex : s.gTodoMutex with
    | free =>
        rw [queued_free hmutex] at hurl
        exact willSendDone_free _ rfl hmutex hurl hdone
    | sending l top =>
        rw [queued_sending hmutex] at hurl
        by_cases hnow : l = lang ∧ top = url
        · obtain ⟨rfl, rfl⟩ := hnow
          exact willSendDone_now hmutex hdone
        · have hstep : step sha1 s .send = some { s with gTodoMutex := .free } := by
            simp only [step, hmutex]
          have hrest : url ∈ s.todo lang := by
            split at hurl
            · rename_i hlang
              obtain hrest | hlast := List.mem_append.mp hurl
              · exact hrest
              · exact absurd ⟨hlang, (List.mem_singleton.mp hlast).symm⟩ hnow
            · exact hurl
          exact WillSendDone.of_step hstep (fun _ => trivial)
            (willSendDone_free _ (todo_with s _ _ lang) rfl hrest hdone)
    | refilling l it => exact willSendDone_refilling _ rfl hmutex hurl hdone

/-- A save that marks a queued URL makes it one that will be sent. -/
theorem willSendDone_of_save {s t : OstrichServer} {lang : Lang} {url word queued : Str}
    (hstep : step sha1 s (.save lang url word) = some t) (hlang : lang ≠ .other)
    (hqueued : queued ∈ s.queued lang) (hsame : sha1 url = sha1 queued) :
    WillSendDone sha1 t := by
  by_contra hnever
  simp only [step] at hstep
  split at hstep
  · obtain rfl := Option.some.inj hstep
    refine clean_iff.mpr hnever lang queued ?_ (isDone_markDone.mpr (Or.inr ⟨rfl, hlang, hsame⟩))
    rw [queued_with]
    exact hqueued
  · exact absurd hstep (by simp)

/-! ### One page -/

/-- One page to do. -/
def onePage : StageStores :=
  ⟨⟨∅, URLStorage.add ∅ (pageSha1 pageA) pageA, ∅⟩, ⟨∅, ∅, ∅⟩⟩

/-- A save of another page while the page waits. -/
def otherSaved : List Action :=
  [.gets .cn, .check, .check, .save .cn pageB [], .unmark, .put, .fetch .cn]

/-- The page is fetched, queued again and then saved. -/
def savedWhileQueued : List Action :=
  [.gets .cn, .check, .check, .fetch .cn, .send, .gets .cn, .check, .check,
    .save .cn pageA [], .unmark, .put, .fetch .cn]

/-- The run sends this page of this language next. -/
def Sends (acts : List Action) (lang : Lang) (url : Str) (s : OstrichServer) : Prop :=
  run (step pageSha1) (start onePage) acts = some s ∧ s.gTodoMutex = .sending lang url

theorem send_not_done_page :
    ∃ s, Sends otherSaved .cn pageA s ∧ ¬ s.stores.IsDone pageSha1 .cn pageA := by
  have hrun : (run (step pageSha1) (start onePage) otherSaved).any
      (fun s => s.gTodoMutex = .sending .cn pageA) := by decide
  obtain ⟨s, hs, hsend⟩ := (Option.any_eq_true _ _).mp hrun
  exact ⟨s, ⟨hs, of_decide_eq_true hsend⟩,
    send_not_done (by decide) hs (of_decide_eq_true hsend)⟩

/-- A page that is done is sent again. -/
theorem send_done_twice :
    ∃ s, Sends savedWhileQueued .cn pageA s ∧ s.stores.IsDone pageSha1 .cn pageA := by
  have hrun : (run (step pageSha1) (start onePage) savedWhileQueued).any
      (fun s => s.gTodoMutex = .sending .cn pageA ∧ s.stores.IsDone pageSha1 .cn pageA) := by
    decide
  obtain ⟨s, hs, hsend⟩ := (Option.any_eq_true _ _).mp hrun
  obtain ⟨hsend, hdone⟩ := of_decide_eq_true hsend
  exact ⟨s, ⟨hs, hsend⟩, hdone⟩

end Sent

end OstrichServer

end WaiNative

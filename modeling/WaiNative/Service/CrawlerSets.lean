import WaiNative.Service.CrawlerSave

/-!
# A page is never both done and to do

What a sequence of save messages makes of the stores, one `processTextInSide` after
the other. Its loop may be left after any number of URLs, when `gNewTaskFlag` is up
or by an exception; `cut` says how many it has handled.

- `stores_of_run`: whatever the two threads of the server do, its stores are those
  of such a sequence;
- `never_in_both`: the keys of the master store and of the todo store stay apart,
  keys never leave the master store, and a message touches the stores of its own
  language only.
-/

namespace WaiNative

open Cxx Runs

namespace CrawlerStores

section Sequence

variable (r : JsonReader) (sha1 : Str → Str)

/-- The body of the loop of `processTextInSide`. -/
def storeUrl (lang : Lang) (st : CrawlerStores) (url : Str) : CrawlerStores :=
  if url.isEmpty then st else st.newCrawler sha1 url lang

/-- `processTextInSide`, with a loop that ends behind at most `cut` URLs. -/
def processTextInSide (text : Str) (cut : ℕ) (st : CrawlerStores) : CrawlerStores :=
  match r.read_json text with
  | some configJson =>
      (configJson.list_string.take cut).foldl (storeUrl sha1 configJson.langOf)
        (st.markCrawler sha1 configJson.urlDone configJson.langOf)
  | none => st

/-- One message after the other. -/
def processAll (messages : List (Str × ℕ)) (st : CrawlerStores) : CrawlerStores :=
  messages.foldl (fun st message => processTextInSide r sha1 message.1 message.2 st) st

variable {r sha1} {st st' st'' : CrawlerStores} {lang : Lang}

theorem processAll_append (messages messages' : List (Str × ℕ)) :
    processAll r sha1 (messages ++ messages') st =
      processAll r sha1 messages' (processAll r sha1 messages st) :=
  List.foldl_append

/-! ## One operation -/

/-- No key is in both stores of a language. -/
def Apart (st : CrawlerStores) : Prop :=
  ∀ lang key, (st.master lang).is_has key = true → (st.todo lang).is_has key = false

/-- What an operation on the stores of one language does: it keeps the stores apart
and the keys of the master store, and leaves the other language alone. -/
structure Advances (lang : Lang) (st st' : CrawlerStores) : Prop where
  apart : st.Apart → st'.Apart
  mastered : ∀ {l key}, (st.master l).is_has key = true → (st'.master l).is_has key = true
  others : ∀ {l}, l ≠ lang → st'.master l = st.master l ∧ st'.todo l = st.todo l

theorem Advances.refl (st : CrawlerStores) : Advances lang st st :=
  ⟨id, id, fun _ => ⟨rfl, rfl⟩⟩

theorem Advances.trans (h : Advances lang st st') (h' : Advances lang st' st'') :
    Advances lang st st'' := by
  refine ⟨fun ha => h'.apart (h.apart ha), fun hm => h'.mastered (h.mastered hm), ?_⟩
  intro l hl
  obtain ⟨hmaster, htodo⟩ := h.others hl
  obtain ⟨hmaster', htodo'⟩ := h'.others hl
  exact ⟨hmaster'.trans hmaster, htodo'.trans htodo⟩

/-- The key that enters the master store leaves the todo store. -/
theorem markCrawler_advances (url : Str) :
    Advances lang st (st.markCrawler sha1 url lang) := by
  refine ⟨?_, ?_, ?_⟩
  · intro hapart l key hkey
    rw [master_markCrawler] at hkey
    rw [todo_markCrawler]
    by_cases hown : lang = l ∧ lang ≠ .other
    · rw [if_pos hown, URLStorage.is_has_add, Bool.or_eq_true, decide_eq_true_eq] at hkey
      rw [if_pos hown, URLStorage.is_has_remove]
      rcases hkey with rfl | hkey
      · simp
      · rw [hapart l key hkey, Bool.and_false]
    · rw [if_neg hown] at hkey ⊢
      exact hapart l key hkey
  · intro l key hkey
    rw [master_markCrawler]
    split
    · rw [URLStorage.is_has_add, hkey, Bool.or_true]
    · exact hkey
  · intro l hl
    have hother : ¬ (lang = l ∧ lang ≠ .other) := fun h => hl h.1.symm
    rw [master_markCrawler, todo_markCrawler, if_neg hother, if_neg hother]
    exact ⟨rfl, rfl⟩

/-- Only a key that is not in the master store enters the todo store. -/
theorem newCrawler_advances (url : Str) :
    Advances lang st (st.newCrawler sha1 url lang) := by
  refine ⟨?_, ?_, ?_⟩
  · intro hapart l key hkey
    rw [master_newCrawler] at hkey
    rw [todo_newCrawler]
    split
    · rename_i hown
      obtain ⟨rfl, -, hfree⟩ := hown
      have hne : sha1 url ≠ key := by
        rintro rfl
        rw [hkey] at hfree
        exact Bool.noConfusion hfree
      rw [URLStorage.is_has_add, hapart lang key hkey, decide_eq_false hne, Bool.or_false]
    · exact hapart l key hkey
  · intro l key hkey
    rwa [master_newCrawler]
  · intro l hl
    have hother : ¬ (lang = l ∧ lang ≠ .other ∧ (st.master lang).is_has (sha1 url) = false) :=
      fun h => hl h.1.symm
    rw [master_newCrawler, todo_newCrawler, if_neg hother]
    exact ⟨rfl, rfl⟩

theorem storeUrl_advances (url : Str) : Advances lang st (storeUrl sha1 lang st url) := by
  unfold storeUrl
  split
  · exact Advances.refl st
  · exact newCrawler_advances url

theorem storeUrls_advances : ∀ (urls : List Str) (st : CrawlerStores),
    Advances lang st (urls.foldl (storeUrl sha1 lang) st)
  | [], st => Advances.refl st
  | url :: urls, _ => (storeUrl_advances url).trans (storeUrls_advances urls _)

/-! ## One message, and many -/

variable (r sha1 st)

theorem processTextInSide_advances {text : Str} {m : SaveMessage}
    (hread : r.read_json text = some m) (cut : ℕ) :
    Advances m.langOf st (processTextInSide r sha1 text cut st) := by
  simp only [processTextInSide, hread]
  exact (markCrawler_advances _).trans (storeUrls_advances _ _)

/-- A text that is no message changes nothing. -/
theorem processTextInSide_none {text : Str} (hread : r.read_json text = none) (cut : ℕ) :
    processTextInSide r sha1 text cut st = st := by
  simp only [processTextInSide, hread]

variable {st}

theorem processTextInSide_kept (text : Str) (cut : ℕ) (hapart : st.Apart) :
    (processTextInSide r sha1 text cut st).Apart ∧
      ∀ {l key}, (st.master l).is_has key = true →
        ((processTextInSide r sha1 text cut st).master l).is_has key = true := by
  cases hread : r.read_json text with
  | none =>
      rw [processTextInSide_none r sha1 st hread]
      exact ⟨hapart, id⟩
  | some m =>
      have hadvance := processTextInSide_advances r sha1 st hread cut
      exact ⟨hadvance.apart hapart, hadvance.mastered⟩

theorem processAll_kept : ∀ (messages : List (Str × ℕ)) {st : CrawlerStores}, st.Apart →
    (processAll r sha1 messages st).Apart ∧
      ∀ {l key}, (st.master l).is_has key = true →
        ((processAll r sha1 messages st).master l).is_has key = true
  | [], _, hapart => ⟨hapart, id⟩
  | (text, cut) :: messages, st, hapart => by
      obtain ⟨hnext, hmaster⟩ := processTextInSide_kept r sha1 text cut hapart
      obtain ⟨hend, hmaster'⟩ := processAll_kept messages hnext
      exact ⟨hend, fun hkey => hmaster' (hmaster hkey)⟩

/-- The messages of one language leave the stores of another one alone. -/
theorem processAll_others : ∀ (messages : List (Str × ℕ)) (st : CrawlerStores),
    (∀ x ∈ messages, ∀ m, r.read_json x.1 = some m → m.langOf ≠ lang) →
    (processAll r sha1 messages st).master lang = st.master lang ∧
      (processAll r sha1 messages st).todo lang = st.todo lang
  | [], _, _ => ⟨rfl, rfl⟩
  | (text, cut) :: messages, st, hlang => by
      have hone : (processTextInSide r sha1 text cut st).master lang = st.master lang ∧
          (processTextInSide r sha1 text cut st).todo lang = st.todo lang := by
        cases hread : r.read_json text with
        | none =>
            rw [processTextInSide_none r sha1 st hread]
            exact ⟨rfl, rfl⟩
        | some m =>
            have hne := hlang (text, cut) List.mem_cons_self m hread
            exact (processTextInSide_advances r sha1 st hread cut).others hne.symm
      obtain ⟨hmaster, htodo⟩ := processAll_others messages
        (processTextInSide r sha1 text cut st)
        (fun x hx => hlang x (List.mem_cons_of_mem _ hx))
      exact ⟨hmaster.trans hone.1, htodo.trans hone.2⟩

/-- **The stores of a language stay apart.** From stores that are apart, any sequence
of messages, each cut short anywhere, leads to stores that are apart; what is in the
master store then, no further messages take from it or put into the todo store; and
messages of other languages leave the stores as they are. -/
theorem never_in_both (st : CrawlerStores) (hapart : st.Apart)
    (messages later : List (Str × ℕ)) :
    (processAll r sha1 messages st).Apart ∧
    (∀ lang key, ((processAll r sha1 messages st).master lang).is_has key = true →
      ((processAll r sha1 (messages ++ later) st).master lang).is_has key = true ∧
      ((processAll r sha1 (messages ++ later) st).todo lang).is_has key = false) ∧
    (∀ lang, (∀ x ∈ messages, ∀ m, r.read_json x.1 = some m → m.langOf ≠ lang) →
      (processAll r sha1 messages st).master lang = st.master lang ∧
      (processAll r sha1 messages st).todo lang = st.todo lang) := by
  have hnow := (processAll_kept r sha1 messages hapart).1
  refine ⟨hnow, ?_, fun lang => processAll_others r sha1 messages st⟩
  intro lang key hkey
  obtain ⟨hend, hmaster⟩ := processAll_kept r sha1 later hnow
  rw [processAll_append]
  exact ⟨hmaster hkey, hend lang key (hmaster hkey)⟩

/-- Two messages, the first of which is cut short before its list. -/
def twoPages : List (Str × ℕ) := [(CrawlerServer.textA, 0), (CrawlerServer.textB, 1)]

open CrawlerServer in
theorem never_in_both_pages :
    (processAll pageReader pageSha1 twoPages ⟨∅, ∅, ∅, ∅⟩).Apart ∧
    ∀ lang key,
      ((processAll pageReader pageSha1 twoPages ⟨∅, ∅, ∅, ∅⟩).master lang).is_has key = true →
      ((processAll pageReader pageSha1 (twoPages ++ [(textA, 1)]) ⟨∅, ∅, ∅, ∅⟩).todo
        lang).is_has key = false := by
  have hempty : Apart ⟨∅, ∅, ∅, ∅⟩ := by
    intro lang key hkey
    cases lang
    all_goals exact absurd hkey (by simp [master, URLStorage.is_has])
  obtain ⟨hapart, hkeeps, -⟩ :=
    never_in_both pageReader pageSha1 ⟨∅, ∅, ∅, ∅⟩ hempty twoPages [(textA, 1)]
  exact ⟨hapart, fun lang key hkey => (hkeeps lang key hkey).2⟩

end Sequence

end CrawlerStores

/-! ## The stores of the server -/

namespace CrawlerServer

section Stores

open CrawlerStores

variable {r : JsonReader} {sha1 : Str → Str} {stores : CrawlerStores} {s t : CrawlerServer}

/-- The stores are those of a sequence of messages. In the loop, the last of them is
the one under way, cut where the loop stands. -/
structure Processed (r : JsonReader) (sha1 : Str → Str) (stores : CrawlerStores)
    (messages : List (Str × ℕ)) (s : CrawlerServer) : Prop where
  stores : s.stores = processAll r sha1 messages stores
  storing : ∀ m rest, s.worker = .storing m rest → ∃ before text cut,
    messages = before ++ [(text, cut)] ∧ r.read_json text = some m ∧
      m.list_string.drop cut = rest

/-- Outside of the loop only the stores count. -/
theorem Processed.outside {messages : List (Str × ℕ)} (h : Processed r sha1 stores messages s)
    (hstores : t.stores = s.stores) (hout : ∀ m rest, t.worker ≠ .storing m rest) :
    Processed r sha1 stores messages t :=
  ⟨hstores.trans h.stores, fun m rest hw => absurd hw (hout m rest)⟩

theorem Processed.taken {messages : List (Str × ℕ)} (h : Processed r sha1 stores messages s)
    (text : Str) : ∃ messages', Processed r sha1 stores messages'
      (CrawlerServer.processTextInSide r sha1 text { s with gNewTaskFlag := false }) := by
  unfold CrawlerServer.processTextInSide
  cases hread : r.read_json text with
  | none => exact ⟨messages, h.outside rfl (fun _ _ => by simp)⟩
  | some m =>
      refine ⟨messages ++ [(text, 0)], ?_, ?_⟩
      · rw [processAll_append, ← h.stores]
        simp [processAll, CrawlerStores.processTextInSide, hread]
      · intro m' rest hw
        obtain ⟨rfl, rfl⟩ := WorkerPhase.storing.inj hw
        exact ⟨messages, text, 0, rfl, hread, List.drop_zero⟩

/-- A turn of the loop handles one URL more of the message under way. -/
theorem Processed.storeNext {messages : List (Str × ℕ)}
    (h : Processed r sha1 stores messages s) {m : SaveMessage} {url : Str} {rest : List Str}
    (hphase : s.worker = .storing m (url :: rest)) :
    ∃ messages', Processed r sha1 stores messages' (storeNext sha1 m url rest s) := by
  obtain ⟨before, text, cut, rfl, hread, hdrop⟩ := h.storing m _ hphase
  have hget : m.list_string[cut]? = some url := by
    rw [← List.head?_drop, hdrop, List.head?_cons]
  have htake : m.list_string.take (cut + 1) = m.list_string.take cut ++ [url] := by
    rw [List.take_add_one, hget]
    rfl
  have hrest : m.list_string.drop (cut + 1) = rest := by
    rw [← List.drop_drop, hdrop, List.drop_one, List.tail_cons]
  refine ⟨before ++ [(text, cut + 1)], ?_, ?_⟩
  · have hstores := h.stores
    rw [processAll_append] at hstores ⊢
    simp only [processAll, List.foldl_cons, List.foldl_nil,
      CrawlerStores.processTextInSide, hread] at hstores ⊢
    rw [htake, List.foldl_append, ← hstores]
    rfl
  · intro m' rest' hw
    have hworker : (CrawlerServer.storeNext sha1 m url rest s).worker =
        if s.gNewTaskFlag then .replying m rest else .storing m rest := rfl
    rw [hworker] at hw
    by_cases hflag : s.gNewTaskFlag = true
    · rw [if_pos hflag] at hw
      exact absurd hw (by simp)
    · rw [if_neg hflag] at hw
      obtain ⟨rfl, rfl⟩ := WorkerPhase.storing.inj hw
      exact ⟨before, text, cut + 1, rfl, hread, hrest⟩

theorem Processed.step {messages : List (Str × ℕ)} (h : Processed r sha1 stores messages s)
    {a : Action} (hstep : step r sha1 s a = some t) :
    ∃ messages', Processed r sha1 stores messages' t := by
  obtain ⟨-, hwork⟩ | ⟨hst, -, hsame | hwoken⟩ := step_cases hstep
  · obtain ⟨text, -, rfl⟩ | ⟨m, url, rest, hphase, rfl⟩ | ⟨m, -, rfl⟩ | ⟨hst, hout⟩ :=
      work_cases hwork
    · exact h.taken text
    · exact h.storeNext hphase
    · exact ⟨messages, h.outside rfl (fun _ _ => by simp)⟩
    · exact ⟨messages, h.outside hst (fun m rest => (hout m rest).1)⟩
  · exact ⟨messages, hst.trans h.stores,
      fun m rest hw => h.storing m rest (hsame.symm.trans hw)⟩
  · exact ⟨messages, h.outside hst (fun _ _ => by simp [hwoken])⟩

/-- **The stores of the server are those of a sequence of messages**, in any run. -/
theorem stores_of_run {acts : List Action}
    (hrun : run (CrawlerServer.step r sha1) (start stores) acts = some s) :
    ∃ messages, s.stores = processAll r sha1 messages stores := by
  have hstart : ∃ messages, Processed r sha1 stores messages (start stores) :=
    ⟨[], rfl, fun m rest hw => absurd hw (by simp [start])⟩
  have hpreserved : ∀ u a v, (∃ messages, Processed r sha1 stores messages u) →
      CrawlerServer.step r sha1 u a = some v →
      ∃ messages, Processed r sha1 stores messages v := by
    rintro u a v ⟨messages, hu⟩ hstep
    exact hu.step hstep
  obtain ⟨messages, h⟩ := invariant_always hpreserved hstart hrun
  exact ⟨messages, h.stores⟩

/-- **No page is both done and to do**, whatever the two threads do. -/
theorem apart_of_run {acts : List Action} (hapart : stores.Apart)
    (hrun : run (CrawlerServer.step r sha1) (start stores) acts = some s) :
    s.stores.Apart := by
  obtain ⟨messages, hmessages⟩ := stores_of_run hrun
  rw [hmessages]
  exact (processAll_kept r sha1 messages hapart).1

end Stores

end CrawlerServer

end WaiNative

import WaiNative.Service.CrawlerSave
import WaiNative.Service.OstrichTask
import WaiNative.Theory.RefilledPool

/-!
# Handing out pages to crawl

The crawler service has a fetch server (`fetchCrawlerTask`), a thread that refills its
queues from the todo stores (`url_crawler_collect`), and the save server, which changes
these stores. All of them run at once. The vectors of the queues are shared without a
lock between the first two; here each operation on a vector is one step.

- `handed_out_known`: what is handed out is the seed of its language, or is still known to
  the stores then: done, or to do and so handed out again;
- `refills_accounted`: each page that a refill read is handed out once or still waits,
  unless a push falls between `back` and `pop_back`; then a page is handed out twice and
  another one not at all (`handed_out_twice`);
- `first_keys_only`: as long as 32 pages stay to do, no page whose key comes behind theirs
  is ever handed out.
-/

namespace WaiNative

open Cxx Runs

/-! ## What a refill reads -/

namespace URLStorage

variable {s : URLStorage} {max : ℕ} {url : Str}

/-- A value that `gets` reads has fewer than `max` keys in front of it. -/
theorem mem_gets (h : url ∈ s.gets max) :
    ∃ key, s[key]? = some url ∧
      ∀ keys : List Str, keys.Nodup →
        (∀ k ∈ keys, s.is_has k = true ∧ compare k key = .lt) → keys.length < max := by
  obtain ⟨⟨key, value⟩, hmem, rfl⟩ := List.mem_map.mp h
  obtain ⟨i, hi, hget⟩ := List.getElem_of_mem hmem
  rw [List.getElem_take] at hget
  have hlt : i < s.toList.length := by
    rw [List.length_take] at hi
    omega
  have hentry : (key, value) ∈ s.toList := List.mem_of_mem_take hmem
  refine ⟨key, Std.TreeMap.mem_toList_iff_getElem?_eq_some.mp hentry, ?_⟩
  intro keys hnodup hkeys
  -- all these keys are in front of the entry
  have hsub : keys ⊆ (s.toList.take i).map Prod.fst := by
    intro k hk
    obtain ⟨hin, hbefore⟩ := hkeys k hk
    have hsome : s[k]?.isSome := by
      rw [is_has, ← Std.TreeMap.mem_iff_contains] at hin
      exact Std.TreeMap.mem_iff_isSome_getElem?.mp hin
    obtain ⟨v, hv⟩ := Option.isSome_iff_exists.mp hsome
    have hkv := Std.TreeMap.mem_toList_iff_getElem?_eq_some.mpr hv
    obtain ⟨j, hj, hgetj⟩ := List.getElem_of_mem hkv
    have hji : j < i := by
      by_contra hle
      obtain heq | hij := Nat.lt_or_eq_of_le (not_lt.mp hle) |>.symm
      · subst heq
        rw [hgetj] at hget
        have hself : compare key key = .eq := Std.LawfulEqCmp.compare_eq_iff_eq.mpr rfl
        rw [(Prod.mk.inj hget).1, hself] at hbefore
        exact absurd hbefore (by decide)
      · have horder := List.pairwise_iff_getElem.mp s.ordered_keys_toList i j hlt hj hij
        rw [hget, hgetj] at horder
        have hswap : compare k key = (compare key k).swap := Std.OrientedCmp.eq_swap
        rw [hswap, horder] at hbefore
        exact absurd hbefore (by decide)
    refine List.mem_map.mpr ⟨(k, v), ?_, rfl⟩
    rw [← hgetj, List.mem_take_iff_getElem]
    exact ⟨j, by omega, rfl⟩
  have hlen := (List.subperm_of_subset hnodup hsub).length_le
  rw [List.length_map, List.length_take] at hlen
  rw [List.length_take] at hi
  omega

end URLStorage

namespace CrawlerStores

variable {sha1 : Str → Str} {st st' : CrawlerStores} {lang : Lang} {url : Str}

/-- Every page to do is stored under its `sha1`. -/
def Keyed (sha1 : Str → Str) (st : CrawlerStores) : Prop :=
  ∀ lang key url, (st.todo lang)[key]? = some url → key = sha1 url

theorem markCrawler_keyed (h : st.Keyed sha1) : (st.markCrawler sha1 url lang).Keyed sha1 := by
  intro l key u hget
  rw [todo_markCrawler] at hget
  split at hget
  · rw [URLStorage.remove, Std.TreeMap.getElem?_erase] at hget
    split at hget
    · exact absurd hget (by simp)
    · exact h l key u hget
  · exact h l key u hget

theorem newCrawler_keyed (h : st.Keyed sha1) : (st.newCrawler sha1 url lang).Keyed sha1 := by
  intro l key u hget
  rw [todo_newCrawler] at hget
  split at hget
  · rw [URLStorage.add, Std.TreeMap.getElem?_insert] at hget
    split at hget
    · rename_i hsame
      rw [← Option.some.inj hget]
      exact (Std.LawfulEqCmp.compare_eq_iff_eq.mp hsame).symm
    · exact h l key u hget
  · exact h l key u hget

/-- A page that a refill reads is to do. -/
theorem known_of_gets (h : st.Keyed sha1) {max : ℕ} (hurl : url ∈ (st.todo lang).gets max) :
    st.Known sha1 lang url := by
  obtain ⟨key, hget, -⟩ := URLStorage.mem_gets hurl
  right
  rw [← h lang key url hget]
  show (st.todo lang).contains key = true
  rw [← Std.TreeMap.mem_iff_contains, Std.TreeMap.mem_iff_isSome_getElem?, hget]
  rfl

end CrawlerStores

/-! ## The three threads -/

/-- The seeds of `findToduURLsCN` and `findToduURLsJA`. -/
def seedURL : Lang → Option Str
  | .cn => some ("https://zh.wikipedia.org/zh-cn/%E7%94%B5%E5%AD%90".toList.map
      (fun c => UInt8.ofNat c.toNat))
  | .ja => some ("https://ja.wikipedia.org/wiki/%E9%9B%BB%E5%AD%90".toList.map
      (fun c => UInt8.ofNat c.toNat))
  | .other => none

section Threads

variable (r : JsonReader) (sha1 : Str → Str)

/-- The crawler service: `fetchCrawlerTask` sends one empty datagram more behind every
answer; the todo stores are those of the save server. -/
def urlCrawler : RefilledPool.Server Lang Str CrawlerServer CrawlerServer.Action where
  keys := [.cn, .ja]
  snapshot s lang := (s.stores.todo lang).gets iConstPathCacheMax
  seed := seedURL
  trailer := 1
  storeStep := CrawlerServer.step r sha1

/-- A state of the crawler service. -/
abbrev CrawlerService := RefilledPool.Pool Lang Str CrawlerServer

/-- A step of one of its threads. -/
abbrev CrawlerAction := RefilledPool.Action Lang CrawlerServer.Action

abbrev crawlerStep : CrawlerService → CrawlerAction → Option CrawlerService :=
  RefilledPool.step (urlCrawler r sha1)

/-- The service when it starts. -/
abbrev crawlerStart (stores : CrawlerStores) : CrawlerService :=
  RefilledPool.start (urlCrawler r sha1) (CrawlerServer.start stores)

variable {r sha1}

/-- A save message marks its page and stores the pages found on it; that changes the todo
stores, and nothing else does. -/
theorem todo_step {s t : CrawlerServer} {a : CrawlerServer.Action}
    (hstep : CrawlerServer.step r sha1 s a = some t) :
    t.stores = s.stores ∨
    (∃ text m, a = .work ∧ s.worker = .taken text ∧ r.read_json text = some m ∧
      t.stores = s.stores.markCrawler sha1 m.urlDone m.langOf) ∨
    ∃ url lang, t.stores = s.stores.newCrawler sha1 url lang := by
  obtain ⟨rfl, hwork⟩ | ⟨hst, -, -⟩ := CrawlerServer.step_cases hstep
  · obtain ⟨text, htaken, rfl⟩ | ⟨m, url, rest, -, rfl⟩ | ⟨m, -, rfl⟩ | ⟨hst, -⟩ :=
      CrawlerServer.work_cases hwork
    · cases hread : r.read_json text with
      | none => exact Or.inl (by simp only [CrawlerServer.processTextInSide, hread])
      | some m =>
          refine Or.inr (Or.inl ⟨text, m, rfl, htaken, hread, ?_⟩)
          simp only [CrawlerServer.processTextInSide, hread]
    · by_cases hempty : url.isEmpty = true
      · exact Or.inl (if_pos hempty)
      · exact Or.inr (Or.inr ⟨url, m.langOf, if_neg hempty⟩)
    · exact Or.inl rfl
    · exact Or.inl hst
  · exact Or.inl hst

theorem keyed_step {s t : CrawlerServer} {a : CrawlerServer.Action}
    (hkeyed : s.stores.Keyed sha1) (hstep : CrawlerServer.step r sha1 s a = some t) :
    t.stores.Keyed sha1 := by
  obtain hsame | ⟨_, m, -, -, -, hmark⟩ | ⟨url, lang, hnew⟩ := todo_step hstep
  · rw [hsame]
    exact hkeyed
  · rw [hmark]
    exact CrawlerStores.markCrawler_keyed hkeyed
  · rw [hnew]
    exact CrawlerStores.newCrawler_keyed hkeyed

/-- Nothing is under way when the service starts. -/
theorem items_start (stores : CrawlerStores) (lang : Lang) :
    (crawlerStart r sha1 stores).items lang = [] := rfl

/-! ## What is handed out -/

/-- **What is queued or handed out is a seed or known to the stores**: done, or still to
do, so that a later refill reads it again. -/
theorem handed_out_known {stores : CrawlerStores} (hkeyed : stores.Keyed sha1)
    {acts : List CrawlerAction} {p : CrawlerService}
    (hrun : run (crawlerStep r sha1) (crawlerStart r sha1 stores) acts = some p)
    {lang : Lang} {url : Str} (hurl : url ∈ p.items lang) :
    p.store.stores.Known sha1 lang url ∨ seedURL lang = some url := by
  have hok : Along (crawlerStep r sha1) (RefilledPool.StoreOk (fun _ _ => True))
      (crawlerStart r sha1 stores) acts :=
    along_of_forall (fun a _ s => by cases a <;> trivial)
  have hend := RefilledPool.of_run (S := urlCrawler r sha1)
    (I := fun s => s.stores.Keyed sha1)
    (G := fun s lang url => s.stores.Known sha1 lang url)
    (fun s key item hinv hitem => CrawlerStores.known_of_gets hinv hitem)
    (fun s b t hinv _ hstep => ⟨keyed_step hinv hstep, fun key item hknown =>
      (CrawlerServer.step_grows hstep).known hknown⟩)
    hok hrun trivial hkeyed (fun key item hitem => absurd hitem List.not_mem_nil)
  exact hend.2 lang url hurl

/-- Two pages to crawl. -/
def twoToDo : CrawlerStores :=
  ⟨∅, URLStorage.add (URLStorage.add ∅ (pageSha1 pageA) pageA) (pageSha1 pageB) pageB, ∅, ∅⟩

theorem twoToDo_keyed : twoToDo.Keyed pageSha1 := by
  intro lang key url hget
  have hentries : ∀ e ∈ (twoToDo.todo lang).toList, e.1 = pageSha1 e.2 := by
    cases lang <;> decide +kernel
  exact hentries _ (Std.TreeMap.mem_toList_iff_getElem?_eq_some.mpr hget)

/-- A refill of one queue, then a page is handed out. -/
def fetchedAfter : List CrawlerAction :=
  [.collect, .collect, .collect, .collect, .fetch .cn, .back, .pop_back, .send]

/-- A page is read, another one is pushed behind it, and then the last one is removed. -/
def fetchedMeanwhile : List CrawlerAction :=
  [.collect, .collect, .fetch .cn, .back, .collect, .pop_back, .send, .collect, .fetch .cn,
    .back, .pop_back, .send]

theorem handed_out_known_page :
    ∃ p, run (crawlerStep CrawlerServer.pageReader pageSha1)
        (crawlerStart CrawlerServer.pageReader pageSha1 twoToDo) fetchedAfter = some p ∧
      (p.store.stores.Known pageSha1 .cn pageB ∨ seedURL .cn = some pageB) := by
  have hrun : (run (crawlerStep CrawlerServer.pageReader pageSha1)
      (crawlerStart CrawlerServer.pageReader pageSha1 twoToDo) fetchedAfter).any
      (fun p => pageB ∈ p.items .cn) = true := by decide +kernel
  obtain ⟨p, hp, hmem⟩ := (Option.any_eq_true _ _).mp hrun
  exact ⟨p, hp, handed_out_known twoToDo_keyed hp (of_decide_eq_true hmem)⟩

/-- **Every page that a refill reads is handed out once or still waits**, and so is every
seed, as long as no push falls between `back` and `pop_back`. -/
theorem refills_accounted {stores : CrawlerStores} {acts : List CrawlerAction}
    {p : CrawlerService}
    (hok : Along (crawlerStep r sha1) (fun s a => RefilledPool.overlaps s a = false)
      (crawlerStart r sha1 stores) acts)
    (hrun : run (crawlerStep r sha1) (crawlerStart r sha1 stores) acts = some p)
    (lang : Lang) :
    (p.items lang).Perm (RefilledPool.supplied (urlCrawler r sha1) lang
      (crawlerStart r sha1 stores) acts) := by
  have h := RefilledPool.accounted (p := crawlerStart r sha1 stores) trivial hok hrun lang
  rwa [items_start, List.nil_append] at h

theorem refills_accounted_page :
    ∃ p, run (crawlerStep CrawlerServer.pageReader pageSha1)
        (crawlerStart CrawlerServer.pageReader pageSha1 twoToDo) fetchedAfter = some p ∧
      (p.items .cn).Perm (RefilledPool.supplied (urlCrawler CrawlerServer.pageReader pageSha1)
        .cn (crawlerStart CrawlerServer.pageReader pageSha1 twoToDo) fetchedAfter) := by
  have hrun : (run (crawlerStep CrawlerServer.pageReader pageSha1)
      (crawlerStart CrawlerServer.pageReader pageSha1 twoToDo) fetchedAfter).isSome := by
    decide +kernel
  obtain ⟨p, hp⟩ := Option.isSome_iff_exists.mp hrun
  exact ⟨p, hp, refills_accounted (by decide +kernel) hp .cn⟩

/-- One page is handed out twice, the other one is gone. -/
theorem handed_out_twice :
    ∃ p, run (crawlerStep CrawlerServer.pageReader pageSha1)
        (crawlerStart CrawlerServer.pageReader pageSha1 twoToDo) fetchedMeanwhile = some p ∧
      p.items .cn = [pageA, pageA] := by
  have hrun : (run (crawlerStep CrawlerServer.pageReader pageSha1)
      (crawlerStart CrawlerServer.pageReader pageSha1 twoToDo) fetchedMeanwhile).any
      (fun p => p.items .cn = [pageA, pageA]) = true := by decide +kernel
  obtain ⟨p, hp, hitems⟩ := (Option.any_eq_true _ _).mp hrun
  exact ⟨p, hp, of_decide_eq_true hitems⟩

/-! ## The first 32 pages -/

/-- The message does not mark a page of these keys. -/
def LeavesToDo (r : JsonReader) (sha1 : Str → Str) (lang : Lang) (keys : List Str)
    (text : Str) : Prop :=
  ∀ m, r.read_json text = some m → m.langOf = lang → sha1 m.urlDone ∉ keys

/-- These keys are to do, and no message that the save server has received changes that. -/
structure StayToDo (r : JsonReader) (sha1 : Str → Str) (lang : Lang) (keys : List Str)
    (s : CrawlerServer) : Prop where
  keyed : s.stores.Keyed sha1
  todo : ∀ k ∈ keys, (s.stores.todo lang).is_has k = true
  received : LeavesToDo r sha1 lang keys s.gTask
  taken : ∀ text, s.worker = .taken text → LeavesToDo r sha1 lang keys text

/-- The slot holds the last message, and the worker takes its text from there. -/
theorem task_step {s t : CrawlerServer} {a : CrawlerServer.Action}
    (hstep : CrawlerServer.step r sha1 s a = some t) :
    (t.gTask = s.gTask ∨ a = .arrive t.gTask) ∧
      ∀ text, t.worker = .taken text → s.worker = .taken text ∨ text = s.gTask := by
  cases a with
  | arrive text =>
      simp only [CrawlerServer.step] at hstep
      split at hstep
      · obtain rfl := Option.some.inj hstep
        exact ⟨Or.inr rfl, fun _ => Or.inl⟩
      · exact absurd hstep (by simp)
  | serve =>
      simp only [CrawlerServer.step, CrawlerServer.serve] at hstep
      split at hstep
      · exact absurd hstep (by simp)
      · obtain rfl := Option.some.inj hstep
        exact ⟨Or.inl rfl, fun _ => Or.inl⟩
      · obtain rfl := Option.some.inj hstep
        refine ⟨Or.inl rfl, fun text hworker => Or.inl ?_⟩
        dsimp only at hworker
        split at hworker
        · exact absurd hworker (by simp)
        · exact hworker
  | work =>
      simp only [CrawlerServer.step, CrawlerServer.work] at hstep
      split at hstep
      case h_2 => exact absurd hstep (by simp)
      case h_3 =>
          split at hstep
          · obtain rfl := Option.some.inj hstep
            exact ⟨Or.inl rfl, fun _ hworker => absurd hworker (by simp)⟩
          · obtain rfl := Option.some.inj hstep
            exact ⟨Or.inl rfl, fun _ hworker =>
              Or.inr (WorkerPhase.taken.inj hworker).symm⟩
      case h_4 text _ =>
          obtain rfl := Option.some.inj hstep
          unfold CrawlerServer.processTextInSide
          split <;> exact ⟨Or.inl rfl, fun _ hworker => absurd hworker (by simp)⟩
      case h_5 m url rest _ =>
          obtain rfl := Option.some.inj hstep
          refine ⟨Or.inl rfl, fun _ hworker => ?_⟩
          dsimp only [CrawlerServer.storeNext] at hworker
          split at hworker <;> exact absurd hworker (by simp)
      all_goals
        obtain rfl := Option.some.inj hstep
        exact ⟨Or.inl rfl, fun _ hworker => absurd hworker (by simp)⟩
  | spurious =>
      simp only [CrawlerServer.step] at hstep
      split at hstep
      · obtain rfl := Option.some.inj hstep
        exact ⟨Or.inl rfl, fun _ hworker => absurd hworker (by simp)⟩
      · exact absurd hstep (by simp)

theorem StayToDo.step {lang : Lang} {keys : List Str} {s t : CrawlerServer}
    {a : CrawlerServer.Action} (h : StayToDo r sha1 lang keys s)
    (hok : ∀ text, a = .arrive text → LeavesToDo r sha1 lang keys text)
    (hstep : CrawlerServer.step r sha1 s a = some t) : StayToDo r sha1 lang keys t := by
  obtain ⟨htask, htaken⟩ := task_step hstep
  refine ⟨keyed_step h.keyed hstep, fun k hk => ?_, ?_, fun text hworker => ?_⟩
  · have hhas := h.todo k hk
    obtain hsame | ⟨text, m, -, hworker, hread, hmark⟩ | ⟨url, l, hnew⟩ := todo_step hstep
    · rw [hsame]
      exact hhas
    · rw [hmark, CrawlerStores.todo_markCrawler]
      split
      · rename_i hown
        have hne : sha1 m.urlDone ≠ k := by
          rintro rfl
          exact h.taken text hworker m hread hown.1 hk
        rw [URLStorage.is_has_remove, decide_eq_true hne, hhas, Bool.and_true]
      · exact hhas
    · rw [hnew, CrawlerStores.todo_newCrawler]
      split
      · rw [URLStorage.is_has_add, hhas, Bool.or_true]
      · exact hhas
  · obtain hsame | harrive := htask
    · rw [hsame]
      exact h.received
    · exact hok _ harrive
  · obtain hold | rfl := htaken text hworker
    · exact h.taken text hold
    · exact h.received

/-- **Only the first pages are handed out**: as long as 32 keys stay to do, no page whose
key comes behind all of them is, whatever else is crawled. -/
theorem first_keys_only {stores : CrawlerStores} (hkeyed : stores.Keyed sha1) {lang : Lang}
    {keys : List Str} (hnodup : keys.Nodup) (hmany : iConstPathCacheMax ≤ keys.length)
    (htodo : ∀ k ∈ keys, (stores.todo lang).is_has k = true) {acts : List CrawlerAction}
    (hleft : ∀ text, .store (.arrive text) ∈ acts → LeavesToDo r sha1 lang keys text)
    {p : CrawlerService}
    (hrun : run (crawlerStep r sha1) (crawlerStart r sha1 stores) acts = some p) {url : Str}
    (hurl : url ∈ p.items lang) (hseed : seedURL lang ≠ some url) :
    ∃ k ∈ keys, compare k (sha1 url) ≠ .lt := by
  have hok : Along (crawlerStep r sha1) (RefilledPool.StoreOk
      (fun _ b => ∀ text, b = .arrive text → LeavesToDo r sha1 lang keys text))
      (crawlerStart r sha1 stores) acts := by
    apply along_of_forall
    intro a ha s
    cases a with
    | store b =>
        rintro text rfl
        exact hleft text ha
    | fetch _ | back | pop_back | send | collect | wake => trivial
  have hstart : StayToDo r sha1 lang keys (CrawlerServer.start stores) := by
    refine ⟨hkeyed, htodo, fun m hread => ?_, fun _ hworker => absurd hworker ?_⟩
    · exact absurd (r.read_json_nil.symm.trans hread) (by simp)
    · simp [CrawlerServer.start]
  have hend := RefilledPool.of_run (S := urlCrawler r sha1)
    (I := StayToDo r sha1 lang keys)
    (G := fun _ l url => l = lang → ∃ k ∈ keys, compare k (sha1 url) ≠ .lt)
    ?_ (fun s b t hinv hb hstep => ⟨hinv.step hb hstep, fun _ _ => id⟩) hok hrun trivial hstart
    (fun key item hitem => absurd hitem List.not_mem_nil)
  · exact (hend.2 lang url hurl).elim (fun h => h rfl) (fun h => absurd h hseed)
  · rintro s l u hinv hread rfl
    obtain ⟨key, hget, hfirst⟩ := URLStorage.mem_gets hread
    obtain rfl := hinv.keyed l key u hget
    by_contra hall
    have hbefore : ∀ k ∈ keys, compare k (sha1 u) = .lt := by
      intro k hk
      by_contra hne
      exact hall ⟨k, hk, hne⟩
    have hfew := hfirst keys hnodup (fun k hk => ⟨hinv.todo k hk, hbefore k hk⟩)
    omega

/-- 33 pages, each its own key. -/
def manyToDo : CrawlerStores :=
  ⟨∅, (List.range 33).foldl (fun s i => s.add [UInt8.ofNat i] [UInt8.ofNat i]) ∅, ∅, ∅⟩

theorem first_keys_only_many :
    ∃ p, run (crawlerStep CrawlerServer.pageReader id)
        (crawlerStart CrawlerServer.pageReader id manyToDo)
        [.collect, .collect, .fetch .cn, .back, .pop_back, .send] = some p ∧
      ∃ k ∈ (List.range 32).map (fun i => [UInt8.ofNat i]), compare k [0] ≠ .lt := by
  have hrun : (run (crawlerStep CrawlerServer.pageReader id)
      (crawlerStart CrawlerServer.pageReader id manyToDo)
      [.collect, .collect, .fetch .cn, .back, .pop_back, .send]).any
      (fun p => [0] ∈ p.items .cn) = true := by decide +kernel
  obtain ⟨p, hp, hmem⟩ := (Option.any_eq_true _ _).mp hrun
  refine ⟨p, hp, first_keys_only ?_ (by decide +kernel) (by decide)
    (by decide +kernel) (fun text hmem => absurd hmem (by simp)) hp (of_decide_eq_true hmem)
    (by decide +kernel)⟩
  intro lang key url hget
  have hentries : ∀ e ∈ (manyToDo.todo lang).toList, e.1 = e.2 := by
    cases lang <;> decide +kernel
  exact hentries _ (Std.TreeMap.mem_toList_iff_getElem?_eq_some.mpr hget)

end Threads

end WaiNative

import WaiNative.Service.CrawlerFetch
import WaiNative.Training.Corpus

/-!
# Handing out tasks of the parrot and the phoenix

The fetch servers of these two stages are one program with other names. Unlike the server
of the ostrich stage they refill a queue without the lock that a fetch holds, and do not
ask whether a page is done. Messages of the clients arrive at any time and change the
stores of their stage.

Nothing adds to a Todo store while the servers run. So what they hand out was to do when
they started, and is done or still to do (`stage_handed_out`), whatever the threads do.
-/

namespace WaiNative

open Cxx Runs

/-- The Todo store of a language. -/
def StageStores.todoOf (st : StageStores) (lang : Lang) : URLStorage :=
  match st.get lang with
  | some s => s.Todo
  | none => ∅

section Fetch

variable (sha1 : Str → Str)

/-- The fetch server of a stage beside its save server. -/
def stageFetch (stage : Stage) : RefilledPool.Server Lang Str TrainStores Task where
  keys := [.cn, .ja]
  snapshot st lang := ((st.stage stage).todoOf lang).gets iConstPathCacheMax
  seed := fun _ => none
  trailer := 0
  storeStep st task := some (processText2 sha1 stage task st)

/-- `fetchParrotTask`, and `TRY_FIND_TASK` of the parrot stage. -/
def parrotFetch : RefilledPool.Server Lang Str TrainStores Task := stageFetch sha1 .parrot

/-- `fetchPhoenixTask`, and `TRY_FIND_TASK` of the phoenix stage. -/
def phoenixFetch : RefilledPool.Server Lang Str TrainStores Task := stageFetch sha1 .phoenix

variable {sha1} {stage : Stage} {lang : Lang}

theorem todoOf_save (st : StageStores) (l : Lang) (url word : Str) :
    (st.save sha1 l url word).todoOf lang =
      if l = lang ∧ l ≠ .other then (st.todoOf lang).remove (sha1 url) else st.todoOf lang := by
  have hmark : ∀ s : LangStores, (s.markDone sha1 url).Todo = s.Todo := by
    intro s
    unfold LangStores.markDone
    dsimp only
    split <;> rfl
  cases l <;> cases lang <;>
    simp [StageStores.save, StageStores.modify, StageStores.todoOf, StageStores.get,
      LangStores.putWords, LangStores.unmarkTodo, hmark]

/-- The entries are those of another store, each under its `sha1`. -/
def EntriesOf (sha1 : Str → Str) (before now : URLStorage) : Prop :=
  ∀ key url, now[key]? = some url → before[key]? = some url ∧ key = sha1 url

theorem entriesOf_remove {before now : URLStorage} (h : EntriesOf sha1 before now)
    (key : Str) : EntriesOf sha1 before (now.remove key) := by
  intro k url hget
  rw [URLStorage.remove, Std.TreeMap.getElem?_erase] at hget
  split at hget
  · exact absurd hget (by simp)
  · exact h k url hget

/-- The page is to do or done. -/
def StageStores.Kept (sha1 : Str → Str) (st : StageStores) (lang : Lang) (url : Str) : Prop :=
  (st.todoOf lang).is_has (sha1 url) = true ∨ st.IsDone sha1 lang url

/-- A save moves pages from the Todo store to the Done store. -/
theorem kept_save {st : StageStores} {l : Lang} {saved word url : Str}
    (h : st.Kept sha1 lang url) : (st.save sha1 l saved word).Kept sha1 lang url := by
  unfold StageStores.Kept
  rw [todoOf_save, isDone_save]
  obtain htodo | hdone := h
  · by_cases hsame : l = lang ∧ l ≠ .other ∧ sha1 saved = sha1 url
    · exact Or.inr (Or.inr hsame)
    · left
      split
      · rename_i hlang
        have hne : sha1 saved ≠ sha1 url := fun heq => hsame ⟨hlang.1, hlang.2, heq⟩
        rw [URLStorage.is_has_remove, decide_eq_true hne, htodo, Bool.and_true]
      · exact htodo
  · exact Or.inr (Or.inl hdone)

/-- **What a stage hands out was to do from the start, and is done or still to do.** -/
theorem stage_handed_out {stores : TrainStores}
    (hkeyed : ∀ lang, EntriesOf sha1 ((stores.stage stage).todoOf lang)
      ((stores.stage stage).todoOf lang))
    {acts : List (RefilledPool.Action Lang Task)} {p : RefilledPool.Pool Lang Str TrainStores}
    (hrun : run (RefilledPool.step (stageFetch sha1 stage))
      (RefilledPool.start (stageFetch sha1 stage) stores) acts = some p)
    {url : Str} (hurl : url ∈ p.items lang) :
    ((stores.stage stage).todoOf lang)[sha1 url]? = some url ∧
      (p.store.stage stage).Kept sha1 lang url := by
  have hok : Along (RefilledPool.step (stageFetch sha1 stage))
      (RefilledPool.StoreOk (fun _ _ => True))
      (RefilledPool.start (stageFetch sha1 stage) stores) acts :=
    along_of_forall (fun a _ s => by cases a <;> trivial)
  have hend := RefilledPool.of_run (S := stageFetch sha1 stage)
    (I := fun st => ∀ lang, EntriesOf sha1 ((stores.stage stage).todoOf lang)
      ((st.stage stage).todoOf lang))
    (G := fun st lang url => ((stores.stage stage).todoOf lang)[sha1 url]? = some url ∧
      (st.stage stage).Kept sha1 lang url)
    ?_ ?_ hok hrun trivial hkeyed (fun key item hitem => absurd hitem List.not_mem_nil)
  · exact (hend.2 lang url hurl).elim id (fun h => absurd h (by simp [stageFetch]))
  · intro st l u hinv hread
    obtain ⟨key, hget, -⟩ := URLStorage.mem_gets hread
    obtain ⟨hbefore, rfl⟩ := hinv l key u hget
    refine ⟨hbefore, Or.inl ?_⟩
    show ((st.stage stage).todoOf l).contains (sha1 u) = true
    rw [← Std.TreeMap.mem_iff_contains, Std.TreeMap.mem_iff_isSome_getElem?, hget]
    rfl
  · intro st task st' hinv _ hstep
    obtain rfl := Option.some.inj hstep
    obtain ⟨l, saved, word, -, -, -, -, hsave⟩ | ⟨-, hsame⟩ :=
      processText2_stage sha1 task st stage
    · rw [hsave]
      refine ⟨fun lang => ?_, fun lang u h => ⟨h.1, kept_save h.2⟩⟩
      rw [todoOf_save]
      split
      · exact entriesOf_remove (hinv lang) _
      · exact hinv lang
    · rw [hsame]
      exact ⟨hinv, fun _ _ => id⟩

/-- Two pages to do in the parrot stage. -/
def parrotToDo : TrainStores :=
  ⟨⟨⟨∅, ∅, ∅⟩, ⟨∅, ∅, ∅⟩⟩, ⟨⟨∅, twoToDo.gCNTodoStorage, ∅⟩, ⟨∅, ∅, ∅⟩⟩,
    ⟨⟨∅, ∅, ∅⟩, ⟨∅, ∅, ∅⟩⟩⟩

/-- A page is saved by another client while it is being handed out. -/
def savedMeanwhile : List (RefilledPool.Action Lang Task) :=
  [.collect, .collect, .fetch .cn, .back, .store ⟨some .cn, some pageA, some .parrot, none,
    some emptyRecord⟩, .pop_back, .send]

theorem stage_handed_out_page :
    ∃ p, run (RefilledPool.step (parrotFetch pageSha1))
        (RefilledPool.start (parrotFetch pageSha1) parrotToDo) savedMeanwhile = some p ∧
      (p.store.stage .parrot).Kept pageSha1 .cn pageA := by
  have hrun : (run (RefilledPool.step (parrotFetch pageSha1))
      (RefilledPool.start (parrotFetch pageSha1) parrotToDo) savedMeanwhile).any
      (fun p => pageA ∈ p.items .cn) = true := by decide +kernel
  obtain ⟨p, hp, hmem⟩ := (Option.any_eq_true _ _).mp hrun
  refine ⟨p, hp, (stage_handed_out ?_ hp (of_decide_eq_true hmem)).2⟩
  intro lang key url hget
  have hentries : ∀ e ∈ ((parrotToDo.stage .parrot).todoOf lang).toList,
      e.1 = pageSha1 e.2 := by
    cases lang <;> decide +kernel
  exact ⟨hget, hentries _ (Std.TreeMap.mem_toList_iff_getElem?_eq_some.mpr hget)⟩

end Fetch

end WaiNative

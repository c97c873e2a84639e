import WaiNative.Training.CheckedCounts
import WaiNative.Service.SaveTask

/-!
# Committing an article

After an article's sentences have been learned, `commitArticle` uploads the
ranking, one message for each batch, and the server marks the task's URL as done
with the first of them. Without a batch nothing is uploaded, and the URL stays
to be done.

`OstrichWord` always has a batch. `ParrotWord` and `PhoenixWord` have none when
words were collected but none of them often enough. No learner has one when a count has
overflowed (`reports_iff`). The counter of the records behind a batch is taken to be an
`int` that does not overflow: that takes `2^31` different words in one article.
-/

namespace WaiNative

open Cxx ShortestPath

/-! ## `commitArticle` -/

/-- A message to the server of a stage, under the task's tag. -/
structure Upload where
  stage : Stage
  tag : Str
  upTask : Task

/-- The loop of `commitArticle`. A task without a tag is not uploaded. -/
def uploads (stage : Stage) (wordArrays : List Str) (task : Task) : List Upload :=
  wordArrays.flatMap (fun word =>
    let upTask := { task with word := some word }
    match task.tag with
    | some tag => [⟨stage, tag, upTask⟩]
    | none => [])

def OstrichWord.commitArticle (o : OstrichWord) (task : Task) :
    OstrichWord × List Upload :=
  let wordArrays := OstrichWord.pickupWordRanking o.multiWordOfOneArticle_
  ({ o with multiWordOfOneArticle_ := ∅ }, uploads .ostrich wordArrays task)

def ParrotWord.commitArticle (p : ParrotWord) (task : Task) : ParrotWord × List Upload :=
  let wordArrays := ParrotWord.pickupWordRanking p.multiWordOfOneArticle_
  ({ p with multiWordOfOneArticle_ := ∅ }, uploads .parrot wordArrays task)

def PhoenixWord.commitArticle (p : PhoenixWord) (task : Task) :
    PhoenixWord × List Upload :=
  let wordArrays := PhoenixWord.pickupWordRanking p.multiWordOfOneArticle_
  ({ p with multiWordOfOneArticle_ := ∅ }, uploads .phoenix wordArrays task)

/-! ## Articles -/

/-- One call of `learn`. -/
structure LearnCall where
  wordBytes : List Str
  text : Str
  lang : Lang

def OstrichWord.learnAll (o : OstrichWord) (calls : List LearnCall) : OstrichWord :=
  calls.foldl (fun o c => o.learn c.wordBytes) o

def OstrichWord.checkedLearnAll (o : OstrichWord) (calls : List LearnCall) :
    Option OstrichWord :=
  calls.foldlM (fun o c => o.checkedLearn c.wordBytes) o

section LearnAll

variable (pow : ℚ → ℚ → ℚ)

def ParrotWord.learnAll (p : ParrotWord) (calls : List LearnCall) : ParrotWord :=
  calls.foldl (fun p c => p.learn pow c.wordBytes c.text c.lang) p

def PhoenixWord.learnAll (dijkstra : WGraph ℚ → ℕ → ℕ) (p : PhoenixWord)
    (calls : List LearnCall) : Option PhoenixWord :=
  calls.foldlM (fun p c => p.learn pow dijkstra c.wordBytes c.text c.lang) p

def ParrotWord.checkedLearnAll (p : ParrotWord) (calls : List LearnCall) :
    Option ParrotWord :=
  calls.foldlM (fun p c => p.checkedLearn pow c.wordBytes c.text c.lang) p

def PhoenixWord.checkedLearnAll (dijkstra : WGraph ℚ → ℕ → ℕ) (p : PhoenixWord)
    (calls : List LearnCall) : Option PhoenixWord :=
  calls.foldlM (fun p c => p.checkedLearn pow dijkstra c.wordBytes c.text c.lang) p

/-- Boost's parents lead back along edges on every run of the article. -/
def ValidOnAll (dijkstra : WGraph ℚ → ℕ → ℕ) (p : PhoenixWord) (calls : List LearnCall) :
    Prop :=
  ∀ c ∈ calls, ∀ st, prepare pow (inputPred p.dictInputCN_ p.dictInputJA_ c.lang)
    c.wordBytes c.text = some st → ValidOn dijkstra wordRule st

variable {pow} {dijkstra : WGraph ℚ → ℕ → ℕ}

/-- On a run `learn` returns, with the same dictionaries. -/
theorem PhoenixWord.learn_returns (p : PhoenixWord) {c : LearnCall}
    (hemits : CtrlClaw.Emits c.wordBytes c.text)
    (hvalid : ∀ st, prepare pow (inputPred p.dictInputCN_ p.dictInputJA_ c.lang)
      c.wordBytes c.text = some st → ValidOn dijkstra wordRule st) :
    ∃ p', p.learn pow dijkstra c.wordBytes c.text c.lang = some p' ∧
      p'.dictInputCN_ = p.dictInputCN_ ∧ p'.dictInputJA_ = p.dictInputJA_ := by
  by_cases hlong : c.wordBytes.length < 2
  · exact ⟨p, if_pos hlong, rfl, rfl⟩
  · obtain ⟨st, st', hst, hpred, -⟩ :=
      predict_selection hemits.run pow _ hvalid
    exact ⟨_, p.learn_of_predict hst hpred hlong, rfl, rfl⟩

/-- **Learning an article never throws.** -/
theorem PhoenixWord.learnAll_returns : ∀ (calls : List LearnCall) (p : PhoenixWord),
    (∀ c ∈ calls, CtrlClaw.Emits c.wordBytes c.text) → ValidOnAll pow dijkstra p calls →
    ∃ p', p.learnAll pow dijkstra calls = some p'
  | [], p, _, _ => ⟨p, rfl⟩
  | c :: calls, p, hemits, hvalid => by
      obtain ⟨p', hp', hcn, hja⟩ := p.learn_returns (hemits c List.mem_cons_self)
        (hvalid c List.mem_cons_self)
      have hvalid' : ValidOnAll pow dijkstra p' calls := by
        intro d hd
        rw [hcn, hja]
        exact hvalid d (List.mem_cons_of_mem _ hd)
      obtain ⟨q, hq⟩ := PhoenixWord.learnAll_returns calls p'
        (fun d hd => hemits d (List.mem_cons_of_mem _ hd)) hvalid'
      refine ⟨q, ?_⟩
      rw [PhoenixWord.learnAll, List.foldlM_cons, hp']
      exact hq

variable {calls : List LearnCall}

/-- An article overflows no count of `OstrichWord` exactly when none is too large at its
end; so it is for the others. -/
theorem OstrichWord.checkedLearnAll_iff {o o' : OstrichWord}
    (ho : IntValues o.multiWordOfOneArticle_) :
    o.checkedLearnAll calls = some o' ↔
      o.learnAll calls = o' ∧ IntValues o'.multiWordOfOneArticle_ := by
  have hfold : calls.foldlM (fun o c => some (OstrichWord.learn o c.wordBytes)) o =
      some (o.learnAll calls) := List.foldlM_pure
  rw [OstrichWord.checkedLearnAll, checked_run
    (fun o c => some (OstrichWord.learn o c.wordBytes)) ?_ ?_ ho, hfold,
    Option.some_inj]
  · intro o c o' ho
    rw [OstrichWord.checkedLearn_iff ho, Option.some_inj]
  · intro o c o' h
    obtain rfl := Option.some.inj h
    exact o.learn_collects

theorem ParrotWord.checkedLearnAll_iff {p p' : ParrotWord}
    (hp : IntValues p.multiWordOfOneArticle_) :
    p.checkedLearnAll pow calls = some p' ↔
      p.learnAll pow calls = p' ∧ IntValues p'.multiWordOfOneArticle_ := by
  have hfold : calls.foldlM
      (fun p c => some (ParrotWord.learn pow p c.wordBytes c.text c.lang)) p =
      some (p.learnAll pow calls) := List.foldlM_pure
  rw [ParrotWord.checkedLearnAll, checked_run
    (fun p c => some (ParrotWord.learn pow p c.wordBytes c.text c.lang)) ?_ ?_ hp,
    hfold, Option.some_inj]
  · intro p c p' hp
    rw [ParrotWord.checkedLearn_iff hp, Option.some_inj]
  · intro p c p' h
    obtain rfl := Option.some.inj h
    exact p.learn_collects

theorem PhoenixWord.checkedLearnAll_iff {x x' : PhoenixWord}
    (hx : IntValues x.multiWordOfOneArticle_) :
    x.checkedLearnAll pow dijkstra calls = some x' ↔
      x.learnAll pow dijkstra calls = some x' ∧ IntValues x'.multiWordOfOneArticle_ :=
  checked_run _ (fun _ _ _ hx => PhoenixWord.checkedLearn_iff hx)
    (fun _ _ _ h => PhoenixWord.learn_collects h) hx

end LearnAll

/-! ## What reaches the server -/

section Reports

variable (sha1 : Str → Str)

/-- The service of a stage handles the messages one after the other. -/
def receive (stage : Stage) (messages : List Upload) (st : TrainStores) : TrainStores :=
  messages.foldl (fun st u => processText2 sha1 stage u.upTask st) st

/-- There is a batch; for every task with a tag something is uploaded, and the
server of the stage marks the URL as done. -/
structure Reported (stage : Stage) (wordArrays : List Str)
    (commitArticle : Task → List Upload) : Prop where
  ne_nil : wordArrays ≠ []
  uploaded : ∀ task : Task, task.tag.isSome → commitArticle task ≠ []
  marked : ∀ (task : Task) (lang : Lang) (url : Str) (st : TrainStores),
    task.tag.isSome → task.type = some stage → task.lang = some lang → lang ≠ .other →
    task.url = some url →
    ((receive sha1 stage (commitArticle task) st).stage stage).IsDone sha1 lang url

/-- The article of a learner is reported. -/
def OstrichWord.Reports (o : OstrichWord) : Prop :=
  Reported sha1 .ostrich (OstrichWord.pickupWordRanking o.multiWordOfOneArticle_)
    (fun task => (o.commitArticle task).2)

def ParrotWord.Reports (p : ParrotWord) : Prop :=
  Reported sha1 .parrot (ParrotWord.pickupWordRanking p.multiWordOfOneArticle_)
    (fun task => (p.commitArticle task).2)

def PhoenixWord.Reports (p : PhoenixWord) : Prop :=
  Reported sha1 .phoenix (PhoenixWord.pickupWordRanking p.multiWordOfOneArticle_)
    (fun task => (p.commitArticle task).2)

variable {sha1} {stage : Stage}

/-- Each upload marks the URL, and the later ones leave it marked. -/
theorem receive_isDone {task : Task} {lang : Lang} {url tag : Str}
    (htag : task.tag = some tag) (htype : task.type = some stage)
    (hlang : task.lang = some lang) (hother : lang ≠ .other) (hurl : task.url = some url)
    (wordArrays : List Str) (st : TrainStores)
    (hst : wordArrays ≠ [] ∨ (st.stage stage).IsDone sha1 lang url) :
    ((receive sha1 stage (uploads stage wordArrays task) st).stage stage).IsDone sha1 lang url := by
  induction wordArrays generalizing st with
  | nil =>
      rcases hst with hne | hdone
      · exact absurd rfl hne
      · exact hdone
  | cons word wordArrays ih =>
      have hcons : uploads stage (word :: wordArrays) task =
          ⟨stage, tag, { task with word := some word }⟩ :: uploads stage wordArrays task := by
        simp [uploads, htag]
      rw [hcons, receive, List.foldl_cons]
      apply ih
      right
      have hprocess : (processText2 sha1 stage { task with word := some word } st).stage stage =
          (st.stage stage).save sha1 lang url word := by
        cases stage <;> simp only [processText2, hlang, hurl, htype] <;> rfl
      rw [hprocess]
      exact isDone_save.mpr (Or.inr ⟨rfl, hother, rfl⟩)

/-- Everything depends on there being a batch. -/
theorem reported_of_ne_nil {wordArrays : List Str} (h : wordArrays ≠ []) :
    Reported sha1 stage wordArrays (uploads stage wordArrays) where
  ne_nil := h
  uploaded := by
    intro task htag
    obtain ⟨tag, htag⟩ := Option.isSome_iff_exists.mp htag
    obtain ⟨word, rest, rfl⟩ := List.exists_cons_of_ne_nil h
    simp [uploads, htag]
  marked := by
    intro task lang url st htag htype hlang hother hurl
    obtain ⟨tag, htag⟩ := Option.isSome_iff_exists.mp htag
    exact receive_isDone htag htype hlang hother hurl wordArrays st (Or.inl h)

end Reports

/-! ## When there is a batch -/

section Batches

theorem ostrich_ne_nil (m : MultiWord) : OstrichWord.pickupWordRanking m ≠ [] := by
  obtain ⟨b, hb, heq⟩ := ostrich_holds m
  rw [heq, finish_ne_nil_iff hb]
  by_cases hempty : (OstrichWord.localMultiWordRank m).isEmpty = true
  · exact Or.inl hempty
  · right
    -- some count has words, and the longest of them is written
    have hne : (OstrichWord.localMultiWordRank m).toList ≠ [] := by
      intro hnil
      rw [← Std.TreeMap.isEmpty_toList, hnil] at hempty
      exact hempty rfl
    obtain ⟨r, hr⟩ := List.exists_mem_of_ne_nil _ hne
    have hwords := (getElem?_localMultiWordRank.mp
      (Std.TreeMap.mem_toList_iff_getElem?_eq_some.mp hr)).2.1
    obtain ⟨word, hword, hshort⟩ := exists_not_isShort hwords
    apply List.ne_nil_of_mem (a := (word, r.1.tdiv OstrichWord.minWordRepeateTimes_))
    refine List.mem_flatMap.mpr ⟨r, hr, List.mem_map.mpr ⟨word, ?_, rfl⟩⟩
    exact List.mem_filter.mpr ⟨hword, by simpa using hshort⟩

/-- Nothing was collected, or some word often enough. -/
def Repeated (min : ℤ) (m : MultiWord) : Prop :=
  m.isEmpty = true ∨ ∃ (w : Str) (n : ℤ), m[w]? = some n ∧ min ≤ n

theorem pickupRepeated_ne_nil_iff (min : ℤ) (m : MultiWord) :
    pickupRepeated min m ≠ [] ↔ Repeated min m := by
  obtain ⟨b, hb, heq⟩ := pickupRepeated_holds min m
  have hrecords : repeatedRecords min m ≠ [] ↔
      ∃ (w : Str) (n : ℤ), m[w]? = some n ∧ min ≤ n := by
    constructor
    · intro hne
      obtain ⟨r, hr⟩ := List.exists_mem_of_ne_nil _ hne
      obtain ⟨⟨w, n⟩, hmem, -⟩ := List.mem_map.mp hr
      obtain ⟨hin, hle⟩ := List.mem_filter.mp hmem
      exact ⟨w, n, Std.TreeMap.mem_toList_iff_getElem?_eq_some.mp hin, by simpa using hle⟩
    · rintro ⟨w, n, hn, hle⟩
      apply List.ne_nil_of_mem (a := (w, n.tdiv min))
      refine List.mem_map.mpr ⟨(w, n), List.mem_filter.mpr ⟨?_, by simpa using hle⟩, rfl⟩
      exact Std.TreeMap.mem_toList_iff_getElem?_eq_some.mpr hn
  rw [heq, finish_ne_nil_iff hb, hrecords, Repeated]

theorem reported_repeated_iff {sha1 : Str → Str} {stage : Stage} (min : ℤ) (m : MultiWord) :
    Reported sha1 stage (pickupRepeated min m) (uploads stage (pickupRepeated min m)) ↔
      Repeated min m := by
  rw [← pickupRepeated_ne_nil_iff]
  exact ⟨fun h => h.ne_nil, reported_of_ne_nil⟩

/-- **Which articles are reported**: all of `OstrichWord`'s in which no word was
collected more often than an `int` counts, and those of the others in which moreover
nothing was collected or something often enough. -/
theorem reports_iff (sha1 : Str → Str) {pow : ℚ → ℚ → ℚ} {dijkstra : WGraph ℚ → ℕ → ℕ}
    {o : OstrichWord} {p : ParrotWord} {x : PhoenixWord}
    (ho : IntValues o.multiWordOfOneArticle_) (hp : IntValues p.multiWordOfOneArticle_)
    (hx : IntValues x.multiWordOfOneArticle_) {calls : List LearnCall}
    (hemits : ∀ c ∈ calls, CtrlClaw.Emits c.wordBytes c.text)
    (hvalid : ValidOnAll pow dijkstra x calls) :
    ((∃ o', o.checkedLearnAll calls = some o' ∧ o'.Reports sha1) ↔
      IntValues (o.learnAll calls).multiWordOfOneArticle_) ∧
    ((∃ p', p.checkedLearnAll pow calls = some p' ∧ p'.Reports sha1) ↔
      IntValues (p.learnAll pow calls).multiWordOfOneArticle_ ∧
        Repeated ParrotWord.minWordRepeateTimes_
          (p.learnAll pow calls).multiWordOfOneArticle_) ∧
    ∃ x', x.learnAll pow dijkstra calls = some x' ∧
      ((∃ x'', x.checkedLearnAll pow dijkstra calls = some x'' ∧ x''.Reports sha1) ↔
        IntValues x'.multiWordOfOneArticle_ ∧
          Repeated PhoenixWord.minWordRepeateTimes_ x'.multiWordOfOneArticle_) := by
  obtain ⟨x', hx'⟩ := PhoenixWord.learnAll_returns calls x hemits hvalid
  refine ⟨?_, ?_, x', hx', ?_⟩
  · simp only [OstrichWord.checkedLearnAll_iff ho, and_assoc, exists_eq_left']
    exact and_iff_left (reported_of_ne_nil (ostrich_ne_nil _))
  · simp only [ParrotWord.checkedLearnAll_iff hp, and_assoc, exists_eq_left']
    exact and_congr_right' (reported_repeated_iff _ _)
  · simp only [PhoenixWord.checkedLearnAll_iff hx, hx', Option.some_inj, and_assoc,
      exists_eq_left']
    exact and_congr_right' (reported_repeated_iff _ _)

end Batches

/-! ## Articles of one sentence -/

section Examples

def pairCall : LearnCall := ⟨[charX, charY], charX ++ charY, .cn⟩

/-- A parrot that knows some words. -/
def someParrot (words : List Str) : ParrotWord where
  dictInputCN_ := halfDictionary words
  dictInputJA_ := halfDictionary []
  statisticsMinWordSize_ := 32
  wordHintSeq_ := []
  wordSeqTopSelected_ := []
  prediWords_ := []
  multiWordOfOneArticle_ := ∅

/-- Where all values of a table are small, as a run shows. -/
theorem intValues_of_all {m : MultiWord} (h : m.toList.all (fun r => r.2 ≤ INT_MAX) = true) :
    IntValues m := by
  intro w n hn
  exact of_decide_eq_true
    (List.all_eq_true.mp h (w, n) (Std.TreeMap.mem_toList_iff_getElem?_eq_some.mpr hn))

def charZ : Str := [230, 150, 135]

def tripleCall : LearnCall := ⟨[charX, charY, charZ], charX ++ charY ++ charZ, .cn⟩

/-- A phoenix that knows the two characters, but not the pair. -/
def charsPhoenix : PhoenixWord :=
  { pairPhoenix with dictInputCN_ := halfDictionary [charX, charY] }

/-- The parents of a chain of vertices. -/
def chainParents (_ : WGraph ℚ) (v : ℕ) : ℕ := v - 1

theorem triple_emits : CtrlClaw.Emits tripleCall.wordBytes tripleCall.text := by
  have hchars : characters (charX ++ charY ++ charZ) = [charX, charY, charZ] := by
    with_unfolding_all decide
  unfold tripleCall
  rw [← hchars]
  exact CtrlClaw.emits_of_ordinary (by decide) (by rw [hchars]; decide)

/-- Both sentences give the phoenix the same two groups. -/
theorem chars_prepare : ∀ c ∈ [pairCall, tripleCall],
    (prepare natPow (inputPred charsPhoenix.dictInputCN_ charsPhoenix.dictInputJA_ c.lang)
      c.wordBytes c.text).map (fun st => (st.wordHintSeq_, st.noConflictWordSeq_)) =
      some ([WordElement.make charX 0 (1 / 2) (1 / 2),
          WordElement.make charY 3 (1 / 2) (1 / 2)],
        [[WordElement.make charX 0 (1 / 2) (1 / 2)],
          [WordElement.make charY 3 (1 / 2) (1 / 2)]]) := by
  with_unfolding_all decide

theorem chars_validOnAll {calls : List LearnCall}
    (hcalls : ∀ c ∈ calls, c ∈ [pairCall, tripleCall]) :
    ValidOnAll natPow chainParents charsPhoenix calls := by
  intro c hc st hst g hg
  have hgroups := chars_prepare c (hcalls c hc)
  rw [hst, Option.map_some] at hgroups
  obtain ⟨hhints, hgs⟩ := Prod.mk.inj (Option.some.inj hgroups)
  rw [hgs] at hg
  rw [hhints]
  clear hst hgroups hhints hgs hc
  refine ShortestPathTree.pathTree
    (tree_of_labels (fun v => [0, 2, 2].getD v 0) ?_ ?_ ?_)
  · rfl
  · revert g
    with_unfolding_all decide
  · revert g
    with_unfolding_all decide

/-- A sentence learned five times: the parrot, which knows its first two characters as a
word, collects the third one five times, and the phoenix, which knows them one by one,
the pair of them. -/
theorem reports_repeated :
    let calls := List.replicate 5 tripleCall
    (∃ o', OstrichWord.checkedLearnAll ⟨∅⟩ calls = some o' ∧ o'.Reports id) ∧
    (∃ p', (someParrot [charX ++ charY]).checkedLearnAll natPow calls = some p' ∧
      p'.Reports id) ∧
    ∃ x', charsPhoenix.checkedLearnAll natPow chainParents calls = some x' ∧
      x'.Reports id := by
  intro calls
  have hemits : ∀ c ∈ calls, CtrlClaw.Emits c.wordBytes c.text := by
    intro c hc
    rw [List.eq_of_mem_replicate hc]
    exact triple_emits
  have hvalid : ValidOnAll natPow chainParents charsPhoenix calls := by
    apply chars_validOnAll
    intro c hc
    rw [List.eq_of_mem_replicate hc]
    simp
  obtain ⟨ho, hp, x', hx', hx⟩ := reports_iff (o := ⟨∅⟩) (p := someParrot [charX ++ charY]) id
    intValues_empty intValues_empty intValues_empty hemits hvalid
  have hphoenix : (charsPhoenix.learnAll natPow chainParents calls).map (fun x =>
      (x.multiWordOfOneArticle_.toList.all (fun r => r.2 ≤ INT_MAX),
        x.multiWordOfOneArticle_[charX ++ [45] ++ charY]?)) = some (true, some 5) := by
    with_unfolding_all decide
  rw [hx', Option.map_some] at hphoenix
  obtain ⟨hall, hpair⟩ := Prod.mk.inj (Option.some.inj hphoenix)
  refine ⟨ho.mpr (intValues_of_all (by with_unfolding_all decide)),
    hp.mpr ⟨intValues_of_all (by with_unfolding_all decide), Or.inr ⟨charZ, 5, ?_, by decide⟩⟩,
    hx.mpr ⟨intValues_of_all hall, Or.inr ⟨_, 5, hpair, by decide⟩⟩⟩
  with_unfolding_all decide

/-- One article leaves one character over for the parrot, the other one pair for
the phoenix. Both were collected once, so nothing is uploaded. -/
theorem collected_once_unreported :
    CtrlClaw.Emits tripleCall.wordBytes tripleCall.text ∧
    CtrlClaw.Emits pairCall.wordBytes pairCall.text ∧
    ¬ ((someParrot [charX ++ charY]).learnAll natPow [tripleCall]).Reports id ∧
    ValidOnAll natPow chainParents charsPhoenix [pairCall] ∧
    ∃ x', charsPhoenix.learnAll natPow chainParents [pairCall] = some x' ∧
      ¬ x'.Reports id := by
  have hparrot : ParrotWord.pickupWordRanking
      ((someParrot [charX ++ charY]).learnAll natPow [tripleCall]).multiWordOfOneArticle_ = [] := by
    with_unfolding_all decide
  have hphoenix : (charsPhoenix.learnAll natPow chainParents [pairCall]).map
      (fun x => PhoenixWord.pickupWordRanking x.multiWordOfOneArticle_) = some [] := by
    with_unfolding_all decide
  obtain ⟨x', hx', hnil⟩ := Option.map_eq_some_iff.mp hphoenix
  exact ⟨triple_emits, pair_emits, fun h => h.ne_nil hparrot, chars_validOnAll (by simp),
    x', hx', fun h => h.ne_nil hnil⟩

end Examples

end WaiNative

import WaiNative.Theory.Messages
import WaiNative.Training.WindowCounts
import WaiNative.Training.RecordBytes
import WaiNative.Storage.Dictionary
import Mathlib.Algebra.BigOperators.Ring.List
import Mathlib.Algebra.Group.Nat.Defs

/-!
# From a corpus to the dictionary

Any number of ostrich clients learn articles and upload their rankings; the server
adds what reaches it to its dictionaries. The uploads are under way in any order, and
some may be lost.

What an article contributes to a word can be said of its text alone (`Article.share`):
a third of the windows that read it, unless a longer word has the same number. The
dictionary holds the sum of the shares of all articles but for the messages that have
not arrived (`dictionary_of_run`), so it does not depend on the number of clients, on
which of them learned what, or on the order of the messages.
-/

namespace WaiNative

open Cxx Messages MasterDBWord

/-! ## What a message adds -/

/-- The calls of `putWord` that a message makes for a language in the stores of a
stage. -/
def Task.puts (t : Task) (stage : Stage) (lang : Lang) : History :=
  match t.lang, t.url, t.word, t.type with
  | some l, some _, some word, some s => if s = stage ∧ l = lang then eachWord word else []
  | _, _, _, _ => []

/-- The dictionary of a language. -/
def StageStores.dict (st : StageStores) (lang : Lang) : LevelDB :=
  match st.get lang with
  | some s => s.Dict
  | none => ∅

/-- The calls of `putWord` on a dictionary that is there already. -/
def History.onto (puts : History) (dict : LevelDB) : LevelDB :=
  puts.foldl (fun save_ p => DictionaryStorage.putWord save_ p.1 p.2) dict

section Puts

variable {sha1 : Str → Str} {lang : Lang} {stage : Stage}

theorem onto_append (puts puts' : History) (dict : LevelDB) :
    History.onto (puts ++ puts') dict = puts'.onto (puts.onto dict) :=
  List.foldl_append

theorem onto_dictionary (before puts : History) :
    puts.onto before.dictionary = History.dictionary (before ++ puts) :=
  List.foldl_append.symm

theorem markDone_dict (url : Str) (s : LangStores) :
    (s.markDone sha1 url).Dict = s.Dict := by
  unfold LangStores.markDone
  dsimp only
  split
  · rfl
  · rfl

theorem dict_modify (st : StageStores) (l : Lang) (f : LangStores → LangStores)
    (hlang : lang ≠ .other) :
    ∃ s, st.get lang = some s ∧ (st.modify l f).dict lang =
      if l = lang then (f s).Dict else s.Dict := by
  obtain ⟨s, hs⟩ := get_ne_none st hlang
  refine ⟨s, hs, ?_⟩
  unfold StageStores.dict
  rw [StageStores.get_modify, hs]
  by_cases hl : l = lang
  · rw [if_pos hl, if_pos hl, Option.map_some]
  · rw [if_neg hl, if_neg hl]

theorem dict_of_get {st : StageStores} {s : LangStores} (hs : st.get lang = some s) :
    st.dict lang = s.Dict := by
  unfold StageStores.dict
  rw [hs]

/-- What leaves the dictionaries alone. -/
theorem dict_modify_same {st : StageStores} {l : Lang} {f : LangStores → LangStores}
    (hf : ∀ s, (f s).Dict = s.Dict) (hlang : lang ≠ .other) :
    (st.modify l f).dict lang = st.dict lang := by
  obtain ⟨s, hs, hdict⟩ := dict_modify st l f hlang
  rw [hdict, hf, dict_of_get hs, ite_self]

theorem dict_save (st : StageStores) (l : Lang) (url word : Str) (hlang : lang ≠ .other) :
    (st.save sha1 l url word).dict lang =
      if l = lang then History.onto (eachWord word) (st.dict lang) else st.dict lang := by
  unfold StageStores.save
  obtain ⟨s, hs, hdict⟩ := dict_modify ((st.modify l (LangStores.markDone sha1 url)).modify l
    (LangStores.unmarkTodo sha1 url)) l (LangStores.putWords word) hlang
  have hmarked : s.Dict = st.dict lang := by
    rw [← dict_of_get hs, dict_modify_same (f := LangStores.unmarkTodo sha1 url)
      (fun _ => rfl) hlang, dict_modify_same (markDone_dict url) hlang]
  rw [hdict, ← hmarked]
  rfl

/-- A message is a save in the stores of its stage, when it is complete. -/
theorem processText2_stage (sha1 : Str → Str) (t : Task) (st : TrainStores) (stage : Stage) :
    (∃ l url word, t.lang = some l ∧ t.url = some url ∧ t.word = some word ∧
      t.type = some stage ∧
      (processText2 sha1 stage t st).stage stage = (st.stage stage).save sha1 l url word) ∨
    (¬ (t.lang.isSome ∧ t.url.isSome ∧ t.word.isSome ∧ t.type = some stage) ∧
      (processText2 sha1 stage t st).stage stage = st.stage stage) := by
  obtain ⟨l, url, type, tag, word⟩ := t
  cases l with
  | none => exact Or.inr ⟨fun h => absurd h.1 (by simp), rfl⟩
  | some l =>
  cases url with
  | none => exact Or.inr ⟨fun h => absurd h.2.1 (by simp), rfl⟩
  | some url =>
  cases word with
  | none => exact Or.inr ⟨fun h => absurd h.2.2.1 (by simp), by cases type <;> rfl⟩
  | some word =>
  cases type with
  | none => exact Or.inr ⟨fun h => absurd h.2.2.2 (by simp), rfl⟩
  | some s =>
      by_cases hstage : s = stage
      · subst hstage
        exact Or.inl ⟨l, url, word, rfl, rfl, rfl, rfl, by cases s <;> rfl⟩
      · refine Or.inr ⟨fun h => hstage (Option.some.inj h.2.2.2), ?_⟩
        cases s <;> cases stage
        all_goals first | exact absurd rfl hstage | rfl

/-- **A message makes its calls of `putWord`**, on the dictionary of its stage and its
language. -/
theorem processText2_dict (t : Task) (st : TrainStores) (hlang : lang ≠ .other) :
    ((processText2 sha1 stage t st).stage stage).dict lang =
      (t.puts stage lang).onto ((st.stage stage).dict lang) := by
  obtain ⟨l, url, word, hl, hurl, hword, htype, hsave⟩ | ⟨hincomplete, hsame⟩ :=
    processText2_stage sha1 t st stage
  · have hputs : t.puts stage lang = if l = lang then eachWord word else [] := by
      simp only [Task.puts, hl, hurl, hword, htype, true_and]
    rw [hsave, dict_save _ _ _ _ hlang, hputs]
    split <;> rfl
  · have hputs : t.puts stage lang = [] := by
      unfold Task.puts
      split
      · rename_i hl hurl hword htype
        apply if_neg
        rintro ⟨rfl, -⟩
        exact hincomplete ⟨by rw [hl]; rfl, by rw [hurl]; rfl, by rw [hword]; rfl, htype⟩
      · rfl
    rw [hsame, hputs]
    rfl

/-- The messages together. -/
theorem processAll_dict : ∀ (received : List Upload) (st : TrainStores),
    lang ≠ .other →
    ((received.foldl (fun st u => processText2 sha1 stage u.upTask st) st).stage stage).dict lang =
      History.onto (received.flatMap (fun u => u.upTask.puts stage lang))
        ((st.stage stage).dict lang)
  | [], _, _ => rfl
  | u :: received, st, hlang => by
      rw [List.foldl_cons, processAll_dict received _ hlang, processText2_dict _ _ hlang,
        List.flatMap_cons, onto_append]

end Puts

/-! ## Totals -/

section Totals

variable {puts puts' : History} {w : Str}

theorem total_append_history (puts puts' : History) (w : Str) :
    History.total (puts ++ puts') w = puts.total w + puts'.total w := by
  simp [History.total]

theorem total_flatMap {α : Type} (f : α → History) (w : Str) : ∀ l : List α,
    History.total (l.flatMap f) w = (l.map (fun x => (f x).total w)).sum
  | [] => rfl
  | x :: l => by
      rw [List.flatMap_cons, total_append_history, total_flatMap f w l, List.map_cons,
        List.sum_cons]

theorem total_perm (h : puts.Perm puts') (w : Str) : puts.total w = puts'.total w :=
  ((h.filter _).map _).sum_eq

/-- `readPair` only reads counters that `putWord` can take. -/
theorem eachWord_valid (word : Str) : History.Valid (eachWord word) := by
  intro p hp
  obtain ⟨pair, -, hread⟩ := List.mem_filterMap.mp hp
  unfold readPair at hread
  split at hread
  · split at hread
    · rename_i counter hcounter
      split at hread
      · rename_i hpos
        obtain rfl := Option.some.inj hread
        exact ⟨hpos, stoi_range hcounter⟩
      · exact absurd hread (by simp)
    · exact absurd hread (by simp)
  · exact absurd hread (by simp)

theorem puts_valid (t : Task) (stage : Stage) (lang : Lang) : (t.puts stage lang).Valid := by
  unfold Task.puts
  split
  · split
    · exact eachWord_valid _
    · exact fun _ hp => absurd hp List.not_mem_nil
  · exact fun _ hp => absurd hp List.not_mem_nil

theorem flatMap_puts_valid (messages : List Upload) (stage : Stage) (lang : Lang) :
    History.Valid (messages.flatMap (fun u => u.upTask.puts stage lang)) := by
  intro p hp
  obtain ⟨u, -, hu⟩ := List.mem_flatMap.mp hp
  exact puts_valid u.upTask stage lang p hu

/-- A word is in the dictionary exactly if its total is not zero. -/
theorem getElem?_total (h : puts.Valid) (w : Str) :
    puts.dictionary[w]? =
      if puts.total w = 0 then none else some (to_string (wrapped (puts.total w))) := by
  rw [getElem?_history h]
  by_cases hw : w ∈ puts.words
  · rw [if_pos hw, if_neg (total_pos h hw).ne']
  · rw [if_neg hw, if_pos (total_eq_zero hw)]

/-- Each selected word has its share of the calls. -/
theorem CallsFor.total {m : MultiWord} {min : ℤ} {selected : Str → ℤ → Prop}
    {calls : History} (h : CallsFor m min selected calls) :
    (∀ n, m[w]? = some n → min ≤ n → selected w n → History.total calls w = n / min) ∧
    ((∀ n, m[w]? = some n → min ≤ n → ¬ selected w n) → History.total calls w = 0) := by
  constructor
  · intro n hn hle hsel
    have hmem : (w, n / min) ∈ calls := (h.mem_iff _ _).mpr ⟨n, hn, hle, hsel, rfl⟩
    have honly : calls.filter (fun p => p.1 = w) = [(w, n / min)] := by
      have hcalls : calls.Nodup := h.once.of_map
      have hsingle : ∀ p ∈ calls.filter (fun p => p.1 = w), p = (w, n / min) := by
        rintro ⟨v, c⟩ hp
        obtain ⟨hcall, hv⟩ := List.mem_filter.mp hp
        obtain rfl : v = w := by simpa using hv
        obtain ⟨n', hn', -, -, rfl⟩ := (h.mem_iff _ _).mp hcall
        rw [Option.some.inj (hn.symm.trans hn')]
      have hin : (w, n / min) ∈ calls.filter (fun p => p.1 = w) :=
        List.mem_filter.mpr ⟨hmem, by simp⟩
      exact List.perm_singleton.mp
        ((List.perm_ext_iff_of_nodup (hcalls.filter _) (List.nodup_singleton _)).mpr
          (fun p => ⟨fun hp => List.mem_singleton.mpr (hsingle p hp),
            fun hp => List.mem_singleton.mp hp ▸ hin⟩))
    rw [History.total, honly]
    simp
  · intro hnone
    apply total_eq_zero
    intro hw
    obtain ⟨⟨v, c⟩, hp, rfl⟩ := List.mem_map.mp hw
    obtain ⟨n, hn, hle, hsel, -⟩ := (h.mem_iff _ _).mp hp
    exact hnone n hn hle hsel

end Totals

/-! ## The clients -/

/-- What `eachTextFromMaster` hands to its callback. -/
structure Article where
  task : Task
  content : Str

/-- The objects of the ostrich client. -/
structure OstrichClient where
  claw : CtrlClaw
  ostrich : OstrichWord

/-- The callback `clawText`. -/
def OstrichClient.clawText (w : OstrichClient) (a : Article) :
    Option (OstrichClient × List Upload) := do
  let claw ← w.claw.claw a.content
  let ostrich := w.ostrich.learnAll (claw.eachSentence .other)
  let (ostrich, sent) := ostrich.commitArticle a.task
  pure (⟨claw, ostrich⟩, sent)

/-- Between two articles nothing is left in the table. -/
def OstrichClient.Fresh (w : OstrichClient) : Prop := w.ostrich.multiWordOfOneArticle_ = ∅

/-- The runs of ordinary characters. -/
def Article.runs (a : Article) : List LearnCall :=
  match CtrlClaw.claw ⟨[], [], [], []⟩ a.content with
  | some claw => claw.eachSentence .other
  | none => []

/-- What a client counts in the article. -/
def Article.table (a : Article) : MultiWord :=
  (OstrichWord.learnAll ⟨∅⟩ a.runs).multiWordOfOneArticle_

/-- What a client uploads. -/
def Article.sent (a : Article) : List Upload :=
  uploads .ostrich (OstrichWord.pickupWordRanking a.table) a.task

section Clients

variable {w w' : OstrichClient} {a : Article} {sent : List Upload}

theorem runs_of_claw {c c' : CtrlClaw} (h : c.claw a.content = some c') :
    a.runs = c'.eachSentence .other := by
  have hsame : CtrlClaw.claw ⟨[], [], [], []⟩ a.content = some c' := h
  unfold Article.runs
  rw [hsame]

/-- **A client begins every article anew.** -/
theorem clawText_fresh (hfresh : w.Fresh) (h : w.clawText a = some (w', sent)) :
    sent = a.sent ∧ w'.Fresh := by
  obtain ⟨c', hclaw, hrest⟩ := Option.bind_eq_some_iff.mp h
  obtain ⟨rfl, rfl⟩ := Prod.mk.inj (Option.some.inj hrest)
  refine ⟨?_, rfl⟩
  have hempty : w.ostrich = ⟨∅⟩ := by
    cases hw : w.ostrich
    rw [OstrichClient.Fresh, hw] at hfresh
    exact congrArg OstrichWord.mk hfresh
  rw [Article.sent, Article.table, runs_of_claw hclaw, hempty]

end Clients

/-! ## What an article contributes -/

/-- How many windows of two to 32 characters, in the runs of the article, read a
word. -/
noncomputable def Article.readings (a : Article) (w : Str) : ℕ := readingCount a.runs w

/-- A third of the windows that read the word, unless a longer word around it is read
as often. -/
noncomputable def Article.share (a : Article) (w : Str) : ℤ :=
  open Classical in
  if OstrichWord.minWordRepeateTimes_ ≤ a.readings w ∧
      ∀ longer, longer ≠ w → w <:+: longer → a.readings longer ≠ a.readings w then
    a.readings w / OstrichWord.minWordRepeateTimes_
  else 0

/-- The uploads of the article reach the dictionary of this language of this stage. -/
def Article.IsFor (stage : Stage) (lang : Lang) (a : Article) : Prop :=
  a.task.type = some stage ∧ a.task.lang = some lang ∧ a.task.url.isSome ∧ a.task.tag.isSome

instance (stage : Stage) (lang : Lang) : DecidablePred (Article.IsFor stage lang) :=
  fun _ => inferInstanceAs (Decidable (_ ∧ _))

/-- No word forges a record, and no counter overflows an `int`. -/
structure Article.Sound (a : Article) : Prop where
  plain : NeighboursPlain a.content
  short : (gWordLength - 1) * a.content.length ≤ INT_MAX

section Shares

variable {a : Article} {w : Str} {stage : Stage} {lang : Lang}

theorem table_getElem? (a : Article) (w : Str) :
    a.table[w]? = if a.readings w = 0 then none else some (a.readings w : ℤ) := by
  rw [Article.table, learnAll_eq, getElem?_foldl_push, ← readingCount_eq, ← Article.readings]
  simp

theorem windowNumbers_length (length : ℕ) :
    (windowNumbers length).length ≤ (gWordLength - 1) * length := by
  have hlength : (windowNumbers length).length =
      ((List.range length).map (fun e => min e (gWordLength - 1))).sum := by
    simp [windowNumbers, List.length_flatMap]
  rw [hlength]
  have hle := List.sum_le_card_nsmul ((List.range length).map
    (fun e => min e (gWordLength - 1))) (gWordLength - 1) (by
      intro n hn
      obtain ⟨e, -, rfl⟩ := List.mem_map.mp hn
      exact min_le_right _ _)
  rw [List.length_map, List.length_range, Nat.nsmul_eq_mul, Nat.mul_comm] at hle
  exact hle

/-- The runs have no more characters than the article has bytes. -/
theorem runs_length (a : Article) :
    (a.runs.map (fun c => c.wordBytes.length)).sum ≤ a.content.length := by
  obtain ⟨c', hclaw, -, hspelled⟩ := CtrlClaw.claw_entries ⟨[], [], [], []⟩ a.content
  rw [runs_of_claw hclaw, CtrlClaw.eachSentence, List.map_map]
  have hall : ((c'.sentence_words_.filter SentenceWord.multi).map
      (fun s => s.word.length)).sum ≤ (characters a.content).length := by
    rw [← hspelled, List.length_flatMap]
    exact (List.filter_sublist.map _).sum_le_sum (fun _ _ => Nat.zero_le _)
  refine hall.trans ?_
  have hbytes := congrArg List.length (characters_flatten a.content)
  rw [List.length_flatten] at hbytes
  have hone := List.length_le_sum_of_one_le ((characters a.content).map List.length)
    (fun n hn => by
      obtain ⟨t, ht, rfl⟩ := List.mem_map.mp hn
      exact List.length_pos_iff.mpr (characters_ne_nil a.content t ht))
  rw [List.length_map] at hone
  exact hone.trans hbytes.le

theorem readings_le (a : Article) (w : Str) :
    a.readings w ≤ (gWordLength - 1) * a.content.length := by
  rw [Article.readings, readingCount_eq]
  refine List.count_le_length.trans ?_
  rw [List.length_flatMap]
  have hruns : ((a.runs.map (fun c =>
      ((windows false c.wordBytes).map Prod.fst).length)).sum) ≤
      (a.runs.map (fun c => (gWordLength - 1) * c.wordBytes.length)).sum := by
    apply List.sum_le_sum
    intro c _
    rw [windows_words, List.length_map]
    exact windowNumbers_length _
  refine hruns.trans ?_
  rw [List.sum_map_mul_left]
  exact Nat.mul_le_mul_left _ (runs_length a)

/-- What the messages of an article hold for a dictionary. -/
theorem sent_puts (a : Article) (stage : Stage) (lang : Lang) :
    a.sent.flatMap (fun u => u.upTask.puts stage lang) =
      if a.IsFor stage lang then (OstrichWord.pickupWordRanking a.table).flatMap eachWord
      else [] := by
  rw [Article.sent, uploads, List.flatMap_assoc]
  by_cases hfor : a.IsFor stage lang
  · obtain ⟨htype, hlang, hurl, htag⟩ := hfor
    obtain ⟨url, hurl⟩ := Option.isSome_iff_exists.mp hurl
    obtain ⟨tag, htag⟩ := Option.isSome_iff_exists.mp htag
    rw [if_pos ⟨htype, hlang, by rw [hurl]; rfl, by rw [htag]; rfl⟩]
    apply List.flatMap_congr
    intro upWords _
    simp [htag, Task.puts, htype, hlang, hurl]
  · rw [if_neg hfor]
    apply List.flatMap_eq_nil_iff.mpr
    intro upWords _
    cases htag : a.task.tag with
    | none => rfl
    | some tag =>
        simp only [List.flatMap_singleton, Task.puts]
        split
        · rename_i hlang hurl _ htype
          apply if_neg
          rintro ⟨rfl, rfl⟩
          exact hfor ⟨htype, hlang, by rw [hurl]; rfl, by rw [htag]; rfl⟩
        · rfl

theorem table_plain (ha : a.Sound) : ∀ w ∈ a.table, Plain w := by
  intro w hw
  obtain ⟨c', hclaw, -⟩ := CtrlClaw.claw_entries ⟨[], [], [], []⟩ a.content
  have hruns := (neighboursPlain_iff .other hclaw).mp ha.plain
  rw [← runs_of_claw hclaw] at hruns
  exact OstrichWord.learnAll_plain a.runs ⟨∅⟩ hruns w hw Std.TreeMap.not_mem_emptyc

theorem table_int (ha : a.Sound) : IntValues a.table := by
  intro w n hn
  rw [table_getElem?] at hn
  obtain ⟨-, hread⟩ := Option.ite_none_left_eq_some.mp hn
  obtain rfl := Option.some.inj hread
  have hle : (a.readings w : ℤ) ≤ ((gWordLength - 1) * a.content.length : ℕ) :=
    Int.ofNat_le.mpr (readings_le a w)
  exact hle.trans (by exact_mod_cast ha.short)

theorem sent_calls (ha : a.Sound) :
    CallsFor a.table OstrichWord.minWordRepeateTimes_ (fun w n => ¬ InLonger a.table w n)
      ((OstrichWord.pickupWordRanking a.table).flatMap eachWord) := by
  obtain ⟨b, hb, heq⟩ := ostrich_holds a.table
  rw [heq, eachWord_finish hb (ostrich_calls.sendable (by decide) (table_plain ha)
    (table_int ha))]
  · exact ostrich_calls
  · intro hempty
    rw [OstrichWord.records,
      List.isEmpty_iff.mp (Std.TreeMap.isEmpty_toList.trans hempty)]
    rfl

/-- **What the server reads of an article's uploads are its shares.** -/
theorem total_sent (ha : a.Sound) (stage : Stage) (lang : Lang) (w : Str) :
    History.total (a.sent.flatMap (fun u => u.upTask.puts stage lang)) w =
      if a.IsFor stage lang then a.share w else 0 := by
  rw [sent_puts]
  split
  · obtain ⟨hshare, hnone⟩ := (sent_calls ha).total (w := w)
    -- a word that is read at all is in the table with this number
    have hlonger : ∀ n : ℤ, 0 < n → n = a.readings w → (InLonger a.table w n ↔
        ∃ longer, longer ≠ w ∧ w <:+: longer ∧ a.readings longer = a.readings w) := by
      intro n hpos hn
      unfold InLonger
      constructor
      · rintro ⟨longer, hget, hne, hin⟩
        rw [table_getElem?] at hget
        obtain ⟨-, hread⟩ := Option.ite_none_left_eq_some.mp hget
        exact ⟨longer, hne, hin, by exact_mod_cast (Option.some.inj hread).trans hn⟩
      · rintro ⟨longer, hne, hin, hread⟩
        refine ⟨longer, ?_, hne, hin⟩
        rw [table_getElem?, if_neg (by omega), hread, hn]
    unfold Article.share
    split
    · rename_i hsel
      obtain ⟨hle, hall⟩ := hsel
      have hpos : (0 : ℤ) < a.readings w := lt_of_lt_of_le (by decide) hle
      apply hshare _ _ hle
      · rw [hlonger _ hpos rfl]
        rintro ⟨longer, hne, hin, hread⟩
        exact hall longer hne hin hread
      · rw [table_getElem?, if_neg (by omega)]
    · rename_i hsel
      apply hnone
      intro n hget hle hnot
      rw [table_getElem?] at hget
      obtain ⟨hzero, hread⟩ := Option.ite_none_left_eq_some.mp hget
      obtain rfl := Option.some.inj hread
      apply hsel
      refine ⟨hle, fun longer hne hin hread => hnot ?_⟩
      exact (hlonger _ (by omega) rfl).mpr ⟨longer, hne, hin, hread⟩
  · rfl

end Shares

/-! ## The clients and the server -/

section System

variable (sha1 : Str → Str) {ι : Type} [DecidableEq ι]

/-- A message reaches the server. -/
def handle (st : TrainStores) (u : Upload) : TrainStores :=
  processText2 sha1 .ostrich u.upTask st

/-- A step of the clients, the network and the server. -/
abbrev trainStep : Net ι OstrichClient Upload TrainStores → Action ι Article →
    Option (Net ι OstrichClient Upload TrainStores) :=
  step OstrichClient.clawText (handle sha1)

/-- Clients between two articles, and no message under way. -/
structure AtRest (n : Net ι OstrichClient Upload TrainStores) : Prop where
  fresh : ∀ i, (n.parties i).Fresh
  nothing : n.left = []

/-- What the articles contribute to a dictionary. -/
noncomputable def learned (articles : List Article) (stage : Stage) (lang : Lang) (w : Str) :
    ℤ :=
  ((articles.filter (Article.IsFor stage lang)).map (fun a => a.share w)).sum

/-- What messages hold for a dictionary. -/
def held (messages : List Upload) (stage : Stage) (lang : Lang) : History :=
  messages.flatMap (fun u => u.upTask.puts stage lang)

variable {sha1} {n n' : Net ι OstrichClient Upload TrainStores} {acts : List (Action ι Article)}
  {stage : Stage} {lang : Lang}

theorem held_append (messages messages' : List Upload) :
    held (messages ++ messages') stage lang =
      held messages stage lang ++ held messages' stage lang :=
  List.flatMap_append

theorem total_held_perm {messages messages' : List Upload} (h : messages.Perm messages')
    (w : Str) : (held messages stage lang).total w = (held messages' stage lang).total w :=
  total_perm (h.flatMap_right _) w

theorem total_held_sent {articles : List Article} (h : ∀ a ∈ articles, a.Sound) (w : Str) :
    (held (articles.flatMap Article.sent) stage lang).total w =
      learned articles stage lang w := by
  unfold held learned
  rw [List.flatMap_assoc, total_flatMap]
  induction articles with
  | nil => rfl
  | cons a articles ih =>
      have hrest := ih (fun b hb => h b (List.mem_cons_of_mem _ hb))
      rw [List.map_cons, List.sum_cons, hrest, total_sent (h a List.mem_cons_self)]
      by_cases hfor : a.IsFor stage lang
      · rw [if_pos hfor, List.filter_cons_of_pos (by simpa using hfor), List.map_cons,
          List.sum_cons]
      · rw [if_neg hfor, List.filter_cons_of_neg (by simpa using hfor), zero_add]

/-- **What the clients have sent** is delivered or left. -/
theorem delivered_of_run (hrest : AtRest n) (hrun : Runs.run (trainStep sha1) n acts = some n') :
    ∃ received, n'.server = received.foldl (handle sha1) n.server ∧
      (received ++ n'.left).Perm ((events acts).flatMap Article.sent) := by
  obtain ⟨received, hserver, hperm⟩ := delivered_of_fresh
    (fun _ _ _ _ hw h => clawText_fresh hw h) hrun hrest.fresh
  rw [hrest.nothing, List.nil_append] at hperm
  exact ⟨received, hserver, hperm⟩

/-- The dictionary is that of a history which accounts for every share. -/
theorem dictionary_of_run (hrest : AtRest n)
    (hrun : Runs.run (trainStep sha1) n acts = some n')
    (hsound : ∀ a ∈ events acts, a.Sound) (hlang : lang ≠ .other) {before : History}
    (hbefore : before.Valid) (hdict : (n.server.stage .ostrich).dict lang = before.dictionary) :
    ∃ puts : History, puts.Valid ∧ (n'.server.stage .ostrich).dict lang = puts.dictionary ∧
      ∀ w, puts.total w + (held n'.left .ostrich lang).total w =
        before.total w + learned (events acts) .ostrich lang w := by
  obtain ⟨received, hserver, hperm⟩ := delivered_of_run hrest hrun
  refine ⟨before ++ held received .ostrich lang, ?_, ?_, ?_⟩
  · intro p hp
    obtain hp | hp := List.mem_append.mp hp
    · exact hbefore p hp
    · exact flatMap_puts_valid received .ostrich lang p hp
  · rw [hserver, ← onto_dictionary, ← hdict]
    exact processAll_dict received n.server hlang
  · intro w
    rw [total_append_history, add_assoc, ← total_append_history, ← held_append,
      total_held_perm hperm w]
    exact congrArg _ (total_held_sent hsound w)

/-- What of the shares has arrived, beside what was there before. -/
noncomputable def arrived (before : History) (articles : List Article)
    (left : List Upload) (stage : Stage) (lang : Lang) (w : Str) : ℤ :=
  before.total w + learned articles stage lang w - (held left stage lang).total w

/-- **The dictionary holds the shares of all articles** and what was in it before, but
for the messages that are under way or lost. -/
theorem corpus_counted (hrest : AtRest n) (hrun : Runs.run (trainStep sha1) n acts = some n')
    (hsound : ∀ a ∈ events acts, a.Sound) (hlang : lang ≠ .other) {before : History}
    (hbefore : before.Valid) (hdict : (n.server.stage .ostrich).dict lang = before.dictionary)
    (w : Str) :
    ((n'.server.stage .ostrich).dict lang)[w]? =
      if arrived before (events acts) n'.left .ostrich lang w = 0 then none
      else some (to_string (wrapped (arrived before (events acts) n'.left .ostrich lang w))) := by
  obtain ⟨puts, hvalid, hputs, htotal⟩ :=
    dictionary_of_run hrest hrun hsound hlang hbefore hdict
  have harrived : arrived before (events acts) n'.left .ostrich lang w = puts.total w := by
    rw [arrived, ← htotal w, add_sub_cancel_right]
  rw [hputs, getElem?_total hvalid, harrived]

/-- Three pairs of the same two characters. -/
def pairsContent : Str := (List.replicate 3 (charX ++ charY)).flatten

def pairsArticle : Article :=
  ⟨⟨some .cn, some pageA, some .ostrich, some pageB, none⟩, pairsContent⟩

/-- Two clients between two articles, in front of empty stores. -/
def idleClients : Net (Fin 2) OstrichClient Upload TrainStores :=
  ⟨fun _ => ⟨⟨[], [], [], []⟩, ⟨∅⟩⟩, [], [],
    ⟨⟨⟨∅, ∅, ∅⟩, ⟨∅, ∅, ∅⟩⟩, ⟨⟨∅, ∅, ∅⟩, ⟨∅, ∅, ∅⟩⟩, ⟨⟨∅, ∅, ∅⟩, ⟨∅, ∅, ∅⟩⟩⟩⟩

/-- Both clients learn the article, and the message of the second one is faster. -/
def pairsActions : List (Action (Fin 2) Article) :=
  [.turn 0 pairsArticle, .turn 1 pairsArticle, .deliver 1, .deliver 0]

theorem idleClients_atRest : AtRest idleClients := ⟨fun _ => rfl, rfl⟩

theorem pairsArticle_sound : pairsArticle.Sound :=
  ⟨by decide +kernel, by decide +kernel⟩

theorem pairsActions_sound : ∀ a ∈ events pairsActions, a.Sound := by
  intro a ha
  simp only [events, pairsActions, List.mem_cons, List.not_mem_nil, or_false, or_self] at ha
  rw [ha]
  exact pairsArticle_sound

theorem pairs_run : ∃ n', Runs.run (trainStep pageSha1) idleClients pairsActions = some n' ∧
    n'.left = [] := by
  have hrun : (Runs.run (trainStep pageSha1) idleClients pairsActions).any
      (fun n => n.left.isEmpty) = true := by
    with_unfolding_all decide
  obtain ⟨n', hn', hleft⟩ := (Option.any_eq_true _ _).mp hrun
  exact ⟨n', hn', List.isEmpty_iff.mp hleft⟩

theorem corpus_counted_pairs :
    ∃ n', Runs.run (trainStep pageSha1) idleClients pairsActions = some n' ∧
      ∀ w, ((n'.server.stage .ostrich).dict .cn)[w]? =
        if arrived [] (events pairsActions) n'.left .ostrich .cn w = 0 then none
        else some (to_string (wrapped
          (arrived [] (events pairsActions) n'.left .ostrich .cn w))) := by
  obtain ⟨n', hrun, -⟩ := pairs_run
  exact ⟨n', hrun, corpus_counted idleClients_atRest hrun pairsActions_sound (by decide)
    (fun _ hp => absurd hp List.not_mem_nil) rfl⟩

/-- **The weights of a corpus**: when no message is left, `castMaster` gives each word
its part of the most frequent one. -/
theorem corpus_cast (hrest : AtRest n) (hrun : Runs.run (trainStep sha1) n acts = some n')
    (hleft : n'.left = []) (hsound : ∀ a ∈ events acts, a.Sound) (hlang : lang ≠ .other)
    (hdict : (n.server.stage .ostrich).dict lang = ∅)
    (hint : ∀ w, learned (events acts) .ostrich lang w ≤ INT_MAX) :
    ∃ top cast, (∀ w, learned (events acts) .ostrich lang w ≤ top) ∧
      (top = 0 ∨ ∃ w, top = learned (events acts) .ostrich lang w) ∧
      castMaster ((n'.server.stage .ostrich).dict lang) ∅ = some cast ∧
      ∀ w, cast[w]? = if learned (events acts) .ostrich lang w = 0 then none
        else some (toFixed ((learned (events acts) .ostrich lang w : ℚ) / top)) := by
  have hempty : History.Valid [] := fun _ hp => absurd hp List.not_mem_nil
  obtain ⟨puts, hvalid, hputs, htotal⟩ :=
    dictionary_of_run hrest hrun hsound hlang hempty hdict
  have hcount : ∀ w, learned (events acts) .ostrich lang w = puts.total w := by
    intro w
    have h := htotal w
    rw [hleft] at h
    simpa [held, History.total] using h.symm
  have hmem : ∀ w, w ∈ puts.dictionary ↔ puts.total w ≠ 0 := by
    intro w
    rw [Std.TreeMap.mem_iff_isSome_getElem?, getElem?_total hvalid]
    split <;> simp [*]
  have hpos : ∀ w ∈ puts.dictionary, 0 < puts.total w :=
    fun w hw => total_pos hvalid ((mem_dictionary_iff hvalid).mp hw)
  have hreads : Reads puts.dictionary puts.total := by
    intro w hw
    have hfits : puts.total w ≤ INT_MAX := hcount w ▸ hint w
    rw [getElem?_total hvalid, if_neg ((hmem w).mp hw), Option.bind_some,
      wrapped_eq (hpos w hw).le hfits, stoi_to_string, if_pos]
    exact ⟨by have := hpos w hw; unfold INT_MAX; omega, hfits⟩
  obtain ⟨top, cast, ⟨hall, hfrom⟩, hcast, hget⟩ := castMaster_eq hreads ∅
  refine ⟨top, cast, ?_, ?_, ?_, ?_⟩
  · intro w
    rw [hcount]
    by_cases hw : w ∈ puts.dictionary
    · exact hall w hw
    · rw [not_not.mp (fun hne => hw ((hmem w).mpr hne))]
      obtain rfl | ⟨v, hv, rfl⟩ := hfrom
      · exact le_rfl
      · exact (hpos v hv).le
  · refine hfrom.imp_right ?_
    rintro ⟨w, -, hw⟩
    exact ⟨w, hw.trans (hcount w).symm⟩
  · rw [hputs]
    exact hcast
  · intro w
    rw [hget, hcount]
    by_cases hw : w ∈ puts.dictionary
    · rw [if_pos hw, if_neg ((hmem w).mp hw)]
    · rw [if_neg hw, if_pos (not_not.mp (fun hne => hw ((hmem w).mpr hne)))]
      rfl

/-- An article contributes at most its windows. -/
theorem share_le (a : Article) (w : Str) :
    a.share w ≤ ((gWordLength - 1) * a.content.length : ℕ) := by
  have hread : (a.readings w : ℤ) ≤ ((gWordLength - 1) * a.content.length : ℕ) :=
    Int.ofNat_le.mpr (readings_le a w)
  unfold Article.share
  split
  · exact (Int.ediv_le_self _ (Int.natCast_nonneg _)).trans hread
  · exact Int.natCast_nonneg _

theorem corpus_cast_pairs :
    ∃ n' top cast, Runs.run (trainStep pageSha1) idleClients pairsActions = some n' ∧
      castMaster ((n'.server.stage .ostrich).dict .cn) ∅ = some cast ∧
      ∀ w, cast[w]? = if learned (events pairsActions) .ostrich .cn w = 0 then none
        else some (toFixed ((learned (events pairsActions) .ostrich .cn w : ℚ) / top)) := by
  obtain ⟨n', hrun, hleft⟩ := pairs_run
  have hint : ∀ w, learned (events pairsActions) .ostrich .cn w ≤ INT_MAX := by
    intro w
    have hsum : learned (events pairsActions) .ostrich .cn w =
        pairsArticle.share w + (pairsArticle.share w + 0) := rfl
    have hle := share_le pairsArticle w
    have hlen : (((gWordLength - 1) * pairsArticle.content.length : ℕ) : ℤ) = 558 := by
      decide
    rw [hsum]
    unfold INT_MAX
    omega
  obtain ⟨top, cast, -, -, hcast, hget⟩ := corpus_cast idleClients_atRest hrun hleft
    pairsActions_sound (by decide) rfl hint
  exact ⟨n', top, cast, hrun, hcast, hget⟩

/-! ### What is done -/

/-- The message marks URLs with this hash. -/
def Task.Marks (sha1 : Str → Str) (t : Task) (stage : Stage) (lang : Lang) (url : Str) : Prop :=
  t.type = some stage ∧ t.lang = some lang ∧ t.word.isSome ∧
    ∃ u, t.url = some u ∧ sha1 u = sha1 url

theorem processText2_isDone (t : Task) (st : TrainStores) (hlang : lang ≠ .other) (url : Str) :
    ((processText2 sha1 stage t st).stage stage).IsDone sha1 lang url ↔
      (st.stage stage).IsDone sha1 lang url ∨ t.Marks sha1 stage lang url := by
  obtain ⟨l, u, word, hl, hu, hword, htype, hsave⟩ | ⟨hincomplete, hsame⟩ :=
    processText2_stage sha1 t st stage
  · rw [hsave, isDone_save]
    refine or_congr_right ⟨?_, ?_⟩
    · rintro ⟨rfl, -, hhash⟩
      exact ⟨htype, hl, by rw [hword]; rfl, u, hu, hhash⟩
    · rintro ⟨-, hl', -, u', hu', hhash⟩
      obtain rfl := Option.some.inj (hl.symm.trans hl')
      obtain rfl := Option.some.inj (hu.symm.trans hu')
      exact ⟨rfl, hlang, hhash⟩
  · rw [hsame]
    refine (or_iff_left ?_).symm
    rintro ⟨htype, hl, hword, u, hu, -⟩
    exact hincomplete ⟨by rw [hl]; rfl, by rw [hu]; rfl, hword, htype⟩

theorem received_isDone (hlang : lang ≠ .other) (url : Str) :
    ∀ (received : List Upload) (st : TrainStores),
    ((received.foldl (handle sha1) st).stage .ostrich).IsDone sha1 lang url ↔
      (st.stage .ostrich).IsDone sha1 lang url ∨
        ∃ u ∈ received, u.upTask.Marks sha1 .ostrich lang url
  | [], st => by simp
  | u :: received, st => by
      rw [List.foldl_cons, received_isDone hlang url received, handle,
        processText2_isDone _ _ hlang, or_assoc, List.exists_mem_cons_iff]

/-- Every article for a dictionary has a message, and it marks the article's URL. -/
theorem sent_marks (a : Article) (url : Str) :
    (∃ u ∈ a.sent, u.upTask.Marks sha1 stage lang url) ↔
      a.IsFor stage lang ∧ ∃ u, a.task.url = some u ∧ sha1 u = sha1 url := by
  constructor
  · rintro ⟨u, hu, htype, hlang, -, v, hv, hhash⟩
    obtain ⟨word, -, hu⟩ := List.mem_flatMap.mp hu
    cases htag : a.task.tag with
    | none =>
        rw [htag] at hu
        exact absurd hu List.not_mem_nil
    | some tag =>
        rw [htag] at hu
        obtain rfl := List.mem_singleton.mp hu
        exact ⟨⟨htype, hlang, Option.isSome_iff_exists.mpr ⟨v, hv⟩, by rw [htag]; rfl⟩,
          v, hv, hhash⟩
  · rintro ⟨⟨htype, hlang, -, htag⟩, v, hv, hhash⟩
    obtain ⟨tag, htag⟩ := Option.isSome_iff_exists.mp htag
    obtain ⟨word, hword⟩ := List.exists_mem_of_ne_nil _ (ostrich_ne_nil a.table)
    refine ⟨⟨.ostrich, tag, { a.task with word := some word }⟩, ?_, htype, hlang, rfl, v, hv,
      hhash⟩
    refine List.mem_flatMap.mpr ⟨word, hword, ?_⟩
    simp [htag]

/-- **Which URLs are done behind a corpus**: when no message is left, those that were
done before, and those of the articles, whatever their text. -/
theorem corpus_done (hrest : AtRest n) (hrun : Runs.run (trainStep sha1) n acts = some n')
    (hleft : n'.left = []) (hlang : lang ≠ .other) (url : Str) :
    (n'.server.stage .ostrich).IsDone sha1 lang url ↔
      (n.server.stage .ostrich).IsDone sha1 lang url ∨
        ∃ a ∈ events acts, a.IsFor .ostrich lang ∧
          ∃ u, a.task.url = some u ∧ sha1 u = sha1 url := by
  obtain ⟨received, hserver, hperm⟩ := delivered_of_run hrest hrun
  rw [hleft, List.append_nil] at hperm
  rw [hserver, received_isDone hlang]
  apply or_congr_right
  constructor
  · rintro ⟨u, hu, hmarks⟩
    obtain ⟨a, ha, hsent⟩ := List.mem_flatMap.mp (hperm.mem_iff.mp hu)
    exact ⟨a, ha, (sent_marks a url).mp ⟨u, hsent, hmarks⟩⟩
  · rintro ⟨a, ha, hfor⟩
    obtain ⟨u, hsent, hmarks⟩ := (sent_marks a url).mpr hfor
    exact ⟨u, hperm.mem_iff.mpr (List.mem_flatMap.mpr ⟨a, ha, hsent⟩), hmarks⟩

theorem corpus_done_pairs :
    ∃ n', Runs.run (trainStep pageSha1) idleClients pairsActions = some n' ∧
      ((n'.server.stage .ostrich).IsDone pageSha1 .cn pageA ↔
        (idleClients.server.stage .ostrich).IsDone pageSha1 .cn pageA ∨
        ∃ a ∈ events pairsActions, a.IsFor .ostrich .cn ∧
          ∃ u, a.task.url = some u ∧ pageSha1 u = pageSha1 pageA) := by
  obtain ⟨n', hrun, hleft⟩ := pairs_run
  exact ⟨n', hrun, corpus_done idleClients_atRest hrun hleft (by decide) pageA⟩

end System

end WaiNative

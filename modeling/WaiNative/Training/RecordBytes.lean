import WaiNative.Training.Commit

/-!
# The record bytes of an article

The word lists that the learners upload are records `{word,counter};`, so a word
that holds one of `{ } ; ,` would forge a record. These bytes are characters of
their own in well-formed text, and `claw` makes every one-byte character a
delimiter. In malformed text a lead byte swallows what stands behind it, and the
character reaches the learners.

- `mem_learn`: which words a learner has counted behind one run;
- `unforged_iff`: no article whose ordinary characters hold no record byte, where
  two of them are neighbours, can forge a record, and every other one can.
-/

namespace WaiNative

open Cxx ShortestPath

/-! ## The runs of an article -/

/-- `eachSentence`, and `eachMultiByte` for a learner that takes no text. -/
def CtrlClaw.eachSentence (c : CtrlClaw) (lang : Lang) : List LearnCall :=
  (c.sentence_words_.filter SentenceWord.multi).map (fun s => ⟨s.word, s.strWord, lang⟩)

section Runs

variable {c c' : CtrlClaw} {article : Str} {lang : Lang}

theorem CtrlClaw.mem_eachSentence {call : LearnCall} :
    call ∈ c.eachSentence lang ↔
      ⟨call.text, call.wordBytes, true⟩ ∈ c.sentence_words_ ∧ call.lang = lang := by
  rw [CtrlClaw.eachSentence, List.mem_map]
  constructor
  · rintro ⟨⟨strWord, word, multi⟩, hs, rfl⟩
    obtain ⟨hs, hmulti⟩ := List.mem_filter.mp hs
    obtain rfl : multi = true := hmulti
    exact ⟨hs, rfl⟩
  · rintro ⟨hs, rfl⟩
    exact ⟨_, List.mem_filter.mpr ⟨hs, rfl⟩, rfl⟩

theorem CtrlClaw.emits_of_call (hclaw : c.claw article = some c') {call : LearnCall}
    (hcall : call ∈ c'.eachSentence lang) : CtrlClaw.Emits call.wordBytes call.text :=
  ⟨c, c', article, hclaw, (CtrlClaw.mem_eachSentence.mp hcall).1⟩

end Runs

/-! ## Which words a learner has counted -/

section Learners

variable {pow : ℚ → ℚ → ℚ} {dijkstra : WGraph ℚ → ℕ → ℕ} {lang : Lang} {Bytes : List Str}
  {text w : Str}

theorem mem_pushMultiWord {m : MultiWord} {word : Str} :
    w ∈ pushMultiWord m word ↔ w ∈ m ∨ w = word := by
  unfold pushMultiWord
  split
  all_goals
    rw [Std.TreeMap.mem_insert, Std.LawfulEqCmp.compare_eq_iff_eq]
    constructor
    · rintro (rfl | hw)
      · exact Or.inr rfl
      · exact Or.inl hw
    · rintro (hw | rfl)
      · exact Or.inr hw
      · exact Or.inl rfl

theorem mem_foldl_pushMultiWord {words : List Str} : ∀ {m : MultiWord},
    w ∈ words.foldl pushMultiWord m ↔ w ∈ m ∨ w ∈ words := by
  induction words with
  | nil => simp
  | cons word words ih =>
      intro m
      rw [List.foldl_cons, ih, mem_pushMultiWord, List.mem_cons, or_assoc]

/-- `OstrichWord` counts exactly the windows of the run. -/
theorem OstrichWord.mem_learn {o : OstrichWord} :
    w ∈ (o.learn Bytes).multiWordOfOneArticle_ ↔
      w ∈ o.multiWordOfOneArticle_ ∨ ∃ p, WindowAt false Bytes w p := by
  unfold OstrichWord.learn
  split
  · rename_i hshort
    constructor
    · exact Or.inl
    · rintro (hw | ⟨p, pre, mid, suf, rfl, hlo, -⟩)
      · exact hw
      · -- a window has two characters
        simp only [List.length_append, leastChars, Bool.false_eq_true, if_false] at hshort hlo
        omega
  · show w ∈ forWindows false (fun m jointWord _ => pushMultiWord m jointWord) Bytes [] 0
      o.multiWordOfOneArticle_ ↔ _
    have hmap : (windows false Bytes).foldl (fun m v => pushMultiWord m v.1)
        o.multiWordOfOneArticle_ = ((windows false Bytes).map Prod.fst).foldl pushMultiWord
          o.multiWordOfOneArticle_ := by
      rw [List.foldl_map]
    rw [forWindows_eq, ← windows, hmap, mem_foldl_pushMultiWord, List.mem_map]
    simp only [Prod.exists, mem_windows, exists_and_right, exists_eq_right]

/-- What `ParrotWord` counts is cut from the text, with spaces for the words that it
selected. -/
theorem ParrotWord.mem_learn {p : ParrotWord}
    (hw : w ∈ (p.learn pow Bytes text lang).multiWordOfOneArticle_) :
    w ∈ p.multiWordOfOneArticle_ ∨
      (2 ≤ Bytes.length ∧ ∀ b ∈ w, b ∈ text ∨ b = 32) := by
  unfold ParrotWord.learn at hw
  split at hw
  · exact Or.inl hw
  · rename_i hlong
    obtain ⟨hpredi, hmulti⟩ := ParrotWord.calcPrediction_members pow (p.getRawRank Bytes lang)
    rw [ParrotWord.collectWord, mem_foldl_pushMultiWord] at hw
    rcases hw with hw | hw
    · left
      rwa [ParrotWord.getWordPredictionOfOne, hmulti] at hw
    · right
      refine ⟨by omega, ?_⟩
      rw [ParrotWord.getWordPredictionOfOne, hpredi] at hw
      rcases List.mem_append.mp hw with hw | hw
      · exact absurd hw List.not_mem_nil
      · intro b hb
        have hremain := mem_split (List.mem_of_mem_filter hw) hb
        clear hw
        -- each selected word is replaced by one space
        generalize ((p.getRawRank Bytes lang).calcPrediction pow).wordSeqTopSelected_ = top
          at hremain
        induction top using List.reverseRecOn with
        | nil => exact Or.inl hremain
        | append_singleton top elem ih =>
            rw [List.foldl_append] at hremain
            rcases mem_replace_all hremain with hin | hspace
            · exact ih hin
            · exact Or.inr (List.mem_singleton.mp hspace)

/-- Whatever parents Boost answers with, the selected elements are of the group. -/
theorem mem_calcPredictionBy {rule : EdgeRule} {pick : LabelVertex → WordElement → Bool}
    {hints confuse top top' : List WordElement}
    (h : calcPredictionBy rule pick dijkstra hints confuse top = some top')
    {e : WordElement} (he : e ∈ top') : e ∈ top ∨ e ∈ confuse := by
  unfold calcPredictionBy at h
  dsimp only at h
  split at h
  · obtain rfl := Option.some.inj h
    exact Or.inl he
  · obtain ⟨path, -, hselect⟩ := Option.bind_eq_some_iff.mp h
    clear h
    unfold selectPath at hselect
    generalize path.reverse = ids at hselect
    induction ids generalizing top with
    | nil =>
        obtain rfl := Option.some.inj hselect
        exact Or.inl he
    | cons i ids ih =>
        rw [List.foldlM_cons] at hselect
        obtain ⟨top₁, hstep, hrest⟩ := Option.bind_eq_some_iff.mp hselect
        obtain ⟨selected, -, hstep⟩ := Option.bind_eq_some_iff.mp hstep
        rcases ih hrest with hin | hin
        · split at hstep
          · rename_i elem hfind
            obtain rfl := Option.some.inj hstep
            rcases Multimap.mem_insert.mp hin with rfl | hin
            · exact Or.inr (List.mem_of_find?_eq_some hfind)
            · exact Or.inl hin
          · obtain rfl := Option.some.inj hstep
            exact Or.inl hin
        · exact Or.inr hin

theorem mem_predict {rule : EdgeRule} {pick : LabelVertex → WordElement → Bool}
    {st st' : SegmentState} (h : predict (calcPredictionBy rule pick dijkstra) st = some st')
    (htop : st.wordSeqTopSelected_ = []) {e : WordElement}
    (he : e ∈ st'.wordSeqTopSelected_) : e ∈ st.noConflictWordSeq_.flatten := by
  obtain ⟨top, hfold, hst'⟩ := Option.bind_eq_some_iff.mp h
  obtain rfl := Option.some.inj hst'
  rw [htop] at hfold
  have hmem : ∀ (gs : List (List WordElement)) (l : List WordElement),
      gs.foldlM (fun top c => calcPredictionBy rule pick dijkstra st.wordHintSeq_ c top) l =
        some top → e ∈ l ∨ e ∈ gs.flatten := by
    intro gs
    induction gs with
    | nil =>
        intro l hl
        obtain rfl := Option.some.inj hl
        exact Or.inl he
    | cons c gs ih =>
        intro l hl
        rw [List.foldlM_cons] at hl
        obtain ⟨l', hstep, hrest⟩ := Option.bind_eq_some_iff.mp hl
        rw [List.flatten_cons, List.mem_append]
        rcases ih l' hrest with hin | hin
        · exact (mem_calcPredictionBy hstep hin).imp_right Or.inl
        · exact Or.inr (Or.inr hin)
  exact (hmem _ _ hfold).resolve_left List.not_mem_nil

theorem mem_jointPair : ∀ (l : List WordElement) (m : MultiWord), w ∈ jointPair l m →
    w ∈ m ∨ ∃ e ∈ l, ∃ e' ∈ l, w = e.word ++ [45] ++ e'.word
  | [], m, hw => Or.inl hw
  | [_], m, hw => Or.inl hw
  | it :: nextIt :: rest, m, hw => by
      rw [jointPair] at hw
      rcases mem_jointPair (nextIt :: rest) _ hw with hw | ⟨e, he, e', he', heq⟩
      · rcases mem_pushMultiWord.mp hw with hw | rfl
        · exact Or.inl hw
        · exact Or.inr ⟨it, by simp, nextIt, by simp, rfl⟩
      · exact Or.inr ⟨e, List.mem_cons_of_mem _ he, e', List.mem_cons_of_mem _ he', heq⟩

/-- What `PhoenixWord` counts is joined from two pieces of the text. -/
theorem PhoenixWord.mem_learn (hrun : CtrlClaw.Run Bytes text) {p p' : PhoenixWord}
    (h : p.learn pow dijkstra Bytes text lang = some p')
    (hw : w ∈ p'.multiWordOfOneArticle_) :
    w ∈ p.multiWordOfOneArticle_ ∨
      (2 ≤ Bytes.length ∧ ∀ b ∈ w, b ∈ text ∨ b = 45) := by
  unfold PhoenixWord.learn at h
  split at h
  · obtain rfl := Option.some.inj h
    exact Or.inl hw
  · rename_i hlong
    obtain ⟨st, hst, hprep, htop, -⟩ :=
      prepare_eq pow (inputPred p.dictInputCN_ p.dictInputJA_ lang) hrun
    rw [hst, Option.bind_eq_bind, Option.bind_some] at h
    obtain ⟨st', hpred, hst'⟩ := Option.bind_eq_some_iff.mp h
    obtain rfl := Option.some.inj hst'
    rcases mem_jointPair _ _ hw with hw | ⟨e, he, e', he', rfl⟩
    · exact Or.inl hw
    · have hbytes : ∀ x ∈ st'.wordSeqTopSelected_, ∀ b ∈ x.word, b ∈ text := by
        intro x hx b hb
        have hin := mem_predict hpred htop hx
        rw [hprep.flatten] at hin
        rw [hprep.adjusted_hints.word_eq x hin] at hb
        rw [hrun.text_eq]
        exact List.mem_of_mem_drop (List.mem_of_mem_take hb)
      refine Or.inr ⟨by omega, ?_⟩
      intro b hb
      rcases List.mem_append.mp hb with hb | hb
      · rcases List.mem_append.mp hb with hb | hb
        · exact Or.inl (hbytes e he b hb)
        · exact Or.inr (List.mem_singleton.mp hb)
      · exact Or.inl (hbytes e' he' b hb)

end Learners

/-! ## Forged records -/

/-- No word with a record byte has been added. -/
def NewPlain (before after : MultiWord) : Prop := ∀ w ∈ after, w ∉ before → Plain w

/-- Whatever the learners know and have counted, while they learn the runs of the
article one after the other they count no word with a record byte. -/
structure Unforged (pow : ℚ → ℚ → ℚ) (article : Str) : Prop where
  ostrich : ∀ (c c' : CtrlClaw) (lang : Lang) (o : OstrichWord) (calls : List LearnCall),
    c.claw article = some c' → calls <+: c'.eachSentence lang →
    NewPlain o.multiWordOfOneArticle_ (o.learnAll calls).multiWordOfOneArticle_
  parrot : ∀ (c c' : CtrlClaw) (lang : Lang) (p : ParrotWord) (calls : List LearnCall),
    c.claw article = some c' → calls <+: c'.eachSentence lang →
    NewPlain p.multiWordOfOneArticle_ (p.learnAll pow calls).multiWordOfOneArticle_
  phoenix : ∀ (c c' : CtrlClaw) (lang : Lang) (p p' : PhoenixWord) (calls : List LearnCall)
    (dijkstra : WGraph ℚ → ℕ → ℕ),
    c.claw article = some c' → calls <+: c'.eachSentence lang →
    p.learnAll pow dijkstra calls = some p' →
    NewPlain p.multiWordOfOneArticle_ p'.multiWordOfOneArticle_

/-- Where two neighbouring characters of the article are ordinary ones, neither
holds a record byte. -/
def NeighboursPlain (article : Str) : Prop :=
  (characters article).IsChain (fun t t' =>
    isDelimiter t = false → isDelimiter t' = false → Plain t ∧ Plain t')

instance (article : Str) : Decidable (NeighboursPlain article) :=
  inferInstanceAs (Decidable (List.IsChain _ _))

section Forging

variable {pow : ℚ → ℚ → ℚ} {article : Str} {c c' : CtrlClaw}

theorem plain_append {u v : Str} : Plain (u ++ v) ↔ Plain u ∧ Plain v :=
  List.forall_mem_append

/-- On a list of at least two, a property of neighbours is one of all elements. -/
theorem isChain_both {α : Type*} {P : α → Prop} : ∀ {l : List α}, 2 ≤ l.length →
    (l.IsChain (fun a b => P a ∧ P b) ↔ ∀ a ∈ l, P a)
  | [a, b], _ => by simp
  | a :: b :: x :: l, _ => by
      rw [List.isChain_cons_cons, isChain_both (by simp)]
      simp only [List.forall_mem_cons]
      tauto

/-- Neighbours of one run are neighbours in the article, and two runs of ordinary
characters never touch. -/
theorem neighboursPlain_iff (lang : Lang) (hclaw : c.claw article = some c') :
    NeighboursPlain article ↔ ∀ call ∈ c'.eachSentence lang, 2 ≤ call.wordBytes.length →
      ∀ t ∈ call.wordBytes, Plain t := by
  obtain ⟨c'', hclaw', ⟨hentry, halt⟩, hspelled⟩ := CtrlClaw.claw_entries c article
  obtain rfl : c' = c'' := Option.some.inj (hclaw.symm.trans hclaw')
  have hnil : [] ∉ c'.sentence_words_.map SentenceWord.word := by
    rintro hmem
    obtain ⟨s, hs, hword⟩ := List.mem_map.mp hmem
    exact (hentry s hs).nonempty hword
  rw [NeighboursPlain, ← hspelled, List.flatMap, List.isChain_flatten hnil, List.isChain_map]
  constructor
  · rintro ⟨hall, -⟩ call hcall htwo
    obtain ⟨hs, -⟩ := CtrlClaw.mem_eachSentence.mp hcall
    have hchain := hall call.wordBytes (List.mem_map.mpr ⟨_, hs, rfl⟩)
    refine (isChain_both htwo).mp (hchain.imp_of_mem_imp ?_)
    intro t t' ht ht' hplain
    exact hplain ((hentry _ hs).kind t ht) ((hentry _ hs).kind t' ht')
  · intro hplain
    refine ⟨?_, ?_⟩
    · intro l hl
      obtain ⟨⟨text, word, multi⟩, hs, rfl⟩ := List.mem_map.mp hl
      show List.IsChain _ word
      by_cases htwo : 2 ≤ word.length
      · cases multi with
        | true =>
            have hcall : ⟨word, text, lang⟩ ∈ c'.eachSentence lang :=
              CtrlClaw.mem_eachSentence.mpr ⟨hs, rfl⟩
            exact ((isChain_both htwo).mpr (hplain ⟨word, text, lang⟩ hcall htwo)).imp
              (fun _ _ h _ _ => h)
        | false =>
            -- a run of delimiters
            have hchain : word.IsChain (fun t t' => isDelimiter t = true ∧
                isDelimiter t' = true) :=
              (isChain_both htwo).mpr (fun t ht => (hentry _ hs).kind t ht)
            refine hchain.imp ?_
            rintro t t' ⟨ht, -⟩ ht'
            rw [ht] at ht'
            exact absurd ht' (by decide)
      · match word, htwo with
        | [], _ => exact List.isChain_nil
        | [t], _ => exact List.isChain_singleton t
        | _ :: _ :: _, htwo => exact absurd (by simp) htwo
    · refine (halt.imp_of_mem_imp ?_)
      intro s s' hs hs' hdiff x hx y hy hdx hdy
      have hkx := (hentry s hs).kind x (List.mem_of_mem_getLast? hx)
      have hky := (hentry s' hs').kind y (List.mem_of_mem_head? hy)
      rw [hdx] at hkx
      rw [hdy] at hky
      refine absurd ?_ hdiff
      rw [← Bool.not_inj_iff, ← hkx, ← hky]

/-- A learner that counts only bytes of the learned runs, spaces and hyphens counts
no record byte. -/
theorem plain_of_bytes {text w : Str} {d : UInt8} (hd : Plain [d]) (htext : Plain text)
    (hw : ∀ b ∈ w, b ∈ text ∨ b = d) : Plain w := by
  intro b hb
  rcases hw b hb with hin | rfl
  · exact htext b hin
  · exact hd b (List.mem_singleton_self b)

theorem NewPlain.refl (m : MultiWord) : NewPlain m m := fun _ hw hnew => absurd hw hnew

theorem NewPlain.trans {m m' m'' : MultiWord} (h : NewPlain m m') (h' : NewPlain m' m'') :
    NewPlain m m'' := by
  intro w hw hnew
  by_cases hmem : w ∈ m'
  · exact h w hmem hnew
  · exact h' w hw hmem

theorem OstrichWord.learn_plain (o : OstrichWord) {wordBytes : List Str}
    (hplain : 2 ≤ wordBytes.length → ∀ t ∈ wordBytes, Plain t) :
    NewPlain o.multiWordOfOneArticle_ (o.learn wordBytes).multiWordOfOneArticle_ := by
  intro w hw hnew
  obtain ⟨p, pre, mid, suf, rfl, hlo, -, rfl, -⟩ :=
    (OstrichWord.mem_learn.mp hw).resolve_left hnew
  intro b hb
  obtain ⟨t, ht, hbt⟩ := List.mem_flatten.mp hb
  refine hplain ?_ t (by simp [ht]) b hbt
  simp only [List.length_append, leastChars, Bool.false_eq_true, if_false] at hlo ⊢
  omega

theorem OstrichWord.learnAll_plain : ∀ (calls : List LearnCall) (o : OstrichWord),
    (∀ call ∈ calls, 2 ≤ call.wordBytes.length → ∀ t ∈ call.wordBytes, Plain t) →
    NewPlain o.multiWordOfOneArticle_ (o.learnAll calls).multiWordOfOneArticle_
  | [], _, _ => NewPlain.refl _
  | call :: calls, o, hplain =>
      (o.learn_plain (hplain call List.mem_cons_self)).trans
        (OstrichWord.learnAll_plain calls (o.learn call.wordBytes)
          (fun d hd => hplain d (List.mem_cons_of_mem _ hd)))

/-- The text of a long run is plain when its characters are. -/
theorem plain_text {call : LearnCall} (hemits : CtrlClaw.Emits call.wordBytes call.text)
    (hplain : ∀ t ∈ call.wordBytes, Plain t) : Plain call.text := by
  rw [hemits.run.text_eq]
  intro b hb
  obtain ⟨t, ht, hbt⟩ := List.mem_flatten.mp hb
  exact hplain t ht b hbt

theorem ParrotWord.learn_plain (p : ParrotWord) {call : LearnCall}
    (hemits : CtrlClaw.Emits call.wordBytes call.text)
    (hplain : 2 ≤ call.wordBytes.length → ∀ t ∈ call.wordBytes, Plain t) :
    NewPlain p.multiWordOfOneArticle_
      (p.learn pow call.wordBytes call.text call.lang).multiWordOfOneArticle_ := by
  intro w hw hnew
  obtain ⟨hlong, hbytes⟩ := (ParrotWord.mem_learn hw).resolve_left hnew
  exact plain_of_bytes (by decide +kernel) (plain_text hemits (hplain hlong)) hbytes

theorem ParrotWord.learnAll_plain : ∀ (calls : List LearnCall) (p : ParrotWord),
    (∀ call ∈ calls, CtrlClaw.Emits call.wordBytes call.text) →
    (∀ call ∈ calls, 2 ≤ call.wordBytes.length → ∀ t ∈ call.wordBytes, Plain t) →
    NewPlain p.multiWordOfOneArticle_ (p.learnAll pow calls).multiWordOfOneArticle_
  | [], _, _, _ => NewPlain.refl _
  | call :: calls, p, hemits, hplain =>
      (p.learn_plain (hemits call List.mem_cons_self) (hplain call List.mem_cons_self)).trans
        (ParrotWord.learnAll_plain calls (p.learn pow call.wordBytes call.text call.lang)
          (fun d hd => hemits d (List.mem_cons_of_mem _ hd))
          (fun d hd => hplain d (List.mem_cons_of_mem _ hd)))

theorem PhoenixWord.learn_plain {dijkstra : WGraph ℚ → ℕ → ℕ} {p p' : PhoenixWord}
    {call : LearnCall} (hemits : CtrlClaw.Emits call.wordBytes call.text)
    (hplain : 2 ≤ call.wordBytes.length → ∀ t ∈ call.wordBytes, Plain t)
    (hlearn : p.learn pow dijkstra call.wordBytes call.text call.lang = some p') :
    NewPlain p.multiWordOfOneArticle_ p'.multiWordOfOneArticle_ := by
  intro w hw hnew
  obtain ⟨hlong, hbytes⟩ := (PhoenixWord.mem_learn hemits.run hlearn hw).resolve_left hnew
  exact plain_of_bytes (by decide +kernel) (plain_text hemits (hplain hlong)) hbytes

theorem PhoenixWord.learnAll_plain {dijkstra : WGraph ℚ → ℕ → ℕ} :
    ∀ (calls : List LearnCall) (p p' : PhoenixWord),
    (∀ call ∈ calls, CtrlClaw.Emits call.wordBytes call.text) →
    (∀ call ∈ calls, 2 ≤ call.wordBytes.length → ∀ t ∈ call.wordBytes, Plain t) →
    p.learnAll pow dijkstra calls = some p' →
    NewPlain p.multiWordOfOneArticle_ p'.multiWordOfOneArticle_
  | [], p, p', _, _, hall => by
      obtain rfl := Option.some.inj hall
      exact NewPlain.refl _
  | call :: calls, p, p', hemits, hplain, hall => by
      rw [PhoenixWord.learnAll, List.foldlM_cons] at hall
      obtain ⟨q, hq, hrest⟩ := Option.bind_eq_some_iff.mp hall
      have hfirst := PhoenixWord.learn_plain (hemits call List.mem_cons_self)
        (hplain call List.mem_cons_self) hq
      exact hfirst.trans (PhoenixWord.learnAll_plain calls q p'
        (fun d hd => hemits d (List.mem_cons_of_mem _ hd))
        (fun d hd => hplain d (List.mem_cons_of_mem _ hd)) hrest)

theorem unforged_of_plain (pow : ℚ → ℚ → ℚ) (h : NeighboursPlain article) :
    Unforged pow article where
  ostrich := by
    intro c c' lang o calls hclaw hcalls
    exact OstrichWord.learnAll_plain calls o
      (fun d hd => (neighboursPlain_iff lang hclaw).mp h d (hcalls.subset hd))
  parrot := by
    intro c c' lang p calls hclaw hcalls
    exact ParrotWord.learnAll_plain calls p
      (fun d hd => CtrlClaw.emits_of_call hclaw (hcalls.subset hd))
      (fun d hd => (neighboursPlain_iff lang hclaw).mp h d (hcalls.subset hd))
  phoenix := by
    intro c c' lang p p' calls dijkstra hclaw hcalls hall
    exact PhoenixWord.learnAll_plain calls p p'
      (fun d hd => CtrlClaw.emits_of_call hclaw (hcalls.subset hd))
      (fun d hd => (neighboursPlain_iff lang hclaw).mp h d (hcalls.subset hd)) hall

/-- What has been counted stays counted. -/
theorem OstrichWord.mem_learnAll_of_mem {w : Str} : ∀ (calls : List LearnCall)
    (o : OstrichWord), w ∈ o.multiWordOfOneArticle_ →
    w ∈ (o.learnAll calls).multiWordOfOneArticle_
  | [], _, hw => hw
  | call :: calls, o, hw => OstrichWord.mem_learnAll_of_mem calls (o.learn call.wordBytes)
      (OstrichWord.mem_learn.mpr (Or.inl hw))

theorem OstrichWord.mem_learnAll {w : Str} {p : ℕ} {call : LearnCall}
    (hwindow : WindowAt false call.wordBytes w p) : ∀ (calls : List LearnCall)
    (o : OstrichWord), call ∈ calls → w ∈ (o.learnAll calls).multiWordOfOneArticle_
  | d :: calls, o, hcall => by
      rcases List.mem_cons.mp hcall with rfl | hcall
      · exact OstrichWord.mem_learnAll_of_mem calls (o.learn call.wordBytes)
          (OstrichWord.mem_learn.mpr (Or.inr ⟨p, hwindow⟩))
      · exact OstrichWord.mem_learnAll hwindow calls (o.learn d.wordBytes) hcall

/-- `OstrichWord` counts two neighbours as one word. -/
theorem plain_of_unforged (h : Unforged pow article) : NeighboursPlain article := by
  obtain ⟨c', hclaw, -⟩ := CtrlClaw.claw_entries ⟨[], [], [], []⟩ article
  refine (neighboursPlain_iff .cn hclaw).mpr ?_
  intro call hcall htwo
  rw [← isChain_both htwo, List.isChain_iff_forall_rel_of_append_cons_cons]
  intro t t' pre suf hsplit
  have hwindow : WindowAt false call.wordBytes (t ++ t') pre.flatten.length :=
    ⟨pre, [t, t'], suf, by rw [hsplit]; simp, le_rfl, by simp [gWordLength], by simp, rfl⟩
  have hplain := h.ostrich _ c' .cn ⟨∅⟩ _ hclaw (List.prefix_refl _) (t ++ t')
    (OstrichWord.mem_learnAll hwindow _ _ hcall) Std.TreeMap.not_mem_emptyc
  exact plain_append.mp hplain

/-- **An article forges no record exactly when no two neighbouring ordinary
characters hold a record byte.** -/
theorem unforged_iff (pow : ℚ → ℚ → ℚ) (article : Str) :
    Unforged pow article ↔ NeighboursPlain article :=
  ⟨plain_of_unforged, unforged_of_plain pow⟩

/-- A lead byte in front of `};`, then a character of three bytes: the learners count
the whole as one word, which closes its record early. -/
theorem swallowed_bytes_forge : ¬ Unforged natPow [228, 125, 59, 228, 184, 173] := fun h =>
  absurd (plain_of_unforged h) (by with_unfolding_all decide)

end Forging

end WaiNative

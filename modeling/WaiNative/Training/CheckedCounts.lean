import WaiNative.Training.Ranking

/-!
# Counting in `int`s

`learn` of the three learners with every `++` of a count checked. What a call counts is
a list of words, and counts only grow until the next commit. So no count has overflowed
on the way exactly when none is too large at the end.

- `OstrichWord.checkedLearn_iff`, `ParrotWord.checkedLearn_iff`,
  `PhoenixWord.checkedLearn_iff`: one call;
- `checked_run`: a sequence of calls.
-/

namespace WaiNative

open Cxx ShortestPath

/-! ## The three learners -/

def OstrichWord.checkedLearn (o : OstrichWord) (wordBytes : List Str) : Option OstrichWord :=
  if wordBytes.length < 2 then some o
  else do
    let m ← forWindows false
      (fun m jointWord _ => m.bind (fun m => checkedPushMultiWord m jointWord)) wordBytes [] 0
      (some o.multiWordOfOneArticle_)
    return { multiWordOfOneArticle_ := m }

def ParrotWord.checkedCollectWord (p : ParrotWord) : Option ParrotWord := do
  let m ← p.prediWords_.foldlM checkedPushMultiWord p.multiWordOfOneArticle_
  return { p with multiWordOfOneArticle_ := m }

def ParrotWord.checkedLearn (pow : ℚ → ℚ → ℚ) (p : ParrotWord) (wordBytes : List Str)
    (text : Str) (lang : Lang) : Option ParrotWord :=
  if wordBytes.length < 2 then some p
  else
    (getWordPredictionOfOne (calcPrediction pow (getRawRank p wordBytes lang))
      text).checkedCollectWord

def checkedJointPair : List WordElement → MultiWord → Option MultiWord
  | it :: nextIt :: rest, m => do
      let m ← checkedPushMultiWord m (it.word ++ [45] ++ nextIt.word)
      checkedJointPair (nextIt :: rest) m
  | _, m => some m

def PhoenixWord.checkedLearn (pow : ℚ → ℚ → ℚ) (dijkstra : WGraph ℚ → ℕ → ℕ)
    (p : PhoenixWord) (wordBytes : List Str) (text : Str) (lang : Lang) :
    Option PhoenixWord :=
  if wordBytes.length < 2 then some p
  else do
    let st ← prepare pow (inputPred p.dictInputCN_ p.dictInputJA_ lang) wordBytes text
    let st ← predict (PhoenixWord.calcPrediction dijkstra) st
    let m ← checkedJointPair st.wordSeqTopSelected_ p.multiWordOfOneArticle_
    return { p with
      toSegmentState := st
      multiWordOfOneArticle_ := m }

/-! ## What a call counts -/

/-- The second table is the first one with the words of some list counted. -/
def Collects (m m' : MultiWord) : Prop := ∃ words : List Str, m' = words.foldl pushMultiWord m

theorem Collects.intValues {m m' : MultiWord} (h : Collects m m') (hm' : IntValues m') :
    IntValues m := by
  obtain ⟨words, rfl⟩ := h
  exact hm'.of_foldl

theorem Collects.refl (m : MultiWord) : Collects m m := ⟨[], rfl⟩

/-- The pairs of neighbours, joined. -/
def pairWords : List WordElement → List Str
  | it :: nextIt :: rest => (it.word ++ [45] ++ nextIt.word) :: pairWords (nextIt :: rest)
  | _ => []

theorem jointPair_words : ∀ (l : List WordElement) (m : MultiWord),
    jointPair l m = (pairWords l).foldl pushMultiWord m
  | [], _ => rfl
  | [_], _ => rfl
  | _ :: nextIt :: rest, _ => jointPair_words (nextIt :: rest) _

theorem checkedJointPair_words : ∀ (l : List WordElement) (m : MultiWord),
    checkedJointPair l m = (pairWords l).foldlM checkedPushMultiWord m
  | [], _ => rfl
  | [_], _ => rfl
  | it :: nextIt :: rest, m => by
      rw [checkedJointPair, pairWords, List.foldlM_cons]
      congr 1
      funext m'
      exact checkedJointPair_words (nextIt :: rest) m'

/-- A fold over what may be missing stops at the first word that overflows. -/
theorem foldl_bind_eq_foldlM : ∀ (l : List (Str × ℕ)) (m : Option MultiWord),
    l.foldl (fun m v => m.bind (fun m => checkedPushMultiWord m v.1)) m =
      m.bind (fun m => (l.map Prod.fst).foldlM checkedPushMultiWord m)
  | [], none => rfl
  | [], some _ => rfl
  | v :: l, m => by
      rw [List.foldl_cons, foldl_bind_eq_foldlM l, Option.bind_assoc]
      rfl

section Calls

variable {pow : ℚ → ℚ → ℚ} {dijkstra : WGraph ℚ → ℕ → ℕ} {Bytes : List Str} {text : Str}
  {lang : Lang}

theorem OstrichWord.learn_collects (o : OstrichWord) :
    Collects o.multiWordOfOneArticle_ (o.learn Bytes).multiWordOfOneArticle_ := by
  unfold OstrichWord.learn
  split
  · exact Collects.refl _
  · refine ⟨(windows false Bytes).map Prod.fst, ?_⟩
    rw [List.foldl_map]
    exact forWindows_eq false (fun m jointWord _ => pushMultiWord m jointWord) Bytes [] 0 _

theorem OstrichWord.checkedLearn_iff {o o' : OstrichWord}
    (ho : IntValues o.multiWordOfOneArticle_) :
    o.checkedLearn Bytes = some o' ↔
      o.learn Bytes = o' ∧ IntValues o'.multiWordOfOneArticle_ := by
  unfold OstrichWord.checkedLearn OstrichWord.learn
  split
  · -- a run of one character is not learned
    rw [Option.some_inj]
    constructor
    · rintro rfl
      exact ⟨rfl, ho⟩
    · exact And.left
  · -- both loops run over the list of windows
    rw [forWindows_eq, forWindows_eq, foldl_bind_eq_foldlM, Option.bind_some,
      Option.bind_eq_bind, Option.bind_eq_some_iff]
    have hpush : ((windowsFrom false Bytes [] 0).map Prod.fst).foldl pushMultiWord
        o.multiWordOfOneArticle_ = (windowsFrom false Bytes [] 0).foldl
          (fun m v => pushMultiWord m v.1) o.multiWordOfOneArticle_ := List.foldl_map
    constructor
    · rintro ⟨m, hm, h⟩
      obtain rfl := Option.some.inj h
      obtain ⟨rfl, hint⟩ := (foldlM_checkedPush_iff ho).mp hm
      exact ⟨congrArg OstrichWord.mk hpush.symm, hint⟩
    · rintro ⟨rfl, hint⟩
      exact ⟨_, (foldlM_checkedPush_iff ho).mpr ⟨hpush.symm, hint⟩, rfl⟩

theorem ParrotWord.calcPrediction_members (pow : ℚ → ℚ → ℚ) (p : ParrotWord) :
    (p.calcPrediction pow).prediWords_ = p.prediWords_ ∧
      (p.calcPrediction pow).multiWordOfOneArticle_ = p.multiWordOfOneArticle_ := by
  unfold ParrotWord.calcPrediction
  split
  · exact ⟨rfl, rfl⟩
  · exact ⟨rfl, rfl⟩

theorem ParrotWord.learn_collects (p : ParrotWord) :
    Collects p.multiWordOfOneArticle_ (p.learn pow Bytes text lang).multiWordOfOneArticle_ := by
  unfold ParrotWord.learn
  split
  · exact Collects.refl _
  · refine ⟨_, congrArg (List.foldl pushMultiWord · _) ?_⟩
    exact (calcPrediction_members pow (p.getRawRank Bytes lang)).2

theorem ParrotWord.checkedLearn_iff {p p' : ParrotWord}
    (hp : IntValues p.multiWordOfOneArticle_) :
    p.checkedLearn pow Bytes text lang = some p' ↔
      p.learn pow Bytes text lang = p' ∧ IntValues p'.multiWordOfOneArticle_ := by
  unfold ParrotWord.checkedLearn ParrotWord.learn
  split
  · rw [Option.some_inj]
    constructor
    · rintro rfl
      exact ⟨rfl, hp⟩
    · exact And.left
  · -- no stage before `collectWord` touches the counts
    have hmulti := (calcPrediction_members pow (p.getRawRank Bytes lang)).2
    have hint : IntValues (getWordPredictionOfOne
        (calcPrediction pow (getRawRank p Bytes lang)) text).multiWordOfOneArticle_ := by
      rw [getWordPredictionOfOne, hmulti]
      exact hp
    rw [checkedCollectWord, Option.bind_eq_bind, Option.bind_eq_some_iff]
    constructor
    · rintro ⟨m, hm, h⟩
      obtain rfl := Option.some.inj h
      obtain ⟨rfl, hm'⟩ := (foldlM_checkedPush_iff hint).mp hm
      exact ⟨rfl, hm'⟩
    · rintro ⟨rfl, hm'⟩
      exact ⟨_, (foldlM_checkedPush_iff hint).mpr ⟨rfl, hm'⟩, rfl⟩

theorem PhoenixWord.learn_collects {p p' : PhoenixWord}
    (h : p.learn pow dijkstra Bytes text lang = some p') :
    Collects p.multiWordOfOneArticle_ p'.multiWordOfOneArticle_ := by
  unfold PhoenixWord.learn at h
  split at h
  · obtain rfl := Option.some.inj h
    exact Collects.refl _
  · obtain ⟨st, -, h⟩ := Option.bind_eq_some_iff.mp h
    obtain ⟨st', -, h⟩ := Option.bind_eq_some_iff.mp h
    obtain rfl := Option.some.inj h
    exact ⟨_, jointPair_words _ _⟩

theorem PhoenixWord.checkedLearn_iff {p p' : PhoenixWord}
    (hp : IntValues p.multiWordOfOneArticle_) :
    p.checkedLearn pow dijkstra Bytes text lang = some p' ↔
      p.learn pow dijkstra Bytes text lang = some p' ∧
        IntValues p'.multiWordOfOneArticle_ := by
  unfold PhoenixWord.checkedLearn PhoenixWord.learn
  split
  · constructor
    · intro h
      obtain rfl := Option.some.inj h
      exact ⟨rfl, hp⟩
    · exact And.left
  · simp only [Option.bind_eq_bind, Option.bind_eq_some_iff, checkedJointPair_words,
      jointPair_words, foldlM_checkedPush_iff hp]
    constructor
    · rintro ⟨st, hst, st', hst', m, ⟨rfl, hint⟩, h⟩
      obtain rfl := Option.some.inj h
      exact ⟨⟨st, hst, st', hst', rfl⟩, hint⟩
    · rintro ⟨⟨st, hst, st', hst', h⟩, hint⟩
      obtain rfl := Option.some.inj h
      exact ⟨st, hst, st', hst', _, ⟨rfl, hint⟩, rfl⟩

end Calls

/-! ## A sequence of calls -/

section Sequences

variable {L C : Type*} {multi : L → MultiWord} (learn : L → C → Option L)
  {checked : L → C → Option L}

theorem collects_run
    (hcollects : ∀ l c l', learn l c = some l' → Collects (multi l) (multi l')) :
    ∀ {calls : List C} {l l' : L}, calls.foldlM learn l = some l' →
      IntValues (multi l') → IntValues (multi l)
  | [], l, l', h, hl' => by
      obtain rfl := Option.some.inj h
      exact hl'
  | c :: calls, l, l', h, hl' => by
      rw [List.foldlM_cons] at h
      obtain ⟨l₁, hlearn, hrest⟩ := Option.bind_eq_some_iff.mp h
      exact (hcollects l c l₁ hlearn).intValues (collects_run hcollects hrest hl')

/-- **Where each call is checked right, a sequence of calls is**: it overflows exactly
when some count at its end is no `int`. -/
theorem checked_run
    (hchecked : ∀ l c l', IntValues (multi l) →
      (checked l c = some l' ↔ learn l c = some l' ∧ IntValues (multi l')))
    (hcollects : ∀ l c l', learn l c = some l' → Collects (multi l) (multi l')) :
    ∀ {calls : List C} {l l' : L}, IntValues (multi l) →
      (calls.foldlM checked l = some l' ↔
        calls.foldlM learn l = some l' ∧ IntValues (multi l'))
  | [], l, l', hl => by
      rw [List.foldlM_nil, List.foldlM_nil]
      constructor
      · intro h
        obtain rfl := Option.some.inj h
        exact ⟨rfl, hl⟩
      · exact And.left
  | c :: calls, l, l', hl => by
      rw [List.foldlM_cons, List.foldlM_cons]
      constructor
      · intro h
        obtain ⟨l₁, hfirst, hrest⟩ := Option.bind_eq_some_iff.mp h
        obtain ⟨hlearn, hl₁⟩ := (hchecked l c l₁ hl).mp hfirst
        obtain ⟨hlearns, hl'⟩ := (checked_run hchecked hcollects hl₁).mp hrest
        exact ⟨Option.bind_eq_some_iff.mpr ⟨l₁, hlearn, hlearns⟩, hl'⟩
      · rintro ⟨h, hl'⟩
        obtain ⟨l₁, hlearn, hlearns⟩ := Option.bind_eq_some_iff.mp h
        -- counts only grow, so those in between fit when the last ones do
        have hl₁ := collects_run learn hcollects hlearns hl'
        exact Option.bind_eq_some_iff.mpr ⟨l₁, (hchecked l c l₁ hl).mpr ⟨hlearn, hl₁⟩,
          (checked_run hchecked hcollects hl₁).mpr ⟨hlearns, hl'⟩⟩

end Sequences

end WaiNative

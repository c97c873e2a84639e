import WaiNative.Segment.Contiguity
import WaiNative.Text.Phonemes

/-!
# A `ZhiZiWord` object, call after call

`Segmenters` says what a call of `cut` leaves behind. Here the methods work on the
members as earlier calls left them, all seven, and `cut` returns its result.

- `cut_eq`: whatever the members held, a call of `cut` sets them anew from its
  arguments and the dictionaries; only `ap_` counts on, and nothing reads it;
- `cut_congr`: two objects with the same dictionaries return the same;
- `stages_select_iff`: a word is selected exactly when some byte of the run is
  spellable. Otherwise `pop_back` meets an empty sentence, which is undefined.
-/

namespace WaiNative

open Cxx ShortestPath ChainGraph Tiling

/-- `"cn"` -/
def strCn : Str := [99, 110]

/-- `"ja"` -/
def strJa : Str := [106, 97]

/-- What the comparisons of a `lang` string tell apart. -/
def Lang.of (lang : Str) : Lang :=
  if lang = strCn then .cn else if lang = strJa then .ja else .other

/-- The members of a `ZhiZiWord`. No method that the service calls reads the last
two. -/
structure ZhiZiObject extends ZhiZiWord where
  statisticsRank_ : Std.TreeMap Str (ℚ × ℚ)
  ap_ : ℤ

/-- What `cut` and `cutSpace` return, less the picture. `cutSpace` sets no `lang`, and
`tts` is null there as it is when there are no clips. -/
structure WaiResult where
  sentence : Str
  input : Str
  tts : List Str
  lang : Option Str
deriving DecidableEq

/-! ## The results -/

section Results

variable (gCN gJA : TTSMaster)

/-- The common text of `summaryCut` and `summaryCutPhrase`, which draw different
pictures. -/
def summary (wordSeqTopSelected_ : List WordElement) (text lang : Str) :
    Option WaiResult := do
  let sentence ← pop_back (wordSeqTopSelected_.flatMap (fun e => e.word ++ [37]))
  return { sentence := sentence
           input := text
           tts := createAudioList gCN gJA (wordSeqTopSelected_.map WordElement.word)
             (Lang.of lang)
           lang := some lang }

def summaryCut : List WordElement → Str → Str → Option WaiResult := summary gCN gJA

def summaryCutPhrase : List WordElement → Str → Str → Option WaiResult := summary gCN gJA

/-- `::isalnum` in the C locale. -/
def isalnum (c : UInt8) : Bool :=
  (48 ≤ c && c ≤ 57) || (65 ≤ c && c ≤ 90) || (97 ≤ c && c ≤ 122)

/-- `cutSpace`: the one-byte characters, with a `%` behind all but letters and digits. -/
def cutSpace (wordBytes : List Str) (text : Str) : WaiResult where
  sentence := wordBytes.flatMap (fun mbyte =>
    match mbyte with
    | [c] => if isalnum c then [c] else [c, 37]
    | _ => [])
  input := text
  tts := []
  lang := none

end Results

/-! ## The methods -/

namespace ZhiZiObject

/-- The body of both loops of `getRawRank`. -/
def pushHint (lang : Lang) (o : ZhiZiObject) (word : Str) (wordPos : ℕ) : ZhiZiObject :=
  let pred := inputPred o.dictInputCN_ o.dictInputJA_ lang word
  if pred > 0 then
    { o with
      statisticsMinWordSize_ :=
        if o.statisticsMinWordSize_ > word.length then word.length
        else o.statisticsMinWordSize_
      statisticsRank_ := o.statisticsRank_.insert word (pred, pred)
      wordHintSeq_ := Multimap.insert WordElement.position
        (WordElement.make word wordPos pred pred) o.wordHintSeq_ }
  else o

def getRawRank (Bytes : List Str) (lang : Lang) (o : ZhiZiObject) : ZhiZiObject :=
  forWindows true (pushHint lang) Bytes [] 0
    { o with
      statisticsMinWordSize_ := 32
      wordHintSeq_ := []
      wordAdjustedSeq_ := []
      statisticsRank_ := ∅
      noConflictWordSeq_ := []
      wordSeqTopSelected_ := []
      ap_ := o.ap_ + 1 }

def getOutRank (text : Str) (o : ZhiZiObject) : Option ZhiZiObject := do
  let wordHintSeq_ ← WaiNative.getOutRank text o.wordHintSeq_
  return { o with wordHintSeq_ := wordHintSeq_ }

/-- Inserts behind what `wordAdjustedSeq_` holds. -/
def adjustRank (pow : ℚ → ℚ → ℚ) (o : ZhiZiObject) : ZhiZiObject :=
  { o with
    wordAdjustedSeq_ := o.wordHintSeq_.foldl (fun wordAdjustedSeq_ elem =>
      Multimap.insert WordElement.position
        (adjustElement pow o.statisticsMinWordSize_ elem) wordAdjustedSeq_)
      o.wordAdjustedSeq_ }

/-- Pushes behind what `noConflictWordSeq_` holds. -/
def getNoConflictSeq (o : ZhiZiObject) : ZhiZiObject :=
  let st := clearFrom none o.wordAdjustedSeq_ ⟨0, [], o.noConflictWordSeq_⟩
  { o with
    noConflictWordSeq_ :=
      if st.nocfWordSeq.isEmpty = false then st.noConflictWordSeq_ ++ [st.nocfWordSeq]
      else st.noConflictWordSeq_ }

def calcPrediction (dijkstra : WGraph ℚ → ℕ → ℕ) (o : ZhiZiObject) :
    Option ZhiZiObject := do
  let st ← predict (ZhiZiWord.calcPrediction dijkstra) o.toSegmentState
  return { o with toSegmentState := st }

def calcPredictionPhrase (dijkstra : WGraph ℚ → ℕ → ℕ) (lang : Lang) (o : ZhiZiObject) :
    Option ZhiZiObject := do
  let st ← predict (ZhiZiWord.calcPredictionPhrase o.phraseInputCN_ o.phraseInputJA_ lang
    dijkstra) o.toSegmentState
  return { o with toSegmentState := st }

variable (pow : ℚ → ℚ → ℚ) (dijkstra : WGraph ℚ → ℕ → ℕ) (gCN gJA : TTSMaster)

/-- `none` where the call has no defined result, or throws; on a run it never throws
(`stages_select_iff`). -/
def cut (Bytes : List Str) (text lang : Str) (o : ZhiZiObject) :
    Option (WaiResult × ZhiZiObject) := do
  let o := o.getRawRank Bytes (Lang.of lang)
  let o ← o.getOutRank text
  let o := (o.adjustRank pow).getNoConflictSeq
  if Lang.of lang = .cn then
    let o ← o.calcPredictionPhrase dijkstra (Lang.of lang)
    let result ← summaryCutPhrase gCN gJA o.wordSeqTopSelected_ text lang
    return (result, o)
  else
    let o ← o.calcPrediction dijkstra
    let result ← summaryCut gCN gJA o.wordSeqTopSelected_ text lang
    return (result, o)

end ZhiZiObject

/-! ## A call sets the members anew -/

/-- The members behind a call of `cut`. -/
def ZhiZiWord.stages (pow : ℚ → ℚ → ℚ) (dijkstra : WGraph ℚ → ℕ → ℕ) (z : ZhiZiWord)
    (Bytes : List Str) (text : Str) (lang : Lang) : Option SegmentState :=
  (z.cut pow dijkstra Bytes text lang).map ZhiZiWord.toSegmentState

/-- What `loadMaster` has loaded. -/
def ZhiZiWord.dictionaries (z : ZhiZiWord) :
    Dictionary × Dictionary × Dictionary × Dictionary :=
  (z.dictInputCN_, z.dictInputJA_, z.phraseInputCN_, z.phraseInputJA_)

section Members

variable {pow : ℚ → ℚ → ℚ} {dijkstra : WGraph ℚ → ℕ → ℕ} {gCN gJA : TTSMaster}
  {Bytes : List Str} {text lang : Str}

/-- What the stages leave behind depends on the dictionaries alone. -/
theorem ZhiZiWord.stages_congr {z z' : ZhiZiWord} (h : z.dictionaries = z'.dictionaries)
    (l : Lang) : z.stages pow dijkstra Bytes text l = z'.stages pow dijkstra Bytes text l := by
  simp only [ZhiZiWord.dictionaries, Prod.mk.injEq] at h
  obtain ⟨hcn, hja, hpcn, hpja⟩ := h
  unfold ZhiZiWord.stages ZhiZiWord.cut
  rw [hcn, hja, hpcn, hpja]

namespace ZhiZiObject

/-- What `getRawRank` notes of the known words. -/
def rankOf (pred : Str → ℚ) (Bytes : List Str) : Std.TreeMap Str (ℚ × ℚ) :=
  forWindows true (fun m word _ => if pred word > 0 then m.insert word (pred word, pred word)
    else m) Bytes [] 0 ∅

/-- The object behind a call of `cut`. -/
def after (o : ZhiZiObject) (Bytes : List Str) (lang : Str) (st : SegmentState) :
    ZhiZiObject :=
  { o with
    toSegmentState := st
    statisticsRank_ :=
      rankOf (inputPred o.dictInputCN_ o.dictInputJA_ (Lang.of lang)) Bytes
    ap_ := o.ap_ + 1 }

/-- The loop over the windows, member by member. -/
theorem foldl_pushHint (l : Lang) : ∀ (vs : List (Str × ℕ)) (o : ZhiZiObject),
    vs.foldl (fun o v => pushHint l o v.1 v.2) o =
      let pred := inputPred o.dictInputCN_ o.dictInputJA_ l
      let raw := vs.foldl (fun st v => WaiNative.pushHint pred st v.1 v.2)
        ⟨o.statisticsMinWordSize_, o.wordHintSeq_⟩
      { o with
        statisticsMinWordSize_ := raw.statisticsMinWordSize_
        wordHintSeq_ := raw.wordHintSeq_
        statisticsRank_ := vs.foldl (fun m v =>
          if pred v.1 > 0 then m.insert v.1 (pred v.1, pred v.1) else m)
          o.statisticsRank_ }
  | [], _ => rfl
  | v :: vs, o => by
      simp only [List.foldl_cons]
      rw [foldl_pushHint l vs]
      by_cases hpred : inputPred o.dictInputCN_ o.dictInputJA_ l v.1 > 0
      · have hpush : pushHint l o v.1 v.2 =
            { o with
              statisticsMinWordSize_ :=
                if o.statisticsMinWordSize_ > v.1.length then v.1.length
                else o.statisticsMinWordSize_
              statisticsRank_ := o.statisticsRank_.insert v.1
                (inputPred o.dictInputCN_ o.dictInputJA_ l v.1,
                  inputPred o.dictInputCN_ o.dictInputJA_ l v.1)
              wordHintSeq_ := Multimap.insert WordElement.position
                (hintOf (inputPred o.dictInputCN_ o.dictInputJA_ l) v) o.wordHintSeq_ } :=
          if_pos hpred
        simp only [hpush, WaiNative.pushHint, if_pos hpred]
        rfl
      · have hpush : pushHint l o v.1 v.2 = o := if_neg hpred
        simp only [hpush, WaiNative.pushHint, if_neg hpred]

/-- **`getRawRank` resets every member.** -/
theorem getRawRank_eq (Bytes : List Str) (lang : Str) (o : ZhiZiObject) :
    o.getRawRank Bytes (Lang.of lang) =
      let raw := WaiNative.getRawRank
        (inputPred o.dictInputCN_ o.dictInputJA_ (Lang.of lang)) Bytes
      o.after Bytes lang ⟨raw.statisticsMinWordSize_, raw.wordHintSeq_, [], [], []⟩ := by
  rw [getRawRank, forWindows_eq, foldl_pushHint]
  simp only [WaiNative.getRawRank, after, rankOf, forWindows_eq]

/-- The four stages before the prediction. -/
theorem prepare_members (pow : ℚ → ℚ → ℚ) (Bytes : List Str) (text lang : Str)
    (o : ZhiZiObject) :
    ((o.getRawRank Bytes (Lang.of lang)).getOutRank text).map
        (fun o => (o.adjustRank pow).getNoConflictSeq) =
      (prepare pow (inputPred o.dictInputCN_ o.dictInputJA_ (Lang.of lang)) Bytes
        text).map (o.after Bytes lang) := by
  rw [getRawRank_eq]
  simp only [getOutRank, prepare, after]
  cases WaiNative.getOutRank text (WaiNative.getRawRank
      (inputPred o.dictInputCN_ o.dictInputJA_ (Lang.of lang)) Bytes).wordHintSeq_ with
  | none => rfl
  | some hints => rfl

theorem calcPrediction_after (o : ZhiZiObject) (st : SegmentState) :
    (o.after Bytes lang st).calcPrediction dijkstra =
      (predict (ZhiZiWord.calcPrediction dijkstra) st).map (o.after Bytes lang) := by
  show (predict (ZhiZiWord.calcPrediction dijkstra) st).bind _ = _
  cases predict (ZhiZiWord.calcPrediction dijkstra) st with
  | none => rfl
  | some st' => rfl

theorem calcPredictionPhrase_after (o : ZhiZiObject) (st : SegmentState) (l : Lang) :
    (o.after Bytes lang st).calcPredictionPhrase dijkstra l =
      (predict (ZhiZiWord.calcPredictionPhrase o.phraseInputCN_ o.phraseInputJA_ l dijkstra)
        st).map (o.after Bytes lang) := by
  show (predict (ZhiZiWord.calcPredictionPhrase o.phraseInputCN_ o.phraseInputJA_ l dijkstra)
    st).bind _ = _
  cases predict (ZhiZiWord.calcPredictionPhrase o.phraseInputCN_ o.phraseInputJA_ l dijkstra)
    st with
  | none => rfl
  | some st' => rfl

/-- **A call of `cut` depends on the dictionaries alone**, and leaves nothing of what
the members held but the count in `ap_`. -/
theorem cut_eq (o : ZhiZiObject) :
    o.cut pow dijkstra gCN gJA Bytes text lang =
      (o.stages pow dijkstra Bytes text (Lang.of lang)).bind (fun st =>
        (summary gCN gJA st.wordSeqTopSelected_ text lang).map (fun result =>
          (result, o.after Bytes lang st))) := by
  have hstages := prepare_members pow Bytes text lang o
  rw [cut, ZhiZiWord.stages, ZhiZiWord.cut]
  cases hprep : prepare pow (inputPred o.dictInputCN_ o.dictInputJA_ (Lang.of lang)) Bytes
      text with
  | none =>
      rw [hprep, Option.map_none, Option.map_eq_none_iff] at hstages
      rw [hstages]
      rfl
  | some st =>
      rw [hprep, Option.map_some, Option.map_eq_some_iff] at hstages
      obtain ⟨o₁, hout, hafter⟩ := hstages
      simp only [hout, hafter, Option.bind_eq_bind, Option.bind_some]
      by_cases hcn : Lang.of lang = .cn
      · rw [if_pos hcn, if_pos hcn, calcPredictionPhrase_after]
        cases predict (ZhiZiWord.calcPredictionPhrase o.phraseInputCN_ o.phraseInputJA_
            (Lang.of lang) dijkstra) st with
        | none => rfl
        | some st' =>
            simp only [Option.map_some, Option.bind_some]
            exact Option.map_eq_bind.symm
      · rw [if_neg hcn, if_neg hcn, calcPrediction_after]
        cases predict (ZhiZiWord.calcPrediction dijkstra) st with
        | none => rfl
        | some st' =>
            simp only [Option.map_some, Option.bind_some]
            exact Option.map_eq_bind.symm

/-- The result of a call of `cut`, whatever the object. -/
theorem cut_result (o : ZhiZiObject) :
    (o.cut pow dijkstra gCN gJA Bytes text lang).map Prod.fst =
      (o.stages pow dijkstra Bytes text (Lang.of lang)).bind (fun st =>
        summary gCN gJA st.wordSeqTopSelected_ text lang) := by
  rw [cut_eq, Option.map_bind]
  apply Option.bind_congr
  intro st _
  rw [Function.comp_apply, Option.map_map]
  exact Option.map_id'

theorem cut_congr {o o' : ZhiZiObject} (h : o.dictionaries = o'.dictionaries) :
    (o.cut pow dijkstra gCN gJA Bytes text lang).map Prod.fst =
      (o'.cut pow dijkstra gCN gJA Bytes text lang).map Prod.fst := by
  rw [cut_result, cut_result, ZhiZiWord.stages_congr h]

theorem cut_dictionaries {o o' : ZhiZiObject} {result : WaiResult}
    (h : o.cut pow dijkstra gCN gJA Bytes text lang = some (result, o')) :
    o'.dictionaries = o.dictionaries := by
  rw [cut_eq, Option.bind_eq_some_iff] at h
  obtain ⟨st, -, hsummary⟩ := h
  obtain ⟨r, -, heq⟩ := Option.map_eq_some_iff.mp hsummary
  obtain ⟨-, rfl⟩ := Prod.mk.inj heq
  rfl

end ZhiZiObject

/-! ## When something is selected -/

theorem pick_keepsWords (l : Lang) : KeepsWords (ZhiZiWord.pick l) := by
  unfold ZhiZiWord.pick
  split
  · exact byWordAndPosition_keepsWords
  · exact byWord_keepsWords

/-- From a group with a chain something is picked, from another one nothing. -/
theorem PickOf.ne_nil_iff {hints confuse picked : List WordElement} {rule : EdgeRule}
    {pick : LabelVertex → WordElement → Bool} (hg : GroupOf Bytes hints confuse)
    (hrule : rule.Total) (hkeep : KeepsWords pick)
    (hpick : PickOf rule pick dijkstra hints confuse picked) :
    picked ≠ [] ↔ HasChain confuse := by
  constructor
  · intro hpicked
    rcases hpick with ⟨sel, -, hchain, -⟩ | ⟨-, hnil⟩
    · exact ⟨sel, hchain.mem, hchain.tiles⟩
    · exact absurd hnil hpicked
  · intro hchain
    obtain ⟨sel, -, hsel, rfl⟩ := hpick.onPath hg hrule hchain
    obtain ⟨e, he, -⟩ :=
      hsel.tiles.exists_mem le_rfl (hg.hints.startPos_lt_posLast hg.nonempty)
    -- the lookup keeps the words, so it finds one for each of the chain
    have hword : e.word ∈ (found pick confuse sel).map WordElement.word := by
      rw [hkeep hg.hints hsel.mem]
      exact List.mem_map_of_mem he
    obtain ⟨x, hx, -⟩ := List.mem_map.mp hword
    exact List.ne_nil_of_mem (Multimap.mem_insertAll.mpr (Or.inr hx))

/-- Something is picked from some group exactly when some byte of the run is spellable. -/
theorem Collected.picks_ne_nil_iff {pred : Str → ℚ} {st : SegmentState}
    {rule : EdgeRule} {pick : LabelVertex → WordElement → Bool} {picks : List (List WordElement)}
    (h : Collected pow pred Bytes st) (hrun : CtrlClaw.Run Bytes text) (hrule : rule.Total)
    (hkeep : KeepsWords pick)
    (hpicks : List.Forall₂ (PickOf rule pick dijkstra st.wordHintSeq_)
      st.noConflictWordSeq_ picks) :
    picks.flatten ≠ [] ↔ ∃ m, Spellable pred Bytes m := by
  have hiff {c picked : List WordElement} (hc : c ∈ st.noConflictWordSeq_)
      (hpick : PickOf rule pick dijkstra st.wordHintSeq_ c picked) :
      picked ≠ [] ↔ HasChain c :=
    hpick.ne_nil_iff (h.prepared.group hrun hc) hrule hkeep
  constructor
  · intro hne
    obtain ⟨e, he⟩ := List.exists_mem_of_ne_nil _ hne
    obtain ⟨picked, hpicked, hep⟩ := List.mem_flatten.mp he
    obtain ⟨c, hc, hpick⟩ := exists_of_mem_right hpicks hpicked
    have hchain := (hiff hc hpick).mp (List.ne_nil_of_mem hep)
    exact ⟨startPos c, (h.spellable_iff hrun).mpr
      ⟨c, hc, hchain, le_rfl, h.groups_positive hrun c hc⟩⟩
  · rintro ⟨m, hm⟩
    obtain ⟨c, hc, hchain, -, -⟩ := (h.spellable_iff hrun).mp hm
    obtain ⟨picked, hpicked, hpick⟩ := exists_of_mem_left hpicks hc
    obtain ⟨e, he⟩ := List.exists_mem_of_ne_nil _ ((hiff hc hpick).mpr hchain)
    exact List.ne_nil_of_mem (List.mem_flatten.mpr ⟨picked, hpicked, he⟩)

/-- **On a run `cut` never throws, and it selects a word exactly when some byte of
the run is spellable** and, for Chinese, the least weight of the phrases is positive. -/
theorem stages_select_iff (pow : ℚ → ℚ → ℚ) (hback : LeadsBack vrtxStart dijkstra)
    (hrun : CtrlClaw.Run Bytes text) (z : ZhiZiWord) (l : Lang) :
    ∃ st, z.stages pow dijkstra Bytes text l = some st ∧
      (st.wordSeqTopSelected_ ≠ [] ↔
        (∃ m, Spellable (inputPred z.dictInputCN_ z.dictInputJA_ l) Bytes m) ∧
          (l = .cn → 0 < z.phraseInputCN_.getRangeMin)) := by
  obtain ⟨st, hst, h, htop⟩ := prepare_collected pow
    (inputPred z.dictInputCN_ z.dictInputJA_ l) hrun
  have hvalid : ValidOn dijkstra (z.rule l) st := h.validOn hrun hback
  obtain ⟨picks, hpicks, hpred⟩ :=
    predict_spec (ZhiZiWord.pick l) h.prepared hrun hvalid htop
  refine ⟨{ st with wordSeqTopSelected_ := picks.flatten }, ?_, ?_⟩
  · rw [ZhiZiWord.stages, z.cut_of_predict hst hpred]
    rfl
  · by_cases hmin : l = .cn → 0 < z.phraseInputCN_.getRangeMin
    · rw [and_iff_left hmin]
      exact h.picks_ne_nil_iff hrun (z.rule_total hmin) (pick_keepsWords l) hpicks
    · rw [Classical.not_imp] at hmin
      obtain ⟨rfl, hmin⟩ := hmin
      -- no group has a path, whatever is spellable
      have hnil := picks_eq_nil (z.rule_last hmin) hpicks
      constructor
      · intro hne
        exact absurd hnil hne
      · rintro ⟨-, hpos⟩
        exact absurd (hpos rfl) hmin

theorem summary_isSome {wordSeqTopSelected_ : List WordElement} :
    (summary gCN gJA wordSeqTopSelected_ text lang).isSome = true ↔
      wordSeqTopSelected_ ≠ [] := by
  cases wordSeqTopSelected_ with
  | nil => simp [summary, pop_back]
  | cons e rest => simp [summary, pop_back]

/-- **A call of `cut` on a run has a result exactly when some byte is spellable** and,
for Chinese, the least weight of the phrases is positive. -/
theorem ZhiZiObject.cut_isSome_iff (hback : LeadsBack vrtxStart dijkstra)
    (hrun : CtrlClaw.Run Bytes text) (o : ZhiZiObject) :
    ((o.cut pow dijkstra gCN gJA Bytes text lang).map Prod.fst).isSome = true ↔
      (∃ m, Spellable (inputPred o.dictInputCN_ o.dictInputJA_ (Lang.of lang)) Bytes m) ∧
        (Lang.of lang = .cn → 0 < o.phraseInputCN_.getRangeMin) := by
  obtain ⟨st, hst, hselect⟩ :=
    stages_select_iff pow hback hrun o.toZhiZiWord (Lang.of lang)
  rw [ZhiZiObject.cut_result, hst, Option.bind_some, summary_isSome, hselect]

/-- A spellable byte needs a known word. -/
theorem Spellable.known {pred : Str → ℚ} {m : ℕ} (h : Spellable pred Bytes m) :
    ∃ w, 0 < pred w := by
  obtain ⟨b, t, -, ht, -⟩ := h
  rcases ht with ⟨p, ⟨w, -, hpred, -⟩, -⟩ | ⟨-, u, ⟨p, ⟨w, -, hpred, -⟩, -⟩, -⟩
  · exact ⟨w, hpred⟩
  · exact ⟨w, hpred⟩

/-- Languages without a dictionary have no spellable byte. -/
theorem not_spellable_other (cn ja : Dictionary) (m : ℕ) :
    ¬ Spellable (inputPred cn ja .other) Bytes m := by
  intro h
  obtain ⟨w, hpred⟩ := h.known
  have hneg : inputPred cn ja .other w = -1 := rfl
  rw [hneg] at hpred
  exact absurd hpred (by decide)

end Members

end WaiNative

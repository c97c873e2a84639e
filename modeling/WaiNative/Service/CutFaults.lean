import WaiNative.Service.ProcessText

/-!
# The undefined operations on the way to the summary

`cut` once returned early for short runs; that guard is commented out. What it calls
still relies on words having been found: `pop_back` on a non-empty sentence, `begin()`
of non-empty maps. Here every such operation is checked where it is executed, and
`cut` stops at the first one that is undefined.

- `checkedCut_run`: on a run it agrees with `cut`, and only `pop_back` ever fails;
- `checkedCut_defined_iff`: nothing undefined happens exactly when some byte of the
  run is spellable and a path can be found.
-/

namespace WaiNative

open Cxx ShortestPath ChainGraph Tiling WaiLibraries

/-- The operations of `cut` that are not defined for all arguments. -/
inductive Undefined
  /-- `text.substr` with an offset behind the end of the text -/
  | substr
  /-- `confuse.begin()->first` of an empty group -/
  | confuse_begin
  /-- the walk along `parents`, without an end or to a vertex without a label -/
  | walk
  /-- `sentence.pop_back()` of an empty sentence -/
  | pop_back
  /-- `wordAdjustedSeq_.begin()->first` of an empty map -/
  | adjusted_begin
deriving DecidableEq

/-- An operation with its fault. -/
def guarded {α : Type} (fault : Undefined) : Option α → Except Undefined α
  | some a => .ok a
  | none => .error fault

/-! ## `cut`, checked -/

namespace ZhiZiObject

/-- The loop over the groups. -/
def checkedPredict (calcPrediction : (wordHintSeq_ confuse top : List WordElement) →
    Option (List WordElement)) (o : ZhiZiObject) : Except Undefined ZhiZiObject := do
  let top ← o.noConflictWordSeq_.foldlM (fun top confuse => do
    -- the dummy edges from the start
    let _ ← guarded .confuse_begin confuse.head?
    guarded .walk (calcPrediction o.wordHintSeq_ confuse top)) o.wordSeqTopSelected_
  return { o with wordSeqTopSelected_ := top }

/-- `summaryCut` and `summaryCutPhrase`. Both `createGraph` and `createGraphPhrase` read
the first position of `wordAdjustedSeq_`. -/
def checkedSummary (gCN gJA : TTSMaster) (text lang : Str) (o : ZhiZiObject) :
    Except Undefined WaiResult := do
  let result ← guarded .pop_back (summary gCN gJA o.wordSeqTopSelected_ text lang)
  let _ ← guarded .adjusted_begin o.wordAdjustedSeq_.head?
  return result

def checkedCut (pow : ℚ → ℚ → ℚ) (dijkstra : WGraph ℚ → ℕ → ℕ) (gCN gJA : TTSMaster)
    (Bytes : List Str) (text lang : Str) (o : ZhiZiObject) :
    Except Undefined (WaiResult × ZhiZiObject) := do
  let o := o.getRawRank Bytes (Lang.of lang)
  let o ← guarded .substr (o.getOutRank text)
  let o := (o.adjustRank pow).getNoConflictSeq
  if Lang.of lang = .cn then
    let o ← o.checkedPredict (ZhiZiWord.calcPredictionPhrase o.phraseInputCN_
      o.phraseInputJA_ (Lang.of lang) dijkstra)
    let result ← o.checkedSummary gCN gJA text lang
    return (result, o)
  else
    let o ← o.checkedPredict (ZhiZiWord.calcPrediction dijkstra)
    let result ← o.checkedSummary gCN gJA text lang
    return (result, o)

end ZhiZiObject

/-! ## Where the checks succeed -/

section Checks

variable {Bytes : List Str} {text lang : Str} {st st' : SegmentState}
  {calcPrediction : (wordHintSeq_ confuse top : List WordElement) →
    Option (List WordElement)}

/-- Over groups that are not empty, only the walk can fail. -/
theorem foldlM_guarded (f : List WordElement → List WordElement → Option (List WordElement)) :
    ∀ (groups : List (List WordElement)) (top : List WordElement),
      (∀ confuse ∈ groups, confuse ≠ []) →
      groups.foldlM (fun top confuse => do
        let _ ← guarded .confuse_begin confuse.head?
        guarded .walk (f confuse top)) top =
      guarded .walk (groups.foldlM (fun top confuse => f confuse top) top)
  | [], _, _ => rfl
  | confuse :: groups, top, hne => by
      obtain ⟨hconfuse, hgroups⟩ := List.forall_mem_cons.mp hne
      obtain ⟨e, rest, rfl⟩ := List.exists_cons_of_ne_nil hconfuse
      rw [List.foldlM_cons, List.foldlM_cons]
      have hbegin : guarded Undefined.confuse_begin (e :: rest).head? = .ok e := rfl
      rw [hbegin]
      cases hstep : f (e :: rest) top with
      | none => rfl
      | some top' => exact foldlM_guarded f groups top' hgroups

theorem checkedPredict_after {o : ZhiZiObject} (h : Prepared Bytes st)
    (hpred : predict calcPrediction st = some st') :
    (o.after Bytes lang st).checkedPredict calcPrediction = .ok (o.after Bytes lang st') := by
  rw [predict, Option.bind_eq_bind, Option.bind_eq_some_iff] at hpred
  obtain ⟨top, htop, heq⟩ := hpred
  obtain rfl := Option.some.inj heq
  have hloop := foldlM_guarded (calcPrediction st.wordHintSeq_) st.noConflictWordSeq_
    st.wordSeqTopSelected_ h.good.nonempty
  rw [htop] at hloop
  unfold ZhiZiObject.checkedPredict
  simp only [ZhiZiObject.after, hloop]
  rfl

/-- Where something is selected, there are adjusted words. -/
theorem adjusted_ne_nil (h : Prepared Bytes st) (htop : st.wordSeqTopSelected_ = [])
    (hpred : predict calcPrediction st = some st') (hne : st'.wordSeqTopSelected_ ≠ []) :
    st'.wordAdjustedSeq_ ≠ [] := by
  rw [predict, Option.bind_eq_bind, Option.bind_eq_some_iff] at hpred
  obtain ⟨top, hloop, heq⟩ := hpred
  obtain rfl := Option.some.inj heq
  intro hnil
  have hflat : st.noConflictWordSeq_.flatten = [] := h.flatten.trans hnil
  have hgroups : st.noConflictWordSeq_ = [] := by
    rw [List.eq_nil_iff_forall_not_mem]
    intro c hc
    exact h.good.nonempty c hc (List.flatten_eq_nil_iff.mp hflat c hc)
  rw [hgroups, htop] at hloop
  exact hne (Option.some.inj hloop).symm

/-- So the summary fails at `pop_back` or not at all. -/
theorem checkedSummary_after {gCN gJA : TTSMaster} (o : ZhiZiObject)
    (h : st.wordSeqTopSelected_ ≠ [] → st.wordAdjustedSeq_ ≠ []) :
    (o.after Bytes lang st).checkedSummary gCN gJA text lang =
      guarded .pop_back (summary gCN gJA st.wordSeqTopSelected_ text lang) := by
  unfold ZhiZiObject.checkedSummary
  simp only [ZhiZiObject.after]
  cases hsummary : summary gCN gJA st.wordSeqTopSelected_ text lang with
  | none => rfl
  | some result =>
      have hne : st.wordSeqTopSelected_ ≠ [] :=
        summary_isSome.mp (Option.isSome_iff_exists.mpr ⟨result, hsummary⟩)
      obtain ⟨e, rest, hadjusted⟩ := List.exists_cons_of_ne_nil (h hne)
      rw [hadjusted]
      rfl

end Checks

/-! ## A call on a run -/

section Run

variable {pow : ℚ → ℚ → ℚ} {dijkstra : WGraph ℚ → ℕ → ℕ} {gCN gJA : TTSMaster}
  {Bytes : List Str} {text lang : Str}

/-- On a run the stages have a result, which is that of the prediction. -/
theorem predict_of_run (pow : ℚ → ℚ → ℚ) (hback : LeadsBack vrtxStart dijkstra)
    (hrun : CtrlClaw.Run Bytes text) (z : ZhiZiWord) (l : Lang) :
    ∃ st st', prepare pow (inputPred z.dictInputCN_ z.dictInputJA_ l) Bytes text = some st ∧
      Prepared Bytes st ∧ st.wordSeqTopSelected_ = [] ∧
      predict (calcPredictionBy (z.rule l) (ZhiZiWord.pick l) dijkstra) st = some st' ∧
      z.stages pow dijkstra Bytes text l = some st' := by
  obtain ⟨st, hst, h, htop⟩ := prepare_collected pow
    (inputPred z.dictInputCN_ z.dictInputJA_ l) hrun
  have hvalid : ValidOn dijkstra (z.rule l) st := h.validOn hrun hback
  obtain ⟨picks, -, hpred⟩ :=
    predict_spec (ZhiZiWord.pick l) h.prepared hrun hvalid htop
  refine ⟨st, _, hst, h.prepared, htop, hpred, ?_⟩
  rw [ZhiZiWord.stages, z.cut_of_predict hst hpred]
  rfl

/-- Behind the prediction there is the summary. -/
theorem ZhiZiObject.checkedCut_of_predict {o o₁ : ZhiZiObject} {st st' : SegmentState}
    (hout : (o.getRawRank Bytes (Lang.of lang)).getOutRank text = some o₁)
    (hafter : (o₁.adjustRank pow).getNoConflictSeq = o.after Bytes lang st)
    (h : Prepared Bytes st)
    (hpred : predict (calcPredictionBy (o.rule (Lang.of lang)) (ZhiZiWord.pick (Lang.of lang))
      dijkstra) st = some st') :
    o.checkedCut pow dijkstra gCN gJA Bytes text lang =
      ((o.after Bytes lang st').checkedSummary gCN gJA text lang).map (fun result =>
        (result, o.after Bytes lang st')) := by
  have hchecked : (o.after Bytes lang st).checkedPredict (calcPredictionBy
      (o.rule (Lang.of lang)) (ZhiZiWord.pick (Lang.of lang)) dijkstra) =
      .ok (o.after Bytes lang st') := checkedPredict_after h hpred
  have hsubstr : guarded .substr ((o.getRawRank Bytes (Lang.of lang)).getOutRank text) =
      .ok o₁ := by
    rw [hout]
    rfl
  rw [checkedCut, hsubstr]
  show (if Lang.of lang = .cn then _ else _) = _
  simp only [hafter]
  by_cases hcn : Lang.of lang = .cn
  · have hphrase : (o.after Bytes lang st).checkedPredict (ZhiZiWord.calcPredictionPhrase
        o.phraseInputCN_ o.phraseInputJA_ (Lang.of lang) dijkstra) =
        .ok (o.after Bytes lang st') := by
      simp only [ZhiZiWord.rule, ZhiZiWord.pick, if_pos hcn] at hchecked
      exact hchecked
    rw [if_pos hcn]
    show ((o.after Bytes lang st).checkedPredict (ZhiZiWord.calcPredictionPhrase
      o.phraseInputCN_ o.phraseInputJA_ (Lang.of lang) dijkstra)).bind _ = _
    rw [hphrase]
    rfl
  · have hword : (o.after Bytes lang st).checkedPredict (ZhiZiWord.calcPrediction dijkstra) =
        .ok (o.after Bytes lang st') := by
      simp only [ZhiZiWord.rule, ZhiZiWord.pick, if_neg hcn] at hchecked
      exact hchecked
    rw [if_neg hcn, hword]
    rfl

/-- **On a run the first undefined operation, if any, is `pop_back`**, and without one
`checkedCut` is `cut`. -/
theorem ZhiZiObject.checkedCut_run (hback : LeadsBack vrtxStart dijkstra)
    (hrun : CtrlClaw.Run Bytes text) (o : ZhiZiObject) :
    o.checkedCut pow dijkstra gCN gJA Bytes text lang =
      guarded .pop_back (o.cut pow dijkstra gCN gJA Bytes text lang) := by
  obtain ⟨st, st', hst, h, htop, hpred, hstages⟩ :=
    predict_of_run pow hback hrun o.toZhiZiWord (Lang.of lang)
  have hmembers := prepare_members pow Bytes text lang o
  rw [hst, Option.map_some, Option.map_eq_some_iff] at hmembers
  obtain ⟨o₁, hout, hafter⟩ := hmembers
  rw [checkedCut_of_predict hout hafter h hpred,
    checkedSummary_after o (adjusted_ne_nil h htop hpred), cut_eq, hstages, Option.bind_some]
  cases summary gCN gJA st'.wordSeqTopSelected_ text lang with
  | none => rfl
  | some result => rfl

/-- **Nothing undefined happens exactly when some byte of the run is spellable** and, for
Chinese, the least weight of the phrases is positive. Short runs are no exception, nor are
languages without a dictionary. -/
theorem ZhiZiObject.checkedCut_defined_iff (hback : LeadsBack vrtxStart dijkstra)
    {sentence : Str} {s : SentenceWord} (hs : s ∈ runs sentence)
    (hmulti : s.multi = true) (o : ZhiZiObject) (lang : Str) :
    (∃ out, o.checkedCut pow dijkstra gCN gJA s.word s.strWord lang = .ok out) ↔
      (∃ m, Spellable (inputPred o.dictInputCN_ o.dictInputJA_ (Lang.of lang)) s.word m) ∧
        (Lang.of lang = .cn → 0 < o.phraseInputCN_.getRangeMin) := by
  have hrun := (emits_of_runs hs hmulti).run
  have hcut : ((o.cut pow dijkstra gCN gJA s.word s.strWord lang).map Prod.fst).isSome =
      true ↔ _ := o.cut_isSome_iff hback hrun
  rw [checkedCut_run hback hrun, ← hcut, Option.isSome_map]
  cases o.cut pow dijkstra gCN gJA s.word s.strWord lang with
  | none => simp [guarded]
  | some out => simp [guarded]

/-- Two characters that the Japanese dictionary knows. -/
theorem checkedCut_defined_iff_split : ∃ dijkstra, LeadsBack vrtxStart dijkstra ∧
    (⟨charX ++ charY, [charX, charY], true⟩ : SentenceWord) ∈
      runs (charX ++ charY) ∧
    ((∃ out, splitZhiZi.checkedCut natPow dijkstra ⟨none, none, none⟩ ⟨none, none, none⟩
        [charX, charY] (charX ++ charY) strJa = .ok out) ↔
      (∃ m, Spellable (inputPred splitZhiZi.dictInputCN_ splitZhiZi.dictInputJA_
        (Lang.of strJa)) [charX, charY] m) ∧
        (Lang.of strJa = .cn → 0 < splitZhiZi.phraseInputCN_.getRangeMin)) := by
  obtain ⟨dijkstra, hback⟩ := exists_leadsBack (W := ℚ) vrtxStart
  have hs : (⟨charX ++ charY, [charX, charY], true⟩ : SentenceWord) ∈
      runs (charX ++ charY) := by with_unfolding_all decide
  exact ⟨dijkstra, hback, hs,
    ZhiZiObject.checkedCut_defined_iff hback hs rfl splitZhiZi strJa⟩

/-- The two characters in a language without a dictionary, and one character that its
dictionary does not have. -/
theorem checkedCut_undefined :
    (⟨charX ++ charY, [charX, charY], true⟩ : SentenceWord) ∈
      runs (charX ++ charY) ∧
    (⟨charY, [charY], true⟩ : SentenceWord) ∈ runs charY ∧
    ∀ dijkstra,
      splitZhiZi.checkedCut natPow dijkstra ⟨none, none, none⟩ ⟨none, none, none⟩
        [charX, charY] (charX ++ charY) strEn = .error .pop_back ∧
      splitZhiZi.checkedCut natPow dijkstra ⟨none, none, none⟩ ⟨none, none, none⟩
        [charY] charY strCn = .error .pop_back := by
  refine ⟨by with_unfolding_all decide, by with_unfolding_all decide, ?_⟩
  intro dijkstra
  constructor
  · rfl
  · rfl

end Run

end WaiNative

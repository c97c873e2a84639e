import WaiNative.Segment.Conflicts
import WaiNative.Segment.SplitSeq
import WaiNative.Cxx.Fixed
import Mathlib.Algebra.Order.BigOperators.Group.List

/-!
# From the tree to the predictions

`flatPredSeq` weighs each reading by the mean weight of its words, scaled so that the
heaviest word would get `UINT16_MAX`. It tests the same limit as `setWordSeq`, but on the
finished list of leaves: a list of one leaf more than the limit passes the one test and
not the other.

- `flatPredSeq_length`: below the limit every leaf gets its entry;
- `flatPredSeq_keys`: the scaled weight always fits the key;
- `kept_iff`: which accepted trees lose their predictions.
-/

namespace WaiNative

open Cxx

namespace PredictionTree

/-- `multimap<int, vector<WordElement>>`. -/
abbrev Flat := List (ℤ × List WordElement)

def uint16Max : ℚ := 65535

/-- The loop of `flatPredSeqInside`: the entries, `weightMax` and the counter. -/
def pushLeaf (uniqueWords_ : Std.TreeMap ℤ WordElement) (r : Flat × ℚ × ℤ)
    (leaf : PredictionTree) : Flat × ℚ × ℤ :=
  let (flat, weightMax, dummyPredSum) := r
  let (seq, weightMax) := getPredSeq uniqueWords_ leaf ([], weightMax)
  (Multimap.insert Prod.fst (dummyPredSum, seq.reverse) flat, weightMax, dummyPredSum + 1)

/-- `flatPredSeqInside`, on an empty `flat`. -/
def flatPredSeqInside (st : Statics) : Flat × ℚ × Statics :=
  let (flat, weightMax, dummyPredSum) :=
    st.leaves_.foldl (pushLeaf st.uniqueWords_) ([], 0, st.dummyPredSum)
  (flat, weightMax, { st with dummyPredSum := dummyPredSum })

/-- The mean weight of a reading, scaled. -/
def divPredWeight2 (weightMaxDummy : ℚ) (seq : List WordElement) : ℚ :=
  let predWeightSum := (seq.map WordElement.weight).sum
  uint16Max * (predWeightSum / seq.length) / weightMaxDummy

/-- The loop of `flatPredSeq`: the entries and `weightSum`. -/
def pushPred (weightMaxDummy : ℚ) (r : Flat × ℚ) (dummy : ℤ × List WordElement) : Flat × ℚ :=
  if dummy.2.isEmpty = false then
    let weight2 := divPredWeight2 weightMaxDummy dummy.2
    (Multimap.insert Prod.fst (QiangbaoWord.truncate weight2, dummy.2) r.1, r.2 + weight2)
  else r

/-- `flatPredSeq`. -/
def flatPredSeq (st : Statics) (flat : Flat) (weightSum : ℚ) : Flat × ℚ × Statics :=
  if st.leaves_.length > iConstLeavesWidthMax then (flat, weightSum, st)
  else
    let (flatDummy, weightMaxDummy, st) := flatPredSeqInside st
    let (flat, weightSum) := flatDummy.foldl (pushPred weightMaxDummy) (flat, 0)
    (flat, weightSum, st)

end PredictionTree

namespace QiangbaoWord

open PredictionTree (Statics Flat setWordSeq flatPredSeq splitComplexWordSeq recursesOn)

/-- An entry of `result_`: the phrase and its ambiguities by rank. -/
structure Phrase where
  phrase : Str
  ambiguity : List (Str × Str)

/-- What `calcPrediction` adds to, with the statics of the tree. -/
structure Results where
  statics : Statics
  result_ : List Phrase
  clearResult_ : Str

def maxTop : ℕ := 3

/-- The loop of `fetchPrediction`: the phrase and the ambiguities. -/
def fetchTop (weightSum : ℚ) (r : Phrase) (top : ℤ × List PredictionTree.WordElement) : Phrase :=
  let fredFloat := (top.1 : ℚ) / weightSum
  let words := top.2.flatMap (fun elem => [60] ++ elem.word ++ toFixed elem.weight ++ [62])
  let resultpx := toFixed fredFloat ++ [63, 61] ++ words
  { phrase := if r.phrase.isEmpty then top.2.flatMap PredictionTree.WordElement.word else r.phrase
    ambiguity := r.ambiguity ++ [(toChars (r.ambiguity.length + 1), resultpx)] }

/-- `fetchPrediction`: the readings of the greatest weights, heaviest first. -/
def fetchPrediction (r : Results) : Results :=
  let (flat, weightSum, st) := flatPredSeq r.statics [] 0
  let clearPt := (flat.reverse.take maxTop).foldl (fetchTop weightSum) ⟨[], []⟩
  { statics := st
    result_ := r.result_ ++ [clearPt]
    clearResult_ := r.clearResult_ ++ [37] ++ clearPt.phrase }

/-- The path for a sequence with too many readings. -/
def splitPath (recurse : List PredictionTree.WordElement → Results → Option Results)
    (clearWordSeq : List PredictionTree.WordElement) (r : Results) : Option Results :=
  match splitComplexWordSeq clearWordSeq with
  | none => none
  | some splitedSeq => (recursesOn splitedSeq).foldlM (fun r seq => recurse seq r) r

/-- `calcPrediction(clearWordSeq)`; `none` when the fuel runs out or an iterator is read
at the end. -/
def calcPrediction : ℕ → List PredictionTree.WordElement → Results → Option Results
  | 0, _, _ => none
  | fuel + 1, clearWordSeq, r =>
      match setWordSeq fuel clearWordSeq r.statics.construct with
      | none => none
      | some (true, st) => some (fetchPrediction { r with statics := st })
      | some (false, st) => splitPath (calcPrediction fuel) clearWordSeq { r with statics := st }

/-- A word of `cutTextByRank` as the tree reads it. -/
def asTree (elem : WordElement) : PredictionTree.WordElement :=
  ⟨elem.word, elem.pos, elem.range, elem.rankRepeat, elem.rankorig, elem.last⟩

/-- `calcPrediction()`: the groups one after the other. -/
def calcPredictions (fuel : ℕ) (noConflictWordSeq_ : List (List WordElement)) (r : Results) :
    Option Results :=
  noConflictWordSeq_.foldlM (fun r clearSeq => calcPrediction fuel (clearSeq.map asTree) r) r

end QiangbaoWord

namespace PredictionTree

/-! ## The leaves, one by one -/

section Entries

variable {uniqueWords_ : Std.TreeMap ℤ WordElement}

/-- The words of a leaf do not depend on the weight met so far. -/
theorem getPredSeq_fst : ∀ {leaf : PredictionTree} {seq : List WordElement} {a b : ℚ},
    (getPredSeq uniqueWords_ leaf (seq, a)).1 = (getPredSeq uniqueWords_ leaf (seq, b)).1
  | top, _, _, _ => rfl
  | node root_ index_, seq, a, b => by
      rw [getPredSeq, getPredSeq]
      split
      · exact getPredSeq_fst
      · exact getPredSeq_fst

theorem pushLeaf_eq {flat : Flat} {weightMax : ℚ} {dummyPredSum : ℤ}
    (h : ∀ x ∈ flat, x.1 < dummyPredSum) (leaf : PredictionTree) :
    pushLeaf uniqueWords_ (flat, weightMax, dummyPredSum) leaf =
      (flat ++ [(dummyPredSum, reading uniqueWords_ leaf)],
        (getPredSeq uniqueWords_ leaf ([], weightMax)).2, dummyPredSum + 1) := by
  show (Multimap.insert Prod.fst (dummyPredSum,
    (getPredSeq uniqueWords_ leaf ([], weightMax)).1.reverse) flat, _, _) = _
  rw [Multimap.insert_last (fun x hx => (h x hx).le), reading, getPredSeq_fst (b := 0)]

/-- `flatPredSeqInside` numbers the readings in the order of their leaves. -/
theorem pushLeaf_foldl : ∀ {leaves_ : List PredictionTree} {flat : Flat} {weightMax : ℚ}
    {dummyPredSum : ℤ}, (∀ x ∈ flat, x.1 < dummyPredSum) →
    ((leaves_.foldl (pushLeaf uniqueWords_) (flat, weightMax, dummyPredSum)).1.map Prod.snd) =
      flat.map Prod.snd ++ leaves_.map (reading uniqueWords_)
  | [], _, _, _, _ => by simp
  | leaf :: leaves_, flat, weightMax, dummyPredSum, h => by
      rw [List.foldl_cons, pushLeaf_eq h, pushLeaf_foldl, List.map_append, List.append_assoc]
      · rfl
      · intro x hx
        rcases List.mem_append.mp hx with hx | hx
        · exact (h x hx).trans (lt_add_one _)
        · rw [List.mem_singleton.mp hx]
          exact lt_add_one _

/-- Every reading with a word gets its entry. -/
theorem pushPred_foldl {weightMaxDummy : ℚ} : ∀ {flatDummy : Flat} {r : Flat × ℚ},
    (∀ dummy ∈ flatDummy, dummy.2 ≠ []) →
    (flatDummy.foldl (pushPred weightMaxDummy) r).1.length = r.1.length + flatDummy.length
  | [], _, _ => rfl
  | dummy :: flatDummy, r, h => by
      obtain ⟨hdummy, hrest⟩ := List.forall_mem_cons.mp h
      rw [List.foldl_cons, pushPred_foldl hrest, pushPred, if_pos (by simpa using hdummy)]
      show (Multimap.insert Prod.fst _ r.1).length + _ = _
      rw [(Multimap.insert_perm _ _).length_eq, List.length_cons, List.length_cons]
      omega

end Entries

/-- **Below the limit every leaf gets its entry.** -/
theorem flatPredSeq_length {st : Statics} (hle : st.leaves_.length ≤ iConstLeavesWidthMax)
    (hread : ∀ leaf ∈ st.leaves_, reading st.uniqueWords_ leaf ≠ []) :
    (flatPredSeq st [] 0).1.length = st.leaves_.length := by
  have hsnd := @pushLeaf_foldl st.uniqueWords_ st.leaves_ [] 0 st.dummyPredSum (by simp)
  rw [flatPredSeq, if_neg (not_lt.mpr hle), flatPredSeqInside]
  generalize st.leaves_.foldl (pushLeaf st.uniqueWords_) ([], 0, st.dummyPredSum) = r at hsnd ⊢
  obtain ⟨flatDummy, weightMax, dummyPredSum⟩ := r
  have hlen : flatDummy.length = st.leaves_.length := by
    simpa using congrArg List.length hsnd
  show (flatDummy.foldl (pushPred weightMax) ([], 0)).1.length = _
  rw [pushPred_foldl, List.length_nil, Nat.zero_add, hlen]
  intro dummy hdummy
  have hmem : dummy.2 ∈ st.leaves_.map (reading st.uniqueWords_) := by
    rw [← List.nil_append (st.leaves_.map _)]
    show dummy.2 ∈ ([] : Flat).map Prod.snd ++ _
    rw [← hsnd]
    exact List.mem_map_of_mem hdummy
  obtain ⟨leaf, hleaf, heq⟩ := List.mem_map.mp hmem
  exact heq ▸ hread leaf hleaf

/-- A tree that is one leaf too large gets none. -/
theorem flatPredSeq_of_gt {st : Statics} (hgt : iConstLeavesWidthMax < st.leaves_.length) :
    (flatPredSeq st [] 0).1 = [] := by
  rw [flatPredSeq, if_pos hgt]

/-! ## The keys -/

section Keys

variable {uniqueWords_ : Std.TreeMap ℤ WordElement}

/-- No word read weighs more than `weightMax`. -/
def Bounded (seq : List WordElement) (weightMax : ℚ) : Prop :=
  ∀ elem ∈ seq, elem.weight ≤ weightMax

theorem Bounded.mono {seq : List WordElement} {a b : ℚ} (h : Bounded seq a) (hab : a ≤ b) :
    Bounded seq b := fun elem helem => (h elem helem).trans hab

theorem getPredSeq_bounded : ∀ {leaf : PredictionTree} {seq : List WordElement} {weightMax : ℚ},
    Bounded seq weightMax →
    weightMax ≤ (getPredSeq uniqueWords_ leaf (seq, weightMax)).2 ∧
      Bounded (getPredSeq uniqueWords_ leaf (seq, weightMax)).1
        (getPredSeq uniqueWords_ leaf (seq, weightMax)).2
  | top, _, _, h => ⟨le_rfl, h⟩
  | node root_ index_, seq, weightMax, h => by
      rw [getPredSeq]
      split
      · next elem _ =>
          have hmax : (if elem.weight > weightMax then elem.weight else weightMax) =
              max weightMax elem.weight := by
            rw [max_def_lt]
          have hseq : Bounded (seq ++ [elem]) (max weightMax elem.weight) := by
            intro e he
            rcases List.mem_append.mp he with he | he
            · exact (h e he).trans (le_max_left _ _)
            · rw [List.mem_singleton.mp he]
              exact le_max_right _ _
          rw [hmax]
          obtain ⟨hle, hbounded⟩ := @getPredSeq_bounded root_ _ _ hseq
          exact ⟨(le_max_left _ _).trans hle, hbounded⟩
      · exact getPredSeq_bounded h

theorem pushLeaf_bounded : ∀ {leaves_ : List PredictionTree} {r : Flat × ℚ × ℤ},
    (∀ x ∈ r.1, Bounded x.2 r.2.1) →
    ∀ x ∈ (leaves_.foldl (pushLeaf uniqueWords_) r).1,
      Bounded x.2 (leaves_.foldl (pushLeaf uniqueWords_) r).2.1
  | [], _, h => h
  | leaf :: leaves_, (flat, weightMax, dummyPredSum), h => by
      rw [List.foldl_cons]
      apply pushLeaf_bounded
      have hnil : Bounded [] weightMax := by simp [Bounded]
      obtain ⟨hle, hseq⟩ := @getPredSeq_bounded uniqueWords_ leaf _ _ hnil
      intro x hx
      rcases Multimap.mem_insert.mp hx with rfl | hx
      · intro e he
        exact hseq e (List.mem_reverse.mp he)
      · exact (h x hx).mono hle

/-- The mean of positive weights, scaled by the greatest, stays below the scale. -/
theorem divPredWeight2_mem {seq : List WordElement} {weightMaxDummy : ℚ} (hne : seq ≠ [])
    (hpos : ∀ elem ∈ seq, 0 < elem.weight) (h : Bounded seq weightMaxDummy) :
    0 ≤ divPredWeight2 weightMaxDummy seq ∧ divPredWeight2 weightMaxDummy seq ≤ uint16Max := by
  obtain ⟨first, hfirst⟩ := List.exists_mem_of_ne_nil _ hne
  have hmax : 0 < weightMaxDummy := (hpos first hfirst).trans_le (h first hfirst)
  have hlen : (0 : ℚ) < seq.length := by exact_mod_cast List.length_pos_iff.mpr hne
  have hsum0 : 0 ≤ (seq.map WordElement.weight).sum := by
    apply List.sum_nonneg
    intro w hw
    obtain ⟨elem, helem, rfl⟩ := List.mem_map.mp hw
    exact (hpos elem helem).le
  have hsum : (seq.map WordElement.weight).sum ≤ weightMaxDummy * seq.length := by
    have hle := List.sum_le_card_nsmul (seq.map WordElement.weight) weightMaxDummy (by
      intro w hw
      obtain ⟨elem, helem, rfl⟩ := List.mem_map.mp hw
      exact h elem helem)
    rwa [List.length_map, nsmul_eq_mul, mul_comm] at hle
  have hscale : (0 : ℚ) ≤ uint16Max := by
    rw [uint16Max]
    positivity
  constructor
  · exact div_nonneg (mul_nonneg hscale (div_nonneg hsum0 hlen.le)) hmax.le
  · rw [divPredWeight2, div_le_iff₀ hmax]
    exact mul_le_mul_of_nonneg_left ((div_le_iff₀ hlen).mpr hsum) hscale

theorem truncate_mem {q : ℚ} {n : ℕ} (h0 : 0 ≤ q) (hn : q ≤ n) :
    0 ≤ QiangbaoWord.truncate q ∧ QiangbaoWord.truncate q ≤ n := by
  have hnum : 0 ≤ q.num := Rat.num_nonneg.mpr h0
  have hden : (0 : ℚ) < q.den := by exact_mod_cast q.den_pos
  rw [QiangbaoWord.truncate, Int.tdiv_eq_ediv_of_nonneg hnum]
  refine ⟨Int.ediv_nonneg hnum (by positivity), Int.ediv_le_of_le_mul (by exact_mod_cast q.den_pos) ?_⟩
  rw [← Rat.num_div_den q, div_le_iff₀ hden] at hn
  exact_mod_cast hn

/-- A key of the result is the scaled mean of one reading, cut to an integer. -/
theorem mem_pushPred_foldl {weightMaxDummy : ℚ} : ∀ {flatDummy : Flat} {r : Flat × ℚ}
    {x : ℤ × List WordElement}, x ∈ (flatDummy.foldl (pushPred weightMaxDummy) r).1 →
    x ∈ r.1 ∨ ∃ dummy ∈ flatDummy, dummy.2 ≠ [] ∧
      x = (QiangbaoWord.truncate (divPredWeight2 weightMaxDummy dummy.2), dummy.2)
  | [], _, _, h => Or.inl h
  | dummy :: flatDummy, r, x, h => by
      rw [List.foldl_cons] at h
      rcases mem_pushPred_foldl h with h | ⟨dummy', hmem, hne, rfl⟩
      · rw [pushPred] at h
        split at h
        · next hne =>
            rcases Multimap.mem_insert.mp h with rfl | h
            · exact Or.inr ⟨dummy, List.mem_cons_self, by simpa using hne, rfl⟩
            · exact Or.inl h
        · exact Or.inl h
      · exact Or.inr ⟨dummy', List.mem_cons_of_mem _ hmem, hne, rfl⟩

/-- **The scaled weights fit the `int` they are cut to**, as long as all weights are
positive. -/
theorem flatPredSeq_keys {st : Statics}
    (hpos : ∀ leaf ∈ st.leaves_, ∀ elem ∈ reading st.uniqueWords_ leaf, 0 < elem.weight) :
    ∀ x ∈ (flatPredSeq st [] 0).1, 0 ≤ x.1 ∧ x.1 ≤ 65535 := by
  intro x hx
  by_cases hgt : st.leaves_.length > iConstLeavesWidthMax
  · rw [flatPredSeq_of_gt hgt] at hx
    contradiction
  have hsnd := @pushLeaf_foldl st.uniqueWords_ st.leaves_ [] 0 st.dummyPredSum (by simp)
  have hbounded := @pushLeaf_bounded st.uniqueWords_ st.leaves_ ([], 0, st.dummyPredSum) (by simp)
  rw [flatPredSeq, if_neg hgt, flatPredSeqInside] at hx
  generalize st.leaves_.foldl (pushLeaf st.uniqueWords_) ([], 0, st.dummyPredSum) = r
    at hsnd hbounded hx
  obtain ⟨flatDummy, weightMax, dummyPredSum⟩ := r
  rcases mem_pushPred_foldl hx with hx | ⟨dummy, hmem, hne, rfl⟩
  · contradiction
  have hread : dummy.2 ∈ st.leaves_.map (reading st.uniqueWords_) := by
    rw [← List.nil_append (st.leaves_.map _)]
    show dummy.2 ∈ ([] : Flat).map Prod.snd ++ _
    rw [← hsnd]
    exact List.mem_map_of_mem hmem
  obtain ⟨leaf, hleaf, heq⟩ := List.mem_map.mp hread
  have hweights : ∀ elem ∈ dummy.2, 0 < elem.weight := heq ▸ hpos leaf hleaf
  obtain ⟨h0, hle⟩ := divPredWeight2_mem hne hweights (hbounded dummy hmem)
  exact truncate_mem (n := 65535) h0 hle

end Keys

section Accepted

variable {seq : WordSeq}

/-- Every reading of a sequence has a word. -/
theorem readings_cons {chain : List (WordElement × ℕ)} (h : seq.MaximalChain chain) :
    chain ≠ [] := by
  rintro rfl
  obtain ⟨rootElem, hroot, hcomplete⟩ := h
  obtain ⟨rest, hwords⟩ := List.head?_eq_some_iff.mp hroot
  refine ChainWalk.complete_nil.mp hcomplete (rootElem, 0) ?_ rfl
  rw [WordSeq.placed, hwords]
  exact List.mem_cons_self

/-- The predictions of an accepted tree: one for each leaf, or none at all. -/
theorem flatPredSeq_accepted (hrange : ∀ elem ∈ seq.words, 0 < elem.range) {fuel : ℕ}
    (hfuel : seq.words.length < fuel) {st st' : Statics}
    (h : setWordSeq fuel seq.words st.construct = some (true, st')) :
    st'.leaves_.length = seq.readings.length ∧
      (flatPredSeq st' [] 0).1.length =
        if seq.readings.length = iConstLeavesWidthMax + 1 then 0 else seq.readings.length := by
  obtain ⟨hle, hleaves, hread⟩ := leaves_of_accepted hrange hfuel h
  have hlen : st'.leaves_.length = seq.readings.length := by
    rw [hleaves, List.length_map]
  refine ⟨hlen, ?_⟩
  by_cases hfull : seq.readings.length = iConstLeavesWidthMax + 1
  · rw [if_pos hfull, flatPredSeq_of_gt (by omega), List.length_nil]
  · rw [if_neg hfull, flatPredSeq_length (by omega), hlen]
    intro leaf hleaf hnil
    have hmem : reading st'.uniqueWords_ leaf ∈ seq.readings.map (List.map Prod.fst) :=
      hread ▸ List.mem_map_of_mem hleaf
    obtain ⟨chain, hchain, heq⟩ := List.mem_map.mp hmem
    rw [hnil, List.map_eq_nil_iff] at heq
    exact readings_cons ((mem_readings hrange).mp hchain) heq

end Accepted

end PredictionTree

namespace QiangbaoWord

open PredictionTree (WordSeq setWordSeq flatPredSeq)

/-- An accepted tree keeps its predictions, one for each leaf and at least one, and a
sequence whose tree is not accepted goes the splitting path. -/
def Kept (seq : WordSeq) (r : Results) : Prop :=
  ∀ fuel st, seq.words.length < fuel →
    (setWordSeq fuel seq.words r.statics.construct = some (true, st) →
      (flatPredSeq st [] 0).1.length = st.leaves_.length ∧ 1 ≤ st.leaves_.length ∧
      calcPrediction (fuel + 1) seq.words r = some (fetchPrediction { r with statics := st })) ∧
    (setWordSeq fuel seq.words r.statics.construct = some (false, st) →
      calcPrediction (fuel + 1) seq.words r =
        splitPath (calcPrediction fuel) seq.words { r with statics := st })

section Lost

variable {seq : WordSeq} (hrange : ∀ elem ∈ seq.words, 0 < elem.range)

include hrange in
/-- A tree of one leaf more than the limit is accepted and its predictions are gone. -/
theorem not_kept (hfull : seq.readings.length = 1025) (r : Results) : ¬ Kept seq r := by
  intro hkept
  obtain ⟨st, hrun⟩ := PredictionTree.setWordSeq_returns hrange (Nat.lt_succ_self _) r.statics
  rw [hfull, PredictionTree.iConstLeavesWidthMax, decide_eq_true le_rfl] at hrun
  obtain ⟨hlen, hpos, -⟩ := (hkept _ _ (Nat.lt_succ_self _)).1 hrun
  obtain ⟨-, hflat⟩ := PredictionTree.flatPredSeq_accepted hrange (Nat.lt_succ_self _) hrun
  have hlost := hflat.trans (if_pos hfull)
  omega

include hrange in
theorem kept_of_ne (hne : seq.words ≠ []) (hnot : seq.readings.length ≠ 1025) (r : Results) :
    Kept seq r := by
  intro fuel st hfuel
  constructor
  · intro h
    obtain ⟨hleaves, hflat⟩ := PredictionTree.flatPredSeq_accepted hrange hfuel h
    refine ⟨?_, ?_, ?_⟩
    · rw [hflat, hleaves]
      exact if_neg hnot
    · rw [hleaves]
      exact List.length_pos_iff.mpr (PredictionTree.readings_ne_nil hrange hne)
    · rw [calcPrediction, h]
  · intro h
    rw [calcPrediction, h]

end Lost

/-- **Predictions are lost for the sequences with one reading more than the limit**, and
for no other. -/
theorem kept_iff (seq : WordSeq) (hne : seq.words ≠ [])
    (hrange : ∀ elem ∈ seq.words, 0 < elem.range) (r : Results) :
    Kept seq r ↔ {chain | seq.MaximalChain chain}.ncard ≠ 1025 := by
  rw [PredictionTree.ncard_maximalChain hrange]
  exact ⟨fun hkept hfull => not_kept hrange hfull r hkept, fun h => kept_of_ne hrange hne h r⟩

theorem kept_ab : Kept PredictionTree.abSeq ⟨⟨∅, 7, [], 0⟩, [], []⟩ ↔
    {chain | PredictionTree.abSeq.MaximalChain chain}.ncard ≠ 1025 :=
  kept_iff PredictionTree.abSeq (List.cons_ne_nil _ _) (by decide) _

/-! ## Twenty characters -/

/-- A character of three bytes. -/
def character (i : ℕ) : Str := [228, 184, 128 + i.toUInt8]

def element (i n : ℕ) (weight : ℚ) : PredictionTree.WordElement :=
  ⟨(List.range' i n).flatMap character, 3 * i, 3 * n, weight, 1, 0⟩

/-- Twenty characters, when the dictionary knows each of them, the ten pairs that stand
side by side and the whole. -/
def twentySeq : WordSeq where
  words := element 0 1 1 :: element 0 2 4 :: element 0 20 1 :: element 1 1 1 ::
    (List.range' 1 9).flatMap
      (fun i => [element (2 * i) 1 1, element (2 * i) 2 4, element (2 * i + 1) 1 1])
  sorted := by
    unfold Multimap.Sorted
    decide

/-- The readings from a character on. -/
def twentyCount (p : ℤ) : ℕ := if p = 0 then 1025 else 2 ^ (10 - (p.toNat / 3 + 1) / 2)

theorem twentySeq_range : ∀ elem ∈ twentySeq.words, 0 < elem.range := by decide

theorem twentySeq_readings : twentySeq.readings.length = 1025 := by
  have hsum : ∀ e ∈ twentySeq.placed, twentyCount e.1.pos =
      ((ChainWalk.leaving (fun w : PredictionTree.WordElement × ℕ => w.1.pos) twentySeq.placed
        e.1.pos).map (fun e => twentyCount e.1.stop)).sum := by
    decide
  have hone : ∀ e ∈ twentySeq.placed,
      ChainWalk.leaving (fun w : PredictionTree.WordElement × ℕ => w.1.pos) twentySeq.placed
        e.1.stop = [] → twentyCount e.1.stop = 1 := by
    decide
  exact ChainWalk.length_walks (PredictionTree.placed_forward twentySeq_range) hsum hone
    ⟨_, List.mem_cons_self, Or.inl rfl⟩ (PredictionTree.ahead_placed_lt _)

/-- The tree of their readings is accepted and not one of them is predicted. -/
theorem not_kept_twenty : ¬ Kept twentySeq ⟨⟨∅, 0, [], 0⟩, [], []⟩ :=
  not_kept twentySeq_range twentySeq_readings _

end QiangbaoWord

end WaiNative

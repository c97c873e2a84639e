import WaiNative.Segment.Qiangbao
import WaiNative.Theory.ChainWalk
import Mathlib.Data.Set.Card

/-!
# `PredictionTree`: all readings of a word sequence

A reading starts with a word at the first position and goes on with a word that starts
where the last one ends, until no word does. `setWordSeq` builds the tree of the
readings and collects its leaves, and gives up once there are too many of them;
`getPredSeq` walks from a leaf back to the top.

- `setWordSeqAt_eq`: the leaves are those of `ChainWalk.walks`, as far as the limit
  lets them;
- `getPredSeq_extend`: a leaf reads back the words of its walk;
- `setWordSeq_enumerates`: what an accepted tree holds.

The static `uniqIndex_`, which goes on from tree to tree, is an integer in place of `int`:
all trees together are taken to have fewer than 2^31 words.
-/

namespace WaiNative

open Cxx

/-- A node: its parent and the index of its word. Children are only kept alive by their
parents, nothing reads them. -/
inductive PredictionTree where
  | top
  | node (root_ : PredictionTree) (index_ : ℤ)

namespace PredictionTree

/-- `tuple<string, int, int, double, double, int>`. -/
structure WordElement where
  word : Str
  pos : ℤ
  range : ℤ
  weight : ℚ
  weight_orig : ℚ
  index : ℤ
deriving DecidableEq

/-- Where the word ends. -/
def WordElement.stop (elem : WordElement) : ℤ := elem.pos + elem.range

/-- The static members, shared by all trees, and the counter of
`flatPredSeqInside`. -/
structure Statics where
  uniqueWords_ : Std.TreeMap ℤ WordElement
  uniqIndex_ : ℤ
  leaves_ : List PredictionTree
  dummyPredSum : ℤ

/-- `PredictionTree()`: a new top clears the statics, its index goes on. -/
def Statics.construct (st : Statics) : Statics :=
  { st with uniqueWords_ := ∅, leaves_ := [] }

def iConstLeavesWidthMax : ℕ := 1024

/-! ## Building the tree -/

/-- The loop that gives every word an index of its own. -/
def indexWords : List WordElement → List WordElement → Statics → List WordElement × Statics
  | [], indexWordSeq, st => (indexWordSeq, st)
  | elem :: rest, indexWordSeq, st =>
      let indexElem := { elem with index := st.uniqIndex_ }
      indexWords rest (Multimap.insert WordElement.pos indexElem indexWordSeq)
        { st with
          uniqueWords_ := st.uniqueWords_.insert st.uniqIndex_ elem
          uniqIndex_ := st.uniqIndex_ + 1 }

/-- The loop over the words of one position: the first child that fails ends it. -/
def eachWord (setChild : WordElement → List PredictionTree → Option (Bool × List PredictionTree)) :
    List WordElement → List PredictionTree → Option (Bool × List PredictionTree)
  | [], leaves_ => some (true, leaves_)
  | elem :: rest, leaves_ =>
      match setChild elem leaves_ with
      | some (true, leaves_) => eachWord setChild rest leaves_
      | retSub => retSub

/-- `setWordSeq(indexWordSeq, pos)` of the node `myPtr`; `none` when the fuel runs
out. -/
def setWordSeqAt (indexWordSeq : List WordElement) :
    ℕ → PredictionTree → ℤ → List PredictionTree → Option (Bool × List PredictionTree)
  | 0, _, _, _ => none
  | fuel + 1, myPtr, pos, leaves_ =>
      if leaves_.length > iConstLeavesWidthMax then some (false, leaves_)
      else
        let sameKey := Multimap.equalRange WordElement.pos pos indexWordSeq
        let setChild := fun elem : WordElement =>
          setWordSeqAt indexWordSeq fuel (node myPtr elem.index) (elem.pos + elem.range)
        match eachWord setChild sameKey leaves_ with
        | some (true, leaves_) =>
            if sameKey.length = 0 then some (true, leaves_ ++ [myPtr]) else some (true, leaves_)
        | retSub => retSub

/-- `setWordSeq(clearWordSeq)` of a top. -/
def setWordSeq (fuel : ℕ) (clearWordSeq : List WordElement) (st : Statics) :
    Option (Bool × Statics) :=
  let (indexWordSeq, st) := indexWords clearWordSeq [] st
  match indexWordSeq with
  | [] => some (true, st)
  | rootElem :: _ =>
      (setWordSeqAt indexWordSeq fuel top rootElem.pos st.leaves_).map
        (fun r => (r.1, { st with leaves_ := r.2 }))

/-! ## Reading the leaves -/

/-- `getPredSeq`: the words from a leaf up to the top. -/
def getPredSeq (uniqueWords_ : Std.TreeMap ℤ WordElement) :
    PredictionTree → List WordElement × ℚ → List WordElement × ℚ
  | top, r => r
  | node root_ index_, (seq, weightMax) =>
      match uniqueWords_[index_]? with
      | some elem =>
          getPredSeq uniqueWords_ root_
            (seq ++ [elem], if elem.weight > weightMax then elem.weight else weightMax)
      | none => getPredSeq uniqueWords_ root_ (seq, weightMax)

/-- A leaf read through `getPredSeq` and turned round. -/
def reading (uniqueWords_ : Std.TreeMap ℤ WordElement) (leaf : PredictionTree) :
    List WordElement :=
  (getPredSeq uniqueWords_ leaf ([], 0)).1.reverse

/-! ## Word sequences -/

/-- `multimap<int, WordElement>`, the key of each word being its position. -/
structure WordSeq where
  words : List WordElement
  sorted : Multimap.Sorted WordElement.pos words

/-- The words with their places in the sequence. -/
def WordSeq.placed (seq : WordSeq) : List (WordElement × ℕ) := seq.words.zipIdx

/-- A maximal chain: from the first position on each word starts where the one before it
ends, and no word starts at the end of the last. -/
def WordSeq.MaximalChain (seq : WordSeq) (chain : List (WordElement × ℕ)) : Prop :=
  ∃ rootElem ∈ seq.words.head?,
    ChainWalk.Complete (fun w => w.1.pos) (fun w => w.1.stop) seq.placed rootElem.pos chain

/-! ## What the walk collects -/

/-- The leaf that a walk from `myPtr` ends in. -/
def extend (myPtr : PredictionTree) (chain : List WordElement) : PredictionTree :=
  chain.foldl (fun t elem => node t elem.index) myPtr

/-- The readings from `pos` on, as far as the fuel goes. -/
def walksFrom (seq : List WordElement) (fuel : ℕ) (pos : ℤ) : List (List WordElement) :=
  ChainWalk.walks WordElement.pos WordElement.stop seq fuel pos

/-- The walk stops right after the leaf that is one too many. -/
def collected (leaves_ found : List PredictionTree) : Bool × List PredictionTree :=
  (decide (leaves_.length + found.length ≤ iConstLeavesWidthMax + 1),
    (leaves_ ++ found).take (iConstLeavesWidthMax + 1))

theorem collected_nil {leaves_ : List PredictionTree}
    (h : leaves_.length ≤ iConstLeavesWidthMax + 1) : collected leaves_ [] = (true, leaves_) := by
  simp [collected, h]

/-- Below the limit everything found is kept. -/
theorem collected_of_le {leaves_ found : List PredictionTree}
    (h : leaves_.length + found.length ≤ iConstLeavesWidthMax + 1) :
    collected leaves_ found = (true, leaves_ ++ found) := by
  rw [collected, List.take_of_length_le (by simpa using h)]
  simp [h]

/-- Above it, nothing that comes later matters. -/
theorem collected_append {leaves_ found : List PredictionTree} (later : List PredictionTree)
    (h : iConstLeavesWidthMax + 1 < leaves_.length + found.length) :
    collected leaves_ (found ++ later) = (false, (collected leaves_ found).2) := by
  have hlen : iConstLeavesWidthMax + 1 < leaves_.length + (found ++ later).length := by
    rw [List.length_append]
    omega
  have hcut : iConstLeavesWidthMax + 1 ≤ (leaves_ ++ found).length := by
    rw [List.length_append]
    omega
  rw [collected, collected, decide_eq_false (not_le.mpr hlen), ← List.append_assoc,
    List.take_append_of_le_length hcut]

/-- What is full keeps nothing of it. -/
theorem collected_full {leaves_ found : List PredictionTree}
    (h : leaves_.length = iConstLeavesWidthMax + 1) (hne : found ≠ []) :
    collected leaves_ found = (false, leaves_) := by
  have hpos := List.length_pos_of_ne_nil hne
  rw [collected, List.take_append_of_le_length h.ge, List.take_of_length_le h.le,
    decide_eq_false]
  omega

section Collect

variable {indexWordSeq : List WordElement}

/-- The loop over the children, when each child collects what it should. -/
theorem eachWord_eq
    {setChild : WordElement → List PredictionTree → Option (Bool × List PredictionTree)}
    {found : WordElement → List PredictionTree} : ∀ {sameKey : List WordElement}
    {leaves_ : List PredictionTree},
    (∀ elem ∈ sameKey, ∀ leaves_ : List PredictionTree,
      leaves_.length ≤ iConstLeavesWidthMax + 1 →
        setChild elem leaves_ = some (collected leaves_ (found elem))) →
    leaves_.length ≤ iConstLeavesWidthMax + 1 →
    eachWord setChild sameKey leaves_ = some (collected leaves_ (sameKey.flatMap found))
  | [], leaves_, _, hle => by rw [eachWord, List.flatMap_nil, collected_nil hle]
  | elem :: rest, leaves_, hchild, hle => by
      rw [eachWord, hchild elem List.mem_cons_self leaves_ hle, List.flatMap_cons]
      by_cases h : leaves_.length + (found elem).length ≤ iConstLeavesWidthMax + 1
      · rw [collected_of_le h]
        show eachWord setChild rest (leaves_ ++ found elem) = _
        rw [eachWord_eq (fun e he => hchild e (List.mem_cons_of_mem _ he)) (by simpa using h)]
        simp [collected, add_assoc]
      · rw [collected_append _ (not_le.mp h)]
        have hfalse : (collected leaves_ (found elem)).1 = false := decide_eq_false h
        rcases hc : collected leaves_ (found elem) with ⟨b, l⟩
        rw [hc] at hfalse
        subst hfalse
        rfl

/-- The walks from a position go through the children of its node. -/
theorem map_extend_walksFrom {fuel : ℕ} {pos : ℤ} (myPtr : PredictionTree)
    (hl : ChainWalk.leaving WordElement.pos indexWordSeq pos ≠ []) :
    (walksFrom indexWordSeq (fuel + 1) pos).map (extend myPtr) =
      (ChainWalk.leaving WordElement.pos indexWordSeq pos).flatMap (fun elem =>
        (walksFrom indexWordSeq fuel elem.stop).map (extend (node myPtr elem.index))) := by
  rw [walksFrom, ChainWalk.walks_of_ne_nil hl, List.map_flatMap]
  apply List.flatMap_congr
  intro elem _
  rw [List.map_map]
  rfl

/-- **A node collects the leaves of the walks from its position.** -/
theorem setWordSeqAt_eq (hrange : ∀ elem ∈ indexWordSeq, 0 < elem.range) :
    ∀ {fuel : ℕ} {myPtr : PredictionTree} {pos : ℤ} {leaves_ : List PredictionTree},
    ChainWalk.ahead WordElement.pos indexWordSeq pos < fuel →
    leaves_.length ≤ iConstLeavesWidthMax + 1 →
    setWordSeqAt indexWordSeq fuel myPtr pos leaves_ =
      some (collected leaves_ ((walksFrom indexWordSeq fuel pos).map (extend myPtr)))
  | 0, _, _, _, hfuel, _ => absurd hfuel (Nat.not_lt_zero _)
  | fuel + 1, myPtr, pos, leaves_, hfuel, hle => by
      have hforward : ∀ elem ∈ indexWordSeq, elem.pos < elem.stop :=
        fun elem h => lt_add_of_pos_right _ (hrange elem h)
      rw [setWordSeqAt]
      by_cases hlimit : leaves_.length > iConstLeavesWidthMax
      · -- full before the node is entered: some leaf would have come
        have hne : walksFrom indexWordSeq (fuel + 1) pos ≠ [] :=
          ChainWalk.walks_ne_nil hforward hfuel
        rw [if_pos hlimit, collected_full (le_antisymm hle hlimit) (mt List.map_eq_nil_iff.mp hne)]
      · rw [if_neg hlimit]
        have hsame : Multimap.equalRange WordElement.pos pos indexWordSeq =
            ChainWalk.leaving WordElement.pos indexWordSeq pos := rfl
        simp only [hsame]
        by_cases hl : ChainWalk.leaving WordElement.pos indexWordSeq pos = []
        · have hone : leaves_.length + [myPtr].length ≤ iConstLeavesWidthMax + 1 := by
            simp only [List.length_singleton]
            omega
          rw [walksFrom, ChainWalk.walks_of_nil hl, hl]
          show some (true, leaves_ ++ [myPtr]) = some (collected leaves_ [myPtr])
          rw [collected_of_le hone]
        · have hchild : ∀ elem ∈ ChainWalk.leaving WordElement.pos indexWordSeq pos,
              ∀ leaves_ : List PredictionTree, leaves_.length ≤ iConstLeavesWidthMax + 1 →
                setWordSeqAt indexWordSeq fuel (node myPtr elem.index) (elem.pos + elem.range)
                    leaves_ =
                  some (collected leaves_ ((walksFrom indexWordSeq fuel elem.stop).map
                    (extend (node myPtr elem.index)))) := by
            intro elem helem leaves_ hle
            obtain ⟨hmem, rfl⟩ := ChainWalk.mem_leaving.mp helem
            have hlt := ChainWalk.ahead_stop_lt hforward hmem
            exact setWordSeqAt_eq hrange (lt_of_lt_of_le hlt (Nat.le_of_lt_succ hfuel)) hle
          rw [eachWord_eq hchild hle, ← map_extend_walksFrom myPtr hl]
          rcases hc : collected leaves_ ((walksFrom indexWordSeq (fuel + 1) pos).map
            (extend myPtr)) with ⟨b, l⟩
          rcases b with _ | _
          · rfl
          · simp [hl]

end Collect

/-! ## Indices -/

/-- A word of the sequence with the index it is given, the first one getting `u`. -/
def indexed (u : ℤ) (w : WordElement × ℕ) : WordElement := { w.1 with index := u + w.2 }

section Indices

variable {u : ℤ}

theorem indexWords_fst : ∀ {words : List WordElement} {k : ℕ} {indexWordSeq : List WordElement}
    {st : Statics}, st.uniqIndex_ = u + k →
    (indexWords words indexWordSeq st).1 =
      Multimap.insertAll WordElement.pos ((words.zipIdx k).map (indexed u)) indexWordSeq
  | [], _, _, _, _ => rfl
  | elem :: rest, k, indexWordSeq, st, h => by
      rw [indexWords, indexWords_fst (k := k + 1) (by simp [h, add_assoc]), List.zipIdx_cons,
        List.map_cons, h]
      rfl

@[simp] theorem indexWords_leaves_ : ∀ (words indexWordSeq : List WordElement) (st : Statics),
    (indexWords words indexWordSeq st).2.leaves_ = st.leaves_
  | [], _, _ => rfl
  | _ :: rest, _, _ => indexWords_leaves_ rest _ _

/-- Indices given out earlier keep their words. -/
theorem indexWords_of_lt : ∀ {words indexWordSeq : List WordElement} {st : Statics} {j : ℤ},
    j < st.uniqIndex_ →
    (indexWords words indexWordSeq st).2.uniqueWords_[j]? = st.uniqueWords_[j]?
  | [], _, _, _, _ => rfl
  | elem :: rest, _, st, j, h => by
      rw [indexWords, indexWords_of_lt (by simpa using by omega)]
      simp [Std.TreeMap.getElem?_insert, h.ne']

/-- **Each index leads back to its word.** -/
theorem indexWords_get : ∀ {words : List WordElement} {k : ℕ} {indexWordSeq : List WordElement}
    {st : Statics}, st.uniqIndex_ = u + k → ∀ w ∈ words.zipIdx k,
    (indexWords words indexWordSeq st).2.uniqueWords_[(indexed u w).index]? = some w.1
  | [], _, _, _, _ => by simp
  | elem :: rest, k, indexWordSeq, st, h => by
      intro w hw
      rw [List.zipIdx_cons] at hw
      rw [indexWords]
      rcases List.mem_cons.mp hw with rfl | hw
      · rw [indexWords_of_lt (by simp [indexed, h])]
        simp [indexed, h]
      · exact indexWords_get (by simp [h, add_assoc]) w hw

end Indices

theorem WordSeq.placed_fst (seq : WordSeq) : seq.placed.map Prod.fst = seq.words :=
  List.zipIdx_map_fst 0 seq.words

theorem WordSeq.placed_sorted (seq : WordSeq) :
    seq.placed.Pairwise (fun a b => a.1.pos ≤ b.1.pos) := by
  have h := seq.sorted
  rw [Multimap.Sorted, ← seq.placed_fst, List.pairwise_map] at h
  exact h

theorem WordSeq.placed_lt (seq : WordSeq) : seq.placed.Pairwise (fun a b => a.2 < b.2) := by
  rw [← List.pairwise_map, WordSeq.placed, List.zipIdx_map_snd]
  exact List.pairwise_lt_range'

/-- An ordered sequence keeps its order. -/
theorem indexWords_eq (seq : WordSeq) (st : Statics) :
    (indexWords seq.words [] st).1 = seq.placed.map (indexed st.uniqIndex_) := by
  rw [indexWords_fst (k := 0) (show st.uniqIndex_ = st.uniqIndex_ + (0 : ℕ) by simp)]
  apply Multimap.insertAll_sorted
  show (seq.placed.map (indexed st.uniqIndex_)).Pairwise _
  rw [List.pairwise_map]
  exact seq.placed_sorted

/-! ## Reading back -/

/-- The greatest weight met. -/
def maxWeight (weightMax : ℚ) (seq : List WordElement) : ℚ :=
  seq.foldl (fun m elem => if elem.weight > m then elem.weight else m) weightMax

/-- **From a leaf `getPredSeq` comes back up the walk that led to it.** -/
theorem getPredSeq_extend {uniqueWords_ : Std.TreeMap ℤ WordElement} {u : ℤ} :
    ∀ {chain : List (WordElement × ℕ)} {myPtr : PredictionTree} {r : List WordElement × ℚ},
    (∀ w ∈ chain, uniqueWords_[(indexed u w).index]? = some w.1) →
    getPredSeq uniqueWords_ (extend myPtr (chain.map (indexed u))) r =
      getPredSeq uniqueWords_ myPtr
        (r.1 ++ (chain.map Prod.fst).reverse, maxWeight r.2 (chain.map Prod.fst).reverse)
  | [], _, r, _ => by simp [extend, maxWeight]
  | w :: chain, myPtr, r, h => by
      have hw := h w List.mem_cons_self
      have hrest : getPredSeq uniqueWords_
          (extend (node myPtr (indexed u w).index) (chain.map (indexed u))) r = _ :=
        getPredSeq_extend (fun x hx => h x (List.mem_cons_of_mem _ hx))
      rw [List.map_cons]
      show getPredSeq uniqueWords_ (extend (node myPtr (indexed u w).index)
        (chain.map (indexed u))) r = _
      rw [hrest, getPredSeq, hw]
      simp [maxWeight]

/-- The words of a leaf, first one first. -/
theorem reading_extend {uniqueWords_ : Std.TreeMap ℤ WordElement} {u : ℤ}
    {chain : List (WordElement × ℕ)}
    (h : ∀ w ∈ chain, uniqueWords_[(indexed u w).index]? = some w.1) :
    reading uniqueWords_ (extend top (chain.map (indexed u))) = chain.map Prod.fst := by
  rw [reading, getPredSeq_extend h]
  simp [getPredSeq]

/-! ## Runs of `setWordSeq` -/

/-- The readings of a sequence, as the walk meets them. -/
def WordSeq.readings (seq : WordSeq) : List (List (WordElement × ℕ)) :=
  match seq.words with
  | [] => []
  | rootElem :: _ =>
      ChainWalk.walks (fun w => w.1.pos) (fun w => w.1.stop) seq.placed
        (seq.words.length + 1) rootElem.pos

/-- The leaf of a reading. -/
def leafOf (u : ℤ) (chain : List (WordElement × ℕ)) : PredictionTree :=
  extend top (chain.map (indexed u))

section Runs

variable {seq : WordSeq} (hrange : ∀ elem ∈ seq.words, 0 < elem.range)

include hrange in
theorem placed_forward : ∀ w ∈ seq.placed, w.1.pos < w.1.stop := fun _ h =>
  lt_add_of_pos_right _ (hrange _ (List.fst_mem_of_mem_zipIdx h))

theorem ahead_placed_lt (p : ℤ) :
    ChainWalk.ahead (fun w : WordElement × ℕ => w.1.pos) seq.placed p < seq.words.length + 1 := by
  have hlen : seq.placed.length = seq.words.length := List.length_zipIdx
  rw [← hlen]
  exact Nat.lt_succ_of_le (ChainWalk.ahead_le p)

include hrange in
theorem mem_readings {chain : List (WordElement × ℕ)} :
    chain ∈ seq.readings ↔ seq.MaximalChain chain := by
  rw [WordSeq.MaximalChain, WordSeq.readings]
  split
  · next h => simp [h]
  · next rootElem rest h =>
      rw [ChainWalk.mem_walks (placed_forward hrange) (ahead_placed_lt _), h]
      simp

theorem readings_lex : seq.readings.Pairwise (List.Lex (fun a b => a.2 < b.2)) := by
  rw [WordSeq.readings]
  split
  · exact List.Pairwise.nil
  · exact ChainWalk.walks_lex seq.placed_lt _ _

theorem readings_nodup : seq.readings.Nodup := by
  rw [WordSeq.readings]
  split
  · exact List.nodup_nil
  · exact ChainWalk.walks_nodup (fun w => lt_irrefl w.2) seq.placed_lt _ _

include hrange in
theorem readings_ne_nil (hne : seq.words ≠ []) : seq.readings ≠ [] := by
  rw [WordSeq.readings]
  split
  · contradiction
  · exact ChainWalk.walks_ne_nil (placed_forward hrange) (ahead_placed_lt _)

include hrange in
/-- There are as many maximal chains as readings. -/
theorem ncard_maximalChain :
    {chain | seq.MaximalChain chain}.ncard = seq.readings.length := by
  have hset : {chain | seq.MaximalChain chain} = (seq.readings.toFinset : Set _) := by
    ext chain
    simp [mem_readings hrange]
  rw [hset, Set.ncard_coe_finset, List.toFinset_card_of_nodup readings_nodup]

include hrange in
/-- **`setWordSeq` collects the leaves of the readings.** -/
theorem setWordSeq_eq {fuel : ℕ} (hfuel : seq.words.length < fuel) (st : Statics) :
    setWordSeq fuel seq.words st.construct =
      some ((collected [] (seq.readings.map (leafOf st.uniqIndex_))).1,
        { (indexWords seq.words [] st.construct).2 with
          leaves_ := (collected [] (seq.readings.map (leafOf st.uniqIndex_))).2 }) := by
  have hindex := indexWords_eq seq st.construct
  have hleaves := indexWords_leaves_ seq.words [] st.construct
  rw [setWordSeq]
  generalize indexWords seq.words [] st.construct = r at hindex hleaves ⊢
  obtain ⟨indexWordSeq, uniqueWords_, uniqIndex_, leaves_, dummyPredSum⟩ := r
  obtain rfl : indexWordSeq = seq.placed.map (indexed st.uniqIndex_) := hindex
  obtain rfl : leaves_ = [] := hleaves
  have hforward : ∀ elem ∈ seq.placed.map (indexed st.uniqIndex_), 0 < elem.range := by
    intro elem helem
    obtain ⟨w, hw, rfl⟩ := List.mem_map.mp helem
    exact hrange w.1 (List.fst_mem_of_mem_zipIdx hw)
  rw [WordSeq.readings]
  rcases hw : seq.words with _ | ⟨rootElem, rest⟩
  · rw [WordSeq.placed, hw]
    rfl
  · have hcons : seq.placed.map (indexed st.uniqIndex_) =
        indexed st.uniqIndex_ (rootElem, 0) :: (rest.zipIdx 1).map (indexed st.uniqIndex_) := by
      rw [WordSeq.placed, hw]
      rfl
    have hahead : ChainWalk.ahead WordElement.pos (seq.placed.map (indexed st.uniqIndex_))
        rootElem.pos < fuel := by
      refine Nat.lt_of_le_of_lt (ChainWalk.ahead_le _) ?_
      rwa [List.length_map, WordSeq.placed, List.length_zipIdx]
    have hwalks : walksFrom (seq.placed.map (indexed st.uniqIndex_)) fuel rootElem.pos =
        (ChainWalk.walks (fun w => w.1.pos) (fun w => w.1.stop) seq.placed fuel
          rootElem.pos).map (List.map (indexed st.uniqIndex_)) :=
      ChainWalk.walks_map (indexed st.uniqIndex_) (fun _ _ => rfl) (fun _ _ => rfl) _ _
    have hplaced : ChainWalk.ahead (fun w : WordElement × ℕ => w.1.pos) seq.placed
        rootElem.pos < fuel := lt_of_lt_of_le (ahead_placed_lt _) hfuel
    have hempty : ([] : List PredictionTree).length ≤ iConstLeavesWidthMax + 1 := Nat.zero_le _
    have hrun : setWordSeqAt _ fuel top rootElem.pos [] = _ :=
      setWordSeqAt_eq hforward hahead hempty
    rw [hwalks, List.map_map, ChainWalk.walks_fuel (placed_forward hrange) hplaced
      (ahead_placed_lt rootElem.pos), hw] at hrun
    show (match seq.placed.map (indexed st.uniqIndex_) with
      | [] => _
      | rootElem :: _ => _) = _
    rw [hcons] at hrun ⊢
    show (setWordSeqAt _ fuel top rootElem.pos []).map _ = _
    rw [hrun]
    rfl

include hrange in
/-- **`setWordSeq` always returns**, and accepts up to one reading more than the limit. -/
theorem setWordSeq_returns {fuel : ℕ} (hfuel : seq.words.length < fuel) (st : Statics) :
    ∃ st', setWordSeq fuel seq.words st.construct =
      some (decide (seq.readings.length ≤ iConstLeavesWidthMax + 1), st') := by
  have hcollected (l : List PredictionTree) :
      (collected [] l).1 = decide (l.length ≤ iConstLeavesWidthMax + 1) := by
    rw [collected, List.length_nil, Nat.zero_add]
  have h := setWordSeq_eq hrange hfuel st
  rw [hcollected, List.length_map] at h
  exact ⟨_, h⟩

/-- A word of a reading is one of the sequence. -/
theorem mem_placed_of_complete {p : ℤ} {chain : List (WordElement × ℕ)}
    (h : ChainWalk.Complete (fun w => w.1.pos) (fun w => w.1.stop) seq.placed p chain) :
    ∀ w ∈ chain, w ∈ seq.placed := by
  induction h with
  | done _ => simp
  | step he _ ih => exact List.forall_mem_cons.mpr ⟨he, ih⟩

include hrange in
/-- Every leaf of an accepted tree reads back its reading. -/
theorem reading_leafOf (st : Statics) {chain : List (WordElement × ℕ)}
    (h : chain ∈ seq.readings) :
    reading (indexWords seq.words [] st.construct).2.uniqueWords_
      (leafOf st.uniqIndex_ chain) = chain.map Prod.fst := by
  obtain ⟨_, _, hcomplete⟩ := (mem_readings hrange).mp h
  apply reading_extend
  intro w hw
  exact indexWords_get (k := 0) (show st.construct.uniqIndex_ = st.uniqIndex_ + (0 : ℕ) by
    simp [Statics.construct]) w (mem_placed_of_complete hcomplete w hw)

include hrange in
/-- **An accepted tree holds all readings.** -/
theorem leaves_of_accepted {fuel : ℕ} (hfuel : seq.words.length < fuel) {st st' : Statics}
    (h : setWordSeq fuel seq.words st.construct = some (true, st')) :
    seq.readings.length ≤ iConstLeavesWidthMax + 1 ∧
      st'.leaves_ = seq.readings.map (leafOf st.uniqIndex_) ∧
      st'.leaves_.map (reading st'.uniqueWords_) = seq.readings.map (List.map Prod.fst) := by
  rw [setWordSeq_eq hrange hfuel, Option.some.injEq, Prod.mk.injEq] at h
  obtain ⟨haccept, rfl⟩ := h
  have hle : seq.readings.length ≤ iConstLeavesWidthMax + 1 := by
    simpa [collected] using haccept
  have hleaves : (collected [] (seq.readings.map (leafOf st.uniqIndex_))).2 =
      seq.readings.map (leafOf st.uniqIndex_) := by
    rw [collected_of_le (by simpa using hle)]
    rfl
  refine ⟨hle, hleaves, ?_⟩
  show (collected [] (seq.readings.map (leafOf st.uniqIndex_))).2.map _ = _
  rw [hleaves, List.map_map]
  exact List.map_congr_left fun chain hchain => reading_leafOf hrange st hchain

end Runs

/-- **`setWordSeq` returns, and a tree it accepts has the maximal chains as its leaves**:
read through `getPredSeq` they are all of them, each once, in the order of a depth-first
walk (that of the places of their words, compared from the first word on). -/
theorem setWordSeq_enumerates (seq : WordSeq)
    (hrange : ∀ elem ∈ seq.words, 0 < elem.range) (st : Statics) :
    ∃ ok st',
      (∀ fuel, seq.words.length < fuel →
        setWordSeq fuel seq.words st.construct = some (ok, st')) ∧
      (ok = true → ∃ chains : List (List (WordElement × ℕ)),
        st'.leaves_.map (reading st'.uniqueWords_) = chains.map (List.map Prod.fst) ∧
        chains.Pairwise (List.Lex (fun a b => a.2 < b.2)) ∧
        ∀ chain, chain ∈ chains ↔ seq.MaximalChain chain) := by
  refine ⟨_, _, fun fuel hfuel => setWordSeq_eq hrange hfuel st, fun haccept => ?_⟩
  have hrun := setWordSeq_eq hrange (Nat.lt_succ_self seq.words.length) st
  rw [haccept] at hrun
  obtain ⟨-, -, hread⟩ := leaves_of_accepted hrange (Nat.lt_succ_self _) hrun
  exact ⟨seq.readings, hread, readings_lex, fun chain => mem_readings hrange⟩

/-- `ab` and its two letters. -/
def abSeq : WordSeq where
  words := [⟨[97], 0, 1, 1, 1, 0⟩, ⟨[97, 98], 0, 2, 1, 1, 0⟩, ⟨[98], 1, 1, 1, 1, 0⟩]
  sorted := by simp [Multimap.Sorted]

theorem setWordSeq_enumerates_ab : ∃ ok st',
    (∀ fuel, 3 < fuel →
      setWordSeq fuel abSeq.words (Statics.construct ⟨∅, 7, [], 0⟩) = some (ok, st')) ∧
    (ok = true → ∃ chains : List (List (WordElement × ℕ)),
      st'.leaves_.map (reading st'.uniqueWords_) = chains.map (List.map Prod.fst) ∧
      chains.Pairwise (List.Lex (fun a b => a.2 < b.2)) ∧
      ∀ chain, chain ∈ chains ↔ abSeq.MaximalChain chain) :=
  setWordSeq_enumerates abSeq (by decide) ⟨∅, 7, [], 0⟩

end PredictionTree

end WaiNative

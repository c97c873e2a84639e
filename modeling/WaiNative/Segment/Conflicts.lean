import WaiNative.Segment.Groups
import WaiNative.Segment.Qiangbao

/-!
# How the conflict groups split the words

`getNoConflictSeq` exists three times. `PhoenixWord` and `ZhiZiWord` have the same
text over the same elements; `QiangbaoWord` runs it over its own `wordSeq_`, whose
elements carry a range that need not be the size of the word.

Both copies look at the position and the range of an element only, so the second
one does what the first one does with any entries in their place
(`QiangbaoWord.getNoConflictSeq_map`). `getNoConflictSeq_splits` says for both that
the groups are the finest division of the words into parts that do not overlap.

As in `Groups`, positions and `maxPreCover` are natural numbers in place of `int`.
-/

namespace WaiNative

open Cxx

/-! ## The copy of `QiangbaoWord` -/

namespace QiangbaoWord

/-- The first position behind the word. -/
def WordElement.stop (e : WordElement) : ℕ := e.pos + e.range

/-- The variables of the loop. -/
structure Clear where
  maxPreCover : ℕ
  nocfWordSeq : List WordElement
  noConflictWordSeq_ : List (List WordElement)

/-- One iteration. `prevIt` is the word before, absent for the first one. -/
def clearStep (prevIt : Option WordElement) (it : WordElement) (st : Clear) : Clear :=
  match prevIt with
  | none => { st with nocfWordSeq := Multimap.insert WordElement.pos it st.nocfWordSeq }
  | some prevIt =>
      let preCover := prevIt.pos + prevIt.range
      let maxPreCover :=
        if st.maxPreCover < preCover then preCover else st.maxPreCover
      if maxPreCover ≤ it.pos then
        { maxPreCover := 0
          nocfWordSeq := Multimap.insert WordElement.pos it []
          noConflictWordSeq_ := st.noConflictWordSeq_ ++ [st.nocfWordSeq] }
      else
        { maxPreCover := maxPreCover
          nocfWordSeq := Multimap.insert WordElement.pos it st.nocfWordSeq
          noConflictWordSeq_ := st.noConflictWordSeq_ }

def clearFrom : Option WordElement → List WordElement → Clear → Clear
  | _, [], st => st
  | prevIt, it :: rest, st => clearFrom (some it) rest (clearStep prevIt it st)

def getNoConflictSeq (wordSeq_ : List WordElement) : List (List WordElement) :=
  let st := clearFrom none wordSeq_ ⟨0, [], []⟩
  if st.nocfWordSeq.isEmpty = false then st.noConflictWordSeq_ ++ [st.nocfWordSeq]
  else st.noConflictWordSeq_

/-! ### The two copies agree -/

section Agreement

variable {f : WordElement → WaiNative.WordElement}

/-- The loop's variables with other entries in them. -/
def Clear.map (f : WordElement → WaiNative.WordElement) (st : Clear) : WaiNative.Clear where
  maxPreCover := st.maxPreCover
  nocfWordSeq := st.nocfWordSeq.map f
  noConflictWordSeq_ := st.noConflictWordSeq_.map (List.map f)

theorem insert_map (hpos : ∀ e, (f e).position = e.pos) (it : WordElement)
    (m : List WordElement) :
    Multimap.insert WaiNative.WordElement.position (f it) (m.map f) =
      (Multimap.insert WordElement.pos it m).map f := by
  refine (List.map_orderedInsert _ _ f m it ?_ ?_).symm
  · intro e _
    rw [hpos, hpos]
  · intro e _
    rw [hpos, hpos]

variable (hpos : ∀ e, (f e).position = e.pos) (hrange : ∀ e, (f e).range = e.range)

include hpos hrange

theorem clearStep_map (prevIt : Option WordElement) (it : WordElement) (st : Clear) :
    WaiNative.clearStep (prevIt.map f) (f it) (st.map f) = (clearStep prevIt it st).map f := by
  cases prevIt with
  | none =>
      simp only [Option.map_none, WaiNative.clearStep, clearStep, Clear.map]
      rw [insert_map hpos]
  | some prevIt =>
      have hnew : Multimap.insert WaiNative.WordElement.position (f it) [] =
          (Multimap.insert WordElement.pos it []).map f := insert_map hpos it []
      have hjoin := insert_map hpos it st.nocfWordSeq
      have hmax : (st.map f).maxPreCover = st.maxPreCover := rfl
      simp only [Option.map_some, WaiNative.clearStep, clearStep, hpos, hrange, hmax]
      by_cases hcut : (if st.maxPreCover < prevIt.pos + prevIt.range
          then prevIt.pos + prevIt.range else st.maxPreCover) ≤ it.pos
      · simp only [if_pos hcut, Clear.map, hnew, List.map_append, List.map_cons,
          List.map_nil]
      · simp only [if_neg hcut, Clear.map, hjoin]

theorem clearFrom_map : ∀ (rest : List WordElement) (prevIt : Option WordElement)
    (st : Clear), WaiNative.clearFrom (prevIt.map f) (rest.map f) (st.map f) =
      (clearFrom prevIt rest st).map f
  | [], _, _ => rfl
  | it :: rest, prevIt, st => by
      rw [List.map_cons, WaiNative.clearFrom, clearStep_map hpos hrange, clearFrom]
      exact clearFrom_map rest (some it) (clearStep prevIt it st)

/-- **The copies do the same** with entries of equal positions and ranges. -/
theorem getNoConflictSeq_map (wordSeq_ : List WordElement) :
    WaiNative.getNoConflictSeq (wordSeq_.map f) =
      (getNoConflictSeq wordSeq_).map (List.map f) := by
  have hloop := clearFrom_map hpos hrange wordSeq_ none ⟨0, [], []⟩
  have hstart : (⟨0, [], []⟩ : WaiNative.Clear) = Clear.map f ⟨0, [], []⟩ := rfl
  simp only [WaiNative.getNoConflictSeq, getNoConflictSeq]
  rw [hstart, show (none : Option WaiNative.WordElement) = Option.map f none from rfl, hloop]
  simp only [Clear.map, List.isEmpty_map]
  split
  · rw [List.map_append]
    rfl
  · rfl

end Agreement

/-- A hint of the same position and range. -/
def asHint (e : WordElement) : WaiNative.WordElement :=
  WordElement.make (List.replicate e.range 0) e.pos e.rankRepeat e.rankorig

@[simp] theorem asHint_position (e : WordElement) : (asHint e).position = e.pos := rfl

@[simp] theorem asHint_range (e : WordElement) : (asHint e).range = e.range :=
  List.length_replicate

@[simp] theorem asHint_stop (e : WordElement) : (asHint e).stop = e.stop := by
  rw [WaiNative.WordElement.stop, asHint_position, asHint_range]
  rfl

end QiangbaoWord

/-! ## The finest division -/

section Division

variable {α : Type*}

/-- How far some words reach. -/
def furthest (stop : α → ℕ) (l : List α) : ℕ := (l.map stop).foldr max 0

theorem lt_furthest {stop : α → ℕ} {l : List α} {n : ℕ} :
    n < furthest stop l ↔ ∃ e ∈ l, n < stop e := by
  induction l with
  | nil => simp [furthest]
  | cons e l ih =>
      have hcons : furthest stop (e :: l) = max (stop e) (furthest stop l) := rfl
      rw [hcons, lt_max_iff, ih, List.exists_mem_cons_iff]

/-- The groups `gs` divide the words `m` in order, no word of one reaches into a
later one, and none of them could be divided further. -/
structure Splits (position stop : α → ℕ) (m : List α) (gs : List (List α)) : Prop where
  concatenated : gs.flatten = m
  nonempty : ∀ c ∈ gs, c ≠ []
  apart : gs.Pairwise (fun c c' => ∀ e ∈ c, ∀ e' ∈ c', stop e ≤ position e')
  joint : ∀ c ∈ gs, ∀ l e r, c = l ++ e :: r → l ≠ [] → position e < furthest stop l

theorem splits_groups {m : List WordElement} (h : Multimap.Sorted WordElement.position m) :
    Splits WordElement.position WordElement.stop m (getNoConflictSeq m) := by
  obtain ⟨hflatten, hgood⟩ := getNoConflictSeq_good h
  refine ⟨hflatten, hgood.nonempty, hgood.apart, ?_⟩
  intro c hc l e r hsplit hl
  exact lt_furthest.mpr (hgood.joint c hc l e r hsplit hl)

/-- A division of other entries of the same positions and ends. -/
theorem Splits.of_map {β : Type*} {f : α → β} {position stop : α → ℕ}
    {position' stop' : β → ℕ} (hpos : ∀ e, position' (f e) = position e)
    (hstop : ∀ e, stop' (f e) = stop e) {m : List α} {gs : List (List α)}
    (hflatten : gs.flatten = m)
    (h : Splits position' stop' (m.map f) (gs.map (List.map f))) :
    Splits position stop m gs := by
  refine ⟨hflatten, ?_, ?_, ?_⟩
  · intro c hc hnil
    apply h.nonempty (c.map f) (List.mem_map_of_mem hc)
    rw [hnil, List.map_nil]
  · apply (List.pairwise_map.mp h.apart).imp
    intro c c' happart e he e' he'
    have hle := happart (f e) (List.mem_map_of_mem he) (f e') (List.mem_map_of_mem he')
    rwa [hpos, hstop] at hle
  · intro c hc l e r hsplit hl
    have hlt := h.joint (c.map f) (List.mem_map_of_mem hc) (l.map f) (f e) (r.map f)
      (by rw [hsplit, List.map_append, List.map_cons]) (by simpa using hl)
    obtain ⟨y, hy, hey⟩ := lt_furthest.mp hlt
    obtain ⟨x, hx, rfl⟩ := List.mem_map.mp hy
    rw [hpos, hstop] at hey
    exact lt_furthest.mpr ⟨x, hx, hey⟩

end Division

namespace QiangbaoWord

/-- What the open group and the groups before it hold has been read. -/
theorem clearFrom_flatten : ∀ {rest done : List WordElement} {prevIt : Option WordElement}
    {st : Clear}, st.noConflictWordSeq_.flatten ++ st.nocfWordSeq = done →
    Multimap.Sorted WordElement.pos (done ++ rest) →
    (clearFrom prevIt rest st).noConflictWordSeq_.flatten ++
      (clearFrom prevIt rest st).nocfWordSeq = done ++ rest
  | [], done, _, st, h, _ => by simpa [clearFrom] using h
  | it :: rest, done, prevIt, st, h, hsorted => by
      have hbehind : ∀ e ∈ st.nocfWordSeq, e.pos ≤ it.pos := by
        intro e he
        apply (List.pairwise_append.mp hsorted).2.2 e _ it List.mem_cons_self
        rw [← h]
        exact List.mem_append_right _ he
      have hlast := Multimap.insert_last hbehind
      have hstep : (clearStep prevIt it st).noConflictWordSeq_.flatten ++
          (clearStep prevIt it st).nocfWordSeq = done ++ [it] := by
        cases prevIt with
        | none => simp [clearStep, hlast, ← h]
        | some prevIt =>
            simp only [clearStep]
            generalize (if st.maxPreCover < prevIt.pos + prevIt.range
              then prevIt.pos + prevIt.range else st.maxPreCover) = reach
            split
            · simp [Multimap.insert, ← h]
            · simp [hlast, ← h]
      have hassoc : done ++ it :: rest = done ++ [it] ++ rest := by simp
      rw [hassoc] at hsorted ⊢
      exact clearFrom_flatten hstep hsorted

theorem getNoConflictSeq_flatten {m : List WordElement}
    (h : Multimap.Sorted WordElement.pos m) : (getNoConflictSeq m).flatten = m := by
  have hloop : (clearFrom none m ⟨0, [], []⟩).noConflictWordSeq_.flatten ++
      (clearFrom none m ⟨0, [], []⟩).nocfWordSeq = [] ++ m := clearFrom_flatten rfl h
  rw [List.nil_append] at hloop
  unfold getNoConflictSeq
  dsimp only
  split
  · rw [List.flatten_append, List.flatten_singleton]
    exact hloop
  · rename_i hempty
    rw [Bool.not_eq_false, List.isEmpty_iff] at hempty
    rwa [hempty, List.append_nil] at hloop

end QiangbaoWord

/-- **The groups are the finest division of the words**, in each of the copies. -/
theorem getNoConflictSeq_splits :
    (∀ m, Multimap.Sorted WordElement.position m →
      Splits WordElement.position WordElement.stop m (getNoConflictSeq m)) ∧
    (∀ m, Multimap.Sorted QiangbaoWord.WordElement.pos m →
      Splits QiangbaoWord.WordElement.pos QiangbaoWord.WordElement.stop m
        (QiangbaoWord.getNoConflictSeq m)) := by
  refine ⟨fun m h => splits_groups h, ?_⟩
  intro m h
  apply Splits.of_map QiangbaoWord.asHint_position QiangbaoWord.asHint_stop
    (QiangbaoWord.getNoConflictSeq_flatten h)
  rw [← QiangbaoWord.getNoConflictSeq_map QiangbaoWord.asHint_position
    QiangbaoWord.asHint_range]
  apply splits_groups
  exact List.pairwise_map.mpr h

/-! ### A word inside another one -/

/-- Words of six, three and three bytes; the second lies inside the first. -/
def nestedPlaces : List (ℕ × ℕ) := [(0, 6), (3, 3), (6, 3)]

theorem getNoConflictSeq_splits_nested :
    Splits WordElement.position WordElement.stop
      (nestedPlaces.map (fun x => WordElement.make (List.replicate x.2 0) x.1 1 1))
      (getNoConflictSeq
        (nestedPlaces.map (fun x => WordElement.make (List.replicate x.2 0) x.1 1 1))) ∧
    Splits QiangbaoWord.WordElement.pos QiangbaoWord.WordElement.stop
      (nestedPlaces.map (fun x => ⟨List.replicate x.2 0, x.1, x.2, 1, 1, 0⟩))
      (QiangbaoWord.getNoConflictSeq
        (nestedPlaces.map (fun x => ⟨List.replicate x.2 0, x.1, x.2, 1, 1, 0⟩))) := by
  have hsorted : nestedPlaces.Pairwise (fun x y => x.1 ≤ y.1) := by decide
  exact ⟨getNoConflictSeq_splits.1 _ (List.pairwise_map.mpr hsorted),
    getNoConflictSeq_splits.2 _ (List.pairwise_map.mpr hsorted)⟩

end WaiNative

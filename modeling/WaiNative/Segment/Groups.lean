import WaiNative.Segment.Hints
import WaiNative.Theory.Tiling

/-!
# Conflict groups

`getNoConflictSeq` walks over the adjusted hints and starts a new group at each
hint that no earlier one of the current group reaches over. `GoodGroups` says
what comes out: the groups are non-empty and apart, and inside a group every
hint but the first is reached over by one before it.

When the hints are linked, the groups touch: each starts where the last hint of
the one before it ends, so they tile the stretch from the first hint to the end
of the last one (`groups_tile`).

Positions, ranges and `maxPreCover` are natural numbers in place of `int` (runs shorter
than 2^31 bytes).
-/

namespace WaiNative

open Cxx

/-- The variables of the loop of `getNoConflictSeq`. -/
structure Clear where
  maxPreCover : ℕ
  nocfWordSeq : List WordElement
  noConflictWordSeq_ : List (List WordElement)

/-- One iteration. `prevIt` is the hint before, absent for the first one. -/
def clearStep (prevIt : Option WordElement) (it : WordElement) (st : Clear) :
    Clear :=
  match prevIt with
  | none =>
      { st with
        nocfWordSeq := Multimap.insert WordElement.position it st.nocfWordSeq }
  | some prevIt =>
      let preCover := prevIt.position + prevIt.range
      let maxPreCover :=
        if st.maxPreCover < preCover then preCover else st.maxPreCover
      if maxPreCover ≤ it.position then
        { maxPreCover := 0
          nocfWordSeq := Multimap.insert WordElement.position it []
          noConflictWordSeq_ := st.noConflictWordSeq_ ++ [st.nocfWordSeq] }
      else
        { maxPreCover := maxPreCover
          nocfWordSeq := Multimap.insert WordElement.position it st.nocfWordSeq
          noConflictWordSeq_ := st.noConflictWordSeq_ }

def clearFrom : Option WordElement → List WordElement → Clear → Clear
  | _, [], st => st
  | prevIt, it :: rest, st => clearFrom (some it) rest (clearStep prevIt it st)

def getNoConflictSeq (wordAdjustedSeq_ : List WordElement) :
    List (List WordElement) :=
  let st := clearFrom none wordAdjustedSeq_ ⟨0, [], []⟩
  if st.nocfWordSeq.isEmpty = false then st.noConflictWordSeq_ ++ [st.nocfWordSeq]
  else st.noConflictWordSeq_

/-! ## What a grouping is -/

/-- How far the hints reach. -/
def cover : List WordElement → ℕ
  | [] => 0
  | e :: l => max e.stop (cover l)

theorem cover_append_singleton (l : List WordElement) (e : WordElement) :
    cover (l ++ [e]) = max (cover l) e.stop := by
  induction l with
  | nil => simp [cover]
  | cons x l ih => simp [cover, ih, max_assoc]

theorem cover_le {l : List WordElement} {n : ℕ} :
    cover l ≤ n ↔ ∀ e ∈ l, e.stop ≤ n := by
  induction l with
  | nil => simp [cover]
  | cons e l ih => simp [cover, ih]

theorem lt_cover {l : List WordElement} {n : ℕ} :
    n < cover l ↔ ∃ e ∈ l, n < e.stop := by
  rw [← not_le, cover_le]
  push Not
  rfl

/-- The groups are non-empty and apart, and each holds together. -/
structure GoodGroups (gs : List (List WordElement)) : Prop where
  nonempty : ∀ c ∈ gs, c ≠ []
  apart : gs.Pairwise (fun c c' => ∀ e ∈ c, ∀ e' ∈ c', e.stop ≤ e'.position)
  joint : ∀ c ∈ gs, ∀ l e r, c = l ++ e :: r → l ≠ [] →
    ∃ x ∈ l, e.position < x.stop

theorem GoodGroups.tail {c : List WordElement} {gs : List (List WordElement)}
    (h : GoodGroups (c :: gs)) : GoodGroups gs where
  nonempty := fun d hd => h.nonempty d (List.mem_cons_of_mem _ hd)
  apart := h.apart.tail
  joint := fun d hd => h.joint d (List.mem_cons_of_mem _ hd)

/-- Between two iterations: what is done is in the groups and in the open one,
which ends with the previous hint and reaches as far as `maxPreCover`, that hint
not counted. -/
structure ClearInv (done : List WordElement) (prevIt : WordElement) (st : Clear) :
    Prop where
  spelled : st.noConflictWordSeq_.flatten ++ st.nocfWordSeq = done
  last : ∃ l, st.nocfWordSeq = l ++ [prevIt] ∧ st.maxPreCover = cover l
  good : GoodGroups (st.noConflictWordSeq_ ++ [st.nocfWordSeq])

section Groups

variable {Bytes : List Str}

/-- A hint that nothing of the open group reaches over starts a new one. -/
theorem GoodGroups.push {gs : List (List WordElement)} {c : List WordElement}
    {it : WordElement} (h : GoodGroups (gs ++ [c]))
    (hsorted : ∀ e ∈ c, e.position ≤ it.position) (hcover : cover c ≤ it.position) :
    GoodGroups (gs ++ [c] ++ [[it]]) where
  nonempty := by
    intro d hd
    rcases List.mem_append.mp hd with hd | hd
    · exact h.nonempty d hd
    · rw [List.mem_singleton.mp hd]
      exact List.cons_ne_nil _ _
  apart := by
    refine List.pairwise_append.mpr ⟨h.apart, List.pairwise_singleton _ _, ?_⟩
    intro d hd d' hd' e he e' he'
    rw [List.mem_singleton.mp hd', List.mem_singleton] at he'
    subst he'
    rcases List.mem_append.mp hd with hd | hd
    · -- an older group ends before the open one starts
      obtain ⟨x, hx⟩ := List.exists_mem_of_ne_nil c (h.nonempty c (by simp))
      have hle := (List.pairwise_append.mp h.apart).2.2 d hd c (by simp) e he x hx
      exact hle.trans (hsorted x hx)
    · rw [List.mem_singleton.mp hd] at he
      exact cover_le.mp hcover e he
  joint := by
    intro d hd l e r hsplit hl
    rcases List.mem_append.mp hd with hd | hd
    · exact h.joint d hd l e r hsplit hl
    · rw [List.mem_singleton.mp hd] at hsplit
      cases l with
      | nil => exact absurd rfl hl
      | cons x l =>
          have hlen := congrArg List.length hsplit
          simp at hlen

/-- A hint that the open group reaches over joins it. -/
theorem GoodGroups.grow {gs : List (List WordElement)} {c : List WordElement}
    {it : WordElement} (h : GoodGroups (gs ++ [c]))
    (hsorted : ∀ e ∈ c, e.position ≤ it.position) (hcover : it.position < cover c) :
    GoodGroups (gs ++ [c ++ [it]]) where
  nonempty := by
    intro d hd
    rcases List.mem_append.mp hd with hd | hd
    · exact h.nonempty d (List.mem_append_left _ hd)
    · rw [List.mem_singleton.mp hd]
      simp
  apart := by
    obtain ⟨hgs, -, hcross⟩ := List.pairwise_append.mp h.apart
    refine List.pairwise_append.mpr ⟨hgs, List.pairwise_singleton _ _, ?_⟩
    intro d hd d' hd' e he e' he'
    rw [List.mem_singleton.mp hd', List.mem_append] at he'
    rcases he' with he' | he'
    · exact hcross d hd c (by simp) e he e' he'
    · obtain ⟨x, hx⟩ := List.exists_mem_of_ne_nil c (h.nonempty c (by simp))
      have hle := hcross d hd c (by simp) e he x hx
      rw [List.mem_singleton.mp he']
      exact hle.trans (hsorted x hx)
  joint := by
    intro d hd l e r hsplit hl
    rcases List.mem_append.mp hd with hd | hd
    · exact h.joint d (List.mem_append_left _ hd) l e r hsplit hl
    · rw [List.mem_singleton.mp hd] at hsplit
      rcases List.append_eq_append_iff.mp hsplit with ⟨u, rfl, hu⟩ | ⟨u, hu, hr⟩
      · -- the split lies at the newcomer
        cases u with
        | nil =>
            obtain ⟨rfl, -⟩ := List.cons.inj hu
            rw [List.append_nil]
            exact lt_cover.mp hcover
        | cons y u => simp at hu
      · cases u with
        | nil =>
            rw [List.append_nil] at hu
            obtain ⟨rfl, -⟩ := List.cons.inj hr
            subst hu
            exact lt_cover.mp hcover
        | cons y u =>
            obtain ⟨rfl, -⟩ := List.cons.inj hr
            exact h.joint c (by simp) l e u hu hl

theorem clearStep_inv {done : List WordElement} {prevIt it : WordElement}
    {st : Clear} (h : ClearInv done prevIt st)
    (hsorted : ∀ e ∈ done, e.position ≤ it.position) :
    ClearInv (done ++ [it]) it (clearStep (some prevIt) it st) := by
  obtain ⟨l, hl, hmax⟩ := h.last
  have hopen : ∀ e ∈ st.nocfWordSeq, e.position ≤ it.position := by
    intro e he
    apply hsorted
    rw [← h.spelled]
    exact List.mem_append_right _ he
  have hcover : (if st.maxPreCover < prevIt.position + prevIt.range
      then prevIt.position + prevIt.range else st.maxPreCover) =
        cover st.nocfWordSeq := by
    rw [hl, cover_append_singleton, ← hmax, WordElement.stop]
    split <;> omega
  simp only [clearStep, hcover]
  split
  · rename_i hle
    exact ⟨by simp [← h.spelled, Multimap.insert], ⟨[], rfl, rfl⟩,
      h.good.push hopen hle⟩
  · rename_i hlt
    rw [Multimap.insert_last hopen]
    refine ⟨by simp [← h.spelled], ⟨st.nocfWordSeq, rfl, rfl⟩, ?_⟩
    exact h.good.grow hopen (not_le.mp hlt)

theorem clearFrom_inv : ∀ {rest done : List WordElement} {prevIt : WordElement}
    {st : Clear}, ClearInv done prevIt st →
    Multimap.Sorted WordElement.position (done ++ rest) →
    ∃ last, ClearInv (done ++ rest) last (clearFrom (some prevIt) rest st)
  | [], done, prevIt, st, h, _ => ⟨prevIt, by simpa [clearFrom] using h⟩
  | it :: rest, done, prevIt, st, h, hsorted => by
      have hstep : ClearInv (done ++ [it]) it (clearStep (some prevIt) it st) :=
        clearStep_inv h (fun e he =>
          (List.pairwise_append.mp hsorted).2.2 e he it List.mem_cons_self)
      have hassoc : done ++ it :: rest = done ++ [it] ++ rest := by simp
      rw [hassoc] at hsorted ⊢
      exact clearFrom_inv hstep hsorted

/-- **The groups hold all hints, in order.** -/
theorem getNoConflictSeq_good {m : List WordElement}
    (h : Multimap.Sorted WordElement.position m) :
    (getNoConflictSeq m).flatten = m ∧ GoodGroups (getNoConflictSeq m) := by
  cases m with
  | nil => exact ⟨rfl, ⟨by simp [getNoConflictSeq, clearFrom],
      by simp [getNoConflictSeq, clearFrom], by simp [getNoConflictSeq, clearFrom]⟩⟩
  | cons e rest =>
      have hstart : ClearInv [e] e (clearStep none e ⟨0, [], []⟩) := by
        refine ⟨rfl, ⟨[], rfl, rfl⟩, by simp [clearStep, Multimap.insert],
          List.pairwise_singleton _ _, ?_⟩
        intro c hc l x r hsplit hl
        rw [List.mem_singleton.mp hc] at hsplit
        cases l with
        | nil => exact absurd rfl hl
        | cons y l =>
            have hlen := congrArg List.length hsplit
            simp [clearStep, Multimap.insert] at hlen
      obtain ⟨last, hinv⟩ := clearFrom_inv hstart h
      have hopen : (clearFrom (some e) rest
          (clearStep none e ⟨0, [], []⟩)).nocfWordSeq.isEmpty = false := by
        obtain ⟨l, hl, -⟩ := hinv.last
        simp [hl]
      have heq : getNoConflictSeq (e :: rest) =
          (clearFrom (some e) rest (clearStep none e ⟨0, [], []⟩)).noConflictWordSeq_
            ++ [(clearFrom (some e) rest
              (clearStep none e ⟨0, [], []⟩)).nocfWordSeq] :=
        if_pos hopen
      rw [heq]
      exact ⟨by simpa using hinv.spelled, hinv.good⟩

/-! ## Groups of linked hints tile -/

/-- `confuse.begin()->first`. -/
def startPos : List WordElement → ℕ
  | [] => 0
  | e :: _ => e.position

/-- `posLast` behind the loop over the group: the end of its last element. -/
def posLast (confuse : List WordElement) : ℕ :=
  confuse.foldl (fun _ elem => elem.position + elem.word.length) 0

@[simp] theorem posLast_append_singleton (l : List WordElement) (e : WordElement) :
    posLast (l ++ [e]) = e.stop := by
  rw [posLast, List.foldl_append, WordElement.stop_eq]
  rfl

theorem posLast_append {l l' : List WordElement} (h : l' ≠ []) :
    posLast (l ++ l') = posLast l' := by
  obtain ⟨l', e, rfl⟩ := (List.eq_nil_or_concat' l').resolve_left h
  rw [← List.append_assoc, posLast_append_singleton, posLast_append_singleton]

theorem startPos_append {l l' : List WordElement} (h : l ≠ []) :
    startPos (l ++ l') = startPos l := by
  cases l with
  | nil => exact absurd rfl h
  | cons e l => rfl

theorem HintSeq.sublist {l m : List WordElement} (h : HintSeq Bytes m)
    (hl : l.Sublist m) : HintSeq Bytes l where
  ordered := h.ordered.sublist hl
  start := fun x hx => h.start x (hl.subset hx)
  stop := fun x hx => h.stop x (hl.subset hx)
  range_pos := fun x hx => h.range_pos x (hl.subset hx)
  word_eq := fun x hx => h.word_eq x (hl.subset hx)

/-- The first hint starts first. -/
theorem HintSeq.startPos_le {m : List WordElement} (h : HintSeq Bytes m)
    {e : WordElement} (he : e ∈ m) : startPos m ≤ e.position := by
  cases m with
  | nil => exact absurd he List.not_mem_nil
  | cons x m =>
      rcases List.mem_cons.mp he with rfl | he
      · exact le_rfl
      · exact h.head_le e he

/-- The last hint starts last, so every hint starts before its end. -/
theorem HintSeq.lt_posLast {m : List WordElement} (h : HintSeq Bytes m)
    {e : WordElement} (he : e ∈ m) : e.position < posLast m := by
  obtain ⟨l, x, rfl⟩ := (List.eq_nil_or_concat' m).resolve_left
    (List.ne_nil_of_mem he)
  have hpos := h.range_pos x (by simp)
  rw [posLast_append_singleton, WordElement.stop]
  rcases List.mem_append.mp he with he | he
  · have hle := ((List.pairwise_append.mp h.ordered).2.2 e he x (by simp)).le
    omega
  · rw [List.mem_singleton.mp he]
    omega

theorem HintSeq.startPos_lt_posLast {m : List WordElement} (h : HintSeq Bytes m)
    (hne : m ≠ []) : startPos m < posLast m := by
  obtain ⟨x, hx⟩ := List.exists_mem_of_ne_nil m hne
  exact (h.startPos_le hx).trans_lt (h.lt_posLast hx)

/-- **The groups of linked hints touch.** -/
theorem groups_tile : ∀ {gs : List (List WordElement)}, GoodGroups gs → gs ≠ [] →
    Linked gs.flatten →
    Tiling.Tiles startPos posLast (startPos gs.flatten) (posLast gs.flatten) gs
  | [], _, hne, _ => absurd rfl hne
  | [c], _, _, _ => by
      rw [List.flatten_singleton]
      exact Tiling.tiles_singleton c
  | c :: c' :: gs, hgood, _, hlinked => by
      have hc : c ≠ [] := hgood.nonempty c List.mem_cons_self
      have hc' : c' ≠ [] := hgood.nonempty c' (by simp)
      have hflat : (c' :: gs).flatten ≠ [] := by simp [hc']
      rw [List.flatten_cons] at hlinked ⊢
      obtain ⟨-, hlinked', hjoin⟩ := List.isChain_append.mp hlinked
      have ih := groups_tile hgood.tail (List.cons_ne_nil _ _) hlinked'
      -- the last hint of `c` ends where the first of `c'` starts
      have htouch : posLast c = startPos (c' :: gs).flatten := by
        obtain ⟨l, x, rfl⟩ := (List.eq_nil_or_concat' c).resolve_left hc
        obtain ⟨y, l', rfl⟩ := List.exists_cons_of_ne_nil hc'
        rw [posLast_append_singleton]
        apply le_antisymm
        · exact (List.pairwise_cons.mp hgood.apart).1 _ List.mem_cons_self x (by simp)
            y (by simp)
        · exact hjoin x (by simp) y (by simp)
      rw [startPos_append hc, posLast_append hflat]
      rw [← htouch] at ih
      exact Tiling.Tiles.cons rfl ih

end Groups

end WaiNative

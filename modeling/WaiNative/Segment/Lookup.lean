import WaiNative.Segment.Selection
import Mathlib.Algebra.Order.BigOperators.Group.List

/-!
# Looking a path up by word alone

`PhoenixWord::calcPrediction` and `ZhiZiWord::calcPrediction` draw the same
graph and walk the same path, but the latter looks each vertex up by its word
alone, and so finds the first entry of the group with that word
(`found_byWord`).

The two insert the same entries exactly when no word on the path occurs in the
group at an earlier position (`zhizi_same_iff`): a word that is moved is moved
to the front, so the positions of the inserted entries add up to less.
-/

namespace WaiNative

open Cxx ShortestPath ChainGraph Tiling

section Lookup

variable {Bytes : List Str} {hints confuse : List WordElement}

/-- `x` is the first of the entries `P` with the word of `e`. -/
structure FirstOf (P : WordElement → Prop) (e x : WordElement) : Prop where
  mem : P x
  word : x.word = e.word
  first : ∀ y, P y → y.word = e.word → x.position ≤ y.position

theorem find_byWord (h : HintSeq Bytes confuse) {e : WordElement} (he : e ∈ confuse) :
    ∃ x, confuse.find? (byWord (labelOf e)) = some x ∧ FirstOf (· ∈ confuse) e x := by
  cases hfind : confuse.find? (byWord (labelOf e)) with
  | none =>
      have hnone := List.find?_eq_none.mp hfind e he
      simp [byWord, labelOf] at hnone
  | some x =>
      refine ⟨x, rfl, List.mem_of_find?_eq_some hfind, ?_, ?_⟩
      · have hword := List.find?_some hfind
        simp only [byWord, labelOf] at hword
        exact of_decide_eq_true hword
      · -- what stands before `x` has other words
        intro y hy hword
        obtain ⟨-, l, r, rfl, hbefore⟩ := List.find?_eq_some_iff_append.mp hfind
        rcases List.mem_append.mp hy with hy | hy
        · have hnot := hbefore y hy
          simp [byWord, labelOf, hword] at hnot
        · have hle := h.ordered.sorted
          have hr := (List.pairwise_append.mp hle).2.1
          rcases List.mem_cons.mp hy with rfl | hy
          · exact le_rfl
          · exact (List.pairwise_cons.mp hr).1 y hy

/-- By word alone, each word of a chain is found where it occurs first. -/
theorem found_byWord (h : HintSeq Bytes confuse) {sel : List WordElement}
    (hsel : ∀ e ∈ sel, e ∈ confuse) :
    List.Forall₂ (FirstOf (· ∈ confuse)) sel (found byWord confuse sel) := by
  induction sel with
  | nil => exact List.Forall₂.nil
  | cons e sel ih =>
      obtain ⟨x, hx, hfirst⟩ := find_byWord h (hsel e List.mem_cons_self)
      have ih' := ih (fun y hy => hsel y (List.mem_cons_of_mem _ hy))
      simp only [found] at ih' ⊢
      rw [List.filterMap_cons, hx]
      exact List.Forall₂.cons hfirst ih'

/-- There is only one first entry with a word. -/
theorem firstOf_unique (h : HintSeq Bytes confuse) :
    Relator.RightUnique (FirstOf (· ∈ confuse)) := by
  intro e x y hx hy
  have hpos : x.position = y.position :=
    le_antisymm (hx.first y hy.mem hy.word) (hy.first x hx.mem hx.word)
  exact h.unique hx.mem hy.mem hpos (hx.word.trans hy.word.symm)

/-- Lists of numbers with equal sums, one below the other, are equal. -/
theorem forall₂_eq_of_sum {β : Type*} {f : β → ℕ} : ∀ {l m : List β},
    List.Forall₂ (fun a b => f b ≤ f a) l m → (l.map f).sum ≤ (m.map f).sum →
    List.Forall₂ (fun a b => f b = f a) l m
  | [], _, .nil, _ => .nil
  | a :: l, b :: m, .cons hab hrest, hsum => by
      have hle : (m.map f).sum ≤ (l.map f).sum := by
        clear hsum
        induction hrest with
        | nil => exact le_rfl
        | cons h _ ih =>
            rw [List.map_cons, List.map_cons, List.sum_cons, List.sum_cons]
            exact Nat.add_le_add h ih
      rw [List.map_cons, List.map_cons, List.sum_cons, List.sum_cons] at hsum
      exact .cons (by omega) (forall₂_eq_of_sum hrest (by omega))

/-- The words of a chain occur nowhere earlier in the group. -/
def NoEarlier (confuse sel : List WordElement) : Prop :=
  ∀ e ∈ sel, ∀ y ∈ confuse, y.word = e.word → e.position ≤ y.position

/-- Words that are found where they stand occur nowhere earlier. -/
theorem noEarlier_of_found (h : HintSeq Bytes confuse) {sel : List WordElement}
    (hsel : ∀ e ∈ sel, e ∈ confuse)
    (hsame : List.Forall₂ (fun e x : WordElement => x.position = e.position) sel
      (found byWord confuse sel)) : NoEarlier confuse sel := by
  have hboth : List.Forall₂ (fun e x => FirstOf (· ∈ confuse) e x ∧ x.position = e.position)
      sel (found byWord confuse sel) :=
    List.Forall₂.mp (fun _ _ hx hpos => ⟨hx, hpos⟩) (found_byWord h hsel) hsame
  intro e he y hy hword
  obtain ⟨x, -, hx, hpos⟩ := exists_of_mem_left hboth he
  rw [← hpos]
  exact hx.first y hy hword

/-- A chain whose words are looked up makes one that reaches as far only if no word is
moved: moved words would lower the sum of the moments. -/
theorem noEarlier_of_tiles (h : HintSeq Bytes confuse) {sel : List WordElement}
    (hsel : ∀ e ∈ sel, e ∈ confuse) {b t t' : ℕ}
    (htiles : Tiles WordElement.position WordElement.stop b t sel)
    (hmoved : Tiles WordElement.position WordElement.stop b t'
      (Multimap.insertAll WordElement.position (found byWord confuse sel) []))
    (hreach : t ≤ t') : NoEarlier confuse sel := by
  have hfound := found_byWord h hsel
  have hperm : (Multimap.insertAll WordElement.position (found byWord confuse sel) []).Perm
      ([] ++ found byWord confuse sel) := Multimap.insertAll_perm _ _
  have hmem : ∀ x ∈ found byWord confuse sel, x ∈ confuse := by
    intro x hx
    obtain ⟨e, he, hfirst⟩ := exists_of_mem_right hfound hx
    exact hfirst.mem
  have hsum := htiles.sum_moments (h.positive hsel)
  have hsum' := hmoved.sum_moments
    (h.positive (fun x hx => hmem x (by simpa using hperm.subset hx)))
  rw [(hperm.map _).sum_eq, List.nil_append] at hsum'
  have hmoment : ∀ e : WordElement, moment WordElement.position WordElement.stop e =
      e.range * (2 * e.position + e.range) := by
    intro e
    rw [moment, WordElement.stop, Nat.add_sub_cancel_left]
    ring
  have hrange : ∀ e x : WordElement, FirstOf (· ∈ confuse) e x → x.range = e.range := by
    intro e x hx
    rw [x.range_eq, e.range_eq, hx.word]
  have hle : List.Forall₂ (fun e x : WordElement =>
      moment WordElement.position WordElement.stop x ≤
        moment WordElement.position WordElement.stop e) sel (found byWord confuse sel) := by
    apply forall₂_imp_of_mem hfound
    intro e he x hx
    rw [hmoment, hmoment, hrange e x hx]
    have hpos := hx.first e (hsel e he) rfl
    exact Nat.mul_le_mul_left _ (by omega)
  have hsquare := Nat.mul_le_mul hreach hreach
  have hsame := forall₂_eq_of_sum hle (by omega)
  have hboth : List.Forall₂ (fun e x => FirstOf (· ∈ confuse) e x ∧
      moment WordElement.position WordElement.stop x =
        moment WordElement.position WordElement.stop e) sel (found byWord confuse sel) :=
    List.Forall₂.mp (fun _ _ hx heq => ⟨hx, heq⟩) hfound hsame
  apply noEarlier_of_found h hsel
  apply forall₂_imp_of_mem hboth
  rintro e he x ⟨hx, heq⟩
  rw [hmoment, hmoment, hrange e x hx] at heq
  have hcancel := Nat.eq_of_mul_eq_mul_left (h.range_pos e (hsel e he)) heq
  omega

theorem found_byWord_eq_iff (h : HintSeq Bytes confuse) {sel : List WordElement}
    (hsel : ∀ e ∈ sel, e ∈ confuse) (top : List WordElement) :
    Multimap.insertAll WordElement.position sel top =
        Multimap.insertAll WordElement.position (found byWord confuse sel) top ↔
      NoEarlier confuse sel := by
  have hfound := found_byWord h hsel
  constructor
  · intro heq
    have hperm : (top ++ sel).Perm (top ++ found byWord confuse sel) :=
      (Multimap.insertAll_perm sel top).symm.trans
        (heq ▸ Multimap.insertAll_perm (found byWord confuse sel) top)
    have hsum := ((List.perm_append_left_iff top).mp hperm).map WordElement.position
      |>.sum_eq
    -- moved words would lower the sum of the positions
    have hle : List.Forall₂ (fun e x : WordElement => x.position ≤ e.position) sel
        (found byWord confuse sel) :=
      forall₂_imp_of_mem hfound (fun e he x hx => hx.first e (hsel e he) rfl)
    exact noEarlier_of_found h hsel (forall₂_eq_of_sum hle hsum.le)
  · intro hno
    have heq : List.Forall₂ Eq sel (found byWord confuse sel) := by
      apply forall₂_imp_of_mem hfound
      intro e he x hx
      have hpos : e.position = x.position :=
        le_antisymm (hno e he x hx.mem hx.word) (hx.first e (hsel e he) rfl)
      exact h.unique (hsel e he) hx.mem hpos hx.word.symm
    rw [List.forall₂_eq_eq_eq] at heq
    rw [← heq]

/-- Phoenix and ZhiZi insert the same entries into `wordSeqTopSelected_`: the
words of the path, each with its own position and none twice. -/
def SameEntries (dijkstra : WGraph ℚ → ℕ → ℕ) (hints confuse : List WordElement) :
    Prop :=
  ∀ sel, OnPath wordRule dijkstra hints confuse sel → sel.Nodup ∧ ∀ top,
    PhoenixWord.calcPrediction dijkstra hints confuse top =
        some (Multimap.insertAll WordElement.position sel top) ∧
      ZhiZiWord.calcPrediction dijkstra hints confuse top =
        some (Multimap.insertAll WordElement.position sel top)

/-- **ZhiZi inserts what Phoenix inserts exactly when no word of the path occurs
earlier in the group.** -/
theorem zhizi_same_iff (hg : GroupOf Bytes hints confuse)
    {dijkstra : WGraph ℚ → ℕ → ℕ}
    (htree : PathTree (buildGraph wordRule hints confuse) vrtxStart
      (dijkstra (buildGraph wordRule hints confuse))) :
    SameEntries dijkstra hints confuse ↔
      ∀ sel, OnPath wordRule dijkstra hints confuse sel → NoEarlier confuse sel := by
  constructor
  · intro hsame sel hpath
    have hchain := hpath.edgeChain hg htree
    have hzhizi := ((hsame sel hpath).2 []).2
    rw [ZhiZiWord.calcPrediction, calcPredictionBy_path hg.hints hchain.tiles hpath]
      at hzhizi
    exact (found_byWord_eq_iff hg.hints hchain.mem []).mp (Option.some.inj hzhizi).symm
  · intro hno sel hpath
    have hchain := hpath.edgeChain hg htree
    refine ⟨chain_nodup hg.hints hchain.mem hchain.tiles, fun top => ⟨?_, ?_⟩⟩
    · rw [PhoenixWord.calcPrediction, calcPredictionBy_path hg.hints hchain.tiles hpath,
        found_self hg.hints hchain.mem]
    · rw [ZhiZiWord.calcPrediction, calcPredictionBy_path hg.hints hchain.tiles hpath,
        (found_byWord_eq_iff hg.hints hchain.mem top).mpr (hno sel hpath)]

end Lookup

/-! ## A group without and one with a repeated word -/

section Examples

/-- No word occurs twice in the group, so ZhiZi inserts what Phoenix does. -/
theorem zhizi_same_on_pair : SameEntries pairParents pairState.wordHintSeq_ pairGroup := by
  refine (zhizi_same_iff pair_group pair_tree.pathTree).mpr ?_
  rintro sel ⟨ids, hat, -⟩ e he
  have hgroup : ∀ e ∈ pairGroup, ∀ y ∈ pairGroup, y.word = e.word →
      e.position ≤ y.position := by
    decide
  exact hgroup e (hat.mem e he)

def repeatDictionary : Dictionary := halfDictionary [charX, charX ++ charX]

/-- The text is one character three times; the dictionary knows it and its
double. -/
def repeatState : SegmentState :=
  let single (p : ℕ) : WordElement := WordElement.make charX p (1 / 2) (1 / 2)
  let double (p : ℕ) (w : ℚ) : WordElement :=
    WordElement.make (charX ++ charX) p w (1 / 2)
  let hints := [single 0, double 0 (1 / 2), single 3, double 3 (1 / 2), single 6]
  let adjusted := [single 0, double 0 2048, single 3, double 3 2048, single 6]
  ⟨3, hints, adjusted, [adjusted], []⟩

/-- The lightest chain is the double and then the single. -/
def repeatParents (_ : WGraph ℚ) (v : ℕ) : ℕ := [0, 0, 0, 1, 1, 2, 5].getD v 0

theorem repeat_emits : CtrlClaw.Emits [charX, charX, charX] (charX ++ charX ++ charX) := by
  have hchars : characters (charX ++ charX ++ charX) = [charX, charX, charX] := by
    with_unfolding_all decide
  rw [← hchars]
  exact CtrlClaw.emits_of_ordinary (by decide) (by rw [hchars]; decide)

theorem repeat_prepare :
    prepare natPow (inputPred repeatDictionary (halfDictionary []) .cn)
      [charX, charX, charX] (charX ++ charX ++ charX) = some repeatState := by
  with_unfolding_all decide

theorem repeat_tree : ∀ c ∈ repeatState.noConflictWordSeq_,
    ShortestPathTree (buildGraph wordRule repeatState.wordHintSeq_ c) vrtxStart
      (repeatParents (buildGraph wordRule repeatState.wordHintSeq_ c)) := by
  intro c hc
  rw [List.mem_singleton.mp hc]
  apply tree_of_labels (fun v => [0, 2, 1 / 2048, 4, 4, 1 / 1024, 1 / 1024].getD v 0)
  · rfl
  · with_unfolding_all decide
  · with_unfolding_all decide

/-- On this group the path ends with the single at byte 6; ZhiZi inserts the one
at byte 0 in its place. -/
theorem zhizi_moves_repeated_word :
    CtrlClaw.Emits [charX, charX, charX] (charX ++ charX ++ charX) ∧
    prepare natPow (inputPred repeatDictionary (halfDictionary []) .cn)
      [charX, charX, charX] (charX ++ charX ++ charX) = some repeatState ∧
    (∀ c ∈ repeatState.noConflictWordSeq_,
      (∀ e ∈ c, 0 < e.weight) ∧
      ShortestPathTree (buildGraph wordRule repeatState.wordHintSeq_ c) vrtxStart
        (repeatParents (buildGraph wordRule repeatState.wordHintSeq_ c)) ∧
      ¬ SameEntries repeatParents repeatState.wordHintSeq_ c) := by
  refine ⟨repeat_emits, repeat_prepare, ?_⟩
  intro c hc
  refine ⟨?_, repeat_tree c hc, ?_⟩
  · rw [List.mem_singleton.mp hc]
    with_unfolding_all decide
  rw [List.mem_singleton.mp hc]
  intro hsame
  have hpath : OnPath wordRule repeatParents repeatState.wordHintSeq_ repeatState.wordAdjustedSeq_
      [WordElement.make (charX ++ charX) 0 2048 (1 / 2),
        WordElement.make charX 6 (1 / 2) (1 / 2)] := by
    refine ⟨[1, 4], .cons rfl (.cons rfl .nil), ?_⟩
    have hroot := Follows.root (p := repeatParents (buildGraph wordRule
      repeatState.wordHintSeq_ repeatState.wordAdjustedSeq_)) (s := vrtxStart)
    have hdouble := Follows.step (v := 2) (by decide) hroot
    have hsingle := Follows.step (v := 5) (by decide) hdouble
    exact Follows.step (v := 6) (by decide) hsingle
  have hzhizi := ((hsame _ hpath).2 []).2
  revert hzhizi
  with_unfolding_all decide

end Examples

end WaiNative

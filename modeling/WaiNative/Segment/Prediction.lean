import WaiNative.Segment.Graph

/-!
# The chain a prediction selects

What `calcPrediction` leaves in `wordSeqTopSelected_` for one conflict group:
the walk back along the edges meets a chain of the group, a lightest one when the
parents are a shortest-path tree (`OnPath.lightest`), and each of its words is looked
up again in the group (`found`). Looked up by word and position it is the word itself
(`found_self`); by word alone it is the first entry of the group with that word.
-/

namespace WaiNative

open Cxx ShortestPath ChainGraph

theorem walkBack_eq {parents : ℕ → ℕ} {v : ℕ} {l : List ℕ}
    (h : Follows parents vrtxStart v l) (vEnd : ℕ) : ∀ (fuel : ℕ) (path : List ℕ),
    l.length < fuel → walkBack parents vEnd fuel v path =
      some (path ++ l.reverse.filter (fun x => x ≠ vEnd)) := by
  induction h with
  | root =>
      intro fuel path hfuel
      obtain ⟨fuel, rfl⟩ := Nat.exists_eq_succ_of_ne_zero (by omega : fuel ≠ 0)
      simp [walkBack]
  | @step v l hne _ ih =>
      intro fuel path hfuel
      obtain ⟨fuel, rfl⟩ := Nat.exists_eq_succ_of_ne_zero (by omega : fuel ≠ 0)
      rw [List.length_append, List.length_singleton] at hfuel
      rw [walkBack, if_neg hne, ih _ _ (by omega)]
      by_cases hv : v = vEnd
      · simp [hv]
      · simp [hv]

section Prediction

variable {Bytes : List Str} {wordHintSeq_ confuse : List WordElement}
  {rule : EdgeRule} {pick : LabelVertex → WordElement → Bool}
  {dijkstra : WGraph ℚ → ℕ → ℕ}

/-- The entries of the group that the words of a chain are mapped back to. -/
def found (pick : LabelVertex → WordElement → Bool)
    (confuse sel : List WordElement) : List WordElement :=
  sel.filterMap (fun e => confuse.find? (pick (labelOf e)))

theorem selectPath_eq (h : HintSeq Bytes confuse) {ids : List ℕ}
    {sel : List WordElement} (hat : At confuse ids sel) : ∀ top : List WordElement,
    selectPath pick (allVertices confuse).labelVertex confuse
        (ids.map (· + 1)).reverse top =
      some (Multimap.insertAll WordElement.position (found pick confuse sel) top) := by
  simp only [selectPath, List.reverse_reverse]
  induction hat with
  | nil => exact fun _ => rfl
  | @cons i e ids sel hi _ ih =>
      intro top
      simp only [List.map_cons, List.foldlM_cons, labelVertex_get h hi,
        Option.bind_eq_bind, Option.bind_some]
      cases hfind : confuse.find? (pick (labelOf e)) with
      | none => simpa [found, hfind] using ih top
      | some x =>
          simpa [found, hfind, Multimap.insertAll] using
            ih (Multimap.insert WordElement.position x top)

theorem HintSeq.positive {m l : List WordElement} (h : HintSeq Bytes m)
    (hl : ∀ e ∈ l, e ∈ m) :
    Tiling.Positive WordElement.position WordElement.stop l := by
  intro e he
  have hpos := h.range_pos e (hl e he)
  rw [WordElement.stop]
  omega

/-- A chain meets no word twice. -/
theorem chain_nodup (h : HintSeq Bytes confuse) {sel : List WordElement} {b t : ℕ}
    (hmem : ∀ e ∈ sel, e ∈ confuse)
    (htiles : Tiling.Tiles WordElement.position WordElement.stop b t sel) :
    sel.Nodup := by
  apply List.Pairwise.imp_of_mem _ (htiles.ordered (h.positive hmem))
  rintro e e' he - hle rfl
  have hlt := h.positive hmem e he
  omega

/-- The chain is no longer than its group. -/
theorem chain_length_le (h : HintSeq Bytes confuse) {sel : List WordElement} {b t : ℕ}
    (hmem : ∀ e ∈ sel, e ∈ confuse)
    (htiles : Tiling.Tiles WordElement.position WordElement.stop b t sel) :
    sel.length ≤ confuse.length :=
  (List.subperm_of_subset (chain_nodup h hmem htiles) hmem).length_le

/-- The elements that Dijkstra's parents lead back along. -/
def OnPath (rule : EdgeRule) (dijkstra : WGraph ℚ → ℕ → ℕ)
    (wordHintSeq_ confuse sel : List WordElement) : Prop :=
  ∃ ids, At confuse ids sel ∧
    Follows (dijkstra (buildGraph rule wordHintSeq_ confuse)) vrtxStart
      (confuse.length + 1) (ids.map (· + 1) ++ [confuse.length + 1])

theorem OnPath.unique {sel sel' : List WordElement}
    (h : OnPath rule dijkstra wordHintSeq_ confuse sel)
    (h' : OnPath rule dijkstra wordHintSeq_ confuse sel') : sel = sel' := by
  obtain ⟨ids, hat, hfollows⟩ := h
  obtain ⟨ids', hat', hfollows'⟩ := h'
  have hmap := List.append_cancel_right (hfollows.unique hfollows')
  have hids : ids = ids' := (List.map_injective_iff.mpr (add_left_injective 1)) hmap
  rw [hids] at hat
  exact hat.unique hat'

/-- **What the walk back selects**, when the parents lead along a chain. -/
theorem calcPredictionBy_path (h : HintSeq Bytes confuse) {sel : List WordElement}
    {b t : ℕ} (htiles : Tiling.Tiles WordElement.position WordElement.stop b t sel)
    (hpath : OnPath rule dijkstra wordHintSeq_ confuse sel) (top : List WordElement) :
    calcPredictionBy rule pick dijkstra wordHintSeq_ confuse top =
      some (Multimap.insertAll WordElement.position (found pick confuse sel) top) := by
  obtain ⟨ids, hat, hfollows⟩ := hpath
  have hne := hfollows.parent_ne (Nat.succ_ne_zero _)
  have hlen := chain_length_le h hat.mem htiles
  rw [← hat.length_eq] at hlen
  have hnum : (buildGraph rule wordHintSeq_ confuse).num_vertices =
      confuse.length + 2 := by
    rw [buildGraph, allVertices_eq h]
  have hwalk := walkBack_eq hfollows (confuse.length + 1) (confuse.length + 2 + 1) []
    (by simp; omega)
  -- the end itself is left out of the path
  have hids : ∀ i ∈ (ids.map (· + 1)).reverse,
      decide (i ≠ confuse.length + 1) = true := by
    intro i hi
    obtain ⟨j, hj, rfl⟩ := List.mem_map.mp (List.mem_reverse.mp hi)
    have hlt := hat.lt j hj
    simpa using hlt.ne
  have hfilter : (ids.map (· + 1) ++ [confuse.length + 1]).reverse.filter
      (fun x => x ≠ confuse.length + 1) = (ids.map (· + 1)).reverse := by
    rw [List.reverse_append, List.filter_append, List.filter_eq_self.mpr hids]
    simp
  rw [hfilter, List.nil_append] at hwalk
  simp only [calcPredictionBy, vrtxEnd_eq h, if_neg hne, hnum, hwalk,
    Option.bind_eq_bind, Option.bind_some]
  exact selectPath_eq h hat top

/-- A chain of the group from its start to the end vertex, along edges of the graph. -/
def EdgeChain (rule : EdgeRule) (confuse sel : List WordElement) : Prop :=
  ∃ d, Chain rule.weights WordElement.position WordElement.stop (· ∈ confuse)
    (startPos confuse) (posLast confuse) sel d

theorem EdgeChain.mem {sel : List WordElement} (h : EdgeChain rule confuse sel) :
    ∀ e ∈ sel, e ∈ confuse := by
  obtain ⟨d, hchain⟩ := h
  exact hchain.mem

theorem EdgeChain.tiles {sel : List WordElement} (h : EdgeChain rule confuse sel) :
    Tiling.Tiles WordElement.position WordElement.stop (startPos confuse)
      (posLast confuse) sel := by
  obtain ⟨d, hchain⟩ := h
  exact hchain.tiles

theorem edgeChain_of_total (hg : GroupOf Bytes wordHintSeq_ confuse) (hrule : rule.Total)
    {sel : List WordElement} (hmem : ∀ e ∈ sel, e ∈ confuse)
    (htiles : Tiling.Tiles WordElement.position WordElement.stop (startPos confuse)
      (posLast confuse) sel) : EdgeChain rule confuse sel := by
  have hcost : ∀ (l : List WordElement) (e : WordElement), (∀ x ∈ l, x ∈ confuse) →
      ∃ d, CostFrom rule.weights e l d := by
    intro l
    induction l with
    | nil =>
        intro e _
        obtain ⟨w, hw⟩ := Option.isSome_iff_exists.mp (hrule.last e.weight)
        exact ⟨w, Or.inr hw⟩
    | cons x l ih =>
        intro e hl
        obtain ⟨d, hd⟩ := ih x (fun y hy => hl y (List.mem_cons_of_mem _ hy))
        obtain ⟨w, hw⟩ := Option.isSome_iff_exists.mp (hrule.next e.word e.weight x.word
          (hg.word_ne_labelE (hl x List.mem_cons_self)))
        exact ⟨w + d, w, d, hw, hd, rfl⟩
  cases sel with
  | nil =>
      obtain ⟨e, he, -⟩ :=
        htiles.exists_mem le_rfl (hg.hints.startPos_lt_posLast hg.nonempty)
      exact absurd he List.not_mem_nil
  | cons e l =>
      obtain ⟨d, hd⟩ := hcost l e (fun x hx => hmem x (List.mem_cons_of_mem _ hx))
      exact ⟨_, hmem, htiles, d, hd, rfl⟩

/-- There is none where nothing leads to the end. -/
theorem not_edgeChain (hlast : ∀ a w, ¬ rule.weights.last a w) (sel : List WordElement) :
    ¬ EdgeChain rule confuse sel := by
  rintro ⟨d, hchain⟩
  obtain ⟨a, w, hw⟩ := hchain.cost.exists_last
  exact hlast a w hw

theorem reached_iff_edgeChain (hg : GroupOf Bytes wordHintSeq_ confuse) :
    Reached (buildGraph rule wordHintSeq_ confuse) vrtxStart (confuse.length + 1) ↔
      ∃ sel, EdgeChain rule confuse sel :=
  reached_iff (buildGraph_represents hg)

section Tree

variable (hg : GroupOf Bytes wordHintSeq_ confuse)

include hg

theorem end_lt_num_vertices :
    confuse.length + 1 < (buildGraph rule wordHintSeq_ confuse).num_vertices := by
  rw [(buildGraph_represents hg).num_vertices]
  omega

variable (htree : PathTree (buildGraph rule wordHintSeq_ confuse) vrtxStart
  (dijkstra (buildGraph rule wordHintSeq_ confuse)))

include htree

/-- If there is a chain, the way back meets one. -/
theorem exists_onPath (hchain : ∃ sel, EdgeChain rule confuse sel) :
    ∃ sel, OnPath rule dijkstra wordHintSeq_ confuse sel ∧ EdgeChain rule confuse sel := by
  have hreach := (reached_iff_edgeChain hg).mpr hchain
  obtain ⟨l, d, hfollows, hpath⟩ := htree.reached _ (end_lt_num_vertices hg) hreach
  obtain ⟨ids, sel, rfl, hat, hsel⟩ := (path_iff (buildGraph_represents hg)).mp hpath
  exact ⟨sel, ⟨ids, hat, hfollows⟩, d, hsel⟩

/-- The path back is a chain. -/
theorem OnPath.edgeChain {sel : List WordElement}
    (h : OnPath rule dijkstra wordHintSeq_ confuse sel) : EdgeChain rule confuse sel := by
  have hchain : ∃ sel, EdgeChain rule confuse sel := by
    rw [← reached_iff_edgeChain hg]
    by_contra hn
    obtain ⟨ids, -, hfollows⟩ := h
    exact hfollows.parent_ne (Nat.succ_ne_zero _)
      (htree.unreached _ (end_lt_num_vertices hg) hn)
  obtain ⟨sel', hpath, hsel'⟩ := exists_onPath hg htree hchain
  rw [h.unique hpath]
  exact hsel'

/-- **The entries of the chain that the parents lead back along are inserted**, or
nothing when the group has no chain. -/
theorem calcPredictionBy_spec (top : List WordElement) :
    (∃ sel, OnPath rule dijkstra wordHintSeq_ confuse sel ∧ EdgeChain rule confuse sel ∧
      calcPredictionBy rule pick dijkstra wordHintSeq_ confuse top =
        some (Multimap.insertAll WordElement.position (found pick confuse sel) top)) ∨
    ((∀ sel, ¬ EdgeChain rule confuse sel) ∧
      calcPredictionBy rule pick dijkstra wordHintSeq_ confuse top = some top) := by
  by_cases hchain : ∃ sel, EdgeChain rule confuse sel
  · left
    obtain ⟨sel, hpath, hsel⟩ := exists_onPath hg htree hchain
    exact ⟨sel, hpath, hsel, calcPredictionBy_path hg.hints hsel.tiles hpath top⟩
  · -- no path: the end is its own parent, and the function returns
    right
    have hself := htree.unreached _ (end_lt_num_vertices hg)
      (fun hreach => hchain ((reached_iff_edgeChain hg).mp hreach))
    refine ⟨not_exists.mp hchain, ?_⟩
    simp only [calcPredictionBy, vrtxEnd_eq hg.hints, hself, ↓reduceIte]

end Tree

/-- Along a shortest-path tree the path back is a lightest chain. -/
theorem OnPath.lightest (hg : GroupOf Bytes wordHintSeq_ confuse)
    (htree : ShortestPathTree (buildGraph rule wordHintSeq_ confuse) vrtxStart
      (dijkstra (buildGraph rule wordHintSeq_ confuse))) {sel : List WordElement}
    (h : OnPath rule dijkstra wordHintSeq_ confuse sel) :
    Lightest rule.weights WordElement.position WordElement.stop (· ∈ confuse)
      (startPos confuse) (posLast confuse) sel := by
  have hreach := (reached_iff_edgeChain hg).mpr ⟨sel, h.edgeChain hg htree.pathTree⟩
  obtain ⟨l, d, hfollows, hshort⟩ := htree.reached _ (end_lt_num_vertices hg) hreach
  obtain ⟨ids, sel', rfl, hat, hlight⟩ :=
    lightest_of_shortest (buildGraph_represents hg) hshort
  rw [h.unique ⟨ids, hat, hfollows⟩]
  exact hlight

/-- Each chain of a group is on the path back along some tree. -/
theorem exists_pathTree_along (hg : GroupOf Bytes wordHintSeq_ confuse)
    {sel : List WordElement} (h : EdgeChain rule confuse sel) :
    ∃ dijkstra : WGraph ℚ → ℕ → ℕ, LeadsBack vrtxStart dijkstra ∧
      OnPath rule dijkstra wordHintSeq_ confuse sel := by
  obtain ⟨d, hchain⟩ := h
  obtain ⟨ids, hat⟩ := exists_at hchain.mem
  have hrep : Represents rule.weights WordElement.position WordElement.stop confuse
      (startPos confuse) (posLast confuse) (buildGraph rule wordHintSeq_ confuse) :=
    buildGraph_represents hg
  have hpath := (path_iff hrep).mpr ⟨ids, sel, rfl, hat, hchain⟩
  obtain ⟨dijkstra, hback, hfollows⟩ :=
    exists_leadsBack_through (buildGraph_forward hg) hpath
  exact ⟨dijkstra, hback, ids, hat, hfollows⟩

/-- Each lightest chain of a group is on the path back along some shortest-path tree. -/
theorem exists_tree_along (hg : GroupOf Bytes wordHintSeq_ confuse)
    {sel : List WordElement}
    (hlight : Lightest rule.weights WordElement.position WordElement.stop (· ∈ confuse)
      (startPos confuse) (posLast confuse) sel) :
    ∃ dijkstra, ShortestPathTree (buildGraph rule wordHintSeq_ confuse) vrtxStart
        (dijkstra (buildGraph rule wordHintSeq_ confuse)) ∧
      OnPath rule dijkstra wordHintSeq_ confuse sel := by
  obtain ⟨ids, d, hat, hshort⟩ :=
    shortest_of_lightest (buildGraph_represents hg) hlight
  obtain ⟨parents, htree, hfollows⟩ :=
    exists_tree_through (buildGraph_forward hg) hshort
  exact ⟨fun _ => parents, htree, ids, hat, hfollows⟩

/-- Looked up by word and position, an element of the group is itself. -/
theorem find_byWordAndPosition (h : HintSeq Bytes confuse) {e : WordElement}
    (he : e ∈ confuse) : confuse.find? (byWordAndPosition (labelOf e)) = some e := by
  cases hfind : confuse.find? (byWordAndPosition (labelOf e)) with
  | none =>
      have hnone := List.find?_eq_none.mp hfind e he
      simp [byWordAndPosition, labelOf] at hnone
  | some x =>
      have hx : x.word = e.word ∧ (x.position : ℤ) = e.position := by
        simpa [byWordAndPosition, labelOf] using List.find?_some hfind
      rw [h.unique (List.mem_of_find?_eq_some hfind) he (Int.ofNat_inj.mp hx.2) hx.1]

theorem found_self (h : HintSeq Bytes confuse) {sel : List WordElement}
    (hsel : ∀ e ∈ sel, e ∈ confuse) : found byWordAndPosition confuse sel = sel := by
  induction sel with
  | nil => rfl
  | cons e sel ih =>
      have he := find_byWordAndPosition h (hsel e List.mem_cons_self)
      have ih' := ih (fun x hx => hsel x (List.mem_cons_of_mem _ hx))
      simp only [found] at ih' ⊢
      rw [List.filterMap_cons, he, ih']

end Prediction

end WaiNative

import WaiNative.Segment.Groups
import WaiNative.Theory.ChainGraph

/-!
# The word graph of a conflict group

`calcPrediction` exists three times: in `PhoenixWord`, in `ZhiZiWord`, and as
`ZhiZiWord::calcPredictionPhrase`. All three build a vertex for each word of
the group, a start and an end, draw edges from the hints of the whole sentence,
ask Boost's Dijkstra for parents and walk back from the end. They differ in the
edge weights (`EdgeRule`) and in how a vertex of the path is looked up in the
group (`pick`); each is `calcPredictionBy` at its own values.

- `buildGraph_represents`: hints of other groups draw no edge, so the graph is
  the chain graph of the group;
- `buildGraph_forward`: its edges lead to higher numbers.

Boost's Dijkstra is a parameter: a graph to its parent map, from vertex `0`.
Weights are rationals in place of `double` and `float`, and a rule draws no edge where
the weight in the source is infinite: Dijkstra never takes one. (The other weights stay
far below the largest `float`: the dictionaries give six decimals.) Since sums of
`float` are rounded, the way back along Boost's parents need not be a lightest one;
what is said of all trees that lead back along edges (`PathTree`) does not depend on it.
-/

namespace WaiNative

open Cxx ShortestPath ChainGraph

/-! ## Vertices -/

/-- An element of `vertexWator`. -/
structure VertexWator where
  key : ℤ
  word : Str
  vrtx : ℕ
  weight : ℚ
deriving DecidableEq

/-- The word and the position of a `LabelVertex`. -/
structure LabelVertex where
  word : Str
  position : ℤ
deriving DecidableEq

/-- The variables that the vertex loop fills. -/
structure Vertices where
  num_vertices : ℕ
  vertexWator : List VertexWator
  labelVertex : List LabelVertex

def labelS : Str := [83]

def labelE : Str := [69]

/-- `add_vertex`, with its entries in `vertexWator` and `labelVertex`. -/
def Vertices.add (key : ℤ) (word : Str) (weight : ℚ) (position : ℤ)
    (g : Vertices) : Vertices where
  num_vertices := g.num_vertices + 1
  vertexWator :=
    Multimap.insert VertexWator.key ⟨key, word, g.num_vertices, weight⟩ g.vertexWator
  labelVertex := g.labelVertex ++ [⟨word, position⟩]

/-- The start vertex and those of the group. -/
def wordVertices (confuse : List WordElement) : Vertices :=
  confuse.foldl
    (fun g elem => g.add elem.position elem.word elem.weight elem.position)
    ((⟨0, [], []⟩ : Vertices).add (-1) labelS 1 (-1))

def vrtxStart : ℕ := 0

def vrtxEnd (confuse : List WordElement) : ℕ := (wordVertices confuse).num_vertices

def allVertices (confuse : List WordElement) : Vertices :=
  (wordVertices confuse).add (posLast confuse) labelE 1 (-1)

/-! ## Edges -/

/-- The edge weights of one of the three functions. -/
structure EdgeRule where
  /-- from the start to a word of weight `weightR` -/
  start : (weightR : ℚ) → ℚ
  /-- from a word to the next; `none` where the function skips the edge, or gives it an
  infinite weight -/
  next : (wordSelf : Str) → (weightR : ℚ) → (wordNext : Str) → Option ℚ
  /-- the dummy edge to the end; `none` where its weight is infinite -/
  last : (weightR : ℚ) → Option ℚ

section Build

variable (rule : EdgeRule)

/-- `add dummy start`. -/
def startEdges (confuse : List WordElement) (vertexWator : List VertexWator) :
    List (Edge ℚ) :=
  (Multimap.equalRange VertexWator.key (startPos confuse) vertexWator).map
    (fun itSelf => ⟨vrtxStart, itSelf.vrtx, rule.start itSelf.weight⟩)

/-- The first vertex at the hint's position with the hint's word. -/
def findSelf (vertexWator : List VertexWator) (elem : WordElement) :
    Option VertexWator :=
  (Multimap.equalRange VertexWator.key elem.position vertexWator).find?
    (fun itSelf => elem.word = itSelf.word)

/-- The edges one hint of the sentence draws. -/
def hintEdges (confuse : List WordElement) (vertexWator : List VertexWator)
    (elem : WordElement) : List (Edge ℚ) :=
  match findSelf vertexWator elem with
  | none => []
  | some itSelf =>
      let next := elem.position + elem.range
      (Multimap.equalRange VertexWator.key next vertexWator).filterMap
        (fun itNext => (rule.next itSelf.word itSelf.weight itNext.word).map
          (fun weight => ⟨itSelf.vrtx, itNext.vrtx, weight⟩)) ++
      -- add dummy end
      (if posLast confuse = elem.position + elem.range then
        ((rule.last itSelf.weight).map
          (fun weight => ⟨itSelf.vrtx, vrtxEnd confuse, weight⟩)).toList
      else [])

def buildGraph (wordHintSeq_ confuse : List WordElement) : WGraph ℚ :=
  let vertices := allVertices confuse
  { num_vertices := vertices.num_vertices
    edges := startEdges rule confuse vertices.vertexWator ++
      wordHintSeq_.flatMap (hintEdges rule confuse vertices.vertexWator) }

end Build

/-! ## The walk back -/

/-- `for(v = vrtxEnd; v != vrtxStart; v = parents[v])`; `none` when the loop
does not end. -/
def walkBack (parents : ℕ → ℕ) (vrtxEnd : ℕ) : ℕ → ℕ → List ℕ → Option (List ℕ)
  | 0, _, _ => none
  | fuel + 1, v, path =>
      if v = vrtxStart then some path
      else
        walkBack parents vrtxEnd fuel (parents v)
          (if v ≠ vrtxEnd then path ++ [v] else path)

/-- The loop over the path: each vertex is looked up in the group by `pick` and
inserted; `none` is the exception of `labelVertex.at`. -/
def selectPath (pick : LabelVertex → WordElement → Bool)
    (labelVertex : List LabelVertex) (confuse : List WordElement) (path : List ℕ)
    (wordSeqTopSelected_ : List WordElement) : Option (List WordElement) :=
  path.reverse.foldlM (fun top it => do
    let selected ← labelVertex[it]?
    match confuse.find? (pick selected) with
    | some elem => return Multimap.insert WordElement.position elem top
    | none => return top) wordSeqTopSelected_

/-- The common text of the three functions. -/
def calcPredictionBy (rule : EdgeRule) (pick : LabelVertex → WordElement → Bool)
    (dijkstra : WGraph ℚ → ℕ → ℕ) (wordHintSeq_ confuse : List WordElement)
    (wordSeqTopSelected_ : List WordElement) : Option (List WordElement) :=
  let g := buildGraph rule wordHintSeq_ confuse
  let parents := dijkstra g
  if parents (vrtxEnd confuse) = vrtxEnd confuse then
    -- no path
    some wordSeqTopSelected_
  else do
    let path ← walkBack parents (vrtxEnd confuse) (g.num_vertices + 1)
      (vrtxEnd confuse) []
    selectPath pick (allVertices confuse).labelVertex confuse path
      wordSeqTopSelected_

/-! ## The members of the family -/

/-- `if(word ==wordSelected && position == positionSelected)`. -/
def byWordAndPosition (selected : LabelVertex) (elem : WordElement) : Bool :=
  elem.word = selected.word ∧ (elem.position : ℤ) = selected.position

/-- `if(word ==wordSelected)`. -/
def byWord (selected : LabelVertex) (elem : WordElement) : Bool :=
  elem.word = selected.word

/-- The weights of `calcPrediction`, in both classes. -/
def wordRule : EdgeRule where
  start := fun weightR => 1 / weightR
  next := fun _ weightR _ => some (1 / weightR)
  last := fun _ => some 0

/-- The dictionary that `calcPredictionPhrase` asks for the least weight: the
Japanese one for `ja`, the Chinese one otherwise. -/
def phraseRangeMin (phraseInputCN_ phraseInputJA_ : Dictionary) (lang : Lang) : ℚ :=
  if lang = .ja then phraseInputJA_.getRangeMin else phraseInputCN_.getRangeMin

/-- `1.0 / phraseWeight` where the phrase is not known. A least weight of zero makes it
infinite (a negative one makes Boost throw). -/
def notFoundWeight (phraseInputCN_ phraseInputJA_ : Dictionary) (lang : Lang) : Option ℚ :=
  let phraseWeight := phraseRangeMin phraseInputCN_ phraseInputJA_ lang
  if 0 < phraseWeight then some (1 / phraseWeight) else none

/-- The weights of `calcPredictionPhrase`. -/
def phraseRule (phraseInputCN_ phraseInputJA_ : Dictionary) (lang : Lang) :
    EdgeRule where
  -- an edge keeps its default weight, which is zero as well, when it leads to "E"
  start := fun _ => 0
  next := fun wordSelf weightR wordNext =>
    if wordNext = labelE then none
    else
      let phrase := wordSelf ++ [45] ++ wordNext
      let pred := inputPred phraseInputCN_ phraseInputJA_ lang phrase
      let phraseWeight :=
        if pred > 0 then some (1 / pred)
        else notFoundWeight phraseInputCN_ phraseInputJA_ lang
      phraseWeight.map (· / weightR)
  last := fun weightR =>
    (notFoundWeight phraseInputCN_ phraseInputJA_ lang).map (· / weightR)

def PhoenixWord.calcPrediction (dijkstra : WGraph ℚ → ℕ → ℕ)
    (wordHintSeq_ confuse wordSeqTopSelected_ : List WordElement) :
    Option (List WordElement) :=
  calcPredictionBy wordRule byWordAndPosition dijkstra wordHintSeq_ confuse
    wordSeqTopSelected_

def ZhiZiWord.calcPrediction (dijkstra : WGraph ℚ → ℕ → ℕ)
    (wordHintSeq_ confuse wordSeqTopSelected_ : List WordElement) :
    Option (List WordElement) :=
  calcPredictionBy wordRule byWord dijkstra wordHintSeq_ confuse
    wordSeqTopSelected_

def ZhiZiWord.calcPredictionPhrase (phraseInputCN_ phraseInputJA_ : Dictionary)
    (lang : Lang) (dijkstra : WGraph ℚ → ℕ → ℕ)
    (wordHintSeq_ confuse wordSeqTopSelected_ : List WordElement) :
    Option (List WordElement) :=
  calcPredictionBy (phraseRule phraseInputCN_ phraseInputJA_ lang)
    byWordAndPosition dijkstra wordHintSeq_ confuse wordSeqTopSelected_

/-! ## What the vertices are -/

/-- The entries of a group's words, numbered from `n`. -/
def wordEntries : ℕ → List WordElement → List VertexWator
  | _, [] => []
  | n, e :: l => ⟨e.position, e.word, n, e.weight⟩ :: wordEntries (n + 1) l

/-- The labels of a group's words. -/
def labelOf (e : WordElement) : LabelVertex := ⟨e.word, e.position⟩

theorem mem_wordEntries {it : VertexWator} : ∀ {l : List WordElement} {n : ℕ},
    it ∈ wordEntries n l ↔ ∃ (i : ℕ) (e : WordElement), l[i]? = some e ∧
      it = ⟨e.position, e.word, n + i, e.weight⟩
  | [], n => by simp [wordEntries]
  | e :: l, n => by
      rw [wordEntries, List.mem_cons, mem_wordEntries]
      constructor
      · rintro (rfl | ⟨i, x, hi, rfl⟩)
        · exact ⟨0, e, rfl, rfl⟩
        · exact ⟨i + 1, x, hi, by simp [add_comm, add_left_comm]⟩
      · rintro ⟨i, x, hi, rfl⟩
        cases i with
        | zero =>
            obtain rfl : e = x := by simpa using hi
            exact Or.inl rfl
        | succ i => exact Or.inr ⟨i, x, hi, by simp [add_comm, add_left_comm]⟩

section Vertices

variable {Bytes : List Str} {confuse : List WordElement}

theorem foldl_add : ∀ (l : List WordElement) (g : Vertices),
    (∀ it ∈ g.vertexWator, ∀ e ∈ l, it.key ≤ (e.position : ℤ)) →
    Multimap.Sorted WordElement.position l →
    l.foldl (fun g elem => g.add elem.position elem.word elem.weight elem.position) g
      = ⟨g.num_vertices + l.length, g.vertexWator ++ wordEntries g.num_vertices l,
          g.labelVertex ++ l.map labelOf⟩
  | [], g, _, _ => by simp [wordEntries]
  | e :: l, g, hkey, hsorted => by
      obtain ⟨he, hl⟩ := List.pairwise_cons.mp hsorted
      have hlast : Multimap.insert VertexWator.key
          ⟨e.position, e.word, g.num_vertices, e.weight⟩ g.vertexWator =
            g.vertexWator ++ [⟨e.position, e.word, g.num_vertices, e.weight⟩] :=
        Multimap.insert_last (fun it hit => hkey it hit e List.mem_cons_self)
      rw [List.foldl_cons, foldl_add l _ _ hl]
      · simp [Vertices.add, hlast, wordEntries, labelOf, add_comm, add_left_comm]
      · intro it hit x hx
        rcases Multimap.mem_insert.mp hit with rfl | hit
        · exact Int.ofNat_le.mpr (he x hx)
        · exact hkey it hit x (List.mem_cons_of_mem _ hx)

theorem wordVertices_eq (h : HintSeq Bytes confuse) :
    wordVertices confuse = ⟨confuse.length + 1,
      ⟨-1, labelS, 0, 1⟩ :: wordEntries 1 confuse,
      ⟨labelS, -1⟩ :: confuse.map labelOf⟩ := by
  rw [wordVertices, foldl_add _ _ _ h.ordered.sorted]
  · simp [Vertices.add, Multimap.insert, add_comm]
  · intro it hit e he
    rcases Multimap.mem_insert.mp hit with rfl | hit
    · show (-1 : ℤ) ≤ e.position
      omega
    · exact absurd hit List.not_mem_nil

theorem vrtxEnd_eq (h : HintSeq Bytes confuse) :
    vrtxEnd confuse = confuse.length + 1 := by
  rw [vrtxEnd, wordVertices_eq h]

/-- Start, words, end: in this order by key and by number. -/
theorem allVertices_eq (h : HintSeq Bytes confuse) :
    allVertices confuse = ⟨confuse.length + 2,
      (⟨-1, labelS, 0, 1⟩ :: wordEntries 1 confuse) ++
        [⟨posLast confuse, labelE, confuse.length + 1, 1⟩],
      ⟨labelS, -1⟩ :: confuse.map labelOf ++ [⟨labelE, -1⟩]⟩ := by
  rw [allVertices, wordVertices_eq h, Vertices.add, Multimap.insert_last]
  rintro it (_ | ⟨_, hit⟩)
  · show (-1 : ℤ) ≤ posLast confuse
    omega
  · obtain ⟨i, e, hi, rfl⟩ := mem_wordEntries.mp hit
    have hlt := h.lt_posLast (List.mem_of_getElem? hi)
    show (e.position : ℤ) ≤ posLast confuse
    omega

theorem mem_vertexWator (h : HintSeq Bytes confuse) {it : VertexWator} :
    it ∈ (allVertices confuse).vertexWator ↔
      it = ⟨-1, labelS, 0, 1⟩ ∨
      (∃ (i : ℕ) (e : WordElement), confuse[i]? = some e ∧
        it = ⟨e.position, e.word, i + 1, e.weight⟩) ∨
      it = ⟨posLast confuse, labelE, confuse.length + 1, 1⟩ := by
  rw [allVertices_eq h]
  simp [mem_wordEntries, add_comm]

theorem labelVertex_get (h : HintSeq Bytes confuse) {i : ℕ} {e : WordElement}
    (hi : confuse[i]? = some e) :
    (allVertices confuse).labelVertex[i + 1]? = some (labelOf e) := by
  obtain ⟨hlt, rfl⟩ := List.getElem?_eq_some_iff.mp hi
  rw [allVertices_eq h]
  simp [List.getElem?_append_left, hlt]

end Vertices

/-! ## What the edges are -/

/-- A group and the hints it was taken from. The words have three bytes or
more, so none of them is taken for `S` or `E`. -/
structure GroupOf (Bytes : List Str) (wordHintSeq_ confuse : List WordElement) :
    Prop where
  hints : HintSeq Bytes confuse
  nonempty : confuse ≠ []
  three : ∀ e ∈ confuse, 3 ≤ e.range
  three_hint : ∀ e ∈ wordHintSeq_, 3 ≤ e.range
  hinted : ∀ e ∈ confuse, ∃ h ∈ wordHintSeq_, h.position = e.position ∧
    h.word = e.word

/-- No word of a group is taken for the end. -/
theorem GroupOf.word_ne_labelE {Bytes : List Str} {wordHintSeq_ confuse : List WordElement}
    (hg : GroupOf Bytes wordHintSeq_ confuse) {e : WordElement} (he : e ∈ confuse) :
    e.word ≠ labelE := by
  intro heq
  have hthree := hg.three e he
  rw [e.range_eq, heq] at hthree
  simp [labelE] at hthree

/-- The weights of the chain graph a rule draws. -/
def EdgeRule.weights (rule : EdgeRule) : Weights WordElement ℚ where
  first := fun a => rule.start a.weight
  inner := fun a a' w => rule.next a.word a.weight a'.word = some w
  last := fun a w =>
    rule.next a.word a.weight labelE = some w ∨ rule.last a.weight = some w

/-- Only the edge to `E` may be skipped. -/
structure EdgeRule.Total (rule : EdgeRule) : Prop where
  next : ∀ w q w', w' ≠ labelE → (rule.next w q w').isSome
  last : ∀ q, (rule.last q).isSome

theorem wordRule_total : wordRule.Total where
  next := fun _ _ _ _ => rfl
  last := fun _ => rfl

theorem notFoundWeight_of_pos {cn ja : Dictionary} {lang : Lang}
    (hmin : 0 < phraseRangeMin cn ja lang) :
    notFoundWeight cn ja lang = some (1 / phraseRangeMin cn ja lang) :=
  if_pos hmin

theorem phraseRule_total {cn ja : Dictionary} {lang : Lang}
    (hmin : 0 < phraseRangeMin cn ja lang) : (phraseRule cn ja lang).Total where
  next := by
    intro w q w' hne
    simp only [phraseRule, if_neg hne, notFoundWeight_of_pos hmin]
    split
    · rfl
    · rfl
  last := by
    intro q
    simp [phraseRule, notFoundWeight_of_pos hmin]

/-- Without a least weight nothing leads to the end. -/
theorem phraseRule_last {cn ja : Dictionary} {lang : Lang}
    (hmin : ¬ 0 < phraseRangeMin cn ja lang) (a : WordElement) (w : ℚ) :
    ¬ (phraseRule cn ja lang).weights.last a w := by
  simp [EdgeRule.weights, phraseRule, notFoundWeight, hmin]

section Edges

variable {Bytes : List Str} {wordHintSeq_ confuse : List WordElement}
  {rule : EdgeRule}

/-- Elements of a group with one position and word are one. -/
theorem HintSeq.unique (h : HintSeq Bytes confuse) {e e' : WordElement}
    (he : e ∈ confuse) (he' : e' ∈ confuse) (hp : e.position = e'.position)
    (hw : e.word = e'.word) : e = e' := by
  apply h.ordered.unique he he' hp
  rw [e.range_eq, e'.range_eq, hw]

theorem HintSeq.index_unique (h : HintSeq Bytes confuse) {i j : ℕ}
    {e e' : WordElement} (hi : confuse[i]? = some e) (hj : confuse[j]? = some e')
    (hp : e.position = e'.position) (hw : e.word = e'.word) : i = j ∧ e = e' := by
  obtain rfl := h.unique (List.mem_of_getElem? hi) (List.mem_of_getElem? hj) hp hw
  have hlt := (List.getElem?_eq_some_iff.mp hi).1
  exact ⟨(List.getElem?_inj hlt h.ordered.nodup).mp (hi.trans hj.symm), rfl⟩

/-- A hint finds the vertex of the group's element it equals, or none. -/
theorem findSelf_eq_some (hg : GroupOf Bytes wordHintSeq_ confuse)
    {elem : WordElement} (hthree : 3 ≤ elem.range) {it : VertexWator} :
    findSelf (allVertices confuse).vertexWator elem = some it ↔
      ∃ (i : ℕ) (e : WordElement), confuse[i]? = some e ∧
        e.position = elem.position ∧ e.word = elem.word ∧
        it = ⟨e.position, e.word, i + 1, e.weight⟩ := by
  have hmatch : ∀ {it : VertexWator}, it ∈ (allVertices confuse).vertexWator →
      it.key = elem.position → elem.word = it.word →
      ∃ (i : ℕ) (e : WordElement), confuse[i]? = some e ∧
        e.position = elem.position ∧ e.word = elem.word ∧
        it = ⟨e.position, e.word, i + 1, e.weight⟩ := by
    intro it hit hkey hword
    rw [elem.range_eq] at hthree
    rcases (mem_vertexWator hg.hints).mp hit with rfl | ⟨i, e, hi, rfl⟩ | rfl
    · simp only at hkey
      omega
    · exact ⟨i, e, hi, Int.ofNat_inj.mp hkey, hword.symm, rfl⟩
    · rw [hword] at hthree
      simp [labelE] at hthree
  constructor
  · intro h
    obtain ⟨hit, hkey⟩ := Multimap.mem_equalRange.mp (List.mem_of_find?_eq_some h)
    exact hmatch hit hkey (by simpa using List.find?_some h)
  · rintro ⟨i, e, hi, hp, hw, rfl⟩
    have hmem : (⟨e.position, e.word, i + 1, e.weight⟩ : VertexWator) ∈
        Multimap.equalRange VertexWator.key elem.position
          (allVertices confuse).vertexWator := by
      apply Multimap.mem_equalRange.mpr
      exact ⟨(mem_vertexWator hg.hints).mpr (Or.inr (Or.inl ⟨i, e, hi, rfl⟩)),
        by simp only [hp]⟩
    cases hfind : findSelf (allVertices confuse).vertexWator elem with
    | none =>
        have hnone := List.find?_eq_none.mp hfind _ hmem
        simp [hw] at hnone
    | some it =>
        obtain ⟨hit, hkey⟩ :=
          Multimap.mem_equalRange.mp (List.mem_of_find?_eq_some hfind)
        obtain ⟨j, e', hj, hp', hw', rfl⟩ :=
          hmatch hit hkey (by simpa using List.find?_some hfind)
        obtain ⟨rfl, rfl⟩ := hg.hints.index_unique hi hj (hp.trans hp'.symm)
          (hw.trans hw'.symm)
        rfl

/-- The vertices at the position where a word of the group ends. -/
theorem mem_next (hg : GroupOf Bytes wordHintSeq_ confuse) {n : ℕ}
    {it : VertexWator} :
    it ∈ Multimap.equalRange VertexWator.key n (allVertices confuse).vertexWator ↔
      (∃ (j : ℕ) (e : WordElement), confuse[j]? = some e ∧ e.position = n ∧
        it = ⟨e.position, e.word, j + 1, e.weight⟩) ∨
      (posLast confuse = n ∧ it = ⟨posLast confuse, labelE, confuse.length + 1, 1⟩) := by
  rw [Multimap.mem_equalRange, mem_vertexWator hg.hints]
  constructor
  · rintro ⟨rfl | ⟨j, e, hj, rfl⟩ | rfl, hkey⟩
    · simp only at hkey
      omega
    · exact Or.inl ⟨j, e, hj, Int.ofNat_inj.mp hkey, rfl⟩
    · exact Or.inr ⟨Int.ofNat_inj.mp hkey, rfl⟩
  · rintro (⟨j, e, hj, rfl, rfl⟩ | ⟨rfl, rfl⟩)
    · exact ⟨Or.inr (Or.inl ⟨j, e, hj, rfl⟩), rfl⟩
    · exact ⟨Or.inr (Or.inr rfl), rfl⟩

/-- The edges that a hint draws from the element it equals. -/
theorem mem_hintEdges (hg : GroupOf Bytes wordHintSeq_ confuse)
    {elem : WordElement} (hthree : 3 ≤ elem.range) {x : Edge ℚ} :
    x ∈ hintEdges rule confuse (allVertices confuse).vertexWator elem ↔
      ∃ (i : ℕ) (a : WordElement), confuse[i]? = some a ∧
        a.position = elem.position ∧ a.word = elem.word ∧
        ((∃ (j : ℕ) (a' : WordElement) (w : ℚ), confuse[j]? = some a' ∧
            a'.position = a.stop ∧ rule.next a.word a.weight a'.word = some w ∧
            x = ⟨i + 1, j + 1, w⟩) ∨
          (∃ w, a.stop = posLast confuse ∧ rule.weights.last a w ∧
            x = ⟨i + 1, confuse.length + 1, w⟩)) := by
  have hstop : ∀ a : WordElement, a.position = elem.position → a.word = elem.word →
      elem.position + elem.range = a.stop := by
    intro a hp hw
    rw [WordElement.stop, hp, a.range_eq, elem.range_eq, hw]
  rw [hintEdges]
  cases hfind : findSelf (allVertices confuse).vertexWator elem with
  | none =>
      constructor
      · intro h
        exact absurd h List.not_mem_nil
      · rintro ⟨i, a, hi, hp, hw, -⟩
        have hsome := (findSelf_eq_some hg hthree).mpr ⟨i, a, hi, hp, hw, rfl⟩
        rw [hfind] at hsome
        exact absurd hsome (by simp)
  | some itSelf =>
      obtain ⟨i, a, hi, hp, hw, rfl⟩ := (findSelf_eq_some hg hthree).mp hfind
      simp only [List.mem_append, List.mem_filterMap, hstop a hp hw, mem_next hg,
        vrtxEnd_eq hg.hints]
      constructor
      · rintro (⟨it, (⟨j, a', hj, hp', rfl⟩ | ⟨ht, rfl⟩), hx⟩ | hx)
        · obtain ⟨w, hw', rfl⟩ := Option.map_eq_some_iff.mp hx
          exact ⟨i, a, hi, hp, hw, Or.inl ⟨j, a', w, hj, hp', hw', rfl⟩⟩
        · obtain ⟨w, hw', rfl⟩ := Option.map_eq_some_iff.mp hx
          exact ⟨i, a, hi, hp, hw, Or.inr ⟨w, ht.symm, Or.inl hw', rfl⟩⟩
        · split at hx
          · rename_i ht
            obtain ⟨w, hlast, rfl⟩ := Option.map_eq_some_iff.mp (Option.mem_toList.mp hx)
            exact ⟨i, a, hi, hp, hw, Or.inr ⟨w, ht.symm, Or.inr hlast, rfl⟩⟩
          · exact absurd hx List.not_mem_nil
      · rintro ⟨i', a', hi', hp', hw', hx⟩
        obtain ⟨rfl, rfl⟩ := hg.hints.index_unique hi hi' (hp.trans hp'.symm)
          (hw.trans hw'.symm)
        rcases hx with ⟨j, b, w, hj, hb, hnext, rfl⟩ | ⟨w, ht, hlast, rfl⟩
        · exact Or.inl ⟨_, Or.inl ⟨j, b, hj, hb, rfl⟩,
            Option.map_eq_some_iff.mpr ⟨w, hnext, rfl⟩⟩
        · rcases hlast with hnext | hlast
          · exact Or.inl ⟨_, Or.inr ⟨ht.symm, rfl⟩,
              Option.map_eq_some_iff.mpr ⟨w, hnext, rfl⟩⟩
          · right
            rw [if_pos ht.symm]
            exact Option.mem_toList.mpr (Option.map_eq_some_iff.mpr ⟨w, hlast, rfl⟩)

/-- **The graph of a group is its chain graph**: hints of other groups draw no
edge. -/
theorem buildGraph_represents (hg : GroupOf Bytes wordHintSeq_ confuse) :
    Represents rule.weights WordElement.position WordElement.stop confuse
      (startPos confuse) (posLast confuse) (buildGraph rule wordHintSeq_ confuse) where
  num_vertices := by rw [buildGraph, allVertices_eq hg.hints]
  mem_edges := by
    intro x
    rw [buildGraph, List.mem_append, List.mem_flatMap]
    constructor
    · rintro (hx | ⟨elem, helem, hx⟩)
      · obtain ⟨it, hit, rfl⟩ := List.mem_map.mp hx
        rcases (mem_next hg).mp hit with ⟨j, e, hj, hp, rfl⟩ | ⟨ht, rfl⟩
        · exact IsEdge.first hj hp
        · have hlt := hg.hints.startPos_lt_posLast hg.nonempty
          omega
      · obtain ⟨i, a, hi, -, -, hx⟩ :=
          (mem_hintEdges hg (hg.three_hint elem helem)).mp hx
        rcases hx with ⟨j, a', w, hj, hs, hnext, rfl⟩ | ⟨w, ht, hlast, rfl⟩
        · exact IsEdge.inner hi hj hs hnext
        · exact IsEdge.last hi ht hlast
    · intro hx
      cases hx with
      | @first j a hj hs =>
          left
          apply List.mem_map.mpr
          exact ⟨_, (mem_next hg).mpr (Or.inl ⟨j, a, hj, hs, rfl⟩), rfl⟩
      | @inner i j a a' w hi hj hs hnext =>
          right
          obtain ⟨h, hh, hp, hw⟩ := hg.hinted a (List.mem_of_getElem? hi)
          refine ⟨h, hh, (mem_hintEdges hg (hg.three_hint h hh)).mpr ?_⟩
          exact ⟨i, a, hi, hp.symm, hw.symm, Or.inl ⟨j, a', w, hj, hs, hnext, rfl⟩⟩
      | @last i a w hi ht hlast =>
          right
          obtain ⟨h, hh, hp, hw⟩ := hg.hinted a (List.mem_of_getElem? hi)
          refine ⟨h, hh, (mem_hintEdges hg (hg.three_hint h hh)).mpr ?_⟩
          exact ⟨i, a, hi, hp.symm, hw.symm, Or.inr ⟨w, ht, hlast, rfl⟩⟩

/-- Edges of a group's graph lead to higher numbers. -/
theorem buildGraph_forward (hg : GroupOf Bytes wordHintSeq_ confuse) :
    (buildGraph rule wordHintSeq_ confuse).Forward := by
  apply forward (buildGraph_represents hg)
  · intro e he
    have hpos := hg.hints.range_pos e he
    rw [WordElement.stop]
    omega
  · exact hg.hints.ordered.sorted

end Edges

end WaiNative

import WaiNative.Theory.ShortestPath
import WaiNative.Theory.Tiling
import Mathlib.Data.List.Forall2
import Mathlib.Order.Bounds.Defs

/-!
# Chain graphs

The graph with which a shortest-path algorithm looks for the lightest chain of
intervals: one vertex for each interval of a list `cs`, a source `0` and a sink.
The source leads to the intervals that start at `b`, an interval to those that
start where it ends, and to the sink if it ends at `t`.

- `path_iff`: the paths from the source to the sink are the chains of `cs` from
  `b` to `t`, with the same weights;
- `lightest_of_shortest`, `shortest_of_lightest`: so shortest paths are
  lightest chains;
- `lightest_iff_least`: with the least weights of the edges, a lightest chain is one
  that minimises the length, a function of the chain;
- `forward`: for intervals sorted by their start the graph is forward, hence
  has shortest-path trees.
-/

namespace WaiNative.ChainGraph

open ShortestPath Tiling

variable {α W : Type*}

/-- The weights of the three kinds of edges. Those that leave an interval may come in
several weights, or in none. -/
structure Weights (α W : Type*) where
  first : α → W
  inner : α → α → W → Prop
  last : α → W → Prop

section Definitions

variable (ws : Weights α W) (s e : α → ℕ) (cs : List α) (b t : ℕ)

/-- The edges of the chain graph of `cs` from `b` to `t`. -/
inductive IsEdge : Edge W → Prop
  | first {j : ℕ} {a : α} : cs[j]? = some a → s a = b →
      IsEdge ⟨0, j + 1, ws.first a⟩
  | inner {i j : ℕ} {a a' : α} {w : W} : cs[i]? = some a → cs[j]? = some a' →
      s a' = e a → ws.inner a a' w → IsEdge ⟨i + 1, j + 1, w⟩
  | last {i : ℕ} {a : α} {w : W} : cs[i]? = some a → e a = t → ws.last a w →
      IsEdge ⟨i + 1, cs.length + 1, w⟩

/-- `g` is the chain graph of `cs` from `b` to `t`. -/
structure Represents (g : WGraph W) : Prop where
  num_vertices : g.num_vertices = cs.length + 2
  mem_edges : ∀ x, x ∈ g.edges ↔ IsEdge ws s e cs b t x

/-- `sel` are the intervals at the places `ids`. -/
def At (ids : List ℕ) (sel : List α) : Prop :=
  List.Forall₂ (fun i a => cs[i]? = some a) ids sel

end Definitions

section Costs

variable [AddCommGroup W] (ws : Weights α W)

/-- The weight of a chain from its interval `a` on. -/
def CostFrom : α → List α → W → Prop
  | a, [], d => ws.last a d
  | a, a' :: l, d => ∃ w d', ws.inner a a' w ∧ CostFrom a' l d' ∧ d = w + d'

/-- The weight of a chain. -/
def Cost : List α → W → Prop
  | [], _ => False
  | a :: l, d => ∃ d', CostFrom ws a l d' ∧ d = ws.first a + d'

variable {ws} in
/-- A chain with a weight ends in an edge into the sink. -/
theorem Cost.exists_last {l : List α} {d : W} (h : Cost ws l d) : ∃ a w, ws.last a w := by
  have hfrom : ∀ (l : List α) (a : α) (d : W), CostFrom ws a l d → ∃ a w, ws.last a w := by
    intro l
    induction l with
    | nil => exact fun a d h => ⟨a, d, h⟩
    | cons x l ih =>
        rintro a d ⟨w, d', -, h, -⟩
        exact ih x d' h
  cases l with
  | nil => exact absurd h id
  | cons a l =>
      obtain ⟨d', h, -⟩ := h
      exact hfrom l a d' h

/-- A chain from `b` to `t` of intervals among `P`, with its weight. -/
structure Chain (s e : α → ℕ) (P : α → Prop) (b t : ℕ) (sel : List α) (d : W) :
    Prop where
  mem : ∀ a ∈ sel, P a
  tiles : Tiles s e b t sel
  cost : Cost ws sel d

/-- The length of a chain from its interval `a` on, when `inner` and `last` are the
weights of the edges. -/
def chainLengthFrom (inner : α → α → W) (last : α → W) : α → List α → W
  | a, [] => last a
  | a, a' :: l => inner a a' + chainLengthFrom inner last a' l

/-- The length of a chain. -/
def chainLength (first : α → W) (inner : α → α → W) (last : α → W) : List α → W
  | [] => 0
  | a :: l => first a + chainLengthFrom inner last a l

/-- A chain from `b` to `t` that minimises `f` among all of them. -/
structure Least [LE W] (f : List α → W) (s e : α → ℕ) (P : α → Prop) (b t : ℕ)
    (sel : List α) : Prop where
  mem : ∀ a ∈ sel, P a
  tiles : Tiles s e b t sel
  le : ∀ sel', (∀ a ∈ sel', P a) → Tiles s e b t sel' → f sel ≤ f sel'

/-- A chain of least weight. -/
def Lightest [LE W] (s e : α → ℕ) (P : α → Prop) (b t : ℕ) (sel : List α) : Prop :=
  ∃ d, Chain ws s e P b t sel d ∧ ∀ sel' d', Chain ws s e P b t sel' d' → d ≤ d'

end Costs

section Lengths

variable [AddCommGroup W] [LinearOrder W] [IsOrderedAddMonoid W]

/-- Among the intervals of `P`, the least weights of the edges that leave them. -/
structure LeastWeights (ws : Weights α W) (P : α → Prop) (inner : α → α → W)
    (last : α → W) : Prop where
  inner : ∀ a, P a → ∀ a', P a' → IsLeast {w | ws.inner a a' w} (inner a a')
  last : ∀ a, P a → IsLeast {w | ws.last a w} (last a)

variable {ws : Weights α W} {P : α → Prop} {inner : α → α → W} {last : α → W}

theorem LeastWeights.costFrom (h : LeastWeights ws P inner last) : ∀ (l : List α) (a : α),
    (∀ x ∈ a :: l, P x) → IsLeast {d | CostFrom ws a l d} (chainLengthFrom inner last a l)
  | [], a, hmem => h.last a (hmem a List.mem_cons_self)
  | a' :: l, a, hmem => by
      have hrest : ∀ x ∈ a' :: l, P x := fun x hx => hmem x (List.mem_cons_of_mem _ hx)
      obtain ⟨hcost, hle⟩ := h.costFrom l a' hrest
      obtain ⟨hedge, hedgele⟩ :=
        h.inner a (hmem a List.mem_cons_self) a' (hrest a' List.mem_cons_self)
      refine ⟨⟨_, _, hedge, hcost, rfl⟩, ?_⟩
      rintro d ⟨w, d', hw, hd', rfl⟩
      exact add_le_add (hedgele hw) (hle hd')

/-- The length of a chain is the least of its weights. -/
theorem LeastWeights.cost (h : LeastWeights ws P inner last) {l : List α} (hne : l ≠ [])
    (hmem : ∀ x ∈ l, P x) : IsLeast {d | Cost ws l d} (chainLength ws.first inner last l) := by
  cases l with
  | nil => exact absurd rfl hne
  | cons a l =>
      obtain ⟨hcost, hle⟩ := h.costFrom l a hmem
      refine ⟨⟨_, hcost, rfl⟩, ?_⟩
      rintro d ⟨d', hd', rfl⟩
      exact add_le_add_right (hle hd') _

/-- **The lightest chains are those of least length.** -/
theorem lightest_iff_least (h : LeastWeights ws P inner last) {s e : α → ℕ} {b t : ℕ}
    (hbt : b ≠ t) {sel : List α} :
    Lightest ws s e P b t sel ↔ Least (chainLength ws.first inner last) s e P b t sel := by
  have hleast : ∀ {l : List α}, (∀ a ∈ l, P a) → Tiles s e b t l →
      IsLeast {d | Cost ws l d} (chainLength ws.first inner last l) := by
    intro l hmem htiles
    refine h.cost ?_ hmem
    rintro rfl
    cases htiles
    exact hbt rfl
  constructor
  · rintro ⟨d, ⟨hmem, htiles, hcost⟩, hmin⟩
    refine ⟨hmem, htiles, ?_⟩
    intro sel' hmem' htiles'
    have hle := (hleast hmem htiles).2 hcost
    exact hle.trans (hmin _ _ ⟨hmem', htiles', (hleast hmem' htiles').1⟩)
  · rintro ⟨hmem, htiles, hmin⟩
    refine ⟨_, ⟨hmem, htiles, (hleast hmem htiles).1⟩, ?_⟩
    rintro sel' d' ⟨hmem', htiles', hcost'⟩
    exact (hmin sel' hmem' htiles').trans ((hleast hmem' htiles').2 hcost')

end Lengths

section Paths

variable [AddCommGroup W] {ws : Weights α W} {s e : α → ℕ} {cs : List α} {b t : ℕ}
  {g : WGraph W}

theorem At.mem {ids : List ℕ} {sel : List α} (h : At cs ids sel) :
    ∀ a ∈ sel, a ∈ cs := by
  induction h with
  | nil => simp
  | cons hi _ ih =>
      exact List.forall_mem_cons.mpr ⟨List.mem_of_getElem? hi, ih⟩

theorem At.lt {ids : List ℕ} {sel : List α} (h : At cs ids sel) :
    ∀ i ∈ ids, i < cs.length := by
  induction h with
  | nil => simp
  | cons hi _ ih =>
      exact List.forall_mem_cons.mpr ⟨(List.getElem?_eq_some_iff.mp hi).1, ih⟩

theorem At.unique {ids : List ℕ} {sel sel' : List α} (h : At cs ids sel)
    (h' : At cs ids sel') : sel = sel' := by
  induction h generalizing sel' with
  | nil => cases h'; rfl
  | cons hi _ ih =>
      cases h' with
      | cons hi' h' => rw [Option.some.inj (hi.symm.trans hi'), ih h']

theorem exists_at {sel : List α} (h : ∀ a ∈ sel, a ∈ cs) : ∃ ids, At cs ids sel := by
  induction sel with
  | nil => exact ⟨[], List.Forall₂.nil⟩
  | cons a sel ih =>
      obtain ⟨i, hi⟩ := List.mem_iff_getElem?.mp (h a List.mem_cons_self)
      obtain ⟨ids, hids⟩ := ih (fun x hx => h x (List.mem_cons_of_mem _ hx))
      exact ⟨i :: ids, List.Forall₂.cons hi hids⟩

omit [AddCommGroup W] in
/-- Nothing leaves the sink. -/
theorem Represents.sink (hg : Represents ws s e cs b t g) {v : ℕ} {w : W} :
    ⟨cs.length + 1, v, w⟩ ∉ g.edges := by
  intro hmem
  generalize hx : (⟨cs.length + 1, v, w⟩ : Edge W) = x at hmem
  cases (hg.mem_edges x).mp hmem with
  | first => simp at hx
  | inner hi =>
      have hlt := (List.getElem?_eq_some_iff.mp hi).1
      simp only [Edge.mk.injEq] at hx
      omega
  | last hi =>
      have hlt := (List.getElem?_eq_some_iff.mp hi).1
      simp only [Edge.mk.injEq] at hx
      omega

/-- From an interval on, the paths to the sink are the chains from its end. -/
theorem path_from_iff (hg : Represents ws s e cs b t g) {l : List ℕ} {i : ℕ}
    {a : α} {d : W} (hi : cs[i]? = some a) :
    Path g (i + 1) (cs.length + 1) l d ↔ ∃ ids sel,
      l = ids.map (· + 1) ++ [cs.length + 1] ∧ At cs ids sel ∧
        Tiles s e (e a) t sel ∧ CostFrom ws a sel d := by
  induction l generalizing i a d with
  | nil =>
      have hlt := (List.getElem?_eq_some_iff.mp hi).1
      constructor
      · intro h
        have heq := h.nil_eq.1
        omega
      · rintro ⟨ids, sel, hl, -⟩
        simp at hl
  | cons x l ih =>
      have hlt := (List.getElem?_eq_some_iff.mp hi).1
      constructor
      · intro h
        obtain ⟨w, d', he, hrest, rfl⟩ := h.uncons
        generalize hx : (⟨i + 1, x, w⟩ : Edge W) = y at he
        cases (hg.mem_edges y).mp he with
        | first => simp at hx
        | @inner i' j a' a'' w' hi' hj hs hw =>
            obtain ⟨hii, rfl, rfl⟩ := Edge.mk.inj hx
            obtain rfl : i = i' := by omega
            obtain rfl : a = a' := Option.some.inj (hi.symm.trans hi')
            obtain ⟨ids, sel, rfl, hat, htiles, hcost⟩ :=
              (ih hj).mp hrest
            exact ⟨j :: ids, a'' :: sel, rfl, List.Forall₂.cons hj hat,
              Tiles.cons hs htiles, w, d', hw, hcost, rfl⟩
        | @last i' a' w' hi' ht hw =>
            obtain ⟨hii, rfl, rfl⟩ := Edge.mk.inj hx
            obtain rfl : i = i' := by omega
            obtain rfl : a = a' := Option.some.inj (hi.symm.trans hi')
            -- behind the sink the path is empty
            cases l with
            | nil =>
                obtain ⟨-, rfl⟩ := hrest.nil_eq
                refine ⟨[], [], rfl, List.Forall₂.nil, ?_, ?_⟩
                · rw [ht]
                  exact Tiles.nil _
                · rw [add_zero]
                  exact hw
            | cons y l =>
                obtain ⟨w', d'', he', -⟩ := hrest.uncons
                exact absurd he' hg.sink
      · rintro ⟨ids, sel, hl, hat, htiles, hcost⟩
        cases hat with
        | nil =>
            obtain ⟨rfl, rfl⟩ := List.cons.inj hl
            have ht : e a = t := by cases htiles; rfl
            have hedge := (hg.mem_edges _).mpr (IsEdge.last hi ht hcost)
            have h := Path.cons hedge (Path.nil (g := g) (s := cs.length + 1))
            rwa [add_zero] at h
        | @cons j a' ids sel hj hat =>
            obtain ⟨rfl, rfl⟩ := List.cons.inj hl
            obtain ⟨w, d', hw, hcost', rfl⟩ := hcost
            cases htiles with
            | cons hs htiles =>
                have hedge := (hg.mem_edges _).mpr (IsEdge.inner hi hj hs hw)
                apply Path.cons hedge
                exact (ih hj).mpr ⟨ids, sel, rfl, hat, htiles, hcost'⟩

/-- **The paths from the source to the sink are the chains.** -/
theorem path_iff (hg : Represents ws s e cs b t g) {l : List ℕ} {d : W} :
    Path g 0 (cs.length + 1) l d ↔ ∃ ids sel,
      l = ids.map (· + 1) ++ [cs.length + 1] ∧ At cs ids sel ∧
        Chain ws s e (· ∈ cs) b t sel d := by
  constructor
  · intro h
    cases l with
    | nil => exact absurd h.nil_eq.1 (by omega)
    | cons x l =>
        obtain ⟨w, d', he, hrest, rfl⟩ := h.uncons
        generalize hx : (⟨0, x, w⟩ : Edge W) = y at he
        cases (hg.mem_edges y).mp he with
        | @first j a hj hs =>
            obtain ⟨-, rfl, rfl⟩ := Edge.mk.inj hx
            obtain ⟨ids, sel, rfl, hat, htiles, hcost⟩ :=
              (path_from_iff hg hj).mp hrest
            have hat' : At cs (j :: ids) (a :: sel) := List.Forall₂.cons hj hat
            exact ⟨j :: ids, a :: sel, rfl, hat', hat'.mem, Tiles.cons hs htiles,
              d', hcost, rfl⟩
        | inner => simp at hx
        | last => simp at hx
  · rintro ⟨ids, sel, rfl, hat, -, htiles, hcost⟩
    cases hat with
    | nil => exact absurd hcost id
    | @cons j a ids sel hj hat =>
        obtain ⟨d', hcost', rfl⟩ := hcost
        cases htiles with
        | cons hs htiles =>
            have hedge := (hg.mem_edges _).mpr (IsEdge.first hj hs)
            apply Path.cons hedge
            exact (path_from_iff hg hj).mpr ⟨ids, sel, rfl, hat, htiles, hcost'⟩

theorem reached_iff (hg : Represents ws s e cs b t g) :
    Reached g 0 (cs.length + 1) ↔ ∃ sel d, Chain ws s e (· ∈ cs) b t sel d := by
  constructor
  · rintro ⟨l, d, h⟩
    obtain ⟨-, sel, -, -, hchain⟩ := (path_iff hg).mp h
    exact ⟨sel, d, hchain⟩
  · rintro ⟨sel, d, h⟩
    obtain ⟨ids, hat⟩ := exists_at h.mem
    exact ⟨_, d, (path_iff hg).mpr ⟨ids, sel, rfl, hat, h⟩⟩

theorem lightest_of_shortest [LinearOrder W] (hg : Represents ws s e cs b t g)
    {l : List ℕ} {d : W} (h : Shortest g 0 (cs.length + 1) l d) :
    ∃ ids sel, l = ids.map (· + 1) ++ [cs.length + 1] ∧ At cs ids sel ∧
      Lightest ws s e (· ∈ cs) b t sel := by
  obtain ⟨ids, sel, rfl, hat, hchain⟩ := (path_iff hg).mp h.1
  refine ⟨ids, sel, rfl, hat, d, hchain, ?_⟩
  intro sel' d' hchain'
  obtain ⟨ids', hat'⟩ := exists_at hchain'.mem
  exact h.2 _ _ ((path_iff hg).mpr ⟨ids', sel', rfl, hat', hchain'⟩)

theorem shortest_of_lightest [LinearOrder W] (hg : Represents ws s e cs b t g)
    {sel : List α} (h : Lightest ws s e (· ∈ cs) b t sel) :
    ∃ ids d, At cs ids sel ∧
      Shortest g 0 (cs.length + 1) (ids.map (· + 1) ++ [cs.length + 1]) d := by
  obtain ⟨d, hchain, hmin⟩ := h
  obtain ⟨ids, hat⟩ := exists_at hchain.mem
  refine ⟨ids, d, hat, (path_iff hg).mpr ⟨ids, sel, rfl, hat, hchain⟩, ?_⟩
  intro l' d' hpath
  obtain ⟨-, sel', -, -, hchain'⟩ := (path_iff hg).mp hpath
  exact hmin sel' d' hchain'

omit [AddCommGroup W] in
/-- Intervals sorted by their start make a forward graph. -/
theorem forward (hg : Represents ws s e cs b t g) (hpos : Positive s e cs)
    (hsorted : cs.Pairwise (fun a a' => s a ≤ s a')) : g.Forward := by
  intro x hx
  rw [hg.num_vertices]
  cases (hg.mem_edges x).mp hx with
  | first hj =>
      have hlt := (List.getElem?_eq_some_iff.mp hj).1
      exact ⟨Nat.succ_pos _, by simp only; omega⟩
  | @inner i j a a' w hi hj hs =>
      obtain ⟨hilt, rfl⟩ := List.getElem?_eq_some_iff.mp hi
      obtain ⟨hjlt, rfl⟩ := List.getElem?_eq_some_iff.mp hj
      have hlt := hpos _ (List.getElem_mem hilt)
      refine ⟨?_, by simp only; omega⟩
      -- otherwise `a'` would not start behind `a`
      by_contra hle
      simp only [not_lt] at hle
      rcases Nat.lt_or_ge j i with hji | hji
      · have h := List.pairwise_iff_getElem.mp hsorted j i hjlt hilt hji
        omega
      · obtain rfl : i = j := by omega
        omega
  | last hi =>
      have hlt := (List.getElem?_eq_some_iff.mp hi).1
      exact ⟨by simp only; omega, by simp only; omega⟩

end Paths

end WaiNative.ChainGraph

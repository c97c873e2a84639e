import Mathlib.Algebra.Order.Group.Defs
import Mathlib.Algebra.Order.Monoid.Defs
import Mathlib.Data.Finset.Max
import Mathlib.Logic.Function.Basic
import Mathlib.Tactic.Common
import Mathlib.Tactic.Abel

/-!
# Shortest-path trees

Weighted directed graphs with numbered vertices, and what a single-source
shortest-path algorithm promises of the parent map it returns: following the
parents of a reachable vertex back leads to the source along a shortest path,
and an unreachable vertex is its own parent.

- `Labelling.tree`: locally tight labels certify a tree, so a concrete one can
  be checked by evaluation;
- `Forward` graphs, whose edges lead to higher numbers, have such trees
  (`exists_tree`), and one through every given shortest path
  (`exists_tree_through`);
- `PathTree`: without the weights, the way back is along some path. Such a tree is
  left of a search whose sums are rounded, and there is one through every given path
  (`exists_pathTree_through`).
-/

namespace WaiNative.ShortestPath

variable {W : Type*}

structure Edge (W : Type*) where
  source : ℕ
  target : ℕ
  weight : W
deriving DecidableEq

/-- A graph on the vertices `0 .. num_vertices - 1`; parallel edges are
allowed. -/
structure WGraph (W : Type*) where
  num_vertices : ℕ
  edges : List (Edge W)
deriving DecidableEq

section Paths

variable [AddCommGroup W]

/-- `Path g s v l d`: a walk from `s` to `v` that visits the vertices `l` after
`s` and has weight `d`. -/
inductive Path (g : WGraph W) (s : ℕ) : ℕ → List ℕ → W → Prop
  | nil : Path g s s [] 0
  | snoc {u v : ℕ} {l : List ℕ} {d w : W} :
      Path g s u l d → ⟨u, v, w⟩ ∈ g.edges → Path g s v (l ++ [v]) (d + w)

def Reached (g : WGraph W) (s v : ℕ) : Prop := ∃ l d, Path g s v l d

/-- An edge in front of a path. -/
theorem Path.cons {g : WGraph W} {s u v : ℕ} {l : List ℕ} {d w : W}
    (he : ⟨s, u, w⟩ ∈ g.edges) (h : Path g u v l d) :
    Path g s v (u :: l) (w + d) := by
  induction h with
  | nil =>
      have h := Path.snoc (Path.nil (g := g) (s := s)) he
      simpa [add_comm] using h
  | @snoc x v l d w' _ he' ih =>
      have h := Path.snoc ih he'
      simpa [add_assoc] using h

theorem Path.nil_eq {g : WGraph W} {s v : ℕ} {d : W} (h : Path g s v [] d) :
    s = v ∧ d = 0 := by
  generalize hl : ([] : List ℕ) = l at h
  cases h with
  | nil => exact ⟨rfl, rfl⟩
  | snoc h he => simp at hl

/-- The first edge of a path. -/
theorem Path.uncons {g : WGraph W} {s v x : ℕ} {l : List ℕ} {d : W}
    (h : Path g s v (x :: l) d) :
    ∃ w d', ⟨s, x, w⟩ ∈ g.edges ∧ Path g x v l d' ∧ d = w + d' := by
  generalize hl : x :: l = l' at h
  induction h generalizing l with
  | nil => exact absurd hl (List.cons_ne_nil _ _)
  | @snoc u v l' d w h he ih =>
      cases l' with
      | nil =>
          obtain ⟨rfl, rfl⟩ := List.cons.inj hl
          obtain ⟨rfl, rfl⟩ := h.nil_eq
          exact ⟨w, 0, he, Path.nil, by rw [zero_add, add_zero]⟩
      | cons y l' =>
          obtain ⟨rfl, rfl⟩ := List.cons.inj hl
          obtain ⟨w', d', he', hrest, rfl⟩ := ih rfl
          exact ⟨w', d' + w, he', Path.snoc hrest he, by rw [add_assoc]⟩

end Paths

/-- The vertices after `s` met on the way from `v` back to `s` along the
parents `p`, in path order. -/
inductive Follows (p : ℕ → ℕ) (s : ℕ) : ℕ → List ℕ → Prop
  | root : Follows p s s []
  | step {v : ℕ} {l : List ℕ} :
      v ≠ s → Follows p s (p v) l → Follows p s v (l ++ [v])

theorem Follows.unique {p : ℕ → ℕ} {s v : ℕ} {l l' : List ℕ}
    (h : Follows p s v l) (h' : Follows p s v l') : l = l' := by
  induction h generalizing l' with
  | root =>
      cases h' with
      | root => rfl
      | step hne _ => exact absurd rfl hne
  | step hne _ ih =>
      cases h' with
      | root => exact absurd rfl hne
      | step _ h' => rw [ih h']

/-- On the way back to the source no vertex is its own parent. -/
theorem Follows.parent_ne {p : ℕ → ℕ} {s v : ℕ} {l : List ℕ}
    (h : Follows p s v l) (hv : v ≠ s) : p v ≠ v := by
  intro hself
  cases h with
  | root => exact hv rfl
  | @step v l _ hrest =>
      rw [hself] at hrest
      have hl := hrest.unique (Follows.step hv (hself.symm ▸ hrest))
      have hlen := congrArg List.length hl
      simp at hlen

section Trees

variable [AddCommGroup W] [LinearOrder W]

/-- A path of least weight. -/
def Shortest (g : WGraph W) (s v : ℕ) (l : List ℕ) (d : W) : Prop :=
  Path g s v l d ∧ ∀ l' d', Path g s v l' d' → d ≤ d'

/-- What the parent map of a shortest-path algorithm started at `s` promises. -/
structure ShortestPathTree (g : WGraph W) (s : ℕ) (p : ℕ → ℕ) : Prop where
  reached : ∀ v < g.num_vertices, Reached g s v →
    ∃ l d, Follows p s v l ∧ Shortest g s v l d
  unreached : ∀ v < g.num_vertices, ¬ Reached g s v → p v = v

/-- What is left of it when the path need not be a lightest one. -/
structure PathTree (g : WGraph W) (s : ℕ) (p : ℕ → ℕ) : Prop where
  reached : ∀ v < g.num_vertices, Reached g s v → ∃ l d, Follows p s v l ∧ Path g s v l d
  unreached : ∀ v < g.num_vertices, ¬ Reached g s v → p v = v

theorem ShortestPathTree.pathTree {g : WGraph W} {s : ℕ} {p : ℕ → ℕ}
    (h : ShortestPathTree g s p) : PathTree g s p where
  reached := by
    intro v hv hr
    obtain ⟨l, d, hfollows, hshort⟩ := h.reached v hv hr
    exact ⟨l, d, hfollows, hshort.1⟩
  unreached := h.unreached

/-- Labels that are tight along the parents. `rank` bounds the way back. -/
structure Labelling (g : WGraph W) (s : ℕ) (p : ℕ → ℕ) (reach : ℕ → Prop)
    (dist : ℕ → W) (rank : ℕ → ℕ) : Prop where
  start : reach s ∧ dist s = 0
  relaxed : ∀ e ∈ g.edges, reach e.source →
    reach e.target ∧ dist e.target ≤ dist e.source + e.weight
  tight : ∀ v < g.num_vertices, v ≠ s → reach v →
    p v < g.num_vertices ∧ reach (p v) ∧ rank (p v) < rank v ∧
      ⟨p v, v, dist v - dist (p v)⟩ ∈ g.edges
  loose : ∀ v < g.num_vertices, ¬ reach v → p v = v

variable {g : WGraph W} {s : ℕ} {p : ℕ → ℕ} {reach : ℕ → Prop} {dist : ℕ → W}
  {rank : ℕ → ℕ}

/-- No path is lighter than the label of its end. -/
theorem Labelling.bound [IsOrderedAddMonoid W]
    (h : Labelling g s p reach dist rank) {v : ℕ} {l : List ℕ} {d : W}
    (hp : Path g s v l d) : reach v ∧ dist v ≤ d := by
  induction hp with
  | nil => exact ⟨h.start.1, h.start.2.le⟩
  | snoc _ he ih =>
      obtain ⟨hr, hle⟩ := h.relaxed _ he ih.1
      exact ⟨hr, hle.trans (by gcongr; exact ih.2)⟩

/-- Following the parents of a labelled vertex spells a path of the weight its
label says. -/
theorem Labelling.follows (h : Labelling g s p reach dist rank) {v : ℕ}
    (hv : v < g.num_vertices) (hr : reach v) :
    ∃ l, Follows p s v l ∧ Path g s v l (dist v) := by
  induction hn : rank v using Nat.strong_induction_on generalizing v with
  | _ n ih =>
      subst hn
      by_cases hvs : v = s
      · subst hvs
        exact ⟨[], Follows.root, by rw [h.start.2]; exact Path.nil⟩
      · obtain ⟨hpv, hrp, hrank, he⟩ := h.tight v hv hvs hr
        obtain ⟨l, hl, hpath⟩ := ih _ hrank hpv hrp rfl
        refine ⟨l ++ [v], Follows.step hvs hl, ?_⟩
        have hsnoc := Path.snoc hpath he
        rwa [add_sub_cancel] at hsnoc

/-- **Tight labels certify a shortest-path tree.** -/
theorem Labelling.tree [IsOrderedAddMonoid W]
    (h : Labelling g s p reach dist rank) : ShortestPathTree g s p where
  reached := by
    rintro v hv ⟨l, d, hp⟩
    obtain ⟨l', hf, hpath⟩ := h.follows hv (h.bound hp).1
    exact ⟨l', dist v, hf, hpath, fun _ _ hq => (h.bound hq).2⟩
  unreached := by
    intro v hv hn
    apply h.loose v hv
    intro hr
    obtain ⟨l, -, hpath⟩ := h.follows hv hr
    exact hn ⟨l, dist v, hpath⟩

/-- Labels of a graph all of whose vertices are reached, with parents of lower
number. -/
theorem tree_of_labels [IsOrderedAddMonoid W] (dist : ℕ → W) (hstart : dist s = 0)
    (hrelaxed : ∀ e ∈ g.edges, dist e.target ≤ dist e.source + e.weight)
    (htight : ∀ v < g.num_vertices, v ≠ s →
      p v < v ∧ ⟨p v, v, dist v - dist (p v)⟩ ∈ g.edges) :
    ShortestPathTree g s p := by
  have hlabels : Labelling g s p (fun _ => True) dist (fun v => v) :=
    { start := ⟨trivial, hstart⟩
      relaxed := fun e he _ => ⟨trivial, hrelaxed e he⟩
      tight := fun v hv hvs _ =>
        ⟨(htight v hv hvs).1.trans hv, trivial, (htight v hv hvs).1, (htight v hv hvs).2⟩
      loose := fun _ _ hn => absurd trivial hn }
  exact hlabels.tree

end Trees

/-! ## Forward graphs -/

/-- Edges lead from lower to higher numbers, inside the graph. -/
def WGraph.Forward (g : WGraph W) : Prop :=
  ∀ e ∈ g.edges, e.source < e.target ∧ e.target < g.num_vertices

section Unweighted

variable [AddCommGroup W]

/-- Without its weights, every path is a shortest one. -/
def WGraph.unweighted (g : WGraph W) : WGraph W :=
  { g with edges := g.edges.map (fun e => ⟨e.source, e.target, 0⟩) }

theorem WGraph.Forward.unweighted {g : WGraph W} (hg : g.Forward) : g.unweighted.Forward := by
  intro e he
  obtain ⟨x, hx, rfl⟩ := List.mem_map.mp he
  exact hg x hx

theorem Path.unweighted {g : WGraph W} {s v : ℕ} {l : List ℕ} {d : W}
    (h : Path g s v l d) : Path g.unweighted s v l 0 := by
  induction h with
  | nil => exact Path.nil
  | @snoc u v l d w _ he ih =>
      have hedge : ⟨u, v, 0⟩ ∈ g.unweighted.edges := List.mem_map.mpr ⟨⟨u, v, w⟩, he, rfl⟩
      have hsnoc := Path.snoc ih hedge
      rwa [add_zero] at hsnoc

theorem Path.weighted {g : WGraph W} {s v : ℕ} {l : List ℕ} {d : W}
    (h : Path g.unweighted s v l d) : d = 0 ∧ ∃ d', Path g s v l d' := by
  induction h with
  | nil => exact ⟨rfl, 0, Path.nil⟩
  | snoc _ he ih =>
      obtain ⟨e, hmem, heq⟩ := List.mem_map.mp he
      obtain ⟨rfl, rfl, rfl⟩ := Edge.mk.inj heq
      obtain ⟨rfl, d', hpath⟩ := ih
      exact ⟨add_zero 0, d' + e.weight, Path.snoc hpath hmem⟩

theorem reached_unweighted_iff {g : WGraph W} {s v : ℕ} :
    Reached g.unweighted s v ↔ Reached g s v := by
  constructor
  · rintro ⟨l, d, h⟩
    exact ⟨l, h.weighted.2⟩
  · rintro ⟨l, d, h⟩
    exact ⟨l, 0, h.unweighted⟩

variable [LinearOrder W]

theorem Path.shortest_unweighted {g : WGraph W} {s v : ℕ} {l : List ℕ} {d : W}
    (h : Path g s v l d) : Shortest g.unweighted s v l 0 :=
  ⟨h.unweighted, fun _ _ h' => h'.weighted.1.ge⟩

theorem ShortestPathTree.weighted {g : WGraph W} {s : ℕ} {p : ℕ → ℕ}
    (h : ShortestPathTree g.unweighted s p) : PathTree g s p where
  reached := by
    intro v hv hr
    obtain ⟨l, d, hfollows, hshort⟩ := h.reached v hv (reached_unweighted_iff.mpr hr)
    obtain ⟨-, d', hpath⟩ := hshort.1.weighted
    exact ⟨l, d', hfollows, hpath⟩
  unreached := fun v hv hn => h.unreached v hv (fun hr => hn (reached_unweighted_iff.mp hr))

end Unweighted

section Forward

variable [AddCommGroup W]

/-- Along a path of a forward graph the numbers increase. -/
theorem Path.lt_of_mem {g : WGraph W} (hg : g.Forward) {s v : ℕ} {l : List ℕ}
    {d : W} (h : Path g s v l d) : s ≤ v ∧ ∀ x ∈ l, s < x ∧ x ≤ v := by
  induction h with
  | nil => simp
  | @snoc u v l d w _ he ih =>
      have hlt := (hg _ he).1
      simp only at hlt
      refine ⟨by omega, ?_⟩
      intro x hx
      rcases List.mem_append.mp hx with hx | hx
      · have := ih.2 x hx
        omega
      · rw [List.mem_singleton.mp hx]
        omega

/-- Only the empty path leads back to the start. -/
theorem Path.eq_nil {g : WGraph W} (hg : g.Forward) {s : ℕ} {l : List ℕ}
    {d : W} (h : Path g s s l d) : d = 0 := by
  cases h with
  | nil => rfl
  | snoc h he =>
      have h₁ := (Path.lt_of_mem hg h).1
      have h₂ := (hg _ he).1
      simp only at h₂
      omega

variable [LinearOrder W] [IsOrderedAddMonoid W]

/-- A part of a shortest path is shortest. -/
theorem Shortest.init {g : WGraph W} {s u v : ℕ} {l : List ℕ} {d w : W}
    (h : Shortest g s v (l ++ [v]) (d + w)) (hp : Path g s u l d)
    (he : ⟨u, v, w⟩ ∈ g.edges) : Shortest g s u l d := by
  refine ⟨hp, ?_⟩
  intro l' d' hp'
  have hle := h.2 _ _ (Path.snoc hp' he)
  exact le_of_add_le_add_right hle

/-- Every reached vertex of a forward graph has a shortest path. -/
theorem exists_shortest {g : WGraph W} (hg : g.Forward) (s : ℕ) :
    ∀ v, Reached g s v → ∃ l d, Shortest g s v l d := by
  classical
  intro v
  induction v using Nat.strong_induction_on with
  | _ v ih =>
      rintro ⟨l₀, d₀, hp₀⟩
      by_cases hvs : v = s
      · subst hvs
        exact ⟨[], 0, Path.nil, fun _ _ h => (Path.eq_nil hg h).ge⟩
      -- the shortest ways in over each last edge, and the best of them
      have hshort : ∀ u, u < v → Reached g s u → ∃ d, ∃ l, Shortest g s u l d :=
        fun u hu hr => by
          obtain ⟨l, d, h⟩ := ih u hu hr
          exact ⟨d, l, h⟩
      let best : ℕ → W := fun u =>
        if h : u < v ∧ Reached g s u then (hshort u h.1 h.2).choose else 0
      have hbest : ∀ u, u < v → Reached g s u → ∃ l, Shortest g s u l (best u) := by
        intro u hu hr
        have hdef : best u = (hshort u hu hr).choose := dif_pos ⟨hu, hr⟩
        rw [hdef]
        exact (hshort u hu hr).choose_spec
      let last := g.edges.toFinset.filter
        (fun e => e.target = v ∧ Reached g s e.source)
      have hlast : last.Nonempty := by
        cases hp₀ with
        | nil => exact absurd rfl hvs
        | @snoc u _ l d w hp he =>
            exact ⟨⟨u, v, w⟩, by simp [last, he]; exact ⟨l, d, hp⟩⟩
      obtain ⟨e, he, hmin⟩ :=
        last.exists_min_image (fun e => best e.source + e.weight) hlast
      obtain ⟨hemem, hev, her⟩ : e ∈ g.edges ∧ e.target = v ∧
          Reached g s e.source := by simpa [last] using he
      have hlt : e.source < v := hev ▸ (hg e hemem).1
      obtain ⟨l, hl⟩ := hbest e.source hlt her
      refine ⟨l ++ [v], best e.source + e.weight, ?_, ?_⟩
      · subst hev
        exact Path.snoc hl.1 hemem
      · intro l' d' hp'
        cases hp' with
        | nil => exact absurd rfl hvs
        | @snoc u _ l' d' w hp he' =>
            have hr : Reached g s u := ⟨l', d', hp⟩
            have hlt' : u < v := (hg _ he').1
            have hle := hmin ⟨u, v, w⟩ (by simp [last, he', hr])
            obtain ⟨l'', hl''⟩ := hbest u hlt' hr
            exact hle.trans (by gcongr; exact hl''.2 _ _ hp)

/-- `p` steps back along shortest paths. -/
def TightParents (g : WGraph W) (s : ℕ) (p : ℕ → ℕ) : Prop :=
  (∀ v < g.num_vertices, v ≠ s → Reached g s v →
    ∃ l d w, Path g s (p v) l d ∧ ⟨p v, v, w⟩ ∈ g.edges ∧
      Shortest g s v (l ++ [v]) (d + w)) ∧
  ∀ v < g.num_vertices, ¬ Reached g s v → p v = v

/-- Tight parents of a forward graph make a shortest-path tree. -/
theorem TightParents.tree {g : WGraph W} (hg : g.Forward) {s : ℕ} {p : ℕ → ℕ}
    (hp : TightParents g s p) : ShortestPathTree g s p where
  reached := by
    intro v
    induction v using Nat.strong_induction_on with
    | _ v ih =>
        intro hv hr
        by_cases hvs : v = s
        · subst hvs
          exact ⟨[], 0, Follows.root, Path.nil,
            fun _ _ h => (Path.eq_nil hg h).ge⟩
        · obtain ⟨l, d, w, hpath, he, hsh⟩ := hp.1 v hv hvs hr
          have hlt : p v < v := (hg _ he).1
          obtain ⟨l', d', hf, hsh'⟩ := ih (p v) hlt (by omega) ⟨l, d, hpath⟩
          refine ⟨l' ++ [v], d' + w, Follows.step hvs hf,
            Path.snoc hsh'.1 he, ?_⟩
          intro l'' d'' hp''
          have hle : d' ≤ d := hsh'.2 _ _ hpath
          exact (by gcongr : d' + w ≤ d + w).trans (hsh.2 _ _ hp'')
  unreached := hp.2

theorem exists_tightParents {g : WGraph W} (hg : g.Forward) (s : ℕ) :
    ∃ p, TightParents g s p := by
  classical
  have hpar : ∀ v, ∃ u, (v ≠ s → Reached g s v →
      ∃ l d w, Path g s u l d ∧ ⟨u, v, w⟩ ∈ g.edges ∧
        Shortest g s v (l ++ [v]) (d + w)) ∧ (¬ Reached g s v → u = v) := by
    intro v
    by_cases hr : Reached g s v
    · by_cases hvs : v = s
      · exact ⟨v, fun hne => absurd hvs hne, fun hn => absurd hr hn⟩
      · obtain ⟨l, d, hsh⟩ := exists_shortest hg s v hr
        cases hpath : hsh.1 with
        | nil => exact absurd rfl hvs
        | @snoc u _ l d w hp he =>
            exact ⟨u, fun _ _ => ⟨l, d, w, hp, he, hsh⟩, fun hn => absurd hr hn⟩
    · exact ⟨v, fun _ hr' => absurd hr' hr, fun _ => rfl⟩
  choose p hp using hpar
  exact ⟨p, fun v _ => (hp v).1, fun v _ => (hp v).2⟩

/-- Every forward graph has a shortest-path tree. -/
theorem exists_tree {g : WGraph W} (hg : g.Forward) (s : ℕ) :
    ∃ p, ShortestPathTree g s p := by
  obtain ⟨p, hp⟩ := exists_tightParents hg s
  exact ⟨p, hp.tree hg⟩

/-- Changing a parent above the end of a way back does not change it. -/
theorem Follows.update {p : ℕ → ℕ} {s u v x : ℕ} {l : List ℕ}
    (h : Follows p s u l) (hl : ∀ y ∈ l, y < v) :
    Follows (Function.update p v x) s u l := by
  induction h with
  | root => exact Follows.root
  | @step y l hne h ih =>
      have hyv : y < v := hl y (by simp)
      have hpy : Function.update p v x y = p y :=
        Function.update_of_ne hyv.ne _ _
      apply Follows.step hne
      rw [hpy]
      exact ih (fun z hz => hl z (List.mem_append_left _ hz))

/-- **Every shortest path of a forward graph lies in some shortest-path
tree.** -/
theorem exists_tree_through {g : WGraph W} (hg : g.Forward) {s t : ℕ}
    {l : List ℕ} {d : W} (h : Shortest g s t l d) :
    ∃ p, ShortestPathTree g s p ∧ Follows p s t l := by
  suffices hpar : ∃ p, TightParents g s p ∧ Follows p s t l by
    obtain ⟨p, hp, hf⟩ := hpar
    exact ⟨p, hp.tree hg, hf⟩
  obtain ⟨hpath, hmin⟩ := h
  induction hpath with
  | nil =>
      obtain ⟨p, hp⟩ := exists_tightParents hg s
      exact ⟨p, hp, Follows.root⟩
  | @snoc u v l d w hp he ih =>
      have hsh : Shortest g s v (l ++ [v]) (d + w) := ⟨Path.snoc hp he, hmin⟩
      obtain ⟨p, htight, hf⟩ := ih (hsh.init hp he).2
      have hmem := (Path.lt_of_mem hg hp)
      have huv : u < v := (hg _ he).1
      refine ⟨Function.update p v u, ⟨?_, ?_⟩, ?_⟩
      · intro x hx hxs hr
        by_cases hxv : x = v
        · subst hxv
          rw [Function.update_self]
          exact ⟨l, d, w, hp, he, hsh⟩
        · rw [Function.update_of_ne hxv]
          exact htight.1 x hx hxs hr
      · intro x hx hn
        by_cases hxv : x = v
        · subst hxv
          exact absurd ⟨_, _, Path.snoc hp he⟩ hn
        · rw [Function.update_of_ne hxv]
          exact htight.2 x hx hn
      · have hvs : v ≠ s := by omega
        apply Follows.step hvs
        rw [Function.update_self]
        apply hf.update
        intro y hy
        have := hmem.2 y hy
        omega

/-! ### Any path -/

/-- **Every path of a forward graph lies in some path tree.** -/
theorem exists_pathTree_through {g : WGraph W} (hg : g.Forward) {s t : ℕ} {l : List ℕ}
    {d : W} (h : Path g s t l d) : ∃ p, PathTree g s p ∧ Follows p s t l := by
  obtain ⟨p, htree, hfollows⟩ := exists_tree_through hg.unweighted h.shortest_unweighted
  exact ⟨p, htree.weighted, hfollows⟩

/-- An algorithm whose parents lead back along edges, in every forward graph. -/
def LeadsBack (s : ℕ) (algorithm : WGraph W → ℕ → ℕ) : Prop :=
  ∀ g, g.Forward → PathTree g s (algorithm g)

theorem exists_leadsBack (s : ℕ) :
    ∃ algorithm : WGraph W → ℕ → ℕ, LeadsBack s algorithm := by
  have htree : ∀ g : WGraph W, ∃ p, g.Forward → PathTree g s p := by
    intro g
    by_cases hg : g.Forward
    · obtain ⟨p, hp⟩ := exists_tree hg s
      exact ⟨p, fun _ => hp.pathTree⟩
    · exact ⟨id, fun hn => absurd hn hg⟩
  choose algorithm halgorithm using htree
  exact ⟨algorithm, halgorithm⟩

/-- Some such algorithm finds a given path. -/
theorem exists_leadsBack_through {g : WGraph W} (hg : g.Forward) {s t : ℕ}
    {l : List ℕ} {d : W} (h : Path g s t l d) :
    ∃ algorithm : WGraph W → ℕ → ℕ, LeadsBack s algorithm ∧
      Follows (algorithm g) s t l := by
  classical
  obtain ⟨base, hbase⟩ := exists_leadsBack (W := W) s
  obtain ⟨p, htree, hfollows⟩ := exists_pathTree_through hg h
  refine ⟨Function.update base g p, ?_, by rwa [Function.update_self]⟩
  intro g' hg'
  by_cases hsame : g' = g
  · subst hsame
    rwa [Function.update_self]
  · rw [Function.update_of_ne hsame]
    exact hbase g' hg'

end Forward

end WaiNative.ShortestPath

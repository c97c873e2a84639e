import Mathlib.Data.List.Sort
import Mathlib.Data.List.Nodup
import Mathlib.Data.Prod.Lex
import Mathlib.Tactic.Common

/-!
# Ordered multimaps

`std::multimap` as the list of its elements in iteration order; `key` reads
the key off an element. `insert` places a newcomer at the upper bound of its
equal range, so elements with equal keys stay in insertion order.

When every newcomer is larger than its equals in a second measure `tie`, the
iteration order is strict in `(key, tie)` (`insert_ordered`), and a strictly
ordered multimap is a function of its set of elements (`ordered_ext`): the
route by which it was filled does not matter.
-/

namespace WaiNative.Cxx.Multimap

variable {α κ τ : Type*} [LinearOrder κ]

section Operations

variable (key : α → κ)

/-- `m.insert(x)`: behind the last element whose key is not larger. -/
def insert (x : α) (m : List α) : List α :=
  m.orderedInsert (fun a b => key a < key b) x

/-- Insert one after the other. -/
def insertAll (xs : List α) (m : List α) : List α :=
  xs.foldl (fun m x => insert key x m) m

/-- `m.equal_range(k)`. -/
def equalRange (k : κ) (m : List α) : List α :=
  m.filter (fun x => decide (key x = k))

/-- The iteration order: keys never decrease. -/
def Sorted (m : List α) : Prop := m.Pairwise (fun a b => key a ≤ key b)

end Operations

variable {key : α → κ}

/-! ## Insertion -/

/-- In front of a larger key. -/
theorem insert_of_lt {x y : α} {m : List α} (h : key x < key y) :
    insert key x (y :: m) = x :: y :: m := by
  simp [insert, h]

/-- Behind a key that is not larger. -/
theorem insert_of_le {x y : α} {m : List α} (h : key y ≤ key x) :
    insert key x (y :: m) = y :: insert key x m := by
  simp [insert, not_lt.mpr h]

theorem insert_perm (x : α) (m : List α) : (insert key x m).Perm (x :: m) :=
  List.perm_orderedInsert _ x m

theorem mem_insert {x y : α} {m : List α} :
    y ∈ insert key x m ↔ y = x ∨ y ∈ m := by
  rw [(insert_perm x m).mem_iff, List.mem_cons]

theorem insertAll_perm : ∀ (xs m : List α), (insertAll key xs m).Perm (m ++ xs)
  | [], m => by simp [insertAll]
  | x :: xs, m => by
      refine (insertAll_perm xs (insert key x m)).trans ?_
      refine ((insert_perm x m).append_right xs).trans ?_
      exact List.perm_middle.symm

theorem mem_insertAll {xs m : List α} {y : α} :
    y ∈ insertAll key xs m ↔ y ∈ m ∨ y ∈ xs := by
  rw [(insertAll_perm xs m).mem_iff, List.mem_append]

/-- A key at least as large as all present is inserted at the end. -/
theorem insert_last {x : α} : ∀ {m : List α}, (∀ y ∈ m, key y ≤ key x) →
    insert key x m = m ++ [x]
  | [], _ => rfl
  | y :: m, h => by
      have ih := insert_last (fun z hz => h z (List.mem_cons_of_mem _ hz))
      rw [insert_of_le (h y List.mem_cons_self), ih, List.cons_append]

/-- Among larger keys only, insertion happens in front of them. -/
theorem insert_append_right {x : α} {r : List α} (hr : ∀ y ∈ r, key x < key y) :
    ∀ m : List α, insert key x (m ++ r) = insert key x m ++ r
  | [] => by
      cases r with
      | nil => rfl
      | cons y r => exact insert_of_lt (hr y List.mem_cons_self)
  | y :: m => by
      by_cases hy : key x < key y
      · rw [List.cons_append, insert_of_lt hy, insert_of_lt hy, List.cons_append,
          List.cons_append]
      · rw [List.cons_append, insert_of_le (not_lt.mp hy), insert_append_right hr m,
          insert_of_le (not_lt.mp hy), List.cons_append]

/-- Behind keys that are not larger, insertion happens in the rest. -/
theorem insert_append_left {x : α} {m : List α} : ∀ {l : List α},
    (∀ y ∈ l, key y ≤ key x) →
    insert key x (l ++ m) = l ++ insert key x m
  | [], _ => rfl
  | y :: l, h => by
      have ih := insert_append_left (m := m)
        (fun z hz => h z (List.mem_cons_of_mem _ hz))
      rw [List.cons_append, insert_of_le (h y List.mem_cons_self), ih, List.cons_append]

theorem insertAll_append_left {l : List α} : ∀ {xs m : List α},
    (∀ y ∈ l, ∀ x ∈ xs, key y ≤ key x) →
    insertAll key xs (l ++ m) = l ++ insertAll key xs m
  | [], _, _ => rfl
  | x :: xs, m, h => by
      have hx : ∀ y ∈ l, key y ≤ key x := fun y hy => h y hy x List.mem_cons_self
      show insertAll key xs (insert key x (l ++ m)) = _
      rw [insert_append_left hx, insertAll_append_left
        (fun y hy z hz => h y hy z (List.mem_cons_of_mem _ hz))]
      rfl

/-- Sorted elements with keys at least as large as those present are appended
in order. -/
theorem insertAll_sorted : ∀ {xs m : List α}, Sorted key (m ++ xs) →
    insertAll key xs m = m ++ xs
  | [], m, _ => by simp [insertAll]
  | x :: xs, m, h => by
      have hlast : insert key x m = m ++ [x] :=
        insert_last (fun y hy => (List.pairwise_append.mp h).2.2 y hy x
          List.mem_cons_self)
      show insertAll key xs (insert key x m) = _
      have hsorted : Sorted key ((m ++ [x]) ++ xs) := by simpa using h
      rw [hlast, insertAll_sorted hsorted]
      simp

theorem insert_sorted {x : α} : ∀ {m : List α}, Sorted key m →
    Sorted key (insert key x m)
  | [], _ => List.pairwise_singleton _ _
  | y :: m, h => by
      obtain ⟨hy, hm⟩ := List.pairwise_cons.mp h
      have ih := insert_sorted (x := x) hm
      by_cases hxy : key x < key y
      · rw [insert_of_lt hxy]
        refine List.pairwise_cons.mpr ⟨?_, h⟩
        rintro z (_ | ⟨_, hz⟩)
        · exact hxy.le
        · exact hxy.le.trans (hy z hz)
      · rw [insert_of_le (not_lt.mp hxy)]
        refine List.pairwise_cons.mpr ⟨?_, ih⟩
        intro z hz
        rcases mem_insert.mp hz with rfl | hz
        · exact not_lt.mp hxy
        · exact hy z hz

/-! ## The order of insertion -/

/-- Elements with different keys may be inserted in either order. -/
theorem insert_comm {x y : α} (h : key x < key y) : ∀ m : List α,
    insert key y (insert key x m) = insert key x (insert key y m)
  | [] => by
      show insert key y [x] = insert key x [y]
      rw [insert_of_le h.le, insert_of_lt h]
      rfl
  | z :: m => by
      by_cases hx : key x < key z
      · rw [insert_of_lt hx, insert_of_le h.le]
        by_cases hy : key y < key z
        · rw [insert_of_lt hy, insert_of_lt h]
        · rw [insert_of_le (not_lt.mp hy), insert_of_lt hx]
      · have hz := not_lt.mp hx
        rw [insert_of_le hz, insert_of_le (hz.trans h.le), insert_of_le (hz.trans h.le),
          insert_of_le hz, insert_comm h m]

theorem insertAll_insert {x : α} : ∀ {l : List α}, Sorted key l → ∀ m : List α,
    insertAll key (insert key x l) m = insert key x (insertAll key l m)
  | [], _, _ => rfl
  | y :: l, h, m => by
      obtain ⟨hy, hl⟩ := List.pairwise_cons.mp h
      by_cases hxy : key x < key y
      · -- everything in `l` has a larger key than `x`
        have hafter : ∀ (l m : List α), (∀ z ∈ l, key x < key z) →
            insertAll key l (insert key x m) = insert key x (insertAll key l m) := by
          intro l
          induction l with
          | nil => exact fun _ _ => rfl
          | cons z l ih =>
              intro m hz
              have hrest := ih (insert key z m) (fun w hw => hz w (List.mem_cons_of_mem _ hw))
              show insertAll key l (insert key z (insert key x m)) = _
              rw [insert_comm (hz z List.mem_cons_self), hrest]
              rfl
        rw [insert_of_lt hxy]
        apply hafter (y :: l) m
        rintro z (_ | ⟨_, hz⟩)
        · exact hxy
        · exact hxy.trans_le (hy z hz)
      · rw [insert_of_le (not_lt.mp hxy)]
        exact insertAll_insert hl (insert key y m)

/-- Elements that were collected in a multimap first are inserted all the same. -/
theorem insertAll_insertAll : ∀ (xs : List α) {l : List α}, Sorted key l → ∀ m : List α,
    insertAll key (insertAll key xs l) m = insertAll key xs (insertAll key l m)
  | [], _, _, _ => rfl
  | x :: xs, l, h, m => by
      show insertAll key (insertAll key xs (insert key x l)) m = _
      rw [insertAll_insertAll xs (insert_sorted h), insertAll_insert h]
      rfl

/-! ## Strict order -/

section Strict

variable [LinearOrder τ] {tie : α → τ}

/-- `a` comes before `b` in a multimap whose equal keys are ordered by
`tie`. -/
def Before (key : α → κ) (tie : α → τ) (a b : α) : Prop :=
  key a < key b ∨ (key a = key b ∧ tie a < tie b)

theorem Before.trans {a b c : α} (h : Before key tie a b)
    (h' : Before key tie b c) : Before key tie a c := by
  rcases h with h | ⟨h, ht⟩ <;> rcases h' with h' | ⟨h', ht'⟩
  · exact Or.inl (h.trans h')
  · exact Or.inl (h' ▸ h)
  · exact Or.inl (h ▸ h')
  · exact Or.inr ⟨h.trans h', ht.trans ht'⟩

theorem Before.irrefl (a : α) : ¬ Before key tie a a := by
  rintro (h | ⟨-, h⟩)
  · exact lt_irrefl _ h
  · exact lt_irrefl _ h

theorem Before.le {a b : α} (h : Before key tie a b) : key a ≤ key b := by
  rcases h with h | ⟨h, -⟩
  · exact h.le
  · exact h.le

/-- Strictly ordered by `(key, tie)`. -/
def Ordered (key : α → κ) (tie : α → τ) (m : List α) : Prop :=
  m.Pairwise (Before key tie)

theorem Ordered.sorted {m : List α} (h : Ordered key tie m) : Sorted key m :=
  List.Pairwise.imp Before.le h

theorem Ordered.nodup {m : List α} (h : Ordered key tie m) : m.Nodup :=
  List.Pairwise.imp (fun {a b} (hab : Before key tie a b) (heq : a = b) =>
    Before.irrefl b (heq ▸ hab)) h

theorem Before.ne {a b : α} (h : Before key tie a b) (hk : key a = key b) :
    tie a ≠ tie b := by
  rcases h with h | ⟨-, h⟩
  · exact absurd hk h.ne
  · exact h.ne

/-- Two elements of an ordered multimap with equal key and tie are one. -/
theorem Ordered.unique : ∀ {m : List α}, Ordered key tie m → ∀ {a b : α},
    a ∈ m → b ∈ m → key a = key b → tie a = tie b → a = b
  | x :: m, h, a, b, ha, hb, hk, ht => by
      obtain ⟨hx, hm⟩ := List.pairwise_cons.mp h
      rcases List.mem_cons.mp ha with ha' | ha' <;>
        rcases List.mem_cons.mp hb with hb' | hb'
      · rw [ha', hb']
      · exact absurd ht ((ha' ▸ hx b hb').ne hk)
      · exact absurd ht.symm ((hb' ▸ hx a ha').ne hk.symm)
      · exact Ordered.unique hm ha' hb' hk ht

/-- A newcomer that is larger than its equals keeps the order strict. -/
theorem insert_ordered {x : α} : ∀ {m : List α}, Ordered key tie m →
    (∀ y ∈ m, key y = key x → tie y < tie x) →
    Ordered key tie (insert key x m)
  | [], _, _ => List.pairwise_singleton _ _
  | y :: m, h, hx => by
      obtain ⟨hy, hm⟩ := List.pairwise_cons.mp h
      by_cases hxy : key x < key y
      · rw [insert_of_lt hxy]
        refine List.pairwise_cons.mpr ⟨?_, h⟩
        rintro z (_ | ⟨_, hz⟩)
        · exact Or.inl hxy
        · exact Or.inl (hxy.trans_le (hy z hz).le)
      · rw [insert_of_le (not_lt.mp hxy)]
        refine List.pairwise_cons.mpr ⟨?_, insert_ordered hm
          (fun z hz => hx z (List.mem_cons_of_mem _ hz))⟩
        intro z hz
        rcases mem_insert.mp hz with rfl | hz
        · rcases (not_lt.mp hxy).lt_or_eq with hlt | heq'
          · exact Or.inl hlt
          · exact Or.inr ⟨heq', hx y List.mem_cons_self heq'⟩
        · exact hy z hz

/-- Filling a multimap with elements whose equals arrive in `tie` order. -/
theorem insertAll_ordered : ∀ {xs m : List α}, Ordered key tie m →
    xs.Pairwise (fun a b => key a = key b → tie a < tie b) →
    (∀ y ∈ m, ∀ x ∈ xs, key y = key x → tie y < tie x) →
    Ordered key tie (insertAll key xs m)
  | [], _, h, _, _ => h
  | x :: xs, m, h, hxs, hmx => by
      obtain ⟨hx, hxs'⟩ := List.pairwise_cons.mp hxs
      show Ordered key tie (insertAll key xs (insert key x m))
      apply insertAll_ordered
        (insert_ordered h (fun y hy => hmx y hy x List.mem_cons_self)) hxs'
      intro y hy z hz
      rcases mem_insert.mp hy with rfl | hy
      · exact hx z hz
      · exact hmx y hy z (List.mem_cons_of_mem _ hz)

/-- Behind an element comes its neighbour, and the rest behind that. -/
theorem Ordered.neighbour {m : List α} (h : Ordered key tie m) {a b : α}
    (hab : [a, b] <:+: m) : ∀ x ∈ m, Before key tie a x → x = b ∨ Before key tie b x := by
  obtain ⟨l, r, rfl⟩ := hab
  intro x hx hax
  obtain ⟨hl, -, -⟩ := List.pairwise_append.mp h
  obtain ⟨-, hab, hcross⟩ := List.pairwise_append.mp hl
  rcases List.mem_append.mp hx with hx | hx
  · rcases List.mem_append.mp hx with hx | hx
    · have hxa := hcross x hx a (by simp)
      exact absurd (hax.trans hxa) (Before.irrefl a)
    · rcases List.mem_cons.mp hx with rfl | hx
      · exact absurd hax (Before.irrefl x)
      · exact Or.inl (List.mem_singleton.mp hx)
  · exact Or.inr ((List.pairwise_append.mp h).2.2 b (by simp) x hx)

/-- Every element but the last has a neighbour. -/
theorem Ordered.exists_neighbour {m : List α} (h : Ordered key tie m) {a x : α}
    (ha : a ∈ m) (hx : x ∈ m) (hax : Before key tie a x) : ∃ b, [a, b] <:+: m := by
  obtain ⟨l, r, rfl⟩ := List.append_of_mem ha
  obtain ⟨-, har, hcross⟩ := List.pairwise_append.mp h
  cases r with
  | nil =>
      rcases List.mem_append.mp hx with hx | hx
      · exact absurd (hax.trans (hcross x hx a (by simp))) (Before.irrefl a)
      · rw [List.mem_singleton.mp hx] at hax
        exact absurd hax (Before.irrefl a)
  | cons b r => exact ⟨b, l, r, by simp⟩

end Strict

/-! ## Equal ranges -/

theorem mem_equalRange {k : κ} {m : List α} {x : α} :
    x ∈ equalRange key k m ↔ x ∈ m ∧ key x = k := by
  simp [equalRange]

end WaiNative.Cxx.Multimap

import Mathlib.Data.List.Nodup
import Mathlib.Data.List.Count
import Mathlib.Data.Nat.Notation
import Mathlib.Tactic.Common

/-!
# Objects as maps

A JavaScript object used as a map: its own properties in insertion order, each
key once. Assigning to a key the object has keeps its place, a new key goes to
the end, and `delete` leaves the order of the others. Nothing here knows of words.

- `get?_set`, `get?_delete`: reading after writing;
- `count`: an object of counters read with `0` for a missing key, and what
  counting a list (`count_foldl_tally`) and adding up objects
  (`count_foldl_addTo`) do to it.
-/

namespace WaiNative

/-- The own properties of an object, in insertion order. -/
structure JsObject (κ ν : Type) where
  entries : List (κ × ν)
  nodup : (entries.map Prod.fst).Nodup

namespace JsObject

section Maps

variable {κ ν : Type} [DecidableEq κ]

/-- `{}` -/
def empty : JsObject κ ν := ⟨[], List.nodup_nil⟩

/-- `Object.keys(o)`, and the order of `for(let key in o)`. -/
def keys (o : JsObject κ ν) : List κ := o.entries.map Prod.fst

/-- `o[k]`; `none` is `undefined`. -/
def get? (o : JsObject κ ν) (k : κ) : Option ν := o.entries.lookup k

/-- Overwrite in place, or append. -/
def setEntry (k : κ) (v : ν) : List (κ × ν) → List (κ × ν)
  | [] => [(k, v)]
  | e :: es => if e.1 = k then (k, v) :: es else e :: setEntry k v es

theorem mem_keys_setEntry {k k' : κ} {v : ν} : ∀ {es : List (κ × ν)},
    k' ∈ (setEntry k v es).map Prod.fst → k' = k ∨ k' ∈ es.map Prod.fst
  | [] => by simp [setEntry]
  | e :: es => by
      rw [setEntry]
      split
      · rename_i he
        subst he
        intro h
        exact Or.inr h
      · rw [List.map_cons, List.map_cons, List.mem_cons, List.mem_cons]
        rintro (rfl | h)
        · exact Or.inr (Or.inl rfl)
        · exact (mem_keys_setEntry h).imp_right Or.inr

theorem nodup_setEntry {k : κ} {v : ν} : ∀ {es : List (κ × ν)},
    (es.map Prod.fst).Nodup → ((setEntry k v es).map Prod.fst).Nodup
  | [] => fun _ => by simp [setEntry]
  | e :: es => by
      intro h
      obtain ⟨hnot, hes⟩ := List.nodup_cons.mp h
      rw [setEntry]
      split
      · rename_i he
        subst he
        exact h
      · rename_i he
        refine List.nodup_cons.mpr ⟨?_, nodup_setEntry hes⟩
        intro hmem
        rcases mem_keys_setEntry hmem with heq | hmem
        · exact he heq
        · exact hnot hmem

/-- `o[k] = v` -/
def set (o : JsObject κ ν) (k : κ) (v : ν) : JsObject κ ν :=
  ⟨setEntry k v o.entries, nodup_setEntry o.nodup⟩

/-- `delete o[k]` -/
def delete (o : JsObject κ ν) (k : κ) : JsObject κ ν :=
  ⟨o.entries.filter (fun e => e.1 ≠ k), o.nodup.sublist (List.filter_sublist.map _)⟩

theorem lookup_cons_ne {k : κ} {e : κ × ν} (h : k ≠ e.1) (es : List (κ × ν)) :
    (e :: es).lookup k = es.lookup k := by
  rw [List.lookup_cons, beq_false_of_ne h]

theorem lookup_cons_eq {k : κ} {e : κ × ν} (h : k = e.1) (es : List (κ × ν)) :
    (e :: es).lookup k = some e.2 := by
  rw [h]
  exact List.lookup_cons_self

theorem lookup_of_notMem {k : κ} {es : List (κ × ν)} (h : k ∉ es.map Prod.fst) :
    es.lookup k = none := by
  rw [List.lookup_eq_none_iff]
  intro e he
  rw [bne_iff_ne]
  rintro rfl
  exact h (List.mem_map_of_mem he)

@[simp] theorem get?_empty (k : κ) : (empty : JsObject κ ν).get? k = none := rfl

theorem lookup_setEntry (k k' : κ) (v : ν) : ∀ es : List (κ × ν),
    (setEntry k v es).lookup k' = if k' = k then some v else es.lookup k'
  | [] => by
      by_cases hk : k' = k
      · simp [setEntry, hk]
      · rw [setEntry, lookup_cons_ne hk, if_neg hk]
  | e :: es => by
      rw [setEntry]
      by_cases he : e.1 = k
      · rw [if_pos he]
        by_cases hk : k' = k
        · simp [hk]
        · have hne : k' ≠ e.1 := fun h => hk (h.trans he)
          rw [lookup_cons_ne hk, lookup_cons_ne hne, if_neg hk]
      · rw [if_neg he]
        have ih := lookup_setEntry k k' v es
        by_cases hk' : k' = e.1
        · have hne : k' ≠ k := fun h => he (hk'.symm.trans h)
          rw [lookup_cons_eq hk', lookup_cons_eq hk', if_neg hne]
        · rw [lookup_cons_ne hk', lookup_cons_ne hk', ih]

/-- Reading after an assignment. -/
theorem get?_set (o : JsObject κ ν) (k k' : κ) (v : ν) :
    (o.set k v).get? k' = if k' = k then some v else o.get? k' :=
  lookup_setEntry k k' v o.entries

theorem lookup_filter (k k' : κ) : ∀ es : List (κ × ν),
    (es.filter (fun e => e.1 ≠ k)).lookup k' = if k' = k then none else es.lookup k'
  | [] => by simp
  | e :: es => by
      have ih := lookup_filter k k' es
      by_cases he : e.1 = k
      · rw [List.filter_cons_of_neg (by simpa using he), ih]
        by_cases hk : k' = k
        · rw [if_pos hk, if_pos hk]
        · have hne : k' ≠ e.1 := fun h => hk (h.trans he)
          rw [if_neg hk, if_neg hk, lookup_cons_ne hne]
      · rw [List.filter_cons_of_pos (by simpa using he)]
        by_cases hk' : k' = e.1
        · have hne : k' ≠ k := fun h => he (hk'.symm.trans h)
          rw [lookup_cons_eq hk', lookup_cons_eq hk', if_neg hne]
        · rw [lookup_cons_ne hk', lookup_cons_ne hk', ih]

/-- Reading after a deletion. -/
theorem get?_delete (o : JsObject κ ν) (k k' : κ) :
    (o.delete k).get? k' = if k' = k then none else o.get? k' :=
  lookup_filter k k' o.entries

theorem lookup_of_mem {k : κ} {v : ν} : ∀ {es : List (κ × ν)},
    (es.map Prod.fst).Nodup → (k, v) ∈ es → es.lookup k = some v
  | [] => fun _ h => absurd h List.not_mem_nil
  | e :: es => by
      intro hnodup hmem
      obtain ⟨hnot, hes⟩ := List.nodup_cons.mp hnodup
      rcases List.mem_cons.mp hmem with rfl | hmem
      · simp
      · have hne : k ≠ e.1 := by
          intro heq
          exact hnot (heq ▸ List.mem_map_of_mem (f := Prod.fst) hmem)
        rw [lookup_cons_ne hne, lookup_of_mem hes hmem]

theorem get?_of_mem {o : JsObject κ ν} {e : κ × ν} (he : e ∈ o.entries) :
    o.get? e.1 = some e.2 := lookup_of_mem o.nodup he

theorem mem_keys_iff {o : JsObject κ ν} {k : κ} : k ∈ o.keys ↔ (o.get? k).isSome = true := by
  constructor
  · intro h
    obtain ⟨e, he, rfl⟩ := List.mem_map.mp h
    rw [get?_of_mem he]
    rfl
  · intro h
    by_contra hnot
    rw [get?, lookup_of_notMem hnot] at h
    exact absurd h (by simp)

end Maps

/-! ## Objects of counters -/

section Counters

variable {κ : Type} [DecidableEq κ]

/-- The counter of a key, `0` when it has none. -/
def count (o : JsObject κ ℕ) (k : κ) : ℕ := (o.get? k).getD 0

/-- No counter stands at `0`. -/
def Positive (o : JsObject κ ℕ) : Prop := ∀ k, o.get? k ≠ some 0

theorem Positive.get? {o : JsObject κ ℕ} (h : o.Positive) (k : κ) :
    o.get? k = if o.count k = 0 then none else some (o.count k) := by
  rw [count]
  cases hk : o.get? k with
  | none => simp
  | some n =>
      have hn : n ≠ 0 := by
        rintro rfl
        exact h k hk
      simp [hn]

theorem Positive.get?_eq_iff {o : JsObject κ ℕ} (h : o.Positive) (k k' : κ) :
    o.get? k = o.get? k' ↔ o.count k = o.count k' := by
  constructor
  · intro heq
    rw [count, count, heq]
  · intro heq
    rw [h.get? k, h.get? k', heq]

theorem mem_keys_of_count {o : JsObject κ ℕ} {k : κ} (h : o.count k ≠ 0) : k ∈ o.keys := by
  rw [mem_keys_iff]
  by_contra hnone
  rw [Option.not_isSome_iff_eq_none] at hnone
  exact h (by rw [count, hnone]; rfl)

theorem positive_empty : (empty : JsObject κ ℕ).Positive := fun k => by simp

theorem Positive.set {o : JsObject κ ℕ} (h : o.Positive) {k : κ} {n : ℕ} (hn : n ≠ 0) :
    (o.set k n).Positive := by
  intro k'
  rw [get?_set]
  split
  · simpa using hn
  · exact h k'

theorem Positive.delete {o : JsObject κ ℕ} (h : o.Positive) (k : κ) : (o.delete k).Positive := by
  intro k'
  rw [get?_delete]
  split
  · simp
  · exact h k'

@[simp] theorem count_empty (k : κ) : (empty : JsObject κ ℕ).count k = 0 := rfl

theorem count_set (o : JsObject κ ℕ) (k k' : κ) (n : ℕ) :
    (o.set k n).count k' = if k' = k then n else o.count k' := by
  rw [count, get?_set]
  split <;> rfl

theorem count_delete (o : JsObject κ ℕ) (k k' : κ) :
    (o.delete k).count k' = if k' = k then 0 else o.count k' := by
  rw [count, get?_delete]
  split <;> rfl

/-- `if(o[k]) { o[k]++; } else { o[k] = 1; }` -/
def tally (o : JsObject κ ℕ) (k : κ) : JsObject κ ℕ :=
  match o.get? k with
  | some n => if n ≠ 0 then o.set k (n + 1) else o.set k 1
  | none => o.set k 1

theorem tally_eq (o : JsObject κ ℕ) (k : κ) : o.tally k = o.set k (o.count k + 1) := by
  rw [tally, count]
  cases o.get? k with
  | none => rfl
  | some n => cases n <;> rfl

/-- Tallying a list adds how often each key is in it. -/
theorem count_foldl_tally [BEq κ] [LawfulBEq κ] (k : κ) : ∀ (l : List κ) (o : JsObject κ ℕ),
    (l.foldl tally o).count k = o.count k + l.count k
  | [], o => by simp
  | a :: l, o => by
      rw [List.foldl_cons, count_foldl_tally k l, tally_eq, count_set, List.count_cons]
      by_cases hk : k = a
      · subst hk
        simp
        omega
      · simp [hk, Ne.symm hk]

theorem Positive.foldl_tally : ∀ (l : List κ) {o : JsObject κ ℕ}, o.Positive →
    (l.foldl tally o).Positive
  | [], _, h => h
  | a :: l, o, h => by
      rw [List.foldl_cons, tally_eq]
      exact Positive.foldl_tally l (h.set (Nat.succ_ne_zero _))

/-- `if(typeof o[k] === 'number') { o[k] += n; } else { o[k] = n; }` -/
def addTo (o : JsObject κ ℕ) (e : κ × ℕ) : JsObject κ ℕ :=
  match o.get? e.1 with
  | some n => o.set e.1 (n + e.2)
  | none => o.set e.1 e.2

theorem addTo_eq (o : JsObject κ ℕ) (e : κ × ℕ) :
    o.addTo e = o.set e.1 (o.count e.1 + e.2) := by
  rw [addTo, count]
  cases o.get? e.1 with
  | none => simp
  | some n => rfl

/-- Adding an object key by key adds its counters. -/
theorem count_foldl_addTo (o c : JsObject κ ℕ) (k : κ) :
    (c.entries.foldl addTo o).count k = o.count k + c.count k := by
  have hes : ∀ (es : List (κ × ℕ)) (o : JsObject κ ℕ), (es.map Prod.fst).Nodup →
      (es.foldl addTo o).count k = o.count k + (es.lookup k).getD 0 := by
    intro es
    induction es with
    | nil => simp
    | cons e es ih =>
        intro o hnodup
        obtain ⟨hnot, hes⟩ := List.nodup_cons.mp hnodup
        rw [List.foldl_cons, ih _ hes, addTo_eq, count_set]
        by_cases hk : k = e.1
        · -- the key is not met again
          subst hk
          rw [if_pos rfl, lookup_of_notMem hnot, List.lookup_cons_self]
          rfl
        · rw [if_neg hk, lookup_cons_ne hk]
  exact hes c.entries o c.nodup

theorem Positive.foldl_addTo {o c : JsObject κ ℕ} (ho : o.Positive) (hc : c.Positive) :
    (c.entries.foldl addTo o).Positive := by
  have hes : ∀ es : List (κ × ℕ), (∀ e ∈ es, e.2 ≠ 0) → ∀ o : JsObject κ ℕ, o.Positive →
      (es.foldl addTo o).Positive := by
    intro es
    induction es with
    | nil => exact fun _ _ ho => ho
    | cons e es ih =>
        intro hne o ho
        obtain ⟨he, hes⟩ := List.forall_mem_cons.mp hne
        rw [List.foldl_cons, addTo_eq]
        exact ih hes _ (ho.set (by omega))
  apply hes c.entries _ o ho
  rintro e he hzero
  exact hc e.1 (by rw [get?_of_mem he, hzero])

end Counters

end JsObject

end WaiNative

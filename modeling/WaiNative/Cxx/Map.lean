import Mathlib.Tactic.Common
import Std.Data.TreeMap.Lemmas

/-!
# Ordered maps

`std::map` as `Std.TreeMap`: loops that go over entries and write under their keys.

- `getElem?_foldl_insert`: what stands under a key afterwards;
- `mem_foldl_insert`: a loop over keys that are there adds none.
-/

namespace WaiNative.Cxx.Map

variable {α κ β : Type} [Ord α] [Std.TransOrd α] [Std.LawfulEqOrd α]

/-- The keys of the entries in order are the keys. -/
theorem mem_iff_exists_toList {m : Std.TreeMap α β} {w : α} :
    w ∈ m ↔ w ∈ m.toList.map Prod.fst := by
  rw [Std.TreeMap.map_fst_toList_eq_keys, Std.TreeMap.mem_keys]

/-- Writing under the key of each entry a value that depends on the key alone. -/
theorem getElem?_foldl_insert [DecidableEq α] {f : α × κ → β} (F : α → β) (w : α) :
    ∀ (l : List (α × κ)) (m : Std.TreeMap α β), (∀ r ∈ l, f r = F r.1) →
      (l.foldl (fun m r => m.insert r.1 (f r)) m)[w]? =
        if w ∈ l.map Prod.fst then some (F w) else m[w]?
  | [], m => by simp
  | r :: l, m => by
      intro hf
      obtain ⟨hr, hl⟩ := List.forall_mem_cons.mp hf
      rw [List.foldl_cons, getElem?_foldl_insert F w l _ hl, Std.TreeMap.getElem?_insert, hr]
      by_cases hmem : w ∈ l.map Prod.fst
      · simp [hmem]
      · by_cases hw : r.1 = w
        · simp [hw]
        · have hw' : ¬ w = r.1 := fun h => hw h.symm
          simp [hmem, hw, hw']

/-- Writing to keys that a map has leaves its keys. -/
theorem mem_foldl_insert {f : α × κ → β} {w : α} : ∀ {l : List (α × κ)}
    {m : Std.TreeMap α β}, (∀ r ∈ l, r.1 ∈ m) →
      (w ∈ l.foldl (fun m r => m.insert r.1 (f r)) m ↔ w ∈ m)
  | [], m => fun _ => Iff.rfl
  | r :: l, m => by
      intro hkeys
      obtain ⟨hr, hl⟩ := List.forall_mem_cons.mp hkeys
      rw [List.foldl_cons, mem_foldl_insert (fun x hx => Std.TreeMap.mem_insert.mpr
        (Or.inr (hl x hx))), Std.TreeMap.mem_insert, Std.LawfulEqCmp.compare_eq_iff_eq]
      constructor
      · rintro (rfl | h)
        · exact hr
        · exact h
      · exact Or.inr

end WaiNative.Cxx.Map

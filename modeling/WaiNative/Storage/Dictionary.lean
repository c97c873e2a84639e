import WaiNative.Storage.MasterDBWord
import WaiNative.Segment.Selection
import Mathlib.Algebra.Order.BigOperators.Group.List

/-!
# Counts through the dictionary

What a history of `putWord` calls leaves in a dictionary, and how much of it the
readers get back. The writer adds in 64 bits (`getElem?_history`); the readers
parse an `int`, so the counts are read back exactly when every word's total fits
one (`readsBack_iff`).
-/

namespace WaiNative

open Cxx MasterDBWord

/-- Calls of `putWord`, in order. -/
abbrev History := List (Str × ℤ)

/-- The counters are positive and of the type `int`. -/
def History.Valid (puts : History) : Prop := ∀ p ∈ puts, 0 < p.2 ∧ p.2 ≤ INT_MAX

/-- The sum of a word's counters. -/
def History.total (puts : History) (word : Str) : ℤ :=
  ((puts.filter (fun p => p.1 = word)).map Prod.snd).sum

/-- The words of the calls. -/
def History.words (puts : History) : List Str := puts.map Prod.fst

/-- The dictionary behind the calls. -/
def History.dictionary (puts : History) : LevelDB :=
  puts.foldl (fun save_ p => DictionaryStorage.putWord save_ p.1 p.2) ∅

section Writer

variable {puts : History}

theorem total_append (puts : History) (p : Str × ℤ) (w : Str) :
    History.total (puts ++ [p]) w = puts.total w + if p.1 = w then p.2 else 0 := by
  by_cases h : p.1 = w <;> simp [History.total, h]

theorem total_eq_zero {w : Str} (hw : w ∉ puts.words) : puts.total w = 0 := by
  have hnone : puts.filter (fun p => p.1 = w) = [] := by
    apply List.filter_eq_nil_iff.mpr
    intro p hp heq
    exact hw (List.mem_map.mpr ⟨p, hp, by simpa using heq⟩)
  rw [History.total, hnone]
  rfl

theorem total_pos (h : puts.Valid) {w : Str} (hw : w ∈ puts.words) : 0 < puts.total w := by
  obtain ⟨p, hp, rfl⟩ := List.mem_map.mp hw
  apply List.sum_pos
  · intro n hn
    obtain ⟨q, hq, rfl⟩ := List.mem_map.mp hn
    exact (h q (List.mem_of_mem_filter hq)).1
  · have hmem : p ∈ puts.filter (fun q => q.1 = p.1) := List.mem_filter.mpr ⟨hp, by simp⟩
    simpa using List.ne_nil_of_mem hmem

/-- A total as the writer keeps it, in 64 bits. -/
def wrapped (n : ℤ) : ℤ := n.bmod twoPow64

theorem wrapped_eq {n : ℤ} (hlo : 0 ≤ n) (hhi : n ≤ INT_MAX) : wrapped n = n := by
  apply Int.bmod_eq_of_le
  · unfold twoPow64
    omega
  · unfold twoPow64 INT_MAX at *
    omega

/-- One more counter on a stored total. -/
theorem putWord_stored (counter total : ℤ) :
    (stoull (to_string (wrapped total))).map (addUnsigned counter) =
      some (wrapped (counter + total)) := by
  have hlo : -(twoPow64 : ℤ) < wrapped total := by
    have hle := Int.le_bmod (x := total) (m := twoPow64) (by decide)
    unfold wrapped
    unfold twoPow64 at *
    omega
  have hhi : wrapped total < twoPow64 := by
    have hlt := Int.bmod_lt (x := total) (m := twoPow64) (by decide)
    unfold wrapped
    unfold twoPow64 at *
    omega
  have hnonneg : 0 ≤ wrapped total % twoPow64 := Int.emod_nonneg _ (by decide)
  rw [stoull_to_string hlo hhi, Option.map_some, addUnsigned,
    Int.toNat_of_nonneg hnonneg, Int.add_emod_bmod, wrapped, Int.add_bmod_bmod]
  rfl

theorem putWord_again {save_ : LevelDB} {word : Str} {total : ℤ}
    (h : save_[word]? = some (to_string (wrapped total))) (counter : ℤ) :
    DictionaryStorage.putWord save_ word counter =
      save_.insert word (to_string (wrapped (counter + total))) := by
  obtain ⟨v, hv, hsum⟩ := Option.map_eq_some_iff.mp (putWord_stored counter total)
  unfold DictionaryStorage.putWord
  simp only [h, hv, hsum]

theorem putWord_first {save_ : LevelDB} {word : Str} (h : save_[word]? = none)
    (counter : ℤ) :
    DictionaryStorage.putWord save_ word counter =
      save_.insert word (to_string counter) := by
  unfold DictionaryStorage.putWord
  simp only [h]

/-- **What a history leaves under each word**: its total, in 64 bits. -/
theorem getElem?_history (h : puts.Valid) (w : Str) :
    puts.dictionary[w]? =
      if w ∈ puts.words then some (to_string (wrapped (puts.total w))) else none := by
  induction puts using List.reverseRecOn generalizing w with
  | nil => simp [History.dictionary, History.words]
  | append_singleton puts p ih =>
      have hp := h p (by simp)
      have ih' := ih (fun q hq => h q (List.mem_append_left _ hq))
      have hstep : History.dictionary (puts ++ [p]) =
          DictionaryStorage.putWord (History.dictionary puts) p.1 p.2 := by
        simp [History.dictionary, List.foldl_append]
      have hput : History.dictionary (puts ++ [p]) = (History.dictionary puts).insert p.1
          (to_string (wrapped (History.total (puts ++ [p]) p.1))) := by
        rw [hstep, total_append, if_pos rfl]
        by_cases hold : p.1 ∈ History.words puts
        · have hget := ih' p.1
          rw [if_pos hold] at hget
          rw [putWord_again hget, Int.add_comm]
        · have hget := ih' p.1
          rw [if_neg hold] at hget
          rw [putWord_first hget, total_eq_zero hold, Int.zero_add,
            wrapped_eq hp.1.le hp.2]
      rw [hput, Std.TreeMap.getElem?_insert]
      by_cases hw : p.1 = w
      · simp [hw, History.words]
      · have hne : compare p.1 w ≠ .eq := fun heq =>
          hw (Std.LawfulEqCmp.compare_eq_iff_eq.mp heq)
        rw [if_neg hne, ih' w, total_append, if_neg hw, Int.add_zero]
        have hiff : w ∈ History.words (puts ++ [p]) ↔ w ∈ History.words puts := by
          simp only [History.words, List.map_append, List.map_singleton, List.mem_append,
            List.mem_singleton]
          exact or_iff_left (fun heq => hw heq.symm)
        simp only [hiff]

theorem mem_dictionary_iff (h : puts.Valid) {w : Str} :
    w ∈ puts.dictionary ↔ w ∈ puts.words := by
  rw [Std.TreeMap.mem_iff_isSome_getElem?, getElem?_history h]
  split <;> simp [*]

end Writer

/-! ## Reading back -/

/-- Both readers get every word's total back. -/
structure History.ReadsBack (puts : History) : Prop where
  getPred : ∀ w ∈ puts.words, getPred puts.dictionary w = some (puts.total w)
  castMaster : ∃ top cast, Top puts.dictionary puts.total top ∧
    castMaster puts.dictionary ∅ = some cast ∧
    ∀ w ∈ puts.words, cast[w]? = some (toFixed ((puts.total w : ℚ) / top))

section Reader

variable {puts : History}

theorem getPred_history (h : puts.Valid) {w : Str} (hw : w ∈ puts.words) :
    getPred puts.dictionary w = stoi (to_string (wrapped (puts.total w))) := by
  have hne : to_string (wrapped (puts.total w)) ≠ [] := by
    unfold to_string
    split
    · simp
    · exact toChars_ne_nil _
  rw [getPred, getElem?_history h, if_pos hw]
  simp only [if_neg hne]

/-- **The readers get the totals back exactly when each of them fits an
`int`.** -/
theorem readsBack_iff (h : puts.Valid) :
    puts.ReadsBack ↔ ∀ w ∈ puts.words, puts.total w ≤ INT_MAX := by
  constructor
  · intro hreads w hw
    have hget := hreads.getPred w hw
    rw [getPred_history h hw] at hget
    exact stoi_range hget
  · intro hfits
    have hstoi : ∀ w ∈ puts.words,
        stoi (to_string (wrapped (puts.total w))) = some (puts.total w) := by
      intro w hw
      have hpos := total_pos h hw
      rw [wrapped_eq hpos.le (hfits w hw), stoi_to_string, if_pos]
      refine ⟨?_, hfits w hw⟩
      unfold INT_MAX
      omega
    refine ⟨?_, ?_⟩
    · intro w hw
      rw [getPred_history h hw, hstoi w hw]
    · have hreads : Reads puts.dictionary puts.total := by
        intro w hw
        have hword := (mem_dictionary_iff h).mp hw
        rw [getElem?_history h, if_pos hword, Option.bind_some, hstoi w hword]
      obtain ⟨top, cast, htop, hcast, hget⟩ := castMaster_eq hreads ∅
      refine ⟨top, cast, htop, hcast, ?_⟩
      intro w hw
      rw [hget, if_pos ((mem_dictionary_iff h).mpr hw)]

/-- Two counters of one word are read back as their sum. -/
theorem readsBack_pair : History.ReadsBack [(charX, 5), (charX, 7)] := by
  refine (readsBack_iff ?_).mpr ?_
  · unfold History.Valid
    decide
  · decide

/-- The largest counter and one more: `getPred` throws, and so does
`castMaster`. -/
theorem overflow_not_readBack :
    History.Valid [(charX, INT_MAX), (charX, 1)] ∧
    getPred (History.dictionary [(charX, INT_MAX), (charX, 1)]) charX = none ∧
    castMaster (History.dictionary [(charX, INT_MAX), (charX, 1)]) ∅ = none ∧
    ¬ History.ReadsBack [(charX, INT_MAX), (charX, 1)] := by
  have hpred : getPred (History.dictionary [(charX, INT_MAX), (charX, 1)]) charX = none := by
    decide
  refine ⟨?_, hpred, ?_, ?_⟩
  · unfold History.Valid
    decide
  · have hnone : (castMaster (History.dictionary [(charX, INT_MAX), (charX, 1)])
        ∅).isNone = true := by
      decide
    exact Option.isNone_iff_eq_none.mp hnone
  · intro hreads
    have hget := hreads.getPred charX (by decide)
    rw [hpred] at hget
    exact absurd hget (by simp)

end Reader

end WaiNative

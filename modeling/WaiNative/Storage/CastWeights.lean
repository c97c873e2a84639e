import WaiNative.Storage.Dictionary

/-!
# Weights through the cast database

What `castMaster` does to a dictionary: each count is divided by the largest one
and written with six decimals (`getDoublePred_cast`). The order of the counts is
kept; a word's weight stays positive only when the largest count is less than two
million times its own (`keepsDictionary_iff`), and the least weight with it.

A cast database is written when it is new, so that it starts empty.
-/

namespace WaiNative

open Cxx MasterDBWord

/-- The master holds these positive counts. -/
def HoldsCounts (gMasterdb : LevelDB) (count : Str → ℤ) : Prop :=
  ∀ w ∈ gMasterdb, 0 < count w ∧ gMasterdb[w]? = some (to_string (count w))

/-- The weights keep the dictionary. -/
structure KeepsDictionary (gMasterdb : LevelDB) (count : Str → ℤ) (cast : LevelDB) :
    Prop where
  cast_eq : castMaster gMasterdb ∅ = some cast
  pos : ∀ w ∈ gMasterdb, ∃ x, getDoublePred cast w = some x ∧ 0 < x
  mono : ∀ a ∈ gMasterdb, ∀ b ∈ gMasterdb, count a ≤ count b →
    ∃ x y, getDoublePred cast a = some x ∧ getDoublePred cast b = some y ∧ x ≤ y
  rangeMin_pos : 0 < (getRangeMin cast Range.init).1

section Weights

variable {gMasterdb cast : LevelDB} {count : Str → ℤ} {top : ℤ}

theorem HoldsCounts.reads (h : HoldsCounts gMasterdb count)
    (hfits : ∀ w ∈ gMasterdb, count w ≤ INT_MAX) : Reads gMasterdb count := by
  intro w hw
  obtain ⟨hpos, hget⟩ := h w hw
  rw [hget, Option.bind_some, stoi_to_string, if_pos]
  refine ⟨?_, hfits w hw⟩
  unfold INT_MAX
  omega

/-- When `castMaster` returns, every count fits an `int`. -/
theorem HoldsCounts.fits (h : HoldsCounts gMasterdb count)
    (hcast : castMaster gMasterdb ∅ = some cast) : ∀ w ∈ gMasterdb, count w ≤ INT_MAX := by
  intro w hw
  obtain ⟨n, hn⟩ := castMaster_reads hcast w hw
  rw [(h w hw).2, Option.bind_some, stoi_to_string] at hn
  exact (Option.ite_none_right_eq_some.mp hn).1.2

theorem toFixed_ne_nil (x : ℚ) : toFixed x ≠ [] := by
  unfold toFixed
  split <;> simp

/-- **The weight of a word**: its share of the largest count, rounded. -/
theorem getDoublePred_cast {x : ℚ} {w : Str} (hget : cast[w]? = some (toFixed x))
    (hx : 0 ≤ x) : getDoublePred cast w = some (rounded x) := by
  unfold getDoublePred
  simp only [hget, if_neg (toFixed_ne_nil x), stod_toFixed hx]

theorem share_nonneg (h : HoldsCounts gMasterdb count) (htop : Top gMasterdb count top)
    {w : Str} (hw : w ∈ gMasterdb) : 0 < top ∧ (0 : ℚ) ≤ (count w : ℚ) / top := by
  have hpos := (h w hw).1
  have hle := htop.1 w hw
  have htop' : 0 < top := hpos.trans_le hle
  refine ⟨htop', div_nonneg ?_ ?_⟩
  · exact_mod_cast hpos.le
  · exact_mod_cast htop'.le

/-- A share stays positive exactly when the largest count is less than two
million times as large. -/
theorem share_pos_iff (h : HoldsCounts gMasterdb count) (htop : Top gMasterdb count top)
    {w : Str} (hw : w ∈ gMasterdb) :
    0 < rounded ((count w : ℚ) / top) ↔ top < 2000000 * count w := by
  obtain ⟨htop', hshare⟩ := share_nonneg h htop hw
  have htopq : (0 : ℚ) < top := by exact_mod_cast htop'
  rw [rounded_pos_iff hshare, lt_div_iff₀ htopq]
  constructor
  · intro hlt
    have hlt' : (top : ℚ) < 2000000 * count w := by linarith
    exact_mod_cast hlt'
  · intro hlt
    have hlt' : (top : ℚ) < 2000000 * count w := by exact_mod_cast hlt
    linarith

/-- **The weights keep the dictionary exactly when every count fits an `int` and
is more than a two-millionth of every other.** -/
theorem keepsDictionary_iff (h : HoldsCounts gMasterdb count) :
    (∃ cast, KeepsDictionary gMasterdb count cast) ↔
      ∀ a ∈ gMasterdb, count a ≤ INT_MAX ∧ ∀ b ∈ gMasterdb, count b < 2000000 * count a := by
  constructor
  · rintro ⟨cast, hkeeps⟩ a ha
    have hfits := h.fits hkeeps.cast_eq
    obtain ⟨top, cast', htop, hcast, hget⟩ := castMaster_eq (h.reads hfits) ∅
    obtain rfl := Option.some.inj (hkeeps.cast_eq.symm.trans hcast)
    refine ⟨hfits a ha, ?_⟩
    intro b hb
    obtain ⟨x, hx, hpos⟩ := hkeeps.pos a ha
    have hget' := hget a
    rw [if_pos ha] at hget'
    rw [getDoublePred_cast hget' (share_nonneg h htop ha).2] at hx
    obtain rfl := Option.some.inj hx
    exact (htop.1 b hb).trans_lt ((share_pos_iff h htop ha).mp hpos)
  · intro hcond
    obtain ⟨top, cast, htop, hcast, hget⟩ :=
      castMaster_eq (h.reads (fun w hw => (hcond w hw).1)) ∅
    have hweight : ∀ w ∈ gMasterdb, getDoublePred cast w =
        some (rounded ((count w : ℚ) / top)) := by
      intro w hw
      have hget' := hget w
      rw [if_pos hw] at hget'
      exact getDoublePred_cast hget' (share_nonneg h htop hw).2
    have hpos : ∀ w ∈ gMasterdb, 0 < rounded ((count w : ℚ) / top) := by
      intro w hw
      refine (share_pos_iff h htop hw).mpr ?_
      rcases htop.2 with rfl | ⟨b, hb, rfl⟩
      · have hlt := (share_nonneg h htop hw).1
        exact absurd hlt (lt_irrefl _)
      · exact (hcond w hw).2 b hb
    refine ⟨cast, hcast, ?_, ?_, ?_⟩
    · exact fun w hw => ⟨_, hweight w hw, hpos w hw⟩
    · intro a ha b hb hle
      refine ⟨_, _, hweight a ha, hweight b hb, rounded_mono ?_⟩
      have htopq : (0 : ℚ) ≤ top := by exact_mod_cast (share_nonneg h htop ha).1.le
      exact div_le_div_of_nonneg_right (by exact_mod_cast hle) htopq
    · apply getRangeMin_pos
      intro it hit x hx
      have hit' := Std.TreeMap.mem_toList_iff_getElem?_eq_some.mp hit
      rw [hget] at hit'
      split at hit'
      · rename_i hw
        rw [← Option.some.inj hit', stod_toFixed (share_nonneg h htop hw).2] at hx
        rw [← Option.some.inj hx]
        exact hpos it.1 hw
      · exact absurd hit' (by simp)

end Weights

/-! ## Two dictionaries that the server wrote -/

section Written

/-- A dictionary written by the server holds the totals, as long as they fit. -/
theorem history_holdsCounts {puts : History} (h : puts.Valid)
    (hfits : ∀ w ∈ puts.words, puts.total w ≤ INT_MAX) :
    HoldsCounts puts.dictionary puts.total := by
  intro w hw
  have hword := (mem_dictionary_iff h).mp hw
  have hpos := total_pos h hword
  refine ⟨hpos, ?_⟩
  rw [getElem?_history h, if_pos hword, wrapped_eq hpos.le (hfits w hword)]

/-- One word is counted three times as often as the other. -/
def closeCounts : History := [(charX, 3), (charY, 1)]

/-- One word is counted two million times as often as the other. -/
def farCounts : History := [(charX, 2000000), (charY, 1)]

theorem counts_valid : closeCounts.Valid ∧ farCounts.Valid := by
  unfold History.Valid
  decide

theorem closeCounts_keeps :
    ∃ cast, KeepsDictionary closeCounts.dictionary closeCounts.total cast := by
  have hvalid := counts_valid.1
  refine (keepsDictionary_iff (history_holdsCounts hvalid (by decide))).mpr ?_
  intro a ha
  rw [mem_dictionary_iff hvalid] at ha
  refine ⟨?_, fun b hb => ?_⟩
  · revert a
    decide
  · rw [mem_dictionary_iff hvalid] at hb
    clear hvalid
    revert a b
    decide

/-- The rare word is written as `0.000000`: it is not known any more, and the
least weight is zero. -/
theorem farCounts_lost :
    HoldsCounts farCounts.dictionary farCounts.total ∧
    (castMaster farCounts.dictionary ∅).map (fun cast =>
      (getDoublePred cast charY, (getRangeMin cast Range.init).1)) = some (some 0, 0) ∧
    ¬ ∃ cast, KeepsDictionary farCounts.dictionary farCounts.total cast := by
  have hcast : (castMaster farCounts.dictionary ∅).map (fun cast =>
      (getDoublePred cast charY, (getRangeMin cast Range.init).1)) = some (some 0, 0) := by
    decide +kernel
  refine ⟨history_holdsCounts counts_valid.2 (by decide), hcast, ?_⟩
  rintro ⟨cast, hkeeps⟩
  rw [hkeeps.cast_eq, Option.map_some] at hcast
  have hmin := hkeeps.rangeMin_pos
  rw [(Prod.mk.inj (Option.some.inj hcast)).2] at hmin
  exact lt_irrefl _ hmin

end Written

end WaiNative

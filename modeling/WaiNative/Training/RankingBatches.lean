import WaiNative.Training.Ranking
import Mathlib.Data.Set.Card

/-!
# The batches of `OstrichWord`

The ranking leaves a word out when any word of its count contains it, also one that is left
out itself. `pickupWordRanking` writes what is left as text, `pickupWordRankingJson` as
arrays; the second never counts `iCounter` up, so that its array is never full.

- `finish_batches`: the text is that of batches of records;
- `pickupWordRanking_covers`: nothing frequent is lost, and nothing said twice;
- `length_finish`: how many batches the text has;
- `sameBatches_iff`: when both functions make the same ones.

`iCounter` is a natural number in place of `int`: there are at most as many records as
words counted, which are taken to be fewer than 2^31.
-/

namespace WaiNative

open Cxx

/-! ## The text as batches of records -/

section Text

variable {b : Batches} {rs : List (Str × ℤ)}

/-- What is written is the text of some batches that make up the records. -/
theorem finish_batches (h : b.Holds rs) {noWords : Bool} (hnone : noWords = true → rs = []) :
    ∃ batches : List (List (Str × ℤ)),
      b.finish noWords = batches.map (fun l => joined l ++ emptyRecord) ∧
        batches.flatten = rs := by
  obtain ⟨closed, rest, harrays, hup, rfl, -⟩ := h
  unfold Batches.finish
  by_cases hrest : rest = []
  · subst hrest
    have hempty : b.upWords = [] := hup
    cases noWords with
    | false => exact ⟨closed, by simp [hempty, harrays], by simp⟩
    | true => exact ⟨closed ++ [[]], by simp [hempty, harrays, joined], by simp⟩
  · have hopen : joined rest ≠ [] := mt joined_eq_nil.mp hrest
    cases noWords with
    | false => exact ⟨closed ++ [rest], by simp [hopen, hup, harrays], by simp⟩
    | true => exact absurd (List.append_eq_nil_iff.mp (hnone rfl)).2 hrest

/-- How many records the counter has seen, and how many batches they have closed. -/
structure Counted (b : Batches) (n : ℕ) : Prop where
  counter : b.iCounter = n + 1
  closed : b.wordArrays.length = (n + 1) / 256
  opened : b.upWords = [] ↔ n = 0 ∨ (n + 1) % 256 = 0

theorem counted_start : Counted Batches.start 0 := ⟨rfl, rfl, by simp [Batches.start]⟩

theorem Counted.append {n : ℕ} (h : Counted b n) (r : Str × ℤ) :
    Counted (b.append r.1 r.2) (n + 1) := by
  obtain ⟨hcounter, hclosed, -⟩ := h
  by_cases hfull : (b.iCounter + 1) % 256 = 0
  · rw [Batches.append, if_pos hfull]
    rw [hcounter] at hfull
    refine ⟨by rw [hcounter], ?_, by simp [hfull]⟩
    rw [List.length_append, List.length_singleton, hclosed]
    omega
  · rw [Batches.append, if_neg hfull]
    rw [hcounter] at hfull
    refine ⟨by rw [hcounter], ?_, ?_⟩
    · rw [hclosed]
      omega
    · simp [record, hfull]

theorem Counted.appendAll : ∀ {rs : List (Str × ℤ)} {b : Batches} {n : ℕ}, Counted b n →
    Counted (b.appendAll rs) (n + rs.length)
  | [], _, _, h => h
  | r :: rs, b, n, h => by
      have ih : Counted (b.appendAll (r :: rs)) (n + 1 + rs.length) := (h.append r).appendAll
      rw [Nat.add_right_comm] at ih
      exact ih

/-- **How many batches some records make**: the first one is closed by the 255th record,
every later one by 256 more. -/
theorem length_finish {n : ℕ} (h : Counted b n) (hpos : 0 < n) :
    (b.finish false).length = (n + 256) / 256 := by
  obtain ⟨-, hclosed, hopened⟩ := h
  by_cases hempty : b.upWords = []
  · have hfull := (hopened.mp hempty).resolve_left hpos.ne'
    have hlength : (b.finish false).length = (n + 1) / 256 := by
      simp [Batches.finish, hempty, hclosed]
    rw [hlength]
    omega
  · have hopen := mt hopened.mpr hempty
    rw [not_or] at hopen
    have hlength : (b.finish false).length = (n + 1) / 256 + 1 := by
      simp [Batches.finish, hempty, hclosed]
    rw [hlength]
    omega

end Text

/-! ## What the ranking leaves out -/

section Covering

open OstrichWord

variable {m : MultiWord}

/-- **Every frequent word is in a word that is kept**, namely in the longest one of its
count that contains it; those that were left out on the way do not matter. -/
theorem exists_kept {w : Str} {n : ℤ} (hw : m[w]? = some n) :
    ∃ w' : Str, m[w']? = some n ∧ w <:+: w' ∧ ¬ InLonger m w' n := by
  classical
  have hself : w ∈ (withCount m.toList n).toFinset.filter (fun w' => w <:+: w') := by
    rw [Finset.mem_filter, List.mem_toFinset, mem_withCount]
    exact ⟨hw, List.infix_refl w⟩
  obtain ⟨w', hmem, hmax⟩ := Finset.exists_max_image _ List.length ⟨w, hself⟩
  rw [Finset.mem_filter, List.mem_toFinset, mem_withCount] at hmem
  obtain ⟨hw', hin⟩ := hmem
  refine ⟨w', hw', hin, ?_⟩
  rintro ⟨w'', hw'', hne, hin'⟩
  have hle : w''.length ≤ w'.length := by
    apply hmax
    rw [Finset.mem_filter, List.mem_toFinset, mem_withCount]
    exact ⟨hw'', hin.trans hin'⟩
  exact hne (hin'.eq_of_length (le_antisymm hin'.length_le hle)).symm

/-- An emitted record is one of a kept word. -/
theorem kept_of_mem_records {r : Str × ℤ} (h : r ∈ records (localMultiWordRank m)) :
    ∃ n, m[r.1]? = some n ∧ minWordRepeateTimes_ ≤ n ∧ ¬ InLonger m r.1 n ∧
      r.2 = n / minWordRepeateTimes_ :=
  mem_ostrich_records.mp h

theorem records_of_isEmpty (h : (localMultiWordRank m).isEmpty = true) :
    records (localMultiWordRank m) = [] := by
  rw [records, List.isEmpty_iff.mp (Std.TreeMap.isEmpty_toList.trans h)]
  rfl

/-- **No frequent word is lost, and none is said twice.** The text is that of batches of
records; each record is of a word of the map, every frequent word is in an emitted word of
its own count, and of two emitted words with one count neither is in the other. -/
theorem pickupWordRanking_covers (m : MultiWord) :
    ∃ batches : List (List (Str × ℤ)),
      OstrichWord.pickupWordRanking m = batches.map (fun l => joined l ++ emptyRecord) ∧
      (∀ r ∈ batches.flatten, ∃ n, m[r.1]? = some n ∧
        OstrichWord.minWordRepeateTimes_ ≤ n ∧ r.2 = n / OstrichWord.minWordRepeateTimes_) ∧
      (∀ (w : Str) (n : ℤ), m[w]? = some n → OstrichWord.minWordRepeateTimes_ ≤ n →
        ∃ r ∈ batches.flatten, m[r.1]? = some n ∧ w <:+: r.1) ∧
      ∀ r ∈ batches.flatten, ∀ r' ∈ batches.flatten,
        m[r.1]? = m[r'.1]? → r.1 <:+: r'.1 → r.1 = r'.1 := by
  obtain ⟨b, hb, htext⟩ := ostrich_holds m
  obtain ⟨batches, heq, hflat⟩ := finish_batches hb (fun h => records_of_isEmpty h)
  refine ⟨batches, htext.trans heq, ?_, ?_, ?_⟩
  · intro r hr
    obtain ⟨n, hn, hle, -, hshare⟩ := kept_of_mem_records (hflat ▸ hr)
    exact ⟨n, hn, hle, hshare⟩
  · intro w n hw hle
    obtain ⟨w', hw', hin, hkept⟩ := exists_kept hw
    refine ⟨(w', n / minWordRepeateTimes_), ?_, hw', hin⟩
    rw [hflat]
    exact mem_ostrich_records.mpr ⟨n, hw', hle, hkept, rfl⟩
  · intro r hr r' hr' hcount hin
    obtain ⟨n, hn, -, hkept, -⟩ := kept_of_mem_records (hflat ▸ hr)
    by_contra hne
    exact hkept ⟨r'.1, hcount.symm.trans hn, Ne.symm hne, hin⟩

end Covering

/-! ## The ranking as JSON -/

/-- The arrays of `pickupWordRankingJson`. A record is an object with one field. -/
structure JsonBatches where
  wordArrays : List (List (Str × ℤ))
  oneArrays : List (Str × ℤ)
  iCounter : ℕ
deriving DecidableEq

def JsonBatches.start : JsonBatches := ⟨[], [], 1⟩

/-- Unlike in `Batches.append`, `iCounter` stays as it is. -/
def JsonBatches.append (b : JsonBatches) (word : Str) (counter : ℤ) : JsonBatches :=
  let oneArrays := b.oneArrays ++ [(word, counter)]
  if b.iCounter % 256 = 0 then ⟨b.wordArrays ++ [oneArrays], [], b.iCounter⟩
  else ⟨b.wordArrays, oneArrays, b.iCounter⟩

def JsonBatches.finish (b : JsonBatches) : List (List (Str × ℤ)) :=
  if b.oneArrays.length > 0 then b.wordArrays ++ [b.oneArrays] else b.wordArrays

def OstrichWord.pickupWordRankingJson (multiWordOfOneArticle_ : MultiWord) :
    List (List (Str × ℤ)) :=
  let rank := localMultiWordRank multiWordOfOneArticle_
  let batches := rank.toList.foldl (fun b record =>
    record.2.foldl (fun b word =>
      if isShort record.2 word = false then
        b.append word (record.1.tdiv minWordRepeateTimes_)
      else b) b) JsonBatches.start
  batches.finish

/-- Both functions make the same records, cut at the same places, none of the batches with
more than 256. -/
def SameBatches (m : MultiWord) : Prop :=
  ∃ batches : List (List (Str × ℤ)),
    OstrichWord.pickupWordRanking m = batches.map (fun l => joined l ++ emptyRecord) ∧
    OstrichWord.pickupWordRankingJson m = batches ∧
    ∀ l ∈ batches, l.length ≤ 256

section Json

open OstrichWord

variable {m : MultiWord}

/-- No array is ever full. -/
theorem foldl_jsonAppend (rs l : List (Str × ℤ)) :
    rs.foldl (fun b r => b.append r.1 r.2) (⟨[], l, 1⟩ : JsonBatches) = ⟨[], l ++ rs, 1⟩ := by
  induction rs generalizing l with
  | nil => simp
  | cons r rs ih =>
      have happend : (⟨[], l, 1⟩ : JsonBatches).append r.1 r.2 = ⟨[], l ++ [r], 1⟩ := rfl
      rw [List.foldl_cons, happend, ih, List.append_assoc, List.singleton_append]

/-- **All records are in one array.** -/
theorem pickupWordRankingJson_eq (hne : records (localMultiWordRank m) ≠ []) :
    pickupWordRankingJson m = [records (localMultiWordRank m)] := by
  have hloop : ∀ (b : JsonBatches) (r : ℤ × List Str),
      r.2.foldl (fun b word =>
        if isShort r.2 word = false then b.append word (r.1.tdiv minWordRepeateTimes_)
        else b) b =
      ((r.2.filter (fun word => isShort r.2 word = false)).map
        (fun word => (word, r.1.tdiv minWordRepeateTimes_))).foldl
          (fun b r => b.append r.1 r.2) b := by
    intro b r
    rw [List.foldl_map, List.foldl_filter]
    simp only [decide_eq_true_eq]
  have hall := foldl_jsonAppend (records (localMultiWordRank m)) []
  rw [List.nil_append, records, List.foldl_flatMap] at hall
  rw [pickupWordRankingJson]
  simp only [hloop]
  rw [JsonBatches.start, hall, JsonBatches.finish, if_pos]
  · rfl
  · exact List.length_pos_of_ne_nil hne

/-- The text has one batch for as long as there are at most 255 records. -/
theorem sameBatches_iff_length (hne : records (localMultiWordRank m) ≠ []) :
    SameBatches m ↔ (records (localMultiWordRank m)).length ≤ 255 := by
  have hmany : (localMultiWordRank m).isEmpty = false := by
    rw [← Bool.not_eq_true]
    exact mt records_of_isEmpty hne
  have htext := ostrich_finish m
  rw [hmany] at htext
  have hlength : (OstrichWord.pickupWordRanking m).length =
      ((records (localMultiWordRank m)).length + 256) / 256 := by
    rw [htext]
    apply length_finish
    · have hcounted : Counted (Batches.start.appendAll (records (localMultiWordRank m)))
          (0 + (records (localMultiWordRank m)).length) := counted_start.appendAll
      rwa [Nat.zero_add] at hcounted
    · exact List.length_pos_of_ne_nil hne
  constructor
  · rintro ⟨batches, hbatches, hjson, -⟩
    rw [pickupWordRankingJson_eq hne] at hjson
    rw [hbatches, ← hjson, List.map_singleton, List.length_singleton] at hlength
    omega
  · intro hle
    have hsome : false = true → records (localMultiWordRank m) = [] := by simp
    obtain ⟨batches, hbatches, hflat⟩ :=
      finish_batches (holds_start.appendAll (records (localMultiWordRank m))) hsome
    rw [← htext] at hbatches
    have hone : batches.length = 1 := by
      rw [hbatches, List.length_map] at hlength
      omega
    obtain ⟨l, rfl⟩ := List.length_eq_one_iff.mp hone
    obtain rfl : l = records (localMultiWordRank m) := by simpa using hflat
    refine ⟨_, hbatches, pickupWordRankingJson_eq hne, ?_⟩
    intro l hl
    rw [List.mem_singleton.mp hl]
    exact hle.trans (by decide)

/-- The frequent words that no longer word of their count contains. -/
def keptWords (m : MultiWord) : Set Str :=
  {w | ∃ n, m[w]? = some n ∧ minWordRepeateTimes_ ≤ n ∧ ¬ InLonger m w n}

theorem ncard_keptWords : (keptWords m).ncard = (records (localMultiWordRank m)).length := by
  have hset : keptWords m = ↑((records (localMultiWordRank m)).map Prod.fst).toFinset := by
    ext w
    simp only [keptWords, Set.mem_ofPred_eq, List.coe_toFinset, List.mem_map, Prod.exists,
      mem_ostrich_records, exists_and_right, exists_eq_right]
    constructor
    · rintro ⟨n, hn, hle, hkept⟩
      exact ⟨_, n, hn, hle, hkept, rfl⟩
    · rintro ⟨-, n, hn, hle, hkept, -⟩
      exact ⟨n, hn, hle, hkept⟩
  rw [hset, Set.ncard_coe_finset, List.toFinset_card_of_nodup ostrich_records_nodup,
    List.length_map]

/-- Where a word is frequent, a record is made. -/
theorem records_ne_nil (h : ∃ w n, m[(w : Str)]? = some n ∧ minWordRepeateTimes_ ≤ n) :
    records (localMultiWordRank m) ≠ [] := by
  obtain ⟨w, n, hn, hle⟩ := h
  obtain ⟨w', hw', -, hkept⟩ := exists_kept hn
  exact List.ne_nil_of_mem (mem_ostrich_records.mpr ⟨n, hw', hle, hkept, rfl⟩)

/-- **The two functions make the same batches exactly for up to 255 words**: the 255th
record closes a batch of the text, and none ever closes one of the arrays. -/
theorem sameBatches_iff (m : MultiWord)
    (h : ∃ w n, m[(w : Str)]? = some n ∧ OstrichWord.minWordRepeateTimes_ ≤ n) :
    SameBatches m ↔ (keptWords m).ncard ≤ 255 := by
  rw [sameBatches_iff_length (records_ne_nil h), ncard_keptWords]

theorem sameBatches_iff_twoCounts :
    (∃ w n, twoCounts[(w : Str)]? = some n ∧ OstrichWord.minWordRepeateTimes_ ≤ n) ∧
      (SameBatches twoCounts ↔ (keptWords twoCounts).ncard ≤ 255) := by
  have h : ∃ w n, twoCounts[(w : Str)]? = some n ∧ OstrichWord.minWordRepeateTimes_ ≤ n := by
    refine ⟨charX ++ charY, 6, ?_, by decide⟩
    rw [twoCounts_getElem?]
    decide
  exact ⟨h, sameBatches_iff twoCounts h⟩

/-! ### 256 words -/

/-- A word of two of sixteen letters. -/
def letterPair (i : ℕ) : Str := [UInt8.ofNat (65 + i / 16), UInt8.ofNat (65 + i % 16)]

/-- Each of these words, counted three times. -/
def letterPairs : MultiWord :=
  (List.range 256).foldl (fun m i => m.insert (letterPair i) 3) ∅

theorem getElem?_foldl_letterPairs (f : ℕ → Str) (c : ℤ) (w : Str) (l : List ℕ) :
    (l.foldl (fun m i => m.insert (f i) c) (∅ : MultiWord))[w]? =
      if w ∈ l.map f then some c else none := by
  induction l using List.reverseRecOn with
  | nil => simp
  | append_singleton l i ih =>
      rw [List.foldl_append, List.foldl_cons, List.foldl_nil,
        Std.TreeMap.getElem?_insert, ih, List.map_append]
      by_cases hw : f i = w
      · simp [hw]
      · have hcmp : compare (f i) w ≠ .eq := mt Std.LawfulEqCmp.compare_eq_iff_eq.mp hw
        simp [hcmp, Ne.symm hw]

theorem letterPairs_getElem? (w : Str) :
    letterPairs[w]? = if w ∈ (List.range 256).map letterPair then some 3 else none :=
  getElem?_foldl_letterPairs letterPair 3 w _

theorem letterPair_inj {i j : ℕ} (hi : i < 256) (hj : j < 256)
    (h : letterPair i = letterPair j) : i = j := by
  have hnumber : ∀ i < 256,
      (letterPair i).foldl (fun n c => 16 * n + (c.toNat - 65)) 0 = i := by
    intro i hi
    simp only [letterPair, List.foldl_cons, List.foldl_nil, UInt8.toNat_ofNat']
    omega
  rw [← hnumber i hi, h, hnumber j hj]

theorem length_of_letterPairs {w : Str} {n : ℤ} (h : letterPairs[w]? = some n) :
    w.length = 2 := by
  rw [letterPairs_getElem?] at h
  obtain ⟨hmem, -⟩ := Option.ite_none_right_eq_some.mp h
  obtain ⟨i, -, rfl⟩ := List.mem_map.mp hmem
  rfl

/-- None of them is in another one. -/
theorem not_inLonger_letterPairs {w : Str} {n : ℤ} (hw : letterPairs[w]? = some n) :
    ¬ InLonger letterPairs w n := by
  rintro ⟨w', hw', hne, hin⟩
  have hlength := (length_of_letterPairs hw).trans (length_of_letterPairs hw').symm
  exact hne (hin.eq_of_length hlength).symm

theorem keptWords_letterPairs :
    keptWords letterPairs = ↑((List.range 256).map letterPair).toFinset := by
  ext w
  rw [List.coe_toFinset, Set.mem_ofPred_eq, keptWords, Set.mem_ofPred_eq]
  constructor
  · rintro ⟨n, hn, -, -⟩
    rw [letterPairs_getElem?] at hn
    exact (Option.ite_none_right_eq_some.mp hn).1
  · intro hw
    have hn : letterPairs[w]? = some 3 := by rw [letterPairs_getElem?, if_pos hw]
    exact ⟨3, hn, by decide, not_inLonger_letterPairs hn⟩

/-- **With 256 words the text has two batches and the arrays are one.** -/
theorem not_sameBatches_letterPairs :
    (∃ w n, letterPairs[(w : Str)]? = some n ∧ OstrichWord.minWordRepeateTimes_ ≤ n) ∧
      ¬ SameBatches letterPairs := by
  have h : ∃ w n, letterPairs[(w : Str)]? = some n ∧
      OstrichWord.minWordRepeateTimes_ ≤ n := by
    refine ⟨letterPair 0, 3, ?_, by decide⟩
    rw [letterPairs_getElem?, if_pos]
    exact List.mem_map_of_mem (List.mem_range.mpr (by decide))
  have hnodup : ((List.range 256).map letterPair).Nodup := by
    apply List.Nodup.map_on _ List.nodup_range
    intro i hi j hj
    exact letterPair_inj (List.mem_range.mp hi) (List.mem_range.mp hj)
  refine ⟨h, ?_⟩
  rw [sameBatches_iff_length (records_ne_nil h), ← ncard_keptWords, keptWords_letterPairs,
    Set.ncard_coe_finset, List.toFinset_card_of_nodup hnodup, List.length_map,
    List.length_range]
  decide

end Json

end WaiNative

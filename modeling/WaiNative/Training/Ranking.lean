import WaiNative.Training.Learn
import WaiNative.Training.Records
import WaiNative.Segment.Selection

/-!
# The ranking of an article

`pickupWordRanking` of the three learners: the words that were counted often
enough, written as batches of records. `ParrotWord` and `PhoenixWord` differ in
the number of times only; `OstrichWord` first sorts the words by their count and
leaves out those that a longer word of the same count contains.

- `pickupRepeated_holds`, `ostrich_holds`: which records are written;
- `eachWord_pickup`: the server reads them back, each once.
-/

namespace WaiNative

open Cxx

/-! ## `pickupWordRanking` -/

/-- The function that `ParrotWord` and `PhoenixWord` share. -/
def pickupRepeated (minWordRepeateTimes_ : ℤ) (multiWordOfOneArticle_ : MultiWord) :
    List Str :=
  let batches := multiWordOfOneArticle_.toList.foldl (fun b wordSum =>
    if wordSum.2 ≥ minWordRepeateTimes_ then
      b.append wordSum.1 (wordSum.2.tdiv minWordRepeateTimes_)
    else b) Batches.start
  batches.finish multiWordOfOneArticle_.isEmpty

def ParrotWord.pickupWordRanking (multiWordOfOneArticle_ : MultiWord) : List Str :=
  pickupRepeated ParrotWord.minWordRepeateTimes_ multiWordOfOneArticle_

def PhoenixWord.minWordRepeateTimes_ : ℤ := 2

def PhoenixWord.pickupWordRanking (multiWordOfOneArticle_ : MultiWord) : List Str :=
  pickupRepeated PhoenixWord.minWordRepeateTimes_ multiWordOfOneArticle_

namespace OstrichWord

/-- `map<int, vector<string>>`: the words by their count. -/
abbrev Rank := Std.TreeMap ℤ (List Str)

def pushRank (localMultiWordRank : Rank) (wordSum : Str × ℤ) : Rank :=
  if wordSum.2 ≥ minWordRepeateTimes_ then
    match localMultiWordRank[wordSum.2]? with
    | some words => localMultiWordRank.insert wordSum.2 (words ++ [wordSum.1])
    | none => localMultiWordRank.insert wordSum.2 [wordSum.1]
  else localMultiWordRank

def localMultiWordRank (multiWordOfOneArticle_ : MultiWord) : Rank :=
  multiWordOfOneArticle_.toList.foldl pushRank ∅

/-- Whether another word of the list contains this one. -/
def isShort (words : List Str) (word : Str) : Bool :=
  words.any (fun word2 => (find word2 word).isSome && word2 != word)

def pickupWordRanking (multiWordOfOneArticle_ : MultiWord) : List Str :=
  let rank := localMultiWordRank multiWordOfOneArticle_
  let batches := rank.toList.foldl (fun b record =>
    record.2.foldl (fun b word =>
      if isShort record.2 word = false then
        b.append word (record.1.tdiv minWordRepeateTimes_)
      else b) b) Batches.start
  batches.finish rank.isEmpty

end OstrichWord

/-! ## Which records are written -/

section Loops

variable {α : Type*} {b : Batches}

theorem foldl_append_if (P : α → Prop) [DecidablePred P] (g : α → Str × ℤ) :
    ∀ (l : List α) (b : Batches),
      l.foldl (fun b x => if P x then b.append (g x).1 (g x).2 else b) b =
        b.appendAll ((l.filter P).map g)
  | [], _ => rfl
  | x :: l, b => by
      rw [List.foldl_cons, foldl_append_if P g l]
      by_cases hx : P x <;> simp [hx, Batches.appendAll]

theorem foldl_appendAll (g : α → List (Str × ℤ)) : ∀ (l : List α) (b : Batches),
    l.foldl (fun b x => b.appendAll (g x)) b = b.appendAll (l.flatMap g)
  | [], _ => rfl
  | x :: l, b => by
      rw [List.foldl_cons, foldl_appendAll g l]
      simp [Batches.appendAll, List.foldl_append]

/-- The records of `ParrotWord` and `PhoenixWord`. -/
def repeatedRecords (minWordRepeateTimes_ : ℤ) (m : MultiWord) : List (Str × ℤ) :=
  (m.toList.filter (fun r => r.2 ≥ minWordRepeateTimes_)).map
    (fun r => (r.1, r.2.tdiv minWordRepeateTimes_))

theorem pickupRepeated_holds (minWordRepeateTimes_ : ℤ) (m : MultiWord) :
    ∃ b, Batches.Holds b (repeatedRecords minWordRepeateTimes_ m) ∧
      pickupRepeated minWordRepeateTimes_ m = b.finish m.isEmpty := by
  refine ⟨_, holds_start.appendAll (repeatedRecords minWordRepeateTimes_ m), ?_⟩
  unfold pickupRepeated repeatedRecords
  rw [← foldl_append_if (fun r : Str × ℤ => r.2 ≥ minWordRepeateTimes_)
    (fun r => (r.1, r.2.tdiv minWordRepeateTimes_))]

/-- The records of `OstrichWord`. -/
def OstrichWord.records (rank : OstrichWord.Rank) : List (Str × ℤ) :=
  rank.toList.flatMap (fun r =>
    (r.2.filter (fun word => isShort r.2 word = false)).map
      (fun word => (word, r.1.tdiv minWordRepeateTimes_)))

theorem ostrich_finish (m : MultiWord) :
    OstrichWord.pickupWordRanking m =
      (Batches.start.appendAll (OstrichWord.records (OstrichWord.localMultiWordRank m))).finish
        (OstrichWord.localMultiWordRank m).isEmpty := by
  have hloop : ∀ (b : Batches) (r : ℤ × List Str),
      r.2.foldl (fun b word =>
        if OstrichWord.isShort r.2 word = false then
          b.append word (r.1.tdiv OstrichWord.minWordRepeateTimes_)
        else b) b =
      b.appendAll ((r.2.filter (fun word => OstrichWord.isShort r.2 word = false)).map
        (fun word => (word, r.1.tdiv OstrichWord.minWordRepeateTimes_))) :=
    fun b r => foldl_append_if (fun word => OstrichWord.isShort r.2 word = false)
      (fun word => (word, r.1.tdiv OstrichWord.minWordRepeateTimes_)) r.2 b
  simp only [OstrichWord.pickupWordRanking, hloop, foldl_appendAll]
  rfl

theorem ostrich_holds (m : MultiWord) :
    ∃ b, Batches.Holds b (OstrichWord.records (OstrichWord.localMultiWordRank m)) ∧
      OstrichWord.pickupWordRanking m =
        b.finish (OstrichWord.localMultiWordRank m).isEmpty :=
  ⟨_, holds_start.appendAll (OstrichWord.records _), ostrich_finish m⟩

end Loops

/-! ## The words by their count -/

section Rank

open OstrichWord

/-- The words of a list that are counted `n` times. -/
def withCount (l : List (Str × ℤ)) (n : ℤ) : List Str :=
  (l.filter (fun r => r.2 = n)).map Prod.fst

theorem withCount_append (l : List (Str × ℤ)) (r : Str × ℤ) (n : ℤ) :
    withCount (l ++ [r]) n = withCount l n ++ if r.2 = n then [r.1] else [] := by
  by_cases h : r.2 = n <;> simp [withCount, h]

/-- **Each count that is reached often enough has its words, in order.** -/
theorem getElem?_foldl_pushRank (l : List (Str × ℤ)) (n : ℤ) :
    (l.foldl pushRank ∅)[n]? =
      if minWordRepeateTimes_ ≤ n ∧ withCount l n ≠ [] then some (withCount l n)
      else none := by
  induction l using List.reverseRecOn with
  | nil => simp [withCount]
  | append_singleton l r ih =>
      rw [List.foldl_append, List.foldl_cons, List.foldl_nil, withCount_append]
      by_cases hmin : r.2 ≥ minWordRepeateTimes_
      · by_cases hn : r.2 = n
        · subst hn
          rw [pushRank, if_pos hmin, ih]
          by_cases hempty : withCount l r.2 = []
          · simp [hempty, hmin]
          · simp [hempty, hmin]
        · have hget : (pushRank (l.foldl pushRank ∅) r)[n]? =
              (l.foldl pushRank ∅)[n]? := by
            rw [pushRank, if_pos hmin]
            split <;> simp [Std.TreeMap.getElem?_insert, hn]
          rw [hget, ih, if_neg hn, List.append_nil]
      · rw [pushRank, if_neg hmin, ih]
        by_cases hn : r.2 = n
        · subst hn
          have hmin' : ¬ minWordRepeateTimes_ ≤ r.2 := hmin
          simp [hmin']
        · rw [if_neg hn, List.append_nil]

theorem mem_withCount {m : MultiWord} {n : ℤ} {w : Str} :
    w ∈ withCount m.toList n ↔ m[w]? = some n := by
  simp [withCount]

theorem keys_nodup (m : MultiWord) : (m.toList.map Prod.fst).Nodup := by
  apply List.Pairwise.map Prod.fst _ m.distinct_keys_toList
  intro a b hab heq
  exact hab (Std.LawfulEqCmp.compare_eq_iff_eq.mpr heq)

theorem withCount_nodup (m : MultiWord) (n : ℤ) : (withCount m.toList n).Nodup :=
  (keys_nodup m).sublist (List.filter_sublist.map _)

theorem getElem?_localMultiWordRank {m : MultiWord} {n : ℤ} {words : List Str} :
    (localMultiWordRank m)[n]? = some words ↔
      minWordRepeateTimes_ ≤ n ∧ words ≠ [] ∧ words = withCount m.toList n := by
  rw [localMultiWordRank, getElem?_foldl_pushRank]
  constructor
  · intro h
    obtain ⟨⟨hmin, hne⟩, heq⟩ := Option.ite_none_right_eq_some.mp h
    obtain rfl := Option.some.inj heq
    exact ⟨hmin, hne, rfl⟩
  · rintro ⟨hmin, hne, rfl⟩
    rw [if_pos ⟨hmin, hne⟩]

theorem isShort_iff {words : List Str} {word : Str} :
    isShort words word = true ↔ ∃ word2 ∈ words, word2 ≠ word ∧ word <:+: word2 := by
  simp only [isShort, List.any_eq_true, Bool.and_eq_true, find_isSome, bne_iff_ne]
  constructor
  · rintro ⟨word2, hmem, hin, hne⟩
    exact ⟨word2, hmem, hne, hin⟩
  · rintro ⟨word2, hmem, hne, hin⟩
    exact ⟨word2, hmem, hin, hne⟩

/-- **A count class is never left out as a whole**: its longest word is not
short. -/
theorem exists_not_isShort {words : List Str} (h : words ≠ []) :
    ∃ word ∈ words, isShort words word = false := by
  obtain ⟨word, hword, hmax⟩ :=
    words.toFinset.exists_max_image List.length (by simpa using h)
  have hmem : word ∈ words := List.mem_toFinset.mp hword
  refine ⟨word, hmem, ?_⟩
  by_contra hshort
  obtain ⟨word2, hword2, hne, hin⟩ := isShort_iff.mp (by simpa using hshort)
  have hle := hmax word2 (List.mem_toFinset.mpr hword2)
  exact hne (hin.eq_of_length (le_antisymm hin.length_le hle)).symm

end Rank

/-! ## Reading the ranking back -/

/-- One call for each selected word that is counted often enough, with the count
divided by `min`. -/
structure CallsFor (m : MultiWord) (min : ℤ) (selected : Str → ℤ → Prop)
    (calls : List (Str × ℤ)) : Prop where
  once : (calls.map Prod.fst).Nodup
  mem_iff : ∀ w c, (w, c) ∈ calls ↔
    ∃ n, m[w]? = some n ∧ min ≤ n ∧ selected w n ∧ c = n / min

/-- A longer word of the same count contains this one. -/
def InLonger (m : MultiWord) (w : Str) (n : ℤ) : Prop :=
  ∃ w', m[w']? = some n ∧ w' ≠ w ∧ w <:+: w'

section Reading

variable {m : MultiWord} {min : ℤ}

theorem tdiv_eq_div {n : ℤ} (hmin : 0 < min) (h : min ≤ n) : n.tdiv min = n / min :=
  Int.tdiv_eq_ediv_of_nonneg (hmin.le.trans h)

theorem share_pos {n : ℤ} (hmin : 0 < min) (h : min ≤ n) : 0 < n / min := by
  rw [← Int.add_one_le_iff, Int.le_ediv_iff_mul_le hmin]
  simpa using h

theorem CallsFor.sendable {selected : Str → ℤ → Prop} {calls : List (Str × ℤ)}
    (h : CallsFor m min selected calls) (hmin : 0 < min) (hplain : ∀ w ∈ m, Plain w)
    (hint : IntValues m) : ∀ r ∈ calls, Sendable r := by
  rintro ⟨w, c⟩ hr
  obtain ⟨n, hn, hle, -, rfl⟩ := (h.mem_iff w c).mp hr
  refine ⟨hplain w ?_, share_pos hmin hle, ?_⟩
  · exact Std.TreeMap.mem_iff_isSome_getElem?.mpr (by rw [hn]; rfl)
  · exact (Int.ediv_le_self _ (hmin.le.trans hle)).trans (hint w n hn)

theorem repeatedRecords_calls (hmin : 0 < min) :
    CallsFor m min (fun _ _ => True) (repeatedRecords min m) where
  once := by
    have hfst : (repeatedRecords min m).map Prod.fst =
        (m.toList.filter (fun r => r.2 ≥ min)).map Prod.fst := by
      simp [repeatedRecords]
    rw [hfst]
    exact (keys_nodup m).sublist (List.filter_sublist.map _)
  mem_iff := by
    intro w c
    simp only [repeatedRecords, List.mem_map, List.mem_filter, decide_eq_true_eq,
      Prod.mk.injEq, true_and]
    constructor
    · rintro ⟨⟨w, n⟩, ⟨hr, hle⟩, rfl, rfl⟩
      exact ⟨n, Std.TreeMap.mem_toList_iff_getElem?_eq_some.mp hr, hle,
        tdiv_eq_div hmin hle⟩
    · rintro ⟨n, hn, hle, rfl⟩
      exact ⟨(w, n), ⟨Std.TreeMap.mem_toList_iff_getElem?_eq_some.mpr hn, hle⟩, rfl,
        tdiv_eq_div hmin hle⟩

/-- The words of a class that are not short. -/
theorem mem_ostrich_records {w : Str} {c : ℤ} :
    (w, c) ∈ OstrichWord.records (OstrichWord.localMultiWordRank m) ↔
      ∃ n, m[w]? = some n ∧ OstrichWord.minWordRepeateTimes_ ≤ n ∧ ¬ InLonger m w n ∧
        c = n / OstrichWord.minWordRepeateTimes_ := by
  have hmin : (0 : ℤ) < OstrichWord.minWordRepeateTimes_ := by decide
  have hshort : ∀ n, OstrichWord.isShort (withCount m.toList n) w = false ↔
      ¬ InLonger m w n := by
    intro n
    rw [← Bool.not_eq_true, isShort_iff]
    simp only [mem_withCount, InLonger]
  simp only [OstrichWord.records, List.mem_flatMap, List.mem_map, List.mem_filter,
    decide_eq_true_eq, Prod.mk.injEq]
  constructor
  · rintro ⟨⟨n, words⟩, hr, w', ⟨hw, hnot⟩, rfl, rfl⟩
    obtain ⟨hle, -, rfl⟩ := getElem?_localMultiWordRank.mp
      (Std.TreeMap.mem_toList_iff_getElem?_eq_some.mp hr)
    exact ⟨n, mem_withCount.mp hw, hle, (hshort n).mp hnot, tdiv_eq_div hmin hle⟩
  · rintro ⟨n, hn, hle, hnot, rfl⟩
    have hw := mem_withCount.mpr hn
    refine ⟨(n, withCount m.toList n), ?_, w, ⟨hw, (hshort n).mpr hnot⟩, rfl,
      tdiv_eq_div hmin hle⟩
    exact Std.TreeMap.mem_toList_iff_getElem?_eq_some.mpr
      (getElem?_localMultiWordRank.mpr ⟨hle, List.ne_nil_of_mem hw, rfl⟩)

theorem ostrich_records_nodup : ((OstrichWord.records
    (OstrichWord.localMultiWordRank m)).map Prod.fst).Nodup := by
  have hclass : ∀ r ∈ (OstrichWord.localMultiWordRank m).toList,
      r.2 = withCount m.toList r.1 := by
    intro r hr
    exact (getElem?_localMultiWordRank.mp
      (Std.TreeMap.mem_toList_iff_getElem?_eq_some.mp hr)).2.2
  have hfst : (OstrichWord.records (OstrichWord.localMultiWordRank m)).map Prod.fst =
      (OstrichWord.localMultiWordRank m).toList.flatMap (fun r =>
        r.2.filter (fun word => OstrichWord.isShort r.2 word = false)) := by
    simp [OstrichWord.records, List.map_flatMap, Function.comp_def]
  rw [hfst, List.nodup_flatMap]
  constructor
  · intro r hr
    rw [hclass r hr]
    exact (withCount_nodup m r.1).filter _
  · -- words of different classes have different counts
    apply List.Pairwise.imp_of_mem _
      (OstrichWord.localMultiWordRank m).distinct_keys_toList
    intro r r' hr hr' hne w hw hw'
    have hn := List.mem_of_mem_filter hw
    have hn' := List.mem_of_mem_filter hw'
    rw [hclass r hr, mem_withCount] at hn
    rw [hclass r' hr', mem_withCount] at hn'
    exact hne (Std.LawfulEqCmp.compare_eq_iff_eq.mpr
      (Option.some.inj (hn.symm.trans hn')))

theorem ostrich_calls :
    CallsFor m OstrichWord.minWordRepeateTimes_ (fun w n => ¬ InLonger m w n)
      (OstrichWord.records (OstrichWord.localMultiWordRank m)) :=
  ⟨ostrich_records_nodup, fun _ _ => mem_ostrich_records⟩

theorem pickupRepeated_calls (hmin : 0 < min) (hplain : ∀ w ∈ m, Plain w)
    (hint : IntValues m) :
    CallsFor m min (fun _ _ => True) ((pickupRepeated min m).flatMap eachWord) := by
  have hcalls := repeatedRecords_calls (m := m) hmin
  obtain ⟨b, hb, heq⟩ := pickupRepeated_holds min m
  rw [heq, eachWord_finish hb (hcalls.sendable hmin hplain hint)]
  · exact hcalls
  · intro hempty
    rw [repeatedRecords, List.isEmpty_iff.mp (Std.TreeMap.isEmpty_toList.trans hempty)]
    rfl

/-- **The server calls `fn` once for each word the client selected, with its
share, and for nothing else.** -/
theorem eachWord_pickup (m : MultiWord) (hplain : ∀ w ∈ m, Plain w)
    (hint : IntValues m) :
    CallsFor m ParrotWord.minWordRepeateTimes_ (fun _ _ => True)
      ((ParrotWord.pickupWordRanking m).flatMap eachWord) ∧
    CallsFor m PhoenixWord.minWordRepeateTimes_ (fun _ _ => True)
      ((PhoenixWord.pickupWordRanking m).flatMap eachWord) ∧
    CallsFor m OstrichWord.minWordRepeateTimes_ (fun w n => ¬ InLonger m w n)
      ((OstrichWord.pickupWordRanking m).flatMap eachWord) := by
  refine ⟨pickupRepeated_calls (by decide) hplain hint,
    pickupRepeated_calls (by decide) hplain hint, ?_⟩
  obtain ⟨b, hb, heq⟩ := ostrich_holds m
  rw [heq, eachWord_finish hb (ostrich_calls.sendable (by decide) hplain hint)]
  · exact ostrich_calls
  · intro hempty
    rw [OstrichWord.records,
      List.isEmpty_iff.mp (Std.TreeMap.isEmpty_toList.trans hempty)]
    rfl

/-- One pair of characters counted six times, one word counted twice. -/
def twoCounts : MultiWord := ((∅ : MultiWord).insert (charX ++ charY) 6).insert charX 2

theorem twoCounts_getElem? (w : Str) :
    twoCounts[w]? = if charX = w then some 2 else
      if charX ++ charY = w then some 6 else none := by
  rw [twoCounts, Std.TreeMap.getElem?_insert, Std.TreeMap.getElem?_insert]
  simp [Std.LawfulEqCmp.compare_eq_iff_eq]

theorem eachWord_pickup_twoCounts :
    CallsFor twoCounts ParrotWord.minWordRepeateTimes_ (fun _ _ => True)
      ((ParrotWord.pickupWordRanking twoCounts).flatMap eachWord) ∧
    CallsFor twoCounts PhoenixWord.minWordRepeateTimes_ (fun _ _ => True)
      ((PhoenixWord.pickupWordRanking twoCounts).flatMap eachWord) ∧
    CallsFor twoCounts OstrichWord.minWordRepeateTimes_ (fun w n => ¬ InLonger twoCounts w n)
      ((OstrichWord.pickupWordRanking twoCounts).flatMap eachWord) := by
  apply eachWord_pickup
  · intro w hw
    rw [Std.TreeMap.mem_iff_isSome_getElem?, twoCounts_getElem?] at hw
    split at hw
    · rename_i hx
      rw [← hx]
      decide +kernel
    · split at hw
      · rename_i hxy
        rw [← hxy]
        decide +kernel
      · exact absurd hw (by decide)
  · intro w n hn
    rw [twoCounts_getElem?] at hn
    split at hn
    · rw [← Option.some.inj hn]
      decide
    · split at hn
      · rw [← Option.some.inj hn]
        decide
      · exact absurd hn (by simp)

example : (ParrotWord.pickupWordRanking twoCounts).flatMap eachWord =
    [(charX ++ charY, 1)] := by
  decide

end Reading

end WaiNative

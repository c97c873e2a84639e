import WaiNative.Cxx.Fixed
import WaiNative.Cxx.Map

/-!
# Word dictionaries

`DictionaryStorage`, in which the server adds up the counts of the words, and
`MasterDBWord`, through which the segmenters read such a dictionary: the counts
themselves (`getPred`), the weights that `castMaster` derives from them
(`getDoublePred`) and the range of the weights.

A `leveldb` database is a map from byte strings to byte strings in the order of
its keys, and both databases are open. A function that throws returns `none`.

- `castMaster_eq`: what `castMaster` writes when the counts can be read;
- `getRangeMin_pos`: the least weight is positive when all weights are.
-/

namespace WaiNative

open Cxx

/-- A `leveldb` database. -/
abbrev LevelDB := Std.TreeMap Str Str

/-! ## `DictionaryStorage` -/

/-- The value of `sum += v` for a `long long` and an `unsigned long long`. -/
def addUnsigned (sum : ℤ) (v : ℕ) : ℤ := (sum + v).bmod twoPow64

def DictionaryStorage.putWord (save_ : LevelDB) (word : Str) (counter : ℤ) : LevelDB :=
  let sum :=
    match save_[word]? with
    | some valueStr =>
        match stoull valueStr with
        | some v => addUnsigned counter v
        | none => counter
    | none => counter
  save_.insert word (to_string sum)

/-! ## `MasterDBWord` -/

namespace MasterDBWord

def getPred (gMasterdb : LevelDB) (word : Str) : Option ℤ :=
  match gMasterdb[word]? with
  | some valueStr => if valueStr = [] then some (-1) else stoi valueStr
  | none => some (-1)

def getDoublePred (gMasterDBCast : LevelDB) (word : Str) : Option ℚ :=
  match gMasterDBCast[word]? with
  | some valueStr => if valueStr = [] then some (-1) else stod valueStr
  | none => some (-1)

/-- The first loop of `castMaster`. -/
def topRank (gMasterdb : LevelDB) : Option ℤ :=
  gMasterdb.toList.foldlM (fun topRank it => do
    let value ← stoi it.2
    return if value > topRank then value else topRank) 0

def castMaster (gMasterdb gMasterDBCast : LevelDB) : Option LevelDB := do
  let topRank ← topRank gMasterdb
  gMasterdb.toList.foldlM (fun gMasterDBCast it => do
    let value ← stoi it.2
    return gMasterDBCast.insert it.1 (toFixed ((value : ℚ) / topRank))) gMasterDBCast

/-- The largest `double`. -/
def DBL_MAX : ℚ := (2 ^ 53 - 1) * 2 ^ 971

/-- The smallest normalised positive `double`. -/
def DBL_MIN : ℚ := 1 / 2 ^ 1022

/-- The members `dmax_` and `dmin_`. -/
structure Range where
  dmax_ : ℚ
  dmin_ : ℚ

/-- As the constructor leaves them. -/
def Range.init : Range := ⟨DBL_MIN, DBL_MAX⟩

/-- One turn of the loop in `findRange`; a text that is no number is passed
over. -/
def Range.see (r : Range) (valueStr : Str) : Range :=
  match stod valueStr with
  | some value =>
      { dmax_ := if value > r.dmax_ then value else r.dmax_
        dmin_ := if value < r.dmin_ then value else r.dmin_ }
  | none => r

def findRange (gMasterDBCast : LevelDB) (r : Range) : Range :=
  gMasterDBCast.toList.foldl (fun r it => r.see it.2) r

/-- `getRangeMin`, and the members after it. -/
def getRangeMin (gMasterDBCast : LevelDB) (r : Range) : ℚ × Range :=
  if r.dmin_ < DBL_MAX then (r.dmin_, r)
  else
    let r := findRange gMasterDBCast r
    (r.dmin_, r)

end MasterDBWord

/-! ## Loops that read a number -/

section Loops

variable {α β σ : Type} {f : α → Option β} {g : σ → α → β → σ}

/-- If every number can be read, the loop runs to its end. -/
theorem foldlM_read {value : α → β} : ∀ {l : List α} (s : σ),
    (∀ x ∈ l, f x = some (value x)) →
    l.foldlM (fun s x => do
      let v ← f x
      return g s x v) s = some (l.foldl (fun s x => g s x (value x)) s)
  | [], _, _ => rfl
  | x :: l, s, h => by
      have hx := h x List.mem_cons_self
      have hl := foldlM_read (l := l) (g s x (value x))
        (fun y hy => h y (List.mem_cons_of_mem _ hy))
      rw [List.foldlM_cons, hx]
      exact hl

/-- If the loop runs to its end, every number could be read. -/
theorem foldlM_read_some : ∀ {l : List α} {s t : σ},
    l.foldlM (fun s x => do
      let v ← f x
      return g s x v) s = some t → ∀ x ∈ l, ∃ v, f x = some v
  | [], _, _, _ => by simp
  | x :: l, s, t, h => by
      rw [List.foldlM_cons] at h
      cases hx : f x with
      | none =>
          rw [hx] at h
          exact absurd h (by simp)
      | some v =>
          rw [hx] at h
          intro y hy
          rcases List.mem_cons.mp hy with rfl | hy
          · exact ⟨v, hx⟩
          · exact foldlM_read_some (s := g s x v) h y hy

/-- Taking over larger values gives the largest. -/
theorem foldl_larger (value : α → ℤ) : ∀ (l : List α) (top : ℤ),
    (∀ x ∈ l, value x ≤ l.foldl (fun t x => if value x > t then value x else t) top) ∧
    top ≤ l.foldl (fun t x => if value x > t then value x else t) top ∧
    (l.foldl (fun t x => if value x > t then value x else t) top = top ∨
      ∃ x ∈ l, l.foldl (fun t x => if value x > t then value x else t) top = value x)
  | [], top => by simp
  | x :: l, top => by
      obtain ⟨hall, hle, hfrom⟩ := foldl_larger value l (if value x > top then value x else top)
      rw [List.foldl_cons]
      refine ⟨?_, ?_, ?_⟩
      · intro y hy
        rcases List.mem_cons.mp hy with rfl | hy
        · refine le_trans ?_ hle
          split <;> omega
        · exact hall y hy
      · refine le_trans ?_ hle
        split <;> omega
      · rcases hfrom with heq | ⟨y, hy, heq⟩
        · rw [heq]
          split
          · exact Or.inr ⟨x, List.mem_cons_self, rfl⟩
          · exact Or.inl rfl
        · exact Or.inr ⟨y, List.mem_cons_of_mem _ hy, heq⟩

end Loops

/-! ## What the readers find -/

namespace MasterDBWord

/-- The values of a dictionary are read as these counts. -/
def Reads (gMasterdb : LevelDB) (count : Str → ℤ) : Prop :=
  ∀ w ∈ gMasterdb, (gMasterdb[w]?).bind stoi = some (count w)

section Cast

variable {gMasterdb cast : LevelDB} {count : Str → ℤ}

theorem Reads.entry (h : Reads gMasterdb count) : ∀ it ∈ gMasterdb.toList,
    stoi it.2 = some (count it.1) := by
  intro it hit
  have hget := Std.TreeMap.mem_toList_iff_getElem?_eq_some.mp hit
  have hmem : it.1 ∈ gMasterdb :=
    Std.TreeMap.mem_iff_isSome_getElem?.mpr (by rw [hget]; rfl)
  have hread := h it.1 hmem
  rwa [hget] at hread

/-- The largest count, zero for no words. -/
def Top (gMasterdb : LevelDB) (count : Str → ℤ) (top : ℤ) : Prop :=
  (∀ w ∈ gMasterdb, count w ≤ top) ∧ (top = 0 ∨ ∃ w ∈ gMasterdb, top = count w)

/-- **What `castMaster` writes**: each count divided by the largest. -/
theorem castMaster_eq (h : Reads gMasterdb count) (gMasterDBCast : LevelDB) :
    ∃ top cast, Top gMasterdb count top ∧
      castMaster gMasterdb gMasterDBCast = some cast ∧
      ∀ w, cast[w]? =
        if w ∈ gMasterdb then some (toFixed ((count w : ℚ) / top)) else gMasterDBCast[w]? := by
  let top := gMasterdb.toList.foldl
    (fun t it => if count it.1 > t then count it.1 else t) 0
  have htop : topRank gMasterdb = some top :=
    foldlM_read (g := fun t (_ : Str × Str) v => if v > t then v else t) 0 h.entry
  have hcast : castMaster gMasterdb gMasterDBCast = some (gMasterdb.toList.foldl
      (fun m it => m.insert it.1 (toFixed ((count it.1 : ℚ) / top))) gMasterDBCast) := by
    rw [castMaster, htop]
    exact foldlM_read (g := fun (m : LevelDB) (it : Str × Str) (v : ℤ) =>
      m.insert it.1 (toFixed ((v : ℚ) / top))) gMasterDBCast h.entry
  obtain ⟨hall, -, hfrom⟩ :=
    foldl_larger (fun it : Str × Str => count it.1) gMasterdb.toList 0
  refine ⟨top, _, ⟨?_, ?_⟩, hcast, ?_⟩
  · intro w hw
    obtain ⟨it, hit, rfl⟩ := List.mem_map.mp (Map.mem_iff_exists_toList.mp hw)
    exact hall it hit
  · rcases hfrom with heq | ⟨it, hit, heq⟩
    · exact Or.inl heq
    · exact Or.inr ⟨it.1, Map.mem_iff_exists_toList.mpr (List.mem_map_of_mem hit), heq⟩
  · intro w
    rw [Map.getElem?_foldl_insert (fun w => toFixed ((count w : ℚ) / top)) w _ _
      (fun _ _ => rfl)]
    by_cases hw : w ∈ gMasterdb
    · rw [if_pos hw, if_pos (Map.mem_iff_exists_toList.mp hw)]
    · rw [if_neg hw, if_neg (fun h => hw (Map.mem_iff_exists_toList.mpr h))]

/-- When `castMaster` returns, every count could be read. -/
theorem castMaster_reads {gMasterDBCast : LevelDB}
    (h : castMaster gMasterdb gMasterDBCast = some cast) :
    ∀ w ∈ gMasterdb, ∃ n, (gMasterdb[w]?).bind stoi = some n := by
  intro w hw
  obtain ⟨it, hit, rfl⟩ := List.mem_map.mp (Map.mem_iff_exists_toList.mp hw)
  rw [Std.TreeMap.mem_toList_iff_getElem?_eq_some.mp hit]
  simp only [castMaster, Option.bind_eq_bind, Option.bind_eq_some_iff] at h
  obtain ⟨top, htop, -⟩ := h
  exact foldlM_read_some htop it hit

end Cast

section Range

theorem Range.see_pos {r : Range} {valueStr : Str} (hr : 0 < r.dmin_)
    (hpos : ∀ x, stod valueStr = some x → 0 < x) : 0 < (r.see valueStr).dmin_ := by
  unfold Range.see
  split
  · rename_i value hvalue
    show 0 < if value < r.dmin_ then value else r.dmin_
    split
    · exact hpos value hvalue
    · exact hr
  · exact hr

theorem findRange_pos {gMasterDBCast : LevelDB} {r : Range} (hr : 0 < r.dmin_)
    (hpos : ∀ it ∈ gMasterDBCast.toList, ∀ x, stod it.2 = some x → 0 < x) :
    0 < (findRange gMasterDBCast r).dmin_ := by
  unfold findRange
  generalize gMasterDBCast.toList = l at hpos
  induction l generalizing r with
  | nil => exact hr
  | cons it l ih =>
      exact ih (Range.see_pos hr (hpos it List.mem_cons_self))
        (fun x hx => hpos x (List.mem_cons_of_mem _ hx))

/-- **The least weight is positive when all weights are.** -/
theorem getRangeMin_pos {gMasterDBCast : LevelDB}
    (hpos : ∀ it ∈ gMasterDBCast.toList, ∀ x, stod it.2 = some x → 0 < x) :
    0 < (getRangeMin gMasterDBCast Range.init).1 := by
  have hmax : ¬ Range.init.dmin_ < DBL_MAX := lt_irrefl _
  have hinit : 0 < Range.init.dmin_ := by
    unfold Range.init DBL_MAX
    norm_num
  rw [getRangeMin, if_neg hmax]
  exact findRange_pos hinit hpos

end Range

end MasterDBWord

end WaiNative

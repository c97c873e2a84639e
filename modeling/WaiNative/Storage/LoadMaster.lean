import WaiNative.Storage.MasterDBWord
import WaiNative.Theory.Runs

/-!
# Loading a dictionary

`loadMasterFromDB` opens the master store of a dictionary and, beside it, the cast
store with the weights. A cast store that exists is taken as it is, unless the cast
is forced; `castMaster` puts one weight after the other and deletes none. So a cast
that was broken off, one of an earlier master, and words that the master no longer
has stay in the store and are taken for its weights (`partial_cast_accepted`).

The state records by whom the cast store has been written (`casts`); no function
reads it. A load that returns true leaves the weights of the current master when all
that was ever put are words of the current master and, unless it is forced, the last
cast ran to its end on the current master (`load_complete`).
-/

namespace WaiNative

open Cxx Runs

/-! ## The stores -/

/-- One cast: the entries of the master it read, and how many weights it has put. -/
structure CastRun where
  entries : List (Str × Str)
  puts : ℕ
deriving DecidableEq

/-- The words whose weights it has put. -/
def CastRun.words (r : CastRun) : List Str := (r.entries.take r.puts).map Prod.fst

/-- The two stores of a dictionary; `none` is a directory that does not exist. `held`
says that they are open, so that nobody else can open them. -/
structure CastStores where
  gMasterdb : Option LevelDB
  gMasterDBCast : Option LevelDB
  held : Bool
  casts : List CastRun

namespace CastStores

/-- A dictionary that has never been cast. -/
def fresh (gMasterdb : Option LevelDB) : CastStores := ⟨gMasterdb, none, false, []⟩

/-- `castMaster`, broken off behind `puts` weights. -/
def castPart (gMasterdb gMasterDBCast : LevelDB) (puts : ℕ) : Option LevelDB := do
  let topRank ← MasterDBWord.topRank gMasterdb
  (gMasterdb.toList.take puts).foldlM (fun gMasterDBCast it => do
    let value ← stoi it.2
    return gMasterDBCast.insert it.1 (toFixed ((value : ℚ) / topRank))) gMasterDBCast

/-- Whether a load casts: it is forced to, or there is no cast store
(`isExistsCastDB`). -/
def mustCast (s : CastStores) (forceCast : Bool) : Bool :=
  forceCast || s.gMasterDBCast.isNone

/-- The cast store is opened, and created if it is missing, then `puts` weights are
put. The first loop of `castMaster` reads all counts, so one that is no number ends it
before the first put. -/
def castMasterDB (s : CastStores) (gMasterdb : LevelDB) (puts : ℕ) : CastStores × Bool :=
  let gMasterDBCast := s.gMasterDBCast.getD ∅
  match castPart gMasterdb gMasterDBCast puts with
  | some gMasterDBCast =>
      ({ s with
          gMasterDBCast := some gMasterDBCast
          casts := ⟨gMasterdb.toList, puts⟩ :: s.casts }, true)
  | none => ({ s with gMasterDBCast := some gMasterDBCast }, false)

/-- `loadMasterFromDB`, and what it returns; `none` is the exception of `stoi`. -/
def loadMasterFromDB (s : CastStores) (forceCast : Bool) : CastStores × Option Bool :=
  match s.gMasterdb with
  | some gMasterdb =>
      if s.held then (s, some false)
      else if s.mustCast forceCast then
        let (s, ok) := s.castMasterDB gMasterdb gMasterdb.toList.length
        ({ s with held := true }, if ok then some true else none)
      else ({ s with held := true }, some true)
  | none => (s, some false)

/-- What happens to the stores: a load, a crash during one behind some puts, the
stores being closed (`unloadMasterFromDB`, or the end of the process), another master
in place of the old one. -/
inductive Action
  | load (forceCast : Bool)
  | crash (forceCast : Bool) (puts : ℕ)
  | unload
  | replace (gMasterdb : Option LevelDB)

/-- Only a load can crash, and the master is replaced between loads. -/
def step (s : CastStores) : Action → Option CastStores
  | .load forceCast => some (s.loadMasterFromDB forceCast).1
  | .crash forceCast puts =>
      match s.gMasterdb with
      | some gMasterdb =>
          if s.held then none
          else if s.mustCast forceCast then some (s.castMasterDB gMasterdb puts).1
          else some s
      | none => none
  | .unload => some { s with held := false }
  | .replace gMasterdb => if s.held then none else some { s with gMasterdb := gMasterdb }

/-! ## What is claimed and when -/

/-- The cast store holds the words of the master, each with its count divided by the
largest one, and nothing else. -/
def Complete (s : CastStores) : Prop :=
  ∃ gMasterdb cast count top, s.gMasterdb = some gMasterdb ∧ s.gMasterDBCast = some cast ∧
    MasterDBWord.Reads gMasterdb count ∧ MasterDBWord.Top gMasterdb count top ∧
    ∀ w, cast[w]? = if w ∈ gMasterdb then some (toFixed ((count w : ℚ) / top)) else none

/-- Every word that was ever put into the cast store is one of the master. -/
def OwnWords (s : CastStores) (gMasterdb : LevelDB) : Prop :=
  ∀ r ∈ s.casts, ∀ w ∈ r.words, w ∈ gMasterdb

/-- The condition on a step. A load finds only words of the current master; one that
does not cast finds that the last cast ran to its end, on the current master. -/
def Current (s : CastStores) : Action → Prop
  | .load forceCast =>
      match s.gMasterdb with
      | some gMasterdb => s.OwnWords gMasterdb ∧
          (s.mustCast forceCast = false →
            s.casts.head? = some ⟨gMasterdb.toList, gMasterdb.toList.length⟩)
      | none => True
  | _ => True

/-! ## One cast -/

section Cast

variable {gMasterdb gMasterDBCast cast : LevelDB} {puts : ℕ} {w : Str}

theorem castPart_all : castPart gMasterdb gMasterDBCast gMasterdb.toList.length =
    MasterDBWord.castMaster gMasterdb gMasterDBCast := by
  rw [castPart, List.take_length]
  rfl

/-- A cast deletes nothing and adds the words whose weights it puts. -/
theorem mem_castPart (h : castPart gMasterdb gMasterDBCast puts = some cast) :
    w ∈ cast ↔ w ∈ gMasterDBCast ∨ w ∈ (gMasterdb.toList.take puts).map Prod.fst := by
  obtain ⟨top, -, hfold⟩ := Option.bind_eq_some_iff.mp h
  clear h
  generalize gMasterdb.toList.take puts = l at hfold
  induction l generalizing gMasterDBCast with
  | nil =>
      obtain rfl := Option.some.inj hfold
      simp
  | cons it l ih =>
      rw [List.foldlM_cons] at hfold
      obtain ⟨next, hput, hrest⟩ := Option.bind_eq_some_iff.mp hfold
      obtain ⟨value, -, hput⟩ := Option.bind_eq_some_iff.mp hput
      obtain rfl := Option.some.inj hput
      rw [ih hrest, Std.TreeMap.mem_insert, Std.LawfulEqCmp.compare_eq_iff_eq, List.map_cons,
        List.mem_cons]
      constructor
      · rintro ((rfl | hin) | hin)
        · exact Or.inr (Or.inl rfl)
        · exact Or.inl hin
        · exact Or.inr (Or.inr hin)
      · rintro (hin | rfl | hin)
        · exact Or.inl (Or.inr hin)
        · exact Or.inl (Or.inl rfl)
        · exact Or.inr hin

/-- What a whole cast leaves is complete when it found no foreign words. -/
theorem complete_of_cast {s : CastStores} {before : LevelDB}
    (hmaster : s.gMasterdb = some gMasterdb) (hcast : s.gMasterDBCast = some cast)
    (h : MasterDBWord.castMaster gMasterdb before = some cast)
    (hown : ∀ w ∈ cast, w ∈ gMasterdb) : s.Complete := by
  have hreads : MasterDBWord.Reads gMasterdb
      (fun w => ((gMasterdb[w]?).bind stoi).getD 0) := by
    intro w hw
    obtain ⟨n, hn⟩ := MasterDBWord.castMaster_reads h w hw
    show (gMasterdb[w]?).bind stoi = some (((gMasterdb[w]?).bind stoi).getD 0)
    rw [hn, Option.getD_some]
  obtain ⟨top, cast', htop, hcast', hweights⟩ := MasterDBWord.castMaster_eq hreads before
  obtain rfl := Option.some.inj (hcast'.symm.trans h)
  refine ⟨gMasterdb, cast', _, top, hmaster, hcast, hreads, htop, ?_⟩
  intro w
  by_cases hw : w ∈ gMasterdb
  · rw [hweights, if_pos hw, if_pos hw]
  · rw [if_neg hw, Std.TreeMap.getElem?_eq_none]
    exact fun hin => hw (hown w hin)

end Cast

/-! ## What every run keeps -/

/-- The words of the cast store are those that casts have put, and a last cast that
ran to its end has left its result. -/
structure Recorded (s : CastStores) : Prop where
  words : ∀ cast, s.gMasterDBCast = some cast → ∀ w, w ∈ cast ↔ ∃ r ∈ s.casts, w ∈ r.words
  created : s.casts ≠ [] → s.gMasterDBCast.isSome
  last : ∀ r rest cast, s.casts = r :: rest → r.puts = r.entries.length →
    s.gMasterDBCast = some cast → ∃ before, ∀ gMasterdb : LevelDB,
      gMasterdb.toList = r.entries → MasterDBWord.castMaster gMasterdb before = some cast

section Runs

variable {s t : CastStores} {gMasterdb : LevelDB} {forceCast : Bool} {puts : ℕ}

theorem recorded_fresh (gMasterdb : Option LevelDB) : (fresh gMasterdb).Recorded where
  words := fun _ h => absurd h (by simp [fresh])
  created := fun h => absurd rfl h
  last := fun _ _ _ h => absurd h (by simp [fresh])

/-- What the stores outside `gMasterdb` and `held` look like decides it. -/
theorem Recorded.congr (h : s.Recorded) (hcast : t.gMasterDBCast = s.gMasterDBCast)
    (hcasts : t.casts = s.casts) : t.Recorded where
  words := by rw [hcast, hcasts]; exact h.words
  created := by rw [hcast, hcasts]; exact h.created
  last := by rw [hcast, hcasts]; exact h.last

theorem Recorded.castMasterDB (h : s.Recorded) (gMasterdb : LevelDB) (puts : ℕ) :
    (s.castMasterDB gMasterdb puts).1.Recorded := by
  have hbefore : ∀ w, w ∈ s.gMasterDBCast.getD ∅ ↔ ∃ r ∈ s.casts, w ∈ r.words := by
    intro w
    cases hcast : s.gMasterDBCast with
    | some cast => exact h.words cast hcast w
    | none =>
        have hnil : s.casts = [] := by
          by_contra hne
          have hsome := h.created hne
          rw [hcast] at hsome
          exact absurd hsome (by simp)
        simp [hnil]
  unfold CastStores.castMasterDB
  dsimp only
  split
  · rename_i cast hpart
    refine ⟨?_, fun _ => rfl, ?_⟩
    · intro cast' hcast' w
      obtain rfl := Option.some.inj hcast'
      rw [mem_castPart hpart, hbefore, List.exists_mem_cons_iff, or_comm]
      rfl
    · rintro r rest cast' hcons hfull hcast'
      obtain rfl := Option.some.inj hcast'
      obtain ⟨rfl, rfl⟩ := List.cons.inj hcons
      refine ⟨s.gMasterDBCast.getD ∅, ?_⟩
      intro other hother
      obtain rfl : puts = gMasterdb.toList.length := hfull
      have hentries : other.toList = gMasterdb.toList := hother
      rw [castPart_all] at hpart
      rw [← hpart, MasterDBWord.castMaster, MasterDBWord.castMaster, MasterDBWord.topRank,
        MasterDBWord.topRank, hentries]
  · refine ⟨?_, fun _ => rfl, ?_⟩
    · intro cast' hcast' w
      obtain rfl := Option.some.inj hcast'
      exact hbefore w
    · intro r rest cast' hcons hfull hcast'
      have hsome := h.created (by rw [hcons]; simp)
      obtain ⟨cast, hcast⟩ := Option.isSome_iff_exists.mp hsome
      refine h.last r rest cast' hcons hfull ?_
      rw [hcast, Option.getD_some] at hcast'
      exact hcast.trans hcast'

theorem Recorded.loadMasterFromDB (h : s.Recorded) (forceCast : Bool) :
    (s.loadMasterFromDB forceCast).1.Recorded := by
  unfold CastStores.loadMasterFromDB
  split
  · split
    · exact h
    · split
      · exact (h.castMasterDB _ _).congr rfl rfl
      · exact h.congr rfl rfl
  · exact h

/-- **Every step keeps it.** -/
theorem Recorded.step (h : s.Recorded) (a : Action) (hstep : step s a = some t) :
    t.Recorded := by
  cases a with
  | load forceCast =>
      obtain rfl := Option.some.inj hstep
      exact h.loadMasterFromDB forceCast
  | crash forceCast puts =>
      unfold CastStores.step at hstep
      dsimp only at hstep
      split at hstep
      · split at hstep
        · exact absurd hstep (by simp)
        · split at hstep
          · obtain rfl := Option.some.inj hstep
            exact h.castMasterDB _ _
          · obtain rfl := Option.some.inj hstep
            exact h
      · exact absurd hstep (by simp)
  | unload =>
      obtain rfl := Option.some.inj hstep
      exact h.congr rfl rfl
  | replace gMasterdb =>
      unfold CastStores.step at hstep
      dsimp only at hstep
      split at hstep
      · exact absurd hstep (by simp)
      · obtain rfl := Option.some.inj hstep
        exact h.congr rfl rfl

theorem recorded_of_run {m : Option LevelDB} {acts : List Action}
    (hrun : run CastStores.step (fresh m) acts = some s) : s.Recorded :=
  invariant_always (fun _ a _ h hstep => h.step a hstep) (recorded_fresh m) hrun

end Runs

/-! ## What a load leaves -/

section Loads

variable {s : CastStores} {forceCast : Bool}

/-- What a load does that returns true: it casts to the end, or it takes the cast
store as it is. -/
theorem load_cases (h : (s.loadMasterFromDB forceCast).2 = some true) :
    ∃ gMasterdb, s.gMasterdb = some gMasterdb ∧
      ((s.mustCast forceCast = true ∧ ∃ cast,
        MasterDBWord.castMaster gMasterdb (s.gMasterDBCast.getD ∅) = some cast ∧
        (s.loadMasterFromDB forceCast).1 = ⟨some gMasterdb, some cast, true,
          ⟨gMasterdb.toList, gMasterdb.toList.length⟩ :: s.casts⟩) ∨
      (s.mustCast forceCast = false ∧
        (s.loadMasterFromDB forceCast).1 = { s with held := true })) := by
  unfold loadMasterFromDB castMasterDB at h ⊢
  cases hmaster : s.gMasterdb with
  | none =>
      rw [hmaster] at h
      exact absurd h (by simp)
  | some gMasterdb =>
      rw [hmaster] at h
      refine ⟨gMasterdb, rfl, ?_⟩
      dsimp only at h ⊢
      split at h
      · exact absurd h (by simp)
      · rename_i hheld
        rw [if_neg hheld]
        split at h
        · rename_i hmust
          left
          rw [if_pos hmust]
          cases hpart : castPart gMasterdb (s.gMasterDBCast.getD ∅) gMasterdb.toList.length with
          | none =>
              rw [hpart] at h
              exact absurd h (by simp)
          | some cast =>
              rw [castPart_all] at hpart
              exact ⟨hmust, cast, hpart, rfl⟩
        · rename_i hmust
          rw [if_neg hmust]
          exact Or.inr ⟨by simpa using hmust, rfl⟩

/-- Behind any run, a load that meets the condition and returns true leaves the
weights of the current master. -/
theorem complete_of_load (hrec : s.Recorded) (hcurrent : Current s (.load forceCast))
    (htrue : (s.loadMasterFromDB forceCast).2 = some true) :
    (s.loadMasterFromDB forceCast).1.Complete := by
  obtain ⟨gMasterdb, hmaster, hcases⟩ := load_cases htrue
  unfold Current at hcurrent
  rw [hmaster] at hcurrent
  obtain ⟨hown, hlast⟩ := hcurrent
  have hrec' := hrec.loadMasterFromDB forceCast
  rcases hcases with ⟨-, cast, hcast, heq⟩ | ⟨hmust, heq⟩
  · rw [heq] at hrec' ⊢
    refine complete_of_cast rfl rfl hcast ?_
    intro w hw
    obtain ⟨r, hr, hwr⟩ := (hrec'.words cast rfl w).mp hw
    rcases List.mem_cons.mp hr with rfl | hr
    · obtain ⟨it, hit, rfl⟩ := List.mem_map.mp hwr
      exact Map.mem_iff_exists_toList.mpr
        (List.mem_map_of_mem (List.mem_of_mem_take hit))
    · exact hown r hr w hwr
  · rw [heq]
    have hhead := hlast hmust
    obtain ⟨rest, hcasts⟩ : ∃ rest, s.casts =
        ⟨gMasterdb.toList, gMasterdb.toList.length⟩ :: rest := by
      cases hcons : s.casts with
      | nil =>
          rw [hcons] at hhead
          exact absurd hhead (by simp)
      | cons r rest =>
          rw [hcons] at hhead
          exact ⟨rest, by rw [Option.some.inj hhead]⟩
    obtain ⟨cast, hcast⟩ := Option.isSome_iff_exists.mp (hrec.created (by rw [hcasts]; simp))
    obtain ⟨before, hbefore⟩ := hrec.last _ _ cast hcasts rfl hcast
    refine complete_of_cast hmaster hcast (hbefore gMasterdb rfl) ?_
    intro w hw
    obtain ⟨r, hr, hwr⟩ := (hrec.words cast hcast w).mp hw
    exact hown r hr w hwr

end Loads

/-- **In every run whose loads meet the condition, each load that returns true leaves
the weights of the current master.** -/
theorem loads_complete {gMasterdb : Option LevelDB} {acts : List Action}
    (hok : Along step Current (fresh gMasterdb) acts) :
    ∀ pre forceCast post s, acts = pre ++ .load forceCast :: post →
      run step (fresh gMasterdb) pre = some s →
      (s.loadMasterFromDB forceCast).2 = some true →
      (s.loadMasterFromDB forceCast).1.Complete := by
  rintro pre forceCast post s rfl hrun htrue
  exact complete_of_load (recorded_of_run hrun) (hok.at hrun) htrue

/-! ## A cast that is broken off -/

section Examples

def wordA : Str := [97]

def wordB : Str := [98]

/-- `a` counted twice, `b` once. -/
def twoWords : LevelDB :=
  DictionaryStorage.putWord (DictionaryStorage.putWord ∅ wordA 2) wordB 1

/-- As many `b` as `a`, and a new word. -/
def threeWords : LevelDB :=
  DictionaryStorage.putWord (DictionaryStorage.putWord twoWords wordB 1) [99] 1

/-- Cast, then grown and cast again by force, then loaded. -/
def recastRun : List Action :=
  [.load false, .unload, .replace (some threeWords), .load true, .unload, .load false]

instance (s : CastStores) (gMasterdb : LevelDB) : Decidable (s.OwnWords gMasterdb) :=
  inferInstanceAs (Decidable (∀ r ∈ s.casts, ∀ w ∈ r.words, w ∈ gMasterdb))

instance (s : CastStores) : ∀ a, Decidable (Current s a)
  | .load forceCast =>
      match h : s.gMasterdb with
      | some gMasterdb =>
          decidable_of_iff (s.OwnWords gMasterdb ∧ (s.mustCast forceCast = false →
            s.casts.head? = some ⟨gMasterdb.toList, gMasterdb.toList.length⟩))
            (by rw [Current, h])
      | none => .isTrue (by rw [Current, h]; trivial)
  | .crash _ _ => .isTrue trivial
  | .unload => .isTrue trivial
  | .replace _ => .isTrue trivial

theorem loads_complete_recast :
    ∃ s, run step (fresh (some twoWords)) (recastRun.take 5) = some s ∧
      (s.loadMasterFromDB false).2 = some true ∧ (s.loadMasterFromDB false).1.Complete := by
  have hok : Along step Current (fresh (some twoWords)) recastRun := by decide
  have hrun : (run step (fresh (some twoWords)) (recastRun.take 5)).any
      (fun s => (s.loadMasterFromDB false).2 == some true) = true := by
    decide
  obtain ⟨s, hs, htrue⟩ := (Option.any_eq_true _ _).mp hrun
  have htrue' := eq_of_beq htrue
  exact ⟨s, hs, htrue', loads_complete hok _ false [] s rfl hs htrue'⟩

/-- A crash behind the first of two weights: the next load takes the cast store as it
is, without the second word. -/
theorem partial_cast_accepted :
    ∃ s, run step (fresh (some twoWords)) [.crash false 1] = some s ∧
      (s.loadMasterFromDB false).2 = some true ∧ ¬ (s.loadMasterFromDB false).1.Complete := by
  have hrun : (run step (fresh (some twoWords)) [.crash false 1]).any (fun s =>
      (s.loadMasterFromDB false).2 == some true &&
        (s.loadMasterFromDB false).1.gMasterdb.all (fun m => m.contains wordB) &&
        (s.loadMasterFromDB false).1.gMasterDBCast.all (fun m => !m.contains wordB)) = true := by
    decide
  obtain ⟨s, hs, htest⟩ := (Option.any_eq_true _ _).mp hrun
  rw [Bool.and_eq_true, Bool.and_eq_true] at htest
  obtain ⟨⟨htrue, hmaster⟩, hcast⟩ := htest
  refine ⟨s, hs, eq_of_beq htrue, ?_⟩
  rintro ⟨m, cast, count, top, hm, hc, -, -, hweights⟩
  rw [hm] at hmaster
  rw [hc] at hcast
  have hin : wordB ∈ m := hmaster
  have hout : wordB ∉ cast := by
    have hfalse : cast.contains wordB = false := by simpa using hcast
    rw [Std.TreeMap.mem_iff_contains, hfalse]
    exact Bool.false_ne_true
  have hsome := hweights wordB
  rw [if_pos hin, Std.TreeMap.getElem?_eq_none hout] at hsome
  exact absurd hsome (by simp)

end Examples

end CastStores

end WaiNative

import WaiNative.Dataset.HashArchive
import WaiNative.Theory.ResumedPass
import WaiNative.Theory.Runs

/-!
# `hashArchive/conv_sha1_2_hash.js`: the articles under their addresses

The script walks the directories of the old archive in the order of their names, writes each
text into the new archive under its address, unless a file is there, and notes the top
directory that it is in. A new run skips the directories whose name, as a number, is less
than the last one noted.

- `Conv.step`: the calls of the file system one by one, and the end of the process between
  two calls or in the middle of a write;
- `Layout`: the directories as `deep.js` leaves them, by beginnings of the names;
- `files_moved`: when a run comes to its end, each text is under its address, whatever
  happened to the runs before, but for the writes that were cut;
- `articles_archived`: what `collect-block.js` then makes of the new archive.
-/

namespace WaiNative.HashArchive

open Runs ResumedPass HashChain

/-! ## Numbers of directories -/

def hexDigit? (u : UInt16) : Option ℕ :=
  if 48 ≤ u ∧ u ≤ 57 then some (u.toNat - 48)
  else if 97 ≤ u ∧ u ≤ 102 then some (u.toNat - 87)
  else if 65 ≤ u ∧ u ≤ 70 then some (u.toNat - 55)
  else none

def digit (u : UInt16) : ℕ := (hexDigit? u).getD 0

/-- The value of hexadecimal digits. -/
def hexValue (digits : JsString) : ℕ := digits.foldl (fun n u => 16 * n + digit u) 0

def isWhiteSpace (u : UInt16) : Bool :=
  (9 ≤ u && u ≤ 13) || (0x2000 ≤ u && u ≤ 0x200A) ||
    [0x20, 0xA0, 0x1680, 0x2028, 0x2029, 0x202F, 0x205F, 0x3000, 0xFEFF].contains u

/-- The digits behind the sign; `0x` may stand in front of them. -/
def parseDigits (s : JsString) : Option ℕ :=
  let s := match s with
    | 48 :: 120 :: s => s
    | 48 :: 88 :: s => s
    | s => s
  match s.takeWhile (fun u => (hexDigit? u).isSome) with
  | [] => none
  | digits => some (hexValue digits)

/-- `parseInt(s,16)`; `none` is `NaN`. -/
def parseInt16 (s : JsString) : Option ℤ :=
  match s.dropWhile isWhiteSpace with
  | 43 :: s => (parseDigits s).map Int.ofNat
  | 45 :: s => (parseDigits s).map (fun n => -Int.ofNat n)
  | s => (parseDigits s).map Int.ofNat

/-! ## The script -/

/-- A file of the old archive: the directories above it, and its text. -/
structure OldFile where
  path : List JsString
  content : JsString
deriving DecidableEq

/-- The first `if` of `onNewDir`. -/
def skips (resume : Option JsString) (leaf : JsString) : Bool :=
  match resume with
  | none => false
  | some top =>
      if top = [] then false
      else match parseInt16 top, parseInt16 leaf with
        | some resumeTop, some leafNum => decide (leafNum < resumeTop)
        | _, _ => false

mutual

/-- The files for which the loop of `onNewDir` calls `onNewFile`, in their order. -/
def filesOf (resume : Option JsString) (path : List JsString) : List Entry → List OldFile
  | [] => []
  | dir :: dirs => filesOfEntry resume path dir ++ filesOf resume path dirs

def filesOfEntry (resume : Option JsString) (path : List JsString) : Entry → List OldFile
  | .dir name dirs => if skips resume name then [] else filesOf resume (path ++ [name]) dirs
  | .file _ content => [⟨path, content⟩]
  | .other _ => []

end

/-- `onNewDir(hashInputRoot,'ffff')` -/
def onInputRoot (resume : Option JsString) (dirs : List Entry) : List OldFile :=
  if skips resume (units "ffff") then [] else filesOf resume [] dirs

/-- What `addressOfContent` promises: SHAKE of 160 bits has no collisions, and base 58 needs
a character for each byte. -/
structure Addressing where
  addressOfContent : JsString → JsString
  injective : Function.Injective addressOfContent
  long : ∀ content, 20 ≤ (addressOfContent content).length

namespace Conv

def hashRoot : JsString := units "/watorvapor/wai.storage/hashArchive"

def deepHash (address : JsString) : ℕ → JsString
  | 0 => hashRoot
  | i + 1 => deepHash address i ++ 47 :: (address.drop (i * HASH_DIR_STEP)).take HASH_DIR_STEP

def newPath (address : JsString) : JsString := deepHash address DEPTH ++ 47 :: address

/-- The calls that `onNewFile` makes behind `readFileSync`. -/
inductive Call
  | mkdir (path : JsString)
  | write (file : OldFile)
  | onWriteResume (file : OldFile)
deriving DecidableEq

end Conv

/-- The new archive, with the text of each path; its directories; the files of `./resume` in
the order of their names, and whether they can be read; then the variables of the run, the
calls that it is in, and the files behind. `cut` are the paths whose write was cut by the end
of a process; no function reads it. -/
structure Conv where
  files : List (JsString × JsString)
  directories : List JsString
  resumes : List (JsString × Bool)
  ResumeFilePath : Option JsString
  calls : List Conv.Call
  todo : List OldFile
  cut : List JsString
deriving DecidableEq

namespace Conv

inductive Act
  /-- the next call of the file system -/
  | call
  /-- the process ends, then the next run -/
  | die
  /-- the process ends in the middle of a write, and this is in the file -/
  | cutWrite (content : JsString)
  /-- the process ends in the middle of a write of `./resume` -/
  | cutResume
deriving DecidableEq

section Steps

variable (addressOfContent : JsString → JsString) (root : List Entry)

/-- The last file of `./resume` that can be read. -/
def loadResuem (resumes : List (JsString × Bool)) : Option JsString :=
  resumes.foldl (fun resume file => if file.2 then some file.1 else resume) none

/-- The file takes its place among the names. -/
def putResume (top : JsString) (ok : Bool) : List (JsString × Bool) → List (JsString × Bool)
  | [] => [(top, ok)]
  | file :: files =>
      if top < file.1 then (top, ok) :: file :: files
      else if top = file.1 then (top, ok) :: files
      else file :: putResume top ok files

def callsOf (file : OldFile) : List Call :=
  (List.range DEPTH).map (fun i => .mkdir (deepHash (addressOfContent file.content) (i + 1))) ++
    [.write file, .onWriteResume file]

def pathOf (content : JsString) : JsString := newPath (addressOfContent content)

def existsSync (s : Conv) (path : JsString) : Bool := s.files.any (fun file => file.1 = path)

/-- The top directory, if `onWriteResume` notes it. -/
def noted (s : Conv) (file : OldFile) : Option JsString :=
  file.path.head?.filter (fun top => s.ResumeFilePath ≠ some top)

def exec (s : Conv) : Call → Conv
  | .mkdir path => { s with directories := mkdir s.directories path }
  | .write file =>
      let path := pathOf addressOfContent file.content
      if s.existsSync path then s else { s with files := s.files ++ [(path, file.content)] }
  | .onWriteResume file =>
      match s.noted file with
      | some top =>
          { s with
            ResumeFilePath := some top
            resumes := putResume top true s.resumes }
      | none => s

/-- A new process. -/
def start (s : Conv) : Conv :=
  { s with
    ResumeFilePath := none
    calls := []
    todo := onInputRoot (loadResuem s.resumes) root }

/-- The first run. -/
def new : Conv := start root ⟨[], [], [], none, [], [], []⟩

def step (s : Conv) : Act → Option Conv
  | .call =>
      match s.calls, s.todo with
      | call :: calls, _ => some (({ s with calls := calls }).exec addressOfContent call)
      | [], file :: todo => some { s with calls := callsOf addressOfContent file, todo := todo }
      | [], [] => none
  | .die => some (s.start root)
  | .cutWrite content =>
      match s.calls with
      | .write file :: _ =>
          let path := pathOf addressOfContent file.content
          if s.existsSync path then none
          else some (start root { s with
            files := s.files ++ [(path, content)]
            cut := s.cut ++ [path] })
      | _ => none
  | .cutResume =>
      match s.calls with
      | .onWriteResume file :: _ =>
          match s.noted file with
          | some top => some (start root { s with resumes := putResume top false s.resumes })
          | none => none
      | _ => none

/-- The run has come to its end. -/
def Ended (s : Conv) : Prop := s.calls = [] ∧ s.todo = []

end Steps

end Conv

/-! ## Names of hexadecimal digits -/

section Numbers

/-- A digit as the hashes have them. -/
def IsLowerHex (u : UInt16) : Prop := (48 ≤ u ∧ u ≤ 57) ∨ (97 ≤ u ∧ u ≤ 102)

instance : DecidablePred IsLowerHex := fun _ => inferInstanceAs (Decidable (_ ∨ _))

variable {u v : UInt16} {s t : JsString}

theorem toNat_of_hex (h : IsLowerHex u) :
    (48 ≤ u.toNat ∧ u.toNat ≤ 57) ∨ (97 ≤ u.toNat ∧ u.toNat ≤ 102) := h

theorem isWhiteSpace_of_hex (h : IsLowerHex u) : isWhiteSpace u = false := by
  have hbounds := toNat_of_hex h
  simp only [isWhiteSpace, UInt16.le_iff_toNat_le, ← UInt16.toNat_inj, UInt16.reduceToNat,
    List.contains_cons, List.contains_nil, Bool.or_eq_false_iff, Bool.and_eq_false_iff,
    decide_eq_false_iff_not, beq_eq_false_iff_ne, ne_eq, and_true]
  omega

theorem hexDigit_of_hex (h : IsLowerHex u) :
    hexDigit? u = some (if u.toNat ≤ 57 then u.toNat - 48 else u.toNat - 87) := by
  have hbounds := toNat_of_hex h
  simp only [hexDigit?, UInt16.le_iff_toNat_le, UInt16.reduceToNat]
  rcases hbounds with hdecimal | hletter
  · rw [if_pos hdecimal, if_pos hdecimal.2]
  · rw [if_neg (by omega), if_pos hletter, if_neg (by omega)]

theorem digit_lt (u : UInt16) : digit u < 16 := by
  have hbound := u.toNat_lt
  simp only [digit, hexDigit?, UInt16.le_iff_toNat_le, UInt16.reduceToNat]
  split
  · rw [Option.getD_some]
    omega
  split
  · rw [Option.getD_some]
    omega
  split
  · rw [Option.getD_some]
    omega
  · exact Nat.succ_pos _

/-- The order of the digits is that of their units. -/
theorem digit_lt_digit (hu : IsLowerHex u) (hv : IsLowerHex v) (h : u < v) :
    digit u < digit v := by
  have hbounds := toNat_of_hex hu
  have hbounds' := toNat_of_hex hv
  have hlt : u.toNat < v.toNat := h
  rw [digit, digit, hexDigit_of_hex hu, hexDigit_of_hex hv, Option.getD_some, Option.getD_some]
  split <;> split <;> omega

theorem foldl_hexValue (s : JsString) : ∀ n,
    s.foldl (fun n u => 16 * n + digit u) n = n * 16 ^ s.length + hexValue s := by
  induction s with
  | nil => exact fun n => (Nat.mul_one n).symm
  | cons u s ih =>
      intro n
      have hvalue : hexValue (u :: s) = digit u * 16 ^ s.length + hexValue s := by
        calc hexValue (u :: s) = (16 * 0 + digit u) * 16 ^ s.length + hexValue s := ih _
          _ = _ := by rw [Nat.mul_zero, Nat.zero_add]
      rw [List.foldl_cons, ih, hvalue, List.length_cons, pow_succ]
      ring

theorem hexValue_append (s t : JsString) :
    hexValue (s ++ t) = hexValue s * 16 ^ t.length + hexValue t := by
  have hfold : hexValue (s ++ t) = t.foldl (fun n u => 16 * n + digit u) (hexValue s) :=
    List.foldl_append
  rw [hfold, foldl_hexValue]

theorem hexValue_cons (u : UInt16) (s : JsString) :
    hexValue (u :: s) = digit u * 16 ^ s.length + hexValue s := by
  have happend := hexValue_append [u] s
  have hone : hexValue [u] = digit u := Nat.zero_add _
  rwa [hone] at happend

theorem hexValue_lt (s : JsString) : hexValue s < 16 ^ s.length := by
  induction s with
  | nil => exact Nat.one_pos
  | cons u s ih =>
      rw [hexValue_cons, List.length_cons, pow_succ]
      have hdigit := digit_lt u
      nlinarith [Nat.pos_of_ne_zero (pow_ne_zero s.length (two_ne_zero (α := ℕ)))]

/-- More digits do not make a number less. -/
theorem hexValue_le_append (s t : JsString) : hexValue s ≤ hexValue (s ++ t) := by
  rw [hexValue_append]
  calc hexValue s = hexValue s * 1 := (Nat.mul_one _).symm
    _ ≤ hexValue s * 16 ^ t.length := Nat.mul_le_mul_left _ (Nat.one_le_pow _ _ (by decide))
    _ ≤ _ := Nat.le_add_right _ _

/-- Of names of one length, the order is that of the numbers. -/
theorem hexValue_mono (hlength : s.length = t.length) : (∀ u ∈ s, IsLowerHex u) →
    (∀ u ∈ t, IsLowerHex u) → ¬ t < s → hexValue s ≤ hexValue t := by
  induction s generalizing t with
  | nil => exact fun _ _ _ => Nat.zero_le _
  | cons u s ih =>
      cases t with
      | nil => cases hlength
      | cons v t =>
          intro hall hall' hle
          have hlen : s.length = t.length := Nat.succ.inj hlength
          obtain ⟨hu, hs⟩ := List.forall_mem_cons.mp hall
          obtain ⟨hv, ht⟩ := List.forall_mem_cons.mp hall'
          rw [List.cons_lt_cons_iff, not_or] at hle
          rw [hexValue_cons, hexValue_cons, hlen]
          rcases Nat.lt_trichotomy u.toNat v.toNat with hlt | heq | hgt
          · have hdigit := digit_lt_digit hu hv hlt
            have hbound := hexValue_lt s
            rw [hlen] at hbound
            calc digit u * 16 ^ t.length + hexValue s
                ≤ digit u * 16 ^ t.length + 16 ^ t.length := Nat.add_le_add_left hbound.le _
              _ = (digit u + 1) * 16 ^ t.length := (Nat.succ_mul _ _).symm
              _ ≤ digit v * 16 ^ t.length := Nat.mul_le_mul_right _ hdigit
              _ ≤ _ := Nat.le_add_right _ _
          · obtain rfl := UInt16.toNat_inj.mp heq
            exact Nat.add_le_add_left (ih hlen hs ht (fun hlt => hle.2 ⟨rfl, hlt⟩)) _
          · exact absurd hgt hle.1

theorem parseDigits_hex (h : ∀ u ∈ s, IsLowerHex u) (hne : s ≠ []) :
    parseDigits s = some (hexValue s) := by
  have hall : s.takeWhile (fun u => (hexDigit? u).isSome) = s := by
    rw [List.takeWhile_eq_self_iff]
    intro u hu
    rw [hexDigit_of_hex (h u hu)]
    rfl
  unfold parseDigits
  split
  · exact absurd (h 120 (by simp)) (by decide)
  · exact absurd (h 88 (by simp)) (by decide)
  · dsimp only
    rw [hall]
    cases s with
    | nil => exact absurd rfl hne
    | cons u s => rfl

/-- The number of a directory. -/
theorem parseInt16_hex (h : ∀ u ∈ s, IsLowerHex u) (hne : s ≠ []) :
    parseInt16 s = some (hexValue s : ℤ) := by
  have hdigits : (parseDigits s).map Int.ofNat = some (hexValue s : ℤ) := by
    rw [parseDigits_hex h hne]
    rfl
  have hdrop : s.dropWhile isWhiteSpace = s := by
    cases s with
    | nil => rfl
    | cons u s =>
        rw [List.dropWhile_cons, isWhiteSpace_of_hex (h u List.mem_cons_self)]
        rfl
  unfold parseInt16
  rw [hdrop]
  split
  · exact absurd (h 43 List.mem_cons_self) (by decide)
  · exact absurd (h 45 List.mem_cons_self) (by decide)
  · exact hdigits

end Numbers

/-! ## The files of the old archive -/

section Files

variable {resume : Option JsString} {f g : OldFile} {top : JsString}

mutual

theorem filesOf_sublist : ∀ (path : List JsString) (dirs : List Entry),
    List.Sublist (filesOf resume path dirs) (filesOf none path dirs)
  | path, [] => by
      rw [filesOf, filesOf]
  | path, dir :: dirs => by
      rw [filesOf, filesOf]
      exact (filesOfEntry_sublist path dir).append (filesOf_sublist path dirs)

theorem filesOfEntry_sublist : ∀ (path : List JsString) (dir : Entry),
    List.Sublist (filesOfEntry resume path dir) (filesOfEntry none path dir)
  | path, .dir name dirs => by
      rw [filesOfEntry, filesOfEntry, if_neg (show ¬ skips none name = true from
        Bool.false_ne_true)]
      split
      · exact List.nil_sublist _
      · exact filesOf_sublist (path ++ [name]) dirs
  | path, .file name content => by
      rw [filesOfEntry, filesOfEntry]
  | path, .other name => by
      rw [filesOfEntry, filesOfEntry]

end

mutual

theorem path_filesOf : ∀ (path : List JsString) (dirs : List Entry),
    ∀ f ∈ filesOf none path dirs, path <+: f.path
  | path, [], f, hf => by
      rw [filesOf] at hf
      exact absurd hf List.not_mem_nil
  | path, dir :: dirs, f, hf => by
      rw [filesOf, List.mem_append] at hf
      rcases hf with hf | hf
      · exact path_filesOfEntry path dir f hf
      · exact path_filesOf path dirs f hf

theorem path_filesOfEntry : ∀ (path : List JsString) (dir : Entry),
    ∀ f ∈ filesOfEntry none path dir, path <+: f.path
  | path, .dir name dirs, f, hf => by
      rw [filesOfEntry, if_neg (show ¬ skips none name = true from Bool.false_ne_true)] at hf
      exact (List.prefix_append path [name]).trans (path_filesOf (path ++ [name]) dirs f hf)
  | path, .file name content, f, hf => by
      rw [filesOfEntry, List.mem_singleton] at hf
      rw [hf]
  | path, .other name, f, hf => by
      rw [filesOfEntry] at hf
      exact absurd hf List.not_mem_nil

end

mutual

/-- A file is passed over only if a directory above it is. -/
theorem mem_filesOf : ∀ (path : List JsString) (dirs : List Entry),
    ∀ f ∈ filesOf none path dirs, (∀ d ∈ f.path, ¬ skips resume d = true) →
      f ∈ filesOf resume path dirs
  | path, [], f, hf, _ => by
      rw [filesOf] at hf
      exact absurd hf List.not_mem_nil
  | path, dir :: dirs, f, hf, h => by
      rw [filesOf, List.mem_append] at hf ⊢
      rcases hf with hf | hf
      · exact Or.inl (mem_filesOfEntry path dir f hf h)
      · exact Or.inr (mem_filesOf path dirs f hf h)

theorem mem_filesOfEntry : ∀ (path : List JsString) (dir : Entry),
    ∀ f ∈ filesOfEntry none path dir, (∀ d ∈ f.path, ¬ skips resume d = true) →
      f ∈ filesOfEntry resume path dir
  | path, .dir name dirs, f, hf, h => by
      rw [filesOfEntry, if_neg (show ¬ skips none name = true from Bool.false_ne_true)] at hf
      have hname : name ∈ f.path :=
        (path_filesOf (path ++ [name]) dirs f hf).subset
          (List.mem_append_right path (List.mem_singleton_self name))
      rw [filesOfEntry, if_neg (h name hname)]
      exact mem_filesOf (path ++ [name]) dirs f hf h
  | path, .file name content, f, hf, _ => by
      rw [filesOfEntry] at hf ⊢
      exact hf
  | path, .other name, f, hf, _ => by
      rw [filesOfEntry] at hf
      exact absurd hf List.not_mem_nil

end

/-- A run that found this top directory passes the file over. -/
def Skipped (top : JsString) (f : OldFile) : Prop :=
  skips (some top) (units "ffff") = true ∨ ∃ d ∈ f.path, skips (some top) d = true

theorem mem_onInputRoot (resume : Option JsString) {root : List Entry} (hf : f ∈ filesOf none [] root) :
    f ∈ onInputRoot resume root ∨ ∃ top, resume = some top ∧ Skipped top f := by
  cases resume with
  | none => exact Or.inl hf
  | some top =>
      by_cases hskip : Skipped top f
      · exact Or.inr ⟨top, rfl, hskip⟩
      · rw [Skipped, not_or] at hskip
        rw [onInputRoot, if_neg hskip.1]
        exact Or.inl (mem_filesOf [] root f hf (fun d hd hskips => hskip.2 ⟨d, hd, hskips⟩))

theorem onInputRoot_sublist (root : List Entry) :
    List.Sublist (onInputRoot resume root) (filesOf none [] root) := by
  rw [onInputRoot]
  split
  · exact List.nil_sublist _
  · exact filesOf_sublist [] root

/-- A name of hexadecimal digits. -/
def IsHexName (name : JsString) : Prop := name ≠ [] ∧ ∀ u ∈ name, IsLowerHex u

-- the list is searched, not all units
instance : DecidablePred IsHexName := fun name =>
  have : Decidable (∀ u ∈ name, IsLowerHex u) := List.decidableBAll IsLowerHex name
  inferInstanceAs (Decidable (_ ∧ _))

/-- The directories of the old archive have the beginnings of the hashes as names: the top
directories those of one length, in their order, and the others longer ones. -/
structure Layout (files : List OldFile) : Prop where
  hex : ∀ f ∈ files, ∀ d ∈ f.path, IsHexName d
  short : ∀ f ∈ files, ∀ top ∈ f.path.head?, top.length ≤ 4
  nested : ∀ f ∈ files, ∀ top ∈ f.path.head?, ∀ d ∈ f.path, top <+: d
  sorted : files.Pairwise (fun g f => ∀ top ∈ g.path.head?, ∀ top' ∈ f.path.head?,
    top.length = top'.length ∧ ¬ top' < top)

/-- A name that is no less. -/
theorem not_skips {d : JsString} (htop : top ≠ []) (hhex : ∀ u ∈ top, IsLowerHex u) {n : ℕ}
    (hd : parseInt16 d = some (n : ℤ)) (hle : hexValue top ≤ n) :
    ¬ skips (some top) d = true := by
  rw [skips, if_neg htop, parseInt16_hex hhex htop, hd]
  dsimp only
  rw [decide_eq_true_eq]
  omega

/-- **The top directory of a file skips no file behind it.** -/
theorem Layout.not_skipped {files behind : List OldFile} (h : Layout files)
    (hsub : List.Sublist (g :: behind) files) (htop : top ∈ g.path.head?) (hf : f ∈ behind) :
    ¬ Skipped top f := by
  have hg : g ∈ files := hsub.subset List.mem_cons_self
  have hfiles : f ∈ files := hsub.subset (List.mem_cons_of_mem g hf)
  obtain ⟨hne, hhex⟩ := h.hex g hg top (List.mem_of_mem_head? htop)
  rintro (hroot | ⟨d, hd, hskip⟩)
  · have hlt := hexValue_lt top
    have hpow : 16 ^ top.length ≤ 16 ^ 4 := Nat.pow_le_pow_right (by decide) (h.short g hg top htop)
    have hparse : parseInt16 (units "ffff") = some ((65535 : ℕ) : ℤ) := by decide
    exact not_skips hne hhex hparse (by omega) hroot
  · obtain ⟨hdne, hdhex⟩ := h.hex f hfiles d hd
    obtain ⟨top', htop'⟩ : ∃ top', top' ∈ f.path.head? := by
      cases hpath : f.path with
      | nil =>
          rw [hpath] at hd
          exact absurd hd List.not_mem_nil
      | cons top' path => exact ⟨top', rfl⟩
    obtain ⟨-, hhex'⟩ := h.hex f hfiles top' (List.mem_of_mem_head? htop')
    obtain ⟨hlength, hle⟩ := List.rel_of_pairwise_cons (h.sorted.sublist hsub) hf top htop top' htop'
    obtain ⟨rest, rfl⟩ := h.nested f hfiles top' htop' d hd
    have hvalue : hexValue top ≤ hexValue (top' ++ rest) :=
      (hexValue_mono hlength hhex hhex' hle).trans (hexValue_le_append top' rest)
    exact not_skips hne hhex (parseInt16_hex hdhex hdne) hvalue hskip

end Files

namespace Conv

/-! ## What a call does -/

section Calls

variable {A : Addressing} {root : List Entry} {s t : Conv} {f : OldFile} {act : Act}

/-- The file that the call writes. -/
def written : Call → Option OldFile
  | .write file => some file
  | _ => none

theorem mem_callsOf {add : JsString → JsString} {call : Call} (h : call ∈ callsOf add f) :
    (∃ path, call = .mkdir path) ∨ call = .write f ∨ call = .onWriteResume f := by
  rcases List.mem_append.mp h with h | h
  · obtain ⟨i, -, rfl⟩ := List.mem_map.mp h
    exact Or.inl ⟨_, rfl⟩
  · rcases List.mem_cons.mp h with rfl | h
    · exact Or.inr (Or.inl rfl)
    · exact Or.inr (Or.inr (List.mem_singleton.mp h))

/-- The last call of a file notes its directory. -/
theorem eq_nil_of_onWriteResume {add : JsString → JsString} {calls : List Call}
    (h : .onWriteResume f :: calls <:+ callsOf add f) : calls = [] := by
  have hsplit : callsOf add f = ((List.range DEPTH).map (fun i =>
      Call.mkdir (deepHash (add f.content) (i + 1))) ++ [.write f]) ++ [.onWriteResume f] := by
    rw [callsOf, List.append_assoc]
    rfl
  rw [hsplit] at h
  rcases List.suffix_concat_iff.mp h with hnil | ⟨front, hfront, hsuffix⟩
  · cases hnil
  · cases front with
    | nil => exact (List.cons.inj hfront).2
    | cons call front =>
        obtain ⟨rfl, -⟩ := List.cons.inj hfront
        have hin := hsuffix.subset List.mem_cons_self
        rcases List.mem_append.mp hin with hin | hin
        · obtain ⟨i, -, hi⟩ := List.mem_map.mp hin
          cases hi
        · cases List.mem_singleton.mp hin

theorem mem_putResume {top : JsString} {ok : Bool} {file : JsString × Bool}
    {resumes : List (JsString × Bool)} (h : file ∈ putResume top ok resumes) :
    file = (top, ok) ∨ file ∈ resumes := by
  induction resumes with
  | nil => exact Or.inl (List.mem_singleton.mp h)
  | cons head resumes ih =>
      rw [putResume] at h
      split at h
      · exact List.mem_cons.mp h
      split at h
      · exact (List.mem_cons.mp h).imp id (List.mem_cons_of_mem head)
      · rcases List.mem_cons.mp h with rfl | h
        · exact Or.inr List.mem_cons_self
        · exact (ih h).imp id (List.mem_cons_of_mem head)

theorem mem_of_loadResuem {top : JsString} {resumes : List (JsString × Bool)}
    (h : loadResuem resumes = some top) : (top, true) ∈ resumes := by
  have hfold : ∀ (resumes : List (JsString × Bool)) (resume : Option JsString),
      resumes.foldl (fun resume file => if file.2 then some file.1 else resume) resume =
        some top → resume = some top ∨ (top, true) ∈ resumes := by
    intro resumes
    induction resumes with
    | nil => exact fun _ h => Or.inl h
    | cons file resumes ih =>
        intro resume h
        rw [List.foldl_cons] at h
        rcases ih _ h with hfile | hin
        · split at hfile
          · rename_i hok
            obtain ⟨name, ok⟩ := file
            obtain rfl := Option.some.inj hfile
            obtain rfl : ok = true := hok
            exact Or.inr List.mem_cons_self
          · exact Or.inl hfile
        · exact Or.inr (List.mem_cons_of_mem _ hin)
  rcases hfold resumes none h with hnone | hin
  · cases hnone
  · exact hin

theorem noted_mem {top : JsString} (h : s.noted f = some top) : top ∈ f.path.head? :=
  (Option.filter_eq_some_iff.mp h).1

end Calls

/-! ## Each text is moved -/

section Moved

variable {A : Addressing} {root : List Entry} {s t : Conv} {f : OldFile} {act : Act}

/-- The text is under its address, unless its write was cut. -/
def Moved (A : Addressing) (s : Conv) (f : OldFile) : Prop :=
  (pathOf A.addressOfContent f.content, f.content) ∈ s.files ∨
    pathOf A.addressOfContent f.content ∈ s.cut

/-- The script as a pass that skips what a readable file of `./resume` stands for. -/
def pass (A : Addressing) (s : Conv) : Pass OldFile JsString where
  done := {f | Moved A s f}
  marks := {top | (top, true) ∈ s.resumes}
  rest := s.calls.filterMap written ++ s.todo

/-- The calls under way are those of a file in front of the files to come. -/
structure Inv (A : Addressing) (root : List Entry) (s : Conv) : Prop where
  sound : Sound (filesOf none [] root) Skipped (pass A s)
  place : (s.calls = [] ∧ List.Sublist s.todo (filesOf none [] root)) ∨
    ∃ f, s.calls <:+ callsOf A.addressOfContent f ∧
      List.Sublist (f :: s.todo) (filesOf none [] root)
  named : ∀ file ∈ s.files, file.1 = pathOf A.addressOfContent file.2 ∨ file.1 ∈ s.cut

theorem length_deepHash {address : JsString} (h : 6 ≤ address.length) :
    (deepHash address DEPTH).length = hashRoot.length + 9 := by
  have hcut (i : ℕ) (hi : i < 3) :
      ((address.drop (i * HASH_DIR_STEP)).take HASH_DIR_STEP).length = 2 := by
    rw [List.length_take, List.length_drop]
    unfold HASH_DIR_STEP
    omega
  show (((hashRoot ++ 47 :: _) ++ 47 :: _) ++ 47 :: _).length = _
  rw [List.length_append, List.length_append, List.length_append, List.length_cons,
    List.length_cons, List.length_cons, hcut 0 (by decide), hcut 1 (by decide),
    hcut 2 (by decide)]

/-- Different texts have different paths. -/
theorem pathOf_injective (A : Addressing) : Function.Injective (pathOf A.addressOfContent) := by
  intro c c' h
  have hlength (c : JsString) : (deepHash (A.addressOfContent c) DEPTH).length =
      hashRoot.length + 9 := length_deepHash ((by decide : 6 ≤ 20).trans (A.long c))
  have htails := (List.append_inj h ((hlength c).trans (hlength c').symm)).2
  exact A.injective (List.cons.inj htails).2

theorem existsSync_iff {path : JsString} :
    s.existsSync path = true ↔ ∃ content, (path, content) ∈ s.files := by
  rw [existsSync, List.any_eq_true]
  constructor
  · rintro ⟨⟨path', content⟩, hin, heq⟩
    obtain rfl := of_decide_eq_true heq
    exact ⟨content, hin⟩
  · rintro ⟨content, hin⟩
    exact ⟨_, hin, decide_eq_true rfl⟩

/-- A file that is there under the address of a text has this text, or was cut. -/
theorem Inv.moved_of_exists (h : Inv A root s)
    (hexists : s.existsSync (pathOf A.addressOfContent f.content) = true) : Moved A s f := by
  obtain ⟨content, hin⟩ := existsSync_iff.mp hexists
  rcases h.named _ hin with hname | hcut
  · have hsame : f.content = content := pathOf_injective A hname
    rw [← hsame] at hin
    exact Or.inl hin
  · exact Or.inr hcut

theorem Moved.mono (h : Moved A s f) (hfiles : s.files ⊆ t.files) (hcut : s.cut ⊆ t.cut) :
    Moved A t f := h.imp (fun hin => hfiles hin) (fun hin => hcut hin)

/-- **A new process** takes up all files but those that it may skip. -/
theorem Inv.start {rest : List OldFile}
    (h : Sound (filesOf none [] root) Skipped
      ⟨{f | Moved A s f}, {top | (top, true) ∈ s.resumes}, rest⟩)
    (hnamed : ∀ file ∈ s.files, file.1 = pathOf A.addressOfContent file.2 ∨ file.1 ∈ s.cut) :
    Inv A root (s.start root) := by
  refine ⟨Step.sound h (.restart _ _ fun f hf => ?_), Or.inl ⟨rfl, onInputRoot_sublist root⟩,
    hnamed⟩
  rcases mem_onInputRoot (loadResuem s.resumes) hf with hin | ⟨top, hload, hskip⟩
  · exact Or.inl hin
  · exact Or.inr ⟨top, mem_of_loadResuem hload, hskip⟩

/-- The place behind a call. -/
theorem Inv.place_call (h : Inv A root s) {call : Call} {calls : List Call}
    (hcalls : s.calls = call :: calls) : ∃ f, call :: calls <:+ callsOf A.addressOfContent f ∧
      List.Sublist (f :: s.todo) (filesOf none [] root) := by
  rcases h.place with ⟨hnil, -⟩ | hplace
  · rw [hnil] at hcalls
    cases hcalls
  · rw [hcalls] at hplace
    exact hplace

theorem suffix_of_cons {call : Call} {calls calls' : List Call} (h : call :: calls <:+ calls') :
    calls <:+ calls' := (List.suffix_cons call calls).trans h

/-- **The write of a text.** -/
theorem Inv.write (h : Inv A root s) {calls : List Call} (hcalls : s.calls = .write f :: calls) :
    Inv A root (({ s with calls := calls }).exec A.addressOfContent (.write f)) := by
  obtain ⟨g, hsuffix, hsub⟩ := h.place_call hcalls
  have hsound := h.sound
  rw [pass, hcalls] at hsound
  rw [exec]
  dsimp only
  split
  · rename_i hexists
    have hmoved : Moved A s f := h.moved_of_exists hexists
    exact ⟨Step.sound hsound (.work f _ _ (Set.Subset.refl _) hmoved),
      Or.inr ⟨g, suffix_of_cons hsuffix, hsub⟩, h.named⟩
  · refine ⟨Step.sound hsound (.work f _ _ (fun g hg => ?_) ?_),
      Or.inr ⟨g, suffix_of_cons hsuffix, hsub⟩, fun file hfile => ?_⟩
    · exact Moved.mono hg (List.subset_append_left _ _) (List.Subset.refl _)
    · exact Or.inl (List.mem_append_right _ (List.mem_singleton_self _))
    · rcases List.mem_append.mp hfile with hfile | hfile
      · exact h.named file hfile
      · rw [List.mem_singleton.mp hfile]
        exact Or.inl rfl

/-- **The note of a directory** skips no file to come. -/
theorem Inv.onWriteResume (hl : Layout (filesOf none [] root)) (h : Inv A root s)
    {calls : List Call} (hcalls : s.calls = .onWriteResume f :: calls) :
    Inv A root (({ s with calls := calls }).exec A.addressOfContent (.onWriteResume f)) := by
  obtain ⟨g, hsuffix, hsub⟩ := h.place_call hcalls
  have hfile : f = g := by
    rcases mem_callsOf (hsuffix.subset List.mem_cons_self) with ⟨path, hpath⟩ | hwrite | hresume
    · cases hpath
    · cases hwrite
    · exact Call.onWriteResume.inj hresume
  subst hfile
  obtain rfl := eq_nil_of_onWriteResume hsuffix
  have hplace : List.Sublist s.todo (filesOf none [] root) := (List.sublist_cons_self f _).trans hsub
  have hsound := h.sound
  rw [pass, hcalls] at hsound
  rw [exec]
  split
  · rename_i top hnoted
    have hmark : ∀ a ∈ s.todo, ¬ Skipped top a :=
      fun a ha => hl.not_skipped hsub (noted_mem hnoted) ha
    have hset := Step.sound hsound (.mark _ top hmark)
    have hmarks : {top' | (top', true) ∈ putResume top true s.resumes} ⊆
        insert top {top | (top, true) ∈ s.resumes} := by
      intro top' hin
      rcases mem_putResume hin with heq | hin
      · exact Or.inl (Prod.mk.inj heq).1
      · exact Or.inr hin
    exact ⟨Step.sound hset (.forget _ (Set.Subset.refl _) hmarks), Or.inl ⟨rfl, hplace⟩, h.named⟩
  · exact ⟨hsound, Or.inl ⟨rfl, hplace⟩, h.named⟩

/-- **The next call.** -/
theorem Inv.call (hl : Layout (filesOf none [] root)) (h : Inv A root s)
    (hstep : step A.addressOfContent root s .call = some t) : Inv A root t := by
  cases hcalls : s.calls with
  | cons call calls =>
      rw [step, hcalls] at hstep
      obtain rfl := Option.some.inj hstep
      cases call with
      | write f => exact h.write hcalls
      | onWriteResume f => exact h.onWriteResume hl hcalls
      | mkdir path =>
          obtain ⟨g, hsuffix, hsub⟩ := h.place_call hcalls
          have hsound := h.sound
          rw [pass, hcalls] at hsound
          exact ⟨hsound, Or.inr ⟨g, suffix_of_cons hsuffix, hsub⟩, h.named⟩
  | nil =>
      cases htodo : s.todo with
      | nil =>
          rw [step, hcalls, htodo] at hstep
          cases hstep
      | cons f todo =>
          rw [step, hcalls, htodo] at hstep
          obtain rfl := Option.some.inj hstep
          have hsub : List.Sublist (f :: todo) (filesOf none [] root) := by
            rw [← htodo]
            rcases h.place with ⟨-, hplace⟩ | ⟨g, -, hplace⟩
            · exact hplace
            · exact (List.sublist_cons_self g _).trans hplace
          have hsound := h.sound
          rw [pass, hcalls, htodo] at hsound
          exact ⟨hsound, Or.inr ⟨f, List.suffix_rfl, hsub⟩, h.named⟩

theorem step_inv (hl : Layout (filesOf none [] root)) (h : Inv A root s)
    (hstep : step A.addressOfContent root s act = some t) : Inv A root t := by
  cases act with
  | call => exact h.call hl hstep
  | die =>
      obtain rfl := Option.some.inj hstep
      exact Inv.start h.sound h.named
  | cutWrite content =>
      rw [step] at hstep
      split at hstep
      · rename_i file calls hcalls
        dsimp only at hstep
        split at hstep
        · cases hstep
        · obtain rfl := Option.some.inj hstep
          refine Inv.start (Step.sound h.sound (.forget _ (fun f hf => ?_) (Set.Subset.refl _)))
            (fun file hfile => ?_)
          · exact Moved.mono hf (List.subset_append_left _ _) (List.subset_append_left _ _)
          · rcases List.mem_append.mp hfile with hfile | hfile
            · exact (h.named file hfile).imp id (List.mem_append_left _)
            · rw [List.mem_singleton.mp hfile]
              exact Or.inr (List.mem_append_right _ (List.mem_singleton_self _))
      · cases hstep
  | cutResume =>
      rw [step] at hstep
      split at hstep
      · split at hstep
        · rename_i top hnoted
          obtain rfl := Option.some.inj hstep
          refine Inv.start (Step.sound h.sound (.forget _ (Set.Subset.refl _) (fun top' hin => ?_)))
            h.named
          rcases mem_putResume hin with heq | hin
          · cases (Prod.mk.inj heq).2
          · exact hin
        · cases hstep
      · cases hstep

theorem inv_new : Inv A root (new root) :=
  have hsound : Sound (filesOf none [] root) Skipped
      ⟨{f | Moved A ⟨[], [], [], none, [], [], []⟩ f}, {top | (top, true) ∈ []},
        filesOf none [] root⟩ :=
    ⟨fun _ hf => Or.inr hf, fun _ hin => absurd hin List.not_mem_nil⟩
  Inv.start hsound (fun _ hfile => absurd hfile List.not_mem_nil)

/-- **Each text is moved.** Whatever the ends of the processes, between two calls or in the
middle of a write: each file of the new archive has the address of its text as its name, and
when a run comes to its end each text of the old archive is there; both unless this very
write was cut. -/
theorem files_moved (A : Addressing) (hl : Layout (filesOf none [] root)) {acts : List Act}
    (hrun : Runs.run (step A.addressOfContent root) (new root) acts = some s) :
    (∀ file ∈ s.files, file.1 = pathOf A.addressOfContent file.2 ∨ file.1 ∈ s.cut) ∧
    (s.Ended → ∀ f ∈ filesOf none [] root,
      (pathOf A.addressOfContent f.content, f.content) ∈ s.files ∨
        pathOf A.addressOfContent f.content ∈ s.cut) := by
  have hinv : Inv A root s :=
    invariant_always (fun _ _ _ h hstep => step_inv hl h hstep) inv_new hrun
  refine ⟨hinv.named, fun hended => ?_⟩
  have hrest : (pass A s).rest = [] := by
    rw [pass, hended.1, hended.2]
    rfl
  exact hinv.sound.finished hrest

end Moved

/-! ## Into the blocks -/

section Archive

variable {A : Addressing} {root : List Entry} {s t : Conv} {act : Act}

/-- A file is only added where there is none. -/
theorem step_files (hstep : step A.addressOfContent root s act = some t) : t.files = s.files ∨
    ∃ path content, s.existsSync path = false ∧ t.files = s.files ++ [(path, content)] := by
  cases act with
  | die =>
      obtain rfl := Option.some.inj hstep
      exact Or.inl rfl
  | cutWrite content =>
      rw [step] at hstep
      split at hstep
      · dsimp only at hstep
        split at hstep
        · cases hstep
        · rename_i hno
          obtain rfl := Option.some.inj hstep
          exact Or.inr ⟨_, content, eq_false_of_ne_true hno, rfl⟩
      · cases hstep
  | cutResume =>
      rw [step] at hstep
      split at hstep
      · split at hstep
        · obtain rfl := Option.some.inj hstep
          exact Or.inl rfl
        · cases hstep
      · cases hstep
  | call =>
      cases hcalls : s.calls with
      | cons call calls =>
          rw [step, hcalls] at hstep
          obtain rfl := Option.some.inj hstep
          cases call with
          | mkdir path => exact Or.inl rfl
          | onWriteResume f =>
              rw [exec]
              split
              · exact Or.inl rfl
              · exact Or.inl rfl
          | write f =>
              rw [exec]
              dsimp only
              split
              · exact Or.inl rfl
              · rename_i hno
                exact Or.inr ⟨_, _, eq_false_of_ne_true hno, rfl⟩
      | nil =>
          cases htodo : s.todo with
          | nil =>
              rw [step, hcalls, htodo] at hstep
              cases hstep
          | cons f todo =>
              rw [step, hcalls, htodo] at hstep
              obtain rfl := Option.some.inj hstep
              exact Or.inl rfl

/-- There is one file of each path. -/
theorem nodup_step (h : (s.files.map Prod.fst).Nodup)
    (hstep : step A.addressOfContent root s act = some t) : (t.files.map Prod.fst).Nodup := by
  rcases step_files hstep with hsame | ⟨path, content, hno, hadd⟩
  · rw [hsame]
    exact h
  · rw [hadd, List.map_append]
    refine List.Nodup.append h (List.nodup_singleton _) (fun x hx hx' => ?_)
    obtain rfl := List.mem_singleton.mp hx'
    obtain ⟨⟨path', content'⟩, hin, rfl⟩ := List.mem_map.mp hx
    exact absurd (existsSync_iff.mpr ⟨content', hin⟩) (ne_true_of_eq_false hno)

theorem nodup_of_run {acts : List Act}
    (hrun : Runs.run (step A.addressOfContent root) (new root) acts = some s) :
    (s.files.map Prod.fst).Nodup := by
  have hpreserved (s : Conv) (act : Act) (t : Conv) (h : (s.files.map Prod.fst).Nodup)
      (hstep : step A.addressOfContent root s act = some t) : (t.files.map Prod.fst).Nodup :=
    nodup_step h hstep
  have hnew : ((new root).files.map Prod.fst).Nodup := List.nodup_nil
  exact invariant_always hpreserved hnew hrun

theorem length_newPath (name : JsString) :
    (newPath name).length = hashRoot.length + 4 + min 6 name.length + name.length := by
  have hcut (i : ℕ) : ((name.drop (i * HASH_DIR_STEP)).take HASH_DIR_STEP).length =
      min 2 (name.length - i * 2) := by
    rw [List.length_take, List.length_drop]
    rfl
  show ((((hashRoot ++ 47 :: _) ++ 47 :: _) ++ 47 :: _) ++ 47 :: name).length = _
  rw [List.length_append, List.length_append, List.length_append, List.length_append,
    List.length_cons, List.length_cons, List.length_cons, List.length_cons, hcut 0, hcut 1, hcut 2]
  omega

/-- The name of the file at the path of an address. -/
theorem eq_of_newPath {name address : JsString} (hlong : 20 ≤ address.length)
    (h : newPath name = newPath address) : name = address := by
  have hlengths := congrArg List.length h
  rw [length_newPath, length_newPath] at hlengths
  have hname : 6 ≤ name.length := by omega
  have hdir := (length_deepHash hname).trans (length_deepHash (by omega : 6 ≤ address.length)).symm
  exact (List.cons.inj (List.append_inj h hdir).2).2

/-- The reports of the collector. -/
theorem badFiles_foldl (add : JsString → JsString) (gGroup : JsString)
    (visit : List ArchiveFile) : ∀ c : Collector,
    (visit.foldl (onFile add gGroup) c).badFiles = c.badFiles ++
      (visit.filter (fun file => add file.content ≠ file.name)).map
        (fun file => (add file.content, file.name)) := by
  induction visit with
  | nil => exact fun c => (List.append_nil _).symm
  | cons file visit ih =>
      intro c
      rw [List.foldl_cons, ih, onFile, onNewFile, List.filter_cons]
      by_cases haddress : add file.content = file.name
      · rw [if_pos haddress, if_neg (by simpa using haddress), onFileContent]
        split
        · dsimp only
          split
          · rfl
          · rfl
        · rfl
      · rw [if_neg haddress, if_pos (by simpa using haddress), List.map_cons, List.append_assoc]
        rfl

/-- **From the old archive into the blocks.** When `conv_sha1_2_hash.js` has come to its end
and `collect-block.js` reads the new archive, all that it reports are files whose write was
cut, and each other text that is long enough is a resource of its linked blocks, once. -/
theorem articles_archived (A : Addressing) (hl : Layout (filesOf none [] root)) {acts : List Act}
    (hrun : Runs.run (step A.addressOfContent root) (new root) acts = some s) (hended : s.Ended)
    (gGroup : JsString) (directories : List JsString) {dirs : List Entry}
    (hdirs : ((visited dirs).map (fun file => (newPath file.name, file.content))).Perm s.files) :
    (∀ bad ∈ (run A.addressOfContent gGroup directories dirs).badFiles,
      newPath bad.2 ∈ s.cut) ∧
    ∃ blocks, LinkedFrom BlockObject.prev (addressOfBlock A.addressOfContent) Genesis blocks ∧
      (run A.addressOfContent gGroup directories dirs).blockFiles = blocks.map (fun block =>
        (blockOut (addressOfBlock A.addressOfContent block), block.stringify (some 2))) ∧
      ∀ f ∈ filesOf none [] root, pathOf A.addressOfContent f.content ∉ s.cut →
        minArticleSize < byteLength f.content →
          (blocks.map BlockObject.resource).flatten.count (A.addressOfContent f.content) = 1 := by
  have hinv : Inv A root s :=
    invariant_always (fun _ _ _ h hstep => step_inv hl h hstep) inv_new hrun
  have hnodup := nodup_of_run hrun
  have hmem : ∀ file ∈ visited dirs, (newPath file.name, file.content) ∈ s.files :=
    fun file hfile => hdirs.mem_iff.mp (List.mem_map_of_mem hfile)
  constructor
  · intro bad hbad
    have hreports : (run A.addressOfContent gGroup directories dirs).badFiles =
        ((visited dirs).foldl (onFile A.addressOfContent gGroup) (.new directories)).badFiles := by
      rw [← onNewDir_eq]
      rfl
    rw [hreports, badFiles_foldl] at hbad
    obtain ⟨file, hfile, rfl⟩ := List.mem_map.mp hbad
    obtain ⟨hvisited, haddress⟩ := List.mem_filter.mp hfile
    rcases hinv.named _ (hmem file hvisited) with hname | hcut
    · exact absurd (eq_of_newPath (A.long _) hname).symm (of_decide_eq_true haddress)
    · exact hcut
  · have hnew : Collected A.addressOfContent gGroup [] [] [] [] (.new directories) :=
      collected_new directories
    obtain ⟨parts, part, blocks, h⟩ := hnew.foldl (visited dirs)
    obtain ⟨block, hblock⟩ := h.written.writeBlock h.counter h.cache
    rw [← onNewDir_eq] at hblock
    refine ⟨blocks ++ [block], hblock.linked, hblock.blockFiles, fun f hf hwhole hlong => ?_⟩
    have hfiles : (parts ++ [part]).flatten = (visited dirs).filter
        (fun file => decide (Kept A.addressOfContent file)) := by
      rw [List.flatten_append, List.flatten_singleton, h.files, List.nil_append]
    rw [resources_flatten hblock.holds, hfiles]
    have hnames : ((visited dirs).map ArchiveFile.name).Nodup := by
      have hpaths := ((hdirs.map Prod.fst).nodup_iff).mpr hnodup
      rw [List.map_map] at hpaths
      refine List.Nodup.of_map newPath ?_
      rw [List.map_map]
      exact hpaths
    refine List.count_eq_one_of_mem (hnames.sublist (List.filter_sublist.map _)) ?_
    -- the file of this text
    have hthere := (hinv.sound.finished (by rw [pass, hended.1, hended.2]; rfl) f hf).resolve_right
      hwhole
    obtain ⟨file, hfile, heq⟩ := List.mem_map.mp (hdirs.mem_iff.mpr hthere)
    obtain ⟨hpath, hcontent⟩ := Prod.mk.inj heq
    have hname := eq_of_newPath (A.long _) hpath
    have hkept : Kept A.addressOfContent file := by
      rw [Kept, hname, hcontent]
      exact ⟨rfl, hlong⟩
    rw [← hname]
    exact List.mem_map_of_mem (List.mem_filter.mpr ⟨hfile, decide_eq_true hkept⟩)

end Archive

/-! ## Two texts -/

section Examples

def firstText : JsString := List.replicate 120 98

def secondText : JsString := List.replicate 120 97

def firstAddress : JsString := units "2MmSqGacRfAJxQSKS3L29SUVJQdb"

def secondAddress : JsString := units "2hyfkVVe7m1nYGMzxMNCDpXADuMM"

/-- A text behind twenty characters. -/
def behindZeros (content : JsString) : JsString := List.replicate 20 48 ++ content

theorem long_behindZeros (content : JsString) : 20 ≤ (behindZeros content).length := by
  rw [behindZeros, List.length_append, List.length_replicate]
  exact Nat.le_add_right _ _

theorem long_swap {a b x : JsString} (ha : 20 ≤ a.length) (hb : 20 ≤ b.length)
    (hx : 20 ≤ x.length) : 20 ≤ (Equiv.swap a b x).length := by
  rw [Equiv.swap_apply_def]
  split
  · exact hb
  split
  · exact ha
  · exact hx

/-- An injective function with the addresses of the two texts. -/
def twoAddresses : Addressing where
  addressOfContent := fun content =>
    Equiv.swap (behindZeros firstText) firstAddress
      (Equiv.swap (behindZeros secondText) secondAddress (behindZeros content))
  injective := ((Equiv.swap _ _).injective.comp (Equiv.swap _ _).injective).comp
    (fun _ _ h => List.append_cancel_left h)
  long := fun content => long_swap (long_behindZeros _) (by decide)
    (long_swap (long_behindZeros _) (by decide) (long_behindZeros content))

/-- The two texts under their SHA-1. -/
def twoOld : List Entry :=
  [.dir (units "84b") [.dir (units "84b5ae")
    [.file (units "84b5ae0b71226716cf26b778e00a1d0c0da78cf1") firstText]],
   .dir (units "f34") [.dir (units "f34c14")
    [.file (units "f34c1488385346a55709ba056ddd08280dd4c6d6") secondText]]]

/-- A run that ends behind a write, one in the middle of its note, one in front of a write,
and one that comes to its end. -/
def fourRuns : List Act :=
  List.replicate 5 .call ++ .die :: List.replicate 5 .call ++ .cutResume ::
    List.replicate 10 .call ++ .die :: List.replicate 12 .call

theorem filesOf_twoOld : filesOf none [] twoOld =
    [⟨[units "84b", units "84b5ae"], firstText⟩, ⟨[units "f34", units "f34c14"], secondText⟩] :=
  rfl

theorem layout_twoOld : Layout (filesOf none [] twoOld) := by
  rw [filesOf_twoOld]
  exact ⟨by decide, by decide, by decide, by decide⟩

theorem files_moved_twoOld : ∃ s,
    Runs.run (step twoAddresses.addressOfContent twoOld) (new twoOld) fourRuns = some s ∧
    (∀ file ∈ s.files,
      file.1 = pathOf twoAddresses.addressOfContent file.2 ∨ file.1 ∈ s.cut) ∧
    (s.Ended → ∀ f ∈ filesOf none [] twoOld,
      (pathOf twoAddresses.addressOfContent f.content, f.content) ∈ s.files ∨
        pathOf twoAddresses.addressOfContent f.content ∈ s.cut) := by
  have hsome : (Runs.run (step twoAddresses.addressOfContent twoOld) (new twoOld)
      fourRuns).isSome = true := by
    decide +kernel
  obtain ⟨s, hrun⟩ := Option.isSome_iff_exists.mp hsome
  exact ⟨s, hrun, files_moved twoAddresses layout_twoOld hrun⟩

/-- The file of an address in the new archive. -/
def entryOf (address content : JsString) : Entry :=
  .dir (address.take 2) [.dir ((address.drop 2).take 2) [.dir ((address.drop 4).take 2)
    [.file address content]]]

theorem articles_archived_twoOld : ∃ s,
    Runs.run (step twoAddresses.addressOfContent twoOld) (new twoOld) fourRuns = some s ∧
    (∀ bad ∈ (run twoAddresses.addressOfContent (units "wator") []
      [entryOf firstAddress firstText, entryOf secondAddress secondText]).badFiles,
        newPath bad.2 ∈ s.cut) ∧
    ∃ blocks,
      LinkedFrom BlockObject.prev (addressOfBlock twoAddresses.addressOfContent) Genesis blocks ∧
      (run twoAddresses.addressOfContent (units "wator") []
        [entryOf firstAddress firstText, entryOf secondAddress secondText]).blockFiles =
          blocks.map (fun block => (blockOut (addressOfBlock twoAddresses.addressOfContent block),
            block.stringify (some 2))) ∧
      ∀ f ∈ filesOf none [] twoOld, pathOf twoAddresses.addressOfContent f.content ∉ s.cut →
        minArticleSize < byteLength f.content →
          (blocks.map BlockObject.resource).flatten.count
            (twoAddresses.addressOfContent f.content) = 1 := by
  have hany : (Runs.run (step twoAddresses.addressOfContent twoOld) (new twoOld)
      fourRuns).any (fun s => decide ((s.calls = [] ∧ s.todo = []) ∧
        s.files = [(newPath firstAddress, firstText), (newPath secondAddress, secondText)])) =
          true := by
    decide +kernel
  obtain ⟨s, hrun, hs⟩ := (Option.any_eq_true _ _).mp hany
  obtain ⟨hended, hfiles⟩ := of_decide_eq_true hs
  have hdirs : ((visited [entryOf firstAddress firstText, entryOf secondAddress secondText]).map
      (fun file => (newPath file.name, file.content))).Perm s.files := by
    rw [hfiles]
    exact List.Perm.refl _
  exact ⟨s, hrun, articles_archived twoAddresses layout_twoOld hrun hended _ _ hdirs⟩

end Examples

end Conv

end WaiNative.HashArchive

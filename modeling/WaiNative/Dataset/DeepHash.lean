import WaiNative.Dataset.ConvHash

/-!
# `hashArchive/deep.js`: the archive into directories

The script walks all directories of the archive, and moves each file that has less than two
directories above it to the directories that are named by the first three and the first six
characters of its name. It reads the names of a directory before it goes through them, while
the moves make new directories and put files into others.

- `Deep.step`: the loops of `onNewDir` as a stack, the calls of the file system one by one,
  and the end of the process between two calls;
- `Deep.Step`, `Deep.step_cases`: what each step finds and what it leaves;
- `archive_sorted`: no file gets lost, none gets another text, no call throws, and when a run
  comes to its end each file is in its directory, whatever the order in which the names are
  read and wherever the runs before have ended;
- `deep_layout`: the directories are then as `conv_sha1_2_hash.js` needs them.
-/

namespace WaiNative.HashArchive

open Runs

/-- A file below the root: the directories above it, its name, its text. -/
structure DeepFile where
  path : List JsString
  name : JsString
  content : JsString
deriving DecidableEq

def DeepFile.full (f : DeepFile) : List JsString := f.path ++ [f.name]

namespace Deep

def DEPTH : ℕ := 2

def HASH_DIR_STEP : ℕ := 3

/-- The directories of a name, below the root. -/
def deepHash (name : JsString) (depth : ℕ) : List JsString :=
  (List.range depth).map (fun i => name.take ((i + 1) * HASH_DIR_STEP))

inductive Call
  | mkdir (path : List JsString)
  | mv (path : List JsString) (name : JsString)
deriving DecidableEq

/-- The calls that `onNewFile` makes. -/
def onNewFile (path : List JsString) (name : JsString) : List Call :=
  if DEPTH ≤ path.length then []
  else (List.range DEPTH).map (fun i => .mkdir (deepHash name (i + 1))) ++ [.mv path name]

end Deep

/-- The files and the directories below the root; the directory whose names are read next;
the loops of `onNewDir` with the names that they have still to go through, the innermost one
first; the calls that `onNewFile` has still to make; and whether one has thrown. -/
structure Deep where
  files : List DeepFile
  directories : List (List JsString)
  opening : Option (List JsString)
  frames : List (List JsString × List JsString)
  calls : List Deep.Call
  threw : Bool
deriving DecidableEq

namespace Deep

def isDirectory (s : Deep) (path : List JsString) : Bool := path = [] ∨ path ∈ s.directories

def isFile (s : Deep) (path : List JsString) : Bool := s.files.any (fun f => f.full = path)

/-- What is in a directory. -/
def children (s : Deep) (dir : List JsString) : List JsString :=
  s.directories.filterMap (fun d => if d.dropLast = dir then d.getLast? else none) ++
    (s.files.filter (fun f => f.path = dir)).map DeepFile.name

def throws (s : Deep) : Deep :=
  { s with opening := none, frames := [], calls := [], threw := true }

/-- `mv` puts a file into a directory of its new name, and writes over another file. -/
def exec (s : Deep) : Call → Deep
  | .mkdir path =>
      if s.isDirectory path ∨ s.isFile path then s
      else if s.isDirectory path.dropLast then { s with directories := s.directories ++ [path] }
      else s.throws
  | .mv path name =>
      let newDir := deepHash name DEPTH
      let dir := if s.isDirectory (newDir ++ [name]) then newDir ++ [name] else newDir
      if s.isDirectory dir ∧ ¬ s.isDirectory (dir ++ [name]) then
        match s.files.find? (fun f => f.full = path ++ [name]) with
        | some f => { s with
            files := s.files.filter
              (fun g => g.full ≠ path ++ [name] ∧ g.full ≠ dir ++ [name]) ++
                [⟨dir, name, f.content⟩] }
        | none => s.throws
      else s.throws

inductive Act
  /-- `readdirSync`, with the names in any order -/
  | readdir (names : List JsString)
  /-- the next call, or the next name of the innermost loop; `statSync` throws when nothing is
  there any more -/
  | next
  /-- the process ends, then the next run -/
  | die

/-- The first call of `onNewDir`. -/
def start (s : Deep) : Deep :=
  { s with opening := some [], frames := [], calls := [], threw := false }

def step (s : Deep) : Act → Option Deep
  | .readdir names =>
      match s.calls, s.opening with
      | [], some dir =>
          if names.Nodup ∧ names ⊆ s.children dir ∧ s.children dir ⊆ names then
            some { s with opening := none, frames := (dir, names) :: s.frames }
          else none
      | _, _ => none
  | .next =>
      match s.calls, s.opening, s.frames with
      | call :: calls, _, _ => some ({ s with calls := calls }.exec call)
      | [], none, (dir, name :: names) :: frames =>
          -- behind the directory it is asked again what the name is: it is still a directory
          if s.isDirectory (dir ++ [name]) then
            some { s with opening := some (dir ++ [name]), frames := (dir, names) :: frames }
          else if s.isFile (dir ++ [name]) then
            some { s with calls := onNewFile dir name, frames := (dir, names) :: frames }
          else some s.throws
      | [], none, (_, []) :: frames => some { s with frames := frames }
      | [], _, _ => none
  | .die => some s.start

/-- What a step finds, and what it leaves. -/
inductive Step (s : Deep) : Act → Deep → Prop
  | readdir {dir names : List JsString} (hcalls : s.calls = []) (hopening : s.opening = some dir)
      (honce : names.Nodup) (hthere : names ⊆ s.children dir) (hall : s.children dir ⊆ names) :
      Step s (.readdir names) { s with opening := none, frames := (dir, names) :: s.frames }
  | call {call : Call} {calls : List Call} (hcalls : s.calls = call :: calls) :
      Step s .next ({ s with calls := calls }.exec call)
  | directory {dir names : List JsString} {name : JsString}
      {frames : List (List JsString × List JsString)} (hcalls : s.calls = [])
      (hopening : s.opening = none) (hframes : s.frames = (dir, name :: names) :: frames)
      (hdir : s.isDirectory (dir ++ [name]) = true) :
      Step s .next { s with opening := some (dir ++ [name]), frames := (dir, names) :: frames }
  | file {dir names : List JsString} {name : JsString}
      {frames : List (List JsString × List JsString)} (hcalls : s.calls = [])
      (hopening : s.opening = none) (hframes : s.frames = (dir, name :: names) :: frames)
      (hdir : ¬ s.isDirectory (dir ++ [name]) = true) (hfile : s.isFile (dir ++ [name]) = true) :
      Step s .next { s with calls := onNewFile dir name, frames := (dir, names) :: frames }
  | gone {dir names : List JsString} {name : JsString}
      {frames : List (List JsString × List JsString)}
      (hframes : s.frames = (dir, name :: names) :: frames)
      (hdir : ¬ s.isDirectory (dir ++ [name]) = true)
      (hfile : ¬ s.isFile (dir ++ [name]) = true) : Step s .next s.throws
  | back {dir : List JsString} {frames : List (List JsString × List JsString)}
      (hcalls : s.calls = []) (hopening : s.opening = none)
      (hframes : s.frames = (dir, []) :: frames) : Step s .next { s with frames := frames }
  | die : Step s .die s.start

theorem step_cases {s t : Deep} {act : Act} (h : s.step act = some t) : Step s act t := by
  cases act with
  | readdir names =>
      rw [step] at h
      split at h
      · rename_i dir hcalls hopening
        obtain ⟨⟨honce, hthere, hall⟩, h⟩ := Option.ite_none_right_eq_some.mp h
        obtain rfl := Option.some.inj h
        exact .readdir hcalls hopening honce hthere hall
      · cases h
  | next =>
      rw [step] at h
      split at h
      · rename_i call calls hcalls
        obtain rfl := Option.some.inj h
        exact .call hcalls
      · rename_i dir name names frames hcalls hopening hframes
        split at h
        · rename_i hdir
          obtain rfl := Option.some.inj h
          exact .directory hcalls hopening hframes hdir
        split at h
        · rename_i hdir hfile
          obtain rfl := Option.some.inj h
          exact .file hcalls hopening hframes hdir hfile
        · rename_i hdir hfile
          obtain rfl := Option.some.inj h
          exact .gone hframes hdir hfile
      · rename_i dir frames hcalls hopening hframes
        obtain rfl := Option.some.inj h
        exact .back hcalls hopening hframes
      · cases h
  | die =>
      obtain rfl := Option.some.inj h
      exact .die

/-- The run has come to its end. -/
def Ended (s : Deep) : Prop :=
  s.calls = [] ∧ s.opening = none ∧ s.frames = [] ∧ s.threw = false

/-! ## The archive -/

/-- The files have hashes as names, which stand for their texts; the names of the directories
are shorter, and each directory above a file or a directory is there. -/
structure Tree (files : List DeepFile) (directories : List (List JsString)) : Prop where
  long : ∀ f ∈ files, 6 < f.name.length
  short : ∀ d ∈ directories, ∀ x ∈ d, x.length ≤ 6
  content : ∀ f ∈ files, ∀ g ∈ files, f.name = g.name → f.content = g.content
  above : ∀ f ∈ files, ∀ d, d <+: f.path → d ≠ [] → d ∈ directories
  closed : ∀ d ∈ directories, ∀ e, e <+: d → e ≠ [] → e ∈ directories

section Archive

variable {s t : Deep} {f g : DeepFile}

theorem full_inj (h : f.full = g.full) : f.path = g.path ∧ f.name = g.name := by
  obtain ⟨hpath, hname⟩ := List.append_inj' h rfl
  exact ⟨hpath, (List.cons.inj hname).1⟩

theorem isDirectory_iff {path : List JsString} :
    s.isDirectory path = true ↔ path = [] ∨ path ∈ s.directories := decide_eq_true_iff

theorem isFile_iff {path : List JsString} :
    s.isFile path = true ↔ ∃ f ∈ s.files, f.full = path := by
  simp only [isFile, List.any_eq_true, decide_eq_true_iff]

/-- No path is that of a file and of a directory. -/
theorem Tree.not_directory (h : Tree s.files s.directories) (hf : f ∈ s.files) :
    f.full ∉ s.directories := by
  intro hin
  have hlong := h.long f hf
  have hshort := h.short _ hin f.name (List.mem_append_right _ List.mem_cons_self)
  omega

/-- What is above a file is the file or a directory. -/
theorem Tree.above_full (h : Tree s.files s.directories) (hf : f ∈ s.files)
    {path : List JsString} (hpath : path <+: f.full) (hne : path ≠ []) :
    path = f.full ∨ (path <+: f.path ∧ path ∈ s.directories) := by
  rcases List.prefix_concat_iff.mp hpath with heq | hin
  · exact Or.inl heq
  · exact Or.inr ⟨hin, h.above f hf path hin hne⟩

/-! ## The calls -/

/-- The path of a directory that is made is that of no file. -/
theorem Tree.not_file (h : Tree s.files s.directories) {path : List JsString}
    (hshort : ∀ x ∈ path, x.length ≤ 6) : s.isFile path = false := by
  rw [← Bool.not_eq_true, isFile_iff]
  rintro ⟨f, hf, rfl⟩
  have hlong := h.long f hf
  have hname := hshort f.name (List.mem_append_right _ List.mem_cons_self)
  omega

/-- **A directory is made**, or was there. -/
theorem exec_mkdir (h : Tree s.files s.directories) {path : List JsString} (hne : path ≠ [])
    (hshort : ∀ x ∈ path, x.length ≤ 6)
    (habove : ∀ e, e <+: path → e ≠ [] → e = path ∨ e ∈ s.directories)
    (hparent : s.isDirectory path.dropLast = true) :
    ∃ directories, s.exec (.mkdir path) = { s with directories := directories } ∧
      path ∈ directories ∧ s.directories ⊆ directories ∧ Tree s.files directories := by
  rw [exec]
  by_cases hin : path ∈ s.directories
  · rw [if_pos (Or.inl (isDirectory_iff.mpr (Or.inr hin)))]
    exact ⟨s.directories, rfl, hin, List.Subset.refl _, h⟩
  · have hnone : ¬ (s.isDirectory path = true ∨ s.isFile path = true) := by
      rw [isDirectory_iff, h.not_file hshort]
      simp [hne, hin]
    rw [if_neg hnone, if_pos hparent]
    refine ⟨_, rfl, List.mem_append_right _ List.mem_cons_self, List.subset_append_left _ _,
      ⟨h.long, ?_, h.content, ?_, ?_⟩⟩
    · intro d hd
      rcases List.mem_append.mp hd with hd | hd
      · exact h.short d hd
      · rw [List.mem_singleton.mp hd]
        exact hshort
    · exact fun f hf d hd hdne => List.mem_append_left _ (h.above f hf d hd hdne)
    · intro d hd e he hene
      rcases List.mem_append.mp hd with hd | hd
      · exact List.mem_append_left _ (h.closed d hd e he hene)
      · rw [List.mem_singleton.mp hd] at he
        rcases habove e he hene with rfl | hin
        · exact List.mem_append_right _ List.mem_cons_self
        · exact List.mem_append_left _ hin

/-- The files behind a move. -/
def moved (s : Deep) (f : DeepFile) : List DeepFile :=
  s.files.filter
    (fun g => g.full ≠ f.path ++ [f.name] ∧ g.full ≠ deepHash f.name DEPTH ++ [f.name]) ++
      [⟨deepHash f.name DEPTH, f.name, f.content⟩]

theorem mem_moved : g ∈ s.moved f ↔
    (g ∈ s.files ∧ g.full ≠ f.full ∧ g.full ≠ deepHash f.name DEPTH ++ [f.name]) ∨
      g = ⟨deepHash f.name DEPTH, f.name, f.content⟩ := by
  rw [moved, List.mem_append, List.mem_filter, List.mem_singleton, decide_eq_true_iff]
  rfl

/-- **A file is moved.** -/
theorem exec_mv (h : Tree s.files s.directories) (hf : f ∈ s.files)
    (hdir : deepHash f.name DEPTH ∈ s.directories) :
    s.exec (.mv f.path f.name) = { s with files := s.moved f } := by
  have hlong := h.long f hf
  have hnew : s.isDirectory (deepHash f.name DEPTH ++ [f.name]) = false := by
    rw [← Bool.not_eq_true, isDirectory_iff]
    rintro (hnil | hin)
    · exact List.append_ne_nil_of_right_ne_nil _ (List.cons_ne_nil _ _) hnil
    · have hshort := h.short _ hin f.name (List.mem_append_right _ List.mem_cons_self)
      omega
  obtain ⟨g, hg⟩ : ∃ g, s.files.find? (fun g => g.full = f.path ++ [f.name]) = some g := by
    rw [← Option.isSome_iff_exists, List.find?_isSome]
    exact ⟨f, hf, decide_eq_true rfl⟩
  have hfound := List.find?_some hg
  have hsame : g.full = f.full := of_decide_eq_true hfound
  have hcontent : g.content = f.content :=
    h.content g (List.mem_of_find?_eq_some hg) f hf (full_inj hsame).2
  rw [exec, hnew, if_neg Bool.false_ne_true, hnew,
    if_pos ⟨isDirectory_iff.mpr (Or.inr hdir), Bool.false_ne_true⟩, hg]
  dsimp only
  rw [hcontent]
  rfl

theorem Tree.moved (h : Tree s.files s.directories) (hf : f ∈ s.files)
    (hdir : deepHash f.name DEPTH ∈ s.directories) : Tree (s.moved f) s.directories := by
  -- each file is an old one, in its place or in the new one
  have hold : ∀ g ∈ s.moved f, ∃ g' ∈ s.files, g.name = g'.name ∧ g.content = g'.content := by
    intro g hg
    rcases mem_moved.mp hg with ⟨hin, -, -⟩ | rfl
    · exact ⟨g, hin, rfl, rfl⟩
    · exact ⟨f, hf, rfl, rfl⟩
  refine ⟨fun g hg => ?_, h.short, fun g hg k hk hname => ?_, fun g hg d hd hne => ?_, h.closed⟩
  · obtain ⟨g', hg', hname, -⟩ := hold g hg
    rw [hname]
    exact h.long g' hg'
  · obtain ⟨g', hg', hgname, hgcontent⟩ := hold g hg
    obtain ⟨k', hk', hkname, hkcontent⟩ := hold k hk
    rw [hgcontent, hkcontent]
    exact h.content g' hg' k' hk' (by rw [← hgname, ← hkname, hname])
  · rcases mem_moved.mp hg with ⟨hin, -, -⟩ | rfl
    · exact h.above g hin d hd hne
    · exact h.closed _ hdir d hd hne

end Archive

/-! ## Every run -/

/-- The file is where it was, or in its directory. -/
structure Moved (f g : DeepFile) : Prop where
  name : g.name = f.name
  content : g.content = f.content
  path : g.path = f.path ∨ (f.path.length < DEPTH ∧ g.path = deepHash f.name DEPTH)

/-- The calls are those of a file that the loops have passed, and those before them have made
its directories. -/
def Placed (s : Deep) : Prop :=
  s.calls = [] ∨ ∃ f ∈ s.files, f.path.length < DEPTH ∧
    (∀ frame ∈ s.frames, frame.1 = f.path → f.name ∉ frame.2) ∧
    (s.calls = [.mkdir (deepHash f.name 1), .mkdir (deepHash f.name 2), .mv f.path f.name] ∨
      (s.calls = [.mkdir (deepHash f.name 2), .mv f.path f.name] ∧
        deepHash f.name 1 ∈ s.directories) ∨
      (s.calls = [.mv f.path f.name] ∧ deepHash f.name 2 ∈ s.directories))

/-- The walk has still to come to the file. -/
def Pending (s : Deep) (f : DeepFile) : Prop :=
  (∃ dir, s.opening = some dir ∧ dir <+: f.path) ∨
    (∃ frame ∈ s.frames, ∃ x ∈ frame.2, frame.1 ++ [x] <+: f.full) ∨
    .mv f.path f.name ∈ s.calls

/-- The loops are one inside the other, and each name that they have to go through is still
there. -/
structure Walk (s : Deep) : Prop where
  nested : s.frames.Pairwise (fun inner outer => outer.1.length < inner.1.length)
  opened : ∀ dir, s.opening = some dir → ∀ frame ∈ s.frames, frame.1.length < dir.length
  once : ∀ frame ∈ s.frames, frame.2.Nodup
  there : ∀ frame ∈ s.frames, ∀ x ∈ frame.2,
    s.isDirectory (frame.1 ++ [x]) = true ∨ s.isFile (frame.1 ++ [x]) = true

structure Inv (old : List DeepFile) (s : Deep) : Prop where
  tree : Tree s.files s.directories
  walk : Walk s
  placed : Placed s
  pending : ∀ f ∈ s.files, f.path.length < DEPTH → Pending s f
  kept : ∀ f ∈ old, ∃ g ∈ s.files, Moved f g
  known : ∀ g ∈ s.files, ∃ f ∈ old, Moved f g
  sound : s.threw = false

theorem Moved.refl (f : DeepFile) : Moved f f := ⟨rfl, rfl, Or.inl rfl⟩

section Runs

variable {old : List DeepFile} {s t : Deep} {f : DeepFile} {act : Act}

theorem length_take (name : JsString) : ∀ x ∈ deepHash name 2, x.length ≤ 6 := by
  intro x hx
  rcases List.mem_pair.mp hx with rfl | rfl
  · exact (List.length_take_le _ _).trans (by decide)
  · exact List.length_take_le _ _

/-- A call that makes a directory. -/
theorem Inv.mkdir (h : Inv old s) {path : List JsString} {calls : List Call}
    {directories : List (List JsString)} (hcalls : s.calls = .mkdir path :: calls)
    (hsub : s.directories ⊆ directories) (htree : Tree s.files directories)
    (hplaced : Placed { s with calls := calls, directories := directories }) :
    Inv old { s with calls := calls, directories := directories } := by
  have hwalk : Walk { s with calls := calls, directories := directories } :=
    ⟨h.walk.nested, h.walk.opened, h.walk.once, fun frame hframe x hx =>
      (h.walk.there frame hframe x hx).imp (fun hdir =>
        isDirectory_iff.mpr ((isDirectory_iff.mp hdir).imp id (fun hin => hsub hin))) id⟩
  refine ⟨htree, hwalk, hplaced, fun g hg hlength => ?_, h.kept, h.known, h.sound⟩
  rcases h.pending g hg hlength with hopening | hframe | hcall
  · exact Or.inl hopening
  · exact Or.inr (Or.inl hframe)
  · rw [hcalls] at hcall
    rcases List.mem_cons.mp hcall with heq | hin
    · cases heq
    · exact Or.inr (Or.inr hin)

/-- **A file is moved** into its directory. -/
theorem Inv.mv (h : Inv old s) (hf : f ∈ s.files) (hlength : f.path.length < DEPTH)
    (hpassed : ∀ frame ∈ s.frames, frame.1 = f.path → f.name ∉ frame.2)
    (hcalls : s.calls = [.mv f.path f.name]) (hdir : deepHash f.name DEPTH ∈ s.directories) :
    Inv old { s with calls := [], files := s.moved f } := by
  have hwalk : Walk { s with calls := [], files := s.moved f } := by
    refine ⟨h.walk.nested, h.walk.opened, h.walk.once, fun frame hframe x hx => ?_⟩
    refine (h.walk.there frame hframe x hx).imp id (fun hfile => ?_)
    obtain ⟨g, hg, hfull⟩ := isFile_iff.mp hfile
    by_cases hnew : g.full = deepHash f.name DEPTH ++ [f.name]
    · exact isFile_iff.mpr ⟨_, mem_moved.mpr (Or.inr rfl), hnew.symm.trans hfull⟩
    · refine isFile_iff.mpr ⟨g, mem_moved.mpr (Or.inl ⟨hg, fun hsame => ?_, hnew⟩), hfull⟩
      obtain ⟨hpath, hname⟩ := List.append_inj' (hfull.symm.trans hsame) rfl
      rw [(List.cons.inj hname).1] at hx
      exact hpassed frame hframe hpath hx
  refine ⟨h.tree.moved hf hdir, hwalk, Or.inl rfl, fun g hg hshort => ?_, fun k hk => ?_,
    fun g hg => ?_, h.sound⟩
  · rcases mem_moved.mp hg with ⟨hin, hne, -⟩ | rfl
    · rcases h.pending g hin hshort with hopening | hframe | hcall
      · exact Or.inl hopening
      · exact Or.inr (Or.inl hframe)
      · rw [hcalls] at hcall
        obtain ⟨hpath, hname⟩ := Call.mv.inj (List.mem_singleton.mp hcall)
        rw [DeepFile.full, DeepFile.full, hpath, hname] at hne
        exact absurd rfl hne
    · exact absurd hshort (lt_irrefl DEPTH)
  · obtain ⟨g, hg, hmoved⟩ := h.kept k hk
    by_cases hsame : g.full = f.full
    · obtain ⟨hpath, hname⟩ := full_inj hsame
      refine ⟨_, mem_moved.mpr (Or.inr rfl), ⟨?_, ?_, Or.inr ⟨?_, ?_⟩⟩⟩
      · exact hname.symm.trans hmoved.name
      · exact (h.tree.content f hf g hg hname.symm).trans hmoved.content
      · rcases hmoved.path with hold | ⟨hold, -⟩
        · rw [← hold, hpath]
          exact hlength
        · exact hold
      · rw [← hname, hmoved.name]
    by_cases hover : g.full = deepHash f.name DEPTH ++ [f.name]
    · obtain ⟨hpath, hname⟩ := List.append_inj' hover rfl
      have hname : g.name = f.name := (List.cons.inj hname).1
      refine ⟨_, mem_moved.mpr (Or.inr rfl), ⟨?_, ?_, ?_⟩⟩
      · exact hname.symm.trans hmoved.name
      · exact (h.tree.content f hf g hg hname.symm).trans hmoved.content
      · rw [← hpath]
        exact hmoved.path
    · exact ⟨g, mem_moved.mpr (Or.inl ⟨hg, hsame, hover⟩), hmoved⟩
  · rcases mem_moved.mp hg with ⟨hin, -, -⟩ | rfl
    · exact h.known g hin
    · obtain ⟨k, hk, hmoved⟩ := h.known f hf
      refine ⟨k, hk, ⟨hmoved.name, hmoved.content, Or.inr ⟨?_, ?_⟩⟩⟩
      · rcases hmoved.path with hold | ⟨hold, -⟩
        · rw [← hold]
          exact hlength
        · exact hold
      · rw [← hmoved.name]

/-- **The next call.** -/
theorem Inv.call (h : Inv old s) {call : Call} {calls : List Call}
    (hcalls : s.calls = call :: calls) : Inv old ({ s with calls := calls }.exec call) := by
  have htree : Tree ({ s with calls := calls } : Deep).files s.directories := h.tree
  rcases h.placed with hnil | ⟨f, hf, hlength, hpassed, hplace⟩
  · rw [hnil] at hcalls
    cases hcalls
  -- a directory of one level has only itself above it
  have hone : ∀ e : List JsString, e <+: deepHash f.name 1 → e ≠ [] → e = deepHash f.name 1 := by
    intro e he hne
    rcases List.prefix_concat_iff.mp (show e <+: [] ++ deepHash f.name 1 from he) with heq | hnil
    · exact heq
    · exact absurd (List.prefix_nil.mp hnil) hne
  rcases hplace with heq | ⟨heq, hfirst⟩ | ⟨heq, hdir⟩
  · obtain ⟨rfl, rfl⟩ := List.cons.inj (hcalls.symm.trans heq)
    have hshort : ∀ x ∈ deepHash f.name 1, x.length ≤ 6 :=
      fun x hx => length_take f.name x (List.mem_cons.mpr (Or.inl (List.mem_singleton.mp hx)))
    have hne : deepHash f.name 1 ≠ [] := List.cons_ne_nil _ _
    obtain ⟨directories, hexec, hin, hsub, hnew⟩ := exec_mkdir htree hne hshort
      (fun e he hne => Or.inl (hone e he hne)) (isDirectory_iff.mpr (Or.inl rfl))
    rw [hexec]
    exact h.mkdir hcalls hsub hnew
      (Or.inr ⟨f, hf, hlength, hpassed, Or.inr (Or.inl ⟨rfl, hin⟩)⟩)
  · obtain ⟨rfl, rfl⟩ := List.cons.inj (hcalls.symm.trans heq)
    have habove : ∀ e, e <+: deepHash f.name 2 → e ≠ [] →
        e = deepHash f.name 2 ∨ e ∈ s.directories := by
      intro e he hne
      rcases List.prefix_concat_iff.mp
        (show e <+: deepHash f.name 1 ++ [f.name.take 6] from he) with heq | hprefix
      · exact Or.inl heq
      · exact Or.inr (h.tree.closed _ hfirst e hprefix hne)
    have hne : deepHash f.name 2 ≠ [] := List.cons_ne_nil _ _
    obtain ⟨directories, hexec, hin, hsub, hnew⟩ := exec_mkdir htree hne
      (length_take f.name) habove (isDirectory_iff.mpr (Or.inr hfirst))
    rw [hexec]
    exact h.mkdir hcalls hsub hnew
      (Or.inr ⟨f, hf, hlength, hpassed, Or.inr (Or.inr ⟨rfl, hin⟩)⟩)
  · obtain ⟨rfl, rfl⟩ := List.cons.inj (hcalls.symm.trans heq)
    have hexec := exec_mv htree hf hdir
    rw [hexec]
    exact h.mv hf hlength hpassed hcalls hdir

theorem there_of_children {dir : List JsString} {x : JsString} (h : x ∈ s.children dir) :
    s.isDirectory (dir ++ [x]) = true ∨ s.isFile (dir ++ [x]) = true := by
  rcases List.mem_append.mp h with h | h
  · obtain ⟨d, hd, hx⟩ := List.mem_filterMap.mp h
    obtain ⟨rfl, hlast⟩ := Option.ite_none_right_eq_some.mp hx
    obtain ⟨front, rfl⟩ := List.getLast?_eq_some_iff.mp hlast
    rw [List.dropLast_concat]
    exact Or.inl (isDirectory_iff.mpr (Or.inr hd))
  · obtain ⟨f, hf, rfl⟩ := List.mem_map.mp h
    obtain ⟨hin, hpath⟩ := List.mem_filter.mp hf
    refine Or.inr (isFile_iff.mpr ⟨f, hin, ?_⟩)
    rw [DeepFile.full, of_decide_eq_true hpath]

/-- The names of a directory are read. -/
theorem Inv.readdir (h : Inv old s) {dir names : List JsString} (hcalls : s.calls = [])
    (hopening : s.opening = some dir) (honce : names.Nodup) (hthere : names ⊆ s.children dir)
    (hall : s.children dir ⊆ names) :
    Inv old { s with opening := none, frames := (dir, names) :: s.frames } := by
  have hwalk : Walk { s with opening := none, frames := (dir, names) :: s.frames } := by
    refine ⟨List.pairwise_cons.mpr ⟨h.walk.opened dir hopening, h.walk.nested⟩, ?_, ?_, ?_⟩
    · intro dir' hnone
      cases hnone
    · exact List.forall_mem_cons.mpr ⟨honce, h.walk.once⟩
    · exact List.forall_mem_cons.mpr
        ⟨fun x hx => there_of_children (hthere hx), h.walk.there⟩
  refine ⟨h.tree, hwalk, Or.inl hcalls, fun g hg hlength => ?_, h.kept, h.known, h.sound⟩
  rcases h.pending g hg hlength with ⟨dir', heq, hprefix⟩ | ⟨frame, hin, hx⟩ | hcall
  · obtain rfl := Option.some.inj (hopening.symm.trans heq)
    obtain ⟨rest, hrest⟩ := hprefix
    obtain ⟨x, hx, hfull⟩ : ∃ x ∈ s.children dir, dir ++ [x] <+: g.full := by
      cases rest with
      | nil =>
          rw [List.append_nil] at hrest
          refine ⟨g.name, List.mem_append_right _ (List.mem_map.mpr ⟨g, ?_, rfl⟩), ?_⟩
          · exact List.mem_filter.mpr ⟨hg, decide_eq_true hrest.symm⟩
          · rw [DeepFile.full, hrest]
      | cons x rest =>
          have hpath : dir ++ [x] <+: g.path := ⟨rest, by rw [List.append_assoc, ← hrest]; rfl⟩
          have hin := h.tree.above g hg _ hpath (by simp)
          refine ⟨x, List.mem_append_left _ (List.mem_filterMap.mpr ⟨_, hin, ?_⟩), ?_⟩
          · rw [List.dropLast_concat, if_pos rfl, List.getLast?_concat]
          · exact hpath.trans (List.prefix_append _ _)
    exact Or.inr (Or.inl ⟨_, List.mem_cons_self, x, hall hx, hfull⟩)
  · exact Or.inr (Or.inl ⟨frame, List.mem_cons_of_mem _ hin, hx⟩)
  · rw [hcalls] at hcall
    exact absurd hcall List.not_mem_nil

/-- Files behind the next name, and files behind the others. -/
theorem Inv.behind (h : Inv old s) {dir names : List JsString} {name : JsString}
    {frames : List (List JsString × List JsString)} (hcalls : s.calls = [])
    (hopening : s.opening = none) (hframes : s.frames = (dir, name :: names) :: frames)
    (hf : f ∈ s.files) (hlength : f.path.length < DEPTH) :
    dir ++ [name] <+: f.full ∨
      ∃ frame ∈ (dir, names) :: frames, ∃ x ∈ frame.2, frame.1 ++ [x] <+: f.full := by
  rcases h.pending f hf hlength with ⟨dir', heq, -⟩ | ⟨frame, hin, x, hx, hfull⟩ | hcall
  · rw [hopening] at heq
    cases heq
  · rw [hframes] at hin
    rcases List.mem_cons.mp hin with rfl | hin
    · rcases List.mem_cons.mp hx with rfl | hx
      · exact Or.inl hfull
      · exact Or.inr ⟨_, List.mem_cons_self, x, hx, hfull⟩
    · exact Or.inr ⟨frame, List.mem_cons_of_mem _ hin, x, hx, hfull⟩
  · rw [hcalls] at hcall
    exact absurd hcall List.not_mem_nil

/-- The innermost loop goes on to its next name. -/
theorem Walk.next (h : Walk s) {dir names : List JsString} {name : JsString}
    {frames : List (List JsString × List JsString)}
    (hframes : s.frames = (dir, name :: names) :: frames) {opening : Option (List JsString)}
    {calls : List Call} (hopening : ∀ d, opening = some d → d = dir ++ [name]) :
    Walk { s with opening := opening, calls := calls, frames := (dir, names) :: frames } := by
  obtain ⟨hnested, -, honce, hthere⟩ := h
  rw [hframes] at hnested honce hthere
  obtain ⟨hinner, hnested⟩ := List.pairwise_cons.mp hnested
  obtain ⟨hfirst, honce⟩ := List.forall_mem_cons.mp honce
  obtain ⟨hnames, hthere⟩ := List.forall_mem_cons.mp hthere
  refine ⟨List.pairwise_cons.mpr ⟨hinner, hnested⟩, fun d hd => ?_,
    List.forall_mem_cons.mpr ⟨hfirst.of_cons, honce⟩,
    List.forall_mem_cons.mpr ⟨(List.forall_mem_cons.mp hnames).2, hthere⟩⟩
  have hlength : dir.length < d.length := by
    rw [hopening d hd, List.length_append]
    exact Nat.lt_succ_self _
  exact List.forall_mem_cons.mpr ⟨hlength, fun frame hin => (hinner frame hin).trans hlength⟩

/-- No loop has to come again to the name that the innermost one goes through. -/
theorem Walk.passed (h : Walk s) {dir names : List JsString} {name : JsString}
    {frames : List (List JsString × List JsString)}
    (hframes : s.frames = (dir, name :: names) :: frames) :
    ∀ frame ∈ (dir, names) :: frames, frame.1 = dir → name ∉ frame.2 := by
  have hnested := h.nested
  rw [hframes] at hnested
  have honce : (name :: names).Nodup := h.once (dir, name :: names) (by simp [hframes])
  refine List.forall_mem_cons.mpr ⟨fun _ => (List.nodup_cons.mp honce).1, ?_⟩
  intro frame hin heq
  have hlength := (List.pairwise_cons.mp hnested).1 frame hin
  rw [heq] at hlength
  exact absurd hlength (lt_irrefl _)

/-- **The next name is a directory.** -/
theorem Inv.directory (h : Inv old s) {dir names : List JsString} {name : JsString}
    {frames : List (List JsString × List JsString)} (hcalls : s.calls = [])
    (hopening : s.opening = none) (hframes : s.frames = (dir, name :: names) :: frames)
    (hdir : s.isDirectory (dir ++ [name]) = true) :
    Inv old { s with opening := some (dir ++ [name]), frames := (dir, names) :: frames } := by
  have hne : dir ++ [name] ≠ [] := by simp
  refine ⟨h.tree, h.walk.next hframes (fun d hd => (Option.some.inj hd).symm), Or.inl hcalls,
    fun g hg hlength => ?_, h.kept, h.known, h.sound⟩
  rcases h.behind hcalls hopening hframes hg hlength with hfull | hframe
  · rcases h.tree.above_full hg hfull hne with heq | ⟨hpath, -⟩
    · rcases isDirectory_iff.mp hdir with hnil | hin
      · exact absurd hnil hne
      · rw [heq] at hin
        exact absurd hin (h.tree.not_directory hg)
    · exact Or.inl ⟨_, rfl, hpath⟩
  · exact Or.inr (Or.inl hframe)

/-- **The next name is a file.** -/
theorem Inv.file (h : Inv old s) {dir names : List JsString} {name : JsString}
    {frames : List (List JsString × List JsString)} (hcalls : s.calls = [])
    (hopening : s.opening = none) (hframes : s.frames = (dir, name :: names) :: frames)
    (hdir : ¬ s.isDirectory (dir ++ [name]) = true) (hfile : s.isFile (dir ++ [name]) = true) :
    Inv old { s with calls := onNewFile dir name, frames := (dir, names) :: frames } := by
  obtain ⟨f, hf, hfull⟩ := isFile_iff.mp hfile
  obtain ⟨rfl, hname⟩ := List.append_inj' hfull rfl
  obtain rfl := (List.cons.inj hname).1
  have hnone : ∀ d, s.opening = some d → d = f.path ++ [f.name] := fun d hd =>
    absurd (hopening.symm.trans hd) (Option.some_ne_none d).symm
  refine ⟨h.tree, h.walk.next hframes hnone, ?_, fun g hg hlength => ?_, h.kept, h.known,
    h.sound⟩
  · unfold Placed onNewFile
    dsimp only
    split
    · exact Or.inl rfl
    · rename_i hlength
      exact Or.inr ⟨f, hf, not_le.mp hlength, h.walk.passed hframes, Or.inl rfl⟩
  · rcases h.behind hcalls hopening hframes hg hlength with hprefix | hframe
    · -- the name is no directory: only this file is behind it
      have hsame : f.full = g.full := by
        rcases h.tree.above_full hg hprefix (by simp) with heq | ⟨-, hin⟩
        · exact heq
        · exact absurd (isDirectory_iff.mpr (Or.inr hin)) hdir
      obtain ⟨hpath, hname⟩ := full_inj hsame.symm
      rw [hpath] at hlength
      refine Or.inr (Or.inr ?_)
      rw [hpath, hname, onNewFile, if_neg (not_le.mpr hlength)]
      exact List.mem_append_right _ List.mem_cons_self
    · exact Or.inr (Or.inl hframe)

/-- A loop has come to its end. -/
theorem Inv.back (h : Inv old s) {dir : List JsString}
    {frames : List (List JsString × List JsString)} (hcalls : s.calls = [])
    (hopening : s.opening = none) (hframes : s.frames = (dir, []) :: frames) :
    Inv old { s with frames := frames } := by
  have hsub : ∀ frame ∈ frames, frame ∈ s.frames := by
    intro frame hin
    rw [hframes]
    exact List.mem_cons_of_mem _ hin
  have hnested := h.walk.nested
  rw [hframes] at hnested
  have hwalk : Walk { s with frames := frames } :=
    ⟨(List.pairwise_cons.mp hnested).2,
      fun d hd frame hin => h.walk.opened d hd frame (hsub frame hin),
      fun frame hin => h.walk.once frame (hsub frame hin),
      fun frame hin => h.walk.there frame (hsub frame hin)⟩
  refine ⟨h.tree, hwalk, Or.inl hcalls, fun g hg hlength => ?_, h.kept, h.known, h.sound⟩
  rcases h.pending g hg hlength with ⟨d, heq, -⟩ | ⟨frame, hin, x, hx, hfull⟩ | hcall
  · rw [hopening] at heq
    cases heq
  · rw [hframes] at hin
    rcases List.mem_cons.mp hin with rfl | hin
    · exact absurd hx List.not_mem_nil
    · exact Or.inr (Or.inl ⟨frame, hin, x, hx, hfull⟩)
  · exact Or.inr (Or.inr hcall)

/-- A run of the script begins, on the files and directories that there are. -/
theorem Inv.start (h : Tree s.files s.directories)
    (hkept : ∀ f ∈ old, ∃ g ∈ s.files, Moved f g) (hknown : ∀ g ∈ s.files, ∃ f ∈ old, Moved f g) :
    Inv old s.start := by
  have hwalk : Walk s.start :=
    ⟨List.Pairwise.nil, fun _ _ frame hin => absurd hin List.not_mem_nil,
      fun frame hin => absurd hin List.not_mem_nil, fun frame hin => absurd hin List.not_mem_nil⟩
  exact ⟨h, hwalk, Or.inl rfl, fun _ _ _ => Or.inl ⟨[], rfl, List.nil_prefix⟩, hkept, hknown, rfl⟩

theorem step_inv (h : Inv old s) (hstep : s.step act = some t) : Inv old t := by
  cases step_cases hstep with
  | readdir hcalls hopening honce hthere hall => exact h.readdir hcalls hopening honce hthere hall
  | call hcalls => exact h.call hcalls
  | directory hcalls hopening hframes hdir => exact h.directory hcalls hopening hframes hdir
  | file hcalls hopening hframes hdir hfile => exact h.file hcalls hopening hframes hdir hfile
  | @gone dir names name frames hframes hdir hfile =>
      -- each name that is still to come is there
      have hthere := h.walk.there (dir, name :: names) (by simp [hframes]) name List.mem_cons_self
      exact absurd hthere (not_or.mpr ⟨hdir, hfile⟩)
  | back hcalls hopening hframes => exact h.back hcalls hopening hframes
  | die => exact Inv.start h.tree h.kept h.known

theorem inv_start (h : Tree s.files s.directories) : Inv s.files s.start :=
  Inv.start h (fun f hf => ⟨f, hf, Moved.refl f⟩) (fun f hf => ⟨f, hf, Moved.refl f⟩)

/-- Where the script leaves a file. -/
def placeOf (f : DeepFile) : List JsString :=
  if f.path.length < DEPTH then deepHash f.name DEPTH else f.path

/-- At the end of a run nothing is left to do. -/
theorem Inv.ended (h : Inv old s) (hended : s.Ended) : ∀ f ∈ s.files, DEPTH ≤ f.path.length := by
  intro f hf
  by_contra hlength
  obtain ⟨hcalls, hopening, hframes, -⟩ := hended
  rcases h.pending f hf (not_le.mp hlength) with ⟨dir, heq, -⟩ | ⟨frame, hin, -⟩ | hcall
  · rw [hopening] at heq
    cases heq
  · rw [hframes] at hin
    exact absurd hin List.not_mem_nil
  · rw [hcalls] at hcall
    exact absurd hcall List.not_mem_nil

theorem Moved.placeOf {g : DeepFile} (h : Moved f g) (hlength : DEPTH ≤ g.path.length) :
    g.path = placeOf f := by
  unfold Deep.placeOf
  rcases h.path with hsame | ⟨hshort, hnew⟩
  · rw [if_neg (not_lt.mpr (by rw [← hsame]; exact hlength))]
    exact hsame
  · rw [if_pos hshort]
    exact hnew

/-- **The archive is sorted** and nothing of it lost: in every state, whatever the order of
the names and the ends of the runs, no call has thrown, each file of the old archive is
there, where it was or in its directory, and there are no others; and when a run has come to
its end each is in its directory. -/
theorem archive_sorted {acts : List Act} (htree : Tree s.files s.directories)
    (hrun : Runs.run step s.start acts = some t) :
    t.threw = false ∧ (∀ f ∈ s.files, ∃ g ∈ t.files, Moved f g) ∧
      (∀ g ∈ t.files, ∃ f ∈ s.files, Moved f g) ∧
      (t.Ended → (∀ f ∈ s.files, ∃ g ∈ t.files, Moved f g ∧ g.path = placeOf f) ∧
        ∀ g ∈ t.files, ∃ f ∈ s.files, Moved f g ∧ g.path = placeOf f) := by
  have hinv : Inv s.files t :=
    invariant_always (fun _ _ _ h hstep => step_inv h hstep) (inv_start htree) hrun
  refine ⟨hinv.sound, hinv.kept, hinv.known, fun hended => ⟨fun f hf => ?_, fun g hg => ?_⟩⟩
  · obtain ⟨g, hg, hmoved⟩ := hinv.kept f hf
    exact ⟨g, hg, hmoved, hmoved.placeOf (hinv.ended hended g hg)⟩
  · obtain ⟨f, hf, hmoved⟩ := hinv.known g hg
    exact ⟨f, hf, hmoved, hmoved.placeOf (hinv.ended hended g hg)⟩

end Runs

section Examples

def firstFile : DeepFile :=
  ⟨[], units "84b5ae0b71226716cf26b778e00a1d0c0da78cf1", Conv.firstText⟩

def secondFile : DeepFile :=
  ⟨[units "f34"], units "f34c1488385346a55709ba056ddd08280dd4c6d6", Conv.secondText⟩

/-- An archive with a file that an earlier run has not moved to its end. -/
def twoFiles : Deep := ⟨[firstFile, secondFile], [[units "f34"]], none, [], [], false⟩

theorem tree_twoFiles : Tree twoFiles.files twoFiles.directories := by
  have hone : ∀ d, d <+: [units "f34"] → d ≠ [] → d ∈ twoFiles.directories := by
    intro d hd hne
    rcases List.prefix_concat_iff.mp (show d <+: [] ++ [units "f34"] from hd) with rfl | hnil
    · exact List.mem_cons_self
    · exact absurd (List.prefix_nil.mp hnil) hne
  refine ⟨by decide, by decide, by decide, fun f hf d hd hne => ?_, fun d hd e he hne => ?_⟩
  · rcases List.mem_pair.mp hf with rfl | rfl
    · exact absurd (List.prefix_nil.mp hd) hne
    · exact hone d hd hne
  · rw [List.mem_singleton.mp hd] at he
    exact hone e he hne

/-- A run that ends in front of the move of the second file, and one that comes to its end. -/
def twoRuns : List Act :=
  [.readdir [units "f34", firstFile.name], .next, .readdir [secondFile.name], .next, .next,
    .next, .die, .readdir [firstFile.name, units "f34"]] ++ List.replicate 5 .next ++
  [.readdir [secondFile.name, units "f34c14"]] ++ List.replicate 5 .next ++
  [.readdir [secondFile.name]] ++ List.replicate 4 .next

theorem archive_sorted_twoFiles : ∃ t, Runs.run step twoFiles.start twoRuns = some t ∧ t.Ended ∧
    t.threw = false ∧ (∀ f ∈ twoFiles.files, ∃ g ∈ t.files, Moved f g ∧ g.path = placeOf f) := by
  have hany : (Runs.run step twoFiles.start twoRuns).any (fun t =>
      decide (t.calls = [] ∧ t.opening = none ∧ t.frames = [] ∧ t.threw = false)) = true := by
    decide +kernel
  obtain ⟨t, hrun, ht⟩ := (Option.any_eq_true _ _).mp hany
  have hended : t.calls = [] ∧ t.opening = none ∧ t.frames = [] ∧ t.threw = false :=
    of_decide_eq_true ht
  obtain ⟨hsound, -, -, hplaced⟩ := archive_sorted tree_twoFiles hrun
  exact ⟨t, hrun, hended, hsound, (hplaced hended).1⟩

end Examples

/-! ## The directories for `conv_sha1_2_hash.js` -/

section Listing

variable {s t : Deep} {f : OldFile}

/-- The name of an entry of a directory. -/
def nameOf : Entry → JsString
  | .dir name _ | .file name _ | .other name => name

theorem head_filesOfEntry {e : Entry} (h : f ∈ filesOfEntry none [] e) :
    ∀ top ∈ f.path.head?, top = nameOf e := by
  intro top htop
  cases e with
  | dir name dirs =>
      rw [filesOfEntry, if_neg (show ¬ skips none name = true from Bool.false_ne_true)] at h
      obtain ⟨rest, hrest⟩ := path_filesOf ([] ++ [name]) dirs f h
      rw [← hrest] at htop
      exact (Option.some.inj htop).symm
  | file name content =>
      rw [filesOfEntry] at h
      rw [List.mem_singleton.mp h] at htop
      cases htop
  | other name =>
      rw [filesOfEntry] at h
      exact absurd h List.not_mem_nil

theorem head_filesOf : ∀ {dirs : List Entry}, f ∈ filesOf none [] dirs →
    ∀ top ∈ f.path.head?, ∃ e ∈ dirs, nameOf e = top
  | [], h, _, _ => by
      rw [filesOf] at h
      exact absurd h List.not_mem_nil
  | e :: dirs, h, top, htop => by
      rw [filesOf, List.mem_append] at h
      rcases h with h | h
      · exact ⟨e, List.mem_cons_self, (head_filesOfEntry h top htop).symm⟩
      · obtain ⟨e', he', hname⟩ := head_filesOf h top htop
        exact ⟨e', List.mem_cons_of_mem e he', hname⟩

/-- The files come in the order of the top directories. -/
theorem filesOf_sorted : ∀ {dirs : List Entry},
    dirs.Pairwise (fun e e' => nameOf e < nameOf e') →
      (filesOf none [] dirs).Pairwise
        (fun g f => ∀ top ∈ g.path.head?, ∀ top' ∈ f.path.head?, ¬ top' < top)
  | [], _ => by
      rw [filesOf]
      exact List.Pairwise.nil
  | e :: dirs, h => by
      obtain ⟨hfirst, hrest⟩ := List.pairwise_cons.mp h
      rw [filesOf, List.pairwise_append]
      refine ⟨List.pairwise_of_forall_mem_list fun g hg k hk top htop top' htop' => ?_,
        filesOf_sorted hrest, fun g hg k hk top htop top' htop' => ?_⟩
      · rw [head_filesOfEntry hg top htop, head_filesOfEntry hk top' htop']
        exact List.lt_irrefl (nameOf e)
      · obtain ⟨e', he', rfl⟩ := head_filesOf hk top' htop'
        rw [head_filesOfEntry hg top htop]
        exact List.lt_asymm (hfirst e' he')

/-- **The archive has the layout that `conv_sha1_2_hash.js` needs**, when the script has come
to its end on an archive that is flat, or is from its earlier runs, and the names of the top
directories are read in their order. -/
theorem deep_layout {acts : List Act} {root : List Entry} (htree : Tree s.files s.directories)
    (hhex : ∀ f ∈ s.files, IsHexName f.name)
    (hplace : ∀ f ∈ s.files, f.path.length < DEPTH ∨ f.path = deepHash f.name DEPTH)
    (hrun : Runs.run step s.start acts = some t) (hended : t.Ended)
    (hlist : ∀ f ∈ filesOf none [] root, ∃ g ∈ t.files, g.path = f.path)
    (hsorted : root.Pairwise (fun e e' => nameOf e < nameOf e')) :
    Layout (filesOf none [] root) := by
  have hinv : Inv s.files t :=
    invariant_always (fun _ _ _ h hstep => step_inv h hstep) (inv_start htree) hrun
  -- each path is that of a name
  have hpath : ∀ f ∈ filesOf none [] root, ∃ name, IsHexName name ∧ 6 < name.length ∧
      f.path = [name.take 3, name.take 6] := by
    intro f hf
    obtain ⟨g, hg, hsame⟩ := hlist f hf
    obtain ⟨k, hk, hmoved⟩ := hinv.known g hg
    refine ⟨k.name, hhex k hk, htree.long k hk, ?_⟩
    rw [← hsame, hmoved.placeOf (hinv.ended hended g hg)]
    unfold placeOf
    split
    · rfl
    · rename_i hlength
      exact (hplace k hk).resolve_left hlength
  have htake : ∀ {name : JsString} (n : ℕ), IsHexName name → 0 < n → IsHexName (name.take n) := by
    intro name n hname hn
    refine ⟨fun hnil => ?_, fun u hu => hname.2 u (List.mem_of_mem_take hu)⟩
    rcases List.take_eq_nil_iff.mp hnil with hzero | hnone
    · exact absurd hzero hn.ne'
    · exact hname.1 hnone
  refine ⟨fun f hf d hd => ?_, fun f hf top htop => ?_, fun f hf top htop d hd => ?_, ?_⟩
  · obtain ⟨name, hname, -, hf⟩ := hpath f hf
    rw [hf] at hd
    rcases List.mem_pair.mp hd with rfl | rfl
    · exact htake 3 hname (by decide)
    · exact htake 6 hname (by decide)
  · obtain ⟨name, -, -, hf⟩ := hpath f hf
    rw [hf] at htop
    obtain rfl := Option.some.inj htop
    exact (List.length_take_le _ _).trans (by decide)
  · obtain ⟨name, -, -, hf⟩ := hpath f hf
    rw [hf] at htop hd
    obtain rfl := Option.some.inj htop
    rcases List.mem_pair.mp hd with rfl | rfl
    · exact List.prefix_rfl
    · exact List.take_prefix_take_left (by decide)
  · refine (filesOf_sorted hsorted).imp_of_mem ?_
    intro g f hg hf hlt top htop top' htop'
    refine ⟨?_, hlt top htop top' htop'⟩
    obtain ⟨name, -, hlong, hg⟩ := hpath g hg
    obtain ⟨name', -, hlong', hf⟩ := hpath f hf
    rw [hg] at htop
    rw [hf] at htop'
    obtain rfl := Option.some.inj htop
    obtain rfl := Option.some.inj htop'
    rw [List.length_take, List.length_take]
    omega

theorem deep_layout_twoFiles : Layout (filesOf none [] Conv.twoOld) := by
  have hany : (Runs.run step twoFiles.start twoRuns).any (fun t =>
      decide ((t.calls = [] ∧ t.opening = none ∧ t.frames = [] ∧ t.threw = false) ∧
        t.files.map DeepFile.path =
          [[units "84b", units "84b5ae"], [units "f34", units "f34c14"]])) = true := by
    decide +kernel
  obtain ⟨t, hrun, ht⟩ := (Option.any_eq_true _ _).mp hany
  obtain ⟨hended, hpaths⟩ := of_decide_eq_true ht
  refine deep_layout tree_twoFiles (by decide) (by decide) hrun hended (fun f hf => ?_) (by decide)
  have hin : f.path ∈ t.files.map DeepFile.path := by
    rw [hpaths]
    rw [Conv.filesOf_twoOld] at hf
    rcases List.mem_pair.mp hf with rfl | rfl
    · exact List.mem_cons_self
    · exact List.mem_cons_of_mem _ List.mem_cons_self
  exact List.mem_map.mp hin

end Listing

end Deep

end WaiNative.HashArchive

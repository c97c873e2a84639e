import WaiNative.Dataset.DumpRange
import WaiNative.Theory.WriteBehind

/-!
# `ipfs-wikidump`: the pages of a dump into IPFS

`ipfs-cnwiki.js` reads a dump with `WikiDumper`, which pauses the stream at each page,
though the other lines of the chunk still come. `IpfsSave` has one request `node.add` under
way and keeps the other pages in `cacheToSave`; for each answer `LevelSave` writes a batch
with the page and the count of the bytes read, where the next run starts (1024 bytes
earlier), and the stream goes on behind the last page that was kept.

- `Cnwiki.step`: chunks, answers, failures and batches in any order, and ends of the process;
- `Cnwiki.log`: the program as a log of pages, each with the count stored behind it;
- `pages_saved`: if the database writes the batches in their order, no page is lost;
- `page_overtaken`: if not, one can be;
- `answers_drain`: the stream never stays paused.
-/

namespace WaiNative.WikiDump

open Cxx Runs WriteBehind

/-! ## The program -/

/-- What `ipfs-cnwiki.js` is given, and what it calls: the title and the text that `cheerio`
finds in a page, `opencc`, and the hash that IPFS has for a text. -/
structure IpfsCnwiki (Cid : Type) where
  skipTitles : List (List ℕ)
  fetchTitle_ : List ℕ → List ℕ
  fetchText_ : List ℕ → List ℕ
  traditionalToSimplified : List ℕ → List ℕ
  hash : Str → Cid

/-- The arguments of `save`. -/
structure Cache where
  cnTitle : List ℕ
  cnText : List ℕ
  pos : ℕ
deriving DecidableEq

/-- With the request `node.add` that is under way. -/
structure IpfsSave where
  isSaving : Bool
  cacheToSave : List Cache
  adding : Option Cache
deriving DecidableEq

namespace IpfsSave

def new : IpfsSave := ⟨false, [], none⟩

def save (s : IpfsSave) (cache : Cache) : IpfsSave :=
  if s.isSaving then { s with cacheToSave := s.cacheToSave ++ [cache] }
  else { s with isSaving := true, adding := some cache }

def _popCache (s : IpfsSave) : IpfsSave :=
  match s.cacheToSave with
  | [] => s
  | cache :: _ =>
      let s := s.save cache
      { s with cacheToSave := s.cacheToSave.drop 1 }

end IpfsSave

/-- A batch under way, and whether its callback resumes the stream. -/
structure Batch (Cid : Type) where
  hash : Cid
  title : List ℕ
  pos : ℕ
  resume : Bool
deriving DecidableEq

/-- The database, with the last put in front, and the batches under way. -/
structure LevelSave (Cid : Type) where
  pages : List (Cid × List ℕ)
  resumePos : Option ℕ
  batches : List (Batch Cid)
deriving DecidableEq

namespace LevelSave

variable {Cid : Type}

def save (l : LevelSave Cid) (hash : Cid) (title : List ℕ) (pos : ℕ) (resume : Bool) :
    LevelSave Cid := { l with batches := l.batches ++ [⟨hash, title, pos, resume⟩] }

/-- The batch is in the database. -/
def put (l : LevelSave Cid) (i : ℕ) (batch : Batch Cid) : LevelSave Cid where
  pages := (batch.hash, batch.title) :: l.pages
  resumePos := some batch.pos
  batches := l.batches.eraseIdx i

/-- `_onDBOpen` -/
def onDBOpen (l : LevelSave Cid) : ℕ :=
  let ResumePos := l.resumePos.getD 0
  if ResumePos > 1024 then ResumePos - 1024 else ResumePos

end LevelSave

/-- The process: where it started, its parts, and whether an error closes the database. -/
structure Cnwiki (Cid : Type) where
  start : ℕ
  wikiDumper : WikiDumper
  paused : Bool
  iSave : IpfsSave
  lSave : LevelSave Cid
  closing : Bool
deriving DecidableEq

namespace Cnwiki

inductive Act
  /-- a chunk of the stream, that ends so many lines -/
  | data (n : ℕ)
  /-- `node.add` gives a hash -/
  | added
  /-- `node.add` gives an error -/
  | addFailed
  /-- batch `i` of those under way is written, and its callback called -/
  | written (i : ℕ)
  /-- the process ends, and is started again -/
  | exit
deriving DecidableEq

section Steps

variable {Cid : Type} (main : IpfsCnwiki Cid) (file : Str)

/-- A start of the process, with what is in the database. -/
def boot (lSave : LevelSave Cid) : Cnwiki Cid where
  start := lSave.onDBOpen
  wikiDumper := WikiDumper.range file lSave.onDBOpen
  paused := false
  iSave := .new
  lSave := { lSave with batches := [] }
  closing := false

/-- The first start. -/
def init : Cnwiki Cid := boot file ⟨[], none, []⟩

def onPage (s : Cnwiki Cid) (page : List ℕ) (pos : ℕ) : Cnwiki Cid :=
  let zhTitle := main.fetchTitle_ page
  if zhTitle = [] then { s with paused := false }
  else if IpfsMain.filterTitle main.skipTitles zhTitle then { s with paused := false }
  else
    { s with iSave := s.iSave.save ⟨main.traditionalToSimplified zhTitle,
        main.traditionalToSimplified (main.fetchText_ page), pos⟩ }

/-- A line is handled; `parsePage_` pauses the stream. -/
def line (s : Cnwiki Cid) (line : List ℕ) (rest : List (List ℕ)) : Cnwiki Cid :=
  match ({ s.wikiDumper with rest := rest }).onLine line with
  | (d, none) => { s with wikiDumper := d }
  | (d, some (page, pos)) => onPage main { s with wikiDumper := d, paused := true } page pos

/-- The lines of a chunk: a pause does not stop them. -/
def onData : ℕ → Cnwiki Cid → Cnwiki Cid
  | 0, s => s
  | n + 1, s =>
      match s.wikiDumper.rest with
      | [] => s
      | l :: rest => onData n (s.line main l rest)

/-- The callback of `node.add`. -/
def onAdd (s : Cnwiki Cid) (cache : Cache) : Cnwiki Cid :=
  let hash := main.hash (encodeText cache.cnText)
  let iSave : IpfsSave := { s.iSave with isSaving := false, adding := none }
  if 0 < iSave.cacheToSave.length then
    { s with
      lSave := s.lSave.save hash cache.cnTitle cache.pos false
      iSave := iSave._popCache }
  else
    { s with
      lSave := s.lSave.save hash cache.cnTitle cache.pos true
      iSave := iSave }

/-- The callback of a batch. -/
def onWritten (s : Cnwiki Cid) (i : ℕ) (batch : Batch Cid) : Cnwiki Cid :=
  { s with
    lSave := s.lSave.put i batch
    paused := if batch.resume then false else s.paused }

def step (s : Cnwiki Cid) : Act → Option (Cnwiki Cid)
  | .data n => if s.paused then none else some (onData main n s)
  | .added => s.iSave.adding.map (onAdd main s)
  | .addFailed => s.iSave.adding.map fun _ =>
      { s with iSave := { s.iSave with adding := none }, closing := true }
  | .written i => s.lSave.batches[i]?.map (s.onWritten i)
  | .exit => some (boot file s.lSave)

end Steps

/-! ## The log of the program -/

section Logs

variable {Cid : Type} (main : IpfsCnwiki Cid)

/-- The page is not to be saved. -/
def Skips (page : List ℕ) : Prop :=
  main.fetchTitle_ page = [] ∨ IpfsMain.filterTitle main.skipTitles (main.fetchTitle_ page) = true

/-- The hash of the page. -/
def cid (page : List ℕ) : Cid :=
  main.hash (encodeText (main.traditionalToSimplified (main.fetchText_ page)))

/-- The page is one of these, if it is to be saved. -/
def Settled (known : Set Cid) (page : List ℕ) : Prop := Skips main page ∨ cid main page ∈ known

/-- The hashes in the database. -/
def stored (l : LevelSave Cid) : Set Cid := {c | ∃ title, (c, title) ∈ l.pages}

def batchItem (batch : Batch Cid) : Cid × ℕ := (batch.hash, batch.pos)

def item (cache : Cache) : Cid × ℕ := (main.hash (encodeText cache.cnText), cache.pos)

/-- The pages that are not in the database yet. Behind an error no more are added. -/
def queue (s : Cnwiki Cid) : List (Cid × ℕ) :=
  s.lSave.batches.map batchItem ++
    if s.closing then [] else (s.iSave.adding.toList ++ s.iSave.cacheToSave).map (item main)

def log (s : Cnwiki Cid) : Log Cid ℕ := ⟨stored s.lSave, s.lSave.resumePos.getD 0, queue main s⟩

variable {main} {s t : Cnwiki Cid} {page : List ℕ} {known known' : Set Cid}

theorem Settled.mono (h : Settled main known page) (hsub : known ⊆ known') :
    Settled main known' page := h.imp id (fun hin => hsub hin)

/-- A batch that is written puts its hash. -/
theorem stored_put (l : LevelSave Cid) (i : ℕ) (batch : Batch Cid) :
    stored (l.put i batch) = insert batch.hash (stored l) := by
  ext c
  simp only [stored, LevelSave.put, List.mem_cons, Prod.mk.injEq, Set.mem_ofPred_eq,
    Set.mem_insert_iff]
  constructor
  · rintro ⟨title, ⟨hc, -⟩ | hin⟩
    · exact Or.inl hc
    · exact Or.inr ⟨title, hin⟩
  · rintro (hc | ⟨title, hin⟩)
    · exact ⟨batch.title, Or.inl ⟨hc, rfl⟩⟩
    · exact ⟨title, Or.inr hin⟩

end Logs

/-! ## The parts of a step -/

section Parts

variable {Cid : Type} {main : IpfsCnwiki Cid} {s t : Cnwiki Cid} {act : Act}

/-- Without an error, a page is kept only while another one is added; and while the stream
is paused, something is under way that resumes it. -/
structure Ordered (s : Cnwiki Cid) : Prop where
  idle : s.iSave.isSaving = false → s.iSave.adding = none ∧ s.iSave.cacheToSave = []
  busy : s.iSave.isSaving = true → s.closing = true ∨ s.iSave.adding.isSome = true
  failed : s.closing = true → s.iSave.isSaving = true ∧ s.iSave.adding = none
  flows : s.paused = true → s.closing = true ∨ s.iSave.adding.isSome = true ∨
    ∃ batch ∈ s.lSave.batches, batch.resume = true

variable (main) in
/-- A page that is passed to `save` waits behind the others. -/
theorem queue_save (h : Ordered s) (hopen : s.closing = false) (cache : Cache) (paused : Bool)
    (d : WikiDumper) :
    queue main { s with wikiDumper := d, paused := paused, iSave := s.iSave.save cache } =
      queue main s ++ [item main cache] := by
  rw [queue, queue, IpfsSave.save]
  dsimp only
  rw [hopen, if_neg Bool.false_ne_true, if_neg Bool.false_ne_true, List.append_assoc]
  split
  · dsimp only
    rw [← List.append_assoc s.iSave.adding.toList, List.map_append]
    rfl
  · rename_i hidle
    obtain ⟨hadding, hcache⟩ := h.idle (eq_false_of_ne_true hidle)
    dsimp only
    rw [hadding, hcache]
    rfl

/-- Behind an error it waits for nothing. -/
theorem queue_of_closing (hclosing : s.closing = true) (iSave : IpfsSave) (paused : Bool)
    (d : WikiDumper) :
    queue main { s with wikiDumper := d, paused := paused, iSave := iSave } = queue main s := by
  rw [queue, queue]
  dsimp only
  rw [hclosing, if_pos rfl, if_pos rfl]

theorem ordered_save (h : Ordered s) (cache : Cache) (paused : Bool) (d : WikiDumper) :
    Ordered { s with wikiDumper := d, paused := paused, iSave := s.iSave.save cache } := by
  cases hsaving : s.iSave.isSaving with
  | true =>
      have hsave : s.iSave.save cache =
          { s.iSave with cacheToSave := s.iSave.cacheToSave ++ [cache] } := if_pos hsaving
      rw [hsave]
      exact ⟨fun hidle => absurd (hsaving.symm.trans hidle) (by decide), h.busy, h.failed,
        fun _ => (h.busy hsaving).imp id Or.inl⟩
  | false =>
      have hsave : s.iSave.save cache =
          { s.iSave with isSaving := true, adding := some cache } :=
        if_neg (ne_true_of_eq_false hsaving)
      rw [hsave]
      exact ⟨fun hidle => absurd hidle.symm Bool.false_ne_true, fun _ => Or.inr rfl,
        fun hclosing => absurd (hsaving.symm.trans (h.failed hclosing).1) Bool.false_ne_true,
        fun _ => Or.inr (Or.inl rfl)⟩

/-- The stream flows. -/
theorem Ordered.resume (h : Ordered s) (d : WikiDumper) :
    Ordered { s with wikiDumper := d, paused := false } :=
  ⟨h.idle, h.busy, h.failed, fun hpaused => absurd hpaused Bool.false_ne_true⟩

/-- What `onPage` does with a page of a title that is skipped, and with the others. -/
theorem onPage_cases (main : IpfsCnwiki Cid) (s : Cnwiki Cid) (page : List ℕ) (pos : ℕ) :
    (Skips main page ∧ onPage main s page pos = { s with paused := false }) ∨
    ∃ cache, item main cache = (cid main page, pos) ∧
      onPage main s page pos = { s with iSave := s.iSave.save cache } := by
  unfold onPage
  dsimp only
  split
  · rename_i htitle
    exact Or.inl ⟨Or.inl htitle, rfl⟩
  split
  · rename_i hfilter
    exact Or.inl ⟨Or.inr hfilter, rfl⟩
  · exact Or.inr ⟨_, rfl, rfl⟩

theorem line_of_not_close {line : List ℕ} {rest : List (List ℕ)} (hclose : ¬ closeTag <:+: line) :
    s.line main line rest =
      { s with wikiDumper := { s.wikiDumper with rest := rest }.collect line } := by
  rw [Cnwiki.line, WikiDumper.onLine]
  dsimp only
  rw [if_neg hclose]

theorem line_of_close {line : List ℕ} {rest : List (List ℕ)} (hclose : closeTag <:+: line)
    {d : WikiDumper} (hd : { s.wikiDumper with rest := rest }.collect line = d) :
    s.line main line rest = onPage main
      { s with
        wikiDumper := ⟨rest, false, [], d.pos + (encodeText d.titlePage).length⟩
        paused := true }
      d.titlePage (d.pos + (encodeText d.titlePage).length) := by
  rw [Cnwiki.line, WikiDumper.onLine]
  dsimp only
  rw [if_pos hclose, hd]
  subst hd
  rfl

variable (main) in
theorem ordered_line (h : Ordered s) (line : List ℕ) (rest : List (List ℕ)) :
    Ordered (s.line main line rest) := by
  by_cases hclose : closeTag <:+: line
  · rw [line_of_close hclose rfl]
    rcases onPage_cases main _ _ _ with ⟨-, hpage⟩ | ⟨cache, -, hpage⟩
    · rw [hpage]
      exact h.resume _
    · rw [hpage]
      exact ordered_save h cache true _
  · rw [line_of_not_close hclose]
    exact ⟨h.idle, h.busy, h.failed, h.flows⟩

/-- What each line keeps, each chunk does. -/
theorem onData_keeps {P : Cnwiki Cid → Prop}
    (hline : ∀ s line rest, P s → s.wikiDumper.rest = line :: rest → P (s.line main line rest))
    (n : ℕ) : ∀ {s : Cnwiki Cid}, P s → P (onData main n s) := by
  induction n with
  | zero => exact fun h => h
  | succ n ih =>
      intro s h
      rw [onData]
      split
      · exact h
      · rename_i line rest hrest
        exact ih (hline s line rest h hrest)

/-- An answer, when no other page is kept, and when one is. -/
theorem onAdd_cases (main : IpfsCnwiki Cid) (s : Cnwiki Cid) (cache : Cache) :
    (s.iSave.cacheToSave = [] ∧ onAdd main s cache =
      { s with
        lSave := s.lSave.save (main.hash (encodeText cache.cnText)) cache.cnTitle cache.pos true
        iSave := .new }) ∨
    ∃ next rest, s.iSave.cacheToSave = next :: rest ∧ onAdd main s cache =
      { s with
        lSave := s.lSave.save (main.hash (encodeText cache.cnText)) cache.cnTitle cache.pos false
        iSave := ⟨true, rest, some next⟩ } := by
  unfold onAdd
  dsimp only
  cases hcache : s.iSave.cacheToSave with
  | nil =>
      rw [if_neg (by rw [List.length_nil]; exact lt_irrefl 0)]
      exact Or.inl ⟨rfl, rfl⟩
  | cons next rest =>
      rw [if_pos (by rw [List.length_cons]; exact Nat.succ_pos _)]
      exact Or.inr ⟨next, rest, rfl, rfl⟩

variable (main) in
/-- An answer moves its page from the requests to the batches. -/
theorem queue_onAdd (h : Ordered s) {cache : Cache} (hadding : s.iSave.adding = some cache) :
    s.closing = false ∧ queue main (onAdd main s cache) = queue main s := by
  have hopen : s.closing = false := by
    by_contra hclosing
    have hnone := (h.failed (Bool.eq_true_of_not_eq_false hclosing)).2
    cases hadding.symm.trans hnone
  have hold : queue main s = s.lSave.batches.map batchItem ++
      item main cache :: s.iSave.cacheToSave.map (item main) := by
    rw [queue, hadding, hopen]
    rfl
  refine ⟨hopen, ?_⟩
  rcases onAdd_cases main s cache with ⟨hcache, hadd⟩ | ⟨next, rest, hcache, hadd⟩
  · rw [hold, hadd, hcache, queue, LevelSave.save]
    dsimp only
    rw [hopen, List.map_append, List.append_assoc]
    rfl
  · rw [hold, hadd, hcache, queue, LevelSave.save]
    dsimp only
    rw [hopen, List.map_append, List.append_assoc]
    rfl

variable (main) in
theorem log_onAdd (h : Ordered s) {cache : Cache} (hadding : s.iSave.adding = some cache) :
    log main (onAdd main s cache) = log main s ∧
      (onAdd main s cache).wikiDumper = s.wikiDumper ∧ (onAdd main s cache).start = s.start ∧
      (onAdd main s cache).closing = s.closing ∧
      (onAdd main s cache).lSave.batches.length = s.lSave.batches.length + 1 ∧
      ((onAdd main s cache).iSave.adding.toList ++
        (onAdd main s cache).iSave.cacheToSave) = s.iSave.cacheToSave := by
  rw [log, log, (queue_onAdd main h hadding).2]
  rcases onAdd_cases main s cache with ⟨hcache, hadd⟩ | ⟨next, rest, hcache, hadd⟩
  · rw [hadd, hcache]
    exact ⟨rfl, rfl, rfl, rfl, List.length_append, rfl⟩
  · rw [hadd, hcache]
    exact ⟨rfl, rfl, rfl, rfl, List.length_append, rfl⟩

variable (main) in
theorem ordered_onAdd (h : Ordered s) {cache : Cache} (hadding : s.iSave.adding = some cache) :
    Ordered (onAdd main s cache) := by
  have hopen := (queue_onAdd main h hadding).1
  rcases onAdd_cases main s cache with ⟨-, hadd⟩ | ⟨next, rest, -, hadd⟩
  · rw [hadd]
    refine ⟨fun _ => ⟨rfl, rfl⟩, fun hsaving => absurd hsaving Bool.false_ne_true,
      fun hclosing => absurd (hopen.symm.trans hclosing) Bool.false_ne_true, fun _ => ?_⟩
    exact Or.inr (Or.inr ⟨_, List.mem_append_right _ (List.mem_singleton_self _), rfl⟩)
  · rw [hadd]
    exact ⟨fun hidle => absurd hidle.symm Bool.false_ne_true, fun _ => Or.inr rfl,
      fun hclosing => absurd (hopen.symm.trans hclosing) Bool.false_ne_true,
      fun _ => Or.inr (Or.inl rfl)⟩

/-- A callback that does not resume leaves those that do. -/
theorem ordered_written (h : Ordered s) {i : ℕ} {batch : Batch Cid}
    (hget : s.lSave.batches[i]? = some batch) : Ordered (s.onWritten i batch) := by
  refine ⟨h.idle, h.busy, h.failed, fun hpaused => ?_⟩
  change (if batch.resume = true then false else s.paused) = true at hpaused
  split at hpaused
  · cases hpaused
  · rename_i hresume
    rcases h.flows hpaused with hclosing | hadding | ⟨other, hin, hother⟩
    · exact Or.inl hclosing
    · exact Or.inr (Or.inl hadding)
    · refine Or.inr (Or.inr ⟨other, ?_, hother⟩)
      obtain ⟨j, hj⟩ := List.mem_iff_getElem?.mp hin
      refine List.mem_eraseIdx_iff_getElem?.mpr ⟨j, ?_, hj⟩
      rintro rfl
      obtain rfl := Option.some.inj (hj.symm.trans hget)
      exact hresume hother

variable (main) in
/-- The first batch is the first item of the log. -/
theorem log_written {batch : Batch Cid} (hget : s.lSave.batches[0]? = some batch) :
    ∃ others, log main s =
        ⟨stored s.lSave, s.lSave.resumePos.getD 0, (batch.hash, batch.pos) :: others⟩ ∧
      log main (s.onWritten 0 batch) =
        ⟨insert batch.hash (stored s.lSave), batch.pos, others⟩ := by
  cases hbatches : s.lSave.batches with
  | nil =>
      rw [hbatches] at hget
      cases hget
  | cons first rest =>
      rw [hbatches] at hget
      obtain rfl := Option.some.inj hget
      refine ⟨rest.map batchItem ++ if s.closing then [] else
        (s.iSave.adding.toList ++ s.iSave.cacheToSave).map (item main), ?_, ?_⟩
      · rw [log, queue, hbatches]
        rfl
      · rw [log, onWritten, stored_put, queue, LevelSave.put, hbatches]
        rfl

theorem ordered_failed (h : Ordered s) {cache : Cache} (hadding : s.iSave.adding = some cache) :
    Ordered { s with iSave := { s.iSave with adding := none }, closing := true } := by
  have hsaving : s.iSave.isSaving = true := by
    by_contra hidle
    cases hadding.symm.trans (h.idle (eq_false_of_ne_true hidle)).1
  exact ⟨fun hidle => absurd (hidle.symm.trans hsaving) Bool.false_ne_true, fun _ => Or.inl rfl,
    fun _ => ⟨hsaving, rfl⟩, fun _ => Or.inl rfl⟩

theorem ordered_boot (file : Str) (l : LevelSave Cid) : Ordered (boot file l) :=
  ⟨fun _ => ⟨rfl, rfl⟩, fun hsaving => absurd hsaving Bool.false_ne_true,
    fun hclosing => absurd hclosing Bool.false_ne_true,
    fun hpaused => absurd hpaused Bool.false_ne_true⟩

theorem step_ordered {file : Str} (h : Ordered s) (hstep : step main file s act = some t) :
    Ordered t := by
  cases act with
  | data n =>
      rw [step] at hstep
      split at hstep
      · cases hstep
      · obtain rfl := Option.some.inj hstep
        exact onData_keeps (P := Ordered) (fun _ line rest hs _ => ordered_line main hs line rest) n h
  | added =>
      obtain ⟨cache, hadding, rfl⟩ := Option.map_eq_some_iff.mp hstep
      exact ordered_onAdd main h hadding
  | addFailed =>
      obtain ⟨cache, hadding, rfl⟩ := Option.map_eq_some_iff.mp hstep
      exact ordered_failed h hadding
  | written i =>
      obtain ⟨batch, hget, rfl⟩ := Option.map_eq_some_iff.mp hstep
      exact ordered_written h hget
  | exit =>
      obtain rfl := Option.some.inj hstep
      exact ordered_boot file _

end Parts

/-! ## No page is lost -/

section Saved

variable {Cid : Type} {main : IpfsCnwiki Cid} {lines : List (List ℕ)} {s t : Cnwiki Cid} {act : Act}

/-- The pages in front of the offset are stored or skipped. -/
def Marks (main : IpfsCnwiki Cid) (lines : List (List ℕ)) (known : Set Cid) (pos : ℕ) : Prop :=
  Covers lines (Settled main known) pos

/-- The pages behind the reader are stored, on the way or skipped, and so are those in front
of each count that is stored or on the way. Behind an error the reader only goes on until
the process ends. -/
structure Inv (main : IpfsCnwiki Cid) (lines : List (List ℕ)) (s : Cnwiki Cid) : Prop where
  ordered : Ordered s
  sound : (log main s).Sound (Marks main lines)
  placed : s.closing = false → Placed (Whole (dumpFile lines) s.start) lines
    (Settled main (log main s).known) s.wikiDumper

/-- The batches are written in their order, and no run starts inside a character with an
opening tag behind it on its line. -/
def Regular (file : Str) (s : Cnwiki Cid) : Act → Prop
  | .written i => i = 0
  | .exit => SafeStart file s.lSave.onDBOpen
  | _ => True

instance (file : Str) (s : Cnwiki Cid) : ∀ act, Decidable (Regular file s act)
  | .data _ => inferInstanceAs (Decidable True)
  | .added => inferInstanceAs (Decidable True)
  | .addFailed => inferInstanceAs (Decidable True)
  | .written _ => inferInstanceAs (Decidable (_ = _))
  | .exit => inferInstanceAs (Decidable (SafeStart _ _))

variable (main) in
/-- Behind an error a line changes nothing. -/
theorem log_line_of_closing (hclosing : s.closing = true) (line : List ℕ)
    (rest : List (List ℕ)) :
    log main (s.line main line rest) = log main s ∧ (s.line main line rest).closing = true := by
  by_cases hclose : closeTag <:+: line
  · rw [line_of_close hclose rfl]
    rcases onPage_cases main _ _ _ with ⟨-, hpage⟩ | ⟨cache, -, hpage⟩
    · rw [hpage, log, log, queue_of_closing hclosing]
      exact ⟨rfl, hclosing⟩
    · rw [hpage, log, log, queue_of_closing hclosing]
      exact ⟨rfl, hclosing⟩
  · rw [line_of_not_close hclose]
    exact ⟨rfl, hclosing⟩

/-- **A line** pushes its page on the log, or leaves the log alone. -/
theorem Inv.line (hd : WellFormed lines) (hlast : ∀ l ∈ lines, ClosesLast l) (h : Inv main lines s)
    {line : List ℕ} {rest : List (List ℕ)} (hrest : s.wikiDumper.rest = line :: rest) :
    Inv main lines (s.line main line rest) := by
  have hordered := ordered_line main h.ordered line rest
  cases hopen : s.closing with
  | true =>
      obtain ⟨hlog, hclosing⟩ := log_line_of_closing main hopen line rest
      refine ⟨hordered, ?_, fun hno => absurd (hno.symm.trans hclosing) Bool.false_ne_true⟩
      rw [hlog]
      exact h.sound
  | false =>
      have hplaced := h.placed hopen
      by_cases hclose : closeTag <:+: line
      · rw [line_of_close hclose rfl] at hordered ⊢
        rcases onPage_cases main _ _ _ with ⟨hskip, hpage⟩ | ⟨cache, hitem, hpage⟩
        · rw [hpage] at hordered ⊢
          exact ⟨hordered, h.sound, fun _ => (hplaced.close_line hd hlast hrest hclose
            (fun _ hp => hp) (Or.inl hskip)).2⟩
        · rw [hpage] at hordered ⊢
          have hqueue := queue_save main h.ordered hopen cache true
          rw [hitem] at hqueue
          have hknown (p : List ℕ) (hp : Settled main (log main s).known p) :=
            hp.mono (Set.subset_insert (cid main
              ({ s.wikiDumper with rest := rest }.collect line).titlePage) _)
          obtain ⟨hcovers, hplaced⟩ := hplaced.close_line hd hlast hrest hclose hknown
            (Or.inr (Set.mem_insert _ _))
          refine ⟨hordered, ?_, fun _ => ?_⟩
          · rw [log, hqueue]
            exact (Log.Step.push (log main s) _ _ hcovers).sound h.sound
          · rw [log, hqueue, Log.known_push]
            exact hplaced
      · rw [line_of_not_close hclose] at hordered ⊢
        exact ⟨hordered, h.sound, fun _ => hplaced.open_line hd hlast hrest hclose⟩

/-- An answer leaves the log alone. -/
theorem Inv.added (h : Inv main lines s) {cache : Cache} (hadding : s.iSave.adding = some cache) :
    Inv main lines (onAdd main s cache) := by
  obtain ⟨hlog, hreader, hstart, -⟩ := log_onAdd main h.ordered hadding
  have hopen := (queue_onAdd main h.ordered hadding).1
  refine ⟨ordered_onAdd main h.ordered hadding, ?_, fun _ => ?_⟩
  · rw [hlog]
    exact h.sound
  · rw [hlog, hreader, hstart]
    exact h.placed hopen

/-- **An error**: only the batches under way are written still. -/
theorem Inv.failed (h : Inv main lines s) {cache : Cache} (hadding : s.iSave.adding = some cache) :
    Inv main lines { s with iSave := { s.iSave with adding := none }, closing := true } := by
  refine ⟨ordered_failed h.ordered hadding, ?_, fun hno => absurd hno.symm Bool.false_ne_true⟩
  have hlose := (Log.Step.lose (log main s) (s.lSave.batches.map batchItem).length).sound h.sound
  rw [log, queue, List.take_left] at hlose
  rw [log, queue, if_pos rfl, List.append_nil]
  exact hlose

/-- **A batch is written**, the first of those under way. -/
theorem Inv.written (h : Inv main lines s) {batch : Batch Cid}
    (hget : s.lSave.batches[0]? = some batch) : Inv main lines (s.onWritten 0 batch) := by
  obtain ⟨others, hlog, hput⟩ := log_written main hget
  have hsound := h.sound
  have hplaced := h.placed
  rw [hlog] at hsound hplaced
  refine ⟨ordered_written h.ordered hget, ?_, fun hopen => ?_⟩
  · rw [hput]
    exact (Log.Step.commit _ _ _ _ _).sound hsound
  · rw [hput, Log.known_commit]
    exact hplaced hopen

/-- **The process ends**, and what waits is lost. -/
theorem Inv.boot {l : LevelSave Cid} (h : Marks main lines (stored l) (l.resumePos.getD 0))
    (hstands : Stands lines (Settled main (stored l))
      (WikiDumper.new (dumpFile lines) l.onDBOpen)) :
    Inv main lines (boot (dumpFile lines) l) :=
  ⟨ordered_boot _ l, ⟨h, trivial⟩, fun _ => hstands.placed.mono
    (fun _ hp => hp.mono Set.subset_union_left)⟩

theorem onDBOpen_le (l : LevelSave Cid) : l.onDBOpen ≤ l.resumePos.getD 0 := by
  rw [LevelSave.onDBOpen]
  split
  · exact Nat.sub_le _ _
  · exact le_rfl

theorem step_inv (hd : WellFormed lines) (hlast : ∀ l ∈ lines, ClosesLast l)
    (h : Inv main lines s) (hregular : Regular (dumpFile lines) s act)
    (hstep : step main (dumpFile lines) s act = some t) : Inv main lines t := by
  cases act with
  | data n =>
      rw [step] at hstep
      split at hstep
      · cases hstep
      · obtain rfl := Option.some.inj hstep
        exact onData_keeps (P := Inv main lines)
          (fun _ _ _ hs hrest => hs.line hd hlast hrest) n h
  | added =>
      obtain ⟨cache, hadding, rfl⟩ := Option.map_eq_some_iff.mp hstep
      exact h.added hadding
  | addFailed =>
      obtain ⟨cache, hadding, rfl⟩ := Option.map_eq_some_iff.mp hstep
      exact h.failed hadding
  | written i =>
      obtain ⟨batch, hget, rfl⟩ := Option.map_eq_some_iff.mp hstep
      obtain rfl : i = 0 := hregular
      exact h.written hget
  | exit =>
      obtain rfl := Option.some.inj hstep
      have hcovers := Covers.le h.sound.stored (onDBOpen_le s.lSave)
      exact Inv.boot h.sound.stored (hcovers.stands hd hregular)

theorem inv_init (hd : WellFormed lines) : Inv main lines (init (dumpFile lines)) :=
  Inv.boot covers_zero (stands_zero hd)

/-- **No page is lost.** In every order of chunks, answers, failures and ends of the process,
as long as the batches are written in their order and no run starts inside a character in
front of an opening tag: the pages that begin in front of the stored count are in the
database, and when a run has read the end of the dump and nothing waits, all pages are. -/
theorem pages_saved (main : IpfsCnwiki Cid) (hd : WellFormed lines)
    (hlast : ∀ l ∈ lines, ClosesLast l) {acts : List Act}
    (hregular : Along (step main (dumpFile lines)) (Regular (dumpFile lines))
      (init (dumpFile lines)) acts)
    (hrun : run (step main (dumpFile lines)) (init (dumpFile lines)) acts = some s) :
    (∀ i j, IsPage lines i j → offset lines i < s.lSave.resumePos.getD 0 →
      Settled main (stored s.lSave) (pageText lines i j)) ∧
    (Whole (dumpFile lines) s.start → s.wikiDumper.rest = [] → s.closing = false →
      queue main s = [] → ∀ i j, IsPage lines i j →
        Settled main (stored s.lSave) (pageText lines i j)) := by
  have hinv : Inv main lines s :=
    invariant (fun _ _ _ hs hok hstep => step_inv hd hlast hs hok hstep) (inv_init hd) hregular hrun
  refine ⟨fun i j hpage hlt => Covers.page_settled hinv.sound.stored hpage hlt, ?_⟩
  intro hwhole hend hopen hqueue i j hpage
  have hsettled := (hinv.placed hopen).finished hwhole hend hpage
  have hknown : (log main s).known = stored s.lSave := Log.known_of_nil hqueue
  rwa [hknown] at hsettled

/-- For the pages with the title `A` and `B`; a text is its own hash. -/
def twoTexts : IpfsCnwiki Str where
  skipTitles := []
  fetchTitle_ := twoTitles.fetchTitle_
  fetchText_ := fun page =>
    if codePoints "<text>漢A</text>" <:+: page then codePoints "漢A" else []
  traditionalToSimplified := List.map (fun c => if c = 0x6F22 then 0x6C49 else c)
  hash := id

/-- The second page fails, and the next run starts inside the `漢` of the first one. -/
def failedOnce : List Act :=
  [.data 5, .added, .written 0, .data 1, .addFailed, .exit, .data 3, .added, .written 0]

theorem pages_saved_twoPages : ∃ s : Cnwiki Str,
    run (step twoTexts (dumpFile twoPages)) (init (dumpFile twoPages)) failedOnce = some s ∧
    (∀ i j, IsPage twoPages i j → offset twoPages i < s.lSave.resumePos.getD 0 →
      Settled twoTexts (stored s.lSave) (pageText twoPages i j)) ∧
    (Whole (dumpFile twoPages) s.start → s.wikiDumper.rest = [] → s.closing = false →
      queue twoTexts s = [] → ∀ i j, IsPage twoPages i j →
        Settled twoTexts (stored s.lSave) (pageText twoPages i j)) := by
  have hd : WellFormed twoPages :=
    ⟨by decide +kernel, by decide +kernel, by decide +kernel⟩
  have hlast : ∀ l ∈ twoPages, ClosesLast l := by decide +kernel
  have hregular : Along (step twoTexts (dumpFile twoPages)) (Regular (dumpFile twoPages))
      (init (dumpFile twoPages)) failedOnce := by
    decide +kernel
  have hsome : (run (step twoTexts (dumpFile twoPages)) (init (dumpFile twoPages))
      failedOnce).isSome = true := by
    decide +kernel
  obtain ⟨s, hrun⟩ := Option.isSome_iff_exists.mp hsome
  exact ⟨s, hrun, pages_saved twoTexts hd hlast hregular hrun⟩

/-- The process ends when the second batch is written and the first one is not. -/
def overtaken : List Act := [.data 6, .added, .added, .written 1, .exit, .data 1]

/-- **A page is overtaken.** If the batch of the second page is written first, the next run
starts behind the first page, and reads the dump to its end without it. -/
theorem page_overtaken : IsPage twoPages 1 4 ∧
    ∃ s, run (step twoTexts (dumpFile twoPages)) (init (dumpFile twoPages)) overtaken = some s ∧
      Whole (dumpFile twoPages) s.start ∧ s.wikiDumper.rest = [] ∧ s.closing = false ∧
      queue twoTexts s = [] ∧ ¬ Settled twoTexts (stored s.lSave) (pageText twoPages 1 4) := by
  have hany : (run (step twoTexts (dumpFile twoPages)) (init (dumpFile twoPages))
      overtaken).any (fun s => decide (Whole (dumpFile twoPages) s.start ∧
        s.wikiDumper.rest = [] ∧ s.closing = false ∧ queue twoTexts s = [] ∧
        ∀ x ∈ s.lSave.pages, x.1 ≠ cid twoTexts (pageText twoPages 1 4))) = true := by
    decide +kernel
  obtain ⟨s, hrun, hs⟩ := (Option.any_eq_true _ _).mp hany
  obtain ⟨hwhole, hend, hopen, hqueue, hpages⟩ := of_decide_eq_true hs
  refine ⟨by decide +kernel, s, hrun, hwhole, hend, hopen, hqueue, ?_⟩
  rintro (hskip | ⟨title, hin⟩)
  · have hno : ¬ Skips twoTexts (pageText twoPages 1 4) := by
      unfold Skips
      decide +kernel
    exact hno hskip
  · exact hpages _ hin rfl

end Saved

/-! ## The stream goes on -/

section Drained

variable {Cid : Type} {main : IpfsCnwiki Cid} {file : Str}

/-- The pages of `IpfsSave`. -/
def saves (s : Cnwiki Cid) : List Cache := s.iSave.adding.toList ++ s.iSave.cacheToSave

/-- An answer for each page, and then each batch is written. -/
def answers (s : Cnwiki Cid) : List Act :=
  List.replicate (saves s).length .added ++
    List.replicate (s.lSave.batches.length + (saves s).length) (.written 0)

/-- What the answers keep: the reader, and the pages that are stored or wait. -/
structure Same (main : IpfsCnwiki Cid) (s t : Cnwiki Cid) : Prop where
  ordered : Ordered t
  closing : t.closing = s.closing
  reader : t.wikiDumper = s.wikiDumper
  known : (log main t).known = (log main s).known

theorem Same.trans {s t u : Cnwiki Cid} (h : Same main s t) (h' : Same main t u) :
    Same main s u :=
  ⟨h'.ordered, h'.closing.trans h.closing, h'.reader.trans h.reader, h'.known.trans h.known⟩

variable (main file) in
/-- Each page of `IpfsSave` becomes a batch. -/
theorem run_added (n : ℕ) : ∀ {s : Cnwiki Cid}, Ordered s → s.closing = false →
    (saves s).length = n → ∃ t, run (step main file) s (List.replicate n .added) = some t ∧
      Same main s t ∧ saves t = [] ∧ t.lSave.batches.length = s.lSave.batches.length + n := by
  induction n with
  | zero =>
      intro s h _ hn
      exact ⟨s, rfl, ⟨h, rfl, rfl, rfl⟩, List.length_eq_zero_iff.mp hn, rfl⟩
  | succ n ih =>
      intro s h hopen hn
      obtain ⟨cache, hadding⟩ : ∃ cache, s.iSave.adding = some cache := by
        by_contra hnone
        have hadding : s.iSave.adding = none := by
          rw [Option.eq_none_iff_forall_ne_some]
          exact fun cache hcache => hnone ⟨cache, hcache⟩
        cases hsaving : s.iSave.isSaving with
        | true =>
            rcases h.busy hsaving with hclosing | hsome
            · exact absurd (hopen.symm.trans hclosing) Bool.false_ne_true
            · rw [hadding] at hsome
              cases hsome
        | false =>
            rw [saves, hadding, (h.idle hsaving).2] at hn
            cases hn
      obtain ⟨hlog, hreader, -, hclosing, hbatches, hsaves⟩ := log_onAdd main h hadding
      have hlength : (saves (onAdd main s cache)).length = n := by
        rw [saves, hsaves]
        rw [saves, hadding] at hn
        exact Nat.succ.inj hn
      have hordered := ordered_onAdd main h hadding
      obtain ⟨t, hrun, hsame, hnil, hcount⟩ := ih hordered (hclosing.trans hopen) hlength
      refine ⟨t, run_cons_iff.mpr ⟨onAdd main s cache, ?_, hrun⟩, ?_, hnil, ?_⟩
      · rw [step, hadding]
        rfl
      · have hfirst : Same main s (onAdd main s cache) :=
          ⟨hordered, hclosing, hreader, by rw [hlog]⟩
        exact hfirst.trans hsame
      · rw [hcount, hbatches, Nat.add_assoc, Nat.add_comm 1]

variable (main file) in
/-- Each batch is written. -/
theorem run_written (n : ℕ) : ∀ {s : Cnwiki Cid}, Ordered s → s.lSave.batches.length = n →
    ∃ t, run (step main file) s (List.replicate n (.written 0)) = some t ∧
      Same main s t ∧ t.iSave = s.iSave ∧ t.lSave.batches = [] := by
  induction n with
  | zero =>
      intro s h hn
      exact ⟨s, rfl, ⟨h, rfl, rfl, rfl⟩, rfl, List.length_eq_zero_iff.mp hn⟩
  | succ n ih =>
      intro s h hn
      cases hbatches : s.lSave.batches with
      | nil =>
          rw [hbatches] at hn
          cases hn
      | cons batch rest =>
          rw [hbatches] at hn
          have hget : s.lSave.batches[0]? = some batch := by rw [hbatches]; rfl
          have hordered := ordered_written h hget
          have hlength : (s.onWritten 0 batch).lSave.batches.length = n := by
            rw [onWritten, LevelSave.put, hbatches]
            exact Nat.succ.inj hn
          obtain ⟨t, hrun, hsame, hsave, hnil⟩ := ih hordered hlength
          refine ⟨t, run_cons_iff.mpr ⟨s.onWritten 0 batch, ?_, hrun⟩, ?_, hsave, hnil⟩
          · rw [step, hget]
            rfl
          · obtain ⟨others, hlog, hput⟩ := log_written main hget
            have hfirst : Same main s (s.onWritten 0 batch) :=
              ⟨hordered, rfl, rfl, by rw [hput, hlog, Log.known_commit]⟩
            exact hfirst.trans hsame

theorem init_ordered {s : Cnwiki Cid} {acts : List Act}
    (hrun : run (step main file) (init file) acts = some s) : Ordered s :=
  invariant_always (fun _ _ _ h hstep => step_ordered h hstep) (ordered_boot file _) hrun

/-- **The stream never stays paused.** In every order of chunks, answers, batches and ends of
the process, without an error since the last start: while the stream is paused a request or
a batch that resumes it is under way; and when all requests and batches are answered, the
stream flows, nothing waits, and all pages that waited are in the database. -/
theorem answers_drain (main : IpfsCnwiki Cid) {s : Cnwiki Cid} {acts : List Act}
    (hrun : run (step main file) (init file) acts = some s) (hopen : s.closing = false) :
    (s.paused = true → s.iSave.adding.isSome = true ∨
      ∃ batch ∈ s.lSave.batches, batch.resume = true) ∧
    ∃ t, run (step main file) s (answers s) = some t ∧ t.paused = false ∧ queue main t = [] ∧
      t.wikiDumper = s.wikiDumper ∧ stored t.lSave = (log main s).known := by
  have hordered := init_ordered hrun
  constructor
  · intro hpaused
    rcases hordered.flows hpaused with hclosing | hflows
    · exact absurd (hopen.symm.trans hclosing) Bool.false_ne_true
    · exact hflows
  · obtain ⟨u, hadds, hsame, hsaves, hcount⟩ := run_added main file
      (saves s).length hordered hopen rfl
    obtain ⟨t, hwrites, hsame', hsave, hnil⟩ := run_written main file
      _ hsame.ordered hcount
    have hall := hsame.trans hsame'
    have hiSave : t.iSave.adding.toList ++ t.iSave.cacheToSave = [] := by
      rw [hsave]
      exact hsaves
    have hqueue : queue main t = [] := by
      rw [queue, hnil, hiSave, hall.closing, hopen]
      rfl
    refine ⟨t, ?_, ?_, hqueue, hall.reader, ?_⟩
    · rw [answers, run, List.foldlM_append]
      exact Option.bind_eq_some_iff.mpr ⟨u, hadds, hwrites⟩
    · by_contra hpaused
      rcases hall.ordered.flows (Bool.eq_true_of_not_eq_false hpaused) with
        hclosing | hadding | ⟨batch, hin, -⟩
      · exact absurd (hopen.symm.trans (hall.closing.symm.trans hclosing)) Bool.false_ne_true
      · rw [Option.toList_eq_nil_iff.mp (List.append_eq_nil_iff.mp hiSave).1] at hadding
        cases hadding
      · rw [hnil] at hin
        cases hin
    · rw [← hall.known, Log.known_of_nil hqueue]
      rfl

/-- Both pages in one chunk: the stream is paused, and the second page is kept. -/
theorem answers_drain_twoPages : ∃ s t : Cnwiki Str,
    run (step twoTexts (dumpFile twoPages)) (init (dumpFile twoPages)) [.data 6] = some s ∧
    (s.iSave.adding.isSome = true ∨ ∃ batch ∈ s.lSave.batches, batch.resume = true) ∧
    run (step twoTexts (dumpFile twoPages)) s (answers s) = some t ∧ t.paused = false ∧
      queue twoTexts t = [] ∧ stored t.lSave = (log twoTexts s).known := by
  have hsome : (run (step twoTexts (dumpFile twoPages)) (init (dumpFile twoPages))
      [.data 6]).any (fun s => decide (s.closing = false ∧ s.paused = true)) = true := by
    decide +kernel
  obtain ⟨s, hrun, hs⟩ := (Option.any_eq_true _ _).mp hsome
  obtain ⟨hopen, hpaused⟩ := of_decide_eq_true hs
  obtain ⟨hflows, t, hdrain, hflowing, hqueue, -, hstored⟩ := answers_drain twoTexts hrun hopen
  exact ⟨s, t, hrun, hflows hpaused, hdrain, hflowing, hqueue, hstored⟩

end Drained

end Cnwiki

end WaiNative.WikiDump

import WaiNative.Text.Utf8Decoder
import WaiNative.Theory.Runs

/-!
# `repo-ipfs-wiki`: reading a dump from where the last run stopped

`WikiDumper` reads the lines of a dump from a byte offset, collects those from `<page>` to
`</page>` and passes each page to `onPage` with its own count of the bytes read, which
`saveFS` stores for the next run. It counts the bytes of pages alone, and of their text
after decoding.

- `WellFormed`, `IsPage`: dumps, and their pages as intervals of lines;
- `Stored`: what is known of the stored offset between runs, and `Midway`, `Cut`: where a
  run stands in the dump;
- `dump_delivered`: as long as no run starts inside a character in front of a `<page>`,
  the offset is never behind the last page delivered, and no page is lost;
- `page_lost`: a dump where one is.
-/

namespace WaiNative.WikiDump

open Cxx Runs

/-! ## The program -/

/-- `<page>` -/
def openTag : List ℕ := [60, 112, 97, 103, 101, 62]

/-- `</page>` -/
def closeTag : List ℕ := [60, 47, 112, 97, 103, 101, 62]

def LF : ℕ := 10

def CR : ℕ := 13

/-- `readline` of Node: a line ends at LF, CRLF or CR; what is left at the end of the
stream is a line unless it is empty. -/
def readLines : (sawReturn : Bool) → (line_buffer : List ℕ) → List ℕ → List (List ℕ)
  | _, line_buffer, [] => if line_buffer = [] then [] else [line_buffer]
  | sawReturn, line_buffer, c :: text =>
      if c = LF then
        if sawReturn then readLines false line_buffer text
        else line_buffer :: readLines false [] text
      else if c = CR then line_buffer :: readLines true [] text
      else readLines false (line_buffer ++ [c]) text

/-- The lines still to be emitted, the variables of `readLines_`, and the count. -/
structure WikiDumper where
  rest : List (List ℕ)
  pageStart : Bool
  titlePage : List ℕ
  pos : ℕ
deriving DecidableEq

namespace WikiDumper

/-- The constructor, on the bytes of the dump. -/
def new (file : Str) (start : ℕ) : WikiDumper where
  rest := readLines false [] (decodeUtf8 (file.drop start))
  pageStart := false
  titlePage := []
  pos := start

/-- The first two `if`s of the listener. -/
def collect (d : WikiDumper) (line : List ℕ) : WikiDumper :=
  let pageStart := if openTag <:+: line then true else d.pageStart
  { d with
    pageStart := pageStart
    titlePage := if pageStart then d.titlePage ++ line ++ [LF] else d.titlePage }

/-- The listener for `line`; a call of `onPage` has the page and the count. -/
def onLine (d : WikiDumper) (line : List ℕ) : WikiDumper × Option (List ℕ × ℕ) :=
  let d := d.collect line
  if closeTag <:+: line then
    let pos := d.pos + (encodeText d.titlePage).length
    ({ d with pageStart := false, titlePage := [], pos := pos }, some (d.titlePage, pos))
  else (d, none)

end WikiDumper

/-- `resume.json` -/
structure Resume where
  pos : ℕ
  title : List ℕ
deriving DecidableEq

/-- What `IpfsMain` is given, and what it calls: the title that `cheerio` finds in a page,
and `opencc`. -/
structure IpfsMain where
  skipTitles : List (List ℕ)
  fetchTitle_ : List ℕ → List ℕ
  traditionalToSimplified : List ℕ → List ℕ

namespace IpfsMain

variable (main : IpfsMain)

def filterTitle (filters : List (List ℕ)) (title : List ℕ) : Bool :=
  filters.any (fun filter => filter <:+: title)

/-- `_onPage`, for what it leaves in `resume.json`. -/
def onPage (resume : Option Resume) (page : List ℕ) (pos : ℕ) : Option Resume :=
  let zhTitle := main.fetchTitle_ page
  if zhTitle = [] then resume
  else if filterTitle main.skipTitles zhTitle then resume
  else some ⟨pos, main.traditionalToSimplified zhTitle⟩

end IpfsMain

/-- `resume.json`, the pages that `onPage` was called for, each with the number of lines
behind it, and the run under way. -/
structure Saver where
  resume : Option Resume
  delivered : List (List ℕ × ℕ)
  wikiDumper : WikiDumper
deriving DecidableEq

/-- The offset that the next run starts at. -/
def Saver.resumePos (s : Saver) : ℕ := (s.resume.map Resume.pos).getD 0

inductive Act
  /-- the next line, and all that its listener does -/
  | line
  /-- the next line, but the process ends in `onPage` before `resume.json` is written;
  then the next run -/
  | die
  /-- the process ends between two lines; then the next run -/
  | restart
deriving DecidableEq

section Steps

variable (main : IpfsMain) (file : Str)

def Saver.start : Saver := ⟨none, [], WikiDumper.new file 0⟩

/-- The next run. -/
def Saver.again (s : Saver) : Saver := { s with wikiDumper := WikiDumper.new file s.resumePos }

/-- A line is handled. -/
def Saver.line (s : Saver) (line : List ℕ) (rest : List (List ℕ)) : Saver :=
  match ({ s.wikiDumper with rest := rest }).onLine line with
  | (d, none) => { s with wikiDumper := d }
  | (d, some (page, pos)) =>
      { resume := main.onPage s.resume page pos
        delivered := s.delivered ++ [(page, rest.length)]
        wikiDumper := d }

def step (s : Saver) : Act → Option Saver
  | .line =>
      match s.wikiDumper.rest with
      | [] => none
      | line :: rest => some (s.line main line rest)
  | .die =>
      match s.wikiDumper.rest with
      | [] => none
      | line :: rest =>
          some (Saver.again file { s with delivered := (s.line main line rest).delivered })
  | .restart => some (s.again file)

end Steps

/-! ## Dumps -/

section Dumps

variable (lines : List (List ℕ))

/-- The text of the lines from `i` to `k`, without line `k`. -/
def textOf (i k : ℕ) : List ℕ := ((lines.drop i).take (k - i)).flatMap (fun l => l ++ [LF])

/-- The bytes of a dump. -/
def dumpFile : Str := encodeText (lines.flatMap (fun l => l ++ [LF]))

/-- The offset of line `k`. -/
def offset (k : ℕ) : ℕ := (encodeText (textOf lines 0 k)).length

/-- Line `k` contains the tag. -/
def HasTag (tag : List ℕ) (k : ℕ) : Prop := tag <:+: lines.getD k []

instance (tag : List ℕ) (k : ℕ) : Decidable (HasTag lines tag k) :=
  inferInstanceAs (Decidable (_ <:+: _))

/-- The lines from `i` to `j` are a page: of these lines the first has the opening tag and
the last has the closing tag. If that is one line, it closes behind where it opens. -/
structure IsPage (i j : ℕ) : Prop where
  le : i ≤ j
  lt : j < lines.length
  opens : ∀ k ≤ j, i ≤ k → (HasTag lines openTag k ↔ k = i)
  closes : ∀ k ≤ j, i ≤ k → (HasTag lines closeTag k ↔ k = j)
  ordered : i = j → ∀ t ∈ (lines.getD i []).tails, openTag <:+: t → closeTag <:+: t

instance (i j : ℕ) : Decidable (IsPage lines i j) :=
  decidable_of_iff (i ≤ j ∧ j < lines.length ∧
    (∀ k ≤ j, i ≤ k → (HasTag lines openTag k ↔ k = i)) ∧
    (∀ k ≤ j, i ≤ k → (HasTag lines closeTag k ↔ k = j)) ∧
    (i = j → ∀ t ∈ (lines.getD i []).tails, openTag <:+: t → closeTag <:+: t))
    ⟨fun h => ⟨h.1, h.2.1, h.2.2.1, h.2.2.2.1, h.2.2.2.2⟩,
      fun h => ⟨h.le, h.lt, h.opens, h.closes, h.ordered⟩⟩

/-- The text that `onPage` should be called for. -/
def pageText (i j : ℕ) : List ℕ := textOf lines i (j + 1)

/-- `onPage` was called for the page, complete: its text, with the lines left that are
behind it. -/
def WasDelivered (delivered : List (List ℕ × ℕ)) (i j : ℕ) : Prop :=
  (pageText lines i j, lines.length - (j + 1)) ∈ delivered

instance (delivered : List (List ℕ × ℕ)) (i j : ℕ) :
    Decidable (WasDelivered lines delivered i j) :=
  inferInstanceAs (Decidable (_ ∈ _))

/-- A dump: lines of well-formed UTF-8 that end in LF, and each tag belongs to a page. -/
structure WellFormed : Prop where
  letters : ∀ l ∈ lines, ∀ c ∈ l, IsScalar c ∧ c ≠ LF ∧ c ≠ CR
  opens : ∀ k < lines.length, HasTag lines openTag k → ∃ j < lines.length, IsPage lines k j
  closes : ∀ k < lines.length, HasTag lines closeTag k → ∃ i < lines.length, IsPage lines i k

end Dumps

section Offsets

variable {lines : List (List ℕ)} {i j k m n : ℕ} {l : List ℕ}

theorem getD_of_lt (h : k < lines.length) : lines.getD k [] = lines[k] := by
  rw [List.getD_eq_getElem?_getD, List.getElem?_eq_getElem h]
  rfl

theorem HasTag.lt {tag : List ℕ} (htag : tag ≠ []) (h : HasTag lines tag k) :
    k < lines.length := by
  by_contra hout
  have hnil : lines.getD k [] = [] := by
    rw [List.getD_eq_getElem?_getD, List.getElem?_eq_none (Nat.le_of_not_lt hout)]
    rfl
  rw [HasTag, hnil, List.infix_nil] at h
  exact htag h

theorem WellFormed.exists_page (h : WellFormed lines) (hopen : HasTag lines openTag k) :
    ∃ j, IsPage lines k j := by
  obtain ⟨j, -, hpage⟩ := h.opens k (hopen.lt (by decide)) hopen
  exact ⟨j, hpage⟩

theorem WellFormed.exists_page_of_close (h : WellFormed lines) (hclose : HasTag lines closeTag k) :
    ∃ i, IsPage lines i k := by
  obtain ⟨i, -, hpage⟩ := h.closes k (hclose.lt (by decide)) hclose
  exact ⟨i, hpage⟩

theorem textOf_self (i : ℕ) : textOf lines i i = [] := by
  rw [textOf, Nat.sub_self]
  rfl

theorem textOf_succ (hle : i ≤ k) (hlt : k < lines.length) :
    textOf lines i (k + 1) = textOf lines i k ++ (lines.getD k [] ++ [LF]) := by
  have hget : (lines.drop i)[k - i]? = some lines[k] := by
    rw [List.getElem?_drop, Nat.add_sub_cancel' hle, List.getElem?_eq_getElem hlt]
  rw [textOf, textOf, Nat.succ_sub hle, List.take_add_one, hget, getD_of_lt hlt,
    List.flatMap_append, Option.toList_some, List.flatMap_singleton]

theorem encodeText_LF : encodeText [LF] = [10] := by decide

theorem offset_succ (hlt : k < lines.length) : offset lines (k + 1) =
    offset lines k + (encodeText (lines.getD k [])).length + 1 := by
  rw [offset, textOf_succ (Nat.zero_le k) hlt, encodeText_append, encodeText_append,
    encodeText_LF, List.length_append, List.length_append]
  rfl

theorem offset_lt_succ (hlt : k < lines.length) : offset lines k < offset lines (k + 1) := by
  rw [offset_succ hlt]
  omega

theorem offset_mono (hle : m ≤ n) (hn : n ≤ lines.length) :
    offset lines m ≤ offset lines n := by
  induction n, hle using Nat.le_induction with
  | base => exact le_rfl
  | succ n hmn ih => exact (ih (Nat.le_of_succ_le hn)).trans (offset_lt_succ hn).le

theorem lt_of_offset_lt (hm : m ≤ lines.length) (h : offset lines m < offset lines n) : m < n := by
  by_contra hge
  exact absurd (offset_mono (Nat.le_of_not_lt hge) hm) (Nat.not_le.mpr h)

/-- Each offset in the dump is in one of its lines. -/
theorem exists_line (hm : m < offset lines n) : n ≤ lines.length →
    ∃ k < n, offset lines k ≤ m ∧ m < offset lines (k + 1) := by
  induction n with
  | zero => exact absurd hm (Nat.not_lt_zero m)
  | succ n ih =>
      intro hn
      rcases Nat.lt_or_ge m (offset lines n) with hlt | hge
      · obtain ⟨k, hk, hin⟩ := ih hlt (Nat.le_of_succ_le hn)
        exact ⟨k, Nat.lt_succ_of_lt hk, hin⟩
      · exact ⟨n, Nat.lt_succ_self n, hge, hm⟩

end Offsets

/-! ## What a run reads -/

section Reading

variable {lines : List (List ℕ)} {k n : ℕ}

/-- A line of a dump, behind what is left of the buffer. -/
theorem readLines_line {l : List ℕ} (hl : ∀ c ∈ l, c ≠ LF ∧ c ≠ CR) (text : List ℕ) :
    ∀ buffer : List ℕ, readLines false buffer (l ++ LF :: text) =
      (buffer ++ l) :: readLines false [] text := by
  induction l with
  | nil =>
      intro buffer
      rw [List.nil_append, readLines, if_pos rfl, if_neg Bool.false_ne_true, List.append_nil]
  | cons c l ih =>
      intro buffer
      obtain ⟨hc, hl⟩ := List.forall_mem_cons.mp hl
      rw [List.cons_append, readLines, if_neg hc.1, if_neg hc.2, ih hl, List.append_assoc]
      rfl

theorem readLines_lines : ∀ {lines : List (List ℕ)}, (∀ l ∈ lines, ∀ c ∈ l, c ≠ LF ∧ c ≠ CR) →
    readLines false [] (lines.flatMap (fun l => l ++ [LF])) = lines
  | [], _ => rfl
  | l :: lines, h => by
      obtain ⟨hl, hlines⟩ := List.forall_mem_cons.mp h
      rw [List.flatMap_cons, List.append_assoc, List.singleton_append, readLines_line hl,
        readLines_lines hlines, List.nil_append]

/-- The bytes in front of line `k`, and those from there on. -/
theorem drop_dumpFile (lines : List (List ℕ)) (k n : ℕ) :
    (dumpFile lines).drop (offset lines k + n) = (dumpFile (lines.drop k)).drop n := by
  have hsplit : dumpFile lines = encodeText (textOf lines 0 k) ++ dumpFile (lines.drop k) := by
    rw [dumpFile, dumpFile, textOf, List.drop_zero, Nat.sub_zero, ← encodeText_append,
      ← List.flatMap_append, List.take_append_drop]
  rw [hsplit, ← List.drop_drop, offset, List.drop_left]

/-- Line `k` and what follows it. -/
theorem dumpFile_drop (h : k < lines.length) : dumpFile (lines.drop k) =
    encodeText (lines.getD k []) ++ 10 :: dumpFile (lines.drop (k + 1)) := by
  rw [getD_of_lt h, List.drop_eq_getElem_cons h, dumpFile, List.flatMap_cons, encodeText_append,
    encodeText_append, encodeText_LF, List.append_assoc]
  rfl

theorem isScalar_lines (h : ∀ l ∈ lines, ∀ c ∈ l, IsScalar c) :
    ∀ c ∈ lines.flatMap (fun l => l ++ [LF]), IsScalar c := by
  intro c hc
  obtain ⟨l, hl, hc⟩ := List.mem_flatMap.mp hc
  rcases List.mem_append.mp hc with hc | hc
  · exact h l hl c hc
  · rw [List.mem_singleton.mp hc]
    decide

/-- A stream that begins with bytes that continue a character, and the end of a line. -/
theorem readLines_cut (hd : WellFormed lines) {r : Str} (hr : Continues r) {part : List ℕ}
    (hpart : ∀ c ∈ part, IsScalar c ∧ c ≠ LF ∧ c ≠ CR) (k : ℕ) :
    readLines false [] (decodeUtf8 (r ++ encodeText part ++ 10 :: dumpFile (lines.drop k))) =
      (List.replicate r.length replacement ++ part) :: lines.drop k := by
  have hrest : ∀ l ∈ lines.drop k, ∀ c ∈ l, IsScalar c ∧ c ≠ LF ∧ c ≠ CR :=
    fun l hl => hd.letters l (List.mem_of_mem_drop hl)
  have hbytes : r ++ encodeText part ++ 10 :: dumpFile (lines.drop k) =
      r ++ (encodeText (part ++ [LF] ++ (lines.drop k).flatMap (fun l => l ++ [LF])) ++ []) := by
    rw [encodeText_append, encodeText_append, encodeText_LF, List.append_nil, List.append_assoc,
      List.append_assoc]
    rfl
  have hscalar : ∀ c ∈ part ++ [LF] ++ (lines.drop k).flatMap (fun l => l ++ [LF]),
      IsScalar c := by
    intro c hc
    rcases List.mem_append.mp hc with hc | hc
    · rcases List.mem_append.mp hc with hc | hc
      · exact (hpart c hc).1
      · rw [List.mem_singleton.mp hc]
        decide
    · exact isScalar_lines (fun l hl c hc => (hrest l hl c hc).1) c hc
  have hfirst : ∀ c ∈ List.replicate r.length replacement ++ part, c ≠ LF ∧ c ≠ CR := by
    intro c hc
    rcases List.mem_append.mp hc with hc | hc
    · rw [List.eq_of_mem_replicate hc]
      decide
    · exact (hpart c hc).2
  have hnil : decodeFrom .start [] = [] := rfl
  rw [hbytes, decodeUtf8, decodeFrom_continues _ r hr, decodeFrom_encodeText [] _ hscalar, hnil,
    List.append_nil, List.append_assoc, ← List.append_assoc, List.singleton_append,
    readLines_line hfirst, List.nil_append, readLines_lines (fun l hl c hc => (hrest l hl c hc).2)]

end Reading

/-- The run does not start inside a character with an opening tag behind it on the line. -/
def SafeStart (file : Str) (start : ℕ) : Prop :=
  ((file.drop start).head?.any fun b => 0x80 ≤ b.toNat && b.toNat ≤ 0xBF) = true →
    ¬ encodeText openTag <:+: (file.drop start).takeWhile (· ≠ 10)

instance (file : Str) (start : ℕ) : Decidable (SafeStart file start) :=
  inferInstanceAs (Decidable (_ → _))

/-! ## Where a run stands -/

section Places

variable (lines : List (List ℕ)) (delivered : List (List ℕ × ℕ))

/-- What is known of an offset that a run stored: each page that begins in front of it was
delivered, and it is in or behind no page but one that was. -/
structure Stored (pos : ℕ) : Prop where
  le : pos ≤ offset lines lines.length
  before : ∀ i j, IsPage lines i j → offset lines i < pos → WasDelivered lines delivered i j
  last : pos = 0 ∨ ∃ i j, IsPage lines i j ∧ WasDelivered lines delivered i j ∧
    pos ≤ offset lines (j + 1)

/-- A run between two lines, `k` the next one. Inside a page that it has not met from its
beginning, the page was delivered before. -/
structure Midway (d : WikiDumper) (k : ℕ) : Prop where
  le : k ≤ lines.length
  rest : d.rest = lines.drop k
  pos : d.pos + (encodeText d.titlePage).length ≤ offset lines k
  closed : d.pageStart = false → d.titlePage = []
  inside : d.pageStart = true → ∃ i j, IsPage lines i j ∧ i < k ∧ k ≤ j
  behind : ∀ i j, IsPage lines i j → j < k → WasDelivered lines delivered i j
  current : ∀ i j, IsPage lines i j → i < k → k ≤ j → WasDelivered lines delivered i j ∨
    (d.pageStart = true ∧ d.titlePage = textOf lines i k)

/-- A run that starts inside line `k`, in front of its first line: replacement characters
for the rest of a character, then the rest of the line. -/
structure Cut (d : WikiDumper) (k : ℕ) : Prop where
  lt : k < lines.length
  fresh : d.pageStart = false ∧ d.titlePage = []
  above : offset lines k < d.pos
  rest : ∃ n part, d.rest = (List.replicate n replacement ++ part) :: lines.drop (k + 1) ∧
    part <:+ lines.getD k [] ∧ d.pos + n + (encodeText part).length + 1 = offset lines (k + 1) ∧
    (n ≠ 0 → ¬ openTag <:+: part)
  delivered : ∀ i j, IsPage lines i j → i ≤ k → WasDelivered lines delivered i j

/-- What is known when line `k` is emitted as `line`, of the variables behind the first two
`if`s of the listener. -/
structure Turn (d : WikiDumper) (line : List ℕ) (k : ℕ) : Prop where
  lt : k < lines.length
  pos : d.pos + (encodeText d.titlePage).length ≤ offset lines (k + 1)
  closed : d.pageStart = false → d.titlePage = []
  closes : closeTag <:+: line → HasTag lines closeTag k
  inside : d.pageStart = true → ¬ closeTag <:+: line →
    ∃ i j, IsPage lines i j ∧ i < k + 1 ∧ k + 1 ≤ j
  behind : ∀ i j, IsPage lines i j → j < k → WasDelivered lines delivered i j
  missed : ∀ i, IsPage lines i k → ¬ closeTag <:+: line → WasDelivered lines delivered i k
  current : ∀ i j, IsPage lines i j → i ≤ k → k ≤ j → WasDelivered lines delivered i j ∨
    (d.pageStart = true ∧ d.titlePage = textOf lines i (k + 1))

end Places

section Turns

variable {lines : List (List ℕ)} {delivered : List (List ℕ × ℕ)} {d : WikiDumper} {k : ℕ}
  {line : List ℕ} {rest : List (List ℕ)}

theorem Stored.mono {delivered' : List (List ℕ × ℕ)} {pos : ℕ} (h : Stored lines delivered pos)
    (hsub : delivered ⊆ delivered') : Stored lines delivered' pos where
  le := h.le
  before := fun i j hpage hlt => hsub (h.before i j hpage hlt)
  last := by
    rcases h.last with hzero | ⟨i, j, hpage, hmem, hle⟩
    · exact Or.inl hzero
    · exact Or.inr ⟨i, j, hpage, hsub hmem, hle⟩

/-! What the first two `if`s leave. -/

theorem pageStart_collect :
    (d.collect line).pageStart = true ↔ openTag <:+: line ∨ d.pageStart = true := by
  rw [WikiDumper.collect]
  split
  · rename_i hopen
    exact iff_of_true rfl (Or.inl hopen)
  · rename_i hopen
    exact ⟨Or.inr, fun h => h.resolve_left hopen⟩

theorem titlePage_collect (h : (d.collect line).pageStart = true) :
    (d.collect line).titlePage = d.titlePage ++ line ++ [LF] := if_pos h

theorem titlePage_collect_of_false (h : (d.collect line).pageStart = false) :
    (d.collect line).titlePage = d.titlePage := if_neg (ne_true_of_eq_false h)

/-- Outside a page the buffer stays empty. -/
theorem closed_collect (hclosed : d.pageStart = false → d.titlePage = [])
    (h : (d.collect line).pageStart = false) : (d.collect line).titlePage = [] := by
  rw [titlePage_collect_of_false h]
  apply hclosed
  by_contra hin
  rw [pageStart_collect.mpr (Or.inr (Bool.eq_true_of_not_eq_false hin))] at h
  cases h

theorem length_encodeText_line (text line : List ℕ) :
    (encodeText (text ++ line ++ [LF])).length =
      (encodeText text).length + (encodeText line).length + 1 := by
  rw [encodeText_append, encodeText_append, encodeText_LF, List.length_append,
    List.length_append]
  rfl

/-- A page goes on behind a line that does not close it. -/
theorem IsPage.goes_on {i j : ℕ} (hpage : IsPage lines i j) (hi : i ≤ k) (hj : k ≤ j)
    (hclose : ¬ HasTag lines closeTag k) : k < j :=
  Nat.lt_of_le_of_ne hj (fun heq => hclose ((hpage.closes k hj hi).mpr heq))

/-- The next line is line `k`. -/
theorem Midway.next (h : Midway lines delivered d k) (hrest : d.rest = line :: rest) :
    k < lines.length ∧ lines.getD k [] = line ∧ lines.drop (k + 1) = rest := by
  have hdrop : lines.drop k = line :: rest := h.rest.symm.trans hrest
  have hlt : k < lines.length := by
    by_contra hout
    rw [List.drop_eq_nil_of_le (Nat.le_of_not_lt hout)] at hdrop
    cases hdrop
  rw [List.drop_eq_getElem_cons hlt, ← getD_of_lt hlt] at hdrop
  exact ⟨hlt, List.cons.inj hdrop⟩

/-- A page begins with an empty buffer, since inside a page there is no opening tag. -/
theorem Midway.fresh (h : Midway lines delivered d k) (hopen : HasTag lines openTag k) :
    d.titlePage = [] := by
  apply h.closed
  by_contra hstart
  obtain ⟨i, j, hpage, hi, hj⟩ := h.inside (Bool.eq_true_of_not_eq_false hstart)
  exact absurd ((hpage.opens k hj hi.le).mp hopen) hi.ne'

/-- A whole line. -/
theorem Midway.turn (hd : WellFormed lines) (h : Midway lines delivered d k)
    (hlt : k < lines.length) : Turn lines delivered
      ({ d with rest := lines.drop (k + 1) }.collect (lines.getD k [])) (lines.getD k []) k where
  lt := hlt
  pos := by
    have hsum := h.pos
    cases hcase : ({ d with rest := lines.drop (k + 1) }.collect (lines.getD k [])).pageStart with
    | true =>
        rw [titlePage_collect hcase, length_encodeText_line, offset_succ hlt]
        show d.pos + ((encodeText d.titlePage).length + _ + 1) ≤ _
        omega
    | false =>
        rw [titlePage_collect_of_false hcase]
        exact hsum.trans (offset_lt_succ hlt).le
  closed := closed_collect h.closed
  closes := fun hclose => hclose
  inside := by
    intro htrue hclose
    rcases pageStart_collect.mp htrue with hopen | hin
    · obtain ⟨j, hpage⟩ := hd.exists_page hopen
      exact ⟨k, j, hpage, Nat.lt_succ_self k, hpage.goes_on le_rfl hpage.le hclose⟩
    · obtain ⟨i, j, hpage, hi, hj⟩ := h.inside hin
      exact ⟨i, j, hpage, Nat.lt_succ_of_lt hi, hpage.goes_on hi.le hj hclose⟩
  behind := h.behind
  missed := fun i hpage hclose => absurd ((hpage.closes k le_rfl hpage.le).mpr rfl) hclose
  current := by
    intro i j hpage hi hj
    rw [textOf_succ hi hlt, ← List.append_assoc]
    rcases hi.lt_or_eq with hi | rfl
    · rcases h.current i j hpage hi hj with hmem | ⟨hin, htext⟩
      · exact Or.inl hmem
      · rw [← htext]
        have hstart : openTag <:+: lines.getD k [] ∨ d.pageStart = true := Or.inr hin
        exact Or.inr ⟨pageStart_collect.mpr hstart,
          titlePage_collect (pageStart_collect.mpr hstart)⟩
    · have hopen := (hpage.opens i hj le_rfl).mpr rfl
      have hstart : openTag <:+: lines.getD i [] ∨ d.pageStart = true := Or.inl hopen
      refine Or.inr ⟨pageStart_collect.mpr hstart,
        (titlePage_collect (pageStart_collect.mpr hstart)).trans ?_⟩
      show d.titlePage ++ _ ++ _ = _
      rw [h.fresh hopen, textOf_self]

/-- A tag behind letters that it does not have. -/
theorem infix_of_replicate {tag part : List ℕ} {x : ℕ} (hne : tag ≠ []) (hx : x ∉ tag) :
    ∀ n : ℕ, tag <:+: List.replicate n x ++ part → tag <:+: part
  | 0, h => h
  | n + 1, h => by
      rw [List.replicate_succ, List.cons_append, List.infix_cons_iff] at h
      rcases h with hprefix | htail
      · obtain ⟨t, ts, rfl⟩ := List.exists_cons_of_ne_nil hne
        obtain ⟨rfl, -⟩ := List.cons_prefix_cons.mp hprefix
        exact absurd List.mem_cons_self hx
      · exact infix_of_replicate hne hx n htail

/-- What is left of the line has no tag that the line does not have. -/
theorem hasTag_of_cut {tag part : List ℕ} {n : ℕ} (hpart : part <:+ lines.getD k [])
    (hne : tag ≠ []) (hx : replacement ∉ tag)
    (htag : tag <:+: List.replicate n replacement ++ part) :
    tag <:+: part ∧ HasTag lines tag k :=
  have hin := infix_of_replicate hne hx n htag
  ⟨hin, hin.trans hpart.isInfix⟩

/-- The line that the run starts in. -/
theorem Cut.turn (hd : WellFormed lines) (h : Cut lines delivered d k)
    (hrest : d.rest = line :: rest) :
    Turn lines delivered ({ d with rest := rest }.collect line) line k ∧
      rest = lines.drop (k + 1) := by
  obtain ⟨n, part, hfirst, hpart, hsum, hsafe⟩ := h.rest
  obtain ⟨rfl, rfl⟩ := List.cons.inj (hfirst.symm.trans hrest)
  refine ⟨?_, rfl⟩
  obtain ⟨hfalse, hnil⟩ := h.fresh
  -- only the line itself opens a page
  have hopen (htrue : ({ d with rest := lines.drop (k + 1) }.collect
      (List.replicate n replacement ++ part)).pageStart = true) :
      openTag <:+: part ∧ HasTag lines openTag k := by
    rcases pageStart_collect.mp htrue with hopen | hin
    · exact hasTag_of_cut hpart (by decide) (by decide) hopen
    · exact absurd (hfalse.symm.trans hin) Bool.false_ne_true
  exact {
    lt := h.lt
    pos := by
      cases hcase : ({ d with rest := lines.drop (k + 1) }.collect
          (List.replicate n replacement ++ part)).pageStart with
      | true =>
          have hzero : n = 0 := by
            by_contra hn
            exact hsafe hn (hopen hcase).1
          rw [titlePage_collect hcase, length_encodeText_line, hzero, List.replicate_zero,
            List.nil_append]
          show d.pos + ((encodeText d.titlePage).length + _ + 1) ≤ _
          rw [hnil]
          show d.pos + (0 + _ + 1) ≤ _
          omega
      | false =>
          rw [titlePage_collect_of_false hcase]
          show d.pos + (encodeText d.titlePage).length ≤ _
          rw [hnil]
          show d.pos + 0 ≤ _
          omega
    closed := closed_collect (fun _ => hnil)
    closes := fun hclose => (hasTag_of_cut hpart (by decide) (by decide) hclose).2
    inside := by
      intro htrue hclose
      obtain ⟨hin, hhas⟩ := hopen htrue
      obtain ⟨j, hpage⟩ := hd.exists_page hhas
      refine ⟨k, j, hpage, Nat.lt_succ_self k, Nat.lt_of_le_of_ne hpage.le ?_⟩
      rintro rfl
      -- a page of one line closes behind its opening tag
      have hclosed := hpage.ordered rfl part ((List.mem_tails _ _).mpr hpart) hin
      exact hclose (hclosed.trans (List.suffix_append _ _).isInfix)
    behind := fun i j hpage hj => h.delivered i j hpage (hpage.le.trans hj.le)
    missed := fun i hpage _ => h.delivered i k hpage hpage.le
    current := fun i j hpage hi _ => Or.inl (h.delivered i j hpage hi) }

/-- Behind a line without the closing tag. -/
theorem Turn.midway (h : Turn lines delivered d line k) (hrest : d.rest = lines.drop (k + 1))
    (hclose : ¬ closeTag <:+: line) : Midway lines delivered d (k + 1) where
  le := h.lt
  rest := hrest
  pos := h.pos
  closed := h.closed
  inside := fun htrue => h.inside htrue hclose
  behind := by
    intro i j hpage hj
    rcases (Nat.le_of_lt_succ hj).lt_or_eq with hj | rfl
    · exact h.behind i j hpage hj
    · exact h.missed i hpage hclose
  current := fun i j hpage hi hj =>
    h.current i j hpage (Nat.le_of_lt_succ hi) (Nat.le_of_succ_le hj)

/-- Behind a line with the closing tag: the page was delivered before, or it is now. -/
theorem Turn.midway_of_close (h : Turn lines delivered d line k)
    (hrest : d.rest = lines.drop (k + 1)) (hclose : closeTag <:+: line) :
    Midway lines (delivered ++ [(d.titlePage, d.rest.length)])
      ⟨d.rest, false, [], d.pos + (encodeText d.titlePage).length⟩ (k + 1) where
  le := h.lt
  rest := hrest
  pos := h.pos
  closed := fun _ => rfl
  inside := fun htrue => absurd htrue Bool.false_ne_true
  behind := by
    intro i j hpage hj
    rcases (Nat.le_of_lt_succ hj).lt_or_eq with hj | rfl
    · exact List.mem_append_left _ (h.behind i j hpage hj)
    · rcases h.current i j hpage hpage.le le_rfl with hmem | ⟨-, htext⟩
      · exact List.mem_append_left _ hmem
      · rw [htext, hrest, List.length_drop]
        exact List.mem_append_right _ (List.mem_singleton_self _)
  current := by
    intro i j hpage hi hj
    have heq := (hpage.closes k (Nat.le_of_succ_le hj) (Nat.le_of_lt_succ hi)).mp (h.closes hclose)
    omega

/-- Behind a closing line, an offset in front of the next line is safe to store. -/
theorem Midway.stored (hd : WellFormed lines) (h : Midway lines delivered d (k + 1))
    (hclose : HasTag lines closeTag k) {pos : ℕ} (hpos : pos ≤ offset lines (k + 1)) :
    Stored lines delivered pos where
  le := hpos.trans (offset_mono h.le le_rfl)
  before := by
    intro i j hpage hlt
    have hi : i < k + 1 := lt_of_offset_lt (hpage.le.trans hpage.lt.le) (hlt.trans_le hpos)
    rcases Nat.lt_or_ge j (k + 1) with hj | hj
    · exact h.behind i j hpage hj
    · -- the page would go on behind its closing line
      have heq := (hpage.closes k (by omega) (by omega)).mp hclose
      omega
  last := by
    obtain ⟨i, hpage⟩ := hd.exists_page_of_close hclose
    exact Or.inr ⟨i, k, hpage, h.behind i k hpage (Nat.lt_succ_self k), hpos⟩

end Turns

/-! ## A new run -/

section Starts

variable {lines : List (List ℕ)} {delivered : List (List ℕ × ℕ)} {k start : ℕ}

/-- A run that starts at the beginning of a line. -/
theorem Stored.midway (hd : WellFormed lines) (hk : k ≤ lines.length)
    (h : Stored lines delivered (offset lines k)) :
    Midway lines delivered (WikiDumper.new (dumpFile lines) (offset lines k)) k where
  le := hk
  rest := by
    have hrest : ∀ l ∈ lines.drop k, ∀ c ∈ l, IsScalar c ∧ c ≠ LF ∧ c ≠ CR :=
      fun l hl => hd.letters l (List.mem_of_mem_drop hl)
    have hscalar := isScalar_lines (fun l hl c hc => (hrest l hl c hc).1)
    have hdecode := decodeFrom_encodeText [] _ hscalar
    rw [List.append_nil] at hdecode
    have hdrop : (dumpFile lines).drop (offset lines k) = dumpFile (lines.drop k) :=
      drop_dumpFile lines k 0
    show readLines false [] (decodeUtf8 ((dumpFile lines).drop (offset lines k))) = _
    rw [hdrop, decodeUtf8, dumpFile, hdecode]
    exact (congrArg (readLines false []) (List.append_nil _)).trans
      (readLines_lines (fun l hl c hc => (hrest l hl c hc).2))
  pos := le_rfl
  closed := fun _ => rfl
  inside := fun htrue => absurd htrue Bool.false_ne_true
  behind := by
    intro i j hpage hj
    apply h.before i j hpage
    exact (offset_mono hpage.le hpage.lt.le).trans_lt
      ((offset_lt_succ hpage.lt).trans_le (offset_mono hj hk))
  current := by
    intro i j hpage hi _
    refine Or.inl (h.before i j hpage ?_)
    exact (offset_lt_succ (hi.trans_le hk)).trans_le (offset_mono hi hk)

/-- In a safe run that starts inside a character, the line has no opening tag any more. -/
theorem SafeStart.noTag {file r rest : Str} {part : List ℕ}
    (hdrop : file.drop start = r ++ encodeText part ++ 10 :: rest) (hr : Continues r)
    (hne : r ≠ []) (hpart : ∀ c ∈ part, IsScalar c ∧ c ≠ LF ∧ c ≠ CR)
    (hsafe : SafeStart file start) : ¬ openTag <:+: part := by
  intro hopen
  have hline : ∀ x ∈ r ++ encodeText part, decide (x ≠ 10) = true := by
    intro x hx
    rw [decide_eq_true_eq]
    rintro rfl
    rcases List.mem_append.mp hx with hx | hx
    · exact absurd (hr 10 hx).1 (by decide)
    · obtain ⟨c, hc, hmem⟩ := List.mem_flatMap.mp hx
      have hscalar := (hpart c hc).1
      have hc31 : c < 2 ^ 31 := by
        unfold IsScalar at hscalar
        omega
      exact (hpart c hc).2.1 (mem_utf8Bytes_ascii hc31 (by decide) hmem)
  have hin : encodeText openTag <:+: r ++ encodeText part :=
    (isInfix_encodeText hopen).trans (List.suffix_append _ _).isInfix
  rw [SafeStart, hdrop, List.takeWhile_append_of_pos hline] at hsafe
  refine hsafe ?_ (hin.trans (List.prefix_append _ _).isInfix)
  obtain ⟨b, bs, rfl⟩ := List.exists_cons_of_ne_nil hne
  obtain ⟨hlo, hhi⟩ := hr b List.mem_cons_self
  show (decide (0x80 ≤ b.toNat) && decide (b.toNat ≤ 0xBF)) = true
  rw [decide_eq_true hlo, decide_eq_true hhi]
  rfl

/-- A run that starts inside a line. -/
theorem Stored.cut (hd : WellFormed lines) (hk : k < lines.length) {n : ℕ} (hn : 0 < n)
    (hlt : offset lines k + n < offset lines (k + 1))
    (h : Stored lines delivered (offset lines k + n))
    (hsafe : SafeStart (dumpFile lines) (offset lines k + n)) :
    Cut lines delivered (WikiDumper.new (dumpFile lines) (offset lines k + n)) k := by
  have hletters : ∀ c ∈ lines.getD k [], IsScalar c ∧ c ≠ LF ∧ c ≠ CR := by
    rw [getD_of_lt hk]
    exact hd.letters _ (List.getElem_mem hk)
  obtain ⟨r, part, hcut, hr, hpart⟩ :=
    drop_encodeText (lines.getD k []) n (fun c hc => (hletters c hc).1)
  have hpartLetters : ∀ c ∈ part, IsScalar c ∧ c ≠ LF ∧ c ≠ CR :=
    fun c hc => hletters c (hpart.mem hc)
  have hnext := offset_succ hk
  have hdrop : (dumpFile lines).drop (offset lines k + n) =
      r ++ encodeText part ++ 10 :: dumpFile (lines.drop (k + 1)) := by
    rw [drop_dumpFile, dumpFile_drop hk, List.drop_append_of_le_length (by omega), hcut]
  constructor
  · exact hk
  · exact ⟨rfl, rfl⟩
  · exact Nat.lt_add_of_pos_right hn
  · refine ⟨r.length, part, ?_, hpart, ?_, ?_⟩
    · show readLines false [] (decodeUtf8 ((dumpFile lines).drop (offset lines k + n))) = _
      rw [hdrop]
      exact readLines_cut hd hr hpartLetters (k + 1)
    · have hlen := congrArg List.length hcut
      rw [List.length_drop, List.length_append] at hlen
      show offset lines k + n + r.length + (encodeText part).length + 1 = _
      omega
    · intro hne
      exact hsafe.noTag hdrop hr (List.length_pos_iff.mp (Nat.pos_of_ne_zero hne)) hpartLetters
  · intro i j hpage hi
    apply h.before i j hpage
    exact (offset_mono hi hk.le).trans_lt (Nat.lt_add_of_pos_right hn)

/-- **A new run finds its place** in the dump. -/
theorem Stored.place (hd : WellFormed lines) (h : Stored lines delivered start)
    (hsafe : SafeStart (dumpFile lines) start) : ∃ k,
    Midway lines delivered (WikiDumper.new (dumpFile lines) start) k ∨
      Cut lines delivered (WikiDumper.new (dumpFile lines) start) k := by
  rcases h.le.lt_or_eq with hlt | rfl
  · obtain ⟨k, hk, hlo, hhi⟩ := exists_line hlt le_rfl
    obtain ⟨n, rfl⟩ := Nat.exists_eq_add_of_le hlo
    rcases Nat.eq_zero_or_pos n with rfl | hn
    · exact ⟨k, Or.inl (Stored.midway hd hk.le h)⟩
    · exact ⟨k, Or.inr (h.cut hd hk hn hhi hsafe)⟩
  · exact ⟨lines.length, Or.inl (h.midway hd le_rfl)⟩

end Starts

/-! ## Runs and restarts -/

section Restarts

variable {main : IpfsMain} {lines : List (List ℕ)} {s t : Saver} {act : Act}

/-- What holds of the system at any time. -/
structure Inv (lines : List (List ℕ)) (s : Saver) : Prop where
  stored : Stored lines s.delivered s.resumePos
  place : ∃ k, Midway lines s.delivered s.wikiDumper k ∨ Cut lines s.delivered s.wikiDumper k

/-- An action that starts a run starts a safe one. -/
def SafeAct (file : Str) (s : Saver) (act : Act) : Prop :=
  act ≠ .line → SafeStart file s.resumePos

instance (file : Str) (s : Saver) (act : Act) : Decidable (SafeAct file s act) :=
  inferInstanceAs (Decidable (_ → _))

theorem line_of_not_close {line : List ℕ} {rest : List (List ℕ)}
    (hclose : ¬ closeTag <:+: line) : s.line main line rest =
      { s with wikiDumper := { s.wikiDumper with rest := rest }.collect line } := by
  rw [Saver.line, WikiDumper.onLine]
  dsimp only
  rw [if_neg hclose]

theorem line_of_close {line : List ℕ} {rest : List (List ℕ)} (hclose : closeTag <:+: line)
    {d : WikiDumper} (hd : { s.wikiDumper with rest := rest }.collect line = d) :
    s.line main line rest =
      { resume := main.onPage s.resume d.titlePage (d.pos + (encodeText d.titlePage).length)
        delivered := s.delivered ++ [(d.titlePage, rest.length)]
        wikiDumper := ⟨d.rest, false, [], d.pos + (encodeText d.titlePage).length⟩ } := by
  rw [Saver.line, WikiDumper.onLine]
  dsimp only
  rw [if_pos hclose, hd]

/-- `onPage` stores the count or leaves `resume.json` alone. -/
theorem resumePos_onPage (main : IpfsMain) (resume : Option Resume) (page : List ℕ) (pos : ℕ) :
    ((main.onPage resume page pos).map Resume.pos).getD 0 = (resume.map Resume.pos).getD 0 ∨
      ((main.onPage resume page pos).map Resume.pos).getD 0 = pos := by
  unfold IpfsMain.onPage
  dsimp only
  split
  · exact Or.inl rfl
  split
  · exact Or.inl rfl
  · exact Or.inr rfl

/-- Pages are only added. -/
theorem delivered_line (line : List ℕ) (rest : List (List ℕ)) :
    s.delivered ⊆ (s.line main line rest).delivered := by
  by_cases hclose : closeTag <:+: line
  · rw [line_of_close hclose rfl]
    exact List.subset_append_left _ _
  · rw [line_of_not_close hclose]
    exact List.Subset.refl _

/-- **A line keeps the invariant.** -/
theorem Inv.line (hd : WellFormed lines) (h : Inv lines s) {line : List ℕ}
    {rest : List (List ℕ)} (hrest : s.wikiDumper.rest = line :: rest) :
    Inv lines (s.line main line rest) := by
  obtain ⟨k, hplace⟩ := h.place
  have hturn : Turn lines s.delivered ({ s.wikiDumper with rest := rest }.collect line) line k ∧
      rest = lines.drop (k + 1) := by
    rcases hplace with hmid | hcut
    · obtain ⟨hlt, rfl, rfl⟩ := hmid.next hrest
      exact ⟨hmid.turn hd hlt, rfl⟩
    · exact hcut.turn hd hrest
  obtain ⟨hturn, hnext⟩ := hturn
  by_cases hclose : closeTag <:+: line
  · rw [line_of_close hclose rfl]
    have hmid := hturn.midway_of_close hnext hclose
    have hstored := hmid.stored hd (hturn.closes hclose) hturn.pos
    refine ⟨?_, k + 1, Or.inl hmid⟩
    show Stored lines _ ((Option.map Resume.pos (main.onPage _ _ _)).getD 0)
    rcases resumePos_onPage main s.resume _ _ with hsame | hsaved
    · rw [hsame]
      exact h.stored.mono (List.subset_append_left _ _)
    · rw [hsaved]
      exact hstored
  · rw [line_of_not_close hclose]
    exact ⟨h.stored, k + 1, Or.inl (hturn.midway hnext hclose)⟩

theorem Inv.again (hd : WellFormed lines) (h : Stored lines s.delivered s.resumePos)
    (hsafe : SafeStart (dumpFile lines) s.resumePos) :
    Inv lines (s.again (dumpFile lines)) := ⟨h, h.place hd hsafe⟩

/-- A step handles a line, or starts a run when pages may have been delivered. -/
theorem step_cases {file : Str} (hstep : step main file s act = some t) :
    (∃ line rest, s.wikiDumper.rest = line :: rest ∧ t = s.line main line rest) ∨
    (act ≠ .line ∧ ∃ delivered, s.delivered ⊆ delivered ∧
      t = Saver.again file { s with delivered := delivered }) := by
  cases act with
  | line =>
      rw [step] at hstep
      split at hstep
      · cases hstep
      · exact Or.inl ⟨_, _, ‹_›, (Option.some.inj hstep).symm⟩
  | die =>
      rw [step] at hstep
      split at hstep
      · cases hstep
      · exact Or.inr ⟨by decide, _, delivered_line _ _, (Option.some.inj hstep).symm⟩
  | restart =>
      exact Or.inr ⟨by decide, s.delivered, List.Subset.refl _, (Option.some.inj hstep).symm⟩

theorem step_inv (hd : WellFormed lines) (h : Inv lines s)
    (hsafe : SafeAct (dumpFile lines) s act)
    (hstep : step main (dumpFile lines) s act = some t) : Inv lines t := by
  obtain ⟨line, rest, hrest, rfl⟩ | ⟨hact, delivered, hsub, rfl⟩ := step_cases hstep
  · exact h.line hd hrest
  · exact Inv.again hd (h.stored.mono hsub) (hsafe hact)

theorem inv_start (hd : WellFormed lines) : Inv lines (Saver.start (dumpFile lines)) := by
  have hzero : offset lines 0 = 0 := by
    rw [offset, textOf_self]
    rfl
  have hstored : Stored lines [] (offset lines 0) := by
    refine ⟨offset_mono (Nat.zero_le _) le_rfl, ?_, Or.inl hzero⟩
    intro i j _ hlt
    rw [hzero] at hlt
    exact absurd hlt (Nat.not_lt_zero _)
  have hmid := hstored.midway hd (Nat.zero_le _)
  rw [hzero] at hstored hmid
  exact ⟨hstored, 0, Or.inl hmid⟩

/-- At the end of the stream nothing is missing. -/
theorem Inv.finished (h : Inv lines s) (hend : s.wikiDumper.rest = []) :
    ∀ i j, IsPage lines i j → WasDelivered lines s.delivered i j := by
  intro i j hpage
  obtain ⟨k, hmid | hcut⟩ := h.place
  · have hdrop := hmid.rest.symm.trans hend
    exact hmid.behind i j hpage (hpage.lt.trans_le (List.drop_eq_nil_iff.mp hdrop))
  · obtain ⟨n, part, hrest, -⟩ := hcut.rest
    rw [hend] at hrest
    cases hrest

/-- **No page is lost.** As long as no run starts inside a character that has an opening tag
behind it on its line, the stored offset is not behind the end of the last page delivered,
the pages that begin in front of it were delivered complete, and when a run comes to the end
of the dump all were. -/
theorem dump_delivered (main : IpfsMain) (hd : WellFormed lines) {acts : List Act}
    (hsafe : Along (step main (dumpFile lines)) (SafeAct (dumpFile lines))
      (Saver.start (dumpFile lines)) acts)
    (hrun : run (step main (dumpFile lines)) (Saver.start (dumpFile lines)) acts = some s) :
    (s.resumePos = 0 ∨ ∃ i j, IsPage lines i j ∧ WasDelivered lines s.delivered i j ∧
      s.resumePos ≤ offset lines (j + 1)) ∧
    (∀ i j, IsPage lines i j → offset lines i < s.resumePos →
      WasDelivered lines s.delivered i j) ∧
    (s.wikiDumper.rest = [] → ∀ i j, IsPage lines i j → WasDelivered lines s.delivered i j) := by
  have hinv : Inv lines s :=
    invariant (fun _ _ _ hs hok hstep => step_inv hd hs hok hstep) (inv_start hd) hsafe hrun
  exact ⟨hinv.stored.last, hinv.stored.before, hinv.finished⟩

end Restarts

/-! ## Two dumps -/

section Examples

def codePoints (text : String) : List ℕ := text.toList.map Char.toNat

/-- For pages with the title `A` or `B`. -/
def twoTitles : IpfsMain where
  skipTitles := []
  fetchTitle_ := fun page =>
    if codePoints "<title>A</title>" <:+: page then codePoints "A"
    else if codePoints "<title>B</title>" <:+: page then codePoints "B"
    else []
  traditionalToSimplified := id

/-- A page of four lines, and a page of one. -/
def twoPages : List (List ℕ) :=
  [codePoints "<mediawiki ns=\"0\">", codePoints "<page>", codePoints "<title>A</title>",
    codePoints "<text>漢A</text>", codePoints "</page>",
    codePoints "<page><title>B</title></page>"]

/-- The second run starts inside the `漢` of the first page. It dies in the second page,
and the third run comes to the end. -/
def threeRuns : List Act :=
  [.line, .line, .line, .line, .line, .restart, .line, .line, .die, .line, .line, .line]

theorem dump_delivered_twoPages : ∃ s : Saver,
    run (step twoTitles (dumpFile twoPages)) (Saver.start (dumpFile twoPages)) threeRuns =
      some s ∧
    (s.resumePos = 0 ∨ ∃ i j, IsPage twoPages i j ∧ WasDelivered twoPages s.delivered i j ∧
      s.resumePos ≤ offset twoPages (j + 1)) ∧
    (∀ i j, IsPage twoPages i j → offset twoPages i < s.resumePos →
      WasDelivered twoPages s.delivered i j) ∧
    (s.wikiDumper.rest = [] →
      ∀ i j, IsPage twoPages i j → WasDelivered twoPages s.delivered i j) := by
  have hd : WellFormed twoPages :=
    ⟨by decide +kernel, by decide +kernel, by decide +kernel⟩
  have hsafe : Along (step twoTitles (dumpFile twoPages)) (SafeAct (dumpFile twoPages))
      (Saver.start (dumpFile twoPages)) threeRuns := by
    decide +kernel
  have hsome : (run (step twoTitles (dumpFile twoPages)) (Saver.start (dumpFile twoPages))
      threeRuns).isSome = true := by
    decide +kernel
  obtain ⟨s, hrun⟩ := Option.isSome_iff_exists.mp hsome
  exact ⟨s, hrun, dump_delivered twoTitles hd hsafe hrun⟩

/-- The first page has a character in front of `<page>`, and the header is two bytes
shorter than that line. -/
def lostDump : List (List ℕ) :=
  [codePoints "<mediawiki xml:lang=\"zh-Hant\">",
    codePoints "漢<page><title>A</title></page>", codePoints "<page><title>B</title></page>"]

/-- A restart behind the first page, and another one when the rest of it was read. -/
def lostActs : List Act := [.line, .line, .restart, .line, .restart, .line]

/-- **A page is lost.** The count of the first run ends inside the `漢`, whose last byte
then counts for three; so the third run starts inside the second `<page>`, and ends
without that page, at an offset behind every page delivered. -/
theorem page_lost : WellFormed lostDump ∧ IsPage lostDump 2 2 ∧
    ∃ s, run (step twoTitles (dumpFile lostDump)) (Saver.start (dumpFile lostDump)) lostActs =
      some s ∧ s.wikiDumper.rest = [] ∧ ¬ WasDelivered lostDump s.delivered 2 2 ∧
      ∀ i j, IsPage lostDump i j → WasDelivered lostDump s.delivered i j →
        offset lostDump (j + 1) < s.resumePos := by
  have hany : (run (step twoTitles (dumpFile lostDump)) (Saver.start (dumpFile lostDump))
      lostActs).any (fun s => decide (s.wikiDumper.rest = [] ∧
        ¬ WasDelivered lostDump s.delivered 2 2 ∧
        ∀ j < lostDump.length, ∀ i ≤ j, WasDelivered lostDump s.delivered i j →
          offset lostDump (j + 1) < s.resumePos)) = true := by
    decide +kernel
  obtain ⟨s, hrun, hs⟩ := (Option.any_eq_true _ _).mp hany
  obtain ⟨hend, hlost, hbehind⟩ := of_decide_eq_true hs
  refine ⟨⟨by decide +kernel, by decide +kernel, by decide +kernel⟩, by decide +kernel, s, hrun,
    hend, hlost, ?_⟩
  intro i j hpage hdelivered
  exact hbehind j hpage.lt i hpage.le hdelivered

end Examples

end WaiNative.WikiDump

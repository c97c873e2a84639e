import WaiNative.Cxx.Strings
import Mathlib.Data.List.Chain

/-!
# Characters and runs: `parseUTF8` and `CtrlClaw::claw`

`parseUTF8` cuts an article into characters by the lead byte alone, and
`CtrlClaw::claw` cuts the list of characters into runs: maximal runs of
delimiters (one-byte, two-byte and listed control characters) and maximal runs
of everything else. Only the latter reach the segmenters.

The loop of `claw` keeps six coupled variables. `ClawInv` says what they mean
after any number of characters: the entries pushed so far, then the pending
run, spell exactly the characters read.
-/

namespace WaiNative

open Cxx

/-! ## `parseUTF8` -/

/-- How many bytes the branch taken on the lead byte `ch` cuts off. -/
def charSize (ch : UInt8) : ℕ :=
  if ch &&& 0b11111100 = 0b11111100 then 6
  else if ch &&& 0b11111000 = 0b11111000 then 5
  else if ch &&& 0b11110000 = 0b11110000 then 4
  else if ch &&& 0b11100000 = 0b11100000 then 3
  else if ch &&& 0b11000000 = 0b11000000 then 2
  else 1

theorem charSize_pos (ch : UInt8) : 0 < charSize ch := by
  unfold charSize
  repeat' split
  all_goals omega

theorem charSize_le (ch : UInt8) : charSize ch ≤ 6 := by
  unfold charSize
  repeat' split
  all_goals omega

/-- The loop of `parseUTF8` from byte `i` on: each character with its position.
The loop guard keeps `at` and `substr` in range. -/
def parseUTF8From (article : Str) (i : ℕ) : List (Str × ℕ) :=
  if h : i < article.length then
    let size := charSize article[i]
    (slice article i size, i) :: parseUTF8From article (i + size)
  else []
termination_by article.length - i
decreasing_by
  have := charSize_pos article[i]
  omega

/-- `parseUTF8(article, words, positions)`: appends to both vectors. -/
def parseUTF8 (article : Str) (words : List Str) (positions : List ℕ) :
    List Str × List ℕ :=
  let parsed := parseUTF8From article 0
  (words ++ parsed.map Prod.fst, positions ++ parsed.map Prod.snd)

/-- The characters of an article. -/
def characters (article : Str) : List Str :=
  (parseUTF8From article 0).map Prod.fst

/-- From byte `i` on, the characters spell the rest of the article. -/
theorem parseUTF8From_flatten (article : Str) (i : ℕ) :
    ((parseUTF8From article i).map Prod.fst).flatten = article.drop i := by
  induction i using parseUTF8From.induct article with
  | case1 i h size ih =>
      rw [parseUTF8From, dif_pos h, List.map_cons, List.flatten_cons, ih]
      simp only [slice]
      rw [← List.drop_drop, List.take_append_drop]
  | case2 i h =>
      rw [parseUTF8From, dif_neg h, List.drop_eq_nil_of_le (by omega)]
      rfl

theorem parseUTF8From_size (article : Str) (i : ℕ) :
    ∀ t ∈ (parseUTF8From article i).map Prod.fst, t ≠ [] ∧ t.length ≤ 6 := by
  induction i using parseUTF8From.induct article with
  | case1 i h size ih =>
      rw [parseUTF8From, dif_pos h, List.map_cons]
      refine List.forall_mem_cons.mpr ⟨⟨?_, ?_⟩, ih⟩
      · have hpos := charSize_pos article[i]
        simp only [slice, ne_eq, List.take_eq_nil_iff, List.drop_eq_nil_iff]
        omega
      · have hle := charSize_le article[i]
        simp only [slice, List.length_take]
        omega
  | case2 i h =>
      rw [parseUTF8From, dif_neg h]
      simp

/-- Characters paired with the number of bytes before them, from `i` on. -/
def withPositions : ℕ → List Str → List (Str × ℕ)
  | _, [] => []
  | i, t :: ts => (t, i) :: withPositions (i + t.length) ts

/-- The position of a character is the number of bytes before it. -/
theorem parseUTF8From_positions (article : Str) (i : ℕ) :
    parseUTF8From article i =
      withPositions i ((parseUTF8From article i).map Prod.fst) := by
  induction i using parseUTF8From.induct article with
  | case1 i h size ih =>
      rw [parseUTF8From, dif_pos h, List.map_cons, withPositions]
      by_cases hfull : i + size ≤ article.length
      · rw [length_slice hfull]
        exact congrArg _ ih
      · -- the last character, cut off by the end of the article
        have hnil : parseUTF8From article (i + charSize article[i]) = [] := by
          rw [parseUTF8From, dif_neg (by omega)]
        simp only [hnil, List.map_nil, withPositions]
  | case2 i h =>
      rw [parseUTF8From, dif_neg h]
      rfl

theorem characters_flatten (article : Str) :
    (characters article).flatten = article := by
  simpa [characters] using parseUTF8From_flatten article 0

theorem characters_ne_nil (article : Str) : ∀ t ∈ characters article, t ≠ [] :=
  fun t ht => (parseUTF8From_size article 0 t ht).1

/-- The two vectors `parseUTF8` fills run in parallel. -/
theorem parseUTF8_zip (article : Str) :
    (parseUTF8 article [] []).1.zip (parseUTF8 article [] []).2 =
      withPositions 0 (characters article) := by
  rw [characters, ← parseUTF8From_positions]
  simp only [parseUTF8, List.nil_append]
  exact (List.zip_of_prod rfl rfl).symm

/-! ## `CtrlClaw` -/

/-- The keys of `gCtrlMultiByteWord`; every entry of the map is `true`. -/
def gCtrlMultiByteWord : List Str :=
  [[226, 128, 156], [226, 128, 157], [239, 188, 136], [239, 188, 137],
   [227, 128, 138], [227, 128, 139], [227, 128, 140], [227, 128, 141],
   [227, 128, 148], [227, 128, 149], [227, 128, 142], [227, 128, 143],
   [227, 128, 128], [226, 128, 166], [63], [194, 183],
   [227, 128, 129], [227, 128, 130], [239, 188, 140], [239, 188, 142],
   [227, 128, 144], [227, 128, 145], [227, 128, 150], [226, 152, 133],
   [239, 188, 154], [239, 188, 159], [239, 188, 155], [239, 188, 129],
   [195, 151], [50], [226, 151, 139], [226, 151, 143],
   [226, 128, 187], [226, 134, 146], [226, 151, 135], [226, 151, 142],
   [226, 152, 134], [226, 150, 178], [226, 137, 165], [195, 170],
   [226, 128, 153], [195, 172], [226, 134, 144], [33],
   [239, 189, 158], [227, 128, 137], [227, 128, 146], [38],
   [226, 153, 165], [226, 132, 131], [226, 135, 146], [226, 128, 148],
   [226, 150, 160], []]

def isCtrlMultiByte (utf8 : Str) : Bool := gCtrlMultiByteWord.contains utf8

def isOneByte (utf8 : Str) : Bool := utf8.length == 1

def isTwoByte (utf8 : Str) : Bool := utf8.length == 2

/-- The test of `claw` on a character: it belongs to a delimiter run. -/
def isDelimiter (mbyte : Str) : Bool :=
  isOneByte mbyte || isTwoByte mbyte || isCtrlMultiByte mbyte

/-- An element of `sentence_words_`: the text of a run, its characters, and
whether it is a run of ordinary multi-byte characters. -/
structure SentenceWord where
  strWord : Str
  word : List Str
  multi : Bool
deriving DecidableEq

/-- The members of a `CtrlClaw` object that its methods read. -/
structure CtrlClaw where
  article_ : Str
  sentence_words_ : List SentenceWord
  words_ : List Str
  positions_ : List ℕ

namespace CtrlClaw

def clear (_ : CtrlClaw) : CtrlClaw := ⟨[], [], [], []⟩

/-- The local variables of `claw`; the iterators are indices into `words_`. -/
structure Loop where
  startPos : ℕ
  startIt : ℕ
  nowIt : ℕ
  otherFlag : Bool
  otherWord : Str
  otherWordVect : List Str
  sentence_words_ : List SentenceWord

def Loop.start (sw : List SentenceWord) : Loop :=
  ⟨0, 0, 0, false, [], [], sw⟩

/-- The body of the loop over the characters. -/
def clawStep (article : Str) (words : List Str) (l : Loop) :
    Str × ℕ → Option Loop
  | (mbyte, position) =>
    if isDelimiter mbyte then do
      let size := position - l.startPos
      let pushed ←
        if size > 0 then do
          let sub ← substr article l.startPos size
          let subwords := (words.drop l.startIt).take (l.nowIt - l.startIt)
          pure (l.sentence_words_ ++ [⟨sub, subwords, true⟩])
        else pure l.sentence_words_
      pure
        { startPos := position + mbyte.length
          startIt := l.nowIt + 1
          nowIt := l.nowIt + 1
          otherFlag := true
          otherWord := l.otherWord ++ mbyte
          otherWordVect := l.otherWordVect ++ [mbyte]
          sentence_words_ := pushed }
    else if l.otherFlag then
      some
        { l with
          nowIt := l.nowIt + 1
          sentence_words_ :=
            l.sentence_words_ ++ [⟨l.otherWord, l.otherWordVect, false⟩]
          otherWord := []
          otherWordVect := []
          otherFlag := false }
    else
      some { l with nowIt := l.nowIt + 1, otherFlag := false }

/-- The two `if`s after the loop: the trailing run, then the pending
delimiters. -/
def clawEnd (article : Str) (words : List Str) (l : Loop) :
    List SentenceWord :=
  let sw :=
    if l.startPos < article.length then
      let subwords := (words.drop l.startIt).filter (fun w => !isDelimiter w)
      l.sentence_words_ ++ [⟨subwords.flatten, subwords, true⟩]
    else l.sentence_words_
  if !l.otherWord.isEmpty && !l.otherWordVect.isEmpty then
    sw ++ [⟨l.otherWord, l.otherWordVect, false⟩]
  else sw

/-- `CtrlClaw::claw`. `none` is an exception of `substr`. -/
def claw (c : CtrlClaw) (article : Str) : Option CtrlClaw := do
  let c := c.clear
  let (words, positions) := parseUTF8 article c.words_ c.positions_
  let l ← (words.zip positions).foldlM (clawStep article words)
    (Loop.start c.sentence_words_)
  pure
    { article_ := article
      sentence_words_ := clawEnd article words l
      words_ := words
      positions_ := positions }

/-! ## What the loop keeps -/

/-- A well-formed entry: its text is its characters, and they are all of the
kind its flag names. -/
structure Entry (s : SentenceWord) : Prop where
  own : s.strWord = s.word.flatten
  nonempty : s.word ≠ []
  kind : ∀ t ∈ s.word, isDelimiter t = !s.multi

/-- The flag of a new entry differs from the last one's. -/
def Alternates (sw : List SentenceWord) (multi : Bool) : Prop :=
  ∀ s ∈ sw.getLast?, s.multi ≠ multi

/-- Entries that are well formed and alternate. -/
def GoodEntries (sw : List SentenceWord) : Prop :=
  (∀ s ∈ sw, Entry s) ∧ sw.IsChain (fun s s' => s.multi ≠ s'.multi)

theorem GoodEntries.push {sw : List SentenceWord} {s : SentenceWord}
    (h : GoodEntries sw) (hs : Entry s) (halt : Alternates sw s.multi) :
    GoodEntries (sw ++ [s]) := by
  refine ⟨?_, ?_⟩
  · intro x hx
    rcases List.mem_append.mp hx with hx | hx
    · exact h.1 x hx
    · rw [List.mem_singleton.mp hx]; exact hs
  · rw [List.isChain_append]
    refine ⟨h.2, List.isChain_singleton _, ?_⟩
    intro x hx y hy
    rw [List.head?_singleton, Option.mem_some_iff] at hy
    subst hy
    exact halt x hx

theorem Alternates.push {sw : List SentenceWord} {s : SentenceWord} {b : Bool}
    (h : s.multi ≠ b) : Alternates (sw ++ [s]) b := by
  intro x hx
  rw [List.getLast?_append, List.getLast?_singleton] at hx
  simp only [Option.some_or, Option.mem_some_iff] at hx
  rwa [← hx]

/-- The loop invariant after the characters `done`: what is pushed, then the
pending run (delimiters in `otherWordVect`, or the ordinary characters from
`startIt` on) spell `done`. -/
structure ClawInv (done : List Str) (l : Loop) : Prop where
  nowIt : l.nowIt = done.length
  startIt : l.startIt ≤ done.length
  startPos : l.startPos = (done.take l.startIt).flatten.length
  otherFlag : l.otherFlag = true ↔ l.otherWordVect ≠ []
  otherWord : l.otherWord = l.otherWordVect.flatten
  entries : GoodEntries l.sentence_words_
  delimiters : ∀ t ∈ l.otherWordVect, isDelimiter t = true
  ordinary : ∀ t ∈ done.drop l.startIt, isDelimiter t = false
  spelled : l.sentence_words_.flatMap SentenceWord.word ++ l.otherWordVect ++
    done.drop l.startIt = done
  pendingOther : l.otherWordVect ≠ [] →
    done.drop l.startIt = [] ∧ Alternates l.sentence_words_ false
  pendingWords : done.drop l.startIt ≠ [] → Alternates l.sentence_words_ true
  fresh : l.otherWordVect = [] → done.drop l.startIt = [] →
    l.sentence_words_ = []

theorem clawInv_start : ClawInv [] (Loop.start []) where
  nowIt := rfl
  startIt := le_rfl
  startPos := rfl
  otherFlag := by simp [Loop.start]
  otherWord := rfl
  entries := ⟨by simp [Loop.start], by simp [Loop.start]⟩
  delimiters := by simp [Loop.start]
  ordinary := by simp
  spelled := by simp [Loop.start]
  pendingOther := by simp [Loop.start]
  pendingWords := by simp
  fresh := by simp [Loop.start]

theorem flatten_length_pos {l : List Str} (hl : ∀ t ∈ l, t ≠ [])
    (hne : l ≠ []) : 0 < l.flatten.length := by
  obtain ⟨t, ts, rfl⟩ := List.exists_cons_of_ne_nil hne
  have ht := List.length_pos_iff.mpr (hl t List.mem_cons_self)
  simp only [List.flatten_cons, List.length_append]
  omega

section Invariant

variable {done : List Str} {l : Loop}

/-- `startPos` splits the bytes read into the ones pushed and the pending
ones. -/
theorem ClawInv.flatten_length (h : ClawInv done l) :
    l.startPos + (done.drop l.startIt).flatten.length = done.flatten.length := by
  rw [h.startPos, ← List.length_append, ← List.flatten_append,
    List.take_append_drop]

theorem ClawInv.noOther (h : ClawInv done l)
    (hp : done.drop l.startIt ≠ []) : l.otherWordVect = [] := by
  by_contra hne
  exact hp (h.pendingOther hne).1

theorem ClawInv.pendingEntry (h : ClawInv done l)
    (hp : done.drop l.startIt ≠ []) :
    Entry ⟨(done.drop l.startIt).flatten, done.drop l.startIt, true⟩ :=
  ⟨rfl, hp, fun t ht => h.ordinary t ht⟩

theorem ClawInv.otherEntry (h : ClawInv done l) (ho : l.otherWordVect ≠ []) :
    Entry ⟨l.otherWord, l.otherWordVect, false⟩ :=
  ⟨h.otherWord, ho, fun t ht => h.delimiters t ht⟩

/-- What a delimiter pushes: the pending ordinary run, if there is one. -/
def pushPending (done : List Str) (l : Loop) : List SentenceWord :=
  if done.drop l.startIt = [] then l.sentence_words_
  else l.sentence_words_ ++
    [⟨(done.drop l.startIt).flatten, done.drop l.startIt, true⟩]

/-- On a delimiter, `substr` stays in range and cuts out exactly the pending
run. -/
theorem clawStep_delimiter (h : ClawInv done l) {t : Str} {rest : List Str}
    (hdone : ∀ t ∈ done, t ≠ []) (ht : isDelimiter t = true) :
    clawStep (done ++ t :: rest).flatten (done ++ t :: rest) l
        (t, done.flatten.length) =
      some
        { startPos := done.flatten.length + t.length
          startIt := done.length + 1
          nowIt := done.length + 1
          otherFlag := true
          otherWord := l.otherWord ++ t
          otherWordVect := l.otherWordVect ++ [t]
          sentence_words_ := pushPending done l } := by
  have hlen := h.flatten_length
  have hsize : done.flatten.length - l.startPos =
      (done.drop l.startIt).flatten.length := by omega
  by_cases hp : done.drop l.startIt = []
  · have hz : ¬ done.flatten.length - l.startPos > 0 := by
      rw [hsize, hp]; simp
    simp only [clawStep, ht, hz, pushPending, hp, h.nowIt, ↓reduceIte,
      Option.pure_def, Option.bind_eq_bind, Option.bind_some]
  · have hpos : done.flatten.length - l.startPos > 0 := by
      rw [hsize]
      exact flatten_length_pos
        (fun x hx => hdone x (List.mem_of_mem_drop hx)) hp
    have hsub : substr (done ++ t :: rest).flatten l.startPos
        (done.flatten.length - l.startPos) =
          some (done.drop l.startIt).flatten := by
      have hsplit : (done ++ t :: rest).flatten =
          (done.take l.startIt).flatten ++ (done.drop l.startIt).flatten ++
            (t :: rest).flatten := by
        rw [← List.flatten_append, List.take_append_drop, List.flatten_append]
      have hin : l.startPos ≤ (done ++ t :: rest).flatten.length := by
        rw [List.flatten_append, List.length_append]
        omega
      rw [substr_eq_some hin, hsize, hsplit, h.startPos, slice_append_append]
    have hwords : ((done ++ t :: rest).drop l.startIt).take
        (l.nowIt - l.startIt) = done.drop l.startIt := by
      rw [List.drop_append_of_le_length h.startIt, h.nowIt,
        ← List.length_drop, List.take_left]
    rw [h.nowIt] at hwords
    simp only [clawStep, ht, hpos, hsub, hwords, pushPending, hp, h.nowIt,
      ↓reduceIte, Option.pure_def, Option.bind_eq_bind, Option.bind_some]

theorem pushPending_good (h : ClawInv done l) :
    GoodEntries (pushPending done l) := by
  unfold pushPending
  split
  · exact h.entries
  · rename_i hp
    exact h.entries.push (h.pendingEntry hp) (h.pendingWords hp)

/-- The invariant after a delimiter. -/
theorem clawInv_delimiter (h : ClawInv done l) {t : Str}
    (ht : isDelimiter t = true) :
    ClawInv (done ++ [t])
      { startPos := done.flatten.length + t.length
        startIt := done.length + 1
        nowIt := done.length + 1
        otherFlag := true
        otherWord := l.otherWord ++ t
        otherWordVect := l.otherWordVect ++ [t]
        sentence_words_ := pushPending done l } where
  nowIt := by simp
  startIt := by simp
  startPos := by
    rw [List.take_of_length_le (by simp)]
    simp
  otherFlag := by simp
  otherWord := by simp [h.otherWord]
  entries := pushPending_good h
  delimiters := by
    intro x hx
    rcases List.mem_append.mp hx with hx | hx
    · exact h.delimiters x hx
    · rw [List.mem_singleton.mp hx]; exact ht
  ordinary := by simp
  spelled := by
    have hsp := h.spelled
    unfold pushPending
    split
    · rename_i hp
      rw [hp, List.append_nil] at hsp
      simp [← List.append_assoc, hsp]
    · rename_i hp
      rw [h.noOther hp, List.append_nil] at hsp
      simp [h.noOther hp, List.flatMap_append, hsp]
  pendingOther := by
    intro _
    refine ⟨by simp, ?_⟩
    unfold pushPending
    split
    · rename_i hp
      by_cases ho : l.otherWordVect = []
      · -- neither run is pending: nothing has been read yet
        simp [h.fresh ho hp, Alternates]
      · exact (h.pendingOther ho).2
    · exact Alternates.push (by simp)
  pendingWords := by simp
  fresh := by simp

theorem drop_append_singleton (h : ClawInv done l) (t : Str) :
    (done ++ [t]).drop l.startIt = done.drop l.startIt ++ [t] :=
  List.drop_append_of_le_length h.startIt

theorem take_append_singleton (h : ClawInv done l) (t : Str) :
    (done ++ [t]).take l.startIt = done.take l.startIt :=
  List.take_append_of_le_length h.startIt

/-- The invariant after the first ordinary character behind delimiters: the
delimiter run is pushed. -/
theorem clawInv_flush (h : ClawInv done l) {t : Str}
    (ht : isDelimiter t = false) (hflag : l.otherFlag = true) :
    ClawInv (done ++ [t])
      { l with
        nowIt := l.nowIt + 1
        sentence_words_ :=
          l.sentence_words_ ++ [⟨l.otherWord, l.otherWordVect, false⟩]
        otherWord := []
        otherWordVect := []
        otherFlag := false } := by
  have ho := h.otherFlag.mp hflag
  obtain ⟨hp, halt⟩ := h.pendingOther ho
  have hdrop : (done ++ [t]).drop l.startIt = [t] := by
    rw [drop_append_singleton h, hp, List.nil_append]
  exact {
    nowIt := by simp [h.nowIt]
    startIt := by simp [Nat.le_succ_of_le h.startIt]
    startPos := by
      show l.startPos = _
      rw [take_append_singleton h, h.startPos]
    otherFlag := by simp
    otherWord := rfl
    entries := h.entries.push (h.otherEntry ho) halt
    delimiters := by simp
    ordinary := by simpa [hdrop] using ht
    spelled := by
      have hsp := h.spelled
      rw [hp, List.append_nil] at hsp
      simp [hdrop, List.flatMap_append, hsp]
    pendingOther := by simp
    pendingWords := fun _ => Alternates.push (by simp)
    fresh := by simp [hdrop] }

/-- The invariant after a further ordinary character. -/
theorem clawInv_ordinary (h : ClawInv done l) {t : Str}
    (ht : isDelimiter t = false) (hflag : l.otherFlag = false) :
    ClawInv (done ++ [t])
      { l with nowIt := l.nowIt + 1, otherFlag := false } := by
  have ho : l.otherWordVect = [] := by
    by_contra hne
    rw [h.otherFlag.mpr hne] at hflag
    exact Bool.noConfusion hflag
  have hdrop := drop_append_singleton h t
  exact {
    nowIt := by simp [h.nowIt]
    startIt := by simp [Nat.le_succ_of_le h.startIt]
    startPos := by
      show l.startPos = _
      rw [take_append_singleton h, h.startPos]
    otherFlag := by simp [ho]
    otherWord := h.otherWord
    entries := h.entries
    delimiters := h.delimiters
    ordinary := by
      intro x hx
      rw [hdrop] at hx
      rcases List.mem_append.mp hx with hx | hx
      · exact h.ordinary x hx
      · rw [List.mem_singleton.mp hx]; exact ht
    spelled := by
      have hsp := h.spelled
      simp only [hdrop, ← List.append_assoc, hsp]
    pendingOther := by simp [ho]
    pendingWords := by
      intro _
      by_cases hp : done.drop l.startIt = []
      · simp [h.fresh ho hp, Alternates]
      · exact h.pendingWords hp
    fresh := by simp [hdrop] }

/-- **One character keeps the invariant**, and no `substr` throws. -/
theorem clawStep_inv (h : ClawInv done l) (t : Str) (rest : List Str)
    (hdone : ∀ t ∈ done, t ≠ []) :
    ∃ l', clawStep (done ++ t :: rest).flatten (done ++ t :: rest) l
        (t, done.flatten.length) = some l' ∧ ClawInv (done ++ [t]) l' := by
  by_cases ht : isDelimiter t = true
  · exact ⟨_, clawStep_delimiter h hdone ht, clawInv_delimiter h ht⟩
  · have ht' : isDelimiter t = false := by simpa using ht
    by_cases hflag : l.otherFlag = true
    · refine ⟨_, ?_, clawInv_flush h ht' hflag⟩
      simp only [clawStep, ht', hflag, Bool.false_eq_true, ↓reduceIte]
    · have hflag' : l.otherFlag = false := by simpa using hflag
      refine ⟨_, ?_, clawInv_ordinary h ht' hflag'⟩
      simp only [clawStep, ht', hflag', Bool.false_eq_true, ↓reduceIte]

/-- **The whole loop keeps the invariant.** -/
theorem clawLoop_inv : ∀ (rest done : List Str) (l : Loop),
    ClawInv done l → (∀ t ∈ done ++ rest, t ≠ []) →
    ∃ l', (withPositions done.flatten.length rest).foldlM
        (clawStep (done ++ rest).flatten (done ++ rest)) l = some l' ∧
      ClawInv (done ++ rest) l'
  | [], done, l, h, _ => ⟨l, rfl, by simpa using h⟩
  | t :: rest, done, l, h, hne => by
      obtain ⟨l₁, hstep, h₁⟩ := clawStep_inv h t rest
        (fun x hx => hne x (List.mem_append_left _ hx))
      have hassoc : done ++ t :: rest = (done ++ [t]) ++ rest := by simp
      obtain ⟨l₂, hloop, h₂⟩ :=
        clawLoop_inv rest (done ++ [t]) l₁ h₁ (by rwa [← hassoc])
      refine ⟨l₂, ?_, by rwa [hassoc]⟩
      have hbase : done.flatten.length + t.length =
          (done ++ [t]).flatten.length := by simp
      rw [withPositions, List.foldlM_cons, hstep, hbase, hassoc]
      exact hloop

/-- Behind the loop the pending run is pushed, whichever kind it is. -/
theorem clawEnd_eq (h : ClawInv done l) (hdone : ∀ t ∈ done, t ≠ []) :
    clawEnd done.flatten done l =
      if l.otherWordVect ≠ [] then
        l.sentence_words_ ++ [⟨l.otherWord, l.otherWordVect, false⟩]
      else pushPending done l := by
  have hlen := h.flatten_length
  have hfilter : (done.drop l.startIt).filter (fun w => !isDelimiter w) =
      done.drop l.startIt :=
    List.filter_eq_self.mpr (fun t ht => by simp [h.ordinary t ht])
  by_cases ho : l.otherWordVect = []
  · have how : l.otherWord = [] := by rw [h.otherWord, ho]; rfl
    by_cases hp : done.drop l.startIt = []
    · have hend : ¬ l.startPos < done.flatten.length := by
        rw [hp, List.flatten_nil, List.length_nil] at hlen
        omega
      simp only [clawEnd, hend, ho, how, pushPending, hp]
      simp
    · have hpos := flatten_length_pos
        (fun x hx => hdone x (List.mem_of_mem_drop hx)) hp
      have hend : l.startPos < done.flatten.length := by omega
      simp only [clawEnd, hend, hfilter, ho, how, pushPending, hp]
      simp
  · obtain ⟨hp, -⟩ := h.pendingOther ho
    have hend : ¬ l.startPos < done.flatten.length := by
      rw [hp, List.flatten_nil, List.length_nil] at hlen
      omega
    have how : l.otherWord ≠ [] := by
      have htok : ∀ t ∈ l.otherWordVect, t ≠ [] := fun t ht => hdone t (by
        rw [← h.spelled]
        simp [ht])
      rw [h.otherWord, ← List.length_pos_iff]
      exact flatten_length_pos htok ho
    simp only [clawEnd, hend]
    simp [ho, how]

theorem clawEnd_good (h : ClawInv done l) (hdone : ∀ t ∈ done, t ≠ []) :
    GoodEntries (clawEnd done.flatten done l) := by
  rw [clawEnd_eq h hdone]
  split
  · rename_i ho
    exact h.entries.push (h.otherEntry ho) (h.pendingOther ho).2
  · exact pushPending_good h

theorem clawEnd_spelled (h : ClawInv done l) (hdone : ∀ t ∈ done, t ≠ []) :
    (clawEnd done.flatten done l).flatMap SentenceWord.word = done := by
  have hsp := h.spelled
  rw [clawEnd_eq h hdone]
  split
  · rename_i ho
    rw [(h.pendingOther ho).1, List.append_nil] at hsp
    simpa [List.flatMap_append] using hsp
  · rename_i ho
    rw [not_not.mp ho, List.append_nil] at hsp
    unfold pushPending
    split
    · rename_i hp
      rwa [hp, List.append_nil] at hsp
    · simpa [List.flatMap_append] using hsp

end Invariant

/-- `claw` never throws; its entries are well formed, alternate, and hold the
characters of the article in order. -/
theorem claw_entries (c : CtrlClaw) (article : Str) :
    ∃ c', c.claw article = some c' ∧ GoodEntries c'.sentence_words_ ∧
      c'.sentence_words_.flatMap SentenceWord.word = characters article := by
  have hne := characters_ne_nil article
  have hart := characters_flatten article
  obtain ⟨l, hloop, hinv⟩ :=
    clawLoop_inv (characters article) [] (Loop.start []) clawInv_start
      (by simpa using hne)
  simp only [List.nil_append, List.flatten_nil, List.length_nil, hart] at hloop hinv
  have hgood := clawEnd_good hinv hne
  have hspelled := clawEnd_spelled hinv hne
  rw [hart] at hgood hspelled
  refine ⟨⟨article, clawEnd article (characters article) l, characters article,
    (parseUTF8 article [] []).2⟩, ?_, hgood, hspelled⟩
  have hzip := parseUTF8_zip article
  have hwords : (parseUTF8 article [] []).1 = characters article := by
    simp [parseUTF8, characters]
  rw [hwords] at hzip
  simp only [claw, clear, hwords, hzip, hloop, Option.pure_def,
    Option.bind_eq_bind, Option.bind_some]

/-! ## The partition -/

/-- The entries cut the article into alternating non-empty runs, each spelled
by its own characters, which are all of the kind its flag says. -/
structure Partition (article : Str) (sw : List SentenceWord) : Prop where
  concat : (sw.map SentenceWord.strWord).flatten = article
  own : ∀ s ∈ sw, s.strWord = s.word.flatten
  nonempty : ∀ s ∈ sw, s.strWord ≠ []
  alternate : sw.IsChain (fun s s' => s.multi ≠ s'.multi)
  multi : ∀ s ∈ sw, s.multi = true → ∀ t ∈ s.word,
    isOneByte t = false ∧ isTwoByte t = false ∧ isCtrlMultiByte t = false
  other : ∀ s ∈ sw, s.multi = false → ∀ t ∈ s.word,
    isOneByte t = true ∨ isTwoByte t = true ∨ isCtrlMultiByte t = true

theorem mem_characters_of_entry {article : Str} {sw : List SentenceWord}
    (h : sw.flatMap SentenceWord.word = characters article) {s : SentenceWord}
    (hs : s ∈ sw) {t : Str} (ht : t ∈ s.word) : t ∈ characters article := by
  rw [← h]
  exact List.mem_flatMap.mpr ⟨s, hs, ht⟩

/-- **`claw` partitions the article**, whatever the object clawed before. -/
theorem claw_partition (c : CtrlClaw) (article : Str) :
    ∃ c', c.claw article = some c' ∧ Partition article c'.sentence_words_ := by
  obtain ⟨c', hclaw, ⟨hentry, halt⟩, hspelled⟩ := claw_entries c article
  refine ⟨c', hclaw, ?_, fun s hs => (hentry s hs).own, ?_, halt, ?_, ?_⟩
  · have hown : c'.sentence_words_.map SentenceWord.strWord =
        c'.sentence_words_.map (fun s => s.word.flatten) :=
      List.map_congr_left (fun s hs => (hentry s hs).own)
    calc (c'.sentence_words_.map SentenceWord.strWord).flatten
        = (c'.sentence_words_.flatMap SentenceWord.word).flatten := by
          rw [hown]
          simp only [List.flatMap, List.flatten_flatten, List.map_map]
          rfl
      _ = article := by rw [hspelled, characters_flatten]
  · intro s hs
    rw [(hentry s hs).own, ← List.length_pos_iff]
    exact flatten_length_pos
      (fun t ht => characters_ne_nil article t
        (mem_characters_of_entry hspelled hs ht))
      (hentry s hs).nonempty
  · intro s hs hm t ht
    have hkind := (hentry s hs).kind t ht
    simpa [isDelimiter, hm, and_assoc] using hkind
  · intro s hs hm t ht
    have hkind := (hentry s hs).kind t ht
    simpa [isDelimiter, hm, or_assoc] using hkind

/-- A run handed to the segmenters: an entry with flag `true` of some clawed
article. -/
def Emits (Bytes : List Str) (text : Str) : Prop :=
  ∃ (c c' : CtrlClaw) (article : Str), c.claw article = some c' ∧
    ⟨text, Bytes, true⟩ ∈ c'.sentence_words_

/-- An article without delimiters is a run of its own. -/
theorem emits_of_ordinary {article : Str} (hne : article ≠ [])
    (hord : ∀ t ∈ characters article, isDelimiter t = false) :
    Emits (characters article) article := by
  obtain ⟨c', hclaw, ⟨hentry, halt⟩, hspelled⟩ :=
    claw_entries ⟨[], [], [], []⟩ article
  have hmulti : ∀ s ∈ c'.sentence_words_, s.multi = true := by
    intro s hs
    obtain ⟨t, ht⟩ := List.exists_mem_of_ne_nil _ (hentry s hs).nonempty
    have hkind := (hentry s hs).kind t ht
    rw [hord t (mem_characters_of_entry hspelled hs ht)] at hkind
    simpa using hkind
  -- entries alternate and have one flag, so there is only one
  cases hsw : c'.sentence_words_ with
  | nil =>
      rw [hsw, List.flatMap_nil] at hspelled
      have hflat := characters_flatten article
      rw [← hspelled] at hflat
      exact absurd hflat.symm hne
  | cons s sw =>
      cases sw with
      | nil =>
          rw [hsw, List.flatMap_singleton] at hspelled
          have hmem : s ∈ c'.sentence_words_ := by simp [hsw]
          have hown := (hentry s hmem).own
          rw [hspelled, characters_flatten] at hown
          refine ⟨_, c', article, hclaw, ?_⟩
          rw [hsw, ← hspelled, ← hown, ← hmulti s hmem]
          exact List.mem_singleton_self s
      | cons s' sw =>
          rw [hsw] at halt hmulti
          have hdiff := (List.isChain_cons_cons.mp halt).1
          rw [hmulti s (by simp), hmulti s' (by simp)] at hdiff
          exact absurd rfl hdiff

/-- What the segmenters may rely on: the text is its characters, there is one,
and each has at least three bytes. -/
structure Run (Bytes : List Str) (text : Str) : Prop where
  text_eq : text = Bytes.flatten
  nonempty : Bytes ≠ []
  three : ∀ t ∈ Bytes, 3 ≤ t.length

theorem Run.ne_nil {Bytes : List Str} {text : Str} (h : Run Bytes text) :
    ∀ t ∈ Bytes, t ≠ [] := by
  rintro t ht rfl
  exact absurd (h.three [] ht) (by simp)

theorem Run.length_pos {Bytes : List Str} {text : Str} (h : Run Bytes text) :
    0 < Bytes.flatten.length :=
  flatten_length_pos h.ne_nil h.nonempty

theorem Emits.run {Bytes : List Str} {text : Str} (h : Emits Bytes text) :
    Run Bytes text := by
  obtain ⟨c, c', article, hclaw, hmem⟩ := h
  obtain ⟨c'', hclaw', ⟨hentry, -⟩, hspelled⟩ := claw_entries c article
  obtain rfl : c' = c'' := Option.some.inj (hclaw.symm.trans hclaw')
  have he := hentry _ hmem
  refine ⟨he.own, he.nonempty, ?_⟩
  intro t ht
  have hne := characters_ne_nil article t
    (mem_characters_of_entry hspelled hmem ht)
  have hkind := he.kind t ht
  have hpos := List.length_pos_iff.mpr hne
  simp only [isDelimiter, isOneByte, isTwoByte, Bool.not_true,
    Bool.or_eq_false_iff, beq_eq_false_iff_ne] at hkind
  omega

end CtrlClaw

end WaiNative

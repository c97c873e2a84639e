import WaiNative.Service.ProcessText
import Mathlib.Data.List.Flatten

/-!
# What `cutSpace` keeps of a delimiter run

`claw` puts one-byte, two-byte and listed multi-byte characters into one run of
delimiters. `cutSpace` prints the one-byte characters of the run, with a separator `%`
behind all but letters and digits; for the other sizes it has no branch.

- `deleteInserted_markedSentence`: without the separators, the output is the one-byte
  characters of the run;
- `cutSpace_keeps_iff`: that is the run exactly when it has no others.
-/

namespace WaiNative

open Cxx WaiLibraries

/-! ## The output with its separators marked -/

/-- The bytes that `cutSpace` appends for a character; `true` marks a separator. -/
def markedBytes : Str → List (UInt8 × Bool)
  | [c] => if isalnum c then [(c, false)] else [(c, false), (37, true)]
  | _ => []

def markedSentence (wordBytes : List Str) : List (UInt8 × Bool) := wordBytes.flatMap markedBytes

/-- The output without the separators. -/
def deleteInserted (marked : List (UInt8 × Bool)) : Str :=
  (marked.filter (fun m => !m.2)).map Prod.fst

/-- The members of the property tree that `PhoenixWord::cutSpace` returns. -/
structure SpaceTree where
  sentence : Str
  graph : Str
  input : Str

/-- `PhoenixWord::cutSpace`, with the loop of `ZhiZiWord::cutSpace`. -/
def PhoenixWord.cutSpace (wordBytes : List Str) (text : Str) : SpaceTree where
  sentence := wordBytes.flatMap (fun mbyte =>
    match mbyte with
    | [c] => if isalnum c then [c] else [c, 37]
    | _ => [])
  graph := []
  input := text

/-- A run of delimiters of some clawed article. -/
def DelimiterRun (s : SentenceWord) : Prop :=
  ∃ (c c' : CtrlClaw) (article : Str), c.claw article = some c' ∧
    s ∈ c'.sentence_words_ ∧ s.multi = false

section Marks

variable (wordBytes : List Str) (text : Str)

theorem map_fst_markedBytes (mbyte : Str) : (markedBytes mbyte).map Prod.fst =
    match mbyte with
    | [c] => if isalnum c then [c] else [c, 37]
    | _ => [] := by
  match mbyte with
  | [] => rfl
  | [c] =>
      show List.map Prod.fst (if isalnum c then _ else _) = if isalnum c then [c] else [c, 37]
      split
      · rfl
      · rfl
  | _ :: _ :: _ => rfl

/-- Both methods print the marked bytes. -/
theorem cutSpace_sentence : (cutSpace wordBytes text).sentence =
      (markedSentence wordBytes).map Prod.fst ∧
    (PhoenixWord.cutSpace wordBytes text).sentence =
      (markedSentence wordBytes).map Prod.fst := by
  have hmap : wordBytes.flatMap (fun mbyte => (markedBytes mbyte).map Prod.fst) =
      (markedSentence wordBytes).map Prod.fst := List.map_flatMap.symm
  simp only [map_fst_markedBytes] at hmap
  exact ⟨hmap, hmap⟩

theorem deleteInserted_markedBytes (mbyte : Str) :
    deleteInserted (markedBytes mbyte) = if isOneByte mbyte then mbyte else [] := by
  match mbyte with
  | [] => rfl
  | [c] =>
      show deleteInserted (if isalnum c then _ else _) = [c]
      split
      · rfl
      · rfl
  | _ :: _ :: _ => rfl

/-- Without its separators the output is the one-byte characters. -/
theorem deleteInserted_markedSentence : deleteInserted (markedSentence wordBytes) =
    (wordBytes.filter isOneByte).flatten := by
  induction wordBytes with
  | nil => rfl
  | cons mbyte wordBytes ih =>
      have hcons : deleteInserted (markedSentence (mbyte :: wordBytes)) =
          deleteInserted (markedBytes mbyte) ++ deleteInserted (markedSentence wordBytes) := by
        rw [markedSentence, List.flatMap_cons, deleteInserted, List.filter_append,
          List.map_append]
        rfl
      rw [hcons, deleteInserted_markedBytes, ih, List.filter_cons]
      split
      · rfl
      · rfl

end Marks

/-! ## Which runs it keeps -/

/-- Filtering non-empty pieces keeps the text only if it keeps all pieces. -/
theorem flatten_filter_eq_iff (p : Str → Bool) : ∀ {l : List Str}, (∀ t ∈ l, t ≠ []) →
    ((l.filter p).flatten = l.flatten ↔ ∀ t ∈ l, p t = true)
  | [], _ => by simp
  | t :: l, hl => by
      obtain ⟨ht, hl⟩ := List.forall_mem_cons.mp hl
      have ih := flatten_filter_eq_iff p hl
      rw [List.filter_cons, List.forall_mem_cons, ← ih]
      cases hp : p t with
      | true =>
          rw [if_pos rfl, List.flatten_cons, List.flatten_cons, List.append_right_inj]
          exact (and_iff_right rfl).symm
      | false =>
          rw [if_neg Bool.false_ne_true]
          refine iff_of_false (fun heq => ?_) (fun h => Bool.false_ne_true h.1)
          -- what is left is shorter
          have hlen := congrArg List.length heq
          have hsub := (List.Sublist.flatten (List.filter_sublist (p := p) (l := l))).length_le
          have hpos := List.length_pos_iff.mpr ht
          rw [List.flatten_cons, List.length_append] at hlen
          omega

/-- A run is spelled by its characters, none of them empty. -/
theorem DelimiterRun.entry {s : SentenceWord} (h : DelimiterRun s) :
    s.strWord = s.word.flatten ∧ ∀ t ∈ s.word, t ≠ [] := by
  obtain ⟨c, c', article, hclaw, hs, -⟩ := h
  obtain ⟨c'', hclaw', ⟨hentry, -⟩, hspelled⟩ := CtrlClaw.claw_entries c article
  obtain rfl : c' = c'' := Option.some.inj (hclaw.symm.trans hclaw')
  refine ⟨(hentry s hs).own, fun t ht => ?_⟩
  exact characters_ne_nil article t (CtrlClaw.mem_characters_of_entry hspelled hs ht)

/-- The runs that `processWord` hands to `cutSpace` are such runs. -/
theorem delimiterRun_of_runs {sentence : Str} {s : SentenceWord} (hs : s ∈ runs sentence)
    (hmulti : s.multi = false) : DelimiterRun s := by
  obtain ⟨c, hclaw, -⟩ := CtrlClaw.claw_entries ⟨[], [], [], []⟩ sentence
  rw [runs_eq hclaw] at hs
  exact ⟨_, c, sentence, hclaw, hs, hmulti⟩

theorem deleteInserted_eq_iff {s : SentenceWord} (h : DelimiterRun s) :
    deleteInserted (markedSentence s.word) = s.strWord ↔ ∀ t ∈ s.word, isOneByte t = true := by
  obtain ⟨hown, hne⟩ := h.entry
  rw [deleteInserted_markedSentence, hown, flatten_filter_eq_iff isOneByte hne]

/-- **Without its separators the sentence of a delimiter run is the run exactly when every
character of the run is one byte.** -/
theorem cutSpace_keeps_iff {s : SentenceWord} (h : DelimiterRun s) :
    (cutSpace s.word s.strWord).sentence = (markedSentence s.word).map Prod.fst ∧
    (PhoenixWord.cutSpace s.word s.strWord).sentence = (markedSentence s.word).map Prod.fst ∧
    (deleteInserted (markedSentence s.word) = s.strWord ↔
      ∀ t ∈ s.word, isOneByte t = true) := by
  obtain ⟨hzhizi, hphoenix⟩ := cutSpace_sentence s.word s.strWord
  exact ⟨hzhizi, hphoenix, deleteInserted_eq_iff h⟩

/-- `a%b`: its own percent sign is no separator. -/
def percentRun : SentenceWord := ⟨[97, 37, 98], [[97], [37], [98]], false⟩

theorem percent_delimiterRun : DelimiterRun percentRun := by
  have hruns : percentRun ∈ runs [97, 37, 98] := by with_unfolding_all decide
  exact delimiterRun_of_runs hruns rfl

theorem cutSpace_keeps_iff_percent :
    (cutSpace percentRun.word percentRun.strWord).sentence =
      (markedSentence percentRun.word).map Prod.fst ∧
    (PhoenixWord.cutSpace percentRun.word percentRun.strWord).sentence =
      (markedSentence percentRun.word).map Prod.fst ∧
    (deleteInserted (markedSentence percentRun.word) = percentRun.strWord ↔
      ∀ t ∈ percentRun.word, isOneByte t = true) :=
  cutSpace_keeps_iff percent_delimiterRun

/-- `a，b`, with a full-width comma. -/
def commaRun : SentenceWord := ⟨[97, 239, 188, 140, 98], [[97], [239, 188, 140], [98]], false⟩

/-- The comma is neither kept nor replaced. -/
theorem comma_not_kept : DelimiterRun commaRun ∧
    (cutSpace commaRun.word commaRun.strWord).sentence = [97, 98] ∧
    deleteInserted (markedSentence commaRun.word) ≠ commaRun.strWord := by
  have hruns : commaRun ∈ runs [97, 239, 188, 140, 98] := by with_unfolding_all decide
  exact ⟨delimiterRun_of_runs hruns rfl, by decide, by decide⟩

end WaiNative

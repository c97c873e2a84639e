import WaiNative.Cxx.Strings
import Mathlib.Data.Nat.Notation
import Mathlib.Tactic.Common

/-!
# The windows of a sentence

The double loop that `ParrotWord`, `OstrichWord`, `PhoenixWord` and `ZhiZiWord`
share: for each character, the words that end with it and start up to 31
characters before it. `forWindows` is the loop with the caller's body as a
parameter; it is a fold over the list `windows` (`forWindows_eq`).

- `windows_visited`: they come by increasing end, and for one end by
  decreasing start;
- `mem_windows`: they are exactly the runs of at most 32 characters
  (`WindowAt`).

Positions are natural numbers: `wordPos -= it->size()` never goes below zero,
because `preWords` holds characters in front of the current one. The source's are
`int`, so a run is taken to be shorter than 2^31 bytes, here and in the stages that
follow.
-/

namespace WaiNative

open Cxx

/-! ## Windows -/

section Windows

variable {σ : Type*}

def gWordLength : ℕ := 32

/-- The inner loop: `it` runs backwards over `preWords`. -/
def joinBack (push : σ → Str → ℕ → σ) : List Str → Str → ℕ → σ → σ
  | [], _, _, st => st
  | it :: rest, jointWord, wordPos, st =>
      let jointWord := it ++ jointWord
      let wordPos := wordPos - it.length
      joinBack push rest jointWord wordPos (push st jointWord wordPos)

/-- The end of the outer loop's body: `preWords` keeps the last 31
characters. -/
def pushPreWord (preWords : List Str) (word : Str) : List Str :=
  let preWords := preWords ++ [word]
  if preWords.length > gWordLength - 1 then preWords.tail else preWords

/-- The outer loop; `single` says whether a character of its own is a window
too. -/
def forWindows (single : Bool) (push : σ → Str → ℕ → σ) :
    List Str → List Str → ℕ → σ → σ
  | [], _, _, st => st
  | word :: Bytes, preWords, baseLinePos, st =>
      let st := if single then push st word baseLinePos else st
      let st := joinBack push preWords.reverse word baseLinePos st
      forWindows single push Bytes (pushPreWord preWords word)
        (baseLinePos + word.length) st

/-- The windows that end in one character, shortest first. -/
def windowsBack : List Str → Str → ℕ → List (Str × ℕ)
  | [], _, _ => []
  | it :: rest, jointWord, wordPos =>
      (it ++ jointWord, wordPos - it.length) ::
        windowsBack rest (it ++ jointWord) (wordPos - it.length)

/-- All windows in the order of the loops. -/
def windowsFrom (single : Bool) : List Str → List Str → ℕ → List (Str × ℕ)
  | [], _, _ => []
  | word :: Bytes, preWords, baseLinePos =>
      (if single then [(word, baseLinePos)] else []) ++
        windowsBack preWords.reverse word baseLinePos ++
        windowsFrom single Bytes (pushPreWord preWords word)
          (baseLinePos + word.length)

def windows (single : Bool) (Bytes : List Str) : List (Str × ℕ) :=
  windowsFrom single Bytes [] 0

theorem joinBack_eq (push : σ → Str → ℕ → σ) : ∀ (pre : List Str) (w : Str)
    (p : ℕ) (st : σ), joinBack push pre w p st =
      (windowsBack pre w p).foldl (fun st v => push st v.1 v.2) st
  | [], _, _, _ => rfl
  | it :: rest, w, p, st => by
      rw [joinBack, joinBack_eq push rest]
      rfl

/-- The loops are a fold over the windows. -/
theorem forWindows_eq (single : Bool) (push : σ → Str → ℕ → σ) :
    ∀ (Bytes pre : List Str) (base : ℕ) (st : σ),
      forWindows single push Bytes pre base st =
        (windowsFrom single Bytes pre base).foldl (fun st v => push st v.1 v.2) st
  | [], _, _, _ => rfl
  | word :: Bytes, pre, base, st => by
      rw [forWindows, forWindows_eq single push Bytes, joinBack_eq, windowsFrom,
        List.foldl_append, List.foldl_append]
      cases single <;> rfl

end Windows

/-! ## Where the windows lie -/

/-- Windows ending in one character share their end and go further and further
back. -/
theorem windowsBack_spec : ∀ {pre : List Str} {w : Str} {p : ℕ},
    (∀ t ∈ pre, t ≠ []) → pre.flatten.length ≤ p →
    (∀ v ∈ windowsBack pre w p, v.2 + v.1.length = p + w.length ∧ v.2 < p) ∧
      (windowsBack pre w p).Pairwise (fun v v' => v'.2 < v.2)
  | [], _, _, _, _ => by simp [windowsBack]
  | it :: rest, w, p, hne, hp => by
      have hit := List.length_pos_iff.mpr (hne it List.mem_cons_self)
      rw [List.flatten_cons, List.length_append] at hp
      obtain ⟨hends, hpair⟩ := windowsBack_spec (w := it ++ w)
        (p := p - it.length) (fun t ht => hne t (List.mem_cons_of_mem _ ht))
        (by omega)
      refine ⟨?_, List.pairwise_cons.mpr ⟨fun v hv => (hends v hv).2, hpair⟩⟩
      rintro v (_ | ⟨_, hv⟩)
      · simp only [List.length_append]
        omega
      · have hv' := hends v hv
        rw [List.length_append] at hv'
        omega

/-- A window ending in `w` joins a suffix of the characters before it. -/
theorem mem_windowsBack {pre : List Str} : ∀ {w : Str} {p : ℕ} {j : Str} {q : ℕ},
    (j, q) ∈ windowsBack pre.reverse w p ↔ ∃ l mid, pre = l ++ mid ∧ mid ≠ [] ∧
      j = mid.flatten ++ w ∧ q = p - mid.flatten.length := by
  induction pre using List.reverseRecOn with
  | nil =>
      intro w p j q
      simp only [List.reverse_nil, windowsBack, List.not_mem_nil, false_iff]
      rintro ⟨l, mid, hnil, hne, -⟩
      exact hne (List.append_eq_nil_iff.mp hnil.symm).2
  | append_singleton pre it ih =>
      intro w p j q
      rw [List.reverse_append, List.reverse_singleton, List.singleton_append,
        windowsBack, List.mem_cons, ih]
      constructor
      · rintro (heq | ⟨l, mid, rfl, hne, rfl, rfl⟩)
        · obtain ⟨rfl, rfl⟩ := Prod.mk.inj heq
          exact ⟨pre, [it], rfl, by simp, by simp, by simp⟩
        · refine ⟨l, mid ++ [it], by simp, by simp, by simp, ?_⟩
          simp only [List.flatten_append, List.flatten_singleton,
            List.length_append]
          omega
      · rintro ⟨l, mid, hsplit, hne, rfl, rfl⟩
        obtain ⟨mid', last, rfl⟩ := List.eq_nil_or_concat'  mid |>.resolve_left hne
        rw [← List.append_assoc] at hsplit
        obtain ⟨rfl, hlast⟩ := List.append_inj' hsplit rfl
        obtain rfl : it = last := by simpa using hlast
        by_cases hmid : mid' = []
        · subst hmid
          exact Or.inl (by simp)
        · refine Or.inr ⟨l, mid', rfl, hmid, by simp, ?_⟩
          simp only [List.flatten_append, List.flatten_singleton,
            List.length_append]
          omega

/-- `preWords` between two characters: the last 31 that have been read. -/
def recent (done : List Str) : List Str :=
  done.drop (done.length - (gWordLength - 1))

theorem pushPreWord_recent (done : List Str) (w : Str) :
    pushPreWord (recent done) w = recent (done ++ [w]) := by
  simp only [pushPreWord, recent, gWordLength, List.length_append,
    List.length_drop, List.length_singleton]
  by_cases hlen : done.length ≤ 30
  · have hzero : done.length - 31 = 0 := by omega
    have hzero' : done.length + 1 - 31 = 0 := by omega
    rw [if_neg (by omega), hzero', Nat.sub_eq_zero_of_le (by omega)]
    rfl
  · have hlong : done.length - (done.length - (32 - 1)) + 1 > 32 - 1 := by omega
    rw [if_pos hlong, ← List.drop_one, ← List.drop_append_of_le_length (by omega),
      List.drop_drop]
    congr 1
    omega

theorem recent_mem {done : List Str} {t : Str} (h : t ∈ recent done) : t ∈ done :=
  List.mem_of_mem_drop h

theorem recent_length_le (done : List Str) :
    (recent done).flatten.length ≤ done.flatten.length := by
  have hsplit : done.flatten = (done.take (done.length - (gWordLength - 1))).flatten
      ++ (recent done).flatten := by
    rw [recent, ← List.flatten_append, List.take_append_drop]
  rw [hsplit, List.length_append]
  omega

/-- Windows come by increasing end, and for one end by decreasing start. -/
def VisitedBefore (v v' : Str × ℕ) : Prop :=
  v.2 + v.1.length < v'.2 + v'.1.length ∨
    (v.2 + v.1.length = v'.2 + v'.1.length ∧ v'.2 < v.2)

section Order

variable {single : Bool} {done Bytes : List Str}

/-- The windows that end with the character after `done`. -/
def windowsAt (single : Bool) (done : List Str) (word : Str) : List (Str × ℕ) :=
  (if single then [(word, done.flatten.length)] else []) ++
    windowsBack (recent done).reverse word done.flatten.length

theorem windowsFrom_cons (single : Bool) (done : List Str) (word : Str)
    (Bytes : List Str) :
    windowsFrom single (word :: Bytes) (recent done) done.flatten.length =
      windowsAt single done word ++
        windowsFrom single Bytes (recent (done ++ [word]))
          (done ++ [word]).flatten.length := by
  simp [windowsFrom, windowsAt, pushPreWord_recent]

theorem windowsAt_ends (single : Bool) (hdone : ∀ t ∈ done, t ≠ []) (w : Str) :
    (∀ v ∈ windowsAt single done w,
      v.2 + v.1.length = done.flatten.length + w.length) ∧
    (windowsAt single done w).Pairwise (fun v v' => v'.2 < v.2) := by
  have hrec : ∀ t ∈ (recent done).reverse, t ≠ [] :=
    fun t ht => hdone t (recent_mem (List.mem_reverse.mp ht))
  have hlen : (recent done).reverse.flatten.length ≤ done.flatten.length := by
    simpa [List.length_flatten] using recent_length_le done
  obtain ⟨hends, hpair⟩ := windowsBack_spec (w := w) hrec hlen
  cases single with
  | false => exact ⟨fun v hv => (hends v hv).1, hpair⟩
  | true =>
      refine ⟨?_, List.pairwise_cons.mpr ⟨fun v hv => (hends v hv).2, hpair⟩⟩
      rintro v (_ | ⟨_, hv⟩)
      · rfl
      · exact (hends v hv).1

theorem windowsFrom_ends : ∀ {Bytes done : List Str}, (∀ t ∈ Bytes, t ≠ []) →
    (∀ t ∈ done, t ≠ []) →
    ∀ v ∈ windowsFrom single Bytes (recent done) done.flatten.length,
      done.flatten.length < v.2 + v.1.length
  | [], _, _, _ => by simp [windowsFrom]
  | w :: Bytes, done, hne, hdone => by
      have hlen := List.length_pos_iff.mpr (hne w List.mem_cons_self)
      intro v hv
      rw [windowsFrom_cons, List.mem_append] at hv
      rcases hv with hv | hv
      · have hend := (windowsAt_ends single hdone w).1 v hv
        omega
      · have hlater := windowsFrom_ends
          (fun t ht => hne t (List.mem_cons_of_mem _ ht))
          (List.forall_mem_append.mpr ⟨hdone, by simpa using hne w List.mem_cons_self⟩)
          v hv
        simp only [List.flatten_append, List.flatten_singleton,
          List.length_append] at hlater
        omega

theorem windowsFrom_visited : ∀ {Bytes done : List Str}, (∀ t ∈ Bytes, t ≠ []) →
    (∀ t ∈ done, t ≠ []) →
    (windowsFrom single Bytes (recent done) done.flatten.length).Pairwise
      VisitedBefore
  | [], _, _, _ => by simp [windowsFrom]
  | w :: Bytes, done, hne, hdone => by
      have hne' : ∀ t ∈ Bytes, t ≠ [] :=
        fun t ht => hne t (List.mem_cons_of_mem _ ht)
      have hdone' : ∀ t ∈ done ++ [w], t ≠ [] :=
        List.forall_mem_append.mpr ⟨hdone, by simpa using hne w List.mem_cons_self⟩
      obtain ⟨hends, hpair⟩ := windowsAt_ends single hdone w
      rw [windowsFrom_cons]
      refine List.pairwise_append.mpr ⟨?_, windowsFrom_visited hne' hdone', ?_⟩
      · apply List.Pairwise.imp_of_mem _ hpair
        intro v v' hv hv' hlt
        exact Or.inr ⟨(hends v hv).trans (hends v' hv').symm, hlt⟩
      · intro v hv v' hv'
        left
        have hend := hends v hv
        have hlater := windowsFrom_ends hne' hdone' v' hv'
        simp only [List.flatten_append, List.flatten_singleton,
          List.length_append] at hlater
        omega

end Order

/-! ## Which windows there are -/

/-- The fewest characters of a window. -/
def leastChars (single : Bool) : ℕ := if single then 1 else 2

/-- A window of the sentence: up to 32 neighbouring characters, with the byte
position of the first. -/
def WindowAt (single : Bool) (Bytes : List Str) (w : Str) (p : ℕ) : Prop :=
  ∃ pre mid suf, Bytes = pre ++ mid ++ suf ∧ leastChars single ≤ mid.length ∧
    mid.length ≤ gWordLength ∧ w = mid.flatten ∧ p = pre.flatten.length

/-- A suffix of `recent done` is a suffix of `done` of at most 31 characters. -/
theorem suffix_recent {done mid : List Str} :
    (∃ l, recent done = l ++ mid) ↔
      mid.length ≤ gWordLength - 1 ∧ ∃ l, done = l ++ mid := by
  constructor
  · rintro ⟨l, hl⟩
    have hlen : (recent done).length ≤ gWordLength - 1 := by
      simp only [recent, List.length_drop]
      omega
    have hdone : done = done.take (done.length - (gWordLength - 1)) ++ recent done :=
      (List.take_append_drop _ _).symm
    rw [hl, List.length_append] at hlen
    refine ⟨by omega, done.take (done.length - (gWordLength - 1)) ++ l, ?_⟩
    rw [List.append_assoc, ← hl, ← hdone]
  · rintro ⟨hlen, l, rfl⟩
    refine ⟨l.drop ((l ++ mid).length - (gWordLength - 1)), ?_⟩
    rw [recent]
    apply List.drop_append_of_le_length
    rw [List.length_append]
    omega

theorem mem_windowsAt {single : Bool} {done : List Str} {w j : Str} {q : ℕ} :
    (j, q) ∈ windowsAt single done w ↔ ∃ pre mid, done ++ [w] = pre ++ mid ∧
      leastChars single ≤ mid.length ∧ mid.length ≤ gWordLength ∧
      j = mid.flatten ∧ q = pre.flatten.length := by
  rw [windowsAt, List.mem_append, mem_windowsBack]
  constructor
  · rintro (hone | ⟨l, mid, hrec, hne, rfl, rfl⟩)
    · cases single with
      | false => simp at hone
      | true =>
          obtain ⟨rfl, rfl⟩ : j = w ∧ q = done.flatten.length := by
            simpa using hone
          exact ⟨done, [j], rfl, le_rfl, by simp [gWordLength], by simp, rfl⟩
    · obtain ⟨hlen, l', rfl⟩ := suffix_recent.mp ⟨l, hrec⟩
      have hpos := List.length_pos_iff.mpr hne
      refine ⟨l', mid ++ [w], by simp, ?_, ?_, by simp, by simp⟩
      · cases single <;> simp [leastChars]
        omega
      · simp only [gWordLength, List.length_append, List.length_singleton] at *
        omega
  · rintro ⟨pre, mid, hsplit, hlo, hhi, rfl, rfl⟩
    have hne : mid ≠ [] := by
      rintro rfl
      cases single <;> simp [leastChars] at hlo
    obtain ⟨mid', last, rfl⟩ := (List.eq_nil_or_concat' mid).resolve_left hne
    rw [← List.append_assoc] at hsplit
    obtain ⟨rfl, hlast⟩ := List.append_inj' hsplit rfl
    obtain rfl : w = last := by simpa using hlast
    by_cases hmid : mid' = []
    · subst hmid
      cases single with
      | false => simp [leastChars] at hlo
      | true => exact Or.inl (by simp)
    · right
      rw [List.length_append, List.length_singleton] at hhi
      have hrec : mid'.length ≤ gWordLength - 1 := by omega
      obtain ⟨l, hl⟩ := suffix_recent.mpr ⟨hrec, pre, rfl⟩
      exact ⟨l, mid', hl, hmid, by simp, by simp⟩

theorem mem_windowsFrom (single : Bool) (v : Str × ℕ) :
    ∀ Bytes done : List Str,
      v ∈ windowsFrom single Bytes (recent done) done.flatten.length ↔
        ∃ rd w suf, Bytes = rd ++ w :: suf ∧ v ∈ windowsAt single (done ++ rd) w
  | [], done => by simp [windowsFrom]
  | w :: Bytes, done => by
      rw [windowsFrom_cons, List.mem_append, mem_windowsFrom single v Bytes]
      constructor
      · rintro (hv | ⟨rd, w', suf, rfl, hv⟩)
        · exact ⟨[], w, Bytes, rfl, by simpa using hv⟩
        · exact ⟨w :: rd, w', suf, rfl, by simpa using hv⟩
      · rintro ⟨rd, w', suf, hsplit, hv⟩
        cases rd with
        | nil =>
            obtain ⟨rfl, rfl⟩ := List.cons.inj hsplit
            exact Or.inl (by simpa using hv)
        | cons x rd =>
            obtain ⟨rfl, rfl⟩ := List.cons.inj hsplit
            exact Or.inr ⟨rd, w', suf, rfl, by simpa using hv⟩

/-- **The loops visit exactly the windows of the sentence.** -/
theorem mem_windows {single : Bool} {Bytes : List Str} {w : Str} {p : ℕ} :
    (w, p) ∈ windows single Bytes ↔ WindowAt single Bytes w p := by
  have hfrom := mem_windowsFrom single (w, p) Bytes []
  rw [windows, show ([] : List Str) = recent [] from rfl]
  refine hfrom.trans ?_
  simp only [List.nil_append, mem_windowsAt]
  constructor
  · rintro ⟨rd, c, suf, rfl, pre, mid, hsplit, hlo, hhi, hw, hp⟩
    refine ⟨pre, mid, suf, ?_, hlo, hhi, hw, hp⟩
    rw [← hsplit]
    simp
  · rintro ⟨pre, mid, suf, rfl, hlo, hhi, hw, hp⟩
    have hne : mid ≠ [] := by
      rintro rfl
      cases single <;> simp [leastChars] at hlo
    obtain ⟨mid', last, rfl⟩ := (List.eq_nil_or_concat' mid).resolve_left hne
    exact ⟨pre ++ mid', last, suf, by simp, pre, mid' ++ [last], by simp, hlo,
      hhi, hw, hp⟩

theorem windows_visited (single : Bool) {Bytes : List Str}
    (hne : ∀ t ∈ Bytes, t ≠ []) : (windows single Bytes).Pairwise VisitedBefore :=
  windowsFrom_visited hne (List.forall_mem_nil _)

end WaiNative

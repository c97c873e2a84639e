import Mathlib.Data.List.Infix
import Mathlib.Tactic.Common

/-!
# Byte strings

The part of `std::string` and of `boost::algorithm::split` that a byte-level
program uses. A string is its list of bytes; an operation that throws returns
an `Option`. Nothing here knows of words or dictionaries.

- `substr` and its slices;
- `find` and `replace_all`;
- `split`: the pieces between maximal runs of delimiters
  (`token_compress_on`), and `tokens`, the non-empty ones, which are
  compositional at every delimiter.
-/

namespace WaiNative.Cxx

/-- `std::string`: a sequence of bytes. -/
abbrev Str := List UInt8

/-! ## Substrings -/

/-- The bytes `[pos, pos + n)` of `s`, cut off at its end. -/
def slice (s : Str) (pos n : ℕ) : Str := (s.drop pos).take n

/-- `s.substr(pos, n)`; `none` is the exception `std::out_of_range`. -/
def substr (s : Str) (pos n : ℕ) : Option Str :=
  if pos ≤ s.length then some (slice s pos n) else none

theorem substr_eq_some {s : Str} {pos n : ℕ} (h : pos ≤ s.length) :
    substr s pos n = some (slice s pos n) := if_pos h

theorem length_slice {s : Str} {pos n : ℕ} (h : pos + n ≤ s.length) :
    (slice s pos n).length = n := by
  simp [slice]
  omega

theorem slice_append_append (p m s : Str) :
    slice (p ++ m ++ s) p.length m.length = m := by
  simp [slice]

/-- Two slices that touch join to one. -/
theorem slice_add (s : Str) (pos m n : ℕ) :
    slice s pos m ++ slice s (pos + m) n = slice s pos (m + n) := by
  simp [slice, List.take_add, List.drop_drop]

theorem slice_all (s : Str) : slice s 0 s.length = s := by simp [slice]

/-! ## Searching -/

/-- `s.find(word)`; `none` is `npos`. -/
def find (s word : Str) : Option ℕ := s.tails.findIdx? (fun t => word.isPrefixOf t)

theorem find_isSome {s word : Str} : (find s word).isSome = true ↔ word <:+: s := by
  rw [find, List.findIdx?_isSome, List.any_eq_true]
  constructor
  · rintro ⟨t, ht, hword⟩
    exact (List.isPrefixOf_iff_prefix.mp hword).isInfix.trans
      ((List.mem_tails _ _).mp ht).isInfix
  · intro h
    obtain ⟨t, hword, ht⟩ := List.infix_iff_prefix_suffix.mp h
    exact ⟨t, (List.mem_tails _ _).mpr ht, List.isPrefixOf_iff_prefix.mpr hword⟩

/-- `s.find(word, pos)`; `none` is `npos`. -/
def find_from (s word : Str) (pos : ℕ) : Option ℕ :=
  if pos ≤ s.length then (find (s.drop pos) word).map (fun i => pos + i) else none

/-- The first place at or behind `pos` where the word stands. -/
theorem find_from_eq_some {s word : Str} {pos p : ℕ} : find_from s word pos = some p ↔
    (pos ≤ p ∧ p ≤ s.length ∧ word <+: s.drop p) ∧
      ∀ q, pos ≤ q → q < p → ¬ word <+: s.drop q := by
  rw [find_from]
  split
  · rename_i hpos
    rw [find, Option.map_eq_some_iff]
    simp only [List.findIdx?_eq_some_iff_getElem, List.length_tails, List.length_drop,
      List.getElem_tails, List.drop_drop, List.isPrefixOf_iff_prefix]
    constructor
    · rintro ⟨i, ⟨hlt, hword, hbefore⟩, rfl⟩
      refine ⟨⟨by omega, by omega, hword⟩, ?_⟩
      intro q hq hlt'
      have h := hbefore (q - pos) (by omega)
      rwa [show pos + (q - pos) = q by omega] at h
    · rintro ⟨⟨hle, hlen, hword⟩, hbefore⟩
      refine ⟨p - pos, ⟨by omega, by rwa [show pos + (p - pos) = p by omega], ?_⟩, by omega⟩
      intro j hj
      exact hbefore (pos + j) (by omega) (by omega)
  · simp only [reduceCtorEq, false_iff, not_and]
    rintro ⟨hle, hlen, -⟩
    omega

theorem find_from_eq_none {s word : Str} {pos : ℕ} : find_from s word pos = none ↔
    ∀ p, pos ≤ p → p ≤ s.length → ¬ word <+: s.drop p := by
  rw [find_from]
  split
  · rename_i hpos
    rw [Option.map_eq_none_iff, find, List.findIdx?_eq_none_iff]
    simp only [List.mem_tails, Bool.eq_false_iff, ne_eq, List.isPrefixOf_iff_prefix]
    constructor
    · intro h p hle _
      have hsuffix := List.drop_suffix (p - pos) (s.drop pos)
      rw [List.drop_drop, show pos + (p - pos) = p by omega] at hsuffix
      exact h _ hsuffix
    · intro h t ht
      have hi := List.suffix_iff_eq_drop.mp ht
      have hlen := ht.length_le
      rw [List.drop_drop] at hi
      rw [List.length_drop] at hi hlen
      rw [hi]
      exact h _ (by omega) (by omega)
  · simp only [true_iff]
    intro p hle hlen
    omega

/-- `s.find_last_of(c)` for one byte; `none` is `npos`. -/
def find_last_of (s : Str) (c : UInt8) : Option ℕ :=
  (s.reverse.findIdx? (fun x => x == c)).map (fun i => s.length - 1 - i)

/-- `s.pop_back()`; undefined for the empty string, hence `none`. -/
def pop_back (s : Str) : Option Str := if s = [] then none else some s.dropLast

/-- Replace from the left; the number of bytes still to be passed over is that of
the last occurrence. -/
def replaceFrom (word format : Str) : ℕ → Str → Str
  | _, [] => []
  | skip + 1, _ :: cs => replaceFrom word format skip cs
  | 0, c :: cs =>
      if word ≠ [] ∧ word.isPrefixOf (c :: cs) then
        format ++ replaceFrom word format (word.length - 1) cs
      else c :: replaceFrom word format 0 cs

/-- `boost::algorithm::replace_all(s, word, format)`. -/
def replace_all (s word format : Str) : Str := replaceFrom word format 0 s

/-! ## Splitting -/

/-- Prepend a byte to the first token. -/
def consHead (c : UInt8) : List Str → List Str
  | [] => [[c]]
  | t :: ts => (c :: t) :: ts

/-- `boost::split` with `token_compress_on`, one byte at a time: a run of
delimiters ends one token and starts the next. The flag says that the previous
byte was a delimiter. -/
def splitFrom (p : UInt8 → Bool) : Bool → Str → List Str
  | _, [] => [[]]
  | prev, c :: cs =>
      if p c then
        if prev then splitFrom p true cs else [] :: splitFrom p true cs
      else consHead c (splitFrom p false cs)

/-- `boost::split(out, s, p, token_compress_on)`. The result is never empty: a
string without delimiters is its own only token, and a leading or trailing run
leaves an empty token at that end. -/
def split (p : UInt8 → Bool) (s : Str) : List Str := splitFrom p false s

/-- The non-empty tokens of a string. -/
def tokens (p : UInt8 → Bool) (s : Str) : List Str :=
  (split p s).filter (fun t => !t.isEmpty)

variable {p : UInt8 → Bool}

theorem splitFrom_ne_nil : ∀ (prev : Bool) (s : Str), splitFrom p prev s ≠ []
  | _, [] => by simp [splitFrom]
  | prev, c :: cs => by
      unfold splitFrom
      split
      · split
        · exact splitFrom_ne_nil true cs
        · simp
      · cases h : splitFrom p false cs <;> simp [consHead]

/-- Within delimiter-free text nothing is split. -/
theorem splitFrom_append_free {a : Str} (ha : ∀ c ∈ a, p c = false) (s : Str) :
    splitFrom p false (a ++ s) =
      (a ++ (splitFrom p false s).head (splitFrom_ne_nil _ _)) ::
        (splitFrom p false s).tail := by
  induction a with
  | nil => simp
  | cons c cs ih =>
      have hc := ha c List.mem_cons_self
      have hcs := ih (fun x hx => ha x (List.mem_cons_of_mem _ hx))
      simp [splitFrom, hc, hcs, consHead]

/-- Text without a delimiter is one token. -/
theorem split_free {a : Str} (ha : ∀ c ∈ a, p c = false) : split p a = [a] := by
  have h := splitFrom_append_free ha []
  simpa [split, splitFrom] using h

/-- Two delimiter-free texts around one delimiter are two tokens. -/
theorem split_pair {a b : Str} {d : UInt8} (ha : ∀ c ∈ a, p c = false)
    (hd : p d = true) (hb : ∀ c ∈ b, p c = false) (hne : b ≠ []) :
    split p (a ++ d :: b) = [a, b] := by
  obtain ⟨x, xs, rfl⟩ := List.exists_cons_of_ne_nil hne
  have hx := hb x List.mem_cons_self
  have hxs : splitFrom p false xs = [xs] :=
    split_free (fun c hc => hb c (List.mem_cons_of_mem _ hc))
  rw [split, splitFrom_append_free ha]
  simp [splitFrom, hd, hx, hxs, consHead]

/-- The two flags differ by an empty first token only. -/
theorem tokens_splitFrom (s : Str) :
    (splitFrom p true s).filter (fun t => !t.isEmpty) = tokens p s := by
  cases s with
  | nil => rfl
  | cons c cs =>
      by_cases hc : p c = true
      · simp [tokens, split, splitFrom, hc]
      · simp [tokens, split, splitFrom, hc]

theorem tokens_cons_delim {d : UInt8} (hd : p d = true) (s : Str) :
    tokens p (d :: s) = tokens p s := by
  rw [← tokens_splitFrom s]
  simp [tokens, split, splitFrom, hd]

/-- Delimiter-free text before a delimiter is a token of its own. -/
theorem tokens_free_delim {a : Str} {d : UInt8} (ha : ∀ c ∈ a, p c = false)
    (hne : a ≠ []) (hd : p d = true) (s : Str) :
    tokens p (a ++ d :: s) = a :: tokens p s := by
  rw [← tokens_splitFrom s, tokens, split, splitFrom_append_free ha]
  simp [splitFrom, hd, hne]

theorem tokens_self {t : Str} (hne : t ≠ []) (hfree : ∀ c ∈ t, p c = false) :
    tokens p t = [t] := by
  simp [tokens, split_free hfree, hne]

/-- A delimiter ends what stands before it, whatever that is. -/
theorem tokens_append_delim {d : UInt8} (hd : p d = true) (s : Str) : ∀ a : Str,
    tokens p (a ++ d :: s) = tokens p a ++ tokens p s := by
  intro a
  induction hn : a.length using Nat.strong_induction_on generalizing a with
  | _ n ih =>
      cases hfind : a.find? p with
      | none =>
          have hfree : ∀ c ∈ a, p c = false := by simpa using List.find?_eq_none.mp hfind
          by_cases hne : a = []
          · subst hne
            exact tokens_cons_delim hd s
          · rw [tokens_free_delim hfree hne hd, tokens_self hne hfree, List.singleton_append]
      | some c =>
          -- cut at the first delimiter of `a`
          obtain ⟨hc, b, r, rfl, hb⟩ := List.find?_eq_some_iff_append.mp hfind
          have hfree : ∀ x ∈ b, p x = false := fun x hx => by simpa using hb x hx
          have hrest := ih r.length (by simp [← hn]; omega) r rfl
          rw [List.append_assoc, List.cons_append]
          by_cases hne : b = []
          · subst hne
            rw [List.nil_append, List.nil_append, tokens_cons_delim hc, tokens_cons_delim hc,
              hrest]
          · rw [tokens_free_delim hfree hne hc, tokens_free_delim hfree hne hc, hrest,
              List.cons_append]

theorem splitFrom_free {t : Str} : ∀ (s : Str) (prev : Bool), t ∈ splitFrom p prev s →
    ∀ c ∈ t, p c = false
  | [], _, ht => by
      rw [splitFrom, List.mem_singleton] at ht
      subst ht
      exact List.forall_mem_nil _
  | x :: xs, prev, ht => by
      rw [splitFrom] at ht
      split at ht
      · split at ht
        · exact splitFrom_free xs true ht
        · rcases List.mem_cons.mp ht with rfl | ht
          · exact List.forall_mem_nil _
          · exact splitFrom_free xs true ht
      · rename_i hx
        cases hrest : splitFrom p false xs with
        | nil => exact absurd hrest (splitFrom_ne_nil _ _)
        | cons t' ts =>
            rw [hrest, consHead] at ht
            rcases List.mem_cons.mp ht with rfl | ht
            · exact List.forall_mem_cons.mpr ⟨by simpa using hx,
                splitFrom_free xs false (by rw [hrest]; exact List.mem_cons_self)⟩
            · exact splitFrom_free xs false (by rw [hrest]; exact List.mem_cons_of_mem _ ht)

/-- A token is not empty and holds no delimiter. -/
theorem mem_tokens {s t : Str} (ht : t ∈ tokens p s) : t ≠ [] ∧ ∀ c ∈ t, p c = false := by
  obtain ⟨hsplit, hne⟩ := List.mem_filter.mp ht
  exact ⟨by simpa using hne, splitFrom_free s false hsplit⟩

/-- **Texts are the tokens of themselves exactly when none is empty or holds a
delimiter.** -/
theorem flatMap_tokens_iff {l : List Str} :
    l.flatMap (tokens p) = l ↔ ∀ t ∈ l, t ≠ [] ∧ ∀ c ∈ t, p c = false := by
  constructor
  · intro heq t ht
    rw [← heq] at ht
    obtain ⟨s, -, hts⟩ := List.mem_flatMap.mp ht
    exact mem_tokens hts
  · intro h
    induction l with
    | nil => rfl
    | cons t l ih =>
        obtain ⟨hne, hfree⟩ := h t List.mem_cons_self
        rw [List.flatMap_cons, tokens_self hne hfree,
          ih (fun x hx => h x (List.mem_cons_of_mem _ hx)), List.singleton_append]

/-- Bounds that no empty token meets can be put on the non-empty ones. -/
theorem filter_split {q : Str → Bool} (hq : q [] = false) (s : Str) :
    (split p s).filter q = (tokens p s).filter q := by
  rw [tokens, List.filter_filter]
  apply List.filter_congr
  intro t _
  cases t with
  | nil => simp [hq]
  | cons c cs => simp

/-! ## Replacing -/

section Replace

variable {word format : Str}

theorem replaceFrom_skip (s : Str) : ∀ a : Str,
    replaceFrom word format a.length (a ++ s) = replaceFrom word format 0 s
  | [] => rfl
  | _ :: a => replaceFrom_skip s a

/-- An occurrence at the front is replaced. -/
theorem replace_all_word (hne : word ≠ []) (s : Str) :
    replace_all (word ++ s) word format = format ++ replace_all s word format := by
  obtain ⟨c, cs, rfl⟩ := List.exists_cons_of_ne_nil hne
  have hbegins : (c :: cs).isPrefixOf (c :: (cs ++ s)) = true := by
    rw [List.isPrefixOf_iff_prefix]
    exact List.prefix_append (c :: cs) s
  rw [replace_all, List.cons_append, replaceFrom, if_pos ⟨hne, hbegins⟩]
  exact congrArg (format ++ ·) (replaceFrom_skip s cs)

/-- Text in which no occurrence begins is copied. -/
theorem replace_all_free : ∀ {a s : Str},
    (∀ x y, a = x ++ y → y ≠ [] → ¬ word <+: y ++ s) →
    replace_all (a ++ s) word format = a ++ replace_all s word format
  | [], _, _ => rfl
  | c :: a, s, h => by
      have hno : ¬ (word ≠ [] ∧ word.isPrefixOf (c :: (a ++ s)) = true) := by
        rintro ⟨-, hbegins⟩
        exact h [] (c :: a) rfl (List.cons_ne_nil _ _) (List.isPrefixOf_iff_prefix.mp hbegins)
      rw [replace_all, List.cons_append, replaceFrom, if_neg hno]
      show c :: replace_all (a ++ s) word format = _
      rw [replace_all_free fun x y hxy hy => h (c :: x) y (by rw [hxy]; rfl) hy]
      rfl

end Replace

/-! ## Which bytes a result has -/

/-- Replacing brings in no bytes but those of the replacement. -/
theorem mem_replaceFrom {word format : Str} {b : UInt8} : ∀ (s : Str) (skip : ℕ),
    b ∈ replaceFrom word format skip s → b ∈ s ∨ b ∈ format
  | [], skip => by
      intro hb
      cases skip <;> exact absurd hb List.not_mem_nil
  | c :: cs, skip + 1 => by
      intro hb
      rw [replaceFrom] at hb
      exact (mem_replaceFrom cs skip hb).imp_left (List.mem_cons_of_mem _)
  | c :: cs, 0 => by
      intro hb
      rw [replaceFrom] at hb
      split at hb
      · rcases List.mem_append.mp hb with hb | hb
        · exact Or.inr hb
        · exact (mem_replaceFrom cs _ hb).imp_left (List.mem_cons_of_mem _)
      · rcases List.mem_cons.mp hb with rfl | hb
        · exact Or.inl List.mem_cons_self
        · exact (mem_replaceFrom cs 0 hb).imp_left (List.mem_cons_of_mem _)

theorem mem_consHead {c b : UInt8} {t : Str} {ts : List Str} (ht : t ∈ consHead c ts)
    (hb : b ∈ t) : b = c ∨ ∃ t' ∈ ts, b ∈ t' := by
  cases ts with
  | nil =>
      rw [consHead, List.mem_singleton] at ht
      subst ht
      exact Or.inl (List.mem_singleton.mp hb)
  | cons t' ts =>
      rcases List.mem_cons.mp ht with rfl | ht
      · exact (List.mem_cons.mp hb).imp_right (fun hb => ⟨t', List.mem_cons_self, hb⟩)
      · exact Or.inr ⟨t, List.mem_cons_of_mem _ ht, hb⟩

/-- Splitting brings in no bytes. -/
theorem mem_splitFrom {t : Str} {b : UInt8} (hb : b ∈ t) : ∀ (s : Str) (prev : Bool),
    t ∈ splitFrom p prev s → b ∈ s
  | [], _ => by
      intro ht
      rw [splitFrom, List.mem_singleton] at ht
      subst ht
      exact absurd hb List.not_mem_nil
  | c :: cs, prev => by
      intro ht
      rw [splitFrom] at ht
      split at ht
      · split at ht
        · exact List.mem_cons_of_mem _ (mem_splitFrom hb cs true ht)
        · rcases List.mem_cons.mp ht with rfl | ht
          · exact absurd hb List.not_mem_nil
          · exact List.mem_cons_of_mem _ (mem_splitFrom hb cs true ht)
      · rcases mem_consHead ht hb with rfl | ⟨t', ht', hb'⟩
        · exact List.mem_cons_self
        · exact List.mem_cons_of_mem _ (mem_splitFrom hb' cs false ht')

theorem mem_replace_all {s word format : Str} {b : UInt8} (hb : b ∈ replace_all s word format) :
    b ∈ s ∨ b ∈ format := mem_replaceFrom s 0 hb

theorem mem_split {s t : Str} {b : UInt8} (ht : t ∈ split p s) (hb : b ∈ t) : b ∈ s :=
  mem_splitFrom hb s false ht

end WaiNative.Cxx

import WaiNative.Dataset.WikiDumper

/-!
# `ipfs-wikidump`: reading a range of a dump

`WikiDumper` of `ipfs-wikidump` reads 128 MiB of the dump from the offset where it starts,
and then its stream ends, so that the last line may be cut, also inside a character.

- `decodeFrom_take`, `readLines_take`: what is read of a stream that is cut;
- `Reads`: the lines of a range are those of the dump, but for a part of the last one;
- `Placed`: where the reader stands, as seen from the set of pages that are settled;
- `Placed.open_line`, `Placed.close_line`: what a line does to that, if nothing stands behind `</page>` on a line.
-/

namespace WaiNative

open Cxx

/-! ## A stream that is cut -/

section Decoding

/-- Behind the first byte of a sequence: the character will not be an ASCII character. -/
structure Utf8Decoder.Open (d : Utf8Decoder) : Prop where
  needed : d.needed ≠ 0
  last : d.needed = 1 → 2 ≤ d.codePoint
  next : d.needed ≠ 1 → ∀ b, d.lower ≤ b → b ≤ d.upper → 2 ≤ d.codePoint * 64 + b % 64

theorem firstByte_open (b : ℕ) :
    (firstByte b).2 = .start ∨ ((firstByte b).1 = [] ∧ (firstByte b).2.Open) := by
  unfold firstByte
  split
  · exact Or.inl rfl
  split
  · refine Or.inr ⟨rfl, ⟨one_ne_zero, fun _ => ?_, fun h => absurd rfl h⟩⟩
    show 2 ≤ b % 32
    omega
  split
  · refine Or.inr ⟨rfl, ⟨two_ne_zero, fun h => absurd h (Nat.succ_ne_self 1), ?_⟩⟩
    intro _ c (hlo : (if b = 0xE0 then 0xA0 else 0x80) ≤ c)
      (hup : c ≤ if b = 0xED then 0x9F else 0xBF)
    show 2 ≤ b % 16 * 64 + c % 64
    split at hlo <;> split at hup <;> omega
  split
  · refine Or.inr ⟨rfl, ⟨three_ne_zero, fun h => absurd h (by simp), ?_⟩⟩
    intro _ c (hlo : (if b = 0xF0 then 0x90 else 0x80) ≤ c)
      (hup : c ≤ if b = 0xF4 then 0x8F else 0xBF)
    show 2 ≤ b % 8 * 64 + c % 64
    split at hlo <;> split at hup <;> omega
  · exact Or.inl rfl

/-- A byte of a sequence ends it with no ASCII character, or leaves it open. -/
theorem nextByte_open {d : Utf8Decoder} (h : d.Open) (b : ℕ) :
    (∃ c rest, (nextByte d b).1 = c :: rest ∧ 0x80 ≤ c) ∨
      ((nextByte d b).1 = [] ∧ (nextByte d b).2.Open) := by
  rw [nextByte, if_neg h.needed]
  split
  · rename_i hin
    split
    · rename_i hone
      have hpoint := h.last hone
      exact Or.inl ⟨_, [], rfl, by omega⟩
    · rename_i hmore
      have hpoint := h.next hmore b hin.1 hin.2
      have hneeded := h.needed
      refine Or.inr ⟨rfl, ⟨?_, fun _ => hpoint, fun _ c _ _ => ?_⟩⟩
      · show d.needed - 1 ≠ 0
        omega
      · show 2 ≤ (d.codePoint * 64 + b % 64) * 64 + c % 64
        omega
  · exact Or.inl ⟨replacement, _, rfl, by decide⟩

/-- An open sequence gives a character that is not an ASCII character. -/
theorem decodeFrom_open {d : Utf8Decoder} (h : d.Open) (bs : Str) :
    ∃ c rest, decodeFrom d bs = c :: rest ∧ 0x80 ≤ c := by
  induction bs generalizing d with
  | nil => exact ⟨replacement, [], by rw [decodeFrom, if_neg h.needed], by decide⟩
  | cons b bs ih =>
      rw [decodeFrom]
      rcases nextByte_open h b.toNat with ⟨c, rest, hout, hc⟩ | ⟨hout, hopen⟩
      · exact ⟨c, rest ++ decodeFrom _ bs, by rw [hout, List.cons_append], hc⟩
      · obtain ⟨c, rest, hrest, hc⟩ := ih hopen
        exact ⟨c, rest, by rw [hout, List.nil_append, hrest], hc⟩

/-- The machine is outside a sequence, or behind its first byte. -/
def Utf8Decoder.Ready (d : Utf8Decoder) : Prop := d = .start ∨ d.Open

theorem nextByte_ready {d : Utf8Decoder} (h : d.Ready) (b : ℕ) : (nextByte d b).2.Ready := by
  have hfirst : (firstByte b).2.Ready := (firstByte_open b).imp id And.right
  unfold nextByte
  split
  · exact hfirst
  split
  · rename_i hneeded hin
    rcases h with rfl | hopen
    · exact absurd rfl hneeded
    split
    · exact Or.inl rfl
    · rename_i hmore
      have hnext := nextByte_open hopen b
      rw [nextByte, if_neg hneeded, if_pos hin, if_neg hmore] at hnext
      rcases hnext with ⟨c, rest, hout, -⟩ | hnext
      · cases hout
      · exact Or.inr hnext.2
  · exact hfirst

/-- A stream that is cut: what it gives is the beginning of what all of it gives. If it is
cut inside a character, a replacement character stands in its place. -/
theorem decodeFrom_take (bs : Str) : ∀ {d : Utf8Decoder}, d.Ready → ∀ n,
    decodeFrom d (bs.take n) <+: decodeFrom d bs ∨
      ∃ text c rest, decodeFrom d (bs.take n) = text ++ [replacement] ∧
        decodeFrom d bs = text ++ c :: rest ∧ 0x80 ≤ c := by
  induction bs with
  | nil =>
      intro d _ n
      rw [List.take_nil]
      exact Or.inl (List.prefix_refl _)
  | cons b bs ih =>
      intro d hready n
      cases n with
      | zero =>
          rw [List.take_zero]
          rcases hready with rfl | hopen
          · exact Or.inl (List.nil_prefix)
          · obtain ⟨c, rest, hout, hc⟩ := decodeFrom_open hopen (b :: bs)
            refine Or.inr ⟨[], c, rest, ?_, hout, hc⟩
            rw [decodeFrom, if_neg hopen.needed]
            rfl
      | succ n =>
          rw [List.take_succ_cons, decodeFrom, decodeFrom]
          rcases ih (nextByte_ready hready b.toNat) n with hpre | ⟨text, c, rest, hcut, hall, hc⟩
          · exact Or.inl ((List.prefix_append_right_inj _).mpr hpre)
          · refine Or.inr ⟨(nextByte d b.toNat).1 ++ text, c, rest, ?_, ?_, hc⟩
            · rw [hcut, List.append_assoc]
            · rw [hall, List.append_assoc]

end Decoding

namespace WikiDump

/-! ## The lines of a range -/

section Ranges

/-- The beginning of a line; a character that is cut became a replacement character. -/
def IsPart (q line : List ℕ) : Prop :=
  q <+: line ∨ ∃ p, q = p ++ [replacement] ∧ p <+: line ∧ p ≠ line

/-- Some of the lines from the first, and maybe a part of the next one. -/
inductive Reads : List (List ℕ) → List (List ℕ) → Prop
  | nil (full : List (List ℕ)) : Reads [] full
  | part {q line : List ℕ} (full : List (List ℕ)) (h : IsPart q line) : Reads [q] (line :: full)
  | cons {rest full : List (List ℕ)} (line : List ℕ) (h : Reads rest full) :
      Reads (line :: rest) (line :: full)

variable {text text' : List ℕ}

variable (text) in
/-- What is in the buffer begins a line. -/
theorem readLines_buffer : ∀ (sawReturn : Bool) {buffer : List ℕ}, buffer ≠ [] →
    ∃ l rest, readLines sawReturn buffer text = (buffer ++ l) :: rest := by
  induction text with
  | nil =>
      intro sawReturn buffer hne
      exact ⟨[], [], by rw [readLines, if_neg hne, List.append_nil]⟩
  | cons c text ih =>
      intro sawReturn buffer hne
      rw [readLines]
      split
      · split
        · exact ih false hne
        · exact ⟨[], _, by rw [List.append_nil]⟩
      split
      · exact ⟨[], _, by rw [List.append_nil]⟩
      · obtain ⟨l, rest, hlines⟩ := ih false (List.append_ne_nil_of_right_ne_nil buffer
          (List.cons_ne_nil c []))
        exact ⟨c :: l, rest, by rw [hlines, List.append_assoc, List.singleton_append]⟩

/-- A character that ends no line. -/
theorem readLines_letter {c : ℕ} (hc : 0x80 ≤ c) (sawReturn : Bool) (buffer : List ℕ) :
    readLines sawReturn buffer (c :: text) = readLines false (buffer ++ [c]) text := by
  have hLF : c ≠ LF := by
    rintro rfl
    exact absurd hc (by decide)
  have hCR : c ≠ CR := by
    rintro rfl
    exact absurd hc (by decide)
  rw [readLines, if_neg hLF, if_neg hCR]

/-- Text in front of both. -/
theorem Reads.append (h : ∀ sawReturn buffer,
    Reads (readLines sawReturn buffer text) (readLines sawReturn buffer text')) :
    ∀ (front : List ℕ) (sawReturn : Bool) (buffer : List ℕ),
      Reads (readLines sawReturn buffer (front ++ text))
        (readLines sawReturn buffer (front ++ text')) := by
  intro front
  induction front with
  | nil => exact h
  | cons c front ih =>
      intro sawReturn buffer
      rw [List.cons_append, List.cons_append, readLines, readLines]
      split
      · split
        · exact ih false buffer
        · exact .cons buffer (ih false [])
      split
      · exact .cons buffer (ih true [])
      · exact ih false (buffer ++ [c])

variable (text) in
/-- The text ends. -/
theorem reads_nil (sawReturn : Bool) (buffer : List ℕ) :
    Reads (readLines sawReturn buffer []) (readLines sawReturn buffer text) := by
  rw [readLines]
  split
  · exact .nil _
  · rename_i hne
    obtain ⟨l, rest, hlines⟩ := readLines_buffer text sawReturn hne
    rw [hlines]
    exact .part rest (Or.inl (List.prefix_append buffer l))

/-- The text ends inside a character. -/
theorem reads_replacement {c : ℕ} (hc : 0x80 ≤ c) (sawReturn : Bool) (buffer : List ℕ) :
    Reads (readLines sawReturn buffer [replacement])
      (readLines sawReturn buffer (c :: text)) := by
  have hne (x : ℕ) : buffer ++ [x] ≠ [] :=
    List.append_ne_nil_of_right_ne_nil buffer (List.cons_ne_nil x [])
  obtain ⟨l, rest, hlines⟩ := readLines_buffer text false (hne c)
  rw [readLines_letter (by decide), readLines_letter hc, hlines, readLines, if_neg (hne _),
    List.append_assoc]
  refine .part rest (Or.inr ⟨buffer, rfl, List.prefix_append buffer _, ?_⟩)
  rw [ne_eq, List.self_eq_append_right]
  exact List.cons_ne_nil c l

/-- The lines of a stream that is cut. -/
theorem readLines_take (bytes : Str) (n : ℕ) :
    Reads (readLines false [] (decodeUtf8 (bytes.take n)))
      (readLines false [] (decodeUtf8 bytes)) := by
  rcases decodeFrom_take bytes (Or.inl rfl) n with ⟨rest, hrest⟩ | ⟨text, c, rest, hcut, hall, hc⟩
  · rw [decodeUtf8, decodeUtf8, ← hrest]
    have hreads := Reads.append (fun _ _ => reads_nil rest _ _)
      (decodeFrom .start (bytes.take n)) false []
    rwa [List.append_nil] at hreads
  · rw [decodeUtf8, decodeUtf8, hcut, hall]
    exact Reads.append (fun _ _ => reads_replacement hc _ _) text false []

/-- `end - start` of the options -/
def readSize : ℕ := 1024 * 1024 * 128

/-- The constructor, with the last byte of the options. -/
def WikiDumper.range (file : Str) (start : ℕ) : WikiDumper :=
  WikiDumper.new (file.take (start + readSize + 1)) start

/-- The range goes to the end of the dump. -/
def Whole (file : Str) (start : ℕ) : Prop := file.length ≤ start + readSize + 1

instance (file : Str) (start : ℕ) : Decidable (Whole file start) :=
  inferInstanceAs (Decidable (_ ≤ _))

theorem range_whole {file : Str} {start : ℕ} (h : Whole file start) :
    WikiDumper.range file start = WikiDumper.new file start := by
  rw [WikiDumper.range, List.take_of_length_le h]

theorem reads_range (file : Str) (start : ℕ) :
    Reads (WikiDumper.range file start).rest (WikiDumper.new file start).rest := by
  show Reads (readLines false [] (decodeUtf8 ((file.take (start + readSize + 1)).drop start)))
    (readLines false [] (decodeUtf8 (file.drop start)))
  rw [Nat.add_assoc, List.drop_take, Nat.add_sub_cancel_left]
  exact readLines_take (file.drop start) _

end Ranges

/-! ## The last line of a range -/

section LastLine

variable {q line part : List ℕ}

/-- Nothing stands behind `</page>` on the line. -/
def ClosesLast (line : List ℕ) : Prop := ∀ p, p <+: line → closeTag <:+: p → p = line

instance (line : List ℕ) : Decidable (ClosesLast line) :=
  decidable_of_iff (∀ p ∈ line.inits, closeTag <:+: p → p = line)
    ⟨fun h p hp => h p ((List.mem_inits p line).mpr hp),
      fun h p hp => h p ((List.mem_inits p line).mp hp)⟩

/-- A tag in front of a letter that it does not have. -/
theorem infix_of_concat {tag p : List ℕ} {x : ℕ} (hne : tag ≠ []) (hx : x ∉ tag)
    (h : tag <:+: p ++ [x]) : tag <:+: p := by
  rcases List.infix_concat_iff.mp h with hsuffix | hin
  · rcases List.suffix_concat_iff.mp hsuffix with hnil | ⟨t, rfl, -⟩
    · exact absurd hnil hne
    · exact absurd (List.mem_append_right t (List.mem_singleton_self x)) hx
  · exact hin

/-- A part of a line with the closing tag is all of it. -/
theorem IsPart.eq_of_close (h : IsPart q line) (hlast : ClosesLast line)
    (hclose : closeTag <:+: q) : q = line := by
  rcases h with hpart | ⟨p, rfl, hpart, hne⟩
  · exact hlast q hpart hclose
  · exact absurd (hlast p hpart (infix_of_concat (by decide) (by decide) hclose)) hne

/-- What is left of a line that is cut at its beginning. -/
theorem ClosesLast.cut (h : ClosesLast line) (hpart : part <:+ line) (n : ℕ) :
    ClosesLast (List.replicate n replacement ++ part) := by
  intro p hp hclose
  have htag (m : ℕ) {t : List ℕ} (ht : closeTag <:+: List.replicate m replacement ++ t) :
      closeTag <:+: t := infix_of_replicate (by decide) (by decide) m ht
  rcases List.prefix_or_prefix_of_prefix hp (List.prefix_append _ part) with hshort | ⟨p', rfl⟩
  · -- in replacement characters there is no tag
    have hin := hclose.trans hshort.isInfix
    rw [← List.append_nil (List.replicate n replacement)] at hin
    exact absurd (List.infix_nil.mp (htag n hin)) (by decide)
  · obtain ⟨front, rfl⟩ := hpart
    have hp' := (List.prefix_append_right_inj _).mp hp
    have hin : closeTag <:+: front ++ p' :=
      (htag n hclose).trans (List.suffix_append front p').isInfix
    have hall := h (front ++ p') ((List.prefix_append_right_inj front).mpr hp') hin
    rw [List.append_cancel_left hall]

end LastLine

/-! ## Where a reader stands -/

section Places

variable {lines : List (List ℕ)} {settled settled' : List ℕ → Prop} {d : WikiDumper}
  {whole : Prop} {line : List ℕ} {rest full : List (List ℕ)} {pos start k : ℕ}

/-- The pages that begin in front of the offset are settled. -/
def Covers (lines : List (List ℕ)) (settled : List ℕ → Prop) (pos : ℕ) : Prop :=
  ∃ delivered, Stored lines delivered pos ∧ ∀ x ∈ delivered, settled x.1

/-- A reader of the whole dump, with the pages behind it settled. -/
def Stands (lines : List (List ℕ)) (settled : List ℕ → Prop) (d : WikiDumper) : Prop :=
  ∃ delivered k, (Midway lines delivered d k ∨ Cut lines delivered d k) ∧
    ∀ x ∈ delivered, settled x.1

/-- A reader of a range stands where one of the whole dump does, or at the end of a range
that is not whole. -/
inductive Placed (whole : Prop) (lines : List (List ℕ)) (settled : List ℕ → Prop)
    (d : WikiDumper) : Prop
  | reading (full : List (List ℕ)) (hreads : Reads d.rest full) (hwhole : whole → d.rest = full)
      (hstands : Stands lines settled { d with rest := full })
  | ended (hend : d.rest = []) (hnot : ¬ whole)

/-- An offset in front of one that is covered. -/
theorem Covers.le {pos' : ℕ} (h : Covers lines settled pos) (hle : pos' ≤ pos) :
    Covers lines settled pos' := by
  obtain ⟨delivered, hstored, hall⟩ := h
  refine ⟨delivered, ⟨hle.trans hstored.le, ?_, ?_⟩, hall⟩
  · exact fun i j hpage hlt => hstored.before i j hpage (hlt.trans_le hle)
  · rcases hstored.last with hzero | ⟨i, j, hpage, hmem, hpos⟩
    · exact Or.inl (Nat.le_zero.mp (hle.trans hzero.le))
    · exact Or.inr ⟨i, j, hpage, hmem, hle.trans hpos⟩

theorem Covers.page_settled (h : Covers lines settled pos) {i j : ℕ} (hpage : IsPage lines i j)
    (hlt : offset lines i < pos) : settled (pageText lines i j) := by
  obtain ⟨delivered, hstored, hall⟩ := h
  exact hall _ (hstored.before i j hpage hlt)

theorem stored_zero : Stored lines [] 0 :=
  ⟨Nat.zero_le _, fun _ _ _ hlt => absurd hlt (Nat.not_lt_zero _), Or.inl rfl⟩

theorem covers_zero : Covers lines settled 0 :=
  ⟨[], stored_zero, fun _ hx => absurd hx List.not_mem_nil⟩

theorem Stands.mono (h : Stands lines settled d) (hsub : ∀ p, settled p → settled' p) :
    Stands lines settled' d := by
  obtain ⟨delivered, k, hplace, hall⟩ := h
  exact ⟨delivered, k, hplace, fun x hx => hsub _ (hall x hx)⟩

theorem Placed.mono (h : Placed whole lines settled d) (hsub : ∀ p, settled p → settled' p) :
    Placed whole lines settled' d := by
  cases h with
  | reading full hreads hwhole hstands => exact .reading full hreads hwhole (hstands.mono hsub)
  | ended hend hnot => exact .ended hend hnot

theorem Stands.placed (h : Stands lines settled (WikiDumper.new (dumpFile lines) start)) :
    Placed (Whole (dumpFile lines) start) lines settled
      (WikiDumper.range (dumpFile lines) start) := by
  refine .reading _ (reads_range (dumpFile lines) start) ?_ h
  intro hwhole
  rw [range_whole hwhole]

/-- A run that starts where the pages in front are settled. -/
theorem Covers.stands (hd : WellFormed lines) (h : Covers lines settled start)
    (hsafe : SafeStart (dumpFile lines) start) :
    Stands lines settled (WikiDumper.new (dumpFile lines) start) := by
  obtain ⟨delivered, hstored, hall⟩ := h
  obtain ⟨k, hplace⟩ := hstored.place hd hsafe
  exact ⟨delivered, k, hplace, hall⟩

/-- The first run. -/
theorem stands_zero (hd : WellFormed lines) :
    Stands lines settled (WikiDumper.new (dumpFile lines) 0) := by
  have hzero : offset lines 0 = 0 := by
    rw [offset, textOf_self]
    rfl
  have hstored : Stored lines [] (offset lines 0) := by
    rw [hzero]
    exact stored_zero
  have hmid := hstored.midway hd (Nat.zero_le _)
  rw [hzero] at hmid
  exact ⟨[], 0, Or.inl hmid, fun _ hx => absurd hx List.not_mem_nil⟩

/-- The next line of the whole dump. -/
theorem Stands.turn (hd : WellFormed lines) (hlast : ∀ l ∈ lines, ClosesLast l)
    (h : Stands lines settled d) (hrest : d.rest = line :: full) :
    ClosesLast line ∧ ∃ delivered k,
      Turn lines delivered ({ d with rest := full }.collect line) line k ∧
        full = lines.drop (k + 1) ∧ ∀ x ∈ delivered, settled x.1 := by
  obtain ⟨delivered, k, hmid | hcut, hall⟩ := h
  · obtain ⟨hlt, rfl, rfl⟩ := hmid.next hrest
    refine ⟨?_, delivered, k, hmid.turn hd hlt, rfl, hall⟩
    rw [getD_of_lt hlt]
    exact hlast _ (List.getElem_mem hlt)
  · obtain ⟨hturn, hfull⟩ := hcut.turn hd hrest
    refine ⟨?_, delivered, k, hturn, hfull, hall⟩
    obtain ⟨n, part, hfirst, hpart, -⟩ := hcut.rest
    obtain ⟨rfl, -⟩ := List.cons.inj (hrest.symm.trans hfirst)
    refine ClosesLast.cut ?_ hpart n
    rw [getD_of_lt hcut.lt]
    exact hlast _ (List.getElem_mem hcut.lt)

/-- The line that a reader of a range is given is the next one, or a part of it that closes
no page, and then its range ends. -/
theorem Placed.next (hd : WellFormed lines) (hlast : ∀ l ∈ lines, ClosesLast l)
    (h : Placed whole lines settled d) (hrest : d.rest = line :: rest) :
    (∃ full delivered k, Reads rest full ∧ (whole → rest = full) ∧
      Turn lines delivered ({ d with rest := full }.collect line) line k ∧
        full = lines.drop (k + 1) ∧ ∀ x ∈ delivered, settled x.1) ∨
    (rest = [] ∧ ¬ whole ∧ ¬ closeTag <:+: line) := by
  cases h with
  | ended hend _ =>
      rw [hend] at hrest
      cases hrest
  | reading full hreads hwhole hstands =>
      rw [hrest] at hreads hwhole
      cases hreads with
      | cons _ hreads =>
          obtain ⟨-, delivered, k, hturn, hfull, hall⟩ := hstands.turn hd hlast rfl
          exact Or.inl ⟨_, delivered, k, hreads, fun hw => (List.cons.inj (hwhole hw)).2, hturn,
            hfull, hall⟩
      | part _ hpart =>
          rename_i whole_line full'
          obtain ⟨hcl, delivered, k, hturn, hfull, hall⟩ := hstands.turn hd hlast rfl
          by_cases hclose : closeTag <:+: line
          · obtain rfl := hpart.eq_of_close hcl hclose
            exact Or.inl ⟨_, delivered, k, .nil _, fun hw => (List.cons.inj (hwhole hw)).2, hturn,
              hfull, hall⟩
          · by_cases hw : whole
            · obtain ⟨rfl, rfl⟩ := List.cons.inj (hwhole hw)
              exact Or.inl ⟨_, delivered, k, .nil _, fun _ => rfl, hturn, hfull, hall⟩
            · exact Or.inr ⟨rfl, hw, hclose⟩

/-- **A line inside or outside a page.** -/
theorem Placed.open_line (hd : WellFormed lines) (hlast : ∀ l ∈ lines, ClosesLast l)
    (h : Placed whole lines settled d) (hrest : d.rest = line :: rest)
    (hclose : ¬ closeTag <:+: line) :
    Placed whole lines settled ({ d with rest := rest }.collect line) := by
  rcases h.next hd hlast hrest with
    ⟨full, delivered, k, hreads, hwhole, hturn, hfull, hall⟩ | ⟨hnil, hnot, -⟩
  · exact .reading full hreads hwhole ⟨delivered, k + 1, Or.inl (hturn.midway hfull hclose), hall⟩
  · exact .ended hnil hnot

/-- **A line that closes a page.** The count behind it is covered when the page is settled. -/
theorem Placed.close_line (hd : WellFormed lines) (hlast : ∀ l ∈ lines, ClosesLast l)
    (h : Placed whole lines settled d) (hrest : d.rest = line :: rest)
    (hclose : closeTag <:+: line) (hsub : ∀ p, settled p → settled' p)
    (hpage : settled' ({ d with rest := rest }.collect line).titlePage) :
    Covers lines settled' ((({ d with rest := rest }.collect line).pos +
      (encodeText ({ d with rest := rest }.collect line).titlePage).length)) ∧
    Placed whole lines settled' ⟨rest, false, [], ({ d with rest := rest }.collect line).pos +
      (encodeText ({ d with rest := rest }.collect line).titlePage).length⟩ := by
  rcases h.next hd hlast hrest with
    ⟨full, delivered, k, hreads, hwhole, hturn, hfull, hall⟩ | ⟨-, -, hnot⟩
  · have hmid := hturn.midway_of_close hfull hclose
    have hsettled : ∀ x ∈ delivered ++ [(({ d with rest := rest }.collect line).titlePage,
        full.length)], settled' x.1 := by
      intro x hx
      rcases List.mem_append.mp hx with hx | hx
      · exact hsub _ (hall x hx)
      · rw [List.mem_singleton.mp hx]
        exact hpage
    exact ⟨⟨_, hmid.stored hd (hturn.closes hclose) hturn.pos, hsettled⟩,
      .reading full hreads hwhole ⟨_, k + 1, Or.inl hmid, hsettled⟩⟩
  · exact absurd hclose hnot

/-- At the end of a whole range all pages are settled. -/
theorem Placed.finished (h : Placed whole lines settled d) (hwhole : whole) (hend : d.rest = [])
    {i j : ℕ} (hpage : IsPage lines i j) : settled (pageText lines i j) := by
  cases h with
  | ended _ hnot => exact absurd hwhole hnot
  | reading full _ hall hstands =>
      obtain rfl : full = [] := (hall hwhole).symm.trans hend
      obtain ⟨delivered, k, hmid | hcut, hsettled⟩ := hstands
      · have hbehind := List.drop_eq_nil_iff.mp hmid.rest.symm
        exact hsettled _ (hmid.behind i j hpage (hpage.lt.trans_le hbehind))
      · obtain ⟨n, part, hrest, -⟩ := hcut.rest
        cases hrest

end Places

end WikiDump

end WaiNative

import WaiNative.Segment.PredictionTree

/-!
# `splitComplexWordSeq`: a sequence with too many readings

The sequence is cut at its heaviest word into what stands before it, the word, and what
stands behind it. The backward walk stops on the last word that starts earlier, and that
word is left out. The forward walk reads on until a word starts at the end of the
heaviest or later, whether or not there is one, and that word is left out too.

- `findTop_eq`: the word at which the loop cuts;
- `splitComplexWordSeq_eq_some`: the parts, and what is in none of them;
- `splitComplexWordSeq_isSome_iff`: when the walk stays inside the sequence;
- `splitsAround_iff`: when the parts are what they should be.
-/

namespace WaiNative.PredictionTree

open Cxx

/-! ## The cut -/

/-- The loop for `topIt`, with the index of the word it stands on. -/
def findTop : List WordElement → ℕ → ℕ × ℚ → ℕ × ℚ
  | [], _, acc => acc
  | elem :: rest, it, (topIt, topWeight) =>
      findTop rest (it + 1) (if elem.weight > topWeight then (it, elem.weight)
        else (topIt, topWeight))

/-- The walk of `itStop`, over the words up to it, last one first: what is left are the
words before it. -/
def findStop (posTop : ℤ) : List WordElement → List WordElement
  | [] => []
  | [_] => []
  | itStop :: before => if posTop > itStop.pos then before.reverse else findStop posTop before

/-- The walk of `nextIt`, over the words behind it: `nextIt++` compares the word it
leaves, so at the end the next comparison reads past it (`none`). -/
def findNext (nextPosStop : ℤ) : List WordElement → Option (List WordElement)
  | [] => none
  | elem :: rest => if elem.pos ≥ nextPosStop then some (elem :: rest) else findNext nextPosStop rest

/-- `splitComplexWordSeq`; `none` where an iterator is read at the end. -/
def splitComplexWordSeq (clearWordSeq : List WordElement) : Option (List (List WordElement)) :=
  let topIt := (findTop clearWordSeq 0 (0, 0)).1
  match clearWordSeq[topIt]? with
  | none => none
  | some topElem =>
      -- `itStop` never is the end, so both parts are always there
      let sepBefore := findStop topElem.pos (clearWordSeq.take (topIt + 1)).reverse
      match findNext topElem.stop (clearWordSeq.drop (topIt + 1)) with
      | none => none
      | some nextIt =>
          if nextIt.tail = [] then some [sepBefore, [topElem]]
          else some [sepBefore, [topElem], nextIt.tail]

/-- The sequences that `QiangbaoWord::calcPrediction` goes on with. -/
def recursesOn (splitedSeq : List (List WordElement)) : List (List WordElement) :=
  if splitedSeq.length > 2 then splitedSeq else []

/-! ## What the cut should do -/

/-- The first of the words of the greatest weight. -/
def Heaviest (words : List WordElement) (topElem : WordElement) : Prop :=
  ∃ before after, words = before ++ topElem :: after ∧
    (∀ w ∈ before, w.weight < topElem.weight) ∧ ∀ w ∈ after, w.weight ≤ topElem.weight

/-- `w` ends at or before the start of `top`, or starts at or after its end. -/
def Apart (w topElem : WordElement) : Prop := w.stop ≤ topElem.pos ∨ topElem.stop ≤ w.pos

/-- The walks stay inside the sequence, the heaviest word is a part of its own, and every
other word apart from it is in the other parts as often as in the sequence; none of these
words is missing from what the caller goes on with. -/
def SplitsAround (words : List WordElement) : Prop :=
  ∃ topElem, Heaviest words topElem ∧ ∃ parts, splitComplexWordSeq words = some parts ∧
    (∃ l r, parts = l ++ [topElem] :: r ∧
      ∀ w, Apart w topElem → (l ++ r).flatten.count w = (words.erase topElem).count w) ∧
    ∀ w ∈ words, Apart w topElem → w ∈ (recursesOn parts).flatten

/-! ## The walks -/

section Walks

variable {words : List WordElement}

/-- The loop stands on the heaviest word of those with a weight above `topWeight`. -/
theorem findTop_eq : ∀ {words : List WordElement} {it topIt : ℕ} {topWeight : ℚ},
    (findTop words it (topIt, topWeight) = (topIt, topWeight) ∧
      ∀ w ∈ words, w.weight ≤ topWeight) ∨
    ∃ before topElem after, words = before ++ topElem :: after ∧
      findTop words it (topIt, topWeight) = (it + before.length, topElem.weight) ∧
      topWeight < topElem.weight ∧ (∀ w ∈ before, w.weight < topElem.weight) ∧
      ∀ w ∈ after, w.weight ≤ topElem.weight
  | [], _, _, _ => Or.inl ⟨rfl, by simp⟩
  | elem :: rest, it, topIt, topWeight => by
      rw [findTop]
      by_cases hw : elem.weight > topWeight
      · rw [if_pos hw]
        have ih := @findTop_eq rest (it + 1) it elem.weight
        rcases ih with ⟨heq, hle⟩ | ⟨before, topElem, after, rfl, heq, hlt, hbefore, hafter⟩
        · exact Or.inr ⟨[], elem, rest, rfl, heq, hw, by simp, hle⟩
        · refine Or.inr ⟨elem :: before, topElem, after, rfl, ?_, hw.trans hlt, ?_, hafter⟩
          · rw [heq, List.length_cons, Nat.add_right_comm, Nat.add_assoc]
          · exact List.forall_mem_cons.mpr ⟨hlt, hbefore⟩
      · rw [if_neg hw]
        have ih := @findTop_eq rest (it + 1) topIt topWeight
        rcases ih with ⟨heq, hle⟩ | ⟨before, topElem, after, rfl, heq, hlt, hbefore, hafter⟩
        · exact Or.inl ⟨heq, List.forall_mem_cons.mpr ⟨not_lt.mp hw, hle⟩⟩
        · refine Or.inr ⟨elem :: before, topElem, after, rfl, ?_, hlt, ?_, hafter⟩
          · rw [heq, List.length_cons, Nat.add_right_comm, Nat.add_assoc]
          · exact List.forall_mem_cons.mpr ⟨(not_lt.mp hw).trans_lt hlt, hbefore⟩

/-- The backward walk keeps some of the words, in order. -/
theorem findStop_sublist (posTop : ℤ) : ∀ l : List WordElement,
    (findStop posTop l).Sublist l.tail.reverse
  | [] => by simp [findStop]
  | [_] => by simp [findStop]
  | itStop :: w :: before => by
      rw [findStop]
      · split
        · exact List.Sublist.refl _
        · refine (findStop_sublist posTop (w :: before)).trans ?_
          simp
      · simp

/-- The forward walk ends on the first word that starts at the stop or later. -/
theorem findNext_eq_some {nextPosStop : ℤ} : ∀ {l r : List WordElement},
    findNext nextPosStop l = some r ↔
      ∃ between next rest, l = between ++ next :: rest ∧ r = next :: rest ∧
        (∀ w ∈ between, w.pos < nextPosStop) ∧ nextPosStop ≤ next.pos
  | [], r => by simp [findNext]
  | elem :: l, r => by
      rw [findNext]
      split
      · next h =>
          constructor
          · rintro ⟨⟩
            exact ⟨[], elem, l, rfl, rfl, by simp, h⟩
          · rintro ⟨between, next, rest, heq, rfl, hlt, -⟩
            rcases between with _ | ⟨w, between⟩
            · rw [List.nil_append] at heq
              rw [heq]
            · obtain ⟨rfl, -⟩ := List.cons.inj heq
              exact absurd (hlt elem List.mem_cons_self) (not_lt.mpr h)
      · next h =>
          rw [findNext_eq_some]
          constructor
          · rintro ⟨between, next, rest, rfl, rfl, hlt, hle⟩
            exact ⟨elem :: between, next, rest, rfl, rfl,
              List.forall_mem_cons.mpr ⟨not_le.mp h, hlt⟩, hle⟩
          · rintro ⟨between, next, rest, heq, rfl, hlt, hle⟩
            rcases between with _ | ⟨w, between⟩
            · obtain ⟨rfl, -⟩ := List.cons.inj heq
              exact absurd hle h
            · obtain ⟨rfl, rfl⟩ := List.cons.inj heq
              exact ⟨between, next, rest, rfl, rfl, (List.forall_mem_cons.mp hlt).2, hle⟩

theorem findNext_isSome_iff {nextPosStop : ℤ} : ∀ {l : List WordElement},
    (findNext nextPosStop l).isSome ↔ ∃ w ∈ l, nextPosStop ≤ w.pos
  | [] => by simp [findNext]
  | elem :: l => by
      rw [findNext]
      split
      · next h => simpa using Or.inl h
      · next h =>
          rw [findNext_isSome_iff]
          simp [not_le.mp h]

end Walks

/-! ## The parts -/

section Parts

variable {words before after : List WordElement} {topElem : WordElement}

/-- The word at which the loop cuts: the heaviest, or the first where no weight is above
zero. -/
theorem exists_cut (hne : words ≠ []) : ∃ before topElem after,
    words = before ++ topElem :: after ∧ (findTop words 0 (0, 0)).1 = before.length ∧
      (Heaviest words topElem ∨ before = [] ∧ ∀ w ∈ words, w.weight ≤ 0) := by
  rcases @findTop_eq words 0 0 0 with
    ⟨heq, hle⟩ | ⟨before, topElem, after, rfl, heq, hlt, hbefore, hafter⟩
  · obtain ⟨first, rest, rfl⟩ := List.exists_cons_of_ne_nil hne
    exact ⟨[], first, rest, rfl, by rw [heq]; rfl, Or.inr ⟨rfl, hle⟩⟩
  · refine ⟨before, topElem, after, rfl, by rw [heq]; simp, Or.inl ?_⟩
    exact ⟨before, after, rfl, hbefore, hafter⟩

/-- `splitComplexWordSeq` once the cut is known. -/
theorem splitComplexWordSeq_eq
    (hcut : (findTop (before ++ topElem :: after) 0 (0, 0)).1 = before.length) :
    splitComplexWordSeq (before ++ topElem :: after) =
      (findNext topElem.stop after).map (fun nextIt =>
        if nextIt.tail = [] then [findStop topElem.pos (topElem :: before.reverse), [topElem]]
        else [findStop topElem.pos (topElem :: before.reverse), [topElem], nextIt.tail]) := by
  have hget : (before ++ topElem :: after)[before.length]? = some topElem := by simp
  have htake : ((before ++ topElem :: after).take (before.length + 1)).reverse =
      topElem :: before.reverse := by
    rw [List.take_append]
    simp
  have hdrop : (before ++ topElem :: after).drop (before.length + 1) = after := by
    rw [List.drop_append]
    simp
  simp only [splitComplexWordSeq, hcut, hget, htake, hdrop]
  rcases findNext topElem.stop after with _ | nextIt
  · rfl
  · exact (apply_ite some _ _ _).symm

/-- **The walks stay inside the sequence when some word behind the cut starts at its end
or later.** -/
theorem splitComplexWordSeq_isSome_iff
    (hcut : (findTop (before ++ topElem :: after) 0 (0, 0)).1 = before.length) :
    (splitComplexWordSeq (before ++ topElem :: after)).isSome ↔
      ∃ w ∈ after, topElem.stop ≤ w.pos := by
  rw [splitComplexWordSeq_eq hcut, Option.isSome_map, findNext_isSome_iff]

/-- **The parts, and what they leave out**: between the cut and the last part always the
first word that starts at the end of the cut or later. -/
theorem splitComplexWordSeq_eq_some {parts : List (List WordElement)}
    (h : splitComplexWordSeq words = some parts) :
    ∃ before topElem between next rest sepBefore,
      words = before ++ topElem :: (between ++ next :: rest) ∧
      (Heaviest words topElem ∨ before = [] ∧ ∀ w ∈ words, w.weight ≤ 0) ∧
      sepBefore.Sublist before ∧ (∀ w ∈ between, w.pos < topElem.stop) ∧
      topElem.stop ≤ next.pos ∧
      parts = sepBefore :: [topElem] :: (if rest = [] then [] else [rest]) := by
  have hne : words ≠ [] := by
    rintro rfl
    exact absurd h (by simp [splitComplexWordSeq])
  obtain ⟨before, topElem, after, rfl, hcut, hpick⟩ := exists_cut hne
  rw [splitComplexWordSeq_eq hcut] at h
  obtain ⟨nextIt, hnext, rfl⟩ := Option.map_eq_some_iff.mp h
  obtain ⟨between, next, rest, rfl, rfl, hlt, hle⟩ := findNext_eq_some.mp hnext
  have hsub := findStop_sublist topElem.pos (topElem :: before.reverse)
  rw [List.tail_cons, List.reverse_reverse] at hsub
  refine ⟨before, topElem, between, next, rest, _, rfl, hpick, hsub, hlt, hle, ?_⟩
  rw [List.tail_cons]
  split <;> rfl

end Parts

/-! ## When the cut is right -/

section Right

variable {words : List WordElement} {topElem : WordElement}

theorem Heaviest.mem (h : Heaviest words topElem) : topElem ∈ words := by
  obtain ⟨before, after, rfl, -, -⟩ := h
  simp

theorem Heaviest.le (h : Heaviest words topElem) : ∀ w ∈ words, w.weight ≤ topElem.weight := by
  obtain ⟨before, after, rfl, hbefore, hafter⟩ := h
  intro w hw
  rcases List.mem_append.mp hw with hw | hw
  · exact (hbefore w hw).le
  · rcases List.mem_cons.mp hw with rfl | hw
    · exact le_rfl
    · exact hafter w hw

theorem Heaviest.find (h : Heaviest words topElem) :
    words.find? (fun w => w.weight = topElem.weight) = some topElem := by
  obtain ⟨before, after, rfl, hbefore, -⟩ := h
  have hnone : before.find? (fun w => w.weight = topElem.weight) = none := by
    rw [List.find?_eq_none]
    intro w hw
    simpa using (hbefore w hw).ne
  rw [List.find?_append, hnone]
  simp

/-- There is one first word of the greatest weight. -/
theorem Heaviest.unique {other : WordElement} (h : Heaviest words topElem)
    (h' : Heaviest words other) : topElem = other := by
  have hfind := h.find
  rw [le_antisymm (h'.le _ h.mem) (h.le _ h'.mem), h'.find] at hfind
  exact (Option.some.inj hfind).symm

/-- Every word apart from the heaviest one is in the parts as often as in the sequence. -/
theorem count_parts {l r : List (List WordElement)} {w : WordElement}
    (hmem : topElem ∈ words) (h : (l ++ r).flatten.count w = (words.erase topElem).count w) :
    (l ++ [topElem] :: r).flatten.count w = words.count w := by
  rw [(List.perm_cons_erase hmem).count_eq w, List.count_cons, ← h]
  simp only [List.flatten_append, List.flatten_cons, List.count_append, List.count_cons,
    List.count_nil]
  omega

/-- What a cut that goes well looks like: no weight is above zero, so it is made at the
first word, the heaviest is the last one and gets the last part to itself, and the words
left out overlap it. -/
def AloneAtTheEnd (words : List WordElement) : Prop :=
  (∀ w ∈ words, w.weight ≤ 0) ∧ ∃ first mid skipped topElem,
    words = first :: (mid ++ [skipped, topElem]) ∧ Heaviest words topElem ∧
    first.weight < topElem.weight ∧ (∀ w ∈ mid, w.pos < first.stop) ∧
    first.stop ≤ skipped.pos ∧ ∀ w ∈ mid ++ [skipped], ¬ Apart w topElem

/-- Without a weight above zero the cut is made at the first word, and what lies between
its end and the next word behind it is left out. -/
theorem splitComplexWordSeq_alone {first skipped topElem : WordElement}
    {mid : List WordElement}
    (hweight : ∀ w ∈ first :: (mid ++ [skipped, topElem]), w.weight ≤ 0)
    (hmid : ∀ w ∈ mid, w.pos < first.stop) (hskipped : first.stop ≤ skipped.pos) :
    splitComplexWordSeq (first :: (mid ++ [skipped, topElem])) =
      some [[], [first], [topElem]] := by
  have hcut : (findTop ([] ++ first :: (mid ++ [skipped, topElem])) 0 (0, 0)).1 =
      ([] : List WordElement).length := by
    rcases @findTop_eq (first :: (mid ++ [skipped, topElem])) 0 0 0 with
      ⟨heq, -⟩ | ⟨before, w, after, heq, -, hpos, -, -⟩
    · rw [List.nil_append, heq]
      rfl
    · exact absurd (hweight w (by rw [heq]; simp)) (not_le.mpr hpos)
  have hnext : findNext first.stop (mid ++ [skipped, topElem]) = some [skipped, topElem] :=
    findNext_eq_some.mpr ⟨mid, skipped, [topElem], rfl, rfl, hmid, hskipped⟩
  have heq := splitComplexWordSeq_eq hcut
  rw [hnext] at heq
  exact heq

theorem AloneAtTheEnd.splits (h : AloneAtTheEnd words) : SplitsAround words := by
  obtain ⟨hweight, first, mid, skipped, topElem, rfl, htop, hlt, hmid, hskipped, hover⟩ := h
  have hend : mid ++ [skipped, topElem] = (mid ++ [skipped]) ++ [topElem] := by simp
  refine ⟨topElem, htop, _, splitComplexWordSeq_alone hweight hmid hskipped,
    ⟨[[], [first]], [], rfl, ?_⟩, ?_⟩
  · intro w hw
    have hperm : (first :: (mid ++ [skipped, topElem])).Perm
        (topElem :: first :: (mid ++ [skipped])) := by
      rw [hend, ← List.cons_append]
      exact List.perm_append_singleton _ _
    have hzero : (mid ++ [skipped]).count w = 0 :=
      List.count_eq_zero.mpr fun hmem => hover w hmem hw
    rw [(hperm.erase topElem).count_eq w, List.erase_cons_head, List.count_cons, hzero]
    simp [List.count_cons]
  · intro w hw hapart
    show w ∈ [first, topElem]
    rcases List.mem_cons.mp hw with rfl | hw
    · exact List.mem_cons_self
    · rw [hend] at hw
      rcases List.mem_append.mp hw with hw | hw
      · exact absurd hapart (hover w hw)
      · exact List.mem_cons_of_mem _ hw

/-- The first word that starts at the end of the cut or later is in no part. -/
theorem count_next_lt {before between rest sepBefore : List WordElement}
    {first next : WordElement} (hsub : sepBefore.Sublist before) :
    (sepBefore :: [first] :: (if rest = [] then [] else [rest])).flatten.count next <
      (before ++ first :: (between ++ next :: rest)).count next := by
  have hle := hsub.count_le next
  have hrest : (if rest = [] then [] else [rest]).flatten = rest := by
    split
    · next h => rw [h]; rfl
    · simp
  simp only [List.flatten_cons, hrest, List.count_append, List.count_cons, List.count_nil,
    beq_self_eq_true, if_true]
  omega

theorem SplitsAround.alone (h : SplitsAround words) : AloneAtTheEnd words := by
  obtain ⟨topElem, htop, parts, hparts, ⟨l, r, hlr, hcount⟩, -⟩ := h
  have hcounts : ∀ w, Apart w topElem → parts.flatten.count w = words.count w := by
    intro w hw
    rw [hlr]
    exact count_parts htop.mem (hcount w hw)
  have hself : [topElem] ∈ parts := by simp [hlr]
  obtain ⟨before, first, between, next, rest, sepBefore, rfl, hpick, hsub, hlt, hle, rfl⟩ :=
    splitComplexWordSeq_eq_some hparts
  have hnext : ¬ Apart next topElem := fun hapart =>
    (count_next_lt hsub).ne (hcounts next hapart)
  have hne : first ≠ topElem := by
    rintro rfl
    exact hnext (Or.inr hle)
  rcases hpick with hpick | ⟨rfl, hweight⟩
  · exact absurd (hpick.unique htop) hne
  obtain rfl : sepBefore = [] := List.sublist_nil.mp hsub
  have hrest : rest = [topElem] := by
    rcases rest with _ | ⟨w, rest⟩
    · simp [hne.symm] at hself
    · simpa [hne.symm, eq_comm] using hself
  subst hrest
  refine ⟨hweight, first, between, next, topElem, by simp, htop, ?_, hlt, hle, ?_⟩
  · refine lt_of_le_of_ne (htop.le _ (by simp)) fun heq => hne ?_
    refine Heaviest.unique ⟨[], _, rfl, by simp, ?_⟩ htop
    intro w hw
    rw [heq]
    exact htop.le w (List.mem_append_right _ (List.mem_cons_of_mem _ hw))
  · intro w hw hapart
    have heq := hcounts w hapart
    have hpos : 0 < (between ++ [next]).count w := List.count_pos_iff.mpr hw
    simp only [List.count_append, List.count_cons, List.count_nil] at hpos
    simp only [List.flatten_cons, List.flatten_nil, List.nil_append, List.count_append,
      List.count_cons, List.count_nil, List.cons_ne_self, if_false] at heq
    omega

end Right

/-- **`splitComplexWordSeq` cuts around the heaviest word in one case only**, and never
when some word has a weight above zero. -/
theorem splitsAround_iff (seq : WordSeq) :
    SplitsAround seq.words ↔ AloneAtTheEnd seq.words :=
  ⟨SplitsAround.alone, AloneAtTheEnd.splits⟩

/-- Four words side by side, the second one the heaviest. -/
def fourSeq : WordSeq where
  words := [⟨[97], 0, 1, 1, 1, 0⟩, ⟨[98], 1, 1, 2, 2, 0⟩, ⟨[99], 2, 1, 1, 1, 0⟩,
    ⟨[100], 3, 1, 1, 1, 0⟩]
  sorted := by simp [Multimap.Sorted]

/-- The first and the third word are lost. -/
theorem not_splitsAround_four :
    splitComplexWordSeq fourSeq.words =
        some [[], [⟨[98], 1, 1, 2, 2, 0⟩], [⟨[100], 3, 1, 1, 1, 0⟩]] ∧
      ¬ SplitsAround fourSeq.words := by
  constructor
  · with_unfolding_all decide
  · intro h
    exact absurd (h.alone.1 ⟨[97], 0, 1, 1, 1, 0⟩ List.mem_cons_self) (not_le.mpr zero_lt_one)

end WaiNative.PredictionTree

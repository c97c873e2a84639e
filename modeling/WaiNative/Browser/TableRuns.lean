import WaiNative.Browser.WaiParrot
import WaiNative.Theory.MaximalRuns

/-!
# Which runs `WaiBase.article` passes on

`CJK_Table` has a key for each character of its blocks, also for those that a JavaScript
string holds as two units. `article` looks up `doc[i]`, one unit.

- `calls_eq`: what `article` passes to `onSentence`;
- `runsDelivered_iff`: these are the maximal runs of table characters exactly when the
  document has no two-unit character of the table.
-/

namespace WaiNative

open MaximalRuns

namespace WaiBase

/-! ## Characters and calls -/

/-- The Unicode characters of a string: a surrogate pair is one. -/
def codePoints : JsString → List JsString
  | [] => []
  | [u] => [[u]]
  | u :: v :: rest =>
      if isLeadSurrogate u && isTrailSurrogate v then [u, v] :: codePoints rest
      else [u] :: codePoints (v :: rest)

/-- A run of units as the array of one-unit strings that `cjkBuffer` is. -/
def letters (run : JsString) : List JsString := run.map (fun u => [u])

/-- The arguments of `onSentence`, in order. -/
def calls (doc : JsString) : List (List JsString) := (collectRuns doc [] []).map letters

/-- `article` calls `onSentence` with these arguments and no others. -/
theorem calls_eq (wai : WaiBase) (doc : JsString) (onSentence : JsString → Collect → Collect) :
    wai.article doc onSentence = wai.mergeCollect_ (FilterOutInside_ (FilterOutLowFreq_
      ((calls doc).foldl (fun collect sentence => onSentence sentence.flatten collect)
        JsObject.empty))) := by
  have hflat : ∀ run : JsString, (letters run).flatten = run := by
    intro run
    induction run with
    | nil => rfl
    | cons u run ih => exact congrArg (List.cons u) ih
  rw [calls, List.foldl_map]
  simp only [hflat]
  rfl

/-- One call for each maximal run of table characters, from left to right, with the list
of its characters. -/
def RunsDelivered (doc : JsString) : Prop :=
  ∃ places : List (ℕ × ℕ),
    (∀ i n, (i, n) ∈ places ↔ IsRun CJK_Table (codePoints doc) i n) ∧
    places.Pairwise (fun r s => r.1 < s.1) ∧
    calls doc = places.map (fun r => ((codePoints doc).drop r.1).take r.2)

/-- A two-unit character. -/
def IsSupplementary (c : JsString) : Prop := c.length = 2

instance (c : JsString) : Decidable (IsSupplementary c) := inferInstanceAs (Decidable (_ = _))

/-! ## Units -/

section Units

/-- No surrogate is a key. -/
theorem table_surrogate {u : UInt16} (h : isLeadSurrogate u = true ∨ isTrailSurrogate u = true) :
    CJK_Table [u] = false := by
  have hrange : 0xD800 ≤ u.toNat := by
    rcases h with h | h
    · simp only [isLeadSurrogate, Bool.and_eq_true, decide_eq_true_eq] at h
      exact UInt16.le_iff_toNat_le.mp h.1
    · simp only [isTrailSurrogate, Bool.and_eq_true, decide_eq_true_eq] at h
      exact le_trans (by decide) (UInt16.le_iff_toNat_le.mp h.1)
  have hout : ∀ v : UInt16, v.toNat < 0xD800 → decide (u ≤ v) = false := by
    intro v hv
    rw [decide_eq_false_iff_not, UInt16.le_iff_toNat_le]
    omega
  rw [CJK_Table, hout 0x4DBF (by decide), hout 0x9FFF (by decide), Bool.and_false, Bool.and_false]
  rfl

variable {doc : JsString} {cs : List JsString}

/-- The loops flush alike. -/
theorem letters_flush (runs : List JsString) (buffer : JsString) :
    (if buffer.length > 0 then runs ++ [buffer] else runs).map letters =
      if (letters buffer).length > 0 then runs.map letters ++ [letters buffer]
      else runs.map letters := by
  rw [letters, List.length_map]
  split
  · rw [List.map_append]
    rfl
  · rfl

/-- A unit that is a character of its own. -/
theorem collectRuns_unit (u : UInt16)
    (ih : ∀ runs buffer, (collectRuns doc runs buffer).map letters =
      collect CJK_Table cs (runs.map letters) (letters buffer)) (runs : List JsString)
    (buffer : JsString) : (collectRuns (u :: doc) runs buffer).map letters =
      collect CJK_Table ([u] :: cs) (runs.map letters) (letters buffer) := by
  rw [collectRuns, collect]
  split
  · rw [ih, letters, List.map_append]
    rfl
  · rw [ih, letters_flush]
    rfl

/-- A surrogate pair that is no key ends a run, once. -/
theorem collectRuns_pair {u v : UInt16} (hlead : isLeadSurrogate u = true)
    (htrail : isTrailSurrogate v = true) (hkey : CJK_Table [u, v] = false)
    (ih : ∀ runs buffer, (collectRuns doc runs buffer).map letters =
      collect CJK_Table cs (runs.map letters) (letters buffer)) (runs : List JsString)
    (buffer : JsString) : (collectRuns (u :: v :: doc) runs buffer).map letters =
      collect CJK_Table ([u, v] :: cs) (runs.map letters) (letters buffer) := by
  have hu : ¬ CJK_Table [u] = true := by
    rw [table_surrogate (Or.inl hlead)]
    decide
  have hv : ¬ CJK_Table [v] = true := by
    rw [table_surrogate (Or.inr htrail)]
    decide
  have huv : ¬ CJK_Table [u, v] = true := by
    rw [hkey]
    decide
  rw [collectRuns, if_neg hu, collectRuns, if_neg hv, collect, if_neg huv, ← letters_flush]
  exact ih _ []

/-- As long as no pair is a key, going over units and over characters is the same. -/
theorem collectRuns_letters (doc : JsString)
    (hkeys : ∀ c ∈ codePoints doc, IsSupplementary c → CJK_Table c = false) :
    ∀ runs buffer, (collectRuns doc runs buffer).map letters =
      collect CJK_Table (codePoints doc) (runs.map letters) (letters buffer) := by
  induction doc using codePoints.induct with
  | case1 =>
      intro runs buffer
      rw [collectRuns, codePoints, collect, letters_flush]
  | case2 u =>
      exact collectRuns_unit u (fun runs buffer => by rw [collectRuns, collect, letters_flush])
  | case3 u v rest hpair ih =>
      rw [codePoints, if_pos hpair] at hkeys ⊢
      obtain ⟨huv, hrest⟩ := List.forall_mem_cons.mp hkeys
      obtain ⟨hlead, htrail⟩ := Bool.and_eq_true_iff.mp hpair
      exact collectRuns_pair hlead htrail (huv rfl) (ih hrest)
  | case4 u v rest hpair ih =>
      rw [codePoints, if_neg hpair] at hkeys ⊢
      exact collectRuns_unit u (ih (List.forall_mem_cons.mp hkeys).2)

/-- Every call is an array of one-unit strings. -/
theorem calls_letters {doc : JsString} {sentence : List JsString} (hs : sentence ∈ calls doc) :
    ∀ c ∈ sentence, c.length = 1 := by
  obtain ⟨run, -, rfl⟩ := List.mem_map.mp hs
  intro c hc
  obtain ⟨u, -, rfl⟩ := List.mem_map.mp hc
  rfl

theorem runsDelivered_of_keys
    (hkeys : ∀ c ∈ codePoints doc, IsSupplementary c → CJK_Table c = false) :
    RunsDelivered doc := by
  refine ⟨places CJK_Table (codePoints doc), fun i n => mem_places_iff, ?_, ?_⟩
  · apply places_ordered.imp
    intro r s h
    exact (Nat.le_add_right _ _).trans_lt h
  · rw [calls, collectRuns_letters doc hkeys]
    exact collect_eq (codePoints doc)

/-- A pair that is a key stands in a run, and no call has it. -/
theorem RunsDelivered.keys (h : RunsDelivered doc) :
    ∀ c ∈ codePoints doc, IsSupplementary c → CJK_Table c = false := by
  intro c hc hsupp
  by_contra hkey
  obtain ⟨places, hplaces, -, hcalls⟩ := h
  obtain ⟨k, hk, rfl⟩ := List.mem_iff_getElem.mp hc
  have hholds : holdsAt CJK_Table (codePoints doc) k = true := by
    rw [holdsAt, List.getElem?_eq_getElem hk]
    exact Bool.eq_true_of_not_eq_false hkey
  obtain ⟨i, n, hrun, hlo, hhi⟩ := exists_isRun hholds
  have hcall : ((codePoints doc).drop i).take n ∈ calls doc := by
    rw [hcalls]
    exact List.mem_map.mpr ⟨(i, n), (hplaces i n).mpr hrun, rfl⟩
  have hmem : (codePoints doc)[k] ∈ ((codePoints doc).drop i).take n := by
    refine List.mem_iff_getElem?.mpr ⟨k - i, ?_⟩
    rw [List.getElem?_take_of_lt (by omega), List.getElem?_drop, Nat.add_sub_cancel' hlo,
      List.getElem?_eq_getElem hk]
  have hone := calls_letters hcall _ hmem
  unfold IsSupplementary at hsupp
  omega

end Units

/-- **`article` passes on the maximal runs of table characters exactly when no two-unit
character of the document is in the table.** -/
theorem runsDelivered_iff (doc : JsString) :
    RunsDelivered doc ↔ ∀ c ∈ codePoints doc, IsSupplementary c → CJK_Table c = false :=
  ⟨RunsDelivered.keys, runsDelivered_of_keys⟩

/-- U+20000 between two characters of the basic plane is lost, and parts their run. -/
theorem not_runsDelivered_extension :
    calls [0x4E2D, 0xD840, 0xDC00, 0x6587] = [[[0x4E2D]], [[0x6587]]] ∧
      ¬ RunsDelivered [0x4E2D, 0xD840, 0xDC00, 0x6587] := by
  refine ⟨by decide, fun h => ?_⟩
  exact absurd (h.keys [0xD840, 0xDC00] (by decide) rfl) (by decide)

end WaiBase

end WaiNative

import WaiNative.Browser.JsText
import Mathlib.Data.List.Chain
import Mathlib.Tactic.Common

/-!
# From romaji to kana: `roma2kana`

`roma2kana` appends one letter after the other to a buffer and writes a kana as soon as
the buffer is a key of the table. Only `n` is both a key and the beginning of others;
there the loop looks one letter ahead.

- `emits_roma`: no other key has a key as a proper beginning;
- `scan_syllable`: a syllable in front of any text writes its kana and empties the buffer;
- `roma2kana_syllables`: so a sequence of syllables gives the sequence of their kana.
-/

namespace WaiNative

namespace UniHan

/-! ## The table and the loop -/

/-- `exports.roma`. -/
def roma : List (JsString × JsString) :=
  [(units "a", units "あ"), (units "i", units "い"), (units "u", units "う"),
   (units "e", units "え"), (units "o", units "お"), (units "ka", units "か"),
   (units "ki", units "き"), (units "ku", units "く"), (units "ke", units "け"),
   (units "ko", units "こ"), (units "ga", units "が"), (units "gi", units "ぎ"),
   (units "gu", units "ぐ"), (units "ge", units "げ"), (units "go", units "ご"),
   (units "sa", units "さ"), (units "shi", units "し"), (units "su", units "す"),
   (units "se", units "せ"), (units "so", units "そ"), (units "za", units "ざ"),
   (units "ji", units "じ"), (units "zu", units "ず"), (units "ze", units "ぜ"),
   (units "zo", units "ぞ"), (units "ta", units "た"), (units "chi", units "ち"),
   (units "tu", units "つ"), (units "tsu", units "つ"), (units "te", units "て"),
   (units "to", units "と"), (units "da", units "だ"), (units "di", units "ぢ"),
   (units "du", units "づ"), (units "de", units "で"), (units "do", units "ど"),
   (units "na", units "な"), (units "ni", units "に"), (units "nu", units "ぬ"),
   (units "ne", units "ね"), (units "no", units "の"), (units "ha", units "は"),
   (units "hi", units "ひ"), (units "hu", units "ふ"), (units "fu", units "ふ"),
   (units "fi", units "ふぃ"), (units "he", units "へ"), (units "ho", units "ほ"),
   (units "ba", units "ば"), (units "bi", units "び"), (units "bu", units "ぶ"),
   (units "be", units "べ"), (units "bo", units "ぼ"), (units "pa", units "ぱ"),
   (units "pi", units "ぴ"), (units "pu", units "ぷ"), (units "pe", units "ぺ"),
   (units "po", units "ぽ"), (units "ma", units "ま"), (units "mi", units "み"),
   (units "mu", units "む"), (units "me", units "め"), (units "mo", units "も"),
   (units "ya", units "や"), (units "yu", units "ゆ"), (units "yo", units "よ"),
   (units "ra", units "ら"), (units "ri", units "り"), (units "ru", units "る"),
   (units "re", units "れ"), (units "ro", units "ろ"), (units "wa", units "わ"),
   (units "wo", units "を"), (units "n", units "ん"), (units "kya", units "きゃ"),
   (units "kyu", units "きゅ"), (units "kyo", units "きょ"), (units "gya", units "ぎゃ"),
   (units "gyu", units "ぎゅ"), (units "gyo", units "ぎょ"), (units "sya", units "しゃ"),
   (units "syu", units "しゅ"), (units "syo", units "しょ"), (units "sha", units "しゃ"),
   (units "shya", units "しゃ"), (units "shu", units "しゅ"), (units "shyu", units "しゅ"),
   (units "sho", units "しょ"), (units "shyo", units "しょ"), (units "jya", units "じゃ"),
   (units "jyu", units "じゅ"), (units "jyo", units "じょ"), (units "ja", units "じゃ"),
   (units "ju", units "じゅ"), (units "jo", units "じょ"), (units "tya", units "ちゃ"),
   (units "tyu", units "ちゅ"), (units "tyo", units "ちょ"), (units "cha", units "ちゃ"),
   (units "chu", units "ちゅ"), (units "cho", units "ちょ"), (units "chya", units "ちゃ"),
   (units "chyu", units "ちゅ"), (units "chyo", units "ちょ"), (units "nya", units "にゃ"),
   (units "nyu", units "にゅ"), (units "nyo", units "にょ"), (units "hya", units "ひゃ"),
   (units "hyu", units "ひゅ"), (units "hyo", units "ひょ"), (units "bya", units "びゃ"),
   (units "byu", units "びゅ"), (units "byo", units "びょ"), (units "pya", units "ぴゃ"),
   (units "pyu", units "ぴゅ"), (units "pyo", units "ぴょ"), (units "mya", units "みゃ"),
   (units "myu", units "みゅ"), (units "myo", units "みょ"), (units "rya", units "りゃ"),
   (units "ryu", units "りゅ"), (units "ryo", units "りょ")]

/-- `romaDB.roma[temp]`, where `undefined` is empty: the loop asks only whether the value
is truthy. No beginning of a key is the name of a member that every object has. -/
def romaAt (temp : JsString) : JsString := (roma.lookup temp).getD []

def letterN : UInt16 := 110

/-- The next letter is one of those that an `n` waits for. -/
def waits (rest : JsString) : Bool :=
  match rest with
  | next :: _ => (units "yaiueo").contains next
  | [] => false

/-- The loop over the letters that are left. -/
def scan : JsString → JsString → JsString → JsString
  | [], _, kanas => kanas
  | letter :: rest, temp, kanas =>
      if letter = letterN ∧ waits rest = true then scan rest (temp ++ [letter]) kanas
      else if romaAt (temp ++ [letter]) ≠ [] then
        scan rest [] (kanas ++ romaAt (temp ++ [letter]))
      else scan rest (temp ++ [letter]) kanas

def roma2kana (romaStr : JsString) : JsString := scan romaStr [] []

/-! ## One syllable -/

/-- Behind the buffer, these letters write the kana at the last one and nothing before,
whatever follows. -/
def emits : JsString → JsString → JsString → Bool
  | _, [], _ => false
  | temp, [letter], kana =>
      letter ≠ letterN && romaAt (temp ++ [letter]) == kana && kana ≠ []
  | temp, letter :: next :: syllable, kana =>
      ((letter == letterN && waits [next]) || romaAt (temp ++ [letter]) == []) &&
        emits (temp ++ [letter]) (next :: syllable) kana

/-- The keys are decodable by their shortest match, apart from `n`. -/
theorem emits_roma : ∀ s ∈ roma, s.1 ≠ [letterN] → emits [] s.1 s.2 = true := by
  decide +kernel

theorem waits_cons (next : UInt16) (rest : JsString) : waits (next :: rest) = waits [next] := rfl

/-- These letters write the kana and empty the buffer, in front of any text. -/
theorem scan_emits (rest : JsString) : ∀ (syllable temp kana kanas : JsString),
    emits temp syllable kana = true →
    scan (syllable ++ rest) temp kanas = scan rest [] (kanas ++ kana)
  | [], _, _, _, h => absurd h Bool.false_ne_true
  | [letter], temp, kana, kanas, h => by
      simp only [emits, Bool.and_eq_true, decide_eq_true_eq, beq_iff_eq] at h
      obtain ⟨⟨hletter, hkana⟩, hne⟩ := h
      rw [List.singleton_append, scan, if_neg (fun hn => hletter hn.1), hkana, if_pos hne]
  | letter :: next :: syllable, temp, kana, kanas, h => by
      rw [emits, Bool.and_eq_true, Bool.or_eq_true, Bool.and_eq_true, beq_iff_eq,
        beq_iff_eq] at h
      obtain ⟨hsilent, hrest⟩ := h
      have ih := scan_emits rest (next :: syllable) (temp ++ [letter]) kana kanas hrest
      rw [List.cons_append, List.cons_append, scan, waits_cons]
      rcases hsilent with ⟨hn, hwaits⟩ | hsilent
      · rw [if_pos ⟨hn, hwaits⟩]
        exact ih
      · rw [hsilent, if_neg (not_not.mpr rfl), ite_self]
        exact ih

/-- A bare `n`, in front of text for which it does not wait. -/
theorem scan_n {rest : JsString} (hrest : waits rest = false) (kanas : JsString) :
    scan (letterN :: rest) [] kanas = scan rest [] (kanas ++ romaAt [letterN]) := by
  have hwaits : ¬ (letterN = letterN ∧ waits rest = true) := by
    rw [hrest]
    exact fun h => Bool.false_ne_true h.2
  have hkana : romaAt [letterN] ≠ [] := by decide
  rw [scan, if_neg hwaits, List.nil_append, if_pos hkana]

/-- The syllable `n`. -/
theorem roma_n : ∀ s ∈ roma, s.1 = [letterN] → s.2 = romaAt [letterN] := by
  decide +kernel

/-- A bare `n` is not in front of a vowel or `y`. -/
def Free (s : JsString × JsString) (rest : JsString) : Prop :=
  s.1 = [letterN] → waits rest = false

/-- **A syllable writes its kana and leaves the buffer empty.** -/
theorem scan_syllable {s : JsString × JsString} (hs : s ∈ roma) {rest : JsString}
    (hfree : Free s rest) (kanas : JsString) :
    scan (s.1 ++ rest) [] kanas = scan rest [] (kanas ++ s.2) := by
  by_cases hn : s.1 = [letterN]
  · rw [hn, roma_n s hs hn, List.singleton_append, scan_n (hfree hn)]
  · exact scan_emits rest s.1 [] s.2 kanas (emits_roma s hs hn)

/-! ## Sequences of syllables -/

theorem roma_ne_nil : ∀ s ∈ roma, s.1 ≠ [] := by decide +kernel

theorem scan_syllables : ∀ (syllables : List (JsString × JsString)) (kanas : JsString),
    (∀ s ∈ syllables, s ∈ roma) → syllables.IsChain (fun s t => Free s t.1) →
    scan (syllables.flatMap Prod.fst) [] kanas = kanas ++ syllables.flatMap Prod.snd
  | [], kanas, _, _ => (List.append_nil kanas).symm
  | s :: syllables, kanas, hroma, hchain => by
      obtain ⟨hs, hroma⟩ := List.forall_mem_cons.mp hroma
      have ih := scan_syllables syllables (kanas ++ s.2) hroma hchain.tail
      have hfree : Free s (syllables.flatMap Prod.fst) := by
        cases syllables with
        | nil => exact fun _ => rfl
        | cons t syllables =>
            -- only the first letter of the next syllable is looked at
            obtain ⟨u, us, hu⟩ := List.exists_cons_of_ne_nil
              (roma_ne_nil t (hroma t List.mem_cons_self))
            have hhead := (List.isChain_cons_cons.mp hchain).1
            rw [Free, hu, waits_cons] at hhead
            rw [Free, List.flatMap_cons, hu, List.cons_append, waits_cons]
            exact hhead
      rw [List.flatMap_cons, List.flatMap_cons, scan_syllable hs hfree, ih, List.append_assoc]

/-- **The kana of concatenated syllables are the concatenated kana**, when no bare `n` is
followed by a syllable that begins with a vowel or `y`. -/
theorem roma2kana_syllables {syllables : List (JsString × JsString)}
    (hroma : ∀ s ∈ syllables, s ∈ roma)
    (hn : syllables.IsChain (fun s t => s.1 = units "n" → waits t.1 = false)) :
    roma2kana (syllables.flatMap Prod.fst) = syllables.flatMap Prod.snd :=
  scan_syllables syllables [] hroma hn

/-- `shinnyo` with a bare `n` in front of `nyo`. -/
theorem roma2kana_syllables_shinnyo :
    roma2kana ([(units "shi", units "し"), (units "n", units "ん"),
      (units "nyo", units "にょ")].flatMap Prod.fst) =
    [(units "shi", units "し"), (units "n", units "ん"),
      (units "nyo", units "にょ")].flatMap Prod.snd :=
  roma2kana_syllables (by decide +kernel) (by decide)

end UniHan

end WaiNative

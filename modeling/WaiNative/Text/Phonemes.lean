import WaiNative.Segment.Hints
import WaiNative.Storage.MasterDBWord

/-!
# From words to sound clips

`ZhiZiWord::createAudioList` and the databases it asks, `TTSMaster`. A word is read
by the phrase database, or else character by character; Japanese readings are then
joined to pairs and triples for which there is a clip.

- `jaHirakaraPair_flatten`: joining readings loses none of them;
- `jaHirakaraPairFrom_eq`: the iterators of the loop that joins them stay in range;
- `jaHirakaraPair_greedy`: which readings it joins;
- `createAudioList_clips`: the list holds clips of the language's database.
-/

namespace WaiNative

open Cxx

/-! ## `TTSMaster` -/

/-- The three databases of a language; `none` is one that could not be opened. -/
structure TTSMaster where
  master_phrase_ : Option LevelDB
  master_hanzi_ : Option LevelDB
  master_phoneme_ : Option LevelDB

namespace TTSMaster

/-- The common text of the three getters: the empty string when there is no entry. -/
def get (master : Option LevelDB) (key : Str) : Str :=
  (master.bind (fun db => db[key]?)).getD []

def getPhoneme (tts : TTSMaster) (pinyin : Str) : Str := get tts.master_phoneme_ pinyin

def getHanzi (tts : TTSMaster) (hanzi : Str) : Str := get tts.master_hanzi_ hanzi

def getPhrase (tts : TTSMaster) (word : Str) : Str := get tts.master_phrase_ word

end TTSMaster

/-! ## Readings -/

/-- `"wm"`, in the place of a character without a reading. -/
def strWm : Str := [119, 109]

/-- `"ws"`, behind the readings of a word. -/
def strWs : Str := [119, 115]

/-- `boost::algorithm::split` at commas. -/
def splitComma (s : Str) : List Str := s.splitOn 44

/-- The common text of `createPhonemeCN` and `createPhonemeJA`. -/
def readings (tts : TTSMaster) (word : Str) : List Str :=
  let phrase := tts.getPhrase word
  if phrase = [] then
    (characters word).map (fun hanzi =>
      let pinyin := tts.getHanzi hanzi
      if pinyin = [] then strWm else (splitComma pinyin).headD [])
  else splitComma phrase

def createPhonemeCN (gCN : TTSMaster) (word : Str) : List Str :=
  readings gCN word ++ [strWs]

/-- The loop takes three readings if there is a clip for them, or else two, or else
one. -/
def jaHirakaraPair (gJA : TTSMaster) : List Str → List Str
  | [] => []
  | [a] => [a]
  | [a, b] =>
      if gJA.getPhoneme (a ++ b) = [] then a :: jaHirakaraPair gJA [b] else [a ++ b]
  | a :: b :: c :: rest =>
      if gJA.getPhoneme (a ++ b ++ c) = [] then
        if gJA.getPhoneme (a ++ b) = [] then a :: jaHirakaraPair gJA (b :: c :: rest)
        else (a ++ b) :: jaHirakaraPair gJA (c :: rest)
      else (a ++ b ++ c) :: jaHirakaraPair gJA rest

def createPhonemeJA (gJA : TTSMaster) (word : Str) : List Str :=
  jaHirakaraPair gJA (readings gJA word) ++ [strWs]

def createPhoneme (gCN gJA : TTSMaster) (word : Str) (lang : Lang) : List Str :=
  (match lang with
    | .cn => createPhonemeCN gCN word
    | .ja => createPhonemeJA gJA word
    | .other => []) ++ [[32]]

/-- The clips of the phonemes; those without one are left out. -/
def clips (tts : TTSMaster) (phonemeList : List Str) : List Str :=
  (phonemeList.map tts.getPhoneme).filter (fun clipAudio => clipAudio ≠ [])

def createAudioList (gCN gJA : TTSMaster) (words : List Str) (lang : Lang) : List Str :=
  let phonemeList := words.flatMap (fun word => createPhoneme gCN gJA word lang)
  match lang with
  | .cn => clips gCN phonemeList
  | .ja => clips gJA phonemeList
  | .other => []

/-! ## What the lists hold -/

/-- **Joining readings to pairs and triples keeps what they spell.** -/
theorem jaHirakaraPair_flatten (gJA : TTSMaster) (hirakana : List Str) :
    (jaHirakaraPair gJA hirakana).flatten = hirakana.flatten := by
  induction hirakana using jaHirakaraPair.induct gJA with
  | case1 => rfl
  | case2 a => rfl
  | case3 a b h ih => simp [jaHirakaraPair, h]
  | case4 a b h => simp [jaHirakaraPair, h]
  | case5 a b c rest h₃ h₂ ih =>
      rw [jaHirakaraPair, if_pos h₃, if_pos h₂, List.flatten_cons, ih]
      simp
  | case6 a b c rest h₃ h₂ ih =>
      rw [jaHirakaraPair, if_pos h₃, if_neg h₂, List.flatten_cons, ih]
      simp
  | case7 a b c rest h₃ ih =>
      rw [jaHirakaraPair, if_neg h₃, List.flatten_cons, ih]
      simp

/-! ## The loop of `jaHirakaraPair`

`next` and `next2` are computed before it is known how many readings are left. Here
iterators are indices, and a dereference behind the last reading is `none`. -/

section Loop

variable (gJA : TTSMaster) (hirakana : List Str)

/-- `*it + *next + …` of `n` readings. -/
def joinAt (it n : ℕ) : Option Str :=
  if it + n ≤ hirakana.length then some ((hirakana.drop it).take n).flatten else none

def clipAudio2 (it : ℕ) : Option Str :=
  if it + 1 ≠ hirakana.length then (joinAt hirakana it 2).map gJA.getPhoneme else some []

def clipAudio3 (it : ℕ) : Option Str :=
  if it + 1 ≠ hirakana.length ∧ it + 2 ≠ hirakana.length then
    (joinAt hirakana it 3).map gJA.getPhoneme
  else some []

/-- The loop, with what it has pushed in `result`. `clipAudio1` is read by nothing. -/
def jaHirakaraPairFrom (it : ℕ) (result : List Str) : Option (List Str) :=
  if _h : it < hirakana.length then
    match clipAudio2 gJA hirakana it, clipAudio3 gJA hirakana it with
    | some clip2, some clip3 =>
      if clip3 = [] then
        if clip2 = [] then
          match joinAt hirakana it 1 with
          | none => none
          | some w => jaHirakaraPairFrom (it + 1) (result ++ [w])
        else
          match joinAt hirakana it 2 with
          | none => none
          | some w => jaHirakaraPairFrom (it + 2) (result ++ [w])
      else
        match joinAt hirakana it 3 with
        | none => none
        | some w => jaHirakaraPairFrom (it + 3) (result ++ [w])
    | _, _ => none
  else some result
termination_by hirakana.length - it

/-- How many of the readings that are left are joined next. -/
def taken (rest : List Str) : ℕ :=
  if 3 ≤ rest.length ∧ gJA.getPhoneme (rest.take 3).flatten ≠ [] then 3
  else if 2 ≤ rest.length ∧ gJA.getPhoneme (rest.take 2).flatten ≠ [] then 2
  else 1

theorem taken_bounds (rest : List Str) : 1 ≤ taken gJA rest ∧ taken gJA rest ≤ 3 := by
  unfold taken
  split
  · exact ⟨by decide, le_rfl⟩
  split
  · exact ⟨by decide, by decide⟩
  · exact ⟨le_rfl, by decide⟩

theorem taken_le {rest : List Str} (hne : rest ≠ []) : taken gJA rest ≤ rest.length := by
  unfold taken
  split
  · rename_i h
    exact h.1
  split
  · rename_i h
    exact h.1
  · exact List.length_pos_iff.mpr hne

/-- One element of the result, then the rest. -/
theorem jaHirakaraPair_step {rest : List Str} (hne : rest ≠ []) :
    jaHirakaraPair gJA rest =
      (rest.take (taken gJA rest)).flatten ::
        jaHirakaraPair gJA (rest.drop (taken gJA rest)) := by
  match rest, hne with
  | [a], _ => simp [taken, jaHirakaraPair]
  | [a, b], _ =>
      by_cases h₂ : gJA.getPhoneme (a ++ b) = []
      · simp [taken, jaHirakaraPair, h₂]
      · simp [taken, jaHirakaraPair, h₂]
  | a :: b :: c :: rest, _ =>
      by_cases h₃ : gJA.getPhoneme (a ++ b ++ c) = []
      · rw [List.append_assoc] at h₃
        by_cases h₂ : gJA.getPhoneme (a ++ b) = []
        · simp [taken, jaHirakaraPair, h₃, h₂]
        · simp [taken, jaHirakaraPair, h₃, h₂]
      · rw [List.append_assoc] at h₃
        simp [taken, jaHirakaraPair, h₃]

variable {gJA hirakana} {it : ℕ}

theorem joinAt_eq {n : ℕ} (hle : it + n ≤ hirakana.length) :
    joinAt hirakana it n = some ((hirakana.drop it).take n).flatten := if_pos hle

/-- The clip of two readings, empty where there is one. -/
theorem clipAudio2_eq (h : it < hirakana.length) : clipAudio2 gJA hirakana it =
    some (if 2 ≤ (hirakana.drop it).length then
      gJA.getPhoneme ((hirakana.drop it).take 2).flatten else []) := by
  unfold clipAudio2
  rw [List.length_drop]
  by_cases hend : it + 1 = hirakana.length
  · rw [if_neg (not_not.mpr hend), if_neg (by omega)]
  · rw [if_pos hend, joinAt_eq (by omega), if_pos (by omega)]
    rfl

/-- The clip of three readings, empty where there are fewer. -/
theorem clipAudio3_eq (h : it < hirakana.length) : clipAudio3 gJA hirakana it =
    some (if 3 ≤ (hirakana.drop it).length then
      gJA.getPhoneme ((hirakana.drop it).take 3).flatten else []) := by
  unfold clipAudio3
  rw [List.length_drop]
  by_cases hend : it + 1 ≠ hirakana.length ∧ it + 2 ≠ hirakana.length
  · rw [if_pos hend, joinAt_eq (by omega), if_pos (by omega)]
    rfl
  · rw [if_neg hend, if_neg (by omega)]

/-- A clip of `n` readings, when there are as many. -/
theorem clip_eq_nil_iff {rest : List Str} {n : ℕ} :
    (if n ≤ rest.length then gJA.getPhoneme (rest.take n).flatten else []) = [] ↔
      ¬ (n ≤ rest.length ∧ gJA.getPhoneme (rest.take n).flatten ≠ []) := by
  by_cases hlen : n ≤ rest.length
  · rw [if_pos hlen, not_and, not_not]
    exact ⟨fun h _ => h, fun h => h hlen⟩
  · rw [if_neg hlen]
    exact iff_of_true rfl (fun h => hlen h.1)

/-- A turn of the loop: what it dereferences is there. -/
theorem jaHirakaraPairFrom_step (h : it < hirakana.length) (result : List Str) :
    jaHirakaraPairFrom gJA hirakana it result =
      jaHirakaraPairFrom gJA hirakana (it + taken gJA (hirakana.drop it))
        (result ++ [((hirakana.drop it).take (taken gJA (hirakana.drop it))).flatten]) := by
  have hlen : (hirakana.drop it).length = hirakana.length - it := List.length_drop
  rw [jaHirakaraPairFrom, dif_pos h, clipAudio2_eq h, clipAudio3_eq h]
  dsimp only
  by_cases h₃ : 3 ≤ (hirakana.drop it).length ∧
      gJA.getPhoneme ((hirakana.drop it).take 3).flatten ≠ []
  · have htaken : taken gJA (hirakana.drop it) = 3 := if_pos h₃
    rw [if_neg (fun hnil => clip_eq_nil_iff.mp hnil h₃), joinAt_eq (by omega), htaken]
  rw [if_pos (clip_eq_nil_iff.mpr h₃)]
  by_cases h₂ : 2 ≤ (hirakana.drop it).length ∧
      gJA.getPhoneme ((hirakana.drop it).take 2).flatten ≠ []
  · have htaken : taken gJA (hirakana.drop it) = 2 := (if_neg h₃).trans (if_pos h₂)
    rw [if_neg (fun hnil => clip_eq_nil_iff.mp hnil h₂), joinAt_eq (by omega), htaken]
  · have htaken : taken gJA (hirakana.drop it) = 1 := (if_neg h₃).trans (if_neg h₂)
    rw [if_pos (clip_eq_nil_iff.mpr h₂), joinAt_eq (by omega), htaken]

/-- **The loop runs to the end of the readings**, and joins them as the equations say. -/
theorem jaHirakaraPairFrom_eq (it : ℕ) (hle : it ≤ hirakana.length) (result : List Str) :
    jaHirakaraPairFrom gJA hirakana it result =
      some (result ++ jaHirakaraPair gJA (hirakana.drop it)) := by
  rcases hle.lt_or_eq with hlt | rfl
  · have hne : hirakana.drop it ≠ [] := by
      rw [Ne, List.drop_eq_nil_iff]
      omega
    have hpos := (taken_bounds gJA (hirakana.drop it)).1
    have hfit := taken_le gJA hne
    rw [List.length_drop] at hfit
    rw [jaHirakaraPairFrom_step hlt, jaHirakaraPairFrom_eq _ (by omega), jaHirakaraPair_step gJA hne,
      List.drop_drop, List.append_assoc]
    rfl
  · rw [jaHirakaraPairFrom, dif_neg (lt_irrefl _), List.drop_length, jaHirakaraPair,
      List.append_nil]
termination_by hirakana.length - it

variable (gJA)

/-- Groups of readings in order, each as large as the loop would take it. -/
def Greedy : List (List Str) → Prop
  | [] => True
  | g :: gs => g.length = taken gJA (g :: gs).flatten ∧ Greedy gs

/-- The groups of the readings that are left. -/
theorem jaHirakaraPair_groups (rest : List Str) : ∃ groups : List (List Str),
    jaHirakaraPair gJA rest = groups.map List.flatten ∧ groups.flatten = rest ∧
      (∀ g ∈ groups, 1 ≤ g.length ∧ g.length ≤ 3) ∧ Greedy gJA groups := by
  by_cases hne : rest = []
  · exact ⟨[], by rw [hne, jaHirakaraPair]; rfl, hne.symm, by simp, trivial⟩
  · have hbounds := taken_bounds gJA rest
    have hfit := taken_le gJA hne
    obtain ⟨groups, hpair, hflat, hsize, hgreedy⟩ :=
      jaHirakaraPair_groups (rest.drop (taken gJA rest))
    have hlen : (rest.take (taken gJA rest)).length = taken gJA rest := List.length_take_of_le hfit
    have hwhole : (rest.take (taken gJA rest) :: groups).flatten = rest := by
      rw [List.flatten_cons, hflat, List.take_append_drop]
    refine ⟨rest.take (taken gJA rest) :: groups, ?_, hwhole, ?_, ?_, hgreedy⟩
    · rw [jaHirakaraPair_step gJA hne, hpair]
      rfl
    · exact List.forall_mem_cons.mpr ⟨by rwa [hlen], hsize⟩
    · rw [hwhole, hlen]
termination_by rest.length
decreasing_by
  rw [List.length_drop]
  omega

/-- **`jaHirakaraPair` joins greedily.** It ends, spells what it was given, and each
element joins one to three consecutive readings: three if there is a clip for them, or
else two, or else one. -/
theorem jaHirakaraPair_greedy (hirakana : List Str) : ∃ result groups,
    jaHirakaraPairFrom gJA hirakana 0 [] = some result ∧
      result.flatten = hirakana.flatten ∧
      result = groups.map List.flatten ∧ groups.flatten = hirakana ∧
      (∀ g ∈ groups, 1 ≤ g.length ∧ g.length ≤ 3) ∧ Greedy gJA groups := by
  obtain ⟨groups, hpair, hgroups⟩ := jaHirakaraPair_groups gJA hirakana
  refine ⟨jaHirakaraPair gJA hirakana, groups, ?_, jaHirakaraPair_flatten gJA hirakana, hpair,
    hgroups⟩
  rw [jaHirakaraPairFrom_eq 0 (Nat.zero_le _), List.drop_zero, List.nil_append]

end Loop

theorem mem_clips {tts : TTSMaster} {phonemeList : List Str} {clip : Str} :
    clip ∈ clips tts phonemeList ↔
      clip ≠ [] ∧ ∃ phoneme ∈ phonemeList, tts.getPhoneme phoneme = clip := by
  simp [clips, and_comm]

/-- **Each clip is a non-empty entry of the language's database**, and other
languages have none. -/
theorem createAudioList_clips (gCN gJA : TTSMaster) (words : List Str) (lang : Lang)
    {clip : Str} (hclip : clip ∈ createAudioList gCN gJA words lang) :
    clip ≠ [] ∧ ((lang = .cn ∧ ∃ phoneme, gCN.getPhoneme phoneme = clip) ∨
      (lang = .ja ∧ ∃ phoneme, gJA.getPhoneme phoneme = clip)) := by
  cases lang with
  | cn =>
      obtain ⟨hne, phoneme, -, heq⟩ := mem_clips.mp hclip
      exact ⟨hne, Or.inl ⟨rfl, phoneme, heq⟩⟩
  | ja =>
      obtain ⟨hne, phoneme, -, heq⟩ := mem_clips.mp hclip
      exact ⟨hne, Or.inr ⟨rfl, phoneme, heq⟩⟩
  | other => exact absurd hclip List.not_mem_nil

end WaiNative

import WaiNative.Segment.ZhiZiObject
import WaiNative.Theory.Runs

/-!
# The API over one `ZhiZiWord`

`processText` of `api_wai.cpp` answers the requests of all clients, one after the
other, from the global object `gZhiZi` and in the language of the global `gLang`. A
request with a member `lang` sets `gLang`; one without takes the language it finds.

- `processText_spec`: the answer is a function of the dictionaries, the language and
  the request (`answer`), and no request changes the dictionaries;
- `sameAnswers_iff`: so earlier requests have no say in it, but for the language of a
  sentence that comes without one.
-/

namespace WaiNative

open Cxx ShortestPath Runs

/-! ## Requests -/

/-- A JSON value. -/
inductive Json
  | null
  | boolean (b : Bool)
  | number (text : Str)
  | string (s : Str)
  | array (values : List Json)
  | object (members : List (Str × Json))

/-- `j.find(key)`, which finds nothing in a value that is no object. -/
def Json.find : Json → Str → Option Json
  | .object members, key => members.lookup key
  | _, _ => none

/-- `j.get<string>()`; `none` is its exception. -/
def Json.get_string : Json → Option Str
  | .string s => some s
  | _ => none

/-- `"lang"` -/
def strLang : Str := [108, 97, 110, 103]

/-- `"sentence"` -/
def strSentence : Str := [115, 101, 110, 116, 101, 110, 99, 101]

/-- What the API is linked with: the C library's `pow`, Boost's Dijkstra, the sound
clips, `json::parse` (`none` is its exception), and whether `dump` of the answer
returns: it throws on bytes that are not UTF-8. -/
structure WaiLibraries where
  pow : ℚ → ℚ → ℚ
  dijkstra : WGraph ℚ → ℕ → ℕ
  gCN : TTSMaster
  gJA : TTSMaster
  parse : Str → Option Json
  dumps : List WaiResult → Bool

/-- `"en"`, a language without a dictionary. -/
def strEn : Str := [101, 110]

/-- The text `{"lang":"..."}`. -/
def langRequest (lang : Str) : Str := [123, 34] ++ strLang ++ [34, 58, 34] ++ lang ++ [34, 125]

/-- What the API relies on: Dijkstra's parents lead back along edges, and the parser
reads objects. -/
structure WaiLibraries.Sound (lib : WaiLibraries) : Prop where
  dijkstra : LeadsBack vrtxStart lib.dijkstra
  parse : ∀ lang ∈ [strCn, strEn],
    lib.parse (langRequest lang) = some (.object [(strLang, .string lang)])

/-- The answer text: empty, or the object with `wai` and the play list of `m3u8`,
whose file has a random name. -/
inductive WaiReply
  | empty
  | wai (resultTotal : List WaiResult) (m3u8 : Str)
deriving DecidableEq

/-! ## `processWord` and `processText` -/

/-- `https://ipfs.io/ipfs/` -/
def clipUrl : Str :=
  [104, 116, 116, 112, 115, 58, 47, 47, 105, 112, 102, 115, 46, 105, 111, 47, 105, 112, 102,
   115, 47]

/-- What `createTTSLink` writes to the play list. -/
def createTTSLink (clipList : List Str) : Str :=
  clipList.flatMap (fun clip => clipUrl ++ clip ++ [13, 10])

/-- `eachSentenceMix(fn)`, with the variables `fn` captures as its state. -/
def CtrlClaw.eachSentenceMix {σ : Type} (c : CtrlClaw)
    (fn : σ → Str → List Str → Bool → Option σ) (st : σ) : Option σ :=
  c.sentence_words_.foldlM (fun st pair => fn st pair.strWord pair.word pair.multi) st

/-- The globals of the API. -/
structure WaiApi where
  gZhiZi : ZhiZiObject
  gLang : Str

/-- What `learnZhiZi` captures. -/
structure WordTotals where
  gZhiZi : ZhiZiObject
  resultTotal : List WaiResult
  ttsTotal : List Str

namespace WaiLibraries

variable (lib : WaiLibraries)

/-- The lambda of `processWord`. -/
def learnZhiZi (lang : Str) (st : WordTotals) (wordStr : Str) (word : List Str)
    (multi : Bool) : Option WordTotals :=
  if multi then do
    let (result, gZhiZi) ←
      st.gZhiZi.cut lib.pow lib.dijkstra lib.gCN lib.gJA word wordStr lang
    return { gZhiZi := gZhiZi
             resultTotal := st.resultTotal ++ [result]
             ttsTotal := st.ttsTotal ++ result.tts }
  else
    let result := cutSpace word wordStr
    some { st with
      resultTotal := st.resultTotal ++ [result]
      ttsTotal := st.ttsTotal ++ result.tts }

def reply (resultTotal : List WaiResult) (ttsTotal : List Str) : WaiReply :=
  if lib.dumps resultTotal then .wai resultTotal (createTTSLink ttsTotal) else .empty

/-- `none` where the behaviour is undefined. -/
def processWord (text lang : Str) (gZhiZi : ZhiZiObject) :
    Option (WaiReply × ZhiZiObject) := do
  let claw ← (⟨[], [], [], []⟩ : CtrlClaw).claw text
  let st ← claw.eachSentenceMix (lib.learnZhiZi lang) ⟨gZhiZi, [], []⟩
  return (lib.reply st.resultTotal st.ttsTotal, st.gZhiZi)

/-- The `try` block behind the assignment to `gLang`. -/
def processSentence (configJson : Json) (api : WaiApi) : Option (WaiReply × WaiApi) :=
  match configJson.find strSentence with
  | some sentenceOpt =>
      match sentenceOpt.get_string with
      | some text => do
          let (result, gZhiZi) ← lib.processWord text api.gLang api.gZhiZi
          return (result, { api with gZhiZi := gZhiZi })
      | none => some (.empty, api)
  | none => some (.empty, api)

/-- An exception ends in the answer `""`; what was assigned before it stays. -/
def processText (api : WaiApi) (text : Str) : Option (WaiReply × WaiApi) :=
  match lib.parse text with
  | none => some (.empty, api)
  | some configJson =>
      match configJson.find strLang with
      | some langOpt =>
          match langOpt.get_string with
          | some lang => lib.processSentence configJson { api with gLang := lang }
          | none => some (.empty, api)
      | none => lib.processSentence configJson api

/-- A request, for its effect on the globals. -/
def serve (api : WaiApi) (text : Str) : Option WaiApi := (lib.processText api text).map Prod.snd

/-- Whatever was asked before, a request gets the same answer. -/
def SameAnswers (gZhiZi : ZhiZiObject) (text : Str) : Prop :=
  ∀ history history' api api', run lib.serve ⟨gZhiZi, strJa⟩ history = some api →
    run lib.serve ⟨gZhiZi, strJa⟩ history' = some api' →
    (lib.processText api text).map Prod.fst = (lib.processText api' text).map Prod.fst

/-! ## Answers without globals -/

/-- The runs of a sentence. -/
def runs (sentence : Str) : List SentenceWord :=
  (((⟨[], [], [], []⟩ : CtrlClaw).claw sentence).map CtrlClaw.sentence_words_).getD []

/-- The result for one run. -/
def segment (o : ZhiZiObject) (lang : Str) (s : SentenceWord) : Option WaiResult :=
  if s.multi then
    (o.cut lib.pow lib.dijkstra lib.gCN lib.gJA s.word s.strWord lang).map Prod.fst
  else some (cutSpace s.word s.strWord)

/-- The answer for a sentence in a language. -/
def wordAnswer (o : ZhiZiObject) (lang sentence : Str) : Option WaiReply :=
  ((runs sentence).mapM (lib.segment o lang)).map (fun resultTotal =>
    lib.reply resultTotal (resultTotal.flatMap WaiResult.tts))

/-- The answer to a request in a language. -/
def sentenceAnswer (o : ZhiZiObject) (lang : Str) (configJson : Json) : Option WaiReply :=
  ((configJson.find strSentence).bind Json.get_string).elim (some .empty)
    (lib.wordAnswer o lang)

/-- The answer to a request when `gLang` holds a language. -/
def answer (o : ZhiZiObject) (gLang text : Str) : Option WaiReply :=
  match lib.parse text with
  | none => some .empty
  | some configJson =>
      match configJson.find strLang with
      | some langOpt =>
          match langOpt.get_string with
          | some lang => lib.sentenceAnswer o lang configJson
          | none => some .empty
      | none => lib.sentenceAnswer o gLang configJson

/-- What `gLang` holds behind a request. -/
def langAfter (text gLang : Str) : Str :=
  (((lib.parse text).bind (fun j => j.find strLang)).bind Json.get_string).getD gLang

/-- The request has a sentence segmented and leaves its language open. -/
def LeavesOpen (text sentence : Str) : Prop :=
  ∃ configJson, lib.parse text = some configJson ∧ configJson.find strLang = none ∧
    (configJson.find strSentence).bind Json.get_string = some sentence

/-! ## One request -/

section Request

variable {o : ZhiZiObject}

theorem segment_congr {o' : ZhiZiObject} (h : o'.dictionaries = o.dictionaries)
    (lang : Str) (s : SentenceWord) : lib.segment o' lang s = lib.segment o lang s := by
  unfold segment
  rw [ZhiZiObject.cut_congr h]

/-- One run: its result goes behind the others. -/
theorem learnZhiZi_spec {st : WordTotals} (h : st.gZhiZi.dictionaries = o.dictionaries)
    (lang : Str) (s : SentenceWord) :
    ∃ g : ZhiZiObject, g.dictionaries = o.dictionaries ∧
      lib.learnZhiZi lang st s.strWord s.word s.multi =
        (lib.segment o lang s).map (fun result =>
          ⟨g, st.resultTotal ++ [result], st.ttsTotal ++ result.tts⟩) := by
  rw [← segment_congr lib h]
  unfold learnZhiZi segment
  by_cases hmulti : s.multi = true
  · rw [if_pos hmulti, if_pos hmulti]
    cases hcut : st.gZhiZi.cut lib.pow lib.dijkstra lib.gCN lib.gJA s.word s.strWord lang with
    | none => exact ⟨st.gZhiZi, h, rfl⟩
    | some out => exact ⟨out.2, (ZhiZiObject.cut_dictionaries hcut).trans h, rfl⟩
  · rw [if_neg hmulti, if_neg hmulti]
    exact ⟨st.gZhiZi, h, rfl⟩

/-- The loop over the runs. -/
theorem foldlM_learnZhiZi (lang : Str) : ∀ (ss : List SentenceWord) (st : WordTotals),
    st.gZhiZi.dictionaries = o.dictionaries →
    ∃ g : ZhiZiObject, g.dictionaries = o.dictionaries ∧
      ss.foldlM (fun st s => lib.learnZhiZi lang st s.strWord s.word s.multi) st =
        (ss.mapM (lib.segment o lang)).map (fun results =>
          ⟨g, st.resultTotal ++ results, st.ttsTotal ++ results.flatMap WaiResult.tts⟩)
  | [], st, h => ⟨st.gZhiZi, h, by simp⟩
  | s :: ss, st, h => by
      obtain ⟨g, hg, hstep⟩ := lib.learnZhiZi_spec h lang s
      rw [List.foldlM_cons, List.mapM_cons, hstep]
      cases hseg : lib.segment o lang s with
      | none => exact ⟨g, hg, rfl⟩
      | some result =>
          obtain ⟨g', hg', hrest⟩ := foldlM_learnZhiZi lang ss
            ⟨g, st.resultTotal ++ [result], st.ttsTotal ++ result.tts⟩ hg
          refine ⟨g', hg', ?_⟩
          simp only [Option.map_some, Option.bind_eq_bind, Option.bind_some, hrest]
          cases ss.mapM (lib.segment o lang) with
          | none => rfl
          | some results => simp

theorem runs_eq {sentence : Str} {c : CtrlClaw}
    (h : (⟨[], [], [], []⟩ : CtrlClaw).claw sentence = some c) :
    runs sentence = c.sentence_words_ := by
  rw [runs, h]
  rfl

/-- **The answer for a sentence**, from any object with these dictionaries. -/
theorem processWord_spec {o' : ZhiZiObject} (h : o'.dictionaries = o.dictionaries)
    (text lang : Str) :
    ∃ g : ZhiZiObject, g.dictionaries = o.dictionaries ∧
      lib.processWord text lang o' = (lib.wordAnswer o lang text).map (fun r => (r, g)) := by
  obtain ⟨c, hclaw, -⟩ := CtrlClaw.claw_entries ⟨[], [], [], []⟩ text
  obtain ⟨g, hg, hloop⟩ := lib.foldlM_learnZhiZi lang c.sentence_words_
    ⟨o', [], []⟩ h
  refine ⟨g, hg, ?_⟩
  rw [processWord, wordAnswer, runs_eq hclaw, hclaw]
  simp only [Option.bind_eq_bind, Option.bind_some, CtrlClaw.eachSentenceMix, hloop]
  cases c.sentence_words_.mapM (lib.segment o lang) with
  | none => rfl
  | some results => rfl

theorem processSentence_spec {api : WaiApi} (h : api.gZhiZi.dictionaries = o.dictionaries)
    (configJson : Json) :
    ∃ g : ZhiZiObject, g.dictionaries = o.dictionaries ∧
      lib.processSentence configJson api =
        (lib.sentenceAnswer o api.gLang configJson).map (fun r => (r, ⟨g, api.gLang⟩)) := by
  unfold processSentence sentenceAnswer
  cases configJson.find strSentence with
  | none => exact ⟨api.gZhiZi, h, rfl⟩
  | some sentenceOpt =>
      dsimp only
      rw [Option.bind_some]
      cases sentenceOpt.get_string with
      | none => exact ⟨api.gZhiZi, h, rfl⟩
      | some text =>
          obtain ⟨g, hg, hword⟩ := lib.processWord_spec h text api.gLang
          refine ⟨g, hg, ?_⟩
          dsimp only
          rw [hword, Option.elim_some]
          cases lib.wordAnswer o api.gLang text with
          | none => rfl
          | some r => rfl

/-- **The answer to a request depends on the dictionaries, `gLang` and the request
alone**, and of the globals it changes no dictionary. -/
theorem processText_spec {api : WaiApi} (h : api.gZhiZi.dictionaries = o.dictionaries)
    (text : Str) :
    ∃ g : ZhiZiObject, g.dictionaries = o.dictionaries ∧
      lib.processText api text = (lib.answer o api.gLang text).map (fun r =>
        (r, ⟨g, lib.langAfter text api.gLang⟩)) := by
  unfold processText answer langAfter
  cases lib.parse text with
  | none => exact ⟨api.gZhiZi, h, rfl⟩
  | some configJson =>
      dsimp only
      rw [Option.bind_some]
      cases configJson.find strLang with
      | none => exact lib.processSentence_spec h configJson
      | some langOpt =>
          dsimp only
          rw [Option.bind_some]
          cases langOpt.get_string with
          | none => exact ⟨api.gZhiZi, h, rfl⟩
          | some lang =>
              -- the assignment to `gLang` comes first
              have hnext : (⟨api.gZhiZi, lang⟩ : WaiApi).gZhiZi.dictionaries =
                o.dictionaries := h
              exact lib.processSentence_spec hnext configJson

end Request

/-! ## All requests -/

section Requests

variable {lib} {o : ZhiZiObject} {text sentence : Str}

theorem serve_dictionaries {gLang : Str} {history : List Str} {api : WaiApi}
    (hrun : run lib.serve ⟨o, gLang⟩ history = some api) :
    api.gZhiZi.dictionaries = o.dictionaries := by
  have hpreserved : ∀ (api : WaiApi) (text : Str) (api' : WaiApi),
      api.gZhiZi.dictionaries = o.dictionaries → lib.serve api text = some api' →
      api'.gZhiZi.dictionaries = o.dictionaries := by
    intro api text api' h hstep
    obtain ⟨g, hg, hspec⟩ := lib.processText_spec h text
    rw [serve, hspec, Option.map_map, Option.map_eq_some_iff] at hstep
    obtain ⟨r, -, rfl⟩ := hstep
    exact hg
  exact invariant_always hpreserved rfl hrun

/-- Behind any history, the answer is that of the dictionaries in the language that
the history has left. -/
theorem processText_answer {gLang : Str} {history : List Str} {api : WaiApi}
    (hrun : run lib.serve ⟨o, gLang⟩ history = some api) (text : Str) :
    (lib.processText api text).map Prod.fst = lib.answer o api.gLang text := by
  obtain ⟨g, -, hspec⟩ := lib.processText_spec (serve_dictionaries hrun) text
  rw [hspec, Option.map_map]
  exact Option.map_id'

theorem answer_open (h : lib.LeavesOpen text sentence) (lang : Str) :
    lib.answer o lang text = lib.wordAnswer o lang sentence := by
  obtain ⟨configJson, hparse, hlang, hsentence⟩ := h
  rw [answer, hparse]
  dsimp only
  rw [hlang]
  dsimp only
  rw [sentenceAnswer, hsentence, Option.elim_some]

/-- A request that names its language, or has no sentence, is answered without
`gLang`. -/
theorem answer_closed (h : ∀ sentence, ¬ lib.LeavesOpen text sentence) (lang lang' : Str) :
    lib.answer o lang text = lib.answer o lang' text := by
  unfold answer
  cases hparse : lib.parse text with
  | none => rfl
  | some configJson =>
      dsimp only
      cases hlang : configJson.find strLang with
      | some langOpt => rfl
      | none =>
          dsimp only
          unfold sentenceAnswer
          cases hsentence : (configJson.find strSentence).bind Json.get_string with
          | none => rfl
          | some sentence => exact absurd ⟨configJson, hparse, hlang, hsentence⟩ (h sentence)

theorem mapM_isSome_iff {α β : Type} {f : α → Option β} : ∀ {l : List α},
    (l.mapM f).isSome = true ↔ ∀ a ∈ l, (f a).isSome = true
  | [] => by simp
  | a :: l => by
      rw [List.mapM_cons, List.forall_mem_cons, ← mapM_isSome_iff]
      cases f a with
      | none => simp
      | some b =>
          cases l.mapM f with
          | none => simp
          | some bs => simp

/-- Each ordinary run of the sentence has a spellable byte and, for Chinese, the least
weight of the phrases is positive. -/
def Segmentable (o : ZhiZiObject) (lang : Lang) (sentence : Str) : Prop :=
  ∀ s ∈ runs sentence, s.multi = true →
    (∃ m, Spellable (inputPred o.dictInputCN_ o.dictInputJA_ lang) s.word m) ∧
      (lang = .cn → 0 < o.phraseInputCN_.getRangeMin)

theorem emits_of_runs {s : SentenceWord} (hs : s ∈ runs sentence) (hmulti : s.multi = true) :
    CtrlClaw.Emits s.word s.strWord := by
  obtain ⟨c, hclaw, -⟩ := CtrlClaw.claw_entries ⟨[], [], [], []⟩ sentence
  rw [runs_eq hclaw] at hs
  refine ⟨_, c, sentence, hclaw, ?_⟩
  rw [← hmulti]
  exact hs

/-- **A sentence has an answer exactly when its runs are segmentable**; otherwise the
behaviour is undefined. -/
theorem wordAnswer_isSome_iff (hsound : lib.Sound) (lang : Str) :
    (lib.wordAnswer o lang sentence).isSome = true ↔
      Segmentable o (Lang.of lang) sentence := by
  rw [wordAnswer, Option.isSome_map, mapM_isSome_iff]
  apply forall₂_congr
  intro s hs
  unfold segment
  by_cases hmulti : s.multi = true
  · rw [if_pos hmulti,
      ZhiZiObject.cut_isSome_iff hsound.dijkstra (emits_of_runs hs hmulti).run]
    exact ⟨fun h _ => h, fun h => h hmulti⟩
  · rw [if_neg hmulti]
    exact ⟨fun _ h => absurd h hmulti, fun _ => rfl⟩

theorem ordinary_of_segmentable (h : Segmentable o .other sentence) :
    ∀ s ∈ runs sentence, s.multi = false := by
  intro s hs
  by_contra hmulti
  obtain ⟨⟨m, hm⟩, -⟩ := h s hs (by simpa using hmulti)
  exact not_spellable_other _ _ m hm

/-- Without ordinary runs the language has no effect. -/
theorem wordAnswer_ordinary (h : ∀ s ∈ runs sentence, s.multi = false) (lang lang' : Str) :
    lib.wordAnswer o lang sentence = lib.wordAnswer o lang' sentence := by
  have hspaces : ∀ lang, ∀ ss : List SentenceWord, (∀ s ∈ ss, s.multi = false) →
      ss.mapM (lib.segment o lang) = some (ss.map (fun s => cutSpace s.word s.strWord)) := by
    intro lang ss hss
    induction ss with
    | nil => rfl
    | cons s ss ih =>
        obtain ⟨hs, hss⟩ := List.forall_mem_cons.mp hss
        have hseg : lib.segment o lang s = some (cutSpace s.word s.strWord) := by
          rw [segment, if_neg (by simp [hs])]
        rw [List.mapM_cons, hseg, ih hss]
        rfl
  rw [wordAnswer, wordAnswer, hspaces lang _ h, hspaces lang' _ h]

/-- When neither dictionary will do, no language has an answer. -/
theorem wordAnswer_undefined (hsound : lib.Sound) (hja : ¬ Segmentable o .ja sentence)
    (hcn : ¬ Segmentable o .cn sentence) (lang : Str) :
    lib.wordAnswer o lang sentence = none := by
  rw [← Option.not_isSome_iff_eq_none, wordAnswer_isSome_iff hsound]
  cases Lang.of lang with
  | cn => exact hcn
  | ja => exact hja
  | other =>
      intro hother
      apply hja
      intro s hs hmulti
      rw [ordinary_of_segmentable hother s hs] at hmulti
      exact absurd hmulti Bool.false_ne_true

/-- A language can be left behind. -/
theorem run_langRequest (hsound : lib.Sound) {lang : Str} (hlang : lang ∈ [strCn, strEn]) :
    ∃ g, run lib.serve ⟨o, strJa⟩ [langRequest lang] = some ⟨g, lang⟩ := by
  have hparse := hsound.parse lang hlang
  have hfind : (Json.object [(strLang, .string lang)]).find strLang = some (.string lang) := by
    simp [Json.find]
  have hnone : (Json.object [(strLang, .string lang)]).find strSentence = none := rfl
  have hstart : (⟨o, strJa⟩ : WaiApi).gZhiZi.dictionaries = o.dictionaries := rfl
  obtain ⟨g, -, hspec⟩ := lib.processText_spec hstart (langRequest lang)
  refine ⟨g, ?_⟩
  have hanswer : lib.answer o strJa (langRequest lang) = some .empty := by
    rw [answer, hparse]
    dsimp only
    rw [hfind]
    dsimp only [Json.get_string]
    rw [sentenceAnswer, hnone]
    rfl
  have hafter : lib.langAfter (langRequest lang) strJa = lang := by
    rw [langAfter, hparse, Option.bind_some, hfind]
    rfl
  rw [hanswer, hafter] at hspec
  rw [run, List.foldlM_cons, serve, hspec]
  rfl

end Requests

/-! ## Two characters -/

section TwoCharacters

/-- Two characters: one word in Chinese, two in Japanese. -/
def splitZhiZi : ZhiZiObject :=
  { pairZhiZi with
    dictInputCN_ := halfDictionary [charX ++ charY]
    dictInputJA_ := halfDictionary [charX, charY]
    statisticsRank_ := ∅
    ap_ := 0 }

/-- The text `{"sentence":"..."}` with the two characters. -/
def sentenceRequest : Str :=
  [123, 34] ++ strSentence ++ [34, 58, 34] ++ (charX ++ charY) ++ [34, 125]

/-- The text `{"lang":"ja","sentence":"..."}` with the two characters. -/
def namedRequest : Str :=
  [123, 34] ++ strLang ++ [34, 58, 34] ++ strJa ++ [34, 44, 34] ++ strSentence ++
    [34, 58, 34] ++ (charX ++ charY) ++ [34, 125]

/-- The parser on the requests below. -/
def parseRequest (text : Str) : Option Json :=
  if text = langRequest strCn then some (.object [(strLang, .string strCn)])
  else if text = langRequest strEn then some (.object [(strLang, .string strEn)])
  else if text = sentenceRequest then some (.object [(strSentence, .string (charX ++ charY))])
  else if text = namedRequest then
    some (.object [(strLang, .string strJa), (strSentence, .string (charX ++ charY))])
  else none

def splitLibraries : WaiLibraries where
  pow := natPow
  dijkstra := tailParents
  gCN := ⟨none, none, none⟩
  gJA := ⟨none, none, none⟩
  parse := parseRequest
  dumps := fun _ => true

end TwoCharacters

/-! ## The answer to a request -/

/-- **When a request's answer does not depend on the earlier ones**: unless it leaves
the language of a sentence with ordinary runs open. If no language finds a word in one
of these runs, the behaviour is undefined after every history. -/
theorem sameAnswers_iff {lib : WaiLibraries} (hsound : lib.Sound) (o : ZhiZiObject)
    (text : Str) :
    lib.SameAnswers o text ↔ ∀ sentence, lib.LeavesOpen text sentence →
      (∀ s ∈ runs sentence, s.multi = false) ∨
        (¬ Segmentable o .ja sentence ∧ ¬ Segmentable o .cn sentence) := by
  constructor
  · intro hsame sentence hopen
    by_cases hordinary : ∀ s ∈ runs sentence, s.multi = false
    · exact Or.inl hordinary
    · right
      have hdiffers : ∀ history api, run lib.serve ⟨o, strJa⟩ history = some api →
          ¬ Segmentable o (Lang.of api.gLang) sentence := by
        intro history api hrun hseg
        obtain ⟨g, hen⟩ := run_langRequest (o := o) hsound
          (List.mem_cons_of_mem _ List.mem_cons_self : strEn ∈ [strCn, strEn])
        have heq := hsame history [langRequest strEn] api _ hrun hen
        rw [processText_answer hrun, processText_answer hen, answer_open hopen,
          answer_open hopen] at heq
        have hsome := (wordAnswer_isSome_iff hsound api.gLang).mpr hseg
        rw [heq, wordAnswer_isSome_iff hsound] at hsome
        exact hordinary (ordinary_of_segmentable hsome)
      obtain ⟨g, hcn⟩ := run_langRequest (o := o) hsound
        (List.mem_cons_self : strCn ∈ [strCn, strEn])
      exact ⟨hdiffers [] _ rfl, hdiffers _ _ hcn⟩
  · intro hcond history history' api api' hrun hrun'
    rw [processText_answer hrun, processText_answer hrun']
    by_cases hopen : ∃ sentence, lib.LeavesOpen text sentence
    · obtain ⟨sentence, hopen⟩ := hopen
      rw [answer_open hopen, answer_open hopen]
      rcases hcond sentence hopen with hordinary | ⟨hja, hcn⟩
      · exact wordAnswer_ordinary hordinary _ _
      · rw [wordAnswer_undefined hsound hja hcn, wordAnswer_undefined hsound hja hcn]
    · exact answer_closed (not_exists.mp hopen) _ _

/-- A request that names its language. -/
theorem sameAnswers_named : ∃ lib : WaiLibraries, lib.Sound ∧
    lib.parse namedRequest =
      some (.object [(strLang, .string strJa), (strSentence, .string (charX ++ charY))]) ∧
    lib.SameAnswers splitZhiZi namedRequest := by
  obtain ⟨dijkstra, hback⟩ := exists_leadsBack (W := ℚ) vrtxStart
  have hsound : ({ splitLibraries with dijkstra := dijkstra } : WaiLibraries).Sound := by
    refine ⟨hback, ?_⟩
    intro lang hlang
    rcases List.mem_pair.mp hlang with rfl | rfl
    · rfl
    · rfl
  refine ⟨_, hsound, rfl, (sameAnswers_iff hsound splitZhiZi namedRequest).mpr ?_⟩
  rintro sentence ⟨configJson, hparse, hlang, -⟩
  obtain rfl := Option.some.inj hparse
  exact absurd hlang (by decide)

/-! ## A language left behind -/

def splitState (lang : Lang) : SegmentState :=
  let pair := WordElement.make (charX ++ charY) 0 (1 / 2) (1 / 2)
  let first := WordElement.make charX 0 (1 / 2) (1 / 2)
  let second := WordElement.make charY 3 (1 / 2) (1 / 2)
  if lang = .cn then ⟨6, [pair], [pair], [[pair]], []⟩
  else ⟨3, [first, second], [first, second], [[first], [second]], []⟩

theorem split_prepare : ∀ lang ∈ [Lang.cn, Lang.ja],
    prepare natPow (inputPred splitZhiZi.dictInputCN_ splitZhiZi.dictInputJA_ lang)
      [charX, charY] (charX ++ charY) = some (splitState lang) := by
  with_unfolding_all decide

/-- Each group is one word, with one way from the start to the end. -/
theorem split_tree : ∀ lang ∈ [Lang.cn, Lang.ja],
    ∀ c ∈ (splitState lang).noConflictWordSeq_,
      ShortestPathTree (buildGraph (splitZhiZi.rule lang) (splitState lang).wordHintSeq_ c)
        vrtxStart (tailParents
          (buildGraph (splitZhiZi.rule lang) (splitState lang).wordHintSeq_ c)) := by
  intro lang hlang c hc
  apply tree_of_labels (fun v =>
    [0, (splitZhiZi.rule lang).start (1 / 2), (splitZhiZi.rule lang).start (1 / 2) +
      ((splitZhiZi.rule lang).last (1 / 2)).getD 0].getD v 0)
  · rfl
  · revert c
    revert lang
    with_unfolding_all decide
  · revert c
    revert lang
    with_unfolding_all decide

theorem split_answers :
    (splitLibraries.processText ⟨splitZhiZi, strJa⟩ sentenceRequest).map Prod.fst =
      some (.wai [⟨charX ++ [37] ++ charY, charX ++ charY, [], some strJa⟩] []) ∧
    ((run splitLibraries.serve ⟨splitZhiZi, strJa⟩ [langRequest strCn]).bind
        (fun api => splitLibraries.processText api sentenceRequest)).map Prod.fst =
      some (.wai [⟨charX ++ charY, charX ++ charY, [], some strCn⟩] []) := by
  with_unfolding_all decide

/-- The same sentence is two words first, and one word after another client has asked
for Chinese. -/
theorem language_left_behind :
    (∀ lang ∈ [Lang.cn, Lang.ja], ∀ st,
      prepare natPow (inputPred splitZhiZi.dictInputCN_ splitZhiZi.dictInputJA_ lang)
        [charX, charY] (charX ++ charY) = some st →
      ∀ c ∈ st.noConflictWordSeq_,
        ShortestPathTree (buildGraph (splitZhiZi.rule lang) st.wordHintSeq_ c) vrtxStart
          (tailParents (buildGraph (splitZhiZi.rule lang) st.wordHintSeq_ c))) ∧
    (splitLibraries.processText ⟨splitZhiZi, strJa⟩ sentenceRequest).map Prod.fst =
      some (.wai [⟨charX ++ [37] ++ charY, charX ++ charY, [], some strJa⟩] []) ∧
    ((run splitLibraries.serve ⟨splitZhiZi, strJa⟩ [langRequest strCn]).bind
        (fun api => splitLibraries.processText api sentenceRequest)).map Prod.fst =
      some (.wai [⟨charX ++ charY, charX ++ charY, [], some strCn⟩] []) ∧
    ¬ splitLibraries.SameAnswers splitZhiZi sentenceRequest := by
  obtain ⟨hja, hcn⟩ := split_answers
  refine ⟨?_, hja, hcn, ?_⟩
  · intro lang hlang st hst
    obtain rfl := Option.some.inj ((split_prepare lang hlang).symm.trans hst)
    exact split_tree lang hlang
  · intro hsame
    cases hrun : run splitLibraries.serve ⟨splitZhiZi, strJa⟩ [langRequest strCn] with
    | none =>
        rw [hrun] at hcn
        exact absurd hcn (by simp)
    | some api =>
        have heq := hsame [] [langRequest strCn] _ api rfl hrun
        rw [hrun, Option.bind_some, ← heq, hja] at hcn
        exact absurd hcn (by decide)

end WaiLibraries

end WaiNative

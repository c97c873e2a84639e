import WaiNative.Segment.Segmenters
import WaiNative.Cxx.Decimal

/-!
# Learning an article

What `OstrichWord` and `ParrotWord` count while an article is learned, one run
after the other (`PhoenixWord::learn` is modelled with the segmenters).

- `OstrichWord` counts every window of at least two characters;
- `ParrotWord` counts what its greedy selection of known words leaves over: the
  remains of two or three bytes.
-/

namespace WaiNative

open Cxx

/-! ## OstrichWord -/

structure OstrichWord where
  multiWordOfOneArticle_ : MultiWord

def OstrichWord.minWordRepeateTimes_ : ℤ := 3

def OstrichWord.learn (o : OstrichWord) (wordBytes : List Str) : OstrichWord :=
  if wordBytes.length < 2 then o
  else
    { multiWordOfOneArticle_ :=
        forWindows false (fun m jointWord _ => pushMultiWord m jointWord) wordBytes [] 0
          o.multiWordOfOneArticle_ }

/-! ## ParrotWord -/

structure ParrotWord where
  dictInputCN_ : Dictionary
  dictInputJA_ : Dictionary
  statisticsMinWordSize_ : ℕ
  wordHintSeq_ : List WordElement
  wordSeqTopSelected_ : List WordElement
  prediWords_ : List Str
  multiWordOfOneArticle_ : MultiWord

namespace ParrotWord

def minWordRepeateTimes_ : ℤ := 5

def gWeigthAdjustBase : ℚ := 256

section Members

variable (pow : ℚ → ℚ → ℚ)

def getRawRank (p : ParrotWord) (Bytes : List Str) (lang : Lang) : ParrotWord :=
  let raw := forWindows false (pushHint (inputPred p.dictInputCN_ p.dictInputJA_ lang))
    Bytes [] 0 ⟨32, []⟩
  { p with
    statisticsMinWordSize_ := raw.statisticsMinWordSize_
    wordHintSeq_ := raw.wordHintSeq_
    wordSeqTopSelected_ := []
    prediWords_ := [] }

def adjustWeight (p : ParrotWord) (width : ℕ) (weight : ℚ) : ℚ :=
  let rate : ℚ := width / p.statisticsMinWordSize_ - 1
  weight * pow gWeigthAdjustBase rate

/-- The loop over the places of one word, `n` of them from `i` on: it takes free
places until it meets a taken one. Places behind the end are skipped. -/
def takePlaces : ℕ → ℕ → List Bool → Bool × List Bool
  | 0, _, placeholder => (true, placeholder)
  | n + 1, i, placeholder =>
      if placeholder.length ≤ i then takePlaces n (i + 1) placeholder
      else if placeholder.getD i false then (false, placeholder)
      else takePlaces n (i + 1) (placeholder.set i true)

/-- The loop over the words, heaviest first. A word that meets a taken place is
not selected, but keeps the places it took before. -/
def selectPlaces (place_begin : ℕ) : List WordElement → List Bool → List WordElement →
    List WordElement
  | [], _, wordSeqTopSelected_ => wordSeqTopSelected_
  | itWeight :: rest, placeholder, wordSeqTopSelected_ =>
      let offsetWord := itWeight.position - place_begin
      let (hasPlaceFlag, placeholder) := takePlaces itWeight.range offsetWord placeholder
      selectPlaces place_begin rest placeholder
        (if hasPlaceFlag then
          Multimap.insert WordElement.position itWeight wordSeqTopSelected_
        else wordSeqTopSelected_)

def calcPrediction (p : ParrotWord) : ParrotWord :=
  match p.wordHintSeq_.head?, p.wordHintSeq_.getLast? with
  | some firstPos, some lastPos =>
      let weightElem := Multimap.insertAll WordElement.weight
        (p.wordHintSeq_.map (fun elem =>
          { elem with weight := adjustWeight pow p elem.word.length elem.weight })) []
      let place_length := lastPos.position - firstPos.position + lastPos.range
      { p with
        wordSeqTopSelected_ :=
          selectPlaces firstPos.position weightElem.reverse
            (List.replicate (place_length + 1) false) p.wordSeqTopSelected_ }
  | _, _ => p

/-- The remains of the text between the selected words that have the size of one
character. -/
def getWordPredictionOfOne (p : ParrotWord) (text : Str) : ParrotWord :=
  let textRemain := p.wordSeqTopSelected_.foldl
    (fun textRemain elem => replace_all textRemain elem.word [32]) text
  { p with
    prediWords_ := p.prediWords_ ++
      (split isSpace textRemain).filter (fun remain =>
        decide (remain.length > 1 ∧ remain.length < 4)) }

def collectWord (p : ParrotWord) : ParrotWord :=
  { p with
    multiWordOfOneArticle_ :=
      p.prediWords_.foldl pushMultiWord p.multiWordOfOneArticle_ }

def learn (p : ParrotWord) (wordBytes : List Str) (text : Str) (lang : Lang) :
    ParrotWord :=
  if wordBytes.length < 2 then p
  else
    collectWord (getWordPredictionOfOne
      (calcPrediction pow (getRawRank p wordBytes lang)) text)

end Members

end ParrotWord

end WaiNative

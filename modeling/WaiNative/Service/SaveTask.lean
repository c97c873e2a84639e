import WaiNative.Storage.UrlStorage
import WaiNative.Storage.MasterDBWord
import WaiNative.Training.Records
import WaiNative.Segment.Hints

/-!
# Saving the words of a task

What the three training services do with an uploaded task: the URL is marked as
done, and the words are added to the dictionary. A service has opened the stores of its
own stage only. It has functions for all stages, but a task of another one does not
reach any stores: `savePhoenixTask` is a stub in the other two services, and the others
would use stores that are not open.

`sha1` stands for the hash under which a URL is stored; `processText2` starts
behind the parsing of the message.
-/

namespace WaiNative

open Cxx

/-- The stores of one stage for one language. -/
structure LangStores where
  Done : URLStorage
  Todo : URLStorage
  Dict : LevelDB

/-- The stores of one stage. -/
structure StageStores where
  CN : LangStores
  JA : LangStores

/-- The stages of the training. -/
inductive Stage
  | ostrich
  | parrot
  | phoenix
deriving DecidableEq

structure TrainStores where
  Ostrich : StageStores
  Parrot : StageStores
  Phoenix : StageStores

section Stores

/-- The stores of a language; there are none for other languages. -/
def StageStores.get (st : StageStores) (lang : Lang) : Option LangStores :=
  match lang with
  | .cn => some st.CN
  | .ja => some st.JA
  | .other => none

def StageStores.modify (st : StageStores) (lang : Lang) (f : LangStores → LangStores) :
    StageStores :=
  match lang with
  | .cn => { st with CN := f st.CN }
  | .ja => { st with JA := f st.JA }
  | .other => st

theorem StageStores.get_modify (st : StageStores) (lang lang' : Lang)
    (f : LangStores → LangStores) :
    (st.modify lang f).get lang' =
      if lang = lang' then (st.get lang').map f else st.get lang' := by
  cases lang <;> cases lang' <;> rfl

end Stores

/-! ## The servers -/

section Servers

variable (sha1 : Str → Str)

/-- The first half of `markOstrich`: the URL becomes done. -/
def LangStores.markDone (url : Str) (s : LangStores) : LangStores :=
  let doneName := sha1 url
  if s.Done.is_has doneName then s else { s with Done := s.Done.add doneName url }

/-- The second half: nothing is left to do for it. -/
def LangStores.unmarkTodo (url : Str) (s : LangStores) : LangStores :=
  { s with Todo := s.Todo.remove (sha1 url) }

/-- `eachWord(word, save)`. -/
def LangStores.putWords (word : Str) (s : LangStores) : LangStores :=
  { s with
    Dict := (eachWord word).foldl
      (fun dict call => DictionaryStorage.putWord dict call.1 call.2) s.Dict }

/-- `markOstrich`, `markParrot` and `markPhoenix` on the stores of their stage,
and the call of `eachWord` behind it. -/
def StageStores.save (lang : Lang) (url word : Str) (st : StageStores) : StageStores :=
  ((st.modify lang (LangStores.markDone sha1 url)).modify lang
    (LangStores.unmarkTodo sha1 url)).modify lang (LangStores.putWords word)

/-- The functions of a service. -/
def saveOstrichTask (service : Stage) (lang : Lang) (url word : Str) (st : TrainStores) :
    TrainStores :=
  if service = .ostrich then { st with Ostrich := st.Ostrich.save sha1 lang url word } else st

def saveParrotTask (service : Stage) (lang : Lang) (url word : Str) (st : TrainStores) :
    TrainStores :=
  if service = .parrot then { st with Parrot := st.Parrot.save sha1 lang url word } else st

def savePhoenixTask (service : Stage) (lang : Lang) (url word : Str) (st : TrainStores) :
    TrainStores :=
  if service = .phoenix then { st with Phoenix := st.Phoenix.save sha1 lang url word } else st

/-- The fields of a task that clients and servers read. -/
structure Task where
  lang : Option Lang
  url : Option Str
  type : Option Stage
  tag : Option Str
  word : Option Str

/-- `processText2` of a service: a task without language, URL, word or type is dropped. -/
def processText2 (service : Stage) (configJson : Task) (st : TrainStores) : TrainStores :=
  match configJson.lang, configJson.url, configJson.word, configJson.type with
  | some lang, some url, some word, some .ostrich =>
      saveOstrichTask sha1 service lang url word st
  | some lang, some url, some word, some .parrot =>
      saveParrotTask sha1 service lang url word st
  | some lang, some url, some word, some .phoenix =>
      savePhoenixTask sha1 service lang url word st
  | _, _, _, _ => st

end Servers

section Marks

variable {sha1 : Str → Str}

/-- The stores of a stage. -/
def TrainStores.stage (st : TrainStores) : Stage → StageStores
  | .ostrich => st.Ostrich
  | .parrot => st.Parrot
  | .phoenix => st.Phoenix

/-- The URL is marked as done. -/
def StageStores.IsDone (sha1 : Str → Str) (st : StageStores) (lang : Lang) (url : Str) :
    Prop :=
  ∃ s, st.get lang = some s ∧ s.Done.is_has (sha1 url) = true

instance (st : StageStores) (lang : Lang) (url : Str) : Decidable (st.IsDone sha1 lang url) :=
  decidable_of_iff ((st.get lang).any (fun s => s.Done.is_has (sha1 url)))
    (Option.any_eq_true _ _)

theorem markDone_is_has (s : LangStores) (url : Str) (key : Str) :
    (s.markDone sha1 url).Done.is_has key =
      (decide (sha1 url = key) || s.Done.is_has key) := by
  unfold LangStores.markDone
  by_cases h : s.Done.is_has (sha1 url) = true
  · simp only [if_pos h]
    by_cases hkey : sha1 url = key
    · rw [← hkey, h, Bool.or_true]
    · rw [decide_eq_false hkey, Bool.false_or]
  · simp only [if_neg h]
    exact URLStorage.is_has_add

theorem isDone_of_get {st : StageStores} {lang : Lang} {s : LangStores} {url : Str}
    (hs : st.get lang = some s) :
    st.IsDone sha1 lang url ↔ s.Done.is_has (sha1 url) = true := by
  unfold StageStores.IsDone
  rw [hs]
  simp

theorem get_ne_none (st : StageStores) {lang : Lang} (hlang : lang ≠ .other) :
    ∃ s, st.get lang = some s := by
  cases lang with
  | cn => exact ⟨_, rfl⟩
  | ja => exact ⟨_, rfl⟩
  | other => exact absurd rfl hlang

/-- What leaves the Done store alone leaves the done URLs alone. -/
theorem isDone_modify {st : StageStores} {f : LangStores → LangStores}
    (hf : ∀ s, (f s).Done = s.Done) {lang lang' : Lang} {url : Str} :
    (st.modify lang f).IsDone sha1 lang' url ↔ st.IsDone sha1 lang' url := by
  unfold StageStores.IsDone
  rw [StageStores.get_modify]
  split
  · cases st.get lang' with
    | none => rfl
    | some s => simp [hf]
  · rfl

/-- Marking a URL marks all URLs with its hash, and no others. -/
theorem isDone_markDone {st : StageStores} {lang lang' : Lang} {url url' : Str} :
    (st.modify lang (LangStores.markDone sha1 url)).IsDone sha1 lang' url' ↔
      st.IsDone sha1 lang' url' ∨ (lang = lang' ∧ lang ≠ .other ∧ sha1 url = sha1 url') := by
  have hget := st.get_modify lang lang' (LangStores.markDone sha1 url)
  by_cases hsame : lang = lang' ∧ lang ≠ .other
  · obtain ⟨rfl, hother⟩ := hsame
    obtain ⟨s, hs⟩ := get_ne_none st hother
    rw [if_pos rfl, hs, Option.map_some] at hget
    rw [isDone_of_get hget, isDone_of_get hs, markDone_is_has, Bool.or_eq_true,
      decide_eq_true_eq]
    constructor
    · rintro (hhash | hdone)
      · exact Or.inr ⟨rfl, hother, hhash⟩
      · exact Or.inl hdone
    · rintro (hdone | ⟨-, -, hhash⟩)
      · exact Or.inr hdone
      · exact Or.inl hhash
  · have hkept : (st.modify lang (LangStores.markDone sha1 url)).get lang' = st.get lang' := by
      rw [hget]
      split
      · rename_i hlang
        subst hlang
        rw [not_not.mp (fun hother => hsame ⟨rfl, hother⟩)]
        rfl
      · rfl
    unfold StageStores.IsDone
    rw [hkept]
    exact ⟨Or.inl, fun h => h.resolve_right (fun h' => hsame ⟨h'.1, h'.2.1⟩)⟩

/-- **A saved task's URL is done**, and what was done stays so. -/
theorem isDone_save {st : StageStores} {lang lang' : Lang} {url url' word : Str} :
    (st.save sha1 lang url word).IsDone sha1 lang' url' ↔
      st.IsDone sha1 lang' url' ∨ (lang = lang' ∧ lang ≠ .other ∧ sha1 url = sha1 url') := by
  unfold StageStores.save
  rw [isDone_modify (f := LangStores.putWords word) (fun _ => rfl),
    isDone_modify (f := LangStores.unmarkTodo sha1 url) (fun _ => rfl), isDone_markDone]

end Marks

end WaiNative

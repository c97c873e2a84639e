import WaiNative.Cxx.Strings
import Std.Data.TreeMap.Lemmas
import Mathlib.Logic.Equiv.Basic

/-!
# URL stores

`URLStorage`: the URLs of one kind, each under its `sha1`. The store is open and
its operations are atomic; `gets` reads a snapshot in the order of the keys.
-/

namespace WaiNative

open Cxx

/-- The `leveldb` database of a `URLStorage`. -/
abbrev URLStorage := Std.TreeMap Str Str

namespace URLStorage

variable {s : URLStorage} {key key' value : Str}

/-- The first `max` values, in the order of their keys. -/
def gets (save_ : URLStorage) (max : ℕ) : List Str := (save_.toList.take max).map Prod.snd

def add (save_ : URLStorage) (key value : Str) : URLStorage := save_.insert key value

def remove (save_ : URLStorage) (key : Str) : URLStorage := save_.erase key

def is_has (save_ : URLStorage) (key : Str) : Bool := save_.contains key

theorem is_has_add : (s.add key value).is_has key' = (decide (key = key') || s.is_has key') := by
  unfold is_has add
  rw [Std.TreeMap.contains_insert]
  by_cases h : key = key' <;> simp [h]

@[simp] theorem is_has_add_self : (s.add key value).is_has key = true := by
  rw [is_has_add, decide_eq_true rfl, Bool.true_or]

theorem is_has_remove :
    (s.remove key).is_has key' = (decide (key ≠ key') && s.is_has key') := by
  unfold is_has remove
  rw [Std.TreeMap.contains_erase]
  by_cases h : key = key' <;> simp [h]

end URLStorage

/-! ## Two pages -/

def pageA : Str := [97]

def pageB : Str := [98]

/-- An injective function with the digests of the two pages. -/
def pageSha1 : Equiv.Perm Str :=
  (Equiv.swap pageA
      [56, 54, 102, 55, 101, 52, 51, 55, 102, 97, 97, 53, 97, 55, 102, 99, 101, 49, 53, 100,
        49, 100, 100, 99, 98, 57, 101, 97, 101, 97, 101, 97, 51, 55, 55, 54, 54, 55, 98,
        56]).trans
    (Equiv.swap pageB
      [101, 57, 100, 55, 49, 102, 53, 101, 101, 55, 99, 57, 50, 100, 54, 100, 99, 57, 101,
        57, 50, 102, 102, 100, 97, 100, 49, 55, 98, 56, 98, 100, 52, 57, 52, 49, 56, 102, 57,
        56])

end WaiNative

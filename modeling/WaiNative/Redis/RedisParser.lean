import WaiNative.Cxx.Decimal
import WaiNative.Theory.Framing
import Mathlib.Data.List.Forall2

/-!
# The redis protocol

`RedisParser` of the redis client that the services and the text pump are linked with.
`parseChunk` is called with what a read of the socket has brought: it keeps its state in
the object, with one stack of open arrays, and stops behind a value.

- `parse_pieces`: what is parsed does not depend on how the bytes were cut into chunks;
- `parse_replies`: replies in the format of the protocol, nested to any depth, are
  parsed to their values;
- `parse_makeCommand`: a command is an array of its items, whatever bytes they hold.

Numbers beyond `long int`, and the sizes that they are read from, are left undefined by
the source and end the process here, as the failed assertion of `bufToLong` does.
-/

namespace WaiNative

open Cxx Framing

namespace Redisclient

/-- The largest `long int`. -/
def LONG_MAX : ℕ := 9223372036854775807

/-- A string of an error reply has its flag set. -/
inductive RedisValue
  | nil
  | int (i : ℤ)
  | bytes (buf : Str) (error : Bool)
  | array (values : List RedisValue)

inductive State
  | Start
  | StartArray
  | String
  | StringLF
  | ErrorString
  | ErrorLF
  | Integer
  | IntegerLF
  | BulkSize
  | BulkSizeLF
  | Bulk
  | BulkCR
  | BulkLF
  | ArraySize
  | ArraySizeLF
deriving DecidableEq

inductive ParseResult
  | Completed
  | Incompleted
deriving DecidableEq

/-- `ParseResult::Error`, and the end of the process. -/
inductive Failure
  | error
  | abort
deriving DecidableEq

structure RedisParser where
  states : List State
  bulkSize : ℤ
  buf : Str
  redisValue : RedisValue
  arraySizes : List ℤ
  arrayValues : List (List RedisValue)

/-! ## The parser -/

def isChar (c : UInt8) : Bool := c ≤ 127

def isControl (c : UInt8) : Bool := c ≤ 31 || c == 127

def bufToLong (s : Str) : Option ℤ :=
  let (sign, digits) :=
    match s with
    | c :: cs => if c = 45 then (true, cs) else (false, s)
    | [] => (false, [])
  if digits.all isDigit && valueOf digits ≤ LONG_MAX then some (signed sign (valueOf digits))
  else none

namespace RedisParser

/-- The new state, and how many more bytes have been taken. -/
abbrev Turn : Type := Except Failure (State × RedisParser × ℕ)

/-- A character of a string. -/
def stringChar (here lf : State) (p : RedisParser) (c : UInt8) : Turn :=
  if c = 13 then .ok (lf, p, 0)
  else if isChar c && !isControl c then .ok (here, { p with buf := p.buf ++ [c] }, 0)
  else .error .error

/-- A character of a number. -/
def numberChar (here lf : State) (p : RedisParser) (c : UInt8) : Turn :=
  if c = 13 then if p.buf = [] then .error .error else .ok (lf, p, 0)
  else if isDigit c || c == 45 then .ok (here, { p with buf := p.buf ++ [c] }, 0)
  else .error .error

/-- The end of a line. -/
def lineFeed (c : UInt8) (r : Turn) : Turn := if c = 10 then r else .error .error

/-- The size of a bulk string is known; as much of it is taken as is there. -/
def bulkSizeLF (p : RedisParser) (rest : Str) : Turn :=
  match bufToLong p.buf with
  | none => .error .abort
  | some n =>
      if n = -1 then .ok (.Start, { p with bulkSize := n, buf := [], redisValue := .nil }, 0)
      else if n = 0 then .ok (.BulkCR, { p with bulkSize := n, buf := [] }, 0)
      else if n < 0 then .error .error
      else
        let canRead := min n.toNat rest.length
        .ok (if 0 < n - canRead then .Bulk else .BulkCR,
          { p with bulkSize := n - canRead, buf := rest.take canRead }, canRead)

def bulk (p : RedisParser) (c : UInt8) (rest : Str) : Turn :=
  if 0 < p.bulkSize then
    let canRead := min (rest.length + 1) p.bulkSize.toNat
    .ok (if p.bulkSize - canRead = 0 then .BulkCR else .Bulk,
      { p with bulkSize := p.bulkSize - canRead, buf := p.buf ++ (c :: rest).take canRead },
      canRead - 1)
  else .error .abort

def arraySizeLF (p : RedisParser) : Turn :=
  match bufToLong p.buf with
  | none => .error .abort
  | some n =>
      if n = -1 then .ok (.Start, { p with redisValue := .nil }, 0)
      else if n = 0 then .ok (.Start, { p with redisValue := .array [] }, 0)
      else if n < 0 then .error .error
      else .ok (.StartArray,
        { p with arraySizes := n :: p.arraySizes, arrayValues := [] :: p.arrayValues }, 0)

def integerLF (p : RedisParser) : Turn :=
  match bufToLong p.buf with
  | none => .error .abort
  | some n => .ok (.Start, { p with buf := [], redisValue := .int n }, 0)

/-- The first character of a value. -/
def first (p : RedisParser) (c : UInt8) : Turn :=
  let p := { p with buf := [] }
  if c = 43 then .ok (.String, p, 0)
  else if c = 45 then .ok (.ErrorString, p, 0)
  else if c = 58 then .ok (.Integer, p, 0)
  else if c = 36 then .ok (.BulkSize, { p with bulkSize := 0 }, 0)
  else if c = 42 then .ok (.ArraySize, p, 0)
  else .error .error

/-- The body of the `switch`. -/
def turn (p : RedisParser) (c : UInt8) (rest : Str) : State → Turn
  | .StartArray => p.first c
  | .Start => p.first c
  | .String => stringChar .String .StringLF p c
  | .ErrorString => stringChar .ErrorString .ErrorLF p c
  | .BulkSize => numberChar .BulkSize .BulkSizeLF p c
  | .StringLF => lineFeed c (.ok (.Start, { p with redisValue := .bytes p.buf false }, 0))
  | .ErrorLF => lineFeed c (.ok (.Start, { p with redisValue := .bytes p.buf true }, 0))
  | .BulkSizeLF => lineFeed c (p.bulkSizeLF rest)
  | .Bulk => p.bulk c rest
  | .BulkCR => if c = 13 then .ok (.BulkLF, p, 0) else .error .error
  | .BulkLF => lineFeed c (.ok (.Start, { p with redisValue := .bytes p.buf false }, 0))
  | .ArraySize => numberChar .ArraySize .ArraySizeLF p c
  | .ArraySizeLF => lineFeed c p.arraySizeLF
  | .Integer => numberChar .Integer .IntegerLF p c
  | .IntegerLF => lineFeed c p.integerLF

/-- A value goes into the innermost open array, an array that is full into the next one:
the value at the end, and the two stacks. -/
def delivered : RedisValue → List ℤ → List (List RedisValue) →
    RedisValue × List ℤ × List (List RedisValue)
  | v, n :: sizes, values :: arrays =>
      if n - 1 = 0 then delivered (.array (values ++ [v])) sizes arrays
      else (v, (n - 1) :: sizes, (values ++ [v]) :: arrays)
  | v, sizes, arrays => (v, sizes, arrays)

/-- The end of a value. -/
def deliver (p : RedisParser) : RedisParser :=
  let (v, sizes, arrays) := delivered p.redisValue p.arraySizes p.arrayValues
  { p with redisValue := v, arraySizes := sizes, arrayValues := arrays }

/-- The loop over the bytes; the bytes behind the position come with the result. -/
def loop (p : RedisParser) (state : State) :
    Str → Except Failure (ParseResult × RedisParser × Str)
  | [] =>
      if p.arraySizes = [] ∧ state = .Start then .ok (.Completed, p, [])
      else .ok (.Incompleted, { p with states := state :: p.states }, [])
  | c :: rest =>
      match p.turn c rest state with
      | .error f => .error f
      | .ok (state, p, taken) =>
          if state = .Start then
            if p.deliver.arraySizes = [] then .ok (.Completed, p.deliver, rest.drop taken)
            else loop p.deliver state (rest.drop taken)
          else loop p state (rest.drop taken)
termination_by s => s.length

def parseChunk (p : RedisParser) (s : Str) : Except Failure (ParseResult × RedisParser × Str) :=
  match p.states with
  | state :: states => { p with states := states }.loop state s
  | [] => p.loop .Start s

/-- The value is moved out. -/
def result (p : RedisParser) : RedisValue × RedisParser :=
  (p.redisValue, { p with redisValue := .nil })

/-- One call, and the value that it has completed. -/
def read (p : RedisParser) (s : Str) : Outcome RedisParser UInt8 RedisValue Failure :=
  match p.parseChunk s with
  | .ok (.Completed, p, rest) => .value p.result.2 p.result.1 rest
  | .ok (.Incompleted, p, _) => .more p
  | .error f => .failed f

/-- A parser that has just been made. -/
def start : RedisParser := ⟨[], 0, [], .nil, [], []⟩

/-! ## Chunks -/

variable {p q : RedisParser} {c d : UInt8} {rest cs : Str} {state state' : State}

/-- What the loop does behind the `switch`. -/
def proceed (p : RedisParser) (state : State) (rest : Str) :
    Except Failure (ParseResult × RedisParser × Str) :=
  if state = .Start then
    if p.deliver.arraySizes = [] then .ok (.Completed, p.deliver, rest)
    else p.deliver.loop .Start rest
  else p.loop state rest

theorem loop_cons : p.loop state (c :: rest) =
    match p.turn c rest state with
    | .error f => .error f
    | .ok (state, p, taken) => p.proceed state (rest.drop taken) := by
  rw [loop]
  rcases p.turn c rest state with f | ⟨state', q, taken⟩
  · rfl
  · simp only [proceed]
    split
    · rename_i hstart
      rw [hstart]
    · rfl

theorem loop_nil (h : p.arraySizes ≠ [] ∨ state ≠ .Start) :
    p.loop state [] = .ok (.Incompleted, { p with states := state :: p.states }, []) := by
  rw [loop, if_neg (fun hboth => h.elim (fun h => h hboth.1) (fun h => h hboth.2))]

/-- The turn takes no bytes besides its own. -/
def OneByte : Turn → Prop
  | .error _ => True
  | .ok (_, _, taken) => taken = 0

theorem OneByte.error (f : Failure) : OneByte (.error f) := trivial

theorem OneByte.ok (state : State) (p : RedisParser) : OneByte (.ok (state, p, 0)) := rfl

theorem OneByte.ite {P : Prop} [Decidable P] {r r' : Turn} (h : OneByte r) (h' : OneByte r') :
    OneByte (if P then r else r') := by
  split
  · exact h
  · exact h'

theorem OneByte.lineFeed {r : Turn} (h : OneByte r) : OneByte (lineFeed c r) :=
  h.ite (.error _)

theorem oneByte_stringChar (here lf : State) : OneByte (stringChar here lf p c) :=
  (OneByte.ok ..).ite ((OneByte.ok ..).ite (.error _))

theorem oneByte_numberChar (here lf : State) : OneByte (numberChar here lf p c) :=
  ((OneByte.error _).ite (.ok ..)).ite ((OneByte.ok ..).ite (.error _))

theorem oneByte_first : OneByte (p.first c) :=
  (OneByte.ok ..).ite ((OneByte.ok ..).ite ((OneByte.ok ..).ite ((OneByte.ok ..).ite
    ((OneByte.ok ..).ite (.error _)))))

theorem oneByte_arraySizeLF : OneByte p.arraySizeLF := by
  unfold arraySizeLF
  split
  · exact .error _
  · exact (OneByte.ok ..).ite ((OneByte.ok ..).ite ((OneByte.error _).ite (.ok ..)))

theorem oneByte_integerLF : OneByte p.integerLF := by
  unfold integerLF
  split
  · exact .error _
  · exact .ok ..

/-- Some more bytes have been taken along, as the next turn would. -/
def TakenAlong (r r' : Turn) (d : UInt8) (cs : Str) : Prop :=
  ∃ q state' q' taken, r = .ok (.Bulk, q, 0) ∧ q.bulk d cs = .ok (state', q', taken) ∧
    state' ≠ .Start ∧ r' = .ok (state', q', taken + 1)

theorem lineFeed_cons {r r' : Turn}
    (h : r' = r ∧ OneByte r ∨ TakenAlong r r' d cs) :
    lineFeed c r' = lineFeed c r ∧ OneByte (lineFeed c r) ∨
      TakenAlong (lineFeed c r) (lineFeed c r') d cs := by
  unfold lineFeed
  split
  · exact h
  · exact Or.inl ⟨rfl, .error _⟩

/-- The state behind a part of a bulk string. -/
def afterBulk (left : ℤ) : State := if left = 0 then .BulkCR else .Bulk

theorem afterBulk_ne (left : ℤ) : afterBulk left ≠ .Start := by
  unfold afterBulk
  split <;> decide

theorem afterBulk_eq {left : ℤ} (h : 0 ≤ left) :
    (if 0 < left then .Bulk else .BulkCR) = afterBulk left := by
  unfold afterBulk
  rcases h.lt_or_eq with hpos | rfl
  · rw [if_pos hpos, if_neg hpos.ne']
  · rfl

theorem bulk_pos (h : 0 < p.bulkSize) (c : UInt8) (rest : Str) :
    p.bulk c rest =
      .ok (afterBulk (p.bulkSize - (min (rest.length + 1) p.bulkSize.toNat : ℕ)),
        { p with
          bulkSize := p.bulkSize - (min (rest.length + 1) p.bulkSize.toNat : ℕ)
          buf := p.buf ++ (c :: rest).take (min (rest.length + 1) p.bulkSize.toNat) },
        min (rest.length + 1) p.bulkSize.toNat - 1) :=
  if_pos h

theorem bulkSizeLF_cons (p : RedisParser) (d : UInt8) (cs : Str) :
    p.bulkSizeLF (d :: cs) = p.bulkSizeLF [] ∧ OneByte (p.bulkSizeLF []) ∨
      TakenAlong (p.bulkSizeLF []) (p.bulkSizeLF (d :: cs)) d cs := by
  unfold bulkSizeLF
  rcases bufToLong p.buf with _ | n
  · exact Or.inl ⟨rfl, .error _⟩
  · dsimp only
    by_cases hnil : n = -1
    · simp only [if_pos hnil]
      exact Or.inl ⟨trivial, .ok ..⟩
    · by_cases hzero : n = 0
      · simp only [if_neg hnil, if_pos hzero]
        exact Or.inl ⟨trivial, .ok ..⟩
      · by_cases hneg : n < 0
        · simp only [if_neg hnil, if_neg hzero, if_pos hneg]
          exact Or.inl ⟨trivial, .error _⟩
        · simp only [if_neg hnil, if_neg hzero, if_neg hneg]
          have hpos : 0 < n := by omega
          right
          refine ⟨{ p with bulkSize := n, buf := [] }, _, _, _, ?_,
            bulk_pos (p := { p with bulkSize := n, buf := [] }) hpos d cs, afterBulk_ne _, ?_⟩
          · simp [hpos]
          · have hcomm : min n.toNat (d :: cs).length = min (cs.length + 1) n.toNat :=
              Nat.min_comm ..
            have hle : (min (cs.length + 1) n.toNat : ℕ) ≤ n := by omega
            have hsome : 1 ≤ min (cs.length + 1) n.toNat := by omega
            rw [hcomm, afterBulk_eq (by omega), List.nil_append, Nat.sub_add_cancel hsome]

theorem bulk_cons (p : RedisParser) (c d : UInt8) (cs : Str) :
    p.bulk c (d :: cs) = p.bulk c [] ∧ OneByte (p.bulk c []) ∨
      TakenAlong (p.bulk c []) (p.bulk c (d :: cs)) d cs := by
  by_cases hpos : 0 < p.bulkSize
  · rw [bulk_pos hpos, bulk_pos hpos]
    have hone : min (([] : Str).length + 1) p.bulkSize.toNat = 1 := by
      simp only [List.length_nil]
      omega
    rw [hone]
    by_cases hlast : p.bulkSize = 1
    · have htwo : min ((d :: cs).length + 1) p.bulkSize.toNat = 1 := by
        simp only [List.length_cons]
        omega
      rw [htwo]
      exact Or.inl ⟨rfl, .ok ..⟩
    · right
      have hmore : 0 < p.bulkSize - 1 := by omega
      refine ⟨{ p with bulkSize := p.bulkSize - 1, buf := p.buf ++ [c] }, _, _, _, ?_,
        bulk_pos (p := { p with bulkSize := p.bulkSize - 1, buf := p.buf ++ [c] }) hmore d cs,
        afterBulk_ne _, ?_⟩
      · rw [afterBulk, if_neg (by omega)]
        rfl
      · have hstep : min ((d :: cs).length + 1) p.bulkSize.toNat =
            min (cs.length + 1) (p.bulkSize - 1).toNat + 1 := by
          simp only [List.length_cons]
          omega
        have hleft : p.bulkSize - ((min (cs.length + 1) (p.bulkSize - 1).toNat + 1 : ℕ) : ℤ) =
            p.bulkSize - 1 - (min (cs.length + 1) (p.bulkSize - 1).toNat : ℕ) := by
          omega
        have hsome : 1 ≤ min (cs.length + 1) (p.bulkSize - 1).toNat := by omega
        rw [hstep, hleft, List.take_succ_cons, List.append_assoc, List.singleton_append,
          Nat.add_sub_cancel, Nat.sub_add_cancel hsome]
  · left
    unfold bulk
    rw [if_neg hpos, if_neg hpos]
    exact ⟨rfl, .error _⟩

/-- **What a turn does with more bytes at hand**: the same, or it takes some of a bulk
string along, as the next turn would. -/
theorem turn_cons (p : RedisParser) (c d : UInt8) (cs : Str) (state : State) :
    p.turn c (d :: cs) state = p.turn c [] state ∧ OneByte (p.turn c [] state) ∨
      TakenAlong (p.turn c [] state) (p.turn c (d :: cs) state) d cs := by
  cases state with
  | StartArray | Start => exact Or.inl ⟨rfl, oneByte_first⟩
  | String | ErrorString => exact Or.inl ⟨rfl, oneByte_stringChar _ _⟩
  | BulkSize | ArraySize | Integer => exact Or.inl ⟨rfl, oneByte_numberChar _ _⟩
  | StringLF | ErrorLF | BulkLF => exact Or.inl ⟨rfl, (OneByte.ok ..).lineFeed⟩
  | BulkCR => exact Or.inl ⟨rfl, (OneByte.ok ..).ite (.error _)⟩
  | ArraySizeLF => exact Or.inl ⟨rfl, oneByte_arraySizeLF.lineFeed⟩
  | IntegerLF => exact Or.inl ⟨rfl, oneByte_integerLF.lineFeed⟩
  | BulkSizeLF => exact lineFeed_cons (bulkSizeLF_cons p d cs)
  | Bulk => exact bulk_cons p c d cs

/-- A chunk is read as its first byte and then the rest. -/
theorem loop_cons_cons (p : RedisParser) (c d : UInt8) (cs : Str) (state : State) :
    p.loop state (c :: d :: cs) =
      match p.loop state [c] with
      | .error f => .error f
      | .ok (.Completed, q, _) => .ok (.Completed, q, d :: cs)
      | .ok (.Incompleted, q, _) => q.parseChunk (d :: cs) := by
  rw [loop_cons, loop_cons]
  rcases turn_cons p c d cs state with ⟨hsame, hone⟩ | ⟨q, state', q', taken, hone, hnext, hne, hall⟩
  · rw [hsame]
    rcases hturn : p.turn c [] state with f | ⟨state', q, taken⟩
    · rfl
    · obtain rfl : taken = 0 := by
        rw [hturn] at hone
        exact hone
      simp only [List.drop_zero, proceed]
      split
      · split
        · rfl
        · rename_i hopen
          rw [loop_nil (Or.inl hopen)]
          rfl
      · rename_i hne
        rw [loop_nil (Or.inr hne)]
        rfl
  · rw [hone, hall]
    simp only [List.drop_nil, proceed, if_neg hne, List.drop_succ_cons]
    rw [if_neg (by decide), loop_nil (Or.inr (by decide))]
    have hbulk : q.turn d cs .Bulk = .ok (state', q', taken) := hnext
    show _ = q.loop .Bulk (d :: cs)
    rw [loop_cons, hbulk]
    simp only [proceed, if_neg hne]

theorem loop_singleton {r : ParseResult} (h : p.loop state [c] = .ok (r, q, rest)) : rest = [] := by
  rw [loop_cons] at h
  split at h
  · exact nomatch h
  · rename_i state' p' taken _
    simp only [List.drop_nil, proceed] at h
    split at h
    · split at h
      · exact (Prod.mk.inj (Prod.mk.inj (Except.ok.inj h)).2).2.symm
      · rename_i hopen
        rw [loop_nil (Or.inl hopen)] at h
        exact (Prod.mk.inj (Prod.mk.inj (Except.ok.inj h)).2).2.symm
    · rename_i hne
      rw [loop_nil (Or.inr hne)] at h
      exact (Prod.mk.inj (Prod.mk.inj (Except.ok.inj h)).2).2.symm

theorem parseChunk_eq (p : RedisParser) :
    ∃ (q : RedisParser) (state : State), ∀ s, p.parseChunk s = q.loop state s := by
  obtain ⟨_ | ⟨state, states⟩, _⟩ := p
  · exact ⟨_, _, fun s => rfl⟩
  · exact ⟨_, _, fun s => rfl⟩

/-- **The parser can be called with any part of the bytes.** -/
theorem resumable : Resumable read where
  one := by
    intro p c q v rest h
    obtain ⟨p', state, hp⟩ := p.parseChunk_eq
    simp only [read, hp] at h
    split at h
    · rename_i q' rest' hloop
      obtain ⟨-, -, rfl⟩ := h
      exact loop_singleton hloop
    · exact nomatch h
    · exact nomatch h
  cons p c d cs := by
    obtain ⟨p', state, hp⟩ := p.parseChunk_eq
    simp only [read, hp, loop_cons_cons p' c d cs state]
    rcases p'.loop state [c] with f | ⟨result | result, q, rest⟩
    · rfl
    · rfl
    · rfl

/-- **What is parsed is what one read of all the bytes would bring**, however they arrive. -/
theorem parse_pieces (p : RedisParser) (pieces : List Str) :
    drains read p pieces = drain read pieces.flatten.length p pieces.flatten := by
  rw [drains_eq_feed resumable, drain_eq_feed resumable _ _ _ (Nat.le_refl _)]

end RedisParser

/-! ## The format -/

def crlf : Str := [13, 10]

/-- What a server sends. -/
inductive Reply
  | simple (s : Str)
  | error (s : Str)
  | int (i : ℤ)
  | bulk (s : Str)
  | nullBulk
  | nullArray
  | array (replies : List Reply)

namespace Reply

mutual

def bytes : Reply → Str
  | .simple s => 43 :: s ++ crlf
  | .error s => 45 :: s ++ crlf
  | .int i => 58 :: to_string i ++ crlf
  | .bulk s => 36 :: to_string s.length ++ crlf ++ s ++ crlf
  | .nullBulk => 36 :: to_string (-1) ++ crlf
  | .nullArray => 42 :: to_string (-1) ++ crlf
  | .array replies => 42 :: to_string replies.length ++ crlf ++ allBytes replies

def allBytes : List Reply → Str
  | [] => []
  | r :: replies => r.bytes ++ allBytes replies

end

mutual

def value : Reply → RedisValue
  | .simple s => .bytes s false
  | .error s => .bytes s true
  | .int i => .int i
  | .bulk s => .bytes s false
  | .nullBulk => .nil
  | .nullArray => .nil
  | .array replies => .array (values replies)

def values : List Reply → List RedisValue
  | [] => []
  | r :: replies => r.value :: values replies

end

mutual

/-- Lines hold plain characters, and all numbers fit into a `long int`. -/
def Sound : Reply → Prop
  | .simple s => ∀ c ∈ s, isChar c && !isControl c
  | .error s => ∀ c ∈ s, isChar c && !isControl c
  | .int i => i.natAbs ≤ LONG_MAX
  | .bulk s => s.length ≤ LONG_MAX
  | .nullBulk => True
  | .nullArray => True
  | .array replies => replies.length ≤ LONG_MAX ∧ AllSound replies

def AllSound : List Reply → Prop
  | [] => True
  | r :: replies => r.Sound ∧ AllSound replies

end

end Reply

theorem allBytes_eq : ∀ replies : List Reply, Reply.allBytes replies =
    (replies.map Reply.bytes).flatten
  | [] => rfl
  | r :: replies => by
      rw [Reply.allBytes, allBytes_eq replies]
      rfl

theorem bufToLong_to_string {i : ℤ} (h : i.natAbs ≤ LONG_MAX) : bufToLong (to_string i) = some i := by
  have hdigits : (toChars i.natAbs).all isDigit = true :=
    List.all_eq_true.mpr (toChars_isDigit i.natAbs)
  have hvalue := valueOf_toChars i.natAbs
  unfold to_string
  split
  · rename_i hneg
    simp only [bufToLong, if_true, hdigits, hvalue, h, decide_true, Bool.and_self]
    rw [signed, if_pos rfl]
    congr 1
    omega
  · rename_i hneg
    obtain ⟨c, cs, hcs⟩ := List.exists_cons_of_ne_nil (toChars_ne_nil i.natAbs)
    have hc : c ≠ 45 := by
      rintro rfl
      exact absurd (toChars_isDigit i.natAbs 45 (hcs ▸ List.mem_cons_self)) (by decide)
    rw [hcs] at hdigits hvalue ⊢
    simp only [bufToLong, if_neg hc, hdigits, hvalue, h, decide_true, Bool.and_self, if_true]
    rw [signed, if_neg Bool.false_ne_true]
    congr 1
    omega

namespace RedisParser

variable {p q : RedisParser} {c : UInt8} {rest : Str} {state : State}

/-- Characters of a number. -/
def Numeric (s : Str) : Prop := ∀ c ∈ s, isDigit c || c == 45

theorem numeric_to_string (i : ℤ) : Numeric (to_string i) := by
  intro c hc
  unfold to_string at hc
  split at hc
  · rcases List.mem_cons.mp hc with rfl | hmem
    · decide
    · rw [toChars_isDigit _ c hmem]
      rfl
  · rw [toChars_isDigit _ c hc]
    rfl

theorem to_string_ne_nil (i : ℤ) : to_string i ≠ [] := by
  unfold to_string
  split
  · exact List.cons_ne_nil _ _
  · exact toChars_ne_nil _

/-- The characters of a line are collected up to its end. -/
theorem loop_stringLine (here lf : State) (hhere : here ≠ .Start)
    (hturn : ∀ p c rest, turn p c rest here = stringChar here lf p c) (hlf : lf ≠ .Start) :
    ∀ {s : Str} (_ : ∀ c ∈ s, isChar c && !isControl c) (p : RedisParser) (rest : Str),
      p.loop here (s ++ 13 :: rest) = { p with buf := p.buf ++ s }.loop lf rest
  | [], _, p, rest => by
      rw [List.nil_append, loop_cons, hturn, stringChar, if_pos rfl, List.append_nil]
      simp only [proceed, if_neg hlf, List.drop_zero]
  | c :: s, hs, p, rest => by
      have hplain := hs c List.mem_cons_self
      have hcr : c ≠ 13 := by
        rintro rfl
        exact absurd hplain (by decide)
      rw [List.cons_append, loop_cons, hturn, stringChar, if_neg hcr, if_pos hplain]
      simp only [proceed, if_neg hhere, List.drop_zero]
      rw [loop_stringLine here lf hhere hturn hlf (fun c hc => hs c (List.mem_cons_of_mem _ hc))]
      simp only [List.append_assoc, List.singleton_append]

theorem loop_numberChars (here lf : State) (hhere : here ≠ .Start)
    (hturn : ∀ p c rest, turn p c rest here = numberChar here lf p c) :
    ∀ {s : Str} (_ : Numeric s) (p : RedisParser) (rest : Str),
      p.loop here (s ++ rest) = { p with buf := p.buf ++ s }.loop here rest
  | [], _, p, rest => by rw [List.nil_append, List.append_nil]
  | c :: s, hs, p, rest => by
      have hnumeric := hs c List.mem_cons_self
      have hcr : c ≠ 13 := by
        rintro rfl
        exact absurd hnumeric (by decide)
      rw [List.cons_append, loop_cons, hturn, numberChar, if_neg hcr, if_pos hnumeric]
      simp only [proceed, if_neg hhere, List.drop_zero]
      rw [loop_numberChars here lf hhere hturn (fun c hc => hs c (List.mem_cons_of_mem _ hc))]
      simp only [List.append_assoc, List.singleton_append]

/-- A number is collected up to the line feed behind it. -/
theorem loop_number (here lf : State) (hhere : here ≠ .Start) (hlf : lf ≠ .Start)
    (hturn : ∀ p c rest, turn p c rest here = numberChar here lf p c) (hbuf : p.buf = [])
    (i : ℤ) (rest : Str) :
    p.loop here (to_string i ++ 13 :: rest) = { p with buf := to_string i }.loop lf rest := by
  rw [loop_numberChars here lf hhere hturn (numeric_to_string i), hbuf, List.nil_append, loop_cons,
    hturn, numberChar, if_pos rfl, if_neg (to_string_ne_nil i)]
  simp only [proceed, if_neg hlf, List.drop_zero]

/-- The bytes are read as one value, in whatever array they stand. -/
def Reads (s : Str) (v : RedisValue) : Prop :=
  ∀ (p : RedisParser) (state : State) (rest : Str), state = .Start ∨ state = .StartArray →
    ∃ buf bulkSize, p.loop state (s ++ rest) =
      { p with buf := buf, bulkSize := bulkSize, redisValue := v }.proceed .Start rest

theorem loop_first (h : state = .Start ∨ state = .StartArray) :
    p.loop state (c :: rest) =
      match p.first c with
      | .error f => .error f
      | .ok (state, p, taken) => p.proceed state (rest.drop taken) := by
  rw [loop_cons]
  rcases h with rfl | rfl <;> rfl

theorem reads_simple {s : Str} (h : ∀ c ∈ s, isChar c && !isControl c) :
    Reads (43 :: s ++ crlf) (.bytes s false) := by
  intro p state rest hstate
  refine ⟨s, p.bulkSize, ?_⟩
  rw [crlf, List.append_assoc, List.cons_append, loop_first hstate]
  show RedisParser.loop { p with buf := [] } .String (s ++ 13 :: 10 :: rest) = _
  rw [loop_stringLine .String .StringLF (by decide) (fun _ _ _ => rfl) (by decide) h, loop_cons]
  rfl

theorem reads_error {s : Str} (h : ∀ c ∈ s, isChar c && !isControl c) :
    Reads (45 :: s ++ crlf) (.bytes s true) := by
  intro p state rest hstate
  refine ⟨s, p.bulkSize, ?_⟩
  rw [crlf, List.append_assoc, List.cons_append, loop_first hstate]
  show RedisParser.loop { p with buf := [] } .ErrorString (s ++ 13 :: 10 :: rest) = _
  rw [loop_stringLine .ErrorString .ErrorLF (by decide) (fun _ _ _ => rfl) (by decide) h, loop_cons]
  rfl

theorem reads_int {i : ℤ} (h : i.natAbs ≤ LONG_MAX) : Reads (58 :: to_string i ++ crlf) (.int i) := by
  intro p state rest hstate
  refine ⟨[], p.bulkSize, ?_⟩
  rw [crlf, List.append_assoc, List.cons_append, loop_first hstate]
  show RedisParser.loop { p with buf := [] } .Integer (to_string i ++ 13 :: 10 :: rest) = _
  rw [loop_number .Integer .IntegerLF (by decide) (by decide) (fun _ _ _ => rfl) rfl, loop_cons,
    turn, lineFeed, if_pos rfl, integerLF, bufToLong_to_string h]
  rfl

theorem reads_nullBulk : Reads (36 :: to_string (-1) ++ crlf) .nil := by
  intro p state rest hstate
  refine ⟨[], -1, ?_⟩
  rw [crlf, List.append_assoc, List.cons_append, loop_first hstate]
  show RedisParser.loop { p with buf := [], bulkSize := 0 } .BulkSize
    (to_string (-1) ++ 13 :: 10 :: rest) = _
  rw [loop_number .BulkSize .BulkSizeLF (by decide) (by decide) (fun _ _ _ => rfl) rfl, loop_cons,
    turn, lineFeed, if_pos rfl, bulkSizeLF, bufToLong_to_string (by decide)]
  rfl

theorem reads_nullArray : Reads (42 :: to_string (-1) ++ crlf) .nil := by
  intro p state rest hstate
  refine ⟨to_string (-1), p.bulkSize, ?_⟩
  rw [crlf, List.append_assoc, List.cons_append, loop_first hstate]
  show RedisParser.loop { p with buf := [] } .ArraySize (to_string (-1) ++ 13 :: 10 :: rest) = _
  rw [loop_number .ArraySize .ArraySizeLF (by decide) (by decide) (fun _ _ _ => rfl) rfl, loop_cons,
    turn, lineFeed, if_pos rfl, arraySizeLF, bufToLong_to_string (by decide)]
  rfl

/-- The size of a bulk string, and all of the string. -/
theorem loop_bulkString (hbuf : p.buf = []) {s : Str} (h : s.length ≤ LONG_MAX) (rest : Str) :
    p.loop .BulkSize (to_string s.length ++ 13 :: 10 :: (s ++ rest)) =
      { p with buf := s, bulkSize := 0 }.loop .BulkCR rest := by
  rw [loop_number .BulkSize .BulkSizeLF (by decide) (by decide) (fun _ _ _ => rfl) hbuf, loop_cons,
    turn, lineFeed, if_pos rfl, bulkSizeLF, bufToLong_to_string (by simpa using h)]
  have hnil : (s.length : ℤ) ≠ -1 := by omega
  have hneg : ¬ (s.length : ℤ) < 0 := by omega
  by_cases hzero : (s.length : ℤ) = 0
  · obtain rfl : s = [] := List.length_eq_zero_iff.mp (by exact_mod_cast hzero)
    rfl
  · have hmin : min ((s.length : ℤ).toNat) (s ++ rest).length = s.length := by
      rw [Int.toNat_natCast, List.length_append]
      omega
    simp only [if_neg hnil, if_neg hzero, if_neg hneg, hmin, sub_self, lt_irrefl, if_false,
      List.take_left, List.drop_left]
    rfl

theorem reads_bulk {s : Str} (h : s.length ≤ LONG_MAX) :
    Reads (36 :: to_string s.length ++ crlf ++ s ++ crlf) (.bytes s false) := by
  intro p state rest hstate
  refine ⟨s, 0, ?_⟩
  have hshape : 36 :: to_string s.length ++ crlf ++ s ++ crlf ++ rest =
      36 :: (to_string s.length ++ 13 :: 10 :: (s ++ 13 :: 10 :: rest)) := by
    simp [crlf]
  rw [hshape, loop_first hstate]
  show RedisParser.loop { p with buf := [], bulkSize := 0 } .BulkSize
    (to_string s.length ++ 13 :: 10 :: (s ++ 13 :: 10 :: rest)) = _
  rw [loop_bulkString rfl h, loop_cons]
  show RedisParser.loop _ .BulkLF (10 :: rest) = _
  rw [loop_cons]
  rfl

theorem proceed_of_deliver (h : p.deliver = q.deliver) (rest : Str) :
    p.proceed .Start rest = q.proceed .Start rest := by
  simp only [proceed, if_true, h]

/-- **The elements of an open array close it**: by induction over the elements, each of
which counts the size down. -/
theorem loop_elements {ss : List Str} {vs : List RedisValue} (h : List.Forall₂ Reads ss vs) :
    ∀ {p : RedisParser} {state : State} {values : List RedisValue} {sizes : List ℤ}
      {arrays : List (List RedisValue)}, ss ≠ [] → state = .Start ∨ state = .StartArray →
      p.arraySizes = (ss.length : ℤ) :: sizes → p.arrayValues = values :: arrays → ∀ rest,
      ∃ buf bulkSize, p.loop state (ss.flatten ++ rest) =
        { p with
          buf := buf
          bulkSize := bulkSize
          redisValue := .array (values ++ vs)
          arraySizes := sizes
          arrayValues := arrays }.proceed .Start rest := by
  induction h with
  | nil => exact fun hne => absurd rfl hne
  | @cons s v ss vs hs hrest ih =>
      intro p state values sizes arrays _ hstate hsizes harrays rest
      rw [List.flatten_cons, List.append_assoc]
      obtain ⟨buf, bulkSize, hloop⟩ := hs p state (ss.flatten ++ rest) hstate
      rw [hloop]
      rcases ss with _ | ⟨s', ss⟩
      · obtain rfl : vs = [] := List.forall₂_nil_left_iff.mp hrest
        refine ⟨buf, bulkSize, proceed_of_deliver ?_ rest⟩
        simp [deliver, delivered, hsizes, harrays]
      · have hopen : ((s :: s' :: ss).length : ℤ) - 1 ≠ 0 := by
          simp only [List.length_cons]
          omega
        have hdeliver : { p with buf := buf, bulkSize := bulkSize, redisValue := v }.deliver =
            { p with
              buf := buf
              bulkSize := bulkSize
              redisValue := v
              arraySizes := ((s' :: ss).length : ℤ) :: sizes
              arrayValues := (values ++ [v]) :: arrays } := by
          simp only [deliver, hsizes, harrays, delivered, if_neg hopen]
          simp
        simp only [proceed, hdeliver, if_true, List.cons_ne_nil, if_false]
        obtain ⟨buf', bulkSize', hnext⟩ := ih (p := { p with
            buf := buf
            bulkSize := bulkSize
            redisValue := v
            arraySizes := ((s' :: ss).length : ℤ) :: sizes
            arrayValues := (values ++ [v]) :: arrays })
          (List.cons_ne_nil _ _) (Or.inl rfl) rfl rfl rest
        refine ⟨buf', bulkSize', ?_⟩
        rw [hnext]
        simp only [List.append_assoc, List.singleton_append, proceed, if_true]

theorem reads_array {ss : List Str} {vs : List RedisValue} (h : List.Forall₂ Reads ss vs)
    (hlength : ss.length ≤ LONG_MAX) :
    Reads (42 :: to_string ss.length ++ crlf ++ ss.flatten) (.array vs) := by
  intro p state rest hstate
  have hshape : 42 :: to_string ss.length ++ crlf ++ ss.flatten ++ rest =
      42 :: (to_string ss.length ++ 13 :: 10 :: (ss.flatten ++ rest)) := by
    simp [crlf]
  have hsize : p.loop state (42 :: to_string ss.length ++ crlf ++ ss.flatten ++ rest) =
      match arraySizeLF { p with buf := to_string ss.length } with
      | .error f => .error f
      | .ok (state, p, taken) => p.proceed state ((ss.flatten ++ rest).drop taken) := by
    rw [hshape, loop_first hstate]
    show RedisParser.loop { p with buf := [] } .ArraySize
      (to_string ss.length ++ 13 :: 10 :: (ss.flatten ++ rest)) = _
    rw [loop_number .ArraySize .ArraySizeLF (by decide) (by decide) (fun _ _ _ => rfl) rfl, loop_cons]
    rfl
  have hlong : bufToLong (to_string ss.length) = some (ss.length : ℤ) :=
    bufToLong_to_string (by simpa using hlength)
  have hnil : (ss.length : ℤ) ≠ -1 := by omega
  have hneg : ¬ (ss.length : ℤ) < 0 := by omega
  rw [hsize, arraySizeLF]
  simp only [hlong, if_neg hnil, if_neg hneg]
  by_cases hzero : (ss.length : ℤ) = 0
  · obtain rfl : ss = [] := List.length_eq_zero_iff.mp (by exact_mod_cast hzero)
    obtain rfl : vs = [] := List.forall₂_nil_left_iff.mp h
    exact ⟨_, p.bulkSize, rfl⟩
  · simp only [if_neg hzero, List.drop_zero]
    obtain ⟨buf, bulkSize, hloop⟩ := loop_elements h (p := { p with
        buf := to_string ss.length
        arraySizes := (ss.length : ℤ) :: p.arraySizes
        arrayValues := [] :: p.arrayValues })
      (fun hnone => hzero (by rw [hnone]; rfl)) (Or.inr rfl) rfl rfl rest
    refine ⟨buf, bulkSize, ?_⟩
    rw [proceed, if_neg (by decide), hloop]
    rfl

mutual

/-- **A reply is read as its value**, at the outside or in any array. -/
theorem reads_reply : ∀ {r : Reply}, r.Sound → Reads r.bytes r.value
  | .simple s, h => reads_simple h
  | .error s, h => reads_error h
  | .int i, h => reads_int h
  | .bulk s, h => reads_bulk h
  | .nullBulk, _ => reads_nullBulk
  | .nullArray, _ => reads_nullArray
  | .array replies, h => by
      have hreads := reads_array (reads_replies h.2) (by rw [List.length_map]; exact h.1)
      rw [List.length_map] at hreads
      rw [Reply.bytes, Reply.value, allBytes_eq]
      exact hreads

theorem reads_replies : ∀ {replies : List Reply}, Reply.AllSound replies →
    List.Forall₂ Reads (replies.map Reply.bytes) (Reply.values replies)
  | [], _ => .nil
  | _ :: _, h => .cons (reads_reply h.1) (reads_replies h.2)

end

/-! ## Streams of replies -/

/-- No value has been begun. -/
structure Between (p : RedisParser) : Prop where
  states : p.states = []
  arraySizes : p.arraySizes = []

theorem between_start : Between start := ⟨rfl, rfl⟩

theorem bytes_ne_nil : ∀ r : Reply, r.bytes ≠ []
  | .simple _ | .error _ | .int _ | .bulk _ | .nullBulk | .nullArray | .array _ =>
      List.cons_ne_nil _ _

/-- One call on one reply. -/
theorem read_reply {r : Reply} (h : r.Sound) (hp : p.Between) (rest : Str) :
    ∃ q, p.read (r.bytes ++ rest) = .value q r.value rest ∧ Between q := by
  obtain ⟨states, bulkSize, buf, redisValue, sizes, arrays⟩ := p
  obtain ⟨rfl, rfl⟩ := hp
  obtain ⟨buf', bulkSize', hloop⟩ :=
    reads_reply h ⟨[], bulkSize, buf, redisValue, [], arrays⟩ .Start rest (Or.inl rfl)
  refine ⟨⟨[], bulkSize', buf', .nil, [], arrays⟩, ?_, ⟨rfl, rfl⟩⟩
  simp only [read, parseChunk, hloop]
  rfl

theorem feed_reply {r : Reply} (h : r.Sound) (hp : p.Between) :
    ∃ q, feed read p r.bytes = ([r.value], .ok q) ∧ Between q := by
  obtain ⟨q, hread, hq⟩ := read_reply h hp []
  refine ⟨q, ?_, hq⟩
  rw [List.append_nil] at hread
  rw [← drain_eq_feed resumable r.bytes.length p r.bytes (Nat.le_refl _)]
  obtain ⟨c, cs, hcs⟩ := List.exists_cons_of_ne_nil (bytes_ne_nil r)
  rw [hcs] at hread ⊢
  rw [List.length_cons, drain, hread]
  cases cs <;> rfl

theorem feed_replies {replies : List Reply} (h : ∀ r ∈ replies, r.Sound) (hp : p.Between) :
    ∃ q, feed read p (replies.flatMap Reply.bytes) = (replies.map Reply.value, .ok q) ∧
      Between q :=
  feed_frames (fun r hr _ hs => feed_reply (h r hr) hs) hp

/-- What has been sent can be told apart in one way only. -/
theorem reply_append_inj {r r' : Reply} (h : r.Sound) (h' : r'.Sound) {rest rest' : Str}
    (heq : r.bytes ++ rest = r'.bytes ++ rest') : r.value = r'.value ∧ rest = rest' := by
  obtain ⟨q, hread, -⟩ := read_reply h between_start rest
  obtain ⟨q', hread', -⟩ := read_reply h' between_start rest'
  rw [heq, hread'] at hread
  obtain ⟨-, hvalue, hrest⟩ := Outcome.value.inj hread
  exact ⟨hvalue.symm, hrest.symm⟩

/-- **Replies are parsed to their values, each as soon as its last byte is there and not
before**, in whatever pieces they arrive. -/
theorem parse_replies {replies : List Reply} {next : Reply} {part missing : Str}
    {pieces : List Str} (h : ∀ r ∈ replies, r.Sound) (hnext : next.Sound)
    (hpart : part ++ missing = next.bytes) (hmissing : missing ≠ [])
    (hpieces : pieces.flatten = replies.flatMap Reply.bytes ++ part) :
    ∃ q, drains read start pieces = (replies.map Reply.value, .ok q) := by
  obtain ⟨mid, hmid, hbetween⟩ := feed_replies h between_start
  obtain ⟨q, hread, -⟩ := read_reply hnext hbetween []
  rw [List.append_nil] at hread
  obtain ⟨last, hlast⟩ := feed_part resumable hmissing (hpart ▸ hread)
  refine ⟨last, ?_⟩
  rw [drains_eq_feed resumable, hpieces, feed_append, hmid]
  simp only [hlast, andThen, List.append_nil]

/-- A confirmed subscription, `*3` of `$9 subscribe`, `$1 c` and `:1`, and the beginning
of `+OK`, in three pieces. -/
def confirmedPieces : List Str :=
  [[42, 51, 13, 10, 36, 57, 13, 10, 115, 117, 98, 115],
    [99, 114, 105, 98, 101, 13, 10, 36, 49, 13], [10, 99, 13, 10, 58, 49, 13, 10, 43, 79]]

theorem parse_replies_confirmed : ∃ q, drains read start confirmedPieces =
    ([.array [.bytes [115, 117, 98, 115, 99, 114, 105, 98, 101] false, .bytes [99] false, .int 1]],
      .ok q) := by
  have hsound : ∀ r ∈ [Reply.array [.bulk [115, 117, 98, 115, 99, 114, 105, 98, 101], .bulk [99],
      .int 1]], r.Sound := by
    intro r hr
    rw [List.mem_singleton.mp hr]
    simp [Reply.Sound, Reply.AllSound, LONG_MAX]
  have hnext : (Reply.simple [79, 75]).Sound := by
    simp [Reply.Sound, isChar, isControl]
  have hpieces : confirmedPieces.flatten = [Reply.array [.bulk [115, 117, 98, 115, 99, 114, 105, 98,
      101], .bulk [99], .int 1]].flatMap Reply.bytes ++ [43, 79] := by
    decide +kernel
  have hpart : [43, 79] ++ [75, 13, 10] = (Reply.simple [79, 75]).bytes := rfl
  exact parse_replies hsound hnext hpart (by decide) hpieces

end RedisParser

/-! ## Commands -/

def makeCommand (items : List Str) : Str :=
  42 :: to_string items.length ++ crlf ++
    items.flatMap (fun item => 36 :: to_string item.length ++ crlf ++ item ++ crlf)

/-- The sizes are within the range of `long int`. -/
structure Fits (items : List Str) : Prop where
  length : items.length ≤ LONG_MAX
  item : ∀ item ∈ items, item.length ≤ LONG_MAX

/-- **A command is an array of bulk strings.** -/
theorem makeCommand_eq (items : List Str) :
    makeCommand items = (Reply.array (items.map .bulk)).bytes := by
  rw [makeCommand, Reply.bytes, allBytes_eq, List.length_map, List.map_map, List.flatMap_def]
  rfl

theorem values_bulk : ∀ items : List Str,
    Reply.values (items.map .bulk) = items.map (fun item => .bytes item false)
  | [] => rfl
  | item :: items => by
      rw [List.map_cons, Reply.values, values_bulk items]
      rfl

theorem allSound_bulk : ∀ {items : List Str}, (∀ item ∈ items, item.length ≤ LONG_MAX) →
    Reply.AllSound (items.map .bulk)
  | [], _ => trivial
  | _ :: _, h =>
      ⟨h _ List.mem_cons_self, allSound_bulk (fun item hi => h item (List.mem_cons_of_mem _ hi))⟩

theorem sound_command {items : List Str} (h : Fits items) :
    (Reply.array (items.map .bulk)).Sound :=
  ⟨by rw [List.length_map]; exact h.length, allSound_bulk h.item⟩

/-- A server can tell where a command ends, and what its items are. -/
theorem makeCommand_append_inj {items items' : List Str} (h : Fits items) (h' : Fits items')
    {rest rest' : Str} (heq : makeCommand items ++ rest = makeCommand items' ++ rest') :
    items = items' ∧ rest = rest' := by
  rw [makeCommand_eq, makeCommand_eq] at heq
  obtain ⟨hvalue, hrest⟩ := RedisParser.reply_append_inj (sound_command h) (sound_command h') heq
  rw [Reply.value, Reply.value, values_bulk, values_bulk] at hvalue
  refine ⟨List.map_injective_iff.mpr ?_ (RedisValue.array.inj hvalue), hrest⟩
  exact fun _ _ h => (RedisValue.bytes.inj h).1

end Redisclient

end WaiNative

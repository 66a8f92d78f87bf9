import RedisClient.Value

/-! # The parser

`parseChunk` as the source computes it: a loop over the bytes of a chunk, a switch on the state, and
two stacks for the open arrays (how many elements are still to come, and the elements so far). The
rest of the chunk, `ptr[position .. size)`, stands for `position`; a call reports
`size - rest.length` bytes.

`none` is what the language leaves undefined or what throws (`top()` of an empty stack, `getArray()`
of something else, a byte count that is not positive in the state `Bulk`): `Machine` shows that no
run of the parser gets there. The calls of `reserve` have no effect here: they succeed. `Reserve` has
the calls in which one of them throws. -/

namespace RedisClient.Parser.Defs

open RedisClient.Value

/-! ### Characters and numbers -/

abbrev CR : UInt8 := 13
abbrev LF : UInt8 := 10
abbrev minus : UInt8 := 45

abbrev stringReply : UInt8 := 43
abbrev errorReply : UInt8 := 45
abbrev integerReply : UInt8 := 58
abbrev bulkReply : UInt8 := 36
abbrev arrayReply : UInt8 := 42

/-- A `char`, which is signed, as an `int`. -/
def charInt (c : UInt8) : ℤ := if c.toNat < 128 then c.toNat else c.toNat - 256

def isChar (c : ℤ) : Bool := 0 ≤ c ∧ c ≤ 127

def isControl (c : ℤ) : Bool := (0 ≤ c ∧ c ≤ 31) ∨ c = 127

/-- `isdigit` of the C library. -/
def isDigit (c : UInt8) : Bool := 48 ≤ c.toNat ∧ c.toNat ≤ 57

/-- The value of a `long int` computation: 64 bits, two's complement. -/
def wrap64 (x : ℤ) : ℤ :=
  (x + 9223372036854775808) % 18446744073709551616 - 9223372036854775808

/-- One round of the loop of `bufToLong`. -/
def addDigit (value : ℤ) (c : UInt8) : ℤ := wrap64 (wrap64 (value * 10) + (charInt c - 48))

/-- `bufToLong`, in the release build: the characters are not checked. -/
def bufToLong : Bytes → ℤ
  | [] => 0
  | c :: str =>
    if c = minus then
      if str = [] then 0 else wrap64 (-(str.foldl addDigit 0))
    else (c :: str).foldl addDigit 0

/-! ### The state -/

inductive State where
  | start | startArray
  | string | stringLF
  | errorString | errorLF
  | integer | integerLF
  | bulkSize | bulkSizeLF | bulk | bulkCR | bulkLF
  | arraySize | arraySizeLF
  deriving DecidableEq

inductive ParseResult where
  | completed | incompleted | error
  deriving DecidableEq

/-- The members of `RedisParser`; the tops of the stacks are the heads of the lists. -/
structure RedisParser where
  states : List State
  bulkSize : ℤ
  buf : Bytes
  redisValue : RedisValue
  arraySizes : List ℤ
  arrayValues : List RedisValue
  deriving DecidableEq

/-- The constructor. -/
def fresh : RedisParser where
  states := []
  bulkSize := 0
  buf := []
  redisValue := .null
  arraySizes := []
  arrayValues := []

/-- `std::stack<State>().swap(states)`. -/
def clearStates (p : RedisParser) : RedisParser := { p with states := [] }

/-- `buf.push_back(c)`. -/
def pushBuf (p : RedisParser) (c : UInt8) : RedisParser := { p with buf := p.buf ++ [c] }

/-! ### One round of the loop -/

/-- What the switch leads to. -/
inductive Turn where
  | undefined
  | error (p : RedisParser)
  | next (rest : Bytes) (state : State) (p : RedisParser)

/-- The states `String` and `ErrorString`: printable characters up to a CR. -/
def lineChar (c : UInt8) (rest : Bytes) (here after : State) (p : RedisParser) : Turn :=
  if c = CR then .next rest after p
  else if isChar (charInt c) && !isControl (charInt c) then .next rest here (pushBuf p c)
  else .error (clearStates p)

/-- The states `Integer`, `BulkSize` and `ArraySize`: digits and minus signs up to a CR, at least
one. -/
def numeralChar (c : UInt8) (rest : Bytes) (here after : State) (p : RedisParser) : Turn :=
  if c = CR then
    if p.buf = [] then .error (clearStates p) else .next rest after p
  else if isDigit c || c = minus then .next rest here (pushBuf p c)
  else .error (clearStates p)

/-- The first byte of a reply. -/
def startChar (c : UInt8) (rest : Bytes) (p : RedisParser) : Turn :=
  let p := { p with buf := [] }
  if c = stringReply then .next rest .string p
  else if c = errorReply then .next rest .errorString p
  else if c = integerReply then .next rest .integer p
  else if c = bulkReply then .next rest .bulkSize { p with bulkSize := 0 }
  else if c = arrayReply then .next rest .arraySize p
  else .error p

/-- The LF after the length of a bulk string, where `buf.reserve(bulkSize)` succeeds. What the chunk
holds of the string is copied at once. -/
def bulkSizeEnd (rest : Bytes) (p : RedisParser) : Turn :=
  let p := { p with bulkSize := bufToLong p.buf, buf := [] }
  if p.bulkSize = -1 then .next rest .start { p with redisValue := .null }
  else if p.bulkSize = 0 then .next rest .bulkCR p
  else if p.bulkSize < 0 then .error (clearStates p)
  else
    let available : ℤ := rest.length
    let canRead := min p.bulkSize available
    let (rest, p) :=
      if canRead > 0 then
        (rest.drop canRead.toNat,
          { p with buf := rest.take canRead.toNat, bulkSize := p.bulkSize - canRead })
      else (rest, p)
    if p.bulkSize > 0 then .next rest .bulk p else .next rest .bulkCR p

/-- The state `Bulk`: the byte `c` and as many of the following as are wanted and there. -/
def bulkBytes (c : UInt8) (rest : Bytes) (p : RedisParser) : Turn :=
  if p.bulkSize ≤ 0 then .undefined
  else
    let available : ℤ := rest.length + 1
    let canRead := min available p.bulkSize
    let p := { p with
      buf := p.buf ++ (c :: rest).take canRead.toNat
      bulkSize := p.bulkSize - canRead }
    let rest := rest.drop (canRead - 1).toNat
    if p.bulkSize = 0 then .next rest .bulkCR p else .next rest .bulk p

/-- The LF after the length of an array, where `array.reserve(arraySize)` succeeds. -/
def arraySizeEnd (rest : Bytes) (p : RedisParser) : Turn :=
  let arraySize := bufToLong p.buf
  if arraySize = -1 then .next rest .start { p with redisValue := .null }
  else if arraySize = 0 then .next rest .start { p with redisValue := .array [] }
  else if arraySize < 0 then .error (clearStates p)
  else .next rest .startArray { p with
    arraySizes := arraySize :: p.arraySizes
    arrayValues := .array [] :: p.arrayValues }

/-- The switch. `rest` is what follows the byte `c` in the chunk. -/
def switchState (c : UInt8) (rest : Bytes) (state : State) (p : RedisParser) : Turn :=
  match state with
  | .start | .startArray => startChar c rest p
  | .string => lineChar c rest .string .stringLF p
  | .errorString => lineChar c rest .errorString .errorLF p
  | .bulkSize => numeralChar c rest .bulkSize .bulkSizeLF p
  | .stringLF =>
    if c = LF then .next rest .start { p with redisValue := .bytes p.buf false }
    else .error (clearStates p)
  | .errorLF =>
    if c = LF then .next rest .start { p with redisValue := .bytes p.buf true }
    else .error (clearStates p)
  | .bulkSizeLF => if c = LF then bulkSizeEnd rest p else .error (clearStates p)
  | .bulk => bulkBytes c rest p
  | .bulkCR => if c = CR then .next rest .bulkLF p else .error (clearStates p)
  | .bulkLF =>
    if c = LF then .next rest .start { p with redisValue := .bytes p.buf false }
    else .error (clearStates p)
  | .arraySize => numeralChar c rest .arraySize .arraySizeLF p
  | .arraySizeLF => if c = LF then arraySizeEnd rest p else .error (clearStates p)
  | .integer => numeralChar c rest .integer .integerLF p
  | .integerLF =>
    if c = LF then
      .next rest .start { p with redisValue := .int (bufToLong p.buf), buf := [] }
    else .error (clearStates p)

/-! ### Closing arrays -/

/-- `arrayValues.top().getArray().push_back(v)`. -/
def pushTop (v : RedisValue) : List RedisValue → Option (List RedisValue)
  | [] => none
  | top :: values => top.getArray.map fun items => .array (items ++ [v]) :: values

/-- The loop `while (!arraySizes.empty() && --arraySizes.top() == 0)`: the innermost array has got
its last element, so it is itself an element of the next one. -/
def closeLoop : List ℤ → List RedisValue → RedisValue → Option (List ℤ × List RedisValue × RedisValue)
  | [], values, v => some ([], values, v)
  | n :: sizes, values, v =>
    if n - 1 = 0 then
      match values with
      | [] => none
      | top :: values =>
        if sizes = [] then some ([], values, top)
        else (pushTop top values).bind fun values => closeLoop sizes values top
    else some ((n - 1) :: sizes, values, v)

/-- What follows the switch when the state is `Start`: the value joins the open arrays. -/
def closeReply (p : RedisParser) : Option RedisParser :=
  if p.arraySizes = [] then some p
  else
    (pushTop p.redisValue p.arrayValues).bind fun values =>
    (closeLoop p.arraySizes values p.redisValue).map fun (sizes, values, v) =>
      { p with arraySizes := sizes, arrayValues := values, redisValue := v }

/-! ### The loop -/

/-- What follows the loop. -/
def finish (rest : Bytes) (state : State) (p : RedisParser) : Bytes × ParseResult × RedisParser :=
  if p.arraySizes = [] ∧ state = .start then (rest, .completed, p)
  else (rest, .incompleted, { p with states := state :: p.states })

/-- The loop, with a bound on the number of rounds: every round takes a byte, so the length of the
chunk is enough. -/
def parseLoop : ℕ → Bytes → State → RedisParser → Option (Bytes × ParseResult × RedisParser)
  | 0, rest, state, p => some (finish rest state p)
  | _ + 1, [], state, p => some (finish [] state p)
  | fuel + 1, c :: rest, state, p =>
    match switchState c rest state p with
    | .undefined => none
    | .error p => some (rest, .error, p)
    | .next rest state p =>
      if state = .start then
        match closeReply p with
        | none => none
        | some p =>
          if p.arraySizes = [] then some (finish rest .start p)
          else parseLoop fuel rest .start p
      else parseLoop fuel rest state p

def parseChunk (p : RedisParser) (ptr : Bytes) : Option ((ℕ × ParseResult) × RedisParser) :=
  let (state, p) : State × RedisParser :=
    match p.states with
    | [] => (.start, p)
    | state :: states => (state, { p with states := states })
  (parseLoop ptr.length ptr state p).map fun (rest, result, p) =>
    ((ptr.length - rest.length, result), p)

/-- `parse`. -/
def parse (p : RedisParser) (ptr : Bytes) : Option ((ℕ × ParseResult) × RedisParser) :=
  parseChunk p ptr

/-- `result`: the value, and the parser it has been moved out of. -/
def result (p : RedisParser) : RedisValue × RedisParser :=
  (p.redisValue, { p with redisValue := p.redisValue.movedFrom })

/-- Between two replies: no state is saved and no array is open. -/
def Idle (p : RedisParser) : Prop := p.states = [] ∧ p.arraySizes = [] ∧ p.arrayValues = []

instance (p : RedisParser) : Decidable (Idle p) := by unfold Idle; infer_instance

/-- The parsers that calls on nonempty chunks lead to, with calls of `result` in between. -/
inductive Reachable : RedisParser → Prop
  | fresh : Reachable fresh
  | parse {p p' : RedisParser} {ptr : Bytes} {r : ℕ × ParseResult} :
      Reachable p → ptr ≠ [] → parse p ptr = some (r, p') → Reachable p'
  | result {p : RedisParser} : Reachable p → Reachable (result p).2

end RedisClient.Parser.Defs

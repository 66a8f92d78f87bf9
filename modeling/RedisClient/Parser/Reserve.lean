import RedisClient.Parser.Rounds

/-! # Room for what is announced

The parser reserves what a reply announces before any of it is there: `buf.reserve(bulkSize)` for a
bulk string and `array.reserve(arraySize)` for an array. `reserve` throws `std::length_error` beyond
`max_size()` and `std::bad_alloc` where there is no memory, and nothing catches that in `parse`.
`parseReserve` is `parse` with this exit. Whether there is memory is an input of the call.

A call throws exactly where a round of `parse` asks for room that it does not get
(`parseReserve_eq`), and otherwise it is `parse`. The stacks stay consistent either way, and a call that
returns makes progress (`parse_keeps_or_throws`). -/

namespace RedisClient.Parser.Reserve

open RedisClient.Value RedisClient.Parser.Defs RedisClient.Parser.Machine RedisClient.Parser.Refine
open RedisClient.Parser.Rounds

/-! ### `reserve` -/

/-- What `reserve` is asked for: characters of `buf`, or elements of an array. -/
inductive Room where
  | chars (n : ℤ)
  | values (n : ℤ)
  deriving DecidableEq

/-- `PTRDIFF_MAX`. -/
abbrev ptrdiffMax : ℤ := 9223372036854775807

/-- `sizeof(RedisValue)`: a variant with vectors in it, and a flag. -/
abbrev sizeofRedisValue : ℤ := 40

/-- Not beyond `max_size()`: a vector has at most `PTRDIFF_MAX` bytes. -/
def Room.withinMaxSize : Room → Bool
  | .chars n => n ≤ ptrdiffMax
  | .values n => n ≤ ptrdiffMax / sizeofRedisValue

/-- The memory during a call: whether there is the room that is asked for, at the moment when so many
bytes of the chunk are left. -/
abbrev Memory := ℕ → Room → Bool

/-- A memory without end. -/
def endless : Memory := fun _ _ => true

/-- `reserve` returns; otherwise it throws. -/
def reserve (mem : Memory) (left : ℕ) (room : Room) : Bool := room.withinMaxSize && mem left room

/-! ### The call -/

/-- `bulkSizeEnd`, or the parser that is left when `buf.reserve(bulkSize)` throws. -/
def bulkSizeEndReserve (mem : Memory) (rest : Bytes) (p : RedisParser) : Except RedisParser Turn :=
  let bulkSize := bufToLong p.buf
  if bulkSize > 0 && !reserve mem rest.length (.chars bulkSize) then
    .error { p with bulkSize := bulkSize, buf := [] }
  else .ok (bulkSizeEnd rest p)

/-- `arraySizeEnd`, or the parser that is left when `array.reserve(arraySize)` throws. -/
def arraySizeEndReserve (mem : Memory) (rest : Bytes) (p : RedisParser) : Except RedisParser Turn :=
  let arraySize := bufToLong p.buf
  if arraySize > 0 && !reserve mem rest.length (.values arraySize) then .error p
  else .ok (arraySizeEnd rest p)

/-- The switch. -/
def switchReserve (mem : Memory) (c : UInt8) (rest : Bytes) (state : State) (p : RedisParser) :
    Except RedisParser Turn :=
  match state with
  | .bulkSizeLF =>
    if c = LF then bulkSizeEndReserve mem rest p else .ok (.error (clearStates p))
  | .arraySizeLF =>
    if c = LF then arraySizeEndReserve mem rest p else .ok (.error (clearStates p))
  | state => .ok (switchState c rest state p)

/-- `parseLoop`, which an exception leaves with the parser as it is then. -/
def parseLoopReserve (mem : Memory) : ℕ → Bytes → State → RedisParser →
    Option (Except RedisParser (Bytes × ParseResult × RedisParser))
  | 0, rest, state, p => some (.ok (finish rest state p))
  | _ + 1, [], state, p => some (.ok (finish [] state p))
  | fuel + 1, c :: rest, state, p =>
    match switchReserve mem c rest state p with
    | .error p => some (.error p)
    | .ok .undefined => none
    | .ok (.error p) => some (.ok (rest, .error, p))
    | .ok (.next rest state p) =>
      if state = .start then
        match closeReply p with
        | none => none
        | some p =>
          if p.arraySizes = [] then some (.ok (finish rest .start p))
          else parseLoopReserve mem fuel rest .start p
      else parseLoopReserve mem fuel rest state p

/-- `parse`. The state has been taken off its stack when the loop begins, and an exception does not
put it back. -/
def parseReserve (mem : Memory) (p : RedisParser) (ptr : Bytes) :
    Option (Except RedisParser ((ℕ × ParseResult) × RedisParser)) :=
  let left :=
    match p.states with
    | [] => parseLoopReserve mem ptr.length ptr .start p
    | state :: states => parseLoopReserve mem ptr.length ptr state { p with states := states }
  left.map (Except.map fun left => ((ptr.length - left.1.length, left.2.1), left.2.2))

/-- The parsers that calls on nonempty chunks lead to, of which any may have thrown, with calls of
`result` in between. -/
inductive Reached : RedisParser → Prop
  | fresh : Reached fresh
  | returns {mem : Memory} {p p' : RedisParser} {ptr : Bytes} {r : ℕ × ParseResult} :
      Reached p → ptr ≠ [] → parseReserve mem p ptr = some (.ok (r, p')) → Reached p'
  | throws {mem : Memory} {p p' : RedisParser} {ptr : Bytes} :
      Reached p → ptr ≠ [] → parseReserve mem p ptr = some (.error p') → Reached p'
  | result {p : RedisParser} : Reached p → Reached (result p).2

/-! ### Where a call throws -/

/-- What a round leaves if its `reserve` throws. -/
def thrown (mem : Memory) (r : Round) : Option RedisParser :=
  match r.left with
  | [] => none
  | c :: rest =>
    match switchReserve mem c rest r.state r.parser with
    | .error p => some p
    | .ok _ => none

/-- With the room it asks for, the switch is that of `parse`. -/
theorem switchReserve_ok {mem : Memory} {c : UInt8} {rest : Bytes} {state : State}
    {p : RedisParser} {turn : Turn} (h : switchReserve mem c rest state p = .ok turn) :
    switchState c rest state p = turn := by
  cases state <;> simp only [switchReserve, bulkSizeEndReserve, arraySizeEndReserve] at h
  case bulkSizeLF | arraySizeLF =>
    simp only [switchState]
    split_ifs at h ⊢ <;> exact Except.ok.inj h
  all_goals exact Except.ok.inj h

/-- An exception leaves the stacks as they are. -/
theorem switchReserve_error {mem : Memory} {c : UInt8} {rest : Bytes} {state : State}
    {p q : RedisParser} (h : switchReserve mem c rest state p = .error q) :
    ∃ bulkSize buf, q = { p with bulkSize := bulkSize, buf := buf } := by
  cases state <;> simp only [switchReserve, bulkSizeEndReserve, arraySizeEndReserve] at h
  case bulkSizeLF | arraySizeLF =>
    split_ifs at h
    cases h
    exact ⟨_, _, rfl⟩
  all_goals cases h

/-- **The loop throws where the first of its rounds does**, and otherwise it is that of `parse`. -/
theorem parseLoopReserve_eq (mem : Memory) : ∀ (fuel : ℕ) (rest : Bytes) (state : State)
    (p : RedisParser), parseLoopReserve mem fuel rest state p =
      match (loopRounds fuel rest state p).findSome? (thrown mem) with
      | some q => some (.error q)
      | none => (parseLoop fuel rest state p).map .ok
  | 0, _, _, _ => rfl
  | _ + 1, [], _, _ => rfl
  | fuel + 1, c :: rest, state, p => by
    have ih := parseLoopReserve_eq mem fuel
    have hround : thrown mem ⟨c :: rest, state, p⟩ =
        match switchReserve mem c rest state p with
        | .error q => some q
        | .ok _ => none := rfl
    rw [loopRounds, List.findSome?_cons, hround, parseLoopReserve, parseLoop]
    rcases hs : switchReserve mem c rest state p with q | turn
    · rfl
    · rw [switchReserve_ok hs]
      rcases turn with _ | q | ⟨rest', state', q⟩
      · rfl
      · rfl
      · dsimp only
        split_ifs with hst
        · rcases closeReply q with _ | q'
          · rfl
          · dsimp only
            split_ifs
            · rfl
            · exact ih rest' .start q'
        · exact ih rest' state' q

/-- **A call throws where the first of its rounds does**, and otherwise it is `parse`. -/
theorem parseReserve_eq (mem : Memory) (p : RedisParser) (ptr : Bytes) : parseReserve mem p ptr =
    match (parseRounds p ptr).findSome? (thrown mem) with
    | some q => some (.error q)
    | none => (parse p ptr).map .ok := by
  have hcall : ∀ (state : State) (q : RedisParser),
      (parseLoopReserve mem ptr.length ptr state q).map
          (Except.map fun left => ((ptr.length - left.1.length, left.2.1), left.2.2)) =
        match (loopRounds ptr.length ptr state q).findSome? (thrown mem) with
        | some q => some (.error q)
        | none => ((parseLoop ptr.length ptr state q).map
            fun left => ((ptr.length - left.1.length, left.2.1), left.2.2)).map .ok := by
    intro state q
    rw [parseLoopReserve_eq]
    rcases (loopRounds ptr.length ptr state q).findSome? (thrown mem) with _ | q'
    · rcases parseLoop ptr.length ptr state q with _ | left <;> rfl
    · rfl
  unfold parseReserve parse parseChunk parseRounds
  rcases p.states with _ | ⟨state, states⟩
  · exact hcall .start p
  · exact hcall state { p with states := states }

/-! ### What a call keeps -/

/-- What a round leaves that throws is laid out as a configuration, with no state saved. -/
theorem thrown_layout {mem : Memory} {r : Round} {q : RedisParser} {c : Config}
    (hp : r.parser = toParser c []) (h : thrown mem r = some q) :
    ∃ c', c'.state = .start ∧ q = toParser c' [] := by
  unfold thrown at h
  rcases hl : r.left with _ | ⟨b, rest⟩ <;> rw [hl] at h
  · cases h
  · dsimp only at h
    rcases hs : switchReserve mem b rest r.state r.parser with q' | turn <;> rw [hs] at h
    · cases h
      obtain ⟨bulkSize, buf, rfl⟩ := switchReserve_error hs
      rw [hp]
      exact ⟨{ c with state := .start, bulkSize := bulkSize, buf := buf }, rfl, rfl⟩
    · cases h

/-- A call that throws, on a parser that is a layout. -/
theorem throws_layout {mem : Memory} {p q : RedisParser} {c : Config} {ptr : Bytes} (hrep : Rep p c)
    (hok : Ok c) (h : (parseRounds p ptr).findSome? (thrown mem) = some q) :
    ∃ c', c'.state = .start ∧ q = toParser c' [] := by
  obtain ⟨r, hr, hthrown⟩ := List.exists_of_findSome?_eq_some h
  obtain ⟨c', -, -, hp, -⟩ := parseRounds_layout hrep hok r hr
  exact thrown_layout hp hthrown

/-- **Every parser is a layout of the machine**, also after calls that have thrown. -/
theorem rep_of_reached {p : RedisParser} (h : Reached p) : ∃ c, Rep p c ∧ Ok c := by
  induction h with
  | fresh => exact ⟨init, rep_fresh, ok_init⟩
  | @returns mem p p' ptr r _ hne hcall ih =>
    obtain ⟨c, hrep, hok⟩ := ih
    rw [parseReserve_eq] at hcall
    rcases hf : (parseRounds p ptr).findSome? (thrown mem) with _ | q <;> rw [hf] at hcall
    · obtain ⟨left, hparse, hleft⟩ := Option.map_eq_some_iff.mp hcall
      cases hleft
      rw [eq_after hrep hok hne hparse]
      exact ⟨_, rep_after _ _, ok_next (run_ok hok _)⟩
    · cases hcall
  | @throws mem p p' ptr _ _ hcall ih =>
    obtain ⟨c, hrep, hok⟩ := ih
    rw [parseReserve_eq] at hcall
    rcases hf : (parseRounds p ptr).findSome? (thrown mem) with _ | q <;> rw [hf] at hcall
    · dsimp only at hcall
      obtain ⟨_, -, hok⟩ := Option.map_eq_some_iff.mp hcall
      cases hok
    · cases hcall
      obtain ⟨c', hs, rfl⟩ := throws_layout hrep hok hf
      refine ⟨c', Or.inr ⟨hs, rfl⟩, fun hb => ?_⟩
      rw [hs] at hb
      cases hb
  | result _ ih =>
    obtain ⟨c, hrep, hok⟩ := ih
    exact ⟨_, rep_result hrep, hok⟩

/-- **The parser keeps its stacks consistent, and a call that returns makes progress.** In each round of
a call on a nonempty chunk, and after it, the stacks are consistent; nothing but the chunk is read; and
in the state `Bulk` something is missing. If every `reserve` of the call succeeds, it returns: it takes
at least one byte, and all of them if the reply is not complete. Otherwise it throws, and no state is
saved. -/
theorem parse_keeps_or_throws {p : RedisParser} (hp : Reached p) {ptr : Bytes} (hptr : ptr ≠ [])
    (mem : Memory) : Consistent p ∧ (∀ r ∈ parseRounds p ptr, Sound ptr.length r) ∧
      ((∀ r ∈ parseRounds p ptr, thrown mem r = none) →
        ∃ k r p', parseReserve mem p ptr = some (.ok ((k, r), p')) ∧ 1 ≤ k ∧ k ≤ ptr.length ∧
          (r = .incompleted → k = ptr.length) ∧ Consistent p' ∧ Saved p' r) ∧
      ((∃ r ∈ parseRounds p ptr, thrown mem r ≠ none) →
        ∃ p', parseReserve mem p ptr = some (.error p') ∧ Consistent p' ∧ p'.states = []) := by
  obtain ⟨c, hrep, hok⟩ := rep_of_reached hp
  obtain ⟨hcons, hsound, k, r, p', hparse, hk⟩ := call_keeps hrep hok hptr
  refine ⟨hcons, hsound, fun hgranted => ?_, fun hrefused => ?_⟩
  · have hnone := List.findSome?_eq_none_iff.mpr hgranted
    refine ⟨k, r, p', ?_, hk⟩
    rw [parseReserve_eq, hnone, hparse]
    rfl
  · rcases hf : (parseRounds p ptr).findSome? (thrown mem) with _ | q
    · obtain ⟨r, hr, hthrown⟩ := hrefused
      exact absurd (List.findSome?_eq_none_iff.mp hf r hr) hthrown
    · obtain ⟨c', -, rfl⟩ := throws_layout hrep hok hf
      refine ⟨toParser c' [], ?_, consistent_toParser c' [], rfl⟩
      rw [parseReserve_eq, hf]

/-! ### Three calls -/

/-- An array is opened, and a bulk string is cut in the middle. -/
def cut : Bytes := chars "*1\r\n$3\r\na"

/-- An array of more elements than any vector can have. -/
def tooLong : Bytes := chars "*9223372036854775807\r\n"

/-- With room for it the first call comes back with both open; without, it throws. -/
theorem parse_keeps_or_throws_cut :
    (∃ p', parseReserve endless fresh cut = some (.ok ((9, .incompleted), p')) ∧
      Saved p' .incompleted) ∧
    ∃ p', parseReserve (fun _ _ => false) fresh cut = some (.error p') ∧ p'.states = [] := by
  have hne : cut ≠ [] := by decide
  obtain ⟨-, -, hreturns, -⟩ := parse_keeps_or_throws .fresh hne endless
  obtain ⟨-, -, -, hthrows⟩ := parse_keeps_or_throws .fresh hne fun _ _ => false
  constructor
  · obtain ⟨k, r, p', h, -, -, -, -, hs⟩ := hreturns (by decide +kernel)
    have hr : (parseReserve endless fresh cut).bind
        (fun o => o.toOption.map Prod.fst) = some (9, .incompleted) := by decide +kernel
    rw [h] at hr
    cases hr
    exact ⟨p', h, hs⟩
  · obtain ⟨p', h, -, hs⟩ := hthrows (by decide +kernel)
    exact ⟨p', h, hs⟩

/-- **The length of an array is too much for any memory**: the call takes no bytes and reports
nothing. -/
theorem array_length_throws : Reached fresh ∧ tooLong ≠ [] ∧
    (∃ p', parseReserve endless fresh tooLong = some (.error p')) ∧
    ¬ ∃ k r p', parseReserve endless fresh tooLong = some (.ok ((k, r), p')) ∧ 1 ≤ k ∧
      k ≤ tooLong.length := by
  have hthrows : ∃ p', parseReserve endless fresh tooLong = some (.error p') := by
    refine ⟨{ fresh with buf := chars "9223372036854775807" }, ?_⟩
    decide +kernel
  refine ⟨.fresh, by decide, hthrows, ?_⟩
  rintro ⟨k, r, p', h, -⟩
  obtain ⟨q, hq⟩ := hthrows
  rw [hq] at h
  cases h

end RedisClient.Parser.Reserve

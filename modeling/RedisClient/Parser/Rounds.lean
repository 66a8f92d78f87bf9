import RedisClient.Parser.Refine

/-! # The rounds of the loop

What a call of `parse` goes through: the state and the parser before each round of the loop
(`parseRounds`), and the positions of the chunk that the round reads (`Round.reads`), with the source's
arithmetic on `position`. The stacks stay consistent in every round and after every call, nothing is
read outside of the chunk, and every call takes at least one byte (`call_keeps`). This is `parse` with
room for all that is announced; `Reserve` has the calls that end for lack of it. -/

namespace RedisClient.Parser.Rounds

open RedisClient.Value RedisClient.Lib.Reader RedisClient.Parser.Defs RedisClient.Parser.Machine
open RedisClient.Parser.Refine

/-! ### What a call goes through -/

/-- The beginning of a round: what is left of the chunk, the state and the parser. -/
structure Round where
  left : Bytes
  state : State
  parser : RedisParser

/-- The rounds of `parseLoop`, in order. -/
def loopRounds : ℕ → Bytes → State → RedisParser → List Round
  | 0, _, _, _ => []
  | _ + 1, [], _, _ => []
  | fuel + 1, c :: rest, state, p =>
    ⟨c :: rest, state, p⟩ ::
      match switchState c rest state p with
      | .undefined => []
      | .error _ => []
      | .next rest state p =>
        if state = .start then
          match closeReply p with
          | none => []
          | some p => if p.arraySizes = [] then [] else loopRounds fuel rest .start p
        else loopRounds fuel rest state p

/-- The rounds of a call of `parse`. -/
def parseRounds (p : RedisParser) (ptr : Bytes) : List Round :=
  match p.states with
  | [] => loopRounds ptr.length ptr .start p
  | state :: states => loopRounds ptr.length ptr state { p with states := states }

/-- The piece `ptr[first .. last)` of a chunk. -/
structure Piece where
  first : ℤ
  last : ℤ

/-- What a round reads of a chunk of `size` bytes: the byte at `position`, and the bytes of a bulk
string that are copied at once. `position` is counted up before the switch. -/
def Round.reads (size : ℕ) (r : Round) : List Piece :=
  let position : ℤ := size - r.left.length + 1
  ⟨position - 1, position⟩ ::
    match r.state with
    | .bulkSizeLF =>
      let bulkSize := bufToLong r.parser.buf
      let available := size - position
      let canRead := min bulkSize available
      if r.left.head? = some LF ∧ 0 < bulkSize ∧ 0 < canRead then [⟨position, position + canRead⟩]
      else []
    | .bulk =>
      let available := size - position + 1
      let canRead := min available r.parser.bulkSize
      [⟨position - 1, position - 1 + canRead⟩]
    | _ => []

/-- A piece that is there. -/
def Piece.Within (size : ℕ) (piece : Piece) : Prop :=
  0 ≤ piece.first ∧ piece.first ≤ piece.last ∧ piece.last ≤ size

/-! ### The stacks -/

/-- The two stacks belong together: for each open array there is how many elements are still to
come, at least one, and an array of the elements so far. -/
structure Consistent (p : RedisParser) : Prop where
  height : p.arraySizes.length = p.arrayValues.length
  sizes : ∀ n ∈ p.arraySizes, 1 ≤ n
  values : ∀ v ∈ p.arrayValues, ∃ items, v = .array items

/-- What can be said of a parser after a call. -/
def Saved (p : RedisParser) : ParseResult → Prop
  | .completed => p.states = [] ∧ p.arraySizes = []
  | .error => p.states = []
  | .incompleted => ∃ state, p.states = [state] ∧
      (state = .start ∨ state = .startArray → p.arraySizes ≠ []) ∧ (state = .bulk → 0 < p.bulkSize)

/-- A round of a call on `size` bytes. -/
structure Sound (size : ℕ) (r : Round) : Prop where
  states : r.parser.states = []
  consistent : Consistent r.parser
  bulk : r.state = .bulk → 0 < r.parser.bulkSize
  reads : ∀ piece ∈ r.reads size, piece.Within size

theorem consistent_toParser (c : Config) (states : List State) : Consistent (toParser c states) where
  height := by simp [toParser]
  sizes := by
    intro n hn
    obtain ⟨f, -, rfl⟩ := List.mem_map.mp hn
    omega
  values := by
    intro v hv
    obtain ⟨f, -, rfl⟩ := List.mem_map.mp hv
    exact ⟨f.items, rfl⟩

theorem consistent_of_rep {p : RedisParser} {c : Config} (h : Rep p c) : Consistent p := by
  rcases h with rfl | ⟨-, rfl⟩ <;> exact consistent_toParser c _

/-! ### One round -/

/-- What the switch leads to is laid out as a configuration again, and the chunk gets shorter. -/
theorem switchState_ok {c : Config} (hc : Ok c) (b : UInt8) (rest : Bytes) :
    (∃ c', switchState b rest c.state (toParser c []) = .error (toParser c' [])) ∨
      ∃ c' rest', Ok c' ∧ rest' <:+ rest ∧
        switchState b rest c.state (toParser c []) = .next rest' c'.state (toParser c' []) := by
  by_cases hb : c.state = .bulk
  · obtain ⟨k, hk1, -, hk3, hk⟩ := bulkBytes_toParser b rest (hc hb)
    refine Or.inr ⟨_, _, ok_afterBulk _ hk3, ?_, by rw [hb]; exact hk⟩
    obtain ⟨k, rfl⟩ := Nat.exists_eq_add_of_le' hk1
    exact List.drop_suffix k rest
  by_cases hs : c.state = .bulkSizeLF ∧ b = LF ∧ 0 < bufToLong c.buf
  · obtain ⟨hs, rfl, hp⟩ := hs
    obtain ⟨k, -, hk2, hk⟩ := bulkSizeEnd_toParser rest hp
    set c1 : Config := { c with state := .bulk, bulkSize := bufToLong c.buf, buf := [] }
    refine Or.inr ⟨afterBulk c1 rest k, _, ok_afterBulk rest hk2, List.drop_suffix k rest, ?_⟩
    rw [hs]
    simpa only [switchState, if_true] using hk
  · have hsw : switchState b rest c.state (toParser c []) = turnOf rest (lex c b) :=
      switchState_toParser b rest hb fun h1 h2 => by
        by_contra h3
        exact hs ⟨h1, h2, by omega⟩
    rcases hx : lex c b with c' | c'
    · exact Or.inl ⟨c', by rw [hsw, hx]; rfl⟩
    · exact Or.inr ⟨c', rest, lex_ok hc hx, List.suffix_refl rest, by rw [hsw, hx]; rfl⟩

/-- Nothing is read outside of the chunk. -/
theorem reads_within {size : ℕ} {r : Round} (hne : r.left ≠ []) (hl : r.left.length ≤ size)
    (hbulk : r.state = .bulk → 0 < r.parser.bulkSize) :
    ∀ piece ∈ r.reads size, piece.Within size := by
  have hpos := List.length_pos_iff.mpr hne
  intro piece hpiece
  unfold Round.reads at hpiece
  dsimp only at hpiece
  rcases List.mem_cons.mp hpiece with rfl | hpiece
  · exact ⟨by dsimp only; omega, by dsimp only; omega, by dsimp only; omega⟩
  · split at hpiece
    · split_ifs at hpiece
      · rw [List.mem_singleton.mp hpiece]
        exact ⟨by dsimp only; omega, by dsimp only; omega, by dsimp only; omega⟩
      · cases hpiece
    · next hs =>
      have := hbulk hs
      rw [List.mem_singleton.mp hpiece]
      exact ⟨by dsimp only; omega, by dsimp only; omega, by dsimp only; omega⟩
    · cases hpiece

/-- Before each round of the loop the members are laid out as a configuration. -/
theorem loopRounds_layout : ∀ (fuel : ℕ) (rest : Bytes) (c : Config), Ok c →
    ∀ r ∈ loopRounds fuel rest c.state (toParser c []), ∃ c', Ok c' ∧ r.state = c'.state ∧
      r.parser = toParser c' [] ∧ r.left ≠ [] ∧ r.left.length ≤ rest.length
  | 0, _, _, _, r, hr => by cases hr
  | fuel + 1, [], _, _, r, hr => by cases hr
  | fuel + 1, b :: rest, c, hc, r, hr => by
    have hlater : ∀ rest' c', rest' <:+ rest → Ok c' →
        r ∈ loopRounds fuel rest' c'.state (toParser c' []) → ∃ c'', Ok c'' ∧ r.state = c''.state ∧
          r.parser = toParser c'' [] ∧ r.left ≠ [] ∧ r.left.length ≤ (b :: rest).length := by
      intro rest' c' hsuf hc' hr
      obtain ⟨c'', hok, hs, hp, hne, hl⟩ := loopRounds_layout fuel rest' c' hc' r hr
      have := hsuf.length_le
      exact ⟨c'', hok, hs, hp, hne, by rw [List.length_cons]; omega⟩
    rw [loopRounds] at hr
    rcases List.mem_cons.mp hr with rfl | hr
    · exact ⟨c, hc, rfl, rfl, List.cons_ne_nil b rest, Nat.le_refl _⟩
    rcases switchState_ok hc b rest with ⟨c', h⟩ | ⟨c', rest', hc', hsuf, h⟩ <;> rw [h] at hr
    · cases hr
    · dsimp only at hr
      split_ifs at hr with hs
      · obtain ⟨hclose, -⟩ := closeReply_toParser c' [] hs
        have hstate : (settle c').2.state = .start := by rw [settle_state, hs]
        have hok : Ok (settle c').2 := by
          intro hb
          rw [hstate] at hb
          cases hb
        rw [hclose] at hr
        dsimp only at hr
        split_ifs at hr
        · cases hr
        · rw [← hstate] at hr
          exact hlater rest' _ hsuf hok hr
      · exact hlater rest' c' hsuf hc' hr

/-- The same for the rounds of a call. -/
theorem parseRounds_layout {p : RedisParser} {c : Config} (h : Rep p c) (hc : Ok c) {ptr : Bytes} :
    ∀ r ∈ parseRounds p ptr, ∃ c', Ok c' ∧ r.state = c'.state ∧ r.parser = toParser c' [] ∧
      r.left ≠ [] ∧ r.left.length ≤ ptr.length := by
  have hl := loopRounds_layout ptr.length ptr c hc
  rcases h with rfl | ⟨hs, rfl⟩
  · exact hl
  · rw [hs] at hl
    exact hl

theorem parseRounds_sound {p : RedisParser} {c : Config} (h : Rep p c) (hc : Ok c) (ptr : Bytes) :
    ∀ r ∈ parseRounds p ptr, Sound ptr.length r := by
  intro r hr
  obtain ⟨c', hok, hs, hp, hne, hl⟩ := parseRounds_layout h hc r hr
  have hbulk : r.state = .bulk → 0 < r.parser.bulkSize := by
    rw [hs, hp]
    exact hok
  refine ⟨?_, ?_, hbulk, reads_within hne hl hbulk⟩
  · rw [hp]
    rfl
  · rw [hp]
    exact consistent_toParser c' []

/-! ### After a call -/

theorem step_done {c c' : Config} {b : UInt8} (h : step c b = (.done, c')) : c'.frames = [] := by
  unfold step at h
  rcases hx : lex c b with c1 | c1 <;> rw [hx] at h
  · cases h
  · dsimp only at h
    unfold settle at h
    split_ifs at h with hs
    · dsimp only at h
      split_ifs at h with hf
      · cases h
        exact hf
      · cases h
    · cases h

/-- What is saved after a call. -/
theorem saved_after {c c' : Config} {v : Verdict} {bs rest : Bytes} (hc : Ok c) (hne : bs ≠ [])
    (h : run step c bs = (v, c', rest)) : Saved (after v c') (resultOf v) := by
  have hok : Ok c' := by
    have hrun := run_ok hc bs
    rwa [h] at hrun
  cases v with
  | more =>
    refine ⟨c'.state, rfl, fun hs => ?_, hok⟩
    have hf := (run_mid hne h).frames_ne hs
    simpa [after, toParser] using hf
  | done =>
    obtain ⟨us, b, c1, -, -, hstep⟩ := run_stop_cut (by simp) h
    refine ⟨rfl, ?_⟩
    simp [after, toParser, step_done hstep]
  | fail => exact rfl

/-- The rounds of a call on a parser that is a layout, and what the call reports and leaves. -/
theorem call_keeps {p : RedisParser} {c : Config} (hrep : Rep p c) (hok : Ok c) {ptr : Bytes}
    (hptr : ptr ≠ []) : Consistent p ∧ (∀ r ∈ parseRounds p ptr, Sound ptr.length r) ∧
      ∃ k r p', parse p ptr = some ((k, r), p') ∧ 1 ≤ k ∧ k ≤ ptr.length ∧
        (r = .incompleted → k = ptr.length) ∧ Consistent p' ∧ Saved p' r := by
  refine ⟨consistent_of_rep hrep, parseRounds_sound hrep hok ptr, ?_⟩
  have hparse := parse_rep hrep hok hptr
  have hlen := length_rest step ptr c hptr
  rcases hrun : run step c ptr with ⟨v, c', rest⟩
  rw [hrun] at hparse hlen
  refine ⟨_, _, _, hparse, ?_, Nat.sub_le _ _, fun hr => ?_, ?_, saved_after hok hptr hrun⟩
  · dsimp only at hlen ⊢
    omega
  · cases v with
    | more => rw [rest_of_more hrun, List.length_nil, Nat.sub_zero]
    | done => cases hr
    | fail => cases hr
  · cases v <;> exact consistent_toParser c' _

end RedisClient.Parser.Rounds

import RedisClient.Parser.Machine

/-! # The code is the byte machine

`toParser` lays a configuration of the machine out as the members of `RedisParser`. Between two
calls the parser is such a layout (`Rep`), with the state on its stack in the middle of a reply and
without it between replies, and a call on a nonempty chunk reports what the machine does on the
bytes of the chunk (`parse_rep`). So no call gets to `none`, and every parser that calls on nonempty
chunks lead to is a layout (`rep_of_reachable`). -/

namespace RedisClient.Parser.Refine

open RedisClient.Value RedisClient.Lib.Reader RedisClient.Parser.Defs RedisClient.Parser.Machine

/-- The members of the parser in a configuration. -/
def toParser (c : Config) (states : List State) : RedisParser where
  states := states
  bulkSize := c.bulkSize
  buf := c.buf
  redisValue := c.redisValue
  arraySizes := c.frames.map fun f => (f.left : ℤ) + 1
  arrayValues := c.frames.map fun f => .array f.items

/-! ### Closing arrays -/

theorem closeLoop_frames : ∀ (fs : List Frame) (f : Frame) (v : RedisValue),
    closeLoop (((f.left : ℤ) + 1) :: fs.map fun f => (f.left : ℤ) + 1)
        (.array (f.items ++ [v]) :: fs.map fun f => .array f.items) v =
      some ((closeFrames (f :: fs) v).1.map (fun f => (f.left : ℤ) + 1),
        (closeFrames (f :: fs) v).1.map (fun f => .array f.items), (closeFrames (f :: fs) v).2)
  | fs, ⟨n + 1, items⟩, v => by
    have h : ((n + 1 : ℕ) : ℤ) + 1 - 1 ≠ 0 := by omega
    simp only [closeLoop, if_neg h, closeFrames, List.map_cons]
    simp
  | [], ⟨0, items⟩, v => by simp [closeLoop, closeFrames]
  | g :: fs, ⟨0, items⟩, v => by
    have ih := closeLoop_frames fs g (.array (items ++ [v]))
    simp only [closeLoop, List.map_cons, Int.ofNat_zero] at ih ⊢
    simpa [pushTop, RedisValue.getArray, closeFrames] using ih

/-- What follows the switch is `settle`. -/
theorem closeReply_toParser (c : Config) (ss : List State) (h : c.state = .start) :
    closeReply (toParser c ss) = some (toParser (settle c).2 ss) ∧
      ((settle c).1 = .done ↔ (settle c).2.frames = []) := by
  rcases hf : c.frames with _ | ⟨f, fs⟩
  · simp [closeReply, settle, h, hf, closeFrames, toParser]
  · have hl := closeLoop_frames fs f c.redisValue
    constructor
    · simp only [closeReply, settle, h, if_true, toParser, hf, List.map_cons]
      simp only [pushTop, RedisValue.getArray, Option.map_some, Option.bind_some, hl, reduceCtorEq,
        if_false]
      split_ifs <;> rfl
    · simp only [settle, h, if_true, hf]
      split_ifs with he <;> simp [he]

/-! ### The switch -/

/-- What the switch leads to, from what the machine does. -/
def turnOf (rest : Bytes) : Except Config Config → Turn
  | .error c => .error (toParser c [])
  | .ok c => .next rest c.state (toParser c [])

/-- Where the code takes one byte, the switch is the machine's step. -/
theorem switchState_toParser {c : Config} (b : UInt8) (rest : Bytes) (hb : c.state ≠ .bulk)
    (hs : c.state = .bulkSizeLF → b = LF → bufToLong c.buf ≤ 0) :
    switchState b rest c.state (toParser c []) = turnOf rest (lex c b) := by
  rcases h : c.state <;>
    simp only [switchState, lex, h, startChar, lineChar, numeralChar, bulkSizeEnd, arraySizeEnd,
      lexStart, lexLine, lexNumeral, lexBulkSizeEnd, lexArraySizeEnd]
  case bulk => exact absurd h hb
  case bulkSizeLF =>
    have := hs h
    split_ifs <;> simp_all [turnOf, toParser, clearStates]
    all_goals omega
  case arraySizeLF =>
    split_ifs <;> simp_all [turnOf, toParser, clearStates]
    all_goals omega
  all_goals split_ifs <;> simp_all [turnOf, toParser, clearStates, pushBuf]

/-- The machine after `k` bytes of a bulk string. -/
def afterBulk (c : Config) (bs : Bytes) (k : ℕ) : Config :=
  { c with
    state := if c.bulkSize - k = 0 then .bulkCR else .bulk
    buf := c.buf ++ bs.take k
    bulkSize := c.bulkSize - k }

theorem afterBulk_zero {c : Config} (bs : Bytes) (hs : c.state = .bulk) (hp : 0 < c.bulkSize) :
    afterBulk c bs 0 = c := by
  have h : ¬ c.bulkSize = 0 := by omega
  cases c
  simp_all [afterBulk]

theorem afterBulk_lexBulk (c : Config) (b : UInt8) (bs : Bytes) (k : ℕ) :
    afterBulk (lexBulk b c) bs k = afterBulk c (b :: bs) (k + 1) := by
  have hk : c.bulkSize - 1 - (k : ℤ) = c.bulkSize - ((k + 1 : ℕ) : ℤ) := by omega
  simp only [afterBulk, lexBulk, List.take_succ_cons, List.append_assoc, List.singleton_append, hk]

theorem afterBulk_ne_start (c : Config) (bs : Bytes) (k : ℕ) :
    (afterBulk c bs k).state ≠ .start := by
  simp only [afterBulk]
  split_ifs <;> simp

theorem ok_afterBulk {c : Config} {k : ℕ} (bs : Bytes) (hk : (k : ℤ) ≤ c.bulkSize) :
    Ok (afterBulk c bs k) := by
  intro hs
  simp only [afterBulk] at hs ⊢
  split_ifs at hs
  omega

theorem step_bulk {c : Config} (b : UInt8) (hs : c.state = .bulk) :
    step c b = (.more, lexBulk b c) := by
  refine step_of_lex (by simp [lex, hs]) ?_
  simp only [lexBulk]
  split_ifs <;> simp

/-- The LF of a length that announces something. -/
theorem step_bulkSizeEnd {c : Config} (hs : c.state = .bulkSizeLF) (hp : 0 < bufToLong c.buf) :
    step c LF =
      (.more, { c with state := .bulk, bulkSize := bufToLong c.buf, buf := [] }) := by
  refine step_of_lex ?_ (by simp)
  simp only [lex, hs, lexBulkSizeEnd, if_true]
  rw [if_neg (by omega), if_neg (by omega), if_neg (by omega)]

/-- What goes byte by byte through a bulk string can take `k` bytes at once. -/
theorem bulk_at_once {γ : Type*} {f : Config → Bytes → γ}
    (hf : ∀ c b bs, c.state = .bulk → f c (b :: bs) = f (lexBulk b c) bs) :
    ∀ (bs : Bytes) (c : Config) (k : ℕ), c.state = .bulk → k ≤ bs.length → (k : ℤ) ≤ c.bulkSize →
      0 < c.bulkSize → f c bs = f (afterBulk c bs k) (bs.drop k)
  | bs, c, 0, hs, _, _, hp => by rw [afterBulk_zero bs hs hp, List.drop_zero]
  | [], c, k + 1, _, hk, _, _ => by simp at hk
  | b :: bs, c, k + 1, hs, hk, hn, hp => by
    rw [hf c b bs hs, List.drop_succ_cons, ← afterBulk_lexBulk]
    rcases Nat.eq_zero_or_pos k with rfl | hk0
    · -- the byte may have been the last one
      simp [afterBulk, lexBulk]
    · have h0 : ¬ c.bulkSize - 1 = 0 := by omega
      exact bulk_at_once hf bs (lexBulk b c) k (by simp [lexBulk, h0]) (by simpa using hk)
        (by simp only [lexBulk]; omega) (by simp only [lexBulk]; omega)

/-- The machine takes a bulk string byte by byte. -/
theorem run_bulk (bs : Bytes) (c : Config) (k : ℕ) (hs : c.state = .bulk) (hk : k ≤ bs.length)
    (hn : (k : ℤ) ≤ c.bulkSize) (hp : 0 < c.bulkSize) :
    run step c bs = run step (afterBulk c bs k) (bs.drop k) :=
  bulk_at_once (fun _ b bs h => run_cons_more (step_bulk b h) bs) bs c k hs hk hn hp

/-- In the state `Bulk` the code takes what is there at once. -/
theorem bulkBytes_toParser {c : Config} (b : UInt8) (rest : Bytes) (h : 0 < c.bulkSize) :
    ∃ k, 1 ≤ k ∧ k ≤ (b :: rest).length ∧ (k : ℤ) ≤ c.bulkSize ∧
      bulkBytes b rest (toParser c []) =
        .next ((b :: rest).drop k) (afterBulk c (b :: rest) k).state
          (toParser (afterBulk c (b :: rest) k) []) := by
  refine ⟨(min ((rest.length : ℤ) + 1) c.bulkSize).toNat, by omega, ?_, by omega, ?_⟩
  · rw [List.length_cons]
    omega
  obtain ⟨k, hk⟩ : ∃ k : ℕ, min ((rest.length : ℤ) + 1) c.bulkSize = k + 1 :=
    ⟨(min ((rest.length : ℤ) + 1) c.bulkSize - 1).toNat, by omega⟩
  have h1 : ¬ (toParser c []).bulkSize ≤ 0 := by simp [toParser]; omega
  have h2 : (min ((rest.length : ℤ) + 1) (toParser c []).bulkSize) = k + 1 := hk
  have h3 : ((k : ℤ) + 1).toNat = k + 1 := by omega
  simp only [bulkBytes, if_neg h1, h2, hk, h3, List.drop_succ_cons, afterBulk,
    show ((k : ℤ) + 1 - 1).toNat = k by omega]
  simp only [toParser, Int.natCast_succ]
  split_ifs <;> simp_all

/-- The end of a length: the code already takes what follows of the bulk string. -/
theorem bulkSizeEnd_toParser {c : Config} (rest : Bytes) (h : 0 < bufToLong c.buf) :
    ∃ k, k ≤ rest.length ∧ (k : ℤ) ≤ bufToLong c.buf ∧
      bulkSizeEnd rest (toParser c []) =
        let c := afterBulk { c with state := .bulk, bulkSize := bufToLong c.buf, buf := [] } rest k
        .next (rest.drop k) c.state (toParser c []) := by
  obtain ⟨k, hk⟩ : ∃ k : ℕ, min (bufToLong c.buf) rest.length = k :=
    ⟨(min (bufToLong c.buf) rest.length).toNat, by omega⟩
  refine ⟨k, by omega, by omega, ?_⟩
  simp only [bulkSizeEnd, toParser, hk, Int.toNat_natCast, afterBulk, List.nil_append]
  rw [if_neg (by omega), if_neg (by omega), if_neg (by omega)]
  rcases Nat.eq_zero_or_pos k with rfl | hk0
  · have h0 : ¬ bufToLong c.buf - ((0 : ℕ) : ℤ) = 0 := by omega
    simp only [if_neg (show ¬ ((0 : ℕ) : ℤ) > 0 by omega), if_pos h, if_neg h0]
    simp
  · simp only [if_pos (show (k : ℤ) > 0 by omega)]
    by_cases h0 : bufToLong c.buf - k = 0
    · simp only [if_neg (show ¬ bufToLong c.buf - (k : ℤ) > 0 by omega), if_pos h0]
    · simp only [if_pos (show bufToLong c.buf - (k : ℤ) > 0 by omega), if_neg h0]

/-! ### The loop -/

def resultOf : Verdict → ParseResult
  | .more => .incompleted
  | .done => .completed
  | .fail => .error

/-- The parser after a call: the state is kept in the middle of a reply only. -/
def after : Verdict → Config → RedisParser
  | .more, c => toParser c [c.state]
  | .done, c => toParser c []
  | .fail, c => toParser c []

/-- What the loop leaves when the machine leaves `r`. -/
def loopOut (r : Verdict × Config × Bytes) : Bytes × ParseResult × RedisParser :=
  (r.2.2, resultOf r.1, after r.1 r.2.1)

/-- The loop after the switch has gone on to the state of `c`. -/
theorem parseLoop_next {fuel : ℕ} (rest : Bytes) {c : Config}
    (ih : ∀ c', Ok c' → (c'.state = .start → c'.frames ≠ []) →
      parseLoop fuel rest c'.state (toParser c' []) = some (loopOut (run step c' rest)))
    (hc : Ok (settle c).2) :
    (if c.state = .start then
        match closeReply (toParser c []) with
        | none => none
        | some p =>
          if p.arraySizes = [] then some (finish rest .start p)
          else parseLoop fuel rest .start p
      else parseLoop fuel rest c.state (toParser c [])) =
    some (loopOut (match settle c with
      | (.more, c) => run step c rest
      | (v, c) => (v, c, rest))) := by
  by_cases hs : c.state = .start
  · obtain ⟨h1, h2⟩ := closeReply_toParser c [] hs
    have h3 : (settle c).2.state = .start := by rw [settle_state, hs]
    have h4 : (toParser (settle c).2 []).arraySizes = [] ↔ (settle c).2.frames = [] := by
      simp [toParser]
    have h5 := settle_ne_fail c
    simp only [if_pos hs, h1]
    rcases hr : settle c with ⟨v, c1⟩
    simp only [hr] at h2 h3 h4 h5 hc ⊢
    cases v with
    | more =>
      have hf : c1.frames ≠ [] := fun h => by simpa using h2.mpr h
      rw [if_neg fun h => hf (h4.mp h), ← h3]
      exact ih c1 hc fun _ => hf
    | done =>
      have hf := h2.mp rfl
      rw [if_pos (h4.mpr hf)]
      simp [finish, h4.mpr hf, loopOut, resultOf, after]
    | fail => exact absurd rfl h5
  · have hr : settle c = (.more, c) := by simp [settle, hs]
    rw [hr] at hc
    simp only [if_neg hs, hr]
    exact ih c hc fun h => absurd h hs

/-- **The loop is the machine.** -/
theorem parseLoop_toParser : ∀ (fuel : ℕ) (rest : Bytes) (c : Config), rest.length ≤ fuel →
    Ok c → (rest = [] → c.state = .start → c.frames ≠ []) →
      parseLoop fuel rest c.state (toParser c []) = some (loopOut (run step c rest))
  | fuel, [], c, _, _, hf => by
    have h : ¬ ((toParser c []).arraySizes = [] ∧ c.state = .start) := by
      rintro ⟨h1, h2⟩
      exact hf rfl h2 (by simpa [toParser] using h1)
    have hfin : finish [] c.state (toParser c []) = loopOut (run step c []) := by
      rw [finish, if_neg h]; rfl
    cases fuel <;> simp [parseLoop, hfin]
  | fuel + 1, b :: bs, c, hl, hc, _ => by
    have hl : bs.length ≤ fuel := by simpa using hl
    have hafter : ∀ (c' : Config) (cs : Bytes) (k : ℕ), (k : ℤ) ≤ c'.bulkSize →
        (cs.drop k).length ≤ fuel →
        parseLoop fuel (cs.drop k) (afterBulk c' cs k).state (toParser (afterBulk c' cs k) []) =
          some (loopOut (run step (afterBulk c' cs k) (cs.drop k))) := fun c' cs k hk hlen =>
      parseLoop_toParser fuel _ _ hlen (ok_afterBulk cs hk)
        fun _ hs => absurd hs (afterBulk_ne_start c' cs k)
    -- the loop takes several bytes in the state `Bulk` and when it gets there
    by_cases hb : c.state = .bulk
    · obtain ⟨k, hk1, hk2, hk3, hk⟩ := bulkBytes_toParser b bs (hc hb)
      rw [run_bulk (b :: bs) c k hb hk2 hk3 (hc hb)]
      simp only [parseLoop, hb, switchState, hk, if_neg (afterBulk_ne_start c (b :: bs) k)]
      exact hafter c (b :: bs) k hk3 (by simp at hk2 ⊢; omega)
    by_cases hs : c.state = .bulkSizeLF ∧ b = LF ∧ 0 < bufToLong c.buf
    · obtain ⟨hs, rfl, hp⟩ := hs
      obtain ⟨k, hk1, hk2, hk⟩ := bulkSizeEnd_toParser bs hp
      set c1 : Config := { c with state := .bulk, bulkSize := bufToLong c.buf, buf := [] } with hc1
      rw [run_cons_more (step_bulkSizeEnd hs hp), run_bulk bs c1 k rfl hk1 hk2 hp]
      simp only [parseLoop, hs, switchState, if_true, hk]
      rw [if_neg (afterBulk_ne_start c1 bs k)]
      exact hafter c1 bs k hk2 (by simp; omega)
    · have hsw : switchState b bs c.state (toParser c []) = turnOf bs (lex c b) :=
        switchState_toParser b bs hb fun h1 h2 => by
          by_contra h3; exact hs ⟨h1, h2, by omega⟩
      have hok := ok_step b hc
      simp only [parseLoop, hsw]
      rcases hx : lex c b with c' | c'
      · have h1 : step c b = (.fail, c') := by simp [step, hx]
        rw [run_cons_fail h1]
        rfl
      · have h1 : step c b = settle c' := by simp [step, hx]
        rw [h1] at hok
        have := parseLoop_next bs (c := c')
          (fun c'' h h' => parseLoop_toParser fuel bs c'' hl h fun _ => h') hok
        refine this.trans ?_
        simp only [run, h1]
        rcases settle c' with ⟨v, c''⟩
        cases v <;> rfl

/-! ### Calls -/

/-- The parser `p` is a layout of `c`. -/
def Rep (p : RedisParser) (c : Config) : Prop :=
  p = toParser c [c.state] ∨ c.state = .start ∧ p = toParser c []

/-- The machine at the next call. -/
def next : Verdict → Config → Config
  | .more, c => c
  | .done, c => restart c
  | .fail, c => restart c

/-- What a call on `n` bytes reports when the machine leaves `r`. -/
def report (n : ℕ) (r : Verdict × Config × Bytes) : (ℕ × ParseResult) × RedisParser :=
  ((n - r.2.2.length, resultOf r.1), after r.1 r.2.1)

theorem rep_fresh : Rep fresh init := Or.inr ⟨rfl, rfl⟩

theorem rep_after (v : Verdict) (c : Config) : Rep (after v c) (next v c) := by
  cases v with
  | more => exact Or.inl rfl
  | done => exact Or.inr ⟨rfl, rfl⟩
  | fail => exact Or.inr ⟨rfl, rfl⟩

theorem ok_next {v : Verdict} {c : Config} (hc : Ok c) : Ok (next v c) := by
  cases v with
  | more => exact hc
  | done => exact ok_restart c
  | fail => exact ok_restart c

/-- **A call is the machine on the bytes of the chunk.** -/
theorem parse_rep {p : RedisParser} {c : Config} {ptr : Bytes} (h : Rep p c) (hc : Ok c)
    (hp : ptr ≠ []) : parse p ptr = some (report ptr.length (run step c ptr)) := by
  have hl := parseLoop_toParser ptr.length ptr c (Nat.le_refl _) hc fun h => absurd h hp
  rcases h with rfl | ⟨hs, rfl⟩
  · have h1 : ({ toParser c [c.state] with states := [] } : RedisParser) = toParser c [] := rfl
    simp only [parse, parseChunk, toParser] at hl ⊢
    rw [hl]; rfl
  · rw [hs] at hl
    simp only [parse, parseChunk, toParser] at hl ⊢
    rw [hl]; rfl

theorem run_ok {c : Config} (hc : Ok c) (bs : Bytes) : Ok (run step c bs).2.1 :=
  run_invariant (fun _ b h => ok_step b h) bs c hc

/-- What a call leaves. -/
theorem eq_after {p p' : RedisParser} {c : Config} {ptr : Bytes} {r : ℕ × ParseResult}
    (h : Rep p c) (hc : Ok c) (hp : ptr ≠ []) (hparse : parse p ptr = some (r, p')) :
    p' = after (run step c ptr).1 (run step c ptr).2.1 := by
  rw [parse_rep h hc hp] at hparse
  have hpair := Option.some.inj hparse
  exact (congrArg Prod.snd hpair).symm

theorem rep_result {p : RedisParser} {c : Config} (h : Rep p c) :
    Rep (result p).2 { c with redisValue := c.redisValue.movedFrom } := by
  rcases h with rfl | ⟨hs, rfl⟩
  · exact Or.inl rfl
  · exact Or.inr ⟨hs, rfl⟩

/-- **Every parser is a layout of the machine.** -/
theorem rep_of_reachable {p : RedisParser} (h : Reachable p) : ∃ c, Rep p c ∧ Ok c := by
  induction h with
  | fresh => exact ⟨init, rep_fresh, ok_init⟩
  | parse _ hd hp ih =>
    obtain ⟨c, hr, hc⟩ := ih
    rw [eq_after hr hc hd hp]
    exact ⟨_, rep_after _ _, ok_next (run_ok hc _)⟩
  | result _ ih =>
    obtain ⟨c, hr, hc⟩ := ih
    exact ⟨_, rep_result hr, hc⟩

end RedisClient.Parser.Refine

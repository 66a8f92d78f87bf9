import RedisClient.Parser.Descent

/-! # Parsers that nobody can tell apart

Between two replies the counter, the buffer and the value of the parser are left over from earlier
replies, and no later call looks at them: parsers whose saved state and open arrays agree, and whose
buffer and counter agree where they are in use (`Same`), report the same on every chunk
(`parse_alike`). So two parsers between replies cannot be told apart (`alike_of_idle`).

The converse needs a chunk that tells a parser in the middle of a reply from one between replies. An
integer reply does: in the middle of a reply (`Mid`), what the parser makes of it is not that integer
(`mid_integer`). -/

namespace RedisClient.Parser.Likeness

open RedisClient.Value RedisClient.Lib.Reader RedisClient.Parser.Defs RedisClient.Parser.Machine
open RedisClient.Parser.Refine RedisClient.Parser.Descent

/-! ### Configurations that agree on what is in use -/

/-- The same state and open arrays; the same buffer inside a reply, and the same counter inside a
bulk string. -/
structure Same (c d : Config) : Prop where
  state : c.state = d.state
  frames : c.frames = d.frames
  buf : c.state ≠ .start → c.state ≠ .startArray → c.buf = d.buf
  bulkSize : c.state = .bulk → c.bulkSize = d.bulkSize

/-- Steps that end alike: a value that is complete is the same. -/
def SameLex : Except Config Config → Except Config Config → Prop
  | .ok c, .ok d => Same c d ∧ (c.state = .start → c.redisValue = d.redisValue)
  | .error c, .error d => c.frames = d.frames
  | _, _ => False

theorem lex_same {c d : Config} (h : Same c d) (b : UInt8) : SameLex (lex c b) (lex d b) := by
  obtain ⟨state, n, buf, v, frames⟩ := c
  obtain ⟨state', n', buf', v', frames'⟩ := d
  obtain ⟨h1, h2, h3, h4⟩ := h
  simp only at h1 h2 h3 h4
  subst h1 h2
  cases state
  case bulk =>
    have hb := h3 (by simp) (by simp)
    have hn := h4 rfl
    subst hb hn
    exact ⟨⟨rfl, rfl, fun _ _ => rfl, fun _ => rfl⟩,
      fun h => absurd h (by simp only [lexBulk]; split_ifs <;> simp)⟩
  case start | startArray =>
    simp only [lex, lexStart]
    split_ifs <;> simp [SameLex] <;> exact ⟨rfl, rfl, fun _ _ => rfl, fun h => by cases h⟩
  all_goals
    have hb := h3 (by simp) (by simp)
    subst hb
    simp only [lex, lexLine, lexNumeral, lexBulkSizeEnd, lexArraySizeEnd]
    split_ifs <;>
      first
      | exact ⟨⟨rfl, rfl, fun _ _ => rfl, fun h => by first | rfl | cases h⟩, fun h => by
          first | rfl | cases h⟩
      | exact rfl

/-- **Steps from configurations that agree.** -/
theorem step_same {c d : Config} (h : Same c d) (b : UInt8) :
    (step c b).1 = (step d b).1 ∧ (step c b).2.frames = (step d b).2.frames ∧
      ((step c b).1 = .more → Same (step c b).2 (step d b).2) ∧
      ((step c b).1 = .done → (step c b).2.redisValue = (step d b).2.redisValue) := by
  have hl := lex_same h b
  unfold step
  rcases hc : lex c b with c1 | c1 <;> rcases hd : lex d b with d1 | d1 <;> rw [hc, hd] at hl
  · exact ⟨rfl, hl, by simp, by simp⟩
  · exact False.elim hl
  · exact False.elim hl
  · obtain ⟨hs, hv⟩ := hl
    unfold settle
    by_cases h1 : c1.state = .start
    · have h2 : d1.state = .start := by rw [← hs.state, h1]
      dsimp only
      rw [if_pos h1, if_pos h2, ← hs.frames, ← hv h1]
      split_ifs with hf
      · exact ⟨rfl, rfl, by simp, fun _ => rfl⟩
      · exact ⟨rfl, rfl, fun _ => ⟨hs.state, rfl, fun h => absurd h1 h, fun h => by
          rw [show c1.state = .bulk from h] at h1; cases h1⟩, by simp⟩
    · have h2 : d1.state ≠ .start := by rwa [← hs.state]
      dsimp only
      rw [if_neg h1, if_neg h2]
      exact ⟨rfl, hs.frames, fun _ => hs, by simp⟩

theorem run_same : ∀ {s : Bytes} {c d : Config}, Same c d →
    (run step c s).1 = (run step d s).1 ∧ (run step c s).2.2 = (run step d s).2.2 ∧
      (run step c s).2.1.frames = (run step d s).2.1.frames ∧
      ((run step c s).1 = .more → Same (run step c s).2.1 (run step d s).2.1) ∧
      ((run step c s).1 = .done →
        (run step c s).2.1.redisValue = (run step d s).2.1.redisValue)
  | [], c, d, h => ⟨rfl, rfl, h.frames, fun _ => h, fun h => by cases h⟩
  | b :: s, c, d, h => by
    obtain ⟨h1, h2, h3, h4⟩ := step_same h b
    rcases hc : step c b with ⟨v, c1⟩
    rcases hd : step d b with ⟨w, d1⟩
    rw [hc, hd] at h1 h2 h3 h4
    simp only at h1 h2 h3 h4
    subst h1
    cases v with
    | more =>
      rw [run_cons_more hc, run_cons_more hd]
      exact run_same (h3 rfl)
    | done =>
      rw [run_cons_done hc, run_cons_done hd]
      exact ⟨rfl, rfl, h2, by simp, fun _ => h4 rfl⟩
    | fail =>
      rw [run_cons_fail hc, run_cons_fail hd]
      exact ⟨rfl, rfl, h2, by simp, by simp⟩

/-! ### Parsers -/

/-- Two parsers that no call tells apart. -/
def Alike (p q : RedisParser) : Prop :=
  ∃ c d, Rep p c ∧ Ok c ∧ Rep q d ∧ Ok d ∧ Same c d

theorem alike_result {p q : RedisParser} (h : Alike p q) : Alike (result p).2 (result q).2 := by
  obtain ⟨c, d, hp, hc, hq, hd, hs⟩ := h
  exact ⟨_, _, rep_result hp, hc, rep_result hq, hd, hs.state, hs.frames, hs.buf, hs.bulkSize⟩

/-- **A call on parsers that are alike** reports the same and leaves parsers that are alike. -/
theorem parse_alike {p q : RedisParser} (h : Alike p q) {s : Bytes} (hs : s ≠ []) :
    ∃ k r p' q', parse p s = some ((k, r), p') ∧ parse q s = some ((k, r), q') ∧ Alike p' q' ∧
      (r = .incompleted → k = s.length) ∧
      (r = .completed → (result p').1 = (result q').1) := by
  obtain ⟨c, d, hp, hc, hq, hd, hsame⟩ := h
  have h1 := parse_rep hp hc hs
  have h2 := parse_rep hq hd hs
  have hok1 := run_ok hc s
  have hok2 := run_ok hd s
  obtain ⟨hv, hrest, hf, hm, hr⟩ := run_same (s := s) hsame
  rcases hx : run step c s with ⟨v, c1, rest⟩
  rcases hy : run step d s with ⟨w, d1, rest'⟩
  rw [hx] at h1 hok1
  rw [hy] at h2 hok2
  rw [hx, hy] at hv hrest hf hm hr
  simp only at hv hrest hf hm hr hok1 hok2
  subst hv hrest
  refine ⟨_, _, _, _, h1, h2, ?_, ?_, ?_⟩
  · refine ⟨_, _, rep_after v c1, ok_next hok1, rep_after v d1, ok_next hok2, ?_⟩
    cases v with
    | more => exact hm rfl
    | done => exact ⟨rfl, hf, fun h => absurd rfl h, fun h => by cases h⟩
    | fail => exact ⟨rfl, hf, fun h => absurd rfl h, fun h => by cases h⟩
  · intro h
    cases v with
    | more =>
      have := rest_of_more hx
      subst this
      exact Nat.sub_zero _
    | done => cases h
    | fail => cases h
  · intro h
    cases v with
    | more => cases h
    | done => exact hr rfl
    | fail => cases h

theorem alike_of_idle {p q : RedisParser} (hp : Idle p) (hq : Idle q) : Alike p q := by
  obtain ⟨c, h1, h2, h3, h4⟩ := rep_of_idle hp
  obtain ⟨d, h5, h6, h7, h8⟩ := rep_of_idle hq
  refine ⟨c, d, h1, h2, h5, h6, by rw [h3, h7], by rw [h4, h8], fun h => absurd h3 h, fun h => ?_⟩
  rw [h3] at h
  cases h

/-! ### In the middle of a reply -/

/-- A parser with a saved state is in the middle of a reply. -/
theorem rep_mid {p : RedisParser} (h : Reachable p) :
    ∃ c, Rep p c ∧ Ok c ∧ (p.states ≠ [] → Mid c) := by
  induction h with
  | fresh => exact ⟨init, rep_fresh, ok_init, fun h => absurd rfl h⟩
  | @parse p p' ptr r _ hd hp ih =>
    obtain ⟨c, hr, hc, -⟩ := ih
    rw [eq_after hr hc hd hp]
    refine ⟨_, rep_after _ _, ok_next (run_ok hc ptr), ?_⟩
    rcases hx : run step c ptr with ⟨v, c1, rest⟩
    cases v with
    | more => exact fun _ => run_mid hd hx
    | done => exact fun h => absurd rfl h
    | fail => exact fun h => absurd rfl h
  | result _ ih =>
    obtain ⟨c, hr, hc, hm⟩ := ih
    exact ⟨_, rep_result hr, hc, hm⟩

/-- A parser is between two replies or in the middle of one. -/
theorem mid_of_not_idle {p : RedisParser} (h : Reachable p) (hi : ¬ Idle p) :
    ∃ c, Rep p c ∧ Ok c ∧ Mid c := by
  obtain ⟨c, hr, hc, hm⟩ := rep_mid h
  refine ⟨c, hr, hc, ?_⟩
  rcases hr with rfl | ⟨hs, rfl⟩
  · exact hm (by simp [toParser])
  · refine Or.inr fun hf => hi ?_
    simp [Idle, toParser, hf]

/-! ### An integer in the middle of a reply -/

/-- No integer will come of the reply: it is an element of an array, a line or a bulk string. -/
def NoInteger (c : Config) : Prop :=
  c.frames ≠ [] ∨ c.state = .string ∨ c.state = .stringLF ∨ c.state = .errorString ∨
    c.state = .errorLF ∨ c.state = .bulk ∨ c.state = .bulkCR ∨ c.state = .bulkLF

theorem closeFrames_array : ∀ {fs : List Frame} {v : RedisValue}, fs ≠ [] →
    (closeFrames fs v).1 = [] → ∃ items, (closeFrames fs v).2 = .array items
  | [], _, h, _ => absurd rfl h
  | ⟨0, items⟩ :: fs, v, _, h => by
    simp only [closeFrames] at h ⊢
    rcases fs with _ | ⟨f, fs⟩
    · exact ⟨_, rfl⟩
    · exact closeFrames_array (by simp) h
  | ⟨n + 1, items⟩ :: fs, v, _, h => by simp [closeFrames] at h

/-- A step of a line or a bulk string with no array open. -/
theorem lex_noInteger {c c' : Config} {b : UInt8} (hf : c.frames = []) (h : NoInteger c)
    (hl : lex c b = .ok c') : c'.frames = [] ∧
      (c'.state = .start ∧ (∃ buf e, c'.redisValue = .bytes buf e) ∨
        c'.state ≠ .start ∧ NoInteger c') := by
  have hs := h.resolve_left (fun h => h hf)
  rcases hs with hs | hs | hs | hs | hs | hs | hs <;>
    simp only [lex, hs, lexLine, lexBulk] at hl <;> split_ifs at hl <;> cases hl <;>
    refine ⟨hf, ?_⟩ <;> simp [NoInteger]

theorem lex_frames {c c' : Config} {b : UInt8} (hl : lex c b = .ok c') (hf : c.frames ≠ []) :
    c'.frames ≠ [] := by
  rcases hc : c.state <;>
    simp only [lex, hc, lexStart, lexLine, lexNumeral, lexBulkSizeEnd, lexBulk, lexArraySizeEnd] at hl
  case bulk =>
    cases hl
    exact hf
  all_goals split_ifs at hl <;> cases hl <;> first | exact hf | simp

theorem step_noInteger {c : Config} (h : NoInteger c) (b : UInt8) :
    ((step c b).1 = .more → NoInteger (step c b).2) ∧
      ((step c b).1 = .done → ∀ i, (step c b).2.redisValue ≠ .int i) := by
  unfold step
  rcases hl : lex c b with c1 | c1
  · exact ⟨by simp, by simp⟩
  by_cases hf : c.frames = []
  · obtain ⟨hf1, ⟨hs, buf, e, hv⟩ | ⟨hs, hn⟩⟩ := lex_noInteger hf h hl
    · simp [settle, hs, hf1, closeFrames, hv]
    · simp [settle, hs, hn]
  · have hf1 := lex_frames hl hf
    dsimp only
    unfold settle
    split_ifs with hs
    · dsimp only
      split_ifs with hc
      · obtain ⟨items, hi⟩ := closeFrames_array hf1 hc
        simp [hi]
      · exact ⟨fun _ => Or.inl hc, by simp⟩
    · exact ⟨fun _ => Or.inl hf1, by simp⟩

theorem run_noInteger : ∀ {s : Bytes} {c c' : Config} {rest : Bytes}, NoInteger c →
    run step c s = (.done, c', rest) → ∀ i, c'.redisValue ≠ .int i
  | [], _, _, _, _, h => by cases h
  | b :: s, c, c', rest, hn, h => by
    obtain ⟨h1, h2⟩ := step_noInteger hn b
    rcases hx : step c b with ⟨v, c1⟩
    rw [hx] at h1 h2
    cases v with
    | more =>
      rw [run_cons_more hx] at h
      exact run_noInteger (h1 rfl) h
    | done =>
      rw [run_cons_done hx] at h
      cases h
      exact h2 rfl
    | fail =>
      rw [run_cons_fail hx] at h
      cases h

/-- **In the middle of a reply an integer reply is not read as one.** -/
theorem mid_integer {c c' : Config} (h : Mid c) {s rest : Bytes}
    (hr : run step c (integerReply :: s) = (.done, c', rest)) : ∀ i, c'.redisValue ≠ .int i := by
  by_cases hn : NoInteger c
  · exact run_noInteger hn hr
  · have hcr : integerReply ≠ CR := by decide
    have hlf : integerReply ≠ LF := by decide
    have hdig : ¬ (isDigit integerReply || integerReply = minus) = true := by decide
    have hfail : (step c integerReply).1 = .fail := by
      simp only [NoInteger, not_or, not_not] at hn
      obtain ⟨hf, h1, h2, h3, h4, h5, h6, h7⟩ := hn
      obtain ⟨hs1, hs2⟩ := h.resolve_right (fun h => h hf)
      rcases hc : c.state <;> first
        | contradiction
        | simp only [step, lex, lexNumeral, hc, if_neg hcr, if_neg hlf, if_neg hdig]
    rcases hx : step c integerReply with ⟨v, c1⟩
    rw [hx] at hfail
    simp only at hfail
    subst hfail
    rw [run_cons_fail hx] at hr
    cases hr

end RedisClient.Parser.Likeness

import RedisClient.Parser.Grammar
import RedisClient.Parser.Refine

/-! # The machine follows the grammar

In front of a reply, with the open arrays `fs`, the machine does on a string what the grammar says
(`Agrees`): if the grammar reads the value `v` there, the machine hands `v` to the open arrays and
goes on with what is left (`deliver`); if the grammar finds a bad byte, the machine stops after it;
if the string is too short, the machine has read all of it. Replies are by induction on the depth,
the elements of an array by induction on their number: when the last one comes, the frame of the
array is closed and the array itself is delivered to the frames around it (`deliver_last`).

With no open arrays this is the parser between two replies (`parse_idle`). -/

namespace RedisClient.Parser.Descent

open RedisClient.Value RedisClient.Lib.Reader RedisClient.Parser.Defs RedisClient.Parser.Machine
open RedisClient.Parser.Refine RedisClient.Parser.Grammar

/-- The value `v` is complete and `rest` follows. -/
def deliver (c : Config) (v : RedisValue) (rest : Bytes) : Verdict × Config × Bytes :=
  match settle { c with state := .start, redisValue := v } with
  | (.more, c) => run step c rest
  | (w, c) => (w, c, rest)

/-- The machine ends up with `out` where the grammar says `r`. -/
def Agrees (fs : List Frame) (r : Ref RedisValue) (out : Verdict × Config × Bytes) : Prop :=
  match r with
  | .done v rest => ∃ c, c.frames = fs ∧ out = deliver c v rest
  | .bad rest => ∃ c, out = (.fail, c, rest)
  | .more => ∃ c, out = (.more, c, [])

theorem agrees_done {fs : List Frame} (c : Config) (v : RedisValue) (rest : Bytes)
    (hc : c.frames = fs) : Agrees fs (.done v rest) (deliver c v rest) := ⟨c, hc, rfl⟩

theorem agrees_bad {fs : List Frame} (c : Config) (rest : Bytes) :
    Agrees fs (.bad rest) (.fail, c, rest) := ⟨c, rfl⟩

theorem agrees_more {fs : List Frame} (c : Config) : Agrees fs .more (.more, c, []) := ⟨c, rfl⟩

/-! ### Steps -/

theorem run_error {c e : Config} {b : UInt8} (h : lex c b = .error e) (s : Bytes) :
    run step c (b :: s) = (.fail, e, s) :=
  run_cons_fail (by simp [step, h]) s

theorem run_ok_more {c e : Config} {b : UInt8} (h : lex c b = .ok e) (hs : e.state ≠ .start)
    (s : Bytes) : run step c (b :: s) = run step e s :=
  run_cons_more (step_of_lex h hs) s

theorem run_ok_deliver {c e : Config} {b : UInt8} {v : RedisValue}
    (h : lex c b = .ok { e with state := .start, redisValue := v }) (s : Bytes) :
    run step c (b :: s) = deliver e v s := by
  simp only [run, step, h, deliver]
  rcases settle { e with state := .start, redisValue := v } with ⟨w, c2⟩
  cases w <;> rfl

/-- The last element of the innermost array completes the array. -/
theorem deliver_last {c : Config} {vs : List RedisValue} {fs : List Frame}
    (h : c.frames = ⟨0, vs⟩ :: fs) (v : RedisValue) (rest : Bytes) :
    deliver c v rest = deliver { c with frames := fs } (.array (vs ++ [v])) rest := by
  simp [deliver, settle, h, closeFrames]

/-- Another element joins the innermost array, and the next one is read. -/
theorem deliver_next {c : Config} {n : ℕ} {vs : List RedisValue} {fs : List Frame}
    (h : c.frames = ⟨n + 1, vs⟩ :: fs) (v : RedisValue) (rest : Bytes) :
    deliver c v rest = run step
      { c with state := .start, redisValue := v, frames := ⟨n, vs ++ [v]⟩ :: fs } rest := by
  simp [deliver, settle, h, closeFrames]

/-- With no open arrays the reply is complete. -/
theorem deliver_nil {c : Config} (h : c.frames = []) (v : RedisValue) (rest : Bytes) :
    deliver c v rest = (.done, { c with state := .start, redisValue := v }, rest) := by
  simp [deliver, settle, h, closeFrames]

/-! ### Lines -/

theorem printable_iff (b : UInt8) :
    (isChar (charInt b) && !isControl (charInt b)) = printable b := by
  have := b.toNat_lt
  have hc : charInt b = if b.toNat < 128 then (b.toNat : ℤ) else b.toNat - 256 := rfl
  have h1 : isChar (charInt b) = true ↔ b.toNat < 128 := by
    simp only [isChar, decide_eq_true_eq]; omega
  have h2 : isControl (charInt b) = true ↔ b.toNat ≤ 31 ∨ b.toNat = 127 := by
    simp only [isControl, decide_eq_true_eq]; omega
  rw [Bool.eq_iff_iff, Bool.and_eq_true, Bool.not_eq_true', ← Bool.not_eq_true, h1, h2, printable,
    decide_eq_true_eq]
  omega

/-- A line, read in the state `here` and ended in the state `after`. -/
theorem run_line {here after : State} {e : Bool}
    (hk : here = .string ∧ after = .stringLF ∧ e = false ∨
      here = .errorString ∧ after = .errorLF ∧ e = true) :
    ∀ (s : Bytes) (c : Config), c.state = here →
      Agrees c.frames ((line c.buf s).map (.bytes · e)) (run step c s)
  | [], c, _ => agrees_more c
  | b :: s, c, hs => by
    have hlex : lex c b = lexLine b here after c := by
      rcases hk with ⟨rfl, rfl, rfl⟩ | ⟨rfl, rfl, rfl⟩ <;> simp [lex, hs]
    have hend : ∀ d, lex { c with state := after } d =
        if d = LF then .ok { c with state := .start, redisValue := .bytes c.buf e }
        else .error { c with state := after } := by
      rcases hk with ⟨rfl, rfl, rfl⟩ | ⟨rfl, rfl, rfl⟩ <;> simp [lex]
    have hns : here ≠ .start ∧ after ≠ .start := by
      rcases hk with ⟨rfl, rfl, rfl⟩ | ⟨rfl, rfl, rfl⟩ <;> simp
    simp only [lexLine, printable_iff] at hlex
    simp only [line]
    split_ifs at hlex ⊢ with h1 h2
    · rw [run_ok_more hlex hns.2]
      rcases s with _ | ⟨d, s⟩
      · exact agrees_more _
      · simp only [expect]
        by_cases hd : d = LF
        · rw [if_pos hd, run_ok_deliver (e := c) (by rw [hend, if_pos hd])]
          exact agrees_done c _ s rfl
        · rw [if_neg hd, run_error (by rw [hend, if_neg hd])]
          exact agrees_bad _ s
    · rw [run_ok_more hlex hns.1]
      exact run_line hk s { c with state := here, buf := c.buf ++ [b] } rfl
    · rw [run_error hlex]
      exact agrees_bad c s

/-! ### Numerals -/

/-- The machine has read the numeral `ds` up to its CR, and the LF and `rest` follow. -/
def AtEnd (fs : List Frame) (after : State) (r : Ref Bytes) (out : Verdict × Config × Bytes) :
    Prop :=
  match r with
  | .done ds rest =>
    ∃ c, c.state = after ∧ c.buf = ds ∧ c.frames = fs ∧ out = run step c (LF :: rest)
  | .bad rest => ∃ c, out = (.fail, c, rest)
  | .more => ∃ c, out = (.more, c, [])

theorem run_numeral {here after : State}
    (hk : here = .integer ∧ after = .integerLF ∨ here = .bulkSize ∧ after = .bulkSizeLF ∨
      here = .arraySize ∧ after = .arraySizeLF) :
    ∀ (s : Bytes) (c : Config), c.state = here →
      AtEnd c.frames after (numeral c.buf s) (run step c s)
  | [], c, _ => ⟨c, rfl⟩
  | b :: s, c, hs => by
    have hlex : lex c b = lexNumeral b here after c := by
      rcases hk with ⟨rfl, rfl⟩ | ⟨rfl, rfl⟩ | ⟨rfl, rfl⟩ <;> simp [lex, hs]
    have hend : ∀ d, d ≠ LF →
        lex { c with state := after } d = .error { c with state := after } := by
      intro d hd
      rcases hk with ⟨rfl, rfl⟩ | ⟨rfl, rfl⟩ | ⟨rfl, rfl⟩ <;> simp [lex, hd]
    have hns : here ≠ .start ∧ after ≠ .start := by
      rcases hk with ⟨rfl, rfl⟩ | ⟨rfl, rfl⟩ | ⟨rfl, rfl⟩ <;> simp
    simp only [lexNumeral] at hlex
    simp only [numeral]
    split_ifs at hlex ⊢ with h1 h2 h3
    · exact ⟨c, run_error hlex s⟩
    · rw [run_ok_more hlex hns.2]
      rcases s with _ | ⟨d, s⟩
      · exact ⟨_, rfl⟩
      · simp only [expect]
        by_cases hd : d = LF
        · rw [if_pos hd, hd]
          exact ⟨{ c with state := after }, rfl, rfl, rfl, rfl⟩
        · rw [if_neg hd]
          exact ⟨_, run_error (hend d hd) s⟩
    · rw [run_ok_more hlex hns.1]
      exact run_numeral hk s { c with state := here, buf := c.buf ++ [b] } rfl
    · exact ⟨c, run_error hlex s⟩

/-- What the machine does after a numeral decides what it does with the numeral. -/
theorem agrees_of_atEnd {fs : List Frame} {after : State} {r : Ref Bytes}
    {f : Bytes → Bytes → Ref RedisValue} {out : Verdict × Config × Bytes}
    (h : AtEnd fs after r out)
    (hf : ∀ c rest, r = .done c.buf rest → c.state = after → c.frames = fs →
      Agrees fs (f c.buf rest) (run step c (LF :: rest))) :
    Agrees fs (r.bind f) out := by
  cases r with
  | done ds rest =>
    obtain ⟨c, h1, rfl, h3, rfl⟩ := h
    exact hf c rest rfl h1 h3
  | bad rest => exact h
  | more => exact h

/-! ### Bulk strings -/

theorem run_crlf (c : Config) (s : Bytes) (hs : c.state = .bulkCR) :
    Agrees c.frames ((crlf s).map fun _ => .bytes c.buf false) (run step c s) := by
  rcases s with _ | ⟨b, s⟩
  · exact agrees_more c
  by_cases hb : b = CR
  · rw [run_ok_more (e := { c with state := .bulkLF }) (by simp [lex, hs, hb]) (by simp)]
    have h1 : crlf (b :: s) = expect LF s := by simp [crlf, expect, hb]
    rw [h1]
    rcases s with _ | ⟨d, s⟩
    · exact agrees_more _
    simp only [expect]
    by_cases hd : d = LF
    · rw [if_pos hd, run_ok_deliver (e := c) (v := .bytes c.buf false) (by simp [lex, hd])]
      exact agrees_done c _ s rfl
    · rw [if_neg hd, run_error (e := { c with state := .bulkLF }) (by simp [lex, hd])]
      exact agrees_bad _ s
  · have h1 : crlf (b :: s) = .bad s := by simp [crlf, expect, hb]
    rw [h1, run_error (e := c) (by simp [lex, hs, hb])]
    exact agrees_bad c s

/-- The bytes of a bulk string. -/
theorem run_bulkBytes (c : Config) (s : Bytes) (hs : c.state = .bulk) (hb : c.buf = [])
    (hp : 0 < c.bulkSize) :
    Agrees c.frames ((bulk c.bulkSize.toNat s).map (.bytes · false)) (run step c s) := by
  unfold bulk
  split_ifs with hl
  · rw [run_bulk s c s.length hs (Nat.le_refl _) (by omega) hp, List.drop_length]
    exact agrees_more _
  · rw [run_bulk s c c.bulkSize.toNat hs (by omega) (by omega) hp]
    have h := run_crlf (afterBulk c s c.bulkSize.toNat) (s.drop c.bulkSize.toNat)
      (by simp only [afterBulk]; rw [if_pos (by omega)])
    have hbuf : (afterBulk c s c.bulkSize.toNat).buf = s.take c.bulkSize.toNat := by
      simp [afterBulk, hb]
    rw [hbuf] at h
    rcases hx : crlf (s.drop c.bulkSize.toNat) with ⟨u, rest⟩ | rest | _ <;> rw [hx] at h <;> exact h

theorem run_bulkSizeEnd (c : Config) (s : Bytes) (hs : c.state = .bulkSizeLF) :
    Agrees c.frames (bulkOf (bufToLong c.buf) s) (run step c (LF :: s)) := by
  have hlex : lex c LF = lexBulkSizeEnd c := by simp [lex, hs]
  simp only [lexBulkSizeEnd] at hlex
  unfold bulkOf
  by_cases h1 : bufToLong c.buf = -1
  · rw [if_pos h1] at hlex ⊢
    rw [run_ok_deliver (e := { c with bulkSize := bufToLong c.buf, buf := [] }) hlex]
    exact agrees_done _ _ s rfl
  rw [if_neg h1] at hlex ⊢
  by_cases h2 : bufToLong c.buf = 0
  · rw [if_pos h2] at hlex
    rw [if_neg (by omega), run_ok_more hlex (by simp), h2]
    have h := run_crlf { c with state := .bulkCR, bulkSize := 0, buf := [] } s rfl
    have hb0 : bulk (0 : ℤ).toNat s = (crlf s).map fun _ => [] := by simp [bulk]
    rw [hb0]
    rcases hx : crlf s with ⟨u, rest⟩ | rest | _ <;> rw [hx] at h <;> exact h
  rw [if_neg h2] at hlex
  by_cases h3 : bufToLong c.buf < 0
  · rw [if_pos h3] at hlex ⊢
    rw [run_error hlex]
    exact agrees_bad _ s
  · rw [if_neg h3] at hlex ⊢
    rw [run_ok_more hlex (by simp)]
    exact run_bulkBytes { c with state := .bulk, bulkSize := bufToLong c.buf, buf := [] } s rfl rfl
      (by simp only; omega)

/-! ### Arrays -/

section Items
variable {r : Bytes → Ref RedisValue} {d : ℕ}
  (hr : ∀ (s : Bytes) (c : Config), s.length ≤ d → c.state = .start ∨ c.state = .startArray →
    Agrees c.frames (r s) (run step c s))
  (hl : ∀ s v rest, r s = .done v rest → rest.length < s.length)
include hr hl

/-- In front of an element of an array with the elements `vs` that will have `n` more after it. -/
theorem run_items : ∀ (n : ℕ) (s : Bytes) (c : Config) (vs : List RedisValue) (fs : List Frame),
    s.length ≤ d → c.state = .start ∨ c.state = .startArray → c.frames = ⟨n, vs⟩ :: fs →
      Agrees fs ((items r (n + 1) s).map fun ws => .array (vs ++ ws)) (run step c s)
  | n, s, c, vs, fs, hs, hc, hf => by
    have h := hr s c hs hc
    rw [hf] at h
    simp only [items]
    rcases hx : r s with ⟨v, rest⟩ | rest | _ <;> rw [hx] at h
    · obtain ⟨c', hf', h⟩ := h
      have hrest := hl s v rest hx
      rw [h, Ref.bind_done]
      cases n with
      | zero =>
        rw [deliver_last hf']
        exact agrees_done _ _ rest rfl
      | succ n =>
        rw [deliver_next hf']
        have ih := run_items n rest
          { c' with state := .start, redisValue := v, frames := ⟨n, vs ++ [v]⟩ :: fs } (vs ++ [v]) fs
          (by omega) (Or.inl rfl) rfl
        rcases hy : items r (n + 1) rest with ⟨ws, rest'⟩ | rest' | _ <;> rw [hy] at ih
        · simpa using ih
        · exact ih
        · exact ih
    · exact h
    · exact h

theorem run_arraySizeEnd (c : Config) (s : Bytes) (hd : s.length ≤ d)
    (hs : c.state = .arraySizeLF) :
    Agrees c.frames (arrayOf r (bufToLong c.buf) s) (run step c (LF :: s)) := by
  have hlex : lex c LF = lexArraySizeEnd c := by simp [lex, hs]
  simp only [lexArraySizeEnd] at hlex
  unfold arrayOf
  by_cases h1 : bufToLong c.buf = -1
  · rw [if_pos h1] at hlex ⊢
    rw [run_ok_deliver (e := c) hlex]
    exact agrees_done _ _ s rfl
  rw [if_neg h1] at hlex ⊢
  by_cases h2 : bufToLong c.buf = 0
  · rw [if_pos h2] at hlex
    rw [if_neg (by omega), run_ok_deliver (e := c) hlex, h2]
    exact agrees_done _ _ s rfl
  rw [if_neg h2] at hlex
  by_cases h3 : bufToLong c.buf < 0
  · rw [if_pos h3] at hlex ⊢
    rw [run_error hlex]
    exact agrees_bad _ s
  · rw [if_neg h3] at hlex ⊢
    rw [run_ok_more hlex (by simp), show (bufToLong c.buf).toNat = (bufToLong c.buf - 1).toNat + 1 by
      omega]
    exact run_items hr hl _ s
      { c with state := .startArray, frames := ⟨(bufToLong c.buf - 1).toNat, []⟩ :: c.frames }
      [] c.frames hd (Or.inr rfl) rfl

end Items

/-! ### Replies -/

/-- **In front of a reply the machine does what the grammar says.** -/
theorem run_reply : ∀ (d : ℕ) (s : Bytes) (c : Config), s.length ≤ d →
    c.state = .start ∨ c.state = .startArray → Agrees c.frames (reply d s) (run step c s)
  | 0, [], c, _, _ | _ + 1, [], c, _, _ => agrees_more c
  | d + 1, b :: s, c, hl, hc => by
    have hl : s.length ≤ d := by simpa using hl
    have hlex : lex c b = lexStart b c := by rcases hc with h | h <;> simp [lex, h]
    simp only [lexStart] at hlex
    simp only [reply]
    split_ifs at hlex ⊢ with h1 h2 h3 h4 h5
    · rw [run_ok_more hlex (by simp)]
      exact run_line (Or.inl ⟨rfl, rfl, rfl⟩) s { c with state := .string, buf := [] } rfl
    · rw [run_ok_more hlex (by simp)]
      exact run_line (Or.inr ⟨rfl, rfl, rfl⟩) s { c with state := .errorString, buf := [] } rfl
    · rw [run_ok_more hlex (by simp)]
      refine agrees_of_atEnd (run_numeral (Or.inl ⟨rfl, rfl⟩) s
        { c with state := .integer, buf := [] } rfl) fun c' rest _ hs hf => ?_
      rw [run_ok_deliver (e := { c' with buf := [] }) (v := .int (bufToLong c'.buf))
        (by simp [lex, hs])]
      exact agrees_done _ _ rest hf
    · rw [run_ok_more hlex (by simp)]
      refine agrees_of_atEnd (run_numeral (Or.inr (Or.inl ⟨rfl, rfl⟩)) s
        { c with state := .bulkSize, bulkSize := 0, buf := [] } rfl) fun c' rest _ hs hf => ?_
      have h := run_bulkSizeEnd c' rest hs
      rwa [hf] at h
    · rw [run_ok_more hlex (by simp)]
      refine agrees_of_atEnd (run_numeral (Or.inr (Or.inr ⟨rfl, rfl⟩)) s
        { c with state := .arraySize, buf := [] } rfl) fun c' rest hn hs hf => ?_
      have hrest := numeral_rest hn
      have h := run_arraySizeEnd (fun s c => run_reply d s c) (fun _ _ _ h => reply_rest h) c' rest
        (by omega) hs
      rwa [hf] at h
    · rw [run_error hlex]
      exact agrees_bad _ s
/-! ### Calls -/

theorem rep_of_idle {p : RedisParser} (h : Idle p) :
    ∃ c, Rep p c ∧ Ok c ∧ c.state = .start ∧ c.frames = [] := by
  obtain ⟨h1, h2, h3⟩ := h
  refine ⟨⟨.start, p.bulkSize, p.buf, p.redisValue, []⟩, Or.inr ⟨rfl, ?_⟩, by simp [Ok], rfl, rfl⟩
  cases p
  simp_all [toParser]

/-- **Between two replies a call does what the grammar says.** -/
theorem parse_idle {p : RedisParser} (hp : Idle p) {s : Bytes} (hs : s ≠ []) :
    match ref s with
    | .done v rest => ∃ p', parse p s = some ((s.length - rest.length, .completed), p') ∧
        Idle p' ∧ (result p').1 = v
    | .bad rest => ∃ p', parse p s = some ((s.length - rest.length, .error), p')
    | .more => ∃ p', parse p s = some ((s.length, .incompleted), p') := by
  obtain ⟨c, hr, hc, hst, hf⟩ := rep_of_idle hp
  have hrun := run_reply s.length s c (Nat.le_refl _) (Or.inl hst)
  have hparse := parse_rep hr hc hs
  unfold ref
  rcases hx : reply s.length s with ⟨v, rest⟩ | rest | _ <;> rw [hx] at hrun
  · obtain ⟨c', hf', hrun⟩ := hrun
    rw [deliver_nil (by rw [hf', hf])] at hrun
    rw [hrun] at hparse
    refine ⟨_, hparse, ?_, rfl⟩
    simp [Idle, after, toParser, hf', hf]
  · obtain ⟨c', hrun⟩ := hrun
    rw [hrun] at hparse
    exact ⟨_, hparse⟩
  · obtain ⟨c', hrun⟩ := hrun
    rw [hrun] at hparse
    exact ⟨_, hparse⟩

theorem idle_fresh : Idle fresh := ⟨rfl, rfl, rfl⟩

/-- A completed call on an array or a bulk string has the length that was announced. -/
theorem completed_length {ds t : Bytes} (hds : ∀ b ∈ ds, isDigit b || b = minus) (hne : ds ≠ [])
    {kind : UInt8} (hk : kind = arrayReply ∨ kind = bulkReply) {k : ℕ} {p : RedisParser}
    (h : parse fresh (kind :: ds ++ CR :: LF :: t) = some ((k, .completed), p)) :
    bufToLong ds = -1 ∧ (result p).1 = .null ∨
      (kind = arrayReply ∧ ∃ vs, (result p).1 = .array vs ∧ (vs.length : ℤ) = bufToLong ds) ∨
      (kind = bulkReply ∧ ∃ b, (result p).1 = .bytes b false ∧ (b.length : ℤ) = bufToLong ds) := by
  have hi := parse_idle idle_fresh (s := kind :: ds ++ CR :: LF :: t) (by simp)
  have hn := numeral_append ds [] t hds (by simpa using hne)
  rw [List.nil_append] at hn
  rcases hx : ref (kind :: ds ++ CR :: LF :: t) with ⟨v, rest⟩ | rest | _ <;> rw [hx] at hi
  · obtain ⟨p', h1, -, h2⟩ := hi
    rw [h] at h1
    cases h1
    rw [h2]
    simp only [ref, List.cons_append, List.length_cons] at hx
    rcases hk with rfl | rfl
    · simp only [reply, hn, Ref.bind_done] at hx
      rcases (arrayOf_done (fun _ _ _ h => reply_rest h) hx).1 with h3 | h3
      · exact Or.inl h3
      · exact Or.inr (Or.inl ⟨rfl, h3⟩)
    · simp only [reply, hn, Ref.bind_done] at hx
      rcases (bulkOf_done hx).1 with h3 | h3
      · exact Or.inl h3
      · exact Or.inr (Or.inr ⟨rfl, h3⟩)
  · obtain ⟨p', h1⟩ := hi
    rw [h] at h1
    cases h1
  · obtain ⟨p', h1⟩ := hi
    rw [h] at h1
    cases h1

/-- What the grammar must say where the machine, with no open arrays, ends up with `out`. -/
def reading : Verdict × Config × Bytes → Ref RedisValue
  | (.done, c, rest) => .done c.redisValue rest
  | (.fail, _, rest) => .bad rest
  | (.more, _, _) => .more

theorem agrees_reading {r : Ref RedisValue} {out : Verdict × Config × Bytes}
    (h : Agrees [] r out) : r = reading out := by
  cases r with
  | done v rest => obtain ⟨c, hf, rfl⟩ := h; rw [deliver_nil hf]; rfl
  | bad rest => obtain ⟨c, rfl⟩ := h; rfl
  | more => obtain ⟨c, rfl⟩ := h; rfl

/-- **The parser refines the grammar**, on every input: the same outcome, the same number of bytes
and the same value. So an array or a bulk string that completes has the length it announces. -/
theorem parse_refines_grammar (s : Bytes) (hs : s ≠ []) :
    (match ref s with
      | .done v rest => ∃ p, parse fresh s = some ((s.length - rest.length, .completed), p) ∧
          (result p).1 = v
      | .bad rest => ∃ p, parse fresh s = some ((s.length - rest.length, .error), p)
      | .more => ∃ p, parse fresh s = some ((s.length, .incompleted), p)) ∧
    ∀ (kind : UInt8) (ds t : Bytes) (k : ℕ) (p : RedisParser), s = kind :: ds ++ CR :: LF :: t →
      kind = arrayReply ∨ kind = bulkReply → ds ≠ [] → (∀ b ∈ ds, isDigit b || b = minus) →
      parse fresh s = some ((k, .completed), p) →
        bufToLong ds = -1 ∧ (result p).1 = .null ∨
        (kind = arrayReply ∧ ∃ vs, (result p).1 = .array vs ∧ (vs.length : ℤ) = bufToLong ds) ∨
        (kind = bulkReply ∧ ∃ b, (result p).1 = .bytes b false ∧
          (b.length : ℤ) = bufToLong ds) := by
  constructor
  · have h := parse_idle idle_fresh hs
    rcases hx : ref s with ⟨v, rest⟩ | rest | _ <;> rw [hx] at h
    · obtain ⟨p, h1, -, h2⟩ := h
      exact ⟨p, h1, h2⟩
    · exact h
    · exact h
  · rintro kind ds t k p rfl hk hne hds h
    exact completed_length hds hne hk h

/-- A nested array with one element missing. -/
theorem parse_refines_grammar_nested :
    ∃ p, parse fresh [42, 50, 13, 10, 58, 49, 13, 10] = some ((8, .incompleted), p) :=
  (parse_refines_grammar [42, 50, 13, 10, 58, 49, 13, 10] (by decide)).1

end RedisClient.Parser.Descent

import RedisClient.Parser.Numerals
import Mathlib.Data.List.Induction

/-! # What is converted to a number

The rounds of the loop in which `bufToLong` is called, and with which characters (`conversions`). They
are those of the numerals in the stream, nonempty runs of digits and minus signs up to CRLF behind a
type byte in front of which the parser is between replies or elements. None of them is checked again,
so all that is converted is well formed exactly if every numeral in the stream is
(`conversions_wellFormed_iff`). -/

namespace RedisClient.Parser.Conversions

open RedisClient.Value RedisClient.Lib.Reader RedisClient.Parser.Defs RedisClient.Parser.Machine
open RedisClient.Parser.Refine RedisClient.Parser.Chunks RedisClient.Parser.RoundTrip
open RedisClient.Parser.Numerals

/-! ### The calls of `bufToLong` -/

/-- The states in which an LF ends a numeral. -/
def AtLF (state : State) : Prop :=
  state = .integerLF ∨ state = .bulkSizeLF ∨ state = .arraySizeLF

instance (state : State) : Decidable (AtLF state) := inferInstanceAs (Decidable (_ ∨ _))

/-- What `bufToLong` is called with in a round of the loop, if it is called. -/
def converts (c : UInt8) (state : State) (buf : Bytes) : List Bytes :=
  if c = LF ∧ AtLF state then [buf] else []

/-- The same for the rounds of `parseLoop`, in order. -/
def loopConversions : ℕ → Bytes → State → RedisParser → List Bytes
  | 0, _, _, _ => []
  | _ + 1, [], _, _ => []
  | fuel + 1, c :: rest, state, p =>
    converts c state p.buf ++
      match switchState c rest state p with
      | .undefined => []
      | .error _ => []
      | .next rest state p =>
        if state = .start then
          match closeReply p with
          | none => []
          | some p => if p.arraySizes = [] then [] else loopConversions fuel rest .start p
        else loopConversions fuel rest state p

/-- The same for a call of `parse`. -/
def parseConversions (p : RedisParser) (ptr : Bytes) : List Bytes :=
  match p.states with
  | [] => loopConversions ptr.length ptr .start p
  | state :: states => loopConversions ptr.length ptr state { p with states := states }

/-- The same for the calls of `feedChunk`. -/
def feedConversions : ℕ → RedisParser → Bytes → List Bytes
  | _, _, [] => []
  | 0, _, _ :: _ => []
  | fuel + 1, p, b :: data =>
    parseConversions p (b :: data) ++
      match parse p (b :: data) with
      | none => []
      | some ((k, .completed), p) => feedConversions fuel (result p).2 ((b :: data).drop k)
      | some ((k, _), p) => feedConversions fuel p ((b :: data).drop k)

/-- **What `bufToLong` is called with** while the parser reads a list of chunks. -/
def conversions (p : RedisParser) : List Bytes → List Bytes
  | [] => []
  | c :: cs =>
    feedConversions c.length p c ++
      match feedChunk c.length p 0 c with
      | none => []
      | some (_, p) => conversions p cs

/-! ### On the machine -/

/-- What the machine converts at a byte. -/
def lexConverts (c : Config) (b : UInt8) : List Bytes := converts b c.state c.buf

theorem lexConverts_nil {c : Config} (h : ¬ AtLF c.state) (b : UInt8) : lexConverts c b = [] :=
  if_neg fun hb => h hb.2

/-- Nothing is converted inside a bulk string. -/
theorem runOut_bulk (bs : Bytes) (c : Config) (k : ℕ) (hs : c.state = .bulk) (hk : k ≤ bs.length)
    (hn : (k : ℤ) ≤ c.bulkSize) (hp : 0 < c.bulkSize) :
    runOut step lexConverts c bs = runOut step lexConverts (afterBulk c bs k) (bs.drop k) := by
  refine bulk_at_once (fun c b bs h => ?_) bs c k hs hk hn hp
  rw [runOut_cons_more (step_bulk b h), lexConverts_nil (by simp [h, AtLF]), List.nil_append]

/-- The loop converts what the machine converts. -/
theorem loopConversions_toParser : ∀ (fuel : ℕ) (rest : Bytes) (c : Config), rest.length ≤ fuel →
    Ok c → loopConversions fuel rest c.state (toParser c []) = runOut step lexConverts c rest
  | fuel, [], c, _, _ => by cases fuel <;> rfl
  | fuel + 1, b :: bs, c, hl, hc => by
    have hl : bs.length ≤ fuel := by simpa using hl
    have hout : converts b c.state (toParser c []).buf = lexConverts c b := rfl
    have hafter : ∀ (c' : Config) (cs : Bytes) (k : ℕ), (k : ℤ) ≤ c'.bulkSize →
        (cs.drop k).length ≤ fuel →
        loopConversions fuel (cs.drop k) (afterBulk c' cs k).state (toParser (afterBulk c' cs k) []) =
          runOut step lexConverts (afterBulk c' cs k) (cs.drop k) := fun _ cs _ hk hlen =>
      loopConversions_toParser fuel _ _ hlen (ok_afterBulk cs hk)
    by_cases hb : c.state = .bulk
    · obtain ⟨k, hk1, hk2, hk3, hk⟩ := bulkBytes_toParser b bs (hc hb)
      rw [runOut_bulk (b :: bs) c k hb hk2 hk3 (hc hb), ← hafter c (b :: bs) k hk3
        (by simp at hk2 ⊢; omega)]
      have hnil : converts b .bulk (toParser c []).buf = [] := if_neg (by simp [AtLF])
      simp only [loopConversions, hb, switchState, hk, if_neg (afterBulk_ne_start c (b :: bs) k),
        hnil, List.nil_append]
    by_cases hs : c.state = .bulkSizeLF ∧ b = LF ∧ 0 < bufToLong c.buf
    · obtain ⟨hs, rfl, hp⟩ := hs
      obtain ⟨k, hk1, hk2, hk⟩ := bulkSizeEnd_toParser bs hp
      set c1 : Config := { c with state := .bulk, bulkSize := bufToLong c.buf, buf := [] } with hc1
      rw [runOut_cons_more (step_bulkSizeEnd hs hp), runOut_bulk bs c1 k rfl hk1 hk2 hp,
        ← hafter c1 bs k hk2 (by simp; omega), ← hout]
      simp only [loopConversions, hs, switchState, if_true, hk]
      rw [if_neg (afterBulk_ne_start c1 bs k)]
    · have hsw : switchState b bs c.state (toParser c []) = turnOf bs (lex c b) :=
        switchState_toParser b bs hb fun h1 h2 => by
          by_contra h3
          exact hs ⟨h1, h2, by omega⟩
      have hok := ok_step b hc
      simp only [loopConversions, hsw, hout]
      rcases hx : lex c b with c' | c'
      · have h1 : step c b = (.fail, c') := by simp [step, hx]
        rw [runOut_cons_stop h1 (by simp)]
        exact List.append_nil _
      · have h1 : step c b = settle c' := by simp [step, hx]
        rw [h1] at hok
        by_cases hstart : c'.state = .start
        · obtain ⟨h2, h3⟩ := closeReply_toParser c' [] hstart
          have h4 : (settle c').2.state = .start := by rw [settle_state, hstart]
          simp only [turnOf, if_pos hstart, h2]
          rcases hr : settle c' with ⟨v, c''⟩
          rw [hr] at hok h1 h3 h4
          cases v with
          | fail => exact absurd (congrArg Prod.fst hr) (settle_ne_fail c')
          | more =>
            have hf : c''.frames ≠ [] := fun h => by simpa using h3.mpr h
            rw [runOut_cons_more h1, if_neg (by simpa [toParser] using hf), ← h4,
              loopConversions_toParser fuel bs c'' hl hok]
          | done =>
            have hf : c''.frames = [] := h3.mp rfl
            rw [runOut_cons_stop h1 (by simp), if_pos (by simp [toParser, hf])]
            exact List.append_nil _
        · have hr : settle c' = (.more, c') := by simp [settle, hstart]
          rw [hr] at hok h1
          simp only [turnOf, if_neg hstart]
          rw [runOut_cons_more h1, loopConversions_toParser fuel bs c' hl hok]

theorem parseConversions_rep {p : RedisParser} {c : Config} (h : Rep p c) (hc : Ok c)
    (ptr : Bytes) : parseConversions p ptr = runOut step lexConverts c ptr := by
  have hl := loopConversions_toParser ptr.length ptr c (Nat.le_refl _) hc
  rcases h with rfl | ⟨hs, rfl⟩
  · exact hl
  · rw [hs] at hl
    exact hl

theorem feedConversions_rep : ∀ (fuel : ℕ) (p : RedisParser) (c : Config) (data : Bytes),
    data.length ≤ fuel → Rep p c → Ok c →
    feedConversions fuel p data = drainOut step resume lexConverts c data
  | fuel, p, c, [], _, _, _ => by cases fuel <;> rfl
  | fuel + 1, p, c, b :: data, hl, hr, hc => by
    have hlen := length_rest step (b :: data) c (by simp)
    have hp := parse_rep hr hc (List.cons_ne_nil b data)
    have hconv := parseConversions_rep hr hc (b :: data)
    rcases hrun : run step c (b :: data) with ⟨v, c', rest⟩
    have hd := run_rest_eq hrun
    rw [hrun] at hlen hp
    simp only [report] at hlen hp
    have hle : rest.length ≤ fuel := by simp at hl hlen; omega
    cases v with
    | more =>
      have hrest := rest_of_more hrun
      subst hrest
      rw [drainOut_of_run_more hrun]
      simp only [feedConversions, hp, resultOf, hd, hconv]
      cases fuel <;> exact List.append_nil _
    | done =>
      have ih := feedConversions_rep fuel (result (toParser c' [])).2 (resume .done c') rest hle
        (Or.inr ⟨rfl, rfl⟩) (by simp [Ok, resume, restart])
      rw [drainOut_of_run_stop (by simp) hrun, ← ih]
      simp only [feedConversions, hp, resultOf, hd, hconv]
      rfl
    | fail =>
      have ih := feedConversions_rep fuel (toParser c' []) (resume .fail c') rest hle
        (Or.inr ⟨rfl, rfl⟩) (ok_restart c')
      rw [drainOut_of_run_stop (by simp) hrun, ← ih]
      simp only [feedConversions, hp, resultOf, hd, hconv]
      rfl

/-- **What is converted does not depend on the cuts.** -/
theorem conversions_rep : ∀ (cs : List Bytes) (p : RedisParser) (c : Config), Rep p c → Ok c →
    conversions p cs = drainOut step resume lexConverts c cs.flatten
  | [], _, _, _, _ => rfl
  | d :: cs, p, c, hr, hc => by
    obtain ⟨q, h1, h2, h3⟩ := feedChunk_rep d.length p c 0 d (Nat.le_refl _) hr hc
    rw [List.flatten_cons, drainOut_append, ← conversions_rep cs q _ h2 h3,
      ← feedConversions_rep d.length p c d (Nat.le_refl _) hr hc]
    simp only [conversions, h1]

/-! ### Numerals in a stream -/

/-- The loop of `bufToLong` is free of characters that it does not expect. -/
def Asserted (r : Bytes) : Prop := ∀ b ∈ unsigned r, isDigit b

/-- A parser that has read the stream `u` is in front of a reply or of an element of an array. -/
def FrontAfter (u : Bytes) : Prop :=
  ∃ es q, feedChunk u.length fresh 0 u = some (es, q) ∧ InFront q

/-- In the stream `s` the numeral `r` stands behind `u` and a type byte. -/
structure NumeralAt (s u : Bytes) (kind : UInt8) (r w : Bytes) : Prop where
  text : s = u ++ field kind r w
  front : FrontAfter u
  hasNumeral : HasNumeral kind
  ne_nil : r ≠ []
  chars : ∀ b ∈ r, isDigit b || b = minus

/-- Somewhere in the numeral `parse` returns an error. -/
def RefusedAt (cs : List Bytes) (u : Bytes) (kind : UInt8) (r : Bytes) : Prop :=
  ∃ es q off, feedChunks fresh 0 cs = some (es, q) ∧ .error off ∈ es ∧ u.length < off ∧
    off ≤ (u ++ field kind r []).length

/-- The machine that has read the stream `u`. -/
def machineAfter (u : Bytes) : Config := (drain step resume init 0 u).2

theorem frontAfter_iff (u : Bytes) : FrontAfter u ↔
    (machineAfter u).state = .start ∨ (machineAfter u).state = .startArray := by
  obtain ⟨q, hq, hrep, -⟩ := feedChunk_rep u.length fresh init 0 u (Nat.le_refl _) rep_fresh ok_init
  constructor
  · rintro ⟨es, q', hq', hfront⟩
    rw [hq] at hq'
    cases hq'
    exact (inFront_state hrep).mp hfront
  · intro h
    exact ⟨_, q, hq, (inFront_state hrep).mpr h⟩

/-! ### From the stream to the conversions -/

/-- The states in which the characters of a numeral are read, each with the one in which its LF is
expected. -/
inductive Numeral : State → State → Prop where
  | integer : Numeral .integer .integerLF
  | bulkSize : Numeral .bulkSize .bulkSizeLF
  | arraySize : Numeral .arraySize .arraySizeLF

theorem Numeral.lex {here after : State} (h : Numeral here after) {c : Config} (hs : c.state = here)
    (b : UInt8) : lex c b = lexNumeral b here after c := by
  cases h <;> simp [Machine.lex, hs]

theorem Numeral.ne_start {here after : State} (h : Numeral here after) :
    here ≠ .start ∧ after ≠ .start ∧ ¬ AtLF here ∧ AtLF after := by
  cases h <;> decide

/-- A step that goes on puts out nothing but what it converts. -/
theorem drainOut_lex {c e : Config} {b : UInt8} (h : lex c b = .ok e) (hs : e.state ≠ .start)
    (t : Bytes) : drainOut step resume lexConverts c (b :: t) =
      lexConverts c b ++ drainOut step resume lexConverts e t :=
  drainOut_cons_more (step_of_lex h hs) t

/-- The characters of a numeral are collected. -/
theorem drainOut_chars {here after : State} (h : Numeral here after) (t : Bytes) :
    ∀ (r : Bytes) (c : Config), c.state = here → (∀ b ∈ r, isDigit b || b = minus) →
      drainOut step resume lexConverts c (r ++ t) =
        drainOut step resume lexConverts { c with buf := c.buf ++ r } t
  | [], c, _, _ => by simp
  | b :: r, c, hs, hr => by
    have hb : (isDigit b || b = minus) = true := hr b List.mem_cons_self
    have hcr : b ≠ CR := by
      rintro rfl
      exact absurd hb (by decide)
    have hlex : lex c b = .ok { c with state := here, buf := c.buf ++ [b] } := by
      rw [h.lex hs, lexNumeral, if_neg hcr, if_pos hb]
    have ih := drainOut_chars h t r { c with state := here, buf := c.buf ++ [b] } rfl
      fun b' hb' => hr b' (List.mem_cons_of_mem b hb')
    rw [List.cons_append, drainOut_lex hlex h.ne_start.1,
      lexConverts_nil (by rw [hs]; exact h.ne_start.2.2.1), List.nil_append, ih, ← hs]
    simp

/-- **A numeral in the stream is converted.** -/
theorem conversions_numeral {s u r w : Bytes} {kind : UInt8} (h : NumeralAt s u kind r w) :
    r ∈ drainOut step resume lexConverts init s := by
  have hfront := (frontAfter_iff u).mp h.front
  rw [h.text, drainOut_append]
  refine List.mem_append_right _ ?_
  show r ∈ drainOut step resume lexConverts (machineAfter u) (kind :: (r ++ CR :: LF :: w))
  set c := machineAfter u with hc
  obtain ⟨here, after, e, hn, hlex, hs, hbuf⟩ : ∃ here after e, Numeral here after ∧
      lex c kind = .ok e ∧ e.state = here ∧ e.buf = [] := by
    have hstart : lex c kind = lexStart kind c := by
      rcases hfront with hs | hs <;> simp [lex, hs]
    rcases h.hasNumeral with rfl | rfl | rfl
    · exact ⟨_, _, _, .integer, hstart, rfl, rfl⟩
    · exact ⟨_, _, _, .bulkSize, hstart, rfl, rfl⟩
    · exact ⟨_, _, _, .arraySize, hstart, rfl, rfl⟩
  have hcr : lex { e with buf := e.buf ++ r } CR =
      .ok { e with buf := e.buf ++ r, state := after } := by
    have hne : e.buf ++ r ≠ [] := by simpa [hbuf] using h.ne_nil
    rw [hn.lex (c := { e with buf := e.buf ++ r }) hs CR, lexNumeral, if_pos rfl, if_neg hne]
  rw [drainOut_lex hlex (hs ▸ hn.ne_start.1), drainOut_chars hn _ r e hs h.chars,
    drainOut_lex hcr hn.ne_start.2.1]
  refine List.mem_append_right _ (List.mem_append_right _ ?_)
  have hout : lexConverts { e with buf := e.buf ++ r, state := after } LF = [r] := by
    unfold lexConverts converts
    rw [if_pos ⟨rfl, hn.ne_start.2.2.2⟩, hbuf]
    rfl
  unfold drainOut
  rw [hout]
  exact List.mem_append_left _ (List.mem_singleton.mpr rfl)

/-! ### From the conversions to the stream -/

/-- What the machine has read of a numeral is at the end of the stream. -/
structure Trail (v : Bytes) (c : Config) : Prop where
  inside : ∀ {after : State}, Numeral c.state after → ∃ u kind, v = u ++ kind :: c.buf ∧
    FrontAfter u ∧ HasNumeral kind ∧ ∀ b ∈ c.buf, isDigit b || b = minus
  atLF : AtLF c.state → ∃ u kind, v = u ++ kind :: (c.buf ++ [CR]) ∧
    FrontAfter u ∧ HasNumeral kind ∧ c.buf ≠ [] ∧ ∀ b ∈ c.buf, isDigit b || b = minus

/-- A state in which nothing is left of a numeral. -/
theorem trail_start {v : Bytes} {c : Config} (h : c.state = .start) : Trail v c where
  inside hn := by
    rw [h] at hn
    cases hn
  atLF hlf := by
    rw [h] at hlf
    exact absurd hlf (by decide)

/-- How the machine gets into a numeral and on in it. -/
theorem lex_inside {c e : Config} {b : UInt8} (h : lex c b = .ok e) {after : State}
    (hn : Numeral e.state after) :
    (c.state = .start ∨ c.state = .startArray) ∧ HasNumeral b ∧ e.buf = [] ∨
      c.state = e.state ∧ (isDigit b || b = minus) = true ∧ e.buf = c.buf ++ [b] := by
  rcases hs : c.state <;>
    simp only [lex, hs, lexStart, lexLine, lexNumeral, lexBulkSizeEnd, lexBulk, lexArraySizeEnd] at h
  case start | startArray =>
    left
    split_ifs at h with h1 h2 h3 h4 h5 <;> cases h
    · cases hn
    · cases hn
    · exact ⟨by simp, Or.inl h3, rfl⟩
    · exact ⟨by simp, Or.inr (Or.inl h4), rfl⟩
    · exact ⟨by simp, Or.inr (Or.inr h5), rfl⟩
  case integer | bulkSize | arraySize =>
    right
    split_ifs at h with h1 h2 h3 <;> cases h
    · cases hn
    · exact ⟨rfl, h3, rfl⟩
  case bulk =>
    cases h
    dsimp only at hn
    split_ifs at hn <;> cases hn
  all_goals split_ifs at h <;> cases h <;> cases hn

/-- How the machine gets to the end of a numeral. -/
theorem lex_atLF {c e : Config} {b : UInt8} (h : lex c b = .ok e) (hlf : AtLF e.state) :
    (∃ after, Numeral c.state after) ∧ b = CR ∧ c.buf ≠ [] ∧ e.buf = c.buf := by
  rcases hs : c.state <;>
    simp only [lex, hs, lexStart, lexLine, lexNumeral, lexBulkSizeEnd, lexBulk, lexArraySizeEnd] at h
  case integer =>
    split_ifs at h with h1 h2 h3 <;> cases h
    · exact ⟨⟨_, .integer⟩, h1, h2, rfl⟩
    · exact absurd hlf (by simp [AtLF])
  case bulkSize =>
    split_ifs at h with h1 h2 h3 <;> cases h
    · exact ⟨⟨_, .bulkSize⟩, h1, h2, rfl⟩
    · exact absurd hlf (by simp [AtLF])
  case arraySize =>
    split_ifs at h with h1 h2 h3 <;> cases h
    · exact ⟨⟨_, .arraySize⟩, h1, h2, rfl⟩
    · exact absurd hlf (by simp [AtLF])
  case bulk =>
    cases h
    dsimp only at hlf
    split_ifs at hlf <;> exact absurd hlf (by decide)
  all_goals split_ifs at h <;> cases h <;> exact absurd hlf (by simp [AtLF])

/-- One byte more. -/
theorem trail_lex {v : Bytes} {e : Config} {b : UInt8} (h : Trail v (machineAfter v))
    (hl : lex (machineAfter v) b = .ok e) : Trail (v ++ [b]) e where
  inside hn := by
    rcases lex_inside hl hn with ⟨hs, hb, he⟩ | ⟨hs, hb, he⟩
    · refine ⟨v, b, by rw [he], (frontAfter_iff v).mpr hs, hb, ?_⟩
      rw [he]
      intro b' hb'
      cases hb'
    · obtain ⟨u, kind, hv, hu, hk, hchars⟩ := h.inside (hs ▸ hn)
      refine ⟨u, kind, ?_, hu, hk, ?_⟩
      · nth_rewrite 1 [hv]
        rw [he, List.append_assoc, List.cons_append]
      · rw [he]
        intro b' hb'
        rcases List.mem_append.mp hb' with hb' | hb'
        · exact hchars b' hb'
        · rw [List.mem_singleton.mp hb']
          exact hb
  atLF hlf := by
    obtain ⟨⟨after, hn⟩, rfl, hne, he⟩ := lex_atLF hl hlf
    obtain ⟨u, kind, hv, hu, hk, hchars⟩ := h.inside hn
    rw [he]
    refine ⟨u, kind, ?_, hu, hk, hne, hchars⟩
    nth_rewrite 1 [hv]
    rw [List.append_assoc, List.cons_append]

theorem settle_buf (c : Config) : (settle c).2.buf = c.buf := by
  unfold settle
  split_ifs
  · dsimp only
    split_ifs <;> rfl
  · rfl

/-- **The trail of every stream.** -/
theorem trail_machineAfter (v : Bytes) : Trail v (machineAfter v) := by
  induction v using List.reverseRecOn with
  | nil => exact trail_start rfl
  | append_singleton v b ih =>
    have hsnoc : machineAfter (v ++ [b]) =
        (drain step resume (machineAfter v) (0 + v.length) [b]).2 := by
      unfold machineAfter
      rw [drain_append]
    rw [hsnoc]
    rcases hstep : step (machineAfter v) b with ⟨w, c⟩
    by_cases hw : w = .more
    · subst hw
      rw [drain_cons_more hstep]
      show Trail (v ++ [b]) c
      unfold step at hstep
      rcases hl : lex (machineAfter v) b with e | e
      · rw [hl] at hstep
        cases hstep
      · rw [hl] at hstep
        have hstate := settle_state e
        have hbuf := settle_buf e
        have htrail := trail_lex ih hl
        dsimp only at hstep
        rw [hstep] at hstate hbuf
        dsimp only at hstate hbuf
        constructor
        · intro after hn
          rw [hbuf]
          exact htrail.inside (hstate ▸ hn)
        · intro hlf
          rw [hbuf]
          exact htrail.atLF (hstate ▸ hlf)
    · rw [drain_cons_stop hstep hw]
      exact trail_start (by cases w <;> first | exact absurd rfl hw | rfl)

/-- **What is converted is a numeral in the stream.** -/
theorem numeral_of_conversion {s r : Bytes}
    (h : r ∈ drainOut step resume lexConverts init s) : ∃ u kind w, NumeralAt s u kind r w := by
  obtain ⟨v, b, w, rfl, hr⟩ := mem_drainOut h
  change r ∈ lexConverts (machineAfter v) b at hr
  unfold lexConverts converts at hr
  split_ifs at hr with hb
  · obtain ⟨rfl, hlf⟩ := hb
    rw [List.mem_singleton.mp hr]
    obtain ⟨u, kind, hv, hu, hk, hne, hchars⟩ := (trail_machineAfter v).atLF hlf
    refine ⟨u, kind, w, ?_, hu, hk, hne, hchars⟩
    nth_rewrite 1 [hv]
    simp [field]
  · cases hr

/-! ### The theorem -/

/-- **When only well-formed numerals are converted**: when the stream has no other ones. A numeral that
is a single minus sign, or has one behind the first character, is converted like any other. -/
theorem conversions_wellFormed_iff (cs : List Bytes) :
    ((∀ r ∈ conversions fresh cs, WellFormed r ∧ Asserted r) ∧
      ∀ u kind r w, NumeralAt cs.flatten u kind r w → ¬ WellFormed r → RefusedAt cs u kind r) ↔
    ∀ u kind r w, NumeralAt cs.flatten u kind r w → WellFormed r := by
  rw [conversions_rep cs fresh init rep_fresh ok_init]
  constructor
  · rintro ⟨hall, -⟩ u kind r w hn
    exact (hall r (conversions_numeral hn)).1
  · intro hwf
    refine ⟨fun r hr => ?_, fun u kind r w hn hbad => absurd (hwf u kind r w hn) hbad⟩
    obtain ⟨u, kind, w, hn⟩ := numeral_of_conversion hr
    have h := hwf u kind r w hn
    exact ⟨h, h.2⟩

/-- **Minus signs are not checked.** `:-` is read as 0 and `:1-2` as 72. -/
theorem minus_not_checked :
    ¬ WellFormed [45] ∧ conversions fresh [[58, 45, 13, 10]] = [[45]] ∧
    feedChunks fresh 0 [[58, 45, 13, 10]] =
      some ([.reply 4 (.int 0)], { fresh with redisValue := .int 0 }) ∧
    ¬ Asserted [49, 45, 50] ∧ conversions fresh [[58, 49, 45, 50, 13, 10]] = [[49, 45, 50]] ∧
    feedChunks fresh 0 [[58, 49, 45, 50, 13, 10]] =
      some ([.reply 6 (.int 72)], { fresh with redisValue := .int 72 }) := by
  refine ⟨by decide, by decide +kernel, by decide +kernel, ?_, by decide +kernel, by decide +kernel⟩
  intro h
  exact absurd (h 45 (by decide)) (by decide)

end RedisClient.Parser.Conversions

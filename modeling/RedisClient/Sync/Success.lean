import RedisClient.Sync.Reconnect
import RedisClient.Sync.Stream

/-! # What a clear error code says

A call of a connected client sends its commands (`afterSend`) and takes what arrives before a try
fails: replies, and errors of the parser where a reply is malformed (`arriving`). It returns with the
code clear if as much arrives as it has commands (`perform_arriving`), the errors as nil among the
values. So the code tells of all that has gone wrong if and only if the client is connected and none
of what the call takes is malformed (`truthful_iff`). -/

namespace RedisClient.Sync.Success

open RedisClient.Value RedisClient.Parser.Defs RedisClient.Parser.Values RedisClient.Commands
open RedisClient.Peers RedisClient.Sync.Defs RedisClient.Sync.Io RedisClient.Sync.Session
open RedisClient.Sync.Reconnect RedisClient.Sync.Stream

/-! ### Sending -/

/-- The tries that are left when `k` bytes have been sent, if they are enough and none fails. -/
def afterSend : ℕ → List Try → Option (List Try)
  | 0, ts => some ts
  | k + 1, .moved n :: ts => afterSend (k - n) ts
  | k + 1, .failed errno :: ts => if errno = EINTR then afterSend (k + 1) ts else none
  | _ + 1, _ => none

/-- The same for buffers of several sizes, each of them sent on its own. -/
def afterSendAll : List ℕ → List Try → Option (List Try)
  | [], ts => some ts
  | k :: ks, ts => (afterSend k ts).bind (afterSendAll ks)

@[simp] theorem afterSend_zero (ts : List Try) : afterSend 0 ts = some ts := by
  cases ts <;> rfl

/-- Tries that send a buffer do not fail, and a write uses them. -/
theorem writeLoop_afterSend : ∀ {ts ts' : List Try} (s : Socket) {buffer : Bytes},
    afterSend buffer.length ts = some ts' →
      writeLoop ts s buffer none = some (buffer.length, none, s.send buffer, ts') ∧
        ∃ used, ts = used ++ ts' ∧ AllFine used
  | ts, ts', s, [], h => by
    rw [List.length_nil, afterSend_zero] at h
    cases h
    refine ⟨?_, [], rfl, allFine_nil⟩
    cases ts <;> simp [writeLoop]
  | .failed errno :: ts, ts', s, b :: buffer, h => by
    simp only [List.length_cons, afterSend] at h
    split_ifs at h with he
    have hsend : afterSend (b :: buffer).length ts = some ts' := h
    obtain ⟨hw, used, hts, hf⟩ := writeLoop_afterSend s hsend
    refine ⟨?_, .failed errno :: used, by rw [hts]; rfl, allFine_cons.mpr ⟨by simp [fine, he], hf⟩⟩
    simpa [writeLoop, he] using hw
  | .moved n :: ts, ts', s, b :: buffer, h => by
    simp only [List.length_cons, afterSend] at h
    rw [← List.length_drop] at h
    obtain ⟨hw, used, hts, hf⟩ := writeLoop_afterSend (s.send (b :: buffer.take n)) h
    refine ⟨?_, .moved n :: used, by rw [hts]; rfl, allFine_cons.mpr ⟨rfl, hf⟩⟩
    simp only [writeLoop, List.cons_ne_nil, if_false, List.take_succ_cons, List.drop_succ_cons, hw,
      Option.map_some, send_send, List.cons_append, List.take_append_drop, List.length_cons,
      List.length_take, List.length_drop]
    congr 2
    omega

/-- A write that leaves the code clear has sent the buffer. -/
theorem afterSend_writeLoop : ∀ {ts ts' : List Try} {s s' : Socket} {buffer : Bytes} {k : ℕ},
    writeLoop ts s buffer none = some (k, none, s', ts') → afterSend buffer.length ts = some ts'
  | [], ts', s, s', [], k, h => by
    cases h
    rfl
  | t :: ts, ts', s, s', [], k, h => by
    cases h
    rfl
  | .failed errno :: ts, ts', s, s', b :: buffer, k, h => by
    simp only [writeLoop, List.cons_ne_nil, if_false] at h
    split_ifs at h with he
    · rw [List.length_cons, afterSend, if_pos he]
      exact afterSend_writeLoop h
    · cases h
  | .moved n :: ts, ts', s, s', b :: buffer, k, h => by
    simp only [writeLoop, List.cons_ne_nil, if_false] at h
    obtain ⟨⟨j, r⟩, hw, heq⟩ := Option.map_eq_some_iff.mp h
    cases heq
    have hrest := afterSend_writeLoop hw
    rwa [List.drop_succ_cons, List.length_drop] at hrest

theorem socketWriteAll_afterSendAll : ∀ {buffers : List Bytes} {s : Socket} {ts ts' : List Try},
    s.isOpen = true → afterSendAll (buffers.map List.length) ts = some ts' →
      (∃ k, socketWriteAll s buffers none ts = some (k, none, s.send buffers.flatten, ts')) ∧
        ∃ used, ts = used ++ ts' ∧ AllFine used
  | [], s, ts, ts', _, h => by
    cases h
    exact ⟨⟨0, by simp [socketWriteAll]⟩, [], rfl, allFine_nil⟩
  | buffer :: buffers, s, ts, ts', ho, h => by
    obtain ⟨ts1, h1, h2⟩ := Option.bind_eq_some_iff.mp h
    obtain ⟨hw, used1, hts1, hf1⟩ := writeLoop_afterSend s h1
    obtain ⟨⟨k, hall⟩, used2, hts2, hf2⟩ :=
      socketWriteAll_afterSendAll (s := s.send buffer) ho h2
    refine ⟨⟨buffer.length + k, ?_⟩, used1 ++ used2, ?_, allFine_append.mpr ⟨hf1, hf2⟩⟩
    · rw [socketWriteAll, socketWrite_open ho, hw, Option.bind_some]
      dsimp only
      rw [if_neg (by simp), hall, Option.map_some, send_send, List.flatten_cons]
    · rw [hts1, hts2, List.append_assoc]

/-- **If the tries do not send the buffers**, no write returns with the code clear. -/
theorem socketWriteAll_unsent : ∀ {buffers : List Bytes} {s s' : Socket} {ec : ErrorCode}
    {ts ts' : List Try} {k : ℕ}, s.isOpen = true →
    afterSendAll (buffers.map List.length) ts = none →
      socketWriteAll s buffers none ts = some (k, ec, s', ts') → ec.isSome = true
  | [], s, s', ec, ts, ts', k, _, h, _ => by cases h
  | buffer :: buffers, s, s', ec, ts, ts', k, ho, h, hw => by
    obtain ⟨⟨k1, ec1, s1, ts1⟩, hw1, hr⟩ := Option.bind_eq_some_iff.mp hw
    rw [socketWrite_open ho] at hw1
    rcases ec1 with _ | e
    · have h1 := afterSend_writeLoop hw1
      obtain ⟨hw2, -⟩ := writeLoop_afterSend s h1
      cases hw1.symm.trans hw2
      have h2 : (afterSend buffer.length ts).bind
        (afterSendAll (buffers.map List.length)) = none := h
      rw [h1, Option.bind_some] at h2
      obtain ⟨⟨j, r⟩, hrec, heq⟩ := Option.map_eq_some_iff.mp hr
      cases heq
      exact socketWriteAll_unsent (s := s.send buffer) ho h2 hrec
    · cases hr
      rfl

/-! ### What arrives -/

/-- The bytes that are read, when the first of them are `s` and the rest comes in pieces. A client
that stops at an error reads no piece after the one in which it meets the first. -/
def gathered (stops : Bool) (p : RedisParser) : Bytes → List Bytes → Bytes
  | s, [] => s
  | s, data :: chunks =>
    if stops ∧ none ∈ outcomesFrom p s then s else gathered stops p (s ++ data) chunks

/-- The pieces in which a client reads, up to the first try that fails. -/
def readable (c : RedisClientImpl) (ts : List Try) : List Bytes :=
  if c.socket.isOpen then pieces (ts.takeWhile fine) c.socket.unread else []

/-- The error handler closes the connection when it is told of an error of the parser. -/
def closes (c : RedisClientImpl) : Bool := c.errorHandler parserError = .disconnects

/-- **What arrives** at a client before a try fails: replies, and `none` for each malformed one. -/
def arriving (c : RedisClientImpl) (ts : List Try) : List (Option RedisValue) :=
  outcomesFrom c.redisParser (gathered (closes c) c.redisParser c.buf (readable c ts))

theorem heard_front (stops : Bool) (p : RedisParser) : ∀ (chunks : List Bytes) (s : Bytes),
    gathered stops p s chunks <+: s ++ chunks.flatten
  | [], s => by simp [gathered]
  | data :: chunks, s => by
    unfold gathered
    split_ifs
    · exact List.prefix_append _ _
    · have h := heard_front stops p chunks (s ++ data)
      rwa [List.append_assoc, ← List.flatten_cons] at h

/-- A client that does not stop reads all pieces. -/
theorem heard_all (p : RedisParser) : ∀ (chunks : List Bytes) (s : Bytes),
    gathered false p s chunks = s ++ chunks.flatten
  | [], s => by simp [gathered]
  | data :: chunks, s => by
    unfold gathered
    rw [if_neg (by simp), heard_all p chunks, List.append_assoc, List.flatten_cons]

/-- When the parser has read `s` in front of the first error and `s'` is left, the same pieces
follow. -/
theorem heard_rest (stops : Bool) {p p' : RedisParser} {os : List (Option RedisValue)}
    (hos : none ∉ os) : ∀ (chunks : List Bytes) {s s' : Bytes},
    (∀ t, outcomesFrom p (s ++ t) = os ++ outcomesFrom p' (s' ++ t)) →
      ∃ t, gathered stops p s chunks = s ++ t ∧ gathered stops p' s' chunks = s' ++ t
  | [], s, s', _ => ⟨[], by simp [gathered], by simp [gathered]⟩
  | data :: chunks, s, s', h => by
    have hiff : none ∈ outcomesFrom p s ↔ none ∈ outcomesFrom p' s' := by
      have hnil := h []
      rw [List.append_nil, List.append_nil] at hnil
      rw [hnil, List.mem_append]
      exact ⟨fun hm => hm.resolve_left hos, Or.inr⟩
    unfold gathered
    by_cases hstop : stops = true ∧ none ∈ outcomesFrom p' s'
    · rw [if_pos ⟨hstop.1, hiff.mpr hstop.2⟩, if_pos hstop]
      exact ⟨[], by simp, by simp⟩
    · have hmore : ∀ t, outcomesFrom p (s ++ data ++ t) =
          os ++ outcomesFrom p' (s' ++ data ++ t) := by
        intro t
        rw [List.append_assoc, List.append_assoc]
        exact h (data ++ t)
      rw [if_neg fun hs => hstop ⟨hs.1, hiff.mp hs.2⟩, if_neg hstop]
      obtain ⟨t, ht, ht'⟩ := heard_rest stops hos chunks hmore
      exact ⟨data ++ t, by rw [ht, List.append_assoc], by rw [ht', List.append_assoc]⟩

/-- After an error the client has closed the connection, and it reads nothing more. -/
theorem heard_error {p : RedisParser} {s : Bytes} (h : none ∈ outcomesFrom p s) :
    ∀ chunks : List Bytes, gathered true p s chunks = s
  | [] => rfl
  | data :: chunks => by
    unfold gathered
    rw [if_pos ⟨rfl, h⟩]

/-- Of what arrives, all is on the stream. -/
theorem arriving_prefix {c : RedisClientImpl} (hp : Reachable c.redisParser) (ts : List Try) :
    arriving c ts <+: outcomesFrom c.redisParser (c.buf ++ c.socket.unread) := by
  have hread : (readable c ts).flatten <+: c.socket.unread := by
    unfold readable
    split_ifs
    · exact pieces_prefix _ _
    · exact List.nil_prefix
  have hheard := (heard_front (closes c) c.redisParser (readable c ts) c.buf).trans
    ((List.prefix_append_right_inj c.buf).mpr hread)
  obtain ⟨t, ht⟩ := hheard
  unfold arriving
  rw [← ht]
  exact outcomesFrom_prefix hp _ t

/-! ### Taking what arrives -/

/-- A client whose error handler returns. -/
structure Serviceable (c : RedisClientImpl) : Prop where
  reachable : Reachable c.redisParser
  returns : ∀ message, c.errorHandler message ≠ .throws

/-- What the error handler is told. -/
def complaints : Option RedisValue → List String
  | some _ => []
  | none => [parserError]

/-- How a call of `syncReadResponse` can end: it takes the first of what arrives. -/
inductive Takes (c : RedisClientImpl) (ts : List Try) :
    Option (Return × RedisClientImpl × List Try) → Prop
  | blocked (h : arriving c ts = []) : Takes c ts none
  | failed {e : SysError} {c' : RedisClientImpl} {ts' : List Try} (h : arriving c ts = []) :
      Takes c ts (some (⟨some noValue, some e, []⟩, c', ts'))
  | took {o : Option RedisValue} {c' : RedisClientImpl} {used ts' : List Try} (hc : Serviceable c')
      (hts : ts = used ++ ts') (hf : AllFine used) (h : arriving c ts = o :: arriving c' ts') :
      Takes c ts (some (⟨some (o.getD noValue), none, complaints o⟩, c', ts'))

/-- Something has been read before. -/
theorem Takes.of_later {c c1 : RedisClientImpl} {used ts ts1 : List Try}
    {out : Option (Return × RedisClientImpl × List Try)} (h : Takes c1 ts1 out)
    (hts : ts = used ++ ts1) (hf : AllFine used) (ha : arriving c ts = arriving c1 ts1) :
    Takes c ts out := by
  cases h with
  | blocked h => exact .blocked (ha.trans h)
  | failed h => exact .failed (ha.trans h)
  | took hc hts' hf' h =>
    refine .took hc ?_ (allFine_append.mpr ⟨hf, hf'⟩) (ha.trans h)
    rw [hts, hts', List.append_assoc]

/-- Nothing but the buffer has been read. -/
theorem Takes.next {c c' : RedisClientImpl} {ts : List Try} (o : Option RedisValue) (hc : Serviceable c')
    (h : arriving c ts = o :: arriving c' ts) :
    Takes c ts (some (⟨some (o.getD noValue), none, complaints o⟩, c', ts)) :=
  .took hc (List.nil_append ts).symm allFine_nil h

/-- The inner loop on a buffer that is not empty. -/
theorem parseBuffer_takes {c : RedisClientImpl} (hc : Serviceable c) (ts : List Try) (hb : c.buf ≠ []) :
    ∃ r c', parseBuffer none c.buf.length 0 c = some (r, c') ∧
      match r with
      | some r => Takes c ts (some (r, c', ts))
      | none => Serviceable c' ∧ c'.buf = [] ∧ c'.socket = c.socket ∧ arriving c ts = arriving c' ts := by
  rcases outcomes_parse hc.reachable hb with ⟨k, p, hp, hk, hle, ho⟩ | ⟨p, hp, ho⟩ | ⟨k, p, hp, ho⟩
  · have hp' : Reachable (result p).2 := (hc.reachable.parse hb hp).result
    refine ⟨_, _, parseBuffer_parse none hb hp (by simp),
      .next (some (result p).1) ⟨hp', hc.returns⟩ ?_⟩
    have hos : none ∉ [some (result p).1] := by simp
    obtain ⟨t, ht, ht'⟩ := heard_rest (closes c) hos (readable c ts) ho
    show outcomesFrom c.redisParser (gathered (closes c) c.redisParser c.buf (readable c ts)) =
      some (result p).1 :: outcomesFrom (result p).2
        (gathered (closes c) (result p).2 (c.buf.drop k) (readable c ts))
    rw [ht, ht']
    exact ho t
  · refine ⟨_, _, parseBuffer_parse none hb hp fun _ => rfl,
      ⟨hc.reachable.parse hb hp, hc.returns⟩, rfl, rfl, ?_⟩
    have hos : none ∉ ([] : List (Option RedisValue)) := List.not_mem_nil
    have hmore : ∀ t, outcomesFrom c.redisParser (c.buf ++ t) = [] ++ outcomesFrom p ([] ++ t) := ho
    obtain ⟨t, ht, ht'⟩ := heard_rest (closes c) hos (readable c ts) hmore
    show outcomesFrom c.redisParser (gathered (closes c) c.redisParser c.buf (readable c ts)) =
      outcomesFrom p (gathered (closes c) p [] (readable c ts))
    rw [ht, ht']
    exact ho t
  · have hpr : Reachable p := hc.reachable.parse hb hp
    refine ⟨_, _, parseBuffer_parse none hb hp (by simp), ?_⟩
    simp only [callErrorHandler]
    rcases hh : c.errorHandler parserError with _ | _ | _
    · exact absurd hh (hc.returns parserError)
    · -- the client reads on
      have hcloses : closes c = false := by simp [closes, hh]
      refine .next none ⟨hpr, hc.returns⟩ ?_
      show outcomesFrom c.redisParser (gathered (closes c) c.redisParser c.buf (readable c ts)) =
        none :: outcomesFrom p (gathered (closes c) p (c.buf.drop k) (readable c ts))
      rw [hcloses, heard_all, heard_all]
      exact ho _
    · -- the connection is closed
      have hcloses : closes c = true := by simp [closes, hh]
      have herror := ho []
      rw [List.append_nil, List.append_nil] at herror
      refine .next none ⟨hpr, hc.returns⟩ ?_
      show outcomesFrom c.redisParser (gathered (closes c) c.redisParser c.buf (readable c ts)) =
        none :: outcomesFrom p (c.buf.drop k)
      rw [hcloses, heard_error (by rw [herror]; exact List.mem_cons_self), herror]

/-- **A read takes the first of the pieces**, or nothing arrives any more. -/
theorem readLoop_readable (s : Socket) : ∀ ts : List Try,
    match readLoop bufferSize s none ts with
    | none => pieces (ts.takeWhile fine) s.unread = []
    | some (data, none, s', ts') => data ≠ [] ∧ s' = s.recv data.length ∧
        pieces (ts.takeWhile fine) s.unread = data :: pieces (ts'.takeWhile fine) s'.unread ∧
        ∃ used, ts = used ++ ts' ∧ AllFine used ∧ used ≠ []
    | some (_, some _, _, _) => pieces (ts.takeWhile fine) s.unread = []
  | [] => rfl
  | .failed errno :: ts => by
    unfold readLoop
    split_ifs with he
    · have hfine : fine (.failed errno) = true := by simp [fine, he]
      have ih := readLoop_readable s ts
      rw [List.takeWhile_cons_of_pos hfine]
      rcases hx : readLoop bufferSize s none ts with _ | ⟨data, _ | e, s', ts'⟩ <;> rw [hx] at ih
      · exact ih
      · obtain ⟨h1, h2, h3, used, hts, hf, -⟩ := ih
        exact ⟨h1, h2, h3, .failed errno :: used, by rw [hts]; rfl, allFine_cons.mpr ⟨hfine, hf⟩,
          List.cons_ne_nil _ _⟩
      · exact ih
    · rw [List.takeWhile_cons_of_neg (by simpa [fine] using he)]
      rfl
  | .zero :: ts => rfl
  | .moved n :: ts => by
    have hfine : fine (.moved n) = true := rfl
    unfold readLoop
    rw [List.takeWhile_cons_of_pos hfine]
    dsimp only
    by_cases hd : s.unread.take (min (n + 1) bufferSize) = []
    · rw [if_pos hd]
      show pieces (.moved n :: ts.takeWhile fine) s.unread = []
      unfold pieces
      exact if_pos hd
    · rw [if_neg hd]
      refine ⟨hd, rfl, ?_, [.moved n], rfl, allFine_cons.mpr ⟨hfine, allFine_nil⟩, by simp⟩
      rw [unread_recv]
      exact if_neg hd

/-- The pieces of a client with an empty buffer are what arrives. -/
theorem arriving_read {c : RedisClientImpl} {data : Bytes} {ts ts' : List Try} (hb : c.buf = [])
    (h : readable c ts = data :: readable { c with socket := c.socket.recv data.length } ts') :
    arriving c ts =
      arriving { c with buf := data, socket := c.socket.recv data.length } ts' := by
  unfold arriving
  rw [hb, h, gathered, if_neg (by simp)]
  rfl

theorem arriving_nil {c : RedisClientImpl} {ts : List Try} (hb : c.buf = [])
    (h : readable c ts = []) : arriving c ts = [] := by
  unfold arriving
  rw [hb, h]
  rfl

theorem readResponse_takes : ∀ (fuel : ℕ) (c : RedisClientImpl) (ts : List Try), Serviceable c →
    ts.length + (if c.buf = [] then 1 else 2) ≤ fuel → Takes c ts (readResponse fuel c none ts)
  | 0, c, ts, _, hl => by split_ifs at hl <;> omega
  | fuel + 1, c, ts, hc, hl => by
    -- the inner loop and what follows it
    have hinner : ∀ {c : RedisClientImpl} {ts : List Try} {k}, Serviceable c → c.buf ≠ [] →
        ts.length + 1 ≤ fuel → AfterParse fuel none ts k →
        Takes c ts ((parseBuffer none c.buf.length 0 c).bind k) := by
      intro c ts k hc hb hl hk
      obtain ⟨r, c', hpb, h⟩ := parseBuffer_takes hc ts hb
      rw [hpb, Option.bind_some]
      rcases r with _ | r
      · obtain ⟨hc', hb', -, ha⟩ := h
        rw [hk.again]
        refine (readResponse_takes fuel c' ts hc' ?_).of_later (List.nil_append ts).symm
          allFine_nil ha
        rwa [if_pos hb']
      · rw [hk.returns]
        exact h
    unfold readResponse
    by_cases hb : c.buf = []
    · rw [if_pos hb]
      rw [if_pos hb] at hl
      by_cases ho : c.socket.isOpen = true
      · rw [socketReadSome, if_pos ho]
        have hreadable : ∀ ts, readable c ts = pieces (ts.takeWhile fine) c.socket.unread :=
          fun ts => if_pos ho
        have hread := readLoop_readable c.socket ts
        rcases hx : readLoop bufferSize c.socket none ts with _ | ⟨data, _ | e, s', ts'⟩ <;>
          rw [hx] at hread
        · exact .blocked (arriving_nil hb ((hreadable ts).trans hread))
        · obtain ⟨hd, rfl, hp, used, rfl, hf, hne⟩ := hread
          have hused := List.length_pos_iff.mpr hne
          have ha : arriving c (used ++ ts') =
              arriving { c with buf := data, socket := c.socket.recv data.length } ts' := by
            refine arriving_read hb ((hreadable _).trans (hp.trans ?_))
            exact congrArg (data :: ·) (if_pos ho).symm
          rw [Option.bind_some]
          dsimp only
          rw [if_neg (by simp)]
          rw [List.length_append] at hl
          have hc1 : Serviceable { c with buf := data, socket := c.socket.recv data.length } :=
            ⟨hc.reachable, hc.returns⟩
          exact (hinner hc1 hd (by omega) ⟨fun _ _ => rfl, fun _ => rfl⟩).of_later rfl hf ha
        · exact .failed (arriving_nil hb ((hreadable ts).trans hread))
      · rw [socketReadSome, if_neg ho]
        exact .failed (arriving_nil hb (if_neg ho))
    · rw [if_neg hb]
      rw [if_neg hb] at hl
      exact hinner hc hb (by omega) ⟨fun _ _ => rfl, fun _ => rfl⟩

/-- **A call of `syncReadResponse`** takes the first of what arrives. -/
theorem syncReadResponse_takes {c : RedisClientImpl} (hc : Serviceable c) (ts : List Try) :
    Takes c ts (syncReadResponse c none ts) := by
  refine readResponse_takes _ c ts hc ?_
  split_ifs <;> omega

/-- How a call for `n` replies can end: with the code clear if and only if as much arrives. -/
def TakesAll (as : List (Option RedisValue)) (n : ℕ) (value : List RedisValue → RedisValue)
    (errors : List String) (ts : List Try) (out : Option (Return × RedisClientImpl × List Try)) :
    Prop :=
  if n ≤ as.length then
    ∃ c' used ts', out = some (⟨some (value ((as.take n).map fun a => a.getD noValue)), none,
      errors ++ (as.take n).flatMap complaints⟩, c', ts') ∧ ts = used ++ ts' ∧ AllFine used
  else ∀ r c' ts', out = some (r, c', ts') → r.ec.isSome = true

/-- **The loop over the responses.** -/
theorem readResponses_takes : ∀ (n : ℕ) (acc : List RedisValue) (errors : List String)
    {c : RedisClientImpl} (ts : List Try), Serviceable c →
    TakesAll (arriving c ts) n (fun vs => .array (acc ++ vs)) errors ts
      (readResponses n acc errors c none ts)
  | 0, acc, errors, c, ts, _ => by
    unfold TakesAll
    rw [if_pos (Nat.zero_le _)]
    exact ⟨c, [], ts, by simp [readResponses], rfl, allFine_nil⟩
  | n + 1, acc, errors, c, ts, hc => by
    have h := syncReadResponse_takes hc ts
    unfold TakesAll readResponses
    generalize syncReadResponse c none ts = out at h
    cases h with
    | blocked h =>
      rw [h, if_neg (by simp)]
      intro r c' ts' hr
      cases hr
    | failed h =>
      rw [h, if_neg (by simp)]
      intro r c' ts' hr
      cases hr
      rfl
    | @took o c' used ts' hc' hts hf h =>
      have ih := readResponses_takes n (acc ++ [o.getD noValue]) (errors ++ complaints o) ts' hc'
      unfold TakesAll at ih
      rw [h, Option.bind_some]
      simp only [List.length_cons, Nat.add_le_add_iff_right, List.take_succ_cons, List.map_cons,
        List.flatMap_cons, Option.isSome_none, Bool.false_eq_true, if_false]
      split_ifs at ih ⊢ with hn
      · obtain ⟨c2, used2, ts2, hr, hts2, hf2⟩ := ih
        refine ⟨c2, used ++ used2, ts2, ?_, ?_, allFine_append.mpr ⟨hf, hf2⟩⟩
        · rw [hr]
          simp
        · rw [hts, hts2, List.append_assoc]
      · exact ih

/-! ### A call -/

/-- What a call returns for its replies. -/
def valueOf : Request → List RedisValue → RedisValue
  | .command _, vs => vs.headD noValue
  | .pipelined _, vs => .array vs

/-- The sizes of the buffers that are sent. -/
def sizes (req : Request) : List ℕ := req.commands.map fun cmd => cmd.enc.length

/-- The client when its commands have been sent. -/
def sent (c : RedisClientImpl) (req : Request) : RedisClientImpl :=
  { c with socket := c.socket.send (encs req.commands) }

/-- A list of one command returns an array of what the command returns. -/
theorem TakesAll.of_array {as : List (Option RedisValue)} {errors : List String} {ts : List Try}
    {out : Option (Return × RedisClientImpl × List Try)}
    (h : TakesAll as 1 .array errors ts (out.map fun r => (asArray r.1, r.2))) :
    TakesAll as 1 (fun vs => vs.headD noValue) errors ts out := by
  unfold TakesAll at h ⊢
  split_ifs at h ⊢ with hn
  · obtain ⟨c', used, ts', hout, hts, hf⟩ := h
    obtain ⟨⟨⟨v, e, es⟩, rest⟩, rfl, heq⟩ := Option.map_eq_some_iff.mp hout
    simp only [asArray, Prod.mk.injEq, Return.mk.injEq] at heq
    obtain ⟨⟨hv, rfl, rfl⟩, rfl⟩ := heq
    obtain ⟨w, rfl, hw⟩ := Option.map_eq_some_iff.mp hv
    have hvs : [w] = (as.take 1).map fun a => a.getD noValue := by simpa using hw
    refine ⟨c', used, ts', ?_, hts, hf⟩
    rw [← hvs]
    rfl
  · intro r c' ts' hr
    exact h (asArray r) c' ts' (by rw [hr]; rfl)

/-- **A call of a connected client** sends its commands and takes what arrives. -/
theorem doSyncCommands_takes {c : RedisClientImpl} (hc : Serviceable c) (ho : c.socket.isOpen = true)
    (cs : List Command) (ts : List Try) :
    match afterSendAll (cs.map fun cmd => cmd.enc.length) ts with
    | none => ∀ r c' ts', doSyncCommands (cs.map Command.items) c none ts = some (r, c', ts') →
        r.ec.isSome = true
    | some rest => (∃ used, ts = used ++ rest ∧ AllFine used) ∧
        TakesAll (arriving { c with socket := c.socket.send (encs cs) } rest) cs.length .array [] rest
          (doSyncCommands (cs.map Command.items) c none ts) := by
  have hsizes : ((cs.map Command.items).map makeCommand).map List.length =
      cs.map fun cmd => cmd.enc.length := by
    rw [List.map_map, List.map_map]
    rfl
  rw [← hsizes]
  unfold doSyncCommands
  cases hrest : afterSendAll (((cs.map Command.items).map makeCommand).map List.length) ts with
  | none =>
    intro r c' ts' hr
    obtain ⟨⟨k, ec, s1, ts1⟩, hw, h⟩ := Option.bind_eq_some_iff.mp hr
    have he := socketWriteAll_unsent ho hrest hw
    dsimp only at h
    rw [if_pos he] at h
    cases h
    exact he
  | some rest =>
    obtain ⟨⟨k, hw⟩, hused⟩ := socketWriteAll_afterSendAll ho hrest
    refine ⟨hused, ?_⟩
    rw [hw, Option.bind_some]
    dsimp only
    rw [if_neg (by simp), flatten_makeCommand, List.length_map]
    have hready : Serviceable { c with socket := c.socket.send (encs cs) } := ⟨hc.reachable, hc.returns⟩
    exact readResponses_takes cs.length [] [] rest hready

theorem perform_takes {c : RedisClientImpl} (hc : Serviceable c) (hs : c.state = .connected)
    (ho : c.socket.isOpen = true) (req : Request) (ts : List Try) :
    match afterSendAll (sizes req) ts with
    | none => ∀ r c' ts', req.perform c none ts = some (r, c', ts') → r.ec.isSome = true
    | some rest => (∃ used, ts = used ++ rest ∧ AllFine used) ∧
        TakesAll (arriving (sent c req) rest) req.commands.length (valueOf req) [] rest
          (req.perform c none ts) := by
  cases req with
  | pipelined cs =>
    have h := doSyncCommands_takes hc ho cs ts
    simp only [Request.perform, Defs.pipelined, ifStateValid, hs, if_true]
    exact h
  | command l =>
    have h := doSyncCommands_takes hc ho [l.command] ts
    have hone := doSyncCommands_one l.command.items c none ts
    simp only [Request.perform, Defs.command, ifStateValid, hs, if_true]
    rw [show [l.command].map Command.items = [l.command.items] from rfl, hone] at h
    show match afterSendAll ([l.command].map fun cmd => cmd.enc.length) ts with
      | none => _
      | some rest => _
    cases hrest : afterSendAll ([l.command].map fun cmd => cmd.enc.length) ts with
    | none =>
      rw [hrest] at h
      intro r c' ts' hr
      exact h (asArray r) c' ts' (by rw [show doSyncCommand l.command.items c none ts = _ from hr]; rfl)
    | some rest =>
      rw [hrest] at h
      exact ⟨h.1, h.2.of_array⟩

/-! ### What the code tells -/

/-- The error code of a call that returns tells of everything that has gone wrong. With a clear code
the call has returned as many replies as it has commands, the next ones of the stream. -/
structure Honest (c : RedisClientImpl) (req : Request) (ts : List Try) (r : Return)
    (ts' : List Try) : Prop where
  received : r.ec = none → ∃ vs, vs.length = req.commands.length ∧
    vs <+: valuesFrom c.redisParser (c.buf ++ (sent c req).socket.unread) ∧
    r.value = some (valueOf req vs)
  connected : c.state ≠ .connected → r.ec.isSome = true
  handler : r.errors ≠ [] → r.ec.isSome = true
  socket : ∀ used, ts = used ++ ts' → ¬ AllFine used → r.ec.isSome = true

/-- The call is honest if it returns. -/
def Truthful (c : RedisClientImpl) (req : Request) (ts : List Try) : Prop :=
  ∀ r c' ts', req.perform c none ts = some (r, c', ts') → Honest c req ts r ts'

/-- The client is connected, and if as much arrives as the call has commands, none of what it takes is
malformed. -/
def WellFormed (c : RedisClientImpl) (req : Request) (ts : List Try) : Prop :=
  c.state = .connected ∧ ∀ rest ∈ afterSendAll (sizes req) ts,
    req.commands.length ≤ (arriving (sent c req) rest).length →
      none ∉ (arriving (sent c req) rest).take req.commands.length

instance (c : RedisClientImpl) (req : Request) (ts : List Try) : Decidable (WellFormed c req ts) := by
  unfold WellFormed; infer_instance

/-- A connected client has an open socket. -/
theorem reached_isOpen {c : RedisClientImpl} (h : Reached c) (hs : c.state = .connected) :
    c.socket.isOpen = true := by
  have hI : CallsKeep fun c => c.state = .connected → c.socket.isOpen = true :=
    { parse := fun _ hc _ _ => hc
      result := fun _ hc => hc
      errorHandler := fun {c} message hc => by
        unfold callErrorHandler
        rcases c.errorHandler message
        · exact hc
        · exact hc
        · exact nofun
      socket := fun _ hc hs h => by
        rw [← hc h]
        exact hs }
  exact reached_invariant hI (fun _ _ => nofun) (fun _ hc => hc) (fun _ _ _ => rfl)
    (fun _ => nofun) h hs

/-- An error that is told sets the code, whatever else has happened. -/
theorem Honest.of_isSome {c : RedisClientImpl} {req : Request} {ts ts' : List Try} {r : Return}
    (h : r.ec.isSome = true) : Honest c req ts r ts' where
  received hec := by
    rw [hec] at h
    cases h
  connected _ := h
  handler _ := h
  socket _ _ _ := h

theorem complaints_eq_nil {as : List (Option RedisValue)} (h : as.flatMap complaints = []) : none ∉ as := by
  intro hm
  have hnil := List.flatMap_eq_nil_iff.mp h none hm
  cases hnil

/-- Replies without errors between them. -/
theorem exists_map_some : ∀ {as : List (Option RedisValue)}, none ∉ as →
    ∃ vs : List RedisValue, as = vs.map some
  | [], _ => ⟨[], rfl⟩
  | none :: as, h => absurd List.mem_cons_self h
  | some v :: as, h => by
    obtain ⟨vs, rfl⟩ := exists_map_some fun hm => h (List.mem_cons_of_mem _ hm)
    exact ⟨v :: vs, rfl⟩

/-- A call that has taken replies alone is honest. -/
theorem Honest.of_replies {c : RedisClientImpl} {req : Request} {ts used rest ts' : List Try}
    (hp : Reachable c.redisParser) (hs : c.state = .connected) (hts : ts = used ++ ts')
    (hf : AllFine used) (hn : req.commands.length ≤ (arriving (sent c req) rest).length)
    (hwell : none ∉ (arriving (sent c req) rest).take req.commands.length) :
    Honest c req ts ⟨some (valueOf req (((arriving (sent c req) rest).take
      req.commands.length).map fun a => a.getD noValue)), none,
      ((arriving (sent c req) rest).take req.commands.length).flatMap complaints⟩ ts' := by
  obtain ⟨vs, hvs⟩ := exists_map_some hwell
  refine ⟨fun _ => ⟨vs, ?_, ?_, ?_⟩, fun hne => absurd hs hne, fun hne => absurd ?_ hne,
    fun used' hts' hn' => absurd ?_ hn'⟩
  · have hlen := congrArg List.length hvs
    rw [List.length_take, List.length_map, min_eq_left hn] at hlen
    exact hlen.symm
  · have hpre := arriving_prefix (c := sent c req) hp rest
    have hfront : vs.map some <+: arriving (sent c req) rest := by
      rw [← hvs]
      exact List.take_prefix _ _
    exact prefix_valuesFrom (hfront.trans hpre)
  · have hvalues : (vs.map some).map (fun a => a.getD noValue) = vs := by
      rw [List.map_map]
      exact List.map_id vs
    dsimp only
    rw [hvs, hvalues]
  · dsimp only
    rw [hvs]
    refine List.flatMap_eq_nil_iff.mpr fun a ha => ?_
    obtain ⟨v, -, rfl⟩ := List.mem_map.mp ha
    rfl
  · rw [List.append_cancel_right (hts'.symm.trans hts)]
    exact hf

/-- In another state a call returns with the code as it is. -/
theorem perform_invalidState {c : RedisClientImpl} (hh : ∀ message, c.errorHandler message ≠ .throws)
    (hs : c.state ≠ .connected) (req : Request) (ts : List Try) :
    ∃ c', req.perform c none ts = some (⟨some noValue, none, [invalidState c.state]⟩, c', ts) := by
  have hv : (callErrorHandler (invalidState c.state) c).1 = some noValue := by
    unfold callErrorHandler
    rcases hr : c.errorHandler (invalidState c.state)
    · exact absurd hr (hh _)
    · rfl
    · rfl
  cases req <;> simp [Request.perform, Defs.command, Defs.pipelined, ifStateValid, hs, hv]

/-- **A call reports success only for replies that it has received** if and only if the client is
connected and nothing is malformed among as much as arrives for its commands. Otherwise it returns
with the code clear and a nil that the server has not sent. -/
theorem truthful_iff {c : RedisClientImpl} (hc : Reached c)
    (hh : ∀ message, c.errorHandler message ≠ .throws) (req : Request) (ts : List Try) :
    Truthful c req ts ↔ WellFormed c req ts := by
  by_cases hs : c.state = .connected
  · have h := perform_takes ⟨parser_reachable hc, hh⟩ hs (reached_isOpen hc hs) req ts
    unfold WellFormed
    cases hrest : afterSendAll (sizes req) ts with
    | none =>
      rw [hrest] at h
      constructor
      · intro _
        exact ⟨hs, fun rest hr => by cases hr⟩
      · intro _ r c' ts' hr
        exact .of_isSome (h r c' ts' hr)
    | some rest =>
      rw [hrest] at h
      obtain ⟨⟨used0, hts0, hf0⟩, h⟩ := h
      unfold TakesAll at h
      split_ifs at h with hn
      · obtain ⟨c', used, ts', hout, hts, hf⟩ := h
        rw [List.nil_append] at hout
        constructor
        · intro htrue
          refine ⟨hs, fun rest' hr _ => ?_⟩
          cases hr
          -- the handler has been told of an error, and the code is clear
          apply complaints_eq_nil
          by_contra hne
          have hsome := (htrue _ _ _ hout).handler hne
          cases hsome
        · rintro ⟨-, hwell⟩ r c1 ts1 hr
          cases hout.symm.trans hr
          have hall : ts = used0 ++ used ++ ts' := by rw [hts0, hts, List.append_assoc]
          exact .of_replies (parser_reachable hc) hs hall (allFine_append.mpr ⟨hf0, hf⟩) hn
            (hwell rest rfl hn)
      · constructor
        · intro _
          refine ⟨hs, fun rest' hr hle => ?_⟩
          cases hr
          exact absurd hle hn
        · intro _ r c' ts' hr
          exact .of_isSome (h r c' ts' hr)
  · constructor
    · intro htrue
      obtain ⟨c', hout⟩ := perform_invalidState hh hs req ts
      have hsome := (htrue _ _ _ hout).connected hs
      cases hsome
    · rintro ⟨hconn, -⟩
      exact absurd hconn hs

/-! ### Calls that are answered, and calls that are not -/

/-- A client whose error handler returns, connected to a peer that has written some bytes. -/
def polite (bs : Bytes) : RedisClientImpl :=
  connected (speaking bs) (newClient (fun _ => .returns) (speaking []))

theorem reached_polite (bs : Bytes) : Reached (polite bs) :=
  .connectLocal (.new (fun _ => .returns) (speaking []))
    (show connectLocal none none _ _ = (none, polite bs) from rfl)

/-- A reply, in two reads. -/
theorem truthful_ok : Truthful (polite [43, 79, 75, 13, 10]) (.command lineA)
    [.moved 99, .moved 2, .failed EINTR, .moved 99] :=
  (truthful_iff (reached_polite _) (fun _ => nofun) _ _).mpr (by decide +kernel)

/-- **Nil without an error code** that no server has sent: for a byte that begins no reply; in a pipeline
of two, where the line `?` is two nils and the second reply `:1` is left behind; and on a client that
has not been connected. -/
theorem nil_with_clear_code : Reached (polite [33]) ∧ Reached (polite [63, 13, 10, 58, 49, 13, 10]) ∧
    Reached (newClient (fun _ => .returns) (speaking [])) ∧
    ((Request.command lineA).perform (polite [33]) none [.moved 99, .moved 99]).map Prod.fst =
      some ⟨some noValue, none, [parserError]⟩ ∧
    ((Request.pipelined [lineA.command, lineA.command]).perform
        (polite [63, 13, 10, 58, 49, 13, 10]) none [.moved 99, .moved 99, .moved 99]).map Prod.fst =
      some ⟨some (.array [noValue, noValue]), none, [parserError, parserError]⟩ ∧
    ((Request.command lineA).perform (newClient (fun _ => .returns) (speaking [])) none []).map
        Prod.fst =
      some ⟨some noValue, none, [invalidState .unconnected]⟩ := by
  refine ⟨reached_polite _, reached_polite _, .new _ _, ?_⟩
  decide +kernel

end RedisClient.Sync.Success

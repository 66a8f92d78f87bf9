import RedisClient.Parser.Values
import RedisClient.Sync.Io

/-! # The synchronous path over a stream

The tries cut what the peer has written into pieces (`pieces`), and successive calls of
`syncReadResponse` read them, however many of the tries fail in between (`responses`). What is left
for the calls to return is what the parser gives on the buffer and the pieces to come (`ahead`): a
call that returns a value takes the first of these, and one that fails takes nothing
(`syncReadResponse_answers`). So the values returned are those of the stream (`responses_all`). -/

namespace RedisClient.Sync.Stream

open RedisClient.Value RedisClient.Parser.Defs RedisClient.Parser.Values
open RedisClient.Sync.Defs RedisClient.Sync.Io

/-- The pieces in which the tries read the stream `s`. A try that fails reads nothing. -/
def pieces : List Try → Bytes → List Bytes
  | [], _ => []
  | .failed _ :: ts, s | .zero :: ts, s => pieces ts s
  | .moved n :: ts, s =>
    let data := s.take (min (n + 1) bufferSize)
    if data = [] then [] else data :: pieces ts (s.drop data.length)

/-- The values that `n` calls of `syncReadResponse` return, each with a clear error code on entry, up
to the first parser error. A call that returns with the code set returns no value. -/
def responses : ℕ → RedisClientImpl → List Try → List RedisValue
  | 0, _, _ => []
  | n + 1, c, ts =>
    match syncReadResponse c none ts with
    | none => []
    | some (r, c, ts) =>
      if r.errors ≠ [] then []
      else if r.ec.isSome then responses n c ts
      else r.value.toList ++ responses n c ts

/-- The pieces are the front of the stream. -/
theorem pieces_prefix : ∀ (ts : List Try) (s : Bytes), (pieces ts s).flatten <+: s
  | [], s => List.nil_prefix
  | .failed _ :: ts, s | .zero :: ts, s => pieces_prefix ts s
  | .moved n :: ts, s => by
    unfold pieces
    dsimp only
    split_ifs with hd
    · exact List.nil_prefix
    · obtain ⟨u, hu⟩ := pieces_prefix ts (s.drop (s.take (min (n + 1) bufferSize)).length)
      refine ⟨u, ?_⟩
      have htake : s.take (min (n + 1) bufferSize) <+: s := List.take_prefix _ _
      rw [List.flatten_cons, List.append_assoc, hu]
      exact List.prefix_iff_eq_append.mp htake

/-- Each of the pieces is a nonempty one that fits into the buffer. -/
theorem mem_pieces : ∀ {ts : List Try} {s data : Bytes}, data ∈ pieces ts s →
    data ≠ [] ∧ data.length ≤ bufferSize
  | .failed _ :: ts, s, data, h | .zero :: ts, s, data, h =>
    mem_pieces (show data ∈ pieces ts s from h)
  | .moved n :: ts, s, data, h => by
    unfold pieces at h
    dsimp only at h
    split_ifs at h with hd
    · cases h
    · rcases List.mem_cons.mp h with rfl | h
      · refine ⟨hd, ?_⟩
        rw [List.length_take]
        omega
      · exact mem_pieces h

/-! ### One call -/

/-- What is left for the calls to return. -/
def ahead (c : RedisClientImpl) (ts : List Try) : List RedisValue :=
  valuesFrom c.redisParser (c.buf ++ (pieces ts c.socket.unread).flatten)

/-- Every call that returns takes a try or a byte, unless there is a parser error. -/
def left (c : RedisClientImpl) (ts : List Try) : ℕ :=
  ts.length + c.buf.length + c.socket.unread.length

/-- A client between two calls. -/
structure Open (c : RedisClientImpl) : Prop where
  isOpen : c.socket.isOpen = true
  reachable : Reachable c.redisParser

/-- How a call can end. -/
inductive Answers (c : RedisClientImpl) (ts : List Try) :
    Option (Return × RedisClientImpl × List Try) → Prop
  | blocked (h : ahead c ts = []) : Answers c ts none
  | reply {v : RedisValue} {c' : RedisClientImpl} {ts' : List Try} (ho : Open c')
      (h : ahead c ts = v :: ahead c' ts') (hl : left c' ts' < left c ts) :
      Answers c ts (some (⟨some v, none, []⟩, c', ts'))
  | failed {e : SysError} {c' : RedisClientImpl} {ts' : List Try} (ho : Open c')
      (h : ahead c ts = ahead c' ts') (hl : left c' ts' < left c ts) :
      Answers c ts (some (⟨some noValue, some e, []⟩, c', ts'))
  | error {v : Option RedisValue} {c' : RedisClientImpl} {ts' : List Try} (h : ahead c ts = []) :
      Answers c ts (some (⟨v, none, [parserError]⟩, c', ts'))

/-- Something has been read before. -/
theorem Answers.of_later {c c1 : RedisClientImpl} {ts ts1 : List Try}
    {out : Option (Return × RedisClientImpl × List Try)} (h : Answers c1 ts1 out)
    (ha : ahead c ts = ahead c1 ts1) (hl : left c1 ts1 ≤ left c ts) : Answers c ts out := by
  cases h with
  | blocked h => exact .blocked (ha.trans h)
  | reply ho h hl' => exact .reply ho (ha.trans h) (hl'.trans_le hl)
  | failed ho h hl' => exact .failed ho (ha.trans h) (hl'.trans_le hl)
  | error h => exact .error (ha.trans h)

/-- **A read takes the first of the pieces**, or it fails and takes none. -/
theorem readLoop_pieces (s : Socket) : ∀ ts : List Try,
    match readLoop bufferSize s none ts with
    | none => pieces ts s.unread = []
    | some (data, none, s', ts') => data ≠ [] ∧ s' = s.recv data.length ∧
        pieces ts s.unread = data :: pieces ts' s'.unread ∧ ts'.length < ts.length
    | some (data, some _, s', ts') => data = [] ∧ s' = s ∧
        pieces ts s.unread = pieces ts' s.unread ∧ ts'.length < ts.length
  | [] => rfl
  | .failed errno :: ts => by
    unfold readLoop
    split_ifs with he
    · have ih := readLoop_pieces s ts
      rcases hx : readLoop bufferSize s none ts with _ | ⟨data, _ | e, s', ts'⟩ <;> rw [hx] at ih
      · exact ih
      · obtain ⟨h1, h2, h3, h4⟩ := ih
        exact ⟨h1, h2, h3, h4.trans (Nat.lt_succ_self _)⟩
      · obtain ⟨h1, h2, h3, h4⟩ := ih
        exact ⟨h1, h2, h3, h4.trans (Nat.lt_succ_self _)⟩
    · exact ⟨rfl, rfl, rfl, Nat.lt_succ_self _⟩
  | .zero :: ts => ⟨rfl, rfl, rfl, Nat.lt_succ_self _⟩
  | .moved n :: ts => by
    unfold readLoop
    dsimp only
    by_cases hd : s.unread.take (min (n + 1) bufferSize) = []
    · rw [if_pos hd]
      show pieces (.moved n :: ts) s.unread = []
      unfold pieces
      exact if_pos hd
    · rw [if_neg hd]
      refine ⟨hd, rfl, ?_, Nat.lt_succ_self _⟩
      rw [unread_recv]
      exact if_neg hd

/-- The inner loop on a buffer that is not empty. -/
theorem parseBuffer_answers {c : RedisClientImpl} (ho : Open c) (ts : List Try) (hb : c.buf ≠ []) :
    ∃ r c', parseBuffer none c.buf.length 0 c = some (r, c') ∧
      match r with
      | some r => Answers c ts (some (r, c', ts))
      | none => Open c' ∧ c'.buf = [] ∧ c'.socket = c.socket ∧ ahead c ts = ahead c' ts := by
  have hpos := List.length_pos_iff.mpr hb
  rcases values_parse ho.reachable hb with ⟨k, p, hp, hk, hle, hv⟩ | ⟨p, hp, hv⟩ | ⟨k, p, hp, hv⟩
  · refine ⟨_, _, parseBuffer_parse none hb hp (by simp), .reply ⟨ho.isOpen, ?_⟩ (hv _) ?_⟩
    · exact (ho.reachable.parse hb hp).result
    · unfold left
      have hdrop : (c.buf.drop k).length = c.buf.length - k := List.length_drop
      show ts.length + (c.buf.drop k).length + c.socket.unread.length <
        ts.length + c.buf.length + c.socket.unread.length
      omega
  · exact ⟨_, _, parseBuffer_parse none hb hp fun _ => rfl,
      ⟨ho.isOpen, ho.reachable.parse hb hp⟩, rfl, rfl, hv _⟩
  · exact ⟨_, _, parseBuffer_parse none hb hp (by simp), .error (hv _)⟩

/-- The bytes of a read are in the buffer. -/
theorem ahead_read {c : RedisClientImpl} {data : Bytes} {ts ts' : List Try} (hb : c.buf = [])
    (h : pieces ts c.socket.unread = data :: pieces ts' (c.socket.recv data.length).unread) :
    ahead c ts = ahead { c with buf := data, socket := c.socket.recv data.length } ts' := by
  unfold ahead
  rw [hb, h, List.flatten_cons, List.nil_append]

theorem readResponse_answers : ∀ (fuel : ℕ) (c : RedisClientImpl) (ts : List Try), Open c →
    ts.length + (if c.buf = [] then 1 else 2) ≤ fuel → Answers c ts (readResponse fuel c none ts)
  | 0, c, ts, _, hl => by split_ifs at hl <;> omega
  | fuel + 1, c, ts, ho, hl => by
    -- the inner loop and what follows it
    have hinner : ∀ {c : RedisClientImpl} {ts : List Try} {k}, Open c → c.buf ≠ [] →
        ts.length + 1 ≤ fuel → AfterParse fuel none ts k →
        Answers c ts ((parseBuffer none c.buf.length 0 c).bind k) := by
      intro c ts k ho hb hl hk
      obtain ⟨r, c', hpb, h⟩ := parseBuffer_answers ho ts hb
      rw [hpb, Option.bind_some]
      rcases r with _ | r
      · obtain ⟨ho', hb', hs', ha'⟩ := h
        rw [hk.again]
        refine (readResponse_answers fuel c' ts ho' ?_).of_later ha' ?_
        · rwa [if_pos hb']
        · unfold left
          rw [hb', hs']
          simp
      · rw [hk.returns]
        exact h
    unfold readResponse
    by_cases hb : c.buf = []
    · rw [if_pos hb]
      rw [if_pos hb] at hl
      rw [socketReadSome, if_pos ho.isOpen]
      have hread := readLoop_pieces c.socket ts
      rcases hx : readLoop bufferSize c.socket none ts with _ | ⟨data, _ | e, s', ts'⟩ <;>
        rw [hx] at hread
      · refine .blocked ?_
        unfold ahead
        rw [hb, hread]
        rfl
      · obtain ⟨hd, rfl, hp, hlen⟩ := hread
        have ha := ahead_read hb hp
        have ho1 : Open { c with buf := data, socket := c.socket.recv data.length } :=
          ⟨ho.isOpen, ho.reachable⟩
        have hle : left { c with buf := data, socket := c.socket.recv data.length } ts' ≤
            left c ts := by
          have hun : data ++ (pieces ts' (c.socket.recv data.length).unread).flatten <+:
              c.socket.unread := by
            have hpre := pieces_prefix ts c.socket.unread
            rwa [hp, List.flatten_cons] at hpre
          have hlen' := hun.length_le
          rw [List.length_append] at hlen'
          unfold left
          simp only [unread_recv, List.length_drop]
          omega
        rw [Option.bind_some]
        dsimp only
        rw [if_neg (by simp)]
        exact (hinner ho1 hd (by omega) ⟨fun _ _ => rfl, fun _ => rfl⟩).of_later ha hle
      · obtain ⟨rfl, rfl, hp, hlen⟩ := hread
        refine .failed ⟨ho.isOpen, ho.reachable⟩ ?_ ?_
        · unfold ahead
          rw [hb, hp]
        · unfold left
          simp only [List.length_nil]
          omega
    · rw [if_neg hb]
      rw [if_neg hb] at hl
      exact hinner ho hb (by omega) ⟨fun _ _ => rfl, fun _ => rfl⟩

/-- **One call** returns the first of the values, or it fails and returns none, or there is none. -/
theorem syncReadResponse_answers {c : RedisClientImpl} (ho : Open c) (ts : List Try) :
    Answers c ts (syncReadResponse c none ts) := by
  refine readResponse_answers _ c ts ho ?_
  split_ifs <;> omega

/-! ### Successive calls -/

/-- The values that the calls return are the first of those ahead. -/
theorem responses_front : ∀ (n : ℕ) (c : RedisClientImpl) (ts : List Try), Open c →
    responses n c ts <+: ahead c ts
  | 0, c, ts, _ => List.nil_prefix
  | n + 1, c, ts, ho => by
    have h := syncReadResponse_answers ho ts
    unfold responses
    generalize syncReadResponse c none ts = out at h
    cases h with
    | blocked h => exact List.nil_prefix
    | @reply v c' ts' ho' h hl =>
      rw [h]
      exact (List.prefix_cons_inj v).mpr (responses_front n c' ts' ho')
    | @failed e c' ts' ho' h hl =>
      rw [h]
      exact responses_front n c' ts' ho'
    | error h => exact List.nil_prefix

/-- Enough calls return all of them. -/
theorem responses_all : ∀ (n : ℕ) (c : RedisClientImpl) (ts : List Try), Open c →
    left c ts < n → responses n c ts = ahead c ts
  | 0, c, ts, _, hn => by omega
  | n + 1, c, ts, ho, hn => by
    have h := syncReadResponse_answers ho ts
    unfold responses
    generalize syncReadResponse c none ts = out at h
    cases h with
    | blocked h => exact h.symm
    | @reply v c' ts' ho' h hl =>
      rw [h]
      exact congrArg (v :: ·) (responses_all n c' ts' ho' (by omega))
    | @failed e c' ts' ho' h hl =>
      rw [h]
      exact responses_all n c' ts' ho' (by omega)
    | error h => exact h.symm

end RedisClient.Sync.Stream

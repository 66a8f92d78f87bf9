import RedisClient.Parser.Awaiting
import RedisClient.Sync.Defs

/-! # What the loops over the system calls do

One lemma for each of the source's loops, whatever the tries: which of them it uses, which bytes it
moves, and what is in the error code in the end (`readLoop_spec`, `writeLoop_spec`,
`socketWriteAll_spec`, `parseBuffer_parse`). The loops return if enough of the tries move a byte
(`readLoop_returns`, `socketWriteAll_returns`). -/

namespace RedisClient.Sync.Io

open RedisClient.Value RedisClient.Parser.Defs RedisClient.Peers RedisClient.Sync.Defs

/-! ### Tries -/

/-- A try that is no failure: it moves a byte, or is interrupted and made again. -/
def fine : Try → Bool
  | .failed errno => errno = EINTR
  | .zero => false
  | .moved _ => true

/-- No try fails. -/
def AllFine (ts : List Try) : Prop := ∀ t ∈ ts, fine t

instance (ts : List Try) : Decidable (AllFine ts) := by unfold AllFine; infer_instance

/-- The number of tries that move a byte. -/
def moves : List Try → ℕ
  | [] => 0
  | .moved _ :: ts => moves ts + 1
  | _ :: ts => moves ts

@[simp] theorem moves_nil : moves [] = 0 := rfl
@[simp] theorem moves_moved (n : ℕ) (ts : List Try) : moves (.moved n :: ts) = moves ts + 1 := rfl
@[simp] theorem moves_failed (e : ℕ) (ts : List Try) : moves (.failed e :: ts) = moves ts := rfl
@[simp] theorem moves_zero (ts : List Try) : moves (.zero :: ts) = moves ts := rfl

theorem moves_append : ∀ ts us : List Try, moves (ts ++ us) = moves ts + moves us
  | [], us => by simp
  | .moved n :: ts, us => by simp [moves_append ts us]; omega
  | .failed e :: ts, us => by simp [moves_append ts us]
  | .zero :: ts, us => by simp [moves_append ts us]

theorem allFine_nil : AllFine [] := by simp [AllFine]

theorem allFine_cons {t : Try} {ts : List Try} : AllFine (t :: ts) ↔ fine t ∧ AllFine ts := by
  simp [AllFine]

theorem allFine_append {ts us : List Try} : AllFine (ts ++ us) ↔ AllFine ts ∧ AllFine us := by
  unfold AllFine
  constructor
  · intro h
    exact ⟨fun t ht => h t (by simp [ht]), fun t ht => h t (by simp [ht])⟩
  · rintro ⟨h1, h2⟩ t ht
    rcases List.mem_append.mp ht with ht | ht
    · exact h1 t ht
    · exact h2 t ht

/-! ### The socket -/

@[simp] theorem send_nil (s : Socket) : s.send [] = s := by simp [Socket.send]

@[simp] theorem send_send (s : Socket) (a b : Bytes) : (s.send a).send b = s.send (a ++ b) := by
  simp [Socket.send]

@[simp] theorem recv_zero (s : Socket) : s.recv 0 = s := rfl

@[simp] theorem recv_recv (s : Socket) (j k : ℕ) : (s.recv j).recv k = s.recv (j + k) := by
  simp [Socket.recv, Nat.add_assoc]

@[simp] theorem unread_recv (s : Socket) (k : ℕ) : (s.recv k).unread = s.unread.drop k := by
  simp [Socket.unread, Socket.recv, List.drop_drop]

@[simp] theorem isOpen_recv (s : Socket) (k : ℕ) : (s.recv k).isOpen = s.isOpen := rfl
@[simp] theorem isOpen_send (s : Socket) (a : Bytes) : (s.send a).isOpen = s.isOpen := rfl
@[simp] theorem peer_send (s : Socket) (a : Bytes) : (s.send a).peer = s.peer := rfl
@[simp] theorem sent_send (s : Socket) (a : Bytes) : (s.send a).sent = s.sent ++ a := rfl
@[simp] theorem taken_send (s : Socket) (a : Bytes) : (s.send a).taken = s.taken := rfl
@[simp] theorem peer_recv (s : Socket) (k : ℕ) : (s.recv k).peer = s.peer := rfl
@[simp] theorem sent_recv (s : Socket) (k : ℕ) : (s.recv k).sent = s.sent := rfl
@[simp] theorem taken_recv (s : Socket) (k : ℕ) : (s.recv k).taken = s.taken + k := rfl

/-! ### Reading -/

/-- **A read** ends with some bytes from the front of what is unread, or with an error. -/
theorem readLoop_spec {size : ℕ} {s s' : Socket} {ec ec' : ErrorCode} {data : Bytes} :
    ∀ {ts ts' : List Try}, readLoop size s ec ts = some (data, ec', s', ts') →
      ∃ used, ts = used ++ ts' ∧
        (ec' = ec ∧ data ≠ [] ∧ s.unread = data ++ s'.unread ∧ s' = s.recv data.length ∧
            AllFine used ∧ moves used = 1 ∨
          ec'.isSome ∧ data = [] ∧ s' = s ∧ ¬ AllFine used ∧ moves used = 0)
  | [], _, h => by cases h
  | .failed errno :: ts, ts', h => by
    unfold readLoop at h
    split_ifs at h with he
    · obtain ⟨used, hts, hcase⟩ := readLoop_spec h
      refine ⟨.failed errno :: used, by rw [hts]; rfl, ?_⟩
      have hiff : AllFine (.failed errno :: used) ↔ AllFine used := by
        simp [allFine_cons, fine, he]
      rwa [hiff, moves_failed]
    · cases h
      refine ⟨[.failed errno], rfl, Or.inr ⟨rfl, rfl, rfl, ?_, rfl⟩⟩
      simp [allFine_cons, fine, he]
  | .zero :: ts, ts', h => by
    cases h
    exact ⟨[.zero], rfl, Or.inr ⟨rfl, rfl, rfl, by simp [allFine_cons, fine], rfl⟩⟩
  | .moved n :: ts, ts', h => by
    simp only [readLoop] at h
    split_ifs at h with hd
    cases h
    refine ⟨[.moved n], rfl, Or.inl ⟨rfl, hd, ?_, rfl, ?_, rfl⟩⟩
    · rw [unread_recv, ← List.take_append_drop (min (n + 1) size) s.unread]
      simp only [List.take_append_drop, List.length_take]
      rcases Nat.le_total (min (n + 1) size) s.unread.length with hl | hl
      · rw [Nat.min_eq_left hl, List.take_append_drop]
      · rw [Nat.min_eq_right hl, List.drop_length, List.take_of_length_le hl, List.append_nil]
    · simp [allFine_cons, allFine_nil, fine]

/-- A read returns if a try moves a byte and there is one. -/
theorem readLoop_returns {size : ℕ} {s : Socket} {ec : ErrorCode} (hs : 0 < size)
    (hu : s.unread ≠ []) : ∀ {ts : List Try}, AllFine ts → 0 < moves ts →
      (readLoop size s ec ts).isSome
  | [], _, hm => absurd hm (by simp)
  | .failed errno :: ts, hf, hm => by
    obtain ⟨he, hts⟩ := allFine_cons.mp hf
    have he : errno = EINTR := by simpa [fine] using he
    unfold readLoop
    rw [if_pos he]
    exact readLoop_returns hs hu hts hm
  | .zero :: ts, hf, _ => absurd (allFine_cons.mp hf).1 (by simp [fine])
  | .moved n :: ts, _, _ => by
    have hpos := List.length_pos_iff.mpr hu
    have hne : s.unread.take (min (n + 1) size) ≠ [] := by
      intro h
      have := congrArg List.length h
      simp only [List.length_take, List.length_nil] at this
      omega
    simp [readLoop, hne]

/-! ### Writing -/

/-- **A write** sends the front of the buffer: all of it, or it ends with an error. -/
theorem writeLoop_spec : ∀ {ts ts' : List Try} {s s' : Socket} {buffer : Bytes}
    {ec ec' : ErrorCode} {k : ℕ}, writeLoop ts s buffer ec = some (k, ec', s', ts') →
      ∃ used data left, ts = used ++ ts' ∧ buffer = data ++ left ∧ s' = s.send data ∧
        k = data.length ∧ moves used ≤ data.length ∧ (moves used = 0 → data = []) ∧
        (ec' = ec ∧ left = [] ∧ AllFine used ∨ ec'.isSome ∧ ¬ AllFine used)
  | [], ts', s, s', buffer, ec, ec', k, h => by
    unfold writeLoop at h
    split_ifs at h with hb
    cases h
    exact ⟨[], [], [], rfl, hb, by simp, rfl, by simp, by simp, Or.inl ⟨rfl, rfl, allFine_nil⟩⟩
  | t :: ts, ts', s, s', buffer, ec, ec', k, h => by
    unfold writeLoop at h
    split_ifs at h with hb
    · cases h
      exact ⟨[], [], [], rfl, hb, by simp, rfl, by simp, by simp, Or.inl ⟨rfl, rfl, allFine_nil⟩⟩
    cases t with
    | failed errno =>
      dsimp only at h
      split_ifs at h with he
      · obtain ⟨used, data, left, hts, hbuf, hs', hk, hm, hm0, hcase⟩ := writeLoop_spec h
        refine ⟨.failed errno :: used, data, left, by rw [hts]; rfl, hbuf, hs', hk, hm, hm0, ?_⟩
        have hiff : AllFine (.failed errno :: used) ↔ AllFine used := by
          simp [allFine_cons, fine, he]
        rwa [hiff]
      · cases h
        refine ⟨[.failed errno], [], buffer, rfl, rfl, by simp, rfl, by simp, by simp,
          Or.inr ⟨rfl, ?_⟩⟩
        simp [allFine_cons, fine, he]
    | zero =>
      cases h
      refine ⟨[.zero], [], buffer, rfl, rfl, by simp, rfl, by simp, by simp, Or.inr ⟨rfl, ?_⟩⟩
      simp [allFine_cons, fine]
    | moved n =>
      dsimp only at h
      obtain ⟨⟨j, e, s1, ts1⟩, hw, heq⟩ := Option.map_eq_some_iff.mp h
      cases heq
      obtain ⟨used, data, left, hts, hbuf, hs', hk, hm, -, hcase⟩ := writeLoop_spec hw
      have hpos : 0 < (buffer.take (n + 1)).length := by
        have := List.length_pos_iff.mpr hb
        simp only [List.length_take]
        omega
      refine ⟨.moved n :: used, buffer.take (n + 1) ++ data, left, by rw [hts]; rfl, ?_, ?_, ?_, ?_,
        ?_, ?_⟩
      · rw [List.append_assoc, ← hbuf, List.take_append_drop]
      · rw [hs', send_send]
      · rw [hk, List.length_append]
      · rw [moves_moved, List.length_append]
        omega
      · intro h0
        rw [moves_moved] at h0
        omega
      · have hiff : AllFine (.moved n :: used) ↔ AllFine used := by simp [allFine_cons, fine]
        rwa [hiff]

/-- A write returns if enough tries move a byte. -/
theorem writeLoop_returns {ec : ErrorCode} : ∀ {ts : List Try} {s : Socket} {buffer : Bytes},
    AllFine ts → buffer.length ≤ moves ts → (writeLoop ts s buffer ec).isSome
  | [], s, buffer, _, hm => by
    have hb : buffer = [] := List.eq_nil_of_length_eq_zero (by simpa using hm)
    simp [writeLoop, hb]
  | t :: ts, s, buffer, hf, hm => by
    obtain ⟨ht, hts⟩ := allFine_cons.mp hf
    unfold writeLoop
    split_ifs with hb
    · rfl
    cases t with
    | failed errno =>
      have he : errno = EINTR := by simpa [fine] using ht
      dsimp only
      rw [if_pos he]
      exact writeLoop_returns hts hm
    | zero => exact absurd ht (by simp [fine])
    | moved n =>
      dsimp only
      rw [Option.isSome_map]
      refine writeLoop_returns hts ?_
      rw [moves_moved] at hm
      rw [List.length_drop]
      omega

theorem writeLoop_fine (ec : ErrorCode) (s : Socket) {buffer : Bytes} {ts : List Try}
    (hf : AllFine ts) (hm : buffer.length ≤ moves ts) :
    ∃ used ts', ts = used ++ ts' ∧ moves used ≤ buffer.length ∧
      writeLoop ts s buffer ec = some (buffer.length, ec, s.send buffer, ts') := by
  have hsome : (writeLoop ts s buffer ec).isSome := writeLoop_returns hf hm
  obtain ⟨⟨k, ec', s', ts'⟩, h⟩ := Option.isSome_iff_exists.mp hsome
  obtain ⟨used, data, left, hts, hbuf, hs', hk, hm', -, hcase⟩ := writeLoop_spec h
  rw [hts, allFine_append] at hf
  rcases hcase with ⟨rfl, rfl, -⟩ | ⟨-, hn⟩
  · rw [List.append_nil] at hbuf
    subst hbuf hs' hk
    exact ⟨used, ts', hts, hm', h⟩
  · exact absurd hf.1 hn

theorem socketWrite_open {s : Socket} (h : s.isOpen = true) (buffer : Bytes) (ec : ErrorCode)
    (ts : List Try) : socketWrite s buffer ec ts = writeLoop ts s buffer ec := by
  simp [socketWrite, h]

/-- **A write of several buffers** sends the front of their bytes: all of them if the error code is
clear and stays clear. -/
theorem socketWriteAll_spec : ∀ {buffers : List Bytes} {s s' : Socket} {ec ec' : ErrorCode}
    {ts ts' : List Try} {k : ℕ}, s.isOpen = true →
    socketWriteAll s buffers ec ts = some (k, ec', s', ts') →
      ∃ used data left, ts = used ++ ts' ∧ buffers.flatten = data ++ left ∧ s' = s.send data ∧
        k = data.length ∧ moves used ≤ data.length ∧ (moves used = 0 → data = []) ∧
        (ec' = none ∧ ec = none ∧ left = [] ∧ AllFine used ∨
          ec'.isSome ∧ (ec.isSome ∨ ¬ AllFine used))
  | [], s, s', ec, ec', ts, ts', k, _, h => by
    cases h
    refine ⟨[], [], [], rfl, rfl, by simp, rfl, by simp, by simp, ?_⟩
    cases ec with
    | none => exact Or.inl ⟨rfl, rfl, rfl, allFine_nil⟩
    | some e => exact Or.inr ⟨rfl, Or.inl rfl⟩
  | buffer :: buffers, s, s', ec, ec', ts, ts', k, ho, h => by
    obtain ⟨⟨k1, ec1, s1, ts1⟩, hw, hr⟩ := Option.bind_eq_some_iff.mp h
    rw [socketWrite_open ho] at hw
    obtain ⟨used, data, left, hts, hbuf, hs1, hk1, hm, hm0, hcase⟩ := writeLoop_spec hw
    dsimp only at hr
    split_ifs at hr with he
    · cases hr
      refine ⟨used, data, left ++ buffers.flatten, hts, ?_, hs1, hk1, hm, hm0, Or.inr ⟨he, ?_⟩⟩
      · rw [List.flatten_cons, hbuf, List.append_assoc]
      · rcases hcase with ⟨rfl, -, -⟩ | ⟨-, hn⟩
        · exact Or.inl he
        · exact Or.inr hn
    · have hn : ec1 = none := by simpa using he
      subst hn
      rcases hcase with ⟨rfl, rfl, hf⟩ | ⟨hs, -⟩
      · obtain ⟨⟨j, r⟩, hrec, heq⟩ := Option.map_eq_some_iff.mp hr
        cases heq
        have ho1 : s1.isOpen = true := by rw [hs1]; exact ho
        obtain ⟨used2, data2, left2, hts2, hbuf2, hs', hj, hm2, hm02, hcase2⟩ :=
          socketWriteAll_spec ho1 hrec
        rw [List.append_nil] at hbuf
        refine ⟨used ++ used2, data ++ data2, left2, ?_, ?_, ?_, ?_, ?_, ?_, ?_⟩
        · rw [hts, hts2, List.append_assoc]
        · rw [List.flatten_cons, hbuf, hbuf2, List.append_assoc]
        · rw [hs', hs1, send_send]
        · rw [hj, hk1, List.length_append]
        · rw [moves_append, List.length_append]
          omega
        · intro h0
          rw [moves_append] at h0
          rw [hm0 (by omega), hm02 (by omega), List.append_nil]
        · rcases hcase2 with ⟨h1, h2, h3, h4⟩ | ⟨h1, h2⟩
          · exact Or.inl ⟨h1, h2, h3, allFine_append.mpr ⟨hf, h4⟩⟩
          · refine Or.inr ⟨h1, Or.inr fun h4 => ?_⟩
            rcases h2 with h2 | h2
            · cases h2
            · exact h2 (allFine_append.mp h4).2
      · cases hs

/-- A write of several buffers sends them all if the code is clear, nothing fails and enough tries
move a byte. -/
theorem socketWriteAll_fine : ∀ {buffers : List Bytes} {s : Socket} {ts : List Try},
    s.isOpen = true → AllFine ts → buffers.flatten.length ≤ moves ts →
      ∃ used ts', ts = used ++ ts' ∧ moves used ≤ buffers.flatten.length ∧
        socketWriteAll s buffers none ts =
          some (buffers.flatten.length, none, s.send buffers.flatten, ts')
  | [], s, ts, _, _, _ => ⟨[], ts, rfl, by simp, by simp [socketWriteAll]⟩
  | buffer :: buffers, s, ts, ho, hf, hm => by
    rw [List.flatten_cons, List.length_append] at hm
    obtain ⟨used, ts1, rfl, hm1, hw⟩ := writeLoop_fine none s hf
      (show buffer.length ≤ moves ts by omega)
    have hf1 := (allFine_append.mp hf).2
    rw [moves_append] at hm
    obtain ⟨used2, ts2, rfl, hm2, hrec⟩ := socketWriteAll_fine (s := s.send buffer) ho hf1
      (show buffers.flatten.length ≤ moves ts1 by omega)
    refine ⟨used ++ used2, ts2, by rw [List.append_assoc], ?_, ?_⟩
    · rw [moves_append, List.flatten_cons, List.length_append]
      omega
    · rw [socketWriteAll, socketWrite_open ho, hw, Option.bind_some]
      dsimp only
      rw [if_neg (by simp), hrec, Option.map_some, List.flatten_cons, List.length_append, send_send]

/-- One buffer is a list of buffers. -/
theorem socketWriteAll_singleton (s : Socket) (buffer : Bytes) (ec : ErrorCode) (ts : List Try) :
    socketWriteAll s [buffer] ec ts = socketWrite s buffer ec ts := by
  unfold socketWriteAll
  rcases socketWrite s buffer ec ts with _ | ⟨k, ec', s', ts'⟩
  · rfl
  · cases ec' <;> rfl

/-! ### Parsing the buffer -/

/-- What the inner loop does with the outcome of a call of `parse` that has read `k` bytes. -/
def onParse (ec : ErrorCode) (c : RedisClientImpl) (k : ℕ) (p : RedisParser) :
    ParseResult → Option Return × RedisClientImpl
  | .completed => (some ⟨some (result p).1, ec, []⟩,
      { c with redisParser := (result p).2, buf := c.buf.drop k,
               replies := c.replies ++ [(result p).1] })
  | .incompleted => (none, { c with redisParser := p, buf := [] })
  | .error =>
    let r := callErrorHandler parserError { c with redisParser := p, buf := c.buf.drop k }
    (some ⟨r.1, ec, [parserError]⟩, r.2)

/-- **The inner loop is one call of `parse`.** -/
theorem parseBuffer_parse {c : RedisClientImpl} (ec : ErrorCode) (hb : c.buf ≠ []) {k : ℕ}
    {r : ParseResult} {p : RedisParser} (hp : parse c.redisParser c.buf = some ((k, r), p))
    (hk : r = .incompleted → k = c.buf.length) :
    parseBuffer ec c.buf.length 0 c = some (onParse ec c k p r) := by
  have hpos := List.length_pos_iff.mpr hb
  obtain ⟨fuel, hfuel⟩ : ∃ n, c.buf.length = n + 1 := ⟨c.buf.length - 1, by omega⟩
  rw [hfuel, parseBuffer, if_pos hpos, List.drop_zero, hp]
  cases r with
  | completed => simp only [Nat.zero_add, onParse]
  | incompleted =>
    have hend : c.buf.drop k = [] := by rw [hk rfl, List.drop_length]
    simp only [Nat.zero_add, hend, onParse]
    cases fuel <;> simp [parseBuffer]
  | error => simp only [Nat.zero_add, onParse]

/-- What `readResponse` does after the inner loop: it returns, or begins another round. -/
structure AfterParse (fuel : ℕ) (ec : ErrorCode) (ts : List Try)
    (k : Option Return × RedisClientImpl → Option (Return × RedisClientImpl × List Try)) :
    Prop where
  returns (r : Return) (c : RedisClientImpl) : k (some r, c) = some (r, c, ts)
  again (c : RedisClientImpl) : k (none, c) = readResponse fuel c ec ts

end RedisClient.Sync.Io

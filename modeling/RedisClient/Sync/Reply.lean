import RedisClient.Sync.Io

/-! # Reading replies from a well-formed stream

If a reply is ahead, in the buffer and on the wire, then `syncReadResponse` returns the reply, or a
read fails and the reply is still ahead, or the call is blocked (`Reads`, `syncReadResponse_ahead`).
The loop over the responses of a pipeline does so reply by reply (`readResponses_text`). What has
been received and not used stays in the buffer. -/

namespace RedisClient.Sync.Reply

open RedisClient.Value RedisClient.Parser.Defs RedisClient.Parser.RoundTrip
open RedisClient.Parser.Awaiting RedisClient.Peers RedisClient.Peers.Server
open RedisClient.Sync.Defs RedisClient.Sync.Io

/-- The client after it has received `k` bytes and taken the values `vs` from the parser: nothing
but the parser, the buffer and the socket has changed. -/
def progress (c : RedisClientImpl) (p : RedisParser) (b : Bytes) (k : ℕ) (vs : List RedisValue) :
    RedisClientImpl :=
  { c with redisParser := p, buf := b, socket := c.socket.recv k, replies := c.replies ++ vs }

theorem progress_progress (c : RedisClientImpl) (p q : RedisParser) (a b : Bytes) (j k : ℕ)
    (vs ws : List RedisValue) :
    progress (progress c p a j vs) q b k ws = progress c q b (j + k) (vs ++ ws) := by
  simp [progress]

/-- How a call that waits for the value `v`, with `rest` behind it, can end. -/
inductive Reads (c : RedisClientImpl) (ts : List Try) (v : RedisValue) (rest : Bytes) :
    Option (Return × RedisClientImpl × List Try) → Prop
  | blocked (h : ¬ (AllFine ts ∧ c.socket.unread.length ≤ moves ts)) : Reads c ts v rest none
  | got {p : RedisParser} {b : Bytes} {k : ℕ} {used ts' : List Try} (hts : ts = used ++ ts')
      (hf : AllFine used) (hm : moves used ≤ k) (hk : k ≤ c.socket.unread.length) (hp : Idle p)
      (hb : b ++ c.socket.unread.drop k = rest) :
      Reads c ts v rest (some (⟨some v, none, []⟩, progress c p b k [v], ts'))
  | failed {e : SysError} {p : RedisParser} {k : ℕ} {used ts' : List Try} (hts : ts = used ++ ts')
      (hf : ¬ AllFine used) (hk : k ≤ c.socket.unread.length)
      (hp : Ahead p (c.socket.unread.drop k) v rest) :
      Reads c ts v rest (some (⟨some noValue, some e, []⟩, progress c p [] k [], ts'))

/-- Some bytes have been received before. -/
theorem reads_of_progress {c : RedisClientImpl} {p : RedisParser} {b : Bytes} {j : ℕ}
    (used : List Try) {ts : List Try} {v : RedisValue} {rest : Bytes}
    {out : Option (Return × RedisClientImpl × List Try)} (hf : AllFine used) (hm : moves used ≤ j)
    (hj : j ≤ c.socket.unread.length) (h : Reads (progress c p b j []) ts v rest out) :
    Reads c (used ++ ts) v rest out := by
  have hu : (progress c p b j []).socket.unread = c.socket.unread.drop j := unread_recv _ _
  cases h with
  | blocked h =>
    refine .blocked fun ⟨h1, h2⟩ => h ⟨(allFine_append.mp h1).2, ?_⟩
    rw [moves_append] at h2
    rw [hu, List.length_drop]
    omega
  | got hts hf2 hm2 hk hp hb =>
    rw [hu, List.length_drop] at hk
    rw [hu, List.drop_drop] at hb
    rw [progress_progress, List.nil_append]
    refine .got (by rw [hts, List.append_assoc]) (allFine_append.mpr ⟨hf, hf2⟩) ?_ (by omega) hp hb
    rw [moves_append]
    omega
  | failed hts hf2 hk hp =>
    rw [hu, List.length_drop] at hk
    rw [hu, List.drop_drop] at hp
    rw [progress_progress, List.nil_append]
    exact .failed (by rw [hts, List.append_assoc]) (fun h => hf2 (allFine_append.mp h).2)
      (by omega) hp

theorem bufferSize_pos : 0 < bufferSize := by decide

/-- The inner loop on a buffer with a reply ahead. -/
theorem parseBuffer_ahead {c : RedisClientImpl} {s rest : Bytes} {v : RedisValue}
    (h : Ahead c.redisParser (c.buf ++ s) v rest) (hb : c.buf ≠ []) :
    (∃ p b, Idle p ∧ b ++ s = rest ∧
      parseBuffer none c.buf.length 0 c = some (some ⟨some v, none, []⟩, progress c p b 0 [v])) ∨
    ∃ p, Ahead p s v rest ∧ parseBuffer none c.buf.length 0 c = some (none, progress c p [] 0 []) := by
  rcases parse_ahead h hb with ⟨k, p, hp, hk, hrest, hi, hv⟩ | ⟨p, hp, ha⟩
  · refine Or.inl ⟨(result p).2, c.buf.drop k, idle_result hi, hrest, ?_⟩
    rw [parseBuffer_parse none hb hp (by simp)]
    simp [onParse, progress, hv]
  · refine Or.inr ⟨p, ha, ?_⟩
    rw [parseBuffer_parse none hb hp fun _ => rfl]
    simp [onParse, progress]

theorem readResponse_ahead {v : RedisValue} {rest : Bytes} :
    ∀ (fuel : ℕ) (c : RedisClientImpl) (ts : List Try), c.socket.isOpen = true →
      Ahead c.redisParser (c.buf ++ c.socket.unread) v rest →
      ts.length + (if c.buf = [] then 1 else 2) ≤ fuel →
      Reads c ts v rest (readResponse fuel c none ts)
  | 0, c, ts, _, _, hl => by split_ifs at hl <;> omega
  | fuel + 1, c, ts, ho, ha, hl => by
    -- the inner loop and what follows it
    have hinner : ∀ {c : RedisClientImpl} {ts : List Try} {k}, c.socket.isOpen = true →
        Ahead c.redisParser (c.buf ++ c.socket.unread) v rest → c.buf ≠ [] → ts.length + 1 ≤ fuel →
        AfterParse fuel none ts k →
        Reads c ts v rest ((parseBuffer none c.buf.length 0 c).bind k) := by
      intro c ts k ho ha hb hl hk
      rcases parseBuffer_ahead ha hb with ⟨p, b, hi, hrest, hp⟩ | ⟨p, ha2, hp⟩
      · rw [hp, Option.bind_some, hk.returns]
        exact .got (List.nil_append ts).symm allFine_nil (by simp) (Nat.zero_le _) hi hrest
      · rw [hp, Option.bind_some, hk.again]
        refine reads_of_progress [] allFine_nil (by simp) (Nat.zero_le _)
          (readResponse_ahead fuel _ ts ho ha2 ?_)
        have hb0 : (progress c p [] 0 []).buf = [] := rfl
        rwa [if_pos hb0]
    unfold readResponse
    by_cases hb : c.buf = []
    · rw [if_pos hb]
      rw [if_pos hb] at hl
      rw [hb, List.nil_append] at ha
      have hu := ahead_ne_nil ha
      rw [socketReadSome, if_pos ho]
      rcases hr : readLoop bufferSize c.socket none ts with _ | ⟨data, ec, s1, ts1⟩
      · refine .blocked fun ⟨hf, hm⟩ => ?_
        have hpos := List.length_pos_iff.mpr hu
        have hsome : (readLoop bufferSize c.socket none ts).isSome :=
          readLoop_returns bufferSize_pos hu hf (by omega)
        rw [hr] at hsome
        cases hsome
      · obtain ⟨used, hts, ⟨rfl, hd, hun, hs1, hf, hm⟩ | ⟨he, hd, hs1, hf, hm⟩⟩ := readLoop_spec hr
        · -- some bytes: the inner loop runs on them
          rw [Option.bind_some]
          dsimp only
          rw [if_neg (by simp)]
          have hc1 : ({ c with buf := data, socket := s1 } : RedisClientImpl) =
              progress c c.redisParser data data.length [] := by simp [progress, hs1]
          have hlen : c.socket.unread.length = data.length + s1.unread.length := by
            rw [hun, List.length_append]
          have hused : 0 < used.length := by
            rcases used with _ | ⟨t, used⟩
            · cases hm
            · simp
          have hpos := List.length_pos_iff.mpr hd
          have ha1 : Ahead c.redisParser (data ++ s1.unread) v rest := by rwa [hun] at ha
          rw [hts, List.length_append] at hl
          have ho1 : s1.isOpen = true := by
            rw [hs1]
            exact ho
          rw [hts]
          refine reads_of_progress (p := c.redisParser) (b := data) used hf
            (show moves used ≤ data.length by omega) (by omega) ?_
          rw [← hc1]
          exact hinner ho1 ha1 hd (by omega) ⟨fun _ _ => rfl, fun _ => rfl⟩
        · -- the read fails
          rw [Option.bind_some]
          dsimp only
          rw [if_pos he]
          obtain ⟨e, rfl⟩ := Option.isSome_iff_exists.mp he
          have heq : ({ c with buf := data, socket := s1 } : RedisClientImpl) =
              progress c c.redisParser [] 0 [] := by simp [progress, hd, hs1]
          rw [heq]
          exact .failed hts hf (Nat.zero_le _) ha
    · rw [if_neg hb]
      rw [if_neg hb] at hl
      exact hinner ho ha hb (by omega) ⟨fun _ _ => rfl, fun _ => rfl⟩

/-- **A call that waits for a reply.** -/
theorem syncReadResponse_ahead {c : RedisClientImpl} {v : RedisValue} {rest : Bytes}
    (ho : c.socket.isOpen = true) (ha : Ahead c.redisParser (c.buf ++ c.socket.unread) v rest)
    (ts : List Try) : Reads c ts v rest (syncReadResponse c none ts) := by
  refine readResponse_ahead _ c ts ho ha ?_
  split_ifs <;> omega

/-! ### The responses of a pipeline -/

/-- How the loop over the responses can end that waits for the values `vs`, with `rest` behind
them, and has the values `acc`. -/
inductive ReadsAll (c : RedisClientImpl) (ts : List Try) (acc vs : List RedisValue)
    (errors : List String) (rest : Bytes) : Option (Return × RedisClientImpl × List Try) → Prop
  | blocked (h : ¬ (AllFine ts ∧ c.socket.unread.length ≤ moves ts)) :
      ReadsAll c ts acc vs errors rest none
  | got {p : RedisParser} {b : Bytes} {k : ℕ} {used ts' : List Try} (hts : ts = used ++ ts')
      (hf : AllFine used) (hm : moves used ≤ k) (hk : k ≤ c.socket.unread.length) (hp : Idle p)
      (hb : b ++ c.socket.unread.drop k = rest) :
      ReadsAll c ts acc vs errors rest
        (some (⟨some (.array (acc ++ vs)), none, errors⟩, progress c p b k vs, ts'))
  | failed {e : SysError} {p : RedisParser} {k : ℕ} {used ts' : List Try} {ws : List RedisValue}
      (hts : ts = used ++ ts') (hf : ¬ AllFine used) (hws : ws.length < vs.length) :
      ReadsAll c ts acc vs errors rest
        (some (⟨some noValue, some e, errors⟩, progress c p [] k ws, ts'))

/-- The first reply has been read before. -/
theorem readsAll_of_progress {c : RedisClientImpl} {p : RedisParser} {b : Bytes} {j : ℕ}
    (used : List Try) {ts : List Try} {v : RedisValue} {acc vs : List RedisValue}
    {errors : List String} {rest : Bytes} {out : Option (Return × RedisClientImpl × List Try)}
    (hf : AllFine used) (hm : moves used ≤ j) (hj : j ≤ c.socket.unread.length)
    (h : ReadsAll (progress c p b j [v]) ts (acc ++ [v]) vs errors rest out) :
    ReadsAll c (used ++ ts) acc (v :: vs) errors rest out := by
  have hu : (progress c p b j [v]).socket.unread = c.socket.unread.drop j := unread_recv _ _
  cases h with
  | blocked h =>
    refine .blocked fun ⟨h1, h2⟩ => h ⟨(allFine_append.mp h1).2, ?_⟩
    rw [moves_append] at h2
    rw [hu, List.length_drop]
    omega
  | got hts hf2 hm2 hk hp hb =>
    rw [hu, List.length_drop] at hk
    rw [hu, List.drop_drop] at hb
    rw [progress_progress, List.append_assoc, List.singleton_append]
    refine .got (by rw [hts, List.append_assoc]) (allFine_append.mpr ⟨hf, hf2⟩) ?_ (by omega) hp hb
    rw [moves_append]
    omega
  | failed hts hf2 hws =>
    rw [progress_progress]
    refine .failed (by rw [hts, List.append_assoc]) (fun h => hf2 (allFine_append.mp h).2) ?_
    simpa using hws

/-- **The loop over the responses**, on a stream of replies. -/
theorem readResponses_text (rest : Bytes) (errors : List String) :
    ∀ (rs : List Reply) (acc : List RedisValue) (c : RedisClientImpl) (ts : List Try),
      c.socket.isOpen = true → Idle c.redisParser → c.buf ++ c.socket.unread = text rs ++ rest →
      ReadsAll c ts acc (rs.map Reply.value) errors rest
        (readResponses rs.length acc errors c none ts)
  | [], acc, c, ts, _, hp, hs => by
    have hc : c = progress c c.redisParser c.buf 0 [] := by simp [progress]
    have h : ReadsAll c ts acc [] errors rest (some (⟨some (.array (acc ++ [])), none, errors⟩,
        progress c c.redisParser c.buf 0 [], ts)) :=
      .got (List.nil_append ts).symm allFine_nil (Nat.zero_le _) (Nat.zero_le _) hp hs
    rwa [← hc, List.append_nil] at h
  | r :: rs, acc, c, ts, ho, hp, hs => by
    rw [text_cons, List.append_assoc] at hs
    have ha := ahead_enc hp r (text rs ++ rest)
    rw [← hs] at ha
    have h := syncReadResponse_ahead ho ha ts
    rw [List.length_cons, readResponses]
    rcases hx : syncReadResponse c none ts with _ | ⟨ret, c1, ts1⟩ <;> rw [hx] at h
    · cases h with
      | blocked h => exact .blocked h
    · cases h with
      | got hts hf hm hk hi hb =>
        rw [Option.bind_some, hts]
        simp only [List.append_nil, Option.isSome_none, Bool.false_eq_true, if_false]
        refine readsAll_of_progress _ hf hm hk (readResponses_text rest errors rs _ _ ts1 ho hi ?_)
        rw [← hb]
        exact congrArg (_ ++ ·) (unread_recv _ _)
      | failed hts hf hk hp =>
        rw [Option.bind_some]
        simp only [List.append_nil, Option.isSome_some, if_true]
        exact .failed hts hf (by simp)

end RedisClient.Sync.Reply

import RedisClient.Async.Session

/-! # The outgoing side of a session

A command that is run joins the queue, and a write takes all that is queued as soon as the one before
is complete. So the commands run are on the wire, in the write in progress or queued, in order
(`doAsyncCommand_core`, `asyncWrite_core`, `send_core`). -/

namespace RedisClient.Async.Transmit

open RedisClient.Value RedisClient.Parser.Defs RedisClient.Commands RedisClient.Peers
open RedisClient.Peers.Publisher (text text_append items_append length_replies)
open RedisClient.Async.Asio RedisClient.Async.Defs RedisClient.Async.Trace RedisClient.Async.Calls
open RedisClient.Async.Session
open RedisClient.Sync.Defs (ErrorCode)

variable {κ σ : Type} {pub : Publisher σ} {s0 : σ} {S : List Bytes → Prop} {sub : Prop} {n : ℕ}
variable {x : Progress κ} {c c' : RedisClientImpl κ}

/-- The incoming side is the same. -/
structure SameInput (c c' : RedisClientImpl κ) : Prop where
  redisParser : c'.redisParser = c.redisParser
  buf : c'.buf = c.buf
  reads : c'.socket.reads = c.socket.reads
  readsDone : c'.socket.readsDone = c.socket.readsDone

theorem SameInput.reading {data : Bytes} (h : SameInput c c') (hr : Reading c data) :
    Reading c' data := by
  cases hr with
  | waiting h1 h2 => exact .waiting (h.reads.trans h1) (h.readsDone.trans h2)
  | received _ h1 h2 h3 h4 =>
    exact .received _ h1 (by rw [h.buf, h2]) (h.reads.trans h3) (h.readsDone.trans h4)

/-- **A write takes what is queued.** -/
theorem asyncWrite_core (cbs : Callbacks κ) (h : Core pub s0 S sub n x c) (hl : x.left = [])
    (hw : c.socket.writes = []) (hd : c.socket.writesDone = []) :
    ∃ c', asyncWrite none cbs c = (.returns, cbs, c') ∧
      Core pub s0 S sub n { x with left := c.dataQueued.flatten } c' ∧
      Writing c' c.dataQueued.flatten ∧ SameInput c c' := by
  have hsent := h.sent
  rw [hl, List.append_nil] at hsent
  unfold asyncWrite
  dsimp only
  rw [if_neg (by simp)]
  by_cases hq : c.dataQueued = []
  · rw [if_neg (by simp [hq])]
    have hnil : c.dataQueued.flatten = [] := by rw [hq]; rfl
    refine ⟨_, rfl, ?_, ?_, ⟨rfl, rfl, rfl, rfl⟩⟩
    · refine { h with sent := ?_ }
      show x.sent ++ c.dataQueued.flatten ++ c.dataQueued.flatten = _
      rw [hnil, List.append_nil, ← hsent, hnil]
    · rw [hnil]
      exact .idle rfl hq hw hd
  · rw [if_pos hq]
    have hlog := Core.log (.asyncWrite c.dataQueued.flatten) h rfl rfl rfl rfl
    have hsock := Socket.asyncWrite_linked c.dataQueued.flatten h.link
    refine ⟨_, rfl, ?_, ?_, ?_⟩
    · refine { hlog with link := ?_, connects := ?_, connectsDone := ?_, sent := ?_ }
      · show (c.socket.asyncWrite _).link = _
        rw [hsock, h.link]
      · show (c.socket.asyncWrite _).connects = _
        rw [hsock, h.connects]
      · show (c.socket.asyncWrite _).connectsDone = _
        rw [hsock, h.connectsDone]
      · show x.sent ++ c.dataQueued.flatten ++ [] = _
        rw [List.append_nil, hsent]
    · refine .busy _ hq ?_ ?_
      · show (c.socket.asyncWrite _).writes = _
        rw [hsock, hw]
        rfl
      · show (c.socket.asyncWrite _).writesDone = _
        rw [hsock, hd]
    · refine ⟨rfl, rfl, ?_, ?_⟩
      · show (c.socket.asyncWrite _).reads = _
        rw [hsock]
      · show (c.socket.asyncWrite _).readsDone = _
        rw [hsock]

/-! ### A command is run -/

variable (pub s0) in
theorem written_concat (x : Progress κ) (q : Request κ) (posted : List (Request κ)) :
    ∃ is, written pub s0 { x with run := x.run ++ [q], posted := posted } =
      written pub s0 x ++ is := by
  refine ⟨pub.items (pub.after s0 (contents x.run)) (contents [q]), ?_⟩
  show pub.items s0 (contents (x.run ++ [q])) = _
  rw [contents_append, items_append]
  rfl

theorem answered_concat (x : Progress κ) (q : Request κ) (posted : List (Request κ))
    (hx : x.processed ≤ (written pub s0 x).length) :
    answered pub s0 { x with run := x.run ++ [q], posted := posted } = answered pub s0 x := by
  obtain ⟨is, hw⟩ := written_concat pub s0 x q posted
  unfold answered
  rw [hw]
  show Publisher.replies ((written pub s0 x ++ is).take x.processed) = _
  rw [List.take_append_of_le_length hx]

/-- **The next command is run.** Its bytes are queued, and its handler. -/
theorem doAsyncCommand_core {q : Request κ} {posted : List (Request κ)} {strand : List (Posted κ)}
    {data : Bytes} (cbs : Callbacks κ) (h : Core pub s0 S sub n x c)
    (hs : Incoming pub s0 x data c.redisParser) (hw : Writing c x.left)
    (hx : x.posted = q :: posted) (hc : c.strand = q.posted :: strand) :
    ∃ x' c', doAsyncCommand q.command.enc q.handler cbs { c with strand := strand } =
        (.returns, cbs, c') ∧ Core pub s0 S sub n x' c' ∧ Incoming pub s0 x' data c'.redisParser ∧
      Writing c' x'.left ∧ SameInput c c' := by
  obtain ⟨is, hwr⟩ := written_concat pub s0 x q posted
  have hans := answered_concat x q posted h.processed_le
  have hle := answered_le pub s0 x
  have hissued : x.run ++ [q] ++ posted = x.run ++ x.posted := by simp [hx]
  have hstrand := h.strand
  rw [hc, hx] at hstrand
  have hcore : Core pub s0 S sub n { x with run := x.run ++ [q], posted := posted }
      { c with
        strand := strand
        handlers := c.handlers ++ [q.handler]
        dataQueued := c.dataQueued ++ [q.command.enc] } := by
    refine { h with
      issued := ?_, quiet := ?_, strand := ?_, sent := ?_, handlers := ?_, processed_le := ?_,
      taken_le := ?_, replies := ?_, processed := ?_ }
    · rw [hissued]
      exact h.issued
    · rw [hissued]
      exact h.quiet
    · exact (List.cons.inj hstrand).2
    · show x.sent ++ x.left ++ (c.dataQueued ++ [q.command.enc]).flatten = texts (x.run ++ [q])
      rw [texts_append, ← h.sent]
      simp [texts]
    · rw [hans]
      show c.handlers ++ [q.handler] = ((x.run ++ [q]).map Request.handler).drop _
      rw [List.map_append, List.drop_append_of_le_length (by simpa using hle), h.handlers]
      rfl
    · rw [hwr, List.length_append]
      exact h.processed_le.trans (Nat.le_add_right _ _)
    · rw [hwr, text_append, List.length_append]
      exact h.taken_le.trans (Nat.le_add_right _ _)
    · unfold expected
      rw [hans]
      show replies (c.trace.drop n) = ((x.run ++ [q]).map Request.handler).zip _
      rw [List.map_append, zip_append_left (by simpa using hle), h.replies]
      rfl
    · rw [hwr]
      show _ = ((written pub s0 x ++ is).take x.processed).map Item.value
      rw [List.take_append_of_le_length h.processed_le]
      exact h.processed
  have hstream : Incoming pub s0 { x with run := x.run ++ [q], posted := posted } data
      c.redisParser := by
    unfold Incoming
    rw [hwr]
    show Awaits _ (data ++ (text (written pub s0 x ++ is)).drop x.taken)
      ((written pub s0 x ++ is).drop x.processed)
    rw [text_append, List.drop_append_of_le_length h.taken_le,
      List.drop_append_of_le_length h.processed_le, ← List.append_assoc]
    exact Awaits.append hs is
  have hlog := Core.log (.doAsyncCommand q.command.enc q.handler) hcore rfl rfl rfl rfl
  unfold doAsyncCommand
  dsimp only
  generalize hl : x.left = left at hw
  cases hw with
  | idle h1 h2 h3 h4 =>
    obtain ⟨c', hrun, hcore', hw', hsame⟩ := asyncWrite_core cbs hlog hl h3 h4
    refine ⟨_, c', (if_pos h1).trans hrun, hcore', ?_, hw', ?_⟩
    · rw [hsame.redisParser]
      exact hstream
    · exact ⟨hsame.redisParser, hsame.buf, hsame.reads, hsame.readsDone⟩
  | busy left h1 h2 h3 =>
    refine ⟨_, _, if_neg h1, hlog, hstream, ?_, ⟨rfl, rfl, rfl, rfl⟩⟩
    exact .busy _ h1 (h2.trans (by rw [hl])) h3
  | done h1 h2 h3 =>
    refine ⟨_, _, if_neg h1, hlog, hstream, ?_, ⟨rfl, rfl, rfl, rfl⟩⟩
    rw [show Progress.left { x with run := x.run ++ [q], posted := posted } = [] from hl]
    exact .done h1 h2 h3

/-! ### A write makes progress and is complete -/

/-- **The system moves some bytes.** -/
theorem send_core {data : Bytes} {k : ℕ} {socket : Socket κ} (h : Core pub s0 S sub n x c)
    (hs : Incoming pub s0 x data c.redisParser) (hw : Writing c x.left)
    (hsend : c.socket.send k = some socket) :
    ∃ x', Core pub s0 S sub n x' { c with socket := socket } ∧
      Incoming pub s0 x' data c.redisParser ∧ Writing { c with socket := socket } x'.left ∧
      SameInput c { c with socket := socket } := by
  generalize hl : x.left = left at hw
  unfold Socket.send at hsend
  rw [h.link] at hsend
  cases hw with
  | idle h1 h2 h3 h4 =>
    rw [h3] at hsend
    cases hsend
  | done h1 h2 h3 =>
    rw [h2] at hsend
    cases hsend
  | busy left h1 h2 h3 =>
    rw [h2] at hsend
    dsimp only at hsend
    have hsent := h.sent
    rw [hl] at hsent
    have hmove : x.sent ++ left.take (k + 1) ++ left.drop (k + 1) ++ c.dataQueued.flatten =
        texts x.run := by
      rw [List.append_assoc x.sent, List.take_append_drop, hsent]
    split_ifs at hsend with hd
    · cases hsend
      refine ⟨{ x with sent := x.sent ++ left.take (k + 1), left := [] },
        { h with link := rfl, connects := h.connects, connectsDone := h.connectsDone, sent := ?_ },
        hs, .done h1 rfl ?_, ⟨rfl, rfl, rfl, rfl⟩⟩
      · rw [hd] at hmove
        exact hmove
      · show c.socket.writesDone ++ [none] = [none]
        rw [h3]
        rfl
    · cases hsend
      exact ⟨{ x with sent := x.sent ++ left.take (k + 1), left := left.drop (k + 1) },
        { h with
          link := rfl, connects := h.connects, connectsDone := h.connectsDone, sent := hmove },
        hs, .busy _ h1 rfl h3, ⟨rfl, rfl, rfl, rfl⟩⟩

/-- **The completion handler of a write** starts the next one, if anything is queued. -/
theorem writeDone_core {data : Bytes} {ec : ErrorCode} {writesDone : List ErrorCode}
    (cbs : Callbacks κ) (h : Core pub s0 S sub n x c)
    (hs : Incoming pub s0 x data c.redisParser) (hw : Writing c x.left)
    (hc : c.socket.writesDone = ec :: writesDone) :
    ∃ x' c', asyncWrite ec cbs
        { c with socket := { c.socket with writesDone := writesDone } } = (.returns, cbs, c') ∧
      Core pub s0 S sub n x' c' ∧ Incoming pub s0 x' data c'.redisParser ∧ Writing c' x'.left ∧
      SameInput c c' := by
  generalize hl : x.left = left at hw
  cases hw with
  | idle h1 h2 h3 h4 =>
    rw [h4] at hc
    cases hc
  | busy left h1 h2 h3 =>
    rw [h3] at hc
    cases hc
  | done h1 h2 h3 =>
    rw [h3] at hc
    cases hc
    have hcore : Core pub s0 S sub n x { c with socket := { c.socket with writesDone := [] } } :=
      { h with link := h.link, connects := h.connects, connectsDone := h.connectsDone }
    obtain ⟨c', hrun, hcore', hw', hsame⟩ := asyncWrite_core cbs hcore hl h2 rfl
    refine ⟨_, c', hrun, hcore', ?_, hw', ?_⟩
    · rw [hsame.redisParser]
      exact hs
    · exact ⟨hsame.redisParser, hsame.buf, hsame.reads, hsame.readsDone⟩

end RedisClient.Async.Transmit

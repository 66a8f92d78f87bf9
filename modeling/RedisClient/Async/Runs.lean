import RedisClient.Async.Receive

/-! # Runs of a session

A session begins when the completion handler of a successful connect runs on a client that has
nothing left of an earlier one (`Ready`, `connectDone_session`). It goes on through every step in
which the user's code only issues commands and no operation of the socket fails (`session_step`,
`session_run`). -/

namespace RedisClient.Async.Runs

open RedisClient.Value RedisClient.Parser.Defs RedisClient.Peers
open RedisClient.Async.Asio RedisClient.Async.Defs RedisClient.Async.Rules RedisClient.Async.Trace
open RedisClient.Async.Calls
open RedisClient.Async.Session RedisClient.Async.Transmit RedisClient.Async.Receive
open RedisClient.Sync.Defs (ErrorCode ClientState)

variable {κ σ : Type} {pub : Publisher σ} {s0 : σ} {S : List Bytes → Prop} {sub : Prop} {n : ℕ}
variable {L : List (Action κ) → Prop} {c c' : RedisClientImpl κ}

/-! ### The beginning -/

/-- A connect has succeeded, its completion handler is the next to run, and nothing is left of an
earlier session. -/
structure Ready (peer : Peer) (handler : κ) (c : RedisClientImpl κ) : Prop where
  broken : c.broken = false
  strand : c.strand.filterMap posted? = []
  socket : c.socket = ⟨.linked peer [] 0, 0, [], [], [], [], [(none, handler)]⟩
  redisParser : Idle c.redisParser
  handlers : c.handlers = []
  dataWrited : c.dataWrited = []
  dataQueued : c.dataQueued = []

/-- A session in which nothing has happened. -/
def begin : Progress κ := ⟨[], [], 0, [], [], 0⟩

/-- **A session begins.** -/
theorem connectDone_session {handler : κ} {cbs : Callbacks κ}
    (hready : Ready (pub.peer s0) handler c) (hcbs : SessionCallbacks S sub cbs)
    (hstep : step (.connectDone cbs) c = some c')
    (hlaw : sub → Lawful pub s0 (c'.trace.drop c.trace.length)) :
    InSession pub s0 S sub c.trace.length c' := by
  obtain ⟨-, hs⟩ := step_cases hstep
  cases hs with | @connectDone _ ec handler' connectsDone hconnects => ?_
  rw [hready.socket] at hconnects
  cases hconnects
  have hcore : Core pub s0 S sub c.trace.length begin
      { c with
        socket := ⟨.linked (pub.peer s0) [] 0, 0, [], [], [], [], []⟩
        state := .connected } := by
    constructor
    · exact hready.broken
    · exact Or.inl rfl
    · exact Nat.le_refl _
    · simp [issued, begin]
    · exact fun _ q hq => by cases hq
    · exact hready.strand
    · rfl
    · rfl
    · rfl
    · show [] ++ [] ++ c.dataQueued.flatten = []
      rw [hready.dataQueued]
      rfl
    · exact hready.handlers
    · exact Nat.zero_le _
    · exact Nat.zero_le _
    · simp [replies, expected, begin]
    · simp [errors]
    · simp [processed, begin]
  have hlog := hcore.log (.connect none handler) rfl rfl rfl rfl
  rw [hready.socket] at hlaw ⊢
  rw [client_trace, handleAsyncConnect_ok_trace] at hlaw
  obtain ⟨qs, t, cbs', c1, hrun, -, hi⟩ :=
    callback_issues hlog.long hcbs hlog.state fun hsub => (hlaw hsub).accepted
  rw [handleAsyncConnect_returns hrun]
  refine processMessage_session (hlog.issues hi) ?_ (.idle ?_ ?_ ?_ ?_) ?_ ?_
  · refine ⟨?_, rfl⟩
    rw [hi.redisParser]
    exact hready.redisParser
  · exact hi.dataWrited.trans hready.dataWrited
  · exact hi.dataQueued.trans hready.dataQueued
  all_goals
    rw [hi.socket]
    rfl

/-! ### The steps -/

/-- A step of a session: the user's code issues commands, and no operation fails. -/
def SessionEvent (S : List Bytes → Prop) (sub : Prop) : Event κ → Prop
  | .user s => SessionScript S sub s
  | .posted cbs | .readDone cbs | .writeDone cbs => SessionCallbacks S sub cbs
  | .receive _ | .send _ => True
  | .readFail _ | .writeFail _ | .connectOk _ | .connectFail _ | .connectDone _ => False

instance [DecidablePred S] [Decidable sub] : (e : Event κ) → Decidable (SessionEvent S sub e)
  | .user s => decidableSessionScript S sub s
  | .posted cbs | .readDone cbs | .writeDone cbs =>
    inferInstanceAs (Decidable (SessionCallbacks S sub cbs))
  | .receive _ | .send _ => isTrue trivial
  | .readFail _ | .writeFail _ | .connectOk _ | .connectFail _ | .connectDone _ => isFalse id

theorem session_user {s : Script κ} (h : InSession pub s0 S sub n c) (hs : SessionScript S sub s)
    (hlaw : sub → Lawful pub s0 ((runScript s c).2.trace.drop n)) :
    InSession pub s0 S sub n (runScript s c).2 := by
  obtain ⟨x, data, hcore, hin, hw, hr⟩ := h
  obtain ⟨qs, t, c', hrun, hi⟩ :=
    runScript_issues hcore.long hs hcore.state fun hsub => (hlaw hsub).accepted
  rw [hrun]
  refine ⟨_, data, hcore.issues hi, ?_, ?_, ?_⟩
  · rw [hi.redisParser]
    exact hin
  · exact hw.congr hi.dataWrited hi.dataQueued (by rw [hi.socket]) (by rw [hi.socket])
  · exact SameInput.reading ⟨hi.redisParser, hi.buf, by rw [hi.socket], by rw [hi.socket]⟩ hr

theorem session_posted {cbs : Callbacks κ} {f : Posted κ} {strand : List (Posted κ)}
    (h : InSession pub s0 S sub n c) (hcbs : SessionCallbacks S sub cbs)
    (hc : c.strand = f :: strand)
    (hlaw : sub → Lawful pub s0 ((runPosted f cbs { c with strand := strand }).2.2.trace.drop n)) :
    ∃ cbs' c', runPosted f cbs { c with strand := strand } = (.returns, cbs', c') ∧
      InSession pub s0 S sub n c' := by
  obtain ⟨x, data, hcore, hin, hw, hr⟩ := h
  have hstrand := hcore.strand
  rw [hc] at hstrand
  cases f with
  | doAsyncCommand buff handler =>
    rcases hx : x.posted with _ | ⟨q, posted⟩ <;> rw [hx] at hstrand
    · cases hstrand
    · obtain ⟨hq, -⟩ := List.cons.inj hstrand
      cases hq
      obtain ⟨x', c', hrun, hcore', hin', hw', hsame⟩ :=
        doAsyncCommand_core cbs hcore hin hw hx hc
      exact ⟨cbs, c', hrun, x', data, hcore', hin', hw', hsame.reading hr⟩
  | message msgHandler msg =>
    have hcore0 : Core pub s0 S sub n x { c with strand := strand } := { hcore with strand := hstrand }
    have hcore1 := hcore0.log (.message msgHandler msg) rfl rfl rfl rfl
    obtain ⟨qs, t, cbs', c', hrun, -, hi⟩ :=
      callback_issues hcore1.long hcbs hcore1.state fun hsub => (hlaw hsub).accepted
    refine ⟨cbs', c', hrun, _, data, hcore1.issues hi, ?_, ?_, ?_⟩
    · rw [hi.redisParser]
      exact hin
    · exact hw.congr hi.dataWrited hi.dataQueued (by rw [hi.socket]; rfl) (by rw [hi.socket]; rfl)
    · have hsame : SameInput c c' :=
        ⟨hi.redisParser, hi.buf, by rw [hi.socket]; rfl, by rw [hi.socket]; rfl⟩
      exact hsame.reading hr

/-- **A step of a session.** -/
theorem session_step (hL : Suffices pub s0 S sub n L) {e : Event κ} (he : SessionEvent S sub e)
    (h : InSession pub s0 S sub n c) (hstep : step e c = some c')
    (hlaw : sub → L (c'.trace.drop n)) : InSession pub s0 S sub n c' := by
  obtain ⟨-, hs⟩ := step_cases hstep
  cases hs with
  | user s => exact session_user h he fun hsub => hL.lawful (hlaw hsub)
  | posted hc =>
    rw [client_trace] at hlaw
    obtain ⟨cbs', c', hrun, hs⟩ := session_posted h he hc fun hsub => hL.lawful (hlaw hsub)
    rw [hrun]
    exact hs
  | @readDone cbs ec size readsDone o hc ho =>
    rw [client_trace] at hlaw
    obtain ⟨x, data, hcore, hin, hw, hr⟩ := h
    obtain ⟨cbs', c', hrun, hs⟩ :=
      readDone_core hL hcore hin hw hr hc he fun hsub => ⟨o, ho, hlaw hsub⟩
    rw [ho] at hrun
    cases hrun
    exact hs
  | @writeDone cbs ec writesDone hc =>
    obtain ⟨x, data, hcore, hin, hw, hr⟩ := h
    obtain ⟨x', c', hrun, hcore', hin', hw', hsame⟩ := writeDone_core cbs hcore hin hw hc
    rw [hrun]
    exact ⟨x', data, hcore', hin', hw', hsame.reading hr⟩
  | receive hrecv =>
    obtain ⟨x, data, hcore, hin, hw, hr⟩ := h
    exact receive_core hcore hin hw hr hrecv
  | send hsend =>
    obtain ⟨x, data, hcore, hin, hw, hr⟩ := h
    obtain ⟨x', hcore', hin', hw', hsame⟩ := send_core hcore hin hw hsend
    exact ⟨x', data, hcore', hin', hw', hsame.reading hr⟩
  | readFail | writeFail | connectOk | connectFail | connectDone => exact he.elim

/-- **A run of a session.** -/
theorem session_run (hL : Suffices pub s0 S sub n L) : ∀ {es : List (Event κ)} {c : RedisClientImpl κ},
    (∀ e ∈ es, SessionEvent S sub e) → InSession pub s0 S sub n c → run es c = some c' →
    (sub → L (c'.trace.drop n)) → InSession pub s0 S sub n c'
  | [], c, _, h, hrun, _ => by
    cases hrun
    exact h
  | e :: es, c, hes, h, hrun, hlaw => by
    obtain ⟨c1, h1, h2⟩ := Option.bind_eq_some_iff.mp hrun
    have hs := session_step hL (hes e (by simp)) h h1 fun hsub =>
      hL.grows (hlaw hsub) ((run_trace h2).drop n)
    exact session_run hL (fun e' he' => hes e' (by simp [he'])) hs h2 hlaw

end RedisClient.Async.Runs

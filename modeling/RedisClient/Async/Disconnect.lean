import RedisClient.Async.Session
import RedisClient.Async.Writes

/-! # While the client is down

Between a disconnect and the end of the next connect the client refuses all other calls, so the
user's code does nothing (`runScript_refused`). What runs are the completion handlers of operations
that have failed, the messages that have been posted, and the commands that had been posted before
(`down_step`, `down_run`). So what the disconnect leaves of these is there when the connect is
done. -/

namespace RedisClient.Async.Disconnect

open RedisClient.Value RedisClient.Parser.Defs RedisClient.Parser.RoundTrip RedisClient.Peers
open RedisClient.Async.Asio RedisClient.Async.Defs RedisClient.Async.Rules
open RedisClient.Async.Session
open RedisClient.Sync.Defs (SysError ErrorCode ClientState)

variable {κ : Type} {c c' : RedisClientImpl κ}

/-! ### Calls that are refused -/

/-- The call is not `connect` or `disconnect`. -/
@[reducible] def Mild : Call κ → Prop
  | .connect _ _ | .disconnect => False
  | _ => True

instance : DecidablePred (Mild : Call κ → Prop) := decidableCalls _

/-- Nothing but the trace is different. -/
def OnlyTrace (c c' : RedisClientImpl κ) : Prop := ∃ t, c' = { c with trace := c.trace ++ t }

theorem OnlyTrace.refl (c : RedisClientImpl κ) : OnlyTrace c c := ⟨[], by simp⟩

theorem OnlyTrace.trans {c1 : RedisClientImpl κ} (h : OnlyTrace c c1) (h' : OnlyTrace c1 c') :
    OnlyTrace c c' := by
  obtain ⟨t, rfl⟩ := h
  obtain ⟨t', rfl⟩ := h'
  exact ⟨t ++ t', by simp⟩

theorem OnlyTrace.log (a : Action κ) (c : RedisClientImpl κ) : OnlyTrace c (c.log a) := ⟨[a], rfl⟩

theorem OnlyTrace.return (handle : Option Handle) (c : RedisClientImpl κ) :
    OnlyTrace c (c.return handle) := by
  cases handle with
  | none => exact .refl c
  | some handle => exact .log _ c

theorem OnlyTrace.isConnected (h : OnlyTrace c c') : c'.isConnected = c.isConnected := by
  obtain ⟨t, rfl⟩ := h
  rfl

/-- A client that is not connected refuses every call but `connect` and `disconnect`. -/
theorem body_refused {call : Call κ} (hm : Mild call) (hc : c.isConnected = false) :
    ∃ r handle, call.body c = (some (.error r), handle, c) := by
  have hb := body_cases call c
  generalize call.body c = r at hb ⊢
  cases hb with
  | disconnect | connect | connected => exact hm.elim
  | posts _ _ _ _ _ _ _ _ hconn => exact absurd hconn (of_decide_eq_false hc)
  | refused text handle => exact ⟨_, _, rfl⟩

/-- **User code does nothing** to a client that is not connected, unless it calls `connect` or
`disconnect`. -/
theorem runScript_refused : ∀ {s : Script κ} {c : RedisClientImpl κ}, All Mild s →
    c.isConnected = false → (runScript s c).1 ≠ .undefined ∧ OnlyTrace c (runScript s c).2
  | .returns, c, _, _ | .throws, c, _, _ => ⟨nofun, .refl c⟩
  | .call call cb next, c, hs, hc => by
    have hlog := OnlyTrace.log (.call c.state call) c
    obtain ⟨r, handle, hb⟩ := body_refused (c := c.log (.call c.state call)) hs.1 hc
    simp only [runScript, hb]
    have h1 := hlog.trans (.log (.error r) _)
    obtain ⟨hend, h2⟩ := runScript_refused hs.2.1 (h1.isConnected.trans hc)
    have h2 := h1.trans h2
    rcases hx : runScript cb ((c.log (.call c.state call)).log (.error r)) with ⟨_ | _ | _, c2⟩ <;>
      rw [hx] at h2 hend
    · have h3 := h2.trans (.return handle c2)
      obtain ⟨h4, h5⟩ := runScript_refused hs.2.2 (h3.isConnected.trans hc)
      exact ⟨h4, h3.trans h5⟩
    · obtain ⟨h4, h5⟩ := runScript_refused hs.2.2 (h2.isConnected.trans hc)
      exact ⟨h4, h2.trans h5⟩
    · exact absurd rfl hend

theorem callback_refused {cbs : Callbacks κ} (hcbs : AllOf Mild cbs) (hc : c.isConnected = false) :
    OnlyTrace c (callback cbs c).client := by
  cases cbs with
  | nil => exact .refl c
  | cons s cbs =>
    obtain ⟨hend, h⟩ := runScript_refused (hcbs s List.mem_cons_self) hc
    simp only [callback]
    rcases hx : runScript s c with ⟨_ | _ | _, c1⟩ <;> rw [hx] at hend h
    · exact h
    · exact h
    · exact absurd rfl hend

theorem callErrorHandler_refused {cbs : Callbacks κ} (r : Report) (hcbs : AllOf Mild cbs)
    (hc : c.isConnected = false) : OnlyTrace c (callErrorHandler r cbs c).client :=
  (OnlyTrace.log (.error r) c).trans (callback_refused hcbs hc)

/-! ### While the client is down -/

/-- The handlers of the commands that have been posted and not run. -/
def postedHandlers (strand : List (Posted κ)) : List (Option κ) :=
  (strand.filterMap posted?).map Prod.snd

/-- What a disconnect leaves: the commands posted, by their handlers, those queued, the single-shot
subscriptions, and the parser. -/
structure Leftovers (κ : Type) where
  posted : List (Option κ)
  dataQueued : List Bytes
  singleShotMsgHandlers : List (SingleShotHandler κ)
  redisParser : RedisParser

/-- No operation that is done has succeeded. -/
structure Failed (s : Socket κ) : Prop where
  reads : ∀ r ∈ s.readsDone, r.1.isSome
  writes : ∀ ec ∈ s.writesDone, ec.isSome
  connects : ∀ r ∈ s.connectsDone, r.1.isSome

/-- The connects of a socket: those of the earlier session are aborted; none has been started since,
or one, and then it is waiting or it has succeeded. Nothing moves on the new connection if no command
was posted before. -/
inductive Dials (l : Leftovers κ) (dialled : Option κ) (s : Socket κ) : Prop where
  | waiting : s.link = (if dialled.isNone then .closed else .opened) → s.connects = dialled.toList →
      (∀ r ∈ s.connectsDone, r.1.isSome) → Dials l dialled s
  | done (handler : κ) (peer : Peer) (sent : Bytes) (taken : ℕ) (failed : List (ErrorCode × κ)) :
      dialled = some handler → s.link = .linked peer sent taken → s.connects = [] →
      s.connectsDone = failed ++ [(none, handler)] → (∀ r ∈ failed, r.1.isSome) →
      (l.posted = [] → sent = [] ∧ taken = 0) → Dials l dialled s

instance (s : Socket κ) : Decidable (Failed s) :=
  decidable_of_iff ((∀ r ∈ s.readsDone, r.1.isSome) ∧ (∀ ec ∈ s.writesDone, ec.isSome) ∧
    ∀ r ∈ s.connectsDone, r.1.isSome)
    ⟨fun h => ⟨h.1, h.2.1, h.2.2⟩, fun h => ⟨h.reads, h.writes, h.connects⟩⟩

/-- The state of a client between `disconnect` and the end of the next connect: a command that was
posted before is run, and then its handler is in the queue; if there is none, the rest stays as it
was. -/
structure Down (l : Leftovers κ) (state : ClientState) (dialled : Option κ) (c : RedisClientImpl κ) :
    Prop where
  broken : c.broken = false
  state : c.state = state ∨ c.state = .unconnected
  handlers : c.handlers ++ postedHandlers c.strand = l.posted
  msgHandlers : c.msgHandlers = []
  singleShotMsgHandlers : c.singleShotMsgHandlers = l.singleShotMsgHandlers
  redisParser : c.redisParser = l.redisParser
  reads : c.socket.reads = 0
  readsDone : ∀ r ∈ c.socket.readsDone, r.1.isSome
  dataQueued : l.posted = [] → c.dataQueued = l.dataQueued
  writes : l.posted = [] → c.socket.writes = []
  writesDone : l.posted = [] → ∀ ec ∈ c.socket.writesDone, ec.isSome
  dials : Dials l dialled c.socket

variable {l : Leftovers κ} {state : ClientState} {dialled : Option κ}

theorem Down.isConnected (h : Down l state dialled c) (hst : state ≠ .connected ∧ state ≠ .subscribed) :
    c.isConnected = false := by
  refine decide_eq_false ?_
  rcases h.state with hc | hc <;> rw [hc]
  · exact fun h' => h'.elim hst.1 hst.2
  · decide

theorem Down.onlyTrace (h : Down l state dialled c) (ht : OnlyTrace c c') : Down l state dialled c' := by
  obtain ⟨t, rfl⟩ := ht
  exact { h with }

theorem Dials.congr {s s' : Socket κ} (h : Dials l dialled s) (hlink : s'.link = s.link)
    (hconnects : s'.connects = s.connects) (hdone : s'.connectsDone = s.connectsDone) :
    Dials l dialled s' := by
  cases h with
  | waiting h1 h2 h3 =>
    exact .waiting (hlink.trans h1) (hconnects.trans h2) (by rw [hdone]; exact h3)
  | done handler peer sent taken failed h1 h2 h3 h4 h5 h6 =>
    exact .done handler peer sent taken failed h1 (hlink.trans h2) (hconnects.trans h3)
      (hdone.trans h4) h5 h6

/-! ### Steps while the client is down -/

/-- Where a command was posted before, a write may be started. -/
theorem asyncWrite_down (cbs : Callbacks κ) (hne : l.posted ≠ []) (h : Down l state dialled c) :
    Down l state dialled (asyncWrite none cbs c).client := by
  unfold asyncWrite
  dsimp only
  rw [if_neg (by decide)]
  split_ifs
  · refine ⟨h.broken, h.state, h.handlers, h.msgHandlers, h.singleShotMsgHandlers, h.redisParser,
      ?_, ?_, fun hl => absurd hl hne, fun hl => absurd hl hne, fun hl => absurd hl hne, ?_⟩
    · exact (Socket.asyncWrite_reads _ _).trans h.reads
    · show ∀ r ∈ (c.socket.asyncWrite c.dataQueued.flatten).readsDone, r.1.isSome
      rw [Socket.asyncWrite_readsDone]
      exact h.readsDone
    · exact h.dials.congr (Socket.asyncWrite_link _ _) (Socket.asyncWrite_connects _ _)
        (Socket.asyncWrite_connectsDone _ _)
  · exact { h with }

/-- A command that was posted before is run. -/
theorem doAsyncCommand_down {buff : Bytes} {handler : Option κ} {strand : List (Posted κ)}
    (cbs : Callbacks κ) (h : Down l state dialled c)
    (hc : c.strand = .doAsyncCommand buff handler :: strand) :
    Down l state dialled (doAsyncCommand buff handler cbs { c with strand := strand }).client := by
  have hposted : c.handlers ++ handler :: postedHandlers strand = l.posted := by
    rw [← h.handlers, hc]
    rfl
  have hne : l.posted ≠ [] := by
    rw [← hposted]
    simp
  have hdown : Down l state dialled { c with
      strand := strand
      trace := c.trace ++ [.doAsyncCommand buff handler]
      handlers := c.handlers ++ [handler]
      dataQueued := c.dataQueued ++ [buff] } :=
    { h with
      handlers := by
        rw [← hposted]
        exact List.append_assoc _ _ _
      dataQueued := fun hl => absurd hl hne }
  unfold doAsyncCommand
  dsimp only
  split_ifs
  · exact asyncWrite_down cbs hne hdown
  · exact hdown

theorem message_down {msgHandler : κ} {msg : Bytes} {strand : List (Posted κ)} {cbs : Callbacks κ}
    (hst : state ≠ .connected ∧ state ≠ .subscribed) (hcbs : AllOf Mild cbs)
    (h : Down l state dialled c) (hc : c.strand = .message msgHandler msg :: strand) :
    Down l state dialled (runPosted (.message msgHandler msg) cbs { c with strand := strand }).client := by
  have hdown : Down l state dialled { c with strand := strand } :=
    { h with
      handlers := by
        rw [← h.handlers, hc]
        rfl }
  exact hdown.onlyTrace ((OnlyTrace.log (.message msgHandler msg) _).trans
    (callback_refused hcbs (h.isConnected hst)))

/-- A read that has failed is reported, unless it was aborted. -/
theorem readDone_down {ec : ErrorCode} {size : ℕ} {readsDone : List (ErrorCode × ℕ)}
    {cbs : Callbacks κ} {o : Outcome κ} (hst : state ≠ .connected ∧ state ≠ .subscribed)
    (hcbs : AllOf Mild cbs) (h : Down l state dialled c)
    (hc : c.socket.readsDone = (ec, size) :: readsDone)
    (ho : asyncRead ec size cbs { c with socket := { c.socket with readsDone := readsDone } } =
      some o) : Down l state dialled o.client := by
  have hdone := h.readsDone
  rw [hc] at hdone
  have hdown : Down l state dialled { c with socket := { c.socket with readsDone := readsDone } } :=
    { h with
      readsDone := fun r hr => hdone r (List.mem_cons_of_mem _ hr)
      dials := h.dials.congr rfl rfl rfl }
  have hec : ec.isSome := hdone _ List.mem_cons_self
  unfold asyncRead at ho
  rw [if_pos (Or.inl hec)] at ho
  split_ifs at ho
  · cases ho
    exact hdown.onlyTrace (callErrorHandler_refused _ hcbs (h.isConnected hst))
  · cases ho
    exact hdown

/-- A write that has failed is reported; one succeeds only where a command was posted before. -/
theorem writeDone_down {ec : ErrorCode} {writesDone : List ErrorCode} {cbs : Callbacks κ}
    (hst : state ≠ .connected ∧ state ≠ .subscribed) (hcbs : AllOf Mild cbs)
    (h : Down l state dialled c) (hc : c.socket.writesDone = ec :: writesDone) :
    Down l state dialled (asyncWrite ec cbs
      { c with socket := { c.socket with writesDone := writesDone } }).client := by
  have hdone := h.writesDone
  rw [hc] at hdone
  have hdown : Down l state dialled { c with
      socket := { c.socket with writesDone := writesDone }, dataWrited := [] } :=
    { h with
      writesDone := fun hl ec' hec => hdone hl ec' (List.mem_cons_of_mem _ hec)
      dials := h.dials.congr rfl rfl rfl }
  cases ec with
  | some e => exact hdown.onlyTrace (callErrorHandler_refused _ hcbs (h.isConnected hst))
  | none =>
    have hne : l.posted ≠ [] := fun hl => absurd (hdone hl none List.mem_cons_self) (by decide)
    exact asyncWrite_down cbs hne { hdown with }

/-- What the system does to a socket with no reads: writes move only where a command was posted
before, and a connect is done. -/
theorem send_down {n : ℕ} {s : Socket κ} (h : Down l state dialled c)
    (hsend : c.socket.send n = some s) : Down l state dialled { c with socket := s } := by
  obtain ⟨data, rest, peer, sent, taken, hwrites, hlink, writes, writesDone, -, rfl⟩ :=
    Socket.send_cases hsend
  have hne : l.posted ≠ [] := fun hl => by
    rw [h.writes hl] at hwrites
    cases hwrites
  refine { h with
    writes := fun hl => absurd hl hne, writesDone := fun hl => absurd hl hne, dials := ?_ }
  cases h.dials with
  | waiting h1 h2 h3 =>
    rw [hlink] at h1
    split_ifs at h1
  | done handler peer' sent' taken' failed h1 h2 h3 h4 h5 h6 =>
    exact .done handler _ _ _ failed h1 rfl h3 h4 h5 fun hl => absurd hl hne

theorem writeFail_down {e : SysError} {s : Socket κ} (h : Down l state dialled c)
    (hfail : c.socket.writeFail e = some s) : Down l state dialled { c with socket := s } := by
  obtain ⟨data, writes, hwrites, rfl⟩ := Socket.writeFail_cases hfail
  have hne : l.posted ≠ [] := fun hl => by
    rw [h.writes hl] at hwrites
    cases hwrites
  exact { h with
    writes := fun hl => absurd hl hne
    writesDone := fun hl => absurd hl hne
    dials := h.dials.congr rfl rfl rfl }

theorem connectOk_down {peer : Peer} {s : Socket κ} (h : Down l state dialled c)
    (hok : c.socket.connectOk peer = some s) : Down l state dialled { c with socket := s } := by
  obtain ⟨handler, connects, hconnects, hlink, rfl⟩ := Socket.connectOk_cases hok
  refine { h with dials := ?_ }
  cases h.dials with
  | waiting h1 h2 h3 =>
    rw [hconnects] at h2
    rcases hd : dialled with _ | handler' <;> rw [hd] at h2 <;> cases h2
    exact .done handler peer [] 0 c.socket.connectsDone rfl rfl rfl rfl h3 fun _ => ⟨rfl, rfl⟩
  | done handler' peer' sent taken failed h1 h2 h3 h4 h5 h6 =>
    rw [hconnects] at h3
    cases h3

/-! ### When no connect is waiting -/

theorem body_mild_socket {call : Call κ} (hm : Mild call) (c : RedisClientImpl κ) :
    (call.body c).2.2.socket = c.socket := by
  have hb := body_cases call c
  generalize call.body c = r at hb ⊢
  cases hb with
  | disconnect | connect | connected => exact hm.elim
  | posts | refused => rfl

/-- No connect is waiting, and none of those done has succeeded. -/
def Over (c : RedisClientImpl κ) : Prop :=
  c.socket.connects = [] ∧ ∀ r ∈ c.socket.connectsDone, r.1.isSome

theorem Over.congr (h : Over c) (hconnects : c'.socket.connects = c.socket.connects)
    (hdone : c'.socket.connectsDone = c.socket.connectsDone) : Over c' :=
  ⟨hconnects.trans h.1, by rw [hdone]; exact h.2⟩

theorem keeps_over : KeepsLoop (κ := κ) Mild fun c c' => Over c → Over c' where
  refl _ := id
  trans h h' := h' ∘ h
  log _ _ := id
  body c hm h := h.congr (by rw [body_mild_socket hm]) (by rw [body_mild_socket hm])
  enqueue _ _ _ := id
  write _ _ h := h.congr (Socket.asyncWrite_connects _ _) (Socket.asyncWrite_connectsDone _ _)
  pop _ := id
  postSingleShot channel msg c h := by
    obtain ⟨ms, ss, hc⟩ := postSingleShot_posts channel msg c
    rw [hc]
    exact h
  postMessages channel msg c h := by
    obtain ⟨ms, hc⟩ := postMessages_posts channel msg c
    rw [hc]
    exact h
  redisParser _ _ := id
  read c h := h.congr (Socket.asyncReadSome_connects _) (Socket.asyncReadSome_connectsDone _)
  broken _ := id
  strand _ := id
  receive hs h := by
    obtain ⟨_, _, _, _, -, -, rfl⟩ := Socket.receive_cases hs
    exact h
  socket hs h := by
    rcases hs with ⟨e, hs⟩ | ⟨n, hs⟩ | ⟨e, hs⟩ | ⟨peer, hs⟩ | ⟨e, hs⟩
    · obtain ⟨_, -, rfl⟩ := Socket.readFail_cases hs
      exact h
    · obtain ⟨_, _, _, _, _, -, -, _, _, -, rfl⟩ := Socket.send_cases hs
      exact h
    · obtain ⟨_, _, -, rfl⟩ := Socket.writeFail_cases hs
      exact h
    · exact absurd h.1 (Socket.connects_ne_nil (.inl ⟨peer, hs⟩))
    · exact absurd h.1 (Socket.connects_ne_nil (.inr ⟨e, hs⟩))
  readDone _ h := h
  writeDone _ h := h
  connectDone hc h := ⟨h.1, fun r hr => h.2 r (hc ▸ List.mem_cons_of_mem _ hr)⟩

/-- A connect has failed or its completion handler has run, and it was the last. -/
theorem connectFail_over {e : SysError} {s : Socket κ} (h : Down l state dialled c)
    (hfail : c.socket.connectFail e = some s) : dialled ≠ none ∧ Over { c with socket := s } := by
  obtain ⟨handler, connects, hconnects, rfl⟩ := Socket.connectFail_cases hfail
  cases h.dials with
  | waiting h1 h2 h3 =>
    rw [hconnects] at h2
    rcases hd : dialled with _ | handler' <;> rw [hd] at h2 <;> cases h2
    refine ⟨nofun, rfl, fun r hr => ?_⟩
    rcases List.mem_append.mp hr with hr | hr
    · exact h3 r hr
    · rw [List.mem_singleton.mp hr]
      rfl
  | done handler' peer' sent taken failed h1 h2 h3 h4 h5 h6 =>
    rw [hconnects] at h3
    cases h3

/-- An aborted connect sets the state to `unconnected`; one that has succeeded is the last. -/
theorem connectDone_down {ec : ErrorCode} {handler : κ} {connectsDone : List (ErrorCode × κ)}
    {cbs : Callbacks κ} (hst : state ≠ .connected ∧ state ≠ .subscribed) (hcbs : AllOf Mild cbs)
    (h : Down l state dialled c) (hc : c.socket.connectsDone = (ec, handler) :: connectsDone) :
    Down l state dialled (handleAsyncConnect ec handler cbs
      { c with socket := { c.socket with connectsDone := connectsDone } }).client ∨
    dialled ≠ none ∧ Over (handleAsyncConnect ec handler cbs
      { c with socket := { c.socket with connectsDone := connectsDone } }).client := by
  cases ec with
  | some e =>
    left
    have hdials : Dials l dialled { c.socket with connectsDone := connectsDone } := by
      cases h.dials with
      | waiting h1 h2 h3 =>
        rw [hc] at h3
        exact .waiting h1 h2 fun r hr => h3 r (List.mem_cons_of_mem _ hr)
      | done handler' peer sent taken failed h1 h2 h3 h4 h5 h6 =>
        rw [hc] at h4
        rcases failed with _ | ⟨r, failed⟩
        · cases h4
        · cases h4
          exact .done handler' peer sent taken failed h1 h2 h3 rfl
            (fun r hr => h5 r (List.mem_cons_of_mem _ hr)) h6
    have hdown : Down l state dialled { c with
        socket := { c.socket with connectsDone := connectsDone }, state := .unconnected } :=
      { h with state := Or.inr rfl, dials := hdials }
    exact hdown.onlyTrace ((OnlyTrace.log (.connect (some e) handler) _).trans
      (callback_refused hcbs (hdown.isConnected hst)))
  | none =>
    right
    cases h.dials with
    | waiting h1 h2 h3 =>
      rw [hc] at h3
      exact absurd (h3 _ List.mem_cons_self) (by simp)
    | done handler' peer sent taken failed h1 h2 h3 h4 h5 h6 =>
      rw [hc] at h4
      rcases failed with _ | ⟨r, failed⟩
      · cases h4
        refine ⟨by rw [h1]; nofun, ?_⟩
        exact keeps_over.client (keeps_over.handleAsyncConnect none handler
          { c with socket := { c.socket with connectsDone := [] } } hcbs) ⟨h3, nofun⟩
      · cases h4
        exact absurd (h5 _ List.mem_cons_self) (by simp)

/-! ### Runs while the client is down -/

/-- **A step while the client is down.** The completion of a connect that has succeeded is the
last. -/
theorem down_step (hst : state ≠ .connected ∧ state ≠ .subscribed) {e : Event κ}
    (he : AllIn Mild e) (h : Down l state dialled c) (hstep : step e c = some c') :
    Down l state dialled c' ∨ dialled ≠ none ∧ Over c' := by
  obtain ⟨-, hs⟩ := step_cases hstep
  cases hs with
  | user s => exact .inl (h.onlyTrace (runScript_refused he (h.isConnected hst)).2)
  | @posted cbs f strand hc =>
    cases f with
    | doAsyncCommand buff handler => exact .inl (doAsyncCommand_down cbs h hc)
    | message msgHandler msg => exact .inl (message_down hst he h hc)
  | receive hr =>
    obtain ⟨_, _, _, _, hreads, -⟩ := Socket.receive_cases hr
    rw [h.reads] at hreads
    cases hreads
  | readFail hs =>
    obtain ⟨_, hreads, -⟩ := Socket.readFail_cases hs
    rw [h.reads] at hreads
    cases hreads
  | readDone hc ho => exact .inl (readDone_down hst he h hc ho)
  | send hs => exact .inl (send_down h hs)
  | writeFail hs => exact .inl (writeFail_down h hs)
  | writeDone hc => exact .inl (writeDone_down hst he h hc)
  | connectOk hs => exact .inl (connectOk_down h hs)
  | connectFail hs => exact .inr (connectFail_over h hs)
  | connectDone hc => exact connectDone_down hst he h hc

theorem down_run (hst : state ≠ .connected ∧ state ≠ .subscribed) : ∀ {es : List (Event κ)}
    {c : RedisClientImpl κ}, (∀ e ∈ es, AllIn Mild e) → Down l state dialled c →
    run es c = some c' → Down l state dialled c' ∨ dialled ≠ none ∧ Over c'
  | [], c, _, h, hrun => by
    cases hrun
    exact .inl h
  | e :: es, c, hes, h, hrun => by
    obtain ⟨c1, h1, h2⟩ := Option.bind_eq_some_iff.mp hrun
    have hes' : ∀ e' ∈ es, AllIn Mild e' := fun e' he' => hes e' (List.mem_cons_of_mem e he')
    rcases down_step hst (hes e List.mem_cons_self) h h1 with hd | ⟨hne, ho⟩
    · exact down_run hst hes' hd h2
    · exact .inr ⟨hne, keeps_over.run hes' h2 ho⟩

/-- What a client leaves that is disconnected. -/
def leftovers (c : RedisClientImpl κ) : Leftovers κ :=
  ⟨postedHandlers c.strand, c.dataQueued, c.singleShotMsgHandlers, c.redisParser⟩

/-- A client is disconnected while none of its operations that are done has succeeded. -/
theorem disconnect_down (hbroken : c.broken = false) (hfailed : Failed c.socket) :
    Down (leftovers c) .closed none (c.log (.call c.state .disconnect)).close := by
  refine ⟨hbroken, .inl rfl, rfl, rfl, rfl, rfl, rfl, fun r hr => ?_, fun _ => rfl, fun _ => rfl,
    fun _ ec hec => ?_, .waiting rfl rfl fun r hr => ?_⟩
  · rcases List.mem_append.mp hr with hr | hr
    · exact hfailed.reads r hr
    · rw [List.eq_of_mem_replicate hr]
      rfl
  · rcases List.mem_append.mp hec with hec | hec
    · exact hfailed.writes ec hec
    · obtain ⟨_, -, rfl⟩ := List.mem_map.mp hec
      rfl
  · rcases List.mem_append.mp hr with hr | hr
    · exact hfailed.connects r hr
    · obtain ⟨_, -, rfl⟩ := List.mem_map.mp hr
      rfl

/-- The parser after a connect that is made in a state. -/
def parserAfter (endpoint : Endpoint) (state : ClientState) (p : RedisParser) : RedisParser :=
  if endpoint = .tcp ∧ state = .closed then fresh else p

theorem body_connect (endpoint : Endpoint) (handler : κ)
    (hc : c.state = .closed ∨ c.state = .unconnected) :
    (Call.connect endpoint handler).body c = (none, none, { c with
      redisParser := parserAfter endpoint c.state c.redisParser
      state := .connecting
      socket := c.socket.asyncConnect handler }) := by
  cases endpoint with
  | tcp =>
    simp only [Call.body, connectTcp, parserAfter, true_and]
    rcases hc with hc | hc <;> simp [hc]
  | localStream =>
    simp only [Call.body, connectLocal, parserAfter]
    rcases hc with hc | hc <;> simp [hc]

/-- A connect is started. -/
theorem connect_down (endpoint : Endpoint) (handler : κ) (h : Down l .closed none c) :
    Down { l with redisParser := parserAfter endpoint c.state l.redisParser } .connecting
      (some handler) (runScript (.call (.connect endpoint handler) .returns .returns) c).2 := by
  have hsocket : (c.socket.asyncConnect handler) =
      { c.socket with link := .opened, connects := [handler] } := by
    cases h.dials with
    | waiting h1 h2 h3 =>
      have h1 : c.socket.link = .closed := h1
      unfold Socket.asyncConnect
      rw [h1, h2]
      rfl
    | done handler' _ _ _ _ h1 => cases h1
  have hdone : ∀ r ∈ c.socket.connectsDone, r.1.isSome := by
    cases h.dials with
    | waiting h1 h2 h3 => exact h3
    | done handler' _ _ _ _ h1 => cases h1
  simp only [runScript, body_connect (c := c.log (.call c.state (.connect endpoint handler)))
    endpoint handler h.state]
  refine ⟨h.broken, .inl rfl, h.handlers, h.msgHandlers, h.singleShotMsgHandlers, ?_, ?_, ?_,
    h.dataQueued, ?_, ?_, ?_⟩
  · exact congrArg (parserAfter endpoint c.state) h.redisParser
  · exact (congrArg Socket.reads hsocket).trans h.reads
  · show ∀ r ∈ (c.socket.asyncConnect handler).readsDone, _
    rw [hsocket]
    exact h.readsDone
  · exact fun hl => (congrArg Socket.writes hsocket).trans (h.writes hl)
  · show _ → ∀ ec ∈ (c.socket.asyncConnect handler).writesDone, _
    rw [hsocket]
    exact h.writesDone
  · show Dials _ (some handler) (c.socket.asyncConnect handler)
    rw [hsocket]
    exact .waiting rfl rfl hdone

end RedisClient.Async.Disconnect

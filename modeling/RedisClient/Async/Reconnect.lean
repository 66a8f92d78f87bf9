import RedisClient.Async.OwnReplies
import RedisClient.Async.Disconnect

/-! # A new session after a disconnect

`close` clears the queue of handlers and `msgHandlers`, but not the strand, `dataQueued`,
`singleShotMsgHandlers` and the parser, and of the two connects only the one to a TCP endpoint resets
the parser, in state `closed` only. So a client that has been disconnected and connected again is as
a new one if and only if nothing was left in these (`fresh_after_disconnect_iff`); otherwise a
command of the earlier session is sent on the new connection (`disconnect_leaves_command`). -/

namespace RedisClient.Async.Reconnect

open RedisClient.Value RedisClient.Parser.Defs RedisClient.Parser.RoundTrip RedisClient.Commands
open RedisClient.Peers RedisClient.Async.Asio RedisClient.Async.Defs RedisClient.Async.Rules
open RedisClient.Async.Trace RedisClient.Async.Calls RedisClient.Async.Session
open RedisClient.Async.Runs RedisClient.Async.Rest RedisClient.Async.OwnReplies
open RedisClient.Async.Writes RedisClient.Async.Disconnect
open RedisClient.Sync.Defs (ErrorCode ClientState)

variable {κ σ : Type} {c c' : RedisClientImpl κ}
variable {l : Leftovers κ} {state : ClientState} {dialled : Option κ}

/-! ### The new session -/

/-- The connect of the handler has succeeded, and everything that was under way before is done: its
completion handler is what is left. -/
structure Settled (handler : κ) (c : RedisClientImpl κ) : Prop where
  strand : c.strand.filterMap posted? = []
  readsDone : c.socket.readsDone = []
  writesDone : c.socket.writesDone = []
  connectsDone : c.socket.connectsDone = [(none, handler)]

instance [DecidableEq κ] (handler : κ) (c : RedisClientImpl κ) : Decidable (Settled handler c) :=
  decidable_of_iff (c.strand.filterMap posted? = [] ∧ c.socket.readsDone = [] ∧
    c.socket.writesDone = [] ∧ c.socket.connectsDone = [(none, handler)])
    ⟨fun h => ⟨h.1, h.2.1, h.2.2.1, h.2.2.2⟩, fun h => ⟨h.1, h.2, h.3, h.4⟩⟩

/-- Queues, subscriptions and parser are as in a new client. -/
structure Clean (c : RedisClientImpl κ) : Prop where
  handlers : c.handlers = []
  dataQueued : c.dataQueued = []
  dataWrited : c.dataWrited = []
  msgHandlers : c.msgHandlers = []
  singleShotMsgHandlers : c.singleShotMsgHandlers = []
  redisParser : Idle c.redisParser

/-- The bytes sent on the connection. -/
def sentOn (c : RedisClientImpl κ) : Bytes :=
  match c.socket.link with
  | .linked _ sent _ => sent
  | _ => []

/-- The bytes of the commands issued. -/
def commandBytes (t : List (Action κ)) : Bytes := ((issued t).map fun q => makeCommand q.1).flatten

/-- In every session that now begins, the bytes sent are those of the commands issued in it, and the
replies go to their handlers. -/
def Serves (c : RedisClientImpl κ) : Prop :=
  ∀ (σ : Type) (srv : Server σ) (s0 : σ) (cbs : Callbacks κ) (es : List (Event κ))
    (c' : RedisClientImpl κ), (∃ sent taken, c.socket.link = .linked (srv.peer s0) sent taken) →
    (∀ s ∈ cbs, CommandScript s) → (∀ e ∈ es, CommandEvent e) →
    run (.connectDone cbs :: es) c = some c' →
    sentOn c' <+: commandBytes (c'.trace.drop c.trace.length) ∧
    replies (c'.trace.drop c.trace.length) <+: dialogue srv s0 (c'.trace.drop c.trace.length) ∧
    errors (c'.trace.drop c.trace.length) = [] ∧
    (AtRest c' → sentOn c' = commandBytes (c'.trace.drop c.trace.length) ∧
      replies (c'.trace.drop c.trace.length) = dialogue srv s0 (c'.trace.drop c.trace.length))

theorem commandBytes_core {pub : Publisher σ} {s0 : σ} {S : List Bytes → Prop} {sub : Prop} {n : ℕ}
    {x : Progress κ} (h : Core pub s0 S sub n x c) :
    commandBytes (c.trace.drop n) = texts (x.run ++ x.posted) := by
  unfold commandBytes texts encs
  rw [h.issued, List.map_map, List.map_map]
  rfl

theorem sentOn_core {pub : Publisher σ} {s0 : σ} {S : List Bytes → Prop} {sub : Prop} {n : ℕ}
    {x : Progress κ} (h : Core pub s0 S sub n x c) : sentOn c = x.sent := by
  unfold sentOn
  rw [h.link]

/-- **A client that is ready serves.** -/
theorem serves_of_ready (handler : κ) (h : ∀ peer sent taken,
    c.socket.link = .linked peer sent taken → Ready peer handler c) : Serves c := by
  intro σ srv s0 cbs es c' ⟨sent, taken, hlink⟩ hcbs hes hrun
  have hs := command_session (h _ _ _ hlink) hcbs hes hrun
  refine ⟨?_, replies_le_dialogue hs, ?_, fun hrest => ⟨?_, replies_eq_dialogue hs hrest⟩⟩
  · obtain ⟨x, data, hcore, -⟩ := hs
    rw [sentOn_core hcore, commandBytes_core hcore, texts_append, ← hcore.sent]
    simp only [List.append_assoc]
    exact List.prefix_append _ _
  · obtain ⟨x, data, hcore, -⟩ := hs
    exact hcore.errors
  · obtain ⟨x, hcore, hposted, hsent, -⟩ := atRest_all hs hrest
    rw [sentOn_core hcore, commandBytes_core hcore, hsent, hposted, List.append_nil]

/-- The parser is idle after a connect that resets it, and otherwise if it was before. -/
theorem idle_parserAfter {endpoint : Endpoint} {state : ClientState} {p : RedisParser} :
    Idle (parserAfter endpoint state p) ↔ endpoint = .tcp ∧ state = .closed ∨ Idle p := by
  unfold parserAfter
  split_ifs with h
  · exact ⟨fun _ => .inl h, fun _ => ⟨rfl, rfl, rfl⟩⟩
  · exact ⟨.inr, fun h' => h'.resolve_left h⟩

theorem not_over_of_settled {handler : κ} (h : Settled handler c) : ¬ Over c := by
  intro ho
  have hsome := ho.2 (none, handler) (by rw [h.connectsDone]; exact List.mem_cons_self)
  cases hsome

theorem user_step {s : Script κ} (h : step (.user s) c = some c') :
    c.broken = false ∧ (runScript s c).2 = c' := by
  obtain ⟨hb, hs⟩ := step_cases h
  cases hs
  exact ⟨hb, rfl⟩

/-- **What is left after a disconnect and a connect.** -/
theorem settled_down {es1 es2 : List (Event κ)} {s s1 : RedisClientImpl κ} {endpoint : Endpoint}
    {handler : κ} (hfailed : Failed s.socket) (hes1 : ∀ e ∈ es1, AllIn Mild e)
    (hes2 : ∀ e ∈ es2, AllIn Mild e)
    (hdown : run (.user (.call .disconnect .returns .returns) :: es1) s = some s1)
    (hup : run (.user (.call (.connect endpoint handler) .returns .returns) :: es2) s1 = some c)
    (hsettled : Settled handler c) :
    Down { leftovers s with redisParser := parserAfter endpoint s1.state s.redisParser }
      .connecting (some handler) c := by
  obtain ⟨d, hd, hd1⟩ := Option.bind_eq_some_iff.mp hdown
  obtain ⟨u, hu, hu2⟩ := Option.bind_eq_some_iff.mp hup
  obtain ⟨hbroken, rfl⟩ := user_step hd
  obtain ⟨-, rfl⟩ := user_step hu
  rcases down_run (by decide) hes1 (disconnect_down hbroken hfailed) hd1 with h1 | ⟨hne, -⟩
  · rcases down_run (by decide) hes2 (connect_down endpoint handler h1) hu2 with h2 | ⟨-, ho⟩
    · exact h2
    · exact absurd ho (not_over_of_settled hsettled)
  · exact absurd rfl hne

/-- If no command was posted before, nothing has moved on the new connection. -/
theorem socket_settled {handler : κ} {peer : Peer} {sent : Bytes} {taken : ℕ}
    (h : Down l state (some handler) c) (hsettled : Settled handler c) (hl : l.posted = [])
    (hlink : c.socket.link = .linked peer sent taken) :
    c.socket = ⟨.linked peer [] 0, 0, [], [], [], [], [(none, handler)]⟩ := by
  have hconn : c.socket.link = .linked peer [] 0 ∧ c.socket.connects = [] := by
    cases h.dials with
    | waiting h1 h2 h3 =>
      have hsome := h3 (none, handler) (by rw [hsettled.connectsDone]; exact List.mem_cons_self)
      cases hsome
    | done handler' peer' sent' taken' failed h1 h2 h3 h4 h5 h6 =>
      obtain ⟨rfl, rfl⟩ := h6 hl
      rw [hlink] at h2
      cases h2
      exact ⟨hlink, h3⟩
  rw [show c.socket = ⟨c.socket.link, c.socket.reads, c.socket.readsDone, c.socket.writes,
    c.socket.writesDone, c.socket.connects, c.socket.connectsDone⟩ from rfl, hconn.1, hconn.2,
    h.reads, hsettled.readsDone, h.writes hl, hsettled.writesDone, hsettled.connectsDone]

/-- **After a disconnect and a connect**, with the operations of the earlier session failed: the
client is as a new one, and serves the new session, if and only if at the disconnect no command was
posted and not run, none was queued, and no single-shot subscription was registered, and the parser
was idle unless a connect to a TCP endpoint resets it, which it does in state `closed` only. -/
theorem fresh_after_disconnect_iff {es es1 es2 : List (Event κ)} {s s1 : RedisClientImpl κ}
    {endpoint : Endpoint} {handler : κ} (hreach : run es .new = some s) (hfailed : Failed s.socket)
    (hes1 : ∀ e ∈ es1, AllIn Mild e) (hes2 : ∀ e ∈ es2, AllIn Mild e)
    (hdown : run (.user (.call .disconnect .returns .returns) :: es1) s = some s1)
    (hup : run (.user (.call (.connect endpoint handler) .returns .returns) :: es2) s1 = some c)
    (hsettled : Settled handler c) :
    Clean c ∧ Serves c ↔
      s.strand.filterMap posted? = [] ∧ s.dataQueued = [] ∧ s.singleShotMsgHandlers = [] ∧
        (endpoint = .tcp ∧ s1.state = .closed ∨ Idle s.redisParser) := by
  have h := settled_down hfailed hes1 hes2 hdown hup hsettled
  have hhandlers : c.handlers = postedHandlers s.strand := by
    have hc : c.handlers ++ postedHandlers c.strand = postedHandlers s.strand := h.handlers
    rw [show postedHandlers c.strand = [] from congrArg (List.map Prod.snd) hsettled.strand,
      List.append_nil] at hc
    exact hc
  have hparser : c.redisParser = parserAfter endpoint s1.state s.redisParser := h.redisParser
  constructor
  · rintro ⟨hclean, -⟩
    have hnone : postedHandlers s.strand = [] := hhandlers.symm.trans hclean.handlers
    refine ⟨List.map_eq_nil_iff.mp hnone, ?_, ?_, ?_⟩
    · exact (h.dataQueued hnone).symm.trans hclean.dataQueued
    · exact h.singleShotMsgHandlers.symm.trans hclean.singleShotMsgHandlers
    · exact idle_parserAfter.mp (hparser ▸ hclean.redisParser)
  · rintro ⟨hposted, hqueued, hsingle, hidle⟩
    have hnone : postedHandlers s.strand = [] := congrArg (List.map Prod.snd) hposted
    -- no write is left, so none is in flight
    have hdata : c.dataWrited = [] := by
      by_contra hne
      have hflight : Flight c :=
        keeps_flight.run (fun e _ => allIn_true e) hup (keeps_flight.run
          (fun e _ => allIn_true e) hdown (flight_run hreach))
      rcases hflight.inFlight hne with hw | hw
      · exact hw (h.writes hnone)
      · exact hw hsettled.writesDone
    have hclean : Clean c := by
      refine ⟨hhandlers.trans hnone, (h.dataQueued hnone).trans hqueued, hdata, h.msgHandlers,
        h.singleShotMsgHandlers.trans hsingle, ?_⟩
      rw [hparser]
      exact idle_parserAfter.mpr hidle
    refine ⟨hclean, serves_of_ready handler fun peer sent taken hlink => ?_⟩
    refine ⟨h.broken, hsettled.strand, ?_, hclean.redisParser, hclean.handlers, hdata,
      hclean.dataQueued⟩
    exact socket_settled h hsettled hnone hlink

/-! ### Two reconnects -/

/-- A client is connected to a server that answers `+PONG`, issues a command, and receives a part of
the reply. -/
def halfReply : List (Event ℕ) :=
  dial (pong.peer ()) ++ [.connectDone [],
    .user (.call (.command [65] [] (some 1)) .returns .returns), .posted [], .send 99,
    .writeDone [], .receive 2, .readDone []]

/-- It issues two commands, the second while the first is being written. -/
def twoCommands : List (Event ℕ) :=
  dial (pong.peer ()) ++ [.connectDone [],
    .user (.call (.command [65] [] (some 1)) .returns .returns), .posted [],
    .user (.call (.command [66] [] (some 2)) .returns .returns), .posted []]

/-- It is disconnected. -/
def hangUp : Event ℕ := .user (.call .disconnect .returns .returns)

/-- It is connected again. -/
def redial : Event ℕ := .user (.call (.connect .tcp 9) .returns .returns)

/-- Three runs, checked by evaluation. -/
theorem three_runs (es es1 es2 : List (Event ℕ))
    (P : RedisClientImpl ℕ → RedisClientImpl ℕ → RedisClientImpl ℕ → Prop)
    [∀ s s1 c, Decidable (P s s1 c)]
    (h : ((run es .new).bind fun s => (run es1 s).bind fun s1 =>
      (run es2 s1).map fun c => decide (P s s1 c)) = some true) :
    ∃ s s1 c, run es .new = some s ∧ run es1 s = some s1 ∧ run es2 s1 = some c ∧ P s s1 c := by
  obtain ⟨s, hs, h⟩ := Option.bind_eq_some_iff.mp h
  obtain ⟨s1, hs1, h⟩ := Option.bind_eq_some_iff.mp h
  obtain ⟨c, hc, h⟩ := Option.map_eq_some_iff.mp h
  exact ⟨s, s1, c, hs, hs1, hc, of_decide_eq_true h⟩

theorem fresh_after_disconnect_tcp : ∃ s s1 c, run halfReply .new = some s ∧
    run [hangUp, .readDone []] s = some s1 ∧ run [redial, .connectOk (pong.peer ())] s1 = some c ∧
    Clean c ∧ Serves c := by
  obtain ⟨s, s1, c, hs, hs1, hc, hfailed, hsettled, hcond⟩ := three_runs halfReply
    [hangUp, .readDone []] [redial, .connectOk (pong.peer ())]
    (fun s s1 c => Failed s.socket ∧ Settled 9 c ∧
      s.strand.filterMap posted? = [] ∧ s.dataQueued = [] ∧ s.singleShotMsgHandlers = [] ∧
        s1.state = .closed) (by decide +kernel)
  obtain ⟨h1, h2, h3, h4⟩ := hcond
  exact ⟨s, s1, c, hs, hs1, hc, (fresh_after_disconnect_iff hs hfailed (by decide) (by decide) hs1 hc
    hsettled).mpr ⟨h1, h2, h3, .inl ⟨rfl, h4⟩⟩⟩

/-- **A disconnect leaves a command** that was queued behind a write. It is sent on the new
connection, before the first command issued there. -/
theorem disconnect_leaves_command : ∃ s s1 c, run twoCommands .new = some s ∧
    run [hangUp, .readDone [], .writeDone []] s = some s1 ∧
    run [redial, .connectOk (pong.peer ())] s1 = some c ∧
    Failed s.socket ∧ Settled 9 c ∧ ¬ Clean c ∧
    (run [.connectDone [.call (.command [67] [] (some 3)) .returns .returns], .posted [], .send 99]
      c).map sentOn = some (makeCommand [.string [66]] ++ makeCommand [.string [67]]) := by
  obtain ⟨s, s1, c, hs, hs1, hc, hfailed, hsettled, hqueued, hsent⟩ := three_runs twoCommands
    [hangUp, .readDone [], .writeDone []] [redial, .connectOk (pong.peer ())]
    (fun s _ c => Failed s.socket ∧ Settled 9 c ∧ c.dataQueued = [makeCommand [.string [66]]] ∧
      (run [.connectDone [.call (.command [67] [] (some 3)) .returns .returns], .posted [],
        .send 99] c).map sentOn = some (makeCommand [.string [66]] ++ makeCommand [.string [67]]))
    (by decide +kernel)
  refine ⟨s, s1, c, hs, hs1, hc, hfailed, hsettled, fun hclean => ?_, hsent⟩
  have hnone := hclean.dataQueued
  rw [hqueued] at hnone
  cases hnone

end RedisClient.Async.Reconnect

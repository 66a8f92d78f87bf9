import RedisClient.Async.Progress
import RedisClient.Async.Subscribing
import RedisClient.Async.Turns

/-! # Replies and faults

A connection used through `command` and `publish` only, whose user's code may throw anywhere, out of
the handler of a reply too, and on which reads may fail. After such a fault no reply is delivered any
more. But those that have been are the right ones: the handlers called are those of the first commands
issued, in order and each with its own reply, and nothing undefined happens (`replies_never_stray`). -/

namespace RedisClient.Async.Faults

open RedisClient.Value RedisClient.Parser.Defs RedisClient.Parser.RoundTrip RedisClient.Parser.Values
open RedisClient.Commands RedisClient.Peers RedisClient.Async.Asio RedisClient.Async.Defs
open RedisClient.Async.Rules RedisClient.Async.Trace RedisClient.Async.Session
open RedisClient.Async.Moments RedisClient.Async.Stream RedisClient.Async.Runs
open RedisClient.Async.OwnReplies RedisClient.Async.Reconnect RedisClient.Async.Unsubscribing
open RedisClient.Async.Wire RedisClient.Async.Progress RedisClient.Async.Turns
open RedisClient.Async.Subscribing (dial_run)
open RedisClient.Sync.Defs (ErrorCode ClientState)

variable {κ σ : Type} {c c' : RedisClientImpl κ} {cbs : Callbacks κ}

/-! ### What a read leaves as it is -/

/-- The connection, and the commands that are sent and queued. -/
structure Holds (c : RedisClientImpl κ) (t : List (Action κ)) (c' : RedisClientImpl κ) : Prop where
  broken : c'.broken = c.broken
  state : c'.state = .connected
  link : c'.socket.link = c.socket.link
  connects : c'.socket.connects = c.socket.connects
  connectsDone : c'.socket.connectsDone = c.socket.connectsDone
  outgoing : outgoing c' = outgoing c
  ordered : ordered t = []

/-- What is carried. -/
def KeepsHold (c : RedisClientImpl κ) (ms : List (Moment κ)) (c' : RedisClientImpl κ) : Prop :=
  c.state = .connected → Holds c (ms.map Moment.action) c'

theorem carriesCalls_holds : CarriesCalls (κ := κ) (Recorded IsCommand) KeepsHold := by
  refine carriesCalls_of_scripted (fun c hc => ⟨rfl, hc, rfl, rfl, rfl, rfl, rfl⟩) ?_ ?_
  · intro ms ms' c c1 c' h h' hc
    have h1 := h hc
    have h2 := h' h1.state
    refine ⟨h2.broken.trans h1.broken, h2.state, h2.link.trans h1.link, h2.connects.trans h1.connects,
      h2.connectsDone.trans h1.connectsDone, h2.outgoing.trans h1.outgoing, ?_⟩
    rw [List.map_append, ordered_append, h1.ordered, h2.ordered, List.append_nil]
  · rintro ⟨c, a, s⟩ hm hrec hc
    cases a with
    | call state call =>
      obtain ⟨strand, hb⟩ := body_command (c := c.log (.call state call)) hrec.2 hc
      show Holds c [.call state call] (call.body (c.log (.call state call))).2.2
      rw [hb]
      exact ⟨rfl, hc, rfl, rfl, rfl, rfl, rfl⟩
    | returned | connect | error => exact ⟨rfl, hc, rfl, rfl, rfl, rfl, rfl⟩
    | _ => exact hm.elim

theorem carriesInput_holds : CarriesInput (κ := κ) (Recorded IsCommand) KeepsHold where
  toCarriesCalls := carriesCalls_holds
  processed _ hc := ⟨rfl, hc, rfl, rfl, rfl, rfl, rfl⟩
  front v cbs _ hQ := carriesCalls_holds.callFront (fun _ hc => ⟨rfl, hc, rfl, rfl, rfl, rfl, rfl⟩)
    (fun _ hc => ⟨rfl, hc, rfl, rfl, rfl, rfl, rfl⟩) hQ
  postSingleShot channel msg c hc := by
    obtain ⟨ms, ss, hp⟩ := postSingleShot_posts channel msg c
    rw [hp]
    exact ⟨rfl, hc, rfl, rfl, rfl, rfl, rfl⟩
  postMessages channel msg c hc := by
    obtain ⟨ms, hp⟩ := postMessages_posts channel msg c
    rw [hp]
    exact ⟨rfl, hc, rfl, rfl, rfl, rfl, rfl⟩
  redisParser _ _ hc := ⟨rfl, hc, rfl, rfl, rfl, rfl, rfl⟩
  read c hc := by
    refine ⟨rfl, hc, Socket.asyncReadSome_link _, Socket.asyncReadSome_connects _,
      Socket.asyncReadSome_connectsDone _, ?_, rfl⟩
    unfold outgoing
    rw [sentOn_link (c := c) (Socket.asyncReadSome_link _)]
    exact congrArg (sentOn c ++ List.flatten · ++ c.dataQueued.flatten)
      (Socket.asyncReadSome_writes c.socket)

/-! ### What the other events do -/

/-- No reply is delivered, and what `doAsyncCommand` is called with is queued. -/
structure Passes (t : List (Action κ)) (c c' : RedisClientImpl κ) : Prop where
  trace : c'.trace = c.trace ++ t
  broken : c'.broken = c.broken
  state : c'.state = c.state
  peer : ∀ peer sent taken, c.socket.link = .linked peer sent taken →
    ∃ sent' taken', c'.socket.link = .linked peer sent' taken'
  connects : c'.socket.connects = c.socket.connects
  connectsDone : c'.socket.connectsDone = c.socket.connectsDone
  replies : replies t = []
  processed : processed t = []
  handlers : c'.handlers = c.handlers ++ (ordered t).map Prod.snd
  outgoing : outgoing c' = outgoing c ++ ((ordered t).map Prod.fst).flatten
  deaf : c.socket.reads = 0 → c.socket.readsDone = [] →
    c'.socket.reads = 0 ∧ c'.socket.readsDone = []

theorem Passes.trans {t u : List (Action κ)} {c1 : RedisClientImpl κ} (h : Passes t c c1)
    (h' : Passes u c1 c') : Passes (t ++ u) c c' := by
  refine ⟨?_, h'.broken.trans h.broken, h'.state.trans h.state, fun peer sent taken hl => ?_,
    h'.connects.trans h.connects, h'.connectsDone.trans h.connectsDone, ?_, ?_, ?_, ?_,
    fun hr hd => ?_⟩
  · rw [h'.trace, h.trace, List.append_assoc]
  · obtain ⟨sent', taken', hl'⟩ := h.peer peer sent taken hl
    exact h'.peer peer sent' taken' hl'
  · rw [replies_append, h.replies, h'.replies, List.append_nil]
  · rw [processed_append, h.processed, h'.processed, List.append_nil]
  · rw [h'.handlers, h.handlers, ordered_append, List.map_append, List.append_assoc]
  · rw [h'.outgoing, h.outgoing, ordered_append, List.map_append, List.flatten_append,
      List.append_assoc]
  · obtain ⟨hr', hd'⟩ := h.deaf hr hd
    exact h'.deaf hr' hd'

/-- Nothing happens but in the trace, on the strand and to the results of writes. -/
theorem Passes.still {t : List (Action κ)} {writesDone : List ErrorCode}
    (htrace : c'.trace = c.trace ++ t) (ht : Still t) (hbroken : c'.broken = c.broken)
    (hstate : c'.state = c.state)
    (hhandlers : c'.handlers = c.handlers) (hqueued : c'.dataQueued = c.dataQueued)
    (hsocket : c'.socket = { c.socket with writesDone := writesDone }) : Passes t c c' := by
  have hlink : c'.socket.link = c.socket.link := by rw [hsocket]
  have hwrites : c'.socket.writes = c.socket.writes := by rw [hsocket]
  refine ⟨htrace, hbroken, hstate, fun peer sent taken hl => ⟨sent, taken, hlink.trans hl⟩,
    by rw [hsocket], by rw [hsocket], ht.replies, ht.processed, ?_, ?_, fun hr hd => ?_⟩
  · rw [hhandlers, ht.ordered, List.map_nil, List.append_nil]
  · unfold Unsubscribing.outgoing
    rw [sentOn_link hlink, hwrites, hqueued, ht.ordered]
    simp
  · rw [hsocket]
    exact ⟨hr, hd⟩

theorem callback_passes (hcbs : AllOf IsCommand cbs) (hc : c.state = .connected) :
    (callback cbs c).1 ≠ .undefined ∧ ∃ t, Passes t c (callback cbs c).2.2 := by
  obtain ⟨e, cbs', t, strand, hcall, he, -, hstill⟩ := callback_issues hcbs hc
  rw [hcall]
  exact ⟨he, t, .still rfl hstill rfl rfl rfl rfl rfl⟩

theorem asyncWrite_passes (ec : ErrorCode) {peer : Peer} {sent : Bytes} {taken : ℕ}
    (hcbs : AllOf IsCommand cbs) (hc : c.state = .connected)
    (hl : c.socket.link = .linked peer sent taken) :
    (asyncWrite ec cbs c).1 ≠ .undefined ∧ ∃ t, Passes t c (asyncWrite ec cbs c).2.2 := by
  have hclear : Passes [] c { c with dataWrited := [] } :=
    .still (List.append_nil _).symm .nil rfl rfl rfl rfl rfl
  unfold asyncWrite
  dsimp only
  split_ifs
  · have hlog : Passes [.error (.message ec)] { c with dataWrited := [] }
        ({ c with dataWrited := [] }.log (.error (.message ec))) :=
      .still rfl ⟨rfl, rfl, rfl⟩ rfl rfl rfl rfl rfl
    obtain ⟨he, t, ht⟩ :=
      callback_passes (c := { c with dataWrited := [] }.log (.error (.message ec))) hcbs hc
    exact ⟨he, _, (hclear.trans hlog).trans ht⟩
  · refine ⟨returns_ne_undefined, [.asyncWrite c.dataQueued.flatten], ?_⟩
    have hsock := Socket.asyncWrite_linked c.dataQueued.flatten hl
    refine ⟨rfl, rfl, rfl, fun peer' sent' taken' hl' => ⟨sent', taken', ?_⟩, ?_, ?_, rfl, rfl,
      (List.append_nil _).symm, ?_, fun hr hd => ⟨?_, ?_⟩⟩
    · exact (Socket.asyncWrite_link _ _).trans hl'
    · exact Socket.asyncWrite_connects _ _
    · exact Socket.asyncWrite_connectsDone _ _
    · unfold outgoing sentOn
      simp only [RedisClientImpl.log, hsock, hl]
      simp [ordered, ordered?]
    · exact (Socket.asyncWrite_reads _ _).trans hr
    · exact (Socket.asyncWrite_readsDone _ _).trans hd
  · exact ⟨returns_ne_undefined, [], hclear⟩

theorem runPosted_passes {f : Posted κ} {strand : List (Posted κ)} {peer : Peer} {sent : Bytes}
    {taken : ℕ} (hcbs : AllOf IsCommand cbs) (hc : c.state = .connected)
    (hl : c.socket.link = .linked peer sent taken) :
    (runPosted f cbs { c with strand := strand }).1 ≠ .undefined ∧
      ∃ t, Passes t c (runPosted f cbs { c with strand := strand }).2.2 := by
  cases f with
  | message msgHandler msg =>
    have hlog : Passes [.message msgHandler msg] c
        ({ c with strand := strand }.log (.message msgHandler msg)) :=
      .still rfl ⟨rfl, rfl, rfl⟩ rfl rfl rfl rfl rfl
    obtain ⟨he, t, ht⟩ :=
      callback_passes (c := { c with strand := strand }.log (.message msgHandler msg)) hcbs hc
    exact ⟨he, _, hlog.trans ht⟩
  | doAsyncCommand buff handler =>
    have hqueue : Passes [.doAsyncCommand buff handler] c
        { { c with strand := strand }.log (.doAsyncCommand buff handler) with
          handlers := c.handlers ++ [handler], dataQueued := c.dataQueued ++ [buff] } := by
      refine ⟨rfl, rfl, rfl, fun peer sent taken hl => ⟨sent, taken, hl⟩, rfl, rfl, rfl, rfl, rfl, ?_,
        fun hr hd => ⟨hr, hd⟩⟩
      show sentOn c ++ c.socket.writes.flatten ++ (c.dataQueued ++ [buff]).flatten = _
      simp [outgoing, ordered, ordered?]
    show (doAsyncCommand buff handler cbs { c with strand := strand }).1 ≠ .undefined ∧
      ∃ t, Passes t c (doAsyncCommand buff handler cbs { c with strand := strand }).2.2
    unfold doAsyncCommand
    dsimp only
    split_ifs
    · obtain ⟨he, t, ht⟩ := asyncWrite_passes none (c := { { c with strand := strand }.log
        (.doAsyncCommand buff handler) with
          handlers := c.handlers ++ [handler], dataQueued := c.dataQueued ++ [buff] }) hcbs hc hl
      exact ⟨he, _, hqueue.trans ht⟩
    · exact ⟨returns_ne_undefined, _, hqueue⟩

/-! ### The commands and their replies -/

/-- The handlers that wait for a reply or have had it, since the `n`-th entry of the trace. -/
def handlersOf (n : ℕ) (c : RedisClientImpl κ) : List (Option κ) :=
  (ordered (c.trace.drop n)).map Prod.snd

/-- The bytes of their commands. -/
def bytesOf (n : ℕ) (c : RedisClientImpl κ) : Bytes :=
  ((ordered (c.trace.drop n)).map Prod.fst).flatten

/-- What the server replies to them. -/
def owed (srv : Server σ) (s0 : σ) (n : ℕ) (c : RedisClientImpl κ) : List RedisValue :=
  (srv.answers s0 (commandsIn (bytesOf n c))).map Reply.value

variable {srv : Server σ} {s0 : σ} {n : ℕ}

theorem owed_grows {a b : Bytes} (h : a <+: b) :
    (srv.answers s0 (commandsIn a)).map Reply.value <+:
      (srv.answers s0 (commandsIn b)).map Reply.value := by
  obtain ⟨u, rfl⟩ := h
  obtain ⟨cs, hcs⟩ := commandsIn_prefix a u
  rw [← hcs, Server.answers_append, List.map_append]
  exact List.prefix_append _ _

/-- The server reads the commands that have been issued. -/
theorem commandsIn_orders {qs : List (List RedisBuffer × Option κ)} (h : ∀ q ∈ qs, Fits q.1) :
    commandsIn ((qs.map order).map Prod.fst).flatten = qs.map fun q => q.1.map RedisBuffer.data := by
  obtain ⟨cs, hcs⟩ : ∃ cs : List Command, cs.map Command.items = qs.map Prod.fst := by
    induction qs with
    | nil => exact ⟨[], rfl⟩
    | cons q qs ih =>
      obtain ⟨cs, hcs⟩ := ih fun q' hq' => h q' (List.mem_cons_of_mem q hq')
      exact ⟨⟨q.1, h q List.mem_cons_self⟩ :: cs, congrArg (q.1 :: ·) hcs⟩
  have hbytes : ((qs.map order).map Prod.fst).flatten = encs cs := by
    have h1 := congrArg (List.map makeCommand) hcs
    rw [List.map_map, List.map_map] at h1
    rw [List.map_map]
    exact congrArg List.flatten h1.symm
  have hcontents := congrArg (List.map (List.map RedisBuffer.data)) hcs
  rw [List.map_map, List.map_map] at hcontents
  rw [hbytes, commandsIn_encs]
  exact hcontents

/-! ### The invariant -/

/-- **A connection on which replies do not stray**: its handlers have been called with the first of the
values that the server owes them; it listens, and the other handlers are in the queue, or no read will
be done any more. -/
structure Attends (srv : Server σ) (s0 : σ) (n : ℕ) (c : RedisClientImpl κ) : Prop
    extends Dealt (handlersOf n c) n c where
  broken : c.broken = false
  state : c.state = .connected
  peer : ∃ sent taken, c.socket.link = .linked (srv.peer s0) sent taken
  connects : c.socket.connects = []
  connectsDone : c.socket.connectsDone = []
  sent : (issued (c.trace.drop n)).map order =
    ordered (c.trace.drop n) ++ c.strand.filterMap posted?
  fits : ∀ q ∈ issued (c.trace.drop n), Fits q.1
  bytes : outgoing c = bytesOf n c
  among : values n c <+: owed srv s0 n c
  reading : Listens 0 n c ∧ c.handlers = (handlersOf n c).drop (values n c).length ∨
    c.socket.reads = 0 ∧ c.socket.readsDone = []

/-- The commands that have been run are the first ones issued. -/
theorem Attends.ordered_eq (h : Attends srv s0 n c) : ordered (c.trace.drop n) =
    ((issued (c.trace.drop n)).take (ordered (c.trace.drop n)).length).map order := by
  rw [List.map_take, h.sent, List.take_left]

theorem Attends.commands (h : Attends srv s0 n c) : commandsIn (bytesOf n c) =
    ((issued (c.trace.drop n)).take (ordered (c.trace.drop n)).length).map
      fun q => q.1.map RedisBuffer.data := by
  have hfits : ∀ q ∈ (issued (c.trace.drop n)).take (ordered (c.trace.drop n)).length, Fits q.1 :=
    fun q hq => h.fits q (List.mem_of_mem_take hq)
  have hread := commandsIn_orders hfits
  rw [← h.ordered_eq] at hread
  exact hread

/-- There is a reply for each handler. -/
theorem Attends.owed_length (h : Attends srv s0 n c) :
    (owed srv s0 n c).length = (handlersOf n c).length := by
  have hlen := congrArg List.length h.ordered_eq
  rw [List.length_map] at hlen
  unfold owed handlersOf
  rw [List.length_map, Server.length_answers, h.commands, List.length_map, List.length_map]
  exact hlen.symm

theorem Attends.values_le (h : Attends srv s0 n c) :
    (values n c).length ≤ (handlersOf n c).length := by
  rw [← h.owed_length]
  exact h.among.length_le

/-- What has been received are values that the server owes. -/
theorem Attends.receives (h : Attends srv s0 n c) :
    wholeValues (received 0 c) <+: owed srv s0 n c := by
  obtain ⟨sent, taken, hl⟩ := h.peer
  have hsent : sent <+: bytesOf n c := by
    rw [← h.bytes]
    unfold outgoing sentOn
    rw [hl, List.append_assoc]
    exact List.prefix_append _ _
  have hreceived : received 0 c <+: Server.text (srv.answers s0 (commandsIn sent)) := by
    unfold received
    rw [hl]
    dsimp only
    rw [List.drop_zero]
    exact List.take_prefix _ _
  obtain ⟨u, hu⟩ := hreceived
  have hvalues := valuesFrom_prefix .fresh (received 0 c) u
  rw [hu] at hvalues
  have hall : valuesFrom fresh (Server.text (srv.answers s0 (commandsIn sent))) =
      (srv.answers s0 (commandsIn sent)).map Reply.value := wholeValues_replies _
  rw [hall] at hvalues
  exact hvalues.trans (owed_grows hsent)

/-! ### Steps and runs -/

/-- The user's code in the event only issues commands, and it is not the failure of a write. -/
def Sends : Event κ → Prop
  | .writeFail _ => False
  | e => AllIn IsCommand e

instance : (e : Event κ) → Decidable (Sends e)
  | .writeFail _ => isFalse id
  | .user s => decidableAll IsCommand s
  | .posted cbs | .readDone cbs | .writeDone cbs | .connectDone cbs =>
    inferInstanceAs (Decidable (AllOf IsCommand cbs))
  | .receive _ | .readFail _ | .send _ | .connectOk _ | .connectFail _ => isTrue trivial

theorem Sends.allIn {e : Event κ} (h : Sends e) : AllIn IsCommand e := by
  cases e with
  | writeFail => trivial
  | _ => exact h

/-- A command that is issued is posted, and one that is run has been posted. -/
theorem step_sent {e : Event κ} (he : AllIn IsCommand e) (hlong : n ≤ c.trace.length)
    (hsent : (issued (c.trace.drop n)).map order =
      ordered (c.trace.drop n) ++ c.strand.filterMap posted?)
    (hfits : ∀ q ∈ issued (c.trace.drop n), Fits q.1) (hstep : step e c = some c') :
    (issued (c'.trace.drop n)).map order =
      ordered (c'.trace.drop n) ++ c'.strand.filterMap posted? ∧
      ∀ q ∈ issued (c'.trace.drop n), Fits q.1 := by
  have htrace : c'.trace = c.trace ++ (stepMoments e c).map Moment.action :=
    carries_trace.events.step (fun _ _ => trivial) hstep
  have hposts : Posts c (stepMoments e c) c' :=
    carries_posts.events.step (stepMoments_recorded (allIn_true e) c) hstep
  have hrec := stepMoments_recorded he c
  have hd : c'.trace.drop n = c.trace.drop n ++ (stepMoments e c).map Moment.action := by
    rw [htrace, List.drop_append_of_le_length hlong]
  rw [hd]
  constructor
  · unfold Posts at hposts
    rw [issued_append, List.map_append, hsent, List.append_assoc, hposts, ordered_append,
      List.append_assoc]
  · intro q hq
    rw [issued_append] at hq
    rcases List.mem_append.mp hq with hq | hq
    · exact hfits q hq
    · obtain ⟨a, ha, hi⟩ := List.mem_filterMap.mp hq
      obtain ⟨m, hm, rfl⟩ := List.mem_map.mp ha
      have hcall := hrec m hm
      unfold Recorded at hcall
      rcases m with ⟨d, a, s⟩
      cases a with
      | call state call =>
        dsimp only at hcall hi
        have hok := hcall.2
        cases call with
        | command | publish =>
          unfold issued? at hi
          dsimp only at hi
          split_ifs at hi
          cases hi
          exact hok
        | _ => exact hok.elim
      | _ => cases hi

/-- An event that delivers no reply. -/
theorem Attends.pass {e : Event κ} {t : List (Action κ)} (h : Attends srv s0 n c)
    (he : AllIn IsCommand e) (hstep : step e c = some c') (hp : Passes t c c')
    (hlisten : Listens 0 n c → Listens 0 n c') : Attends srv s0 n c' := by
  obtain ⟨hsent, hfits⟩ := step_sent he h.long h.sent h.fits hstep
  obtain ⟨sent, taken, hl⟩ := h.peer
  have hd : c'.trace.drop n = c.trace.drop n ++ t := by
    rw [hp.trace, List.drop_append_of_le_length h.long]
  have hvalues : values n c' = values n c := by
    unfold values
    rw [hd, processed_append, hp.processed, List.append_nil]
  have hhandlers : handlersOf n c' = handlersOf n c ++ (ordered t).map Prod.snd := by
    unfold handlersOf
    rw [hd, ordered_append, List.map_append]
  have hbytes : bytesOf n c' = bytesOf n c ++ ((ordered t).map Prod.fst).flatten := by
    unfold bytesOf
    rw [hd, ordered_append, List.map_append, List.flatten_append]
  refine ⟨⟨?_, ?_⟩, hp.broken.trans h.broken, hp.state.trans h.state, hp.peer _ _ _ hl,
    hp.connects.trans h.connects, hp.connectsDone.trans h.connectsDone, hsent, hfits, ?_, ?_, ?_⟩
  · rw [hp.trace, List.length_append]
    have := h.long
    omega
  · rw [hd, replies_append, hp.replies, List.append_nil, h.replies, hvalues, hhandlers,
      zip_append_left h.values_le]
  · rw [hp.outgoing, h.bytes, hbytes]
  · rw [hvalues]
    refine h.among.trans (owed_grows ?_)
    rw [hbytes]
    exact List.prefix_append _ _
  · rcases h.reading with ⟨hlisten0, hqueue⟩ | ⟨hr, hdone⟩
    · refine Or.inl ⟨hlisten hlisten0, ?_⟩
      rw [hp.handlers, hqueue, hvalues, hhandlers, List.drop_append_of_le_length h.values_le]
    · exact Or.inr (hp.deaf hr hdone)

/-- The completion handler of a read. -/
theorem Attends.readDone {o : Outcome κ} {ec : ErrorCode} {size : ℕ}
    {readsDone : List (ErrorCode × ℕ)} (h : Attends srv s0 n c) (hcbs : AllOf IsCommand cbs)
    (hs : c.socket.readsDone = (ec, size) :: readsDone)
    (hstep : step (.readDone cbs) c = some o.client)
    (ho : asyncRead ec size cbs { c with socket := { c.socket with readsDone := readsDone } } =
      some o) : Attends srv s0 n o.client := by
  obtain ⟨hsent, hfits⟩ := step_sent (e := .readDone cbs) hcbs h.long h.sent h.fits hstep
  rcases h.reading with ⟨hlisten, hqueue⟩ | ⟨-, hdone⟩
  · have hturn : Turn (handlersOf n c) n c := ⟨h.toDealt, h.state, hqueue⟩
    have hbound : (wholeValues (received 0 c)).length ≤ (handlersOf n c).length := by
      rw [← h.owed_length]
      exact h.receives.length_le
    obtain ⟨hund, hrests⟩ := asyncRead_rests hturn hlisten hbound hs hcbs ho
    rw [client_eq hund] at hsent hfits ⊢
    -- nothing is run
    set ms := asyncReadMoments ec size cbs
      { c with socket := { c.socket with readsDone := readsDone } } with hms
    have hQ : ∀ m ∈ ms, Recorded IsCommand m := by
      have hrec := stepMoments_recorded (e := .readDone cbs) hcbs c
      simpa only [stepMoments, hs] using hrec
    have hholds : Holds { c with socket := { c.socket with readsDone := readsDone } }
        (ms.map Moment.action) o.2.2 := carriesInput_holds.reads.asyncRead hQ ho h.state
    have htrace : o.2.2.trace = c.trace ++ ms.map Moment.action :=
      carries_trace.reads.asyncRead (fun _ _ => trivial) ho
    have hordered : ordered (o.2.2.trace.drop n) = ordered (c.trace.drop n) := by
      rw [htrace, List.drop_append_of_le_length h.long, ordered_append, hholds.ordered,
        List.append_nil]
    have hhandlers : handlersOf n o.2.2 = handlersOf n c := by
      unfold handlersOf
      rw [hordered]
    have hbytes : bytesOf n o.2.2 = bytesOf n c := by
      unfold bytesOf
      rw [hordered]
    have howed : owed srv s0 n o.2.2 = owed srv s0 n c := by
      unfold owed
      rw [hbytes]
    have hreceived : received 0 o.2.2 = received 0 c := by
      unfold received
      rw [hholds.link]
    have hpeer : ∃ sent taken, o.2.2.socket.link = .linked (srv.peer s0) sent taken := by
      rw [hholds.link]
      exact h.peer
    have hconnects : o.2.2.socket.connects = [] := hholds.connects.trans h.connects
    have hconnectsDone : o.2.2.socket.connectsDone = [] := hholds.connectsDone.trans h.connectsDone
    refine ⟨?_, hholds.broken.trans h.broken, hholds.state, hpeer, hconnects, hconnectsDone, hsent,
      hfits, ?_, ?_, ?_⟩
    · rw [hhandlers]
      exact hrests.toDealt
    · rw [hbytes, ← h.bytes]
      exact hholds.outgoing
    · rw [howed]
      exact hrests.among.trans h.receives
    · rcases hrests.next with ⟨hturn', hhearing⟩ | hdeaf
      · refine Or.inl ⟨⟨decide_eq_true (Or.inl hholds.state), ?_, hconnects, hconnectsDone,
          hrests.long, ?_⟩, ?_⟩
        · rw [hholds.link]
          exact hlisten.linked
        · rw [hreceived]
          exact hhearing
        · rw [hhandlers]
          exact hturn'.handlers
      · exact Or.inr hdeaf
  · rw [hdone] at hs
    cases hs

theorem all_mono {ok ok' : Call κ → Prop} (hok : ∀ call, ok call → ok' call) {s : Script κ}
    (h : All ok s) : All ok' s := by
  induction s with
  | returns | throws => trivial
  | call call cb next ihcb ihnext => exact ⟨hok call h.1, ihcb h.2.1, ihnext h.2.2⟩

theorem isCommand_stays {call : Call κ} (h : IsCommand call) : Stays call := by
  cases call with
  | command | publish => trivial
  | _ => exact h.elim

/-- **A step.** -/
theorem step_attends {e : Event κ} (hsends : Sends e) (h : Attends srv s0 n c)
    (hstep : step e c = some c') : Attends srv s0 n c' := by
  have he := hsends.allIn
  obtain ⟨sent, taken, hl⟩ := h.peer
  have hstreams : (∀ cbs, e ≠ .readDone cbs) → Listens 0 n c → Listens 0 n c' := by
    intro hread hlisten
    refine listens_step ?_ hlisten hstep
    cases e with
    | readDone cbs => exact absurd rfl (hread cbs)
    | user s => exact all_mono (fun _ => isCommand_stays) he
    | posted | writeDone | connectDone =>
      exact fun s hs => all_mono (fun _ => isCommand_stays) (he s hs)
    | _ => trivial
  obtain ⟨-, hs⟩ := step_cases hstep
  cases hs with
  | user s =>
    obtain ⟨hstill, strand, hrun⟩ :=
      carriesCalls_issues.runScript s c (scriptMoments_recorded he c) h.state
    have ht : Passes ((scriptMoments s c).map Moment.action) c (runScript s c).2 := by
      rw [hrun]
      exact .still rfl hstill rfl rfl rfl rfl rfl
    exact h.pass he hstep ht (hstreams (by simp))
  | @posted cbs f strand hs =>
    have hpasses : (runPosted f cbs { c with strand := strand }).1 ≠ .undefined ∧
        ∃ t, Passes t c (runPosted f cbs { c with strand := strand }).2.2 :=
      runPosted_passes he h.state hl
    obtain ⟨hund, t, ht⟩ := hpasses
    rw [client_eq hund] at hstep hstreams ⊢
    exact h.pass he hstep ht (hstreams (by simp))
  | @writeDone cbs ec writesDone hs =>
    have hpop : Passes [] c { c with socket := { c.socket with writesDone := writesDone } } :=
      .still (List.append_nil _).symm .nil rfl rfl rfl rfl rfl
    obtain ⟨hund, t, ht⟩ := asyncWrite_passes ec
      (c := { c with socket := { c.socket with writesDone := writesDone } }) he h.state hl
    rw [client_eq hund] at hstep hstreams ⊢
    exact h.pass he hstep (hpop.trans ht) (hstreams (by simp))
  | readDone hs ho => exact h.readDone he hs hstep ho
  | @receive k data socket hs =>
    obtain ⟨reads, peer, sent, taken, hreads, hl', rfl⟩ := Socket.receive_cases hs
    refine h.pass he hstep (t := []) ⟨(List.append_nil _).symm, rfl, rfl,
      fun peer' sent' taken' hp => ⟨sent', taken' + data.length, ?_⟩, rfl, rfl, rfl, rfl,
      (List.append_nil _).symm, ?_,
      fun hr => ?_⟩ (hstreams (by simp))
    · rw [hl'] at hp
      cases hp
      rfl
    · unfold outgoing sentOn
      rw [hl']
      exact (List.append_nil _).symm
    · rw [hreads] at hr
      cases hr
  | readFail hs =>
    obtain ⟨reads, hreads, rfl⟩ := Socket.readFail_cases hs
    refine h.pass he hstep (t := []) ⟨(List.append_nil _).symm, rfl, rfl,
      fun _ sent' taken' hp => ⟨sent', taken', hp⟩, rfl, rfl, rfl, rfl, (List.append_nil _).symm,
      (List.append_nil _).symm, fun hr => ?_⟩ (hstreams (by simp))
    rw [hreads] at hr
    cases hr
  | send hs =>
    obtain ⟨sent', hl', hmoved⟩ := Socket.send_bytes hs hl
    obtain ⟨data, rest, _, _, _, -, -, writes, writesDone, -, rfl⟩ := Socket.send_cases hs
    refine h.pass he hstep (t := []) ⟨(List.append_nil _).symm, rfl, rfl,
      fun peer' sent0 taken0 hp => ⟨sent', taken, ?_⟩, rfl, rfl, rfl, rfl, (List.append_nil _).symm,
      ?_, fun hr hd => ⟨hr, hd⟩⟩ (hstreams (by simp))
    · rw [hl] at hp
      cases hp
      exact hl'
    · have hbytes : outgoing c = sent' ++ writes.flatten ++ c.dataQueued.flatten := by
        unfold outgoing sentOn
        rw [hl]
        exact congrArg (· ++ c.dataQueued.flatten) hmoved.symm
      rw [hbytes]
      unfold outgoing sentOn
      rw [hl']
      exact (List.append_nil _).symm
  | writeFail hs => exact hsends.elim
  | connectOk hs => exact absurd h.connects (Socket.connects_ne_nil (.inl ⟨_, hs⟩))
  | connectFail hs => exact absurd h.connects (Socket.connects_ne_nil (.inr ⟨_, hs⟩))
  | connectDone hs =>
    rw [h.connectsDone] at hs
    cases hs

/-- **A connection begins**, whatever the handler of the connect does. -/
theorem connectDone_attends {handler : κ} (hready : Ready (srv.peer s0) handler c)
    (hp : Reachable c.redisParser) (hcbs : AllOf IsCommand cbs)
    (hstep : step (.connectDone cbs) c = some c') : Attends srv s0 c.trace.length c' := by
  have hnone : c.trace.drop c.trace.length = [] := List.drop_length
  obtain ⟨hsent, hfits⟩ := step_sent (e := .connectDone cbs) hcbs (Nat.le_refl c.trace.length)
    (by rw [hnone, hready.strand]; rfl) (by rw [hnone]; exact nofun) hstep
  obtain ⟨-, hs⟩ := step_cases hstep
  cases hs with | @connectDone _ ec handler' connectsDone hs => ?_
  rw [hready.socket] at hs
  cases hs
  -- the client with which the handler is called, and the one that it leaves
  set d : RedisClientImpl κ := { c with socket := { c.socket with connectsDone := [] } } with hd
  set d1 := ({ d with state := .connected } : RedisClientImpl κ).log (.connect none handler) with hd1
  obtain ⟨e, cbs', t, strand, hcall, he, -, hstill⟩ := callback_issues (c := d1) hcbs rfl
  set d2 : RedisClientImpl κ := { d1 with strand := strand, trace := d1.trace ++ t } with hd2
  have htrace : d2.trace.drop c.trace.length = [.connect none handler] ++ t := by
    show (c.trace ++ [_] ++ t).drop _ = _
    rw [List.append_assoc, List.drop_left]
  have hstill' : Still ([.connect none handler] ++ t) := Still.append ⟨rfl, rfl, rfl⟩ hstill
  have hvalues : values c.trace.length d2 = [] := by
    unfold values
    rw [htrace, hstill'.processed]
    rfl
  have hsocket : d2.socket = ⟨.linked (srv.peer s0) [] 0, 0, [], [], [], [], []⟩ := by
    show { c.socket with connectsDone := [] } = _
    rw [hready.socket]
  have key : ∀ {x : RedisClientImpl κ} (reads : ℕ), x = { d2 with
      socket := ⟨.linked (srv.peer s0) [] 0, reads, [], [], [], [], []⟩ } →
      (issued (x.trace.drop c.trace.length)).map order =
        ordered (x.trace.drop c.trace.length) ++ x.strand.filterMap posted? →
      (∀ q ∈ issued (x.trace.drop c.trace.length), Fits q.1) →
      (Listens 0 c.trace.length x ∨ reads = 0) → Attends srv s0 c.trace.length x := by
    intro x reads hx hsent hfits hread
    have hordered : ordered (x.trace.drop c.trace.length) = [] := by
      rw [hx]
      exact (congrArg ordered htrace).trans hstill'.ordered
    have hvalues' : values c.trace.length x = [] := by
      rw [hx]
      exact hvalues
    subst hx
    refine ⟨⟨?_, ?_⟩, hready.broken, rfl, ⟨_, _, rfl⟩, rfl, rfl, hsent, hfits, ?_, ?_, ?_⟩
    · show _ ≤ (c.trace ++ [_] ++ t).length
      rw [List.append_assoc, List.length_append]
      exact Nat.le_add_right _ _
    · rw [hvalues', List.zip_nil_right]
      exact (congrArg replies htrace).trans hstill'.replies
    · unfold bytesOf
      rw [hordered]
      show [] ++ [] ++ c.dataQueued.flatten = _
      rw [hready.dataQueued]
      rfl
    · rw [hvalues']
      exact List.nil_prefix
    · rcases hread with hread | rfl
      · refine Or.inl ⟨hread, ?_⟩
        unfold handlersOf
        rw [hordered, List.map_nil, List.drop_nil]
        exact hready.handlers
      · exact Or.inr ⟨rfl, rfl⟩
  rcases handleAsyncConnect_cases handler cbs d with ⟨cbs1, c1, hcall1, hend⟩ | ⟨hne, hend⟩
  · obtain ⟨rfl, rfl, rfl⟩ : cbs1 = cbs' ∧ c1 = d2 ∧ e = .returns := by
      rw [hcall] at hcall1
      cases hcall1
      exact ⟨rfl, rfl, rfl⟩
    rw [hend] at hsent hfits ⊢
    have hlink : d2.socket.link = .linked (srv.peer s0) [] 0 := by rw [hsocket]
    have hnext : processMessage d2 = { d2 with
        socket := ⟨.linked (srv.peer s0) [] 0, 1, [], [], [], [], []⟩ } := by
      unfold processMessage
      rw [Socket.asyncReadSome_linked hlink, hsocket]
    have hlong : c.trace.length ≤ d2.trace.length := by
      show _ ≤ (c.trace ++ [_] ++ t).length
      rw [List.append_assoc, List.length_append]
      exact Nat.le_add_right _ _
    exact key 1 hnext hsent hfits (Or.inl (first_listens rfl hlink (by rw [hsocket]) (by rw [hsocket])
      (by rw [hsocket]) (by rw [hsocket]) hp hready.redisParser hlong hvalues))
  · rw [hend, hcall, client_eq he] at hsent hfits ⊢
    exact key 0 (by rw [← hsocket]) hsent hfits (Or.inr rfl)

/-- A prefix of two lists zipped. -/
theorem zip_grows {α β : Type} {a a' : List α} {b b' : List β} (ha : a <+: a') (hb : b <+: b')
    (hle : b.length ≤ a.length) : a.zip b <+: a'.zip b' := by
  obtain ⟨u, rfl⟩ := ha
  have hcut : (a ++ u).zip b = ((a ++ u).zip b').take b.length := by
    rw [← take_zip]
    exact congrArg _ (List.prefix_iff_eq_take.mp hb)
  rw [← zip_append_left hle, hcut]
  exact List.take_prefix _ _

/-- The replies are among those of the server to the commands issued. -/
theorem Attends.replies_le (h : Attends srv s0 n c) :
    replies (c.trace.drop n) <+: dialogue srv s0 (c.trace.drop n) := by
  have hhandlers : handlersOf n c <+: (issued (c.trace.drop n)).map Prod.snd := by
    have hpairs := congrArg (List.map Prod.snd) h.sent
    rw [List.map_map, List.map_append] at hpairs
    have hsame : (issued (c.trace.drop n)).map (Prod.snd ∘ order) =
        (issued (c.trace.drop n)).map Prod.snd := rfl
    rw [← hsame, hpairs]
    exact List.prefix_append _ _
  have howed : owed srv s0 n c <+: (srv.answers s0 ((issued (c.trace.drop n)).map
      fun q => q.1.map RedisBuffer.data)).map Reply.value := by
    unfold owed
    rw [h.commands, List.map_take]
    obtain ⟨u, hu⟩ := List.take_prefix (ordered (c.trace.drop n)).length
      ((issued (c.trace.drop n)).map fun q => q.1.map RedisBuffer.data)
    refine List.IsPrefix.map _ ?_
    nth_rewrite 2 [← hu]
    rw [Server.answers_append]
    exact List.prefix_append _ _
  rw [h.replies]
  exact zip_grows hhandlers (h.among.trans howed) h.values_le

/-- **Replies do not stray.** On a connection used through `command` and `publish` only, whatever the
user's code throws and whichever reads fail, the handlers called are those of the first commands
issued, in order, each with the reply to its own command and none twice, and nothing undefined has
happened. -/
theorem replies_never_stray (srv : Server σ) (s0 : σ) {handler : κ} {es0 es : List (Event κ)}
    (hrun0 : run es0 .new = some c) (hready : Ready (srv.peer s0) handler c)
    (hcbs : AllOf IsCommand cbs) (hes : ∀ e ∈ es, Sends e)
    (hrun : run (.connectDone cbs :: es) c = some c') :
    replies (c'.trace.drop c.trace.length) <+: dialogue srv s0 (c'.trace.drop c.trace.length) ∧
      c'.broken = false := by
  obtain ⟨c1, h1, h2⟩ := Option.bind_eq_some_iff.mp hrun
  have hbegin := connectDone_attends hready (parser_run hrun0) hcbs h1
  have h := run_events (fun _ _ _ he h h1 => step_attends he h h1) hes hbegin h2
  exact ⟨h.replies_le, h.broken⟩

/-- Two commands are issued. Their replies come in one read, and the handler of the first one throws
after it has issued a third command. -/
def throwing : List (Event ℕ) :=
  [.connectDone [.call (.command [65] [] (some 1)) .returns .returns], .posted [], .send 99,
    .writeDone [], .user (.call (.command [66] [] (some 2)) .returns .throws), .posted [], .send 99,
    .writeDone [], .receive 99,
    .readDone [.call (.publish [67] (.vector [0]) (some 3)) .returns .throws],
    .posted [], .send 99, .writeDone []]

/-- The reply that was read with the first one is not delivered, and neither is the third. -/
theorem replies_never_stray_throwing : ∃ c c', run (dial (pong.peer ())) .new = some c ∧
    run throwing c = some c' ∧
    replies (c'.trace.drop c.trace.length) = [(some 1, .bytes (chars "PONG") false)] ∧
    replies (c'.trace.drop c.trace.length) <+: dialogue pong () (c'.trace.drop c.trace.length) ∧
    c'.broken = false := by
  obtain ⟨c, hc, hready⟩ := ready_dial (pong.peer ())
  obtain ⟨c1, c', hc1, hc', hreplies⟩ := dial_run (pong.peer ()) throwing
    (fun k c' => replies (c'.trace.drop k) = [(some 1, .bytes (chars "PONG") false)])
    (by decide +kernel)
  rw [hc] at hc1
  cases hc1
  exact ⟨c, c', hc, hc', hreplies, replies_never_stray pong () hc hready (by decide) (by decide)
    hc'⟩

end RedisClient.Async.Faults

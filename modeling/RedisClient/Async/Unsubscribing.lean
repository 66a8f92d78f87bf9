import RedisClient.Async.Dialling
import RedisClient.Async.Roster
import RedisClient.Async.Subscribing

/-! # Unsubscribing one of several handlers

A connected client on which handlers are subscribed and unsubscribed. In every run without a failed
write, what the server has received is what has been issued, but for what is still posted, queued or
being written, and `msgHandlers` holds the handlers that the calls have registered and not removed
(`Enrolled`). So when all is sent, the server is subscribed for the handlers left exactly as
`alive_iff_released` says (`subscriptions_alive_iff`). -/

namespace RedisClient.Async.Unsubscribing

open RedisClient.Value RedisClient.Parser.Defs RedisClient.Parser.RoundTrip RedisClient.Commands
open RedisClient.Peers RedisClient.Async.Asio RedisClient.Async.Defs RedisClient.Async.Rules
open RedisClient.Async.Trace RedisClient.Async.Calls RedisClient.Async.Session
open RedisClient.Async.Moments RedisClient.Async.Runs RedisClient.Async.OwnReplies
open RedisClient.Async.Reconnect RedisClient.Async.Roster
open RedisClient.Async.Receive (posted?_messages)
open RedisClient.Async.Dialling (silent)
open RedisClient.Async.Subscribing (dial_run)
open RedisClient.Sync.Defs (ErrorCode ClientState SysError)

variable {κ : Type} {k n : ℕ} {c c' : RedisClientImpl κ}

/-! ### The invariant -/

/-- The bytes of the commands posted. -/
def postedBytes (strand : List (Posted κ)) : Bytes :=
  ((strand.filterMap posted?).map Prod.fst).flatten

@[simp] theorem postedBytes_append (fs gs : List (Posted κ)) :
    postedBytes (fs ++ gs) = postedBytes fs ++ postedBytes gs := by
  simp [postedBytes]

@[simp] theorem postedBytes_messages (ms : List (κ × Bytes)) :
    postedBytes (ms.map fun m => Posted.message m.1 m.2) = [] := by
  unfold postedBytes
  rw [posted?_messages]
  rfl

/-- The bytes on the connection, those being written, and those queued. -/
def outgoing (c : RedisClientImpl κ) : Bytes :=
  sentOn c ++ c.socket.writes.flatten ++ c.dataQueued.flatten

/-- The bytes of the commands issued since the `n`-th entry of the trace are on the way or posted, and
the handlers are those registered since then, the first with the number `k`. -/
structure Enrolled (k n : ℕ) (c : RedisClientImpl κ) : Prop where
  long : n ≤ c.trace.length
  connected : c.isConnected = true
  link : ∃ peer sent taken, c.socket.link = .linked peer sent taken
  connects : c.socket.connects = []
  connectsDone : c.socket.connectsDone = []
  bytes : outgoing c ++ postedBytes c.strand = commandBytes (c.trace.drop n)
  msgHandlers : c.msgHandlers = (roster k (changes (c.trace.drop n))).entries.map Prod.snd
  seq : c.subscribeSeq = (roster k (changes (c.trace.drop n))).seq

/-- A part of a step that issues nothing and moves no bytes between the places where they are. -/
theorem Enrolled.congr (h : Enrolled k n c) (htrace : c'.trace = c.trace)
    (hstate : c'.state = c.state) (hlink : c'.socket.link = c.socket.link)
    (hconnects : c'.socket.connects = c.socket.connects)
    (hconnectsDone : c'.socket.connectsDone = c.socket.connectsDone)
    (hwrites : c'.socket.writes = c.socket.writes) (hqueued : c'.dataQueued = c.dataQueued)
    (hposted : postedBytes c'.strand = postedBytes c.strand)
    (hm : c'.msgHandlers = c.msgHandlers) (hseq : c'.subscribeSeq = c.subscribeSeq) :
    Enrolled k n c' := by
  have hbytes : outgoing c' = outgoing c := by
    unfold outgoing sentOn
    rw [hlink, hwrites, hqueued]
  constructor
  · rw [htrace]
    exact h.long
  · rw [RedisClientImpl.isConnected, hstate]
    exact h.connected
  · rw [hlink]
    exact h.link
  · exact hconnects.trans h.connects
  · exact hconnectsDone.trans h.connectsDone
  · rw [hbytes, hposted, htrace]
    exact h.bytes
  · rw [hm, htrace]
    exact h.msgHandlers
  · rw [hseq, htrace]
    exact h.seq

/-- An entry that issues nothing. -/
theorem Enrolled.log {a : Action κ} (h : Enrolled k n c) (hi : issued? a = none)
    (hx : changes? a = none) : Enrolled k n (c.log a) := by
  have hd : (c.log a).trace.drop n = c.trace.drop n ++ [a] :=
    List.drop_append_of_le_length h.long
  have hi' : commandBytes ((c.log a).trace.drop n) = commandBytes (c.trace.drop n) := by
    unfold commandBytes
    rw [hd, issued_append, show issued [a] = [] by simp [issued, hi], List.append_nil]
  have hx' : changes ((c.log a).trace.drop n) = changes (c.trace.drop n) := by
    rw [hd, changes_append, show changes [a] = [] by simp [changes, hx], List.append_nil]
  refine { h with long := ?_, bytes := ?_, msgHandlers := ?_, seq := ?_ }
  · exact h.long.trans (log_trace c a).length_le
  · rw [hi']
    exact h.bytes
  · rw [hx']
    exact h.msgHandlers
  · rw [hx']
    exact h.seq

/-! ### The calls -/

/-- The entry is not a call of another kind. -/
def OnlySubscribers (m : Moment κ) : Prop := OfSubscriber m.action

/-- What is carried: the invariant is kept. -/
def Enrolls (k n : ℕ) (c : RedisClientImpl κ) (_ : List (Moment κ)) (c' : RedisClientImpl κ) :
    Prop := Enrolled k n c → Enrolled k n c'

theorem accepted_of_connected {call : Call κ} (hs : Subscriber call)
    (hc : c.isConnected = true) : accepted c.state call := by
  have hconn : c.state = .connected ∨ c.state = .subscribed := of_decide_eq_true hc
  cases call <;> first
    | exact decide_eq_true hconn
    | cases hs.1

/-- A call changes the handlers as the roster says, and posts its command. -/
theorem body_subscriber {call : Call κ} (hs : Subscriber call) (hc : c.isConnected = true)
    {r : Registry κ} (hm : c.msgHandlers = r.entries.map Prod.snd) (hseq : c.subscribeSeq = r.seq) :
    ∃ q x handle state, request call = some q ∧ change call = some x ∧
      (state = .connected ∨ state = .subscribed) ∧
      call.body c = (none, handle, { c with
        strand := c.strand ++ [.doAsyncCommand (makeCommand q.1) q.2]
        msgHandlers := (r.apply x).entries.map Prod.snd
        subscribeSeq := (r.apply x).seq
        state := state }) := by
  have hconn : c.state = .connected ∨ c.state = .subscribed := of_decide_eq_true hc
  cases call with
  | subscribe channel m handler | psubscribe channel m handler =>
    refine ⟨_, _, some ⟨c.subscribeSeq, channel⟩, .subscribed, rfl, rfl, Or.inr rfl, ?_⟩
    simp only [Call.body, subscribe, if_pos hconn]
    simp [RedisClientImpl.post, Registry.apply, hm, hseq]
  | unsubscribe handle | punsubscribe handle =>
    refine ⟨_, _, none, c.state, rfl, rfl, hconn, ?_⟩
    simp only [Call.body, unsubscribe, if_pos hconn]
    simp [RedisClientImpl.post, Registry.apply, hm, hseq, List.filter_map, Function.comp_def]
  | _ => cases hs.1

theorem call_enrolled {call : Call κ} {action : Option (Action κ)} {handle : Option Handle}
    (hs : Subscriber call) (hb : call.body (c.log (.call c.state call)) = (action, handle, c'))
    (h : Enrolled k n c) : action = none ∧ Enrolled k n c' := by
  have hd : (c.log (.call c.state call)).trace.drop n =
      c.trace.drop n ++ [.call c.state call] := List.drop_append_of_le_length h.long
  have hacc := accepted_of_connected hs h.connected
  obtain ⟨q, x, handle', state, hq, hx, hstate, hbody⟩ :=
    body_subscriber (c := c.log (.call c.state call)) hs h.connected h.msgHandlers h.seq
  rw [hbody] at hb
  cases hb
  have hissued : issued [Action.call c.state call] = [q] := by simp [issued, issued?, hacc, hq]
  have hchanges : changes [Action.call c.state call] = [x] := by
    simp [changes, changes?, hacc, hx]
  refine ⟨rfl, ?_, decide_eq_true hstate, h.link, h.connects, h.connectsDone, ?_, ?_, ?_⟩
  · exact h.long.trans (log_trace c _).length_le
  · have hbytes := h.bytes
    unfold commandBytes at hbytes ⊢
    show outgoing c ++ postedBytes (c.strand ++ [.doAsyncCommand (makeCommand q.1) q.2]) =
      ((issued ((c.log (.call c.state call)).trace.drop n)).map fun q => makeCommand q.1).flatten
    rw [hd, issued_append, hissued, postedBytes_append, ← List.append_assoc, hbytes]
    simp [postedBytes, posted?]
  · show _ = (roster k (changes ((c.log (.call c.state call)).trace.drop n))).entries.map Prod.snd
    rw [hd, changes_append, hchanges, roster_concat]
  · show _ = (roster k (changes ((c.log (.call c.state call)).trace.drop n))).seq
    rw [hd, changes_append, hchanges, roster_concat]

theorem carriesCalls_enrolls : CarriesCalls (κ := κ) OnlySubscribers (Enrolls k n) where
  nil _ := id
  append h h' := h' ∘ h
  entry a s c ha _ h := by
    cases a <;> first
      | exact ha.elim
      | exact h.log rfl rfl
  accepted hb hQ h := (call_enrolled hQ hb h).2
  refused s hb hQ _ h := by
    have hnone := (call_enrolled hQ hb h).1
    cases hnone

theorem carriesInput_enrolls : CarriesInput (κ := κ) OnlySubscribers (Enrolls k n) where
  toCarriesCalls := carriesCalls_enrolls
  processed _ h := h.log rfl rfl
  front v cbs _ hQ := carriesCalls_enrolls.callFront (fun _ h => h.log rfl rfl)
    (fun _ h => h.congr rfl rfl rfl rfl rfl rfl rfl rfl rfl rfl) hQ
  postSingleShot channel msg c h := by
    obtain ⟨ms, ss, hc⟩ := postSingleShot_posts channel msg c
    rw [hc]
    exact h.congr rfl rfl rfl rfl rfl rfl rfl (by simp) rfl rfl
  postMessages channel msg c h := by
    obtain ⟨ms, hc⟩ := postMessages_posts channel msg c
    rw [hc]
    exact h.congr rfl rfl rfl rfl rfl rfl rfl (by simp) rfl rfl
  redisParser _ c h := h.congr rfl rfl rfl rfl rfl rfl rfl rfl rfl rfl
  read c h := h.congr rfl rfl (Socket.asyncReadSome_link c.socket)
    (Socket.asyncReadSome_connects c.socket) (Socket.asyncReadSome_connectsDone c.socket)
    (Socket.asyncReadSome_writes c.socket) rfl rfl rfl rfl

/-! ### Writing -/

/-- A write takes what is queued. -/
theorem asyncWrite_enrolled {ec : ErrorCode} {cbs : Callbacks κ}
    (hQ : ∀ m ∈ asyncWriteMoments ec cbs c, OnlySubscribers m) (h : Enrolled k n c) :
    Enrolled k n (asyncWrite ec cbs c).2.2 := by
  have hclear : Enrolled k n { c with dataWrited := [] } :=
    h.congr rfl rfl rfl rfl rfl rfl rfl rfl rfl rfl
  unfold asyncWriteMoments asyncWrite at *
  dsimp only at hQ ⊢
  split_ifs at hQ ⊢ with hec hq
  · exact carriesCalls_enrolls.callErrorHandler hQ hclear
  · have hlog := hclear.log (a := .asyncWrite c.dataQueued.flatten) rfl rfl
    obtain ⟨peer, sent, taken, hl⟩ := hlog.link
    have hsock := Socket.asyncWrite_linked c.dataQueued.flatten hl
    change c.socket.asyncWrite c.dataQueued.flatten = _ at hsock
    refine { hlog with link := ?_, connects := ?_, connectsDone := ?_, bytes := ?_ }
    · exact ⟨peer, sent, taken, (Socket.asyncWrite_link _ _).trans hl⟩
    · exact (Socket.asyncWrite_connects _ _).trans h.connects
    · exact (Socket.asyncWrite_connectsDone _ _).trans h.connectsDone
    · refine Eq.trans ?_ hlog.bytes
      unfold outgoing sentOn
      simp only [RedisClientImpl.log, hsock]
      simp
  · exact hclear

/-- A posted command is run. -/
theorem doAsyncCommand_enrolled {buff : Bytes} {handler : Option κ} {cbs : Callbacks κ}
    {strand : List (Posted κ)}
    (hQ : ∀ m ∈ doAsyncCommandMoments buff handler cbs { c with strand := strand },
      OnlySubscribers m)
    (hs : c.strand = .doAsyncCommand buff handler :: strand) (h : Enrolled k n c) :
    Enrolled k n (doAsyncCommand buff handler cbs { c with strand := strand }).2.2 := by
  have hlog := h.log (a := .doAsyncCommand buff handler) rfl rfl
  have hqueue : Enrolled k n { c.log (.doAsyncCommand buff handler) with
      strand := strand
      handlers := c.handlers ++ [handler]
      dataQueued := c.dataQueued ++ [buff] } := by
    refine { hlog with bytes := ?_ }
    rw [← hlog.bytes]
    show sentOn c ++ c.socket.writes.flatten ++ (c.dataQueued ++ [buff]).flatten ++
      postedBytes strand = outgoing c ++ postedBytes c.strand
    rw [hs]
    simp [outgoing, postedBytes, posted?]
  unfold doAsyncCommandMoments doAsyncCommand at *
  dsimp only at hQ ⊢
  split_ifs at hQ ⊢ with hd
  · exact asyncWrite_enrolled (fun m hm => hQ m (List.mem_cons_of_mem _ hm)) hqueue
  · exact hqueue

/-! ### Steps and runs -/

theorem client_enrolled {o : Outcome κ} (h : Enrolled k n o.2.2) : Enrolled k n o.client := by
  rcases o with ⟨_ | _ | _, cbs, c⟩
  · exact h
  · exact h
  · exact h.congr rfl rfl rfl rfl rfl rfl rfl rfl rfl rfl

/-- **A step** in which no write fails. -/
theorem step_enrolled {e : Event κ} (hQ : ∀ m ∈ stepMoments e c, OnlySubscribers m)
    (he : ∀ err, e ≠ .writeFail err) (h : Enrolled k n c) (hstep : step e c = some c') :
    Enrolled k n c' := by
  obtain ⟨-, hs⟩ := step_cases hstep
  cases hs with
  | user s => exact carriesCalls_enrolls.runScript s c hQ h
  | @posted cbs f strand hs =>
    simp only [stepMoments, hs] at hQ
    refine client_enrolled ?_
    cases f with
    | doAsyncCommand buff handler => exact doAsyncCommand_enrolled hQ hs h
    | message msgHandler msg =>
      have hpop : Enrolled k n { c with strand := strand } :=
        h.congr rfl rfl rfl rfl rfl rfl rfl (by rw [hs]; rfl) rfl rfl
      exact carriesCalls_enrolls.afterEntry (fun m hm => hQ m (List.mem_cons_of_mem _ hm))
        (hpop.log rfl rfl)
  | receive hs =>
    obtain ⟨reads, peer, sent, taken, -, hl, rfl⟩ := Socket.receive_cases hs
    refine { h with
      link := ⟨_, _, _, rfl⟩, connects := h.connects, connectsDone := h.connectsDone, bytes := ?_ }
    refine Eq.trans ?_ h.bytes
    unfold outgoing sentOn
    rw [hl]
  | readFail hs =>
    obtain ⟨reads, -, rfl⟩ := Socket.readFail_cases hs
    exact h.congr rfl rfl rfl rfl rfl rfl rfl rfl rfl rfl
  | @readDone cbs ec size readsDone o hs ho =>
    simp only [stepMoments, hs] at hQ
    refine client_enrolled (carriesInput_enrolls.reads.asyncRead hQ ho ?_)
    exact h.congr rfl rfl rfl rfl rfl rfl rfl rfl rfl rfl
  | send hs =>
    obtain ⟨peer, sent, taken, hl⟩ := h.link
    obtain ⟨sent', hl', hbytes⟩ := Socket.send_bytes hs hl
    obtain ⟨data, rest, _, _, _, -, -, writes, writesDone, -, rfl⟩ := Socket.send_cases hs
    refine { h with
      link := ⟨_, _, _, hl'⟩, connects := h.connects, connectsDone := h.connectsDone, bytes := ?_ }
    refine Eq.trans ?_ h.bytes
    have hsent : outgoing c = sent ++ c.socket.writes.flatten ++ c.dataQueued.flatten := by
      unfold outgoing sentOn
      rw [hl]
    rw [hsent, ← hbytes]
    unfold outgoing sentOn
    rw [hl']
  | writeFail hs => exact absurd rfl (he _)
  | @writeDone cbs ec writesDone hs =>
    simp only [stepMoments, hs] at hQ
    refine client_enrolled (asyncWrite_enrolled hQ ?_)
    exact h.congr rfl rfl rfl rfl rfl rfl rfl rfl rfl rfl
  | connectOk hs => exact absurd h.connects (Socket.connects_ne_nil (.inl ⟨_, hs⟩))
  | connectFail hs => exact absurd h.connects (Socket.connects_ne_nil (.inr ⟨_, hs⟩))
  | connectDone hs =>
    rw [h.connectsDone] at hs
    cases hs

theorem run_enrolled {es : List (Event κ)} {c : RedisClientImpl κ}
    (hQ : ∀ m ∈ runMoments es c, OnlySubscribers m) (hes : ∀ err, .writeFail err ∉ es)
    (h : Enrolled k n c) (hrun : run es c = some c') : Enrolled k n c' := by
  refine run_invariant (P := fun es c =>
      (∀ m ∈ runMoments es c, OnlySubscribers m) ∧ ∀ err, .writeFail err ∉ es)
    (fun e es c c1 hP h h1 => ?_) ⟨hQ, hes⟩ h hrun
  obtain ⟨hQ1, hQ2⟩ := forall_runMoments h1 hP.1
  refine ⟨step_enrolled hQ1 (fun err herr => ?_) h h1, hQ2, fun err herr => ?_⟩
  · exact hP.2 err (by rw [← herr]; exact List.mem_cons_self)
  · exact hP.2 err (List.mem_cons_of_mem e herr)

/-- **A connection begins** on which nothing has been issued and no handler is registered. -/
theorem connectDone_enrolled {peer : Peer} {handler : κ} {cbs : Callbacks κ}
    (hready : Ready peer handler c) (hnew : c.msgHandlers = [])
    (hQ : ∀ m ∈ stepMoments (.connectDone cbs) c, OnlySubscribers m)
    (hstep : step (.connectDone cbs) c = some c') :
    Enrolled c.subscribeSeq c.trace.length c' := by
  obtain ⟨-, hs⟩ := step_cases hstep
  cases hs with | @connectDone _ ec handler' connectsDone hs => ?_
  have hs' := hs
  rw [hready.socket] at hs'
  cases hs'
  simp only [stepMoments, hs] at hQ
  have hnone : c.trace.drop c.trace.length = [] := List.drop_length
  have hbegin : Enrolled c.subscribeSeq c.trace.length { c with
      socket := { c.socket with connectsDone := [] }, state := .connected } := by
    constructor
    · exact Nat.le_refl _
    · rfl
    · exact ⟨peer, [], 0, by rw [hready.socket]⟩
    · rw [hready.socket]
    · rfl
    · show sentOn c ++ c.socket.writes.flatten ++ c.dataQueued.flatten ++ postedBytes c.strand = _
      unfold sentOn postedBytes commandBytes
      rw [hready.socket, hready.dataQueued, hready.strand, hnone]
      rfl
    · rw [hnone]
      exact hnew
    · rw [hnone]
      rfl
  have hlog := hbegin.log (a := .connect none handler) rfl rfl
  refine client_enrolled (carriesInput_enrolls.reads.handleAsyncConnect rfl (fun m hm => ?_) hlog)
  exact hQ m (List.mem_cons_of_mem _ hm)

/-- Every command that has been issued has been sent. -/
structure Flushed (c : RedisClientImpl κ) : Prop where
  strand : c.strand.filterMap posted? = []
  dataQueued : c.dataQueued = []
  writes : c.socket.writes = []

/-- **Unsubscribing leaves the other handlers their subscriptions**, when all is sent, if and only if
no last `unsubscribe` of a channel, and no last `punsubscribe` of a pattern, leaves a handler that is
registered for it. -/
theorem subscriptions_alive_iff {peer : Peer} {handler : κ} {cbs : Callbacks κ}
    {es : List (Event κ)} (hready : Ready peer handler c) (hnew : c.msgHandlers = [])
    (hes : ∀ err, .writeFail err ∉ es) (hrun : run (.connectDone cbs :: es) c = some c')
    (hcalls : Subscribers (c'.trace.drop c.trace.length)) (hflushed : Flushed c') :
    c'.msgHandlers =
      (roster c.subscribeSeq (changes (c'.trace.drop c.trace.length))).entries.map Prod.snd ∧
    (Alive c.subscribeSeq (changes (c'.trace.drop c.trace.length))
        (subscriptions (commandsIn (sentOn c'))) ↔
      Released c.subscribeSeq (changes (c'.trace.drop c.trace.length))) := by
  obtain ⟨c1, h1, h2⟩ := Option.bind_eq_some_iff.mp hrun
  have htrace := runMoments_trace hrun
  have hQ : ∀ m ∈ runMoments (.connectDone cbs :: es) c, OnlySubscribers m := by
    intro m hm
    refine hcalls m.action ?_
    rw [htrace, List.drop_left]
    exact List.mem_map_of_mem hm
  obtain ⟨hQ1, hQ2⟩ := forall_runMoments h1 hQ
  have hbegin := connectDone_enrolled hready hnew hQ1 h1
  have h := run_enrolled hQ2 hes hbegin h2
  have hsent : sentOn c' = commandBytes (c'.trace.drop c.trace.length) := by
    rw [← h.bytes]
    simp [outgoing, postedBytes, hflushed.strand, hflushed.dataQueued, hflushed.writes]
  have hserved : subscriptions (commandsIn (sentOn c')) =
      served (changes (c'.trace.drop c.trace.length)) := by
    rw [hsent, commandsIn_issued hcalls]
    exact subscriptions_issued hcalls
  refine ⟨h.msgHandlers, ?_⟩
  rw [hserved]
  exact alive_iff_released _ _

/-! ### Two runs -/

instance (c : RedisClientImpl κ) : Decidable (Flushed c) :=
  decidable_of_iff (c.strand.filterMap posted? = [] ∧ c.dataQueued = [] ∧ c.socket.writes = [])
    ⟨fun h => ⟨h.1, h.2.1, h.2.2⟩, fun h => ⟨h.strand, h.dataQueued, h.writes⟩⟩

instance (seq : ℕ) (cs : List (Change κ)) (s : Subscriptions) : Decidable (Alive seq cs s) :=
  inferInstanceAs (Decidable (∀ e ∈ (roster seq cs).entries, _))

/-- The user's code runs, and the three commands that it issues are sent. -/
def sendThree (s : Script ℕ) : List (Event ℕ) :=
  [.user s, .posted [], .posted [], .posted [], .send 999, .writeDone [], .send 999]

/-- Two handlers are subscribed to `c`, and `handle` is unsubscribed. -/
def subscribeTwice (handle : Handle) : Script ℕ :=
  .call (.subscribe (chars "c") 1 none) .returns
    (.call (.subscribe (chars "c") 2 none) .returns
      (.call (.unsubscribe handle) .returns .returns))

/-- A handler is subscribed to `c` and one to the pattern `c`, and the first is unsubscribed. -/
def subscribeBoth : Script ℕ :=
  .call (.subscribe (chars "c") 1 none) .returns
    (.call (.psubscribe (chars "c") 2 none) .returns
      (.call (.unsubscribe ⟨0, chars "c"⟩) .returns .returns))

theorem subscriptions_alive_both : ∃ c c', run (dial silent) .new = some c ∧
    run (.connectDone [] :: sendThree subscribeBoth) c = some c' ∧
    c'.msgHandlers =
      (roster c.subscribeSeq (changes (c'.trace.drop c.trace.length))).entries.map Prod.snd ∧
    Released c.subscribeSeq (changes (c'.trace.drop c.trace.length)) := by
  obtain ⟨c, hc, hready⟩ := ready_dial silent
  have hnew : c.msgHandlers = [] := by
    cases hc
    rfl
  obtain ⟨c1, c', hc1, hc', hcalls, hflushed, halive⟩ := dial_run silent
    (.connectDone [] :: sendThree subscribeBoth)
    (fun k c' => Subscribers (c'.trace.drop k) ∧ Flushed c' ∧
      Alive 0 (changes (c'.trace.drop k)) (subscriptions (commandsIn (sentOn c'))))
    (by decide +kernel)
  rw [hc] at hc1
  cases hc1
  have h := subscriptions_alive_iff hready hnew (fun err => by simp [sendThree]) hc' hcalls hflushed
  have hseq : c.subscribeSeq = 0 := by
    cases hc
    rfl
  refine ⟨c, c', hc, hc', h.1, h.2.mp ?_⟩
  rw [hseq]
  exact halive

/-- **Unsubscribing one of two handlers** of a channel leaves the other registered, but the server is
not subscribed to the channel any more. -/
theorem unsubscribe_takes_channel : ∃ c c', run (dial silent) .new = some c ∧
    run (.connectDone [] :: sendThree (subscribeTwice ⟨0, chars "c"⟩)) c = some c' ∧
    Subscribers (c'.trace.drop c.trace.length) ∧ Flushed c' ∧
    c'.msgHandlers = [⟨chars "c", 1, 2⟩] ∧ subscriptions (commandsIn (sentOn c')) = ∅ ∧
    ¬ Alive 0 (changes (c'.trace.drop c.trace.length)) (subscriptions (commandsIn (sentOn c'))) :=
  dial_run silent _ (fun k c' => Subscribers (c'.trace.drop k) ∧ Flushed c' ∧
    c'.msgHandlers = [⟨chars "c", 1, 2⟩] ∧ subscriptions (commandsIn (sentOn c')) = ∅ ∧
    ¬ Alive 0 (changes (c'.trace.drop k)) (subscriptions (commandsIn (sentOn c'))))
    (by decide +kernel)

end RedisClient.Async.Unsubscribing

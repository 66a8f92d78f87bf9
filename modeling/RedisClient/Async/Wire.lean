import RedisClient.Async.Queue
import RedisClient.Async.Unsubscribing

/-! # From the calls to the connection

An accepted call posts its command to the strand, `doAsyncCommand` puts it into `dataQueued`, and
`asyncWrite` takes it from there to the connection. The strand loses, repeats and reorders nothing
(`posted_run`). What a connection carries is a block of whole commands, and the ones after them are
queued and posted, whatever is disconnected and connected in between (`wire_run`). This rests on a
write ending when the socket is closed: where the rest of it goes on to the next connection, it begins
with a part of a command. -/

namespace RedisClient.Async.Wire

open RedisClient.Value RedisClient.Parser.Defs RedisClient.Commands RedisClient.Peers
open RedisClient.Async.Asio
open RedisClient.Async.Defs RedisClient.Async.Rules RedisClient.Async.Trace
open RedisClient.Async.Calls RedisClient.Async.Session RedisClient.Async.Moments
open RedisClient.Async.OwnReplies RedisClient.Async.Queue RedisClient.Async.Reconnect
open RedisClient.Async.Receive (posted?_messages)
open RedisClient.Sync.Defs (SysError ErrorCode ClientState)

variable {κ : Type} {c c' : RedisClientImpl κ}

/-! ### From the calls to the queue -/

/-- The bytes of a command, and the handler of its reply. -/
def order (q : List RedisBuffer × Option κ) : Bytes × Option κ := (makeCommand q.1, q.2)

def ordered? : Action κ → Option (Bytes × Option κ)
  | .doAsyncCommand buff handler => some (buff, handler)
  | _ => none

/-- What `doAsyncCommand` has been called with. -/
def ordered (t : List (Action κ)) : List (Bytes × Option κ) := t.filterMap ordered?

theorem ordered_append (t u : List (Action κ)) : ordered (t ++ u) = ordered t ++ ordered u :=
  List.filterMap_append

theorem commanded_eq (t : List (Action κ)) : commanded t = (ordered t).map Prod.fst := by
  unfold commanded ordered
  rw [List.map_filterMap]
  congr 1
  funext a
  cases a <;> rfl

/-- What has been posted, and what the moments issue, is what they run and what is posted then. -/
def Posts (c : RedisClientImpl κ) (ms : List (Moment κ)) (c' : RedisClientImpl κ) : Prop :=
  c.strand.filterMap posted? ++ (issued (ms.map Moment.action)).map order =
    ordered (ms.map Moment.action) ++ c'.strand.filterMap posted?

theorem Posts.append {ms ms' : List (Moment κ)} {c1 : RedisClientImpl κ} (h : Posts c ms c1)
    (h' : Posts c1 ms' c') : Posts c (ms ++ ms') c' := by
  unfold Posts at *
  rw [List.map_append, issued_append, ordered_append, List.map_append, ← List.append_assoc, h,
    List.append_assoc, h', List.append_assoc]

/-- No command is posted or run. -/
theorem Posts.quiet (h : c'.strand.filterMap posted? = c.strand.filterMap posted?) :
    Posts c [] c' := by
  simp [Posts, issued, ordered, h]

/-- An entry that neither issues nor runs a command. -/
theorem Posts.one {m : Moment κ} (hi : issued? m.action = none) (ho : ordered? m.action = none)
    (h : c'.strand.filterMap posted? = c.strand.filterMap posted?) : Posts c [m] c' := by
  simp [Posts, issued, ordered, hi, ho, h]

/-- A call that is not accepted posts nothing. -/
theorem body_unaccepted {call : Call κ} (h : accepted c.state call = false) :
    (call.body c).2.2.strand = c.strand := by
  -- a call that posts something finds the client connected
  have hrefused : ∀ handle text, (refuse (κ := κ) text handle c).2.2.strand = c.strand :=
    fun _ _ => rfl
  cases call with
  | disconnect => rfl
  | connect endpoint handler =>
    have hb := body_cases (.connect endpoint handler) c
    generalize Call.body (.connect endpoint handler) c = r at hb ⊢
    cases hb with
    | posts _ _ _ _ _ _ _ hcall => exact absurd rfl (hcall endpoint handler)
    | _ => rfl
  | command | publish =>
    have hs : c.state ≠ .connected := by simpa [accepted] using h
    simp only [Call.body, command, publish, if_pos hs, if_neg hs, hrefused]
  | subscribe | psubscribe | singleShotSubscribe | singleShotPSubscribe | unsubscribe
  | punsubscribe =>
    have hs : ¬ (c.state = .connected ∨ c.state = .subscribed) := of_decide_eq_false h
    simp only [Call.body, subscribe, singleShotSubscribe, unsubscribe, if_neg hs, hrefused]

/-- A call that can be accepted has a command. -/
theorem request_of_accepted {state : ClientState} {call : Call κ} (h : accepted state call = true) :
    ∃ q, request call = some q := by
  cases call with
  | connect | disconnect => cases h
  | _ => exact ⟨_, rfl⟩

/-- **A call** posts the command that it issues. -/
theorem body_posts (call : Call κ) (c : RedisClientImpl κ) :
    (call.body (c.log (.call c.state call))).2.2.strand.filterMap posted? =
      c.strand.filterMap posted? ++ (issued [.call c.state call]).map order := by
  rcases hacc : accepted c.state call with _ | _
  · rw [body_unaccepted (c := c.log (.call c.state call)) hacc]
    simp [issued, issued?, hacc, RedisClientImpl.log]
  · obtain ⟨⟨items, handler⟩, hq⟩ := request_of_accepted hacc
    obtain ⟨handle, ms, ss, seq, hb⟩ :=
      body_accepted (c := c.log (.call c.state call)) hq hacc
    rw [hb]
    show (c.strand ++ [Posted.doAsyncCommand (makeCommand items) handler]).filterMap posted? = _
    simp [issued, issued?, hacc, hq, order, posted?]

/-- An entry that the user's code makes. -/
theorem next_posts {m : Moment κ} (hm : Scripted m.action)
    (hstate : ∀ state call, m.action = .call state call → m.client.state = state) :
    Posts m.client [m] m.next := by
  rcases m with ⟨c, a, s⟩
  cases a with
  | call state call =>
    obtain rfl : c.state = state := hstate state call rfl
    exact (body_posts call c).symm
  | returned handle => exact .one rfl rfl rfl
  | connect ec handler => exact .one rfl rfl rfl
  | error r => exact .one rfl rfl rfl
  | _ => exact hm.elim

theorem carriesCalls_posts : CarriesCalls (κ := κ) (Recorded fun _ => True) Posts :=
  carriesCalls_of_scripted (fun _ => .quiet rfl) Posts.append fun m hm hrec => by
    refine next_posts hm fun state call ha => ?_
    unfold Recorded at hrec
    rw [ha] at hrec
    exact hrec.1

theorem carries_posts : CarriesLoop (κ := κ) (Recorded fun _ => True) Posts where
  toCarriesCalls := carriesCalls_posts
  processed _ := .one rfl rfl rfl
  front v cbs _ hQ := carriesCalls_posts.callFront (fun _ => .one rfl rfl rfl)
    (fun _ => .quiet rfl) hQ
  postSingleShot channel msg c := by
    obtain ⟨ms, ss, hc⟩ := postSingleShot_posts channel msg c
    rw [hc]
    exact .quiet (by rw [List.filterMap_append, posted?_messages, List.append_nil])
  postMessages channel msg c := by
    obtain ⟨ms, hc⟩ := postMessages_posts channel msg c
    rw [hc]
    exact .quiet (by rw [List.filterMap_append, posted?_messages, List.append_nil])
  redisParser _ _ := .quiet rfl
  read _ := .quiet rfl
  command {buff handler strand c d} hs hd _ := by
    subst hd
    simp [Posts, issued, ordered, issued?, ordered?, posted?, RedisClientImpl.log, hs]
  message _ hs hd _ := by
    subst hd
    exact .one rfl rfl (by rw [hs]; rfl)
  clear _ := .quiet rfl
  write _ _ hd _ := by
    subst hd
    exact .one rfl rfl rfl
  broken _ := .quiet rfl
  receive _ := .quiet rfl
  socket _ := .quiet rfl
  readDone _ := .quiet rfl
  writeDone _ := .quiet rfl
  connectDone _ _ hd _ := by
    subst hd
    exact .one rfl rfl rfl

/-- **The strand loses, repeats and reorders no command**: those that `doAsyncCommand` has been called
with, and after them those that are posted, are those of the accepted calls. -/
theorem posted_run {es : List (Event κ)} (h : run es .new = some c) :
    (issued c.trace).map order = ordered c.trace ++ c.strand.filterMap posted? := by
  have htrace : c.trace = (runMoments es .new).map Moment.action := runMoments_trace h
  rw [htrace]
  exact carries_posts.run (runMoments_recorded (fun e _ => allIn_true e) .new) h

/-! ### From the queue to the connection -/

/-- The connection carries `carried` and nothing else, and what is queued comes after it. What came
before it, `lost`, was carried by earlier connections or by none. -/
structure Block (lost carried : List Bytes) (c : RedisClientImpl κ) : Prop where
  sum : commanded c.trace = lost ++ carried ++ c.dataQueued
  bytes : sentOn c ++ c.socket.writes.flatten = carried.flatten
  closed : c.socket.link = .closed → c.socket.writes = []

/-- The connection carries a block of the commands. -/
def Carries (c : RedisClientImpl κ) : Prop := ∃ lost carried, Block lost carried c

theorem sentOn_link (h : c'.socket.link = c.socket.link) : sentOn c' = sentOn c := by
  unfold sentOn
  rw [h]

theorem Carries.congr (h : Carries c) (htrace : commanded c'.trace = commanded c.trace)
    (hlink : c'.socket.link = c.socket.link) (hwrites : c'.socket.writes = c.socket.writes)
    (hqueued : c'.dataQueued = c.dataQueued) : Carries c' := by
  obtain ⟨lost, carried, hsum, hbytes, hclosed⟩ := h
  refine ⟨lost, carried, ?_, ?_, fun hl => ?_⟩
  · rw [htrace, hqueued, hsum]
  · rw [sentOn_link hlink, hwrites, hbytes]
  · rw [hwrites]
    exact hclosed (hlink.symm.trans hl)

/-- There is no connection: what it carried is lost, and perhaps what was queued too. -/
theorem Carries.cut (h : Carries c) (htrace : commanded c'.trace = commanded c.trace)
    (hlink : c'.socket.link = .closed) (hwrites : c'.socket.writes = [])
    (hqueued : c'.dataQueued = c.dataQueued ∨ c'.dataQueued = []) : Carries c' := by
  obtain ⟨lost, carried, hsum, -, -⟩ := h
  have hbytes : sentOn c' ++ c'.socket.writes.flatten = ([] : List Bytes).flatten := by
    unfold sentOn
    rw [hlink, hwrites]
    rfl
  rcases hqueued with hq | hq
  · refine ⟨lost ++ carried, [], ?_, hbytes, fun _ => hwrites⟩
    rw [htrace, hq, hsum, List.append_nil]
  · refine ⟨lost ++ carried ++ c.dataQueued, [], ?_, hbytes, fun _ => hwrites⟩
    rw [htrace, hq, hsum, List.append_nil, List.append_nil]

theorem commanded_log {a : Action κ} (h : commanded? a = none) :
    commanded (c.log a).trace = commanded c.trace := by
  simp [commanded, RedisClientImpl.log, h]

theorem Carries.log {a : Action κ} (h : Carries c) (ha : commanded? a = none) : Carries (c.log a) :=
  h.congr (commanded_log ha) rfl rfl rfl

/-- A connect opens the socket, and nothing is on the connection that it makes. -/
theorem Carries.asyncConnect (h : Carries c) (handler : κ) (htrace : c'.trace = c.trace)
    (hsocket : c'.socket = c.socket.asyncConnect handler) (hqueued : c'.dataQueued = c.dataQueued) :
    Carries c' := by
  have hsent : sentOn c' = sentOn c := by
    unfold sentOn
    rw [hsocket, Socket.asyncConnect]
    rcases c.socket.link <;> rfl
  obtain ⟨lost, carried, hsum, hbytes, -⟩ := h
  refine ⟨lost, carried, ?_, ?_, fun hl => ?_⟩
  · rw [htrace, hqueued, hsum]
  · rw [hsent, hsocket, Socket.asyncConnect_writes, hbytes]
  · rw [hsocket] at hl
    exact absurd hl (Socket.asyncConnect_open handler c.socket)

theorem body_carries (call : Call κ) (h : Carries c) : Carries (call.body c).2.2 := by
  have hb := body_cases call c
  generalize call.body c = r at hb ⊢
  cases hb with
  | disconnect => exact h.cut rfl rfl rfl (Or.inl rfl)
  | connect endpoint handler p => exact h.asyncConnect handler rfl rfl rfl
  | connected | refused => exact h
  | posts => exact h.congr rfl rfl rfl rfl

/-- What is carried: the connection keeps to a block of the commands. -/
def KeepsBlock (c : RedisClientImpl κ) (_ : List (Moment κ)) (c' : RedisClientImpl κ) : Prop :=
  Carries c → Carries c'

theorem carriesCalls_block : CarriesCalls (κ := κ) (fun _ => True) KeepsBlock :=
  carriesCalls_of_scripted (fun _ => id) (fun h h' => h' ∘ h) fun m hm _ h => by
    rcases m with ⟨c, a, s⟩
    cases a with
    | call state call => exact body_carries call (h.log rfl)
    | returned | connect | error => exact h.log rfl
    | _ => exact hm.elim

theorem carriesInput_block : CarriesInput (κ := κ) (fun _ => True) KeepsBlock where
  toCarriesCalls := carriesCalls_block
  processed _ h := h.log rfl
  front v cbs _ hQ := carriesCalls_block.callFront (fun _ h => h.log rfl)
    (fun _ h => h.congr rfl rfl rfl rfl) hQ
  postSingleShot channel msg c h := by
    obtain ⟨ms, ss, hc⟩ := postSingleShot_posts channel msg c
    rw [hc]
    exact h.congr rfl rfl rfl rfl
  postMessages channel msg c h := by
    obtain ⟨ms, hc⟩ := postMessages_posts channel msg c
    rw [hc]
    exact h.congr rfl rfl rfl rfl
  redisParser _ _ h := h.congr rfl rfl rfl rfl
  read c h := h.congr rfl (Socket.asyncReadSome_link c.socket) (Socket.asyncReadSome_writes c.socket)
    rfl

/-- A write takes what is queued to the connection, if there is one. -/
theorem asyncWrite_carries (ec : ErrorCode) (cbs : Callbacks κ) (h : Carries c) :
    Carries (asyncWrite ec cbs c).2.2 := by
  have hclear : Carries { c with dataWrited := [] } := h.congr rfl rfl rfl rfl
  unfold asyncWrite
  dsimp only
  split_ifs with hec hq
  · exact carriesCalls_block.callErrorHandler (fun _ _ => trivial) hclear
  · have htrace := commanded_log (c := c) (a := .asyncWrite c.dataQueued.flatten) rfl
    have hlink := Socket.asyncWrite_link c.dataQueued.flatten c.socket
    by_cases hl : c.socket.link = .closed
    · obtain ⟨-, -, -, -, hclosed⟩ := id h
      refine h.cut htrace (hlink.trans hl) ?_ (Or.inr rfl)
      show (c.socket.asyncWrite c.dataQueued.flatten).writes = []
      rw [Socket.asyncWrite, hl]
      exact hclosed hl
    · have hw : (c.socket.asyncWrite c.dataQueued.flatten).writes =
          c.socket.writes ++ [c.dataQueued.flatten] := by
        unfold Socket.asyncWrite
        split
        · next hl' => exact absurd hl' hl
        · rfl
      obtain ⟨lost, carried, hsum, hbytes, -⟩ := h
      refine ⟨lost, carried ++ c.dataQueued, ?_, ?_, fun hl' => absurd (hlink.symm.trans hl') hl⟩
      · refine htrace.trans (hsum.trans ?_)
        show _ = lost ++ (carried ++ c.dataQueued) ++ []
        simp only [List.append_assoc, List.append_nil]
      · refine (congrArg₂ (fun s w => s ++ List.flatten w) (sentOn_link hlink) hw).trans ?_
        rw [List.flatten_append, ← List.append_assoc, hbytes, List.flatten_append]
        simp
  · exact hclear

theorem client_carries {o : Outcome κ} (h : Carries o.2.2) : Carries o.client := by
  rcases o with ⟨_ | _ | _, cbs, c⟩
  · exact h
  · exact h
  · exact h.congr rfl rfl rfl rfl

theorem doAsyncCommand_carries (buff : Bytes) (handler : Option κ) (cbs : Callbacks κ)
    (h : Carries c) : Carries (doAsyncCommand buff handler cbs c).2.2 := by
  have hqueue : Carries { c.log (.doAsyncCommand buff handler) with
      handlers := c.handlers ++ [handler], dataQueued := c.dataQueued ++ [buff] } := by
    obtain ⟨lost, carried, hsum, hbytes, hclosed⟩ := h
    refine ⟨lost, carried, ?_, hbytes, hclosed⟩
    show commanded (c.trace ++ [.doAsyncCommand buff handler]) = _
    unfold commanded at hsum ⊢
    rw [List.filterMap_append, hsum]
    simp [commanded?]
  unfold doAsyncCommand
  dsimp only
  split_ifs
  · exact asyncWrite_carries none cbs hqueue
  · exact hqueue

/-- **A step** that is not the failure of a write. -/
theorem step_carries {e : Event κ} (he : ∀ err, e ≠ .writeFail err) (h : Carries c)
    (hstep : step e c = some c') : Carries c' := by
  obtain ⟨-, hs⟩ := step_cases hstep
  cases hs with
  | user s => exact carriesCalls_block.runScript s c (fun _ _ => trivial) h
  | @posted cbs f strand hs =>
    have hpop : Carries { c with strand := strand } := h.congr rfl rfl rfl rfl
    refine client_carries ?_
    cases f with
    | doAsyncCommand buff handler => exact doAsyncCommand_carries buff handler cbs hpop
    | message msgHandler msg =>
      exact carriesCalls_block.afterEntry (fun _ _ => trivial) (hpop.log rfl)
  | receive hs =>
    obtain ⟨reads, peer, sent, taken, -, hl, rfl⟩ := Socket.receive_cases hs
    obtain ⟨lost, carried, hsum, hbytes, -⟩ := h
    refine ⟨lost, carried, hsum, ?_, fun hl' => by cases hl'⟩
    rw [← hbytes]
    unfold sentOn
    rw [hl]
  | readFail hs =>
    obtain ⟨reads, -, rfl⟩ := Socket.readFail_cases hs
    exact h.congr rfl rfl rfl rfl
  | @readDone cbs ec size readsDone o hs ho =>
    have hpop : Carries { c with socket := { c.socket with readsDone := readsDone } } :=
      h.congr rfl rfl rfl rfl
    exact client_carries (carriesInput_block.reads.asyncRead (fun _ _ => trivial) ho hpop)
  | send hs =>
    obtain ⟨data, rest, peer, sent, taken, -, hl, writes, writesDone, -, hs'⟩ := Socket.send_cases hs
    obtain ⟨sent', hl', hmoved⟩ := Socket.send_bytes hs hl
    obtain ⟨lost, carried, hsum, hbytes, -⟩ := h
    refine ⟨lost, carried, hsum, ?_, fun hcl => ?_⟩
    · rw [← hbytes]
      unfold sentOn
      rw [hl, hl']
      exact hmoved
    · rw [hl'] at hcl
      cases hcl
  | writeFail hs => exact absurd rfl (he _)
  | @writeDone cbs ec writesDone hs =>
    have hpop : Carries { c with socket := { c.socket with writesDone := writesDone } } :=
      h.congr rfl rfl rfl rfl
    exact client_carries (asyncWrite_carries ec cbs hpop)
  | connectOk hs =>
    obtain ⟨handler, connects, -, hl, rfl⟩ := Socket.connectOk_cases hs
    obtain ⟨lost, carried, hsum, hbytes, -⟩ := h
    refine ⟨lost, carried, hsum, ?_, fun hcl => by cases hcl⟩
    rw [← hbytes]
    unfold sentOn
    rw [hl]
  | connectFail hs =>
    obtain ⟨handler, connects, -, rfl⟩ := Socket.connectFail_cases hs
    exact h.congr rfl rfl rfl rfl
  | @connectDone cbs ec handler connectsDone hs =>
    have hbegin : Carries { c with
        socket := { c.socket with connectsDone := connectsDone }
        state := if ec.isNone then .connected else .unconnected } := h.congr rfl rfl rfl rfl
    refine client_carries (carriesInput_block.reads.handleAsyncConnect rfl (fun _ _ => trivial) ?_)
    exact hbegin.log rfl

/-- **What is on the connection** is a block of whole commands, in the order of the calls that issued
them, in every run in which no write fails, given that `close` ends the write that is under way: those
before it have been lost, and those after it are queued and posted. -/
theorem wire_run {es : List (Event κ)} (hes : ∀ err, .writeFail err ∉ es)
    (h : run es .new = some c) : ∃ lost carried : List Bytes,
    (issued c.trace).map (fun q => makeCommand q.1) =
      lost ++ carried ++ c.dataQueued ++ (c.strand.filterMap posted?).map Prod.fst ∧
    sentOn c ++ c.socket.writes.flatten = carried.flatten := by
  have hnew : Carries (.new : RedisClientImpl κ) := ⟨[], [], rfl, rfl, fun _ => rfl⟩
  obtain ⟨lost, carried, hsum, hbytes, -⟩ :=
    run_events (P := fun e => ∀ err, e ≠ .writeFail err)
      (fun _ _ _ he hc h1 => step_carries he hc h1)
      (fun e he err herr => hes err (herr ▸ he)) hnew h
  refine ⟨lost, carried, ?_, hbytes⟩
  have hposted := congrArg (List.map Prod.fst) (posted_run h)
  rw [List.map_append, ← commanded_eq, List.map_map, hsum] at hposted
  exact hposted

/-- Two commands are issued, the second while the first is being written, and the connection is
closed. Two more are issued on the next one, of which the last is still posted. -/
def rewired : List (Event ℕ) :=
  twoCommands ++ [hangUp, .readDone [], .writeDone [], redial, .connectOk (pong.peer ()),
    .connectDone [.call (.command [67] [] none) .returns .returns], .posted [], .send 9,
    .user (.call (.command [68] [] none) .returns .returns)]

/-- The first command is lost with its connection, and the second and the third are on the next
one. -/
theorem wire_run_rewired : ∃ c, run rewired .new = some c ∧ ∃ lost carried : List Bytes,
    [[65], [66], [67], [68]].map (fun cmd => makeCommand [.string cmd]) =
      lost ++ carried ++ c.dataQueued ++ (c.strand.filterMap posted?).map Prod.fst ∧
    sentOn c ++ c.socket.writes.flatten = carried.flatten ∧
    carried.flatten = makeCommand [.string [66]] ++ makeCommand [.string [67]] := by
  have hwire : (run rewired .new).map (fun c => ((issued c.trace).map fun q => makeCommand q.1,
      sentOn c ++ c.socket.writes.flatten)) =
      some ([[65], [66], [67], [68]].map (fun cmd => makeCommand [.string cmd]),
        makeCommand [.string [66]] ++ makeCommand [.string [67]]) := by decide +kernel
  obtain ⟨c, hrun, hc⟩ := Option.map_eq_some_iff.mp hwire
  have hes : ∀ err, .writeFail err ∉ rewired := by
    intro err
    simp [rewired, twoCommands, dial, hangUp, redial]
  obtain ⟨lost, carried, hsum, hbytes⟩ := wire_run hes hrun
  rw [Prod.mk.injEq] at hc
  exact ⟨c, hrun, lost, carried, by rw [← hc.1, hsum], hbytes, by rw [← hbytes, hc.2]⟩

end RedisClient.Async.Wire

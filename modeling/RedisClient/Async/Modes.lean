import RedisClient.Async.Lifetime

/-! # Commands before subscriptions

After a subscription a server takes no commands but those that subscribe and unsubscribe, so the client
must not send it any others. The state `Subscribed` is left by a disconnect only, and `command` and
`publish` are refused in it. So in a run without a disconnect and without a failed write what is on
the connection, queued and posted is all that has been issued, in order, and in it no command and no
publication comes after a subscription (`modes_apart`). -/

namespace RedisClient.Async.Modes

open RedisClient.Value RedisClient.Commands RedisClient.Peers RedisClient.Async.Asio
open RedisClient.Async.Defs RedisClient.Async.Rules RedisClient.Async.Trace
open RedisClient.Async.Calls RedisClient.Async.Session RedisClient.Async.Moments
open RedisClient.Async.OwnReplies RedisClient.Async.Reconnect RedisClient.Async.Unsubscribing
open RedisClient.Async.Wire RedisClient.Async.Lifetime
open RedisClient.Async.Dialling (silent)
open RedisClient.Sync.Defs (ErrorCode ClientState)

variable {κ : Type} {c c' : RedisClientImpl κ}

/-! ### The invariant -/

/-- After a subscription comes no `command` and no `publish`. -/
def CommandFirst (a b : Call κ) : Prop := subscribing a = true → commanding b = false

/-- The bytes are those of the commands issued, and the accepted calls are apart. -/
structure Ordered (c : RedisClientImpl κ) : Prop where
  bytes : outgoing c ++ postedBytes c.strand = commandBytes c.trace
  plain : c.state ≠ .subscribed → ∀ call ∈ made c.trace, subscribing call = false
  apart : (made c.trace).Pairwise CommandFirst

/-- The commands issued are those of the accepted calls. -/
theorem issued_made (t : List (Action κ)) : issued t = (made t).filterMap request := by
  unfold issued made
  rw [List.filterMap_filterMap]
  refine List.filterMap_congr fun a _ => ?_
  cases a with
  | call state call =>
    rcases hacc : accepted state call with _ | _ <;> simp [issued?, made?, hacc]
  | _ => rfl

/-- There is a connection. -/
def Linked (s : Socket κ) : Prop := ∃ peer sent taken, s.link = .linked peer sent taken

/-- Before the first connect that succeeds no call is accepted, and after it there is a connection. -/
inductive Phase (c : RedisClientImpl κ) : Prop
  | down (hs : c.state = .unconnected) (hw : c.socket.connects = [])
      (hd : c.socket.connectsDone = []) (hm : made c.trace = [])
  | dialling (hs : c.state = .connecting)
      (hone : c.socket.connects.length + c.socket.connectsDone.length = 1)
      (hl : ∀ r ∈ c.socket.connectsDone, r.1 = none → Linked c.socket) (hm : made c.trace = [])
  | up (hs : c.isConnected = true) (hl : Linked c.socket) (hw : c.socket.connects = [])
      (hd : c.socket.connectsDone = [])

structure Lasts (c : RedisClientImpl κ) : Prop extends Ordered c where
  phase : Phase c

/-- What the phase is about has not changed. -/
theorem Phase.congr (h : Phase c) (hmade : made c'.trace = made c.trace)
    (hstate : c'.state = c.state) (hl : Linked c.socket → Linked c'.socket)
    (hconnects : c'.socket.connects = c.socket.connects)
    (hdone : c'.socket.connectsDone = c.socket.connectsDone) : Phase c' := by
  cases h with
  | down h1 h2 h3 h4 =>
    exact .down (hstate.trans h1) (hconnects.trans h2) (hdone.trans h3) (hmade.trans h4)
  | dialling h1 h2 h3 h4 =>
    refine .dialling (hstate.trans h1) (by rw [hconnects, hdone, h2]) ?_ (hmade.trans h4)
    rw [hdone]
    exact fun r hr hnone => hl (h3 r hr hnone)
  | up h1 h2 h3 h4 =>
    refine .up ?_ (hl h2) (hconnects.trans h3) (hdone.trans h4)
    unfold RedisClientImpl.isConnected at h1 ⊢
    rwa [hstate]

theorem Lasts.congr (h : Lasts c) (hmade : made c'.trace = made c.trace)
    (hissued : issued c'.trace = issued c.trace) (hstate : c'.state = c.state)
    (hl : Linked c.socket → Linked c'.socket) (hconnects : c'.socket.connects = c.socket.connects)
    (hdone : c'.socket.connectsDone = c.socket.connectsDone)
    (hbytes : outgoing c' ++ postedBytes c'.strand = outgoing c ++ postedBytes c.strand) :
    Lasts c' := by
  refine ⟨⟨?_, ?_, ?_⟩, h.phase.congr hmade hstate hl hconnects hdone⟩
  · unfold commandBytes
    rw [hbytes, hissued]
    exact h.bytes
  · rw [hstate, hmade]
    exact h.plain
  · rw [hmade]
    exact h.apart

/-- What the invariant is about stays as it is. -/
theorem Lasts.same (h : Lasts c) (htrace : c'.trace = c.trace) (hstate : c'.state = c.state)
    (hlink : c'.socket.link = c.socket.link) (hconnects : c'.socket.connects = c.socket.connects)
    (hdone : c'.socket.connectsDone = c.socket.connectsDone)
    (hwrites : c'.socket.writes = c.socket.writes) (hqueued : c'.dataQueued = c.dataQueued)
    (hposted : postedBytes c'.strand = postedBytes c.strand) : Lasts c' := by
  refine h.congr (by rw [htrace]) (by rw [htrace]) hstate ?_ hconnects hdone ?_
  · unfold Linked
    rw [hlink]
    exact id
  · unfold outgoing
    rw [sentOn_link hlink, hwrites, hqueued, hposted]

/-- An entry that is not a call. -/
theorem Lasts.log {a : Action κ} (h : Lasts c) (hm : made? a = none) (hi : issued? a = none) :
    Lasts (c.log a) :=
  h.congr (by simp [made, RedisClientImpl.log, hm]) (by simp [issued, RedisClientImpl.log, hi]) rfl id
    rfl rfl rfl

/-- Nothing has been issued, and nothing is on the way. -/
theorem Lasts.blank (h : Lasts c) (hm : made c.trace = []) :
    sentOn c = [] ∧ c.socket.writes.flatten = [] ∧ c.dataQueued.flatten = [] ∧
      commandBytes c.trace = [] := by
  have hissued : issued c.trace = [] := by
    rw [← List.length_eq_zero_iff, ← made_length, hm, List.length_nil]
  have hnone : commandBytes c.trace = [] := by
    unfold commandBytes
    rw [hissued]
    rfl
  have hbytes := h.bytes
  unfold outgoing at hbytes
  rw [hnone] at hbytes
  simp only [List.append_eq_nil_iff] at hbytes
  exact ⟨hbytes.1.1.1, hbytes.1.1.2, hbytes.1.2, hnone⟩

/-! ### Calls -/

theorem Lasts.connected (h : Lasts c) (hs : c.state = .connected ∨ c.state = .subscribed) :
    Linked c.socket ∧ c.socket.connects = [] ∧ c.socket.connectsDone = [] := by
  cases h.phase with
  | down h1 => rcases hs with hs | hs <;> cases h1.symm.trans hs
  | dialling h1 => rcases hs with hs | hs <;> cases h1.symm.trans hs
  | up h1 h2 h3 h4 => exact ⟨h2, h3, h4⟩

theorem connected_of_accepted {state : ClientState} {call : Call κ}
    (h : accepted state call = true) : state = .connected ∨ state = .subscribed := by
  cases call with
  | connect | disconnect => cases h
  | command | publish => exact Or.inl (of_decide_eq_true h)
  | _ => exact of_decide_eq_true h

/-- A call that is accepted. -/
theorem Lasts.accepted {call : Call κ} (h : Lasts c) (hacc : accepted c.state call = true) :
    Lasts (call.body (c.log (.call c.state call))).2.2 := by
  obtain ⟨⟨items, handler⟩, hq⟩ := request_of_accepted hacc
  obtain ⟨handle, ms, ss, seq, hb⟩ := body_accepted (c := c.log (.call c.state call)) hq hacc
  have hmade : made (c.trace ++ [.call c.state call]) = made c.trace ++ [call] := by
    rw [made_append]
    simp [made, made?, hacc]
  have hissued : issued (c.trace ++ [.call c.state call]) = issued c.trace ++ [(items, handler)] := by
    rw [issued_append]
    simp [issued, issued?, hacc, hq]
  have hconn := connected_of_accepted hacc
  obtain ⟨hlink, hconnects, hdone⟩ := h.connected hconn
  rw [hb]
  refine ⟨⟨?_, ?_, ?_⟩, .up ?_ hlink hconnects hdone⟩
  · show outgoing c ++ postedBytes (c.strand ++ [.doAsyncCommand (makeCommand items) handler]) =
      commandBytes (c.trace ++ [.call c.state call])
    have hbytes := h.bytes
    unfold commandBytes at hbytes ⊢
    rw [hissued, postedBytes_append, ← List.append_assoc, hbytes]
    simp [postedBytes, posted?]
  · intro hs call' hcall'
    change call' ∈ made (c.trace ++ [.call c.state call]) at hcall'
    change (if subscribing call = true then ClientState.subscribed else c.state) ≠ .subscribed at hs
    have hplain : subscribing call = false := by
      by_contra hsub
      rw [Bool.not_eq_false] at hsub
      exact hs (if_pos hsub)
    rw [hplain] at hs
    rw [hmade] at hcall'
    rcases List.mem_append.mp hcall' with hcall' | hcall'
    · exact h.plain hs call' hcall'
    · rwa [List.mem_singleton.mp hcall']
  · show (made (c.trace ++ [.call c.state call])).Pairwise CommandFirst
    rw [hmade]
    refine List.pairwise_append.mpr ⟨h.apart, List.pairwise_singleton _ _, ?_⟩
    intro a ha b hb' hsub
    obtain rfl := List.mem_singleton.mp hb'
    by_contra hcommand
    rw [Bool.not_eq_false] at hcommand
    -- a command is accepted before any subscription only
    have hne : c.state ≠ .subscribed := by
      cases b with
      | command | publish =>
        rw [of_decide_eq_true hacc]
        exact fun heq => by cases heq
      | _ => cases hcommand
    rw [h.plain hne a ha] at hsub
    cases hsub
  · show decide ((if subscribing call = true then ClientState.subscribed else c.state) = .connected ∨
      (if subscribing call = true then ClientState.subscribed else c.state) = .subscribed) = true
    refine decide_eq_true ?_
    split_ifs
    · exact Or.inr rfl
    · exact hconn

/-- **A call.** -/
theorem Lasts.call {call : Call κ} (h : Lasts c) (hcall : Stays call) :
    Lasts (call.body (c.log (.call c.state call))).2.2 := by
  rcases hacc : Trace.accepted c.state call with _ | _
  · have hlog : Lasts (c.log (.call c.state call)) :=
      h.log (by simp [made?, hacc]) (by simp [issued?, hacc])
    have hstrand := body_unaccepted (c := c.log (.call c.state call)) hacc
    have hb := body_cases call (c.log (.call c.state call))
    generalize call.body (c.log (.call c.state call)) = r at hb hstrand ⊢
    cases hb with
    | disconnect => exact hcall.elim
    | connect endpoint handler p hs =>
      have hdown : made (c.log (.call c.state (.connect endpoint handler))).trace = [] ∧
          c.socket.connects = [] ∧ c.socket.connectsDone = [] := by
        cases hlog.phase with
        | down h1 h2 h3 h4 => exact ⟨h4, h2, h3⟩
        | dialling h1 => rcases hs with hs | hs <;> cases h1.symm.trans hs
        | up h1 =>
          rcases of_decide_eq_true h1 with h1 | h1 <;> rcases hs with hs | hs <;>
            cases h1.symm.trans hs
      obtain ⟨hm, hconnects, hdone⟩ := hdown
      refine ⟨⟨?_, fun _ => ?_, ?_⟩, .dialling rfl ?_ ?_ hm⟩
      · have hsent : sentOn { c with socket := c.socket.asyncConnect handler } = sentOn c := by
          unfold sentOn Socket.asyncConnect
          rcases c.socket.link <;> rfl
        refine Eq.trans ?_ hlog.bytes
        exact congrArg₂ (fun s w => s ++ List.flatten w ++ c.dataQueued.flatten ++
          postedBytes c.strand) hsent (Socket.asyncConnect_writes handler c.socket)
      · exact fun call' hcall' => by rw [hm] at hcall'; cases hcall'
      · show (made _).Pairwise CommandFirst
        rw [hm]
        exact .nil
      · show (c.socket.asyncConnect handler).connects.length +
          (c.socket.asyncConnect handler).connectsDone.length = 1
        rw [Socket.asyncConnect_connects, Socket.asyncConnect_connectsDone, hconnects, hdone]
        rfl
      · intro r hr
        change r ∈ (c.socket.asyncConnect handler).connectsDone at hr
        rw [Socket.asyncConnect_connectsDone, hdone] at hr
        cases hr
    | connected | refused => exact hlog
    | posts =>
      have hlen := congrArg List.length hstrand
      simp at hlen
  · exact h.accepted hacc

/-- What is carried: the invariant is kept. -/
def KeepsLasts (c : RedisClientImpl κ) (_ : List (Moment κ)) (c' : RedisClientImpl κ) : Prop :=
  Lasts c → Lasts c'

theorem carriesCalls_lasts : CarriesCalls (κ := κ) (Recorded Stays) KeepsLasts :=
  carriesCalls_of_scripted (fun _ => id) (fun h h' => h' ∘ h) fun m hm hrec h => by
    rcases m with ⟨c, a, s⟩
    cases a with
    | call state call =>
      obtain ⟨rfl, hcall⟩ : c.state = state ∧ Stays call := hrec
      exact h.call hcall
    | returned | connect | error => exact h.log rfl rfl
    | _ => exact hm.elim

/-! ### Reading -/

theorem carriesInput_lasts : CarriesInput (κ := κ) (Recorded Stays) KeepsLasts where
  toCarriesCalls := carriesCalls_lasts
  processed _ h := h.log rfl rfl
  front v cbs _ hQ := carriesCalls_lasts.callFront (fun _ h => h.log rfl rfl)
    (fun _ h => h.same rfl rfl rfl rfl rfl rfl rfl rfl) hQ
  postSingleShot channel msg c h := by
    obtain ⟨ms, ss, hc⟩ := postSingleShot_posts channel msg c
    rw [hc]
    exact h.same rfl rfl rfl rfl rfl rfl rfl (by simp)
  postMessages channel msg c h := by
    obtain ⟨ms, hc⟩ := postMessages_posts channel msg c
    rw [hc]
    exact h.same rfl rfl rfl rfl rfl rfl rfl (by simp)
  redisParser _ _ h := h.same rfl rfl rfl rfl rfl rfl rfl rfl
  read c h := h.same rfl rfl (Socket.asyncReadSome_link c.socket)
    (Socket.asyncReadSome_connects c.socket) (Socket.asyncReadSome_connectsDone c.socket)
    (Socket.asyncReadSome_writes c.socket) rfl rfl

/-! ### Writing -/

/-- A write takes what is queued to the connection. Without one there is nothing to take. -/
theorem asyncWrite_lasts (ec : ErrorCode) {cbs : Callbacks κ} (hcbs : AllOf Stays cbs)
    (h : Lasts c) : Lasts (asyncWrite ec cbs c).2.2 := by
  have hclear : Lasts { c with dataWrited := [] } := h.same rfl rfl rfl rfl rfl rfl rfl rfl
  unfold asyncWrite
  dsimp only
  split_ifs with hec hq
  · exact carriesCalls_lasts.callErrorHandler (c := { c with dataWrited := [] })
      (callbackMoments_recorded hcbs trivial) hclear
  · have hlog : Lasts ({ c with dataWrited := [] }.log (.asyncWrite c.dataQueued.flatten)) :=
      hclear.log rfl rfl
    have hlink := Socket.asyncWrite_link c.dataQueued.flatten c.socket
    have hsent : sentOn { c with socket := c.socket.asyncWrite c.dataQueued.flatten } = sentOn c :=
      sentOn_link hlink
    refine hlog.congr rfl rfl rfl ?_ (Socket.asyncWrite_connects _ _)
      (Socket.asyncWrite_connectsDone _ _) ?_
    · rintro ⟨peer, sent, taken, hl⟩
      exact ⟨peer, sent, taken, hlink.trans hl⟩
    · show sentOn { c with socket := c.socket.asyncWrite c.dataQueued.flatten } ++
        (c.socket.asyncWrite c.dataQueued.flatten).writes.flatten ++ [] ++ postedBytes c.strand =
          sentOn c ++ c.socket.writes.flatten ++ c.dataQueued.flatten ++ postedBytes c.strand
      rw [hsent]
      by_cases hl : c.socket.link = .closed
      · have hm : made c.trace = [] := by
          cases h.phase with
          | down _ _ _ hm => exact hm
          | dialling _ _ _ hm => exact hm
          | up _ hl' =>
            obtain ⟨peer, sent, taken, hl'⟩ := hl'
            cases hl.symm.trans hl'
        have hw : (c.socket.asyncWrite c.dataQueued.flatten).writes = c.socket.writes := by
          rw [Socket.asyncWrite, hl]
        rw [hw, (h.blank hm).2.2.1]
      · have hw : (c.socket.asyncWrite c.dataQueued.flatten).writes =
            c.socket.writes ++ [c.dataQueued.flatten] := by
          unfold Socket.asyncWrite
          split
          · next hl' => exact absurd hl' hl
          · rfl
        rw [hw]
        simp
  · exact hclear

/-- A command is run. -/
theorem doAsyncCommand_lasts {buff : Bytes} {handler : Option κ} {cbs : Callbacks κ}
    {strand : List (Posted κ)} (hcbs : AllOf Stays cbs)
    (hs : c.strand = .doAsyncCommand buff handler :: strand) (h : Lasts c) :
    Lasts (doAsyncCommand buff handler cbs { c with strand := strand }).2.2 := by
  have hlog : Lasts (c.log (.doAsyncCommand buff handler)) := h.log rfl rfl
  have hqueue : Lasts { c.log (.doAsyncCommand buff handler) with
      strand := strand
      handlers := c.handlers ++ [handler]
      dataQueued := c.dataQueued ++ [buff] } := by
    refine hlog.congr rfl rfl rfl id rfl rfl ?_
    show sentOn c ++ c.socket.writes.flatten ++ (c.dataQueued ++ [buff]).flatten ++
      postedBytes strand = outgoing c ++ postedBytes c.strand
    rw [hs]
    simp [outgoing, postedBytes, posted?]
  unfold doAsyncCommand
  dsimp only
  split_ifs
  · exact asyncWrite_lasts none hcbs hqueue
  · exact hqueue

theorem client_lasts {o : Outcome κ} (h : Lasts o.2.2) : Lasts o.client := by
  rcases o with ⟨_ | _ | _, cbs, c⟩
  · exact h
  · exact h
  · exact h.same rfl rfl rfl rfl rfl rfl rfl rfl

/-! ### Steps and runs -/

/-- A connect succeeds. -/
theorem connectOk_lasts {peer : Peer} {socket : Socket κ} (h : Lasts c)
    (hs : c.socket.connectOk peer = some socket) : Lasts { c with socket := socket } := by
  obtain ⟨handler, connects, hw, hl, rfl⟩ := Socket.connectOk_cases hs
  cases h.phase with
  | down _ hw' => cases hw.symm.trans hw'
  | up _ _ hw' => cases hw.symm.trans hw'
  | dialling hst hone hlinked hm =>
    rw [hw, List.length_cons] at hone
    refine ⟨⟨?_, h.plain, h.apart⟩, .dialling hst ?_ (fun _ _ _ => ⟨peer, [], 0, rfl⟩) hm⟩
    · refine Eq.trans ?_ h.bytes
      unfold outgoing sentOn
      rw [hl]
    · show connects.length + (c.socket.connectsDone ++ [(none, handler)]).length = 1
      rw [List.length_append, List.length_singleton]
      omega

/-- A connect fails. -/
theorem connectFail_lasts {err : Sync.Defs.SysError} {socket : Socket κ} (h : Lasts c)
    (hs : c.socket.connectFail err = some socket) : Lasts { c with socket := socket } := by
  obtain ⟨handler, connects, hw, rfl⟩ := Socket.connectFail_cases hs
  cases h.phase with
  | down _ hw' => cases hw.symm.trans hw'
  | up _ _ hw' => cases hw.symm.trans hw'
  | dialling hst hone hlinked hm =>
    rw [hw, List.length_cons] at hone
    refine ⟨⟨h.bytes, h.plain, h.apart⟩, .dialling hst ?_ ?_ hm⟩
    · show connects.length + (c.socket.connectsDone ++ [(some err, handler)]).length = 1
      rw [List.length_append, List.length_singleton]
      omega
    · intro r hr hnone
      rcases List.mem_append.mp hr with hr | hr
      · exact hlinked r hr hnone
      · rw [List.mem_singleton.mp hr] at hnone
        cases hnone

/-- The completion handler of a connect begins. -/
theorem connectDone_lasts {ec : ErrorCode} {handler : κ} {connectsDone : List (ErrorCode × κ)}
    (h : Lasts c) (hs : c.socket.connectsDone = (ec, handler) :: connectsDone) :
    Lasts { c with
      socket := { c.socket with connectsDone := connectsDone }
      state := if ec.isNone then .connected else .unconnected } := by
  cases h.phase with
  | down _ _ hd => cases hs.symm.trans hd
  | up _ _ _ hd => cases hs.symm.trans hd
  | dialling hst hone hlinked hm =>
    rw [hs, List.length_cons] at hone
    have hw : c.socket.connects = [] := List.length_eq_zero_iff.mp (by omega)
    have hd : connectsDone = [] := List.length_eq_zero_iff.mp (by omega)
    have hne : c.state ≠ .subscribed := by
      rw [hst]
      exact fun heq => by cases heq
    refine ⟨⟨h.bytes, fun _ => h.plain hne, h.apart⟩, ?_⟩
    cases ec with
    | none =>
      have hl : Linked c.socket := hlinked (none, handler) (by rw [hs]; exact List.mem_cons_self) rfl
      exact .up rfl hl hw hd
    | some e => exact .down rfl hw hd hm

/-- **A step** that is not the failure of a write. -/
theorem step_lasts {e : Event κ} (he : AllIn Stays e) (hw : ∀ err, e ≠ .writeFail err)
    (h : Lasts c) (hstep : step e c = some c') : Lasts c' := by
  obtain ⟨-, hs⟩ := step_cases hstep
  cases hs with
  | user s => exact carriesCalls_lasts.runScript s c (scriptMoments_recorded he c) h
  | @posted cbs f strand hs =>
    refine client_lasts ?_
    cases f with
    | doAsyncCommand buff handler => exact doAsyncCommand_lasts he hs h
    | message msgHandler msg =>
      have hpop : Lasts { c with strand := strand } :=
        h.same rfl rfl rfl rfl rfl rfl rfl (by rw [hs]; rfl)
      exact carriesCalls_lasts.afterEntry (scriptMoments_recorded (headD_all he) _)
        (hpop.log rfl rfl)
  | receive hs =>
    obtain ⟨reads, peer, sent, taken, -, hl, rfl⟩ := Socket.receive_cases hs
    refine h.congr rfl rfl rfl (fun _ => ⟨_, _, _, rfl⟩) rfl rfl ?_
    unfold outgoing sentOn
    rw [hl]
  | readFail hs =>
    obtain ⟨reads, -, rfl⟩ := Socket.readFail_cases hs
    exact h.same rfl rfl rfl rfl rfl rfl rfl rfl
  | @readDone cbs ec size readsDone o hs ho =>
    have hpop : Lasts { c with socket := { c.socket with readsDone := readsDone } } :=
      h.same rfl rfl rfl rfl rfl rfl rfl rfl
    have hQ : ∀ m ∈ stepMoments (.readDone cbs) c, Recorded Stays m :=
      stepMoments_recorded he c
    simp only [stepMoments, hs] at hQ
    exact client_lasts (carriesInput_lasts.reads.asyncRead hQ ho hpop)
  | send hs =>
    obtain ⟨data, rest, peer, sent, taken, -, hl, writes, writesDone, -, hs'⟩ := Socket.send_cases hs
    obtain ⟨sent', hl', hmoved⟩ := Socket.send_bytes hs hl
    refine h.congr rfl rfl rfl (fun _ => ⟨_, _, _, hl'⟩) ?_ ?_ ?_
    · rw [hs']
    · rw [hs']
    · unfold outgoing sentOn
      rw [hl, hl']
      show sent' ++ _ ++ c.dataQueued.flatten ++ postedBytes c.strand = _
      rw [hmoved]
  | writeFail hs => exact absurd rfl (hw _)
  | @writeDone cbs ec writesDone hs =>
    have hpop : Lasts { c with socket := { c.socket with writesDone := writesDone } } :=
      h.same rfl rfl rfl rfl rfl rfl rfl rfl
    exact client_lasts (asyncWrite_lasts ec he hpop)
  | connectOk hs => exact connectOk_lasts h hs
  | connectFail hs => exact connectFail_lasts h hs
  | @connectDone cbs ec handler connectsDone hs =>
    have hbegin := (connectDone_lasts h hs).log (a := .connect ec handler) rfl rfl
    refine client_lasts (carriesInput_lasts.reads.handleAsyncConnect rfl ?_ hbegin)
    exact scriptMoments_recorded (headD_all he) _

/-- **Commands come before subscriptions**: in every run without a disconnect in which no write fails,
what is on the connection, being written, queued and posted is what the accepted calls have issued, in
order, and in this order no command and no publication comes after a subscription. -/
theorem modes_apart {es : List (Event κ)} (hes : ∀ e ∈ es, AllIn Stays e)
    (hw : ∀ err, .writeFail err ∉ es) (h : run es .new = some c) :
    outgoing c ++ postedBytes c.strand =
      (((made c.trace).filterMap request).map fun q => makeCommand q.1).flatten ∧
    (made c.trace).Pairwise fun a b => subscribing a = true → commanding b = false := by
  have hnew : Lasts (.new : RedisClientImpl κ) :=
    ⟨⟨rfl, fun _ call hcall => (by cases hcall), .nil⟩, .down rfl rfl rfl rfl⟩
  have hlasts := run_events (P := fun e => AllIn Stays e ∧ ∀ err, e ≠ .writeFail err)
    (fun _ _ _ he hc h1 => step_lasts he.1 he.2 hc h1)
    (fun e he => ⟨hes e he, fun err herr => hw err (herr ▸ he)⟩) hnew h
  refine ⟨?_, hlasts.apart⟩
  rw [← issued_made]
  exact hlasts.bytes

/-! ### A run -/

/-- The connect handler issues a command. Then a channel is subscribed, and a command after that is
refused, but not the end of the subscription. -/
def switching : List (Event ℕ) :=
  dial silent ++ [.connectDone [.call (.command [65] [] none) .returns .returns], .posted [], .send 2,
    .user (.call (.subscribe [66] 1 none) .returns (.call (.command [67] [] none) .throws
      (.call (.unsubscribe ⟨0, [66]⟩) .returns .returns))), .posted [], .send 99, .writeDone []]

/-- The command and the subscription are on the connection, and the end of the subscription is
posted. -/
theorem modes_apart_switching : ∃ c, run switching .new = some c ∧
    outgoing c ++ postedBytes c.strand =
      (((made c.trace).filterMap request).map fun q => makeCommand q.1).flatten ∧
    ((made c.trace).Pairwise fun a b => subscribing a = true → commanding b = false) ∧
    made c.trace = [.command [65] [] none, .subscribe [66] 1 none, .unsubscribe ⟨0, [66]⟩] := by
  have hmade : (run switching .new).map (fun c => made c.trace) =
      some [.command [65] [] none, .subscribe [66] 1 none, .unsubscribe ⟨0, [66]⟩] := by
    decide +kernel
  obtain ⟨c, hrun, hc⟩ := Option.map_eq_some_iff.mp hmade
  have hall : ∀ e ∈ switching, AllIn Stays e := by decide
  have hwrites : ∀ err, .writeFail err ∉ switching := by
    intro err
    simp [switching, dial]
  obtain ⟨hbytes, hpairs⟩ := modes_apart hall hwrites hrun
  exact ⟨c, hrun, hbytes, hpairs, hc⟩

end RedisClient.Async.Modes

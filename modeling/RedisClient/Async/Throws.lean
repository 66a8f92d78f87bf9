import RedisClient.Async.Reads
import RedisClient.Async.Told

/-! # A handler that throws

`asyncRead` starts the next read at its end, so a handler of a reply that throws leaves the client
without one. The client goes on saying that it is connected and takes commands, but as long as it is
not connected anew nothing that the server sends is processed any more (`throw_is_last`). -/

namespace RedisClient.Async.Throws

open RedisClient.Value RedisClient.Parser.Defs RedisClient.Peers RedisClient.Async.Asio
open RedisClient.Async.Defs RedisClient.Async.Rules RedisClient.Async.Trace
open RedisClient.Async.Moments RedisClient.Async.Delivery RedisClient.Async.Subscribing
open RedisClient.Async.OwnReplies RedisClient.Async.Told
open RedisClient.Sync.Defs (ErrorCode ClientState parserError)

variable {κ : Type} {c c1 c' : RedisClientImpl κ} {cbs : Callbacks κ}

/-! ### Reads and connects -/

/-- The reads that are not done or whose `asyncRead` has not run, those that a `close` has ended
too. -/
def outstandingReads (s : Socket κ) : ℕ := s.reads + s.readsDone.length

theorem outstandingReads_close (s : Socket κ) : outstandingReads s.close = outstandingReads s := by
  show 0 + (s.readsDone ++ List.replicate s.reads (some operationAborted, 0)).length = _
  rw [List.length_append, List.length_replicate]
  unfold outstandingReads
  omega

theorem outstandingReads_asyncReadSome (s : Socket κ) :
    outstandingReads s.asyncReadSome = outstandingReads s + 1 := by
  unfold outstandingReads Socket.asyncReadSome
  split
  · simp only [List.length_append, List.length_singleton]
    omega
  · dsimp only
    omega

/-- A read that is done. -/
theorem outstandingReads_done {s s' : Socket κ} {reads : ℕ} {r : ErrorCode × ℕ}
    (hreads : s.reads = reads + 1) (hreads' : s'.reads = reads)
    (hdone : s'.readsDone = s.readsDone ++ [r]) : outstandingReads s' = outstandingReads s := by
  unfold outstandingReads
  rw [hreads, hreads', hdone, List.length_append, List.length_singleton]
  omega

/-- Anything but a `connect`. -/
@[reducible] def NotConnect : Call κ → Prop
  | .connect _ _ => False
  | _ => True

instance : DecidablePred (NotConnect : Call κ → Prop) := decidableCalls _

/-- No connect is under way. -/
def Settled (c : RedisClientImpl κ) : Prop := underway c.socket = []

/-- What is carried outside of reads. -/
def KeepsSettled (c : RedisClientImpl κ) (_ : List (Moment κ)) (c' : RedisClientImpl κ) : Prop :=
  Settled c → Settled c' ∧ outstandingReads c'.socket = outstandingReads c.socket

theorem body_settles {call : Call κ} (hcall : NotConnect call) (h : Settled c) :
    Settled (call.body c).2.2 ∧ outstandingReads (call.body c).2.2.socket = outstandingReads c.socket := by
  have hb := body_cases call c
  generalize call.body c = r at hb ⊢
  cases hb with
  | disconnect => exact ⟨(underway_close c.socket).trans h, outstandingReads_close c.socket⟩
  | connect => exact hcall.elim
  | connected | refused | posts => exact ⟨h, rfl⟩

theorem carriesCalls_settles : CarriesCalls (κ := κ) (Recorded NotConnect) KeepsSettled := by
  refine carriesCalls_of_scripted (fun c h => ⟨h, rfl⟩) ?_ ?_
  · intro ms ms' c c1 c' h h' hc
    obtain ⟨h1, ho1⟩ := h hc
    obtain ⟨h2, ho2⟩ := h' h1
    exact ⟨h2, ho2.trans ho1⟩
  · rintro ⟨c, a, s⟩ hm hrec hc
    cases a with
    | call state call => exact body_settles (c := c.log (.call state call)) hrec.2 hc
    | returned | connect | error => exact ⟨hc, rfl⟩
    | _ => exact hm.elim

/-! ### The moments -/

/-- The handler of a reply throws. -/
def Breaks (m : Moment κ) : Prop := (reply? m.action).isSome ∧ ending m.script = .throws

instance : DecidablePred (Breaks : Moment κ → Prop) := fun m => inferInstanceAs
  (Decidable ((reply? m.action).isSome ∧ ending m.script = .throws))

/-- Nothing is delivered or processed. -/
def Mute (m : Moment κ) : Prop := reply? m.action = none ∧ processed? m.action = none

theorem Mute.not_breaks {m : Moment κ} (h : Mute m) : ¬ Breaks m := by
  rintro ⟨hreply, -⟩
  rw [h.1] at hreply
  cases hreply

theorem scriptMoments_mute (s : Script κ) (c : RedisClientImpl κ) :
    ∀ m ∈ scriptMoments s c, Mute m := by
  intro m hm
  have hof := scriptMoments_of (all_true s) c m hm
  rcases m with ⟨d, a, s'⟩
  cases a with
  | call | returned | connect | error => exact ⟨rfl, rfl⟩
  | _ => exact hof.elim

theorem callbackMoments_mute {action : Action κ} (hr : reply? action = none)
    (hp : processed? action = none) : ∀ m ∈ callbackMoments action cbs c, Mute m := by
  intro m hm
  rcases List.mem_cons.mp hm with rfl | hm
  · exact ⟨hr, hp⟩
  · exact scriptMoments_mute _ _ m hm

theorem asyncWriteMoments_mute (ec : ErrorCode) : ∀ m ∈ asyncWriteMoments ec cbs c, Mute m := by
  intro m hm
  unfold asyncWriteMoments at hm
  dsimp only at hm
  split_ifs at hm
  · exact callbackMoments_mute rfl rfl m hm
  · rw [List.mem_singleton.mp hm]
    exact ⟨rfl, rfl⟩
  · cases hm

/-! ### A message -/

/-- Part of a read has run in which no read is started: `ms` are its moments, and a handler that
throws ends it. -/
structure Delivers (ms : List (Moment κ)) (c : RedisClientImpl κ) (o : Outcome κ) : Prop where
  settled : Settled o.2.2
  reads : outstandingReads o.2.2.socket = outstandingReads c.socket
  unprocessed : ∀ m ∈ ms, processed? m.action = none
  ends : (∃ m ∈ ms, Breaks m) → o.1 ≠ .returns

theorem callErrorHandler_delivers (r : Report) (hcbs : AllOf NotConnect cbs) (h : Settled c) :
    Delivers (errorMoments r cbs c) c (callErrorHandler r cbs c) := by
  have hmute : ∀ m ∈ errorMoments r cbs c, Mute m := callbackMoments_mute rfl rfl
  obtain ⟨hs, ho⟩ := carriesCalls_settles.callErrorHandler (r := r)
    (callbackMoments_recorded hcbs trivial) h
  refine ⟨hs, ho, fun m hm => (hmute m hm).2, ?_⟩
  rintro ⟨m, hm, hb⟩
  exact absurd hb (hmute m hm).not_breaks

/-- The handler in front of the queue is called. -/
theorem callFront_delivers (v : RedisValue) (hcbs : AllOf NotConnect cbs) (hh : c.handlers ≠ [])
    (h : Settled c) : Delivers (frontMoments v cbs c) c (callFront v cbs c) := by
  obtain ⟨handler, handlers, hcons⟩ := List.exists_cons_of_ne_nil hh
  obtain ⟨hs, ho⟩ := carriesCalls_settles.callFront (fun _ hc => ⟨hc, rfl⟩)
    (fun _ hc => ⟨hc, rfl⟩) (frontMoments_recorded v hcbs c) h
  -- the moments are the call of the handler and what it does
  obtain ⟨ms, hms, hmute⟩ : ∃ ms, frontMoments v cbs c =
      ⟨c, .reply handler v, handlerScript handler cbs⟩ :: ms ∧ ∀ m ∈ ms, Mute m := by
    unfold frontMoments
    rw [hcons]
    cases handler with
    | none => exact ⟨[], rfl, fun m hm => by cases hm⟩
    | some handler => exact ⟨_, rfl, scriptMoments_mute _ _⟩
  rw [hms]
  refine ⟨hs, ho, ?_, ?_⟩
  · intro m hm
    rcases List.mem_cons.mp hm with rfl | hm
    · rfl
    · exact (hmute m hm).2
  · rintro ⟨m, hm, hb⟩
    rcases List.mem_cons.mp hm with rfl | hm
    · have hthrows : ending (handlerScript handler cbs) = .throws := hb.2
      rcases callFront_cases v cbs hcons with ⟨he, -⟩ | ⟨he, -⟩ | ⟨-, he, -⟩
      · cases he.symm.trans hthrows
      · cases he.symm.trans hthrows
      · rw [he]
        exact fun heq => by cases heq
    · exact absurd hb (hmute m hm).not_breaks

/-- **A message.** -/
theorem doProcessMessage_delivers (v : RedisValue) (hcbs : AllOf NotConnect cbs) (h : Settled c) :
    ∃ ms, doProcessMessageMoments v cbs c = ⟨c, .doProcessMessage c.state v, .returns⟩ :: ms ∧
      Delivers ms c (doProcessMessage v cbs c) := by
  obtain ⟨ms, hms, hcases⟩ := doProcessMessage_cases v cbs c
  refine ⟨ms, hms, ?_⟩
  have hlog : Settled (c.log (.doProcessMessage c.state v)) := h
  rcases hcases with ⟨channel, msg, rfl, hd⟩ | ⟨hh, rfl, hd⟩ | ⟨text, -, rfl, hd⟩ <;> rw [hd]
  · obtain ⟨posts, ss, hp⟩ := subscribers_posts channel msg (c.log (.doProcessMessage c.state v))
    rw [hp]
    refine ⟨h, rfl, ?_, ?_⟩
    · rintro m ⟨⟩
    · rintro ⟨m, ⟨⟩, -⟩
  · have hfront := callFront_delivers (c := c.log (.doProcessMessage c.state v)) v hcbs hh hlog
    exact ⟨hfront.settled, hfront.reads, hfront.unprocessed, hfront.ends⟩
  · have herror := callErrorHandler_delivers (.text text) hcbs hlog
    exact ⟨herror.settled, herror.reads, herror.unprocessed, herror.ends⟩

/-! ### A step -/

/-- After a handler that throws no message is processed. -/
def NoneAfter (m m' : Moment κ) : Prop := Breaks m → processed? m'.action = none

/-- What happens between two states: reads are not added to those that are outstanding, nothing is
processed without one, and none is left after a handler that throws. -/
structure Fades (c : RedisClientImpl κ) (ms : List (Moment κ)) (c' : RedisClientImpl κ) : Prop where
  settled : Settled c'
  outstanding_le : outstandingReads c'.socket ≤ outstandingReads c.socket
  deaf : outstandingReads c.socket = 0 → ∀ m ∈ ms, processed? m.action = none
  ends : (∃ m ∈ ms, Breaks m) → outstandingReads c'.socket = 0
  pairwise : ms.Pairwise NoneAfter

theorem Fades.append {ms ms' : List (Moment κ)} (h : Fades c ms c1) (h' : Fades c1 ms' c') :
    Fades c (ms ++ ms') c' where
  settled := h'.settled
  outstanding_le := h'.outstanding_le.trans h.outstanding_le
  deaf h0 m hm := by
    rcases List.mem_append.mp hm with hm | hm
    · exact h.deaf h0 m hm
    · exact h'.deaf (Nat.le_zero.mp (h.outstanding_le.trans h0.le)) m hm
  ends := by
    rintro ⟨m, hm, hb⟩
    rcases List.mem_append.mp hm with hm | hm
    · have h0 := h.ends ⟨m, hm, hb⟩
      have hle := h'.outstanding_le
      omega
    · exact h'.ends ⟨m, hm, hb⟩
  pairwise := by
    refine List.pairwise_append.mpr ⟨h.pairwise, h'.pairwise, fun m hm m' hm' hb => ?_⟩
    exact h'.deaf (h.ends ⟨m, hm, hb⟩) m' hm'

/-- Nothing is delivered or processed. -/
theorem Fades.mute {ms : List (Moment κ)} (hs : Settled c')
    (ho : outstandingReads c'.socket = outstandingReads c.socket) (hms : ∀ m ∈ ms, Mute m) :
    Fades c ms c' where
  settled := hs
  outstanding_le := ho.le
  deaf _ m hm := (hms m hm).2
  ends := by
    rintro ⟨m, hm, hb⟩
    exact absurd hb (hms m hm).not_breaks
  pairwise := List.pairwise_of_forall_mem_list fun m hm _ _ hb => absurd hb (hms m hm).not_breaks

/-- Bytes of a read are processed while no read is outstanding, and the next one may be started at
the end. -/
structure Processes (ms : List (Moment κ)) (c' : RedisClientImpl κ) : Prop where
  settled : Settled c'
  outstanding_le : outstandingReads c'.socket ≤ 1
  ends : (∃ m ∈ ms, Breaks m) → outstandingReads c'.socket = 0
  pairwise : ms.Pairwise NoneAfter

theorem processMessage_processes (h : Settled c) (h0 : outstandingReads c.socket = 0) :
    Processes [] (processMessage c) where
  settled := (underway_socket (Socket.asyncReadSome_connects _)
    (Socket.asyncReadSome_connectsDone _)).trans h
  outstanding_le := by
    show outstandingReads c.socket.asyncReadSome ≤ 1
    rw [outstandingReads_asyncReadSome, h0]
  ends := by
    rintro ⟨m, hm, -⟩
    cases hm
  pairwise := .nil

/-- A part of a read after which it does not go on. -/
theorem Delivers.processes {ms : List (Moment κ)} {o : Outcome κ} (h : Delivers ms c o)
    (h0 : outstandingReads c.socket = 0) : Processes ms o.2.2 where
  settled := h.settled
  outstanding_le := by
    rw [h.reads, h0]
    exact Nat.zero_le 1
  ends _ := h.reads.trans h0
  pairwise := List.pairwise_of_forall_mem_list fun _ _ m' hm' _ => h.unprocessed m' hm'

/-- Before them no handler has thrown. -/
theorem Processes.after {ms ms' : List (Moment κ)} (hnone : ∀ m ∈ ms, ¬ Breaks m)
    (h : Processes ms' c') : Processes (ms ++ ms') c' where
  settled := h.settled
  outstanding_le := h.outstanding_le
  ends := by
    rintro ⟨m, hm, hb⟩
    rcases List.mem_append.mp hm with hm | hm
    · exact absurd hb (hnone m hm)
    · exact h.ends ⟨m, hm, hb⟩
  pairwise := by
    refine List.pairwise_append.mpr ⟨?_, h.pairwise, fun m hm _ _ hb => absurd hb (hnone m hm)⟩
    exact List.pairwise_of_forall_mem_list fun m hm _ _ hb => absurd hb (hnone m hm)

/-- The loop of `asyncRead`. -/
theorem readLoop_processes : ∀ (fuel : ℕ) {data : Bytes} {cbs : Callbacks κ}
    {c : RedisClientImpl κ} {o : Outcome κ}, AllOf NotConnect cbs → Settled c →
    outstandingReads c.socket = 0 → readLoop fuel data cbs c = some o →
    Processes (readLoopMoments fuel data cbs c) o.2.2
  | 0, data, cbs, c, o, _, h, h0, ho => by
    simp only [readLoop] at ho
    split_ifs at ho
    cases ho
    exact processMessage_processes h h0
  | fuel + 1, data, cbs, c, o, hcbs, h, h0, ho => by
    simp only [readLoop, readLoopMoments] at ho ⊢
    split_ifs at ho ⊢
    · cases ho
      exact processMessage_processes h h0
    · rcases hp : parse c.redisParser data with _ | ⟨⟨k, _ | _ | _⟩, p⟩ <;> rw [hp] at ho
      · cases ho
      · dsimp only at ho ⊢
        set d : RedisClientImpl κ := { c with redisParser := (result p).2 } with hd
        obtain ⟨ms, hms, hdel⟩ :=
          doProcessMessage_delivers (c := d) (result p).1 hcbs (show Settled d from h)
        have hleft := (keeps_true.doProcessMessage (result p).1 d hcbs).2
        have hd0 : outstandingReads d.socket = 0 := h0
        have hfirst : ∀ m ∈ [Moment.mk d (.doProcessMessage d.state (result p).1) .returns],
            ¬ Breaks m := by
          intro m hm hb
          rw [List.mem_singleton.mp hm] at hb
          cases hb.1
        rw [hms, ← List.singleton_append, List.append_assoc]
        refine Processes.after hfirst ?_
        rcases hx : doProcessMessage (result p).1 cbs d with ⟨_ | _ | _, cbs1, c1⟩ <;>
          rw [hx] at ho hdel hleft <;> dsimp only at ho ⊢
        · refine Processes.after (fun m hm hb => hdel.ends ⟨m, hm, hb⟩ rfl) ?_
          exact readLoop_processes fuel hleft hdel.settled (hdel.reads.trans hd0) ho
        · cases ho
          rw [List.append_nil]
          exact hdel.processes hd0
        · cases ho
          rw [List.append_nil]
          exact hdel.processes hd0
      · cases ho
        exact processMessage_processes (c := { c with redisParser := p }) h h0
      · cases ho
        exact (callErrorHandler_delivers (c := { c with redisParser := p }) _ hcbs h).processes h0

/-- A read that is done is the only one that is outstanding. -/
theorem readDone_fades {ec : ErrorCode} {size : ℕ} {readsDone : List (ErrorCode × ℕ)} {o : Outcome κ}
    (hcbs : AllOf NotConnect cbs) (h : Settled c) (hone : outstandingReads c.socket ≤ 1)
    (hs : c.socket.readsDone = (ec, size) :: readsDone)
    (ho : asyncRead ec size cbs { c with socket := { c.socket with readsDone := readsDone } } =
      some o) :
    Fades c (asyncReadMoments ec size cbs
      { c with socket := { c.socket with readsDone := readsDone } }) o.2.2 := by
  set d : RedisClientImpl κ := { c with socket := { c.socket with readsDone := readsDone } } with hd
  have hpop : outstandingReads c.socket = outstandingReads d.socket + 1 := by
    show c.socket.reads + c.socket.readsDone.length = c.socket.reads + readsDone.length + 1
    rw [hs, List.length_cons, Nat.add_assoc]
  have h0 : outstandingReads d.socket = 0 := by omega
  have hprocesses : Processes (asyncReadMoments ec size cbs d) o.2.2 := by
    unfold asyncRead asyncReadMoments at *
    split_ifs at ho ⊢
    · cases ho
      exact (callErrorHandler_delivers (c := d) _ hcbs h).processes h0
    · cases ho
      exact Delivers.processes (o := (.returns, cbs, d)) ⟨h, rfl, by simp, by simp⟩ h0
    · exact readLoop_processes _ hcbs h h0 ho
  refine ⟨hprocesses.settled, ?_, fun hc => by omega, hprocesses.ends, hprocesses.pairwise⟩
  exact hprocesses.outstanding_le.trans (by omega)

theorem asyncWrite_settles (ec : ErrorCode) (hcbs : AllOf NotConnect cbs) (h : Settled c) :
    Settled (asyncWrite ec cbs c).2.2 ∧
      outstandingReads (asyncWrite ec cbs c).2.2.socket = outstandingReads c.socket := by
  unfold asyncWrite
  dsimp only
  split_ifs
  · exact carriesCalls_settles.callErrorHandler (c := { c with dataWrited := [] })
      (callbackMoments_recorded hcbs trivial) h
  · refine ⟨(underway_socket (Socket.asyncWrite_connects _ _)
      (Socket.asyncWrite_connectsDone _ _)).trans h, ?_⟩
    exact congrArg₂ (fun reads done => reads + List.length done) (Socket.asyncWrite_reads _ _)
      (Socket.asyncWrite_readsDone _ _)
  · exact ⟨h, rfl⟩

theorem asyncWrite_fades (ec : ErrorCode) (hcbs : AllOf NotConnect cbs) (h : Settled c) :
    Fades c (asyncWriteMoments ec cbs c) (asyncWrite ec cbs c).2.2 := by
  obtain ⟨hs, ho⟩ := asyncWrite_settles ec hcbs h
  exact .mute hs ho (asyncWriteMoments_mute ec)

/-- A function of the strand is run. -/
theorem runPosted_fades (f : Posted κ) (hcbs : AllOf NotConnect cbs) (h : Settled c) :
    Fades c (runPostedMoments f cbs c) (runPosted f cbs c).2.2 := by
  cases f with
  | doAsyncCommand buff handler =>
    have hqueue : Fades c [⟨c, .doAsyncCommand buff handler, .returns⟩]
        { c.log (.doAsyncCommand buff handler) with
          handlers := c.handlers ++ [handler], dataQueued := c.dataQueued ++ [buff] } :=
      .mute h rfl fun m hm => by
        rw [List.mem_singleton.mp hm]
        exact ⟨rfl, rfl⟩
    unfold runPostedMoments doAsyncCommandMoments runPosted doAsyncCommand
    dsimp only
    split_ifs
    · exact hqueue.append (asyncWrite_fades none hcbs hqueue.settled)
    · exact hqueue
  | message msgHandler msg =>
    obtain ⟨hs, ho⟩ := carriesCalls_settles.afterEntry (c := c.log (.message msgHandler msg))
      (scriptMoments_recorded (headD_all hcbs) _) h
    exact .mute hs ho (callbackMoments_mute rfl rfl)

theorem client_socket (o : Outcome κ) : o.client.socket = o.2.2.socket := by
  rcases o with ⟨_ | _ | _, cbs, c⟩ <;> rfl

theorem Fades.client {ms : List (Moment κ)} {o : Outcome κ} (h : Fades c ms o.2.2) :
    Fades c ms o.client := by
  have hsocket := client_socket o
  refine ⟨?_, ?_, h.deaf, ?_, h.pairwise⟩
  · unfold Settled
    rw [hsocket]
    exact h.settled
  · rw [hsocket]
    exact h.outstanding_le
  · rw [hsocket]
    exact h.ends

/-- What the system does to the socket while no connect is under way. -/
theorem socket_fades {s : Socket κ} {d : RedisClientImpl κ} (hd : d.socket = s) (h : Settled c)
    (hconnects : s.connects = c.socket.connects) (hdone : s.connectsDone = c.socket.connectsDone)
    (ho : outstandingReads s = outstandingReads c.socket) : Fades c [] d := by
  refine .mute ?_ (by rw [hd, ho]) fun m hm => by cases hm
  unfold Settled
  rw [hd, underway_socket hconnects hdone]
  exact h

/-- **A step** without a `connect`. -/
theorem step_fades {e : Event κ} (he : AllIn NotConnect e) (h : Settled c)
    (hone : outstandingReads c.socket ≤ 1) (hstep : step e c = some c') :
    Fades c (stepMoments e c) c' := by
  obtain ⟨hdone, hconnects⟩ : c.socket.connectsDone = [] ∧ c.socket.connects = [] := by
    obtain ⟨h1, h2⟩ := List.append_eq_nil_iff.mp h
    exact ⟨List.map_eq_nil_iff.mp h1, h2⟩
  obtain ⟨-, hs⟩ := step_cases hstep
  cases hs with
  | user s =>
    obtain ⟨hs, ho⟩ := carriesCalls_settles.runScript s c (scriptMoments_recorded he c) h
    exact .mute hs ho (scriptMoments_mute s c)
  | @posted cbs f strand hs =>
    simp only [stepMoments, hs]
    have hfades := runPosted_fades (c := { c with strand := strand }) f he h
    exact Fades.client ⟨hfades.settled, hfades.outstanding_le, hfades.deaf, hfades.ends,
      hfades.pairwise⟩
  | @readDone cbs ec size readsDone o hs ho =>
    simp only [stepMoments, hs]
    exact (readDone_fades he h hone hs ho).client
  | @writeDone cbs ec writesDone hs =>
    simp only [stepMoments, hs]
    have hfades := asyncWrite_fades
      (c := { c with socket := { c.socket with writesDone := writesDone } }) ec he h
    exact Fades.client ⟨hfades.settled, hfades.outstanding_le, hfades.deaf, hfades.ends,
      hfades.pairwise⟩
  | connectDone hs =>
    rw [hdone] at hs
    cases hs
  | receive hs =>
    obtain ⟨reads, peer, sent, taken, hreads, -, rfl⟩ := Socket.receive_cases hs
    exact socket_fades rfl h rfl rfl (outstandingReads_done hreads rfl rfl)
  | readFail hs =>
    obtain ⟨reads, hreads, rfl⟩ := Socket.readFail_cases hs
    exact socket_fades rfl h rfl rfl (outstandingReads_done hreads rfl rfl)
  | send hs =>
    obtain ⟨data, rest, peer, sent, taken, -, -, writes, writesDone, -, rfl⟩ := Socket.send_cases hs
    exact socket_fades rfl h rfl rfl rfl
  | writeFail hs =>
    obtain ⟨data, writes, -, rfl⟩ := Socket.writeFail_cases hs
    exact socket_fades rfl h rfl rfl rfl
  | connectOk hs => exact absurd hconnects (Socket.connects_ne_nil (Or.inl ⟨_, hs⟩))
  | connectFail hs => exact absurd hconnects (Socket.connects_ne_nil (Or.inr ⟨_, hs⟩))

/-- **A run** without a `connect`. -/
theorem run_fades : ∀ {es : List (Event κ)} {c c' : RedisClientImpl κ},
    (∀ e ∈ es, AllIn NotConnect e) → Settled c → outstandingReads c.socket ≤ 1 → run es c = some c' →
      Fades c (runMoments es c) c'
  | [], c, c', _, h, _, hrun => by
    cases hrun
    exact .mute h rfl fun m hm => by cases hm
  | e :: es, c, c', hes, h, hone, hrun => by
    obtain ⟨c1, h1, h2⟩ := Option.bind_eq_some_iff.mp hrun
    have hstep := step_fades (hes e List.mem_cons_self) h hone h1
    rw [runMoments_cons h1]
    exact hstep.append (run_fades (fun e' he' => hes e' (List.mem_cons_of_mem e he')) hstep.settled
      (hstep.outstanding_le.trans hone) h2)

/-- **A handler of a reply that throws is the last**: from a state with one read that is outstanding
and no connect under way, in every run in which `connect` is not called, nothing is processed after a
handler of a reply has thrown, and in the end no read is outstanding. -/
theorem throw_is_last {es : List (Event κ)} (hes : ∀ e ∈ es, AllIn NotConnect e)
    (hsettled : underway c.socket = []) (hone : outstandingReads c.socket ≤ 1)
    (hrun : run es c = some c') :
    (runMoments es c).Pairwise (fun m m' => Breaks m → processed? m'.action = none) ∧
      ((∃ m ∈ runMoments es c, Breaks m) → outstandingReads c'.socket = 0) := by
  have h := run_fades hes hsettled hone hrun
  exact ⟨h.pairwise, h.ends⟩

/-! ### A run -/

/-- The client is connected and reads. -/
def listening : List (Event ℕ) := dial (pong.peer ()) ++ [.connectDone []]

/-- Two commands are issued, both replies are received in one read, and the handler of the first
throws. -/
def dropped : List (Event ℕ) :=
  [.user (.call (.command [65] [] (some 1)) .returns (.call (.command [66] [] (some 2)) .returns
    .returns)), .posted [], .posted [], .send 99, .writeDone [], .send 99, .receive 99,
    .readDone [.throws], .user (.call (.command [67] [] (some 3)) .returns .returns)]

/-- The second reply is lost, and the client says that it is connected. -/
theorem throw_is_last_dropped : ∃ c c', run listening .new = some c ∧ run dropped c = some c' ∧
    (runMoments dropped c).Pairwise (fun m m' => Breaks m → processed? m'.action = none) ∧
    outstandingReads c'.socket = 0 ∧ c'.isConnected = true ∧ (replies c'.trace).length = 1 := by
  have hall : ∀ e ∈ dropped, AllIn NotConnect e := by decide
  have hrun : ((run listening .new).bind fun c => (run dropped c).map fun c' =>
      decide (underway c.socket = [] ∧ outstandingReads c.socket ≤ 1 ∧
        (∃ m ∈ runMoments dropped c, Breaks m) ∧ c'.isConnected = true ∧
        (replies c'.trace).length = 1)) = some true := by decide +kernel
  obtain ⟨c, hc, hrest⟩ := Option.bind_eq_some_iff.mp hrun
  obtain ⟨c', hc', hfacts⟩ := Option.map_eq_some_iff.mp hrest
  obtain ⟨hsettled, hone, hbreaks, hconn, hreplies⟩ := of_decide_eq_true hfacts
  obtain ⟨hpairs, hnone⟩ := throw_is_last hall hsettled hone hc'
  exact ⟨c, c', hc, hc', hpairs, hnone hbreaks, hconn, hreplies⟩

end RedisClient.Async.Throws

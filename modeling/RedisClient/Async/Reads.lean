import RedisClient.Async.Delivery
import RedisClient.Async.Subscribing

/-! # The read that is pending

`handleAsyncConnect` starts the first read, `asyncRead` the next one at its end, and a disconnect ends
the one that is pending. But a read that fails leaves a connected client without one, and so do bytes
that cannot be parsed; a callback of a read that disconnects the client and returns leaves it with one,
and with two after the next connect.

In a run without these (`Careful`) exactly one read is pending while the client is connected, and none
otherwise (`one_read`). -/

namespace RedisClient.Async.Reads

open RedisClient.Value RedisClient.Parser.Defs RedisClient.Peers RedisClient.Async.Asio
open RedisClient.Async.Defs RedisClient.Async.Rules RedisClient.Async.Trace
open RedisClient.Async.Moments RedisClient.Async.Delivery RedisClient.Async.OwnReplies
open RedisClient.Async.Subscribing
open RedisClient.Sync.Defs (SysError ErrorCode ClientState parserError)

variable {κ : Type} {c c' : RedisClientImpl κ}

/-! ### Reads that are pending -/

/-- The reads that are done and whose `asyncRead` has not run, but for those that a `close` has
ended. -/
def doneReads (s : Socket κ) : ℕ := s.readsDone.countP fun r => r.1 ≠ some operationAborted

/-- **The reads that are pending.** -/
def pendingReads (s : Socket κ) : ℕ := s.reads + doneReads s

/-- A connected client has one read that is pending, and any other none. -/
def Armed (c : RedisClientImpl κ) : Prop :=
  pendingReads c.socket = if c.isConnected then 1 else 0

/-! ### The condition -/

/-- What a callback of a read does: if reading goes on after it, it returns without a disconnect or
throws after one, and if the error handler is told that reading has ended, it disconnects. -/
@[reducible] def Rearms (m : Moment κ) : Prop :=
  match m.action with
  | .reply _ _ => Tidy m.script (m.client.log m.action)
  | .error (.text text) => (Misread text → Tidy m.script (m.client.log m.action)) ∧
      (text = chars parserError → Disconnects m.script (m.client.log m.action))
  | .error (.message _) => Disconnects m.script (m.client.log m.action)
  | _ => True

/-- The handler of a connect that has succeeded returns without a disconnect or throws after one. -/
@[reducible] def Greets (m : Moment κ) : Prop :=
  match m.action with
  | .connect none _ => Tidy m.script (m.client.log m.action)
  | _ => True

/-- What is asked of a step: a callback outside of a read does not disconnect while a read is done
whose `asyncRead` has not run; the callbacks of a read are as above; the system does not abort a read;
and a connect is not done while the client is connected. -/
def Careful (e : Event κ) (c : RedisClientImpl κ) : Prop :=
  match e with
  | .user _ | .posted _ | .writeDone _ =>
    (∃ m ∈ stepMoments e c, IsDisconnect m.action) → doneReads c.socket = 0
  | .readDone _ => ∀ m ∈ stepMoments e c, Rearms m
  | .connectDone _ => c.isConnected = false ∧ ∀ m ∈ (stepMoments e c).take 1, Greets m
  | .readFail err => err ≠ operationAborted
  | .receive _ | .send _ | .writeFail _ | .connectOk _ | .connectFail _ => True

/-- All steps of a run are careful. -/
def CarefulRun : List (Event κ) → RedisClientImpl κ → Prop
  | [], _ => True
  | e :: es, c => Careful e c ∧ ∀ c1 ∈ step e c, CarefulRun es c1

/-! ### What each operation of the socket does -/

section Socket

variable {s s' : Socket κ}

theorem pendingReads_congr (hreads : s'.reads = s.reads) (hdone : s'.readsDone = s.readsDone) :
    pendingReads s' = pendingReads s := by
  unfold pendingReads doneReads
  rw [hreads, hdone]

theorem doneReads_close (s : Socket κ) : doneReads s.close = doneReads s := by
  simp [doneReads, Socket.close]

theorem pendingReads_asyncReadSome (s : Socket κ) :
    pendingReads s.asyncReadSome = pendingReads s + 1 := by
  unfold Socket.asyncReadSome pendingReads doneReads
  split
  · simp [RedisClient.Sync.Defs.EBADF, Nat.add_assoc]
  · dsimp only
    omega

/-- A read that is done, whether it has received bytes or failed. -/
theorem pendingReads_done {reads : ℕ} {r : ErrorCode × ℕ} (hr : r.1 ≠ some operationAborted)
    (hreads : s.reads = reads + 1) (hreads' : s'.reads = reads)
    (hdone : s'.readsDone = s.readsDone ++ [r]) : pendingReads s' = pendingReads s := by
  have hone : [r].countP (fun r => r.1 ≠ some operationAborted) = 1 := by simp [hr]
  unfold pendingReads doneReads
  rw [hdone, List.countP_append, hone, hreads, hreads']
  omega

theorem pendingReads_socket (h : (∃ n, s.send n = some s') ∨ (∃ e, s.writeFail e = some s') ∨
    (∃ peer, s.connectOk peer = some s') ∨ ∃ e, s.connectFail e = some s') :
    pendingReads s' = pendingReads s := by
  rcases h with ⟨n, h⟩ | ⟨e, h⟩ | ⟨peer, h⟩ | ⟨e, h⟩
  · obtain ⟨data, rest, peer, sent, taken, -, -, writes, writesDone, -, rfl⟩ :=
      Socket.send_cases h
    rfl
  · obtain ⟨data, writes, -, rfl⟩ := Socket.writeFail_cases h
    rfl
  · obtain ⟨handler, connects, -, -, rfl⟩ := Socket.connectOk_cases h
    rfl
  · obtain ⟨handler, connects, -, rfl⟩ := Socket.connectFail_cases h
    rfl

end Socket

/-! ### The user's code -/

/-- A call other than `disconnect`. -/
theorem body_reads {state : ClientState} {call : Call κ} (h : ¬ IsDisconnect (.call state call))
    (c : RedisClientImpl κ) : (call.body c).2.2.isConnected = c.isConnected ∧
      (call.body c).2.2.socket.reads = c.socket.reads ∧
      (call.body c).2.2.socket.readsDone = c.socket.readsDone := by
  have hb := body_cases call c
  generalize call.body c = r at hb ⊢
  cases hb with
  | disconnect => exact absurd trivial h
  | connect endpoint handler p hc =>
    refine ⟨?_, by simp, by simp⟩
    unfold RedisClientImpl.isConnected
    rcases hc with hc | hc <;> rw [hc] <;> rfl
  | connected | refused => exact ⟨rfl, rfl, rfl⟩
  | posts _ _ _ _ _ _ state _ hconn hstate =>
    refine ⟨?_, rfl, rfl⟩
    rcases hstate with rfl | rfl
    · rfl
    · exact (decide_eq_true hconn).symm

/-- **An entry of the user's code.** Only a disconnect matters: the client is not connected after it,
and no read is waiting. -/
theorem next_reads (m : Moment κ) :
    m.next.isConnected = (if IsDisconnect m.action then false else m.client.isConnected) ∧
    m.next.socket.reads = (if IsDisconnect m.action then 0 else m.client.socket.reads) ∧
    doneReads m.next.socket = doneReads m.client.socket := by
  rcases m with ⟨c, a, s⟩
  cases a with
  | call state call =>
    by_cases hd : IsDisconnect (.call state call)
    · rw [if_pos hd, if_pos hd]
      cases call <;> first
        | exact hd.elim
        | exact ⟨rfl, rfl, doneReads_close c.socket⟩
    · rw [if_neg hd, if_neg hd]
      obtain ⟨h1, h2, h3⟩ := body_reads hd (c.log (.call state call))
      refine ⟨h1, h2, ?_⟩
      show (call.body (c.log (.call state call))).2.2.socket.readsDone.countP _ = _
      rw [h3]
      rfl
  | _ =>
    rw [if_neg id, if_neg id]
    exact ⟨rfl, rfl, rfl⟩

/-- Code of the user has run that made these entries. -/
structure Ran (c : RedisClientImpl κ) (ms : List (Moment κ)) (c' : RedisClientImpl κ) : Prop where
  isConnected :
    c'.isConnected = if ∃ m ∈ ms, IsDisconnect m.action then false else c.isConnected
  reads : c'.socket.reads = if ∃ m ∈ ms, IsDisconnect m.action then 0 else c.socket.reads
  done : doneReads c'.socket = doneReads c.socket

theorem runScript_ran (s : Script κ) (c : RedisClientImpl κ) :
    Ran c (scriptMoments s c) (runScript s c).2 where
  isConnected := (carriesCalls_reset (f := RedisClientImpl.isConnected) fun m =>
    (next_reads m).1).runScript s c fun _ _ => trivial
  reads := (carriesCalls_reset (f := fun c : RedisClientImpl κ => c.socket.reads) fun m =>
    (next_reads m).2.1).runScript s c fun _ _ => trivial
  done := (carriesCalls_of_moment (Q := fun _ : Moment κ => True)
    (R := fun c _ c' => doneReads c'.socket = doneReads c.socket) (fun _ => rfl)
    (fun h1 h2 => h2.trans h1) fun m _ => (next_reads m).2.2).runScript s c fun _ _ => trivial

/-- If no read is pending, the user's code starts none. -/
theorem Ran.idle {ms : List (Moment κ)} (h : Ran c ms c') (hc : pendingReads c.socket = 0) :
    pendingReads c'.socket = 0 := by
  obtain ⟨hreads, hdone⟩ := Nat.add_eq_zero_iff.mp hc
  unfold pendingReads
  rw [h.reads, h.done, hreads, hdone, ite_self]

/-- Outside of a read the user's code keeps what is pending right, if there is no read that is done
when it disconnects. -/
theorem Ran.armed {ms : List (Moment κ)} (h : Ran c ms c') (hc : Armed c)
    (hms : (∃ m ∈ ms, IsDisconnect m.action) → doneReads c.socket = 0) : Armed c' := by
  unfold Armed pendingReads at *
  rw [h.isConnected, h.reads, h.done]
  by_cases hd : ∃ m ∈ ms, IsDisconnect m.action
  · rw [if_pos hd, if_pos hd, hms hd]
    rfl
  · rw [if_neg hd, if_neg hd]
    exact hc

/-! ### Callbacks of a read -/

/-- The bytes of a read are processed: the client is connected, and no read is pending. -/
structure Reading (c : RedisClientImpl κ) : Prop where
  isConnected : c.isConnected = true
  pending : pendingReads c.socket = 0

/-- The client has been disconnected, and no read is pending. -/
structure Gone (c : RedisClientImpl κ) : Prop where
  isConnected : c.isConnected = false
  pending : pendingReads c.socket = 0

theorem Gone.armed (h : Gone c) : Armed c := by
  unfold Armed
  rw [h.isConnected, h.pending]
  rfl

/-- The next read is started. -/
theorem Reading.processMessage (h : Reading c) : Armed (processMessage c) := by
  have hconn : (Defs.processMessage c).isConnected = true := h.isConnected
  unfold Armed
  rw [hconn, if_pos rfl]
  show pendingReads c.socket.asyncReadSome = 1
  rw [pendingReads_asyncReadSome, h.pending]

/-- Reading goes on with a connected client, or it is left because the user's code has disconnected
the client and thrown. -/
def Continues (o : Outcome κ) : Prop :=
  o.1 = .returns ∧ Reading o.2.2 ∨ o.1 = .throws ∧ Gone o.2.2

theorem runScript_gone {s : Script κ} (hc : pendingReads c.socket = 0) (hs : Disconnects s c) :
    Gone (runScript s c).2 := by
  have hran := runScript_ran s c
  refine ⟨?_, hran.idle hc⟩
  rw [hran.isConnected]
  exact if_pos hs

theorem runScript_tidy {s : Script κ} (hc : Reading c) (hs : Tidy s c) :
    (ending s = .returns ∧ Reading (runScript s c).2 ∧
        (runScript s c).2.handlers = c.handlers) ∨
      (ending s = .throws ∧ Gone (runScript s c).2) := by
  by_cases hd : Disconnects s c
  · have hgone := runScript_gone hc.pending hd
    cases he : ending s with
    | returns => exact absurd hd (hs.mp he)
    | throws => exact Or.inr ⟨rfl, hgone⟩
    | undefined => exact absurd he (ending_ne_undefined s)
  · have hran := runScript_ran s c
    refine Or.inl ⟨hs.mpr hd, ⟨?_, hran.idle hc.pending⟩, ?_⟩
    · rw [hran.isConnected]
      exact (if_neg hd).trans hc.isConnected
    · rw [runScript_handlers]
      exact if_neg hd

theorem callErrorHandler_continues {r : Report} {cbs : Callbacks κ} (hc : Reading c)
    (hs : Tidy (cbs.headD .returns) (c.log (.error r))) : Continues (callErrorHandler r cbs c) := by
  obtain ⟨cbs', h⟩ := callback_script cbs (c.log (.error r))
  unfold callErrorHandler
  rw [h]
  have hlog : Reading (c.log (.error r)) := ⟨hc.isConnected, hc.pending⟩
  rcases runScript_tidy hlog hs with ⟨he, hr, -⟩ | ⟨he, hg⟩
  · exact Or.inl ⟨he, hr⟩
  · exact Or.inr ⟨he, hg⟩

/-- The error handler is told that reading has ended, and disconnects. -/
theorem callErrorHandler_gone {r : Report} {cbs : Callbacks κ} (hc : pendingReads c.socket = 0)
    (hs : Disconnects (cbs.headD .returns) (c.log (.error r))) :
    Armed (callErrorHandler r cbs c).client := by
  obtain ⟨cbs', h⟩ := callback_script cbs (c.log (.error r))
  have hgone : Gone (runScript (cbs.headD .returns) (c.log (.error r))).2 := runScript_gone hc hs
  unfold callErrorHandler
  rw [h]
  cases he : ending (cbs.headD .returns) with
  | returns | throws => exact hgone.armed
  | undefined => exact absurd he (ending_ne_undefined _)

theorem Rearms.tidyAt {m : Moment κ} (h : Rearms m) : TidyAt m := by
  rcases m with ⟨c, a, s⟩
  cases a <;> first
    | exact h
    | trivial

theorem callFront_continues {v : RedisValue} {cbs : Callbacks κ} (hh : c.handlers ≠ [])
    (hc : Reading c) (hQ : ∀ m ∈ frontMoments v cbs c, Rearms m) : Continues (callFront v cbs c) := by
  obtain ⟨handler, handlers, hcons⟩ := List.exists_cons_of_ne_nil hh
  have htidy := tidy_of_front hcons fun m hm => (hQ m hm).tidyAt
  obtain ⟨cbs', hcall⟩ := callHandler_script handler v cbs c
  unfold callFront
  rw [hcons]
  dsimp only
  rw [hcall]
  have hlog : Reading (c.log (.reply handler v)) := ⟨hc.isConnected, hc.pending⟩
  rcases runScript_tidy hlog htidy with ⟨he, hr, hhandlers⟩ | ⟨he, hg⟩ <;> rw [he] <;> dsimp only
  · have hqueue := hhandlers.trans hcons
    rw [hqueue]
    exact Or.inl ⟨rfl, hr.isConnected, hr.pending⟩
  · exact Or.inr ⟨rfl, hg⟩

theorem doProcessMessage_continues {v : RedisValue} {cbs : Callbacks κ} (hc : Reading c)
    (hQ : ∀ m ∈ doProcessMessageMoments v cbs c, Rearms m) :
    Continues (doProcessMessage v cbs c) := by
  obtain ⟨ms, hms, hcases⟩ := doProcessMessage_cases v cbs c
  have hlog : Reading (c.log (.doProcessMessage c.state v)) := ⟨hc.isConnected, hc.pending⟩
  rw [hms] at hQ
  have hrest := fun m hm => hQ m (List.mem_cons_of_mem _ hm)
  rcases hcases with ⟨channel, msg, rfl, hd⟩ | ⟨hh, rfl, hd⟩ | ⟨text, htext, rfl, hd⟩ <;> rw [hd]
  · obtain ⟨posts, ss, hp⟩ := subscribers_posts channel msg (c.log (.doProcessMessage c.state v))
    rw [hp]
    exact Or.inl ⟨rfl, hc.isConnected, hc.pending⟩
  · exact callFront_continues hh hlog hrest
  · exact callErrorHandler_continues hlog ((hrest _ List.mem_cons_self).1 htext)

/-! ### The completion handlers -/

theorem readLoop_armed : ∀ (fuel : ℕ) {data : Bytes} {cbs : Callbacks κ} {c : RedisClientImpl κ}
    {o : Outcome κ}, Reading c → (∀ m ∈ readLoopMoments fuel data cbs c, Rearms m) →
    readLoop fuel data cbs c = some o → Armed o.client
  | 0, data, cbs, c, o, hc, _, ho => by
    simp only [readLoop] at ho
    split_ifs at ho
    cases ho
    exact hc.processMessage
  | fuel + 1, data, cbs, c, o, hc, hQ, ho => by
    simp only [readLoop, readLoopMoments] at hQ ho
    split_ifs at hQ ho
    · cases ho
      exact hc.processMessage
    · rcases hp : parse c.redisParser data with _ | ⟨⟨k, _ | _ | _⟩, p⟩ <;> rw [hp] at ho hQ
      · cases ho
      · -- a message is completed
        dsimp only at ho hQ
        have h1 : Continues (doProcessMessage (result p).1 cbs
            { c with redisParser := (result p).2 }) :=
          doProcessMessage_continues ⟨hc.isConnected, hc.pending⟩
            fun m hm => hQ m (List.mem_append_left _ hm)
        rcases hx : doProcessMessage (result p).1 cbs { c with redisParser := (result p).2 } with
          ⟨_ | _ | _, cbs1, c1⟩ <;> rw [hx] at ho h1 hQ
        · rcases h1 with ⟨-, hr⟩ | ⟨he, -⟩
          · exact readLoop_armed fuel hr (fun m hm => hQ m (List.mem_append_right _ hm)) ho
          · cases he
        · cases ho
          rcases h1 with ⟨he, -⟩ | ⟨-, hg⟩
          · cases he
          · exact hg.armed
        · rcases h1 with ⟨he, -⟩ | ⟨he, -⟩ <;> cases he
      · cases ho
        exact Reading.processMessage (c := { c with redisParser := p }) ⟨hc.isConnected, hc.pending⟩
      · cases ho
        refine callErrorHandler_gone (c := { c with redisParser := p }) hc.pending ?_
        exact (hQ _ List.mem_cons_self).2 rfl

/-- The completion handler of a read runs. -/
theorem readDone_armed {ec : ErrorCode} {size : ℕ} {readsDone : List (ErrorCode × ℕ)}
    {cbs : Callbacks κ} {o : Outcome κ} (hc : Armed c)
    (hs : c.socket.readsDone = (ec, size) :: readsDone)
    (hQ : ∀ m ∈ asyncReadMoments ec size cbs
      { c with socket := { c.socket with readsDone := readsDone } }, Rearms m)
    (ho : asyncRead ec size cbs { c with socket := { c.socket with readsDone := readsDone } } =
      some o) : Armed o.client := by
  by_cases hec : ec = some operationAborted
  · -- the read has been ended by a `close`, and does not count
    subst hec
    cases ho
    have hsame : pendingReads { c.socket with readsDone := readsDone } =
        pendingReads c.socket := by
      unfold pendingReads doneReads
      rw [hs]
      simp
    unfold Armed at *
    exact hsame.trans hc
  · have hone : pendingReads { c.socket with readsDone := readsDone } + 1 =
        pendingReads c.socket := by
      unfold pendingReads doneReads
      rw [hs, List.countP_cons_of_pos (by simpa using hec)]
      rfl
    have hreading :
        Reading { c with socket := { c.socket with readsDone := readsDone } } := by
      unfold Armed at hc
      split_ifs at hc with hconn
      · refine ⟨hconn, ?_⟩
        show pendingReads { c.socket with readsDone := readsDone } = 0
        omega
      · omega
    unfold asyncRead asyncReadMoments at *
    split_ifs at hQ ho
    · cases ho
      exact callErrorHandler_gone hreading.pending (hQ _ List.mem_cons_self)
    · exact readLoop_armed _ hreading hQ ho

/-- The completion handler of a connect runs. -/
theorem handleAsyncConnect_armed {ec : ErrorCode} {handler : κ} {cbs : Callbacks κ}
    (hc : pendingReads c.socket = 0)
    (hQ : ∀ m ∈ (handleAsyncConnectMoments ec handler cbs c).take 1, Greets m) :
    Armed (handleAsyncConnect ec handler cbs c).client := by
  cases ec with
  | none =>
    obtain ⟨cbs', h⟩ :=
      callback_script cbs ({ c with state := .connected }.log (.connect none handler))
    have htidy : Tidy (cbs.headD .returns)
        ({ c with state := .connected }.log (.connect none handler)) := hQ _ List.mem_cons_self
    have hreading : Reading ({ c with state := .connected }.log (.connect none handler)) :=
      ⟨rfl, hc⟩
    simp only [handleAsyncConnect, Option.isNone_none, if_true]
    rw [h]
    rcases runScript_tidy hreading htidy with ⟨he, hr, -⟩ | ⟨he, hg⟩ <;> rw [he]
    · exact hr.processMessage
    · exact hg.armed
  | some e =>
    obtain ⟨cbs', h⟩ :=
      callback_script cbs ({ c with state := .unconnected }.log (.connect (some e) handler))
    have hran := runScript_ran (cbs.headD .returns)
      ({ c with state := .unconnected }.log (.connect (some e) handler))
    have hgone : Gone (runScript (cbs.headD .returns)
        ({ c with state := .unconnected }.log (.connect (some e) handler))).2 := by
      refine ⟨?_, hran.idle hc⟩
      rw [hran.isConnected]
      exact ite_self false
    simp only [handleAsyncConnect, Option.isNone_some, Bool.false_eq_true, if_false]
    rw [h]
    cases he : ending (cbs.headD .returns) with
    | returns | throws => exact hgone.armed
    | undefined => exact absurd he (ending_ne_undefined _)

/-- A callback outside of a read. -/
theorem callback_armed {cbs : Callbacks κ} (hc : Armed c)
    (hms : (∃ m ∈ scriptMoments (cbs.headD .returns) c, IsDisconnect m.action) →
      doneReads c.socket = 0) : Armed (callback cbs c).client := by
  obtain ⟨cbs', h⟩ := callback_script cbs c
  have harmed := (runScript_ran (cbs.headD .returns) c).armed hc hms
  rw [h]
  cases he : ending (cbs.headD .returns) with
  | returns | throws => exact harmed
  | undefined => exact absurd he (ending_ne_undefined _)

theorem asyncWrite_armed {ec : ErrorCode} {cbs : Callbacks κ} (hc : Armed c)
    (hms : (∃ m ∈ asyncWriteMoments ec cbs c, IsDisconnect m.action) → doneReads c.socket = 0) :
    Armed (asyncWrite ec cbs c).client := by
  unfold asyncWrite asyncWriteMoments at *
  dsimp only at hms ⊢
  split_ifs at hms ⊢ with hec hq
  · refine callback_armed (c := { c with dataWrited := [] }.log (.error (.message ec))) hc ?_
    exact fun ⟨m, hm, hd⟩ => hms ⟨m, List.mem_cons_of_mem _ hm, hd⟩
  · have hsame := pendingReads_congr (Socket.asyncWrite_reads c.dataQueued.flatten c.socket)
      (Socket.asyncWrite_readsDone c.dataQueued.flatten c.socket)
    exact hsame.trans hc
  · exact hc

/-- A function of the strand runs. -/
theorem runPosted_armed {f : Posted κ} {cbs : Callbacks κ} (hc : Armed c)
    (hms : (∃ m ∈ runPostedMoments f cbs c, IsDisconnect m.action) → doneReads c.socket = 0) :
    Armed (runPosted f cbs c).client := by
  cases f with
  | doAsyncCommand buff handler =>
    simp only [runPosted, doAsyncCommand, runPostedMoments, doAsyncCommandMoments] at hms ⊢
    split_ifs at hms ⊢ with hw
    · refine asyncWrite_armed hc ?_
      rintro ⟨m, hm, hd⟩
      exact hms ⟨m, List.mem_cons_of_mem _ hm, hd⟩
    · exact hc
  | message msgHandler msg =>
    refine callback_armed (c := c.log (.message msgHandler msg)) hc ?_
    rintro ⟨m, hm, hd⟩
    exact hms ⟨m, List.mem_cons_of_mem _ hm, hd⟩

/-! ### The steps -/

/-- **A careful step.** -/
theorem step_armed {e : Event κ} (hc : Armed c) (he : Careful e c) (hstep : step e c = some c') :
    Armed c' := by
  obtain ⟨-, hs⟩ := step_cases hstep
  cases hs with
  | user s => exact (runScript_ran s c).armed hc he
  | @posted cbs f strand hs =>
    simp only [Careful, stepMoments, hs] at he
    exact runPosted_armed (c := { c with strand := strand }) hc he
  | @receive n data socket hs =>
    obtain ⟨reads, peer, sent, taken, hreads, -, rfl⟩ := Socket.receive_cases hs
    have hr : (none : ErrorCode) ≠ some operationAborted := by simp
    exact (pendingReads_done (r := (none, data.length)) hr hreads rfl rfl).trans hc
  | readFail hs =>
    obtain ⟨reads, hreads, rfl⟩ := Socket.readFail_cases hs
    exact (pendingReads_done (fun h => he (Option.some.inj h)) hreads rfl rfl).trans hc
  | @readDone cbs ec size readsDone o hs ho =>
    simp only [Careful, stepMoments, hs] at he
    exact readDone_armed hc hs he ho
  | @writeDone cbs ec writesDone hs =>
    simp only [Careful, stepMoments, hs] at he
    exact asyncWrite_armed
      (c := { c with socket := { c.socket with writesDone := writesDone } }) hc he
  | @connectDone cbs ec handler connectsDone hs =>
    obtain ⟨hconn, hgreets⟩ := he
    simp only [stepMoments, hs] at hgreets
    unfold Armed at hc
    rw [hconn] at hc
    exact handleAsyncConnect_armed
      (c := { c with socket := { c.socket with connectsDone := connectsDone } }) hc hgreets
  | send hs => exact (pendingReads_socket (.inl ⟨_, hs⟩)).trans hc
  | writeFail hs => exact (pendingReads_socket (.inr (.inl ⟨_, hs⟩))).trans hc
  | connectOk hs => exact (pendingReads_socket (.inr (.inr (.inl ⟨_, hs⟩)))).trans hc
  | connectFail hs => exact (pendingReads_socket (.inr (.inr (.inr ⟨_, hs⟩)))).trans hc

theorem run_armed {es : List (Event κ)} {c c' : RedisClientImpl κ} (hc : Armed c)
    (hes : CarefulRun es c) (hrun : run es c = some c') : Armed c' :=
  run_invariant (P := CarefulRun)
    (fun _ _ _ c1 hes hc h1 => ⟨step_armed hc hes.1 h1, hes.2 c1 h1⟩) hes hc hrun

theorem CarefulRun.front : ∀ {es es' : List (Event κ)} {c : RedisClientImpl κ},
    CarefulRun (es ++ es') c → CarefulRun es c
  | [], _, _, _ => trivial
  | _ :: _, _, _, h => ⟨h.1, fun c1 h1 => (h.2 c1 h1).front⟩

/-- **Exactly one read is pending while the client is connected**, and none otherwise, after each step
of a run whose steps are careful. -/
theorem one_read {es es' : List (Event κ)} (hes : CarefulRun (es ++ es') .new)
    (hrun : run es .new = some c) :
    pendingReads c.socket = if c.isConnected then 1 else 0 := by
  have hnew : Armed (.new : RedisClientImpl κ) := rfl
  exact run_armed hnew hes.front hrun

/-! ### Three runs -/

instance : DecidablePred (Rearms : Moment κ → Prop) := fun m =>
  decidableActions (fun a => Rearms { m with action := a }) m.action

instance : DecidablePred (Greets : Moment κ → Prop) := fun m =>
  decidableActions (fun a => Greets { m with action := a }) m.action

instance (e : Event κ) (c : RedisClientImpl κ) : Decidable (Careful e c) :=
  match e with
  | .user s => inferInstanceAs (Decidable
      ((∃ m ∈ stepMoments (.user s) c, IsDisconnect m.action) → doneReads c.socket = 0))
  | .posted cbs => inferInstanceAs (Decidable
      ((∃ m ∈ stepMoments (.posted cbs) c, IsDisconnect m.action) → doneReads c.socket = 0))
  | .writeDone cbs => inferInstanceAs (Decidable
      ((∃ m ∈ stepMoments (.writeDone cbs) c, IsDisconnect m.action) → doneReads c.socket = 0))
  | .readDone cbs => inferInstanceAs (Decidable (∀ m ∈ stepMoments (.readDone cbs) c, Rearms m))
  | .connectDone cbs => inferInstanceAs (Decidable
      (c.isConnected = false ∧ ∀ m ∈ (stepMoments (.connectDone cbs) c).take 1, Greets m))
  | .readFail err => inferInstanceAs (Decidable (err ≠ operationAborted))
  | .receive _ | .send _ | .writeFail _ | .connectOk _ | .connectFail _ => isTrue trivial

instance decidableCarefulRun :
    (es : List (Event κ)) → (c : RedisClientImpl κ) → Decidable (CarefulRun es c)
  | [], _ => isTrue trivial
  | e :: es, c =>
    match h : step e c with
    | none => decidable_of_iff (Careful e c) ⟨fun he => ⟨he, by simp [h]⟩, fun he => he.1⟩
    | some c1 =>
      have := decidableCarefulRun es c1
      decidable_of_iff (Careful e c ∧ CarefulRun es c1)
        ⟨fun he => ⟨he.1, by simpa [h] using he.2⟩, fun he => ⟨he.1, he.2 c1 h⟩⟩

/-- A confirmation and a message are read. Then reading fails, and the error handler disconnects the
client and connects it again. -/
def reconnecting : List (Event ℕ) :=
  dial (channel.peer ()) ++
    [.connectDone [.call (.subscribe (chars "c") 7 none) .returns .returns], .posted [], .send 99,
      .writeDone [], .receive 99, .readDone [], .readFail .eof,
      .readDone [.call .disconnect .returns (.call (.connect .tcp 0) .returns .returns)],
      .connectOk (channel.peer ()), .connectDone []]

/-- The peer closes the connection. -/
def endOfFile : List (Event ℕ) :=
  dial (channel.peer ()) ++ [.connectDone [], .readFail .eof, .readDone []]

/-- The connect handler disconnects the client and connects it again. -/
def connectedTwice : List (Event ℕ) :=
  dial (channel.peer ()) ++
    [.connectDone [.call .disconnect .returns (.call (.connect .tcp 0) .returns .returns)],
      .connectOk (channel.peer ()), .connectDone []]

theorem one_read_reconnecting : ∃ c, run reconnecting .new = some c ∧ c.isConnected = true ∧
    pendingReads c.socket = if c.isConnected then 1 else 0 := by
  have hcareful : CarefulRun (reconnecting ++ []) .new := by decide +kernel
  have hconn : (run reconnecting .new).map RedisClientImpl.isConnected = some true := by
    decide +kernel
  obtain ⟨c, hrun, hc⟩ := Option.map_eq_some_iff.mp hconn
  exact ⟨c, hrun, hc, one_read hcareful hrun⟩

/-- **A connected client that reads nothing, and one that reads twice.** -/
theorem reads_miscounted :
    (∃ c, run endOfFile .new = some c ∧ c.isConnected = true ∧ pendingReads c.socket = 0) ∧
      ∃ c, run connectedTwice .new = some c ∧ c.isConnected = true ∧ c.socket.reads = 2 :=
  ⟨⟨_, rfl, rfl, rfl⟩, ⟨_, rfl, rfl, rfl⟩⟩

end RedisClient.Async.Reads

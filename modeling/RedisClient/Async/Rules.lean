import RedisClient.Async.Defs

/-! # Rules for what every step keeps

A step does one of a few things (`step_cases`), and so does a call (`body_cases`). A relation of two
states that holds across each thing that the client does to its members holds across every function
and every step (`KeepsLoop.step`, `KeepsLoop.run`). The user's code may be restricted to calls of some
kind (`All`), and such a kind is decided call by call (`decidableCalls`, `decidableActions`). -/

namespace RedisClient.Async.Rules

open RedisClient.Value RedisClient.Parser.Defs RedisClient.Peers RedisClient.Async.Asio
open RedisClient.Async.Defs
open RedisClient.Sync.Defs (SysError ErrorCode ClientState)

variable {κ : Type}

/-! ### Steps -/

/-- What a step of a client does, event by event. -/
inductive Steps (c : RedisClientImpl κ) : Event κ → RedisClientImpl κ → Prop where
  | user (s : Script κ) : Steps c (.user s) (runScript s c).2
  | posted {cbs : Callbacks κ} {f : Posted κ} {strand : List (Posted κ)} :
      c.strand = f :: strand →
      Steps c (.posted cbs) (runPosted f cbs { c with strand := strand }).client
  | receive {n : ℕ} {data : Bytes} {socket : Socket κ} : c.socket.receive n = some (data, socket) →
      Steps c (.receive n) { c with socket := socket, buf := data ++ c.buf.drop data.length }
  | readFail {e : SysError} {socket : Socket κ} : c.socket.readFail e = some socket →
      Steps c (.readFail e) { c with socket := socket }
  | readDone {cbs : Callbacks κ} {ec : ErrorCode} {size : ℕ} {readsDone : List (ErrorCode × ℕ)}
      {o : Outcome κ} : c.socket.readsDone = (ec, size) :: readsDone →
      asyncRead ec size cbs { c with socket := { c.socket with readsDone := readsDone } } = some o →
      Steps c (.readDone cbs) o.client
  | send {n : ℕ} {socket : Socket κ} : c.socket.send n = some socket →
      Steps c (.send n) { c with socket := socket }
  | writeFail {e : SysError} {socket : Socket κ} : c.socket.writeFail e = some socket →
      Steps c (.writeFail e) { c with socket := socket }
  | writeDone {cbs : Callbacks κ} {ec : ErrorCode} {writesDone : List ErrorCode} :
      c.socket.writesDone = ec :: writesDone →
      Steps c (.writeDone cbs) (asyncWrite ec cbs
        { c with socket := { c.socket with writesDone := writesDone } }).client
  | connectOk {peer : Peer} {socket : Socket κ} : c.socket.connectOk peer = some socket →
      Steps c (.connectOk peer) { c with socket := socket }
  | connectFail {e : SysError} {socket : Socket κ} : c.socket.connectFail e = some socket →
      Steps c (.connectFail e) { c with socket := socket }
  | connectDone {cbs : Callbacks κ} {ec : ErrorCode} {handler : κ}
      {connectsDone : List (ErrorCode × κ)} :
      c.socket.connectsDone = (ec, handler) :: connectsDone →
      Steps c (.connectDone cbs) (handleAsyncConnect ec handler cbs
        { c with socket := { c.socket with connectsDone := connectsDone } }).client

/-- **What a step does.** -/
theorem step_cases {e : Event κ} {c c' : RedisClientImpl κ} (h : step e c = some c') :
    c.broken = false ∧ Steps c e c' := by
  unfold step at h
  split_ifs at h with hb
  refine ⟨by simpa using hb, ?_⟩
  cases e with
  | user s =>
    cases h
    exact .user s
  | posted cbs =>
    dsimp only at h
    rcases hs : c.strand with _ | ⟨f, strand⟩ <;> rw [hs] at h <;> cases h
    exact .posted hs
  | receive n =>
    obtain ⟨⟨data, socket⟩, hs, rfl⟩ := Option.map_eq_some_iff.mp h
    exact .receive hs
  | readDone cbs =>
    dsimp only at h
    rcases hs : c.socket.readsDone with _ | ⟨⟨ec, size⟩, readsDone⟩ <;> rw [hs] at h
    · cases h
    · obtain ⟨o, ho, rfl⟩ := Option.map_eq_some_iff.mp h
      exact .readDone hs ho
  | writeDone cbs =>
    dsimp only at h
    rcases hs : c.socket.writesDone with _ | ⟨ec, writesDone⟩ <;> rw [hs] at h <;> cases h
    exact .writeDone hs
  | connectDone cbs =>
    dsimp only at h
    rcases hs : c.socket.connectsDone with _ | ⟨⟨ec, handler⟩, connectsDone⟩ <;> rw [hs] at h <;>
      cases h
    exact .connectDone hs
  | readFail e =>
    obtain ⟨s, hs, rfl⟩ := Option.map_eq_some_iff.mp h
    exact .readFail hs
  | send n =>
    obtain ⟨s, hs, rfl⟩ := Option.map_eq_some_iff.mp h
    exact .send hs
  | writeFail e =>
    obtain ⟨s, hs, rfl⟩ := Option.map_eq_some_iff.mp h
    exact .writeFail hs
  | connectOk peer =>
    obtain ⟨s, hs, rfl⟩ := Option.map_eq_some_iff.mp h
    exact .connectOk hs
  | connectFail e =>
    obtain ⟨s, hs, rfl⟩ := Option.map_eq_some_iff.mp h
    exact .connectFail hs

/-! ### Calls -/

/-- What a call does. `disconnect` closes the client. `connect` starts to connect one that is not
connected and not about to be, and calls the handler otherwise. The other calls post a command, and may
change the subscriptions of a connected client, or they only tell the error handler. -/
inductive Bodies (c : RedisClientImpl κ) :
    Call κ → Option (Action κ) × Option Handle × RedisClientImpl κ → Prop where
  | disconnect : Bodies c .disconnect (none, none, c.close)
  | connect (endpoint : Endpoint) (handler : κ) (p : RedisParser) :
      c.state = .unconnected ∨ c.state = .closed →
      Bodies c (.connect endpoint handler) (none, none, { c with
        redisParser := p, state := .connecting, socket := c.socket.asyncConnect handler })
  | connected (endpoint : Endpoint) (handler : κ) :
      ¬ (c.state = .unconnected ∨ c.state = .closed) →
      Bodies c (.connect endpoint handler) (some (.connect none handler), none, c)
  | posts {call : Call κ} (buff : Bytes) (handler : Option κ) (handle : Option Handle)
      (msgHandlers : List (MsgHandler κ)) (singleShotMsgHandlers : List (SingleShotHandler κ))
      (subscribeSeq : ℕ) (state : ClientState) :
      (∀ endpoint handler, call ≠ .connect endpoint handler) →
      c.state = .connected ∨ c.state = .subscribed → state = c.state ∨ state = .subscribed →
      Bodies c call (none, handle, { c with
        strand := c.strand ++ [.doAsyncCommand buff handler]
        msgHandlers := msgHandlers
        singleShotMsgHandlers := singleShotMsgHandlers
        subscribeSeq := subscribeSeq
        state := state })
  | refused {call : Call κ} (text : Bytes) (handle : Option Handle) :
      (∀ endpoint handler, call ≠ .connect endpoint handler) →
      Bodies c call (some (.error (.text text)), handle, c)

/-- **What each call does.** -/
theorem body_cases (call : Call κ) (c : RedisClientImpl κ) : Bodies c call (call.body c) := by
  cases call with
  | disconnect => exact .disconnect
  | connect endpoint handler =>
    cases endpoint with
    | tcp =>
      simp only [Call.body, connectTcp]
      split_ifs with h1 h2 h2
      · exact .connect _ handler fresh h2
      · exact absurd (Or.inr h1) h2
      · exact .connect _ handler c.redisParser h2
      · exact .connected _ handler h2
    | localStream =>
      simp only [Call.body, connectLocal]
      split_ifs with h
      · exact .connect _ handler c.redisParser h
      · exact .connected _ handler h
  | command =>
    simp only [Call.body, command]
    split_ifs with h
    · exact .refused _ _ nofun
    · exact .posts _ _ _ _ _ _ _ nofun (Or.inl (not_not.mp h)) (Or.inl rfl)
  | publish =>
    simp only [Call.body, publish]
    split_ifs with h
    · exact .posts _ _ _ _ _ _ _ nofun (Or.inl h) (Or.inl rfl)
    · exact .refused _ _ nofun
  | subscribe | psubscribe =>
    simp only [Call.body, subscribe]
    split_ifs with h
    · exact .posts _ _ _ _ _ _ _ nofun h (Or.inr rfl)
    · exact .refused _ _ nofun
  | singleShotSubscribe | singleShotPSubscribe =>
    simp only [Call.body, singleShotSubscribe]
    split_ifs with h
    · exact .posts _ _ _ _ _ _ _ nofun h (Or.inr rfl)
    · exact .refused _ _ nofun
  | unsubscribe | punsubscribe =>
    simp only [Call.body, unsubscribe]
    split_ifs with h
    · exact .posts _ _ _ _ _ _ _ nofun h (Or.inl rfl)
    · exact .refused _ _ nofun

/-! ### Messages -/

theorem postSingleShot_posts (channel msg : Bytes) (c : RedisClientImpl κ) :
    ∃ (ms : List (κ × Bytes)) (ss : List (SingleShotHandler κ)), postSingleShot channel msg c =
      { c with
        strand := c.strand ++ ms.map fun m => .message m.1 m.2
        singleShotMsgHandlers := ss } := by
  unfold postSingleShot
  split
  · exact ⟨[], c.singleShotMsgHandlers, by simp⟩
  · next e _ => exact ⟨[(e.msgHandler, msg)], _, rfl⟩

theorem postMessages_posts (channel msg : Bytes) (c : RedisClientImpl κ) :
    ∃ ms : List (κ × Bytes), postMessages channel msg c =
      { c with strand := c.strand ++ ms.map fun m => .message m.1 m.2 } := by
  unfold postMessages
  induction c.msgHandlers.filter (fun e => e.channel = channel) generalizing c with
  | nil => exact ⟨[], by simp⟩
  | cons e es ih =>
    obtain ⟨ms, h⟩ := ih (c.post (.message e.msgHandler msg))
    refine ⟨(e.msgHandler, msg) :: ms, ?_⟩
    rw [List.foldl_cons, h]
    simp [RedisClientImpl.post]

/-- A message is posted to the subscribers of its channel. -/
theorem subscribers_posts (channel msg : Bytes) (c : RedisClientImpl κ) :
    ∃ (ms : List (κ × Bytes)) (ss : List (SingleShotHandler κ)),
      postMessages channel msg (postSingleShot channel msg c) = { c with
        strand := c.strand ++ ms.map fun m => .message m.1 m.2
        singleShotMsgHandlers := ss } := by
  obtain ⟨ms, ss, h1⟩ := postSingleShot_posts channel msg c
  obtain ⟨ms', h2⟩ := postMessages_posts channel msg (postSingleShot channel msg c)
  refine ⟨ms ++ ms', ss, ?_⟩
  rw [h2, h1]
  simp

/-! ### Deciding -/

/-- A predicate on calls is decided if it is for each kind of call. -/
@[reducible] def decidableCalls (P : Call κ → Prop)
    [∀ endpoint handler, Decidable (P (.connect endpoint handler))] [Decidable (P .disconnect)]
    [∀ cmd args handler, Decidable (P (.command cmd args handler))]
    [∀ channel msg handler, Decidable (P (.publish channel msg handler))]
    [∀ channel msgHandler handler, Decidable (P (.subscribe channel msgHandler handler))]
    [∀ pattern msgHandler handler, Decidable (P (.psubscribe pattern msgHandler handler))]
    [∀ channel msgHandler handler, Decidable (P (.singleShotSubscribe channel msgHandler handler))]
    [∀ pattern msgHandler handler, Decidable (P (.singleShotPSubscribe pattern msgHandler handler))]
    [∀ handle, Decidable (P (.unsubscribe handle))]
    [∀ handle, Decidable (P (.punsubscribe handle))] : DecidablePred P
  | .connect _ _ | .disconnect | .command _ _ _ | .publish _ _ _ | .subscribe _ _ _
  | .psubscribe _ _ _ | .singleShotSubscribe _ _ _ | .singleShotPSubscribe _ _ _ | .unsubscribe _
  | .punsubscribe _ => inferInstance

/-- A predicate on entries of the trace is decided if it is for each kind of call and of entry, with
what an entry says of a failure. -/
@[reducible] def decidableActions (P : Action κ → Prop)
    [∀ state endpoint handler, Decidable (P (.call state (.connect endpoint handler)))]
    [∀ state, Decidable (P (.call state .disconnect))]
    [∀ state cmd args handler, Decidable (P (.call state (.command cmd args handler)))]
    [∀ state channel msg handler, Decidable (P (.call state (.publish channel msg handler)))]
    [∀ state channel msgHandler handler,
      Decidable (P (.call state (.subscribe channel msgHandler handler)))]
    [∀ state pattern msgHandler handler,
      Decidable (P (.call state (.psubscribe pattern msgHandler handler)))]
    [∀ state channel msgHandler handler,
      Decidable (P (.call state (.singleShotSubscribe channel msgHandler handler)))]
    [∀ state pattern msgHandler handler,
      Decidable (P (.call state (.singleShotPSubscribe pattern msgHandler handler)))]
    [∀ state handle, Decidable (P (.call state (.unsubscribe handle)))]
    [∀ state handle, Decidable (P (.call state (.punsubscribe handle)))]
    [∀ handle, Decidable (P (.returned handle))] [∀ handler, Decidable (P (.connect none handler))]
    [∀ ec handler, Decidable (P (.connect (some ec) handler))]
    [∀ handler v, Decidable (P (.reply handler v))]
    [∀ msgHandler msg, Decidable (P (.message msgHandler msg))]
    [∀ ec, Decidable (P (.error (.message ec)))] [∀ s, Decidable (P (.error (.text s)))]
    [∀ buff handler, Decidable (P (.doAsyncCommand buff handler))]
    [∀ data, Decidable (P (.asyncWrite data))]
    [∀ state v, Decidable (P (.doProcessMessage state v))] : DecidablePred P
  | .call state call => decidableCalls (fun call => P (.call state call)) call
  | .returned _ | .connect none _ | .connect (some _) _ | .reply _ _ | .message _ _
  | .error (.message _) | .error (.text _) | .doAsyncCommand _ _ | .asyncWrite _
  | .doProcessMessage _ _ => inferInstance

/-- A call of `disconnect`. -/
@[reducible] def IsDisconnect : Action κ → Prop
  | .call _ .disconnect => True
  | _ => False

instance : DecidablePred (IsDisconnect : Action κ → Prop) := decidableActions _

/-! ### The rules -/

section Calls

/- The calls that the user's code makes are of this kind. -/
variable (ok : Call κ → Prop)

/-- All calls of a script, those of its callbacks included, are of the kind. -/
def All : Script κ → Prop
  | .returns | .throws => True
  | .call call callback next => ok call ∧ All callback ∧ All next

def AllOf (cbs : Callbacks κ) : Prop := ∀ s ∈ cbs, All ok s

/-- The user's code in an event makes only calls of the kind. -/
def AllIn : Event κ → Prop
  | .user s => All ok s
  | .posted cbs | .readDone cbs | .writeDone cbs | .connectDone cbs => AllOf ok cbs
  | .receive _ | .readFail _ | .send _ | .writeFail _ | .connectOk _ | .connectFail _ => True

instance decidableAll [DecidablePred ok] : (s : Script κ) → Decidable (All ok s)
  | .returns | .throws => isTrue trivial
  | .call call callback next =>
    have := decidableAll callback
    have := decidableAll next
    inferInstanceAs (Decidable (ok call ∧ All ok callback ∧ All ok next))

instance [DecidablePred ok] (cbs : Callbacks κ) : Decidable (AllOf ok cbs) :=
  inferInstanceAs (Decidable (∀ s ∈ cbs, _))

instance [DecidablePred ok] : (e : Event κ) → Decidable (AllIn ok e)
  | .user s => decidableAll ok s
  | .posted cbs | .readDone cbs | .writeDone cbs | .connectDone cbs =>
    inferInstanceAs (Decidable (AllOf ok cbs))
  | .receive _ | .readFail _ | .send _ | .writeFail _ | .connectOk _ | .connectFail _ =>
    isTrue trivial

/-- The call is not `disconnect`. -/
@[reducible] def Stays : Call κ → Prop
  | .disconnect => False
  | _ => True

instance : DecidablePred (Stays : Call κ → Prop) := decidableCalls _

variable (R : RedisClientImpl κ → RedisClientImpl κ → Prop)

/-- The relation holds across each thing that the functions do. -/
structure Keeps : Prop where
  refl (c : RedisClientImpl κ) : R c c
  trans {c c1 c' : RedisClientImpl κ} : R c c1 → R c1 c' → R c c'
  log (a : Action κ) (c : RedisClientImpl κ) : R c (c.log a)
  body {call : Call κ} (c : RedisClientImpl κ) : ok call → R c (call.body c).2.2
  enqueue (buff : Bytes) (handler : Option κ) (c : RedisClientImpl κ) :
    R c { c with handlers := c.handlers ++ [handler], dataQueued := c.dataQueued ++ [buff] }
  write {c : RedisClientImpl κ} : c.dataQueued ≠ [] → c.dataWrited = [] →
    R c { c with
      dataQueued := []
      dataWrited := c.dataQueued
      trace := c.trace ++ [.asyncWrite c.dataQueued.flatten]
      socket := c.socket.asyncWrite c.dataQueued.flatten }
  pop {handler : Option κ} {handlers : List (Option κ)} {c : RedisClientImpl κ} :
    c.handlers = handler :: handlers → R c { c with handlers := handlers }
  postSingleShot (channel msg : Bytes) (c : RedisClientImpl κ) : R c (postSingleShot channel msg c)
  postMessages (channel msg : Bytes) (c : RedisClientImpl κ) : R c (postMessages channel msg c)
  redisParser (p : RedisParser) (c : RedisClientImpl κ) : R c { c with redisParser := p }
  read (c : RedisClientImpl κ) : R c (processMessage c)

/-- The relation holds also across what the system and the event loop do. -/
structure KeepsLoop : Prop extends Keeps ok R where
  broken (c : RedisClientImpl κ) : R c { c with broken := true }
  strand {f : Posted κ} {strand : List (Posted κ)} {c : RedisClientImpl κ} :
    c.strand = f :: strand → R c { c with strand := strand }
  receive {n : ℕ} {data buf : Bytes} {socket : Socket κ} {c : RedisClientImpl κ} :
    c.socket.receive n = some (data, socket) → R c { c with socket := socket, buf := buf }
  socket {s : Socket κ} {c : RedisClientImpl κ} :
    (∃ e, c.socket.readFail e = some s) ∨ (∃ n, c.socket.send n = some s) ∨
      (∃ e, c.socket.writeFail e = some s) ∨ (∃ peer, c.socket.connectOk peer = some s) ∨
      (∃ e, c.socket.connectFail e = some s) → R c { c with socket := s }
  readDone {r : ErrorCode × ℕ} {readsDone : List (ErrorCode × ℕ)} {c : RedisClientImpl κ} :
    c.socket.readsDone = r :: readsDone →
      R c { c with socket := { c.socket with readsDone := readsDone } }
  writeDone {ec : ErrorCode} {writesDone : List ErrorCode} {c : RedisClientImpl κ} :
    c.socket.writesDone = ec :: writesDone →
      R c { c with socket := { c.socket with writesDone := writesDone }, dataWrited := [] }
  connectDone {ec : ErrorCode} {handler : κ} {connectsDone : List (ErrorCode × κ)}
    {c : RedisClientImpl κ} : c.socket.connectsDone = (ec, handler) :: connectsDone →
      R c { c with
        socket := { c.socket with connectsDone := connectsDone }
        state := if ec.isNone then .connected else .unconnected }

end Calls

variable {ok : Call κ → Prop} {R : RedisClientImpl κ → RedisClientImpl κ → Prop}

/-- User code that makes any calls. -/
theorem all_true (s : Script κ) : All (fun _ => True) s := by
  induction s with
  | returns | throws => trivial
  | call call cb next ihcb ihnext => exact ⟨trivial, ihcb, ihnext⟩

theorem allOf_true (cbs : Callbacks κ) : AllOf (fun _ => True) cbs := fun s _ => all_true s

theorem allIn_true (e : Event κ) : AllIn (fun _ => True) e := by
  cases e with
  | user s => exact all_true s
  | posted cbs | readDone cbs | writeDone cbs | connectDone cbs => exact allOf_true cbs
  | _ => trivial

/-- A connect that has succeeded: its handler is called, and the first read is started if it
returns. -/
theorem handleAsyncConnect_cases (handler : κ) (cbs : Callbacks κ) (c : RedisClientImpl κ) :
    (∃ cbs' c', Defs.callback cbs ({ c with state := .connected }.log (.connect none handler)) =
        (.returns, cbs', c') ∧
      Defs.handleAsyncConnect none handler cbs c = (.returns, cbs', processMessage c')) ∨
    (Defs.callback cbs ({ c with state := .connected }.log (.connect none handler))).1 ≠ .returns ∧
      Defs.handleAsyncConnect none handler cbs c =
        Defs.callback cbs ({ c with state := .connected }.log (.connect none handler)) := by
  simp only [Defs.handleAsyncConnect, Option.isNone_none, if_true]
  generalize Defs.callback cbs ({ c with state := .connected }.log (.connect none handler)) = o
  rcases o with ⟨_ | _ | _, cbs', c'⟩
  · exact Or.inl ⟨cbs', c', rfl, rfl⟩
  · exact Or.inr ⟨by simp, rfl⟩
  · exact Or.inr ⟨by simp, rfl⟩

namespace Keeps

variable (h : Keeps ok R)

include h

/-! ### User code -/

theorem returned (handle : Option Handle) (c : RedisClientImpl κ) : R c (c.return handle) := by
  cases handle with
  | none => exact h.refl c
  | some handle => exact h.log _ c

theorem runScript : ∀ {s : Script κ} (c : RedisClientImpl κ), All ok s → R c (runScript s c).2
  | .returns, c, _ | .throws, c, _ => h.refl c
  | .call call cb next, c, hs => by
    have hb := h.trans (h.log (.call c.state call) c) (h.body (c.log (.call c.state call)) hs.1)
    simp only [Defs.runScript]
    rcases hx : call.body (c.log (.call c.state call)) with ⟨_ | action, handle, c1⟩ <;>
      rw [hx] at hb
    · exact h.trans (h.trans hb (h.returned handle c1)) (runScript _ hs.2.2)
    · have h1 := h.trans (h.trans hb (h.log action c1)) (runScript (c1.log action) hs.2.1)
      dsimp only
      rcases hy : Defs.runScript cb (c1.log action) with ⟨_ | _ | _, c2⟩ <;> rw [hy] at h1
      · exact h.trans (h.trans h1 (h.returned handle c2)) (runScript _ hs.2.2)
      · exact h.trans h1 (runScript _ hs.2.2)
      · exact h.trans h1 (runScript _ hs.2.2)

omit h in
theorem callbacks_left {cbs : Callbacks κ} (c : RedisClientImpl κ) (hcbs : AllOf ok cbs) :
    AllOf ok (callback cbs c).2.1 := by
  cases cbs with
  | nil => exact hcbs
  | cons s cbs => exact fun s' hs' => hcbs s' (List.mem_cons_of_mem s hs')

theorem callback {cbs : Callbacks κ} (c : RedisClientImpl κ) (hcbs : AllOf ok cbs) :
    R c (callback cbs c).2.2 := by
  cases cbs with
  | nil => exact h.refl c
  | cons s cbs => exact h.runScript c (hcbs s List.mem_cons_self)

theorem callErrorHandler {cbs : Callbacks κ} (r : Report) (c : RedisClientImpl κ)
    (hcbs : AllOf ok cbs) : R c (callErrorHandler r cbs c).2.2 :=
  h.trans (h.log _ c) (h.callback _ hcbs)

theorem callHandler {cbs : Callbacks κ} (handler : Option κ) (v : RedisValue)
    (c : RedisClientImpl κ) (hcbs : AllOf ok cbs) : R c (callHandler handler v cbs c).2.2 := by
  cases handler with
  | none => exact h.log _ c
  | some handler => exact h.trans (h.log _ c) (h.callback _ hcbs)

omit h in
theorem callHandler_left {cbs : Callbacks κ} (handler : Option κ) (v : RedisValue)
    (c : RedisClientImpl κ) (hcbs : AllOf ok cbs) :
    AllOf ok (Defs.callHandler handler v cbs c).2.1 := by
  cases handler with
  | none => exact hcbs
  | some handler => exact callbacks_left _ hcbs

/-! ### Writing -/

/-- The completion handler of a write, which first clears `dataWrited`. -/
theorem asyncWrite {cbs : Callbacks κ} (ec : ErrorCode) (c : RedisClientImpl κ)
    (hcbs : AllOf ok cbs) : R { c with dataWrited := [] } (asyncWrite ec cbs c).2.2 := by
  unfold Defs.asyncWrite
  dsimp only
  split_ifs with hec hq
  · exact h.callErrorHandler _ _ hcbs
  · exact h.write (c := { c with dataWrited := [] }) hq rfl
  · exact h.refl _

theorem doAsyncCommand {cbs : Callbacks κ} (buff : Bytes) (handler : Option κ)
    (c : RedisClientImpl κ) (hcbs : AllOf ok cbs) : R c (doAsyncCommand buff handler cbs c).2.2 := by
  have h1 := h.trans (h.log (.doAsyncCommand buff handler) c)
    (h.enqueue buff handler (c.log (.doAsyncCommand buff handler)))
  unfold Defs.doAsyncCommand
  dsimp only
  split_ifs with hd
  · refine h.trans h1 ?_
    have h2 := h.asyncWrite none { c.log (.doAsyncCommand buff handler) with
      handlers := c.handlers ++ [handler], dataQueued := c.dataQueued ++ [buff] } hcbs
    have hsame : { c.log (.doAsyncCommand buff handler) with
        handlers := c.handlers ++ [handler]
        dataQueued := c.dataQueued ++ [buff]
        dataWrited := [] } = { c.log (.doAsyncCommand buff handler) with
        handlers := c.handlers ++ [handler]
        dataQueued := c.dataQueued ++ [buff] } := by
      rw [← hd]
    rw [hsame] at h2
    exact h2
  · exact h1

/-! ### Reading -/

/-- The states and callbacks that a function leaves. -/
theorem callFront {cbs : Callbacks κ} (v : RedisValue) (c : RedisClientImpl κ)
    (hcbs : AllOf ok cbs) : R c (callFront v cbs c).2.2 ∧ AllOf ok (callFront v cbs c).2.1 := by
  unfold Defs.callFront
  rcases c.handlers with _ | ⟨handler, handlers⟩
  · exact ⟨h.refl c, hcbs⟩
  · have h1 := h.callHandler handler v c hcbs
    have h2 := callHandler_left handler v c hcbs
    dsimp only
    rcases hx : Defs.callHandler handler v cbs c with ⟨_ | _ | _, cbs1, c1⟩ <;> rw [hx] at h1 h2
    · dsimp only
      rcases hh : c1.handlers with _ | ⟨handler', handlers'⟩
      · exact ⟨h1, h2⟩
      · exact ⟨h.trans h1 (h.pop hh), h2⟩
    · exact ⟨h1, h2⟩
    · exact ⟨h1, h2⟩

theorem dispatch {cbs : Callbacks κ} (v : RedisValue) (c : RedisClientImpl κ)
    (hcbs : AllOf ok cbs) : R c (dispatch v cbs c).2.2 ∧ AllOf ok (dispatch v cbs c).2.1 := by
  unfold Defs.dispatch
  split
  · dsimp only
    split_ifs
    all_goals first
      | exact h.callFront v c hcbs
      | exact ⟨h.callErrorHandler _ c hcbs, callbacks_left _ hcbs⟩
      | exact ⟨h.trans (h.postSingleShot _ _ c) (h.postMessages _ _ _), hcbs⟩
  · exact ⟨h.callErrorHandler _ c hcbs, callbacks_left _ hcbs⟩

theorem doProcessMessage {cbs : Callbacks κ} (v : RedisValue) (c : RedisClientImpl κ)
    (hcbs : AllOf ok cbs) :
    R c (doProcessMessage v cbs c).2.2 ∧ AllOf ok (doProcessMessage v cbs c).2.1 := by
  have hlog := h.log (.doProcessMessage c.state v) c
  unfold Defs.doProcessMessage
  dsimp only
  split_ifs
  · obtain ⟨h1, h2⟩ := h.dispatch v (c.log (.doProcessMessage c.state v)) hcbs
    exact ⟨h.trans hlog h1, h2⟩
  · obtain ⟨h1, h2⟩ := h.callFront v (c.log (.doProcessMessage c.state v)) hcbs
    exact ⟨h.trans hlog h1, h2⟩
  · exact ⟨h.trans hlog (h.callErrorHandler _ _ hcbs), callbacks_left _ hcbs⟩

theorem readLoop : ∀ (fuel : ℕ) {data : Bytes} {cbs : Callbacks κ} {c : RedisClientImpl κ}
    {o : Outcome κ}, AllOf ok cbs → readLoop fuel data cbs c = some o → R c o.2.2
  | 0, data, cbs, c, o, _, ho => by
    simp only [Defs.readLoop] at ho
    split_ifs at ho
    cases ho
    exact h.read c
  | fuel + 1, data, cbs, c, o, hcbs, ho => by
    simp only [Defs.readLoop] at ho
    split_ifs at ho
    · cases ho
      exact h.read c
    · rcases hp : parse c.redisParser data with _ | ⟨⟨k, _ | _ | _⟩, p⟩ <;> rw [hp] at ho
      · cases ho
      · dsimp only at ho
        obtain ⟨h1, h2⟩ := h.doProcessMessage (result p).1
          { c with redisParser := (result p).2 } hcbs
        have h1 := h.trans (h.redisParser (result p).2 c) h1
        rcases hx : Defs.doProcessMessage (result p).1 cbs
          { c with redisParser := (result p).2 } with ⟨_ | _ | _, cbs1, c1⟩ <;>
          rw [hx] at ho h1 h2
        · exact h.trans h1 (readLoop fuel h2 ho)
        · cases ho
          exact h1
        · cases ho
          exact h1
      · cases ho
        exact h.trans (h.redisParser p c) (h.read _)
      · cases ho
        exact h.trans (h.redisParser p c) (h.callErrorHandler _ _ hcbs)

theorem asyncRead {ec : ErrorCode} {size : ℕ} {cbs : Callbacks κ} {c : RedisClientImpl κ}
    {o : Outcome κ} (hcbs : AllOf ok cbs) (ho : asyncRead ec size cbs c = some o) : R c o.2.2 := by
  unfold Defs.asyncRead at ho
  split_ifs at ho
  · cases ho
    exact h.callErrorHandler _ c hcbs
  · cases ho
    exact h.refl c
  · exact h.readLoop _ hcbs ho

theorem runPosted {cbs : Callbacks κ} (f : Posted κ) (c : RedisClientImpl κ)
    (hcbs : AllOf ok cbs) : R c (runPosted f cbs c).2.2 := by
  cases f with
  | doAsyncCommand buff handler => exact h.doAsyncCommand buff handler c hcbs
  | message msgHandler msg => exact h.trans (h.log _ c) (h.callback _ hcbs)

/-- The completion handler of a connect, which first sets the state. -/
theorem handleAsyncConnect {cbs : Callbacks κ} (ec : ErrorCode) (handler : κ)
    (c : RedisClientImpl κ) (hcbs : AllOf ok cbs) :
    R { c with state := if ec.isNone then .connected else .unconnected }
      (handleAsyncConnect ec handler cbs c).2.2 := by
  have hcall : ∀ state : ClientState, R { c with state := state }
      (Defs.callback cbs ({ c with state := state }.log (.connect ec handler))).2.2 := fun state =>
    h.trans (h.log _ { c with state := state }) (h.callback _ hcbs)
  cases ec with
  | none =>
    have h1 := hcall .connected
    rcases handleAsyncConnect_cases handler cbs c with ⟨cbs1, c1, hcb, hd⟩ | ⟨-, hd⟩ <;> rw [hd]
    · rw [hcb] at h1
      exact h.trans h1 (h.read c1)
    · exact h1
  | some e => exact hcall .unconnected

end Keeps

/-! ### Steps and runs -/

/-- **An invariant of the steps is one of a run.** `P` is what is known of the events to come. -/
theorem run_invariant {P : List (Event κ) → RedisClientImpl κ → Prop} {I : RedisClientImpl κ → Prop}
    (hstep : ∀ e es c c', P (e :: es) c → I c → Defs.step e c = some c' → I c' ∧ P es c') :
    ∀ {es : List (Event κ)} {c c' : RedisClientImpl κ}, P es c → I c → Defs.run es c = some c' → I c'
  | [], c, c', _, hc, hrun => by
    cases hrun
    exact hc
  | e :: es, c, c', hes, hc, hrun => by
    obtain ⟨c1, h1, h2⟩ := Option.bind_eq_some_iff.mp hrun
    obtain ⟨hc1, hes1⟩ := hstep e es c c1 hes hc h1
    exact run_invariant hstep hes1 hc1 h2

/-- The same where all that is known is of each event alone. -/
theorem run_events {P : Event κ → Prop} {I : RedisClientImpl κ → Prop}
    (hstep : ∀ e c c', P e → I c → Defs.step e c = some c' → I c') {es : List (Event κ)}
    {c c' : RedisClientImpl κ} (hes : ∀ e ∈ es, P e) (hc : I c) (hrun : Defs.run es c = some c') :
    I c' :=
  run_invariant (P := fun es _ => ∀ e ∈ es, P e)
    (fun e _ c c' hes hc h => ⟨hstep e c c' (hes e List.mem_cons_self) hc h,
      fun e' he' => hes e' (List.mem_cons_of_mem e he')⟩) hes hc hrun

namespace KeepsLoop

theorem client (h : KeepsLoop ok R) {c : RedisClientImpl κ} {o : Outcome κ} (ho : R c o.2.2) :
    R c o.client := by
  rcases o with ⟨_ | _ | _, cbs, c'⟩
  · exact ho
  · exact ho
  · exact h.trans ho (h.broken c')

/-- **What is kept across each thing that is done is kept across a step.** -/
theorem step (h : KeepsLoop ok R) {e : Event κ} {c c' : RedisClientImpl κ} (he : AllIn ok e)
    (hstep : step e c = some c') : R c c' := by
  obtain ⟨-, hs⟩ := step_cases hstep
  cases hs with
  | user s => exact h.runScript c he
  | posted hs => exact h.client (h.trans (h.strand hs) (h.runPosted _ _ he))
  | receive hs => exact h.receive hs
  | readDone hs ho => exact h.client (h.trans (h.readDone hs) (h.asyncRead he ho))
  | @writeDone cbs ec writesDone hs =>
    exact h.client (h.trans (h.writeDone hs) (h.asyncWrite ec
      { c with socket := { c.socket with writesDone := writesDone } } he))
  | @connectDone cbs ec handler connectsDone hs =>
    exact h.client (h.trans (h.connectDone hs) (h.handleAsyncConnect ec handler
      { c with socket := { c.socket with connectsDone := connectsDone } } he))
  | readFail hs => exact h.socket (.inl ⟨_, hs⟩)
  | send hs => exact h.socket (.inr (.inl ⟨_, hs⟩))
  | writeFail hs => exact h.socket (.inr (.inr (.inl ⟨_, hs⟩)))
  | connectOk hs => exact h.socket (.inr (.inr (.inr (.inl ⟨_, hs⟩))))
  | connectFail hs => exact h.socket (.inr (.inr (.inr (.inr ⟨_, hs⟩))))

/-- **It is kept across a run.** -/
theorem run (h : KeepsLoop ok R) {es : List (Event κ)} {c c' : RedisClientImpl κ}
    (hes : ∀ e ∈ es, AllIn ok e) (hrun : run es c = some c') : R c c' :=
  run_events (fun _ _ _ he hc h1 => h.trans hc (h.step he h1)) hes (h.refl c) hrun

end KeepsLoop

end RedisClient.Async.Rules

import RedisClient.Async.Moments
import RedisClient.Async.Subscribing

/-! # Handlers that are stopped

A message is posted to its handlers, and runs later. `unsubscribe` and `disconnect` take handlers out
of the maps, but not what has been posted to them, and `disconnect` leaves the single-shot handlers. So
a handler stays silent after these calls in a run in which no message is posted to it when it is
unsubscribed, and nothing of the kind is left when the client is disconnected (`stopped_silent`). -/

namespace RedisClient.Async.Silence

open RedisClient.Value RedisClient.Parser.Defs RedisClient.Peers RedisClient.Async.Asio
open RedisClient.Async.Defs RedisClient.Async.Rules RedisClient.Async.Trace
open RedisClient.Async.Moments RedisClient.Async.OwnReplies RedisClient.Async.Subscribing
open RedisClient.Sync.Defs (ErrorCode ClientState)

variable {κ : Type} {k : κ} {c c' : RedisClientImpl κ}

/-! ### Stopping a handler -/

/-- A message that is posted to the handler. -/
def To (k : κ) : Posted κ → Prop
  | .message msgHandler _ => msgHandler = k
  | .doAsyncCommand _ _ => False

def IsMessage : Posted κ → Prop
  | .message _ _ => True
  | .doAsyncCommand _ _ => False

/-- The handler for messages in a call that subscribes. -/
def msgHandler? : Call κ → Option κ
  | .subscribe _ msgHandler _ | .psubscribe _ msgHandler _ | .singleShotSubscribe _ msgHandler _
  | .singleShotPSubscribe _ msgHandler _ => some msgHandler
  | _ => none

/-- The handler is registered for messages: the call is not refused. -/
@[reducible] def Registers (k : κ) (m : Moment κ) : Prop :=
  match m.action with
  | .call _ call => accepted m.client.state call ∧ msgHandler? call = some k
  | _ => False

/-- An entry of `msgHandlers` is the one with the handle. -/
def Handle.Is (handle : Handle) (e : MsgHandler κ) : Prop :=
  e.channel = handle.channel ∧ e.id = handle.id

/-- The handler is registered with the handle, and not otherwise. -/
structure Under (handle : Handle) (k : κ) (c : RedisClientImpl κ) : Prop where
  mem : ∃ e ∈ c.msgHandlers, Handle.Is handle e ∧ e.msgHandler = k
  only : ∀ e ∈ c.msgHandlers, e.msgHandler = k → Handle.Is handle e
  single : ∀ e ∈ c.singleShotMsgHandlers, e.msgHandler ≠ k

/-- The call in the moment stops the handler: it unsubscribes it, or it disconnects the client. -/
@[reducible] def Stops (k : κ) (m : Moment κ) : Prop :=
  match m.action with
  | .call _ (.unsubscribe handle) | .call _ (.punsubscribe handle) => Under handle k m.client
  | .call _ .disconnect => True
  | _ => False

/-- The handler has been stopped, and not registered again since. -/
def Stopped (k : κ) : List (Moment κ) → Prop
  | [] => False
  | m :: ms => Stopped k ms ∨ Stops k m ∧ ∀ m' ∈ ms, ¬ Registers k m'

/-- A handler is unsubscribed in a connected client only when no message is posted to it, and the
client is disconnected only when no message is posted and no single-shot handler is left. -/
@[reducible] def Settles (m : Moment κ) : Prop :=
  match m.action with
  | .call _ (.unsubscribe handle) | .call _ (.punsubscribe handle) =>
    ∀ e ∈ m.client.msgHandlers, Handle.Is handle e →
      m.client.isConnected = true ∧ ∀ f ∈ m.client.strand, ¬ To e.msgHandler f
  | .call _ .disconnect =>
    (∀ f ∈ m.client.strand, ¬ IsMessage f) ∧ m.client.singleShotMsgHandlers = []
  | _ => True

theorem stopped_concat {ms : List (Moment κ)} {m : Moment κ} (h : Stopped k (ms ++ [m])) :
    Stops k m ∨ Stopped k ms ∧ ¬ Registers k m := by
  induction ms with
  | nil =>
    rcases h with h | ⟨h, -⟩
    · exact h.elim
    · exact Or.inl h
  | cons m0 ms ih =>
    rcases h with h | ⟨h, hms⟩
    · rcases ih h with h | ⟨h, hm⟩
      · exact Or.inl h
      · exact Or.inr ⟨Or.inl h, hm⟩
    · refine Or.inr ⟨Or.inr ⟨h, fun m' hm' => hms m' (List.mem_append_left _ hm')⟩, ?_⟩
      exact hms m (List.mem_append_right _ List.mem_cons_self)

/-! ### The invariant -/

/-- Nothing is left of the handler. -/
structure Silent (k : κ) (c : RedisClientImpl κ) : Prop where
  strand : ∀ f ∈ c.strand, ¬ To k f
  msgHandlers : ∀ e ∈ c.msgHandlers, e.msgHandler ≠ k
  single : ∀ e ∈ c.singleShotMsgHandlers, e.msgHandler ≠ k

theorem Silent.congr (h : Silent k c) (hstrand : ∀ f ∈ c'.strand, f ∈ c.strand ∨ ¬ To k f)
    (hm : ∀ e ∈ c'.msgHandlers, e ∈ c.msgHandlers ∨ e.msgHandler ≠ k)
    (hs : ∀ e ∈ c'.singleShotMsgHandlers, e ∈ c.singleShotMsgHandlers ∨ e.msgHandler ≠ k) :
    Silent k c' where
  strand f hf := (hstrand f hf).elim (h.strand f) id
  msgHandlers e he := (hm e he).elim (h.msgHandlers e) id
  single e he := (hs e he).elim (h.single e) id

/-- After these moments, nothing is left of the handlers that have been stopped. -/
def Quieted (pre : List (Moment κ)) (c : RedisClientImpl κ) : Prop :=
  ∀ k, Stopped k pre → Silent k c

/-- No message runs in the moments whose handler has been stopped before. -/
def NoneRuns (pre ms : List (Moment κ)) : Prop :=
  ∀ ms1 m ms2, ms = ms1 ++ m :: ms2 → ∀ k msg, m.action = .message k msg →
    ¬ Stopped k (pre ++ ms1)

/-- What is carried. -/
def Heeds (c : RedisClientImpl κ) (ms : List (Moment κ)) (c' : RedisClientImpl κ) : Prop :=
  ∀ pre, Quieted pre c → Quieted (pre ++ ms) c' ∧ NoneRuns pre ms

theorem Heeds.append {ms ms' : List (Moment κ)} {c1 : RedisClientImpl κ} (h : Heeds c ms c1)
    (h' : Heeds c1 ms' c') : Heeds c (ms ++ ms') c' := by
  intro pre hc
  obtain ⟨hc1, hms⟩ := h pre hc
  obtain ⟨hc', hms'⟩ := h' _ hc1
  refine ⟨by rwa [← List.append_assoc], fun ms1 m ms2 heq k msg hm => ?_⟩
  rcases List.append_eq_append_iff.mp heq with ⟨as, h1, h2⟩ | ⟨bs, h1, h2⟩
  · rw [h1, ← List.append_assoc]
    exact hms' as m ms2 h2 k msg hm
  · cases bs with
    | nil =>
      rw [List.append_nil] at h1
      have hnone := hms' [] m ms2 h2.symm k msg hm
      rwa [List.append_nil, h1] at hnone
    | cons b bs =>
      cases h2
      exact hms ms1 m bs h1 k msg hm

/-- Something is done without a moment. -/
theorem Heeds.quiet (h : ∀ k, Silent k c → Silent k c') : Heeds c [] c' := by
  intro pre hc
  refine ⟨fun k hk => h k (hc k (by rwa [List.append_nil] at hk)), fun ms1 m ms2 heq => ?_⟩
  exact absurd heq.symm (by simp)

/-- A moment that is not a message. -/
theorem Heeds.one {m : Moment κ} (hm : ∀ k msg, m.action ≠ .message k msg)
    (hkeep : ∀ k, Silent k c → ¬ Registers k m → Silent k c')
    (hstop : ∀ k, Stops k m → Silent k c') : Heeds c [m] c' := by
  intro pre hc
  refine ⟨fun k hk => ?_, fun ms1 m' ms2 heq k msg hmsg => ?_⟩
  · rcases stopped_concat hk with hk | ⟨hk, hr⟩
    · exact hstop k hk
    · exact hkeep k (hc k hk) hr
  · cases ms1 with
    | nil =>
      cases heq
      exact absurd hmsg (hm k msg)
    | cons m1 ms1 => simp at heq

/-- An entry that is not a call or a message. -/
theorem Heeds.entry (a : Action κ) (s : Script κ) (c : RedisClientImpl κ)
    (ha : ∀ state call, a ≠ .call state call) (hm : ∀ k msg, a ≠ .message k msg) :
    Heeds c [⟨c, a, s⟩] (c.log a) := by
  refine .one hm (fun k hk _ => ⟨hk.strand, hk.msgHandlers, hk.single⟩) fun k hk => ?_
  cases a <;> first
    | exact hk.elim
    | exact absurd rfl (ha _ _)

/-! ### Calls -/

theorem Silent.post {f : Posted κ} (h : Silent k c) (hf : ¬ To k f) : Silent k (c.post f) := by
  refine h.congr (fun g hg => ?_) (fun e he => Or.inl he) fun e he => Or.inl he
  rcases List.mem_append.mp hg with hg | hg
  · exact Or.inl hg
  · rw [List.mem_singleton.mp hg]
    exact Or.inr hf

/-- A call that does not register the handler leaves nothing of it. -/
theorem body_silent {call : Call κ}
    (hk : accepted c.state call → msgHandler? call ≠ some k) (h : Silent k c) :
    Silent k (call.body c).2.2 := by
  have hpost := fun buff handler => h.post (f := .doAsyncCommand buff handler) id
  cases call with
  | connect endpoint handler =>
    cases endpoint <;> simp only [Call.body, connectTcp, connectLocal] <;> split_ifs
    all_goals exact ⟨h.strand, h.msgHandlers, h.single⟩
  | disconnect => exact ⟨h.strand, fun e he => (List.not_mem_nil he).elim, h.single⟩
  | command =>
    simp only [Call.body, command]
    split_ifs
    · exact h
    · exact hpost _ _
  | publish =>
    simp only [Call.body, publish]
    split_ifs
    · exact hpost _ _
    · exact h
  | subscribe channel m handler | psubscribe channel m handler =>
    simp only [Call.body, subscribe]
    split_ifs with hc
    · refine (hpost _ handler).congr (fun f hf => Or.inl hf) (fun e he => ?_) fun e he => Or.inl he
      rcases List.mem_append.mp he with he | he
      · exact Or.inl he
      · rw [List.mem_singleton.mp he]
        exact Or.inr fun heq => hk (decide_eq_true hc) (congrArg some heq)
    · exact h
  | singleShotSubscribe channel m handler | singleShotPSubscribe channel m handler =>
    simp only [Call.body, singleShotSubscribe]
    split_ifs with hc
    · refine (hpost _ handler).congr (fun f hf => Or.inl hf) (fun e he => Or.inl he) fun e he => ?_
      rcases List.mem_append.mp he with he | he
      · exact Or.inl he
      · rw [List.mem_singleton.mp he]
        exact Or.inr fun heq => hk (decide_eq_true hc) (congrArg some heq)
    · exact h
  | unsubscribe handle | punsubscribe handle =>
    simp only [Call.body, unsubscribe]
    split_ifs
    · refine (hpost _ none).congr (fun f hf => Or.inl hf) (fun e he => ?_) fun e he => Or.inl he
      exact Or.inl (List.mem_filter.mp he).1
    · exact h

/-- A call that stops the handler leaves nothing of it. -/
theorem stops_silent {state : ClientState} {call : Call κ}
    (hk : Stops k ⟨c, .call state call, .returns⟩) (hQ : Settles ⟨c, .call state call, .returns⟩) :
    Silent k (call.body (c.log (.call state call))).2.2 := by
  have hunsubscribe : ∀ (handle : Handle) (command : Bytes), Under handle k c →
      (∀ e ∈ c.msgHandlers, Handle.Is handle e →
        c.isConnected = true ∧ ∀ f ∈ c.strand, ¬ To e.msgHandler f) →
      Silent k (unsubscribe command handle.id handle.channel none
        (c.log (.call state call))).2.2 := by
    intro handle command hunder hsettles
    obtain ⟨e, he, his, rfl⟩ := hunder.mem
    obtain ⟨hconn, hstrand⟩ := hsettles e he his
    have hc : (c.log (.call state call)).state = .connected ∨
        (c.log (.call state call)).state = .subscribed := of_decide_eq_true hconn
    unfold unsubscribe
    rw [if_pos hc]
    have hfilter : Silent e.msgHandler { c.log (.call state call) with
        msgHandlers := c.msgHandlers.filter fun e' =>
          ¬ (e'.channel = handle.channel ∧ e'.id = handle.id) } := by
      refine ⟨hstrand, fun e' he' heq => ?_, hunder.single⟩
      obtain ⟨hmem, hnot⟩ := List.mem_filter.mp he'
      exact of_decide_eq_true hnot (hunder.only e' hmem heq)
    exact hfilter.post id
  cases call with
  | unsubscribe handle => exact hunsubscribe handle unsubscribeStr hk hQ
  | punsubscribe handle => exact hunsubscribe handle punsubscribeStr hk hQ
  | disconnect =>
    obtain ⟨hstrand, hsingle⟩ := hQ
    have hto : ∀ f ∈ c.strand, ¬ To k f := by
      intro f hf hk
      cases f with
      | message msgHandler msg => exact hstrand _ hf trivial
      | doAsyncCommand buff handler => exact hk
    refine ⟨hto, fun e he => (List.not_mem_nil he).elim, fun e he => ?_⟩
    change e ∈ c.singleShotMsgHandlers at he
    change c.singleShotMsgHandlers = [] at hsingle
    rw [hsingle] at he
    cases he
  | _ => exact hk.elim

theorem call_heeds {call : Call κ} (hQ : Settles ⟨c, .call c.state call, .returns⟩) :
    Heeds c [⟨c, .call c.state call, .returns⟩] (call.body (c.log (.call c.state call))).2.2 :=
  .one nofun (fun _ hk hr => body_silent (fun hacc heq => hr ⟨hacc, heq⟩)
      ⟨hk.strand, hk.msgHandlers, hk.single⟩)
    fun _ hk => stops_silent hk hQ

theorem carriesCalls_heeds : CarriesCalls (κ := κ) Settles Heeds where
  nil c := .quiet fun _ => id
  append := Heeds.append
  entry a s c ha _ := by
    refine .entry a s c (fun state call h => ?_) fun k msg h => ?_ <;> rw [h] at ha <;> exact ha
  accepted {call handle c c'} hb hQ := by
    have h := call_heeds hQ
    rwa [hb] at h
  refused {call action handle c c'} s hb hQ _ := by
    have h := call_heeds hQ
    rw [hb] at h
    refine h.append (.entry action s c' ?_ ?_) <;>
      rcases (body_told hb).2 with ⟨endpoint, handler, -, rfl⟩ | ⟨-, text, rfl⟩ <;> exact nofun

/-! ### Messages -/

theorem postSingleShot_silent (channel msg : Bytes) (h : Silent k c) :
    Silent k (postSingleShot channel msg c) := by
  unfold postSingleShot
  split
  · exact h
  · next e he =>
    have hne : ¬ To k (.message e.msgHandler msg) :=
      fun hk => h.single e (List.mem_of_find?_eq_some he) hk
    exact (h.post hne).congr (fun f hf => Or.inl hf) (fun e he => Or.inl he)
      fun e he => Or.inl (List.mem_of_mem_eraseP he)

theorem postMessages_silent (channel msg : Bytes) (h : Silent k c) :
    Silent k (postMessages channel msg c) := by
  have key : ∀ (es : List (MsgHandler κ)) {c : RedisClientImpl κ},
      (∀ e ∈ es, e.msgHandler ≠ k) → Silent k c →
      Silent k (es.foldl (fun c e => c.post (.message e.msgHandler msg)) c) := by
    intro es
    induction es with
    | nil => exact fun _ hc => hc
    | cons e es ih =>
      intro c hes hc
      have hpost : Silent k (c.post (.message e.msgHandler msg)) :=
        hc.post (hes e List.mem_cons_self)
      exact ih (fun e' he' => hes e' (List.mem_cons_of_mem e he')) hpost
  exact key _ (fun e he => h.msgHandlers e (List.mem_filter.mp he).1) h

theorem carries_heeds : CarriesLoop (κ := κ) Settles Heeds where
  toCarriesCalls := carriesCalls_heeds
  processed _ := .entry _ _ _ nofun nofun
  front v cbs _ hQ := carriesCalls_heeds.callFront (fun _ => .entry _ _ _ nofun nofun)
    (fun _ => .quiet fun _ hk => ⟨hk.strand, hk.msgHandlers, hk.single⟩) hQ
  postSingleShot channel msg c := .quiet fun _ => postSingleShot_silent channel msg
  postMessages channel msg c := .quiet fun _ => postMessages_silent channel msg
  redisParser _ c := .quiet fun _ hk => ⟨hk.strand, hk.msgHandlers, hk.single⟩
  read c := .quiet fun _ hk => ⟨hk.strand, hk.msgHandlers, hk.single⟩
  command {buff handler strand c d} hs hd _ := by
    have h1 := Heeds.entry (.doAsyncCommand buff handler) .returns d nofun nofun
    have h0 : Heeds c [] d := .quiet fun _ hk => by
      subst hd
      refine ⟨fun f hf => hk.strand f ?_, hk.msgHandlers, hk.single⟩
      rw [hs]
      exact List.mem_cons_of_mem _ hf
    exact (h0.append h1).append (.quiet fun _ hk => ⟨hk.strand, hk.msgHandlers, hk.single⟩)
  message {msgHandler msg strand c d} s hs hd _ := by
    subst hd
    intro pre hc
    refine ⟨fun k hk => ?_, fun ms1 m ms2 heq k msg' hmsg hk => ?_⟩
    · rcases stopped_concat hk with hk | ⟨hk, -⟩
      · exact hk.elim
      · have hsilent := hc k hk
        refine ⟨fun f hf => hsilent.strand f ?_, hsilent.msgHandlers, hsilent.single⟩
        rw [hs]
        exact List.mem_cons_of_mem _ hf
    · -- the message has been posted to its handler, so that has not been stopped
      cases ms1 with
      | nil =>
        cases heq
        cases hmsg
        rw [List.append_nil] at hk
        refine (hc _ hk).strand (.message msgHandler msg) ?_ rfl
        rw [hs]
        exact List.mem_cons_self
      | cons m1 ms1 => simp at heq
  clear c := .quiet fun _ hk => ⟨hk.strand, hk.msgHandlers, hk.single⟩
  write {data c d} _ _ hd _ := by
    have h1 := Heeds.entry (.asyncWrite data) .returns d nofun nofun
    have h0 : Heeds c [] d := .quiet fun _ hk => by
      subst hd
      exact ⟨hk.strand, hk.msgHandlers, hk.single⟩
    exact (h0.append h1).append (.quiet fun _ hk => ⟨hk.strand, hk.msgHandlers, hk.single⟩)
  broken c := .quiet fun _ hk => ⟨hk.strand, hk.msgHandlers, hk.single⟩
  receive _ := .quiet fun _ hk => ⟨hk.strand, hk.msgHandlers, hk.single⟩
  socket _ := .quiet fun _ hk => ⟨hk.strand, hk.msgHandlers, hk.single⟩
  readDone _ := .quiet fun _ hk => ⟨hk.strand, hk.msgHandlers, hk.single⟩
  writeDone _ := .quiet fun _ hk => ⟨hk.strand, hk.msgHandlers, hk.single⟩
  connectDone {ec handler connectsDone c d} s _ hd _ := by
    have h1 := Heeds.entry (.connect ec handler) s d nofun nofun
    have h0 : Heeds c [] d := .quiet fun _ hk => by
      subst hd
      exact ⟨hk.strand, hk.msgHandlers, hk.single⟩
    exact h0.append h1

/-- **A handler that has been stopped stays silent**: no message runs to it unless it is registered
again. -/
theorem stopped_silent {es : List (Event κ)} (hrun : run es .new = some c)
    (hes : ∀ m ∈ runMoments es .new, Settles m) {i : ℕ} {m : Moment κ} {msg : Bytes}
    (hi : (runMoments es .new)[i]? = some m) (hm : m.action = .message k msg) :
    ¬ Stopped k ((runMoments es .new).take i) := by
  obtain ⟨-, hnone⟩ := carries_heeds.run hes hrun [] fun k hk => hk.elim
  obtain ⟨hlt, rfl⟩ := List.getElem?_eq_some_iff.mp hi
  have hsplit : runMoments es .new = (runMoments es .new).take i ++
      (runMoments es .new)[i] :: (runMoments es .new).drop (i + 1) := by
    rw [← List.drop_eq_getElem_cons hlt, List.take_append_drop]
  exact hnone _ _ _ hsplit k msg hm

/-! ### Three runs -/

section Decidable

variable [DecidableEq κ]

instance (k : κ) : DecidablePred (To k)
  | .message msgHandler _ => inferInstanceAs (Decidable (msgHandler = k))
  | .doAsyncCommand _ _ => isFalse id

instance : DecidablePred (IsMessage : Posted κ → Prop)
  | .message _ _ => isTrue trivial
  | .doAsyncCommand _ _ => isFalse id

instance (k : κ) : DecidablePred (Registers k) := fun m =>
  decidableActions (fun a => Registers k { m with action := a }) m.action

instance (handle : Handle) (e : MsgHandler κ) : Decidable (Handle.Is handle e) :=
  inferInstanceAs (Decidable (_ ∧ _))

instance (handle : Handle) (k : κ) (c : RedisClientImpl κ) : Decidable (Under handle k c) :=
  decidable_of_iff ((∃ e ∈ c.msgHandlers, Handle.Is handle e ∧ e.msgHandler = k) ∧
    (∀ e ∈ c.msgHandlers, e.msgHandler = k → Handle.Is handle e) ∧
    ∀ e ∈ c.singleShotMsgHandlers, e.msgHandler ≠ k)
    ⟨fun h => ⟨h.1, h.2.1, h.2.2⟩, fun h => ⟨h.mem, h.only, h.single⟩⟩

instance (k : κ) : DecidablePred (Stops k) := fun m =>
  decidableActions (fun a => Stops k { m with action := a }) m.action

instance decidableStopped (k : κ) : DecidablePred (Stopped k)
  | [] => isFalse id
  | m :: ms =>
    have := decidableStopped k ms
    inferInstanceAs (Decidable (Stopped k ms ∨ Stops k m ∧ ∀ m' ∈ ms, ¬ Registers k m'))

instance : DecidablePred (Settles : Moment κ → Prop) := fun m =>
  decidableActions (fun a => Settles { m with action := a }) m.action

end Decidable

/-- A channel is subscribed to by this call, and a message arrives for it. -/
def listening (call : Call ℕ) : List (Event ℕ) :=
  [.connectDone [.call call .returns .returns], .posted [], .send 99, .writeDone [], .receive 99,
    .readDone []]

/-- A message runs, and then its handler is unsubscribed. -/
def messageFirst : List (Event ℕ) :=
  dial (channel.peer ()) ++ listening (.subscribe (chars "c") 7 none) ++
    [.posted [.call (.unsubscribe ⟨0, chars "c"⟩) .returns .returns], .posted []]

/-- The handler is unsubscribed, and then the message runs. -/
def unsubscribeFirst : List (Event ℕ) :=
  dial (channel.peer ()) ++ listening (.subscribe (chars "c") 7 none) ++
    [.user (.call (.unsubscribe ⟨0, chars "c"⟩) .returns .returns), .posted []]

/-- A client that waits for a single message is disconnected and connected again, and another handler
is subscribed to the channel. -/
def singleShotLeft : List (Event ℕ) :=
  dial (channel.peer ()) ++
    [.connectDone [.call (.singleShotSubscribe (chars "c") 7 none) .returns .returns], .posted [],
      .send 99, .writeDone [],
      .user (.call .disconnect .returns (.call (.connect .tcp 0) .returns .returns)), .readDone [],
      .connectOk (channel.peer ())] ++
    listening (.subscribe (chars "c") 8 none) ++ [.posted [], .posted []]

/-- A message runs before its handler is unsubscribed, and none runs to it after that. -/
theorem stopped_silent_messageFirst :
    (runMoments messageFirst .new)[9]?.map Moment.action = some (.message 7 (chars "hi")) ∧
      Stopped 7 (runMoments messageFirst .new) ∧
      ¬ Stopped 7 ((runMoments messageFirst .new).take 9) := by
  have hi : (runMoments messageFirst .new)[9]?.map Moment.action =
      some (.message 7 (chars "hi")) := by decide +kernel
  have hstop : Stopped 7 (runMoments messageFirst .new) := by decide +kernel
  refine ⟨hi, hstop, ?_⟩
  obtain ⟨m, hm, haction⟩ := Option.map_eq_some_iff.mp hi
  cases hrun : run messageFirst .new with
  | none =>
    have hsome : (run messageFirst .new).isSome = true := by decide +kernel
    rw [hrun] at hsome
    cases hsome
  | some c => exact stopped_silent hrun (by decide +kernel) hm haction

/-- **A handler that has been stopped is called**: a message that was posted before it is unsubscribed
runs after that, and so does one that arrives for a single-shot handler after the client has been
disconnected and connected again. -/
theorem stopped_called :
    ((run unsubscribeFirst .new).isSome = true ∧
      (runMoments unsubscribeFirst .new)[10]?.map Moment.action = some (.message 7 (chars "hi")) ∧
      Stopped 7 ((runMoments unsubscribeFirst .new).take 10)) ∧
    ((run singleShotLeft .new).isSome = true ∧
      (runMoments singleShotLeft .new)[15]?.map Moment.action = some (.message 7 (chars "hi")) ∧
      Stopped 7 ((runMoments singleShotLeft .new).take 15)) := by
  decide +kernel

end RedisClient.Async.Silence

import RedisClient.Async.Moments
import RedisClient.Async.Subscribing

/-! # Confirmations and messages

A connection that is used only to subscribe and unsubscribe, with a server that confirms each of these
commands and sends messages in between. After the first call that subscribes, a message is posted to
its handlers and a confirmation goes to the handler in front of the queue, and neither does what the
other does (`confirmations_reach_handlers`). Before that call the client takes all that it reads for
replies, and a message takes the handler of a confirmation away (`message_takes_handler`). -/

namespace RedisClient.Async.Confirmations

open RedisClient.Value RedisClient.Parser.Defs RedisClient.Parser.RoundTrip RedisClient.Commands
open RedisClient.Peers RedisClient.Async.Asio RedisClient.Async.Defs RedisClient.Async.Rules
open RedisClient.Async.Trace RedisClient.Async.Calls RedisClient.Async.Session
open RedisClient.Async.Receive RedisClient.Async.Runs RedisClient.Async.Rest
open RedisClient.Async.OwnReplies RedisClient.Async.Subscribing RedisClient.Async.Moments
open RedisClient.Sync.Defs (ErrorCode ClientState)

variable {κ σ : Type} {pub : Publisher σ} {s0 : σ} {n : ℕ} {c c' : RedisClientImpl κ}

/-! ### The calls and the server -/

/-- The call subscribes or unsubscribes. -/
@[reducible] def Listening : Call κ → Prop
  | .subscribe channel _ _ | .singleShotSubscribe channel _ _ =>
    Fits [.string subscribeStr, .string channel]
  | .psubscribe pattern _ _ | .singleShotPSubscribe pattern _ _ =>
    Fits [.string psubscribeStr, .string pattern]
  | .unsubscribe handle => Fits [.string unsubscribeStr, .string handle.channel]
  | .punsubscribe handle => Fits [.string punsubscribeStr, .string handle.channel]
  | .connect _ _ | .disconnect | .command _ _ _ | .publish _ _ _ => False

/-- User code that only makes such calls, and returns. -/
def ListeningScript (s : Script κ) : Prop := All Listening s ∧ ending s = .returns

/-- A step in which the user's code, the handlers included, does so, and no operation of the socket
fails. -/
def ListeningEvent : Event κ → Prop
  | .user s => ListeningScript s
  | .posted cbs | .readDone cbs | .writeDone cbs => ∀ s ∈ cbs, ListeningScript s
  | .receive _ | .send _ => True
  | .readFail _ | .writeFail _ | .connectOk _ | .connectFail _ | .connectDone _ => False

/-- A server that confirms a command that subscribes or unsubscribes with an array of three elements,
the first of which is the name of the command. -/
def Confirming (pub : Publisher σ) : Prop :=
  ∀ s, ∀ word ∈ confirmWords, ∀ name, ∃ second third,
    (pub.step s [word, name]).2.1.value = .array [.bytes word false, second, third]

instance : DecidablePred (Listening : Call κ → Prop) := decidableCalls _

instance (s : Script κ) : Decidable (ListeningScript s) :=
  inferInstanceAs (Decidable (All Listening s ∧ ending s = .returns))

instance : (e : Event κ) → Decidable (ListeningEvent e)
  | .user s => inferInstanceAs (Decidable (ListeningScript s))
  | .posted cbs | .readDone cbs | .writeDone cbs =>
    inferInstanceAs (Decidable (∀ s ∈ cbs, ListeningScript s))
  | .receive _ | .send _ => isTrue trivial
  | .readFail _ | .writeFail _ | .connectOk _ | .connectFail _ | .connectDone _ => isFalse id

/-! ### What the calls send -/

theorem listening_request {call : Call κ} (h : Listening call) : ∃ word ∈ confirmWords,
    ∃ name handler, request call = some ([.string word, .string name], handler) ∧
      Fits [.string word, .string name] := by
  cases call with
  | subscribe | singleShotSubscribe => exact ⟨subscribeStr, by decide, _, _, rfl, h⟩
  | psubscribe | singleShotPSubscribe => exact ⟨psubscribeStr, by decide, _, _, rfl, h⟩
  | unsubscribe => exact ⟨unsubscribeStr, by decide, _, _, rfl, h⟩
  | punsubscribe => exact ⟨punsubscribeStr, by decide, _, _, rfl, h⟩
  | connect | disconnect | command | publish => exact h.elim

/-- A connected client accepts the calls. -/
theorem listening_accepted {call : Call κ} (h : Listening call) (hc : c.isConnected = true) :
    accepted c.state call := by
  cases call with
  | connect | disconnect | command | publish => exact h.elim
  | _ => exact hc

theorem sessionScript_of_listening : ∀ {s : Script κ}, ListeningScript s →
    SessionScript (fun _ => False) True s
  | .returns, _ => trivial
  | .throws, h => by cases h.2
  | .call call _ next, h => by
    obtain ⟨word, -, name, handler, hq, hfits⟩ := listening_request h.1.1
    refine ⟨⟨_, hq, hfits, ?_⟩, sessionScript_of_listening ⟨h.1.2.2, h.2⟩⟩
    split
    · trivial
    · exact not_false

theorem sessionEvent_of_listening {e : Event κ} (h : ListeningEvent e) :
    SessionEvent (fun _ => False) True e := by
  cases e with
  | user s => exact sessionScript_of_listening h
  | posted cbs | readDone cbs | writeDone cbs =>
    exact fun s hs => sessionScript_of_listening (h s hs)
  | receive | send => trivial
  | _ => exact h.elim

theorem allIn_of_listening {e : Event κ} (h : ListeningEvent e) : AllIn Listening e := by
  cases e with
  | user s => exact h.1
  | posted cbs | readDone cbs | writeDone cbs => exact fun s hs => (h s hs).1
  | receive | send => trivial
  | _ => exact h.elim

/-! ### The calls are accepted -/

/-- The client is connected, and no connect is under way. -/
structure Steady (c : RedisClientImpl κ) : Prop where
  connected : c.isConnected = true
  connects : c.socket.connects = []
  connectsDone : c.socket.connectsDone = []

theorem Steady.congr (h : Steady c) (hstate : c'.state = c.state)
    (hconnects : c'.socket.connects = c.socket.connects)
    (hdone : c'.socket.connectsDone = c.socket.connectsDone) : Steady c' where
  connected := by
    unfold RedisClientImpl.isConnected
    rw [hstate]
    exact h.connected
  connects := hconnects.trans h.connects
  connectsDone := hdone.trans h.connectsDone

/-- The client stays connected, and accepts all calls in between. -/
def Accepting (c : RedisClientImpl κ) (ms : List (Moment κ)) (c' : RedisClientImpl κ) : Prop :=
  Steady c → Steady c' ∧ ∀ m ∈ ms, accepts m.action

theorem Accepting.quiet (h : Steady c → Steady c') : Accepting c [] c' :=
  fun hc => ⟨h hc, fun _ hm => (List.not_mem_nil hm).elim⟩

theorem Accepting.one {m : Moment κ} (hm : accepts m.action) (h : Steady c → Steady c') :
    Accepting c [m] c' := by
  refine fun hc => ⟨h hc, fun m' hm' => ?_⟩
  rw [List.mem_singleton.mp hm']
  exact hm

/-- A call of the kind goes through. -/
theorem body_steady {call : Call κ} (h : Listening call) (hc : Steady c) :
    ∃ handle c', call.body (c.log (.call c.state call)) = (none, handle, c') ∧ Steady c' := by
  obtain ⟨word, -, name, handler, hq, -⟩ := listening_request h
  have hacc : accepted (c.log (.call c.state call)).state call := listening_accepted h hc.connected
  obtain ⟨handle, ms, ss, seq, hb⟩ := body_accepted hq hacc
  refine ⟨handle, _, hb, ?_, hc.connects, hc.connectsDone⟩
  have hstate := of_decide_eq_true hc.connected
  refine decide_eq_true ?_
  dsimp only
  split
  · exact Or.inr rfl
  · exact hstate

theorem carriesCalls_accepting : CarriesCalls (κ := κ) (Recorded Listening) Accepting where
  nil c := .quiet id
  append h1 h2 hc := by
    obtain ⟨hc1, hms⟩ := h1 hc
    obtain ⟨hc', hms'⟩ := h2 hc1
    refine ⟨hc', fun m hm => ?_⟩
    rcases List.mem_append.mp hm with hm | hm
    · exact hms m hm
    · exact hms' m hm
  entry a s c ha _ := by
    refine .one ?_ fun hc => hc.congr rfl rfl rfl
    cases a <;> first
      | exact ha.elim
      | rfl
  accepted {call handle c c'} hb hQ hc := by
    obtain ⟨handle', c1, hb', hc1⟩ := body_steady hQ.2 hc
    rw [hb] at hb'
    cases hb'
    refine ⟨hc1, fun m hm => ?_⟩
    rw [List.mem_singleton.mp hm]
    exact listening_accepted hQ.2 hc.connected
  refused s hb hQ _ hc := by
    obtain ⟨handle', c1, hb', -⟩ := body_steady hQ.2 hc
    rw [hb] at hb'
    cases hb'

theorem carries_accepting : CarriesLoop (κ := κ) (Recorded Listening) Accepting where
  toCarriesCalls := carriesCalls_accepting
  processed _ := .one rfl fun hc => hc.congr rfl rfl rfl
  front v cbs _ hQ := carriesCalls_accepting.callFront
    (fun _ => .one rfl fun hc => hc.congr rfl rfl rfl)
    (fun _ => .quiet fun hc => hc.congr rfl rfl rfl) hQ
  postSingleShot channel msg c := by
    obtain ⟨ms, ss, hp⟩ := postSingleShot_posts channel msg c
    rw [hp]
    exact .quiet fun hc => hc.congr rfl rfl rfl
  postMessages channel msg c := by
    obtain ⟨ms, hp⟩ := postMessages_posts channel msg c
    rw [hp]
    exact .quiet fun hc => hc.congr rfl rfl rfl
  redisParser _ _ := .quiet fun hc => hc.congr rfl rfl rfl
  read c := .quiet fun hc => hc.congr rfl (Socket.asyncReadSome_connects c.socket)
    (Socket.asyncReadSome_connectsDone c.socket)
  command _ hd _ := by
    subst hd
    exact .one rfl fun hc => hc.congr rfl rfl rfl
  message _ _ hd _ := by
    subst hd
    exact .one rfl fun hc => hc.congr rfl rfl rfl
  clear _ := .quiet fun hc => hc.congr rfl rfl rfl
  write {data c d} _ _ hd _ := by
    subst hd
    exact .one rfl fun hc => hc.congr rfl (Socket.asyncWrite_connects data c.socket)
      (Socket.asyncWrite_connectsDone data c.socket)
  broken _ := .quiet fun hc => hc.congr rfl rfl rfl
  receive hs := by
    obtain ⟨reads, peer, sent, taken, -, -, rfl⟩ := Socket.receive_cases hs
    exact .quiet fun hc => hc.congr rfl rfl rfl
  socket hs := by
    refine .quiet fun hc => ?_
    rcases hs with ⟨e, hs⟩ | ⟨k, hs⟩ | ⟨e, hs⟩ | ⟨peer, hs⟩ | ⟨e, hs⟩
    · obtain ⟨reads, -, rfl⟩ := Socket.readFail_cases hs
      exact hc.congr rfl rfl rfl
    · obtain ⟨data, rest, peer, sent, taken, -, -, writes, writesDone, -, rfl⟩ :=
        Socket.send_cases hs
      exact hc.congr rfl rfl rfl
    · obtain ⟨data, writes, -, rfl⟩ := Socket.writeFail_cases hs
      exact hc.congr rfl rfl rfl
    · exact absurd hc.connects (Socket.connects_ne_nil (.inl ⟨peer, hs⟩))
    · exact absurd hc.connects (Socket.connects_ne_nil (.inr ⟨e, hs⟩))
  readDone _ := .quiet fun hc => hc.congr rfl rfl rfl
  writeDone _ := .quiet fun hc => hc.congr rfl rfl rfl
  connectDone _ h _ _ hc := by
    rw [hc.connectsDone] at h
    cases h

/-- The connect handler runs. -/
theorem connectDone_accepts {handler : κ} {cbs : Callbacks κ} {peer : Peer}
    (hready : Ready peer handler c) (hcbs : ∀ s ∈ cbs, ListeningScript s)
    (hstep : step (.connectDone cbs) c = some c') :
    Steady c' ∧ ∀ m ∈ stepMoments (.connectDone cbs) c, accepts m.action := by
  have hall : AllOf (κ := κ) Listening cbs := fun s hs => (hcbs s hs).1
  obtain ⟨-, hs⟩ := step_cases hstep
  cases hs with | @connectDone _ ec handler' connectsDone hdone => ?_
  have hnone := hdone
  rw [hready.socket] at hnone
  cases hnone
  generalize hd : { c with
    socket := { c.socket with connectsDone := [] }, state := .connected } = d
  have hsteady : Steady (d.log (.connect none handler)) := by
    rw [← hd]
    refine ⟨rfl, ?_, rfl⟩
    show c.socket.connects = []
    rw [hready.socket]
  have hacc : Accepting (d.log (.connect none handler))
      (scriptMoments (cbs.headD .returns) (d.log (.connect none handler)))
      (handleAsyncConnect none handler cbs
        { c with socket := { c.socket with connectsDone := [] } }).client :=
    carries_accepting.events.client
      (carries_accepting.reads.handleAsyncConnect hd.symm (scriptMoments_recorded (headD_all hall) _))
  obtain ⟨h1, h2⟩ := hacc hsteady
  refine ⟨h1, fun m hm => ?_⟩
  simp only [stepMoments, hdone] at hm
  rcases List.mem_cons.mp hm with rfl | hm
  · rfl
  · rw [← hd] at h2
    exact h2 m hm

/-- **All calls are accepted.** -/
theorem run_accepts {handler : κ} {cbs : Callbacks κ} {es : List (Event κ)} {peer : Peer}
    (hready : Ready peer handler c) (hcbs : ∀ s ∈ cbs, ListeningScript s)
    (hes : ∀ e ∈ es, ListeningEvent e) (hrun : run (.connectDone cbs :: es) c = some c') :
    ∀ m ∈ runMoments (.connectDone cbs :: es) c, accepts m.action := by
  obtain ⟨c1, h1, h2⟩ := Option.bind_eq_some_iff.mp hrun
  obtain ⟨hsteady, hfirst⟩ := connectDone_accepts hready hcbs h1
  have hrest := (carries_accepting.run
    (runMoments_recorded (fun e he => allIn_of_listening (hes e he)) c1) h2 hsteady).2
  intro m hm
  rw [runMoments, h1] at hm
  rcases List.mem_append.mp hm with hm | hm
  · exact hfirst m hm
  · exact hrest m hm

/-! ### The confirmations -/

/-- A confirmation of one of the commands. -/
def IsConfirmation (v : RedisValue) : Prop :=
  ∃ word ∈ confirmWords, ∃ second third, v = .array [.bytes word false, second, third]

theorem IsConfirmation.confirms {v : RedisValue} (h : IsConfirmation v) : confirms v := by
  obtain ⟨word, hword, second, third, rfl⟩ := h
  exact decide_eq_true hword

/-- A confirmation is no message. -/
theorem IsConfirmation.not_isPush {v : RedisValue} (h : IsConfirmation v) : ¬ IsPush v := by
  obtain ⟨word, hword, second, third, rfl⟩ := h
  have hwords : ∀ w ∈ confirmWords, w ≠ messageStr ∧ w ≠ pmessageStr := by decide
  obtain ⟨hmessage, hpmessage⟩ := hwords word hword
  intro hpush
  cases hpush with
  | message => exact hmessage rfl

/-- What the server replies to these commands. -/
theorem items_confirm (hpub : Confirming pub) {r : Reply} : ∀ {cs : List (List Bytes)} {s : σ},
    (∀ q ∈ cs, ∃ word ∈ confirmWords, ∃ name, q = [word, name]) →
    Item.reply r ∈ pub.items s cs → IsConfirmation r.value
  | [], _, _, hr => by cases hr
  | q :: cs, s, hcs, hr => by
    have hpush : ∀ ms : List Push, Item.reply r ∉ ms.map Item.push := by
      intro ms hmem
      obtain ⟨m, -, hm⟩ := List.mem_map.mp hmem
      cases hm
    rcases List.mem_append.mp hr with hr | hr
    · exact absurd hr (hpush _)
    · rcases List.mem_cons.mp hr with hr | hr
      · obtain ⟨word, hword, name, rfl⟩ := hcs q List.mem_cons_self
        cases hr
        exact ⟨word, hword, hpub s word hword name⟩
      · rcases List.mem_append.mp hr with hr | hr
        · exact absurd hr (hpush _)
        · exact items_confirm hpub (fun q' hq' => hcs q' (List.mem_cons_of_mem q hq')) hr

section Trace

variable {t : List (Action κ)}

/-- The server's replies in a session in which only these calls are made. -/
theorem itemsOf_confirm (hpub : Confirming pub)
    (ht : ∀ state call, Action.call state call ∈ t → Listening call) {r : Reply}
    (hr : Item.reply r ∈ itemsOf pub s0 t) : IsConfirmation r.value := by
  refine items_confirm hpub (fun q hq => ?_) hr
  obtain ⟨p, hp, rfl⟩ := List.mem_map.mp hq
  obtain ⟨a, ha, hi⟩ := List.mem_filterMap.mp hp
  cases a with
  | call state call =>
    simp only [issued?] at hi
    split_ifs at hi
    obtain ⟨word, hword, name, handler, hrequest, -⟩ := listening_request (ht state call ha)
    rw [hrequest] at hi
    cases hi
    exact ⟨word, hword, name, rfl⟩
  | _ => cases hi

theorem lawful_of_listening (hpub : Confirming pub)
    (ht : ∀ state call, Action.call state call ∈ t → Listening call) (hacc : AllAccepted t) :
    Lawful pub s0 t where
  accepted := hacc
  confirmed p hp _ := by
    rcases p with ⟨q, r | m⟩
    · exact (itemsOf_confirm hpub ht (List.of_mem_zip hp).2).confirms
    · rfl

end Trace

/-! ### Messages that are posted -/

def message? : Posted κ → Option (κ × Bytes)
  | .message msgHandler msg => some (msgHandler, msg)
  | .doAsyncCommand _ _ => none

/-- The messages on the strand, with their handlers. -/
def messages (c : RedisClientImpl κ) : List (κ × Bytes) := c.strand.filterMap message?

theorem body_messages (call : Call κ) (c : RedisClientImpl κ) :
    messages (call.body c).2.2 = messages c := by
  have hb := body_cases call c
  generalize call.body c = r at hb ⊢
  cases hb with
  | disconnect | connect | connected | refused => rfl
  | posts => simp [messages, message?]

/-- The user's code posts no messages. -/
theorem carries_messages : CarriesCalls (κ := κ) (fun _ => True) fun c _ c' =>
    messages c' = messages c :=
  carriesCalls_of_moment (fun _ => rfl) (fun h1 h2 => h2.trans h1) fun m _ => by
    rcases m with ⟨c, a, s⟩
    cases a <;> first
      | rfl
      | exact body_messages _ _

/-- **A value that is not a message posts none**, whatever the callbacks do. -/
theorem doProcessMessage_messages {v : RedisValue} (hv : c.state = .subscribed → confirms v)
    (cbs : Callbacks κ) : messages (doProcessMessage v cbs c).2.2 = messages c := by
  have hwords : ∀ w ∈ confirmWords, ¬ (w = messageStr ∨ w = pmessageStr) := by decide
  have hfront : ∀ d : RedisClientImpl κ, messages (callFront v cbs d).2.2 = messages d :=
    fun d => carries_messages.callFront (fun _ => rfl) (fun _ => rfl) fun _ _ => trivial
  have herror : ∀ (r : Report) (d : RedisClientImpl κ),
      messages (callErrorHandler r cbs d).2.2 = messages d :=
    fun r d => carries_messages.callErrorHandler fun _ _ => trivial
  unfold doProcessMessage
  dsimp only
  split_ifs with hs hh
  · have hconfirms : confirms v := hv hs
    unfold confirms at hconfirms
    unfold dispatch
    rcases hx : v.toArray with _ | ⟨command, _ | ⟨second, _ | ⟨third, rest⟩⟩⟩ <;>
      rw [hx] at hconfirms
    · cases hconfirms
    · cases hconfirms
    · cases hconfirms
    · have hword : command.toByteArray ∈ confirmWords := by simpa using hconfirms
      dsimp only
      rw [if_neg (hwords _ hword)]
      split_ifs
      · exact hfront _
      · exact herror _ _
  · exact hfront _
  · exact herror _ _

/-- **What is done with a value that is processed.** A message is posted, and nothing else is touched;
a confirmation posts no message. -/
def KeepsApart (m : Moment κ) : Prop :=
  match m.action with
  | .doProcessMessage _ v =>
    (IsPush v → ∀ cbs, ∃ fs ss, fs.filterMap posted? = [] ∧ doProcessMessage v cbs m.client =
      (.returns, cbs, { m.client.log m.action with
        strand := m.client.strand ++ fs, singleShotMsgHandlers := ss })) ∧
    (¬ IsPush v → ∀ cbs, messages (doProcessMessage v cbs m.client).2.2 = messages m.client)
  | _ => True

/-- The entries of the trace for the items. -/
theorem mem_zip_of_processed {α β γ : Type} {f : β → γ} : ∀ {l : List (α × γ)} {is : List β},
    l.map Prod.snd = (is.take l.length).map f → ∀ p ∈ l, ∃ i, f i = p.2 ∧ (p, i) ∈ l.zip is
  | [], _, _, p, hp => by cases hp
  | q :: l, [], h, _, _ => by simp at h
  | q :: l, i :: is, h, p, hp => by
    simp only [List.map_cons, List.length_cons, List.take_succ_cons, List.cons.injEq] at h
    rcases List.mem_cons.mp hp with rfl | hp
    · exact ⟨i, h.1.symm, List.mem_cons_self⟩
    · obtain ⟨j, hj, hmem⟩ := mem_zip_of_processed h.2 p hp
      exact ⟨j, hj, List.mem_cons_of_mem _ hmem⟩

theorem keepsApart_of {m : Moment κ} {t : List (Action κ)} (hpub : Confirming pub)
    (ht : ∀ state call, Action.call state call ∈ t → Listening call) (htimely : Timely pub s0 t)
    (hvalues : (processed t).map Prod.snd =
      ((itemsOf pub s0 t).take (processed t).length).map Item.value)
    (hm : Recorded Listening m) (hmem : m.action ∈ t) : KeepsApart m := by
  rcases m with ⟨c, a, s⟩
  cases a with
  | doProcessMessage state v =>
    obtain rfl : c.state = state := hm
    have hp : (c.state, v) ∈ processed t := List.mem_filterMap.mpr ⟨_, hmem, rfl⟩
    obtain ⟨i, hi, hzip⟩ := mem_zip_of_processed hvalues _ hp
    cases i with
    | reply r =>
      have hconfirm := itemsOf_confirm hpub ht (List.of_mem_zip hzip).2
      obtain rfl : r.value = v := hi
      exact ⟨fun hpush => absurd hpush hconfirm.not_isPush,
        fun _ => doProcessMessage_messages fun _ => hconfirm.confirms⟩
    | push m =>
      obtain rfl : m.reply.value = v := hi
      refine ⟨fun hpush cbs => ?_, fun hnot => absurd m.isPush hnot⟩
      have hs : (c.log (.doProcessMessage c.state m.reply.value)).state = .subscribed :=
        htimely _ hzip rfl
      obtain ⟨fs, ss, hfs, hd⟩ :=
        dispatch_push hpush cbs (c.log (.doProcessMessage c.state m.reply.value))
      exact ⟨fs, ss, hfs, (if_pos hs).trans hd⟩
  | _ => trivial

/-! ### The theorem -/

/-- **Confirmations and messages do not take each other's place**, if no message is processed before a
call that subscribes. The confirmations processed have been delivered to the handlers of the first
commands, in order; the other handlers wait; the error handler has not been called; a message
invokes and removes no handler of a confirmation, and a confirmation invokes no message handler.
When the loop can do nothing more, everything that the server writes has been processed. -/
theorem confirmations_reach_handlers (hpub : Confirming pub) {handler : κ} {cbs : Callbacks κ}
    {es : List (Event κ)} (hready : Ready (pub.peer s0) handler c)
    (hcbs : ∀ s ∈ cbs, ListeningScript s) (hes : ∀ e ∈ es, ListeningEvent e)
    (hrun : run (.connectDone cbs :: es) c = some c')
    (htimely : Timely pub s0 (c'.trace.drop c.trace.length)) :
    Delivers pub s0 c.trace.length c' ∧
    (∀ m ∈ runMoments (.connectDone cbs :: es) c, KeepsApart m) ∧
    (AtRest c' → (processed (c'.trace.drop c.trace.length)).length =
      (itemsOf pub s0 (c'.trace.drop c.trace.length)).length) := by
  have hrecorded : ∀ m ∈ runMoments (.connectDone cbs :: es) c, Recorded Listening m := by
    refine runMoments_recorded (fun e he => ?_) c
    rcases List.mem_cons.mp he with rfl | he
    · exact fun s hs => (hcbs s hs).1
    · exact allIn_of_listening (hes e he)
  have htrace : c'.trace.drop c.trace.length =
      (runMoments (.connectDone cbs :: es) c).map Moment.action := by
    rw [runMoments_trace hrun, List.drop_left]
  have hcalls : ∀ state call, Action.call state call ∈ c'.trace.drop c.trace.length →
      Listening call := by
    intro state call hmem
    rw [htrace] at hmem
    obtain ⟨m, hm, ha⟩ := List.mem_map.mp hmem
    have h := hrecorded m hm
    unfold Recorded at h
    rw [ha] at h
    exact h.2
  have hacc : AllAccepted (c'.trace.drop c.trace.length) := by
    intro a ha
    rw [htrace] at ha
    obtain ⟨m, hm, rfl⟩ := List.mem_map.mp ha
    exact run_accepts hready hcbs hes hrun m hm
  have hlaw : Lawful pub s0 (c'.trace.drop c.trace.length) := lawful_of_listening hpub hcalls hacc
  obtain ⟨c1, h1, h2⟩ := Option.bind_eq_some_iff.mp hrun
  have hs1 : InSession pub s0 (fun _ => False) True c.trace.length c1 :=
    connectDone_session hready (fun s hs => sessionScript_of_listening (hcbs s hs)) h1
      fun _ => hlaw.grows ((run_trace h2).drop _)
  have hs := session_run suffices_timely (fun e he => sessionEvent_of_listening (hes e he)) hs1 h2
    fun _ => ⟨hlaw, htimely⟩
  have hdelivers : Delivers pub s0 c.trace.length c' := by
    obtain ⟨x, data, hcore, -⟩ := hs
    exact Core.delivers hcore
  refine ⟨hdelivers, fun m hm => ?_, processed_all hs⟩
  refine keepsApart_of hpub hcalls htimely hdelivers.processed (hrecorded m hm) ?_
  rw [htrace]
  exact List.mem_map_of_mem hm

/-! ### Two sessions -/

/-- The confirmation of a command about `c`. -/
def confirmationOf (word : Bytes) (h : word ∈ confirmWords) : Reply :=
  ⟨.array [.bulk word, .bulk (chars "c"), .int 1], by
    have hlen : ∀ w ∈ confirmWords, ReplyTree.Wf (.bulk w) := by
      simp [confirmWords, ReplyTree.Wf, subscribeStr, unsubscribeStr, psubscribeStr,
        punsubscribeStr, chars]
    have hword := hlen word h
    simp only [ReplyTree.Wf] at hword
    simp [ReplyTree.Wf, ReplyTree.AllWf, chars, hword]⟩

/-- A server that confirms, and sends messages before and after that. -/
def herald (early late : List Bytes → List Push) : Publisher Unit where
  step _ c :=
    ((), if h : c.headD [] ∈ confirmWords then confirmationOf _ h else (pong.step () c).2, late c)
  early _ c := early c

theorem confirming_herald (early late : List Bytes → List Push) :
    Confirming (herald early late) := by
  intro s word hword name
  have hreply : ((herald early late).step s [word, name]).2.1 = confirmationOf word hword :=
    dif_pos hword
  rw [hreply]
  exact ⟨_, _, rfl⟩

/-- A message for a command that subscribes. -/
def newsFor (c : List Bytes) : List Push := if Subscribes c then [news] else []

/-- A server that sends a message before and after the confirmation of a subscription. -/
def courteous : Publisher Unit := herald newsFor newsFor

/-- A server that sends a message after every confirmation. -/
def intrusive : Publisher Unit := herald (fun _ => []) fun _ => [news]

/-- A handler is unsubscribed that had not been subscribed, and one is subscribed to `c` before that is
confirmed. -/
def listeningRun : List (Event ℕ) :=
  [.user (.call (.unsubscribe ⟨0, chars "d"⟩) .returns .returns), .posted [], .send 99,
    .writeDone [], .user (.call (.subscribe (chars "c") 7 (some 1)) .returns .returns), .posted [],
    .send 99, .writeDone [], .receive 40, .readDone [], .receive 999, .readDone [], .posted []]

/-- Two handlers are unsubscribed that had not been subscribed. -/
def unsubscribeTwice : List (Event ℕ) :=
  [.user (.call (.unsubscribe ⟨0, chars "c"⟩) .returns
      (.call (.unsubscribe ⟨1, chars "c"⟩) .returns .returns)), .posted [], .posted [], .send 99,
    .writeDone [], .send 99, .writeDone [], .receive 999, .readDone []]

theorem confirmations_reach_handlers_listening : ∃ c c',
    run (dial (courteous.peer ())) .new = some c ∧ run (.connectDone [] :: listeningRun) c = some c' ∧
    Delivers courteous () c.trace.length c' ∧
    (∀ m ∈ runMoments (.connectDone [] :: listeningRun) c, KeepsApart m) ∧
    (AtRest c' → (processed (c'.trace.drop c.trace.length)).length =
      (itemsOf courteous () (c'.trace.drop c.trace.length)).length) := by
  obtain ⟨c, c', hc, hc', htimely, -⟩ :=
    dial_run (courteous.peer ()) (.connectDone [] :: listeningRun)
      (fun k c' => Timely courteous () (c'.trace.drop k) ∧
        (processed (c'.trace.drop k)).length = 4) (by decide +kernel)
  obtain ⟨d, hd, hready⟩ := ready_dial (courteous.peer ())
  rw [hc] at hd
  cases hd
  exact ⟨c, c', hc, hc', confirmations_reach_handlers (confirming_herald _ _) hready (by decide)
    (by decide) hc' htimely⟩

/-- **A message takes the handler of a confirmation**, if it comes before a subscription: the second
handler is called with it, and the error handler is told of the second confirmation. -/
theorem message_takes_handler : ∃ c c', run (dial (intrusive.peer ())) .new = some c ∧
    run (.connectDone [] :: unsubscribeTwice) c = some c' ∧ Confirming intrusive ∧
    (∀ e ∈ unsubscribeTwice, ListeningEvent e) ∧
    replies (c'.trace.drop c.trace.length) =
      [(none, (confirmationOf unsubscribeStr (by decide)).value), (none, news.reply.value)] ∧
    (errors (c'.trace.drop c.trace.length)).length = 2 ∧
    ¬ Delivers intrusive () c.trace.length c' := by
  obtain ⟨c, c', hc, hc', hrep, herr⟩ := dial_run (intrusive.peer ())
    (.connectDone [] :: unsubscribeTwice)
    (fun k c' => replies (c'.trace.drop k) =
        [(none, (confirmationOf unsubscribeStr (by decide)).value), (none, news.reply.value)] ∧
      (errors (c'.trace.drop k)).length = 2) (by decide +kernel)
  refine ⟨c, c', hc, hc', confirming_herald _ _, by decide, hrep, herr, fun h => ?_⟩
  rw [h.errors] at herr
  cases herr

end RedisClient.Async.Confirmations

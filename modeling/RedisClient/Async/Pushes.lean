import RedisClient.Async.Confirmations
import RedisClient.Async.Registrations
import RedisClient.Async.Roster

/-! # Pushes

What `doProcessMessage` posts for a value is a function of the value and of the client (`posts`), and
what is called and what is still on the strand is all that has been posted, in order
(`posted_in_order`). What is registered can be read off the calls in the trace (`registry`). -/

namespace RedisClient.Async.Pushes

open RedisClient.Value RedisClient.Parser.Defs RedisClient.Peers RedisClient.Async.Asio
open RedisClient.Async.Defs RedisClient.Async.Rules RedisClient.Async.Trace
open RedisClient.Async.Moments RedisClient.Async.Confirmations RedisClient.Async.Registrations
open RedisClient.Async.Roster
open RedisClient.Sync.Defs (SysError ErrorCode ClientState)

variable {κ : Type} {c c' : RedisClientImpl κ} {ms : List (Moment κ)}

/-! ### What is posted -/

/-- The messages that are posted for a value, with their handlers. -/
def posts (m : Moment κ) : List (κ × Bytes) :=
  match m.action with
  | .doProcessMessage _ v => (messages (doProcessMessage v [] m.client).2.2).drop
      (messages m.client).length
  | _ => []

def called? : Action κ → Option (κ × Bytes)
  | .message msgHandler msg => some (msgHandler, msg)
  | _ => none

/-- The message handlers that have been called, with their messages. -/
def called (t : List (Action κ)) : List (κ × Bytes) := t.filterMap called?

/-- What is posted does not depend on what the callbacks do. -/
theorem doProcessMessage_posts (state : ClientState) (v : RedisValue) (s : Script κ)
    (cbs : Callbacks κ) (c : RedisClientImpl κ) : messages (doProcessMessage v cbs c).2.2 =
      messages c ++ posts ⟨c, .doProcessMessage state v, s⟩ := by
  obtain ⟨ps, hps⟩ : ∃ ps, ∀ cbs, messages (doProcessMessage v cbs c).2.2 = messages c ++ ps := by
    rcases doProcessMessage_handling v c with ⟨-, -, channel, msg, h⟩ | ⟨-, h⟩ | ⟨text, -, h⟩
    · obtain ⟨ps, ss, hc⟩ := subscribers_posts channel msg (c.log (.doProcessMessage c.state v))
      refine ⟨ps, fun cbs => ?_⟩
      rw [(h cbs).2, hc]
      simp [messages, message?, RedisClientImpl.log, List.filterMap_map, Function.comp_def]
    · refine ⟨[], fun cbs => ?_⟩
      rw [(h cbs).2, List.append_nil]
      exact carries_messages.callFront (fun _ => rfl) (fun _ => rfl) fun _ _ => trivial
    · refine ⟨[], fun cbs => ?_⟩
      rw [(h cbs).2, List.append_nil]
      exact carries_messages.callErrorHandler fun _ _ => trivial
  have hposts : posts ⟨c, .doProcessMessage state v, s⟩ = ps := by
    unfold posts
    dsimp only
    rw [hps, List.drop_left]
  rw [hposts, hps]

theorem posts_of_same {state : ClientState} {v : RedisValue} {s : Script κ} (cbs : Callbacks κ)
    (h : messages (doProcessMessage v cbs c).2.2 = messages c) :
    posts ⟨c, .doProcessMessage state v, s⟩ = [] := by
  rw [doProcessMessage_posts state v s] at h
  exact List.append_right_eq_self.mp h

/-! ### In order -/

/-- What has been called and what is still to be are all that has been posted, in order. -/
def InOrder (c : RedisClientImpl κ) (ms : List (Moment κ)) (c' : RedisClientImpl κ) : Prop :=
  called c'.trace ++ messages c' = called c.trace ++ messages c ++ ms.flatMap posts

theorem InOrder.append {ms' : List (Moment κ)} {c1 : RedisClientImpl κ} (h : InOrder c ms c1)
    (h' : InOrder c1 ms' c') : InOrder c (ms ++ ms') c' := by
  unfold InOrder at *
  rw [h', h, List.flatMap_append, List.append_assoc]

theorem InOrder.quiet (ht : c'.trace = c.trace) (hs : messages c' = messages c) :
    InOrder c [] c' := by
  unfold InOrder
  rw [ht, hs, List.flatMap_nil, List.append_nil]

/-- An entry that neither calls a message handler nor processes a value. -/
def Silent : Action κ → Prop
  | .message _ _ | .doProcessMessage _ _ => False
  | _ => True

theorem posts_silent {m : Moment κ} (hm : Silent m.action) : posts m = [] := by
  rcases m with ⟨c, a, s⟩
  cases a <;> first
    | rfl
    | exact hm.elim

theorem InOrder.one {m : Moment κ} (hm : Silent m.action) (ht : c'.trace = c.trace ++ [m.action])
    (hs : messages c' = messages c) : InOrder c [m] c' := by
  have hcalled : called c'.trace = called c.trace := by
    rcases m with ⟨d, a, s⟩
    rw [ht]
    cases a <;> first
      | exact hm.elim
      | simp [called, called?]
  unfold InOrder
  rw [hcalled, hs, List.flatMap_singleton, posts_silent hm, List.append_nil]

theorem silent_of_scripted {a : Action κ} (h : Scripted a) : Silent a := by
  cases a <;> trivial

theorem next_messages (m : Moment κ) : messages m.next = messages m.client := by
  rcases m with ⟨c, a, s⟩
  cases a <;> first
    | rfl
    | exact body_messages _ _

theorem carriesCalls_inOrder : CarriesCalls (κ := κ) (fun _ => True) InOrder :=
  carriesCalls_of_scripted (fun _ => .quiet rfl rfl) InOrder.append fun m hm _ =>
    .one (silent_of_scripted hm) m.next_trace (next_messages m)

theorem called_log (c : RedisClientImpl κ) {a : Action κ} (ha : called? a = none) :
    called (c.log a).trace = called c.trace := by
  simp [called, RedisClientImpl.log, ha]

/-- A value for which nothing is posted, and then what the callbacks do. -/
theorem InOrder.processed {v : RedisValue} {ms : List (Moment κ)}
    (hms : InOrder (c.log (.doProcessMessage c.state v)) ms c')
    (hposts : posts ⟨c, .doProcessMessage c.state v, .returns⟩ = []) :
    InOrder c (⟨c, .doProcessMessage c.state v, .returns⟩ :: ms) c' := by
  have hlog : called (c.log (.doProcessMessage c.state v)).trace = called c.trace :=
    called_log c rfl
  unfold InOrder at *
  rw [hms, hlog, List.flatMap_cons, hposts]
  rfl

theorem process_inOrder (v : RedisValue) (cbs : Callbacks κ) (c : RedisClientImpl κ) :
    InOrder c (doProcessMessageMoments v cbs c) (doProcessMessage v cbs c).2.2 := by
  have hposts := doProcessMessage_posts c.state v .returns cbs c
  rcases doProcessMessage_handling v c with ⟨-, -, channel, msg, h⟩ | ⟨-, h⟩ | ⟨text, -, h⟩ <;>
    obtain ⟨hmoments, hdone⟩ := h cbs <;> rw [hmoments]
  · obtain ⟨ps, ss, hc⟩ := subscribers_posts channel msg (c.log (.doProcessMessage c.state v))
    have htrace : (doProcessMessage v cbs c).2.2.trace =
        (c.log (.doProcessMessage c.state v)).trace := by rw [hdone, hc]
    have hlog : called (c.log (.doProcessMessage c.state v)).trace = called c.trace :=
      called_log c rfl
    unfold InOrder
    rw [hposts, htrace, hlog, List.flatMap_singleton, List.append_assoc]
  · have hfront : InOrder (c.log (.doProcessMessage c.state v))
        (frontMoments v cbs (c.log (.doProcessMessage c.state v)))
        (callFront v cbs (c.log (.doProcessMessage c.state v))).2.2 :=
      carriesCalls_inOrder.callFront (fun _ => .one trivial rfl rfl) (fun _ => .quiet rfl rfl)
        fun _ _ => trivial
    rw [hdone]
    refine hfront.processed (posts_of_same cbs ?_)
    rw [hdone]
    exact carries_messages.callFront (fun _ => rfl) (fun _ => rfl) fun _ _ => trivial
  · have herror : InOrder (c.log (.doProcessMessage c.state v))
        (errorMoments (.text text) cbs (c.log (.doProcessMessage c.state v)))
        (callErrorHandler (.text text) cbs (c.log (.doProcessMessage c.state v))).2.2 :=
      carriesCalls_inOrder.callErrorHandler fun _ _ => trivial
    rw [hdone]
    refine herror.processed (posts_of_same cbs ?_)
    rw [hdone]
    exact carries_messages.callErrorHandler fun _ _ => trivial

theorem carries_inOrder : CarriesEvents (κ := κ) (fun _ => True) InOrder where
  toCarriesCalls := carriesCalls_inOrder
  process v cbs c _ := process_inOrder v cbs c
  redisParser _ _ := .quiet rfl rfl
  read _ := .quiet rfl rfl
  command {buff handler strand c d} hs hd _ := by
    subst hd
    refine .one trivial rfl ?_
    show List.filterMap message? strand = List.filterMap message? c.strand
    rw [hs]
    rfl
  message {msgHandler msg strand c d} s hs hd _ := by
    subst hd
    have hmessages : messages c = (msgHandler, msg) :: List.filterMap message? strand := by
      unfold messages
      rw [hs]
      rfl
    unfold InOrder
    rw [hmessages]
    simp [called, called?, RedisClientImpl.log, posts, messages]
  clear _ := .quiet rfl rfl
  write _ _ hd _ := by
    subst hd
    exact .one trivial rfl rfl
  broken _ := .quiet rfl rfl
  receive _ := .quiet rfl rfl
  socket _ := .quiet rfl rfl
  readDone _ := .quiet rfl rfl
  writeDone _ := .quiet rfl rfl
  connectDone _ _ hd _ := by
    subst hd
    exact .one trivial rfl rfl

/-- **Messages are called in the order in which they have been posted**, each of them once. -/
theorem posted_in_order {es : List (Event κ)} (h : run es .new = some c) :
    called c.trace ++ messages c = (runMoments es .new).flatMap posts :=
  carries_inOrder.run (fun _ _ => trivial) h

/-! ### What is registered -/

/-- What an entry of the trace registers or takes away. -/
def enter (r : Registry κ) (a : Action κ) : Registry κ :=
  match a with
  | .call _ .disconnect => { r with entries := [] }
  | _ =>
    match changes? a with
    | some x => r.apply x
    | none => r

/-- The handlers registered after these calls. -/
def registry (t : List (Action κ)) : Registry κ := t.foldl enter ⟨0, []⟩

/-- The handlers of a kind that are registered for a channel or pattern. -/
def live (kind : Kind) (name : Bytes) (t : List (Action κ)) : List κ :=
  ((registry t).entries.filter fun e => e.1 = kind ∧ e.2.channel = name).map fun e => e.2.msgHandler

@[simp] theorem registry_concat (t : List (Action κ)) (a : Action κ) :
    registry (t ++ [a]) = enter (registry t) a := by
  simp [registry]

/-- What a moment does to the registrations is what its entry says. -/
theorem enter_next {ok : Call κ → Prop} {m : Moment κ} {r : Registry κ} (hm : Recorded ok m)
    (hr : registrations m.client = (r.entries.map Prod.snd, r.seq)) :
    registrations m.next = ((enter r m.action).entries.map Prod.snd, (enter r m.action).seq) := by
  rcases m with ⟨c, a, s⟩
  obtain ⟨hmap, hseq⟩ := Prod.mk.inj hr
  cases a with
  | call state call =>
    obtain rfl : c.state = state := hm.1
    have hother : Other call → enter r (.call c.state call) = r →
        registrations (call.body (c.log (.call c.state call))).2.2 =
          ((enter r (.call c.state call)).entries.map Prod.snd,
            (enter r (.call c.state call)).seq) := by
      intro hcall henter
      rw [henter]
      exact (body_other hcall (c.log (.call c.state call))).2.trans hr
    cases call with
    | disconnect => exact congrArg (Prod.mk []) hseq
    | subscribe | psubscribe =>
      by_cases h : c.state = .connected ∨ c.state = .subscribed
      · simp [registrations, Moment.next, Call.body, subscribe, enter, changes?, accepted, change,
          Registry.apply, h, RedisClientImpl.post, RedisClientImpl.log, ← hmap, ← hseq]
      · simp [registrations, Moment.next, Call.body, subscribe, enter, changes?, accepted, h,
          refuse, RedisClientImpl.log, ← hmap, ← hseq]
    | unsubscribe handle | punsubscribe handle =>
      by_cases h : c.state = .connected ∨ c.state = .subscribed
      · simp only [registrations, Moment.next, Call.body, unsubscribe, enter, changes?, accepted,
          change, Registry.apply, h, RedisClientImpl.post, RedisClientImpl.log, ← hseq, if_true,
          decide_true]
        change c.msgHandlers = _ at hmap
        rw [hmap, List.filter_map]
        rfl
      · simp [registrations, Moment.next, Call.body, unsubscribe, enter, changes?, accepted, h,
          refuse, RedisClientImpl.log, ← hmap, ← hseq]
    | connect | command | publish | singleShotSubscribe | singleShotPSubscribe =>
      exact hother trivial (by simp [enter, changes?, change])
  | _ => exact hr

/-- **The registrations are those of the calls in the trace.** -/
theorem registry_linked {ok : Call κ → Prop} (h : Linked .new ms c)
    (hms : ∀ m ∈ ms, Recorded ok m) : registrations c =
      ((registry (ms.map Moment.action)).entries.map Prod.snd,
        (registry (ms.map Moment.action)).seq) := by
  induction ms using List.reverseRecOn generalizing c with
  | nil => exact h
  | append_singleton ms m ih =>
    obtain ⟨h1, h2⟩ := h.concat
    have hbefore := ih h1 fun m hm => hms m (List.mem_append_left _ hm)
    rw [h2, List.map_append, List.map_singleton, registry_concat]
    exact enter_next (hms m (by simp)) hbefore

/-! ### Pushes -/

/-- A push: its kind, the channel or pattern that it is for, and its payload. -/
def push? : RedisValue → Option (Kind × Bytes × Bytes)
  | .array [.bytes word false, .bytes channel false, .bytes payload false] =>
    if word = messageStr then some (.channel, channel, payload) else none
  | .array [.bytes word false, .bytes pattern false, .bytes _ false, .bytes payload false] =>
    if word = pmessageStr then some (.pattern, pattern, payload) else none
  | _ => none

/-- The two forms of a push. -/
theorem push_cases {v : RedisValue} {kind : Kind} {name payload : Bytes}
    (h : push? v = some (kind, name, payload)) :
    v = .array [.bytes messageStr false, .bytes name false, .bytes payload false] ∨
      ∃ channel, v = .array [.bytes pmessageStr false, .bytes name false, .bytes channel false,
        .bytes payload false] := by
  unfold push? at h
  split at h
  · split_ifs at h with hword
    cases h
    exact Or.inl (by rw [hword])
  · split_ifs at h with hword
    cases h
    exact Or.inr ⟨_, by rw [hword]⟩
  · cases h

/-- **A push** that is processed after a subscription is posted to the handlers that are found under
its channel or pattern, whatever their kind. -/
theorem doProcessMessage_push {v : RedisValue} {kind : Kind} {name payload : Bytes}
    (h : push? v = some (kind, name, payload)) (hs : c.state = .subscribed) (cbs : Callbacks κ) :
    doProcessMessage v cbs c = (.returns, cbs, postMessages name payload
      (postSingleShot name payload (c.log (.doProcessMessage c.state v)))) := by
  have hlog : (c.log (.doProcessMessage c.state v)).state = .subscribed := hs
  unfold doProcessMessage
  dsimp only
  rw [if_pos hlog]
  rcases push_cases h with rfl | ⟨channel, rfl⟩
  · simp [dispatch, RedisValue.toArray, RedisValue.toByteArray]
  · simp [dispatch, RedisValue.toArray, RedisValue.toByteArray]

/-- The single-shot handler that is found under a name. -/
def single (name : Bytes) (c : RedisClientImpl κ) : Option κ :=
  (c.singleShotMsgHandlers.find? fun e => e.channel = name).map SingleShotHandler.msgHandler

/-- The handlers that are found under a name. -/
def found (name : Bytes) (c : RedisClientImpl κ) : List κ :=
  (c.msgHandlers.filter fun e => e.channel = name).map MsgHandler.msgHandler

theorem messages_postSingleShot (name payload : Bytes) (c : RedisClientImpl κ) :
    messages (postSingleShot name payload c) =
      messages c ++ ((single name c).toList.map fun k => (k, payload)) := by
  unfold postSingleShot
  split
  · next h => simp [single, h]
  · next e h => simp [single, h, messages, message?, RedisClientImpl.post]

theorem messages_postMessages (name payload : Bytes) (c : RedisClientImpl κ) :
    messages (postMessages name payload c) =
      messages c ++ (found name c).map fun k => (k, payload) := by
  unfold postMessages found
  induction c.msgHandlers.filter (fun e => e.channel = name) generalizing c with
  | nil => simp
  | cons e es ih =>
    rw [List.foldl_cons, ih]
    simp [messages, message?, RedisClientImpl.post]

/-- What is posted for a push. -/
theorem posts_push {m : Moment κ} {state : ClientState} {v : RedisValue} {kind : Kind}
    {name payload : Bytes} (hm : m.action = .doProcessMessage state v)
    (h : push? v = some (kind, name, payload)) (hs : m.client.state = .subscribed) :
    posts m = ((single name m.client).toList ++ found name m.client).map fun k => (k, payload) := by
  rcases m with ⟨c, a, s⟩
  subst hm
  have hposts := doProcessMessage_posts state v s [] c
  have hfound : found name (postSingleShot name payload (c.log (.doProcessMessage c.state v))) =
      found name c := by
    obtain ⟨ps, ss, hc⟩ := postSingleShot_posts name payload (c.log (.doProcessMessage c.state v))
    rw [hc]
    rfl
  rw [doProcessMessage_push h hs, messages_postMessages, messages_postSingleShot, hfound,
    List.append_assoc, ← List.map_append] at hposts
  exact (List.append_cancel_left hposts).symm

/-- Nothing is posted for other values, nor before a subscription. -/
theorem posts_eq_nil {m : Moment κ} {state : ClientState} {v : RedisValue}
    (hm : m.action = .doProcessMessage state v)
    (h : ¬ (m.client.state = .subscribed ∧ Announces v)) : posts m = [] := by
  rcases m with ⟨c, a, s⟩
  subst hm
  rcases doProcessMessage_handling v c with ⟨hs, hv, -⟩ | ⟨-, hd⟩ | ⟨text, -, hd⟩
  · exact absurd ⟨hs, hv⟩ h
  · refine posts_of_same [] ?_
    rw [(hd []).2]
    exact carries_messages.callFront (fun _ => rfl) (fun _ => rfl) fun _ _ => trivial
  · refine posts_of_same [] ?_
    rw [(hd []).2]
    exact carries_messages.callErrorHandler fun _ _ => trivial

end RedisClient.Async.Pushes

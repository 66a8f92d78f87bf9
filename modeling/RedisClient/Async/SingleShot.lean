import RedisClient.Async.Kinds

/-! # Single-shot subscriptions

A single-shot handler waits for the next push on its channel. `doProcessMessage` finds only the first
of those that wait, so each is called with the next push if and only if no push finds more than one
(`single_shot_once`). -/

namespace RedisClient.Async.SingleShot

open RedisClient.Value RedisClient.Parser.Defs RedisClient.Parser.RoundTrip RedisClient.Peers
open RedisClient.Async.Asio RedisClient.Async.Defs RedisClient.Async.Rules RedisClient.Async.Trace
open RedisClient.Async.Moments RedisClient.Async.OwnReplies RedisClient.Async.Confirmations
open RedisClient.Async.Registrations RedisClient.Async.Roster RedisClient.Async.Pushes
open RedisClient.Async.Kinds (writes hello helloValue)
open RedisClient.Sync.Defs (SysError ErrorCode ClientState)

variable {κ : Type} {c c' : RedisClientImpl κ} {ms : List (Moment κ)}

/-! ### What is waiting -/

def pushed? : Action κ → Option (Kind × Bytes × Bytes)
  | .doProcessMessage _ v => push? v
  | _ => none

/-- The entry processes a push on the channel. -/
def Pushes (channel : Bytes) (a : Action κ) : Prop :=
  (pushed? a).any fun p => p.1 = .channel ∧ p.2.1 = channel

instance (channel : Bytes) : DecidablePred (Pushes channel : Action κ → Prop) :=
  fun _ => inferInstanceAs (Decidable (_ = true))

/-- The handler that an entry registers for one push on the channel. -/
def single? (channel : Bytes) : Action κ → Option κ
  | .call state (.singleShotSubscribe name msgHandler handler) =>
    if accepted state (.singleShotSubscribe name msgHandler handler) ∧ name = channel then
      some msgHandler
    else none
  | _ => none

/-- **The single-shot handlers that wait for a push on the channel**: those that have been registered
for it since the last one. -/
def waiting (channel : Bytes) (t : List (Action κ)) : List κ :=
  t.foldl (fun ks a => if Pushes channel a then [] else ks ++ (single? channel a).toList) []

/-- The entries before a place. -/
def before (ms : List (Moment κ)) (i : ℕ) : List (Action κ) := (ms.take i).map Moment.action

/-- A push on a channel is processed at a place. -/
structure PushAt (ms : List (Moment κ)) (i : ℕ) (m : Moment κ) (channel payload : Bytes) : Prop where
  place : ms[i]? = some m
  push : pushed? m.action = some (.channel, channel, payload)

/-- The calls that do not disconnect and have nothing to do with patterns. -/
@[reducible] def OnChannels : Call κ → Prop
  | .disconnect | .psubscribe _ _ _ | .singleShotPSubscribe _ _ _ | .punsubscribe _ => False
  | _ => True

/-- A value that is handled as a message is a push on a channel. -/
def Pushlike (v : RedisValue) : Prop :=
  Announces v → ∃ channel payload, push? v = some (.channel, channel, payload)

/-- A push leaves the registrations on other channels, and those that stay. -/
def Spares (channel : Bytes) (m : Moment κ) : Prop :=
  match m.action with
  | .doProcessMessage _ v => m.client.state = .subscribed → ∀ cbs,
    (doProcessMessage v cbs m.client).2.2.msgHandlers = m.client.msgHandlers ∧
      ((doProcessMessage v cbs m.client).2.2.singleShotMsgHandlers.filter fun e =>
        e.channel ≠ channel) = m.client.singleShotMsgHandlers.filter fun e => e.channel ≠ channel
  | _ => True

@[simp] theorem waiting_concat (channel : Bytes) (t : List (Action κ)) (a : Action κ) :
    waiting channel (t ++ [a]) =
      if Pushes channel a then [] else waiting channel t ++ (single? channel a).toList := by
  simp [waiting]

/-! ### Subscribed or not -/

/-- While the client is not subscribed nothing is registered, and a connect is outstanding only while
it is connecting. -/
structure Joined (c : RedisClientImpl κ) : Prop where
  one : c.socket.connects.length + c.socket.connectsDone.length =
    if c.state = .connecting then 1 else 0
  none : c.state ≠ .subscribed → c.msgHandlers = [] ∧ c.singleShotMsgHandlers = []

theorem Joined.congr (h : Joined c) (hs : c'.state = c.state)
    (hw : c'.socket.connects = c.socket.connects)
    (hd : c'.socket.connectsDone = c.socket.connectsDone) (hm : c'.msgHandlers = c.msgHandlers)
    (hsingle : c'.singleShotMsgHandlers = c.singleShotMsgHandlers) : Joined c' where
  one := by
    rw [hw, hd, hs]
    exact h.one
  none := by
    rw [hs, hm, hsingle]
    exact h.none

/-- A connected client subscribes. -/
theorem Joined.subscribes (h : Joined c) (hc : c.state = .connected ∨ c.state = .subscribed)
    (hs : c'.state = .subscribed) (hsock : c'.socket = c.socket) : Joined c' where
  one := by
    have hne : c.state ≠ .connecting := by
      rintro hconn
      rw [hconn] at hc
      rcases hc with hc | hc <;> cases hc
    have hone := h.one
    rw [if_neg hne] at hone
    rw [hsock, hs, hone]
    rfl
  none hne := absurd hs hne

/-- The connect that is outstanding is done. -/
theorem Joined.completes {handler : κ} {connects : List κ} {link : Link} (h : Joined c)
    (ec : ErrorCode) (hw : c.socket.connects = handler :: connects) :
    Joined { c with socket := { c.socket with
      link := link
      connects := connects
      connectsDone := c.socket.connectsDone ++ [(ec, handler)] } } where
  one := by
    have hone := h.one
    rw [hw, List.length_cons] at hone
    show connects.length + (c.socket.connectsDone ++ [(ec, handler)]).length =
      if c.state = .connecting then 1 else 0
    rw [List.length_append, List.length_singleton]
    omega
  none := h.none

theorem body_joined {call : Call κ} (hcall : OnChannels call) (h : Joined c) :
    Joined (call.body c).2.2 := by
  cases call with
  | disconnect | psubscribe | singleShotPSubscribe | punsubscribe => exact hcall.elim
  | connect endpoint handler =>
    have hb := body_cases (.connect endpoint handler) c
    generalize (Call.connect endpoint handler).body c = r at hb ⊢
    cases hb with
    | connected => exact h
    | posts _ _ _ _ _ _ _ hne => exact absurd rfl (hne endpoint handler)
    | refused _ _ hne => exact absurd rfl (hne endpoint handler)
    | connect _ _ p hs =>
      have hne : c.state ≠ .connecting := by
        rintro hconn
        rw [hconn] at hs
        rcases hs with hs | hs <;> cases hs
      have hsub : c.state ≠ .subscribed := by
        rintro hconn
        rw [hconn] at hs
        rcases hs with hs | hs <;> cases hs
      have hone := h.one
      rw [if_neg hne] at hone
      refine ⟨?_, fun _ => h.none hsub⟩
      show (c.socket.asyncConnect handler).connects.length +
        (c.socket.asyncConnect handler).connectsDone.length = 1
      rw [Socket.asyncConnect_connects, Socket.asyncConnect_connectsDone, List.length_append,
        List.length_singleton]
      omega
  | command | publish =>
    simp only [Call.body, command, publish]
    split_ifs <;> exact h.congr rfl rfl rfl rfl rfl
  | subscribe | singleShotSubscribe =>
    simp only [Call.body, subscribe, singleShotSubscribe]
    split_ifs with hs
    · exact h.subscribes hs rfl rfl
    · exact h
  | unsubscribe =>
    simp only [Call.body, unsubscribe]
    split_ifs
    · refine ⟨h.one, fun hne => ⟨?_, (h.none hne).2⟩⟩
      show c.msgHandlers.filter _ = []
      rw [(h.none hne).1]
      rfl
    · exact h

/-- The relation that is carried: the client is joined at all moments. -/
def Joins (c : RedisClientImpl κ) (ms : List (Moment κ)) (c' : RedisClientImpl κ) : Prop :=
  Joined c → Joined c' ∧ ∀ m ∈ ms, Joined m.client

theorem Joins.append {ms' : List (Moment κ)} {c1 : RedisClientImpl κ} (h : Joins c ms c1)
    (h' : Joins c1 ms' c') : Joins c (ms ++ ms') c' := by
  intro hc
  obtain ⟨hc1, hms⟩ := h hc
  obtain ⟨hc', hms'⟩ := h' hc1
  exact ⟨hc', fun m hm => (List.mem_append.mp hm).elim (hms m) (hms' m)⟩

theorem Joins.quiet (h : Joined c → Joined c') : Joins c [] c' :=
  fun hc => ⟨h hc, fun _ hm => by cases hm⟩

/-- An entry, of a client that is joined if `c` is. -/
theorem Joins.one {m : Moment κ} (hm : Joined c → Joined m.client)
    (h : Joined m.client → Joined c') : Joins c [m] c' :=
  fun hc => ⟨h (hm hc), List.forall_mem_singleton.mpr (hm hc)⟩

theorem carriesCalls_joins : CarriesCalls (κ := κ) (Recorded OnChannels) Joins :=
  carriesCalls_of_scripted (fun _ => .quiet id) Joins.append fun m _ hQ => .one id fun hc => by
    rcases m with ⟨c, a, s⟩
    have hlog : Joined (c.log a) := hc.congr rfl rfl rfl rfl rfl
    cases a with
    | call state call => exact body_joined hQ.2 hlog
    | _ => exact hlog

theorem carries_joins : CarriesLoop (κ := κ) (Recorded OnChannels) Joins where
  toCarriesCalls := carriesCalls_joins
  processed _ := .one id fun hc => hc.congr rfl rfl rfl rfl rfl
  front v cbs _ hQ := carriesCalls_joins.callFront
    (fun _ => .one id fun hc => hc.congr rfl rfl rfl rfl rfl)
    (fun _ => .quiet fun hc => hc.congr rfl rfl rfl rfl rfl) hQ
  postSingleShot channel msg c := .quiet fun hc => by
    unfold postSingleShot
    split
    · exact hc
    · next e he =>
      refine ⟨hc.one, fun hne => ⟨(hc.none hne).1, ?_⟩⟩
      rw [(hc.none hne).2] at he
      cases he
  postMessages channel msg c := .quiet fun hc => by
    obtain ⟨ps, h⟩ := postMessages_posts channel msg c
    rw [h]
    exact hc.congr rfl rfl rfl rfl rfl
  redisParser _ _ := .quiet fun hc => hc.congr rfl rfl rfl rfl rfl
  read _ := .quiet fun hc => hc.congr rfl (by simp [processMessage]) (by simp [processMessage]) rfl rfl
  command _ hd _ := by
    subst hd
    exact .one (fun hc => hc.congr rfl rfl rfl rfl rfl) fun hc => hc.congr rfl rfl rfl rfl rfl
  message _ _ hd _ := by
    subst hd
    exact .one (fun hc => hc.congr rfl rfl rfl rfl rfl) fun hc => hc.congr rfl rfl rfl rfl rfl
  clear _ := .quiet fun hc => hc.congr rfl rfl rfl rfl rfl
  write _ _ hd _ := by
    subst hd
    exact .one (fun hc => hc.congr rfl rfl rfl rfl rfl) fun hc =>
      hc.congr rfl (by simp) (by simp) rfl rfl
  broken _ := .quiet fun hc => hc.congr rfl rfl rfl rfl rfl
  receive hs := .quiet fun hc => by
    obtain ⟨_, _, _, _, -, -, rfl⟩ := Socket.receive_cases hs
    exact hc.congr rfl rfl rfl rfl rfl
  socket hs := .quiet fun hc => by
    rcases hs with ⟨e, hs⟩ | ⟨n, hs⟩ | ⟨e, hs⟩ | ⟨peer, hs⟩ | ⟨e, hs⟩
    · obtain ⟨_, -, rfl⟩ := Socket.readFail_cases hs
      exact hc.congr rfl rfl rfl rfl rfl
    · obtain ⟨_, _, _, _, _, -, -, _, _, -, rfl⟩ := Socket.send_cases hs
      exact hc.congr rfl rfl rfl rfl rfl
    · obtain ⟨_, _, -, rfl⟩ := Socket.writeFail_cases hs
      exact hc.congr rfl rfl rfl rfl rfl
    · obtain ⟨handler, connects, hw, -, rfl⟩ := Socket.connectOk_cases hs
      exact hc.completes none hw
    · obtain ⟨handler, connects, hw, rfl⟩ := Socket.connectFail_cases hs
      exact hc.completes (some e) hw
  readDone _ := .quiet fun hc => hc.congr rfl rfl rfl rfl rfl
  writeDone _ := .quiet fun hc => hc.congr rfl rfl rfl rfl rfl
  connectDone {ec handler connectsDone c d} s hs hd _ := by
    have hjoined : Joined c → Joined d := by
      intro hc
      have hone := hc.one
      rw [hs, List.length_cons] at hone
      have hconn : c.state = .connecting := by
        by_contra hne
        rw [if_neg hne] at hone
        omega
      rw [if_pos hconn] at hone
      subst hd
      have hsub : c.state ≠ .subscribed := by simp [hconn]
      refine ⟨?_, fun _ => hc.none hsub⟩
      show c.socket.connects.length + connectsDone.length = _
      cases ec with
      | none =>
        show _ = 0
        omega
      | some e =>
        show _ = 0
        omega
    exact .one hjoined fun hc => hc.congr rfl rfl rfl rfl rfl

/-! ### The handlers that are found -/

/-- What a moment leaves of the single-shot handlers. -/
def settled (m : Moment κ) : List (SingleShotHandler κ) :=
  match m.action with
  | .doProcessMessage _ v => (doProcessMessage v [] m.client).2.2.singleShotMsgHandlers
  | _ => m.next.singleShotMsgHandlers

/-- Only the moments touch the single-shot handlers. -/
def Chained (c : RedisClientImpl κ) (ms : List (Moment κ)) (c' : RedisClientImpl κ) : Prop :=
  LinkedBy RedisClientImpl.singleShotMsgHandlers settled c.singleShotMsgHandlers ms
    c'.singleShotMsgHandlers

theorem settled_scripted {m : Moment κ} (h : Scripted m.action) :
    settled m = m.next.singleShotMsgHandlers := by
  rcases m with ⟨c, a, s⟩
  cases a <;> first
    | rfl
    | exact h.elim

theorem carriesCalls_chained : CarriesCalls (κ := κ) (fun _ => True) Chained :=
  carriesCalls_of_scripted (fun _ => rfl) LinkedBy.append fun _ hm _ =>
    ⟨rfl, (settled_scripted hm).symm⟩

/-- Callbacks that return at once do nothing. -/
theorem callFront_nil (v : RedisValue) (c : RedisClientImpl κ) :
    (callFront v [] c).2.2.singleShotMsgHandlers = c.singleShotMsgHandlers := by
  unfold callFront
  rcases h : c.handlers with _ | ⟨_ | k, handlers⟩
  · rfl
  · simp [callHandler, RedisClientImpl.log, h]
  · simp [callHandler, callback, RedisClientImpl.log, h]

theorem process_chained (v : RedisValue) (cbs : Callbacks κ) (c : RedisClientImpl κ) :
    Chained c (doProcessMessageMoments v cbs c) (doProcessMessage v cbs c).2.2 := by
  rcases doProcessMessage_handling v c with ⟨-, -, channel, msg, h⟩ | ⟨-, h⟩ | ⟨text, -, h⟩ <;>
    obtain ⟨hmoments, hdone⟩ := h cbs <;> rw [hmoments, hdone]
  · refine ⟨rfl, ?_⟩
    show _ = (doProcessMessage v [] c).2.2.singleShotMsgHandlers
    rw [(h []).2]
  · have hsettled : settled ⟨c, .doProcessMessage c.state v, .returns⟩ = c.singleShotMsgHandlers := by
      show (doProcessMessage v [] c).2.2.singleShotMsgHandlers = _
      rw [(h []).2, callFront_nil]
      rfl
    refine ⟨rfl, ?_⟩
    rw [hsettled]
    exact carriesCalls_chained.callFront (c := c.log (.doProcessMessage c.state v))
      (fun _ => ⟨rfl, rfl⟩) (fun _ => rfl) fun _ _ => trivial
  · have hsettled : settled ⟨c, .doProcessMessage c.state v, .returns⟩ = c.singleShotMsgHandlers := by
      show (doProcessMessage v [] c).2.2.singleShotMsgHandlers = _
      rw [(h []).2]
      rfl
    refine ⟨rfl, ?_⟩
    rw [hsettled]
    exact carriesCalls_chained.callErrorHandler (c := c.log (.doProcessMessage c.state v))
      fun _ _ => trivial

theorem carries_chained : CarriesEvents (κ := κ) (fun _ => True) Chained where
  toCarriesCalls := carriesCalls_chained
  process v cbs c _ := process_chained v cbs c
  redisParser _ _ := rfl
  read _ := rfl
  command _ hd _ := by
    subst hd
    exact ⟨rfl, rfl⟩
  message _ _ hd _ := by
    subst hd
    exact ⟨rfl, rfl⟩
  clear _ := rfl
  write _ _ hd _ := by
    subst hd
    exact ⟨rfl, rfl⟩
  broken _ := rfl
  receive _ := rfl
  socket _ := rfl
  readDone _ := rfl
  writeDone _ := rfl
  connectDone _ _ hd _ := by
    subst hd
    exact ⟨rfl, rfl⟩

/-- The single-shot handlers on each channel are those that wait. -/
def Awaits (s : List (SingleShotHandler κ)) (t : List (Action κ)) : Prop :=
  ∀ channel, (s.filter fun e => e.channel = channel).map SingleShotHandler.msgHandler =
    waiting channel t

/-- What a push takes away. -/
theorem postSingleShot_handlers (channel msg : Bytes) (c : RedisClientImpl κ) :
    (postSingleShot channel msg c).singleShotMsgHandlers =
      c.singleShotMsgHandlers.eraseP fun e => e.channel = channel := by
  unfold postSingleShot
  split
  · next h =>
    refine (List.eraseP_of_forall_not fun e he => ?_).symm
    simpa using List.find?_eq_none.mp h e he
  · rfl

theorem postMessages_handlers (channel msg : Bytes) (c : RedisClientImpl κ) :
    (postMessages channel msg c).singleShotMsgHandlers = c.singleShotMsgHandlers := by
  obtain ⟨ps, hc⟩ := postMessages_posts channel msg c
  rw [hc]

/-- The entries on other channels stay. -/
theorem filter_eraseP_ne {α : Type} {p q : α → Bool} : ∀ {l : List α},
    (∀ x ∈ l, p x = true → q x = false) → (l.eraseP p).filter q = l.filter q
  | [], _ => rfl
  | x :: l, h => by
    have hx := h x List.mem_cons_self
    have ih := filter_eraseP_ne fun y hy => h y (List.mem_cons_of_mem x hy)
    by_cases hp : p x = true
    · rw [List.eraseP_cons_of_pos hp, List.filter_cons_of_neg (by simp [hx hp])]
    · rw [List.eraseP_cons_of_neg hp, List.filter_cons, List.filter_cons, ih]

/-- Of one entry at most none is left. -/
theorem filter_eraseP_self {α : Type} {p : α → Bool} : ∀ {l : List α},
    (l.filter p).length ≤ 1 → (l.eraseP p).filter p = []
  | [], _ => rfl
  | x :: l, h => by
    by_cases hp : p x = true
    · rw [List.filter_cons_of_pos hp, List.length_cons] at h
      rw [List.eraseP_cons_of_pos hp]
      exact List.eq_nil_of_length_eq_zero (by omega)
    · rw [List.filter_cons_of_neg hp] at h
      rw [List.eraseP_cons_of_neg hp, List.filter_cons_of_neg hp]
      exact filter_eraseP_self h

/-- What a push leaves. -/
theorem settled_push {m : Moment κ} {channel payload : Bytes}
    (h : pushed? m.action = some (.channel, channel, payload)) (hs : m.client.state = .subscribed) :
    settled m = m.client.singleShotMsgHandlers.eraseP fun e => e.channel = channel := by
  rcases m with ⟨c, a, s⟩
  cases a with
  | doProcessMessage state v =>
    show (doProcessMessage v [] c).2.2.singleShotMsgHandlers = _
    rw [doProcessMessage_push h hs, postMessages_handlers, postSingleShot_handlers]
    rfl
  | _ => cases h

/-- Another value, or one that is processed before a subscription, leaves them all. -/
theorem settled_other {m : Moment κ} {state : ClientState} {v : RedisValue}
    (hm : m.action = .doProcessMessage state v)
    (h : ¬ (m.client.state = .subscribed ∧ Announces v)) :
    settled m = m.client.singleShotMsgHandlers := by
  rcases m with ⟨c, a, s⟩
  subst hm
  show (doProcessMessage v [] c).2.2.singleShotMsgHandlers = _
  rcases doProcessMessage_handling v c with ⟨hs, hv, -⟩ | ⟨-, hd⟩ | ⟨text, -, hd⟩
  · exact absurd ⟨hs, hv⟩ h
  · rw [(hd []).2, callFront_nil]
    rfl
  · rw [(hd []).2]
    rfl

/-! ### A moment -/

theorem pushes_iff {channel : Bytes} {a : Action κ} :
    Pushes channel a ↔ ∃ payload, pushed? a = some (.channel, channel, payload) := by
  unfold Pushes
  rcases pushed? a with _ | ⟨kind, name, payload⟩
  · simp
  · simp only [Option.any_some, decide_eq_true_eq, Option.some.injEq, Prod.mk.injEq]
    constructor
    · rintro ⟨rfl, rfl⟩
      exact ⟨payload, rfl, rfl, rfl⟩
    · rintro ⟨_, hkind, hname, -⟩
      exact ⟨hkind, hname⟩

/-- A call that registers no single-shot handler leaves those that there are. -/
theorem body_waiting {call : Call κ} (hcall : OnChannels call) (c : RedisClientImpl κ)
    (channel : Bytes) :
    ((call.body c).2.2.singleShotMsgHandlers.filter fun e => e.channel = channel).map
      SingleShotHandler.msgHandler =
    (c.singleShotMsgHandlers.filter fun e => e.channel = channel).map
      SingleShotHandler.msgHandler ++ (single? channel (.call c.state call)).toList := by
  cases call with
  | disconnect | psubscribe | singleShotPSubscribe | punsubscribe => exact hcall.elim
  | connect endpoint handler =>
    cases endpoint <;>
      simp only [Call.body, connectTcp, connectLocal, single?, Option.toList_none,
        List.append_nil] <;> split_ifs <;> rfl
  | command | publish | subscribe | unsubscribe =>
    simp only [Call.body, command, publish, subscribe, unsubscribe, single?, Option.toList_none,
      List.append_nil]
    split_ifs <;> rfl
  | singleShotSubscribe name k handler =>
    by_cases h : c.state = .connected ∨ c.state = .subscribed
    · by_cases hname : name = channel
      · simp [Call.body, singleShotSubscribe, single?, accepted, h, hname, RedisClientImpl.post]
      · simp [Call.body, singleShotSubscribe, single?, accepted, h, hname, RedisClientImpl.post]
    · simp [Call.body, singleShotSubscribe, single?, accepted, h, refuse]

/-- **What waits after a moment**, if no push finds more than one that waits. -/
theorem settled_awaits {m : Moment κ} {t : List (Action κ)} (hm : Recorded OnChannels m)
    (hv : ∀ state v, m.action = .doProcessMessage state v → Pushlike v) (hjoined : Joined m.client)
    (h : Awaits m.client.singleShotMsgHandlers t)
    (hone : ∀ channel payload, pushed? m.action = some (.channel, channel, payload) →
      (waiting channel t).length ≤ 1) : Awaits (settled m) (t ++ [m.action]) := by
  intro name
  rw [waiting_concat]
  have hkeep : settled m = m.client.singleShotMsgHandlers → ¬ Pushes name m.action →
      single? name m.action = none →
      ((settled m).filter fun e => e.channel = name).map SingleShotHandler.msgHandler =
        if Pushes name m.action then [] else waiting name t ++ (single? name m.action).toList := by
    intro hsettled hpush hsingle
    rw [hsettled, if_neg hpush, hsingle, h name, Option.toList_none, List.append_nil]
  rcases m with ⟨c, a, s⟩
  cases a with
  | call state call =>
    obtain rfl : c.state = state := hm.1
    have hbody := body_waiting hm.2 (c.log (.call c.state call)) name
    rw [if_neg (by simp [pushes_iff, pushed?])]
    exact hbody.trans (congrArg (· ++ _) (h name))
  | doProcessMessage state v =>
    by_cases hpush : ∃ channel payload, push? v = some (.channel, channel, payload)
    · obtain ⟨channel, payload, hpush⟩ := hpush
      have hiff : Pushes name (.doProcessMessage state v : Action κ) ↔ name = channel := by
        rw [pushes_iff]
        show (∃ payload, push? v = some (.channel, name, payload)) ↔ _
        rw [hpush]
        simp [eq_comm]
      by_cases hs : c.state = .subscribed
      · rw [settled_push (m := ⟨c, .doProcessMessage state v, s⟩) hpush hs]
        by_cases hname : name = channel
        · subst hname
          rw [if_pos (hiff.mpr rfl), filter_eraseP_self]
          · rfl
          · have hle := hone name payload hpush
            rwa [← h name, List.length_map] at hle
        · rw [if_neg (mt hiff.mp hname), filter_eraseP_ne]
          · exact (h name).trans (List.append_nil _).symm
          · intro e _ he
            have hchannel : e.channel = channel := of_decide_eq_true he
            exact decide_eq_false fun heq => hname (heq.symm.trans hchannel)
      · have hnone : c.singleShotMsgHandlers = [] := (hjoined.none hs).2
        have hwait : _ = waiting name t := h name
        rw [settled_other (m := ⟨c, .doProcessMessage state v, s⟩) rfl fun hsv => hs hsv.1, ← hwait]
        show (c.singleShotMsgHandlers.filter _).map _ = _
        rw [hnone]
        split_ifs <;> rfl
    · refine hkeep (settled_other rfl fun hsv => hpush (hv state v rfl hsv.2)) ?_ rfl
      rw [pushes_iff]
      exact fun ⟨payload, hp⟩ => hpush ⟨name, payload, hp⟩
  | _ => exact hkeep rfl (by simp [pushes_iff, pushed?]) rfl

/-! ### A run -/

/-- What is known of the moments of a run. -/
structure Ordinary (ms : List (Moment κ)) : Prop where
  recorded : ∀ m ∈ ms, Recorded OnChannels m
  values : ∀ m ∈ ms, ∀ state v, m.action = .doProcessMessage state v → Pushlike v
  joined : ∀ m ∈ ms, Joined m.client

/-- At most one handler waits for each push before a place. -/
def SoleBefore (ms : List (Moment κ)) (n : ℕ) : Prop :=
  ∀ i < n, ∀ m channel payload, PushAt ms i m channel payload →
    (waiting channel (before ms i)).length ≤ 1

theorem before_append {ms' : List (Moment κ)} {i : ℕ} (hi : i ≤ ms.length) :
    before (ms ++ ms') i = before ms i := by
  unfold before
  rw [List.take_append_of_le_length hi]

/-- The handlers that are found are those that wait. -/
theorem awaits_linked {s : List (SingleShotHandler κ)} (hms : Ordinary ms)
    (h : LinkedBy RedisClientImpl.singleShotMsgHandlers settled [] ms s)
    (hsole : SoleBefore ms ms.length) : Awaits s (ms.map Moment.action) := by
  induction ms using List.reverseRecOn generalizing s with
  | nil =>
    cases h
    exact fun _ => rfl
  | append_singleton ms m ih =>
    obtain ⟨h1, h2⟩ := h.split
    have hmem : ∀ m' ∈ ms, m' ∈ ms ++ [m] := fun m' hm' => List.mem_append_left _ hm'
    have hbefore : Awaits m.client.singleShotMsgHandlers (ms.map Moment.action) := by
      refine ih ⟨fun m' hm' => hms.recorded m' (hmem m' hm'), fun m' hm' => hms.values m' (hmem m' hm'),
        fun m' hm' => hms.joined m' (hmem m' hm')⟩ h1 fun i hi m' channel payload hp => ?_
      have hfront : before (ms ++ [m]) i = before ms i := before_append hi.le
      rw [← hfront]
      refine hsole i (by rw [List.length_append]; omega) m' channel payload ⟨?_, hp.push⟩
      rw [List.getElem?_append_left hi]
      exact hp.place
    have hlast : m ∈ ms ++ [m] := by simp
    rw [show s = settled m from h2, List.map_append, List.map_singleton]
    refine settled_awaits (hms.recorded m hlast) (hms.values m hlast) (hms.joined m hlast) hbefore
      fun channel payload hp => ?_
    have hle := hsole ms.length (by simp) m channel payload ⟨by simp, hp⟩
    rwa [before_append le_rfl, before, List.take_length] at hle

theorem toList_map_find? {α β : Type} (p : α → Bool) (f : α → β) (l : List α) :
    ((l.find? p).map f).toList = ((l.filter p).map f).take 1 := by
  rw [List.take_one, List.head?_map, List.head?_filter]

/-- The first moments of those that are known. -/
theorem Ordinary.take (h : Ordinary ms) (i : ℕ) : Ordinary (ms.take i) where
  recorded m hm := h.recorded m (List.mem_of_mem_take hm)
  values m hm := h.values m (List.mem_of_mem_take hm)
  joined m hm := h.joined m (List.mem_of_mem_take hm)

theorem SoleBefore.take {i : ℕ} (h : SoleBefore ms i) :
    SoleBefore (ms.take i) (ms.take i).length := by
  intro j hj m channel payload hp
  have hji : j < i := lt_of_lt_of_le hj (List.length_take_le i ms)
  have hbefore : before (ms.take i) j = before ms j := by
    rw [before, before, List.take_take, min_eq_left hji.le]
  rw [hbefore]
  refine h j hji m channel payload ⟨?_, hp.push⟩
  rw [← List.getElem?_take_of_lt hji]
  exact hp.place

/-- All handlers that are registered are registered for channels. -/
theorem registry_channels (hms : ∀ m ∈ ms, Recorded OnChannels m) :
    ∀ e ∈ (registry (ms.map Moment.action)).entries, e.1 = .channel := by
  induction ms using List.reverseRecOn with
  | nil => exact fun e he => by cases he
  | append_singleton ms m ih =>
    have hbefore := ih fun m' hm' => hms m' (List.mem_append_left _ hm')
    have hm := hms m (by simp)
    rw [List.map_append, List.map_singleton, registry_concat]
    rcases m with ⟨c, a, s⟩
    cases a with
    | call state call =>
      have hcall : OnChannels call := hm.2
      cases call with
      | disconnect | psubscribe | singleShotPSubscribe | punsubscribe => exact hcall.elim
      | subscribe channel k handler =>
        simp only [enter, changes?, change]
        split
        · next x hx =>
          split_ifs at hx
          cases hx
          intro e he
          rcases List.mem_append.mp he with he | he
          · exact hbefore e he
          · rw [List.mem_singleton.mp he]
        · exact hbefore
      | unsubscribe handle =>
        simp only [enter, changes?, change]
        split
        · next x hx =>
          split_ifs at hx
          cases hx
          exact fun e he => hbefore e (List.mem_filter.mp he).1
        · exact hbefore
      | connect | command | publish | singleShotSubscribe =>
        simpa only [enter, changes?, change, ite_self] using hbefore
    | _ => exact hbefore

/-- **What is posted for a push**, if at most one handler has waited for each push before. -/
theorem posts_pushAt {s : List (SingleShotHandler κ)} (hms : Ordinary ms)
    (hlinked : Linked .new ms c)
    (hchained : LinkedBy RedisClientImpl.singleShotMsgHandlers settled [] ms s)
    {i : ℕ} {m : Moment κ} {channel payload : Bytes} (hp : PushAt ms i m channel payload)
    (hsole : SoleBefore ms i) : posts m =
      ((waiting channel (before ms i)).take 1 ++ live .channel channel (before ms i)).map
        fun k => (k, payload) := by
  have hmem : m ∈ ms := List.mem_of_getElem? hp.place
  obtain ⟨state, v, haction, hpush⟩ : ∃ state v, m.action = .doProcessMessage state v ∧
      push? v = some (.channel, channel, payload) := by
    have hpush := hp.push
    rcases m with ⟨d, a, s⟩
    cases a with
    | doProcessMessage state v => exact ⟨state, v, rfl, hpush⟩
    | _ => cases hpush
  have hawaits : (m.client.singleShotMsgHandlers.filter fun e => e.channel = channel).map
      SingleShotHandler.msgHandler = waiting channel (before ms i) :=
    awaits_linked (hms.take i) (hchained.at hp.place) hsole.take channel
  obtain ⟨hmap, -⟩ := Prod.mk.inj (registry_linked (hlinked.at hp.place) (hms.take i).recorded)
  have hkinds := registry_channels (hms.take i).recorded
  change m.client.msgHandlers = (registry (before ms i)).entries.map Prod.snd at hmap
  change ∀ e ∈ (registry (before ms i)).entries, e.1 = .channel at hkinds
  by_cases hs : m.client.state = .subscribed
  · have hfound : found channel m.client = live .channel channel (before ms i) := by
      unfold found live
      rw [hmap, List.filter_map, List.map_map]
      refine congrArg (List.map _) (List.filter_congr fun e he => decide_eq_decide.mpr ?_)
      exact ⟨fun h => ⟨hkinds e he, h⟩, fun h => h.2⟩
    rw [posts_push haction hpush hs, hfound, single, toList_map_find?, hawaits]
  · obtain ⟨hhandlers, hsingle⟩ := (hms.joined m hmem).none hs
    rw [hsingle] at hawaits
    rw [hhandlers] at hmap
    have hnone : live .channel channel (before ms i) = [] := by
      unfold live
      rw [List.map_eq_nil_iff.mp hmap.symm]
      rfl
    rw [posts_eq_nil haction fun h => hs h.1, ← hawaits, hnone]
    rfl

/-- A push touches no other registration. -/
theorem spares_push {m : Moment κ} {channel payload : Bytes}
    (h : pushed? m.action = some (.channel, channel, payload)) : Spares channel m := by
  rcases m with ⟨c, a, s⟩
  cases a with
  | doProcessMessage state v =>
    intro hs cbs
    rw [doProcessMessage_push h hs]
    refine ⟨?_, ?_⟩
    · obtain ⟨ps, ss, hc⟩ := subscribers_posts channel payload (c.log (.doProcessMessage c.state v))
      rw [hc]
      rfl
    · rw [postMessages_handlers, postSingleShot_handlers]
      refine filter_eraseP_ne fun e _ he => ?_
      exact decide_eq_false fun hne => hne (of_decide_eq_true he)
  | _ => trivial

/-- Nothing is posted for other values. -/
theorem posts_other {m : Moment κ} (hv : ∀ state v, m.action = .doProcessMessage state v → Pushlike v)
    (h : pushed? m.action = none) : posts m = [] := by
  rcases m with ⟨c, a, s⟩
  cases a with
  | doProcessMessage state v =>
    refine posts_eq_nil rfl fun hsv => ?_
    obtain ⟨channel, payload, hpush⟩ := hv state v rfl hsv.2
    cases hpush.symm.trans h
  | _ => rfl

/-- **A single-shot handler is called once, with the next push.** In every run without disconnects and
patterns whose messages are pushes on channels, handlers are called with what is posted, in order, and
only pushes are posted; a push leaves the registrations on other channels. Each push is posted to the
single-shot handlers that have been registered for its channel since the last push on it, and to those
that are registered for good, if and only if no more than one single-shot handler waits for each. -/
theorem single_shot_once {es : List (Event κ)} (hes : ∀ e ∈ es, AllIn OnChannels e)
    (h : run es .new = some c) (hv : ∀ p ∈ processed c.trace, Pushlike p.2) :
    called c.trace ++ messages c = (runMoments es .new).flatMap posts ∧
      (∀ m ∈ runMoments es .new, pushed? m.action = none → posts m = []) ∧
      (∀ m ∈ runMoments es .new, ∀ channel payload,
        pushed? m.action = some (.channel, channel, payload) → Spares channel m) ∧
      ((∀ i m channel payload, PushAt (runMoments es .new) i m channel payload →
          posts m = (waiting channel (before (runMoments es .new) i) ++
            live .channel channel (before (runMoments es .new) i)).map fun k => (k, payload)) ↔
        ∀ i m channel payload, PushAt (runMoments es .new) i m channel payload →
          (waiting channel (before (runMoments es .new) i)).length ≤ 1) := by
  have hrecorded := runMoments_recorded hes (.new : RedisClientImpl κ)
  have hnew : Joined (RedisClientImpl.new : RedisClientImpl κ) := ⟨rfl, fun _ => ⟨rfl, rfl⟩⟩
  have hms : Ordinary (runMoments es .new) := by
    refine ⟨hrecorded, fun m hm state v haction => ?_, (carries_joins.run hrecorded h hnew).2⟩
    refine hv (state, v) (List.mem_filterMap.mpr ⟨m.action, ?_, by rw [haction]; rfl⟩)
    rw [runMoments_trace h]
    exact List.mem_append_right _ (List.mem_map_of_mem hm)
  have hchained : Chained .new (runMoments es .new) c := carries_chained.run (fun _ _ => trivial) h
  have hposts := fun {i m channel payload} (hp : PushAt (runMoments es .new) i m channel payload) =>
    posts_pushAt hms (linked_run h) hchained hp
  refine ⟨posted_in_order h, fun m hm => posts_other (hms.values m hm),
    fun m _ channel payload hp => spares_push hp, ?_, ?_⟩
  · intro hall i
    induction i using Nat.strong_induction_on with
    | _ i ih =>
      intro m channel payload hp
      have heq := (hposts hp fun j hj => ih j hj).symm.trans (hall i m channel payload hp)
      have hlen := congrArg List.length heq
      simp only [List.length_map, List.length_append, List.length_take] at hlen
      omega
  · intro hsole i m channel payload hp
    rw [hposts hp fun j _ => hsole j, List.take_of_length_le (hsole i m channel payload hp)]

/-! ### Two runs -/

instance : DecidablePred (OnChannels : Call κ → Prop) := decidableCalls _

/-- A channel is subscribed to by two calls, and a message arrives. -/
def listeningTwice (first second : Call ℕ) : List (Event ℕ) :=
  dial (writes hello) ++
    [.connectDone [.call first .returns (.call second .returns .returns)], .receive 99, .readDone []]

/-- A message reaches a single-shot handler and one that stays. -/
theorem single_shot_once_hello : ∃ m ∈ (runMoments (listeningTwice
      (.singleShotSubscribe (chars "c") 7 none) (.subscribe (chars "c") 8 none)) .new)[5]?,
    posts m = [(7, chars "hi"), (8, chars "hi")] := by
  set es := listeningTwice (.singleShotSubscribe (chars "c") 7 none)
    (.subscribe (chars "c") 8 none) with hes
  have hcalls : ∀ e ∈ es, AllIn OnChannels e := by
    rw [hes]
    decide
  have hprocessed : (run es .new).map (fun c => processed c.trace) =
      some [(.subscribed, helloValue)] := by decide +kernel
  obtain ⟨c, hrun, hvalues⟩ := Option.map_eq_some_iff.mp hprocessed
  have hv : ∀ p ∈ processed c.trace, Pushlike p.2 := by
    rw [hvalues]
    intro p hp _
    rw [List.mem_singleton.mp hp]
    exact ⟨chars "c", chars "hi", by decide⟩
  have hpushes : ((runMoments es .new).map fun m => pushed? m.action) =
      [none, none, none, none, none, some (.channel, chars "c", chars "hi")] := by decide +kernel
  have hwaiting : waiting (chars "c") (before (runMoments es .new) 5) = [7] := by decide +kernel
  have hlive : live .channel (chars "c") (before (runMoments es .new) 5) = [8] := by decide +kernel
  obtain ⟨-, -, -, honce⟩ := single_shot_once hcalls hrun hv
  -- the only push is the last moment
  have hat : ∀ i m channel payload, PushAt (runMoments es .new) i m channel payload →
      i = 5 ∧ channel = chars "c" ∧ payload = chars "hi" := by
    intro i m channel payload hp
    have hpush := congrArg (fun l => l[i]?) hpushes
    rw [List.getElem?_map, hp.place, Option.map_some, hp.push] at hpush
    match i, hpush with
    | 5, hpush =>
      cases hpush
      exact ⟨rfl, rfl, rfl⟩
  have hlast := congrArg (fun l => l[5]?) hpushes
  rw [List.getElem?_map] at hlast
  obtain ⟨m, hm, hpush⟩ := Option.map_eq_some_iff.mp hlast
  refine ⟨m, hm, ?_⟩
  rw [honce.mpr (fun i m channel payload hp => ?_) 5 m (chars "c") (chars "hi") ⟨hm, hpush⟩,
    hwaiting, hlive]
  · rfl
  · obtain ⟨rfl, rfl, -⟩ := hat i m channel payload hp
    rw [hwaiting]
    rfl

/-- Two handlers wait for a message. -/
def waitingTwice : List (Event ℕ) :=
  listeningTwice (.singleShotSubscribe (chars "c") 7 none) (.singleShotSubscribe (chars "c") 8 none)

/-- **The second of two handlers that wait is not called**: both subscriptions have been accepted when
the message is processed, and it is posted to the first alone. -/
theorem second_keeps_waiting :
    (run waitingTwice .new).map (fun c => called c.trace ++ messages c) = some [(7, chars "hi")] ∧
      waiting (chars "c") (before (runMoments waitingTwice .new) 4) = [7, 8] ∧
      ∃ m ∈ (runMoments waitingTwice .new)[4]?,
        pushed? m.action = some (.channel, chars "c", chars "hi") ∧ posts m = [(7, chars "hi")] := by
  decide +kernel

end RedisClient.Async.SingleShot

import RedisClient.Async.Feed
import RedisClient.Async.Progress
import RedisClient.Async.Turns
import Mathlib.Data.List.TakeWhile

/-! # From the server to a message handler

A server writes messages to the subscribers of its channels, between whatever else it writes, and the
bytes come in pieces of any length. A handler that is registered for a channel or a pattern is called
with the messages under this name that the server has written, in their order and each once: with all
those that come after what has been processed when it is registered, until it is unsubscribed
(`broadcast_in_order`). -/

namespace RedisClient.Async.Broadcast

open RedisClient.Value RedisClient.Parser.Defs RedisClient.Parser.Values RedisClient.Peers
open RedisClient.Lib.Sharing RedisClient.Async.Asio RedisClient.Async.Defs RedisClient.Async.Rules
open RedisClient.Async.Trace RedisClient.Async.Moments RedisClient.Async.Stream
open RedisClient.Async.Registrations RedisClient.Async.Pushes RedisClient.Async.Feed
open RedisClient.Async.Confirmations (Steady messages)
open RedisClient.Async.Silence (Registers)
open RedisClient.Async.Runs (Ready)
open RedisClient.Async.Progress (parser_run)
open RedisClient.Async.Turns (first_listens)
open RedisClient.Async.OwnReplies (dial ready_dial)
open RedisClient.Async.Subscribing (dial_run)
open RedisClient.Async.Kinds (writes)
open RedisClient.Sync.Defs (ErrorCode ClientState)

variable {κ : Type} {c c' : RedisClientImpl κ} {cbs : Callbacks κ}

/-! ### The states in between -/

/-- The client stays on its connection, and each moment begins in the state that the one before it
leaves. -/
def Abides (c : RedisClientImpl κ) (ms : List (Moment κ)) (c' : RedisClientImpl κ) : Prop :=
  Steady c → Steady c' ∧ LinkedBy RedisClientImpl.state (fun m => m.next.state) c.state ms c'.state

theorem Abides.quiet (h : Steady c → Steady c') (hstate : c'.state = c.state) : Abides c [] c' :=
  fun hc => ⟨h hc, hstate⟩

theorem Abides.one {m : Moment κ} (h : Steady c → Steady c') (hm : m.client.state = c.state)
    (hstate : c'.state = m.next.state) : Abides c [m] c' :=
  fun hc => ⟨h hc, hm, hstate⟩

/-- A call on a client that is connected. -/
theorem body_abides {call : Call κ} (hcall : Stays call) (hc : Steady c) :
    Steady (call.body c).2.2 := by
  obtain ⟨strand, ms, ss, seq, state, hb, hstate⟩ := body_stays hcall hc.connected
  rw [hb]
  exact ⟨decide_eq_true hstate, hc.connects, hc.connectsDone⟩

theorem carriesCalls_abides : CarriesCalls (κ := κ) (Recorded Stays) Abides := by
  refine carriesCalls_of_scripted (fun _ => .quiet id rfl) ?_ ?_
  · intro ms ms' c c1 c' h1 h2 hc
    obtain ⟨hc1, hlinked⟩ := h1 hc
    obtain ⟨hc', hlinked'⟩ := h2 hc1
    exact ⟨hc', hlinked.append hlinked'⟩
  · rintro ⟨c, a, s⟩ hm hQ
    refine .one (fun hc => ?_) rfl rfl
    cases a with
    | call state call =>
      exact body_abides (c := c.log (.call state call)) hQ.2 (hc.congr rfl rfl rfl)
    | returned | connect | error => exact hc.congr rfl rfl rfl
    | _ => exact hm.elim

theorem carries_abides : CarriesLoop (κ := κ) (Recorded Stays) Abides where
  toCarriesCalls := carriesCalls_abides
  processed _ := .one (fun hc => hc.congr rfl rfl rfl) rfl rfl
  front v cbs _ hQ := carriesCalls_abides.callFront
    (fun _ => .one (fun hc => hc.congr rfl rfl rfl) rfl rfl)
    (fun _ => .quiet (fun hc => hc.congr rfl rfl rfl) rfl) hQ
  postSingleShot channel msg c := by
    obtain ⟨ms, ss, hp⟩ := postSingleShot_posts channel msg c
    rw [hp]
    exact .quiet (fun hc => hc.congr rfl rfl rfl) rfl
  postMessages channel msg c := by
    obtain ⟨ms, hp⟩ := postMessages_posts channel msg c
    rw [hp]
    exact .quiet (fun hc => hc.congr rfl rfl rfl) rfl
  redisParser _ _ := .quiet (fun hc => hc.congr rfl rfl rfl) rfl
  read c := .quiet (fun hc => hc.congr rfl (Socket.asyncReadSome_connects c.socket)
    (Socket.asyncReadSome_connectsDone c.socket)) rfl
  command _ hd _ := by
    subst hd
    exact .one (fun hc => hc.congr rfl rfl rfl) rfl rfl
  message _ _ hd _ := by
    subst hd
    exact .one (fun hc => hc.congr rfl rfl rfl) rfl rfl
  clear _ := .quiet (fun hc => hc.congr rfl rfl rfl) rfl
  write {data c d} _ _ hd _ := by
    subst hd
    exact .one (fun hc => hc.congr rfl (Socket.asyncWrite_connects data c.socket)
      (Socket.asyncWrite_connectsDone data c.socket)) rfl rfl
  broken _ := .quiet (fun hc => hc.congr rfl rfl rfl) rfl
  receive hs := by
    obtain ⟨reads, peer, sent, taken, -, -, rfl⟩ := Socket.receive_cases hs
    exact .quiet (fun hc => hc.congr rfl rfl rfl) rfl
  socket hs := by
    refine .quiet (fun hc => ?_) rfl
    rcases hs with ⟨e, hs⟩ | ⟨k, hs⟩ | ⟨e, hs⟩ | ⟨peer, hs⟩ | ⟨e, hs⟩
    · obtain ⟨reads, -, rfl⟩ := Socket.readFail_cases hs
      exact hc.congr rfl rfl rfl
    · obtain ⟨data, rest, peer, sent, taken, -, -, writes, writesDone, -, rfl⟩ :=
        Socket.send_cases hs
      exact hc.congr rfl rfl rfl
    · obtain ⟨data, writes, -, rfl⟩ := Socket.writeFail_cases hs
      exact hc.congr rfl rfl rfl
    · exact absurd hc.connects (Socket.connects_ne_nil (.inl ⟨peer, hs⟩))
    · exact absurd hc.connects (Socket.connects_ne_nil (.inr ⟨e, hs⟩))
  readDone _ := .quiet (fun hc => hc.congr rfl rfl rfl) rfl
  writeDone _ := .quiet (fun hc => hc.congr rfl rfl rfl) rfl
  connectDone _ h _ _ hc := by
    rw [hc.connectsDone] at h
    cases h

/-- A subscribed client stays subscribed. -/
theorem subscribed_next {m : Moment κ} (hm : Recorded Stays m) (hs : m.client.state = .subscribed) :
    m.next.state = .subscribed := by
  rcases m with ⟨c, a, s⟩
  cases a with
  | call state call =>
    have hstate : (c.log (.call state call)).state = .subscribed := hs
    have hb := body_cases call (c.log (.call state call))
    show (call.body (c.log (.call state call))).2.2.state = .subscribed
    generalize call.body (c.log (.call state call)) = r at hb ⊢
    cases hb with
    | disconnect => exact hm.2.elim
    | connect _ _ _ hdown => rcases hdown with h | h <;> rw [hstate] at h <;> cases h
    | connected | refused => exact hstate
    | posts _ _ _ _ _ _ state _ _ hnext =>
      rcases hnext with rfl | rfl
      · exact hstate
      · rfl
  | _ => exact hs

theorem subscribed_after : ∀ {ms : List (Moment κ)} {s : ClientState},
    LinkedBy RedisClientImpl.state (fun m => m.next.state) .subscribed ms s →
      (∀ m ∈ ms, Recorded Stays m) → ∀ m ∈ ms, m.client.state = .subscribed
  | [], _, _, _, m, hm => by cases hm
  | m1 :: ms, s, h, hrec, m, hm => by
    have hnext := subscribed_next (hrec m1 List.mem_cons_self) h.1
    rcases List.mem_cons.mp hm with rfl | hm
    · exact h.1
    · refine subscribed_after (by rw [← hnext]; exact h.2) ?_ m hm
      exact fun m' hm' => hrec m' (List.mem_cons_of_mem _ hm')

/-- A registration leaves the client subscribed. -/
theorem subscribed_of_inserted {m : Moment κ} {e : MsgHandler κ} (h : inserted? m = some e) :
    m.next.state = .subscribed := by
  obtain ⟨hregisters, -⟩ := registers_inserted h
  obtain ⟨-, -, hnext, -⟩ := inserted_spec h
  have hne : m.next.msgHandlers ≠ m.client.msgHandlers := by
    rw [hnext]
    simp
  rcases m with ⟨c, a, s⟩
  cases a with
  | call state call =>
    cases call with
    | subscribe channel k handler | psubscribe channel k handler =>
      by_cases hc : c.state = .connected ∨ c.state = .subscribed
      · simp [Moment.next, Call.body, subscribe, RedisClientImpl.log, RedisClientImpl.post, hc]
      · exact absurd (by simp [Moment.next, Call.body, subscribe, RedisClientImpl.log, hc, refuse]) hne
    | singleShotSubscribe channel k handler =>
      have hother : Other (.singleShotSubscribe channel k handler) := trivial
      exact absurd (Prod.mk.inj (body_other hother (c.log (.call state _))).2).1 hne
    | singleShotPSubscribe channel k handler =>
      have hother : Other (.singleShotPSubscribe channel k handler) := trivial
      exact absurd (Prod.mk.inj (body_other hother (c.log (.call state _))).2).1 hne
    | _ => cases hregisters.2
  | _ => exact hregisters.elim

/-! ### The beginning -/

theorem allIn_of_streams {e : Event κ} (he : Streams e) : AllIn Stays e := by
  cases e with
  | readDone cbs => exact fun s hs => (he s hs).1
  | _ => exact he

/-- When the handler of the connect has returned, the first read is started. -/
theorem connectDone_listens {peer : Peer} {handler : κ} (hready : Ready peer handler c)
    (hp : Reachable c.redisParser) (hcbs : StayAndReturn cbs)
    (hstep : step (.connectDone cbs) c = some c') : Listens 0 c.trace.length c' := by
  obtain ⟨-, hs⟩ := step_cases hstep
  cases hs with | @connectDone _ ec handler' connectsDone hdone => ?_
  rw [hready.socket] at hdone
  cases hdone
  -- the client with which the handler is called, and the one that it leaves
  generalize hd : ({ c with socket := { c.socket with connectsDone := [] }, state := .connected } :
    RedisClientImpl κ).log (.connect none handler) = d
  have hsocket : d.socket = ⟨.linked peer [] 0, 0, [], [], [], [], []⟩ := by
    rw [← hd, RedisClientImpl.log, hready.socket]
  have hconn : d.isConnected = true := by
    rw [← hd]
    rfl
  obtain ⟨cbs', c1, hcall, -, haside, -⟩ := callback_returns hcbs hconn
  rw [handleAsyncConnect_returns (by rw [← hd] at hcall; exact hcall)]
  obtain ⟨t, ht, hnothing⟩ := haside.trace
  have htrace : c1.trace = c.trace ++ ([.connect none handler] ++ t) := by
    rw [ht, ← hd]
    exact List.append_assoc _ _ _
  have hvalues : values c.trace.length c1 = [] := by
    unfold values
    rw [htrace, List.drop_left, processed_append, List.map_append, hnothing]
    rfl
  have hlong : c.trace.length ≤ c1.trace.length := by
    rw [htrace, List.length_append]
    exact Nat.le_add_right _ _
  have hparser : c1.redisParser = c.redisParser := by
    rw [haside.redisParser, ← hd]
    rfl
  exact first_listens haside.connected (by rw [haside.link, hsocket]) (by rw [haside.reads, hsocket])
    (by rw [haside.readsDone, hsocket]) (by rw [haside.connects, hsocket])
    (by rw [haside.connectsDone, hsocket]) (by rw [hparser]; exact hp)
    (by rw [hparser]; exact hready.redisParser) hlong hvalues

/-- The moments of the connect follow one another from state `Connected` on. -/
theorem connectDone_abides {peer : Peer} {handler : κ} (hready : Ready peer handler c)
    (hcbs : AllOf Stays cbs) (hstep : step (.connectDone cbs) c = some c') :
    Steady c' ∧ LinkedBy RedisClientImpl.state (fun m => m.next.state) .connected
      (stepMoments (.connectDone cbs) c) c'.state := by
  obtain ⟨-, hs⟩ := step_cases hstep
  cases hs with | @connectDone _ ec handler' connectsDone hdone => ?_
  have hnone := hdone
  rw [hready.socket] at hnone
  cases hnone
  generalize hd : { c with
    socket := { c.socket with connectsDone := [] }, state := .connected } = d
  have hsteady : Steady (d.log (.connect none handler)) := by
    rw [← hd]
    refine ⟨rfl, ?_, rfl⟩
    show c.socket.connects = []
    rw [hready.socket]
  have habides : Abides (d.log (.connect none handler))
      (scriptMoments (cbs.headD .returns) (d.log (.connect none handler)))
      (handleAsyncConnect none handler cbs
        { c with socket := { c.socket with connectsDone := [] } }).client :=
    carries_abides.events.client
      (carries_abides.reads.handleAsyncConnect hd.symm (scriptMoments_recorded (headD_all hcbs) _))
  obtain ⟨hc', hlinked⟩ := habides hsteady
  have hfirst : d.state = .connected := by rw [← hd]
  refine ⟨hc', ?_⟩
  simp only [stepMoments, hdone]
  rw [← hd] at hlinked hfirst
  exact ⟨hfirst, hlinked⟩

/-! ### What is heard -/

/-- The payloads of the messages under a name. -/
def payloads (name : Bytes) (vs : List RedisValue) : List Bytes :=
  vs.filterMap fun v => ((announced v).filter fun p => p.1 = name).map Prod.snd

/-- The values that have been processed in these moments. -/
def handled (ms : List (Moment κ)) : List RedisValue :=
  (processed (ms.map Moment.action)).map Prod.snd

theorem handled_append (ms ms' : List (Moment κ)) :
    handled (ms ++ ms') = handled ms ++ handled ms' := by
  simp [handled]

/-- While the client is subscribed, all messages are heard. -/
theorem heard_handled (name : Bytes) {ms : List (Moment κ)}
    (hrec : ∀ m ∈ ms, Recorded (fun _ => True) m)
    (hsub : ∀ m ∈ ms, m.client.state = .subscribed) :
    ms.filterMap (fun m => heard name m.action) = payloads name (handled ms) := by
  unfold payloads handled processed
  rw [List.filterMap_map, List.filterMap_filterMap, List.filterMap_map]
  refine List.filterMap_congr fun m hm => ?_
  rcases m with ⟨c, a, s⟩
  cases a with
  | doProcessMessage state v =>
    have hstate : state = .subscribed := (hrec _ hm).symm.trans (hsub _ hm)
    simp [heard, processed?, hstate]
  | _ => rfl

/-! ### The theorem -/

theorem run_append (es' : List (Event κ)) : ∀ {es : List (Event κ)} {c c1 : RedisClientImpl κ},
    run es c = some c1 → run (es ++ es') c = run es' c1 ∧
      runMoments (es ++ es') c = runMoments es c ++ runMoments es' c1
  | [], c, c1, h => by
    cases h
    exact ⟨rfl, rfl⟩
  | e :: es, c, c1, h => by
    obtain ⟨c2, h2, h3⟩ := Option.bind_eq_some_iff.mp h
    obtain ⟨hrun, hms⟩ := run_append es' h3
    refine ⟨?_, ?_⟩
    · show (step e c).bind (run (es ++ es')) = _
      rw [h2, Option.bind_some, hrun]
    · show runMoments (e :: (es ++ es')) c = _
      rw [runMoments_cons h2, runMoments_cons h2, hms, List.append_assoc]

section Theorem

variable {peer : Peer} {handler : κ} {es : List (Event κ)} {pre post : List (Moment κ)}
variable {m : Moment κ} {e : MsgHandler κ}

/-- What has been processed before a registration and since. -/
theorem values_around (hrun : run es c = some c') (hms : runMoments es c = pre ++ m :: post)
    (he : inserted? m = some e) : values c.trace.length c' = handled pre ++ handled post := by
  have hnone : handled [m] = [] := by
    obtain ⟨hregisters, -⟩ := registers_inserted he
    rcases m with ⟨d, a, s⟩
    cases a with
    | call => rfl
    | _ => exact hregisters.elim
  unfold values
  rw [runMoments_trace hrun, List.drop_left, hms]
  show handled (pre ++ ([m] ++ post)) = _
  rw [handled_append, handled_append, hnone, List.nil_append]

/-- From a registration on, all messages are heard. -/
theorem heard_since (hready : Ready peer handler c) (hcbs : AllOf Stays cbs)
    (hes : ∀ e ∈ es, AllIn Stays e) (hrun : run (.connectDone cbs :: es) c = some c')
    (hms : runMoments (.connectDone cbs :: es) c = pre ++ m :: post) (he : inserted? m = some e) :
    post.filterMap (fun m' => heard e.channel m'.action) = payloads e.channel (handled post) := by
  obtain ⟨c1, h1, h2⟩ := Option.bind_eq_some_iff.mp hrun
  have hfits : ∀ e' ∈ Event.connectDone cbs :: es, AllIn Stays e' := by
    intro e' he'
    rcases List.mem_cons.mp he' with rfl | he'
    · exact hcbs
    · exact hes e' he'
  have hrecorded := runMoments_recorded hfits c
  have hstates : ∀ m' ∈ runMoments (.connectDone cbs :: es) c, Recorded (fun _ => True) m' :=
    runMoments_recorded (fun e' _ => allIn_true e') c
  -- the states of the moments, from the connect to the end
  obtain ⟨hsteady, hfirst⟩ := connectDone_abides hready hcbs h1
  have hrest := (carries_abides.run (runMoments_recorded hes c1) h2 hsteady).2
  have hlinked := hfirst.append hrest
  rw [← runMoments_cons h1, hms] at hlinked
  rw [hms] at hrecorded hstates
  have hafter := (LinkedBy.split hlinked).2
  rw [subscribed_of_inserted he] at hafter
  exact heard_handled _ (fun m' hm' => hstates m' (by simp [hm']))
    (subscribed_after hafter fun m' hm' => hrecorded m' (by simp [hm']))

/-- **A handler is called with the messages of its channel**: on a new connection that the user does
not leave, and where the connect handler and the callbacks of reads return, with those under its
channel or pattern among the values that the server has written, after the ones processed when it was
registered. They are in their order, each once and no others; and they are all there, but for those
still on the strand, if the handler has not been unsubscribed and what has been received has been
read. -/
theorem broadcast_in_order [DecidableEq κ] {es0 : List (Event κ)}
    (hrun0 : run es0 .new = some c) (hready : Ready peer handler c) (hcbs : StayAndReturn cbs)
    (hes : ∀ e ∈ es, Streams e) (hrun : run (.connectDone cbs :: es) c = some c')
    (hms : runMoments (.connectDone cbs :: es) c = pre ++ m :: post) (he : inserted? m = some e)
    (halone : ∀ m' ∈ runMoments es0 .new ++ pre ++ post, ¬ Registers e.msgHandler m') :
    ofUser e.msgHandler (called c'.trace ++ messages c') <+:
        payloads e.channel ((wholeValues (received 0 c')).drop (handled pre).length) ∧
      ((∀ m' ∈ post, ends e m' = false) → c'.socket.readsDone = [] →
        ofUser e.msgHandler (called c'.trace ++ messages c') =
          payloads e.channel ((wholeValues (received 0 c')).drop (handled pre).length)) := by
  obtain ⟨c1, h1, h2⟩ := Option.bind_eq_some_iff.mp hrun
  -- what is processed after the registration is heard, and it is what the bytes hold
  have hheard := heard_since hready (fun s hs => (hcbs s hs).1)
    (fun e' he' => allIn_of_streams (hes e' he')) hrun hms he
  have hpost : (values c.trace.length c').drop (handled pre).length = handled post := by
    rw [values_around hrun hms he, List.drop_left]
  rw [← hpost] at hheard
  obtain ⟨hfront, hwhole⟩ :=
    (listens_run hes (connectDone_listens hready (parser_run hrun0) hcbs h1) h2).values_eq
  -- the handler is called with what is heard
  obtain ⟨hrunall, hmsall⟩ := run_append (.connectDone cbs :: es) hrun0
  rw [feed_in_order (hrunall.trans hrun) (hmsall.trans (by rw [hms, List.append_assoc])) he halone]
  constructor
  · have hcut := (List.takeWhile_prefix (fun m' => !ends e m') (l := post)).filterMap
      fun m' => heard e.channel m'.action
    refine hcut.trans ?_
    rw [hheard]
    exact (hfront.drop _).filterMap _
  · intro hlive hdone
    have hall : post.takeWhile (fun m' => !ends e m') = post :=
      List.takeWhile_eq_self_iff.mpr fun m' hm' => by rw [hlive m' hm']; rfl
    rw [hall, hheard, hwhole hdone]

end Theorem

/-! ### A run -/

/-- A server that writes three messages. -/
def announcer : Peer := writes (text "hi" ++ text "yo" ++ text "no")

/-- The first message is read before the channel is subscribed to, with a part of the second. The rest
comes in one read, and the handler has been called with the second message when the run ends. -/
def late : List (Event ℕ) :=
  [.receive 40, .readDone [], .user (.call (.subscribe (chars "c") 7 none) .returns .returns),
    .posted [], .send 99, .receive 99, .readDone [], .posted []]

/-- The third message is on the strand. -/
theorem broadcast_in_order_late : ∃ c c', run (dial announcer) .new = some c ∧
    run (.connectDone [] :: late) c = some c' ∧ called c'.trace = [(7, chars "yo")] ∧
    ofUser 7 (called c'.trace ++ messages c') = [chars "yo", chars "no"] := by
  obtain ⟨c, hc, hready⟩ := ready_dial announcer
  obtain ⟨d, c', hd, hc', hcalled, hdone, hpayloads⟩ := dial_run announcer (.connectDone [] :: late)
    (fun _ c' => called c'.trace = [(7, chars "yo")] ∧ c'.socket.readsDone = [] ∧
      payloads (chars "c") ((wholeValues (received 0 c')).drop 1) = [chars "yo", chars "no"])
    (by decide +kernel)
  rw [hc] at hd
  cases hd
  have hmoments : (run (dial announcer) .new).map (fun c => (
      (runMoments (.connectDone [] :: late) c)[3]?.map inserted?,
      (handled ((runMoments (.connectDone [] :: late) c).take 3)).length,
      decide (∀ m ∈ (runMoments (.connectDone [] :: late) c).drop 4,
        ends ⟨chars "c", 0, 7⟩ m = false),
      decide (∀ m ∈ runMoments (dial announcer) .new ++
        (runMoments (.connectDone [] :: late) c).take 3 ++
        (runMoments (.connectDone [] :: late) c).drop 4, ¬ Registers 7 m))) =
      some (some (some ⟨chars "c", 0, 7⟩), 1, true, true) := by decide +kernel
  rw [hc, Option.map_some, Option.some_inj] at hmoments
  simp only [Prod.mk.injEq, decide_eq_true_eq] at hmoments
  obtain ⟨hinserted, hhandled, hends, halone⟩ := hmoments
  obtain ⟨m, hm, he⟩ := Option.map_eq_some_iff.mp hinserted
  refine ⟨c, c', hc, hc', hcalled, ?_⟩
  obtain ⟨-, hall⟩ := broadcast_in_order hc hready (by decide) (by decide) hc' (split_getElem? hm) he
    halone
  have h := hall hends hdone
  rwa [hhandled, hpayloads] at h

end RedisClient.Async.Broadcast

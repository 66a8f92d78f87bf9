import RedisClient.Async.Moments
import RedisClient.Parser.Values

/-! # The asynchronous path over a stream

A connected client reads a stream while its user makes any calls but `disconnect`, and its callbacks
return. One read after the other is started until the stream ends or cannot be parsed, and what
`doProcessMessage` is called with are the values of the bytes received (`listens_run`). -/

namespace RedisClient.Async.Stream

open RedisClient.Value RedisClient.Parser.Defs RedisClient.Parser.Values RedisClient.Peers
open RedisClient.Async.Asio RedisClient.Async.Defs RedisClient.Async.Rules RedisClient.Async.Trace
open RedisClient.Async.Moments
open RedisClient.Sync.Defs (SysError ErrorCode ClientState parserError)

variable {κ : Type} {c c' : RedisClientImpl κ}

/-! ### The user -/

/-- The callbacks do not disconnect, and they return. -/
def StayAndReturn (cbs : Callbacks κ) : Prop := ∀ s ∈ cbs, All Stays s ∧ ending s = .returns

/-- The user does not disconnect in the event, and the callbacks of a read return. -/
def Streams : Event κ → Prop
  | .readDone cbs => StayAndReturn cbs
  | e => AllIn Stays e

instance (cbs : Callbacks κ) : Decidable (StayAndReturn cbs) :=
  inferInstanceAs (Decidable (∀ s ∈ cbs, _))

instance : (e : Event κ) → Decidable (Streams e)
  | .readDone cbs => inferInstanceAs (Decidable (StayAndReturn cbs))
  | .user s => decidableAll Stays s
  | .posted cbs | .writeDone cbs | .connectDone cbs => inferInstanceAs (Decidable (AllOf Stays cbs))
  | .receive _ | .readFail _ | .send _ | .writeFail _ | .connectOk _ | .connectFail _ =>
    isTrue trivial

/-! ### What stays as it is -/

/-- The client is still on its connection, and `doProcessMessage` has been called with `vs`. -/
structure Online (vs : List RedisValue) (c c' : RedisClientImpl κ) : Prop where
  connected : c'.isConnected = true
  link : c'.socket.link = c.socket.link
  connects : c'.socket.connects = c.socket.connects
  connectsDone : c'.socket.connectsDone = c.socket.connectsDone
  trace : ∃ t, c'.trace = c.trace ++ t ∧ (processed t).map Prod.snd = vs

/-- Also nothing has changed that the bytes are read with. -/
structure Aside (vs : List RedisValue) (c c' : RedisClientImpl κ) : Prop
    extends Online vs c c' where
  redisParser : c'.redisParser = c.redisParser
  buf : c'.buf = c.buf
  reads : c'.socket.reads = c.socket.reads
  readsDone : c'.socket.readsDone = c.socket.readsDone

theorem Online.trans {vs ws : List RedisValue} {c1 : RedisClientImpl κ} (h : Online vs c c1)
    (h' : Online ws c1 c') : Online (vs ++ ws) c c' := by
  obtain ⟨t, ht, hvs⟩ := h.trace
  obtain ⟨u, hu, hws⟩ := h'.trace
  refine ⟨h'.connected, h'.link.trans h.link, h'.connects.trans h.connects,
    h'.connectsDone.trans h.connectsDone, t ++ u, ?_, ?_⟩
  · rw [hu, ht, List.append_assoc]
  · rw [processed_append, List.map_append, hvs, hws]

theorem Aside.refl (hc : c.isConnected = true) : Aside [] c c :=
  ⟨⟨hc, rfl, rfl, rfl, [], (List.append_nil _).symm, rfl⟩, rfl, rfl, rfl, rfl⟩

theorem Aside.trans {vs ws : List RedisValue} {c1 : RedisClientImpl κ} (h : Aside vs c c1)
    (h' : Aside ws c1 c') : Aside (vs ++ ws) c c' :=
  ⟨h.toOnline.trans h'.toOnline, h'.redisParser.trans h.redisParser, h'.buf.trans h.buf,
    h'.reads.trans h.reads, h'.readsDone.trans h.readsDone⟩

/-- An entry of the trace. -/
theorem Aside.log {a : Action κ} (hc : c.isConnected = true) (ha : processed? a = none) :
    Aside [] c (c.log a) := by
  refine ⟨⟨hc, rfl, rfl, rfl, [a], rfl, ?_⟩, rfl, rfl, rfl, rfl⟩
  simp [processed, ha]

/-- A call on a connected client. -/
theorem body_stays {call : Call κ} (hs : Stays call) (hc : c.isConnected = true) :
    ∃ strand msgHandlers singleShotMsgHandlers subscribeSeq state, (call.body c).2.2 = { c with
      strand := strand
      msgHandlers := msgHandlers
      singleShotMsgHandlers := singleShotMsgHandlers
      subscribeSeq := subscribeSeq
      state := state } ∧ (state = .connected ∨ state = .subscribed) := by
  have hst : c.state = .connected ∨ c.state = .subscribed := of_decide_eq_true hc
  have hb := body_cases call c
  generalize call.body c = r at hb ⊢
  cases hb with
  | disconnect => exact hs.elim
  | connect _ _ _ hdown =>
    rcases hdown with h | h <;> rcases hst with h' | h' <;> rw [h'] at h <;> cases h
  | connected | refused => exact ⟨_, _, _, _, _, rfl, hst⟩
  | posts _ _ _ _ _ _ state _ _ hstate =>
    refine ⟨_, _, _, _, _, rfl, ?_⟩
    rcases hstate with rfl | rfl
    · exact hst
    · exact Or.inr rfl

/-- The user's code on a connected client. -/
theorem carries_aside : CarriesCalls (κ := κ) (fun m => OfScript Stays m.action) fun c _ c' =>
    c.isConnected = true → Aside [] c c' ∧ c'.handlers = c.handlers := by
  refine carriesCalls_of_moment (fun c hc => ⟨.refl hc, rfl⟩) ?_ ?_
  · intro ms ms' c c1 c' h1 h2 hc
    obtain ⟨ha, hh⟩ := h1 hc
    obtain ⟨ha', hh'⟩ := h2 ha.connected
    exact ⟨ha.trans ha', hh'.trans hh⟩
  · rintro ⟨c, a, s⟩ hm hc
    cases a with
    | call state call =>
      obtain ⟨strand, ms, ss, seq, st, hb, hst⟩ :=
        body_stays (c := c.log (.call state call)) hm hc
      show Aside [] c (call.body (c.log (.call state call))).2.2 ∧
        (call.body (c.log (.call state call))).2.2.handlers = c.handlers
      rw [hb]
      exact ⟨⟨⟨decide_eq_true hst, rfl, rfl, rfl, [.call state call], rfl, rfl⟩, rfl, rfl, rfl, rfl⟩,
        rfl⟩
    | returned | error | connect => exact ⟨.log hc rfl, rfl⟩
    | reply | message | doAsyncCommand | asyncWrite | doProcessMessage => exact hm.elim

theorem runScript_aside {s : Script κ} (hs : All Stays s) (hc : c.isConnected = true) :
    Aside [] c (runScript s c).2 ∧ (runScript s c).2.handlers = c.handlers :=
  carries_aside.runScript s c (scriptMoments_of hs c) hc

theorem callback_aside {cbs : Callbacks κ} (hcbs : AllOf Stays cbs) (hc : c.isConnected = true) :
    (callback cbs c).1 ≠ .undefined ∧ Aside [] c (callback cbs c).2.2 := by
  obtain ⟨cbs', h⟩ := callback_script cbs c
  rw [h]
  exact ⟨ending_ne_undefined _, (runScript_aside (headD_all hcbs) hc).1⟩

/-- A callback that returns. -/
theorem callback_returns {cbs : Callbacks κ} (hcbs : StayAndReturn cbs)
    (hc : c.isConnected = true) : ∃ cbs' c', callback cbs c = (.returns, cbs', c') ∧
      StayAndReturn cbs' ∧ Aside [] c c' ∧ c'.handlers = c.handlers := by
  cases cbs with
  | nil => exact ⟨[], c, rfl, hcbs, .refl hc, rfl⟩
  | cons s cbs =>
    obtain ⟨hs, hend⟩ := hcbs s List.mem_cons_self
    obtain ⟨ha, hh⟩ := runScript_aside hs hc
    have hend' := (runScript_ending s c).trans hend
    refine ⟨cbs, (runScript s c).2, ?_, fun s' hs' => hcbs s' (List.mem_cons_of_mem s hs'), ha, hh⟩
    show ((runScript s c).1, cbs, (runScript s c).2) = _
    rw [hend']

theorem callErrorHandler_returns {cbs : Callbacks κ} (r : Report) (hcbs : StayAndReturn cbs)
    (hc : c.isConnected = true) : ∃ cbs' c', callErrorHandler r cbs c = (.returns, cbs', c') ∧
      StayAndReturn cbs' ∧ Aside [] c c' := by
  obtain ⟨cbs', c', h, hcbs', ha, -⟩ := callback_returns (c := c.log (.error r)) hcbs hc
  exact ⟨cbs', c', h, hcbs', (Aside.log hc rfl).trans ha⟩

/-! ### What is processed -/

/-- A reply is delivered. -/
theorem callFront_returns {cbs : Callbacks κ} (v : RedisValue) (hcbs : StayAndReturn cbs)
    (hc : c.isConnected = true) (hh : c.handlers ≠ []) :
    ∃ cbs' c', callFront v cbs c = (.returns, cbs', c') ∧ StayAndReturn cbs' ∧ Aside [] c c' := by
  obtain ⟨handler, handlers, hcons⟩ := List.exists_cons_of_ne_nil hh
  have hlog : Aside [] c (c.log (.reply handler v)) := .log hc rfl
  have hcall : ∃ cbs' c', callHandler handler v cbs c = (.returns, cbs', c') ∧
      StayAndReturn cbs' ∧ Aside [] c c' ∧ c'.handlers = c.handlers := by
    cases handler with
    | none => exact ⟨cbs, _, rfl, hcbs, hlog, rfl⟩
    | some handler =>
      obtain ⟨cbs', c', h, hcbs', ha, hh'⟩ := callback_returns hcbs hlog.connected
      exact ⟨cbs', c', h, hcbs', hlog.trans ha, hh'⟩
  obtain ⟨cbs', c', h, hcbs', ha, hh'⟩ := hcall
  refine ⟨cbs', { c' with handlers := handlers }, ?_, hcbs', { ha with }⟩
  unfold callFront
  rw [hcons]
  dsimp only
  rw [h]
  dsimp only
  rw [hh', hcons]

/-- **A message is processed**, whatever it is. -/
theorem doProcessMessage_returns {cbs : Callbacks κ} (v : RedisValue) (hcbs : StayAndReturn cbs)
    (hc : c.isConnected = true) : ∃ cbs' c', doProcessMessage v cbs c = (.returns, cbs', c') ∧
      StayAndReturn cbs' ∧ Aside [v] c c' := by
  have hlog : Aside [v] c (c.log (.doProcessMessage c.state v)) :=
    ⟨⟨hc, rfl, rfl, rfl, [.doProcessMessage c.state v], rfl, rfl⟩, rfl, rfl, rfl, rfl⟩
  have key : ∀ {o : Outcome κ}, (∃ cbs' c', o = (.returns, cbs', c') ∧ StayAndReturn cbs' ∧
      Aside [] (c.log (.doProcessMessage c.state v)) c') →
      ∃ cbs' c', o = (.returns, cbs', c') ∧ StayAndReturn cbs' ∧ Aside [v] c c' := by
    rintro o ⟨cbs', c', h, hcbs', ha⟩
    exact ⟨cbs', c', h, hcbs', hlog.trans ha⟩
  obtain ⟨ms, -, ⟨channel, msg, -, hd⟩ | ⟨hh, -, hd⟩ | ⟨text, -, -, hd⟩⟩ :=
    doProcessMessage_cases v cbs c <;> rw [hd]
  · obtain ⟨posts, ss, hp⟩ := subscribers_posts channel msg (c.log (.doProcessMessage c.state v))
    rw [hp]
    exact ⟨cbs, _, rfl, hcbs, { hlog with }⟩
  · exact key (callFront_returns v hcbs hlog.connected hh)
  · exact key (callErrorHandler_returns _ hcbs hlog.connected)

/-! ### The bytes of a read -/

/-- What the client waits for after `doProcessMessage` has been called with `vs`, when it has
received `data0`: more bytes, with a read; the completion handler of a read that has received bytes,
or has failed; or nothing, since a read has failed or the bytes cannot be parsed. -/
inductive Hearing (data0 : Bytes) (vs : List RedisValue) (c : RedisClientImpl κ) : Prop
  | waiting (hp : Reachable c.redisParser) (hr : c.socket.reads = 1) (hd : c.socket.readsDone = [])
      (hv : ∀ t, wholeValues (data0 ++ t) = vs ++ valuesFrom c.redisParser t)
  | received (data : Bytes) (hne : data ≠ []) (hbuf : c.buf.take data.length = data)
      (hp : Reachable c.redisParser) (hr : c.socket.reads = 0)
      (hd : c.socket.readsDone = [(none, data.length)])
      (hv : ∀ t, wholeValues (data0 ++ t) = vs ++ valuesFrom c.redisParser (data ++ t))
  | failed (e : SysError) (hr : c.socket.reads = 0) (hd : c.socket.readsDone = [(some e, 0)])
      (hv : wholeValues data0 = vs)
  | ended (hr : c.socket.reads = 0) (hd : c.socket.readsDone = []) (hv : wholeValues data0 = vs)

theorem Hearing.aside {data0 : Bytes} {vs : List RedisValue} (h : Hearing data0 vs c)
    (ha : Aside [] c c') : Hearing data0 vs c' := by
  cases h with
  | waiting hp hr hd hv =>
    refine .waiting ?_ (ha.reads.trans hr) (ha.readsDone.trans hd) ?_
    · rw [ha.redisParser]
      exact hp
    · rw [ha.redisParser]
      exact hv
  | received data hne hbuf hp hr hd hv =>
    refine .received data hne ?_ ?_ (ha.reads.trans hr) (ha.readsDone.trans hd) ?_
    · rw [ha.buf]
      exact hbuf
    · rw [ha.redisParser]
      exact hp
    · rw [ha.redisParser]
      exact hv
  | failed e hr hd hv => exact .failed e (ha.reads.trans hr) (ha.readsDone.trans hd) hv
  | ended hr hd hv => exact .ended (ha.reads.trans hr) (ha.readsDone.trans hd) hv

/-- The next read is started. -/
theorem processMessage_hearing {data0 : Bytes} {vs : List RedisValue} {peer : Peer} {sent : Bytes}
    {taken : ℕ} (hc : c.isConnected = true) (hl : c.socket.link = .linked peer sent taken)
    (hp : Reachable c.redisParser) (hr : c.socket.reads = 0) (hd : c.socket.readsDone = [])
    (hv : ∀ t, wholeValues (data0 ++ t) = vs ++ valuesFrom c.redisParser t) :
    Online [] c (processMessage c) ∧ Hearing data0 vs (processMessage c) := by
  have hsock : (processMessage c).socket = { c.socket with reads := c.socket.reads + 1 } :=
    Socket.asyncReadSome_linked hl
  refine ⟨⟨hc, ?_, ?_, ?_, [], (List.append_nil _).symm, rfl⟩, .waiting hp ?_ ?_ hv⟩
  · rw [hsock]
  · rw [hsock]
  · rw [hsock]
  · rw [hsock, hr]
  · rw [hsock]
    exact hd

/-- **The loop of `asyncRead`** processes the values that its bytes complete. -/
theorem readLoop_hearing {data0 : Bytes} {peer : Peer} {sent : Bytes} {taken : ℕ} :
    ∀ (fuel : ℕ) {data : Bytes} {cbs : Callbacks κ} {c : RedisClientImpl κ} {vs : List RedisValue}
      {o : Outcome κ}, StayAndReturn cbs → c.isConnected = true →
      c.socket.link = .linked peer sent taken → Reachable c.redisParser → c.socket.reads = 0 →
      c.socket.readsDone = [] →
      (∀ t, wholeValues (data0 ++ t) = vs ++ valuesFrom c.redisParser (data ++ t)) →
      readLoop fuel data cbs c = some o →
      ∃ cbs' c' ws, o = (.returns, cbs', c') ∧ Online ws c c' ∧ Hearing data0 (vs ++ ws) c'
  | fuel, [], cbs, c, vs, o, _, hc, hl, hp, hr, hd, hv, ho => by
    have hend : readLoop fuel [] cbs c = some (.returns, cbs, processMessage c) := by
      cases fuel <;> rfl
    rw [hend] at ho
    cases ho
    obtain ⟨h1, h2⟩ := processMessage_hearing hc hl hp hr hd hv
    exact ⟨cbs, _, [], rfl, h1, by rwa [List.append_nil]⟩
  | 0, b :: data, cbs, c, vs, o, _, _, _, _, _, _, _, ho => by cases ho
  | fuel + 1, b :: data, cbs, c, vs, o, hcbs, hc, hl, hp, hr, hd, hv, ho => by
    have hne : b :: data ≠ [] := List.cons_ne_nil _ _
    rw [readLoop, if_neg hne] at ho
    rcases values_parse hp hne with ⟨k, p, hparse, hk, hle, hvals⟩ | ⟨p, hparse, hvals⟩ |
      ⟨k, p, hparse, hvals⟩ <;> rw [hparse] at ho <;> dsimp only at ho
    · obtain ⟨cbs1, c1, hmsg, hcbs1, ha⟩ :=
        doProcessMessage_returns (c := { c with redisParser := (result p).2 }) (result p).1 hcbs hc
      rw [hmsg] at ho
      have hp1 : Reachable c1.redisParser := by
        rw [ha.redisParser]
        exact (hp.parse hne hparse).result
      have hv1 : ∀ t, wholeValues (data0 ++ t) =
          (vs ++ [(result p).1]) ++ valuesFrom c1.redisParser ((b :: data).drop k ++ t) := by
        intro t
        rw [hv t, hvals t, ha.redisParser, List.append_assoc]
        rfl
      obtain ⟨cbs', c', ws, rfl, hon, hh⟩ := readLoop_hearing fuel hcbs1 ha.connected
        (ha.link.trans hl) hp1 (ha.reads.trans hr) (ha.readsDone.trans hd) hv1 ho
      have hon1 : Online [(result p).1] c c1 := { ha.toOnline with }
      refine ⟨cbs', c', (result p).1 :: ws, rfl, hon1.trans hon, ?_⟩
      rwa [List.append_assoc] at hh
    · cases ho
      have hv1 : ∀ t, wholeValues (data0 ++ t) = vs ++ valuesFrom p t := by
        intro t
        rw [hv t, hvals t]
      obtain ⟨h1, h2⟩ := processMessage_hearing (c := { c with redisParser := p }) hc hl
        (hp.parse hne hparse) hr hd hv1
      exact ⟨cbs, _, [], rfl, { h1 with }, by rwa [List.append_nil]⟩
    · obtain ⟨cbs1, c1, herr, -, ha⟩ := callErrorHandler_returns (c := { c with redisParser := p })
        (.text (chars parserError)) hcbs hc
      rw [herr] at ho
      cases ho
      have hv1 : wholeValues data0 = vs := by
        have h0 := hv []
        rwa [hvals [], List.append_nil, List.append_nil] at h0
      refine ⟨cbs1, c1, [], rfl, { ha.toOnline with }, ?_⟩
      rw [List.append_nil]
      exact .ended (ha.reads.trans hr) (ha.readsDone.trans hd) hv1

/-! ### Steps and runs -/

/-- What has been received on the connection, but for the first `taken0` bytes. -/
def received (taken0 : ℕ) (c : RedisClientImpl κ) : Bytes :=
  match c.socket.link with
  | .linked peer sent taken => ((peer.out sent).take taken).drop taken0
  | _ => []

/-- The values that `doProcessMessage` has been called with since the `n`-th entry of the trace. -/
def values (n : ℕ) (c : RedisClientImpl κ) : List RedisValue :=
  (processed (c.trace.drop n)).map Prod.snd

/-- **A client that listens** on a connection, since it had received `taken0` bytes. -/
structure Listens (taken0 n : ℕ) (c : RedisClientImpl κ) : Prop where
  connected : c.isConnected = true
  linked : ∃ peer sent taken, c.socket.link = .linked peer sent taken ∧ taken0 ≤ taken ∧
    taken ≤ (peer.out sent).length
  connects : c.socket.connects = []
  connectsDone : c.socket.connectsDone = []
  long : n ≤ c.trace.length
  hearing : Hearing (received taken0 c) (values n c) c

variable {taken0 n : ℕ}

theorem Listens.online {ws : List RedisValue} (h : Listens taken0 n c) (ho : Online ws c c')
    (hh : Hearing (received taken0 c) (values n c ++ ws) c') : Listens taken0 n c' := by
  obtain ⟨t, ht, hws⟩ := ho.trace
  have hvalues : values n c' = values n c ++ ws := by
    unfold values
    rw [ht, List.drop_append_of_le_length h.long, processed_append, List.map_append, hws]
  refine ⟨ho.connected, ?_, ho.connects.trans h.connects, ho.connectsDone.trans h.connectsDone, ?_,
    ?_⟩
  · rw [ho.link]
    exact h.linked
  · rw [ht, List.length_append]
    have := h.long
    omega
  · have hreceived : received taken0 c' = received taken0 c := by
      unfold received
      rw [ho.link]
    rw [hvalues, hreceived]
    exact hh

theorem Listens.aside (h : Listens taken0 n c) (ha : Aside [] c c') : Listens taken0 n c' :=
  h.online ha.toOnline (by rw [List.append_nil]; exact h.hearing.aside ha)

theorem asyncWrite_aside (ec : ErrorCode) {cbs : Callbacks κ} (hcbs : AllOf Stays cbs)
    (hc : c.isConnected = true) :
    (asyncWrite ec cbs c).1 ≠ .undefined ∧ Aside [] c (asyncWrite ec cbs c).2.2 := by
  unfold asyncWrite
  dsimp only
  split_ifs
  · have hlog : Aside [] c ({ c with dataWrited := [] }.log (.error (.message ec))) :=
      { Aside.log (a := .error (.message ec)) hc rfl with }
    obtain ⟨hend, ha⟩ := callback_aside hcbs hlog.connected
    exact ⟨hend, hlog.trans ha⟩
  · refine ⟨nofun, ⟨⟨hc, ?_, ?_, ?_, [_], rfl, rfl⟩, rfl, rfl, ?_, ?_⟩⟩
    · exact Socket.asyncWrite_link _ _
    · exact Socket.asyncWrite_connects _ _
    · exact Socket.asyncWrite_connectsDone _ _
    · exact Socket.asyncWrite_reads _ _
    · exact Socket.asyncWrite_readsDone _ _
  · exact ⟨nofun, { Aside.refl hc with }⟩

theorem runPosted_aside {f : Posted κ} {cbs : Callbacks κ} (hcbs : AllOf Stays cbs)
    (hc : c.isConnected = true) :
    (runPosted f cbs c).1 ≠ .undefined ∧ Aside [] c (runPosted f cbs c).2.2 := by
  cases f with
  | message msgHandler msg =>
    obtain ⟨hend, ha⟩ := callback_aside (c := c.log (.message msgHandler msg)) hcbs hc
    exact ⟨hend, (Aside.log hc rfl).trans ha⟩
  | doAsyncCommand buff handler =>
    have hlog : Aside [] c { c.log (.doAsyncCommand buff handler) with
        handlers := c.handlers ++ [handler], dataQueued := c.dataQueued ++ [buff] } :=
      { Aside.log (a := .doAsyncCommand buff handler) hc rfl with }
    show (doAsyncCommand buff handler cbs c).1 ≠ .undefined ∧
      Aside [] c (doAsyncCommand buff handler cbs c).2.2
    unfold doAsyncCommand
    dsimp only
    split_ifs
    · obtain ⟨hend, ha⟩ := asyncWrite_aside none hcbs hlog.connected
      exact ⟨hend, hlog.trans ha⟩
    · exact ⟨nofun, hlog⟩

theorem client_eq {o : Outcome κ} (h : o.1 ≠ .undefined) : o.client = o.2.2 := by
  rcases o with ⟨_ | _ | _, cbs, c⟩
  · rfl
  · rfl
  · exact absurd rfl h

/-- The completion handler of a read. -/
theorem asyncRead_listens {ec : ErrorCode} {size : ℕ} {readsDone : List (ErrorCode × ℕ)}
    {cbs : Callbacks κ} {o : Outcome κ} (h : Listens taken0 n c)
    (hs : c.socket.readsDone = (ec, size) :: readsDone) (hcbs : StayAndReturn cbs)
    (ho : asyncRead ec size cbs { c with socket := { c.socket with readsDone := readsDone } } =
      some o) : Listens taken0 n o.client := by
  set d : RedisClientImpl κ := { c with socket := { c.socket with readsDone := readsDone } } with hd
  have hon : Online [] c d := ⟨h.connected, rfl, rfl, rfl, [], (List.append_nil _).symm, rfl⟩
  cases h.hearing with
  | waiting hp hr hdone hv =>
    rw [hdone] at hs
    cases hs
  | ended hr hdone hv =>
    rw [hdone] at hs
    cases hs
  | failed e hr hdone hv =>
    rw [hdone] at hs
    cases hs
    have hover : Hearing (received taken0 c) (values n c) d := .ended hr rfl hv
    unfold asyncRead at ho
    rw [if_pos (show (some e).isSome = true ∨ 0 = 0 from Or.inl rfl)] at ho
    split_ifs at ho
    · obtain ⟨cbs', c', herr, -, ha⟩ :=
        callErrorHandler_returns (.message (some e)) hcbs hon.connected
      rw [herr] at ho
      cases ho
      refine h.online (hon.trans ha.toOnline) ?_
      rw [List.append_nil, List.append_nil]
      exact hover.aside ha
    · cases ho
      exact h.online hon (by rwa [List.append_nil])
  | received data hne hbuf hp hr hdone hv =>
    rw [hdone] at hs
    cases hs
    obtain ⟨peer, sent, taken, hl, -⟩ := h.linked
    have hpos := List.length_pos_iff.mpr hne
    unfold asyncRead at ho
    rw [if_neg (by simp; omega)] at ho
    have htake : d.buf.take data.length = data := hbuf
    rw [htake] at ho
    obtain ⟨cbs', c', ws, rfl, hon', hh⟩ :=
      readLoop_hearing data.length hcbs hon.connected hl hp hr rfl hv ho
    exact h.online (hon.trans hon') hh

/-- A read with data is done. -/
theorem receive_listens {k : ℕ} {data : Bytes} {socket : Socket κ} (h : Listens taken0 n c)
    (hs : c.socket.receive k = some (data, socket)) :
    Listens taken0 n { c with socket := socket, buf := data ++ c.buf.drop data.length } := by
  obtain ⟨reads, peer, sent, taken, hr, hl, rfl⟩ := Socket.receive_cases hs
  obtain ⟨hne, -, hpre⟩ := Socket.receive_data hs hl
  obtain ⟨peer', sent', taken', hl', h0, hle⟩ := h.linked
  rw [hl] at hl'
  cases hl'
  have hlen := hpre.length_le
  rw [List.length_drop] at hlen
  -- the bytes received are those before and `data`
  have hreceived : ((peer.out sent).take (taken + data.length)).drop taken0 =
      received taken0 c ++ data := by
    have htake : (peer.out sent).take (taken + data.length) = (peer.out sent).take taken ++ data := by
      rw [List.take_add, List.prefix_iff_eq_take.mp hpre]
      simp
    unfold received
    rw [hl, htake, List.drop_append_of_le_length (by rw [List.length_take]; omega)]
  cases h.hearing with
  | waiting hp hr1 hdone hv =>
    rw [hr1] at hr
    cases hr
    refine ⟨h.connected, ⟨peer, sent, _, rfl, ?_, ?_⟩, h.connects, h.connectsDone, h.long, ?_⟩
    · omega
    · omega
    · show Hearing (((peer.out sent).take (taken + data.length)).drop taken0) _ _
      rw [hreceived]
      refine .received data hne List.take_left hp rfl ?_ fun t => ?_
      · show c.socket.readsDone ++ _ = _
        rw [hdone]
        rfl
      · rw [List.append_assoc]
        exact hv (data ++ t)
  | received data' hne' hbuf hp hr0 hdone hv => rw [hr0] at hr; cases hr
  | failed e hr0 hdone hv => rw [hr0] at hr; cases hr
  | ended hr0 hdone hv => rw [hr0] at hr; cases hr

/-- A read fails. -/
theorem readFail_listens {e : SysError} {socket : Socket κ} (h : Listens taken0 n c)
    (hs : c.socket.readFail e = some socket) : Listens taken0 n { c with socket := socket } := by
  obtain ⟨reads, hr, rfl⟩ := Socket.readFail_cases hs
  cases h.hearing with
  | waiting hp hr1 hdone hv =>
    rw [hr1] at hr
    cases hr
    refine { h with hearing := .failed e rfl ?_ ?_ }
    · show c.socket.readsDone ++ _ = _
      rw [hdone]
      rfl
    · have h0 := hv []
      rwa [List.append_nil, valuesFrom_nil, List.append_nil] at h0
  | received data hne hbuf hp hr0 hdone hv => rw [hr0] at hr; cases hr
  | failed e hr0 hdone hv => rw [hr0] at hr; cases hr
  | ended hr0 hdone hv => rw [hr0] at hr; cases hr

/-- What the peer answers to the bytes sent does not change what has been received. -/
theorem send_listens {k : ℕ} {socket : Socket κ} (h : Listens taken0 n c)
    (hs : c.socket.send k = some socket) : Listens taken0 n { c with socket := socket } := by
  obtain ⟨data, rest, peer, sent, taken, -, hl, writes, writesDone, -, rfl⟩ := Socket.send_cases hs
  obtain ⟨peer', sent', taken', hl', h0, hle⟩ := h.linked
  rw [hl] at hl'
  cases hl'
  have hmono := peer.mono sent (data.take (k + 1))
  have hreceived : ((peer.out (sent ++ data.take (k + 1))).take taken).drop taken0 =
      received taken0 c := by
    obtain ⟨u, hu⟩ := hmono
    unfold received
    rw [hl, ← hu, List.take_append_of_le_length hle]
  refine ⟨h.connected, ⟨peer, _, taken, rfl, h0, hle.trans hmono.length_le⟩, h.connects,
    h.connectsDone, h.long, ?_⟩
  show Hearing (((peer.out (sent ++ data.take (k + 1))).take taken).drop taken0) _ _
  rw [hreceived]
  cases h.hearing with
  | waiting hp hr hdone hv => exact .waiting hp hr hdone hv
  | received data' hne hbuf hp hr hdone hv => exact .received data' hne hbuf hp hr hdone hv
  | failed e hr hdone hv => exact .failed e hr hdone hv
  | ended hr hdone hv => exact .ended hr hdone hv

/-- **A client that listens goes on listening.** -/
theorem listens_step {e : Event κ} (he : Streams e) (h : Listens taken0 n c)
    (hstep : step e c = some c') : Listens taken0 n c' := by
  obtain ⟨-, hs⟩ := step_cases hstep
  cases hs with
  | user s => exact h.aside (runScript_aside he h.connected).1
  | @posted cbs f strand hs =>
    obtain ⟨hend, ha⟩ := runPosted_aside (f := f) (c := { c with strand := strand }) he h.connected
    rw [client_eq hend]
    exact h.aside { ha with }
  | @writeDone cbs ec writesDone hs =>
    obtain ⟨hend, ha⟩ := asyncWrite_aside ec
      (c := { c with socket := { c.socket with writesDone := writesDone } }) he h.connected
    rw [client_eq hend]
    exact h.aside { ha with }
  | readDone hs ho => exact asyncRead_listens h hs he ho
  | receive hs => exact receive_listens h hs
  | readFail hs => exact readFail_listens h hs
  | send hs => exact send_listens h hs
  | writeFail hs =>
    obtain ⟨data, writes, -, rfl⟩ := Socket.writeFail_cases hs
    exact h.aside ⟨⟨h.connected, rfl, rfl, rfl, [], (List.append_nil _).symm, rfl⟩, rfl, rfl, rfl, rfl⟩
  | connectOk hs => exact absurd h.connects (Socket.connects_ne_nil (.inl ⟨_, hs⟩))
  | connectFail hs => exact absurd h.connects (Socket.connects_ne_nil (.inr ⟨_, hs⟩))
  | connectDone hs =>
    rw [h.connectsDone] at hs
    cases hs

theorem listens_run {es : List (Event κ)} (hes : ∀ e ∈ es, Streams e) (h : Listens taken0 n c)
    (hrun : run es c = some c') : Listens taken0 n c' :=
  run_events (fun _ _ _ he h h1 => listens_step he h h1) hes h hrun

/-- A connected client with a fresh parser and a read waiting. -/
structure Starts (taken0 : ℕ) (c : RedisClientImpl κ) : Prop where
  connected : c.isConnected = true
  linked : ∃ peer sent, c.socket.link = .linked peer sent taken0 ∧ taken0 ≤ (peer.out sent).length
  reads : c.socket.reads = 1
  readsDone : c.socket.readsDone = []
  connects : c.socket.connects = []
  connectsDone : c.socket.connectsDone = []
  redisParser : c.redisParser = fresh

theorem Starts.listens (h : Starts taken0 c) : Listens taken0 c.trace.length c := by
  obtain ⟨peer, sent, hl, hle⟩ := h.linked
  refine ⟨h.connected, ⟨peer, sent, taken0, hl, Nat.le_refl _, hle⟩, h.connects, h.connectsDone,
    Nat.le_refl _, .waiting ?_ h.reads h.readsDone fun t => ?_⟩
  · rw [h.redisParser]
    exact .fresh
  · have hreceived : received taken0 c = [] := by
      unfold received
      rw [hl]
      simp
    have hvalues : values c.trace.length c = [] := by
      unfold values
      rw [List.drop_length]
      rfl
    rw [hreceived, hvalues, h.redisParser]
    rfl

/-- What has been processed are values of what has been received: all of them, once no completion
handler of a read is to run. -/
theorem Listens.values_eq (h : Listens taken0 n c) :
    values n c <+: wholeValues (received taken0 c) ∧
      (c.socket.readsDone = [] → values n c = wholeValues (received taken0 c)) := by
  cases h.hearing with
  | waiting hp hr hd hv =>
    have h0 := hv []
    rw [List.append_nil, valuesFrom_nil, List.append_nil] at h0
    rw [h0]
    exact ⟨List.prefix_refl _, fun _ => rfl⟩
  | received data hne hbuf hp hr hd hv =>
    have h0 := hv []
    rw [List.append_nil] at h0
    rw [h0, hd]
    exact ⟨List.prefix_append _ _, nofun⟩
  | failed e hr hd hv =>
    rw [hv]
    exact ⟨List.prefix_refl _, fun _ => rfl⟩
  | ended hr hd hv =>
    rw [hv]
    exact ⟨List.prefix_refl _, fun _ => rfl⟩

end RedisClient.Async.Stream

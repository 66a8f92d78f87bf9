import RedisClient.Async.Runs

/-! # The loop comes to rest

Every step of the loop in which the user's code does nothing makes something smaller (`weight`): a
command moves from the strand to the queue, to the write in progress and onto the wire, and a byte of
a reply from the peer to the buffer and to the parser. So a session in which nothing more is issued
comes to rest (`rest`). -/

namespace RedisClient.Async.Rest

open RedisClient.Value RedisClient.Parser.Defs RedisClient.Parser.Awaiting RedisClient.Commands
open RedisClient.Peers
open RedisClient.Peers.Publisher (text text_append)
open RedisClient.Sync.Defs (ErrorCode)
open RedisClient.Async.Asio RedisClient.Async.Defs RedisClient.Async.Rules RedisClient.Async.Trace
open RedisClient.Async.Calls
open RedisClient.Async.Session RedisClient.Async.Transmit RedisClient.Async.Receive
open RedisClient.Async.Runs

variable {κ σ : Type}

/-- A step of the loop in which the user's code does nothing. -/
def QuietEvent : Event κ → Prop
  | .posted cbs | .readDone cbs | .writeDone cbs => cbs = []
  | .receive _ | .send _ => True
  | .user _ | .readFail _ | .writeFail _ | .connectOk _ | .connectFail _ | .connectDone _ => False

theorem sessionEvent_of_quiet {S : List Bytes → Prop} {sub : Prop} {e : Event κ}
    (h : QuietEvent e) : SessionEvent S sub e := by
  have hnil : SessionCallbacks (κ := κ) S sub [] := fun s hs => by cases hs
  cases e with
  | posted cbs | readDone cbs | writeDone cbs =>
    cases h
    exact hnil
  | receive | send => trivial
  | _ => exact h.elim

/-! ### What is still to be done -/

def postedWeight : Posted κ → ℕ
  | .doAsyncCommand buff _ => buff.length + 3
  | .message _ _ => 1

/-- The bytes received on a connection. -/
def taken : Link → ℕ
  | .linked _ _ taken => taken
  | _ => 0

/-- The work left, with `total` bytes to receive in all. -/
def weight (total : ℕ) (c : RedisClientImpl κ) : ℕ :=
  (c.strand.map postedWeight).sum + (c.dataQueued.map fun b => b.length + 2).sum +
    (c.socket.writes.map fun b => b.length + 2).sum + c.socket.writesDone.length +
    c.socket.readsDone.length + 2 * (total - taken c.socket.link)

/-- Nothing has been issued, and there is as much to be done as before. -/
structure Calm (c c' : RedisClientImpl κ) : Prop where
  trace : ∃ t, c'.trace = c.trace ++ t ∧ issued t = []
  strand : c'.strand = c.strand
  dataQueued : c'.dataQueued = c.dataQueued
  state : c'.state = c.state
  link : c'.socket.link = c.socket.link
  writes : c'.socket.writes = c.socket.writes
  writesDone : c'.socket.writesDone = c.socket.writesDone
  readsDone : c'.socket.readsDone = c.socket.readsDone

theorem Calm.refl (c : RedisClientImpl κ) : Calm c c :=
  ⟨⟨[], by simp, rfl⟩, rfl, rfl, rfl, rfl, rfl, rfl, rfl⟩

theorem Calm.trans {c c1 c' : RedisClientImpl κ} (h : Calm c c1) (h' : Calm c1 c') : Calm c c' := by
  obtain ⟨t, ht, hi⟩ := h.trace
  obtain ⟨t', ht', hi'⟩ := h'.trace
  exact ⟨⟨t ++ t', by rw [ht', ht, List.append_assoc], by rw [issued_append, hi, hi']; rfl⟩,
    h'.strand.trans h.strand, h'.dataQueued.trans h.dataQueued, h'.state.trans h.state,
    h'.link.trans h.link, h'.writes.trans h.writes, h'.writesDone.trans h.writesDone,
    h'.readsDone.trans h.readsDone⟩

theorem Calm.weight {c c' : RedisClientImpl κ} (h : Calm c c') (total : ℕ) :
    weight total c' = weight total c := by
  unfold Rest.weight
  rw [h.strand, h.dataQueued, h.link, h.writes, h.writesDone, h.readsDone]

theorem Calm.log {a : Action κ} {c : RedisClientImpl κ} (h : issued [a] = []) : Calm c (c.log a) :=
  ⟨⟨[a], rfl, h⟩, rfl, rfl, rfl, rfl, rfl, rfl, rfl⟩

theorem callFront_calm (v : RedisValue) (c : RedisClientImpl κ) :
    (callFront v [] c).2.1 = [] ∧ Calm c (callFront v [] c).2.2 := by
  have hcall : ∀ handler : Option κ,
      callHandler handler v [] c = (.returns, [], c.log (.reply handler v)) := by
    intro handler
    cases handler <;> rfl
  unfold callFront
  rcases hh : c.handlers with _ | ⟨handler, handlers⟩
  · exact ⟨rfl, .refl c⟩
  · have hh' : (c.log (.reply handler v)).handlers = handler :: handlers := hh
    dsimp only
    rw [hcall]
    dsimp only
    rw [hh']
    exact ⟨rfl, ⟨[.reply handler v], rfl, rfl⟩, rfl, rfl, rfl, rfl, rfl, rfl, rfl⟩

theorem doProcessMessage_calm (v : RedisValue) {c : RedisClientImpl κ}
    (hc : c.state ≠ .subscribed) :
    (doProcessMessage v [] c).2.1 = [] ∧ Calm c (doProcessMessage v [] c).2.2 := by
  have hlog : Calm c (c.log (.doProcessMessage c.state v)) := .log rfl
  unfold doProcessMessage
  dsimp only
  rw [if_neg (by exact hc)]
  split_ifs
  · obtain ⟨h1, h2⟩ := callFront_calm v (c.log (.doProcessMessage c.state v))
    exact ⟨h1, hlog.trans h2⟩
  · exact ⟨rfl, hlog.trans (.log rfl)⟩

theorem processMessage_calm {c : RedisClientImpl κ} {peer : Peer} {sent : Bytes} {k : ℕ}
    (hc : c.socket.link = .linked peer sent k) : Calm c (processMessage c) := by
  have hsock := Socket.asyncReadSome_linked hc
  refine ⟨⟨[], by simp [processMessage], rfl⟩, rfl, rfl, rfl, ?_, ?_, ?_, ?_⟩ <;>
    simp only [processMessage, hsock]

/-- **Reading issues nothing.** -/
theorem readLoop_calm {peer : Peer} {sent : Bytes} {k : ℕ} : ∀ (fuel : ℕ) (data : Bytes)
    {c : RedisClientImpl κ} {o : Outcome κ}, c.state ≠ .subscribed →
    c.socket.link = .linked peer sent k → readLoop fuel data [] c = some o → Calm c o.2.2
  | 0, data, c, o, _, hl, h => by
    simp only [readLoop] at h
    split_ifs at h
    cases h
    exact processMessage_calm hl
  | fuel + 1, data, c, o, hc, hl, h => by
    simp only [readLoop] at h
    split_ifs at h
    · cases h
      exact processMessage_calm hl
    · rcases hp : parse c.redisParser data with _ | ⟨⟨j, _ | _ | _⟩, p⟩ <;> rw [hp] at h
      · cases h
      · dsimp only at h
        have hset : Calm c { c with redisParser := (result p).2 } :=
          ⟨⟨[], by simp, rfl⟩, rfl, rfl, rfl, rfl, rfl, rfl, rfl⟩
        obtain ⟨h1, h2⟩ := doProcessMessage_calm (result p).1
          (c := { c with redisParser := (result p).2 }) hc
        have hcalm := hset.trans h2
        rcases hx : doProcessMessage (result p).1 [] { c with redisParser := (result p).2 } with
          ⟨_ | _ | _, cbs1, c1⟩ <;> rw [hx] at h h1 hcalm
        · cases h1
          exact hcalm.trans (readLoop_calm fuel _ (hcalm.state ▸ hc) (hcalm.link.trans hl) h)
        · cases h
          exact hcalm
        · cases h
          exact hcalm
      · cases h
        have hset : Calm c { c with redisParser := p } :=
          ⟨⟨[], by simp, rfl⟩, rfl, rfl, rfl, rfl, rfl, rfl, rfl⟩
        exact hset.trans (processMessage_calm hl)
      · cases h
        exact ⟨⟨_, rfl, rfl⟩, rfl, rfl, rfl, rfl, rfl, rfl, rfl⟩

/-! ### Every step does some of it -/

theorem length_flatten_add_two : ∀ {bs : List Bytes}, bs ≠ [] →
    bs.flatten.length + 2 ≤ (bs.map fun b => b.length + 2).sum
  | [b], _ => by simp
  | b :: b' :: bs, _ => by
    have ih := length_flatten_add_two (List.cons_ne_nil b' bs)
    rw [List.flatten_cons, List.length_append, List.map_cons, List.sum_cons]
    omega

/-- A new write takes over what was queued. -/
theorem asyncWrite_weight {c : RedisClientImpl κ} {peer : Peer} {sent : Bytes} {k : ℕ}
    (total : ℕ) (cbs : Callbacks κ) (hc : c.socket.link = .linked peer sent k) :
    weight total (asyncWrite none cbs c).2.2 ≤ weight total c ∧
      ∃ t, (asyncWrite none cbs c).2.2.trace = c.trace ++ t ∧ issued t = [] := by
  unfold asyncWrite
  dsimp only
  rw [if_neg (by simp)]
  split_ifs with hq
  · have hflat := length_flatten_add_two hq
    have hsock := Socket.asyncWrite_linked c.dataQueued.flatten hc
    refine ⟨?_, [.asyncWrite c.dataQueued.flatten], rfl, rfl⟩
    show weight total { c with
      dataQueued := [], dataWrited := c.dataQueued,
      trace := c.trace ++ [.asyncWrite c.dataQueued.flatten],
      socket := c.socket.asyncWrite c.dataQueued.flatten } ≤ _
    rw [hsock]
    simp only [weight, List.map_append, List.sum_append, List.map_cons, List.map_nil,
      List.sum_cons, List.sum_nil]
    omega
  · exact ⟨Nat.le_refl _, [], by simp, rfl⟩

theorem asyncWrite_client (cbs : Callbacks κ) (c : RedisClientImpl κ) :
    (asyncWrite none cbs c).client = (asyncWrite none cbs c).2.2 := by
  unfold asyncWrite
  dsimp only
  rw [if_neg (by simp)]
  split_ifs <;> rfl

section Steps

variable (pub : Publisher σ) (s0 : σ) (n : ℕ)

/-- The length of all that the server writes in reply to the commands issued. -/
def total (c : RedisClientImpl κ) : ℕ :=
  (text (itemsOf pub s0 (c.trace.drop n))).length

variable {pub s0 n} {S : List Bytes → Prop} {x : Progress κ} {c c' : RedisClientImpl κ}

theorem taken_le_total (h : Core pub s0 S False n x c) : x.taken ≤ total pub s0 n c := by
  unfold total itemsOf
  rw [h.issued, contents_pairs, contents_append, Publisher.items_append, text_append,
    List.length_append]
  exact h.taken_le.trans (Nat.le_add_right _ _)

theorem issued_same {t : List (Action κ)} (h : Core pub s0 S False n x c)
    (ht : c'.trace = c.trace ++ t) (hi : issued t = []) :
    issued (c'.trace.drop n) = issued (c.trace.drop n) := by
  rw [drop_append h ht, issued_append, hi, List.append_nil]

theorem posted_weight {f : Posted κ} {strand : List (Posted κ)} {peer : Peer} {sent : Bytes}
    {k : ℕ} (m : ℕ) (hl : c.socket.link = .linked peer sent k) (hc : c.strand = f :: strand) :
    weight m (runPosted f [] { c with strand := strand }).client < weight m c ∧
      ∃ t, (runPosted f [] { c with strand := strand }).client.trace = c.trace ++ t ∧
        issued t = [] := by
  cases f with
  | message msgHandler msg =>
    refine ⟨?_, [.message msgHandler msg], rfl, rfl⟩
    show weight m { c with strand := strand, trace := c.trace ++ [.message msgHandler msg] } < _
    simp only [weight, hc, List.map_cons, List.sum_cons, postedWeight]
    omega
  | doAsyncCommand buff handler =>
    have hqueued : weight m { c with
        strand := strand
        trace := c.trace ++ [.doAsyncCommand buff handler]
        handlers := c.handlers ++ [handler]
        dataQueued := c.dataQueued ++ [buff] } < weight m c := by
      simp only [weight, hc, List.map_append, List.sum_append, List.map_cons, List.map_nil,
        List.sum_cons, List.sum_nil, postedWeight]
      omega
    simp only [runPosted, doAsyncCommand]
    split_ifs with hd
    · obtain ⟨h1, t, h2, h3⟩ := asyncWrite_weight (c := { c with
        strand := strand
        trace := c.trace ++ [.doAsyncCommand buff handler]
        handlers := c.handlers ++ [handler]
        dataQueued := c.dataQueued ++ [buff] }) m [] hl
      rw [← asyncWrite_client] at h1 h2
      exact ⟨Nat.lt_of_le_of_lt h1 hqueued, .doAsyncCommand buff handler :: t,
        h2.trans (List.append_assoc _ _ _), h3⟩
    · exact ⟨hqueued, [.doAsyncCommand buff handler], rfl, rfl⟩

/-- Bytes that arrive have still to arrive no longer. -/
theorem receive_weight {data buf : Bytes} {k : ℕ} {socket : Socket κ} {x' : Progress κ}
    (h : Core pub s0 S False n x c) (hr : Reading c data)
    (hrecv : c.socket.receive k = some (buf, socket))
    (h' : Core pub s0 S False n x' { c with socket := socket, buf := buf ++ c.buf.drop buf.length }) :
    weight (total pub s0 n c) { c with socket := socket, buf := buf ++ c.buf.drop buf.length } <
      weight (total pub s0 n c) c := by
  have htaken := taken_le_total h'
  have hlink' := h'.link
  obtain ⟨hne, -, -⟩ := Socket.receive_data hrecv h.link
  have hpos := List.length_pos_iff.mpr hne
  obtain ⟨reads, peer, sent, k', hreads, hl, rfl⟩ := Socket.receive_cases hrecv
  cases hr with
  | received _ h1 h2 h3 h4 =>
    rw [h3] at hreads
    cases hreads
  | waiting h1 h2 =>
    change Link.linked peer sent (k' + buf.length) = _ at hlink'
    injection hlink' with _ _ hx
    rw [← hx] at htaken
    change _ ≤ total pub s0 n c at htaken
    simp only [weight, hl, taken, List.length_append, List.length_cons, List.length_nil]
    omega

/-- What has arrived is read. -/
theorem readDone_weight {data : Bytes} {ec : ErrorCode} {size : ℕ}
    {readsDone : List (ErrorCode × ℕ)} {o : Outcome κ} (h : Core pub s0 S False n x c)
    (hr : Reading c data) (hc : c.socket.readsDone = (ec, size) :: readsDone)
    (ho : asyncRead ec size [] { c with socket := { c.socket with readsDone := readsDone } } =
      some o) (hend : o.client = o.2.2) :
    issued (o.client.trace.drop n) = issued (c.trace.drop n) ∧
      weight (total pub s0 n c) o.client < weight (total pub s0 n c) c := by
  have hstate : c.state ≠ .subscribed := by
    rcases h.state with hc | ⟨hf, -⟩
    · rw [hc]
      decide
    · exact hf.elim
  cases hr with
  | waiting h1 h2 =>
    rw [h2] at hc
    cases hc
  | received _ h1 h2 h3 h4 =>
    rw [h4] at hc
    cases hc
    unfold asyncRead at ho
    rw [if_neg (by simpa using h1)] at ho
    have hcalm := readLoop_calm data.length _ hstate h.link
      (c := { c with socket := { c.socket with readsDone := [] } }) ho
    rw [← hend] at hcalm
    obtain ⟨t, ht, hi⟩ := hcalm.trace
    refine ⟨issued_same h ht hi, ?_⟩
    have hw' := hcalm.weight (total pub s0 n c)
    dsimp only at hw'
    rw [hw']
    simp only [weight, h4, List.length_cons]
    omega

/-- Bytes of the write in progress are sent, or its completion handler is due. -/
theorem send_weight {left : Bytes} {k : ℕ} {socket : Socket κ} (m : ℕ)
    (h : Core pub s0 S False n x c) (hw : Writing c left) (hsend : c.socket.send k = some socket) :
    weight m { c with socket := socket } < weight m c := by
  unfold Socket.send at hsend
  rw [h.link] at hsend
  cases hw with
  | idle h1 h2 h3 h4 =>
    rw [h3] at hsend
    cases hsend
  | done h1 h2 h3 =>
    rw [h2] at hsend
    cases hsend
  | busy left h1 h2 h3 =>
    rw [h2] at hsend
    dsimp only at hsend
    split_ifs at hsend with hd
    · cases hsend
      simp only [weight, h.link, taken, h2, h3, List.map_cons, List.map_nil, List.sum_cons,
        List.sum_nil, List.nil_append, List.length_cons, List.length_nil]
      omega
    · cases hsend
      have hlen := List.length_pos_iff.mpr hd
      rw [List.length_drop] at hlen
      simp only [weight, h.link, taken, h2, h3, List.map_cons, List.map_nil, List.sum_cons,
        List.sum_nil, List.length_nil, List.length_drop]
      omega

/-- A write that is done gives way to what has been queued. -/
theorem writeDone_weight {left : Bytes} {ec : ErrorCode} {writesDone : List ErrorCode}
    (h : Core pub s0 S False n x c) (hw : Writing c left)
    (hc : c.socket.writesDone = ec :: writesDone) :
    let c' := (asyncWrite ec [] { c with socket := { c.socket with writesDone := writesDone } }).client
    issued (c'.trace.drop n) = issued (c.trace.drop n) ∧
      weight (total pub s0 n c) c' < weight (total pub s0 n c) c := by
  cases hw with
  | idle h1 h2 h3 h4 =>
    rw [h4] at hc
    cases hc
  | busy _ h1 h2 h3 =>
    rw [h3] at hc
    cases hc
  | done h1 h2 h3 =>
    rw [h3] at hc
    cases hc
    have hless : weight (total pub s0 n c) { c with socket := { c.socket with writesDone := [] } } <
        weight (total pub s0 n c) c := by
      simp only [weight, h3, List.length_cons, List.length_nil]
      omega
    obtain ⟨h4, t, h5, h6⟩ := asyncWrite_weight (total pub s0 n c) [] (c := { c with
      socket := { c.socket with writesDone := [] } }) h.link
    intro c'
    rw [show c' = _ from asyncWrite_client [] _]
    exact ⟨issued_same h h5 h6, Nat.lt_of_le_of_lt h4 hless⟩

/-- **A step of the loop in which the user's code does nothing** issues nothing, and less is left to
be done. -/
theorem quiet_step (hpub : pub.Quiet S s0) {e : Event κ} (he : QuietEvent e)
    (h : InSession pub s0 S False n c) (hstep : step e c = some c') :
    issued (c'.trace.drop n) = issued (c.trace.drop n) ∧
      weight (total pub s0 n c) c' < weight (total pub s0 n c) c := by
  have hs' := session_step (suffices_of_quiet hpub) (sessionEvent_of_quiet he) h hstep False.elim
  obtain ⟨x, data, hcore, hin, hw, hr⟩ := h
  obtain ⟨-, hs⟩ := step_cases hstep
  cases hs with
  | posted hc =>
    cases he
    obtain ⟨h1, t, h2, h3⟩ := posted_weight (total pub s0 n c) hcore.link hc
    exact ⟨issued_same hcore h2 h3, h1⟩
  | receive hrecv =>
    obtain ⟨x', data', hcore', -⟩ := hs'
    exact ⟨rfl, receive_weight hcore hr hrecv hcore'⟩
  | @readDone cbs ec size readsDone o hc ho =>
    cases he
    have hnil : SessionCallbacks (κ := κ) S False [] := fun s hs => by cases hs
    obtain ⟨cbs', c', hrun, -⟩ :=
      readDone_core (suffices_of_quiet hpub) hcore hin hw hr hc hnil False.elim
    have hend : o.client = o.2.2 := by
      rw [ho] at hrun
      cases hrun
      rfl
    exact readDone_weight hcore hr hc ho hend
  | send hsend => exact ⟨rfl, send_weight (total pub s0 n c) hcore hw hsend⟩
  | writeDone hc =>
    cases he
    exact writeDone_weight hcore hw hc
  | _ => exact he.elim

/-- **The loop comes to rest.** When the user's code does nothing, only so many steps are
possible. -/
theorem rest (hpub : pub.Quiet S s0) : ∀ {es : List (Event κ)} {c : RedisClientImpl κ},
    (∀ e ∈ es, QuietEvent e) → InSession pub s0 S False n c → run es c = some c' →
    es.length ≤ weight (total pub s0 n c) c
  | [], _, _, _, _ => Nat.zero_le _
  | e :: es, c, hes, h, hrun => by
    obtain ⟨c1, h1, h2⟩ := Option.bind_eq_some_iff.mp hrun
    have he := hes e (by simp)
    obtain ⟨hi, hlt⟩ := quiet_step hpub he h h1
    have hs := session_step (suffices_of_quiet hpub) (sessionEvent_of_quiet he) h h1 False.elim
    have ih := rest hpub (fun e' he' => hes e' (by simp [he'])) hs h2
    have htotal : total pub s0 n c1 = total pub s0 n c := by
      unfold total itemsOf
      rw [hi]
    rw [htotal] at ih
    rw [List.length_cons]
    omega

end Steps

/-! ### At rest -/

/-- Neither the strand nor the socket has anything to do. -/
structure AtRest (c : RedisClientImpl κ) : Prop where
  strand : c.strand = []
  receive : ∀ k, c.socket.receive k = none
  readsDone : c.socket.readsDone = []
  send : ∀ k, c.socket.send k = none
  writesDone : c.socket.writesDone = []

/-- **At rest**, every command issued has been run and sent, and every item that the server has
written has been processed. -/
theorem atRest_all {pub : Publisher σ} {s0 : σ} {S : List Bytes → Prop} {sub : Prop} {n : ℕ}
    {c : RedisClientImpl κ} (h : InSession pub s0 S sub n c) (hq : AtRest c) :
    ∃ x, Core pub s0 S sub n x c ∧ x.posted = [] ∧ x.sent = texts x.run ∧
      x.processed = (written pub s0 x).length := by
  obtain ⟨x, data, hcore, hin, hw, hr⟩ := h
  have hposted : x.posted = [] := by
    have hs := hcore.strand
    rw [hq.strand] at hs
    exact List.map_eq_nil_iff.mp hs.symm
  have hsent : x.sent = texts x.run := by
    have hx := hcore.sent
    generalize x.left = left at hw hx
    cases hw with
    | idle h1 h2 h3 h4 =>
      rw [h2] at hx
      simpa using hx
    | busy _ h1 h2 h3 =>
      have hp := hq.send 0
      unfold Socket.send at hp
      rw [h2, hcore.link] at hp
      dsimp only at hp
      split_ifs at hp
    | done h1 h2 h3 =>
      rw [hq.writesDone] at h3
      cases h3
  have hdata : data = [] ∧ (text (written pub s0 x)).drop x.taken = [] := by
    cases hr with
    | waiting h1 h2 =>
      refine ⟨rfl, ?_⟩
      have hout : (pub.peer s0).out x.sent = text (written pub s0 x) := by
        rw [hsent]
        unfold texts
        rw [Publisher.out_encs, List.map_map]
        rfl
      have hp := hq.receive 0
      unfold Socket.receive at hp
      rw [h1, hcore.link] at hp
      dsimp only at hp
      rw [hout] at hp
      split_ifs at hp with hnil
      rcases hd : (text (written pub s0 x)).drop x.taken with _ | ⟨b, rest⟩
      · rfl
      · rw [hd] at hnil
        simp [Sync.Defs.bufferSize] at hnil
    | received _ h1 h2 h3 h4 =>
      rw [hq.readsDone] at h4
      cases h4
  refine ⟨x, hcore, hposted, hsent, ?_⟩
  obtain ⟨rfl, hrest⟩ := hdata
  unfold Incoming at hin
  rw [hrest] at hin
  have hle := hcore.processed_le
  rcases hi : (written pub s0 x).drop x.processed with _ | ⟨i, is⟩ <;> rw [hi] at hin
  · have hlen := List.drop_eq_nil_iff.mp hi
    omega
  · exact absurd rfl (ahead_ne_nil hin)

end RedisClient.Async.Rest

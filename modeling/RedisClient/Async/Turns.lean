import RedisClient.Async.Stream
import RedisClient.Async.Wire

/-! # Whose turn it is

A reply is for the handler in front of the queue, and the handler is taken off the queue when it has
returned. If it throws, `asyncRead` does not come to the rest of its bytes nor to the next read, and so
no reply comes to the handler that is left in front (`asyncRead_rests`). -/

namespace RedisClient.Async.Turns

open RedisClient.Value RedisClient.Parser.Defs RedisClient.Parser.Values RedisClient.Peers
open RedisClient.Async.Asio RedisClient.Async.Defs RedisClient.Async.Rules RedisClient.Async.Trace
open RedisClient.Async.Session RedisClient.Async.Moments RedisClient.Async.Stream
open RedisClient.Async.OwnReplies RedisClient.Async.Wire
open RedisClient.Sync.Defs (ErrorCode ClientState parserError)

variable {κ : Type} {c c' : RedisClientImpl κ} {cbs : Callbacks κ}

/-! ### The first read -/

/-- **A client listens** from its first read on, if nothing has been received before. -/
theorem first_listens {n : ℕ} {peer : Peer} (hc : c.isConnected = true)
    (hl : c.socket.link = .linked peer [] 0) (hr : c.socket.reads = 0)
    (hd : c.socket.readsDone = []) (hconnects : c.socket.connects = [])
    (hconnectsDone : c.socket.connectsDone = []) (hp : Reachable c.redisParser)
    (hidle : Idle c.redisParser) (hlong : n ≤ c.trace.length) (hvalues : values n c = []) :
    Listens 0 n (processMessage c) := by
  have hv : ∀ t, wholeValues ([] ++ t) = [] ++ valuesFrom c.redisParser t :=
    fun t => (valuesFrom_idle hidle t).symm
  obtain ⟨honline, hhearing⟩ := processMessage_hearing hc hl hp hr hd hv
  have hlink : (processMessage c).socket.link = .linked peer [] 0 := honline.link.trans hl
  refine ⟨hc, ⟨peer, [], 0, hlink, Nat.le_refl _, Nat.zero_le _⟩, honline.connects.trans hconnects,
    honline.connectsDone.trans hconnectsDone, hlong, ?_⟩
  have hreceived : received 0 (processMessage c) = [] := by
    unfold received
    rw [hlink]
    rfl
  have hnone : values n (processMessage c) = [] := hvalues
  rw [hreceived, hnone]
  exact hhearing

/-! ### The user's code -/

theorem returns_ne_undefined : Ending.returns ≠ .undefined := nofun

theorem throws_ne_undefined : Ending.throws ≠ .undefined := nofun

/-- Nothing is run, delivered or processed. -/
structure Still (t : List (Action κ)) : Prop where
  ordered : ordered t = []
  replies : replies t = []
  processed : processed t = []

theorem Still.nil : Still ([] : List (Action κ)) := ⟨rfl, rfl, rfl⟩

theorem Still.append {t u : List (Action κ)} (h : Still t) (h' : Still u) : Still (t ++ u) where
  ordered := by rw [ordered_append, h.ordered, h'.ordered, List.append_nil]
  replies := by rw [replies_append, h.replies, h'.replies, List.append_nil]
  processed := by rw [processed_append, h.processed, h'.processed, List.append_nil]

/-- What the user's code does to a connected client: it changes the strand and the trace. -/
def Issues (c : RedisClientImpl κ) (ms : List (Moment κ)) (c' : RedisClientImpl κ) : Prop :=
  c.state = .connected → Still (ms.map Moment.action) ∧ ∃ strand,
    c' = { c with strand := strand, trace := c.trace ++ ms.map Moment.action }

theorem body_command {call : Call κ} (hcall : IsCommand call) (hc : c.state = .connected) :
    ∃ strand, (call.body c).2.2 = { c with strand := strand } := by
  have hne : ¬ c.state ≠ .connected := not_not.mpr hc
  cases call with
  | command cmd args handler =>
    simp only [Call.body, command, if_neg hne]
    exact ⟨_, rfl⟩
  | publish channel msg handler =>
    simp only [Call.body, publish, if_pos hc]
    exact ⟨_, rfl⟩
  | _ => exact hcall.elim

theorem carriesCalls_issues : CarriesCalls (κ := κ) (Recorded IsCommand) Issues := by
  refine carriesCalls_of_scripted (fun c _ => ⟨.nil, c.strand, by simp⟩) ?_ ?_
  · intro ms ms' c c1 c' h h' hc
    obtain ⟨hstill, strand, rfl⟩ := h hc
    obtain ⟨hstill', strand', rfl⟩ := h' hc
    rw [List.map_append]
    exact ⟨hstill.append hstill', strand', by simp⟩
  · rintro ⟨c, a, s⟩ hm hrec hc
    cases a with
    | call state call =>
      obtain ⟨strand, hb⟩ := body_command (c := c.log (.call state call)) hrec.2 hc
      exact ⟨⟨rfl, rfl, rfl⟩, strand, hb⟩
    | returned | connect | error => exact ⟨⟨rfl, rfl, rfl⟩, c.strand, rfl⟩
    | _ => exact hm.elim

/-- A callback, however it ends. -/
theorem callback_issues (hcbs : AllOf IsCommand cbs) (hc : c.state = .connected) :
    ∃ e cbs' t strand, callback cbs c =
        (e, cbs', { c with strand := strand, trace := c.trace ++ t }) ∧
      e ≠ .undefined ∧ AllOf IsCommand cbs' ∧ Still t := by
  cases cbs with
  | nil => exact ⟨.returns, [], [], c.strand, by simp [callback], returns_ne_undefined, hcbs, .nil⟩
  | cons s cbs =>
    obtain ⟨hstill, strand, hrun⟩ := carriesCalls_issues.runScript s c
      (scriptMoments_recorded (hcbs s List.mem_cons_self) c) hc
    refine ⟨ending s, cbs, _, strand, ?_, ending_ne_undefined s,
      fun s' hs' => hcbs s' (List.mem_cons_of_mem s hs'), hstill⟩
    show ((runScript s c).1, cbs, (runScript s c).2) = _
    rw [runScript_ending, hrun]

/-! ### A reply -/

section Reading

variable {H : List (Option κ)} {n : ℕ}

/-- The handlers of the first commands have been called, each with the value for it. -/
structure Dealt (H : List (Option κ)) (n : ℕ) (c : RedisClientImpl κ) : Prop where
  long : n ≤ c.trace.length
  replies : replies (c.trace.drop n) = H.zip (values n c)

/-- And the handlers of the others are in the queue. -/
structure Turn (H : List (Option κ)) (n : ℕ) (c : RedisClientImpl κ) : Prop extends Dealt H n c where
  state : c.state = .connected
  handlers : c.handlers = H.drop (values n c).length

/-- Entries that leave the replies as they are. -/
theorem values_still {t : List (Action κ)} (hlong : n ≤ c.trace.length)
    (htrace : c'.trace = c.trace ++ t) (hstill : Still t) :
    values n c' = values n c ∧ replies (c'.trace.drop n) = replies (c.trace.drop n) ∧
      ordered (c'.trace.drop n) = ordered (c.trace.drop n) := by
  have hd : c'.trace.drop n = c.trace.drop n ++ t := by
    rw [htrace, List.drop_append_of_le_length hlong]
  unfold values
  rw [hd, processed_append, hstill.processed, List.append_nil, replies_append, hstill.replies,
    List.append_nil, ordered_append, hstill.ordered, List.append_nil]
  exact ⟨rfl, rfl, rfl⟩

/-- **A value is delivered** to the handler whose turn it is. If the handler returns, it is the turn of
the next one. -/
theorem Turn.process (h : Turn H n c) (v : RedisValue) (hlt : (values n c).length < H.length)
    (hcbs : AllOf IsCommand cbs) :
    ∃ e cbs' c', doProcessMessage v cbs c = (e, cbs', c') ∧ e ≠ .undefined ∧ AllOf IsCommand cbs' ∧
      values n c' = values n c ++ [v] ∧ Dealt H n c' ∧ (e = .returns → Turn H n c') ∧
      c'.socket = c.socket ∧ c'.redisParser = c.redisParser := by
  obtain ⟨handler, hcons⟩ : ∃ handler, H.drop (values n c).length =
      handler :: H.drop ((values n c).length + 1) := ⟨_, List.drop_eq_getElem_cons hlt⟩
  have hqueue : c.handlers = handler :: H.drop ((values n c).length + 1) := h.handlers.trans hcons
  set d := (c.log (.doProcessMessage c.state v)).log (.reply handler v) with hd
  -- the handler is called
  obtain ⟨e, cbs', t, strand, hcall, he, hcbs', hstill⟩ :
      ∃ e cbs' t strand, callHandler handler v cbs (c.log (.doProcessMessage c.state v)) =
          (e, cbs', { d with strand := strand, trace := d.trace ++ t }) ∧
        e ≠ .undefined ∧ AllOf IsCommand cbs' ∧ Still t := by
    cases handler with
    | none =>
      exact ⟨.returns, cbs, [], d.strand, by simp [callHandler, hd], returns_ne_undefined, hcbs, .nil⟩
    | some handler => exact callback_issues (c := d) hcbs h.state
  set c1 : RedisClientImpl κ := { d with strand := strand, trace := d.trace ++ t } with hc1
  -- what has been delivered then
  have hlong : n ≤ d.trace.length :=
    (h.long.trans (log_trace c _).length_le).trans (log_trace _ _).length_le
  have hdrop : d.trace.drop n =
      c.trace.drop n ++ [.doProcessMessage c.state v, .reply handler v] := by
    show (c.trace ++ [_] ++ [_]).drop n = _
    rw [List.append_assoc, List.drop_append_of_le_length h.long]
    rfl
  obtain ⟨hvalues, hreplies, -⟩ := values_still hlong (show c1.trace = d.trace ++ t from rfl) hstill
  have hvd : values n d = values n c ++ [v] := by
    unfold values
    rw [hdrop, processed_append, List.map_append]
    rfl
  have hrd : replies (d.trace.drop n) = H.zip (values n c ++ [v]) := by
    rw [hdrop, replies_append, h.replies, zip_concat hcons]
    rfl
  have hdealt : Dealt H n c1 := by
    refine ⟨hlong.trans (List.prefix_append _ _).length_le, ?_⟩
    rw [hreplies, hrd, hvalues, hvd]
  have hprocess : doProcessMessage v cbs c = callFront v cbs (c.log (.doProcessMessage c.state v)) := by
    have hstate : ¬ (c.log (.doProcessMessage c.state v)).state = .subscribed := by
      show ¬ c.state = .subscribed
      rw [h.state]
      exact nofun
    have hne : (c.log (.doProcessMessage c.state v)).handlers ≠ [] := by
      show c.handlers ≠ []
      rw [hqueue]
      exact List.cons_ne_nil _ _
    unfold doProcessMessage
    rw [if_neg hstate, if_pos hne]
  have hfront : (c.log (.doProcessMessage c.state v)).handlers =
      handler :: H.drop ((values n c).length + 1) := hqueue
  have hfront' : c1.handlers = handler :: H.drop ((values n c).length + 1) := hqueue
  rw [hprocess]
  unfold callFront
  rw [hfront]
  dsimp only
  rw [hcall]
  cases e with
  | returns =>
    dsimp only
    rw [hfront']
    refine ⟨.returns, cbs', _, rfl, returns_ne_undefined, hcbs', hvalues.trans hvd, ?_, fun _ => ?_, rfl, rfl⟩
    · exact ⟨hdealt.long, hdealt.replies⟩
    · refine ⟨⟨hdealt.long, hdealt.replies⟩, h.state, ?_⟩
      show H.drop _ = H.drop (values n c1).length
      rw [hvalues, hvd, List.length_append]
      rfl
  | throws =>
    exact ⟨.throws, cbs', c1, rfl, throws_ne_undefined, hcbs', hvalues.trans hvd, hdealt, nofun, rfl, rfl⟩
  | undefined => exact absurd rfl he

/-! ### A read -/

/-- What a read leaves that may have ended with a fault: the next one has been started, and it is the
turn of the next handler; or no read will be done any more. -/
structure Rests (H : List (Option κ)) (data0 : Bytes) (n : ℕ) (c : RedisClientImpl κ) : Prop
    extends Dealt H n c where
  among : values n c <+: wholeValues data0
  next : Turn H n c ∧ Hearing data0 (values n c) c ∨ c.socket.reads = 0 ∧ c.socket.readsDone = []

/-- The next read is started. -/
theorem Turn.next {data0 : Bytes} {peer : Peer} {sent : Bytes} {taken : ℕ} (h : Turn H n c)
    (hl : c.socket.link = .linked peer sent taken) (hp : Reachable c.redisParser)
    (hr : c.socket.reads = 0) (hd : c.socket.readsDone = [])
    (hv : ∀ t, wholeValues (data0 ++ t) = values n c ++ valuesFrom c.redisParser t) :
    Rests H data0 n (processMessage c) := by
  have hconn : c.isConnected = true := decide_eq_true (Or.inl h.state)
  obtain ⟨-, hh⟩ := processMessage_hearing hconn hl hp hr hd hv
  have hall := hv []
  rw [List.append_nil, valuesFrom_nil, List.append_nil] at hall
  refine ⟨⟨h.long, h.replies⟩, ?_, Or.inl ⟨⟨⟨h.long, h.replies⟩, h.state, h.handlers⟩, hh⟩⟩
  show values n c <+: _
  rw [hall]

/-- The error handler is told, and there is no next read. -/
theorem Turn.fails {data0 : Bytes} (h : Turn H n c) (r : Report) (hcbs : AllOf IsCommand cbs)
    (hamong : values n c <+: wholeValues data0) (hr : c.socket.reads = 0)
    (hd : c.socket.readsDone = []) :
    (callErrorHandler r cbs c).1 ≠ .undefined ∧ Rests H data0 n (callErrorHandler r cbs c).2.2 := by
  obtain ⟨e, cbs', t, strand, hcall, he, -, hstill⟩ :=
    callback_issues (c := c.log (.error r)) hcbs h.state
  have hlog : Still ([.error r] : List (Action κ)) := ⟨rfl, rfl, rfl⟩
  unfold callErrorHandler
  rw [hcall]
  set c1 : RedisClientImpl κ :=
    { c.log (.error r) with strand := strand, trace := (c.log (.error r)).trace ++ t } with hc1
  obtain ⟨hvalues, hreplies, -⟩ := values_still h.long
    (show c1.trace = c.trace ++ ([.error r] ++ t) from List.append_assoc _ _ _)
    (hlog.append hstill)
  refine ⟨he, ⟨?_, ?_⟩, ?_, Or.inr ⟨hr, hd⟩⟩
  · exact (h.long.trans (log_trace c _).length_le).trans (List.prefix_append _ _).length_le
  · rw [hreplies, hvalues, h.replies]
  · rw [hvalues]
    exact hamong

/-- **The loop of `asyncRead`** over bytes that hold no more values than there are handlers. -/
theorem readLoop_rests {data0 : Bytes} {peer : Peer} {sent : Bytes} {taken : ℕ}
    (hbound : (wholeValues data0).length ≤ H.length) :
    ∀ (fuel : ℕ) {data : Bytes} {cbs : Callbacks κ} {c : RedisClientImpl κ} {o : Outcome κ},
      AllOf IsCommand cbs → Turn H n c → c.socket.link = .linked peer sent taken →
      Reachable c.redisParser → c.socket.reads = 0 → c.socket.readsDone = [] →
      (∀ t, wholeValues (data0 ++ t) = values n c ++ valuesFrom c.redisParser (data ++ t)) →
      readLoop fuel data cbs c = some o → o.1 ≠ .undefined ∧ Rests H data0 n o.2.2
  | fuel, [], cbs, c, o, _, h, hl, hp, hr, hd, hv, ho => by
    have hend : readLoop fuel [] cbs c = some (.returns, cbs, processMessage c) := by
      cases fuel <;> rfl
    rw [hend] at ho
    cases ho
    exact ⟨returns_ne_undefined, h.next hl hp hr hd hv⟩
  | 0, b :: data, cbs, c, o, _, _, _, _, _, _, _, ho => by cases ho
  | fuel + 1, b :: data, cbs, c, o, hcbs, h, hl, hp, hr, hd, hv, ho => by
    have hne : b :: data ≠ [] := List.cons_ne_nil _ _
    have hall := hv []
    rw [List.append_nil] at hall
    rw [readLoop, if_neg hne] at ho
    rcases values_parse hp hne with ⟨k, p, hparse, hk, hle, hvals⟩ | ⟨p, hparse, hvals⟩ |
      ⟨k, p, hparse, hvals⟩ <;> rw [hparse] at ho <;> dsimp only at ho
    · -- the value is one of those in the bytes, so there is a handler for it
      have hamong : values n c ++ [(result p).1] <+: wholeValues data0 := by
        rw [hall, hvals []]
        exact (List.prefix_append_right_inj _).mpr ((List.prefix_cons_inj _).mpr List.nil_prefix)
      have hlt : (values n c).length < H.length := by
        have hlen := hamong.length_le
        rw [List.length_append, List.length_singleton] at hlen
        omega
      have hturn : Turn H n { c with redisParser := (result p).2 } :=
        ⟨⟨h.long, h.replies⟩, h.state, h.handlers⟩
      obtain ⟨e, cbs1, c1, hprocess, he, hcbs1, hvalues, hdealt, hturn1, hsocket, hparser⟩ :=
        hturn.process (result p).1 hlt hcbs
      change values n c1 = values n c ++ [(result p).1] at hvalues
      change c1.socket = c.socket at hsocket
      rw [hprocess] at ho
      have hr1 : c1.socket.reads = 0 := by rw [hsocket, hr]
      have hd1 : c1.socket.readsDone = [] := by rw [hsocket, hd]
      have hstops : Rests H data0 n c1 := ⟨hdealt, hvalues ▸ hamong, Or.inr ⟨hr1, hd1⟩⟩
      cases e with
      | returns =>
        have hp1 : Reachable c1.redisParser := by
          rw [hparser]
          exact (hp.parse hne hparse).result
        refine readLoop_rests hbound fuel hcbs1 (hturn1 rfl) (by rw [hsocket, hl]) hp1 hr1 hd1
          (fun t => ?_) ho
        rw [hv t, hvals t, hvalues, hparser, List.append_assoc]
        rfl
      | throws =>
        cases ho
        exact ⟨throws_ne_undefined, hstops⟩
      | undefined => exact absurd rfl he
    · cases ho
      have hturn : Turn H n { c with redisParser := p } := ⟨⟨h.long, h.replies⟩, h.state, h.handlers⟩
      refine ⟨returns_ne_undefined, hturn.next hl (hp.parse hne hparse) hr hd fun t => ?_⟩
      rw [hv t, hvals t]
      rfl
    · cases ho
      have hturn : Turn H n { c with redisParser := p } := ⟨⟨h.long, h.replies⟩, h.state, h.handlers⟩
      refine hturn.fails _ hcbs ?_ hr hd
      rw [hall]
      exact List.prefix_append _ _

/-- The completion handler of a read. -/
theorem asyncRead_rests {ec : ErrorCode} {size : ℕ} {readsDone : List (ErrorCode × ℕ)}
    {o : Outcome κ} (h : Turn H n c) (hlisten : Listens 0 n c)
    (hbound : (wholeValues (received 0 c)).length ≤ H.length)
    (hs : c.socket.readsDone = (ec, size) :: readsDone) (hcbs : AllOf IsCommand cbs)
    (ho : asyncRead ec size cbs { c with socket := { c.socket with readsDone := readsDone } } =
      some o) : o.1 ≠ .undefined ∧ Rests H (received 0 c) n o.2.2 := by
  set d : RedisClientImpl κ := { c with socket := { c.socket with readsDone := readsDone } } with hd
  have hturn : Turn H n d := ⟨⟨h.long, h.replies⟩, h.state, h.handlers⟩
  cases hlisten.hearing with
  | waiting hp hr hdone hv =>
    rw [hdone] at hs
    cases hs
  | ended hr hdone hv =>
    rw [hdone] at hs
    cases hs
  | failed e hr hdone hv =>
    rw [hdone] at hs
    cases hs
    have hamong : values n d <+: wholeValues (received 0 c) := by
      rw [hv]
      exact List.prefix_refl _
    unfold asyncRead at ho
    rw [if_pos (show (some e).isSome = true ∨ 0 = 0 from Or.inl rfl)] at ho
    split_ifs at ho
    · cases ho
      exact hturn.fails _ hcbs hamong hr rfl
    · cases ho
      exact ⟨returns_ne_undefined, hturn.toDealt, hamong, Or.inr ⟨hr, rfl⟩⟩
  | received data hne hbuf hp hr hdone hv =>
    rw [hdone] at hs
    cases hs
    obtain ⟨peer, sent, taken, hl, -⟩ := hlisten.linked
    have hpos := List.length_pos_iff.mpr hne
    unfold asyncRead at ho
    rw [if_neg (by simp; omega)] at ho
    have htake : d.buf.take data.length = data := hbuf
    rw [htake] at ho
    exact readLoop_rests hbound data.length hcbs hturn hl hp hr rfl hv ho

end Reading

end RedisClient.Async.Turns

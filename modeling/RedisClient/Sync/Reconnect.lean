import RedisClient.Parser.Likeness
import RedisClient.Sync.Session

/-! # After a reconnect

`close` resets neither the receive buffer nor the parser, and no synchronous `connect` does. So what
a call returns on a new connection can depend on the old one. It does not if and only if, at the
`disconnect`, no bytes are left in the buffer and the parser is between two replies
(`reconnect_clean_iff`). In that case the client cannot be told from a new one (`Like`,
`session_like`): the parser's other members are never looked at. Otherwise a connection on which the
peer writes one integer reply tells them apart (`session_stale`): a new client returns the integer,
and the old one something left over, an error of the parser, or nothing. -/

namespace RedisClient.Sync.Reconnect

open RedisClient.Value RedisClient.Lib.Reader RedisClient.Parser.Defs RedisClient.Parser.Machine
open RedisClient.Parser.Refine RedisClient.Parser.RoundTrip RedisClient.Parser.Likeness
open RedisClient.Commands RedisClient.Peers
open RedisClient.Sync.Defs RedisClient.Sync.Io RedisClient.Sync.Session

/-! ### Runs and sessions -/

/-- A successful `connect` to an endpoint of either kind. -/
inductive Connects (peer : Peer) (c : RedisClientImpl) : RedisClientImpl → Prop
  | tcp {tcpNoDelay : Bool} {o : ConnectCalls} {c' : RedisClientImpl}
      (h : connectTcp tcpNoDelay o peer c = some (none, c')) : Connects peer c c'
  | unix {openSocket connect : ErrorCode} {c' : RedisClientImpl}
      (h : connectLocal openSocket connect peer c = (none, c')) : Connects peer c c'

/-- The clients that runs lead to. -/
inductive Reached : RedisClientImpl → Prop
  | new (errorHandler : String → Reaction) (peer : Peer) : Reached (newClient errorHandler peer)
  | installErrorHandler {c : RedisClientImpl} (errorHandler : String → Reaction) (h : Reached c) :
      Reached { c with errorHandler := errorHandler }
  | connectTcp {c c' : RedisClientImpl} {tcpNoDelay : Bool} {o : ConnectCalls} {peer : Peer}
      {ec : ErrorCode} (h : Reached c)
      (hc : Defs.connectTcp tcpNoDelay o peer c = some (ec, c')) : Reached c'
  | connectLocal {c c' : RedisClientImpl} {openSocket connect ec : ErrorCode} {peer : Peer}
      (h : Reached c) (hc : Defs.connectLocal openSocket connect peer c = (ec, c')) : Reached c'
  | call {c c' : RedisClientImpl} {req : Request} {ec : ErrorCode} {ts ts' : List Try} {r : Return}
      (h : Reached c) (hc : req.perform c ec ts = some (r, c', ts')) : Reached c'
  | disconnect {c : RedisClientImpl} (h : Reached c) : Reached (Defs.disconnect c)

/-- What the calls of a session return, up to one that does not. -/
def session : RedisClientImpl → List Call → List (Option Return)
  | _, [] => []
  | c, call :: calls =>
    match call.request.perform c call.ec call.tries with
    | none => [none]
    | some (r, c, _) => some r :: session c calls

theorem connects_eq {peer : Peer} {c c' : RedisClientImpl} (h : Connects peer c c') :
    c' = connected peer c := by
  cases h with
  | @tcp tcpNoDelay o _ h =>
    obtain ⟨ec, -, heq⟩ := Option.map_eq_some_iff.mp h
    cases ec with
    | none => cases heq; rfl
    | some e => cases heq
  | @unix openSocket connect _ h =>
    unfold connectLocal at h
    generalize (if openSocket = none then connect else openSocket) = ec at h
    dsimp only at h
    split_ifs at h with he
    · cases h
      rfl
    · exact absurd (congrArg Prod.fst h) he

/-! ### Clients that cannot be told apart -/

/-- The same client but for what no call looks at. -/
structure Like (c d : RedisClientImpl) : Prop where
  parser : Alike c.redisParser d.redisParser
  buf : c.buf = d.buf
  state : c.state = d.state
  errorHandler : c.errorHandler = d.errorHandler
  socket : c.socket = d.socket

/-- Calls that end alike. -/
def Agree : Option (Return × RedisClientImpl × List Try) →
    Option (Return × RedisClientImpl × List Try) → Prop
  | none, none => True
  | some (r, c, ts), some (r', d, ts') => r = r' ∧ ts = ts' ∧ Like c d
  | _, _ => False

theorem agree_bind {x y : Option (Return × RedisClientImpl × List Try)}
    {f : Return × RedisClientImpl × List Try → Option (Return × RedisClientImpl × List Try)}
    (h : Agree x y) (hf : ∀ r c d ts, Like c d → Agree (f (r, c, ts)) (f (r, d, ts))) :
    Agree (x.bind f) (y.bind f) := by
  rcases x with _ | ⟨r, c, ts⟩ <;> rcases y with _ | ⟨r', d, ts'⟩
  · trivial
  · exact False.elim h
  · exact False.elim h
  · obtain ⟨rfl, rfl, hl⟩ := h
    exact hf r c d ts hl

theorem callErrorHandler_like {c d : RedisClientImpl} (h : Like c d) (message : String) :
    (callErrorHandler message c).1 = (callErrorHandler message d).1 ∧
      Like (callErrorHandler message c).2 (callErrorHandler message d).2 := by
  unfold callErrorHandler
  rw [← h.errorHandler]
  rcases c.errorHandler message
  · exact ⟨rfl, h⟩
  · exact ⟨rfl, h⟩
  · refine ⟨rfl, h.parser, h.buf, rfl, h.errorHandler, ?_⟩
    simp [close, h.socket]

theorem parseBuffer_like {c d : RedisClientImpl} (h : Like c d) (ec : ErrorCode)
    (hb : c.buf ≠ []) : ∃ r c' d', parseBuffer ec c.buf.length 0 c = some (r, c') ∧
      parseBuffer ec d.buf.length 0 d = some (r, d') ∧ Like c' d' := by
  obtain ⟨k, r, p, q, hp, hq, ha, hk, hv⟩ := parse_alike h.parser hb
  rw [h.buf] at hq
  have hb' : d.buf ≠ [] := by rwa [← h.buf]
  have hk' : r = .incompleted → k = d.buf.length := by rwa [← h.buf]
  rw [parseBuffer_parse ec hb hp hk, parseBuffer_parse ec hb' hq hk']
  cases r with
  | completed =>
    have hq' : onParse ec d k q .completed = (some ⟨some (result p).1, ec, []⟩,
        (onParse ec d k q .completed).2) := by
      rw [hv rfl]
      rfl
    rw [hq']
    refine ⟨_, _, _, rfl, rfl, alike_result ha, ?_, h.state, h.errorHandler, h.socket⟩
    simp [onParse, h.buf]
  | incompleted => exact ⟨_, _, _, rfl, rfl, ha, rfl, h.state, h.errorHandler, h.socket⟩
  | error =>
    have hl : Like { c with redisParser := p, buf := c.buf.drop k }
        { d with redisParser := q, buf := d.buf.drop k } :=
      ⟨ha, by simp [h.buf], h.state, h.errorHandler, h.socket⟩
    obtain ⟨h1, h2⟩ := callErrorHandler_like hl parserError
    refine ⟨_, _, _, rfl, ?_, h2⟩
    simp [onParse, h1]

theorem readResponse_like : ∀ (fuel : ℕ) {c d : RedisClientImpl} (ec : ErrorCode) (ts : List Try),
    Like c d → Agree (readResponse fuel c ec ts) (readResponse fuel d ec ts)
  | 0, _, _, _, _, _ => trivial
  | fuel + 1, c, d, ec, ts, h => by
    -- the inner loop and what follows it
    have hinner : ∀ {c d : RedisClientImpl} (ec : ErrorCode) (ts : List Try) {k}, Like c d →
        c.buf ≠ [] → AfterParse fuel ec ts k →
        Agree ((parseBuffer ec c.buf.length 0 c).bind k)
          ((parseBuffer ec c.buf.length 0 d).bind k) := by
      intro c d ec ts k h hb hk
      obtain ⟨r, c', d', h1, h2, hl⟩ := parseBuffer_like h ec hb
      rw [← h.buf] at h2
      rw [h1, h2, Option.bind_some, Option.bind_some]
      cases r with
      | none =>
        rw [hk.again, hk.again]
        exact readResponse_like fuel ec ts hl
      | some r =>
        rw [hk.returns, hk.returns]
        exact ⟨rfl, rfl, hl⟩
    unfold readResponse
    rw [← h.buf, ← h.socket]
    split_ifs with hb
    · rcases hs : socketReadSome bufferSize c.socket ec ts with _ | ⟨data, ec1, s1, ts1⟩
      · trivial
      have hl : Like { c with buf := data, socket := s1 } { d with buf := data, socket := s1 } :=
        ⟨h.parser, rfl, h.state, h.errorHandler, rfl⟩
      rw [Option.bind_some, Option.bind_some]
      dsimp only
      split_ifs with he
      · exact ⟨rfl, rfl, hl⟩
      · refine hinner ec1 ts1 hl ?_ ⟨fun _ _ => rfl, fun _ => rfl⟩
        -- an open socket gives some bytes or an error
        unfold socketReadSome at hs
        split_ifs at hs
        · obtain ⟨used, -, ⟨-, hd, -⟩ | ⟨he', -⟩⟩ := readLoop_spec hs
          · exact hd
          · exact absurd he' he
        · cases hs
          exact absurd rfl he
    · exact hinner ec ts h hb ⟨fun _ _ => rfl, fun _ => rfl⟩

theorem syncReadResponse_like {c d : RedisClientImpl} (ec : ErrorCode) (ts : List Try)
    (h : Like c d) : Agree (syncReadResponse c ec ts) (syncReadResponse d ec ts) :=
  readResponse_like _ ec ts h

theorem readResponses_like : ∀ (n : ℕ) (responses : List RedisValue) (errors : List String)
    {c d : RedisClientImpl} (ec : ErrorCode) (ts : List Try), Like c d →
    Agree (readResponses n responses errors c ec ts) (readResponses n responses errors d ec ts)
  | 0, _, _, _, _, _, _, h => ⟨rfl, rfl, h⟩
  | n + 1, responses, errors, c, d, ec, ts, h => by
    unfold readResponses
    refine agree_bind (syncReadResponse_like ec ts h) fun r c d ts h => ?_
    dsimp only
    rcases r.value with _ | v
    · exact ⟨rfl, rfl, h⟩
    · dsimp only
      split_ifs
      · exact ⟨rfl, rfl, h⟩
      · exact readResponses_like n _ _ _ ts h

theorem like_socket {c d : RedisClientImpl} (h : Like c d) (s : Socket) :
    Like { c with socket := s } { d with socket := s } :=
  ⟨h.parser, h.buf, h.state, h.errorHandler, rfl⟩

/-- **A call on clients that are alike** returns the same. -/
theorem perform_like {c d : RedisClientImpl} (h : Like c d) (req : Request) (ec : ErrorCode)
    (ts : List Try) : Agree (req.perform c ec ts) (req.perform d ec ts) := by
  have hvalid : ∀ {x y : Option (Return × RedisClientImpl × List Try)}, Agree x y →
      Agree (ifStateValid c ec ts x) (ifStateValid d ec ts y) := by
    intro x y hxy
    unfold ifStateValid
    rw [← h.state]
    split_ifs
    · exact hxy
    · obtain ⟨h1, h2⟩ := callErrorHandler_like h (invalidState c.state)
      rcases hx : callErrorHandler (invalidState c.state) c with ⟨v, c'⟩
      rcases hy : callErrorHandler (invalidState c.state) d with ⟨w, d'⟩
      rw [hx, hy] at h1 h2
      simp only at h1
      subst h1
      exact ⟨rfl, rfl, h2⟩
  cases req with
  | command l =>
    refine hvalid ?_
    unfold doSyncCommand
    rw [← h.socket]
    rcases socketWrite c.socket (makeCommand (.string l.cmd :: l.args)) ec ts with
      _ | ⟨k, ec1, s1, ts1⟩
    · trivial
    · rw [Option.bind_some, Option.bind_some]
      dsimp only
      split_ifs
      · exact ⟨rfl, rfl, like_socket h s1⟩
      · exact syncReadResponse_like ec1 ts1 (like_socket h s1)
  | pipelined cs =>
    refine hvalid ?_
    unfold doSyncCommands
    rw [← h.socket]
    rcases socketWriteAll c.socket ((cs.map Command.items).map makeCommand) ec ts with
      _ | ⟨k, ec1, s1, ts1⟩
    · trivial
    · rw [Option.bind_some, Option.bind_some]
      dsimp only
      split_ifs
      · exact ⟨rfl, rfl, like_socket h s1⟩
      · exact readResponses_like _ _ _ ec1 ts1 (like_socket h s1)

/-- **Sessions on clients that are alike.** -/
theorem session_like : ∀ {calls : List Call} {c d : RedisClientImpl}, Like c d →
    session c calls = session d calls
  | [], _, _, _ => rfl
  | call :: calls, c, d, h => by
    have ha := perform_like h call.request call.ec call.tries
    unfold session
    rcases hx : call.request.perform c call.ec call.tries with _ | ⟨r, c', ts⟩ <;>
      rcases hy : call.request.perform d call.ec call.tries with _ | ⟨r', d', ts'⟩ <;>
      rw [hx, hy] at ha
    · exact False.elim ha
    · exact False.elim ha
    · obtain ⟨rfl, -, hl⟩ := ha
      exact congrArg (some r :: ·) (session_like hl)

/-! ### What calls keep -/

theorem redisParser_callErrorHandler (message : String) (c : RedisClientImpl) :
    (callErrorHandler message c).2.redisParser = c.redisParser := by
  unfold callErrorHandler
  rcases c.errorHandler message <;> rfl

theorem socketReadSome_isOpen {size : ℕ} {s s' : Socket} {ec ec' : ErrorCode} {data : Bytes}
    {ts ts' : List Try} (h : socketReadSome size s ec ts = some (data, ec', s', ts')) :
    s'.isOpen = s.isOpen := by
  unfold socketReadSome at h
  split_ifs at h
  · obtain ⟨used, -, ⟨-, -, -, rfl, -⟩ | ⟨-, -, rfl, -⟩⟩ := readLoop_spec h <;> rfl
  · cases h
    rfl

theorem socketWrite_isOpen {s s' : Socket} {buffer : Bytes} {ec ec' : ErrorCode} {k : ℕ}
    {ts ts' : List Try} (h : socketWrite s buffer ec ts = some (k, ec', s', ts')) :
    s'.isOpen = s.isOpen := by
  unfold socketWrite at h
  split_ifs at h
  · obtain ⟨used, data, left, -, -, rfl, -⟩ := writeLoop_spec h
    rfl
  · cases h
    rfl

theorem socketWriteAll_isOpen : ∀ {buffers : List Bytes} {s s' : Socket} {ec ec' : ErrorCode}
    {k : ℕ} {ts ts' : List Try}, socketWriteAll s buffers ec ts = some (k, ec', s', ts') →
    s'.isOpen = s.isOpen
  | [], s, s', ec, ec', k, ts, ts', h => by
    cases h
    rfl
  | buffer :: buffers, s, s', ec, ec', k, ts, ts', h => by
    obtain ⟨⟨k1, ec1, s1, ts1⟩, hw, hr⟩ := Option.bind_eq_some_iff.mp h
    have hopen := socketWrite_isOpen hw
    dsimp only at hr
    split_ifs at hr
    · cases hr
      exact hopen
    · obtain ⟨⟨j, r⟩, hrec, heq⟩ := Option.map_eq_some_iff.mp hr
      cases heq
      exact (socketWriteAll_isOpen hrec).trans hopen

/-- A property that everything a call does to the client keeps. -/
structure CallsKeep (I : RedisClientImpl → Prop) : Prop where
  parse {c : RedisClientImpl} {ptr : Bytes} {r : ℕ × ParseResult} {p : RedisParser} (buf : Bytes)
    (h : I c) (hne : ptr ≠ []) (hp : parse c.redisParser ptr = some (r, p)) :
    I { c with redisParser := p, buf := buf }
  result {c : RedisClientImpl} (replies : List RedisValue) (h : I c) :
    I { c with redisParser := (result c.redisParser).2, replies := replies }
  errorHandler {c : RedisClientImpl} (message : String) (h : I c) : I (callErrorHandler message c).2
  socket {c : RedisClientImpl} {s : Socket} (buf : Bytes) (h : I c)
    (hs : s.isOpen = c.socket.isOpen) : I { c with buf := buf, socket := s }

section CallsKeep

variable {I : RedisClientImpl → Prop} (hI : CallsKeep I)
include hI

theorem CallsKeep.parseBuffer {ec : ErrorCode} : ∀ {fuel pos : ℕ} {c c' : RedisClientImpl}
    {r : Option Return}, I c → parseBuffer ec fuel pos c = some (r, c') → I c'
  | 0, pos, c, c', r, hc, h => by
    unfold Defs.parseBuffer at h
    split_ifs at h
    cases h
    exact hc
  | fuel + 1, pos, c, c', r, hc, h => by
    unfold Defs.parseBuffer at h
    split_ifs at h with hpos
    · have hne : c.buf.drop pos ≠ [] := by
        intro h0
        have := List.drop_eq_nil_iff.mp h0
        omega
      rcases hp : Parser.Defs.parse c.redisParser (c.buf.drop pos) with _ | ⟨⟨k, o⟩, p⟩ <;>
        rw [hp] at h
      · cases h
      have hr := hI.parse (c.buf.drop (pos + k)) hc hne hp
      cases o with
      | completed =>
        cases h
        exact hI.result _ hr
      | incompleted => exact CallsKeep.parseBuffer hr h
      | error =>
        cases h
        exact hI.errorHandler parserError hr
    · cases h
      exact hc

theorem CallsKeep.readResponse : ∀ {fuel : ℕ} {c c' : RedisClientImpl} {ec : ErrorCode}
    {ts ts' : List Try} {r : Return}, I c → readResponse fuel c ec ts = some (r, c', ts') → I c'
  | 0, _, _, _, _, _, _, _, h => by cases h
  | fuel + 1, c, c', ec, ts, ts', r, hc, h => by
    have hinner : ∀ {c : RedisClientImpl} {ec : ErrorCode} {ts : List Try} {k}, I c →
        AfterParse fuel ec ts k →
        (Defs.parseBuffer ec c.buf.length 0 c).bind k = some (r, c', ts') → I c' := by
      intro c ec ts k hc hk h
      obtain ⟨⟨o, c1⟩, h1, h2⟩ := Option.bind_eq_some_iff.mp h
      have hr := hI.parseBuffer hc h1
      cases o with
      | none =>
        rw [hk.again] at h2
        exact CallsKeep.readResponse hr h2
      | some r1 =>
        rw [hk.returns] at h2
        cases h2
        exact hr
    unfold Defs.readResponse at h
    split_ifs at h with hb
    · obtain ⟨⟨data, ec1, s1, ts1⟩, h1, h2⟩ := Option.bind_eq_some_iff.mp h
      have hc1 := hI.socket data hc (socketReadSome_isOpen h1)
      dsimp only at h2
      split_ifs at h2
      · cases h2
        exact hc1
      · exact hinner hc1 ⟨fun _ _ => rfl, fun _ => rfl⟩ h2
    · exact hinner hc ⟨fun _ _ => rfl, fun _ => rfl⟩ h

theorem CallsKeep.readResponses : ∀ {n : ℕ} {responses : List RedisValue} {errors : List String}
    {c c' : RedisClientImpl} {ec : ErrorCode} {ts ts' : List Try} {r : Return}, I c →
    readResponses n responses errors c ec ts = some (r, c', ts') → I c'
  | 0, _, _, _, _, _, _, _, _, hc, h => by
    cases h
    exact hc
  | n + 1, responses, errors, c, c', ec, ts, ts', r, hc, h => by
    obtain ⟨⟨r1, c1, ts1⟩, h1, h2⟩ := Option.bind_eq_some_iff.mp h
    have hr := hI.readResponse hc h1
    dsimp only at h2
    rcases hv : r1.value with _ | v <;> rw [hv] at h2
    · cases h2
      exact hr
    · dsimp only at h2
      split_ifs at h2
      · cases h2
        exact hr
      · exact CallsKeep.readResponses hr h2

/-- **A call keeps the property.** -/
theorem CallsKeep.perform {c c' : RedisClientImpl} {req : Request} {ec : ErrorCode}
    {ts ts' : List Try} {r : Return} (hc : I c) (h : req.perform c ec ts = some (r, c', ts')) :
    I c' := by
  have hvalid : ∀ {x : Option (Return × RedisClientImpl × List Try)},
      ifStateValid c ec ts x = some (r, c', ts') → (x = some (r, c', ts') → I c') → I c' := by
    intro x hx hbody
    unfold ifStateValid at hx
    split_ifs at hx
    · exact hbody hx
    · cases hx
      exact hI.errorHandler _ hc
  cases req with
  | command l =>
    refine hvalid h fun hx => ?_
    obtain ⟨⟨k, ec1, s1, ts1⟩, h1, h2⟩ := Option.bind_eq_some_iff.mp hx
    have hc1 := hI.socket c.buf hc (socketWrite_isOpen h1)
    dsimp only at h2
    split_ifs at h2
    · cases h2
      exact hc1
    · exact hI.readResponse hc1 h2
  | pipelined cs =>
    refine hvalid h fun hx => ?_
    obtain ⟨⟨k, ec1, s1, ts1⟩, h1, h2⟩ := Option.bind_eq_some_iff.mp hx
    have hc1 := hI.socket c.buf hc (socketWriteAll_isOpen h1)
    dsimp only at h2
    split_ifs at h2
    · cases h2
      exact hc1
    · exact hI.readResponses hc1 h2

end CallsKeep

/-- **A property of clients that runs lead to**: new clients have it, and it outlives the connection,
the calls and the error handler. -/
theorem reached_invariant {I : RedisClientImpl → Prop} (hI : CallsKeep I)
    (hnew : ∀ errorHandler peer, I (newClient errorHandler peer))
    (hhandler : ∀ {c : RedisClientImpl} (errorHandler : String → Reaction), I c →
      I { c with errorHandler := errorHandler })
    (hconnected : ∀ {c : RedisClientImpl} (peer : Peer), I c → I (connected peer c))
    (hclose : ∀ {c : RedisClientImpl}, I c → I (close c)) {c : RedisClientImpl} (h : Reached c) :
    I c := by
  induction h with
  | new errorHandler peer => exact hnew errorHandler peer
  | installErrorHandler errorHandler _ ih => exact hhandler errorHandler ih
  | connectTcp _ hc ih =>
    obtain ⟨e, -, heq⟩ := Option.map_eq_some_iff.mp hc
    cases e with
    | none =>
      cases heq
      exact hconnected _ ih
    | some e =>
      cases heq
      exact ih
  | @connectLocal c c' openSocket connect ec peer _ hc ih =>
    unfold Defs.connectLocal at hc
    generalize (if openSocket = none then connect else openSocket) = e at hc
    dsimp only at hc
    split_ifs at hc
    · cases hc
      exact hconnected peer ih
    · cases hc
      exact ih
  | call _ hc ih => exact hI.perform ih hc
  | disconnect _ ih => exact hclose ih

/-- **The parser of a client** is one that calls on nonempty chunks lead to. -/
theorem parser_reachable {c : RedisClientImpl} (h : Reached c) : Reachable c.redisParser := by
  have hI : CallsKeep fun c => Reachable c.redisParser :=
    { parse := fun _ hc hne hp => .parse hc hne hp
      result := fun _ hc => .result hc
      errorHandler := fun message hc => by rwa [redisParser_callErrorHandler]
      socket := fun _ hc _ => hc }
  exact reached_invariant hI (fun _ _ => .fresh) (fun _ hc => hc) (fun _ hc => hc) (fun hc => hc) h

/-! ### Telling clients apart -/

/-- A peer that has written these bytes, whatever it is sent. -/
def speaking (bs : Bytes) : Peer := ⟨fun _ => bs, fun _ _ => List.prefix_refl _⟩

/-- The reply `:0` or `:1`. -/
def bit (b : Bool) : Reply := ⟨.int (if b then 1 else 0), wf_bit b⟩

/-- A command, a read of all there is, and a timeout. -/
def probe : Call := ⟨.command lineA, none, [.moved 99, .moved 99, .zero]⟩

/-- The call returns the integer. -/
def Answered (b : Bool) : Option (Return × RedisClientImpl × List Try) → Prop
  | some (r, _) => r = ⟨some (bit b).value, none, []⟩
  | none => False

theorem perform_probe {c : RedisClientImpl} (hst : c.state = .connected)
    (ho : c.socket.isOpen = true) : probe.request.perform c probe.ec probe.tries =
      syncReadResponse { c with socket := c.socket.send lineA.command.enc } none
        [.moved 99, .zero] := by
  have henc : makeCommand (.string lineA.cmd :: lineA.args) = lineA.command.enc := rfl
  have hlen : lineA.command.enc.length = 11 := by decide +kernel
  have hne : lineA.command.enc ≠ [] := enc_ne_nil _
  simp only [probe, Request.perform, Defs.command, ifStateValid, hst, if_true, doSyncCommand, henc,
    socketWrite_open ho, writeLoop, if_neg hne]
  rw [List.take_of_length_le (by omega), List.drop_of_length_le (by omega)]
  simp

/-- A read of all there is, and the inner loop on it. -/
theorem readResponse_probe {c : RedisClientImpl} (hb : c.buf = []) (ho : c.socket.isOpen = true)
    {b : Bool} (hu : c.socket.unread = (bit b).enc) (fuel : ℕ) :
    readResponse (fuel + 1) c none [.moved 99, .zero] =
      (parseBuffer none (bit b).enc.length 0
        { c with buf := (bit b).enc, socket := c.socket.recv (bit b).enc.length }).bind fun
          | (some r, c) => some (r, c, [.zero])
          | (none, c) => readResponse fuel c none [.zero] := by
  have hlen : (bit b).enc.length = 4 := by cases b <;> decide +kernel
  have hne : (bit b).enc ≠ [] := by
    intro h
    rw [h] at hlen
    cases hlen
  rw [readResponse, if_pos hb, socketReadSome, if_pos ho]
  simp only [readLoop, hu]
  rw [List.take_of_length_le (by rw [hlen]; decide), if_neg hne]
  rfl

/-- A client between two replies with nothing in its buffer returns the integer. -/
theorem probe_clean {c : RedisClientImpl} (hb : c.buf = []) (hi : Idle c.redisParser)
    (hst : c.state = .connected) (ho : c.socket.isOpen = true) {b : Bool}
    (hu : (c.socket.send lineA.command.enc).unread = (bit b).enc) :
    Answered b (probe.request.perform c probe.ec probe.tries) := by
  rw [perform_probe hst ho, syncReadResponse,
    readResponse_probe (c := { c with socket := c.socket.send lineA.command.enc }) hb ho hu]
  obtain ⟨p, hp, hpi, hv⟩ := parse_enc hi (bit b) []
  rw [List.append_nil] at hp
  have hne : (bit b).enc ≠ [] := by cases b <;> decide +kernel
  set c1 : RedisClientImpl := { c with buf := (bit b).enc, socket := _ } with hc1
  have hloop := parseBuffer_parse (c := c1) none hne hp (by simp)
  rw [show c1.buf.length = (bit b).enc.length from rfl] at hloop
  rw [hloop, Option.bind_some]
  simp only [onParse, Answered, hv]

/-- After a read that leaves the reply unfinished there is only the timeout. -/
theorem readResponse_timeout {c : RedisClientImpl} (hb : c.buf = []) (ho : c.socket.isOpen = true)
    (fuel : ℕ) (b : Bool) : ¬ Answered b (readResponse fuel c none [.zero]) := by
  cases fuel with
  | zero => exact id
  | succ fuel =>
    rw [readResponse, if_pos hb, socketReadSome, if_pos ho]
    simp [readLoop, Answered]

/-- A client in the middle of a reply with nothing in its buffer does not return the integer. -/
theorem readResponse_mid {c : RedisClientImpl} (hr : Reachable c.redisParser)
    (hi : ¬ Idle c.redisParser) (hb : c.buf = []) (ho : c.socket.isOpen = true) {b : Bool}
    (hu : c.socket.unread = (bit b).enc) (fuel : ℕ) :
    ¬ Answered b (readResponse fuel c none [.moved 99, .zero]) := by
  cases fuel with
  | zero => exact id
  | succ fuel =>
    rw [readResponse_probe hb ho hu]
    obtain ⟨cfg, hrep, hok, hmid⟩ := mid_of_not_idle hr hi
    have hne : (bit b).enc ≠ [] := by cases b <;> decide +kernel
    have hp := parse_rep hrep hok hne
    set c1 : RedisClientImpl := { c with buf := (bit b).enc, socket := _ } with hc1
    rcases hx : run step cfg (bit b).enc with ⟨v, cfg1, rest⟩
    rw [hx] at hp
    have hk : resultOf v = .incompleted → (bit b).enc.length - rest.length = (bit b).enc.length := by
      intro hv
      cases v with
      | more => rw [rest_of_more hx]; rfl
      | done => cases hv
      | fail => cases hv
    have hloop := parseBuffer_parse (c := c1) none hne hp hk
    rw [show c1.buf.length = (bit b).enc.length from rfl] at hloop
    rw [hloop, Option.bind_some]
    cases v with
    | more =>
      exact readResponse_timeout (c := { c1 with redisParser := after .more cfg1, buf := [] }) rfl ho
        fuel b
    | done =>
      have hint := mid_integer (s := intText (if b then 1 else 0) ++ [CR, LF]) hmid hx
      intro ha
      simp only [onParse, resultOf, Answered, Return.mk.injEq, Option.some.injEq] at ha
      exact hint _ ha.1
    | fail => simp [onParse, resultOf, Answered]

/-- The client after a reconnect to a peer that has written `:0` or `:1`. -/
def facing (c : RedisClientImpl) (b : Bool) : RedisClientImpl :=
  connected (speaking (bit b).enc) (Defs.disconnect c)

/-- The same, when the command of the probe has been sent. -/
def ready (c : RedisClientImpl) (b : Bool) : RedisClientImpl :=
  { facing c b with socket := (facing c b).socket.send lineA.command.enc }

theorem perform_ready (c : RedisClientImpl) (b : Bool) :
    probe.request.perform (facing c b) probe.ec probe.tries =
      readResponse 4 (ready c b) none [.moved 99, .zero] := by
  rw [perform_probe rfl rfl]
  rfl

/-- A client with bytes in its buffer, or in the middle of a reply, fails to return one of the two
integers. -/
theorem probe_stale {c : RedisClientImpl} (hr : Reachable c.redisParser)
    (hstale : ¬ (c.buf = [] ∧ Idle c.redisParser)) :
    ∃ b, ¬ Answered b (probe.request.perform (facing c b) probe.ec probe.tries) := by
  by_cases hb : c.buf = []
  · refine ⟨false, ?_⟩
    rw [perform_ready]
    exact readResponse_mid (c := ready c false) hr (fun hi => hstale ⟨hb, hi⟩) hb rfl rfl 4
  · obtain ⟨cfg, hrep, hok, -⟩ := rep_mid hr
    have hp := parse_rep hrep hok hb
    rcases hx : run step cfg c.buf with ⟨v, cfg1, rest⟩
    rw [hx] at hp
    have hk : resultOf v = .incompleted → c.buf.length - rest.length = c.buf.length := by
      intro hv
      cases v with
      | more => rw [rest_of_more hx]; rfl
      | done => cases hv
      | fail => cases hv
    -- the inner loop runs on the old bytes, before any read
    have hloop : ∀ b, probe.request.perform (facing c b) probe.ec probe.tries =
        match onParse none (ready c b) (c.buf.length - rest.length) (after v cfg1) (resultOf v) with
        | (some r, c) => some (r, c, [.moved 99, .zero])
        | (none, c) => readResponse 3 c none [.moved 99, .zero] := by
      intro b
      rw [perform_ready, readResponse, if_neg (show (ready c b).buf ≠ [] from hb)]
      rw [parseBuffer_parse (c := ready c b) none hb hp hk]
      rfl
    cases v with
    | more =>
      refine ⟨false, ?_⟩
      rw [hloop]
      refine readResponse_mid (c := { ready c false with redisParser := after .more cfg1, buf := [] })
        (.parse hr hb hp) ?_ rfl rfl rfl 3
      simp [Idle, after, toParser]
    | done =>
      obtain ⟨b, hne⟩ : ∃ b, (bit b).value ≠ cfg1.redisValue := by
        by_cases h0 : (bit false).value = cfg1.redisValue
        · refine ⟨true, ?_⟩
          rw [← h0]
          decide
        · exact ⟨false, h0⟩
      refine ⟨b, ?_⟩
      rw [hloop]
      intro ha
      simp only [onParse, resultOf, Answered, Return.mk.injEq, Option.some.injEq] at ha
      exact hne ha.1.symm
    | fail =>
      refine ⟨false, ?_⟩
      rw [hloop]
      simp [onParse, resultOf, Answered]

/-! ### Reconnecting -/

theorem connects_connected (peer : Peer) (c : RedisClientImpl) :
    Connects peer c (connected peer c) := by
  have h : connectLocal none none peer c = (none, connected peer c) := rfl
  exact .unix h

/-- **A reconnect starts clean if and only if nothing is left over**: whatever the peer writes and
whatever is called, the new connection shows nothing of the old one exactly if at the `disconnect`
the buffer was empty and the parser between two replies. -/
theorem reconnect_clean_iff {c : RedisClientImpl} (h : Reached c) :
    (∀ (peer : Peer) (c₁ c₂ : RedisClientImpl) (calls : List Call),
      Connects peer (Defs.disconnect c) c₁ → Connects peer (newClient c.errorHandler peer) c₂ →
      session c₁ calls = session c₂ calls) ↔ c.buf = [] ∧ Idle c.redisParser := by
  constructor
  · intro hclean
    by_contra hstale
    obtain ⟨b, hold⟩ := probe_stale (parser_reachable h) hstale
    have heq := hclean (speaking (bit b).enc) (facing c b) _ [probe] (connects_connected _ _)
      (connects_connected _ _)
    have hnew : Answered b (probe.request.perform
        (connected (speaking (bit b).enc) (newClient c.errorHandler (speaking (bit b).enc))) probe.ec
        probe.tries) := probe_clean rfl ⟨rfl, rfl, rfl⟩ rfl rfl rfl
    simp only [session] at heq
    rcases hx : probe.request.perform
        (connected (speaking (bit b).enc) (newClient c.errorHandler (speaking (bit b).enc))) probe.ec
        probe.tries with _ | ⟨r, c', ts⟩ <;> rw [hx] at hnew heq
    · exact hnew
    rcases hy : probe.request.perform (facing c b) probe.ec probe.tries with _ | ⟨r', d', ts'⟩ <;>
      rw [hy] at hold heq
    · simp at heq
    · simp only [List.cons.injEq, Option.some.injEq, and_true] at heq
      subst heq
      exact hold hnew
  · rintro ⟨hb, hi⟩ peer c₁ c₂ calls h₁ h₂
    rw [connects_eq h₁, connects_eq h₂]
    exact session_like ⟨alike_of_idle hi ⟨rfl, rfl, rfl⟩, hb, rfl, rfl, rfl⟩

/-! ### A reply cut off by a timeout -/

/-- A new client, connected to a peer that has written `$5 CR LF hello CR LF`. -/
def greeted : RedisClientImpl :=
  connected (speaking [36, 53, 13, 10, 104, 101, 108, 108, 111, 13, 10])
    (newClient (fun _ => .throws) (speaking []))

/-- A command whose reply is read up to `he`. -/
def cutOff : Call := ⟨.command lineA, none, [.moved 99, .moved 5, .zero]⟩

/-- A peer that has written `+OK CR LF`. -/
def okPeer : Peer := speaking [43, 79, 75, 13, 10]

theorem reached_greeted : Reached greeted :=
  .connectLocal (.new (fun _ => .throws) (speaking []))
    (show connectLocal none none _ _ = (none, greeted) from rfl)

/-- After the reply `hello` has been read the next connection is clean. -/
theorem reconnect_clean_read : ∃ c, Reached c ∧ c.replies = [.bytes [104, 101, 108, 108, 111] false] ∧
    ∀ (peer : Peer) (c₁ c₂ : RedisClientImpl) (calls : List Call),
      Connects peer (Defs.disconnect c) c₁ → Connects peer (newClient c.errorHandler peer) c₂ →
      session c₁ calls = session c₂ calls := by
  have hrun : ((Request.command lineA).perform greeted none [.moved 99, .moved 99]).map (fun r =>
      (r.2.1.replies, decide (r.2.1.buf = [] ∧ Idle r.2.1.redisParser))) =
      some ([.bytes [104, 101, 108, 108, 111] false], true) := by decide +kernel
  obtain ⟨⟨r, c, ts⟩, h, heq⟩ := Option.map_eq_some_iff.mp hrun
  simp only [Prod.mk.injEq, decide_eq_true_eq] at heq
  have hc := Reached.call reached_greeted h
  exact ⟨c, hc, heq.1, (reconnect_clean_iff hc).mpr heq.2⟩

/-- After a timeout inside `hello` and a reconnect, the reply `+OK` is read as the string `he+OK`. -/
theorem reconnect_stale : ∃ c c₁ c₂, Reached c ∧ Connects okPeer (Defs.disconnect c) c₁ ∧
    Connects okPeer (newClient c.errorHandler okPeer) c₂ ∧
    session c₁ [⟨.command lineA, none, [.moved 99, .moved 99]⟩] =
      [some ⟨some (.bytes [104, 101, 43, 79, 75] false), none, []⟩] ∧
    session c₂ [⟨.command lineA, none, [.moved 99, .moved 99]⟩] =
      [some ⟨some (.bytes [79, 75] false), none, []⟩] := by
  have hrun : (cutOff.request.perform greeted cutOff.ec cutOff.tries).map (fun r =>
      (session (connected okPeer (Defs.disconnect r.2.1))
          [⟨.command lineA, none, [.moved 99, .moved 99]⟩],
        session (connected okPeer (newClient r.2.1.errorHandler okPeer))
          [⟨.command lineA, none, [.moved 99, .moved 99]⟩])) =
      some ([some ⟨some (.bytes [104, 101, 43, 79, 75] false), none, []⟩],
        [some ⟨some (.bytes [79, 75] false), none, []⟩]) := by decide +kernel
  obtain ⟨⟨r, c, ts⟩, h, heq⟩ := Option.map_eq_some_iff.mp hrun
  simp only [Prod.mk.injEq] at heq
  exact ⟨c, _, _, .call reached_greeted h, connects_connected _ _, connects_connected _ _, heq.1, heq.2⟩

end RedisClient.Sync.Reconnect

import RedisClient.Lib.Programs
import RedisClient.Sync.Pipelining

/-! # Programs with the calls that throw

The overloads without an error code throw what the others return in theirs, and unless another error
handler is installed, what it would be told is thrown too. So a program that does not catch these
exceptions stops at the first failure.

Such a program cannot tell the client, the network and the server from the server itself: it is given
the answers that the server would give it, one after the other, until a system call fails
(`program_served`); and all of them if none fails and enough bytes move (`program_ends`). -/

namespace RedisClient.Sync.Programs

open RedisClient.Value RedisClient.Parser.Defs RedisClient.Parser.RoundTrip RedisClient.Commands
open RedisClient.Peers RedisClient.Peers.Server RedisClient.Lib.Programs
open RedisClient.Sync.Defs RedisClient.Sync.Io RedisClient.Sync.Session RedisClient.Sync.Pipelining

/-! ### Exceptions -/

/-- `RedisClientImpl::defaulErrorHandler`. -/
def defaulErrorHandler : String → Reaction := fun _ => .throws

/-- What a call throws: `boost::system::system_error`, or the `std::runtime_error` of the default error
handler. -/
inductive Thrown where
  | systemError (e : SysError)
  | runtimeError (message : String)
  deriving DecidableEq

/-- `throwIfError`, after a call that is given a clear error code and may itself throw. -/
def throwIfError (r : Return) : Except Thrown RedisValue :=
  match r.value, r.ec with
  | none, _ => .error (.runtimeError (r.errors.getLastD ""))
  | some _, some e => .error (.systemError e)
  | some v, none => .ok v

/-- A call of an overload without an error code. -/
abbrev Throwing :=
  RedisClientImpl × List Try → Option (Except Thrown RedisValue × RedisClientImpl × List Try)

/-- `RedisSyncClient::command` without an error code. -/
def command (cmd : Bytes) (args : List RedisBuffer) : Throwing := fun (c, ts) =>
  (Defs.command cmd args c none ts).map fun (r, out) => (throwIfError r, out)

/-- `RedisSyncClient::pipelined` without an error code. -/
def pipelined (commands : List (List RedisBuffer)) : Throwing := fun (c, ts) =>
  (Defs.pipelined commands c none ts).map fun (r, out) => (throwIfError r, out)

/-- `Pipeline::finish` without an error code. -/
def finish (pipe : Pipeline) : Throwing := pipelined pipe.commands

/-- `RedisSyncClient::connect` to a TCP endpoint, without an error code. -/
def connectTcp (tcpNoDelay : Bool) (o : ConnectCalls) (peer : Peer) (c : RedisClientImpl) :
    Option (Option Thrown × RedisClientImpl) :=
  (Defs.connectTcp tcpNoDelay o peer c).map fun (ec, c) => (ec.map .systemError, c)

/-- `RedisSyncClient::connect` to a local endpoint, without an error code. -/
def connectLocal (openSocket connect : ErrorCode) (peer : Peer) (c : RedisClientImpl) :
    Option Thrown × RedisClientImpl :=
  let (ec, c) := Defs.connectLocal openSocket connect peer c
  (ec.map .systemError, c)

/-- The call of a request. -/
def call : Request → Throwing
  | .command l => command l.cmd l.args
  | .pipelined cs => pipelined (cs.map Command.items)

theorem call_eq (req : Request) (c : RedisClientImpl) (ts : List Try) :
    call req (c, ts) = (req.perform c none ts).map fun (r, out) => (throwIfError r, out) := by
  cases req <;> rfl

/-! ### What is thrown -/

/-- The loop over the buffer does not touch the error code. -/
theorem parseBuffer_ec {ec : ErrorCode} : ∀ {fuel pos : ℕ} {c c' : RedisClientImpl} {r : Return},
    parseBuffer ec fuel pos c = some (some r, c') → r.ec = ec
  | 0, pos, c, c', r, h => by
    unfold parseBuffer at h
    split_ifs at h
    cases h
  | fuel + 1, pos, c, c', r, h => by
    unfold parseBuffer at h
    split_ifs at h
    · rcases hp : parse c.redisParser (c.buf.drop pos) with _ | ⟨⟨k, _ | _ | _⟩, p⟩ <;> rw [hp] at h
      · cases h
      · cases h
        rfl
      · exact parseBuffer_ec h
      · cases h
        rfl
    · cases h

/-- With an error of the system nothing has been thrown. -/
theorem readResponse_value : ∀ {fuel : ℕ} {c c' : RedisClientImpl} {ts ts' : List Try} {r : Return},
    readResponse fuel c none ts = some (r, c', ts') → r.ec.isSome → r.value = some noValue
  | 0, _, _, _, _, _, h, _ => by cases h
  | fuel + 1, c, c', ts, ts', r, h, he => by
    have hinner : ∀ {c : RedisClientImpl} {ec : ErrorCode} {ts : List Try} {k}, ec = none →
        AfterParse fuel ec ts k →
        (parseBuffer ec c.buf.length 0 c).bind k = some (r, c', ts') → r.value = some noValue := by
      intro c ec ts k hec hk h
      obtain ⟨⟨o, c1⟩, h1, h2⟩ := Option.bind_eq_some_iff.mp h
      cases o with
      | none =>
        rw [hk.again, hec] at h2
        exact readResponse_value h2 he
      | some r1 =>
        rw [hk.returns] at h2
        cases h2
        rw [parseBuffer_ec h1, hec] at he
        cases he
    unfold readResponse at h
    split_ifs at h with hb
    · obtain ⟨⟨data, ec1, s1, ts1⟩, h1, h2⟩ := Option.bind_eq_some_iff.mp h
      dsimp only at h2
      split_ifs at h2 with hec
      · cases h2
        rfl
      · exact hinner (c := { c with buf := data, socket := s1 }) (by simpa using hec)
          ⟨fun _ _ => rfl, fun _ => rfl⟩ h2
    · exact hinner rfl ⟨fun _ _ => rfl, fun _ => rfl⟩ h

theorem readResponses_value : ∀ {n : ℕ} {responses : List RedisValue} {errors : List String}
    {c c' : RedisClientImpl} {ts ts' : List Try} {r : Return},
    readResponses n responses errors c none ts = some (r, c', ts') → r.ec.isSome →
      r.value = some noValue
  | 0, _, _, _, _, _, _, _, h, he => by
    cases h
    cases he
  | n + 1, responses, errors, c, c', ts, ts', r, h, he => by
    obtain ⟨⟨r1, c1, ts1⟩, h1, h2⟩ := Option.bind_eq_some_iff.mp h
    dsimp only at h2
    rcases hv : r1.value with _ | v <;> rw [hv] at h2
    · cases h2
      have hsome := readResponse_value h1 he
      rw [hv] at hsome
      cases hsome
    · dsimp only at h2
      split_ifs at h2 with hec
      · cases h2
        rfl
      · have hnone : r1.ec = none := by simpa using hec
        rw [hnone] at h2
        exact readResponses_value h2 he

/-- **A call that is given a clear error code** and sets it returns, and the value says nothing. -/
theorem perform_value {req : Request} {c c' : RedisClientImpl} {ts ts' : List Try} {r : Return}
    (h : req.perform c none ts = some (r, c', ts')) (he : r.ec.isSome) : r.value = some noValue := by
  have hvalid : ∀ {x : Option (Return × RedisClientImpl × List Try)},
      ifStateValid c none ts x = some (r, c', ts') → (x = some (r, c', ts') → r.value = some noValue) →
      r.value = some noValue := by
    intro x hx hbody
    unfold ifStateValid at hx
    split_ifs at hx
    · exact hbody hx
    · cases hx
      cases he
  cases req with
  | command l =>
    refine hvalid h fun hx => ?_
    obtain ⟨⟨k, ec1, s1, ts1⟩, h1, h2⟩ := Option.bind_eq_some_iff.mp hx
    dsimp only at h2
    split_ifs at h2 with hec
    · cases h2
      rfl
    · have hnone : ec1 = none := by simpa using hec
      rw [hnone] at h2
      exact readResponse_value h2 he
  | pipelined cs =>
    refine hvalid h fun hx => ?_
    obtain ⟨⟨k, ec1, s1, ts1⟩, h1, h2⟩ := Option.bind_eq_some_iff.mp hx
    dsimp only at h2
    split_ifs at h2 with hec
    · cases h2
      rfl
    · have hnone : ec1 = none := by simpa using hec
      rw [hnone] at h2
      exact readResponses_value h2 he

/-! ### The server as a service -/

variable {σ : Type} {srv : Server σ} {s0 : σ}

/-- The server itself answers a request. -/
def onServer (srv : Server σ) (req : Request) (s : σ) : RedisValue × σ :=
  (req.answer srv s, srv.after s (req.commands.map Command.contents))

theorem onServer_state (done : List Command) (req : Request) :
    (onServer srv req (stateAfter srv s0 done)).2 = stateAfter srv s0 (done ++ req.commands) := by
  simp [onServer, stateAfter, Server.after]

/-- The client is in step with a server in the state `s`, and none of the tries so far has failed. -/
def Serving (srv : Server σ) (s0 : σ) (tries : List Try) (s : σ) (x : RedisClientImpl × List Try) :
    Prop :=
  ∃ done used, s = stateAfter srv s0 done ∧ Synced srv s0 done x.1 ∧ tries = used ++ x.2 ∧ AllFine used

/-- An error of the system has been thrown, and a try has failed. -/
def Stopped (tries : List Try) (e : Thrown) (x : RedisClientImpl × List Try) : Prop :=
  (∃ err, e = .systemError err) ∧ ∃ used, tries = used ++ x.2 ∧ ¬ AllFine used

/-- **A call** returns the answer of the server, or an error of the system is thrown. -/
theorem call_serves {tries : List Try} {req : Request} {s : σ} {x : RedisClientImpl × List Try}
    {r : Except Thrown RedisValue × RedisClientImpl × List Try} (hx : Serving srv s0 tries s x)
    (h : call req x = some r) : Simulates (Serving srv s0 tries) (Stopped tries)
      (onServer srv req s).1 (onServer srv req s).2 r := by
  rcases x with ⟨c, ts⟩
  obtain ⟨done, used, rfl, hc, htries, hf⟩ := hx
  change tries = used ++ ts at htries
  rw [call_eq] at h
  obtain ⟨⟨ret, c', ts'⟩, hperform, rfl⟩ := Option.map_eq_some_iff.mp h
  have he := perform_synced hc req none ts
  rw [hperform] at he
  -- the system has set the code: nothing else has been thrown
  have hstopped : ∀ {used1 : List Try}, ts = used1 ++ ts' → ret.ec.isSome = true →
      (none : ErrorCode).isSome = true ∨ ¬ AllFine used1 → Simulates (Serving srv s0 tries) (Stopped tries)
        (onServer srv req (stateAfter srv s0 done)).1 (onServer srv req (stateAfter srv s0 done)).2
        (throwIfError ret, c', ts') := by
    intro used1 hts hr hn
    obtain ⟨err, herr⟩ := Option.isSome_iff_exists.mp hr
    have hthrow : throwIfError ret = .error (.systemError err) := by
      unfold throwIfError
      rw [perform_value hperform hr, herr]
    rw [hthrow]
    refine ⟨⟨err, rfl⟩, used ++ used1, ?_, fun hall => ?_⟩
    · show tries = used ++ used1 ++ ts'
      rw [htries, hts, List.append_assoc]
    · rcases hn with hn | hn
      · cases hn
      · exact hn (allFine_append.mp hall).2
  cases he with
  | answered hts hec hf' hm hs =>
    refine ⟨rfl, done ++ req.commands, used ++ _, onServer_state done req, hs, ?_,
      allFine_append.mpr ⟨hf, hf'⟩⟩
    rw [htries, hts, List.append_assoc]
  | untouched hts hr hm hn => exact hstopped hts hr hn
  | broken hts hr hcs hm hn hout => exact hstopped hts hr hn

/-! ### Programs -/

/-- A new client with its default error handler. -/
def newThrowing (peer : Peer) : RedisClientImpl := newClient defaulErrorHandler peer

theorem serving_opened (ts : List Try) :
    Serving srv s0 ts s0 (connected (srv.peer s0) (newThrowing (srv.peer s0)), ts) :=
  ⟨[], [], rfl, synced_opened defaulErrorHandler, rfl, allFine_nil⟩

theorem connectTcp_opened {tcpNoDelay : Bool} {o : ConnectCalls} {peer : Peer}
    {c : RedisClientImpl} (h : connectTcp tcpNoDelay o peer (newThrowing peer) = some (none, c)) :
    c = connected peer (newThrowing peer) := by
  obtain ⟨⟨ec, c1⟩, h1, heq⟩ := Option.map_eq_some_iff.mp h
  obtain ⟨hec, rfl⟩ := Prod.mk.inj heq
  obtain ⟨e, -, heq1⟩ := Option.map_eq_some_iff.mp h1
  cases e with
  | none =>
    cases heq1
    rfl
  | some e =>
    cases heq1
    cases hec

/-- **A program is served**: on a new connection, what it is returned are the answers that it would
have from the server itself. It is stopped before the end only by an error of the system, and then a
try has failed; a program that is not stopped leaves the client in step, with a server that has seen
its commands and no others. -/
theorem program_served {tcpNoDelay : Bool} {o : ConnectCalls} {c c' : RedisClientImpl}
    {p : Program Request RedisValue} {ts ts' : List Try} {vs : List RedisValue}
    {stop : Option Thrown}
    (hc : connectTcp tcpNoDelay o (srv.peer s0) (newThrowing (srv.peer s0)) = some (none, c))
    (h : attempt call p (c, ts) = some (vs, stop, c', ts')) :
    (stop = none ∧ vs = (serve (onServer srv) p s0).1 ∧
      ∃ done, Synced srv s0 done c' ∧ stateAfter srv s0 done = (serve (onServer srv) p s0).2) ∨
    ∃ err used, stop = some (.systemError err) ∧ ts = used ++ ts' ∧ ¬ AllFine used ∧
      vs <+: (serve (onServer srv) p s0).1 ∧ vs.length < (serve (onServer srv) p s0).1.length := by
  rw [connectTcp_opened hc] at h
  have hstep : ∀ req s x r, Serving srv s0 ts s x → call req x = some r →
      Simulates (Serving srv s0 ts) (Stopped ts) (onServer srv req s).1 (onServer srv req s).2 r :=
    fun req s x r hx h1 => call_serves hx h1
  have hall := attempt_serve hstep p (serving_opened ts) h
  cases stop with
  | none =>
    obtain ⟨hvs, done, used, hs, hsync, -, -⟩ := hall
    exact Or.inl ⟨rfl, hvs, done, hsync, hs.symm⟩
  | some e =>
    obtain ⟨hpre, hlt, ⟨err, rfl⟩, used, hts, hn⟩ := hall
    exact Or.inr ⟨err, used, rfl, hts, hn, hpre, hlt⟩

/-- A program that asks again if it is told zero. -/
def insist : Program Request RedisValue :=
  .ask (.command lineA) fun v => if v = .int 0 then .ask (.command lineA) fun _ => .done else .done

/-- The system calls of a connect, all of them without an error. -/
def allWell : ConnectCalls := ⟨none, none, none, none, none, [], none, none⟩

/-- Its second read times out. -/
theorem program_served_insist : ∃ c c', connectTcp true allWell (alternating.peer false)
      (newThrowing (alternating.peer false)) = some (none, c) ∧
    attempt call insist (c, [.moved 99, .failed EINTR, .moved 99, .moved 99, .zero]) =
      some ([.int 0], some (.systemError .eof), c', []) ∧
    [RedisValue.int 0] <+: (serve (onServer alternating) insist false).1 := by
  have hrun : (attempt call insist (connected (alternating.peer false)
      (newThrowing (alternating.peer false)),
      [.moved 99, .failed EINTR, .moved 99, .moved 99, .zero])).map (fun r => (r.1, r.2.1, r.2.2.2)) =
      some ([.int 0], some (.systemError .eof), []) := by decide +kernel
  obtain ⟨⟨vs, stop, c', ts'⟩, h, heq⟩ := Option.map_eq_some_iff.mp hrun
  obtain ⟨rfl, heq⟩ := Prod.mk.inj heq
  obtain ⟨rfl, rfl⟩ := Prod.mk.inj heq
  have hc : connectTcp true allWell (alternating.peer false) (newThrowing (alternating.peer false)) =
      some (none, connected (alternating.peer false) (newThrowing (alternating.peer false))) := rfl
  refine ⟨_, c', hc, h, ?_⟩
  rcases program_served hc h with ⟨hstop, -⟩ | ⟨err, used, -, -, -, hpre, -⟩
  · cases hstop
  · exact hpre

/-- The tries of a request that must move a byte. -/
def cost (srv : Server σ) (req : Request) (s : σ) : ℕ := traffic srv s req.commands

/-- **A program ends** if no system call fails and enough of them move a byte. -/
theorem program_ends {tcpNoDelay : Bool} {o : ConnectCalls} {c : RedisClientImpl}
    {p : Program Request RedisValue} {ts : List Try}
    (hc : connectTcp tcpNoDelay o (srv.peer s0) (newThrowing (srv.peer s0)) = some (none, c))
    (hf : AllFine ts) (hm : total (onServer srv) (cost srv) p s0 ≤ moves ts) :
    ∃ c' ts', attempt call p (c, ts) = some ((serve (onServer srv) p s0).1, none, c', ts') := by
  rw [connectTcp_opened hc]
  have hstep : ∀ (req : Request) (s : σ) (x : RedisClientImpl × List Try),
      (AllFine x.2 ∧ Serving srv s0 ts s x) → cost srv req s ≤ moves x.2 →
      ∃ x', call req x = some (.ok (onServer srv req s).1, x') ∧
        (AllFine x'.2 ∧ Serving srv s0 ts (onServer srv req s).2 x') ∧
        moves x.2 ≤ moves x'.2 + cost srv req s := by
    rintro req s ⟨c, us⟩ ⟨hus, done, used, rfl, hsync, hts, hused⟩ hle
    obtain ⟨c', used', us', rfl, hmoves, hsync', hperform⟩ := perform_answered hsync req hus hle
    have hfine := allFine_append.mp hus
    refine ⟨(c', us'), ?_, ⟨hfine.2, done ++ req.commands, used ++ used', onServer_state done req,
      hsync', ?_, allFine_append.mpr ⟨hused, hfine.1⟩⟩, ?_⟩
    · rw [call_eq, hperform]
      rfl
    · rw [hts, List.append_assoc]
    · rw [moves_append]
      unfold cost
      dsimp only
      omega
  obtain ⟨⟨c', ts'⟩, h, -⟩ := attempt_total
    (R := fun s (x : RedisClientImpl × List Try) => AllFine x.2 ∧ Serving srv s0 ts s x)
    (m := fun x => moves x.2) hstep p ⟨hf, serving_opened ts⟩ hm
  exact ⟨c', ts', h⟩

/-- The same program, with every byte sent and received by itself. -/
theorem program_ends_insist : ∃ c c' ts', connectTcp true allWell (alternating.peer false)
      (newThrowing (alternating.peer false)) = some (none, c) ∧
    attempt call insist (c, List.replicate 60 (.moved 0)) =
      some ((serve (onServer alternating) insist false).1, none, c', ts') := by
  have hc : connectTcp true allWell (alternating.peer false) (newThrowing (alternating.peer false)) =
      some (none, connected (alternating.peer false) (newThrowing (alternating.peer false))) := rfl
  have hf : AllFine (List.replicate 60 (.moved 0)) := by decide
  obtain ⟨c', ts', h⟩ := program_ends (p := insist) hc hf (by decide +kernel)
  exact ⟨_, c', ts', hc, h⟩

end RedisClient.Sync.Programs

import RedisClient.Sync.Reply

/-! # When the synchronous client is in step with the server

A client is in step (`InStep`) if what is on the wire is a whole number of commands and as many
replies have been consumed. From a state in step with nothing left over (`Synced`) a call ends in one
of four ways (`Ends`, `perform_synced`): it is blocked, it returns the reply and is in step again, it
returns an error and has not touched the connection, or it returns an error and is out of step.

The last is what the early returns of `doSyncCommand` and `syncReadResponse` lead to: the commands
are on the wire, their replies are not read, and the client is still connected. So the client is in
step throughout a run if and only if every call of the run is clean (`in_step_iff`): it moves no
byte, or it is given a clear error code and none of its tries fails. -/

namespace RedisClient.Sync.Session

open RedisClient.Value RedisClient.Parser.Defs RedisClient.Parser.RoundTrip RedisClient.Commands
open RedisClient.Peers RedisClient.Peers.Server
open RedisClient.Sync.Defs RedisClient.Sync.Io RedisClient.Sync.Reply

/-! ### Requests -/

/-- The arguments of `command`. -/
structure CommandLine where
  cmd : Bytes
  args : List RedisBuffer
  fits : Fits (.string cmd :: args)

/-- The items after `args.push_front(cmd)`. -/
def CommandLine.command (l : CommandLine) : Command := ⟨.string l.cmd :: l.args, l.fits⟩

/-- What a call asks for. -/
inductive Request where
  | command (l : CommandLine)
  | pipelined (cs : List Command)

namespace Request

def commands : Request → List Command
  | command l => [l.command]
  | pipelined cs => cs

/-- The call. -/
def perform : Request → RedisClientImpl → ErrorCode → List Try →
    Option (Return × RedisClientImpl × List Try)
  | command l, c, ec, ts => Defs.command l.cmd l.args c ec ts
  | pipelined cs, c, ec, ts => Defs.pipelined (cs.map Command.items) c ec ts

/-- What a server in the state `s` answers. -/
def answer {σ : Type} (srv : Server σ) (s : σ) : Request → RedisValue
  | command l => (srv.step s l.command.contents).2.value
  | pipelined cs => .array ((srv.answers s (cs.map Command.contents)).map Reply.value)

end Request

/-! ### In step -/

/-- While the client is connected, the bytes sent are a whole number of commands, and as many replies
have been consumed. -/
def InStep (c : RedisClientImpl) : Prop :=
  c.state = .connected → ∃ cs : List Command,
    c.socket.sent = encs cs ∧ c.replies.length = cs.length

variable {σ : Type} (srv : Server σ) (s0 : σ)

/-- The replies to the commands `cs`, from the start. -/
def repliesTo (cs : List Command) : List Reply := srv.answers s0 (cs.map Command.contents)

/-- The server after the commands `cs`. -/
def stateAfter (cs : List Command) : σ := srv.after s0 (cs.map Command.contents)

/-- The commands `done` have been sent and their replies read, and nothing is left over. -/
structure Synced (done : List Command) (c : RedisClientImpl) : Prop where
  state : c.state = .connected
  isOpen : c.socket.isOpen = true
  peer : c.socket.peer = srv.peer s0
  sent : c.socket.sent = encs done
  taken : c.socket.taken = (text (repliesTo srv s0 done)).length
  buf : c.buf = []
  idle : Idle c.redisParser
  replies : c.replies = (repliesTo srv s0 done).map Reply.value

variable {srv s0} {done cs : List Command} {c : RedisClientImpl}

theorem repliesTo_append (srv : Server σ) (s0 : σ) (done cs : List Command) :
    repliesTo srv s0 (done ++ cs) = repliesTo srv s0 done ++ srv.answers (stateAfter srv s0 done) (cs.map Command.contents) := by
  unfold repliesTo stateAfter
  rw [List.map_append, answers_append]

theorem length_repliesTo : (repliesTo srv s0 done).length = done.length := by
  unfold repliesTo
  rw [length_answers, List.length_map]

theorem inStep_of_synced (h : Synced srv s0 done c) : InStep c := by
  intro _
  refine ⟨done, h.sent, ?_⟩
  rw [h.replies, List.length_map, length_repliesTo]

theorem unread_of_synced (h : Synced srv s0 done c) : c.socket.unread = [] := by
  unfold Socket.unread
  rw [h.peer, h.sent, out_encs, h.taken]
  exact List.drop_length

/-- When the commands `cs` have been sent, their replies are unread. -/
theorem unread_send (h : Synced srv s0 done c) :
    (c.socket.send (encs cs)).unread =
      text (srv.answers (stateAfter srv s0 done) (cs.map Command.contents)) := by
  unfold Socket.unread
  rw [peer_send, sent_send, taken_send, h.peer, h.sent, ← encs_append, out_encs, h.taken]
  have hr := repliesTo_append srv s0 done cs
  unfold repliesTo at hr ⊢
  rw [hr, text_append, List.drop_left]

/-- With more on the wire than the replies account for, the client is out of step. -/
theorem not_inStep (done cs : List Command) (data : Bytes) (hst : c.state = .connected)
    (hsent : c.socket.sent = encs done ++ data)
    (hdata : data ≠ [] ∧ c.replies.length = done.length ∨
      data = encs cs ∧ c.replies.length < done.length + cs.length) : ¬ InStep c := by
  intro h
  obtain ⟨ds, hds, hlen⟩ := h hst
  rw [hsent] at hds
  rcases hdata with ⟨hne, hl⟩ | ⟨rfl, hl⟩
  · have := encs_longer hds.symm hne
    omega
  · rw [← encs_append] at hds
    have := congrArg List.length (encs_inj hds)
    simp only [List.length_map, List.length_append] at this
    omega

/-! ### One call -/

variable (srv s0) in
/-- How a call of the commands `cs` with the answer `v` can end, after the commands `done`. -/
inductive Ends (done : List Command) (c : RedisClientImpl) (cs : List Command) (v : RedisValue)
    (ec : ErrorCode) (ts : List Try) : Option (Return × RedisClientImpl × List Try) → Prop
  | blocked (h : ¬ (ec = none ∧ AllFine ts ∧ (encs cs).length +
      (text (srv.answers (stateAfter srv s0 done) (cs.map Command.contents))).length ≤ moves ts)) :
      Ends done c cs v ec ts none
  | answered {c' : RedisClientImpl} {used ts' : List Try} (hts : ts = used ++ ts') (hec : ec = none)
      (hf : AllFine used) (hm : moves used ≤ (encs cs).length +
        (text (srv.answers (stateAfter srv s0 done) (cs.map Command.contents))).length)
      (hs : Synced srv s0 (done ++ cs) c') :
      Ends done c cs v ec ts (some (⟨some v, none, []⟩, c', ts'))
  | untouched {r : Return} {used ts' : List Try} (hts : ts = used ++ ts') (hr : r.ec.isSome)
      (hm : moves used = 0) (hn : ec.isSome ∨ ¬ AllFine used) :
      Ends done c cs v ec ts (some (r, c, ts'))
  | broken {r : Return} {c' : RedisClientImpl} {used ts' : List Try} (hts : ts = used ++ ts')
      (hr : r.ec.isSome) (hcs : cs ≠ []) (hm : moves used ≠ 0) (hn : ec.isSome ∨ ¬ AllFine used)
      (hout : ¬ InStep c') : Ends done c cs v ec ts (some (r, c', ts'))

theorem flatten_makeCommand (cs : List Command) :
    ((cs.map Command.items).map makeCommand).flatten = encs cs := by
  rw [List.map_map]
  rfl

/-- The responses, when all commands have been sent. -/
theorem ends_readResponses (h : Synced srv s0 done c) {ts used ts1 : List Try}
    (hts : ts = used ++ ts1) (hf : AllFine used) (hm : moves used ≤ (encs cs).length)
    (hm0 : moves used = 0 → encs cs = []) :
    Ends srv s0 done c cs
      (.array ((srv.answers (stateAfter srv s0 done) (cs.map Command.contents)).map Reply.value))
      none ts
      (readResponses cs.length [] [] { c with socket := c.socket.send (encs cs) } none ts1) := by
  set rs := srv.answers (stateAfter srv s0 done) (cs.map Command.contents) with hrs
  have hlen : rs.length = cs.length := by rw [hrs, length_answers, List.length_map]
  have hrep : repliesTo srv s0 (done ++ cs) = repliesTo srv s0 done ++ rs :=
    repliesTo_append srv s0 done cs
  set c1 : RedisClientImpl := { c with socket := c.socket.send (encs cs) } with hc1
  have hu : c1.socket.unread = text rs := unread_send h
  have hread := readResponses_text [] [] rs [] c1 ts1 h.isOpen h.idle
    (by rw [hu, List.append_nil]; simp [hc1, h.buf])
  rw [hlen] at hread
  rcases hx : readResponses cs.length [] [] c1 none ts1 with _ | ⟨r, c2, ts2⟩ <;> rw [hx] at hread
  · cases hread with
    | blocked hb =>
      refine .blocked fun ⟨_, h1, h2⟩ => hb ⟨?_, ?_⟩
      · rw [hts] at h1
        exact (allFine_append.mp h1).2
      · rw [hts, moves_append, ← hrs] at h2
        rw [hu]
        omega
  · cases hread with
    | got hts2 hf2 hm2 hk hi hb =>
      obtain ⟨hb1, hb2⟩ := List.append_eq_nil_iff.mp hb
      have hk2 := List.drop_eq_nil_iff.mp hb2
      rw [hu] at hk hk2
      rw [List.nil_append]
      refine .answered (by rw [hts, hts2, List.append_assoc]) rfl (allFine_append.mpr ⟨hf, hf2⟩)
        (by rw [moves_append, ← hrs]; omega) ⟨h.state, h.isOpen, h.peer, ?_, ?_, hb1, hi, ?_⟩
      · simp [progress, hc1, h.sent, encs_append]
      · rw [hrep, text_append, List.length_append, ← h.taken]
        simp only [progress, hc1, taken_recv, taken_send]
        omega
      · simp [progress, hc1, h.replies, hrep]
    | failed hts2 hf2 hws =>
      rw [List.length_map, hlen] at hws
      have hcs : cs ≠ [] := by
        rintro rfl
        simp at hws
      refine .broken (by rw [hts, hts2, List.append_assoc]) rfl hcs ?_
        (Or.inr fun hn => hf2 (allFine_append.mp hn).2)
        (not_inStep done cs (encs cs) h.state ?_ (Or.inr ⟨rfl, ?_⟩))
      · rw [moves_append]
        intro h0
        have hnil := hm0 (by omega)
        rcases cs with _ | ⟨d, cs⟩
        · exact hcs rfl
        · exact enc_ne_nil d (List.append_eq_nil_iff.mp hnil).1
      · simp [progress, hc1, h.sent]
      · simp only [progress, hc1, List.length_append, h.replies, List.length_map, length_repliesTo]
        omega

/-- **A list of commands**, from a state in step. -/
theorem doSyncCommands_synced (h : Synced srv s0 done c) (cs : List Command) (ec : ErrorCode)
    (ts : List Try) : Ends srv s0 done c cs
      (.array ((srv.answers (stateAfter srv s0 done) (cs.map Command.contents)).map Reply.value))
      ec ts (doSyncCommands (cs.map Command.items) c ec ts) := by
  unfold doSyncCommands
  rw [List.length_map]
  rcases hw : socketWriteAll c.socket ((cs.map Command.items).map makeCommand) ec ts with
    _ | ⟨k, ec1, s1, ts1⟩
  · refine .blocked fun ⟨hec, hf, hm⟩ => ?_
    subst hec
    obtain ⟨used, ts', -, -, hsome⟩ := socketWriteAll_fine (s := c.socket) h.isOpen hf
      (show ((cs.map Command.items).map makeCommand).flatten.length ≤ moves ts by
        rw [flatten_makeCommand]; omega)
    rw [hsome] at hw
    cases hw
  · obtain ⟨used, data, left, hts, hdata, hs1, -, hm, hm0, hcase⟩ :=
      socketWriteAll_spec h.isOpen hw
    rw [flatten_makeCommand] at hdata
    rw [Option.bind_some]
    dsimp only
    rcases hcase with ⟨rfl, rfl, rfl, hf⟩ | ⟨he, hn⟩
    · rw [List.append_nil] at hdata
      rw [if_neg (by simp), hs1, ← hdata]
      rw [← hdata] at hm hm0
      exact ends_readResponses h hts hf hm hm0
    · rw [if_pos he]
      by_cases h0 : moves used = 0
      · have hc : ({ c with socket := s1 } : RedisClientImpl) = c := by rw [hs1, hm0 h0, send_nil]
        rw [hc]
        exact .untouched hts he h0 hn
      · have hne : data ≠ [] := by
          rintro rfl
          exact h0 (by simpa using hm)
        have hcs : cs ≠ [] := by
          rintro rfl
          exact hne (List.append_eq_nil_iff.mp hdata.symm).1
        refine .broken hts he hcs h0 hn (not_inStep done [] data h.state ?_
          (Or.inl ⟨hne, ?_⟩))
        · rw [hs1, sent_send, h.sent]
        · dsimp only
          rw [h.replies, List.length_map, length_repliesTo]

/-- What a list of one command returns, by what the command returns. -/
def asArray (r : Return) : Return :=
  ⟨r.value.map fun v => if r.ec.isSome then noValue else .array [v], r.ec, r.errors⟩

theorem doSyncCommands_one (command : List RedisBuffer) (c : RedisClientImpl) (ec : ErrorCode)
    (ts : List Try) : doSyncCommands [command] c ec ts =
      (doSyncCommand command c ec ts).map fun r => (asArray r.1, r.2) := by
  unfold doSyncCommands doSyncCommand
  rw [List.map_singleton, socketWriteAll_singleton]
  rcases socketWrite c.socket (makeCommand command) ec ts with _ | ⟨k, ec1, s1, ts1⟩
  · rfl
  simp only [Option.bind_some]
  split_ifs with he
  · simp [asArray, he]
  · rw [List.length_singleton, readResponses]
    rcases syncReadResponse { c with socket := s1 } ec1 ts1 with _ | ⟨⟨v, ec2, es⟩, c2, ts2⟩
    · rfl
    · rcases v with _ | v
      · simp [asArray]
      · by_cases he2 : ec2.isSome
        · simp [asArray, he2]
        · simp [asArray, he2, readResponses]

/-- **A call**, from a state in step. -/
theorem perform_synced (h : Synced srv s0 done c) (req : Request) (ec : ErrorCode)
    (ts : List Try) : Ends srv s0 done c req.commands (req.answer srv (stateAfter srv s0 done))
      ec ts (req.perform c ec ts) := by
  cases req with
  | pipelined cs =>
    have he := doSyncCommands_synced h cs ec ts
    simp only [Request.perform, Defs.pipelined, ifStateValid, h.state, if_true]
    exact he
  | command l =>
    have he := doSyncCommands_synced h [l.command] ec ts
    simp only [Request.perform, Defs.command, ifStateValid, h.state, if_true]
    have hone := doSyncCommands_one l.command.items c ec ts
    have hmap : [l.command].map Command.items = [l.command.items] := rfl
    rw [hmap, hone] at he
    show Ends srv s0 done c [l.command] _ ec ts (doSyncCommand l.command.items c ec ts)
    rcases hx : doSyncCommand l.command.items c ec ts with _ | ⟨r, c', ts'⟩ <;> rw [hx] at he
    · cases he with
      | blocked hb => exact .blocked hb
    · rw [Option.map_some] at he
      generalize hr : asArray r = r' at he
      have hrec : r'.ec = r.ec := by rw [← hr]; rfl
      cases he with
      | answered hts hec hf hm hs =>
        obtain ⟨v, e, es⟩ := r
        simp only [asArray, Return.mk.injEq] at hr
        obtain ⟨hv, rfl, rfl⟩ := hr
        obtain ⟨w, rfl, hw⟩ := Option.map_eq_some_iff.mp hv
        have hw' : w = (Request.command l).answer srv (stateAfter srv s0 done) := by
          simpa [Server.answers, Request.answer] using hw
        rw [hw']
        exact .answered hts hec hf hm hs
      | untouched hts hr hm hn => exact .untouched hts (by rwa [hrec] at hr) hm hn
      | broken hts hr hcs hm hn hout => exact .broken hts (by rwa [hrec] at hr) hcs hm hn hout

/-! ### Runs -/

/-- A call: what it asks for, the error code it is given, and how its tries end. -/
structure Call where
  request : Request
  ec : ErrorCode
  tries : List Try

/-- A call in a run: the client before and after, and what has been returned. -/
structure Step where
  before : RedisClientImpl
  call : Call
  ret : Return
  after : RedisClientImpl

/-- The calls of a run. Every call returns, and it uses exactly its tries. -/
def runCalls : RedisClientImpl → List Call → Option (List Step)
  | _, [] => some []
  | c, call :: calls =>
    match call.request.perform c call.ec call.tries with
    | some (r, c', []) => (runCalls c' calls).map (⟨c, call, r, c'⟩ :: ·)
    | _ => none

/-- A call that returns without an error has the server's answer to its own commands. -/
def OwnReply (srv : Server σ) (s0 : σ) (s : Step) : Prop :=
  s.ret.ec = none →
    s.ret.value = some (s.call.request.answer srv (srv.after s0 (commandsIn s.before.socket.sent)))

instance (srv : Server σ) (s0 : σ) (s : Step) : Decidable (OwnReply srv s0 s) := by
  unfold OwnReply; infer_instance

/-- A call that sends nothing, or that is given a clear error code and has no failure. -/
def Clean (call : Call) : Prop :=
  call.request.commands = [] ∨ moves call.tries = 0 ∨ call.ec = none ∧ AllFine call.tries

instance (call : Call) : Decidable (Clean call) := by
  unfold Clean
  have : Decidable (call.request.commands = []) :=
    decidable_of_iff _ List.isEmpty_iff
  infer_instance

theorem run_in_step : ∀ {calls : List Call} {done : List Command} {c : RedisClientImpl}
    {steps : List Step}, Synced srv s0 done c → runCalls c calls = some steps →
    ((∀ s ∈ steps, InStep s.after ∧ OwnReply srv s0 s) ↔ ∀ call ∈ calls, Clean call)
  | [], done, c, steps, _, h => by
    cases h
    simp
  | call :: calls, done, c, steps, hc, h => by
    have he := perform_synced hc call.request call.ec call.tries
    unfold runCalls at h
    rcases hx : call.request.perform c call.ec call.tries with _ | ⟨r, c', ts'⟩ <;> rw [hx] at h he
    · cases h
    rcases ts' with _ | ⟨t, ts'⟩
    · obtain ⟨rest, hrest, rfl⟩ := Option.map_eq_some_iff.mp h
      rw [List.forall_mem_cons, List.forall_mem_cons]
      cases he with
      | answered hts hec hf hm hs =>
        have hclean : Clean call := by
          rw [List.append_nil] at hts
          exact Or.inr (Or.inr ⟨hec, hts ▸ hf⟩)
        have hown : OwnReply srv s0 ⟨c, call,
            ⟨some (call.request.answer srv (stateAfter srv s0 done)), none, []⟩, c'⟩ := by
          intro _
          dsimp only
          rw [hc.sent, commandsIn_encs]
          rfl
        have ih := run_in_step hs hrest
        simp [hclean, inStep_of_synced hs, hown, ih]
      | untouched hts hr hm hn =>
        have hclean : Clean call := by
          rw [List.append_nil] at hts
          exact Or.inr (Or.inl (hts ▸ hm))
        have hown : OwnReply srv s0 ⟨c, call, r, c⟩ := by
          intro h0
          rw [show r.ec = none from h0] at hr
          cases hr
        have ih := run_in_step hc hrest
        simp [hclean, inStep_of_synced hc, hown, ih]
      | broken hts hr hcs hm hn hout =>
        have hclean : ¬ Clean call := by
          rw [List.append_nil] at hts
          rw [← hts] at hm hn
          rintro (h0 | h0 | ⟨h0, h1⟩)
          · exact hcs h0
          · exact hm h0
          · rcases hn with hn | hn
            · rw [h0] at hn
              cases hn
            · exact hn h1
        constructor
        · rintro ⟨⟨h1, -⟩, -⟩
          exact absurd h1 hout
        · rintro ⟨h1, -⟩
          exact absurd h1 hclean
    · cases h

/-- A new client after a successful `connect`. -/
def opened (errorHandler : String → Reaction) (peer : Peer) : RedisClientImpl :=
  connected peer (newClient errorHandler peer)

theorem synced_opened (errorHandler : String → Reaction) :
    Synced srv s0 [] (opened errorHandler (srv.peer s0)) :=
  ⟨rfl, rfl, rfl, rfl, rfl, rfl, ⟨rfl, rfl, rfl⟩, rfl⟩

/-- **The client is in step throughout a run if and only if every call is clean.** Then every call
that returns without an error returns the reply to its own commands. -/
theorem in_step_iff {errorHandler : String → Reaction} {calls : List Call} {steps : List Step}
    (h : runCalls (opened errorHandler (srv.peer s0)) calls = some steps) :
    (∀ s ∈ steps, InStep s.after ∧ OwnReply srv s0 s) ↔ ∀ call ∈ calls, Clean call :=
  run_in_step (synced_opened errorHandler) h

/-! ### A read that times out -/

theorem wf_bit (b : Bool) : ReplyTree.Wf (.int (if b then 1 else 0)) := by
  cases b <;> exact ⟨by decide, by decide⟩

/-- A server that answers `:0` and `:1` in turn. -/
def alternating : Server Bool where
  step b _ := (!b, ⟨.int (if b then 1 else 0), wf_bit b⟩)

/-- The command `A`. -/
def lineA : CommandLine := ⟨[65], [], by decide⟩

/-- A command whose send is cut after three bytes and interrupted once, and a pipeline of two whose
replies come in three reads. -/
def cleanCalls : List Call :=
  [⟨.command lineA, none, [.moved 2, .failed EINTR, .moved 99, .moved 99]⟩,
    ⟨.pipelined [lineA.command, lineA.command], none, [.moved 99, .moved 99, .moved 0, .moved 4,
      .failed EINTR, .moved 99]⟩]

theorem in_step_clean : ∃ steps,
    runCalls (opened (fun _ => .throws) (alternating.peer false)) cleanCalls = some steps ∧
      ∀ s ∈ steps, InStep s.after ∧ OwnReply alternating false s := by
  have hrun : (runCalls (opened (fun _ => .throws) (alternating.peer false)) cleanCalls).isSome := by
    decide +kernel
  obtain ⟨steps, h⟩ := Option.isSome_iff_exists.mp hrun
  exact ⟨steps, h, (in_step_iff h).mpr (by decide)⟩

/-- A command whose reply does not come in time, and another one. -/
def timeoutCalls : List Call :=
  [⟨.command lineA, none, [.moved 99, .zero]⟩, ⟨.command lineA, none, [.moved 99, .moved 3]⟩]

/-- After a timeout the client is still connected, and the next command returns, without an error,
the reply to the first one. -/
theorem out_of_step : ∃ steps,
    runCalls (opened (fun _ => .throws) (alternating.peer false)) timeoutCalls = some steps ∧
      (∀ s ∈ steps, s.after.state = .connected) ∧
      steps.map Step.ret = [⟨some noValue, some .eof, []⟩, ⟨some (.int 0), none, []⟩] ∧
      ¬ ∀ s ∈ steps, InStep s.after ∧ OwnReply alternating false s := by
  have hrun : (runCalls (opened (fun _ => .throws) (alternating.peer false)) timeoutCalls).map
      (fun steps => (decide (∀ s ∈ steps, s.after.state = .connected), steps.map Step.ret,
        decide (∀ s ∈ steps, OwnReply alternating false s))) =
      some (true, [⟨some noValue, some .eof, []⟩, ⟨some (.int 0), none, []⟩], false) := by
    decide +kernel
  obtain ⟨steps, h, heq⟩ := Option.map_eq_some_iff.mp hrun
  simp only [Prod.mk.injEq, decide_eq_true_eq, decide_eq_false_iff_not] at heq
  obtain ⟨h1, h2, h3⟩ := heq
  exact ⟨steps, h, h1, h2, fun h4 => h3 fun s hs => (h4 s hs).2⟩

end RedisClient.Sync.Session

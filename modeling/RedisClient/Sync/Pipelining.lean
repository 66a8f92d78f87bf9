import RedisClient.Sync.Session

/-! # A pipeline is its commands one by one

From a state in step, with no failures and enough tries that move a byte, `Pipeline::finish` returns
the array of what `command` returns when the commands are issued in sequence, both put the same bytes
on the wire, and both leave the client in step (`finish_eq_sequence`): each side is the server's
answers to the commands. -/

namespace RedisClient.Sync.Pipelining

open RedisClient.Value RedisClient.Commands RedisClient.Peers RedisClient.Peers.Server
open RedisClient.Parser.RoundTrip
open RedisClient.Sync.Defs RedisClient.Sync.Io RedisClient.Sync.Session

/-- A pipeline built with `Pipeline::command`. -/
def pipelineOf (ls : List CommandLine) : Pipeline :=
  ls.foldl (fun pipe l => pipe.command l.cmd l.args) Pipeline.new

/-- The commands issued one by one, each with a clear error code. -/
def sequence : List CommandLine → RedisClientImpl → List Try →
    Option (List Return × RedisClientImpl × List Try)
  | [], c, ts => some ([], c, ts)
  | l :: ls, c, ts =>
    (Defs.command l.cmd l.args c none ts).bind fun (r, c, ts) =>
      (sequence ls c ts).map fun (rs, out) => (r :: rs, out)

/-- The commands of the lines. -/
def commandsOf (ls : List CommandLine) : List Command := ls.map CommandLine.command

theorem pipelineOf_commands (ls : List CommandLine) :
    (pipelineOf ls).commands = (commandsOf ls).map Command.items := by
  have h : ∀ (ls : List CommandLine) (pipe : Pipeline),
      (ls.foldl (fun pipe l => pipe.command l.cmd l.args) pipe).commands =
        pipe.commands ++ (commandsOf ls).map Command.items := by
    intro ls
    induction ls with
    | nil => intro pipe; simp [commandsOf]
    | cons l ls ih =>
      intro pipe
      rw [List.foldl_cons, ih]
      simp [Pipeline.command, commandsOf, CommandLine.command]
  exact h ls Pipeline.new

variable {σ : Type} {srv : Server σ} {s0 : σ} {done : List Command} {c : RedisClientImpl}

/-- The bytes that are moved when the commands `cs` are sent and answered: as many tries that move a
byte are enough. -/
def traffic (srv : Server σ) (s : σ) (cs : List Command) : ℕ :=
  (encs cs).length + (text (srv.answers s (cs.map Command.contents))).length

/-- A call without failures, with enough tries, is answered. -/
theorem perform_answered (h : Synced srv s0 done c) (req : Request) {ts : List Try}
    (hf : AllFine ts) (hm : traffic srv (stateAfter srv s0 done) req.commands ≤ moves ts) :
    ∃ c' used ts', ts = used ++ ts' ∧
      moves used ≤ traffic srv (stateAfter srv s0 done) req.commands ∧
      Synced srv s0 (done ++ req.commands) c' ∧
      req.perform c none ts =
        some (⟨some (req.answer srv (stateAfter srv s0 done)), none, []⟩, c', ts') := by
  have he := perform_synced h req none ts
  rcases hx : req.perform c none ts with _ | ⟨r, c', ts'⟩ <;> rw [hx] at he
  · cases he with
    | blocked hb => exact absurd ⟨rfl, hf, hm⟩ hb
  · cases he with
    | answered hts hec hf' hm' hs => exact ⟨c', _, ts', hts, hm', hs, rfl⟩
    | untouched hts hr hm' hn =>
      rcases hn with hn | hn
      · cases hn
      · exact absurd (allFine_append.mp (hts ▸ hf)).1 hn
    | broken hts hr hcs hm' hn hout =>
      rcases hn with hn | hn
      · cases hn
      · exact absurd (allFine_append.mp (hts ▸ hf)).1 hn

theorem traffic_cons (s : σ) (l : CommandLine) (ls : List CommandLine) :
    traffic srv s (commandsOf (l :: ls)) =
      traffic srv s [l.command] +
        traffic srv (srv.step s l.command.contents).1 (commandsOf ls) := by
  simp only [traffic, commandsOf, List.map_cons, List.map_nil, encs_cons, encs_nil, Server.answers,
    text_cons, text_nil, List.length_append, List.append_nil]
  omega

theorem stateAfter_append (srv : Server σ) (s0 : σ) (cs : List Command) (d : Command) :
    stateAfter srv s0 (cs ++ [d]) = (srv.step (stateAfter srv s0 cs) d.contents).1 := by
  simp [stateAfter, Server.after]

/-- **The commands one by one.** -/
theorem sequence_answered : ∀ (ls : List CommandLine) {done : List Command} {c : RedisClientImpl}
    {ts : List Try}, Synced srv s0 done c → AllFine ts →
    traffic srv (stateAfter srv s0 done) (commandsOf ls) ≤ moves ts →
    ∃ c' ts', Synced srv s0 (done ++ commandsOf ls) c' ∧
      sequence ls c ts = some
        ((srv.answers (stateAfter srv s0 done) ((commandsOf ls).map Command.contents)).map
          (fun r => ⟨some r.value, none, []⟩), c', ts')
  | [], done, c, ts, h, _, _ => ⟨c, ts, by simpa [commandsOf] using h, rfl⟩
  | l :: ls, done, c, ts, h, hf, hm => by
    rw [traffic_cons] at hm
    obtain ⟨c1, used, ts1, rfl, hm1, hs1, hp⟩ := perform_answered h (.command l) hf
      (show traffic srv (stateAfter srv s0 done) [l.command] ≤ moves ts by omega)
    have hcmds : (Request.command l).commands = [l.command] := rfl
    rw [hcmds] at hm1 hs1
    rw [moves_append] at hm
    have hst := stateAfter_append srv s0 done l.command
    obtain ⟨c2, ts2, hs2, hseq⟩ := sequence_answered ls hs1 (allFine_append.mp hf).2
      (by rw [hst]; omega)
    refine ⟨c2, ts2, ?_, ?_⟩
    · have happ : done ++ commandsOf (l :: ls) = done ++ [l.command] ++ commandsOf ls := by
        simp [commandsOf]
      rw [happ]
      exact hs2
    · rw [sequence]
      rw [show Defs.command l.cmd l.args c none (used ++ ts1) = _ from hp, Option.bind_some]
      dsimp only
      rw [hseq, hst]
      rfl

/-- **A pipeline is its commands one by one**: from a state in step, with tries `ts` and `us` that do
not fail and are enough, `finish` returns the array of the values that the calls of `command` return,
the same bytes are sent, nothing is left unread and the parser is idle. -/
theorem finish_eq_sequence (h : Synced srv s0 done c) (ls : List CommandLine) {ts us : List Try}
    (hts : AllFine ts) (hus : AllFine us)
    (hmt : traffic srv (stateAfter srv s0 done) (commandsOf ls) ≤ moves ts)
    (hmu : traffic srv (stateAfter srv s0 done) (commandsOf ls) ≤ moves us) :
    ∃ vs c₁ c₂ ts' us',
      (pipelineOf ls).finish c none ts = some (⟨some (.array vs), none, []⟩, c₁, ts') ∧
      sequence ls c us = some (vs.map fun v => ⟨some v, none, []⟩, c₂, us') ∧
      c₁.socket.sent = c.socket.sent ++ encs (commandsOf ls) ∧ c₁.socket.sent = c₂.socket.sent ∧
      Synced srv s0 (done ++ commandsOf ls) c₁ ∧ Synced srv s0 (done ++ commandsOf ls) c₂ ∧
      c₁.socket.unread = [] ∧ c₂.socket.unread = [] := by
  obtain ⟨c₁, used, ts', -, -, hs₁, h₁⟩ := perform_answered h (.pipelined (commandsOf ls)) hts hmt
  obtain ⟨c₂, us', hs₂, h₂⟩ := sequence_answered ls h hus hmu
  refine ⟨(srv.answers (stateAfter srv s0 done) ((commandsOf ls).map Command.contents)).map
    Reply.value, c₁, c₂, ts', us', ?_, ?_, ?_, ?_, hs₁, hs₂, unread_of_synced hs₁,
    unread_of_synced hs₂⟩
  · rw [Pipeline.finish, pipelineOf_commands]
    exact h₁
  · rw [h₂, List.map_map]
    rfl
  · rw [hs₁.sent, h.sent]
    exact encs_append _ _
  · rw [hs₁.sent, hs₂.sent]
    rfl

/-- Two commands, sent and received byte by byte in the pipeline and in big pieces one by one. -/
theorem finish_eq_sequence_two : ∃ vs c₁ c₂ ts' us',
    (pipelineOf [lineA, lineA]).finish (opened (fun _ => .throws) (alternating.peer false)) none
      (List.replicate 30 (.moved 0)) = some (⟨some (.array vs), none, []⟩, c₁, ts') ∧
    sequence [lineA, lineA] (opened (fun _ => .throws) (alternating.peer false))
      (List.replicate 30 (.moved 99)) = some (vs.map fun v => ⟨some v, none, []⟩, c₂, us') ∧
    c₁.socket.sent = c₂.socket.sent := by
  have hc : Synced alternating false [] (opened (fun _ => .throws) (alternating.peer false)) :=
    synced_opened _
  have hts : AllFine (List.replicate 30 (.moved 0)) := by decide
  have hus : AllFine (List.replicate 30 (.moved 99)) := by decide
  obtain ⟨vs, c₁, c₂, ts', us', h1, h2, -, h3, -⟩ := finish_eq_sequence hc [lineA, lineA] hts hus
    (by decide +kernel) (by decide +kernel)
  exact ⟨vs, c₁, c₂, ts', us', h1, h2, h3⟩

end RedisClient.Sync.Pipelining

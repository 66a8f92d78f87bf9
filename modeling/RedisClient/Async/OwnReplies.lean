import RedisClient.Async.Rest

/-! # Every reply reaches its own handler

A connection used through `command` and `publish` only, with a server that answers every command. In
every run the handlers that have been called are those of the first commands issued, in order and
each with its own reply, and the error handler has not been called (`replies_reach_handlers`). When
the loop can do nothing more, all of them have been called. -/

namespace RedisClient.Async.OwnReplies

open RedisClient.Value RedisClient.Parser.Defs RedisClient.Parser.RoundTrip
open RedisClient.Parser.Awaiting RedisClient.Commands RedisClient.Peers
open RedisClient.Peers.Publisher (text)
open RedisClient.Async.Asio RedisClient.Async.Defs RedisClient.Async.Trace RedisClient.Async.Calls
open RedisClient.Async.Session RedisClient.Async.Transmit RedisClient.Async.Receive
open RedisClient.Async.Runs RedisClient.Async.Rest

variable {κ σ : Type}

/-! ### The user's code -/

/-- The call is `command` or `publish`. -/
def IsCommand : Call κ → Prop
  | .command cmd args _ => Fits (.string cmd :: args)
  | .publish channel msg _ => Fits [.string publishStr, .string channel, msg]
  | _ => False

/-- User code that issues commands and returns. -/
def CommandScript : Script κ → Prop
  | .returns => True
  | .throws => False
  | .call call _ next => IsCommand call ∧ CommandScript next

/-- A step in which the user's code, the handlers included, issues commands and returns, and no
operation of the socket fails. -/
def CommandEvent : Event κ → Prop
  | .user s => CommandScript s
  | .posted cbs | .readDone cbs | .writeDone cbs => ∀ s ∈ cbs, CommandScript s
  | .receive _ | .send _ => True
  | .readFail _ | .writeFail _ | .connectOk _ | .connectFail _ | .connectDone _ => False

instance : (call : Call κ) → Decidable (IsCommand call)
  | .command _ _ _ => inferInstanceAs (Decidable (Fits _))
  | .publish _ _ _ => inferInstanceAs (Decidable (Fits _))
  | .connect _ _ | .disconnect | .subscribe _ _ _ | .psubscribe _ _ _ | .singleShotSubscribe _ _ _
  | .singleShotPSubscribe _ _ _ | .unsubscribe _ | .punsubscribe _ => isFalse id

instance decidableCommandScript : (s : Script κ) → Decidable (CommandScript s)
  | .returns => isTrue trivial
  | .throws => isFalse id
  | .call call _ next =>
    have := decidableCommandScript next
    inferInstanceAs (Decidable (IsCommand call ∧ CommandScript next))

instance : (e : Event κ) → Decidable (CommandEvent e)
  | .user s => decidableCommandScript s
  | .posted cbs | .readDone cbs | .writeDone cbs =>
    inferInstanceAs (Decidable (∀ s ∈ cbs, CommandScript s))
  | .receive _ | .send _ => isTrue trivial
  | .readFail _ | .writeFail _ | .connectOk _ | .connectFail _ | .connectDone _ => isFalse id

theorem sessionScript_of_command : ∀ {s : Script κ}, CommandScript s →
    SessionScript (fun _ => False) False s
  | .returns, _ => trivial
  | .call call _ next, h => by
    refine ⟨?_, sessionScript_of_command h.2⟩
    have hcall := h.1
    cases call with
    | command cmd args handler =>
      exact ⟨_, rfl, hcall, not_false⟩
    | publish channel msg handler =>
      exact ⟨_, rfl, hcall, not_false⟩
    | _ => exact hcall.elim

theorem sessionEvent_of_command {e : Event κ} (h : CommandEvent e) :
    SessionEvent (fun _ => False) False e := by
  cases e with
  | user s => exact sessionScript_of_command h
  | posted cbs | readDone cbs | writeDone cbs => exact fun s hs => sessionScript_of_command (h s hs)
  | receive | send => trivial
  | _ => exact h.elim

/-! ### When the loop can do nothing more -/

/-- Neither the strand nor an operation of the socket has a step. -/
structure Quiescent (c : RedisClientImpl κ) : Prop where
  posted : step (.posted []) c = none
  receive : ∀ k, step (.receive k) c = none
  readDone : step (.readDone []) c = none
  send : ∀ k, step (.send k) c = none
  writeDone : step (.writeDone []) c = none

theorem Quiescent.atRest {pub : Publisher σ} {s0 : σ} {S : List Bytes → Prop} {n : ℕ}
    {c : RedisClientImpl κ} (hpub : pub.Quiet S s0) (h : InSession pub s0 S False n c)
    (hq : Quiescent c) : AtRest c := by
  obtain ⟨x, data, hcore, hin, hw, hr⟩ := h
  have hb : ¬ c.broken = true := by simp [hcore.broken]
  constructor
  · have hp := hq.posted
    unfold step at hp
    rw [if_neg hb] at hp
    dsimp only at hp
    rcases hs : c.strand with _ | ⟨f, strand⟩
    · rfl
    · rw [hs] at hp
      cases hp
  · intro k
    have hp := hq.receive k
    unfold step at hp
    rw [if_neg hb] at hp
    exact Option.map_eq_none_iff.mp hp
  · cases hr with
    | waiting h1 h2 => exact h2
    | received _ h1 h2 h3 h4 =>
      have hp := hq.readDone
      unfold step at hp
      rw [if_neg hb] at hp
      dsimp only at hp
      rw [h4] at hp
      have hnil : SessionCallbacks (κ := κ) S False [] := fun s hs => by cases hs
      obtain ⟨cbs', c', hrun, -⟩ :=
        readDone_core (suffices_of_quiet hpub) hcore hin hw (.received _ h1 h2 h3 h4) h4 hnil False.elim
      rw [Option.map_eq_none_iff, hrun] at hp
      cases hp
  · intro k
    have hp := hq.send k
    unfold step at hp
    rw [if_neg hb] at hp
    exact Option.map_eq_none_iff.mp hp
  · have hp := hq.writeDone
    unfold step at hp
    rw [if_neg hb] at hp
    dsimp only at hp
    rcases hs : c.socket.writesDone with _ | ⟨ec, writesDone⟩
    · rfl
    · rw [hs] at hp
      cases hp

/-! ### The theorem -/

section Theorem

variable (srv : Server σ) (s0 : σ)

/-- The handlers of the commands issued, each with the reply of the server to its command. -/
def dialogue (t : List (Action κ)) : List (Option κ × RedisValue) :=
  ((issued t).map Prod.snd).zip
    ((srv.answers s0 ((issued t).map fun q => q.1.map RedisBuffer.data)).map Reply.value)

end Theorem

variable {srv : Server σ} {s0 : σ} {n : ℕ} {c c' : RedisClientImpl κ}

theorem take_zip {α β : Type} (k : ℕ) (a : List α) (b : List β) :
    a.zip (b.take k) = (a.zip b).take k := by
  induction k generalizing a b with
  | zero => simp
  | succ k ih =>
    cases a <;> cases b <;> simp [ih]

/-- The replies among the items of a server that only replies. -/
theorem answered_publisher (x : Progress κ) :
    answered srv.publisher s0 x = (srv.answers s0 (contents x.run)).take x.processed := by
  unfold answered written
  rw [Server.items_publisher, ← List.map_take, Publisher.replies_map_reply]

/-- The handlers called are those of the first commands issued, each with its own reply. -/
theorem expected_eq_take {x : Progress κ}
    (h : Core srv.publisher s0 (fun _ => False) False n x c) :
    expected srv.publisher s0 x = (dialogue srv s0 (c.trace.drop n)).take x.processed := by
  have hlen : (srv.answers s0 (contents x.run)).length = x.run.length := by
    rw [Server.length_answers, contents, List.length_map]
  have hle : x.processed ≤ x.run.length := by
    have hp := h.processed_le
    unfold written at hp
    rwa [Server.items_publisher, List.length_map, hlen] at hp
  have hhandlers : ((x.run ++ x.posted).map Request.pair).map Prod.snd =
      x.run.map Request.handler ++ x.posted.map Request.handler := by
    simp [Request.pair, Function.comp_def]
  unfold expected dialogue
  rw [answered_publisher, h.issued, contents_pairs, contents_append, Server.answers_append,
    hhandlers, ← take_zip, ← List.map_take, List.take_append_of_le_length (by omega)]
  refine (zip_append_left ?_).symm
  rw [List.length_map, List.length_map, List.length_take]
  omega

/-- A session of commands. -/
theorem command_session {handler : κ} {cbs : Callbacks κ} {es : List (Event κ)}
    (hready : Ready (srv.peer s0) handler c) (hcbs : ∀ s ∈ cbs, CommandScript s)
    (hes : ∀ e ∈ es, CommandEvent e) (hrun : run (.connectDone cbs :: es) c = some c') :
    InSession srv.publisher s0 (fun _ => False) False c.trace.length c' := by
  obtain ⟨c1, h1, h2⟩ := Option.bind_eq_some_iff.mp hrun
  rw [← Server.peer_publisher] at hready
  have hs1 := connectDone_session (S := fun _ => False) hready
    (fun s hs => sessionScript_of_command (hcbs s hs)) h1 False.elim
  exact session_run (suffices_of_quiet (srv.quiet_publisher _ s0)) (fun e he => sessionEvent_of_command (hes e he)) hs1
    h2 False.elim

theorem replies_le_dialogue (h : InSession srv.publisher s0 (fun _ => False) False n c) :
    replies (c.trace.drop n) <+: dialogue srv s0 (c.trace.drop n) := by
  obtain ⟨x, data, hcore, -⟩ := h
  rw [hcore.replies, expected_eq_take hcore]
  exact List.take_prefix _ _

/-- At rest, all handlers have been called. -/
theorem replies_eq_dialogue (h : InSession srv.publisher s0 (fun _ => False) False n c)
    (hrest : AtRest c) : replies (c.trace.drop n) = dialogue srv s0 (c.trace.drop n) := by
  obtain ⟨x, hcore, hposted, -, hall⟩ := atRest_all h hrest
  rw [hcore.replies, expected_eq_take hcore]
  refine List.take_of_length_le ?_
  have hrunlen : x.processed = x.run.length := by
    rw [hall]
    unfold written
    rw [Server.items_publisher, List.length_map, Server.length_answers, contents, List.length_map]
  have hlen : (dialogue srv s0 (c.trace.drop n)).length = x.run.length := by
    unfold dialogue
    rw [hcore.issued, hposted, List.append_nil, contents_pairs, List.length_zip,
      List.length_map, List.length_map, List.length_map, Server.length_answers, contents,
      List.length_map, Nat.min_self]
  omega

/-- **Every reply reaches its own handler.** On a connection used through `command` and `publish`
only, the handlers are called in the order of the commands, each with the reply to its own command
and none twice; the error handler is not called. When the loop can do nothing more, the handlers of
all commands have been called; and while the user's code does nothing, it can only do so many
steps. -/
theorem replies_reach_handlers (srv : Server σ) (s0 : σ) {handler : κ} {cbs : Callbacks κ}
    {es : List (Event κ)} (hready : Ready (srv.peer s0) handler c)
    (hcbs : ∀ s ∈ cbs, CommandScript s) (hes : ∀ e ∈ es, CommandEvent e)
    (hrun : run (.connectDone cbs :: es) c = some c') :
    replies (c'.trace.drop c.trace.length) <+: dialogue srv s0 (c'.trace.drop c.trace.length) ∧
    errors (c'.trace.drop c.trace.length) = [] ∧
    (Quiescent c' →
      replies (c'.trace.drop c.trace.length) = dialogue srv s0 (c'.trace.drop c.trace.length)) ∧
    ∃ m, ∀ es', (∀ e ∈ es', QuietEvent e) → run es' c' ≠ none → es'.length ≤ m := by
  have hs := command_session hready hcbs hes hrun
  have hpub := srv.quiet_publisher (fun _ => False) s0
  refine ⟨replies_le_dialogue hs, ?_, fun hq => replies_eq_dialogue hs (hq.atRest hpub hs),
    weight (total srv.publisher s0 c.trace.length c') c', fun es' hes' hr => ?_⟩
  · obtain ⟨x, data, hcore, -⟩ := hs
    exact hcore.errors
  · obtain ⟨c'', hr⟩ := Option.ne_none_iff_exists'.mp hr
    exact rest hpub hes' hs hr

/-! ### A session with three commands -/

/-- A server that answers `+PONG`. -/
def pong : Server Unit where
  step _ _ := ((), ⟨.simple (chars "PONG"), by
    show ∀ b ∈ chars "PONG", Parser.Grammar.printable b
    decide +kernel⟩)

/-- A new client is connected. -/
def dial (peer : Peer) : List (Event ℕ) :=
  [.user (.call (.connect .tcp 0) .returns .returns), .connectOk peer]

theorem ready_dial (peer : Peer) : ∃ c, run (dial peer) .new = some c ∧ Ready peer 0 c :=
  ⟨_, rfl, ⟨rfl, rfl, rfl, ⟨rfl, rfl, rfl⟩, rfl, rfl, rfl⟩⟩

/-- The connect handler issues a command, and the handler of the first reply a third one. The first
command is sent in two pieces; its reply is received in two pieces, the second of them together with
the reply to the second command. -/
def threeCommands : List (Event ℕ) :=
  [.connectDone [.call (.command [65] [] (some 1)) .returns .returns], .posted [], .send 3,
    .user (.call (.command [66] [] (some 2)) .returns .returns), .posted [], .send 99,
    .writeDone [], .send 99, .writeDone [], .receive 2, .readDone [], .receive 99,
    .readDone [.call (.publish [67] (.vector [0]) (some 3)) .returns .returns], .posted [], .send 99,
    .writeDone [], .receive 99, .readDone []]

example : ((run (dial (pong.peer ())) .new).bind (run threeCommands)).map
    (fun c => replies c.trace) = some [(some 1, .bytes (chars "PONG") false),
      (some 2, .bytes (chars "PONG") false), (some 3, .bytes (chars "PONG") false)] := by
  decide +kernel

theorem replies_reach_handlers_three : ∃ c c', run (dial (pong.peer ())) .new = some c ∧
    run threeCommands c = some c' ∧
    (replies (c'.trace.drop c.trace.length) <+:
        dialogue pong () (c'.trace.drop c.trace.length) ∧
      errors (c'.trace.drop c.trace.length) = [] ∧
      (Quiescent c' → replies (c'.trace.drop c.trace.length) =
        dialogue pong () (c'.trace.drop c.trace.length)) ∧
      ∃ m, ∀ es', (∀ e ∈ es', QuietEvent e) → run es' c' ≠ none → es'.length ≤ m) := by
  obtain ⟨c, hc, hready⟩ := ready_dial (pong.peer ())
  have hsome : ((run (dial (pong.peer ())) .new).bind (run threeCommands)).isSome := by
    decide +kernel
  rw [hc, Option.bind_some] at hsome
  obtain ⟨c', hc'⟩ := Option.isSome_iff_exists.mp hsome
  exact ⟨c, c', hc, hc', replies_reach_handlers pong () hready (by decide) (by decide) hc'⟩

end RedisClient.Async.OwnReplies

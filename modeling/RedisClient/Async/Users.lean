import RedisClient.Lib.Sharing
import RedisClient.Async.Faults
import RedisClient.Sync.Session

/-! # Users of one client

A `RedisAsyncClient` can be shared: each of its users issues a command, and the next one when the
handler of the last has been called. The commands of all users go over one connection, in the order in
which they are issued.

If what one user asks the server for does not concern the others, each of them is told what the server
would tell it alone, as far as it is told anything: neither the other users, nor what has been thrown,
nor reads that fail can change that (`users_alone`). -/

namespace RedisClient.Async.Users

open RedisClient.Value RedisClient.Parser.RoundTrip RedisClient.Commands RedisClient.Peers
open RedisClient.Lib.Programs RedisClient.Lib.Sharing
open RedisClient.Async.Asio RedisClient.Async.Defs RedisClient.Async.Rules RedisClient.Async.Trace
open RedisClient.Async.Runs RedisClient.Async.OwnReplies RedisClient.Async.Progress
open RedisClient.Async.Faults
open RedisClient.Async.Subscribing (dial_run)
open RedisClient.Sync.Session (wf_bit)

variable {κ σ : Type} {c c' : RedisClientImpl κ} {cbs : Callbacks κ}

/-! ### The server as a service -/

/-- The value of the reply to a command, and the state after it. -/
def service (srv : Server σ) (cmd : List Bytes) (s : σ) : RedisValue × σ :=
  ((srv.step s cmd).2.value, (srv.step s cmd).1)

theorem answers_service (srv : Server σ) : ∀ (cmds : List (List Bytes)) (s : σ),
    answers (service srv) cmds s = (srv.answers s cmds).map Reply.value
  | [], _ => rfl
  | cmd :: cmds, s => congrArg ((srv.step s cmd).2.value :: ·) (answers_service srv cmds _)

/-! ### What the users do

A user is known by its handler, a token. -/

/-- The commands issued, each with its user. -/
def log (t : List (Action κ)) : List (Option κ × List Bytes) :=
  (issued t).map fun q => (q.2, q.1.map RedisBuffer.data)

theorem dialogue_log (srv : Server σ) (s0 : σ) (t : List (Action κ)) : dialogue srv s0 t =
    ((log t).map Prod.fst).zip (answers (service srv) ((log t).map Prod.snd) s0) := by
  unfold dialogue log
  rw [answers_service, List.map_map, List.map_map]
  rfl

variable [DecidableEq κ]

/-- The commands of a user. -/
def issuedBy (i : κ) (t : List (Action κ)) : List (List Bytes) := ofUser (some i) (log t)

/-- What the handler of a user has been called with. -/
def toldTo (i : κ) (t : List (Action κ)) : List RedisValue := ofUser (some i) (replies t)

/-- **The users run their programs**: each command is one that its user may issue, and the next one of
its program after what it has been told. -/
structure RunPrograms (own : Option κ → List Bytes → Prop)
    (programs : κ → Program (List Bytes) RedisValue) (t : List (Action κ)) : Prop where
  own : ∀ e ∈ log t, own e.1 e.2
  next : ∀ i, issuedBy i t <+: requests (programs i) (toldTo i t)

/-! ### The theorem -/

/-- **Each user is told what it would be told alone.** On a connection used through `command` and
`publish` by users that are apart, the handler of each is called with the first of the answers that its
program gets from the server alone, and with all of them if it has issued all it could and no reply to
it is missing. -/
theorem users_alone (srv : Server σ) (s0 : σ) {handler : κ} {es0 es : List (Event κ)}
    {own : Option κ → List Bytes → Prop} {like : κ → σ → σ → Prop}
    {programs : κ → Program (List Bytes) RedisValue}
    (hrun0 : run es0 .new = some c) (hready : Ready (srv.peer s0) handler c)
    (hcbs : AllOf IsCommand cbs) (hes : ∀ e ∈ es, Sends e)
    (hrun : run (.connectDone cbs :: es) c = some c')
    (hapart : Apart (service srv) own like) (hlike : ∀ i, like i s0 s0)
    (hfollows : RunPrograms own programs (c'.trace.drop c.trace.length)) (i : κ) :
    toldTo i (c'.trace.drop c.trace.length) <+: (serve (service srv) (programs i) s0).1 ∧
      (issuedBy i (c'.trace.drop c.trace.length) =
          requests (programs i) (toldTo i (c'.trace.drop c.trace.length)) →
        (toldTo i (c'.trace.drop c.trace.length)).length =
          (issuedBy i (c'.trace.drop c.trace.length)).length →
        toldTo i (c'.trace.drop c.trace.length) = (serve (service srv) (programs i) s0).1) := by
  set t := c'.trace.drop c.trace.length with ht
  obtain ⟨c1, h1, h2⟩ := Option.bind_eq_some_iff.mp hrun
  have hbegin := connectDone_attends hready (parser_run hrun0) hcbs h1
  have hattends := run_events (fun _ _ _ he h h1 => step_attends he h h1) hes hbegin h2
  have hreplies : replies t <+: dialogue srv s0 t := hattends.replies_le
  have htold : toldTo i t <+: answers (service srv) (issuedBy i t) s0 := by
    have hmine := ofUser_prefix (i := some i) hreplies
    rwa [dialogue_log, answers_alone hapart hfollows.own (hlike i)] at hmine
  exact told_serve (programs i) (hfollows.next i) htold

/-! ### Two users of two bits -/

/-- A server with two bits. The commands `A` and `B` answer with one of them and change it. -/
def bits : Server (Bool × Bool) where
  step s cmd :=
    if cmd = [[65]] then ((!s.1, s.2), ⟨.int (if s.1 then 1 else 0), wf_bit s.1⟩)
    else ((s.1, !s.2), ⟨.int (if s.2 then 1 else 0), wf_bit s.2⟩)

/-- The command of a user. -/
def theirs (h : Option ℕ) (cmd : List Bytes) : Prop :=
  h = some 1 ∧ cmd = [[65]] ∨ h = some 2 ∧ cmd = [[66]]

/-- The bit of a user. -/
def alike (i : ℕ) (s s' : Bool × Bool) : Prop := (i = 1 → s.1 = s'.1) ∧ (i = 2 → s.2 = s'.2)

/-- The first user goes on until its bit has been set. -/
def twoUsers : ℕ → Program (List Bytes) RedisValue
  | 1 => .ask [[65]] fun v => if v = .int 0 then .ask [[65]] fun _ => .done else .done
  | 2 => .ask [[66]] fun _ => .done
  | _ => .done

theorem bits_apart : Apart (service bits) theirs alike where
  answer ha h := by
    rcases ha with ⟨hi, rfl⟩ | ⟨hi, rfl⟩
    · simp [service, bits, h.1 (Option.some.inj hi)]
    · simp [service, bits, h.2 (Option.some.inj hi)]
  step ha h := by
    rcases ha with ⟨hi, rfl⟩ | ⟨hi, rfl⟩ <;> cases hi
    · exact ⟨fun _ => congrArg (!·) (h.1 rfl), fun hi => absurd hi (by decide)⟩
    · exact ⟨fun hi => absurd hi (by decide), fun _ => congrArg (!·) (h.2 rfl)⟩
  others ha hne h := by
    rcases ha with ⟨rfl, rfl⟩ | ⟨rfl, rfl⟩
    · exact ⟨fun hi => absurd (congrArg some hi.symm) hne, h.2⟩
    · exact ⟨h.1, fun hi => absurd (congrArg some hi.symm) hne⟩

/-- The handler of the first user issues its second command, while the reply to the second user has
been received with the first one. -/
def sharing : List (Event ℕ) :=
  [.connectDone [.call (.command [65] [] (some 1)) .returns .returns],
    .user (.call (.command [66] [] (some 2)) .returns .returns), .posted [], .posted [], .send 99,
    .writeDone [], .send 99, .writeDone [], .receive 99,
    .readDone [.call (.command [65] [] (some 1)) .returns .returns], .posted [], .send 99,
    .receive 99, .readDone []]

theorem users_alone_sharing : ∃ c c', run (dial (bits.peer (false, false))) .new = some c ∧
    run sharing c = some c' ∧
    toldTo 1 (c'.trace.drop c.trace.length) =
      (serve (service bits) (twoUsers 1) (false, false)).1 ∧
    replies (c'.trace.drop c.trace.length) =
      [(some 1, .int 0), (some 2, .int 0), (some 1, .int 1)] := by
  obtain ⟨c, hc, hready⟩ := ready_dial (bits.peer (false, false))
  obtain ⟨c1, c', hc1, hc', hlog, hreplies⟩ := dial_run (bits.peer (false, false)) sharing
    (fun k c' => log (c'.trace.drop k) = [(some 1, [[65]]), (some 2, [[66]]), (some 1, [[65]])] ∧
      replies (c'.trace.drop k) = [(some 1, .int 0), (some 2, .int 0), (some 1, .int 1)])
    (by decide +kernel)
  rw [hc] at hc1
  cases hc1
  have hfollows : RunPrograms theirs twoUsers (c'.trace.drop c.trace.length) := by
    refine ⟨?_, fun i => ?_⟩
    · rw [hlog]
      unfold theirs
      decide
    · unfold issuedBy toldTo
      rw [hlog, hreplies]
      by_cases h1 : i = 1
      · subst h1
        exact List.prefix_refl _
      · by_cases h2 : i = 2
        · subst h2
          exact List.prefix_refl _
        · have hnone : ofUser (some i) [(some 1, [[65]]), (some 2, [[66]]), (some 1, [[(65 : UInt8)]])] = [] := by
            simp [ofUser, Ne.symm h1, Ne.symm h2]
          rw [hnone]
          exact List.nil_prefix
  refine ⟨c, c', hc, hc', ?_, hreplies⟩
  refine (users_alone bits (false, false) hc hready (by decide) (by decide) hc' bits_apart
    (fun _ => ⟨fun _ => rfl, fun _ => rfl⟩) hfollows 1).2 ?_ ?_
  · unfold issuedBy toldTo
    rw [hlog, hreplies]
    rfl
  · unfold issuedBy toldTo
    rw [hlog, hreplies]
    rfl

end RedisClient.Async.Users

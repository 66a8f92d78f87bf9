import RedisClient.Async.Faults
import RedisClient.Sync.Programs

/-! # The two clients

A program with the calls of `RedisSyncClient` asks for one command or pipeline at a time and waits for
the answer; a `RedisAsyncClient` has any number of commands under way. If both issue the same commands
to the same server, they are told the same: the k-th value that the one is returned is the one that
the k-th handler of the other is called with (`clients_agree`). Anything may fail in the first; in the
second reads may fail and the user's code may throw, but no write fails. -/

namespace RedisClient.Agreement

open RedisClient.Value RedisClient.Parser.Defs RedisClient.Parser.RoundTrip RedisClient.Commands
open RedisClient.Peers RedisClient.Lib.Programs
open RedisClient.Sync.Defs (ConnectCalls Try)
open RedisClient.Sync.Session (Request lineA alternating)
open RedisClient.Sync.Programs
open RedisClient.Async.Defs (Event Callbacks Script)
open RedisClient.Async.Trace (issued replies)
open RedisClient.Async.Rules (AllOf)
open RedisClient.Async.Runs (Ready)
open RedisClient.Async.OwnReplies (IsCommand dialogue dial ready_dial)
open RedisClient.Async.Faults (Sends Attends step_attends connectDone_attends)

variable {κ σ : Type} {srv : Server σ} {s0 : σ}

/-! ### What the synchronous client is told -/

/-- The values in an answer, one for each command. -/
def valuesOf : Request → RedisValue → List RedisValue
  | .command _, v => [v]
  | .pipelined _, v => v.toArray

/-- The values in the answers to some requests. -/
def toldAll (reqs : List Request) (vs : List RedisValue) : List RedisValue :=
  (reqs.zipWith valuesOf vs).flatten

/-- The contents of the commands in some requests. -/
def contents (reqs : List Request) : List (List Bytes) :=
  (reqs.flatMap Request.commands).map Command.contents

/-- **The server itself** answers a program with its replies to the commands. -/
theorem toldAll_serve : ∀ (p : Program Request RedisValue) (s : σ),
    toldAll (asked (onServer srv) p s) (serve (onServer srv) p s).1 =
      (srv.answers s (contents (asked (onServer srv) p s))).map Reply.value
  | .done, _ => rfl
  | .ask req next, s => by
    have ih := toldAll_serve (next (onServer srv req s).1) (onServer srv req s).2
    have hone : valuesOf req (onServer srv req s).1 =
        (srv.answers s (req.commands.map Command.contents)).map Reply.value := by
      cases req <;> rfl
    have hcons : toldAll (asked (onServer srv) (.ask req next) s)
        (serve (onServer srv) (.ask req next) s).1 = valuesOf req (onServer srv req s).1 ++
          toldAll (asked (onServer srv) (next (onServer srv req s).1) (onServer srv req s).2)
            (serve (onServer srv) (next (onServer srv req s).1) (onServer srv req s).2).1 := rfl
    rw [hcons, ih, hone]
    unfold contents
    rw [asked, List.flatMap_cons, List.map_append (f := Command.contents), Server.answers_append,
      List.map_append]
    rfl

theorem toldAll_grows : ∀ (reqs : List Request) {vs ws : List RedisValue}, vs <+: ws →
    toldAll reqs vs <+: toldAll reqs ws
  | [], _, _, _ => List.nil_prefix
  | req :: reqs, [], _, _ => List.nil_prefix
  | req :: reqs, v :: vs, ws, h => by
    obtain ⟨u, rfl⟩ := h
    have ih := toldAll_grows reqs (List.prefix_append vs u)
    exact (List.prefix_append_right_inj _).mpr ih

/-! ### The theorem -/

/-- Two lists that begin like a third one have the same elements, as far as both go. -/
theorem getElem?_of_prefixes {α : Type} {a b l : List α} (ha : a <+: l) (hb : b <+: l) {k : ℕ}
    {x y : α} (hx : a[k]? = some x) (hy : b[k]? = some y) : x = y := by
  have h1 := Async.Session.getElem?_grows ha hx
  have h2 := Async.Session.getElem?_grows hb hy
  rw [h1] at h2
  exact Option.some.inj h2

theorem eq_of_prefixes {α : Type} {a b l : List α} (ha : a <+: l) (hb : b <+: l)
    (hlen : a.length = b.length) : a = b := by
  rw [List.prefix_iff_eq_take.mp ha, List.prefix_iff_eq_take.mp hb, hlen]

/-- **The two clients are told the same** on new connections to a server, by programs that issue the
same commands, if no write of the asynchronous one fails: as far as both are told anything, and in
whole, if the one is not stopped and all handlers of the other have been called. -/
theorem clients_agree {tcpNoDelay : Bool} {o : ConnectCalls} {d d' : Sync.Defs.RedisClientImpl}
    {p : Program Request RedisValue} {ts ts' : List Try} {vs : List RedisValue}
    {stop : Option Thrown} {handler : κ} {cbs : Callbacks κ} {es0 es : List (Event κ)}
    {c c' : Async.Defs.RedisClientImpl κ}
    (hconnect : connectTcp tcpNoDelay o (srv.peer s0) (newThrowing (srv.peer s0)) = some (none, d))
    (hattempt : attempt call p (d, ts) = some (vs, stop, d', ts'))
    (hrun0 : Async.Defs.run es0 .new = some c) (hready : Ready (srv.peer s0) handler c)
    (hcbs : AllOf IsCommand cbs) (hes : ∀ e ∈ es, Sends e)
    (hrun : Async.Defs.run (.connectDone cbs :: es) c = some c')
    (hsame : contents (asked (onServer srv) p s0) =
      (issued (c'.trace.drop c.trace.length)).map fun q => q.1.map RedisBuffer.data) :
    (∀ (k : ℕ) (v w : RedisValue), (toldAll (asked (onServer srv) p s0) vs)[k]? = some v →
      ((replies (c'.trace.drop c.trace.length)).map Prod.snd)[k]? = some w → v = w) ∧
    (stop = none → (replies (c'.trace.drop c.trace.length)).length =
        (issued (c'.trace.drop c.trace.length)).length →
      toldAll (asked (onServer srv) p s0) vs =
        (replies (c'.trace.drop c.trace.length)).map Prod.snd) := by
  set t := c'.trace.drop c.trace.length with ht
  set A := (srv.answers s0 (contents (asked (onServer srv) p s0))).map Reply.value with hA
  -- the synchronous client
  have hwhole : toldAll (asked (onServer srv) p s0) (serve (onServer srv) p s0).1 = A :=
    toldAll_serve p s0
  rw [connectTcp_opened hconnect] at hattempt
  have hstep : ∀ req s x r, Serving srv s0 ts s x → call req x = some r →
      Simulates (Serving srv s0 ts) (Stopped ts) (onServer srv req s).1 (onServer srv req s).2 r :=
    fun req s x r hx h1 => call_serves hx h1
  have hall := attempt_serve hstep p (serving_opened ts) hattempt
  have hsync : toldAll (asked (onServer srv) p s0) vs <+: A ∧
      (stop = none → toldAll (asked (onServer srv) p s0) vs = A) := by
    rw [← hwhole]
    cases stop with
    | none =>
      obtain ⟨hvs, -⟩ := hall
      change vs = _ at hvs
      rw [hvs]
      exact ⟨List.prefix_refl _, fun _ => rfl⟩
    | some e => exact ⟨toldAll_grows _ hall.1, fun h => by cases h⟩
  -- the asynchronous client
  obtain ⟨c1, h1, h2⟩ := Option.bind_eq_some_iff.mp hrun
  have hbegin := connectDone_attends hready (Async.Progress.parser_run hrun0) hcbs h1
  have h := Async.Rules.run_events (fun _ _ _ he h h1 => step_attends he h h1) hes hbegin h2
  have hlen : A.length = (issued t).length := by
    rw [hA, hsame, List.length_map, Server.length_answers, List.length_map]
  have hasync : (replies t).map Prod.snd <+: A := by
    have hpairs := h.replies_le.map Prod.snd
    have hsnd : (dialogue srv s0 t).map Prod.snd = A := by
      unfold dialogue
      rw [← hsame]
      exact List.map_snd_zip (hlen.trans (List.length_map _).symm).le
    rwa [hsnd] at hpairs
  refine ⟨fun k v w hv hw => getElem?_of_prefixes hsync.1 hasync hv hw, fun hstop hreplies => ?_⟩
  refine eq_of_prefixes hsync.1 hasync ?_
  rw [hsync.2 hstop, hlen, List.length_map, hreplies]

/-- A command and a pipeline of one. -/
def inTurn : Program Request RedisValue :=
  .ask (.command lineA) fun _ => .ask (.pipelined [lineA.command]) fun _ => .done

/-- The same two commands, both on their way before a reply comes. -/
def together : List (Event ℕ) :=
  [.posted [], .user (.call (.command [65] [] (some 2)) .returns .returns), .posted [], .send 99,
    .writeDone [], .send 99, .receive 99, .readDone []]

theorem clients_agree_together : ∃ d d' c c',
    connectTcp true allWell (alternating.peer false) (newThrowing (alternating.peer false)) =
      some (none, d) ∧
    attempt call inTurn (d, List.replicate 4 (.moved 99)) =
      some ([.int 0, .array [.int 1]], none, d', []) ∧
    Async.Defs.run (dial (alternating.peer false)) .new = some c ∧
    Async.Defs.run
      (.connectDone [.call (.command [65] [] (some 1)) .returns .returns] :: together) c = some c' ∧
    toldAll (asked (onServer alternating) inTurn false) [.int 0, .array [.int 1]] =
      (replies (c'.trace.drop c.trace.length)).map Prod.snd := by
  have hattempt : (attempt call inTurn (Sync.Defs.connected (alternating.peer false)
      (newThrowing (alternating.peer false)), List.replicate 4 (.moved 99))).map
      (fun r => (r.1, r.2.1, r.2.2.2)) =
      some ([.int 0, .array [.int 1]], none, []) := by decide +kernel
  obtain ⟨⟨vs, stop, d', ts'⟩, h, heq⟩ := Option.map_eq_some_iff.mp hattempt
  obtain ⟨rfl, heq⟩ := Prod.mk.inj heq
  obtain ⟨rfl, rfl⟩ := Prod.mk.inj heq
  have hconnect : connectTcp true allWell (alternating.peer false)
      (newThrowing (alternating.peer false)) = some (none, Sync.Defs.connected
        (alternating.peer false) (newThrowing (alternating.peer false))) := rfl
  obtain ⟨c, hc, hready⟩ := ready_dial (alternating.peer false)
  obtain ⟨c1, c', hc1, hc', hsame, hreplies⟩ := Async.Subscribing.dial_run (alternating.peer false)
    (.connectDone [.call (.command [65] [] (some 1)) .returns .returns] :: together)
    (fun k c' => contents (asked (onServer alternating) inTurn false) =
        (issued (c'.trace.drop k)).map (fun q => q.1.map RedisBuffer.data) ∧
      (replies (c'.trace.drop k)).length = (issued (c'.trace.drop k)).length) (by decide +kernel)
  rw [hc] at hc1
  cases hc1
  exact ⟨_, d', c, c', hconnect, h, hc, hc', (clients_agree hconnect h hc hready (by decide)
    (by decide) hc' hsame).2 rfl hreplies⟩

end RedisClient.Agreement

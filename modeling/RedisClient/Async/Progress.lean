import RedisClient.Async.Disconnect
import RedisClient.Async.Moments
import RedisClient.Parser.Values

/-! # No completion handler is stuck

The loop of `asyncRead` calls the parser on what is left of the buffer until nothing is left. The
parser of a client is always one that calls on nonempty chunks lead to, whatever connects replace it
and whatever the callbacks do (`parser_run`), so each call takes at least one byte and the loop comes to
its end: everything that waits for its turn in the event loop can be run (`step_possible`). -/

namespace RedisClient.Async.Progress

open RedisClient.Value RedisClient.Parser.Defs RedisClient.Parser.Values RedisClient.Async.Asio
open RedisClient.Async.Defs RedisClient.Async.Rules RedisClient.Async.Moments
open RedisClient.Async.Disconnect (parserAfter body_connect)
open RedisClient.Sync.Defs (ErrorCode parserError)

variable {κ : Type} {c c' : RedisClientImpl κ}

/-! ### The parser -/

theorem body_parses (call : Call κ) (h : Reachable c.redisParser) :
    Reachable (call.body c).2.2.redisParser := by
  have hb := body_cases call c
  rcases hx : call.body c with ⟨action, handle, c'⟩
  rw [hx] at hb
  cases hb with
  | connect endpoint handler p hidle =>
    rw [body_connect endpoint handler hidle.symm] at hx
    cases hx
    show Reachable (parserAfter endpoint c.state c.redisParser)
    unfold parserAfter
    split_ifs
    · exact .fresh
    · exact h
  | _ => exact h

theorem next_parses (m : Moment κ) (h : Reachable m.client.redisParser) :
    Reachable m.next.redisParser := by
  rcases m with ⟨c, a, s⟩
  cases a with
  | call state call => exact body_parses (c := c.log (.call state call)) call h
  | _ => exact h

/-- What is carried: the parser is one that can be reached. -/
def Parses (c : RedisClientImpl κ) (_ : List (Moment κ)) (c' : RedisClientImpl κ) : Prop :=
  Reachable c.redisParser → Reachable c'.redisParser

theorem carriesCalls_parses : CarriesCalls (κ := κ) (fun _ => True) Parses :=
  carriesCalls_of_scripted (fun _ => id) (fun h h' => h' ∘ h) fun m _ _ => next_parses m

theorem callback_parses (cbs : Callbacks κ) (h : Reachable c.redisParser) :
    Reachable (callback cbs c).2.2.redisParser := by
  have hcall : Parses c (scriptMoments (cbs.headD .returns) c) (callback cbs c).2.2 :=
    carriesCalls_parses.afterEntry fun _ _ => trivial
  exact hcall h

theorem callErrorHandler_parses (r : Report) (cbs : Callbacks κ) (h : Reachable c.redisParser) :
    Reachable (callErrorHandler r cbs c).2.2.redisParser :=
  callback_parses cbs (c := c.log (.error r)) h

theorem doProcessMessage_parses (v : RedisValue) (cbs : Callbacks κ)
    (h : Reachable c.redisParser) : Reachable (doProcessMessage v cbs c).2.2.redisParser := by
  obtain ⟨ms, -, ⟨channel, msg, -, hd⟩ | ⟨-, -, hd⟩ | ⟨text, -, -, hd⟩⟩ :=
    doProcessMessage_cases v cbs c <;> rw [hd]
  · obtain ⟨posts, ss, hp⟩ := subscribers_posts channel msg (c.log (.doProcessMessage c.state v))
    rw [hp]
    exact h
  · exact carriesCalls_parses.callFront (c := c.log (.doProcessMessage c.state v)) (fun _ => id)
      (fun _ => id) (fun _ _ => trivial) h
  · exact callErrorHandler_parses _ cbs h

/-- **The loop of `asyncRead` comes to its end**, with a parser that can be reached. -/
theorem readLoop_parses : ∀ (fuel : ℕ) {data : Bytes} (cbs : Callbacks κ) {c : RedisClientImpl κ},
    data.length ≤ fuel → Reachable c.redisParser →
    ∃ o, readLoop fuel data cbs c = some o ∧ Reachable o.2.2.redisParser
  | fuel, [], cbs, c, _, h => by
    have hend : readLoop fuel [] cbs c = some (.returns, cbs, processMessage c) := by
      cases fuel <;> rfl
    exact ⟨_, hend, h⟩
  | fuel + 1, b :: data, cbs, c, hlen, h => by
    have hne : b :: data ≠ [] := List.cons_ne_nil _ _
    rw [readLoop, if_neg hne]
    rcases values_parse h hne with ⟨k, p, hparse, hk, -, -⟩ | ⟨p, hparse, -⟩ | ⟨k, p, hparse, -⟩ <;>
      rw [hparse] <;> dsimp only
    · have h1 := doProcessMessage_parses (c := { c with redisParser := (result p).2 }) (result p).1 cbs
        (h.parse hne hparse).result
      have hle : ((b :: data).drop k).length ≤ fuel := by
        rw [List.length_drop]
        omega
      rcases hx : doProcessMessage (result p).1 cbs { c with redisParser := (result p).2 } with
        ⟨_ | _ | _, cbs1, c1⟩ <;> rw [hx] at h1
      · exact readLoop_parses fuel cbs1 hle h1
      · exact ⟨_, rfl, h1⟩
      · exact ⟨_, rfl, h1⟩
    · exact ⟨_, rfl, h.parse hne hparse⟩
    · exact ⟨_, rfl, callErrorHandler_parses _ cbs (h.parse hne hparse)⟩

theorem asyncRead_parses (ec : ErrorCode) (size : ℕ) (cbs : Callbacks κ)
    (h : Reachable c.redisParser) :
    ∃ o, asyncRead ec size cbs c = some o ∧ Reachable o.2.2.redisParser := by
  unfold asyncRead
  split_ifs
  · exact ⟨_, rfl, callErrorHandler_parses _ cbs h⟩
  · exact ⟨_, rfl, h⟩
  · exact readLoop_parses size cbs (List.length_take_le _ _) h

theorem asyncWrite_parses (ec : ErrorCode) (cbs : Callbacks κ) (h : Reachable c.redisParser) :
    Reachable (asyncWrite ec cbs c).2.2.redisParser := by
  unfold asyncWrite
  dsimp only
  split_ifs
  · exact callErrorHandler_parses (c := { c with dataWrited := [] }) _ cbs h
  · exact h
  · exact h

theorem runPosted_parses (f : Posted κ) (cbs : Callbacks κ) (h : Reachable c.redisParser) :
    Reachable (runPosted f cbs c).2.2.redisParser := by
  cases f with
  | doAsyncCommand buff handler =>
    simp only [runPosted, doAsyncCommand]
    split_ifs
    · exact asyncWrite_parses none cbs h
    · exact h
  | message msgHandler msg => exact callback_parses cbs (c := c.log (.message msgHandler msg)) h

theorem handleAsyncConnect_parses (ec : ErrorCode) (handler : κ) (cbs : Callbacks κ)
    (h : Reachable c.redisParser) :
    Reachable (handleAsyncConnect ec handler cbs c).2.2.redisParser := by
  cases ec with
  | none =>
    have h1 := callback_parses cbs (c := { c with state := .connected }.log (.connect none handler)) h
    rcases handleAsyncConnect_cases handler cbs c with ⟨cbs1, c1, hcb, hd⟩ | ⟨-, hd⟩ <;> rw [hd]
    · rw [hcb] at h1
      exact h1
    · exact h1
  | some e =>
    exact callback_parses cbs (c := { c with state := .unconnected }.log (.connect (some e) handler)) h

theorem client_parses {o : Outcome κ} (h : Reachable o.2.2.redisParser) :
    Reachable o.client.redisParser := by
  rcases o with ⟨_ | _ | _, cbs, c⟩ <;> exact h

theorem step_parses {e : Event κ} (h : Reachable c.redisParser) (hstep : step e c = some c') :
    Reachable c'.redisParser := by
  obtain ⟨-, hs⟩ := step_cases hstep
  cases hs with
  | user s => exact carriesCalls_parses.runScript s c (fun _ _ => trivial) h
  | @posted cbs f strand hs =>
    exact client_parses (runPosted_parses (c := { c with strand := strand }) f cbs h)
  | @readDone cbs ec size readsDone o hs ho =>
    obtain ⟨o', ho', hp⟩ := asyncRead_parses
      (c := { c with socket := { c.socket with readsDone := readsDone } }) ec size cbs h
    rw [ho'] at ho
    cases ho
    exact client_parses hp
  | @writeDone cbs ec writesDone hs =>
    exact client_parses (asyncWrite_parses
      (c := { c with socket := { c.socket with writesDone := writesDone } }) ec cbs h)
  | @connectDone cbs ec handler connectsDone hs =>
    exact client_parses (handleAsyncConnect_parses
      (c := { c with socket := { c.socket with connectsDone := connectsDone } }) ec handler cbs h)
  | _ => exact h

/-- **The parser of a client** is one that calls on nonempty chunks lead to. -/
theorem parser_run {es : List (Event κ)} (h : run es .new = some c) : Reachable c.redisParser :=
  run_events (P := fun _ => True) (fun _ _ _ _ hc hs => step_parses hc hs) (fun _ _ => trivial)
    .fresh h

/-! ### What waits for its turn -/

/-- The loop has something to run: a function of the strand, or a completion handler. -/
def Busy (c : RedisClientImpl κ) : Prop :=
  c.strand ≠ [] ∨ c.socket.readsDone ≠ [] ∨ c.socket.writesDone ≠ [] ∨ c.socket.connectsDone ≠ []

instance (c : RedisClientImpl κ) : Decidable (Busy c) := by unfold Busy; infer_instance

/-- **What waits for its turn can be run**, whatever the callbacks do. -/
theorem step_possible (hb : c.broken = false) (h : Reachable c.redisParser) (cbs : Callbacks κ) :
    (c.strand ≠ [] → ∃ c', step (.posted cbs) c = some c') ∧
    (c.socket.readsDone ≠ [] → ∃ c', step (.readDone cbs) c = some c') ∧
    (c.socket.writesDone ≠ [] → ∃ c', step (.writeDone cbs) c = some c') ∧
    (c.socket.connectsDone ≠ [] → ∃ c', step (.connectDone cbs) c = some c') := by
  have hnb : ¬ c.broken = true := by simp [hb]
  refine ⟨fun hs => ?_, fun hs => ?_, fun hs => ?_, fun hs => ?_⟩ <;>
    obtain ⟨x, xs, hx⟩ := List.exists_cons_of_ne_nil hs <;> unfold step <;> rw [if_neg hnb]
  · simp [hx]
  · obtain ⟨o, ho, -⟩ := asyncRead_parses
      (c := { c with socket := { c.socket with readsDone := xs } }) x.1 x.2 cbs h
    simp [hx, ho]
  · simp [hx]
  · simp [hx]

end RedisClient.Async.Progress

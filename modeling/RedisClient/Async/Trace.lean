import RedisClient.Async.Rules

/-! # The trace

What can be read off the trace of a client: the commands that its accepted calls issue, the replies
and errors that have been handed to the user, the messages that have been processed. The trace of a
run only grows (`run_trace`). -/

namespace RedisClient.Async.Trace

open RedisClient.Value RedisClient.Parser.Defs RedisClient.Commands RedisClient.Async.Defs
open RedisClient.Async.Rules
open RedisClient.Sync.Defs (ErrorCode ClientState)

variable {κ : Type}

/-! ### Reading the trace -/

/-- The command that a call sends, and the handler of its reply. -/
def request : Call κ → Option (List RedisBuffer × Option κ)
  | .connect _ _ | .disconnect => none
  | .command cmd args handler => some (.string cmd :: args, handler)
  | .publish channel msg handler => some ([.string publishStr, .string channel, msg], handler)
  | .subscribe channel _ handler => some ([.string subscribeStr, .string channel], handler)
  | .psubscribe pattern _ handler => some ([.string psubscribeStr, .string pattern], handler)
  | .singleShotSubscribe channel _ handler => some ([.string subscribeStr, .string channel], handler)
  | .singleShotPSubscribe pattern _ handler =>
    some ([.string psubscribeStr, .string pattern], handler)
  | .unsubscribe handle => some ([.string unsubscribeStr, .string handle.channel], none)
  | .punsubscribe handle => some ([.string punsubscribeStr, .string handle.channel], none)

/-- The call is made in a state in which its command is sent. -/
def accepted (state : ClientState) : Call κ → Bool
  | .connect _ _ | .disconnect => false
  | .command _ _ _ | .publish _ _ _ => state = .connected
  | _ => state = .connected ∨ state = .subscribed

/-- The command that an entry issues. -/
def issued? : Action κ → Option (List RedisBuffer × Option κ)
  | .call state c => if accepted state c then request c else none
  | _ => none

/-- The commands issued. -/
def issued (t : List (Action κ)) : List (List RedisBuffer × Option κ) := t.filterMap issued?

def reply? : Action κ → Option (Option κ × RedisValue)
  | .reply handler v => some (handler, v)
  | _ => none

/-- The replies that handlers have been called with. -/
def replies (t : List (Action κ)) : List (Option κ × RedisValue) := t.filterMap reply?

def error? : Action κ → Option Report
  | .error r => some r
  | _ => none

/-- What the error handler has been told. -/
def errors (t : List (Action κ)) : List Report := t.filterMap error?

def processed? : Action κ → Option (ClientState × RedisValue)
  | .doProcessMessage state v => some (state, v)
  | _ => none

/-- What `doProcessMessage` has been called with, and in which states. -/
def processed (t : List (Action κ)) : List (ClientState × RedisValue) := t.filterMap processed?

section append

variable (t u : List (Action κ))

@[simp] theorem issued_append : issued (t ++ u) = issued t ++ issued u := List.filterMap_append

@[simp] theorem replies_append : replies (t ++ u) = replies t ++ replies u := List.filterMap_append

@[simp] theorem errors_append : errors (t ++ u) = errors t ++ errors u := List.filterMap_append

@[simp] theorem processed_append : processed (t ++ u) = processed t ++ processed u :=
  List.filterMap_append

end append

/-! ### The trace grows -/

/-- The body of a call does not touch the trace. -/
@[simp] theorem body_trace (call : Call κ) (c : RedisClientImpl κ) :
    (call.body c).2.2.trace = c.trace := by
  have h := body_cases call c
  generalize call.body c = r at h ⊢
  cases h <;> rfl

/-- The trace of the second state goes on from that of the first. -/
def Grows (c c' : RedisClientImpl κ) : Prop := c.trace <+: c'.trace

theorem log_trace (c : RedisClientImpl κ) (a : Action κ) : c.trace <+: (c.log a).trace :=
  List.prefix_append _ _

theorem grows : KeepsLoop (κ := κ) (fun _ => True) Grows where
  refl _ := List.prefix_refl _
  trans := List.IsPrefix.trans
  log a c := log_trace c a
  body {call} c _ := by
    have htrace : (call.body c).2.2.trace = c.trace := body_trace call c
    exact ⟨[], by rw [htrace, List.append_nil]⟩
  enqueue _ _ _ := List.prefix_refl _
  write _ _ := List.prefix_append _ _
  pop _ := List.prefix_refl _
  postSingleShot channel msg c := by
    obtain ⟨ms, ss, hc⟩ := postSingleShot_posts channel msg c
    rw [hc]
    exact List.prefix_refl _
  postMessages channel msg c := by
    obtain ⟨ms, hc⟩ := postMessages_posts channel msg c
    rw [hc]
    exact List.prefix_refl _
  redisParser _ _ := List.prefix_refl _
  read _ := List.prefix_refl _
  broken _ := List.prefix_refl _
  strand _ := List.prefix_refl _
  receive _ := List.prefix_refl _
  socket _ := List.prefix_refl _
  readDone _ := List.prefix_refl _
  writeDone _ := List.prefix_refl _
  connectDone _ := List.prefix_refl _

theorem runScript_call_trace (call : Call κ) (cb next : Script κ) (c : RedisClientImpl κ) :
    c.trace ++ [.call c.state call] <+: (runScript (.call call cb next) c).2.trace := by
  have hb := body_trace call (c.log (.call c.state call))
  have h0 : c.trace ++ [.call c.state call] <+: (c.log (.call c.state call)).trace :=
    List.prefix_refl _
  rw [← hb] at h0
  simp only [runScript]
  rcases hx : call.body (c.log (.call c.state call)) with ⟨_ | action, handle, c1⟩ <;>
    rw [hx] at h0
  · exact h0.trans (grows.trans (grows.returned handle c1) (grows.runScript _ (all_true next)))
  · have h1 := grows.trans (grows.log action c1) (grows.runScript _ (all_true cb))
    have h1 := h0.trans h1
    dsimp only
    rcases hy : runScript cb (c1.log action) with ⟨_ | _ | _, c2⟩ <;> rw [hy] at h1
    · exact h1.trans (grows.trans (grows.returned handle c2) (grows.runScript _ (all_true next)))
    · exact h1.trans (grows.runScript _ (all_true next))
    · exact h1.trans (grows.runScript _ (all_true next))

/-- What a trace goes on with is in any part of it that begins before. -/
theorem mem_drop_of_grows {t u : List (Action κ)} {a : Action κ} {n : ℕ} (h : t ++ [a] <+: u)
    (hn : n ≤ t.length) : a ∈ u.drop n := by
  obtain ⟨w, rfl⟩ := h
  rw [List.append_assoc, List.drop_append_of_le_length hn]
  simp

theorem doProcessMessage_entry (v : RedisValue) (cbs : Callbacks κ) (c : RedisClientImpl κ) :
    c.trace ++ [.doProcessMessage c.state v] <+: (doProcessMessage v cbs c).2.2.trace := by
  unfold doProcessMessage
  dsimp only
  split_ifs
  · exact (grows.dispatch v (c.log (.doProcessMessage c.state v)) (allOf_true cbs)).1
  · exact (grows.callFront v (c.log (.doProcessMessage c.state v)) (allOf_true cbs)).1
  · exact grows.callErrorHandler _ (c.log (.doProcessMessage c.state v)) (allOf_true cbs)

theorem readLoop_trace {fuel : ℕ} {data : Bytes} {cbs : Callbacks κ} {c : RedisClientImpl κ}
    {o : Outcome κ} (h : readLoop fuel data cbs c = some o) : c.trace <+: o.2.2.trace :=
  grows.readLoop fuel (allOf_true cbs) h

/-- The handler of a connect that has succeeded returns, and the first read is started. -/
theorem handleAsyncConnect_returns {handler : κ} {cbs cbs' : Callbacks κ}
    {c c1 : RedisClientImpl κ} (h : callback cbs
      ({ c with state := .connected }.log (.connect none handler)) = (.returns, cbs', c1)) :
    handleAsyncConnect none handler cbs c = (.returns, cbs', processMessage c1) := by
  rcases handleAsyncConnect_cases handler cbs c with ⟨cbs1, c2, hcb, hd⟩ | ⟨hne, -⟩
  · rw [h] at hcb
    cases hcb
    exact hd
  · rw [h] at hne
    exact absurd rfl hne

/-- A connect that has succeeded leaves in the trace what its handler does. -/
theorem handleAsyncConnect_ok_trace (handler : κ) (cbs : Callbacks κ) (c : RedisClientImpl κ) :
    (handleAsyncConnect none handler cbs c).2.2.trace =
      (callback cbs ({ c with state := .connected }.log (.connect none handler))).2.2.trace := by
  rcases handleAsyncConnect_cases handler cbs c with ⟨cbs1, c1, hcb, hd⟩ | ⟨-, hd⟩ <;> rw [hd]
  rw [hcb]
  rfl

@[simp] theorem client_trace (o : Outcome κ) : o.client.trace = o.2.2.trace := by
  rcases o with ⟨_ | _ | _, cbs, c⟩ <;> rfl

/-- **The trace only grows.** -/
theorem run_trace {es : List (Event κ)} {c c' : RedisClientImpl κ} (h : run es c = some c') :
    c.trace <+: c'.trace :=
  grows.run (fun e _ => allIn_true e) h

end RedisClient.Async.Trace

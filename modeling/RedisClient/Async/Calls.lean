import RedisClient.Async.Trace

/-! # User code during a session

While a client is connected, user code that only issues commands does one thing to it: it posts them,
in order (`Issues`). The state changes to `subscribed` with a subscription and to nothing else, and
no callback runs in a call that is accepted. So user code of this kind returns (`callback_issues`). -/

namespace RedisClient.Async.Calls

open RedisClient.Value RedisClient.Commands RedisClient.Peers RedisClient.Async.Defs
open RedisClient.Async.Trace
open RedisClient.Sync.Defs (ClientState)

variable {κ : Type}

/-! ### Requests -/

/-- A command and the handler of its reply. -/
structure Request (κ : Type) where
  command : Command
  handler : Option κ

namespace Request

/-- The request as the trace has it. -/
def pair (q : Request κ) : List RedisBuffer × Option κ := (q.command.items, q.handler)

/-- The function that is posted for it. -/
def posted (q : Request κ) : Posted κ := .doAsyncCommand q.command.enc q.handler

def contents (q : Request κ) : List Bytes := q.command.contents

end Request

/-- The call is one of those that subscribe. -/
def subscribing : Call κ → Bool
  | .subscribe _ _ _ | .psubscribe _ _ _ | .singleShotSubscribe _ _ _
  | .singleShotPSubscribe _ _ _ => true
  | _ => false

/-- The call is `command` or `publish`. -/
def commanding : Call κ → Bool
  | .command _ _ _ | .publish _ _ _ => true
  | _ => false

section Session

/- The commands with the property `S` are those that subscribe, and `sub` says whether the session
has any subscriptions. -/
variable (S : List Bytes → Prop) (sub : Prop)

/-- A call of a session issues a command, and one that subscribes only through a subscription. -/
def SessionCall (call : Call κ) : Prop :=
  ∃ q ∈ request call, Fits q.1 ∧
    if subscribing call then sub else ¬ S (q.1.map RedisBuffer.data)

/-- User code of a session: calls, and it returns. What its callbacks do does not matter, since none
is run. -/
def SessionScript : Script κ → Prop
  | .returns => True
  | .throws => False
  | .call call _ next => SessionCall S sub call ∧ SessionScript next

def SessionCallbacks (cbs : Callbacks κ) : Prop := ∀ s ∈ cbs, SessionScript S sub s

/-- The state of a client during a session. -/
def SessionState (state : ClientState) : Prop := state = .connected ∨ sub ∧ state = .subscribed

/-! ### What the calls do -/

/-- `c'` is `c` after calls that have issued the requests `qs` and left the entries `t` in the
trace. -/
structure Issues (qs : List (Request κ)) (t : List (Action κ)) (c c' : RedisClientImpl κ) :
    Prop where
  strand : c'.strand = c.strand ++ qs.map Request.posted
  socket : c'.socket = c.socket
  redisParser : c'.redisParser = c.redisParser
  buf : c'.buf = c.buf
  handlers : c'.handlers = c.handlers
  dataWrited : c'.dataWrited = c.dataWrited
  dataQueued : c'.dataQueued = c.dataQueued
  broken : c'.broken = c.broken
  state : c'.state = c.state ∨ sub ∧ c'.state = .subscribed
  quiet : c'.state = .connected → ∀ q ∈ qs, ¬ S q.contents
  trace : c'.trace = c.trace ++ t
  issued : issued t = qs.map Request.pair
  replies : replies t = []
  errors : errors t = []
  processed : processed t = []

instance [DecidablePred S] [Decidable sub] (call : Call κ) : Decidable (SessionCall S sub call) :=
  inferInstanceAs (Decidable (∃ q ∈ request call, _))

instance decidableSessionScript [DecidablePred S] [Decidable sub] :
    (s : Script κ) → Decidable (SessionScript S sub s)
  | .returns => isTrue trivial
  | .throws => isFalse id
  | .call call _ next =>
    have := decidableSessionScript next
    inferInstanceAs (Decidable (SessionCall S sub call ∧ SessionScript S sub next))

instance [DecidablePred S] [Decidable sub] (cbs : Callbacks κ) :
    Decidable (SessionCallbacks S sub cbs) :=
  inferInstanceAs (Decidable (∀ s ∈ cbs, _))

variable {S sub}

theorem Issues.refl (c : RedisClientImpl κ) : Issues S sub [] [] c c where
  strand := by simp
  socket := rfl
  redisParser := rfl
  buf := rfl
  handlers := rfl
  dataWrited := rfl
  dataQueued := rfl
  broken := rfl
  state := Or.inl rfl
  quiet _ _ hq := by cases hq
  trace := by simp
  issued := rfl
  replies := rfl
  errors := rfl
  processed := rfl

theorem Issues.trans {qs qs' : List (Request κ)} {t t' : List (Action κ)}
    {c c1 c' : RedisClientImpl κ} (h : Issues S sub qs t c c1) (h' : Issues S sub qs' t' c1 c') :
    Issues S sub (qs ++ qs') (t ++ t') c c' where
  strand := by rw [h'.strand, h.strand, List.map_append, List.append_assoc]
  socket := h'.socket.trans h.socket
  redisParser := h'.redisParser.trans h.redisParser
  buf := h'.buf.trans h.buf
  handlers := h'.handlers.trans h.handlers
  dataWrited := h'.dataWrited.trans h.dataWrited
  dataQueued := h'.dataQueued.trans h.dataQueued
  broken := h'.broken.trans h.broken
  state := by
    rcases h'.state with hs | hs
    · rw [hs]
      exact h.state
    · exact Or.inr hs
  quiet hc := by
    have hc1 : c1.state = .connected := by
      rcases h'.state with hs | ⟨-, hs⟩
      · rw [← hs, hc]
      · rw [hc] at hs
        cases hs
    intro q hq
    rcases List.mem_append.mp hq with hq | hq
    · exact h.quiet hc1 q hq
    · exact h'.quiet hc q hq
  trace := by rw [h'.trace, h.trace, List.append_assoc]
  issued := by rw [issued_append, h.issued, h'.issued, List.map_append]
  replies := by rw [replies_append, h.replies, h'.replies]; rfl
  errors := by rw [errors_append, h.errors, h'.errors]; rfl
  processed := by rw [processed_append, h.processed, h'.processed]; rfl

theorem Issues.sessionState {qs : List (Request κ)} {t : List (Action κ)}
    {c c' : RedisClientImpl κ} (h : Issues S sub qs t c c') (hc : SessionState sub c.state) :
    SessionState sub c'.state := by
  rcases h.state with hs | hs
  · rw [hs]
    exact hc
  · exact Or.inr hs

/-- An accepted call runs no callback and posts its command. -/
theorem body_accepted {call : Call κ} {items : List RedisBuffer} {handler : Option κ}
    {c : RedisClientImpl κ} (hq : request call = some (items, handler))
    (hacc : accepted c.state call) : ∃ handle msgHandlers singleShotMsgHandlers subscribeSeq,
      call.body c = (none, handle, { c with
        strand := c.strand ++ [.doAsyncCommand (makeCommand items) handler]
        msgHandlers := msgHandlers
        singleShotMsgHandlers := singleShotMsgHandlers
        subscribeSeq := subscribeSeq
        state := if subscribing call then .subscribed else c.state }) := by
  cases call with
  | connect => cases hq
  | disconnect => cases hq
  | command cmd args h =>
    cases hq
    have hc : c.state = .connected := by simpa [accepted] using hacc
    exact ⟨_, _, _, _, if_neg (not_not.mpr hc)⟩
  | publish channel msg h =>
    cases hq
    exact ⟨_, _, _, _, if_pos (by simpa [accepted] using hacc)⟩
  | subscribe channel m h | psubscribe channel m h | singleShotSubscribe channel m h
  | singleShotPSubscribe channel m h =>
    cases hq
    exact ⟨_, _, _, _, if_pos (by simpa [accepted] using hacc)⟩
  | unsubscribe handle | punsubscribe handle =>
    cases hq
    exact ⟨_, _, _, _, if_pos (by simpa [accepted] using hacc)⟩

/-- **An accepted call issues its command.** -/
theorem body_issues {call : Call κ} {q : Request κ} {c : RedisClientImpl κ}
    (hq : request call = some q.pair) (hacc : accepted c.state call)
    (hs : if subscribing call then sub else ¬ S q.contents) :
    ∃ handle c', call.body (c.log (.call c.state call)) = (none, handle, c') ∧
      Issues S sub [q] [.call c.state call] c c' := by
  obtain ⟨handle, m, s, n, hb⟩ := body_accepted (c := c.log (.call c.state call)) hq hacc
  refine ⟨handle, _, hb, rfl, rfl, rfl, rfl, rfl, rfl, rfl, rfl, ?_, ?_, rfl, ?_, rfl, rfl, rfl⟩
  · split at hs
    · next h => exact Or.inr ⟨hs, if_pos h⟩
    · next h => exact Or.inl (if_neg h)
  · intro hc q' hq'
    rw [List.mem_singleton.mp hq']
    split at hs
    · next h =>
      have h2 : (if subscribing call then ClientState.subscribed else c.state) = .connected := hc
      rw [if_pos h] at h2
      cases h2
    · exact hs
  · simp [issued, issued?, hacc, hq]

theorem Issues.return {qs : List (Request κ)} {t : List (Action κ)} {c c' : RedisClientImpl κ}
    (h : Issues S sub qs t c c') (handle : Option Handle) :
    ∃ t', Issues S sub qs t' c (c'.return handle) := by
  cases handle with
  | none => exact ⟨t, h⟩
  | some handle =>
    refine ⟨t ++ [.returned handle], h.strand, h.socket, h.redisParser, h.buf, h.handlers,
      h.dataWrited, h.dataQueued, h.broken, h.state, h.quiet, ?_, ?_, ?_, ?_, ?_⟩
    · show c'.trace ++ [Action.returned handle] = _
      rw [h.trace, List.append_assoc]
    · rw [issued_append, h.issued]
      exact List.append_nil _
    · rw [replies_append, h.replies]
      rfl
    · rw [errors_append, h.errors]
      rfl
    · rw [processed_append, h.processed]
      rfl

theorem SessionCall.request {call : Call κ} (h : SessionCall S sub call) :
    ∃ q : Request κ, Trace.request call = some q.pair ∧
      if subscribing call then sub else ¬ S q.contents := by
  obtain ⟨⟨items, handler⟩, hq, hfits, hs⟩ := h
  exact ⟨⟨⟨items, hfits⟩, handler⟩, hq, hs⟩

/-- An entry is not a call that is refused. -/
def accepts : Action κ → Bool
  | .call state c => accepted state c
  | _ => true

/-- All calls in the trace are accepted. -/
def AllAccepted (t : List (Action κ)) : Prop := ∀ a ∈ t, accepts a

instance (t : List (Action κ)) : Decidable (AllAccepted t) :=
  inferInstanceAs (Decidable (∀ a ∈ t, _))

/-- A call of a session is accepted when the client is connected. -/
theorem accepted_connected {call : Call κ} (h : SessionCall S sub call) :
    accepted .connected call := by
  obtain ⟨q, hq, -⟩ := h.request
  cases call <;> first
    | cases hq
    | rfl

/-- **User code of a session issues commands and returns.** The calls made since the `n`-th entry of
the trace are accepted if the session has subscriptions; otherwise they are, because the state stays
as it is. -/
theorem runScript_issues {n : ℕ} : ∀ {s : Script κ} {c : RedisClientImpl κ}, n ≤ c.trace.length →
    SessionScript S sub s → SessionState sub c.state →
    (sub → AllAccepted ((runScript s c).2.trace.drop n)) →
    ∃ qs t c', runScript s c = (.returns, c') ∧ Issues S sub qs t c c'
  | .returns, c, _, _, _, _ => ⟨[], [], c, rfl, .refl c⟩
  | .throws, c, _, hs, _, _ => hs.elim
  | .call call cb next, c, hn, hs, hst, hacc => by
    have hcall : accepted c.state call := by
      rcases hst with hst | ⟨hsub, -⟩
      · rw [hst]
        exact accepted_connected hs.1
      · exact hacc hsub (.call c.state call)
          (mem_drop_of_grows (runScript_call_trace call cb next c) hn)
    obtain ⟨q, hq, hq'⟩ := hs.1.request
    obtain ⟨handle, c1, hb, h1⟩ := body_issues (c := c) hq hcall hq'
    obtain ⟨t1, h1⟩ := h1.return handle
    have hrun : runScript (.call call cb next) c = runScript next (c1.return handle) := by
      simp only [runScript, hb]
    rw [hrun] at hacc ⊢
    have hn1 : n ≤ (c1.return handle).trace.length := by
      rw [h1.trace, List.length_append]
      omega
    obtain ⟨qs, t, c', hr, h2⟩ := runScript_issues hn1 hs.2 (h1.sessionState hst) hacc
    exact ⟨_, _, c', hr, h1.trans h2⟩

theorem callback_issues {n : ℕ} {cbs : Callbacks κ} {c : RedisClientImpl κ}
    (hn : n ≤ c.trace.length) (hs : SessionCallbacks S sub cbs) (hst : SessionState sub c.state)
    (hacc : sub → AllAccepted ((callback cbs c).2.2.trace.drop n)) :
    ∃ qs t cbs' c', callback cbs c = (.returns, cbs', c') ∧ SessionCallbacks S sub cbs' ∧
      Issues S sub qs t c c' := by
  cases cbs with
  | nil => exact ⟨[], [], [], c, rfl, hs, .refl c⟩
  | cons s cbs =>
    obtain ⟨qs, t, c', hr, h⟩ := runScript_issues hn (hs s (by simp)) hst hacc
    refine ⟨qs, t, cbs, c', ?_, fun s' hs' => hs s' (by simp [hs']), h⟩
    simp only [callback, hr]

/-- A handler for replies is called with a reply. -/
theorem callHandler_issues {n : ℕ} {handler : Option κ} {v : RedisValue} {cbs : Callbacks κ}
    {c : RedisClientImpl κ} (hn : n ≤ c.trace.length) (hs : SessionCallbacks S sub cbs)
    (hst : SessionState sub c.state)
    (hacc : sub → AllAccepted ((callHandler handler v cbs c).2.2.trace.drop n)) :
    ∃ qs t cbs' c', callHandler handler v cbs c = (.returns, cbs', c') ∧
      SessionCallbacks S sub cbs' ∧ Issues S sub qs t (c.log (.reply handler v)) c' := by
  cases handler with
  | none => exact ⟨[], [], cbs, _, rfl, hs, .refl _⟩
  | some h =>
    have hn' : n ≤ (c.log (.reply (some h) v)).trace.length := hn.trans (log_trace c _).length_le
    exact callback_issues hn' hs hst hacc

end Session

end RedisClient.Async.Calls

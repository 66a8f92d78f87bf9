import RedisClient.Async.Progress
import RedisClient.Lib.Runs

/-! # A client that is closed for good

When a client has been closed and the user's code makes no calls on it any more, nothing is under way on
its socket and nothing comes to be (`Shut`): a read or a write that is still started fails at once. Each
function and completion handler that the loop runs then leaves less to run (`effort`, `shut_step`), and
if it is not a function of the strand, it leaves the strand alone. -/

namespace RedisClient.Async.Ending

open RedisClient.Value RedisClient.Parser.Defs RedisClient.Parser.Values RedisClient.Async.Asio
open RedisClient.Async.Defs RedisClient.Async.Rules RedisClient.Async.Progress
open RedisClient.Sync.Defs (ErrorCode ClientState parserError)

variable {κ : Type} {c c' : RedisClientImpl κ} {cbs : Callbacks κ} {n : ℕ}

/-! ### What is left to run -/

/-- The user's code in the event makes no calls. -/
abbrev Mute (e : Event κ) : Prop := AllIn (fun _ => False) e

/-- The callbacks make no calls. -/
abbrev MuteAll (cbs : Callbacks κ) : Prop := AllOf (fun _ => False) cbs

structure Shut (c : RedisClientImpl κ) : Prop where
  link : c.socket.link = .closed
  reads : c.socket.reads = 0
  writes : c.socket.writes = []
  connects : c.socket.connects = []
  state : c.state ≠ .subscribed
  parser : Reachable c.redisParser
  broken : c.broken = false

/-- A command is run, and then perhaps a write fails. -/
def cost : Posted κ → ℕ
  | .doAsyncCommand _ _ => 2
  | .message _ _ => 1

/-- A read that has received something is followed by one that fails. -/
def readCost (r : ErrorCode × ℕ) : ℕ := if r.1.isSome ∨ r.2 = 0 then 1 else 2

/-- **What is left to run**, at most. -/
def effort (c : RedisClientImpl κ) : ℕ :=
  (c.strand.map cost).sum + c.dataQueued.length + c.socket.writesDone.length +
    (c.socket.readsDone.map readCost).sum + 2 * c.socket.connectsDone.length

/-- The client stays shut, nothing is posted, and at most `n` more is left to run. -/
structure WindsDown (n : ℕ) (c c' : RedisClientImpl κ) : Prop where
  shut : Shut c'
  strand : c'.strand = c.strand
  effort : effort c' ≤ effort c + n

theorem WindsDown.trans {m : ℕ} {c1 : RedisClientImpl κ} (h : WindsDown n c c1) (h' : WindsDown m c1 c') :
    WindsDown (n + m) c c' where
  shut := h'.shut
  strand := h'.strand.trans h.strand
  effort := by
    have h1 := h.effort
    have h2 := h'.effort
    omega

theorem WindsDown.refl (h : Shut c) : WindsDown 0 c c := ⟨h, rfl, Nat.le_refl _⟩

theorem WindsDown.mono {m : ℕ} (h : WindsDown n c c') (hn : n ≤ m) : WindsDown m c c' :=
  { h with effort := by have := h.effort; omega }

/-- A part of a step that touches nothing of this. -/
theorem WindsDown.same {c1 : RedisClientImpl κ} (h : WindsDown n c c1)
    (hparser : Reachable c'.redisParser) (hsocket : c'.socket = c1.socket)
    (hstate : c'.state = c1.state) (hbroken : c'.broken = c1.broken)
    (hstrand : c'.strand = c1.strand) (hqueued : c'.dataQueued = c1.dataQueued) :
    WindsDown n c c' where
  shut := by
    constructor
    · rw [hsocket, h.shut.link]
    · rw [hsocket, h.shut.reads]
    · rw [hsocket, h.shut.writes]
    · rw [hsocket, h.shut.connects]
    · rw [hstate]
      exact h.shut.state
    · exact hparser
    · rw [hbroken, h.shut.broken]
  strand := hstrand.trans h.strand
  effort := by
    have heffort : Ending.effort c' = Ending.effort c1 := by
      unfold Ending.effort
      rw [hsocket, hstrand, hqueued]
    rw [heffort]
    exact h.effort

/-- How a function ends on a client that is shut: it returns or throws, and the callbacks that are left
make no calls. -/
structure Ends (n : ℕ) (c : RedisClientImpl κ) (o : Outcome κ) : Prop where
  defined : o.1 ≠ .undefined
  left : MuteAll o.2.1
  settles : WindsDown n c o.2.2

theorem Ends.client {o : Outcome κ} (h : Ends n c o) : WindsDown n c o.client := by
  rcases o with ⟨_ | _ | _, cbs, c'⟩
  · exact h.settles
  · exact h.settles
  · exact absurd rfl h.defined

/-! ### Callbacks -/

/-- A callback that makes no calls does nothing to the client. -/
theorem callback_mute (hcbs : MuteAll cbs) (c : RedisClientImpl κ) :
    ∃ e cbs', callback cbs c = (e, cbs', c) ∧ e ≠ .undefined ∧ MuteAll cbs' := by
  cases cbs with
  | nil => exact ⟨.returns, [], rfl, by simp, hcbs⟩
  | cons s cbs =>
    have hleft : MuteAll cbs := fun s' hs' => hcbs s' (List.mem_cons_of_mem s hs')
    have hs : All (fun _ => False) s := hcbs s List.mem_cons_self
    cases s with
    | returns => exact ⟨.returns, cbs, rfl, by simp, hleft⟩
    | throws => exact ⟨.throws, cbs, rfl, by simp, hleft⟩
    | call call cb next => exact hs.1.elim

theorem callback_ends (hcbs : MuteAll cbs) (h : WindsDown n c c') : Ends n c (callback cbs c') := by
  obtain ⟨e, cbs', hcb, hdef, hleft⟩ := callback_mute hcbs c'
  rw [hcb]
  exact ⟨hdef, hleft, h⟩

theorem WindsDown.log (h : WindsDown n c c') (a : Action κ) : WindsDown n c (c'.log a) :=
  h.same h.shut.parser rfl rfl rfl rfl rfl

theorem callErrorHandler_ends (r : Report) (hcbs : MuteAll cbs) (h : WindsDown n c c') :
    Ends n c (callErrorHandler r cbs c') :=
  callback_ends hcbs (h.log _)

theorem callFront_ends {v : RedisValue} (hcbs : MuteAll cbs) (hh : c'.handlers ≠ [])
    (h : WindsDown n c c') : Ends n c (callFront v cbs c') := by
  unfold callFront
  rcases hx : c'.handlers with _ | ⟨handler, handlers⟩
  · exact absurd hx hh
  dsimp only
  have hcall : ∃ e cbs', callHandler handler v cbs c' = (e, cbs', c'.log (.reply handler v)) ∧
      e ≠ .undefined ∧ MuteAll cbs' := by
    cases handler with
    | none => exact ⟨.returns, cbs, rfl, by simp, hcbs⟩
    | some k => exact callback_mute hcbs _
  obtain ⟨e, cbs', hcb, hdef, hleft⟩ := hcall
  have hlog := h.log (.reply handler v)
  rw [hcb]
  cases e with
  | returns =>
    have hx' : (c'.log (.reply handler v)).handlers = handler :: handlers := hx
    dsimp only
    rw [hx']
    exact ⟨by simp, hleft, hlog.same hlog.shut.parser rfl rfl rfl rfl rfl⟩
  | throws => exact ⟨by simp, hleft, hlog⟩
  | undefined => exact absurd rfl hdef

/-- A message finds no subscribers any more. -/
theorem doProcessMessage_ends (v : RedisValue) (hcbs : MuteAll cbs) (h : WindsDown n c c') :
    Ends n c (doProcessMessage v cbs c') := by
  have hlog := h.log (.doProcessMessage c'.state v)
  have hstate : (c'.log (.doProcessMessage c'.state v)).state ≠ .subscribed := h.shut.state
  unfold doProcessMessage
  dsimp only
  rw [if_neg hstate]
  split_ifs with hh
  · exact callFront_ends hcbs hh hlog
  · exact callErrorHandler_ends _ hcbs hlog

/-! ### Reading and writing -/

/-- A read that is started fails at once. -/
theorem processMessage_settles (h : Shut c) : WindsDown 1 c (processMessage c) where
  shut := by
    refine ⟨?_, ?_, ?_, ?_, h.state, h.parser, h.broken⟩
    · simp [processMessage, h.link]
    · simp [processMessage, Socket.asyncReadSome, h.link, h.reads]
    · simp [processMessage, h.writes]
    · simp [processMessage, h.connects]
  strand := rfl
  effort := by
    simp only [processMessage, Socket.asyncReadSome, h.link, effort, List.map_append, List.sum_append,
      List.map_cons, List.map_nil, List.sum_cons, List.sum_nil]
    simp only [readCost, Option.isSome_some, true_or, if_true]
    omega

theorem readLoop_ends : ∀ (fuel : ℕ) {data : Bytes} {cbs : Callbacks κ} {c' : RedisClientImpl κ}
    {o : Outcome κ}, MuteAll cbs → WindsDown 0 c c' → readLoop fuel data cbs c' = some o → Ends 1 c o
  | fuel, [], cbs, c', o, hcbs, h, ho => by
    have hend : readLoop fuel [] cbs c' = some (.returns, cbs, processMessage c') := by
      cases fuel <;> rfl
    rw [hend] at ho
    cases ho
    exact ⟨by simp, hcbs, h.trans (processMessage_settles h.shut)⟩
  | 0, b :: data, cbs, c', o, _, _, ho => by cases ho
  | fuel + 1, b :: data, cbs, c', o, hcbs, h, ho => by
    have hne : b :: data ≠ [] := List.cons_ne_nil _ _
    -- the parser of the client is replaced by one that can be reached
    have hset : ∀ {p : RedisParser}, Reachable p → WindsDown 0 c { c' with redisParser := p } :=
      fun hp => h.same hp rfl rfl rfl rfl rfl
    rw [readLoop, if_neg hne] at ho
    rcases values_parse h.shut.parser hne with ⟨k, p, hparse, -, -, -⟩ | ⟨p, hparse, -⟩ |
      ⟨k, p, hparse, -⟩ <;> rw [hparse] at ho <;> dsimp only at ho
    · have hp := hset (h.shut.parser.parse hne hparse).result
      have h1 := doProcessMessage_ends (result p).1 hcbs hp
      rcases hx : doProcessMessage (result p).1 cbs { c' with redisParser := (result p).2 } with
        ⟨_ | _ | _, cbs1, c1⟩ <;> rw [hx] at h1 ho <;> dsimp only at ho
      · exact readLoop_ends fuel h1.left h1.settles ho
      · cases ho
        exact ⟨h1.defined, h1.left, h1.settles.mono (Nat.zero_le 1)⟩
      · exact absurd rfl h1.defined
    · cases ho
      have h1 := hset (h.shut.parser.parse hne hparse)
      exact ⟨by simp, hcbs, h1.trans (processMessage_settles h1.shut)⟩
    · cases ho
      have h1 := callErrorHandler_ends (.text (chars parserError)) hcbs
        (hset (h.shut.parser.parse hne hparse))
      exact ⟨h1.defined, h1.left, h1.settles.mono (Nat.zero_le 1)⟩

theorem asyncRead_ends {ec : ErrorCode} {size : ℕ} {o : Outcome κ} (hcbs : MuteAll cbs)
    (h : Shut c) (ho : asyncRead ec size cbs c = some o) : Ends (readCost (ec, size) - 1) c o := by
  have hrefl := WindsDown.refl h
  unfold asyncRead at ho
  unfold readCost
  split_ifs at ho ⊢
  · cases ho
    exact callErrorHandler_ends _ hcbs hrefl
  · cases ho
    exact ⟨by simp, hcbs, hrefl⟩
  · exact readLoop_ends size hcbs hrefl ho

/-- A write that is started fails at once. -/
theorem asyncWrite_ends (ec : ErrorCode) (hcbs : MuteAll cbs) (h : Shut c) :
    Ends 0 c (asyncWrite ec cbs c) := by
  have hclear : WindsDown 0 c { c with dataWrited := [] } :=
    (WindsDown.refl h).same h.parser rfl rfl rfl rfl rfl
  unfold asyncWrite
  dsimp only
  split_ifs with hec hq
  · exact callErrorHandler_ends _ hcbs hclear
  · refine ⟨by simp, hcbs, ⟨?_, ?_, ?_, ?_, h.state, h.parser, h.broken⟩, rfl, ?_⟩
    · simp [RedisClientImpl.log, h.link]
    · simp [RedisClientImpl.log, h.reads]
    · simp [RedisClientImpl.log, Socket.asyncWrite, h.link, h.writes]
    · simp [RedisClientImpl.log, h.connects]
    · have hpos : 0 < c.dataQueued.length := List.length_pos_iff.mpr hq
      simp only [effort, RedisClientImpl.log, Socket.asyncWrite, h.link, List.length_append,
        List.length_singleton, List.length_nil]
      omega
  · exact ⟨by simp, hcbs, hclear⟩

/-! ### Steps -/

/-- A step of the loop itself, and not of the user's code outside of it. -/
def OfLoop : Event κ → Prop
  | .user _ => False
  | _ => True

instance : DecidablePred (OfLoop : Event κ → Prop)
  | .user _ => isFalse id
  | .posted _ | .receive _ | .readFail _ | .readDone _ | .send _ | .writeFail _ | .writeDone _
  | .connectOk _ | .connectFail _ | .connectDone _ => isTrue trivial

/-- The strand after a step: a function of it has been run, or it is as before. -/
def strandAfter (e : Event κ) (strand : List (Posted κ)) : List (Posted κ) :=
  match e with
  | .posted _ => strand.tail
  | _ => strand

theorem posted_shut {f : Posted κ} {strand : List (Posted κ)} (h : Shut c) (hcbs : MuteAll cbs)
    (hs : c.strand = f :: strand) :
    Shut (runPosted f cbs { c with strand := strand }).client ∧
      (runPosted f cbs { c with strand := strand }).client.strand = strand ∧
      effort (runPosted f cbs { c with strand := strand }).client < effort c := by
  set d : RedisClientImpl κ := { c with strand := strand } with hd
  have hshut : Shut d := { h with }
  have heffort : effort c = effort d + cost f := by
    simp only [effort, hs, hd, List.map_cons, List.sum_cons]
    omega
  cases f with
  | message msgHandler msg =>
    have h1 := (callback_ends hcbs ((WindsDown.refl hshut).log (.message msgHandler msg))).client
    have hle := h1.effort
    refine ⟨h1.shut, h1.strand, ?_⟩
    rw [heffort]
    exact Nat.lt_succ_of_le hle
  | doAsyncCommand buff handler =>
    set d1 : RedisClientImpl κ := { d.log (.doAsyncCommand buff handler) with
      handlers := d.handlers ++ [handler], dataQueued := d.dataQueued ++ [buff] } with hd1
    have hshut1 : Shut d1 := { hshut with }
    have heffort1 : effort d1 = effort d + 1 := by
      simp only [effort, hd1, RedisClientImpl.log, List.length_append, List.length_singleton]
      omega
    have hrun : Ends 0 d1 (runPosted (.doAsyncCommand buff handler) cbs d) := by
      show Ends 0 d1 (if d1.dataWrited = [] then asyncWrite none cbs d1 else (.returns, cbs, d1))
      split_ifs
      · exact asyncWrite_ends none hcbs hshut1
      · exact ⟨by simp, hcbs, .refl hshut1⟩
    have hle := hrun.client.effort
    refine ⟨hrun.client.shut, hrun.client.strand, ?_⟩
    rw [heffort]
    show _ < effort d + 2
    omega

theorem connectDone_shut (ec : ErrorCode) (handler : κ) (hcbs : MuteAll cbs) (h : Shut c) :
    Ends 1 c (handleAsyncConnect ec handler cbs c) := by
  have hset : ∀ state : ClientState, state ≠ .subscribed →
      WindsDown 0 c ({ c with state := state }.log (.connect ec handler)) := fun state hst =>
    ⟨{ h with state := hst }, rfl, Nat.le_refl _⟩
  cases ec with
  | none =>
    have h1 := callback_ends hcbs (hset .connected (by simp))
    rcases handleAsyncConnect_cases handler cbs c with ⟨cbs1, c1, hcb, hd⟩ | ⟨-, hd⟩ <;> rw [hd]
    · rw [hcb] at h1
      exact ⟨by simp, h1.left, h1.settles.trans (processMessage_settles h1.settles.shut)⟩
    · exact ⟨h1.defined, h1.left, h1.settles.mono (Nat.zero_le 1)⟩
  | some e =>
    have h1 := callback_ends hcbs (hset .unconnected (by simp))
    exact ⟨h1.defined, h1.left, h1.settles.mono (Nat.zero_le 1)⟩

/-- **A step of the loop on a client that is shut** leaves less to run. -/
theorem shut_step {e : Event κ} (h : Shut c) (he : Mute e) (hl : OfLoop e)
    (hstep : step e c = some c') :
    Shut c' ∧ c'.strand = strandAfter e c.strand ∧ effort c' < effort c := by
  obtain ⟨-, hs⟩ := step_cases hstep
  cases hs with
  | user s => exact hl.elim
  | posted hs =>
    rw [strandAfter, hs, List.tail_cons]
    exact posted_shut h he hs
  | receive hs =>
    obtain ⟨_, _, _, _, hr, -⟩ := Socket.receive_cases hs
    rw [h.reads] at hr
    cases hr
  | readFail hs =>
    obtain ⟨_, hr, -⟩ := Socket.readFail_cases hs
    rw [h.reads] at hr
    cases hr
  | @readDone cbs ec size readsDone o hs ho =>
    have hshut : Shut { c with socket := { c.socket with readsDone := readsDone } } := { h with }
    have h1 := (asyncRead_ends he hshut ho).client
    refine ⟨h1.shut, h1.strand, ?_⟩
    have hle := h1.effort
    have hpos : 1 ≤ readCost (ec, size) := by unfold readCost; split_ifs <;> omega
    simp only [effort, hs, List.map_cons, List.sum_cons] at hle ⊢
    omega
  | send hs =>
    obtain ⟨_, _, _, _, _, hw, -⟩ := Socket.send_cases hs
    rw [h.writes] at hw
    cases hw
  | writeFail hs =>
    obtain ⟨_, _, hw, -⟩ := Socket.writeFail_cases hs
    rw [h.writes] at hw
    cases hw
  | @writeDone cbs ec writesDone hs =>
    have hshut : Shut { c with socket := { c.socket with writesDone := writesDone } } := { h with }
    have h1 := (asyncWrite_ends ec he hshut).client
    refine ⟨h1.shut, h1.strand, ?_⟩
    have hle := h1.effort
    simp only [effort, hs, List.length_cons] at hle ⊢
    omega
  | connectOk hs =>
    obtain ⟨_, _, hw, -⟩ := Socket.connectOk_cases hs
    rw [h.connects] at hw
    cases hw
  | connectFail hs =>
    obtain ⟨_, _, hw, -⟩ := Socket.connectFail_cases hs
    rw [h.connects] at hw
    cases hw
  | @connectDone cbs ec handler connectsDone hs =>
    have hshut : Shut { c with socket := { c.socket with connectsDone := connectsDone } } := { h with }
    have h1 := (connectDone_shut ec handler he hshut).client
    refine ⟨h1.shut, h1.strand, ?_⟩
    have hle := h1.effort
    simp only [effort, hs, List.length_cons] at hle ⊢
    omega

/-- A client that is closed is shut. -/
theorem shut_close (hb : c.broken = false) (h : Reachable c.redisParser) : Shut c.close :=
  ⟨rfl, rfl, rfl, rfl, by simp [RedisClientImpl.close], h, hb⟩

end RedisClient.Async.Ending

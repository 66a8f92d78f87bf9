import RedisClient.Async.Trace

/-! # The moments of a run

A moment is an entry of the trace with the client as it is just before, and what the user's code does
if the entry is a call of it. The moments of a run (`runMoments`) are the entries that it adds to the
trace (`runMoments_trace`), so that a condition on a run can say in which state a call may be made,
and how a handler may end.

A relation of two clients and the moments in between that holds across each moment and each other
thing that the client does holds across a step and a run (`CarriesEvents.step`, `CarriesEvents.run`). -/

namespace RedisClient.Async.Moments

open RedisClient.Value RedisClient.Parser.Defs RedisClient.Peers RedisClient.Async.Asio
open RedisClient.Async.Defs RedisClient.Async.Rules RedisClient.Async.Trace
open RedisClient.Sync.Defs (SysError ErrorCode ClientState parserError)

/-- An entry of the trace: the client before it, and what the user's code does that is called. -/
structure Moment (κ : Type) where
  client : RedisClientImpl κ
  action : Action κ
  script : Script κ

variable {κ : Type}

/-- The client after the entry. A call goes on with its body. -/
def Moment.next (m : Moment κ) : RedisClientImpl κ :=
  match m.action with
  | .call _ call => (call.body (m.client.log m.action)).2.2
  | a => m.client.log a

/-! ### The moments of each function -/

def returnMoments (handle : Option Handle) (c : RedisClientImpl κ) : List (Moment κ) :=
  match handle with
  | none => []
  | some handle => [⟨c, .returned handle, .returns⟩]

/-- The moments of `runScript`. -/
def scriptMoments : Script κ → RedisClientImpl κ → List (Moment κ)
  | .returns, _ | .throws, _ => []
  | .call call callback next, c =>
    ⟨c, .call c.state call, .returns⟩ ::
      match call.body (c.log (.call c.state call)) with
      | (none, handle, c) => returnMoments handle c ++ scriptMoments next (c.return handle)
      | (some action, handle, c) =>
        ⟨c, action, callback⟩ :: (scriptMoments callback (c.log action) ++
          match runScript callback (c.log action) with
          | (.returns, c) => returnMoments handle c ++ scriptMoments next (c.return handle)
          | (_, c) => scriptMoments next c)

/-- The moments of a callback, from its entry on. -/
def callbackMoments (action : Action κ) (cbs : Callbacks κ) (c : RedisClientImpl κ) :
    List (Moment κ) :=
  ⟨c, action, cbs.headD .returns⟩ :: scriptMoments (cbs.headD .returns) (c.log action)

def errorMoments (r : Report) (cbs : Callbacks κ) (c : RedisClientImpl κ) : List (Moment κ) :=
  callbackMoments (.error r) cbs c

def handlerMoments (handler : Option κ) (v : RedisValue) (cbs : Callbacks κ)
    (c : RedisClientImpl κ) : List (Moment κ) :=
  match handler with
  | none => [⟨c, .reply none v, .returns⟩]
  | some handler => callbackMoments (.reply (some handler) v) cbs c

def asyncWriteMoments (ec : ErrorCode) (cbs : Callbacks κ) (c : RedisClientImpl κ) :
    List (Moment κ) :=
  let c := { c with dataWrited := [] }
  if ec.isSome then errorMoments (.message ec) cbs c
  else if c.dataQueued ≠ [] then
    [⟨{ c with dataQueued := [], dataWrited := c.dataQueued }, .asyncWrite c.dataQueued.flatten,
      .returns⟩]
  else []

def doAsyncCommandMoments (buff : Bytes) (handler : Option κ) (cbs : Callbacks κ)
    (c : RedisClientImpl κ) : List (Moment κ) :=
  let d := c.log (.doAsyncCommand buff handler)
  ⟨c, .doAsyncCommand buff handler, .returns⟩ ::
    if d.dataWrited = [] then
      asyncWriteMoments none cbs
        { d with handlers := d.handlers ++ [handler], dataQueued := d.dataQueued ++ [buff] }
    else []

def frontMoments (v : RedisValue) (cbs : Callbacks κ) (c : RedisClientImpl κ) : List (Moment κ) :=
  match c.handlers with
  | [] => []
  | handler :: _ => handlerMoments handler v cbs c

def dispatchMoments (v : RedisValue) (cbs : Callbacks κ) (c : RedisClientImpl κ) :
    List (Moment κ) :=
  match v.toArray with
  | command :: _ :: _ :: _ =>
    let cmd := command.toByteArray
    if cmd = messageStr ∨ cmd = pmessageStr then []
    else if c.handlers ≠ [] ∧ cmd ∈ confirmWords then frontMoments v cbs c
    else errorMoments (.text (chars invalidCommand ++ cmd)) cbs c
  | _ => errorMoments (.text (chars protocolError)) cbs c

def doProcessMessageMoments (v : RedisValue) (cbs : Callbacks κ) (c : RedisClientImpl κ) :
    List (Moment κ) :=
  let d := c.log (.doProcessMessage c.state v)
  ⟨c, .doProcessMessage c.state v, .returns⟩ ::
    if d.state = .subscribed then dispatchMoments v cbs d
    else if d.handlers ≠ [] then frontMoments v cbs d
    else errorMoments (.text (chars unexpectedMessage ++ inspect v)) cbs d

def readLoopMoments : ℕ → Bytes → Callbacks κ → RedisClientImpl κ → List (Moment κ)
  | 0, _, _, _ => []
  | fuel + 1, data, cbs, c =>
    if data = [] then []
    else
      match parse c.redisParser data with
      | none => []
      | some ((k, r), redisParser) =>
        let c := { c with redisParser := redisParser }
        match r with
        | .completed =>
          let (v, redisParser) := result c.redisParser
          let c := { c with redisParser := redisParser }
          doProcessMessageMoments v cbs c ++
            match doProcessMessage v cbs c with
            | (.returns, cbs, c) => readLoopMoments fuel (data.drop k) cbs c
            | _ => []
        | .incompleted => []
        | .error => errorMoments (.text (chars parserError)) cbs c

def asyncReadMoments (ec : ErrorCode) (size : ℕ) (cbs : Callbacks κ) (c : RedisClientImpl κ) :
    List (Moment κ) :=
  if ec.isSome ∨ size = 0 then
    if ec ≠ some operationAborted then errorMoments (.message ec) cbs c else []
  else readLoopMoments size (c.buf.take size) cbs c

def handleAsyncConnectMoments (ec : ErrorCode) (handler : κ) (cbs : Callbacks κ)
    (c : RedisClientImpl κ) : List (Moment κ) :=
  callbackMoments (.connect ec handler) cbs
    { c with state := if ec.isNone then .connected else .unconnected }

def runPostedMoments (f : Posted κ) (cbs : Callbacks κ) (c : RedisClientImpl κ) :
    List (Moment κ) :=
  match f with
  | .doAsyncCommand buff handler => doAsyncCommandMoments buff handler cbs c
  | .message msgHandler msg => callbackMoments (.message msgHandler msg) cbs c

/-- **The moments of a step**, if it is possible. -/
def stepMoments (e : Event κ) (c : RedisClientImpl κ) : List (Moment κ) :=
  match e with
  | .user s => scriptMoments s c
  | .posted cbs =>
    match c.strand with
    | [] => []
    | f :: strand => runPostedMoments f cbs { c with strand := strand }
  | .readDone cbs =>
    match c.socket.readsDone with
    | [] => []
    | (ec, size) :: readsDone =>
      asyncReadMoments ec size cbs { c with socket := { c.socket with readsDone := readsDone } }
  | .writeDone cbs =>
    match c.socket.writesDone with
    | [] => []
    | ec :: writesDone =>
      asyncWriteMoments ec cbs { c with socket := { c.socket with writesDone := writesDone } }
  | .connectDone cbs =>
    match c.socket.connectsDone with
    | [] => []
    | (ec, handler) :: connectsDone =>
      handleAsyncConnectMoments ec handler cbs
        { c with socket := { c.socket with connectsDone := connectsDone } }
  | .receive _ | .readFail _ | .send _ | .writeFail _ | .connectOk _ | .connectFail _ => []

/-- **The moments of a run.** -/
def runMoments : List (Event κ) → RedisClientImpl κ → List (Moment κ)
  | [], _ => []
  | e :: es, c =>
    stepMoments e c ++
      match step e c with
      | none => []
      | some c => runMoments es c

theorem runMoments_cons {e : Event κ} {es : List (Event κ)} {c c1 : RedisClientImpl κ}
    (h : step e c = some c1) : runMoments (e :: es) c = stepMoments e c ++ runMoments es c1 := by
  simp only [runMoments, h]

/-- What holds of the moments of a run holds of those of its first step and of those that follow. -/
theorem forall_runMoments {Q : Moment κ → Prop} {e : Event κ} {es : List (Event κ)}
    {c c1 : RedisClientImpl κ} (h : step e c = some c1) (hQ : ∀ m ∈ runMoments (e :: es) c, Q m) :
    (∀ m ∈ stepMoments e c, Q m) ∧ ∀ m ∈ runMoments es c1, Q m := by
  rw [runMoments_cons h] at hQ
  exact ⟨fun m hm => hQ m (List.mem_append_left _ hm), fun m hm => hQ m (List.mem_append_right _ hm)⟩

/-! ### Messages -/

/-- What the error handler is told of a message begins with one of these. -/
def Misread (text : Bytes) : Prop :=
  ∃ s ∈ [protocolError, invalidCommand, unexpectedMessage], chars s <+: text

instance : DecidablePred Misread := fun text => inferInstanceAs
  (Decidable (∃ s ∈ [protocolError, invalidCommand, unexpectedMessage], chars s <+: text))

/-- The value is handled as a message after a subscription. -/
def Announces (v : RedisValue) : Prop :=
  match v.toArray with
  | command :: _ :: _ :: _ => command.toByteArray = messageStr ∨ command.toByteArray = pmessageStr
  | _ => False

/-- **What is done with a message**, whatever the callbacks do: it is posted to subscribers, or handed
to the handler in front of the queue, or the error handler is told. -/
theorem doProcessMessage_handling (v : RedisValue) (c : RedisClientImpl κ) :
    (c.state = .subscribed ∧ Announces v ∧ ∃ channel msg, ∀ cbs,
      doProcessMessageMoments v cbs c = [⟨c, .doProcessMessage c.state v, .returns⟩] ∧
      doProcessMessage v cbs c = (.returns, cbs, postMessages channel msg
        (postSingleShot channel msg (c.log (.doProcessMessage c.state v))))) ∨
    (c.handlers ≠ [] ∧ ∀ cbs,
      doProcessMessageMoments v cbs c = ⟨c, .doProcessMessage c.state v, .returns⟩ ::
        frontMoments v cbs (c.log (.doProcessMessage c.state v)) ∧
      doProcessMessage v cbs c = callFront v cbs (c.log (.doProcessMessage c.state v))) ∨
    ∃ text, Misread text ∧ ∀ cbs,
      doProcessMessageMoments v cbs c = ⟨c, .doProcessMessage c.state v, .returns⟩ ::
        errorMoments (.text text) cbs (c.log (.doProcessMessage c.state v)) ∧
      doProcessMessage v cbs c =
        callErrorHandler (.text text) cbs (c.log (.doProcessMessage c.state v)) := by
  have hprotocol : Misread (chars protocolError) := ⟨_, by simp, List.prefix_refl _⟩
  unfold doProcessMessageMoments doProcessMessage
  dsimp only
  by_cases hsub : (c.log (.doProcessMessage c.state v)).state = .subscribed
  · simp only [if_pos hsub]
    unfold dispatchMoments dispatch Announces
    rcases v.toArray with _ | ⟨command, _ | ⟨second, _ | ⟨third, rest⟩⟩⟩
    · exact Or.inr (Or.inr ⟨_, hprotocol, fun _ => ⟨rfl, rfl⟩⟩)
    · exact Or.inr (Or.inr ⟨_, hprotocol, fun _ => ⟨rfl, rfl⟩⟩)
    · exact Or.inr (Or.inr ⟨_, hprotocol, fun _ => ⟨rfl, rfl⟩⟩)
    · dsimp only
      by_cases hm : command.toByteArray = messageStr ∨ command.toByteArray = pmessageStr
      · simp only [if_pos hm]
        exact Or.inl ⟨hsub, hm, _, _, fun _ => ⟨trivial, rfl⟩⟩
      · simp only [if_neg hm]
        by_cases hf : (c.log (.doProcessMessage c.state v)).handlers ≠ [] ∧
            command.toByteArray ∈ confirmWords
        · simp only [if_pos hf]
          exact Or.inr (Or.inl ⟨hf.1, fun _ => ⟨trivial, trivial⟩⟩)
        · simp only [if_neg hf]
          exact Or.inr (Or.inr ⟨_, ⟨_, by simp, List.prefix_append _ _⟩, fun _ => ⟨rfl, rfl⟩⟩)
  · simp only [if_neg hsub]
    by_cases hh : (c.log (.doProcessMessage c.state v)).handlers ≠ []
    · simp only [if_pos hh]
      exact Or.inr (Or.inl ⟨hh, fun _ => ⟨trivial, trivial⟩⟩)
    · simp only [if_neg hh]
      exact Or.inr (Or.inr ⟨_, ⟨_, by simp, List.prefix_append _ _⟩, fun _ => ⟨rfl, rfl⟩⟩)

/-- The same for the callbacks of one step. -/
theorem doProcessMessage_cases (v : RedisValue) (cbs : Callbacks κ) (c : RedisClientImpl κ) :
    ∃ ms, doProcessMessageMoments v cbs c = ⟨c, .doProcessMessage c.state v, .returns⟩ :: ms ∧
      ((∃ channel msg, ms = [] ∧ doProcessMessage v cbs c = (.returns, cbs,
        postMessages channel msg (postSingleShot channel msg (c.log (.doProcessMessage c.state v))))) ∨
      (c.handlers ≠ [] ∧ ms = frontMoments v cbs (c.log (.doProcessMessage c.state v)) ∧
        doProcessMessage v cbs c = callFront v cbs (c.log (.doProcessMessage c.state v))) ∨
      ∃ text, Misread text ∧
        ms = errorMoments (.text text) cbs (c.log (.doProcessMessage c.state v)) ∧
        doProcessMessage v cbs c =
          callErrorHandler (.text text) cbs (c.log (.doProcessMessage c.state v))) := by
  rcases doProcessMessage_handling v c with ⟨-, -, channel, msg, h⟩ | ⟨hh, h⟩ | ⟨text, htext, h⟩
  · exact ⟨_, (h cbs).1, Or.inl ⟨channel, msg, rfl, (h cbs).2⟩⟩
  · exact ⟨_, (h cbs).1, Or.inr (Or.inl ⟨hh, rfl, (h cbs).2⟩)⟩
  · exact ⟨_, (h cbs).1, Or.inr (Or.inr ⟨text, htext, rfl, (h cbs).2⟩)⟩

/-! ### The user's code -/

/-- How a piece of the user's code ends, whatever the client does. -/
def ending : Script κ → Ending
  | .returns => .returns
  | .throws => .throws
  | .call _ _ next => ending next

theorem runScript_ending : ∀ (s : Script κ) (c : RedisClientImpl κ), (runScript s c).1 = ending s
  | .returns, _ | .throws, _ => rfl
  | .call call cb next, c => by
    simp only [runScript, ending]
    rcases call.body (c.log (.call c.state call)) with ⟨_ | action, handle, c1⟩
    · exact runScript_ending next _
    · dsimp only
      rcases runScript cb (c1.log action) with ⟨_ | _ | _, c2⟩
      all_goals exact runScript_ending next _

theorem ending_ne_undefined : ∀ s : Script κ, ending s ≠ .undefined
  | .returns | .throws => nofun
  | .call _ _ next => ending_ne_undefined next

/-- A callback runs as its script says. -/
theorem callback_script (cbs : Callbacks κ) (c : RedisClientImpl κ) : ∃ cbs', callback cbs c =
    (ending (cbs.headD .returns), cbs', (runScript (cbs.headD .returns) c).2) := by
  cases cbs with
  | nil => exact ⟨[], rfl⟩
  | cons s cbs =>
    refine ⟨cbs, ?_⟩
    show ((runScript s c).1, cbs, (runScript s c).2) = _
    rw [runScript_ending]
    rfl

/-- **A call that does not go through** changes nothing. A connect calls its handler, and any other
call the error handler. -/
theorem body_told {call : Call κ} {c c' : RedisClientImpl κ} {action : Action κ}
    {handle : Option Handle} (h : call.body c = (some action, handle, c')) : c' = c ∧
      ((∃ endpoint handler, call = .connect endpoint handler ∧ action = .connect none handler) ∨
        (∀ endpoint handler, call ≠ .connect endpoint handler) ∧
          ∃ text, action = .error (.text text)) := by
  have hb := body_cases call c
  rw [h] at hb
  cases hb with
  | connected endpoint handler => exact ⟨rfl, Or.inl ⟨endpoint, handler, rfl, rfl⟩⟩
  | refused text handle hcall => exact ⟨rfl, Or.inr ⟨hcall, text, rfl⟩⟩

/-- An entry that the user's code makes whose calls are of the kind. -/
def OfScript (ok : Call κ → Prop) : Action κ → Prop
  | .call _ call => ok call
  | .returned _ | .connect none _ | .error _ => True
  | _ => False

theorem returnMoments_of {ok : Call κ → Prop} {handle : Option Handle} {c : RedisClientImpl κ} :
    ∀ m ∈ returnMoments handle c, OfScript ok m.action := by
  intro m hm
  cases handle with
  | none => cases hm
  | some handle =>
    rw [List.mem_singleton.mp hm]
    trivial

theorem scriptMoments_of {ok : Call κ → Prop} {s : Script κ} (hs : All ok s) :
    ∀ c : RedisClientImpl κ, ∀ m ∈ scriptMoments s c, OfScript ok m.action := by
  induction s with
  | returns | throws =>
    intro c m hm
    cases hm
  | call call cb next ihcb ihnext =>
    intro c m hm
    have htold : ∀ {action handle c1}, call.body (c.log (.call c.state call)) =
        (some action, handle, c1) → OfScript ok action := by
      intro action handle c1 ha
      rcases (body_told ha).2 with ⟨endpoint, handler, -, rfl⟩ | ⟨-, text, rfl⟩ <;> trivial
    rw [scriptMoments] at hm
    rcases List.mem_cons.mp hm with rfl | hm
    · exact hs.1
    · rcases hx : call.body (c.log (.call c.state call)) with ⟨_ | action, handle, c1⟩ <;>
        rw [hx] at hm htold
      · rcases List.mem_append.mp hm with hm | hm
        · exact returnMoments_of m hm
        · exact ihnext hs.2.2 _ m hm
      · rcases List.mem_cons.mp hm with rfl | hm
        · exact htold rfl
        · rcases List.mem_append.mp hm with hm | hm
          · exact ihcb hs.2.1 _ m hm
          · rcases hy : runScript cb (c1.log action) with ⟨_ | _ | _, c2⟩ <;> rw [hy] at hm
            · rcases List.mem_append.mp hm with hm | hm
              · exact returnMoments_of m hm
              · exact ihnext hs.2.2 _ m hm
            · exact ihnext hs.2.2 _ m hm
            · exact ihnext hs.2.2 _ m hm

/-! ### What is recorded -/

/-- What can be said of an entry of user code with calls of the kind `ok`, and of what the client does
with it: a call is of the kind, and the state in the entry is the one that the client is in. -/
def Recorded (ok : Call κ → Prop) (m : Moment κ) : Prop :=
  match m.action with
  | .call state call => m.client.state = state ∧ ok call
  | .doProcessMessage state _ => m.client.state = state
  | _ => True

section Recorded

variable {ok : Call κ → Prop} {cbs : Callbacks κ}

theorem scriptMoments_recorded {s : Script κ} (hs : All ok s) :
    ∀ c : RedisClientImpl κ, ∀ m ∈ scriptMoments s c, Recorded ok m := by
  have hreturn : ∀ (handle : Option Handle) (c : RedisClientImpl κ), ∀ m ∈ returnMoments handle c,
      Recorded ok m := by
    intro handle c m hm
    cases handle with
    | none => cases hm
    | some handle =>
      rw [List.mem_singleton.mp hm]
      trivial
  induction s with
  | returns | throws =>
    intro c m hm
    cases hm
  | call call cb next ihcb ihnext =>
    intro c m hm
    rw [scriptMoments] at hm
    rcases List.mem_cons.mp hm with rfl | hm
    · exact ⟨rfl, hs.1⟩
    · rcases hx : call.body (c.log (.call c.state call)) with ⟨_ | action, handle, c1⟩ <;>
        rw [hx] at hm
      · rcases List.mem_append.mp hm with hm | hm
        · exact hreturn _ _ m hm
        · exact ihnext hs.2.2 _ m hm
      · rcases List.mem_cons.mp hm with rfl | hm
        · rcases (body_told hx).2 with ⟨endpoint, handler, -, rfl⟩ | ⟨-, text, rfl⟩ <;> trivial
        · rcases List.mem_append.mp hm with hm | hm
          · exact ihcb hs.2.1 _ m hm
          · rcases hy : runScript cb (c1.log action) with ⟨_ | _ | _, c2⟩ <;> rw [hy] at hm
            · rcases List.mem_append.mp hm with hm | hm
              · exact hreturn _ _ m hm
              · exact ihnext hs.2.2 _ m hm
            · exact ihnext hs.2.2 _ m hm
            · exact ihnext hs.2.2 _ m hm

theorem headD_all (hcbs : AllOf ok cbs) : All ok (cbs.headD .returns) := by
  cases cbs with
  | nil => trivial
  | cons s cbs => exact hcbs s List.mem_cons_self

/-- A callback, if what is to be said of its entry holds. -/
theorem callbackMoments_recorded {action : Action κ} {c : RedisClientImpl κ} (hcbs : AllOf ok cbs)
    (ha : Recorded ok ⟨c, action, cbs.headD .returns⟩) :
    ∀ m ∈ callbackMoments action cbs c, Recorded ok m := by
  intro m hm
  rcases List.mem_cons.mp hm with rfl | hm
  · exact ha
  · exact scriptMoments_recorded (headD_all hcbs) _ m hm

theorem asyncWriteMoments_recorded (ec : ErrorCode) (hcbs : AllOf ok cbs) (c : RedisClientImpl κ) :
    ∀ m ∈ asyncWriteMoments ec cbs c, Recorded ok m := by
  intro m hm
  unfold asyncWriteMoments at hm
  dsimp only at hm
  split_ifs at hm
  · exact callbackMoments_recorded hcbs (by trivial) m hm
  · rw [List.mem_singleton.mp hm]
    trivial
  · cases hm

theorem frontMoments_recorded (v : RedisValue) (hcbs : AllOf ok cbs) (c : RedisClientImpl κ) :
    ∀ m ∈ frontMoments v cbs c, Recorded ok m := by
  intro m hm
  unfold frontMoments at hm
  rcases hc : c.handlers with _ | ⟨_ | handler, handlers⟩ <;> rw [hc] at hm
  · cases hm
  · rw [List.mem_singleton.mp hm]
    trivial
  · exact callbackMoments_recorded hcbs (by trivial) m hm

theorem doProcessMessageMoments_recorded (v : RedisValue) (hcbs : AllOf ok cbs)
    (c : RedisClientImpl κ) : ∀ m ∈ doProcessMessageMoments v cbs c, Recorded ok m := by
  obtain ⟨ms, hms, hcases⟩ := doProcessMessage_cases v cbs c
  intro m hm
  rw [hms] at hm
  rcases List.mem_cons.mp hm with rfl | hm
  · exact rfl
  · rcases hcases with ⟨channel, msg, rfl, -⟩ | ⟨-, rfl, -⟩ | ⟨text, -, rfl, -⟩
    · cases hm
    · exact frontMoments_recorded v hcbs _ m hm
    · exact callbackMoments_recorded hcbs (by trivial) m hm

/-- The callbacks that are left have calls of the kind too. -/
theorem keeps_true : Keeps (κ := κ) ok fun _ _ => True where
  refl _ := trivial
  trans _ _ := trivial
  log _ _ := trivial
  body _ _ := trivial
  enqueue _ _ _ := trivial
  write _ _ := trivial
  pop _ := trivial
  postSingleShot _ _ _ := trivial
  postMessages _ _ _ := trivial
  redisParser _ _ := trivial
  read _ := trivial

theorem readLoopMoments_recorded : ∀ (fuel : ℕ) {data : Bytes} {cbs : Callbacks κ}
    {c : RedisClientImpl κ}, AllOf ok cbs → ∀ m ∈ readLoopMoments fuel data cbs c, Recorded ok m
  | 0, _, _, _, _, m, hm => by cases hm
  | fuel + 1, data, cbs, c, hcbs, m, hm => by
    simp only [readLoopMoments] at hm
    split_ifs at hm
    · cases hm
    · rcases hp : parse c.redisParser data with _ | ⟨⟨k, _ | _ | _⟩, p⟩ <;> rw [hp] at hm
      · cases hm
      · rcases List.mem_append.mp hm with hm | hm
        · exact doProcessMessageMoments_recorded _ hcbs _ m hm
        · have hleft := (keeps_true.doProcessMessage (result p).1
            { c with redisParser := (result p).2 } hcbs).2
          rcases hx : doProcessMessage (result p).1 cbs { c with redisParser := (result p).2 } with
            ⟨_ | _ | _, cbs1, c1⟩ <;> rw [hx] at hm hleft
          · exact readLoopMoments_recorded fuel hleft m hm
          · cases hm
          · cases hm
      · cases hm
      · exact callbackMoments_recorded hcbs (by trivial) m hm

theorem stepMoments_recorded {e : Event κ} (he : AllIn ok e) (c : RedisClientImpl κ) :
    ∀ m ∈ stepMoments e c, Recorded ok m := by
  intro m hm
  cases e with
  | user s => exact scriptMoments_recorded he c m hm
  | posted cbs =>
    simp only [stepMoments] at hm
    rcases hc : c.strand with _ | ⟨_ | _, strand⟩ <;> rw [hc] at hm
    · cases hm
    · rcases List.mem_cons.mp hm with rfl | hm
      · trivial
      · split_ifs at hm
        · exact asyncWriteMoments_recorded none he _ m hm
        · cases hm
    · exact callbackMoments_recorded he (by trivial) m hm
  | readDone cbs =>
    simp only [stepMoments] at hm
    rcases hc : c.socket.readsDone with _ | ⟨⟨ec, size⟩, readsDone⟩ <;> rw [hc] at hm
    · cases hm
    · simp only [asyncReadMoments] at hm
      split_ifs at hm
      · exact callbackMoments_recorded he (by trivial) m hm
      · cases hm
      · exact readLoopMoments_recorded size he m hm
  | writeDone cbs =>
    simp only [stepMoments] at hm
    rcases hc : c.socket.writesDone with _ | ⟨ec, writesDone⟩ <;> rw [hc] at hm
    · cases hm
    · exact asyncWriteMoments_recorded ec he _ m hm
  | connectDone cbs =>
    simp only [stepMoments] at hm
    rcases hc : c.socket.connectsDone with _ | ⟨⟨ec, handler⟩, connectsDone⟩ <;> rw [hc] at hm
    · cases hm
    · exact callbackMoments_recorded he (by trivial) m hm
  | receive | readFail | send | writeFail | connectOk | connectFail => cases hm

/-- **What is recorded in a run.** -/
theorem runMoments_recorded : ∀ {es : List (Event κ)}, (∀ e ∈ es, AllIn ok e) →
    ∀ c : RedisClientImpl κ, ∀ m ∈ runMoments es c, Recorded ok m
  | [], _, _, m, hm => by cases hm
  | e :: es, hes, c, m, hm => by
    rcases List.mem_append.mp hm with hm | hm
    · exact stepMoments_recorded (hes e List.mem_cons_self) c m hm
    · rcases hs : step e c with _ | c1 <;> rw [hs] at hm
      · cases hm
      · exact runMoments_recorded (fun e' he' => hes e' (List.mem_cons_of_mem e he')) c1 m hm

end Recorded

/-! ### The rules -/

/-- An entry of user code that is made by itself, without anything else that is done to the client. -/
def Plain : Action κ → Prop
  | .returned _ | .error _ => True
  | _ => False

section Rules

variable (Q : Moment κ → Prop) (R : RedisClientImpl κ → List (Moment κ) → RedisClientImpl κ → Prop)

/-- The relation holds across what the user's code does, if the moments have the property `Q`: a call
that goes through, one that does not and calls back, and the other entries. -/
structure CarriesCalls : Prop where
  nil (c : RedisClientImpl κ) : R c [] c
  append {ms ms' : List (Moment κ)} {c c1 c' : RedisClientImpl κ} :
    R c ms c1 → R c1 ms' c' → R c (ms ++ ms') c'
  entry (a : Action κ) (s : Script κ) (c : RedisClientImpl κ) : Plain a → Q ⟨c, a, s⟩ →
    R c [⟨c, a, s⟩] (c.log a)
  accepted {call : Call κ} {handle : Option Handle} {c c' : RedisClientImpl κ} :
    call.body (c.log (.call c.state call)) = (none, handle, c') →
    Q ⟨c, .call c.state call, .returns⟩ → R c [⟨c, .call c.state call, .returns⟩] c'
  refused {call : Call κ} {action : Action κ} {handle : Option Handle} {c c' : RedisClientImpl κ}
    (s : Script κ) : call.body (c.log (.call c.state call)) = (some action, handle, c') →
    Q ⟨c, .call c.state call, .returns⟩ → Q ⟨c', action, s⟩ →
    R c [⟨c, .call c.state call, .returns⟩, ⟨c', action, s⟩] (c'.log action)

/-- It holds also across what is done with a message and with the bytes of a read. -/
structure CarriesInput : Prop extends CarriesCalls Q R where
  processed {v : RedisValue} {c : RedisClientImpl κ} :
    Q ⟨c, .doProcessMessage c.state v, .returns⟩ →
      R c [⟨c, .doProcessMessage c.state v, .returns⟩] (c.log (.doProcessMessage c.state v))
  front {handler : Option κ} {handlers : List (Option κ)} {c : RedisClientImpl κ} (v : RedisValue)
    (cbs : Callbacks κ) : c.handlers = handler :: handlers → (∀ m ∈ frontMoments v cbs c, Q m) →
      R c (frontMoments v cbs c) (callFront v cbs c).2.2
  postSingleShot (channel msg : Bytes) (c : RedisClientImpl κ) :
    R c [] (postSingleShot channel msg c)
  postMessages (channel msg : Bytes) (c : RedisClientImpl κ) : R c [] (postMessages channel msg c)
  redisParser (p : RedisParser) (c : RedisClientImpl κ) : R c [] { c with redisParser := p }
  read (c : RedisClientImpl κ) : R c [] (processMessage c)

/-- It holds across all that is done with a message as a whole, and across the bytes of a read. -/
structure CarriesReads : Prop extends CarriesCalls Q R where
  process (v : RedisValue) (cbs : Callbacks κ) (c : RedisClientImpl κ) :
    (∀ m ∈ doProcessMessageMoments v cbs c, Q m) →
      R c (doProcessMessageMoments v cbs c) (doProcessMessage v cbs c).2.2
  redisParser (p : RedisParser) (c : RedisClientImpl κ) : R c [] { c with redisParser := p }
  read (c : RedisClientImpl κ) : R c [] (processMessage c)

/-- It holds across what the system and the event loop do: a command or a message that has been
posted is run, a write is started, an operation of the socket makes progress, or its completion
handler begins. -/
structure CarriesSystem : Prop where
  command {buff : Bytes} {handler : Option κ} {strand : List (Posted κ)}
    {c d : RedisClientImpl κ} : c.strand = .doAsyncCommand buff handler :: strand →
    d = { c with strand := strand } → Q ⟨d, .doAsyncCommand buff handler, .returns⟩ →
    R c [⟨d, .doAsyncCommand buff handler, .returns⟩] { d.log (.doAsyncCommand buff handler) with
      handlers := d.handlers ++ [handler], dataQueued := d.dataQueued ++ [buff] }
  message {msgHandler : κ} {msg : Bytes} {strand : List (Posted κ)} {c d : RedisClientImpl κ}
    (s : Script κ) : c.strand = .message msgHandler msg :: strand →
    d = { c with strand := strand } → Q ⟨d, .message msgHandler msg, s⟩ →
    R c [⟨d, .message msgHandler msg, s⟩] (d.log (.message msgHandler msg))
  clear (c : RedisClientImpl κ) : R c [] { c with dataWrited := [] }
  write {data : Bytes} {c d : RedisClientImpl κ} : c.dataQueued ≠ [] → data = c.dataQueued.flatten →
    d = { c with dataQueued := [], dataWrited := c.dataQueued } →
    Q ⟨d, .asyncWrite data, .returns⟩ →
    R c [⟨d, .asyncWrite data, .returns⟩]
      { d.log (.asyncWrite data) with socket := d.socket.asyncWrite data }
  broken (c : RedisClientImpl κ) : R c [] { c with broken := true }
  receive {n : ℕ} {data buf : Bytes} {socket : Socket κ} {c : RedisClientImpl κ} :
    c.socket.receive n = some (data, socket) → R c [] { c with socket := socket, buf := buf }
  socket {s : Socket κ} {c : RedisClientImpl κ} :
    (∃ e, c.socket.readFail e = some s) ∨ (∃ n, c.socket.send n = some s) ∨
      (∃ e, c.socket.writeFail e = some s) ∨ (∃ peer, c.socket.connectOk peer = some s) ∨
      (∃ e, c.socket.connectFail e = some s) → R c [] { c with socket := s }
  readDone {r : ErrorCode × ℕ} {readsDone : List (ErrorCode × ℕ)} {c : RedisClientImpl κ} :
    c.socket.readsDone = r :: readsDone →
      R c [] { c with socket := { c.socket with readsDone := readsDone } }
  writeDone {ec : ErrorCode} {writesDone : List ErrorCode} {c : RedisClientImpl κ} :
    c.socket.writesDone = ec :: writesDone →
      R c [] { c with socket := { c.socket with writesDone := writesDone } }
  connectDone {ec : ErrorCode} {handler : κ} {connectsDone : List (ErrorCode × κ)}
    {c d : RedisClientImpl κ} (s : Script κ) :
    c.socket.connectsDone = (ec, handler) :: connectsDone →
    d = { c with
      socket := { c.socket with connectsDone := connectsDone }
      state := if ec.isNone then .connected else .unconnected } →
    Q ⟨d, .connect ec handler, s⟩ →
    R c [⟨d, .connect ec handler, s⟩] (d.log (.connect ec handler))

/-- It holds across all of this. -/
structure CarriesEvents : Prop extends CarriesReads Q R, CarriesSystem Q R

/-- The same, with the things that are done with a message one by one. -/
structure CarriesLoop : Prop extends CarriesInput Q R, CarriesSystem Q R

end Rules

variable {Q : Moment κ → Prop} {R : RedisClientImpl κ → List (Moment κ) → RedisClientImpl κ → Prop}

/-- An entry that a call makes which does not go through. -/
theorem next_of_body {call : Call κ} {c c' : RedisClientImpl κ} {action : Action κ}
    {handle : Option Handle} (h : call.body c = (some action, handle, c')) (s : Script κ) :
    (Moment.mk c' action s).next = c'.log action := by
  rcases (body_told h).2 with ⟨endpoint, handler, -, rfl⟩ | ⟨-, text, rfl⟩ <;> rfl

/-- An entry that the user's code makes. -/
def Scripted : Action κ → Prop
  | .call _ _ | .returned _ | .connect none _ | .error _ => True
  | _ => False

/-- A relation that holds across each moment of the user's code. -/
theorem carriesCalls_of_scripted (nil : ∀ c, R c [] c)
    (append : ∀ {ms ms' c c1 c'}, R c ms c1 → R c1 ms' c' → R c (ms ++ ms') c')
    (moment : ∀ m : Moment κ, Scripted m.action → Q m → R m.client [m] m.next) :
    CarriesCalls Q R where
  nil := nil
  append := append
  entry a s c ha hQ := by
    cases a <;> first
      | exact ha.elim
      | exact moment ⟨c, _, s⟩ trivial hQ
  accepted {call handle c c'} hb hQ := by
    have h := moment ⟨c, .call c.state call, .returns⟩ trivial hQ
    change R c _ (call.body (c.log (.call c.state call))).2.2 at h
    rwa [hb] at h
  refused {call action handle c c'} s hb hQ hQ' := by
    have h := moment ⟨c, .call c.state call, .returns⟩ trivial hQ
    change R c _ (call.body (c.log (.call c.state call))).2.2 at h
    rw [hb] at h
    have h' := moment ⟨c', action, s⟩ (by
      rcases (body_told hb).2 with ⟨endpoint, handler, -, rfl⟩ | ⟨-, text, rfl⟩ <;> trivial) hQ'
    rw [next_of_body hb s] at h'
    exact append h h'

/-- A relation that holds across each moment. -/
theorem carriesCalls_of_moment (nil : ∀ c, R c [] c)
    (append : ∀ {ms ms' c c1 c'}, R c ms c1 → R c1 ms' c' → R c (ms ++ ms') c')
    (moment : ∀ m : Moment κ, Q m → R m.client [m] m.next) : CarriesCalls Q R :=
  carriesCalls_of_scripted nil append fun m _ => moment m

namespace CarriesCalls

variable (h : CarriesCalls Q R)
include h

/-- Something is done, and then come the moments. -/
theorem after {ms : List (Moment κ)} {c c1 c' : RedisClientImpl κ} (h1 : R c [] c1)
    (h2 : R c1 ms c') : R c ms c' := h.append h1 h2

theorem returned {handle : Option Handle} {c : RedisClientImpl κ}
    (hQ : ∀ m ∈ returnMoments handle c, Q m) :
    R c (returnMoments handle c) (c.return handle) := by
  cases handle with
  | none => exact h.nil c
  | some handle => exact h.entry (.returned handle) .returns c trivial (hQ _ List.mem_cons_self)

theorem runScript : ∀ (s : Script κ) (c : RedisClientImpl κ), (∀ m ∈ scriptMoments s c, Q m) →
    R c (scriptMoments s c) (runScript s c).2
  | .returns, c, _ | .throws, c, _ => h.nil c
  | .call call cb next, c, hQ => by
    have hfirst : Q ⟨c, .call c.state call, .returns⟩ := hQ _ List.mem_cons_self
    simp only [scriptMoments, Defs.runScript] at hQ ⊢
    rcases hx : call.body (c.log (.call c.state call)) with ⟨_ | action, handle, c1⟩ <;>
      rw [hx] at hQ
    · exact h.append (h.accepted hx hfirst) (h.append (h.returned fun m hm => hQ m (by simp [hm]))
        (runScript next _ fun m hm => hQ m (by simp [hm])))
    · have h0 := h.refused cb hx hfirst (hQ _ (by simp))
      have h1 := h.append h0 (runScript cb (c1.log action) fun m hm => hQ m (by simp [hm]))
      dsimp only at hQ ⊢
      rcases hy : Defs.runScript cb (c1.log action) with ⟨_ | _ | _, c2⟩ <;> rw [hy] at h1 hQ
      · exact h.append h1 (h.append (h.returned fun m hm => hQ m (by simp [hm]))
          (runScript next _ fun m hm => hQ m (by simp [hm])))
      · exact h.append h1 (runScript next _ fun m hm => hQ m (by simp [hm]))
      · exact h.append h1 (runScript next _ fun m hm => hQ m (by simp [hm]))

/-- A callback, after its entry. -/
theorem afterEntry {cbs : Callbacks κ} {c : RedisClientImpl κ}
    (hQ : ∀ m ∈ scriptMoments (cbs.headD .returns) c, Q m) :
    R c (scriptMoments (cbs.headD .returns) c) (callback cbs c).2.2 := by
  cases cbs with
  | nil => exact h.nil _
  | cons s cbs => exact h.runScript s c hQ

/-- A callback, if the relation holds across its entry. -/
theorem callback {action : Action κ} {cbs : Callbacks κ} {c : RedisClientImpl κ}
    (ha : R c [⟨c, action, cbs.headD .returns⟩] (c.log action))
    (hQ : ∀ m ∈ callbackMoments action cbs c, Q m) :
    R c (callbackMoments action cbs c) (callback cbs (c.log action)).2.2 :=
  h.append ha (h.afterEntry fun m hm => hQ m (List.mem_cons_of_mem _ hm))

theorem callErrorHandler {r : Report} {cbs : Callbacks κ} {c : RedisClientImpl κ}
    (hQ : ∀ m ∈ errorMoments r cbs c, Q m) :
    R c (errorMoments r cbs c) (callErrorHandler r cbs c).2.2 :=
  h.callback (h.entry (.error r) _ c trivial (hQ _ List.mem_cons_self)) hQ

/-- The rule for the front of the queue, if the relation holds across the entry of a reply and across
what is done after the handler. -/
theorem callFront {v : RedisValue} {cbs : Callbacks κ} {c : RedisClientImpl κ}
    (hreply : ∀ {handler : Option κ} {v : RedisValue} {s : Script κ} {c : RedisClientImpl κ},
      Q ⟨c, .reply handler v, s⟩ → R c [⟨c, .reply handler v, s⟩] (c.log (.reply handler v)))
    (hpop : ∀ {handler : Option κ} {handlers : List (Option κ)} {c : RedisClientImpl κ},
      c.handlers = handler :: handlers → R c [] { c with handlers := handlers })
    (hQ : ∀ m ∈ frontMoments v cbs c, Q m) :
    R c (frontMoments v cbs c) (callFront v cbs c).2.2 := by
  have hcall : ∀ handler : Option κ, (∀ m ∈ handlerMoments handler v cbs c, Q m) →
      R c (handlerMoments handler v cbs c) (callHandler handler v cbs c).2.2 := by
    intro handler hQ
    cases handler with
    | none => exact hreply (hQ _ List.mem_cons_self)
    | some handler => exact h.callback (hreply (hQ _ List.mem_cons_self)) hQ
  unfold frontMoments Defs.callFront at *
  rcases hc : c.handlers with _ | ⟨handler, handlers⟩ <;> rw [hc] at hQ
  · exact h.nil c
  · have h1 := hcall handler hQ
    dsimp only at h1 ⊢
    rcases hx : Defs.callHandler handler v cbs c with ⟨_ | _ | _, cbs1, c1⟩ <;> rw [hx] at h1
    · dsimp only
      rcases hh : c1.handlers with _ | ⟨handler', handlers'⟩
      · exact h1
      · have h2 := h.append h1 (hpop hh)
        rwa [List.append_nil] at h2
    · exact h1
    · exact h1

end CarriesCalls

/-- What is carried across the things that are done with a message is carried across all of them. -/
theorem CarriesInput.reads (h : CarriesInput Q R) : CarriesReads Q R where
  toCarriesCalls := h.toCarriesCalls
  process v cbs c hQ := by
    obtain ⟨ms, hms, hcases⟩ := doProcessMessage_cases v cbs c
    rw [hms] at hQ ⊢
    refine h.append (h.processed (hQ _ List.mem_cons_self)) ?_
    have hrest := fun m hm => hQ m (List.mem_cons_of_mem _ hm)
    rcases hcases with ⟨channel, msg, rfl, hd⟩ | ⟨hh, rfl, hd⟩ | ⟨text, -, rfl, hd⟩ <;> rw [hd]
    · exact h.after (h.postSingleShot channel msg _) (h.postMessages channel msg _)
    · exact h.front v cbs (List.cons_head_tail hh).symm hrest
    · exact h.callErrorHandler hrest
  redisParser := h.redisParser
  read := h.read

theorem CarriesLoop.events (h : CarriesLoop Q R) : CarriesEvents Q R where
  toCarriesReads := h.reads
  toCarriesSystem := h.toCarriesSystem

namespace CarriesReads

variable (h : CarriesReads Q R)
include h

theorem readLoop : ∀ (fuel : ℕ) {data : Bytes} {cbs : Callbacks κ} {c : RedisClientImpl κ}
    {o : Outcome κ}, (∀ m ∈ readLoopMoments fuel data cbs c, Q m) →
    readLoop fuel data cbs c = some o → R c (readLoopMoments fuel data cbs c) o.2.2
  | 0, data, cbs, c, o, _, ho => by
    simp only [Defs.readLoop] at ho
    split_ifs at ho
    cases ho
    exact h.read c
  | fuel + 1, data, cbs, c, o, hQ, ho => by
    simp only [Defs.readLoop, readLoopMoments] at hQ ho ⊢
    split_ifs at hQ ho ⊢
    · cases ho
      exact h.read c
    · rcases hp : parse c.redisParser data with _ | ⟨⟨k, _ | _ | _⟩, p⟩ <;> rw [hp] at ho hQ
      · cases ho
      · dsimp only at ho hQ ⊢
        refine h.after (h.redisParser (result p).2 c) ?_
        have h1 := h.process _ cbs _ fun m hm => hQ m (List.mem_append_left _ hm)
        rcases hx : Defs.doProcessMessage (result p).1 cbs
          { c with redisParser := (result p).2 } with ⟨_ | _ | _, cbs1, c1⟩ <;>
          rw [hx] at ho h1 hQ
        · exact h.append h1 (readLoop fuel (fun m hm => hQ m (List.mem_append_right _ hm)) ho)
        · cases ho
          rwa [List.append_nil]
        · cases ho
          rwa [List.append_nil]
      · cases ho
        exact h.after (h.redisParser p c) (h.read _)
      · cases ho
        exact h.after (h.redisParser p c) (h.callErrorHandler hQ)

theorem asyncRead {ec : ErrorCode} {size : ℕ} {cbs : Callbacks κ} {c : RedisClientImpl κ}
    {o : Outcome κ} (hQ : ∀ m ∈ asyncReadMoments ec size cbs c, Q m)
    (ho : asyncRead ec size cbs c = some o) : R c (asyncReadMoments ec size cbs c) o.2.2 := by
  unfold asyncReadMoments Defs.asyncRead at *
  split_ifs at hQ ho ⊢
  · cases ho
    exact h.callErrorHandler hQ
  · cases ho
    exact h.nil c
  · exact h.readLoop _ hQ ho

/-- The completion handler of a connect, after the entry of its handler. -/
theorem handleAsyncConnect {ec : ErrorCode} {handler : κ} {cbs : Callbacks κ}
    {c d : RedisClientImpl κ}
    (hd : d = { c with state := if ec.isNone then .connected else .unconnected })
    (hQ : ∀ m ∈ scriptMoments (cbs.headD .returns) (d.log (.connect ec handler)), Q m) :
    R (d.log (.connect ec handler))
      (scriptMoments (cbs.headD .returns) (d.log (.connect ec handler)))
      (handleAsyncConnect ec handler cbs c).2.2 := by
  have h1 := h.afterEntry hQ
  subst hd
  cases ec with
  | none =>
    change R _ _ (Defs.callback cbs
      ({ c with state := .connected }.log (.connect none handler))).2.2 at h1
    rcases handleAsyncConnect_cases handler cbs c with ⟨cbs1, c1, hcb, hd⟩ | ⟨-, hd⟩ <;> rw [hd]
    · rw [hcb] at h1
      have h2 := h.append h1 (h.read c1)
      rwa [List.append_nil] at h2
    · exact h1
  | some e => exact h1

end CarriesReads

namespace CarriesEvents

theorem asyncWrite (h : CarriesEvents Q R) {ec : ErrorCode} {cbs : Callbacks κ}
    {c : RedisClientImpl κ} (hQ : ∀ m ∈ asyncWriteMoments ec cbs c, Q m) :
    R c (asyncWriteMoments ec cbs c) (asyncWrite ec cbs c).2.2 := by
  refine h.after (h.clear c) ?_
  unfold asyncWriteMoments Defs.asyncWrite at *
  dsimp only at hQ ⊢
  split_ifs at hQ ⊢ with hec hq
  · exact h.callErrorHandler hQ
  · exact h.write (c := { c with dataWrited := [] }) hq rfl rfl (hQ _ List.mem_cons_self)
  · exact h.nil _

/-- A function of the strand is run. -/
theorem runPosted (h : CarriesEvents Q R) {f : Posted κ} {strand : List (Posted κ)}
    {cbs : Callbacks κ} {c : RedisClientImpl κ} (hs : c.strand = f :: strand)
    (hQ : ∀ m ∈ runPostedMoments f cbs { c with strand := strand }, Q m) :
    R c (runPostedMoments f cbs { c with strand := strand })
      (runPosted f cbs { c with strand := strand }).2.2 := by
  cases f with
  | doAsyncCommand buff handler =>
    have h1 := h.command hs rfl (hQ _ List.mem_cons_self)
    generalize hd : { c with strand := strand } = d at hQ h1 ⊢
    generalize he : { d.log (.doAsyncCommand buff handler) with
      handlers := d.handlers ++ [handler], dataQueued := d.dataQueued ++ [buff] } = e at h1
    have hms : runPostedMoments (.doAsyncCommand buff handler) cbs d =
        [⟨d, .doAsyncCommand buff handler, .returns⟩] ++
          if d.dataWrited = [] then asyncWriteMoments none cbs e else [] := by
      rw [← he]
      rfl
    have hrun : Defs.runPosted (.doAsyncCommand buff handler) cbs d =
        if d.dataWrited = [] then Defs.asyncWrite none cbs e else (.returns, cbs, e) := by
      rw [← he]
      rfl
    rw [hms] at hQ ⊢
    rw [hrun]
    refine h.append h1 ?_
    split_ifs at hQ ⊢
    · exact h.asyncWrite fun m hm => hQ m (List.mem_append_right _ hm)
    · exact h.nil e
  | message msgHandler msg =>
    exact h.append (h.message _ hs rfl (hQ _ List.mem_cons_self))
      (h.afterEntry fun m hm => hQ m (List.mem_cons_of_mem _ hm))

theorem client (h : CarriesEvents Q R) {ms : List (Moment κ)} {c : RedisClientImpl κ}
    {o : Outcome κ} (ho : R c ms o.2.2) : R c ms o.client := by
  rcases o with ⟨_ | _ | _, cbs, c'⟩
  · exact ho
  · exact ho
  · have h1 := h.append ho (h.broken c')
    rwa [List.append_nil] at h1

/-- **The relation holds across a step.** -/
theorem step (h : CarriesEvents Q R) {e : Event κ} {c c' : RedisClientImpl κ}
    (hQ : ∀ m ∈ stepMoments e c, Q m) (hstep : step e c = some c') : R c (stepMoments e c) c' := by
  obtain ⟨-, hs⟩ := step_cases hstep
  cases hs with
  | user s => exact h.runScript s c hQ
  | @posted cbs f strand hs =>
    simp only [stepMoments, hs] at hQ ⊢
    exact h.client (h.runPosted hs hQ)
  | receive hs => exact h.receive hs
  | @readDone cbs ec size readsDone o hs ho =>
    simp only [stepMoments, hs] at hQ ⊢
    exact h.client (h.after (h.readDone hs) (h.asyncRead hQ ho))
  | @writeDone cbs ec writesDone hs =>
    simp only [stepMoments, hs] at hQ ⊢
    exact h.client (h.after (h.writeDone hs) (h.asyncWrite hQ))
  | @connectDone cbs ec handler connectsDone hs =>
    simp only [stepMoments, hs] at hQ ⊢
    refine h.client (h.append (h.connectDone _ hs rfl (hQ _ List.mem_cons_self)) ?_)
    exact h.handleAsyncConnect rfl fun m hm => hQ m (List.mem_cons_of_mem _ hm)
  | readFail hs => exact h.socket (.inl ⟨_, hs⟩)
  | send hs => exact h.socket (.inr (.inl ⟨_, hs⟩))
  | writeFail hs => exact h.socket (.inr (.inr (.inl ⟨_, hs⟩)))
  | connectOk hs => exact h.socket (.inr (.inr (.inr (.inl ⟨_, hs⟩))))
  | connectFail hs => exact h.socket (.inr (.inr (.inr (.inr ⟨_, hs⟩))))

/-- **It holds across a run.** -/
theorem run (h : CarriesEvents Q R) : ∀ {es : List (Event κ)} {c c' : RedisClientImpl κ},
    (∀ m ∈ runMoments es c, Q m) → run es c = some c' → R c (runMoments es c) c'
  | [], c, c', _, hrun => by
    cases hrun
    exact h.nil c
  | e :: es, c, c', hQ, hrun => by
    obtain ⟨c1, h1, h2⟩ := Option.bind_eq_some_iff.mp hrun
    obtain ⟨hQ1, hQ2⟩ := forall_runMoments h1 hQ
    rw [runMoments_cons h1]
    exact h.append (h.step hQ1 h1) (run h hQ2 h2)

end CarriesEvents

/-- **It holds across a run.** -/
theorem CarriesLoop.run (h : CarriesLoop Q R) {es : List (Event κ)} {c c' : RedisClientImpl κ}
    (hQ : ∀ m ∈ runMoments es c, Q m) (hrun : Defs.run es c = some c') :
    R c (runMoments es c) c' :=
  h.events.run hQ hrun

/-! ### Members that only the moments touch -/

section Linked

variable {α : Type} {π : RedisClientImpl κ → α} {after : Moment κ → α}

/-- Each moment finds what the one before it leaves: `π` is read off a client, and `after` is what a
moment makes of it. -/
def LinkedBy (π : RedisClientImpl κ → α) (after : Moment κ → α) : α → List (Moment κ) → α → Prop
  | x, [], y => y = x
  | x, m :: ms, y => π m.client = x ∧ LinkedBy π after (after m) ms y

theorem LinkedBy.append {ms' : List (Moment κ)} {y z : α} :
    ∀ {ms : List (Moment κ)} {x : α}, LinkedBy π after x ms y → LinkedBy π after y ms' z →
      LinkedBy π after x (ms ++ ms') z
  | [], _, h, h' => by
    subst h
    exact h'
  | _ :: _, _, h, h' => ⟨h.1, h.2.append h'⟩

/-- The moments before one lead to it. -/
theorem LinkedBy.split {m : Moment κ} {post : List (Moment κ)} {y : α} :
    ∀ {pre : List (Moment κ)} {x : α}, LinkedBy π after x (pre ++ m :: post) y →
      LinkedBy π after x pre (π m.client) ∧ LinkedBy π after (after m) post y
  | [], _, h => h
  | _ :: _, _, h =>
    have h2 := h.2.split
    ⟨⟨h.1, h2.1⟩, h2.2⟩

/-- An element of a list, with what is before and after it. -/
theorem split_getElem? {α : Type} {l : List α} {i : ℕ} {x : α} (h : l[i]? = some x) :
    l = l.take i ++ x :: l.drop (i + 1) := by
  obtain ⟨hi, rfl⟩ := List.getElem?_eq_some_iff.mp h
  rw [← List.drop_eq_getElem_cons hi, List.take_append_drop]

theorem LinkedBy.at {ms : List (Moment κ)} {i : ℕ} {m : Moment κ} {x y : α}
    (h : LinkedBy π after x ms y) (hi : ms[i]? = some m) :
    LinkedBy π after x (ms.take i) (π m.client) := by
  rw [split_getElem? hi] at h
  exact h.split.1

end Linked

/-! ### The trace -/

theorem Moment.next_trace (m : Moment κ) : m.next.trace = m.client.trace ++ [m.action] := by
  rcases m with ⟨c, a, s⟩
  cases a <;> first
    | rfl
    | exact body_trace _ _

theorem carriesCalls_trace : CarriesCalls (κ := κ) (fun _ => True) fun c ms c' =>
    c'.trace = c.trace ++ ms.map Moment.action :=
  carriesCalls_of_moment (fun _ => (List.append_nil _).symm)
    (fun h1 h2 => by rw [h2, h1, List.map_append, List.append_assoc]) fun m _ => m.next_trace

theorem carries_trace : CarriesLoop (κ := κ) (fun _ => True) fun c ms c' =>
    c'.trace = c.trace ++ ms.map Moment.action where
  toCarriesCalls := carriesCalls_trace
  processed _ := rfl
  front v cbs _ hQ := carriesCalls_trace.callFront (fun _ => rfl)
    (fun _ => (List.append_nil _).symm) hQ
  postSingleShot channel msg c := by
    obtain ⟨ms, ss, hc⟩ := postSingleShot_posts channel msg c
    rw [hc]
    exact (List.append_nil _).symm
  postMessages channel msg c := by
    obtain ⟨ms, hc⟩ := postMessages_posts channel msg c
    rw [hc]
    exact (List.append_nil _).symm
  redisParser _ c := (List.append_nil _).symm
  read c := (List.append_nil _).symm
  command _ hd _ := by
    subst hd
    rfl
  message _ _ hd _ := by
    subst hd
    rfl
  clear c := (List.append_nil _).symm
  write _ _ hd _ := by
    subst hd
    rfl
  broken c := (List.append_nil _).symm
  receive _ := (List.append_nil _).symm
  socket _ := (List.append_nil _).symm
  readDone _ := (List.append_nil _).symm
  writeDone _ := (List.append_nil _).symm
  connectDone _ _ hd _ := by
    subst hd
    rfl

/-- **The moments are what a run adds to the trace.** -/
theorem runMoments_trace {es : List (Event κ)} {c c' : RedisClientImpl κ}
    (h : run es c = some c') : c'.trace = c.trace ++ (runMoments es c).map Moment.action :=
  carries_trace.run (fun _ _ => trivial) h

end RedisClient.Async.Moments

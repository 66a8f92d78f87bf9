import RedisClient.Async.Asio

/-! # The asynchronous client

`RedisAsyncClient` and the asynchronous part of `RedisClientImpl` as the source computes them, in the
release build. The client lives in an event loop: a step is a call from outside, the first function
posted to the strand, something the system does for the socket, or a completion handler (`Event`).

The user's handlers are tokens of a type `κ`, and what one does when it runs is an input of the step:
the calls it makes on the client and how it ends (`Script`). The `trace` is a record of what has been
called, in order. -/

namespace RedisClient.Async.Defs

open RedisClient.Value RedisClient.Lib.Decimal RedisClient.Parser.Defs RedisClient.Parser.RoundTrip
open RedisClient.Commands RedisClient.Peers RedisClient.Async.Asio
open RedisClient.Sync.Defs (SysError ErrorCode ClientState parserError)

/-! ### Calls -/

/-- The two overloads of `connect`. -/
inductive Endpoint where
  | tcp | localStream
  deriving DecidableEq

/-- `RedisAsyncClient::Handle`. -/
structure Handle where
  id : ℕ
  channel : Bytes
  deriving DecidableEq

/-- A call of a member of `RedisAsyncClient`. Of the handlers for replies, `none` is
`dummyHandler`. -/
inductive Call (κ : Type) where
  | connect (endpoint : Endpoint) (handler : κ)
  | disconnect
  | command (cmd : Bytes) (args : List RedisBuffer) (handler : Option κ)
  | publish (channel : Bytes) (msg : RedisBuffer) (handler : Option κ)
  | subscribe (channel : Bytes) (msgHandler : κ) (handler : Option κ)
  | psubscribe (pattern : Bytes) (msgHandler : κ) (handler : Option κ)
  | singleShotSubscribe (channel : Bytes) (msgHandler : κ) (handler : Option κ)
  | singleShotPSubscribe (pattern : Bytes) (msgHandler : κ) (handler : Option κ)
  | unsubscribe (handle : Handle)
  | punsubscribe (handle : Handle)
  deriving DecidableEq

/-- What a piece of the user's code does: it returns, throws, or makes a call and goes on. If the call
runs a callback before it returns, `callback` is what that does. If that throws, the call does too,
and the caller goes on as `next` says. -/
inductive Script (κ : Type) where
  | returns
  | throws
  | call (c : Call κ) (callback next : Script κ)

/-- What the callbacks of a step do, in the order in which they run. Those past the end of the list
return at once. -/
abbrev Callbacks (κ : Type) := List (Script κ)

/-! ### The state -/

/-- What the error handler is told: `ec.message()`, or a text. -/
inductive Report where
  | message (ec : ErrorCode)
  | text (s : Bytes)
  deriving DecidableEq

/-- An entry of the trace. -/
inductive Action (κ : Type) where
  /-- a call, and the state it was made in -/
  | call (state : ClientState) (c : Call κ)
  /-- a call that subscribes has returned -/
  | returned (handle : Handle)
  /-- a function of the user is called -/
  | connect (ec : ErrorCode) (handler : κ)
  | reply (handler : Option κ) (v : RedisValue)
  | message (msgHandler : κ) (msg : Bytes)
  | error (r : Report)
  /-- `doAsyncCommand`, `async_write` and `doProcessMessage` are called -/
  | doAsyncCommand (buff : Bytes) (handler : Option κ)
  | asyncWrite (data : Bytes)
  | doProcessMessage (state : ClientState) (v : RedisValue)
  deriving DecidableEq

/-- A function posted to the strand: `doAsyncCommand`, or a message handler with its message. -/
inductive Posted (κ : Type) where
  | doAsyncCommand (buff : Bytes) (handler : Option κ)
  | message (msgHandler : κ) (msg : Bytes)
  deriving DecidableEq

/-- An entry of `msgHandlers`. -/
structure MsgHandler (κ : Type) where
  channel : Bytes
  id : ℕ
  msgHandler : κ
  deriving DecidableEq

/-- An entry of `singleShotMsgHandlers`. -/
structure SingleShotHandler (κ : Type) where
  channel : Bytes
  msgHandler : κ
  deriving DecidableEq

/-- The members of `RedisClientImpl` that the asynchronous calls use. The multimaps are lists in the
order of insertion, which is their order on the entries of one key. `broken` says that the behaviour
has become undefined. -/
structure RedisClientImpl (κ : Type) where
  strand : List (Posted κ)
  socket : Socket κ
  redisParser : RedisParser
  buf : Bytes
  subscribeSeq : ℕ
  handlers : List (Option κ)
  dataWrited : List Bytes
  dataQueued : List Bytes
  msgHandlers : List (MsgHandler κ)
  singleShotMsgHandlers : List (SingleShotHandler κ)
  state : ClientState
  broken : Bool
  trace : List (Action κ)

variable {κ : Type}

namespace RedisClientImpl

/-- The constructor. -/
def new : RedisClientImpl κ where
  strand := []
  socket := .new
  redisParser := fresh
  buf := []
  subscribeSeq := 0
  handlers := []
  dataWrited := []
  dataQueued := []
  msgHandlers := []
  singleShotMsgHandlers := []
  state := .unconnected
  broken := false
  trace := []

/-- A new entry of the trace. -/
def log (c : RedisClientImpl κ) (a : Action κ) : RedisClientImpl κ :=
  { c with trace := c.trace ++ [a] }

def post (c : RedisClientImpl κ) (f : Posted κ) : RedisClientImpl κ :=
  { c with strand := c.strand ++ [f] }

def close (c : RedisClientImpl κ) : RedisClientImpl κ :=
  { c with msgHandlers := [], handlers := [], socket := c.socket.close, state := .closed }

/-- `isConnected` of the client. -/
def isConnected (c : RedisClientImpl κ) : Bool := c.state = .connected ∨ c.state = .subscribed

end RedisClientImpl

/-! ### The calls of the client

Each gives what it calls back last, if anything, the handle it returns after that, and the state. -/

/-- The body of a call. -/
abbrev Body (κ : Type) := RedisClientImpl κ → Option (Action κ) × Option Handle × RedisClientImpl κ

/-- `errorHandler`, in the last place of a call. -/
def refuse (text : String) (handle : Option Handle) (c : RedisClientImpl κ) :
    Option (Action κ) × Option Handle × RedisClientImpl κ :=
  (some (.error (.text (chars (text ++ c.state.toString)))), handle, c)

def connectTcp (handler : κ) : Body κ := fun c =>
  let c := if c.state = .closed then { c with redisParser := fresh } else c
  if c.state = .unconnected ∨ c.state = .closed then
    (none, none, { c with state := .connecting, socket := c.socket.asyncConnect handler })
  else (some (.connect none handler), none, c)

def connectLocal (handler : κ) : Body κ := fun c =>
  if c.state = .unconnected ∨ c.state = .closed then
    (none, none, { c with state := .connecting, socket := c.socket.asyncConnect handler })
  else (some (.connect none handler), none, c)

abbrev commandInvalid : String := "RedisAsyncClient::command called with invalid state "

/-- `command`, with `stateValid`. -/
def command (cmd : Bytes) (args : List RedisBuffer) (handler : Option κ) : Body κ := fun c =>
  if c.state ≠ .connected then refuse commandInvalid none c
  else (none, none, c.post (.doAsyncCommand (makeCommand (.string cmd :: args)) handler))

def publishStr : Bytes := chars "PUBLISH"

def publish (channel : Bytes) (msg : RedisBuffer) (handler : Option κ) : Body κ := fun c =>
  if c.state = .connected then
    (none, none,
      c.post (.doAsyncCommand (makeCommand [.string publishStr, .string channel, msg]) handler))
  else refuse commandInvalid none c

abbrev subscribeInvalid : String := "RedisClientImpl::subscribe called with invalid state "

/-- `RedisClientImpl::subscribe`, and the handle that is made of its result. The counter is a natural
number here; the `size_t` of the source wraps around after `2 ^ 64` subscriptions. -/
def subscribe (command channel : Bytes) (msgHandler : κ) (handler : Option κ) : Body κ := fun c =>
  if c.state = .connected ∨ c.state = .subscribed then
    let c := c.post (.doAsyncCommand (makeCommand [.string command, .string channel]) handler)
    (none, some ⟨c.subscribeSeq, channel⟩,
      { c with
        msgHandlers := c.msgHandlers ++ [⟨channel, c.subscribeSeq, msgHandler⟩]
        state := .subscribed
        subscribeSeq := c.subscribeSeq + 1 })
  else refuse subscribeInvalid (some ⟨0, channel⟩) c

abbrev singleShotInvalid : String := "RedisClientImpl::singleShotSubscribe called with invalid state "

def singleShotSubscribe (command channel : Bytes) (msgHandler : κ) (handler : Option κ) : Body κ :=
  fun c =>
    if c.state = .connected ∨ c.state = .subscribed then
      let c := c.post (.doAsyncCommand (makeCommand [.string command, .string channel]) handler)
      (none, none,
        { c with
          singleShotMsgHandlers := c.singleShotMsgHandlers ++ [⟨channel, msgHandler⟩]
          state := .subscribed })
    else refuse singleShotInvalid none c

abbrev unsubscribeInvalid : String := "RedisClientImpl::unsubscribe called with invalid state "

def unsubscribe (command : Bytes) (handleId : ℕ) (channel : Bytes) (handler : Option κ) : Body κ :=
  fun c =>
    if c.state = .connected ∨ c.state = .subscribed then
      let msgHandlers := c.msgHandlers.filter fun e => ¬ (e.channel = channel ∧ e.id = handleId)
      let c := { c with msgHandlers := msgHandlers }
      (none, none, c.post (.doAsyncCommand (makeCommand [.string command, .string channel]) handler))
    else refuse unsubscribeInvalid none c

def subscribeStr : Bytes := chars "subscribe"
def psubscribeStr : Bytes := chars "psubscribe"
def unsubscribeStr : Bytes := chars "unsubscribe"
def punsubscribeStr : Bytes := chars "punsubscribe"

/-- The members of `RedisAsyncClient`. -/
def Call.body : Call κ → Body κ
  | connect .tcp handler => connectTcp handler
  | connect .localStream handler => connectLocal handler
  | disconnect => fun c => (none, none, c.close)
  | command cmd args handler => Defs.command cmd args handler
  | publish channel msg handler => Defs.publish channel msg handler
  | subscribe channel msgHandler handler => Defs.subscribe subscribeStr channel msgHandler handler
  | psubscribe pattern msgHandler handler => Defs.subscribe psubscribeStr pattern msgHandler handler
  | singleShotSubscribe channel msgHandler handler =>
    Defs.singleShotSubscribe subscribeStr channel msgHandler handler
  | singleShotPSubscribe pattern msgHandler handler =>
    Defs.singleShotSubscribe psubscribeStr pattern msgHandler handler
  | unsubscribe handle => Defs.unsubscribe unsubscribeStr handle.id handle.channel none
  | punsubscribe handle => Defs.unsubscribe punsubscribeStr handle.id handle.channel none

/-! ### Callbacks -/

/-- How a piece of code ends. -/
inductive Ending where
  | returns | throws | undefined
  deriving DecidableEq

/-- A call returns, perhaps with a handle. -/
def RedisClientImpl.return (c : RedisClientImpl κ) : Option Handle → RedisClientImpl κ
  | none => c
  | some handle => c.log (.returned handle)

/-- The user's code runs. -/
def runScript : Script κ → RedisClientImpl κ → Ending × RedisClientImpl κ
  | .returns, c => (.returns, c)
  | .throws, c => (.throws, c)
  | .call call callback next, c =>
    match call.body (c.log (.call c.state call)) with
    | (none, handle, c) => runScript next (c.return handle)
    | (some action, handle, c) =>
      match runScript callback (c.log action) with
      | (.returns, c) => runScript next (c.return handle)
      | (_, c) => runScript next c

/-- How a piece of code ends, what the callbacks after it will do, and the state. -/
abbrev Outcome (κ : Type) := Ending × Callbacks κ × RedisClientImpl κ

/-- The next callback runs. -/
def callback (cbs : Callbacks κ) (c : RedisClientImpl κ) : Outcome κ :=
  match cbs with
  | [] => (.returns, [], c)
  | s :: cbs =>
    let (e, c) := runScript s c
    (e, cbs, c)

def callErrorHandler (r : Report) (cbs : Callbacks κ) (c : RedisClientImpl κ) : Outcome κ :=
  callback cbs (c.log (.error r))

/-- A handler for replies is called. `dummyHandler` does nothing. -/
def callHandler (handler : Option κ) (v : RedisValue) (cbs : Callbacks κ) (c : RedisClientImpl κ) :
    Outcome κ :=
  let c := c.log (.reply handler v)
  match handler with
  | none => (.returns, cbs, c)
  | some _ => callback cbs c

/-! ### Writing -/

/-- `asyncWrite`, the completion handler of `async_write`. -/
def asyncWrite (ec : ErrorCode) (cbs : Callbacks κ) (c : RedisClientImpl κ) : Outcome κ :=
  let c := { c with dataWrited := [] }
  if ec.isSome then callErrorHandler (.message ec) cbs c
  else if c.dataQueued ≠ [] then
    let data := c.dataQueued.flatten
    let c := { c with dataQueued := c.dataWrited, dataWrited := c.dataQueued }
    let c := c.log (.asyncWrite data)
    (.returns, cbs, { c with socket := c.socket.asyncWrite data })
  else (.returns, cbs, c)

def doAsyncCommand (buff : Bytes) (handler : Option κ) (cbs : Callbacks κ) (c : RedisClientImpl κ) :
    Outcome κ :=
  let c := c.log (.doAsyncCommand buff handler)
  let c := { c with handlers := c.handlers ++ [handler], dataQueued := c.dataQueued ++ [buff] }
  if c.dataWrited = [] then asyncWrite none cbs c else (.returns, cbs, c)

/-! ### Reading -/

/-- `processMessage`: the next read. -/
def processMessage (c : RedisClientImpl κ) : RedisClientImpl κ :=
  { c with socket := c.socket.asyncReadSome }

/-- `handlers.front()(std::move(v))` and `handlers.pop()`. There is a handler when this is called,
but the callback may have taken it away. -/
def callFront (v : RedisValue) (cbs : Callbacks κ) (c : RedisClientImpl κ) : Outcome κ :=
  match c.handlers with
  | [] => (.undefined, cbs, c)
  | handler :: _ =>
    match callHandler handler v cbs c with
    | (.returns, cbs, c) =>
      match c.handlers with
      | [] => (.undefined, cbs, c)
      | _ :: handlers => (.returns, cbs, { c with handlers := handlers })
    | r => r

def messageStr : Bytes := chars "message"
def pmessageStr : Bytes := chars "pmessage"

/-- `singleShotMsgHandlers.find(channel)`: the first of the entries with the key. Its handler is
posted with the message, and it is erased. -/
def postSingleShot (channel msg : Bytes) (c : RedisClientImpl κ) : RedisClientImpl κ :=
  match c.singleShotMsgHandlers.find? fun e => e.channel = channel with
  | none => c
  | some e =>
    let c := c.post (.message e.msgHandler msg)
    { c with
      singleShotMsgHandlers := c.singleShotMsgHandlers.eraseP fun e => e.channel = channel }

/-- The loop over `msgHandlers.equal_range(channel)`. -/
def postMessages (channel msg : Bytes) (c : RedisClientImpl κ) : RedisClientImpl κ :=
  (c.msgHandlers.filter fun e => e.channel = channel).foldl
    (fun c e => c.post (.message e.msgHandler msg)) c

mutual

/-- `RedisValue::inspect`. -/
def inspect : RedisValue → Bytes
  | .bytes buf error => if error then chars "error: " ++ buf else buf
  | .null => chars "(null)"
  | .int i => intText i
  | .array values => chars "[" ++ inspectAll values ++ chars "]"

/-- The elements of an array, with `", "` in between. -/
def inspectAll : List RedisValue → Bytes
  | [] => []
  | [v] => inspect v
  | v :: w :: values => inspect v ++ chars ", " ++ inspectAll (w :: values)

end

abbrev protocolError : String := "[RedisClient] Protocol error"
abbrev invalidCommand : String := "[RedisClient] invalid command: "
abbrev unexpectedMessage : String := "[RedisClient] unexpected message: "

/-- The words that a confirmation can begin with. -/
def confirmWords : List Bytes := [subscribeStr, unsubscribeStr, psubscribeStr, punsubscribeStr]

instance : DecidablePred (· ∈ confirmWords) := fun word => List.instDecidableMemOfLawfulBEq word _

/-- `doProcessMessage` after a subscription, on the elements of the message. -/
def dispatch (v : RedisValue) (cbs : Callbacks κ) (c : RedisClientImpl κ) : Outcome κ :=
  match v.toArray with
  | command :: second :: third :: rest =>
    let size := rest.length + 3
    let queueName := if size = 3 then second else third
    let value := if size = 3 then third else rest.headD .null
    let pattern := if size = 4 then second else queueName
    let cmd := command.toByteArray
    if cmd = messageStr ∨ cmd = pmessageStr then
      let c := postSingleShot pattern.toByteArray value.toByteArray c
      (.returns, cbs, postMessages pattern.toByteArray value.toByteArray c)
    else if c.handlers ≠ [] ∧ cmd ∈ confirmWords then callFront v cbs c
    else callErrorHandler (.text (chars invalidCommand ++ cmd)) cbs c
  | _ => callErrorHandler (.text (chars protocolError)) cbs c

def doProcessMessage (v : RedisValue) (cbs : Callbacks κ) (c : RedisClientImpl κ) : Outcome κ :=
  let c := c.log (.doProcessMessage c.state v)
  if c.state = .subscribed then dispatch v cbs c
  else if c.handlers ≠ [] then callFront v cbs c
  else callErrorHandler (.text (chars unexpectedMessage ++ inspect v)) cbs c

/-- The loop of `asyncRead` over what is left of the buffer, with a bound on its rounds: each takes a
byte. -/
def readLoop : ℕ → Bytes → Callbacks κ → RedisClientImpl κ → Option (Outcome κ)
  | 0, data, cbs, c => if data = [] then some (.returns, cbs, processMessage c) else none
  | fuel + 1, data, cbs, c =>
    if data = [] then some (.returns, cbs, processMessage c)
    else
      match parse c.redisParser data with
      | none => none
      | some ((k, r), redisParser) =>
        let c := { c with redisParser := redisParser }
        match r with
        | .completed =>
          let (v, redisParser) := result c.redisParser
          match doProcessMessage v cbs { c with redisParser := redisParser } with
          | (.returns, cbs, c) => readLoop fuel (data.drop k) cbs c
          | r => some r
        | .incompleted => some (.returns, cbs, processMessage c)
        | .error => some (callErrorHandler (.text (chars parserError)) cbs c)

/-- `asyncRead`, the completion handler of `async_read_some`. -/
def asyncRead (ec : ErrorCode) (size : ℕ) (cbs : Callbacks κ) (c : RedisClientImpl κ) :
    Option (Outcome κ) :=
  if ec.isSome ∨ size = 0 then
    if ec ≠ some operationAborted then some (callErrorHandler (.message ec) cbs c)
    else some (.returns, cbs, c)
  else readLoop size (c.buf.take size) cbs c

/-! ### Connecting -/

/-- `handleAsyncConnect`, the completion handler of `async_connect`. -/
def handleAsyncConnect (ec : ErrorCode) (handler : κ) (cbs : Callbacks κ) (c : RedisClientImpl κ) :
    Outcome κ :=
  if ec.isNone then
    match callback cbs ({ c with state := .connected }.log (.connect ec handler)) with
    | (.returns, cbs, c) => (.returns, cbs, processMessage c)
    | r => r
  else callback cbs ({ c with state := .unconnected }.log (.connect ec handler))

/-! ### The event loop -/

/-- A step of the event loop: user code outside of all handlers; the first function of the strand; an
operation of the socket makes progress or is done; or a completion handler runs. -/
inductive Event (κ : Type) where
  | user (s : Script κ)
  | posted (cbs : Callbacks κ)
  | receive (n : ℕ)
  | readFail (e : SysError)
  | readDone (cbs : Callbacks κ)
  | send (n : ℕ)
  | writeFail (e : SysError)
  | writeDone (cbs : Callbacks κ)
  | connectOk (peer : Peer)
  | connectFail (e : SysError)
  | connectDone (cbs : Callbacks κ)

/-- The state after a handler has run. -/
def Outcome.client : Outcome κ → RedisClientImpl κ
  | (.undefined, _, c) => { c with broken := true }
  | (_, _, c) => c

/-- The event loop runs a function posted to the strand. -/
def runPosted (f : Posted κ) (cbs : Callbacks κ) (c : RedisClientImpl κ) : Outcome κ :=
  match f with
  | .doAsyncCommand buff handler => doAsyncCommand buff handler cbs c
  | .message msgHandler msg => callback cbs (c.log (.message msgHandler msg))

/-- **A step**, where it is possible. -/
def step (e : Event κ) (c : RedisClientImpl κ) : Option (RedisClientImpl κ) :=
  if c.broken then none
  else
    match e with
    | .user s => some (runScript s c).2
    | .posted cbs =>
      match c.strand with
      | [] => none
      | f :: strand => some (Outcome.client (runPosted f cbs { c with strand := strand }))
    | .receive n => (c.socket.receive n).map fun (data, socket) =>
        { c with socket := socket, buf := data ++ c.buf.drop data.length }
    | .readFail e => (c.socket.readFail e).map fun socket => { c with socket := socket }
    | .readDone cbs =>
      match c.socket.readsDone with
      | [] => none
      | (ec, size) :: readsDone =>
        let c := { c with socket := { c.socket with readsDone := readsDone } }
        (asyncRead ec size cbs c).map Outcome.client
    | .send n => (c.socket.send n).map fun socket => { c with socket := socket }
    | .writeFail e => (c.socket.writeFail e).map fun socket => { c with socket := socket }
    | .writeDone cbs =>
      match c.socket.writesDone with
      | [] => none
      | ec :: writesDone =>
        let c := { c with socket := { c.socket with writesDone := writesDone } }
        some (Outcome.client (asyncWrite ec cbs c))
    | .connectOk peer => (c.socket.connectOk peer).map fun socket => { c with socket := socket }
    | .connectFail e => (c.socket.connectFail e).map fun socket => { c with socket := socket }
    | .connectDone cbs =>
      match c.socket.connectsDone with
      | [] => none
      | (ec, handler) :: connectsDone =>
        let c := { c with socket := { c.socket with connectsDone := connectsDone } }
        some (Outcome.client (handleAsyncConnect ec handler cbs c))

/-- The steps of a run. -/
def run : List (Event κ) → RedisClientImpl κ → Option (RedisClientImpl κ)
  | [], c => some c
  | e :: es, c => (step e c).bind (run es)

end RedisClient.Async.Defs

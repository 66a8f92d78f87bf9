import RedisClient.Peers

/-! # The synchronous client

The calls of `RedisSyncClient` as the source computes them, on a connection to a peer. What the
operating system does is an input: how each try at a `send` or a `recv` ends (`Try`), in the order of
the tries. A call that has used up its tries is still blocked (`none`); so is one that waits for
bytes the peer has not written. Timeouts and the end of the stream are both a result of zero.

`buf` is the filled part of the receive buffer, `buf[0 .. bufSize)`. -/

namespace RedisClient.Sync.Defs

open RedisClient.Value RedisClient.Parser.Defs RedisClient.Commands RedisClient.Peers

/-! ### Errors and handlers -/

/-- An error code that is set. -/
inductive SysError where
  | eof
  | system (errno : ℕ)
  deriving DecidableEq

/-- An error code; `none` is the code of success. -/
abbrev ErrorCode := Option SysError

abbrev EINTR : ℕ := 4
abbrev EBADF : ℕ := 9
abbrev ETIMEDOUT : ℕ := 110
abbrev EINPROGRESS : ℕ := 115

/-- What an error handler does. -/
inductive Reaction where
  | throws | returns | disconnects
  deriving DecidableEq

/-- `RedisClientImpl::State`. -/
inductive ClientState where
  | unconnected | connecting | connected | subscribed | closed
  deriving DecidableEq

def ClientState.toString : ClientState → String
  | unconnected => "Unconnected"
  | connecting => "Connecting"
  | connected => "Connected"
  | subscribed => "Subscribed"
  | closed => "Closed"

/-! ### The socket -/

/-- How one try ends: a negative result with an `errno`, zero, or at least one byte moved. Of `n + 1`
bytes, those are moved that are there and for which there is room. -/
inductive Try where
  | failed (errno : ℕ)
  | zero
  | moved (n : ℕ)
  deriving DecidableEq

/-- A socket: the bytes sent to the peer, and how many of those it has written have been received.
On a socket that is not open the system calls fail. -/
structure Socket where
  isOpen : Bool
  peer : Peer
  sent : Bytes
  taken : ℕ

namespace Socket

/-- What the peer has written and nobody has received. -/
def unread (s : Socket) : Bytes := (s.peer.out s.sent).drop s.taken

/-- `send` has taken `data`. -/
def send (s : Socket) (data : Bytes) : Socket := { s with sent := s.sent ++ data }

/-- `recv` has given `k` bytes. -/
def recv (s : Socket) (k : ℕ) : Socket := { s with taken := s.taken + k }

end Socket

/-- The loop of `socketReadSome` on an open socket, with a buffer of `size` bytes. -/
def readLoop (size : ℕ) (s : Socket) (ec : ErrorCode) :
    List Try → Option (Bytes × ErrorCode × Socket × List Try)
  | [] => none
  | .failed errno :: ts =>
    if errno = EINTR then readLoop size s ec ts else some ([], some (.system errno), s, ts)
  | .zero :: ts => some ([], some .eof, s, ts)
  | .moved n :: ts =>
    let data := s.unread.take (min (n + 1) size)
    if data = [] then none else some (data, ec, s.recv data.length, ts)

def socketReadSome (size : ℕ) (s : Socket) (ec : ErrorCode) (ts : List Try) :
    Option (Bytes × ErrorCode × Socket × List Try) :=
  if s.isOpen then readLoop size s ec ts else some ([], some (.system EBADF), s, ts)

/-- The loop of `socketWrite` on an open socket, with what is left of the buffer. -/
def writeLoop : List Try → Socket → Bytes → ErrorCode → Option (ℕ × ErrorCode × Socket × List Try)
  | [], s, buffer, ec => if buffer = [] then some (0, ec, s, []) else none
  | t :: ts, s, buffer, ec =>
    if buffer = [] then some (0, ec, s, t :: ts)
    else
      match t with
      | .failed errno =>
        if errno = EINTR then writeLoop ts s buffer ec
        else some (0, some (.system errno), s, ts)
      | .zero => some (0, some .eof, s, ts)
      | .moved n =>
        let data := buffer.take (n + 1)
        (writeLoop ts (s.send data) (buffer.drop (n + 1)) ec).map fun (bytesSend, r) =>
          (data.length + bytesSend, r)

/-- `socketWrite` on one buffer. -/
def socketWrite (s : Socket) (buffer : Bytes) (ec : ErrorCode) (ts : List Try) :
    Option (ℕ × ErrorCode × Socket × List Try) :=
  if s.isOpen || buffer = [] then writeLoop ts s buffer ec
  else some (0, some (.system EBADF), s, ts)

/-- `socketWrite` on several buffers. -/
def socketWriteAll : Socket → List Bytes → ErrorCode → List Try →
    Option (ℕ × ErrorCode × Socket × List Try)
  | s, [], ec, ts => some (0, ec, s, ts)
  | s, buffer :: buffers, ec, ts =>
    (socketWrite s buffer ec ts).bind fun (bytesSend, ec, s, ts) =>
      if ec.isSome then some (bytesSend, ec, s, ts)
      else (socketWriteAll s buffers ec ts).map fun (k, r) => (bytesSend + k, r)

/-! ### The client -/

/-- The members of `RedisClientImpl` that the synchronous calls use. `replies` is a record: what the
client has taken from the parser on this connection. -/
structure RedisClientImpl where
  redisParser : RedisParser
  buf : Bytes
  state : ClientState
  errorHandler : String → Reaction
  socket : Socket
  replies : List RedisValue

/-- How a call returns: its value, or that the error handler has thrown; the error code; and what the
error handler has been told. -/
structure Return where
  value : Option RedisValue
  ec : ErrorCode
  errors : List String
  deriving DecidableEq

/-- `RedisValue()`. -/
abbrev noValue : RedisValue := .null

/-- The size of the receive buffer. -/
abbrev bufferSize : ℕ := 4096

/-- `close`: the buffer and the parser stay as they are. -/
def close (c : RedisClientImpl) : RedisClientImpl :=
  { c with socket := { c.socket with isOpen := false }, state := .closed }

/-- A call of `errorHandler`, and what is returned after it. -/
def callErrorHandler (message : String) (c : RedisClientImpl) : Option RedisValue × RedisClientImpl :=
  match c.errorHandler message with
  | .throws => (none, c)
  | .returns => (some noValue, c)
  | .disconnects => (some noValue, close c)

abbrev parserError : String := "[RedisClient] Parser error"

/-! ### Reading a reply -/

/-- The inner loop of `syncReadResponse`, at `pos`, with a bound on its rounds: each takes a byte, so
`bufSize` is enough. The first component is `none` if the loop runs to its end. -/
def parseBuffer (ec : ErrorCode) :
    ℕ → ℕ → RedisClientImpl → Option (Option Return × RedisClientImpl)
  | 0, pos, c => if pos < c.buf.length then none else some (none, c)
  | fuel + 1, pos, c =>
    if pos < c.buf.length then
      match parse c.redisParser (c.buf.drop pos) with
      | none => none
      | some ((k, r), redisParser) =>
        let pos := pos + k
        let c := { c with redisParser := redisParser, buf := c.buf.drop pos }
        match r with
        | .completed =>
          let (v, redisParser) := result c.redisParser
          some (some ⟨some v, ec, []⟩,
            { c with redisParser := redisParser, replies := c.replies ++ [v] })
        | .incompleted => parseBuffer ec fuel pos c
        | .error =>
          let (v, c) := callErrorHandler parserError c
          some (some ⟨v, ec, [parserError]⟩, c)
    else some (none, c)

/-- `syncReadResponse`, with a bound on the rounds of the outer loop: each but the first takes a
try. -/
def readResponse : ℕ → RedisClientImpl → ErrorCode → List Try →
    Option (Return × RedisClientImpl × List Try)
  | 0, _, _, _ => none
  | fuel + 1, c, ec, ts =>
    if c.buf = [] then
      (socketReadSome bufferSize c.socket ec ts).bind fun (data, ec, socket, ts) =>
        let c := { c with buf := data, socket := socket }
        if ec.isSome then some (⟨some noValue, ec, []⟩, c, ts)
        else
          (parseBuffer ec c.buf.length 0 c).bind fun
            | (some r, c) => some (r, c, ts)
            | (none, c) => readResponse fuel c ec ts
    else
      (parseBuffer ec c.buf.length 0 c).bind fun
        | (some r, c) => some (r, c, ts)
        | (none, c) => readResponse fuel c ec ts

def syncReadResponse (c : RedisClientImpl) (ec : ErrorCode) (ts : List Try) :
    Option (Return × RedisClientImpl × List Try) :=
  readResponse (ts.length + 2) c ec ts

/-! ### Commands -/

/-- `doSyncCommand` on one command. -/
def doSyncCommand (command : List RedisBuffer) (c : RedisClientImpl) (ec : ErrorCode)
    (ts : List Try) : Option (Return × RedisClientImpl × List Try) :=
  (socketWrite c.socket (makeCommand command) ec ts).bind fun (_, ec, socket, ts) =>
    let c := { c with socket := socket }
    if ec.isSome then some (⟨some noValue, ec, []⟩, c, ts)
    else syncReadResponse c ec ts

/-- The loop over the responses of a pipeline: `n` are still to come. -/
def readResponses : ℕ → List RedisValue → List String → RedisClientImpl → ErrorCode → List Try →
    Option (Return × RedisClientImpl × List Try)
  | 0, responses, errors, c, ec, ts => some (⟨some (.array responses), ec, errors⟩, c, ts)
  | n + 1, responses, errors, c, ec, ts =>
    (syncReadResponse c ec ts).bind fun (r, c, ts) =>
      let errors := errors ++ r.errors
      match r.value with
      | none => some (⟨none, r.ec, errors⟩, c, ts)
      | some v =>
        if r.ec.isSome then some (⟨some noValue, r.ec, errors⟩, c, ts)
        else readResponses n (responses ++ [v]) errors c r.ec ts

/-- `doSyncCommand` on a list of commands. -/
def doSyncCommands (commands : List (List RedisBuffer)) (c : RedisClientImpl) (ec : ErrorCode)
    (ts : List Try) : Option (Return × RedisClientImpl × List Try) :=
  (socketWriteAll c.socket (commands.map makeCommand) ec ts).bind fun (_, ec, socket, ts) =>
    let c := { c with socket := socket }
    if ec.isSome then some (⟨some noValue, ec, []⟩, c, ts)
    else readResponses commands.length [] [] c ec ts

/-- What `stateValid` tells the error handler. -/
def invalidState (state : ClientState) : String :=
  "RedisClient::command called with invalid state " ++ state.toString

/-- `stateValid`, in the release build, in front of `body`. -/
def ifStateValid (c : RedisClientImpl) (ec : ErrorCode) (ts : List Try)
    (body : Option (Return × RedisClientImpl × List Try)) :
    Option (Return × RedisClientImpl × List Try) :=
  if c.state = .connected then body
  else
    let (v, c') := callErrorHandler (invalidState c.state) c
    some (⟨v, ec, [invalidState c.state]⟩, c', ts)

/-- `RedisSyncClient::command`. -/
def command (cmd : Bytes) (args : List RedisBuffer) (c : RedisClientImpl) (ec : ErrorCode)
    (ts : List Try) : Option (Return × RedisClientImpl × List Try) :=
  ifStateValid c ec ts (doSyncCommand (.string cmd :: args) c ec ts)

/-- `RedisSyncClient::pipelined`. -/
def pipelined (commands : List (List RedisBuffer)) (c : RedisClientImpl) (ec : ErrorCode)
    (ts : List Try) : Option (Return × RedisClientImpl × List Try) :=
  ifStateValid c ec ts (doSyncCommands commands c ec ts)

/-- `Pipeline`: the commands collected so far. -/
structure Pipeline where
  commands : List (List RedisBuffer)

namespace Pipeline

/-- The constructor. -/
def new : Pipeline := ⟨[]⟩

def command (pipe : Pipeline) (cmd : Bytes) (args : List RedisBuffer) : Pipeline :=
  ⟨pipe.commands ++ [.string cmd :: args]⟩

def finish (pipe : Pipeline) (c : RedisClientImpl) (ec : ErrorCode) (ts : List Try) :
    Option (Return × RedisClientImpl × List Try) :=
  pipelined pipe.commands c ec ts

end Pipeline

/-! ### Connecting -/

/-- How a `poll` on the connecting socket ends, and what `getsockopt` says if it is ready. -/
inductive Poll where
  | failed (errno : ℕ)
  | timeout
  | ready (getsockopt : Option ℕ) (valopt : ℕ)

/-- How the system calls of `connect` end; of a call that fails, the `errno`. -/
structure ConnectCalls where
  openSocket : ErrorCode
  noDelay : ErrorCode
  getFlags : Option ℕ
  setFlags : Option ℕ
  connect : Option ℕ
  polls : List Poll
  getFlags2 : Option ℕ
  setFlags2 : Option ℕ

/-- The loop that waits for the connection: an error, success, or still waiting. -/
def waitConnected : List Poll → Option ErrorCode
  | [] => none
  | .failed errno :: ps => if errno = EINTR then waitConnected ps else some (some (.system errno))
  | .timeout :: _ => some (some (.system ETIMEDOUT))
  | .ready (some errno) _ :: _ => some (some (.system errno))
  | .ready none valopt :: _ => some (if valopt = 0 then none else some (.system valopt))

/-- `connect` up to the state: what is in `ec` in the end. -/
def connectCode (tcpNoDelay : Bool) (o : ConnectCalls) : Option ErrorCode :=
  let ec := if o.openSocket = none ∧ tcpNoDelay then o.noDelay else o.openSocket
  match o.getFlags, o.setFlags with
  | some errno, _ => some (some (.system errno))
  | none, some errno => some (some (.system errno))
  | none, none =>
    let connecting : Option ErrorCode :=
      match o.connect with
      | none => some none
      | some errno =>
        if errno = EINPROGRESS then waitConnected o.polls else some (some (.system errno))
    connecting.map fun
      | some e => some e
      | none =>
        match o.getFlags2, o.setFlags2 with
        | some errno, _ => some (.system errno)
        | none, some errno => some (.system errno)
        | none, none => ec

/-- The socket of a new connection. -/
def newSocket (peer : Peer) : Socket := ⟨true, peer, [], 0⟩

/-- What `connect` does on success. -/
def connected (peer : Peer) (c : RedisClientImpl) : RedisClientImpl :=
  { c with socket := newSocket peer, state := .connected, replies := [] }

/-- `RedisSyncClient::connect` to a TCP endpoint. -/
def connectTcp (tcpNoDelay : Bool) (o : ConnectCalls) (peer : Peer) (c : RedisClientImpl) :
    Option (ErrorCode × RedisClientImpl) :=
  (connectCode tcpNoDelay o).map fun
    | none => (none, connected peer c)
    | some e => (some e, c)

/-- `RedisSyncClient::connect` to a local endpoint: `open` and `connect` of the library. -/
def connectLocal (openSocket connect : ErrorCode) (peer : Peer) (c : RedisClientImpl) :
    ErrorCode × RedisClientImpl :=
  let ec := if openSocket = none then connect else openSocket
  if ec = none then (none, connected peer c) else (ec, c)

/-- `RedisSyncClient::disconnect`. -/
def disconnect (c : RedisClientImpl) : RedisClientImpl := close c

/-- A newly constructed client, with an error handler. -/
def newClient (errorHandler : String → Reaction) (peer : Peer) : RedisClientImpl where
  redisParser := fresh
  buf := []
  state := .unconnected
  errorHandler := errorHandler
  socket := { newSocket peer with isOpen := false }
  replies := []

end RedisClient.Sync.Defs

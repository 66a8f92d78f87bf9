import RedisClient.Sync.Defs

/-! # A socket with asynchronous operations

An operation is *waiting* until the system has done its part, then *done*, and then its completion
handler is run; `close` ends all waiting ones as aborted. What the system does and when is an input:
`receive`, `send` and their like are the steps it can take. Waiting reads are alike, so a number
stands for them. Nothing moves before the connection is established (`linked`).

This assumes of the library more than it promises. `async_write` is one operation here, and `close` ends
it in the middle of its bytes; in the library it is made of several, and one that has just succeeded
when the socket is closed starts the next on the socket as it is then. A second `async_connect` waits
for the first one here; in the library it fails at once with `already_started`. The completion handlers
of the operations of one kind run in the order in which the operations are done, in one thread. -/

namespace RedisClient.Async.Asio

open RedisClient.Value RedisClient.Peers
open RedisClient.Sync.Defs (SysError ErrorCode EBADF bufferSize)

/-- `boost::asio::error::operation_aborted`. -/
abbrev operationAborted : SysError := .system 125

/-- `boost::asio::error::bad_descriptor`. -/
abbrev badDescriptor : SysError := .system EBADF

/-- The connection under a socket: what has been sent on it, and how many of the bytes that the peer
has written have been received. -/
inductive Link where
  | closed
  | opened
  | linked (peer : Peer) (sent : Bytes) (taken : ℕ)

/-- A socket; `κ` are the handlers of connects. Done operations wait with their results for their
completion handlers. -/
structure Socket (κ : Type) where
  link : Link
  reads : ℕ
  readsDone : List (ErrorCode × ℕ)
  writes : List Bytes
  writesDone : List ErrorCode
  connects : List κ
  connectsDone : List (ErrorCode × κ)

namespace Socket

variable {κ : Type}

/-- A socket that is not open. -/
def new : Socket κ := ⟨.closed, 0, [], [], [], [], []⟩

/-! ### What the program does -/

def asyncReadSome (s : Socket κ) : Socket κ :=
  match s.link with
  | .closed => { s with readsDone := s.readsDone ++ [(some badDescriptor, 0)] }
  | _ => { s with reads := s.reads + 1 }

/-- `async_write` of all of `data`, as one operation. -/
def asyncWrite (data : Bytes) (s : Socket κ) : Socket κ :=
  match s.link with
  | .closed => { s with writesDone := s.writesDone ++ [some badDescriptor] }
  | _ => { s with writes := s.writes ++ [data] }

/-- `async_connect`, which opens a closed socket. On an open one the connect waits behind those that
are waiting. -/
def asyncConnect (handler : κ) (s : Socket κ) : Socket κ :=
  match s.link with
  | .closed => { s with link := .opened, connects := s.connects ++ [handler] }
  | _ => { s with connects := s.connects ++ [handler] }

/-- `cancel`, `shutdown` and `close`. Every operation that is waiting ends at once, and nothing more is
written. -/
def close (s : Socket κ) : Socket κ where
  link := .closed
  reads := 0
  readsDone := s.readsDone ++ List.replicate s.reads (some operationAborted, 0)
  writes := []
  writesDone := s.writesDone ++ s.writes.map fun _ => some operationAborted
  connects := []
  connectsDone := s.connectsDone ++ s.connects.map fun h => (some operationAborted, h)

theorem asyncReadSome_linked {s : Socket κ} {peer : Peer} {sent : Bytes} {taken : ℕ}
    (h : s.link = .linked peer sent taken) : s.asyncReadSome = { s with reads := s.reads + 1 } := by
  unfold asyncReadSome
  rw [h]

theorem asyncWrite_linked {s : Socket κ} {peer : Peer} {sent : Bytes} {taken : ℕ} (data : Bytes)
    (h : s.link = .linked peer sent taken) :
    s.asyncWrite data = { s with writes := s.writes ++ [data] } := by
  unfold asyncWrite
  rw [h]

section frame

variable (data : Bytes) (handler : κ) (s : Socket κ)

@[simp] theorem asyncWrite_link : (s.asyncWrite data).link = s.link := by
  unfold asyncWrite; split <;> rfl

@[simp] theorem asyncWrite_reads : (s.asyncWrite data).reads = s.reads := by
  unfold asyncWrite; split <;> rfl

@[simp] theorem asyncWrite_readsDone : (s.asyncWrite data).readsDone = s.readsDone := by
  unfold asyncWrite; split <;> rfl

@[simp] theorem asyncWrite_connects : (s.asyncWrite data).connects = s.connects := by
  unfold asyncWrite; split <;> rfl

@[simp] theorem asyncWrite_connectsDone : (s.asyncWrite data).connectsDone = s.connectsDone := by
  unfold asyncWrite; split <;> rfl

@[simp] theorem asyncReadSome_link : s.asyncReadSome.link = s.link := by
  unfold asyncReadSome; split <;> rfl

@[simp] theorem asyncReadSome_writes : s.asyncReadSome.writes = s.writes := by
  unfold asyncReadSome; split <;> rfl

@[simp] theorem asyncReadSome_writesDone : s.asyncReadSome.writesDone = s.writesDone := by
  unfold asyncReadSome; split <;> rfl

@[simp] theorem asyncReadSome_connects : s.asyncReadSome.connects = s.connects := by
  unfold asyncReadSome; split <;> rfl

@[simp] theorem asyncReadSome_connectsDone : s.asyncReadSome.connectsDone = s.connectsDone := by
  unfold asyncReadSome; split <;> rfl

@[simp] theorem asyncConnect_connects :
    (s.asyncConnect handler).connects = s.connects ++ [handler] := by
  unfold asyncConnect; split <;> rfl

@[simp] theorem asyncConnect_connectsDone :
    (s.asyncConnect handler).connectsDone = s.connectsDone := by
  unfold asyncConnect; split <;> rfl

/-- A connect opens the socket. -/
theorem asyncConnect_open : (s.asyncConnect handler).link ≠ .closed := by
  unfold asyncConnect
  split
  · exact nofun
  · next h => exact h

@[simp] theorem asyncConnect_reads : (s.asyncConnect handler).reads = s.reads := by
  unfold asyncConnect; split <;> rfl

@[simp] theorem asyncConnect_readsDone : (s.asyncConnect handler).readsDone = s.readsDone := by
  unfold asyncConnect; split <;> rfl

@[simp] theorem asyncConnect_writes : (s.asyncConnect handler).writes = s.writes := by
  unfold asyncConnect; split <;> rfl

@[simp] theorem asyncConnect_writesDone : (s.asyncConnect handler).writesDone = s.writesDone := by
  unfold asyncConnect; split <;> rfl

end frame

/-! ### What the system does -/

/-- A waiting read takes at most `n + 1` bytes, and not more than fit into the buffer. -/
def receive (n : ℕ) (s : Socket κ) : Option (Bytes × Socket κ) :=
  match s.reads, s.link with
  | reads + 1, .linked peer sent taken =>
    let data := ((peer.out sent).drop taken).take (min (n + 1) bufferSize)
    if data = [] then none
    else
      some (data, { s with
        link := .linked peer sent (taken + data.length)
        reads := reads
        readsDone := s.readsDone ++ [(none, data.length)] })
  | _, _ => none

def readFail (e : SysError) (s : Socket κ) : Option (Socket κ) :=
  match s.reads with
  | reads + 1 => some { s with reads := reads, readsDone := s.readsDone ++ [(some e, 0)] }
  | 0 => none

/-- The first waiting write moves at most `n + 1` bytes. It is done when none are left. -/
def send (n : ℕ) (s : Socket κ) : Option (Socket κ) :=
  match s.writes, s.link with
  | data :: writes, .linked peer sent taken =>
    let s := { s with link := .linked peer (sent ++ data.take (n + 1)) taken }
    if data.drop (n + 1) = [] then
      some { s with writes := writes, writesDone := s.writesDone ++ [none] }
    else some { s with writes := data.drop (n + 1) :: writes }
  | _, _ => none

def writeFail (e : SysError) (s : Socket κ) : Option (Socket κ) :=
  match s.writes with
  | _ :: writes => some { s with writes := writes, writesDone := s.writesDone ++ [some e] }
  | [] => none

/-- The first waiting connect succeeds. -/
def connectOk (peer : Peer) (s : Socket κ) : Option (Socket κ) :=
  match s.connects, s.link with
  | h :: connects, .opened => some { s with
      link := .linked peer [] 0
      connects := connects
      connectsDone := s.connectsDone ++ [(none, h)] }
  | _, _ => none

def connectFail (e : SysError) (s : Socket κ) : Option (Socket κ) :=
  match s.connects with
  | h :: connects =>
    some { s with connects := connects, connectsDone := s.connectsDone ++ [(some e, h)] }
  | [] => none

/-! ### What each of these does -/

section cases

variable {s s' : Socket κ} {n : ℕ} {e : SysError} {peer : Peer}

theorem receive_cases {data : Bytes} (h : s.receive n = some (data, s')) :
    ∃ reads peer sent taken, s.reads = reads + 1 ∧ s.link = .linked peer sent taken ∧
      s' = { s with
        link := .linked peer sent (taken + data.length)
        reads := reads
        readsDone := s.readsDone ++ [(none, data.length)] } := by
  unfold receive at h
  split at h
  · next reads peer sent taken hreads hlink =>
    dsimp only at h
    split_ifs at h
    cases h
    exact ⟨reads, peer, sent, taken, hreads, hlink, rfl⟩
  · cases h

/-- What is received is the front of what the peer has written and nobody has received. -/
theorem receive_data {data sent : Bytes} {taken : ℕ} (h : s.receive n = some (data, s'))
    (hl : s.link = .linked peer sent taken) :
    data ≠ [] ∧ data.length ≤ bufferSize ∧ data <+: (peer.out sent).drop taken := by
  unfold receive at h
  rw [hl] at h
  split at h
  · next reads peer' sent' taken' hreads hlink =>
    cases hlink
    dsimp only at h
    split_ifs at h with hd
    cases h
    refine ⟨hd, ?_, List.take_prefix _ _⟩
    rw [List.length_take]
    omega
  · cases h

theorem readFail_cases (h : s.readFail e = some s') : ∃ reads, s.reads = reads + 1 ∧
    s' = { s with reads := reads, readsDone := s.readsDone ++ [(some e, 0)] } := by
  unfold readFail at h
  split at h
  · next reads hreads => exact ⟨reads, hreads, (Option.some.inj h).symm⟩
  · cases h

/-- The write that moves stays the first, or it is done. -/
theorem send_cases (h : s.send n = some s') : ∃ data rest peer sent taken,
    s.writes = data :: rest ∧ s.link = .linked peer sent taken ∧
      ∃ writes writesDone, (writes ≠ [] ∨ writesDone ≠ []) ∧
        s' = { s with
          link := .linked peer (sent ++ data.take (n + 1)) taken
          writes := writes
          writesDone := writesDone } := by
  unfold send at h
  split at h
  · next data rest peer sent taken hwrites hlink =>
    refine ⟨data, rest, peer, sent, taken, hwrites, hlink, ?_⟩
    dsimp only at h
    split_ifs at h
    · exact ⟨rest, s.writesDone ++ [none], Or.inr (by simp), (Option.some.inj h).symm⟩
    · exact ⟨data.drop (n + 1) :: rest, s.writesDone, Or.inl (List.cons_ne_nil _ _),
        (Option.some.inj h).symm⟩
  · cases h

/-- The bytes that move are on the connection. -/
theorem send_bytes {sent : Bytes} {taken : ℕ} (h : s.send n = some s')
    (hl : s.link = .linked peer sent taken) : ∃ sent', s'.link = .linked peer sent' taken ∧
      sent' ++ s'.writes.flatten = sent ++ s.writes.flatten := by
  unfold send at h
  rw [hl] at h
  split at h
  · next data rest peer' sent' taken' hwrites hlink =>
    cases hlink
    dsimp only at h
    refine ⟨sent ++ data.take (n + 1), ?_⟩
    rw [hwrites, List.flatten_cons, ← List.append_assoc]
    split_ifs at h with hd
    · cases h
      have hall : data.take (n + 1) = data := by
        have happ := List.take_append_drop (n + 1) data
        rwa [hd, List.append_nil] at happ
      exact ⟨rfl, by rw [hall]⟩
    · cases h
      refine ⟨rfl, ?_⟩
      rw [List.flatten_cons, ← List.append_assoc, List.append_assoc sent, List.take_append_drop]
  · cases h

theorem writeFail_cases (h : s.writeFail e = some s') : ∃ data writes, s.writes = data :: writes ∧
    s' = { s with writes := writes, writesDone := s.writesDone ++ [some e] } := by
  unfold writeFail at h
  split at h
  · next data writes hwrites => exact ⟨data, writes, hwrites, (Option.some.inj h).symm⟩
  · cases h

theorem connectOk_cases (h : s.connectOk peer = some s') : ∃ handler connects,
    s.connects = handler :: connects ∧ s.link = .opened ∧
      s' = { s with
        link := .linked peer [] 0
        connects := connects
        connectsDone := s.connectsDone ++ [(none, handler)] } := by
  unfold connectOk at h
  split at h
  · next handler connects hconnects hlink =>
    exact ⟨handler, connects, hconnects, hlink, (Option.some.inj h).symm⟩
  · cases h

theorem connectFail_cases (h : s.connectFail e = some s') : ∃ handler connects,
    s.connects = handler :: connects ∧
      s' = { s with
        connects := connects, connectsDone := s.connectsDone ++ [(some e, handler)] } := by
  unfold connectFail at h
  split at h
  · next handler connects hconnects => exact ⟨handler, connects, hconnects, (Option.some.inj h).symm⟩
  · cases h

/-- A connect is done only if one is outstanding. -/
theorem connects_ne_nil (h : (∃ peer, s.connectOk peer = some s') ∨ ∃ e, s.connectFail e = some s') :
    s.connects ≠ [] := by
  rcases h with ⟨peer, h⟩ | ⟨e, h⟩
  · obtain ⟨handler, connects, hw, -⟩ := connectOk_cases h
    rw [hw]
    exact List.cons_ne_nil _ _
  · obtain ⟨handler, connects, hw, -⟩ := connectFail_cases h
    rw [hw]
    exact List.cons_ne_nil _ _

end cases

end Socket

end RedisClient.Async.Asio

import RedisClient.Async.Calls
import RedisClient.Parser.Awaiting
import Mathlib.Data.List.Infix

/-! # A session of the asynchronous client

The invariant of a connection on which commands are issued (`InSession`). The commands issued are those
that `doAsyncCommand` has been called with (`run`) and those whose turn in the strand is still to
come (`posted`). The bytes of the former are on the wire, in the write in progress or queued; what
the server will have written when it has all of them are the items `written`; `processed` of these
have been processed, and the bytes received since then and those to come make up the others
(`Awaits`). So the handlers in the queue are those of the commands whose replies are not among the
items processed, and every handler that has been called has been called with its own reply. -/

namespace RedisClient.Async.Session

open RedisClient.Value RedisClient.Parser.Defs RedisClient.Parser.RoundTrip
open RedisClient.Parser.Awaiting RedisClient.Commands RedisClient.Peers
open RedisClient.Peers.Publisher (text text_append items_append length_replies)
open RedisClient.Async.Asio RedisClient.Async.Defs RedisClient.Async.Trace RedisClient.Async.Calls
open RedisClient.Sync.Defs (SysError ErrorCode ClientState)

variable {κ σ : Type}

/-! ### The invariant -/

/-- A posted command, as its bytes and the handler of its reply. -/
def posted? : Posted κ → Option (Bytes × Option κ)
  | .doAsyncCommand buff handler => some (buff, handler)
  | .message _ _ => none

theorem posted?_posted (qs : List (Request κ)) :
    (qs.map Request.posted).filterMap posted? = qs.map fun q => (q.command.enc, q.handler) := by
  induction qs with
  | nil => rfl
  | cons q qs ih => exact congrArg ((q.command.enc, q.handler) :: ·) ih

/-- The bytes of some requests. -/
def texts (qs : List (Request κ)) : Bytes := encs (qs.map Request.command)

/-- The contents of some requests. -/
def contents (qs : List (Request κ)) : List (List Bytes) := qs.map Request.contents

@[simp] theorem texts_append (qs rs : List (Request κ)) : texts (qs ++ rs) = texts qs ++ texts rs := by
  simp [texts, encs_append]

@[simp] theorem contents_append (qs rs : List (Request κ)) :
    contents (qs ++ rs) = contents qs ++ contents rs := by
  simp [contents]

theorem contents_pairs (qs : List (Request κ)) :
    (qs.map Request.pair).map (fun q => q.1.map RedisBuffer.data) = contents qs := by
  simp only [contents, List.map_map]
  rfl

/-- The bytes `s` are what the parser needs to read the items. -/
def Awaits (p : RedisParser) (s : Bytes) : List Item → Prop
  | [] => Idle p ∧ s = []
  | i :: is => Ahead p s i.value (text is)

theorem Awaits.append {p : RedisParser} {s : Bytes} {is : List Item} (h : Awaits p s is)
    (js : List Item) : Awaits p (s ++ text js) (is ++ js) := by
  cases is with
  | nil =>
    obtain ⟨hp, rfl⟩ := h
    cases js with
    | nil => exact ⟨hp, rfl⟩
    | cons j js => exact ahead_enc hp j.written (text js)
  | cons i is =>
    show Ahead p (s ++ text js) i.value (text (is ++ js))
    rw [text_append]
    exact ahead_append h (text js)

/-- A value that `doProcessMessage` takes for the reply to a command after a subscription. -/
def confirms (v : RedisValue) : Bool :=
  match v.toArray with
  | command :: _ :: _ :: _ => command.toByteArray ∈ confirmWords
  | _ => false

/-- The same for an item, where a message needs nothing. -/
def Item.confirms : Item → Bool
  | .reply r => Session.confirms r.value
  | .push _ => true

/-- What is left to write: nothing, the write in progress, or nothing but a completion handler. -/
inductive Writing (c : RedisClientImpl κ) : Bytes → Prop where
  | idle : c.dataWrited = [] → c.dataQueued = [] → c.socket.writes = [] →
      c.socket.writesDone = [] → Writing c []
  | busy (left : Bytes) : c.dataWrited ≠ [] → c.socket.writes = [left] →
      c.socket.writesDone = [] → Writing c left
  | done : c.dataWrited ≠ [] → c.socket.writes = [] → c.socket.writesDone = [none] → Writing c []

theorem Writing.congr {c c' : RedisClientImpl κ} {left : Bytes} (h : Writing c left)
    (hdataWrited : c'.dataWrited = c.dataWrited) (hdataQueued : c'.dataQueued = c.dataQueued)
    (hwrites : c'.socket.writes = c.socket.writes)
    (hwritesDone : c'.socket.writesDone = c.socket.writesDone) : Writing c' left := by
  cases h with
  | idle h1 h2 h3 h4 =>
    exact .idle (hdataWrited.trans h1) (hdataQueued.trans h2) (hwrites.trans h3)
      (hwritesDone.trans h4)
  | busy _ h1 h2 h3 =>
    exact .busy _ (hdataWrited ▸ h1) (hwrites.trans h2) (hwritesDone.trans h3)
  | done h1 h2 h3 => exact .done (hdataWrited ▸ h1) (hwrites.trans h2) (hwritesDone.trans h3)

/-- What has been received and not been looked at: nothing, and a read is waiting, or the bytes at
the beginning of the buffer. -/
inductive Reading (c : RedisClientImpl κ) : Bytes → Prop where
  | waiting : c.socket.reads = 1 → c.socket.readsDone = [] → Reading c []
  | received (data : Bytes) : data ≠ [] → c.buf.take data.length = data → c.socket.reads = 0 →
      c.socket.readsDone = [(none, data.length)] → Reading c data

/-- How far a session has come: the commands run and those posted; the items processed; the bytes
sent, those left of the write in progress, and the number of bytes received. -/
structure Progress (κ : Type) where
  run : List (Request κ)
  posted : List (Request κ)
  processed : ℕ
  sent : Bytes
  left : Bytes
  taken : ℕ

/-! ### Lists -/

theorem zip_append_left {α β : Type} : ∀ {a b : List α} {l : List β}, l.length ≤ a.length →
    (a ++ b).zip l = a.zip l
  | a, b, [], _ => by simp
  | [], b, y :: l, h => by simp at h
  | x :: a, b, y :: l, h => by
    have ih := zip_append_left (b := b) (Nat.le_of_succ_le_succ h)
    simp [ih]

theorem zip_concat {α β : Type} : ∀ {a rest : List α} {b : List β} {x : α} {y : β},
    a.drop b.length = x :: rest → a.zip (b ++ [y]) = a.zip b ++ [(x, y)]
  | [], rest, b, x, y, h => by simp at h
  | x' :: a, rest, [], x, y, h => by
    cases h
    simp
  | x' :: a, rest, y' :: b, x, y, h => by
    have ih := zip_concat (y := y) (show a.drop b.length = x :: rest from h)
    simp [ih]

theorem getElem?_grows {α : Type} {l l' : List α} (h : l <+: l') {k : ℕ} {x : α}
    (hx : l[k]? = some x) : l'[k]? = some x := by
  obtain ⟨u, rfl⟩ := h
  obtain ⟨hk, -⟩ := List.getElem?_eq_some_iff.mp hx
  rw [List.getElem?_append_left hk, hx]

theorem mem_zip_grows {α β : Type} {l l' : List α} {m m' : List β} (hl : l <+: l') (hm : m <+: m')
    {p : α × β} (hp : p ∈ l.zip m) : p ∈ l'.zip m' := by
  obtain ⟨k, hk⟩ := List.mem_iff_getElem?.mp hp
  obtain ⟨h1, h2⟩ := List.getElem?_zip_eq_some.mp hk
  exact List.mem_iff_getElem?.mpr
    ⟨k, List.getElem?_zip_eq_some.mpr ⟨getElem?_grows hl h1, getElem?_grows hm h2⟩⟩

section Invariant

/- The session is one with the server `pub`, started in the state `s0`, and its entries in the trace
are those from the `n`-th on. -/
variable (pub : Publisher σ) (s0 : σ) (S : List Bytes → Prop) (sub : Prop) (n : ℕ)

/-- What the server writes in reply to the commands run. -/
def written (x : Progress κ) : List Item := pub.items s0 (contents x.run)

/-- The replies among the items that have been processed. -/
def answered (x : Progress κ) : List Reply :=
  Publisher.replies ((written pub s0 x).take x.processed)

/-- The handlers called and the replies they have been called with, if all is well. -/
def expected (x : Progress κ) : List (Option κ × RedisValue) :=
  (x.run.map Request.handler).zip ((answered pub s0 x).map Reply.value)

/-- The invariant, but for what is on the way. -/
structure Core (x : Progress κ) (c : RedisClientImpl κ) : Prop where
  broken : c.broken = false
  state : SessionState sub c.state
  long : n ≤ c.trace.length
  issued : issued (c.trace.drop n) = (x.run ++ x.posted).map Request.pair
  quiet : c.state = .connected → ∀ q ∈ x.run ++ x.posted, ¬ S q.contents
  strand : c.strand.filterMap posted? = x.posted.map fun q => (q.command.enc, q.handler)
  link : c.socket.link = .linked (pub.peer s0) x.sent x.taken
  connects : c.socket.connects = []
  connectsDone : c.socket.connectsDone = []
  sent : x.sent ++ x.left ++ c.dataQueued.flatten = texts x.run
  handlers : c.handlers = (x.run.map Request.handler).drop (answered pub s0 x).length
  processed_le : x.processed ≤ (written pub s0 x).length
  taken_le : x.taken ≤ (text (written pub s0 x)).length
  replies : replies (c.trace.drop n) = expected pub s0 x
  errors : errors (c.trace.drop n) = []
  processed : (processed (c.trace.drop n)).map Prod.snd =
    ((written pub s0 x).take x.processed).map Item.value

/-- The bytes `data` in the hands of the client and those to come make up the items to come. -/
def Incoming (x : Progress κ) (data : Bytes) (p : RedisParser) : Prop :=
  Awaits p (data ++ (text (written pub s0 x)).drop x.taken) ((written pub s0 x).drop x.processed)

/-- **The invariant of a session.** -/
def InSession (c : RedisClientImpl κ) : Prop :=
  ∃ x data, Core pub s0 S sub n x c ∧ Incoming pub s0 x data c.redisParser ∧ Writing c x.left ∧
    Reading c data

/-- What the server writes in reply to the commands issued in a trace. -/
def itemsOf (t : List (Action κ)) : List Item :=
  pub.items s0 ((Trace.issued t).map fun q => q.1.map RedisBuffer.data)

/-- What is asked of a session with subscriptions: every call is accepted, and a reply that is
processed after a subscription is a confirmation. -/
structure Lawful (t : List (Action κ)) : Prop where
  accepted : AllAccepted t
  confirmed : ∀ p ∈ (Trace.processed t).zip (itemsOf pub s0 t), p.1.1 = .subscribed →
    Item.confirms p.2

instance (t : List (Action κ)) : Decidable (Lawful pub s0 t) :=
  decidable_of_iff (AllAccepted t ∧
    ∀ p ∈ (Trace.processed t).zip (itemsOf pub s0 t), p.1.1 = .subscribed → Item.confirms p.2)
    ⟨fun h => ⟨h.1, h.2⟩, fun h => ⟨h.accepted, h.confirmed⟩⟩

end Invariant

variable {pub : Publisher σ} {s0 : σ} {S : List Bytes → Prop} {sub : Prop} {n : ℕ}
variable {x : Progress κ} {c c' : RedisClientImpl κ}

theorem items_grows {cs ds : List (List Bytes)} (h : cs <+: ds) :
    pub.items s0 cs <+: pub.items s0 ds := by
  obtain ⟨u, rfl⟩ := h
  rw [items_append]
  exact List.prefix_append _ _

theorem itemsOf_grows {t u : List (Action κ)} (h : t <+: u) :
    itemsOf pub s0 t <+: itemsOf pub s0 u :=
  items_grows ((h.filterMap _).map _)

theorem Lawful.grows {t u : List (Action κ)} (h : Lawful pub s0 u) (htu : t <+: u) :
    Lawful pub s0 t where
  accepted a ha := h.accepted a (htu.subset ha)
  confirmed p hp := h.confirmed p (mem_zip_grows (htu.filterMap _) (itemsOf_grows htu) hp)

/-! ### Facts about the invariant -/

variable (pub s0) in
theorem answered_le (x : Progress κ) : (answered pub s0 x).length ≤ x.run.length := by
  have hl : (Publisher.replies (written pub s0 x)).length = x.run.length := by
    unfold written
    rw [length_replies, contents, List.length_map]
  have happ := congrArg Publisher.replies (List.take_append_drop x.processed (written pub s0 x))
  rw [Publisher.replies_append] at happ
  rw [← hl, ← happ, List.length_append]
  exact Nat.le_add_right _ _

theorem Core.length_processed (h : Core pub s0 S sub n x c) :
    (Trace.processed (c.trace.drop n)).length = x.processed := by
  have hl := congrArg List.length h.processed
  have hle := h.processed_le
  simp only [List.length_map, List.length_take] at hl
  omega

theorem awaits_text {p : RedisParser} (hp : Idle p) (is : List Item) : Awaits p (text is) is := by
  cases is with
  | nil => exact ⟨hp, rfl⟩
  | cons i is => exact ahead_enc hp i.written (text is)

/-- The entries of the session in a trace that goes on. -/
theorem drop_append {t : List (Action κ)} (h : Core pub s0 S sub n x c)
    (ht : c'.trace = c.trace ++ t) : c'.trace.drop n = c.trace.drop n ++ t := by
  rw [ht, List.drop_append_of_le_length h.long]

/-- User code during a session. -/
theorem Core.issues {qs : List (Request κ)} {t : List (Action κ)} (h : Core pub s0 S sub n x c)
    (hi : Issues S sub qs t c c') :
    Core pub s0 S sub n { x with posted := x.posted ++ qs } c' := by
  have hd := drop_append h hi.trace
  have hconn : c'.state = .connected → c.state = .connected := by
    intro hc
    rcases hi.state with hs | ⟨-, hs⟩
    · rw [← hs, hc]
    · rw [hc] at hs
      cases hs
  constructor
  · rw [hi.broken, h.broken]
  · exact hi.sessionState h.state
  · rw [hi.trace, List.length_append]
    have := h.long
    omega
  · rw [hd, issued_append, h.issued, hi.issued]
    simp
  · intro hc q hq
    rw [← List.append_assoc] at hq
    rcases List.mem_append.mp hq with hq | hq
    · exact h.quiet (hconn hc) q hq
    · exact hi.quiet hc q hq
  · rw [hi.strand, List.filterMap_append, h.strand, List.map_append]
    rw [posted?_posted]
  · rw [hi.socket, h.link]
  · rw [hi.socket, h.connects]
  · rw [hi.socket, h.connectsDone]
  · rw [hi.dataQueued]
    exact h.sent
  · rw [hi.handlers]
    exact h.handlers
  · exact h.processed_le
  · exact h.taken_le
  · rw [hd, replies_append, h.replies, hi.replies, List.append_nil]
    rfl
  · rw [hd, errors_append, h.errors, hi.errors]
    rfl
  · rw [hd, processed_append, hi.processed, List.append_nil]
    exact h.processed

/-- An entry of the trace that is not read. -/
theorem Core.log (a : Action κ) (h : Core pub s0 S sub n x c) (hi : Trace.issued [a] = [])
    (hr : Trace.replies [a] = []) (he : Trace.errors [a] = [])
    (hp : Trace.processed [a] = []) :
    Core pub s0 S sub n x (c.log a) := by
  have hd : (c.log a).trace.drop n = c.trace.drop n ++ [a] := drop_append h rfl
  refine { h with long := ?_, issued := ?_, replies := ?_, errors := ?_, processed := ?_ }
  · exact h.long.trans (log_trace c a).length_le
  · rw [hd, issued_append, hi, List.append_nil, h.issued]
  · rw [hd, replies_append, hr, List.append_nil, h.replies]
  · rw [hd, errors_append, he, h.errors]
    rfl
  · rw [hd, processed_append, hp, List.append_nil, h.processed]

end RedisClient.Async.Session

import RedisClient.Async.OwnReplies

/-! # Subscriptions and replies

A connection on which commands are issued and channels subscribed to, with a server that answers every
command and sends messages after a subscription. From the call that subscribes on, a message is told
from a reply by what it looks like, and only a confirmation is taken for a reply. So the replies reach
their handlers in a run in which the replies that are processed after that call are confirmations, and
messages come after it (`subscriptions_keep_replies`); a reply of another kind is lost, and every later
one goes to a wrong handler (`subscription_loses_reply`). -/

namespace RedisClient.Async.Subscribing

open RedisClient.Value RedisClient.Parser.RoundTrip RedisClient.Commands RedisClient.Peers
open RedisClient.Async.Asio RedisClient.Async.Defs RedisClient.Async.Trace RedisClient.Async.Calls
open RedisClient.Async.Session RedisClient.Async.Receive RedisClient.Async.Runs
open RedisClient.Async.Rest RedisClient.Async.OwnReplies

variable {κ σ : Type}

section Delivery

variable (pub : Publisher σ) (s0 : σ) (n : ℕ)

/-- The replies among the items that have been processed. -/
def answeredIn (t : List (Action κ)) : List Reply :=
  Publisher.replies ((itemsOf pub s0 t).take (processed t).length)

/-- Every reply processed has been delivered to the handler of its command, which has left the queue;
the handlers of the other commands are in the queue or still to enter it; and the error handler has
not been called. This is about the trace from its `n`-th entry on. -/
structure Delivers (c : RedisClientImpl κ) : Prop where
  processed : (processed (c.trace.drop n)).map Prod.snd =
    ((itemsOf pub s0 (c.trace.drop n)).take (Trace.processed (c.trace.drop n)).length).map Item.value
  replies : replies (c.trace.drop n) = ((issued (c.trace.drop n)).map Prod.snd).zip
    ((answeredIn pub s0 (c.trace.drop n)).map Reply.value)
  handlers : c.handlers ++ (c.strand.filterMap posted?).map Prod.snd =
    ((issued (c.trace.drop n)).map Prod.snd).drop (answeredIn pub s0 (c.trace.drop n)).length
  errors : errors (c.trace.drop n) = []

end Delivery

/-- No message is processed before a call that subscribes. -/
def Timely (pub : Publisher σ) (s0 : σ) (t : List (Action κ)) : Prop :=
  ∀ p ∈ (processed t).zip (itemsOf pub s0 t), p.2.reply? = none → p.1.1 = .subscribed

variable {pub : Publisher σ} {s0 : σ} {S : List Bytes → Prop} {sub : Prop} {n : ℕ}
variable {x : Progress κ} {c c' : RedisClientImpl κ}

instance (t : List (Action κ)) : Decidable (Timely pub s0 t) :=
  inferInstanceAs (Decidable (∀ p ∈ (processed t).zip (itemsOf pub s0 t), _))

theorem Timely.grows {t u : List (Action κ)} (h : Timely pub s0 u) (htu : t <+: u) :
    Timely pub s0 t :=
  fun p hp => h p (mem_zip_grows (htu.filterMap _) (itemsOf_grows htu) hp)

theorem suffices_timely :
    Suffices (κ := κ) pub s0 S True n fun t => Lawful pub s0 t ∧ Timely pub s0 t where
  grows h htu := ⟨h.1.grows htu, h.2.grows htu⟩
  lawful h := h.1
  timely h hi ht := (ht trivial).2 _ (next_mem_zip h hi) rfl

/-! ### What the invariant says of the trace -/

theorem itemsOf_core (h : Core pub s0 S sub n x c) :
    itemsOf pub s0 (c.trace.drop n) =
      written pub s0 x ++ pub.items (pub.after s0 (contents x.run)) (contents x.posted) := by
  unfold itemsOf
  rw [h.issued, contents_pairs, contents_append, Publisher.items_append]
  rfl

theorem take_itemsOf (h : Core pub s0 S sub n x c) :
    (itemsOf pub s0 (c.trace.drop n)).take (processed (c.trace.drop n)).length =
      (written pub s0 x).take x.processed := by
  rw [h.length_processed, itemsOf_core h, List.take_append_of_le_length h.processed_le]

theorem answeredIn_core (h : Core pub s0 S sub n x c) :
    answeredIn pub s0 (c.trace.drop n) = answered pub s0 x := by
  unfold answeredIn
  rw [take_itemsOf h]
  rfl

theorem issued_handlers (h : Core pub s0 S sub n x c) :
    (issued (c.trace.drop n)).map Prod.snd =
      x.run.map Request.handler ++ x.posted.map Request.handler := by
  rw [h.issued]
  simp [Request.pair, Function.comp_def]

theorem Core.delivers (h : Core pub s0 S sub n x c) : Delivers pub s0 n c := by
  have hle : (answered pub s0 x).length ≤ (x.run.map Request.handler).length := by
    rw [List.length_map]
    exact answered_le pub s0 x
  constructor
  · rw [take_itemsOf h]
    exact h.processed
  · rw [h.replies, answeredIn_core h, issued_handlers h]
    exact (zip_append_left (by rwa [List.length_map])).symm
  · have hposted : (c.strand.filterMap posted?).map Prod.snd = x.posted.map Request.handler := by
      rw [h.strand, List.map_map]
      rfl
    rw [h.handlers, hposted, answeredIn_core h, issued_handlers h,
      List.drop_append_of_le_length hle]
  · exact h.errors

/-- At rest, everything that the server writes has been processed. -/
theorem processed_all (h : InSession pub s0 S sub n c) (hrest : AtRest c) :
    (processed (c.trace.drop n)).length = (itemsOf pub s0 (c.trace.drop n)).length := by
  obtain ⟨x, hcore, hposted, -, hall⟩ := atRest_all h hrest
  rw [hcore.length_processed, itemsOf_core hcore, hposted, hall]
  exact congrArg List.length (List.append_nil _).symm

/-! ### The theorem -/

/-- **Subscriptions keep the replies**, in a run in which the user's code returns and no read or write
fails, calls are made in the states they are made for, and after a subscription only confirmations are
processed as replies, and messages only then. When the loop can do nothing more, everything that the
server writes has been processed. -/
theorem subscriptions_keep_replies {handler : κ} {cbs : Callbacks κ} {es : List (Event κ)}
    (hready : Ready (pub.peer s0) handler c) (hcbs : SessionCallbacks (fun _ => False) True cbs)
    (hes : ∀ e ∈ es, SessionEvent (fun _ => False) True e)
    (hrun : run (.connectDone cbs :: es) c = some c')
    (hlaw : Lawful pub s0 (c'.trace.drop c.trace.length))
    (htimely : Timely pub s0 (c'.trace.drop c.trace.length)) :
    Delivers pub s0 c.trace.length c' ∧
    (AtRest c' → (processed (c'.trace.drop c.trace.length)).length =
      (itemsOf pub s0 (c'.trace.drop c.trace.length)).length) := by
  obtain ⟨c1, h1, h2⟩ := Option.bind_eq_some_iff.mp hrun
  have hlaw1 : Lawful pub s0 (c1.trace.drop c.trace.length) := hlaw.grows ((run_trace h2).drop _)
  have hs1 := connectDone_session hready hcbs h1 fun _ => hlaw1
  have hs := session_run suffices_timely hes hs1 h2 fun _ => ⟨hlaw, htimely⟩
  refine ⟨?_, processed_all hs⟩
  obtain ⟨x, data, hcore, -⟩ := hs
  exact Core.delivers hcore

/-! ### Two sessions -/

/-- The confirmation of a subscription to `c`. -/
def confirmation : Reply :=
  ⟨.array [.bulk (chars "subscribe"), .bulk (chars "c"), .int 1], by
    simp [ReplyTree.Wf, ReplyTree.AllWf, chars]⟩

/-- A message to the subscribers of `c`. -/
def news : Push where
  reply := ⟨.array [.bulk (chars "message"), .bulk (chars "c"), .bulk (chars "hi")], by
    simp [ReplyTree.Wf, ReplyTree.AllWf, chars]⟩
  isPush := .message (chars "c") (chars "hi")

/-- A server that answers `+PONG`, and to a subscription with its confirmation and a message. -/
def channel : Publisher Unit where
  step _ c := if Subscribes c then ((), confirmation, [news]) else ((), (pong.step () c).2, [])

/-- A command is issued, and its reply is read before `c` is subscribed to. -/
def replyFirst : List (Event ℕ) :=
  [.user (.call (.command [65] [] (some 1)) .returns .returns), .posted [], .send 99,
    .writeDone [], .receive 99, .readDone [],
    .user (.call (.subscribe (chars "c") 7 (some 2)) .returns .returns), .posted [], .send 99,
    .writeDone [], .receive 99, .readDone [], .posted []]

/-- The same, but `c` is subscribed to before the reply is read. -/
def subscriptionFirst : List (Event ℕ) :=
  [.user (.call (.command [65] [] (some 1)) .returns .returns), .posted [], .send 99,
    .writeDone [], .user (.call (.subscribe (chars "c") 7 (some 2)) .returns .returns),
    .posted [], .send 99, .writeDone [], .receive 99, .readDone []]

/-- A run on a new connection, checked by evaluation. -/
theorem dial_run (peer : Peer) (es : List (Event ℕ)) (P : ℕ → RedisClientImpl ℕ → Prop)
    [∀ k c, Decidable (P k c)]
    (h : ((run (dial peer) .new).bind fun c =>
      (run es c).map fun c' => decide (P c.trace.length c')) = some true) :
    ∃ c c', run (dial peer) .new = some c ∧ run es c = some c' ∧ P c.trace.length c' := by
  obtain ⟨c, hc, h⟩ := Option.bind_eq_some_iff.mp h
  obtain ⟨c', hc', h⟩ := Option.map_eq_some_iff.mp h
  exact ⟨c, c', hc, hc', of_decide_eq_true h⟩

theorem subscriptions_keep_replies_news : ∃ c c', run (dial (channel.peer ())) .new = some c ∧
    run (.connectDone [] :: replyFirst) c = some c' ∧
    Delivers channel () c.trace.length c' ∧
    (AtRest c' → (processed (c'.trace.drop c.trace.length)).length =
      (itemsOf channel () (c'.trace.drop c.trace.length)).length) := by
  obtain ⟨c, c', hc, hc', hlaw, htimely⟩ := dial_run (channel.peer ())
    (.connectDone [] :: replyFirst)
    (fun k c' => Lawful channel () (c'.trace.drop k) ∧ Timely channel () (c'.trace.drop k))
    (by decide +kernel)
  obtain ⟨d, hd, hready⟩ := ready_dial (channel.peer ())
  rw [hc] at hd
  cases hd
  exact ⟨c, c', hc, hc',
    subscriptions_keep_replies hready (by decide) (by decide) hc' hlaw htimely⟩

/-- **A subscription loses a reply.** The reply to the command is reported as a protocol error, and
its handler is called with the confirmation. -/
theorem subscription_loses_reply : ∃ c c', run (dial (channel.peer ())) .new = some c ∧
    run (.connectDone [] :: subscriptionFirst) c = some c' ∧
    (∀ e ∈ subscriptionFirst, SessionEvent Subscribes True e) ∧
    AllAccepted (c'.trace.drop c.trace.length) ∧
    ¬ Delivers channel () c.trace.length c' ∧
    errors (c'.trace.drop c.trace.length) = [.text (chars protocolError)] ∧
    replies (c'.trace.drop c.trace.length) = [(some 1, confirmation.value)] ∧
    c'.handlers = [some 2] := by
  obtain ⟨c, c', hc, hc', hacc, herr, hrep, hh⟩ := dial_run (channel.peer ())
    (.connectDone [] :: subscriptionFirst)
    (fun k c' => AllAccepted (c'.trace.drop k) ∧
      errors (c'.trace.drop k) = [.text (chars protocolError)] ∧
      replies (c'.trace.drop k) = [(some 1, confirmation.value)] ∧ c'.handlers = [some 2])
    (by decide +kernel)
  refine ⟨c, c', hc, hc', by decide, hacc, fun h => ?_, herr, hrep, hh⟩
  have hnone := h.errors
  rw [herr] at hnone
  cases hnone

end RedisClient.Async.Subscribing

import RedisClient.Async.Pushes

/-! # Channels and patterns

`msgHandlers` holds the handlers for channels and those for patterns under bare strings, and a push of
either kind is posted to all that are found under its string. So channels and patterns are kept apart
as long as no string is subscribed to as both (`kinds_apart`). -/

namespace RedisClient.Async.Kinds

open RedisClient.Value RedisClient.Parser.Defs RedisClient.Parser.RoundTrip RedisClient.Peers
open RedisClient.Async.Asio RedisClient.Async.Defs RedisClient.Async.Rules RedisClient.Async.Trace
open RedisClient.Async.Moments RedisClient.Async.OwnReplies RedisClient.Async.Confirmations
open RedisClient.Async.Registrations RedisClient.Async.Roster RedisClient.Async.Pushes
open RedisClient.Sync.Defs (ClientState)

variable {κ : Type} {c : RedisClientImpl κ}

/-- The single-shot handler that a push takes. -/
def due (name : Bytes) (m : Moment κ) : List κ :=
  if m.client.state = .subscribed then (single name m.client).toList else []

/-- Nothing of the other kind is registered under the name of the push. In a state in which pushes are
not posted nothing at all is registered for it. -/
def Apart (kind : Kind) (name : Bytes) (t : List (Action κ)) (m : Moment κ) : Prop :=
  if m.client.state = .subscribed then ∀ e ∈ (registry t).entries, e.2.channel = name → e.1 = kind
  else live kind name t = []

/-- Of the elements with one property, all have another. -/
theorem map_filter_eq_iff {α β : Type} {l : List α} {p q : α → Prop} [DecidablePred p]
    [DecidablePred q] {f : α → β} :
    (l.filter fun x => p x).map f = (l.filter fun x => q x ∧ p x).map f ↔ ∀ x ∈ l, p x → q x := by
  constructor
  · intro h x hx hp
    have hlen := congrArg List.length h
    have hboth : (l.filter fun x => q x ∧ p x) = (l.filter fun x => p x).filter fun x => q x := by
      simp [List.filter_filter]
    rw [List.length_map, List.length_map, hboth] at hlen
    have hall := List.length_filter_eq_length_iff.mp hlen.symm
    exact of_decide_eq_true (hall x (List.mem_filter.mpr ⟨hx, decide_eq_true hp⟩))
  · intro h
    refine congrArg (List.map f) (List.filter_congr fun x hx => decide_eq_decide.mpr ?_)
    exact ⟨fun hp => ⟨h x hx hp, hp⟩, fun hqp => hqp.2⟩

/-- **Channels and patterns are kept apart.** After every run, the messages with which handlers have
been called and those on the strand are what has been posted, push by push. For a push each handler
that is registered for its kind and name is posted one call, and no other handler is, besides the
single-shot handler that is due, if and only if nothing of the other kind is registered under the
name. -/
theorem kinds_apart {es : List (Event κ)} (h : run es .new = some c) :
    called c.trace ++ messages c = (runMoments es .new).flatMap posts ∧
      ∀ (i : ℕ) (m : Moment κ) (state : ClientState) (v : RedisValue) (kind : Kind)
        (name payload : Bytes), (runMoments es .new)[i]? = some m →
        m.action = .doProcessMessage state v → push? v = some (kind, name, payload) →
        (posts m = (due name m ++ live kind name (((runMoments es .new).take i).map
            Moment.action)).map (fun k => (k, payload)) ↔
          Apart kind name (((runMoments es .new).take i).map Moment.action) m) := by
  refine ⟨posted_in_order h, fun i m state v kind name payload hi hm hv => ?_⟩
  have hrecorded : ∀ m' ∈ runMoments es (.new : RedisClientImpl κ), Recorded (fun _ => True) m' :=
    runMoments_recorded (fun e _ => allIn_true e) _
  have hreg := registry_linked ((linked_run h).at hi) fun m' hm' =>
    hrecorded m' (List.mem_of_mem_take hm')
  obtain ⟨hmap, -⟩ := Prod.mk.inj hreg
  unfold due Apart live
  generalize (registry (((runMoments es .new).take i).map Moment.action)).entries = entries at hmap ⊢
  split_ifs with hs
  · rw [posts_push hm hv hs, found, hmap, List.filter_map, List.map_map]
    rw [List.map_append, List.map_append, List.append_cancel_left_eq, List.map_map, List.map_map]
    exact map_filter_eq_iff
  · rw [posts_eq_nil hm fun h => hs h.1, List.nil_append, eq_comm, List.map_eq_nil_iff]

/-! ### Two runs -/

/-- A peer that has written some bytes from the start. -/
def writes (bytes : Bytes) : Peer := ⟨fun _ => bytes, fun _ _ => List.prefix_refl _⟩

/-- A message to the subscribers of `c`. -/
def hello : Bytes := chars "*3\r\n$7\r\nmessage\r\n$1\r\nc\r\n$2\r\nhi\r\n"

/-- A handler is subscribed to the channel `c` and one to a pattern, and a message arrives. -/
def listeningTo (pattern : Bytes) : List (Event ℕ) :=
  dial (writes hello) ++
    [.connectDone [.call (.subscribe (chars "c") 7 none) .returns
      (.call (.psubscribe pattern 8 none) .returns .returns)], .receive 99, .readDone []]

/-- The message, as it is processed. -/
def helloValue : RedisValue :=
  .array [.bytes messageStr false, .bytes (chars "c") false, .bytes (chars "hi") false]

instance (kind : Kind) (name : Bytes) [DecidableEq κ] (t : List (Action κ)) (m : Moment κ) :
    Decidable (Apart kind name t m) :=
  if h : m.client.state = .subscribed then
    decidable_of_iff (∀ e ∈ (registry t).entries, e.2.channel = name → e.1 = kind)
      (by rw [Apart, if_pos h])
  else decidable_of_iff (live kind name t = []) (by rw [Apart, if_neg h])

/-- The message is posted to the handler of the channel. -/
theorem kinds_apart_listening : ∃ m, (runMoments (listeningTo (chars "c*")) .new)[6]? = some m ∧
    posts m = [(7, chars "hi")] := by
  set ms := runMoments (listeningTo (chars "c*")) .new with hms
  have hmoment : ms[6]?.map (fun m => (m.action, due (chars "c") m,
      decide (Apart .channel (chars "c") ((ms.take 6).map Moment.action) m))) =
      some (.doProcessMessage .subscribed helloValue, [], true) := by decide +kernel
  have hlive : live .channel (chars "c") ((ms.take 6).map Moment.action) = [7] := by decide +kernel
  obtain ⟨m, hm, heq⟩ := Option.map_eq_some_iff.mp hmoment
  obtain ⟨haction, hrest⟩ := Prod.mk.inj heq
  obtain ⟨hdue, hapart⟩ := Prod.mk.inj hrest
  cases hrun : run (listeningTo (chars "c*")) .new with
  | none =>
    have hsome : (run (listeningTo (chars "c*")) .new).isSome = true := by decide +kernel
    rw [hrun] at hsome
    cases hsome
  | some c =>
    have hposts := ((kinds_apart hrun).2 6 m .subscribed helloValue .channel (chars "c") (chars "hi")
      hm haction (by decide +kernel)).mpr (of_decide_eq_true hapart)
    refine ⟨m, hm, ?_⟩
    rw [hposts, hdue, hlive]
    rfl

/-- **A message for a channel reaches a pattern** that is the same string. -/
theorem message_reaches_pattern : (run (listeningTo (chars "c")) .new).isSome = true ∧
    ∃ m ∈ (runMoments (listeningTo (chars "c")) .new)[6]?,
      m.action = .doProcessMessage .subscribed helloValue ∧
      live .channel (chars "c") (((runMoments (listeningTo (chars "c")) .new).take 6).map
        Moment.action) = [7] ∧
      due (chars "c") m = [] ∧ posts m = [(7, chars "hi"), (8, chars "hi")] := by
  decide +kernel

end RedisClient.Async.Kinds

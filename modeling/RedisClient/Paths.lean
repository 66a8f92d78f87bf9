import RedisClient.Async.Stream
import RedisClient.Sync.Stream

/-! # The two read paths

`asyncRead` and successive calls of `syncReadResponse` deliver the same values on the same stream,
those of the whole stream up to the first parser error, however the stream is cut and whichever of
the synchronous reads fail in between (`paths_agree`). -/

namespace RedisClient.Paths

open RedisClient.Value RedisClient.Parser.Defs RedisClient.Parser.Values RedisClient.Peers
open RedisClient.Sync.Defs (Try bufferSize)
open RedisClient.Sync.Stream (pieces responses)
open RedisClient.Async.Defs (Event)
open RedisClient.Async.Stream (Starts Streams received values)

/-- A peer that writes the stream `s`, whatever it is sent. -/
def streamer (s : Bytes) : Peer := ⟨fun _ => s, fun _ _ => List.prefix_refl s⟩

/-- Every way of cutting a stream into reads is one of some tries. -/
theorem pieces_cut : ∀ {ds : List Bytes}, (∀ d ∈ ds, d ≠ [] ∧ d.length ≤ bufferSize) →
    pieces (ds.map fun d => .moved (d.length - 1)) ds.flatten = ds
  | [], _ => rfl
  | d :: ds, h => by
    obtain ⟨hne, hle⟩ := h d List.mem_cons_self
    have hpos := List.length_pos_iff.mpr hne
    have htake : (d ++ ds.flatten).take (min (d.length - 1 + 1) bufferSize) = d := by
      rw [Nat.min_eq_left (by omega), Nat.sub_add_cancel hpos]
      exact List.take_left
    have ih := pieces_cut fun e he => h e (List.mem_cons_of_mem d he)
    rw [List.map_cons, List.flatten_cons, pieces, htake]
    rw [if_neg hne, List.drop_left, ih]

/-- **The two read paths deliver the same values.** On the stream `s`, with a fresh parser:

* the values that `n` calls of `syncReadResponse` return are the first ones of the stream, and for
  enough calls all those of the pieces that are read;
* the values that `asyncRead` passes to `doProcessMessage` are the first ones of what has been
  received, and all of them when every completion handler has run.

The tries may fail at any place; the callbacks of a read return and do not disconnect. -/
theorem paths_agree {κ : Type} (s : Bytes) :
    (∀ (c : Sync.Defs.RedisClientImpl) (ts : List Try) (n : ℕ), c.socket.isOpen = true →
      c.redisParser = fresh → c.buf = [] → c.socket.unread = s →
      responses n c ts <+: wholeValues s ∧
      (ts.length + s.length < n → responses n c ts = wholeValues (pieces ts s).flatten) ∧
      (ts.length + s.length < n → (pieces ts s).flatten = s → responses n c ts = wholeValues s)) ∧
    ∀ (c c' : Async.Defs.RedisClientImpl κ) (es : List (Event κ)) (taken0 : ℕ), Starts taken0 c →
      (∀ e ∈ es, Streams e) → Async.Defs.run es c = some c' → received taken0 c' = s →
      values c.trace.length c' <+: wholeValues s ∧
      (c'.socket.readsDone = [] → values c.trace.length c' = wholeValues s) := by
  constructor
  · intro c ts n ho hp hb hs
    have hopen : Sync.Stream.Open c := ⟨ho, by rw [hp]; exact .fresh⟩
    have hahead : Sync.Stream.ahead c ts = wholeValues (pieces ts s).flatten := by
      unfold Sync.Stream.ahead
      rw [hp, hb, hs]
      rfl
    have hall : ts.length + s.length < n → responses n c ts = wholeValues (pieces ts s).flatten := by
      intro hn
      rw [← hahead]
      refine Sync.Stream.responses_all n c ts hopen ?_
      unfold Sync.Stream.left
      rw [hb, hs]
      exact hn
    refine ⟨?_, hall, fun hn hcut => by rw [hall hn, hcut]⟩
    have hfront := Sync.Stream.responses_front n c ts hopen
    obtain ⟨rest, hrest⟩ := Sync.Stream.pieces_prefix ts s
    rw [hahead] at hfront
    have hwhole := valuesFrom_prefix .fresh (pieces ts s).flatten rest
    rw [hrest] at hwhole
    exact hfront.trans hwhole
  · intro c c' es taken0 hstart hes hrun hs
    have h := (Async.Stream.listens_run hes hstart.listens hrun).values_eq
    rwa [hs] at h

/-- Two replies, cut inside both of them, with a timeout and an error in between. -/
theorem paths_agree_cut : ∃ c c', Async.Defs.run [.user (.call (.connect .tcp 0) .returns .returns),
      .connectOk (streamer [43, 97, 13, 10, 58, 49, 13, 10]), .connectDone []] .new = some c ∧
    Async.Defs.run [.receive 1, .readDone [], .receive 3, .readDone [], .receive 99, .readDone []] c =
      some c' ∧
    responses 20 (Sync.Defs.connected (streamer [43, 97, 13, 10, 58, 49, 13, 10])
      (Sync.Defs.newClient (fun _ => .throws) (streamer [])))
        [.moved 1, .failed 110, .moved 3, .zero, .moved 99] =
      wholeValues [43, 97, 13, 10, 58, 49, 13, 10] ∧
    values c.trace.length c' = wholeValues [43, 97, 13, 10, 58, 49, 13, 10] := by
  have hstart : ∃ c : Async.Defs.RedisClientImpl ℕ,
      Async.Defs.run [.user (.call (.connect .tcp 0) .returns .returns),
        .connectOk (streamer [43, 97, 13, 10, 58, 49, 13, 10]), .connectDone []] .new = some c ∧
      Starts 0 c := ⟨_, rfl, rfl, ⟨_, _, rfl, Nat.zero_le _⟩, rfl, rfl, rfl, rfl, rfl⟩
  obtain ⟨c, hc, hstart⟩ := hstart
  have hrun : ((Async.Defs.run [.user (.call (.connect .tcp 0) .returns .returns),
      .connectOk (streamer [43, 97, 13, 10, 58, 49, 13, 10]), .connectDone []] .new).bind
      (Async.Defs.run (κ := ℕ)
        [.receive 1, .readDone [], .receive 3, .readDone [], .receive 99, .readDone []])).map
      (fun c' => decide (received 0 c' = [43, 97, 13, 10, 58, 49, 13, 10] ∧
        c'.socket.readsDone = [])) = some true := by decide +kernel
  rw [hc, Option.bind_some] at hrun
  obtain ⟨c', hc', hd⟩ := Option.map_eq_some_iff.mp hrun
  obtain ⟨hs, hdone⟩ := of_decide_eq_true hd
  refine ⟨c, c', hc, hc', ?_, ?_⟩
  · exact ((paths_agree (κ := ℕ) [43, 97, 13, 10, 58, 49, 13, 10]).1 _ _ 20 rfl rfl rfl rfl).2.2
      (by decide) (by decide)
  · exact ((paths_agree _).2 c c' _ 0 hstart (by decide) hc' hs).2 hdone

end RedisClient.Paths

import RedisClient.Async.Rules

/-! # A write in flight

`dataWrited` holds the buffers of the write that has been started last, until its completion handler
clears it. So a write is outstanding exactly while it holds something (`flight_run`), and in
particular it is then waiting or done (`Flight.inFlight`). -/

namespace RedisClient.Async.Writes

open RedisClient.Value RedisClient.Async.Asio RedisClient.Async.Defs RedisClient.Async.Rules
open RedisClient.Sync.Defs (ErrorCode)

variable {κ : Type} {c c' : RedisClientImpl κ}

/-! ### The write that is outstanding -/

/-- The writes whose completion handler has not begun. -/
def outstanding (s : Socket κ) : ℕ := s.writes.length + s.writesDone.length

section Socket

variable {s s' : Socket κ} {n : ℕ}

theorem outstanding_close (s : Socket κ) : outstanding s.close = outstanding s := by
  simp [outstanding, Socket.close, Nat.add_comm]

theorem outstanding_asyncWrite (data : Bytes) (s : Socket κ) :
    outstanding (s.asyncWrite data) = outstanding s + 1 := by
  unfold Socket.asyncWrite outstanding
  split
  · simp only [List.length_append, List.length_singleton]
    omega
  · simp only [List.length_append, List.length_singleton]
    omega

theorem mem_asyncWrite_writes {data left : Bytes} (h : left ∈ (s.asyncWrite data).writes) :
    left ∈ s.writes ∨ left = data := by
  unfold Socket.asyncWrite at h
  split at h
  · exact Or.inl h
  · rcases List.mem_append.mp h with h | h
    · exact Or.inl h
    · exact Or.inr (List.mem_singleton.mp h)

/-- The bytes that a write has yet to move get fewer at the front. -/
theorem outstanding_send (h : s.send n = some s') : outstanding s' = outstanding s ∧
    ∀ left ∈ s'.writes, ∃ left' ∈ s.writes, left <:+ left' := by
  unfold Socket.send at h
  split at h
  · next data writes peer sent taken hwrites hlink =>
    dsimp only at h
    unfold outstanding
    rw [hwrites]
    split_ifs at h <;> cases h
    · refine ⟨?_, fun left hleft => ⟨left, List.mem_cons_of_mem _ hleft, List.suffix_refl _⟩⟩
      simp only [List.length_append, List.length_cons, List.length_nil]
      omega
    · refine ⟨rfl, fun left hleft => ?_⟩
      rcases List.mem_cons.mp hleft with rfl | hleft
      · exact ⟨data, List.mem_cons_self, List.drop_suffix _ _⟩
      · exact ⟨left, List.mem_cons_of_mem _ hleft, List.suffix_refl _⟩
  · cases h

end Socket

/-- A write is outstanding exactly while `dataWrited` holds its buffers, and what it has yet to move
is an end of them. -/
structure Flight (c : RedisClientImpl κ) : Prop where
  one : outstanding c.socket = if c.dataWrited = [] then 0 else 1
  left : ∀ left ∈ c.socket.writes, left <:+ c.dataWrited.flatten

/-- A step of the socket that ends no write. -/
theorem Flight.moves {s : Socket κ} (h : Flight c) (hdata : c'.dataWrited = c.dataWrited)
    (hs : c'.socket = s) (hone : outstanding s = outstanding c.socket)
    (hleft : ∀ left ∈ s.writes, ∃ left' ∈ c.socket.writes, left <:+ left') : Flight c' where
  one := by
    rw [hs, hone, hdata]
    exact h.one
  left left hl := by
    rw [hs] at hl
    obtain ⟨left', hl', hsuf⟩ := hleft left hl
    rw [hdata]
    exact hsuf.trans (h.left left' hl')

theorem Flight.congr (h : Flight c) (hdata : c'.dataWrited = c.dataWrited)
    (hwrites : c'.socket.writes = c.socket.writes)
    (hwritesDone : c'.socket.writesDone = c.socket.writesDone) : Flight c' := by
  refine h.moves hdata rfl (by rw [outstanding, hwrites, hwritesDone, outstanding]) ?_
  rw [hwrites]
  exact fun left hl => ⟨left, hl, List.suffix_refl _⟩

theorem body_flight (call : Call κ) (h : Flight c) : Flight (call.body c).2.2 := by
  have hb := body_cases call c
  generalize call.body c = r at hb ⊢
  cases hb with
  | disconnect => exact h.moves rfl rfl (outstanding_close _) fun left hl => by cases hl
  | connect => exact h.congr rfl (by simp) (by simp)
  | connected | refused => exact h
  | posts => exact h.congr rfl rfl rfl

/-- Nothing is outstanding when a write is started. -/
theorem write_flight (h : Flight c) (hq : c.dataQueued ≠ []) (hd : c.dataWrited = []) :
    Flight { c with
      dataQueued := []
      dataWrited := c.dataQueued
      trace := c.trace ++ [.asyncWrite c.dataQueued.flatten]
      socket := c.socket.asyncWrite c.dataQueued.flatten } := by
  have hnone := h.one
  rw [if_pos hd] at hnone
  constructor
  · show outstanding (c.socket.asyncWrite c.dataQueued.flatten) = if c.dataQueued = [] then 0 else 1
    rw [outstanding_asyncWrite, hnone, if_neg hq]
  · intro left hl
    rcases mem_asyncWrite_writes hl with hl | rfl
    · have hlen := List.length_pos_of_mem hl
      unfold outstanding at hnone
      omega
    · exact List.suffix_refl _

/-- The write that is done was the only one. -/
theorem writeDone_flight {ec : ErrorCode} {writesDone : List ErrorCode} (h : Flight c)
    (hs : c.socket.writesDone = ec :: writesDone) :
    Flight { c with socket := { c.socket with writesDone := writesDone }, dataWrited := [] } := by
  have hone := h.one
  rw [outstanding, hs, List.length_cons] at hone
  have hle : (if c.dataWrited = [] then 0 else 1) ≤ 1 := by split_ifs <;> omega
  constructor
  · show c.socket.writes.length + writesDone.length = 0
    omega
  · intro left hl
    have hlen : 0 < c.socket.writes.length := List.length_pos_of_mem hl
    omega

theorem keeps_flight : KeepsLoop (κ := κ) (fun _ => True) fun c c' => Flight c → Flight c' where
  refl _ := id
  trans h h' := h' ∘ h
  log _ _ h := h.congr rfl rfl rfl
  body _ _ := body_flight _
  enqueue _ _ _ h := h.congr rfl rfl rfl
  write hq hd h := write_flight h hq hd
  pop _ h := h.congr rfl rfl rfl
  postSingleShot channel msg c h := by
    obtain ⟨ms, ss, hc⟩ := postSingleShot_posts channel msg c
    rw [hc]
    exact h.congr rfl rfl rfl
  postMessages channel msg c h := by
    obtain ⟨ms, hc⟩ := postMessages_posts channel msg c
    rw [hc]
    exact h.congr rfl rfl rfl
  redisParser _ _ h := h.congr rfl rfl rfl
  read c h := h.congr rfl (by simp [processMessage]) (by simp [processMessage])
  broken _ h := h.congr rfl rfl rfl
  strand _ h := h.congr rfl rfl rfl
  receive hs h := by
    obtain ⟨_, _, _, _, -, -, rfl⟩ := Socket.receive_cases hs
    exact h.congr rfl rfl rfl
  socket hs h := by
    rcases hs with ⟨e, hs⟩ | ⟨n, hs⟩ | ⟨e, hs⟩ | ⟨peer, hs⟩ | ⟨e, hs⟩
    · obtain ⟨_, -, rfl⟩ := Socket.readFail_cases hs
      exact h.congr rfl rfl rfl
    · obtain ⟨hone, hleft⟩ := outstanding_send hs
      exact h.moves rfl rfl hone hleft
    · obtain ⟨data, writes, hw, rfl⟩ := Socket.writeFail_cases hs
      refine h.moves rfl rfl ?_ fun left hl => ⟨left, ?_, List.suffix_refl _⟩
      · simp only [outstanding, hw, List.length_append, List.length_cons, List.length_nil]
        omega
      · rw [hw]
        exact List.mem_cons_of_mem _ hl
    · obtain ⟨_, _, -, -, rfl⟩ := Socket.connectOk_cases hs
      exact h.congr rfl rfl rfl
    · obtain ⟨_, _, -, rfl⟩ := Socket.connectFail_cases hs
      exact h.congr rfl rfl rfl
  readDone _ h := h.congr rfl rfl rfl
  writeDone hs h := writeDone_flight h hs
  connectDone _ h := h.congr rfl rfl rfl

theorem flight_run {es : List (Event κ)} (h : run es .new = some c) : Flight c :=
  keeps_flight.run (fun e _ => allIn_true e) h ⟨rfl, fun left hl => by cases hl⟩

/-- While `dataWrited` holds something, a write is waiting or done. -/
def InFlight (c : RedisClientImpl κ) : Prop :=
  c.dataWrited ≠ [] → c.socket.writes ≠ [] ∨ c.socket.writesDone ≠ []

theorem Flight.inFlight (h : Flight c) : InFlight c := by
  intro hd
  have hone := h.one
  rw [if_neg hd] at hone
  by_contra hnone
  obtain ⟨hw, hdone⟩ := not_or.mp hnone
  rw [outstanding, not_not.mp hw, not_not.mp hdone] at hone
  cases hone

end RedisClient.Async.Writes

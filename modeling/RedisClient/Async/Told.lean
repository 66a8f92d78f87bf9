import RedisClient.Async.Dialling

/-! # Every connect handler is told once

A connect handler is told at once when the client is not free to connect, and otherwise by the
completion of the connect, which a disconnect only hastens. So the handlers told and those whose
connects are under way are, up to their order, the handlers that `connect` has been called with: in
every run, whatever the user's code throws (`connects_once`). -/

namespace RedisClient.Async.Told

open RedisClient.Async.Asio RedisClient.Async.Defs RedisClient.Async.Rules RedisClient.Async.Trace
open RedisClient.Async.Moments
open RedisClient.Async.Dialling (silent)
open RedisClient.Sync.Defs (ErrorCode)

variable {κ : Type} {c c1 c' : RedisClientImpl κ}

/-! ### The handlers -/

def dialled? : Action κ → Option κ
  | .call _ (.connect _ handler) => some handler
  | _ => none

/-- The handlers that `connect` has been called with. -/
def dialled (t : List (Action κ)) : List κ := t.filterMap dialled?

def told? : Action κ → Option κ
  | .connect _ handler => some handler
  | _ => none

/-- The connect handlers that have been called. -/
def told (t : List (Action κ)) : List κ := t.filterMap told?

/-- The handlers of the connects that are done but not completed, and of those that are not done. -/
def underway (s : Socket κ) : List κ := s.connectsDone.map Prod.snd ++ s.connects

/-! ### The relation -/

/-- Those that were under way and those that `connect` is called with are told, or are under way. -/
def Tells (c : RedisClientImpl κ) (ms : List (Moment κ)) (c' : RedisClientImpl κ) : Prop :=
  (underway c.socket ++ dialled (ms.map Moment.action)).Perm
    (told (ms.map Moment.action) ++ underway c'.socket)

theorem dialled_append (t u : List (Action κ)) : dialled (t ++ u) = dialled t ++ dialled u :=
  List.filterMap_append

theorem told_append (t u : List (Action κ)) : told (t ++ u) = told t ++ told u :=
  List.filterMap_append

theorem Tells.append {ms ms' : List (Moment κ)} (h : Tells c ms c1) (h' : Tells c1 ms' c') :
    Tells c (ms ++ ms') c' := by
  unfold Tells at *
  rw [List.map_append, dialled_append, told_append]
  -- what is under way in between is told by the second part, or is still under way after it
  have h1 := h.append_right (dialled (ms'.map Moment.action))
  have h2 := h'.append_left (told (ms.map Moment.action))
  rw [List.append_assoc, List.append_assoc] at h1
  rw [List.append_assoc]
  exact h1.trans h2

/-- Nothing is recorded. -/
theorem Tells.quiet (h : underway c'.socket = underway c.socket) : Tells c [] c' := by
  unfold Tells
  rw [h]
  exact List.Perm.of_eq (List.append_nil _)

/-- An entry that is about no connect. -/
theorem Tells.one {m : Moment κ} (hd : dialled? m.action = none) (ht : told? m.action = none)
    (h : underway c'.socket = underway c.socket) : Tells c [m] c' := by
  unfold Tells
  rw [h]
  simp [dialled, told, hd, ht]

theorem underway_socket {s s' : Socket κ} (hconnects : s'.connects = s.connects)
    (hdone : s'.connectsDone = s.connectsDone) : underway s' = underway s := by
  unfold underway
  rw [hconnects, hdone]

/-- A disconnect aborts the connects that are not done, which are done then. -/
theorem underway_close (s : Socket κ) : underway s.close = underway s := by
  simp [underway, Socket.close]

theorem underway_asyncConnect (handler : κ) (s : Socket κ) :
    underway (s.asyncConnect handler) = underway s ++ [handler] := by
  unfold underway
  rw [Socket.asyncConnect_connects, Socket.asyncConnect_connectsDone, List.append_assoc]

/-- The first of the connects that are not done is done. -/
theorem underway_done {s : Socket κ} {link : Link} {ec : ErrorCode} {handler : κ}
    {connects : List κ} (h : s.connects = handler :: connects) :
    underway { s with
      link := link, connects := connects, connectsDone := s.connectsDone ++ [(ec, handler)] } =
        underway s := by
  unfold underway
  simp [h]

/-! ### What the client does -/

theorem accepted_tells {call : Call κ} {handle : Option Handle}
    (hb : call.body (c.log (.call c.state call)) = (none, handle, c')) :
    Tells c [⟨c, .call c.state call, .returns⟩] c' := by
  have h := body_cases call (c.log (.call c.state call))
  rw [hb] at h
  cases h with
  | disconnect => exact .one rfl rfl (underway_close c.socket)
  | connect endpoint handler p =>
    show (underway c.socket ++ [handler]).Perm ([] ++ underway (c.socket.asyncConnect handler))
    rw [underway_asyncConnect]
    exact List.Perm.refl _
  | posts buff handle handler ms ss seq state hcall =>
    refine .one ?_ rfl rfl
    cases call with
    | connect endpoint handler => exact absurd rfl (hcall endpoint handler)
    | _ => rfl

/-- A connect that does not go through tells its handler at once. -/
theorem refused_tells {call : Call κ} {action : Action κ} {handle : Option Handle} (s : Script κ)
    (hb : call.body (c.log (.call c.state call)) = (some action, handle, c')) :
    Tells c [⟨c, .call c.state call, .returns⟩, ⟨c', action, s⟩] (c'.log action) := by
  obtain ⟨rfl, hcall⟩ := body_told hb
  rcases hcall with ⟨endpoint, handler, rfl, rfl⟩ | ⟨hcall, text, rfl⟩
  · exact List.perm_append_comm
  · have hd : dialled? (.call c.state call) = none := by
      cases call with
      | connect endpoint handler => exact absurd rfl (hcall endpoint handler)
      | _ => rfl
    have hfirst : Tells c [⟨c, .call c.state call, .returns⟩] (c.log (.call c.state call)) :=
      .one hd rfl rfl
    exact hfirst.append (.one rfl rfl rfl)

theorem carriesCalls_tells : CarriesCalls (κ := κ) (fun _ => True) Tells where
  nil _ := .quiet rfl
  append := Tells.append
  entry a s c ha _ := by
    cases a with
    | returned | error => exact .one rfl rfl rfl
    | _ => exact ha.elim
  accepted hb _ := accepted_tells hb
  refused s hb _ _ := refused_tells s hb

theorem carries_tells : CarriesLoop (κ := κ) (fun _ => True) Tells where
  toCarriesCalls := carriesCalls_tells
  processed _ := .one rfl rfl rfl
  front v cbs _ hQ := carriesCalls_tells.callFront (fun _ => .one rfl rfl rfl)
    (fun _ => .quiet rfl) hQ
  postSingleShot channel msg c := by
    obtain ⟨ms, ss, hc⟩ := postSingleShot_posts channel msg c
    rw [hc]
    exact .quiet rfl
  postMessages channel msg c := by
    obtain ⟨ms, hc⟩ := postMessages_posts channel msg c
    rw [hc]
    exact .quiet rfl
  redisParser _ _ := .quiet rfl
  read c := .quiet (underway_socket (Socket.asyncReadSome_connects _)
    (Socket.asyncReadSome_connectsDone _))
  command _ hd _ := by
    subst hd
    exact .one rfl rfl rfl
  message _ _ hd _ := by
    subst hd
    exact .one rfl rfl rfl
  clear _ := .quiet rfl
  write _ _ hd _ := by
    subst hd
    exact .one rfl rfl (underway_socket (Socket.asyncWrite_connects _ _)
      (Socket.asyncWrite_connectsDone _ _))
  broken _ := .quiet rfl
  receive hs := by
    obtain ⟨reads, peer, sent, taken, -, -, rfl⟩ := Socket.receive_cases hs
    exact .quiet rfl
  socket hs := by
    rcases hs with ⟨e, hs⟩ | ⟨n, hs⟩ | ⟨e, hs⟩ | ⟨peer, hs⟩ | ⟨e, hs⟩
    · obtain ⟨reads, -, rfl⟩ := Socket.readFail_cases hs
      exact .quiet rfl
    · obtain ⟨data, rest, peer, sent, taken, -, -, writes, writesDone, -, rfl⟩ :=
        Socket.send_cases hs
      exact .quiet rfl
    · obtain ⟨data, writes, -, rfl⟩ := Socket.writeFail_cases hs
      exact .quiet rfl
    · obtain ⟨handler, connects, hw, -, rfl⟩ := Socket.connectOk_cases hs
      exact .quiet (underway_done hw)
    · obtain ⟨handler, connects, hw, rfl⟩ := Socket.connectFail_cases hs
      exact .quiet (underway_done hw)
  readDone _ := .quiet rfl
  writeDone _ := .quiet rfl
  connectDone s hs hd _ := by
    subst hd
    unfold Tells underway
    rw [hs]
    exact List.Perm.of_eq (List.append_nil _)

/-- **Every connect handler is called once**: those that have been called and those whose connects are
under way are those that `connect` has been called with, in every run. -/
theorem connects_once {es : List (Event κ)} (h : run es .new = some c) :
    (dialled c.trace).Perm (told c.trace ++ underway c.socket) := by
  have htrace : c.trace = (runMoments es .new).map Moment.action := runMoments_trace h
  rw [htrace]
  exact carries_tells.run (fun _ _ => trivial) h

/-! ### A run -/

/-- The client is connecting when it is told to connect a second time. It is disconnected before the
first connect is completed, and connects again. -/
def hasty : List (Event ℕ) :=
  [.user (.call (.connect .tcp 0) .returns (.call (.connect .localStream 1) .throws .returns)),
    .connectOk silent, .user (.call .disconnect .returns (.call (.connect .tcp 2) .returns .returns)),
    .connectDone [.throws]]

/-- The second handler is told first, and the third has not been told yet. -/
theorem connects_once_hasty : ∃ c, run hasty .new = some c ∧
    (dialled c.trace).Perm (told c.trace ++ underway c.socket) ∧
    dialled c.trace = [0, 1, 2] ∧ told c.trace = [1, 0] ∧ underway c.socket = [2] := by
  have hrun : (run hasty .new).map (fun c => (dialled c.trace, told c.trace, underway c.socket)) =
      some ([0, 1, 2], [1, 0], [2]) := by decide +kernel
  obtain ⟨c, hc, hlists⟩ := Option.map_eq_some_iff.mp hrun
  obtain ⟨hdialled, htold, hunderway⟩ : _ ∧ _ ∧ _ := by simpa using hlists
  exact ⟨c, hc, connects_once hc, hdialled, htold, hunderway⟩

end RedisClient.Async.Told

import RedisClient.Async.Disconnect
import RedisClient.Async.Moments

/-! # Connects and disconnects

What the state of a client should be, by the connects and disconnects in its trace (`attempts`): the
connect issued last is outstanding, or it has succeeded, or neither. A connect that is outstanding
when `disconnect` is called is abandoned, and its completion should have no effect.

The completion handlers do not know which connect they belong to, so the state is that
(`state_follows`) only in runs in which no connect is called while another one is outstanding, and no
disconnect while a success is queued (`Orderly`). -/

namespace RedisClient.Async.Dialling

open RedisClient.Value RedisClient.Parser.Defs RedisClient.Peers
open RedisClient.Async.Asio RedisClient.Async.Defs RedisClient.Async.Rules RedisClient.Async.Moments
open RedisClient.Async.Trace
open RedisClient.Async.Disconnect (Mild body_connect body_mild_socket)
open RedisClient.Sync.Defs (SysError ErrorCode ClientState)

variable {κ : Type} {c c' : RedisClientImpl κ}

/-! ### What the trace says -/

/-- The connects of a client: whether one has succeeded since the last disconnect; how many are
outstanding that were issued since then, and how many of those before; and whether the last entry is
a call of `connect` that issues nothing and only calls its handler. -/
structure Attempts where
  up : Bool
  live : ℕ
  abandoned : ℕ
  refused : Bool
  deriving DecidableEq

/-- One entry more. The completions come in the order in which the connects were issued. -/
def note (a : Attempts) : Action κ → Attempts
  | .call state (.connect _ _) =>
    if state = .unconnected ∨ state = .closed then { a with live := a.live + 1 }
    else { a with refused := true }
  | .call _ .disconnect => ⟨false, 0, a.abandoned + a.live, false⟩
  | .connect ec _ =>
    if a.refused then { a with refused := false }
    else if 0 < a.abandoned then { a with abandoned := a.abandoned - 1 }
    else { a with up := ec.isNone, live := a.live - 1 }
  | _ => a

/-- The connects in a trace. -/
def attempts (t : List (Action κ)) : Attempts := t.foldl note ⟨false, 0, 0, false⟩

@[simp] theorem attempts_concat (t : List (Action κ)) (a : Action κ) :
    attempts (t ++ [a]) = note (attempts t) a := by
  simp [attempts]

/-- **The state follows the latest connect or disconnect**: the client is connected if a connect has
succeeded since the last disconnect, and connecting while the one issued last is outstanding. -/
structure Follows (c : RedisClientImpl κ) : Prop where
  up : c.isConnected = (attempts c.trace).up
  connecting : c.state = .connecting ↔ 0 < (attempts c.trace).live
  one : (attempts c.trace).live ≤ 1

/-- The state is right after the entry, and if it is a connect handler that is told of a success, the
client is connected and its socket is open. -/
def Sound (m : Moment κ) : Prop :=
  Follows m.next ∧ ∀ handler, m.action = .connect none handler →
    m.client.isConnected = true ∧ m.client.socket.link ≠ .closed

/-- No connect is called while one is outstanding, be it one that has been abandoned, and no
disconnect while the success of one waits for its completion handler. -/
@[reducible] def Orderly (m : Moment κ) : Prop :=
  match m.action with
  | .call _ (.connect _ _) => m.client.isConnected = true ∨
      m.client.state ≠ .connecting ∧ m.client.socket.connectsDone = []
  | .call _ .disconnect => ∀ r ∈ m.client.socket.connectsDone, r.1 ≠ none
  | _ => True

instance : DecidablePred (Orderly : Moment κ → Prop) := fun m =>
  decidableActions (fun a => Orderly { m with action := a }) m.action

/-! ### Calls -/

/-- The client is neither connected nor connecting. -/
def Idling (state : ClientState) : Prop := state = .unconnected ∨ state = .closed

theorem body_connect_refused (endpoint : Endpoint) (handler : κ) (hc : ¬ Idling c.state) :
    (Call.connect endpoint handler).body c = (some (.connect none handler), none, c) := by
  have hclosed : ¬ c.state = .closed := fun h => hc (Or.inr h)
  cases endpoint with
  | tcp =>
    simp only [Call.body, connectTcp, if_neg hclosed]
    exact if_neg hc
  | localStream => exact if_neg hc

/-- The other calls change the state of a connected client at most. -/
theorem body_mild_state {call : Call κ} (hm : Mild call) (c : RedisClientImpl κ) :
    (call.body c).2.2.state = c.state ∨
      c.isConnected = true ∧ (call.body c).2.2.state = .subscribed := by
  have hb := body_cases call c
  generalize call.body c = r at hb ⊢
  cases hb with
  | disconnect | connect | connected => exact hm.elim
  | posts _ _ _ _ _ _ state _ hconn hstate =>
    rcases hstate with hstate | hstate
    · exact Or.inl hstate
    · exact Or.inr ⟨decide_eq_true hconn, hstate⟩
  | refused => exact Or.inl rfl

theorem note_mild {call : Call κ} (hm : Mild call) (state : ClientState) (a : Attempts) :
    note a (.call state call) = a := by
  cases call <;> first
    | rfl
    | exact hm.elim

/-- Only the calls of `connect` and `disconnect` and what a connect calls are noted. -/
def Unnoted : Action κ → Prop
  | .call _ _ | .connect _ _ => False
  | _ => True

theorem note_unnoted {a : Action κ} (ha : Unnoted a) (x : Attempts) : note x a = x := by
  cases a <;> first
    | rfl
    | exact ha.elim

/-! ### The invariant -/

/-- The state and the connects, in an orderly run. Those that are abandoned wait for their completion
handlers, and none of them has succeeded. -/
inductive Dialled (c : RedisClientImpl κ) : Prop
  | down (hs : Idling c.state) (hw : c.socket.connects = [])
      (hd : ∀ r ∈ c.socket.connectsDone, r.1 ≠ none)
      (ha : attempts c.trace = ⟨false, 0, c.socket.connectsDone.length, false⟩)
  | dialling (hs : c.state = .connecting)
      (hone : c.socket.connects.length + c.socket.connectsDone.length = 1)
      (hl : c.socket.link ≠ .closed) (ha : attempts c.trace = ⟨false, 1, 0, false⟩)
  | up (hs : c.isConnected = true) (hw : c.socket.connects = []) (hd : c.socket.connectsDone = [])
      (hl : c.socket.link ≠ .closed) (ha : attempts c.trace = ⟨true, 0, 0, false⟩)

theorem isConnected_of_idling (h : Idling c.state) : c.isConnected = false := by
  unfold RedisClientImpl.isConnected
  rcases h with h | h <;> rw [h] <;> rfl

theorem ne_connecting_of_idling (h : Idling c.state) : c.state ≠ .connecting := by
  rcases h with h | h <;> rw [h] <;> exact nofun

theorem ne_connecting_of_connected (h : c.isConnected = true) : c.state ≠ .connecting := by
  rcases of_decide_eq_true h with h | h <;> rw [h] <;> exact nofun

theorem not_idling_of_connected (h : c.isConnected = true) : ¬ Idling c.state := by
  intro hi
  rw [isConnected_of_idling hi] at h
  cases h

/-- The state follows, even right after the call of a connect that calls its handler only. -/
theorem Dialled.follows (h : Dialled c) (hs : c'.state = c.state)
    (ha : ∃ b, attempts c'.trace = { attempts c.trace with refused := b }) : Follows c' := by
  obtain ⟨b, hb⟩ := ha
  have hconn : c'.isConnected = c.isConnected := by
    unfold RedisClientImpl.isConnected
    rw [hs]
  cases h with
  | down hst hw hd ha =>
    rw [ha] at hb
    refine ⟨?_, ?_, ?_⟩
    · rw [hconn, isConnected_of_idling hst, hb]
    · rw [hs, hb]
      exact ⟨fun h => absurd h (ne_connecting_of_idling hst), fun h => absurd h (Nat.lt_irrefl 0)⟩
    · rw [hb]
      exact Nat.zero_le 1
  | dialling hst hone hl ha =>
    rw [ha] at hb
    refine ⟨?_, ?_, ?_⟩
    · rw [hconn, hb]
      unfold RedisClientImpl.isConnected
      rw [hst]
      rfl
    · rw [hs, hb]
      exact ⟨fun _ => Nat.one_pos, fun _ => hst⟩
    · rw [hb]
  | up hst hw hd hl ha =>
    rw [ha] at hb
    refine ⟨?_, ?_, ?_⟩
    · rw [hconn, hst, hb]
    · rw [hs, hb]
      exact ⟨fun h => absurd h (ne_connecting_of_connected hst), fun h => absurd h (Nat.lt_irrefl 0)⟩
    · rw [hb]
      exact Nat.zero_le 1

theorem Dialled.follows_self (h : Dialled c) : Follows c := h.follows rfl ⟨_, rfl⟩

/-- Nothing has changed that the invariant is about. -/
theorem Dialled.congr (h : Dialled c) (hs : c'.state = c.state)
    (hw : c'.socket.connects = c.socket.connects)
    (hd : c'.socket.connectsDone = c.socket.connectsDone)
    (hl : c.socket.link ≠ .closed → c'.socket.link ≠ .closed)
    (ha : attempts c'.trace = attempts c.trace) : Dialled c' := by
  cases h with
  | down h1 h2 h3 h4 =>
    refine .down (by rwa [hs]) (hw.trans h2) (by rwa [hd]) ?_
    rw [ha, hd]
    exact h4
  | dialling h1 h2 h3 h4 => exact .dialling (hs.trans h1) (by rwa [hw, hd]) (hl h3) (ha.trans h4)
  | up h1 h2 h3 h4 h5 =>
    refine .up ?_ (hw.trans h2) (hd.trans h3) (hl h4) (ha.trans h5)
    unfold RedisClientImpl.isConnected at h1 ⊢
    rwa [hs]

/-- After an entry that is not the success of a connect the invariant is enough. -/
theorem Dialled.sound {m : Moment κ} (h : Dialled m.next)
    (ha : ∀ handler, m.action ≠ .connect none handler) : Sound m :=
  ⟨h.follows_self, fun handler hm => absurd hm (ha handler)⟩

/-- The operation of the connect that is outstanding is done. -/
theorem Dialled.completes {handler : κ} {connects : List κ} {link : Link} (hc : Dialled c)
    (ec : ErrorCode) (hw : c.socket.connects = handler :: connects)
    (hl : c.socket.link ≠ .closed → link ≠ .closed) :
    Dialled { c with socket := { c.socket with
      link := link
      connects := connects
      connectsDone := c.socket.connectsDone ++ [(ec, handler)] } } := by
  cases hc with
  | down h1 h2 =>
    rw [hw] at h2
    cases h2
  | dialling h1 h2 h3 h4 =>
    refine .dialling h1 ?_ (hl h3) h4
    rw [hw, List.length_cons] at h2
    show connects.length + (c.socket.connectsDone ++ [(ec, handler)]).length = 1
    rw [List.length_append, List.length_singleton]
    omega
  | up h1 h2 =>
    rw [hw] at h2
    cases h2

/-- The relation that is carried: the invariant is kept, and all is well at the moments. -/
def Keeping (c : RedisClientImpl κ) (ms : List (Moment κ)) (c' : RedisClientImpl κ) : Prop :=
  Dialled c → Dialled c' ∧ ∀ m ∈ ms, Sound m

theorem Keeping.quiet (h : Dialled c → Dialled c') : Keeping c [] c' :=
  fun hc => ⟨h hc, fun _ hm => by cases hm⟩

/-- A call that neither connects nor disconnects. -/
theorem Dialled.mild {call : Call κ} (hc : Dialled c) (hm : Mild call) :
    Dialled (call.body (c.log (.call c.state call))).2.2 := by
  set c' := (call.body (c.log (.call c.state call))).2.2 with hc'
  have hsock : c'.socket = c.socket := body_mild_socket hm (c.log (.call c.state call))
  have hnote : attempts c'.trace = attempts c.trace := by
    rw [hc', body_trace]
    exact (attempts_concat _ _).trans (note_mild hm _ _)
  rcases body_mild_state hm (c.log (.call c.state call)) with hst | ⟨hconn, hst⟩
  · exact hc.congr hst (by rw [hsock]) (by rw [hsock]) (by rw [hsock]; exact id) hnote
  · change c.isConnected = true at hconn
    cases hc with
    | down h1 => exact absurd h1 (not_idling_of_connected hconn)
    | dialling h1 => exact absurd h1 (ne_connecting_of_connected hconn)
    | up h1 h2 h3 h4 h5 =>
      refine .up ?_ (by rw [hsock, h2]) (by rw [hsock, h3]) (by rwa [hsock]) (hnote.trans h5)
      unfold RedisClientImpl.isConnected
      rw [hst]
      rfl

/-- A connect that is issued. -/
theorem Dialled.connect (hc : Dialled c) (hi : Idling c.state) (endpoint : Endpoint) (handler : κ)
    (hnone : c.socket.connectsDone = []) :
    Dialled ((Call.connect endpoint handler).body
      (c.log (.call c.state (.connect endpoint handler)))).2.2 := by
  rw [body_connect (c := c.log (.call c.state (.connect endpoint handler))) endpoint handler hi.symm]
  cases hc with
  | down h1 h2 h3 h4 =>
    refine .dialling rfl ?_ (Socket.asyncConnect_open _ _) ?_
    · show (c.socket.asyncConnect handler).connects.length +
        (c.socket.asyncConnect handler).connectsDone.length = 1
      rw [Socket.asyncConnect_connects, Socket.asyncConnect_connectsDone, h2, hnone]
      rfl
    · refine (attempts_concat _ _).trans ?_
      rw [h4, hnone]
      exact if_pos hi
  | dialling h1 => exact absurd h1 (ne_connecting_of_idling hi)
  | up h1 => exact absurd hi (not_idling_of_connected h1)

/-- A disconnect: what is outstanding is abandoned. -/
theorem Dialled.disconnect (hc : Dialled c) (hfailed : ∀ r ∈ c.socket.connectsDone, r.1 ≠ none) :
    Dialled (c.log (.call c.state .disconnect)).close := by
  have hdone : (c.socket.close.connectsDone).length =
      c.socket.connects.length + c.socket.connectsDone.length := by
    simp only [Socket.close, List.length_append, List.length_map]
    omega
  refine .down (Or.inr rfl) rfl (fun r hr => ?_) ?_
  · rcases List.mem_append.mp hr with hr | hr
    · exact hfailed r hr
    · obtain ⟨h, -, rfl⟩ := List.mem_map.mp hr
      exact Option.some_ne_none _
  · refine (attempts_concat _ _).trans ?_
    show _ = Attempts.mk false 0 c.socket.close.connectsDone.length false
    rw [hdone]
    cases hc with
    | down h1 h2 h3 h4 => rw [h4, h2]; simp [note]
    | dialling h1 h2 h3 h4 => rw [h4, h2]; rfl
    | up h1 h2 h3 h4 h5 => rw [h5, h2, h3]; rfl

/-- A call that goes through. -/
theorem accepted_keeping {call : Call κ} {handle : Option Handle}
    (hb : call.body (c.log (.call c.state call)) = (none, handle, c'))
    (hQ : Orderly ⟨c, .call c.state call, .returns⟩) :
    Keeping c [⟨c, .call c.state call, .returns⟩] c' := by
  intro hc
  have hnext : (Moment.mk c (.call c.state call) .returns).next = c' :=
    show (call.body (c.log (.call c.state call))).2.2 = c' by rw [hb]
  have hc' : Dialled (call.body (c.log (.call c.state call))).2.2 := by
    by_cases hm : Mild call
    · exact hc.mild hm
    · cases call with
      | connect endpoint handler =>
        by_cases hi : Idling c.state
        · rcases hQ with h | ⟨-, h⟩
          · exact absurd hi (not_idling_of_connected h)
          · exact hc.connect hi endpoint handler h
        · rw [body_connect_refused (c := c.log (.call c.state (.connect endpoint handler)))
            endpoint handler hi] at hb
          cases hb
      | disconnect => exact hc.disconnect hQ
      | _ => exact absurd trivial hm
  rw [hb] at hc'
  exact ⟨hc', List.forall_mem_singleton.mpr (Dialled.sound (hnext.symm ▸ hc') fun _ => nofun)⟩

/-- A call that does not go through. -/
theorem refused_keeping {call : Call κ} {action : Action κ} {handle : Option Handle}
    (s : Script κ) (hb : call.body (c.log (.call c.state call)) = (some action, handle, c'))
    (hQ : Orderly ⟨c, .call c.state call, .returns⟩) :
    Keeping c [⟨c, .call c.state call, .returns⟩, ⟨c', action, s⟩] (c'.log action) := by
  intro hc
  have hnext : (Moment.mk c (.call c.state call) .returns).next = c' :=
    show (call.body (c.log (.call c.state call))).2.2 = c' by rw [hb]
  have hnext' : (Moment.mk c' action s).next = c'.log action := next_of_body hb s
  obtain ⟨rfl, ⟨endpoint, handler, rfl, rfl⟩ | ⟨hcall, text, rfl⟩⟩ := body_told hb
  · -- the handler of a connect is called, in a connected client
    have hi : ¬ Idling c.state := by
      intro hi
      rw [body_connect (c := c.log (.call c.state (.connect endpoint handler))) endpoint handler
        hi.symm] at hb
      cases hb
    have hup : c.isConnected = true ∧ c.socket.link ≠ .closed := by
      cases hc with
      | down h1 => exact absurd h1 hi
      | dialling h1 =>
        rcases hQ with h | ⟨hne, -⟩
        · exact absurd h1 (ne_connecting_of_connected h)
        · exact absurd h1 hne
      | up h1 h2 h3 h4 => exact ⟨h1, h4⟩
    set d := c.log (.call c.state (.connect endpoint handler)) with hd
    have hnote : attempts d.trace = { attempts c.trace with refused := true } :=
      (attempts_concat _ _).trans (if_neg hi)
    have hnote' : attempts (d.log (.connect none handler)).trace =
        { attempts c.trace with refused := false } := by
      refine (attempts_concat _ _).trans ?_
      rw [hnote]
      rfl
    have hsame : attempts (d.log (.connect none handler)).trace = attempts c.trace := by
      rw [hnote']
      cases hc with
      | down h1 h2 h3 h4 => rw [h4]
      | dialling h1 h2 h3 h4 => rw [h4]
      | up h1 h2 h3 h4 h5 => rw [h5]
    refine ⟨hc.congr rfl rfl rfl id hsame,
      List.forall_mem_cons.mpr ⟨⟨?_, fun _ => nofun⟩, List.forall_mem_singleton.mpr ⟨?_, fun _ _ => hup⟩⟩⟩
    · rw [hnext]
      exact hc.follows rfl ⟨true, hnote⟩
    · rw [hnext']
      exact hc.follows rfl ⟨false, hnote'⟩
  · -- the error handler is told
    have hm : note (attempts c.trace) (.call c.state call) = attempts c.trace := by
      cases call with
      | connect endpoint handler => exact absurd rfl (hcall endpoint handler)
      | disconnect => cases hb
      | _ => rfl
    have hc1 : Dialled (c.log (.call c.state call)) :=
      hc.congr rfl rfl rfl id ((attempts_concat _ _).trans hm)
    have hc2 : Dialled ((c.log (.call c.state call)).log (.error (.text text))) :=
      hc1.congr rfl rfl rfl id (attempts_concat _ _)
    exact ⟨hc2, List.forall_mem_cons.mpr ⟨Dialled.sound (hnext.symm ▸ hc1) fun _ => nofun,
      List.forall_mem_singleton.mpr (Dialled.sound (hnext'.symm ▸ hc2) fun _ => nofun)⟩⟩

/-- The completion handler of a connect. -/
theorem connectDone_keeping {ec : ErrorCode} {handler : κ} {connectsDone : List (ErrorCode × κ)}
    {d : RedisClientImpl κ} (s : Script κ)
    (hs : c.socket.connectsDone = (ec, handler) :: connectsDone)
    (hd : d = { c with
      socket := { c.socket with connectsDone := connectsDone }
      state := if ec.isNone then .connected else .unconnected }) :
    Keeping c [⟨d, .connect ec handler, s⟩] (d.log (.connect ec handler)) := by
  intro hc
  have hnote : attempts (d.log (.connect ec handler)).trace =
      note (attempts c.trace) (.connect ec handler) := by
    rw [hd]
    exact attempts_concat _ _
  have key : Dialled (d.log (.connect ec handler)) → (ec = none → c.socket.link ≠ .closed) →
      Dialled (d.log (.connect ec handler)) ∧ ∀ m ∈ [⟨d, .connect ec handler, s⟩], Sound m := by
    intro hd' hopen
    refine ⟨hd', List.forall_mem_singleton.mpr ⟨hd'.follows_self, fun handler' h => ?_⟩⟩
    cases h
    subst hd
    exact ⟨rfl, hopen rfl⟩
  cases hc with
  | down h1 h2 h3 h4 =>
    rw [hs] at h3 h4
    have hec : ec ≠ none := h3 _ List.mem_cons_self
    obtain ⟨e, rfl⟩ := Option.ne_none_iff_exists'.mp hec
    refine key (.down (Or.inl ?_) ?_ ?_ ?_) fun h => by cases h
    · rw [hd]
      rfl
    · rw [hd]
      exact h2
    · rw [hd]
      exact fun r hr => h3 r (List.mem_cons_of_mem _ hr)
    · rw [hnote, h4, hd]
      simp [note, RedisClientImpl.log]
  | dialling h1 h2 h3 h4 =>
    rw [hs, List.length_cons] at h2
    have hw : c.socket.connects = [] := List.eq_nil_of_length_eq_zero (by omega)
    have hrest : connectsDone = [] := List.eq_nil_of_length_eq_zero (by omega)
    subst hrest
    rw [h4] at hnote
    cases ec with
    | none =>
      refine key (.up ?_ ?_ ?_ ?_ hnote) fun _ => h3
      · rw [hd]
        rfl
      · rw [hd]
        exact hw
      · rw [hd]
        rfl
      · rw [hd]
        exact h3
    | some e =>
      refine key (.down (Or.inl ?_) ?_ ?_ ?_) fun h => by cases h
      · rw [hd]
        rfl
      · rw [hd]
        exact hw
      · rw [hd]
        exact fun r hr => by cases hr
      · rw [hnote, hd]
        rfl
  | up h1 h2 h3 =>
    rw [h3] at hs
    cases hs

/-! ### Steps and runs -/

/-- An entry that is not noted. -/
theorem entry_keeping (a : Action κ) (s : Script κ) (c : RedisClientImpl κ) (ha : Unnoted a) :
    Keeping c [⟨c, a, s⟩] (c.log a) := by
  intro hc
  have hc' : Dialled (c.log a) :=
    hc.congr rfl rfl rfl id ((attempts_concat _ _).trans (note_unnoted ha _))
  refine ⟨hc', List.forall_mem_singleton.mpr ?_⟩
  cases a <;> first
    | exact ha.elim
    | exact Dialled.sound hc' fun _ => nofun

theorem Keeping.append {ms ms' : List (Moment κ)} {c1 : RedisClientImpl κ} (h1 : Keeping c ms c1)
    (h2 : Keeping c1 ms' c') : Keeping c (ms ++ ms') c' := by
  intro hc
  obtain ⟨hc1, hms⟩ := h1 hc
  obtain ⟨hc', hms'⟩ := h2 hc1
  refine ⟨hc', fun m hm => ?_⟩
  rcases List.mem_append.mp hm with hm | hm
  · exact hms m hm
  · exact hms' m hm

/-- Something is done before an entry, and something after it. -/
theorem Keeping.around {m : Moment κ} {d d' : RedisClientImpl κ} (h1 : Keeping c [] d)
    (h2 : Keeping d [m] d') (h3 : Keeping d' [] c') : Keeping c [m] c' := (h1.append h2).append h3

theorem carriesCalls_keeping : CarriesCalls (κ := κ) Orderly Keeping where
  nil c := Keeping.quiet id
  append := Keeping.append
  entry a s c ha _ := entry_keeping a s c (by cases a <;> trivial)
  accepted := accepted_keeping
  refused s hb hQ _ := refused_keeping s hb hQ

theorem carries_keeping : CarriesLoop (κ := κ) Orderly Keeping where
  toCarriesCalls := carriesCalls_keeping
  processed _ := entry_keeping _ _ _ trivial
  command {buff handler strand c d} _ hd _ := by
    have h1 := entry_keeping (.doAsyncCommand buff handler) .returns d trivial
    have h0 : Keeping c [] d := .quiet fun hc => by
      subst hd
      exact hc.congr rfl rfl rfl id rfl
    exact h0.around h1 (.quiet fun hc => hc.congr rfl rfl rfl id rfl)
  message {msgHandler msg strand c d} s _ hd _ := by
    have h1 := entry_keeping (.message msgHandler msg) s d trivial
    have h0 : Keeping c [] d := .quiet fun hc => by
      subst hd
      exact hc.congr rfl rfl rfl id rfl
    exact h0.append h1
  clear c := Keeping.quiet fun hc => hc.congr rfl rfl rfl id rfl
  write {data c d} _ _ hd _ := by
    have h1 := entry_keeping (.asyncWrite data) .returns d trivial
    have h0 : Keeping c [] d := .quiet fun hc => by
      subst hd
      exact hc.congr rfl rfl rfl id rfl
    refine h0.around h1 (.quiet fun hc => ?_)
    have hlink : (d.socket.asyncWrite data).link = d.socket.link := Socket.asyncWrite_link _ _
    exact hc.congr rfl (Socket.asyncWrite_connects data d.socket)
      (Socket.asyncWrite_connectsDone data d.socket) (fun h hcl => h (hlink.symm.trans hcl)) rfl
  front v cbs _ hQ := carriesCalls_keeping.callFront (fun _ => entry_keeping _ _ _ trivial)
    (fun _ => Keeping.quiet fun hc => hc.congr rfl rfl rfl id rfl) hQ
  postSingleShot channel msg c := Keeping.quiet fun hc => by
    obtain ⟨ms, ss, h⟩ := postSingleShot_posts channel msg c
    rw [h]
    exact hc.congr rfl rfl rfl id rfl
  postMessages channel msg c := Keeping.quiet fun hc => by
    obtain ⟨ms, h⟩ := postMessages_posts channel msg c
    rw [h]
    exact hc.congr rfl rfl rfl id rfl
  redisParser _ c := Keeping.quiet fun hc => hc.congr rfl rfl rfl id rfl
  read c := Keeping.quiet fun hc => hc.congr rfl (Socket.asyncReadSome_connects c.socket)
    (Socket.asyncReadSome_connectsDone c.socket)
    (fun h => by rwa [← Socket.asyncReadSome_link c.socket] at h) rfl
  broken c := Keeping.quiet fun hc => hc.congr rfl rfl rfl id rfl
  receive := by
    intro n data buf socket c hs
    refine Keeping.quiet fun hc => ?_
    obtain ⟨reads, peer, sent, taken, -, -, rfl⟩ := Socket.receive_cases hs
    exact hc.congr rfl rfl rfl (fun _ => nofun) rfl
  socket := by
    intro s c hs
    refine Keeping.quiet fun hc => ?_
    rcases hs with ⟨e, hs⟩ | ⟨n, hs⟩ | ⟨e, hs⟩ | ⟨peer, hs⟩ | ⟨e, hs⟩
    · obtain ⟨reads, -, rfl⟩ := Socket.readFail_cases hs
      exact hc.congr rfl rfl rfl id rfl
    · obtain ⟨data, rest, peer, sent, taken, -, -, writes, writesDone, -, rfl⟩ :=
        Socket.send_cases hs
      exact hc.congr rfl rfl rfl (fun _ => nofun) rfl
    · obtain ⟨data, writes, -, rfl⟩ := Socket.writeFail_cases hs
      exact hc.congr rfl rfl rfl id rfl
    · obtain ⟨handler, connects, hw, -, rfl⟩ := Socket.connectOk_cases hs
      exact hc.completes none hw fun _ => nofun
    · obtain ⟨handler, connects, hw, rfl⟩ := Socket.connectFail_cases hs
      exact hc.completes (some e) hw id
  readDone _ := Keeping.quiet fun hc => hc.congr rfl rfl rfl id rfl
  writeDone _ := Keeping.quiet fun hc => hc.congr rfl rfl rfl id rfl
  connectDone s hs hd _ := connectDone_keeping s hs hd

/-- **The state follows the latest connect or disconnect** in every orderly run of a new client: after
each entry of the trace and in the end; and a connect handler is told of a success only in a connected
client with an open socket. -/
theorem state_follows {es : List (Event κ)} (hrun : run es .new = some c)
    (hes : ∀ m ∈ runMoments es .new, Orderly m) :
    (∀ m ∈ runMoments es .new, Sound m) ∧ Follows c := by
  have hnew : Dialled (RedisClientImpl.new : RedisClientImpl κ) :=
    .down (Or.inl rfl) rfl (fun r hr => by cases hr) rfl
  obtain ⟨hc, hms⟩ := carries_keeping.run hes hrun hnew
  exact ⟨hms, hc.follows_self⟩

/-! ### Runs -/

/-- A peer that writes nothing. -/
def silent : Peer := ⟨fun _ => [], fun _ _ => List.prefix_refl []⟩

/-- The handler of a connect subscribes; later the client disconnects and connects again, which
fails. -/
def orderlyRun : List (Event ℕ) :=
  [.user (.call (.connect .tcp 0) .returns .returns), .connectOk silent,
    .connectDone [.call (.subscribe [65] 1 none) .returns .returns],
    .user (.call .disconnect .returns (.call (.connect .tcp 2) .returns .returns)),
    .connectFail (.system 111), .connectDone [.throws]]

theorem state_follows_orderly : ∃ c, run orderlyRun .new = some c ∧
    (∀ m ∈ runMoments orderlyRun .new, Sound m) ∧ Follows c := by
  have hsome : (run orderlyRun .new).isSome := by decide +kernel
  obtain ⟨c, hc⟩ := Option.isSome_iff_exists.mp hsome
  exact ⟨c, hc, state_follows hc (by decide +kernel)⟩

/-- **Late completions.** A connect that is called while one is outstanding tells its handler of a
success although the client is not connected; a success that is queued when `disconnect` is called
connects the client; and the completion of a connect that has been abandoned ends the next one. -/
theorem late_completions :
    (∃ m ∈ runMoments (κ := ℕ) [.user (.call (.connect .tcp 0) .returns .returns),
        .user (.call (.connect .tcp 1) .returns .returns)] .new,
      m.action = .connect none 1 ∧ m.client.isConnected = false) ∧
    (∃ c, run (κ := ℕ) [.user (.call (.connect .tcp 0) .returns .returns), .connectOk silent,
        .user (.call .disconnect .returns .returns), .connectDone []] .new = some c ∧
      c.isConnected = true ∧ (attempts c.trace).up = false) ∧
    ∃ c, run (κ := ℕ) [.user (.call (.connect .tcp 0) .returns .returns),
        .user (.call .disconnect .returns (.call (.connect .tcp 1) .returns .returns)),
        .connectDone []] .new = some c ∧
      c.state = .unconnected ∧ (attempts c.trace).live = 1 :=
  ⟨by decide +kernel, ⟨_, rfl, rfl, rfl⟩, ⟨_, rfl, rfl, rfl⟩⟩

end RedisClient.Async.Dialling

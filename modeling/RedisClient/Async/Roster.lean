import RedisClient.Async.Moments
import RedisClient.Async.Reconnect
import Mathlib.Data.Finset.Insert
import Mathlib.Data.Finset.Erase

/-! # Handlers and subscriptions

A client registers message handlers, and the server keeps a set of channels and one of patterns for
the connection. Both change with the calls that subscribe and unsubscribe (`Change`): a call of
`unsubscribe` takes one handler from the client, but it takes the whole channel from the server.

So the server is still subscribed for every handler that is left if and only if the handlers that a
last `unsubscribe` leaves on its channel are unsubscribed too (`alive_iff_released`). For a client in
a run with these calls this is `subscriptions_alive_iff`. -/

namespace RedisClient.Async.Roster

open RedisClient.Value RedisClient.Parser.Defs RedisClient.Parser.RoundTrip RedisClient.Commands
open RedisClient.Peers RedisClient.Async.Asio RedisClient.Async.Defs RedisClient.Async.Rules
open RedisClient.Async.Trace RedisClient.Async.Calls RedisClient.Async.Session
open RedisClient.Async.Moments RedisClient.Async.Runs RedisClient.Async.OwnReplies
open RedisClient.Async.Reconnect
open RedisClient.Sync.Defs (ErrorCode ClientState)

variable {κ : Type}

/-! ### The server -/

/-- A subscription is to a channel or to a pattern. -/
inductive Kind where
  | channel | pattern
  deriving DecidableEq

/-- What the server keeps for a connection. -/
abbrev Subscriptions := Finset (Kind × Bytes)

/-- The server processes a command. Those that the client sends name one channel or pattern. -/
def heed (s : Subscriptions) : List Bytes → Subscriptions
  | [word, name] =>
    if word = subscribeStr then insert (.channel, name) s
    else if word = psubscribeStr then insert (.pattern, name) s
    else if word = unsubscribeStr then s.erase (.channel, name)
    else if word = punsubscribeStr then s.erase (.pattern, name)
    else s
  | _ => s

/-- The subscriptions of a connection on which these commands have been processed. -/
def subscriptions (commands : List (List Bytes)) : Subscriptions := commands.foldl heed ∅

/-! ### Changes -/

/-- What a call does to the handlers and to the subscriptions. -/
inductive Change (κ : Type) where
  | add (kind : Kind) (channel : Bytes) (msgHandler : κ)
  | remove (kind : Kind) (handle : Handle)

def change : Call κ → Option (Change κ)
  | .subscribe channel msgHandler _ => some (.add .channel channel msgHandler)
  | .psubscribe pattern msgHandler _ => some (.add .pattern pattern msgHandler)
  | .unsubscribe handle => some (.remove .channel handle)
  | .punsubscribe handle => some (.remove .pattern handle)
  | _ => none

def changes? : Action κ → Option (Change κ)
  | .call state c => if accepted state c then change c else none
  | _ => none

/-- The changes in a trace. -/
def changes (t : List (Action κ)) : List (Change κ) := t.filterMap changes?

/-- The handlers registered, with the kind of each, and the number that the next one gets. -/
structure Registry (κ : Type) where
  seq : ℕ
  entries : List (Kind × MsgHandler κ)

def Registry.apply (r : Registry κ) : Change κ → Registry κ
  | .add kind channel msgHandler =>
    ⟨r.seq + 1, r.entries ++ [(kind, ⟨channel, r.seq, msgHandler⟩)]⟩
  | .remove _ handle => { r with
      entries := r.entries.filter fun e => ¬ (e.2.channel = handle.channel ∧ e.2.id = handle.id) }

/-- The handlers registered after these changes. -/
def roster (seq : ℕ) (cs : List (Change κ)) : Registry κ := cs.foldl Registry.apply ⟨seq, []⟩

def serve (s : Subscriptions) : Change κ → Subscriptions
  | .add kind channel _ => insert (kind, channel) s
  | .remove kind handle => s.erase (kind, handle.channel)

/-- The subscriptions after these changes. -/
def served (cs : List (Change κ)) : Subscriptions := cs.foldl serve ∅

/-- The server is subscribed for every handler that is registered. -/
def Alive (seq : ℕ) (cs : List (Change κ)) (s : Subscriptions) : Prop :=
  ∀ e ∈ (roster seq cs).entries, (e.1, e.2.channel) ∈ s

/-- If a channel is unsubscribed and not subscribed to again, the handlers that were registered for it
are all unsubscribed, by that call or later. The same for patterns. -/
def Released (seq : ℕ) (cs : List (Change κ)) : Prop :=
  ∀ cs1 kind handle cs2, cs = cs1 ++ .remove kind handle :: cs2 →
    (∀ msgHandler, .add kind handle.channel msgHandler ∉ cs2) →
    ∀ e ∈ (roster seq cs1).entries, e.1 = kind → e.2.channel = handle.channel →
      e.2.id = handle.id ∨ ∃ kind', .remove kind' ⟨e.2.id, e.2.channel⟩ ∈ cs2

section append

variable (seq : ℕ) (cs : List (Change κ)) (x : Change κ)

@[simp] theorem changes_append (t u : List (Action κ)) :
    changes (t ++ u) = changes t ++ changes u := List.filterMap_append

@[simp] theorem roster_concat : roster seq (cs ++ [x]) = (roster seq cs).apply x := by
  simp [roster]

@[simp] theorem served_concat : served (cs ++ [x]) = serve (served cs) x := by
  simp [served]

end append

/-! ### Handlers and channels -/

/-- A handler that has its number stays until it is removed. -/
theorem mem_foldl_apply {e : Kind × MsgHandler κ} : ∀ (ds : List (Change κ)) {r : Registry κ},
    e.2.id < r.seq → (e ∈ (ds.foldl Registry.apply r).entries ↔
      e ∈ r.entries ∧ ∀ kind, .remove kind ⟨e.2.id, e.2.channel⟩ ∉ ds)
  | [], r, _ => by simp
  | .add kind channel m :: ds, r, hlt => by
    have hne : e ≠ (kind, ⟨channel, r.seq, m⟩) := by
      rintro rfl
      exact Nat.lt_irrefl _ hlt
    rw [List.foldl_cons, mem_foldl_apply ds (Nat.lt_succ_of_lt hlt)]
    simp [Registry.apply, hne]
  | .remove kind handle :: ds, r, hlt => by
    have hlt' : e.2.id < (r.apply (.remove kind handle)).seq := hlt
    have hhandle : handle = ⟨e.2.id, e.2.channel⟩ ↔
        e.2.channel = handle.channel ∧ e.2.id = handle.id := by
      rcases handle with ⟨id, channel⟩
      simp only [Handle.mk.injEq]
      exact ⟨fun h => ⟨h.2.symm, h.1.symm⟩, fun h => ⟨h.2.symm, h.1.symm⟩⟩
    rw [List.foldl_cons, mem_foldl_apply ds hlt']
    constructor
    · rintro ⟨hmem, hds⟩
      obtain ⟨hr, hnot⟩ := List.mem_filter.mp hmem
      refine ⟨hr, fun kind' hin => ?_⟩
      rcases List.mem_cons.mp hin with heq | hin
      · cases heq
        simp at hnot
      · exact hds kind' hin
    · rintro ⟨hr, hds⟩
      refine ⟨List.mem_filter.mpr ⟨hr, decide_eq_true fun h => ?_⟩, fun kind' hin => ?_⟩
      · exact hds kind (by rw [hhandle.mpr h]; exact List.mem_cons_self)
      · exact hds kind' (List.mem_cons_of_mem _ hin)

/-- The numbers of the handlers have been given. -/
theorem id_lt_seq (seq : ℕ) (cs : List (Change κ)) :
    ∀ e ∈ (roster seq cs).entries, e.2.id < (roster seq cs).seq := by
  induction cs using List.reverseRecOn with
  | nil => exact fun e he => by cases he
  | append_singleton cs x ih =>
    intro e he
    rw [roster_concat] at he ⊢
    cases x with
    | add kind channel m =>
      rcases List.mem_append.mp he with he | he
      · exact Nat.lt_succ_of_lt (ih e he)
      · rw [List.mem_singleton.mp he]
        exact Nat.lt_succ_self _
    | remove kind handle => exact ih e (List.mem_filter.mp he).1

/-- A channel that is not subscribed to is not, until it is again. -/
theorem notMem_foldl_serve {kind : Kind} {channel : Bytes} : ∀ (ds : List (Change κ))
    {s : Subscriptions}, (kind, channel) ∉ s → (∀ m, .add kind channel m ∉ ds) →
    (kind, channel) ∉ ds.foldl serve s
  | [], _, hs, _ => hs
  | x :: ds, s, hs, hds => by
    refine notMem_foldl_serve ds ?_ fun m hm => hds m (List.mem_cons_of_mem _ hm)
    cases x with
    | add kind' channel' m =>
      intro hmem
      rcases Finset.mem_insert.mp hmem with heq | hmem
      · cases heq
        exact hds m List.mem_cons_self
      · exact hs hmem
    | remove kind' handle => exact fun hmem => hs (Finset.mem_of_mem_erase hmem)

/-- If the server is not subscribed for a handler that is registered, its channel has been
unsubscribed since, and not subscribed to again. -/
theorem exists_remove {seq : ℕ} {e : Kind × MsgHandler κ} {cs : List (Change κ)}
    (he : e ∈ (roster seq cs).entries) (hs : (e.1, e.2.channel) ∉ served cs) :
    ∃ cs1 handle cs2, cs = cs1 ++ .remove e.1 handle :: cs2 ∧ handle.channel = e.2.channel ∧
      (∀ m, .add e.1 e.2.channel m ∉ cs2) ∧ e ∈ (roster seq cs1).entries := by
  induction cs using List.reverseRecOn with
  | nil => cases he
  | append_singleton cs x ih =>
    rw [roster_concat] at he
    rw [served_concat] at hs
    -- unless the last change removes the channel, it is the same before it
    have hbefore : e ∈ (roster seq cs).entries → (e.1, e.2.channel) ∉ served cs →
        (∀ m, x ≠ .add e.1 e.2.channel m) →
        ∃ cs1 handle cs2, cs ++ [x] = cs1 ++ .remove e.1 handle :: cs2 ∧
          handle.channel = e.2.channel ∧ (∀ m, .add e.1 e.2.channel m ∉ cs2) ∧
          e ∈ (roster seq cs1).entries := by
      intro he hs hx
      obtain ⟨cs1, handle, cs2, rfl, hchannel, hadd, he1⟩ := ih he hs
      refine ⟨cs1, handle, cs2 ++ [x], by simp, hchannel, fun m hm => ?_, he1⟩
      rcases List.mem_append.mp hm with hm | hm
      · exact hadd m hm
      · exact hx m (List.mem_singleton.mp hm).symm
    cases x with
    | add kind channel m =>
      have hne : (e.1, e.2.channel) ≠ (kind, channel) := fun h =>
        hs (by rw [h]; exact Finset.mem_insert_self _ _)
      rcases List.mem_append.mp he with he | he
      · refine hbefore he (fun h => hs (Finset.mem_insert_of_mem h)) fun m' h => ?_
        cases h
        exact hne rfl
      · rw [List.mem_singleton.mp he] at hne
        exact absurd rfl hne
    | remove kind handle =>
      have hmem := (List.mem_filter.mp he).1
      by_cases hkind : (e.1, e.2.channel) = (kind, handle.channel)
      · obtain ⟨h1, h2⟩ := Prod.mk.inj hkind
        exact ⟨cs, handle, [], by rw [h1], h2.symm, fun _ => List.not_mem_nil, hmem⟩
      · exact hbefore hmem (fun h => hs (Finset.mem_erase.mpr ⟨hkind, h⟩)) nofun

/-- **The server is subscribed for every handler** that is left if and only if no last `unsubscribe`
of a channel leaves one of its handlers. -/
theorem alive_iff_released (seq : ℕ) (cs : List (Change κ)) :
    Alive seq cs (served cs) ↔ Released seq cs := by
  constructor
  · rintro halive cs1 kind handle cs2 rfl hadd e he rfl hchannel
    by_cases hid : e.2.id = handle.id
    · exact Or.inl hid
    by_contra hnone
    have hnone' := (not_or.mp hnone).2
    have hsub := halive e (by
      unfold roster
      rw [List.foldl_append]
      refine (mem_foldl_apply _ (id_lt_seq seq cs1 e he)).mpr ⟨he, fun kind' hin => ?_⟩
      rcases List.mem_cons.mp hin with heq | hin
      · cases heq
        exact hid rfl
      · exact hnone' ⟨kind', hin⟩)
    unfold served at hsub
    rw [List.foldl_append, List.foldl_cons] at hsub
    refine notMem_foldl_serve cs2 ?_ (hchannel ▸ hadd) hsub
    rw [hchannel]
    exact Finset.notMem_erase _ _
  · intro hreleased e he
    by_contra hs
    obtain ⟨cs1, handle, cs2, rfl, hchannel, hadd, he1⟩ := exists_remove he hs
    unfold roster at he
    rw [List.foldl_append] at he
    obtain ⟨-, hstays⟩ := (mem_foldl_apply _ (id_lt_seq seq cs1 e he1)).mp he
    rcases hreleased cs1 e.1 handle cs2 rfl (hchannel ▸ hadd) e he1 rfl hchannel.symm with
      hid | ⟨kind', hin⟩
    · refine hstays e.1 ?_
      rw [← hchannel, hid]
      exact List.mem_cons_self
    · exact hstays kind' (List.mem_cons_of_mem _ hin)

/-! ### The calls -/

/-- A call that subscribes or unsubscribes a handler. -/
def Subscriber (call : Call κ) : Prop := (change call).isSome ∧ ∀ q ∈ request call, Fits q.1

instance (call : Call κ) : Decidable (Subscriber call) :=
  inferInstanceAs (Decidable (_ ∧ ∀ q ∈ request call, _))

/-- The entry is not a call of another kind. -/
@[reducible] def OfSubscriber : Action κ → Prop
  | .call _ call => Subscriber call
  | _ => True

instance : DecidablePred (OfSubscriber : Action κ → Prop) := decidableActions _

/-- All calls in the trace are of this kind. -/
def Subscribers (t : List (Action κ)) : Prop := ∀ a ∈ t, OfSubscriber a

instance (t : List (Action κ)) : Decidable (Subscribers t) :=
  inferInstanceAs (Decidable (∀ a ∈ t, _))

/-- The subscriptions after a command are those after the change. -/
theorem heed_request {call : Call κ} {x : Change κ} {q : List RedisBuffer × Option κ}
    (hx : change call = some x) (hq : request call = some q) (s : Subscriptions) :
    heed s (q.1.map RedisBuffer.data) = serve s x := by
  have h1 : psubscribeStr ≠ subscribeStr := by decide
  have h2 : unsubscribeStr ≠ subscribeStr := by decide
  have h3 : unsubscribeStr ≠ psubscribeStr := by decide
  have h4 : punsubscribeStr ≠ subscribeStr := by decide
  have h5 : punsubscribeStr ≠ psubscribeStr := by decide
  have h6 : punsubscribeStr ≠ unsubscribeStr := by decide
  cases call with
  | subscribe channel m handler | psubscribe channel m handler =>
    cases hx
    cases hq
    simp [heed, serve, RedisBuffer.data, h1]
  | unsubscribe handle | punsubscribe handle =>
    cases hx
    cases hq
    simp [heed, serve, RedisBuffer.data, h2, h3, h4, h5, h6]
  | _ => cases hx

/-- The commands issued bring about the changes. -/
theorem subscriptions_issued : ∀ {t : List (Action κ)} {s : Subscriptions}, Subscribers t →
    ((issued t).map fun q => q.1.map RedisBuffer.data).foldl heed s = (changes t).foldl serve s
  | [], _, _ => rfl
  | a :: t, s, h => by
    have ih := fun s => subscriptions_issued (s := s) fun b hb => h b (List.mem_cons_of_mem a hb)
    have hcons : issued (a :: t) = issued [a] ++ issued t ∧
        changes (a :: t) = changes [a] ++ changes t :=
      ⟨issued_append [a] t, changes_append [a] t⟩
    rw [hcons.1, hcons.2, List.map_append, List.foldl_append, List.foldl_append]
    cases a with
    | call state call =>
      obtain ⟨hsome, -⟩ := h _ List.mem_cons_self
      obtain ⟨x, hx⟩ := Option.isSome_iff_exists.mp hsome
      obtain ⟨q, hq⟩ : ∃ q, request call = some q := by
        cases call <;> first
          | exact ⟨_, rfl⟩
          | cases hx
      by_cases hacc : accepted state call
      · have h1 : issued [Action.call state call] = [q] := by simp [issued, issued?, hacc, hq]
        have h2 : changes [Action.call state call] = [x] := by simp [changes, changes?, hacc, hx]
        rw [h1, h2]
        show List.foldl heed (heed s _) _ = _
        rw [heed_request hx hq]
        exact ih _
      · have h1 : issued [Action.call state call] = [] := by simp [issued, issued?, hacc]
        have h2 : changes [Action.call state call] = [] := by simp [changes, changes?, hacc]
        rw [h1, h2]
        exact ih _
    | _ => exact ih _

/-- The bytes of the commands issued hold these commands. -/
theorem commandsIn_issued {t : List (Action κ)} (h : Subscribers t) :
    commandsIn (commandBytes t) = (issued t).map fun q => q.1.map RedisBuffer.data := by
  have hfits : ∀ q ∈ issued t, Fits q.1 := by
    intro q hq
    obtain ⟨a, ha, hi⟩ := List.mem_filterMap.mp hq
    cases a with
    | call state call =>
      simp only [issued?] at hi
      split_ifs at hi
      exact (h _ ha).2 q hi
    | _ => cases hi
  obtain ⟨cs, hcs⟩ : ∃ cs : List Command, cs.map Command.items = (issued t).map Prod.fst := by
    generalize issued t = qs at hfits
    induction qs with
    | nil => exact ⟨[], rfl⟩
    | cons q qs ih =>
      obtain ⟨cs, hcs⟩ := ih fun q' hq' => hfits q' (List.mem_cons_of_mem q hq')
      exact ⟨⟨q.1, hfits q List.mem_cons_self⟩ :: cs, congrArg (q.1 :: ·) hcs⟩
  have hbytes : commandBytes t = encs cs := by
    have h1 := congrArg (List.map makeCommand) hcs
    rw [List.map_map, List.map_map] at h1
    exact congrArg List.flatten h1.symm
  have h2 := congrArg (List.map (List.map RedisBuffer.data)) hcs
  rw [List.map_map, List.map_map] at h2
  rw [hbytes, commandsIn_encs]
  exact h2

end RedisClient.Async.Roster

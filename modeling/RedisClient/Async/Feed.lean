import RedisClient.Lib.Sharing
import RedisClient.Async.Kinds
import RedisClient.Async.Silence
import RedisClient.Async.SingleShot

/-! # The messages of a subscription

A message handler is called with the messages for its channel or pattern that are processed from its
registration on, until it is unsubscribed or the client is disconnected: with all of them, in order,
each once, and with no others. Those that it has not been called with are still on the strand
(`feed_in_order`). -/

namespace RedisClient.Async.Feed

open RedisClient.Value RedisClient.Lib.Sharing RedisClient.Async.Asio RedisClient.Async.Defs
open RedisClient.Async.Rules RedisClient.Async.Trace RedisClient.Async.Moments
open RedisClient.Async.Confirmations RedisClient.Async.Registrations RedisClient.Async.Pushes
open RedisClient.Async.SingleShot (Chained settled settled_other carries_chained postMessages_handlers
  postSingleShot_handlers)
open RedisClient.Async.Silence (Registers)
open RedisClient.Async.OwnReplies (dial)
open RedisClient.Async.Kinds (writes)
open RedisClient.Sync.Defs (ClientState)

variable {κ : Type} {c c' : RedisClientImpl κ}

/-! ### Messages -/

/-- The channel or pattern that a value is posted under, and its payload, if it is a message. -/
def announced (v : RedisValue) : Option (Bytes × Bytes) :=
  match v.toArray with
  | command :: second :: third :: rest =>
    if command.toByteArray = messageStr ∨ command.toByteArray = pmessageStr then
      match rest with
      | [] => some (second.toByteArray, third.toByteArray)
      | [fourth] => some (second.toByteArray, fourth.toByteArray)
      | fourth :: _ :: _ => some (third.toByteArray, fourth.toByteArray)
    else none
  | _ => none

theorem announces_iff (v : RedisValue) : Announces v ↔ (announced v).isSome := by
  unfold Announces announced
  rcases v.toArray with _ | ⟨command, _ | ⟨second, _ | ⟨third, rest⟩⟩⟩
  · simp
  · simp
  · simp
  · dsimp only
    by_cases hm : command.toByteArray = messageStr ∨ command.toByteArray = pmessageStr
    · rw [if_pos hm]
      rcases rest with _ | ⟨_, _ | ⟨_, _⟩⟩ <;> simp [hm]
    · simp [hm]

/-- What is done with a message. -/
theorem doProcessMessage_announced {v : RedisValue} {name payload : Bytes}
    (h : announced v = some (name, payload)) (hs : c.state = .subscribed) (cbs : Callbacks κ) :
    doProcessMessage v cbs c = (.returns, cbs, postMessages name payload
      (postSingleShot name payload (c.log (.doProcessMessage c.state v)))) := by
  have hlog : (c.log (.doProcessMessage c.state v)).state = .subscribed := hs
  unfold doProcessMessage
  dsimp only
  rw [if_pos hlog]
  unfold announced at h
  unfold dispatch
  generalize v.toArray = values at h ⊢
  rcases values with _ | ⟨command, _ | ⟨second, _ | ⟨third, rest⟩⟩⟩
  · cases h
  · cases h
  · cases h
  · dsimp only at h ⊢
    split_ifs at h with hm
    rw [if_pos hm]
    rcases rest with _ | ⟨fourth, _ | ⟨_, _⟩⟩ <;> cases h <;> simp

/-- What is posted for it. -/
theorem posts_announced {m : Moment κ} {state : ClientState} {v : RedisValue} {name payload : Bytes}
    (hm : m.action = .doProcessMessage state v) (h : announced v = some (name, payload))
    (hs : m.client.state = .subscribed) :
    posts m = ((single name m.client).toList ++ found name m.client).map fun k => (k, payload) := by
  rcases m with ⟨c, a, s⟩
  subst hm
  have hposts := doProcessMessage_posts state v s [] c
  have hfound : found name (postSingleShot name payload (c.log (.doProcessMessage c.state v))) =
      found name c := by
    obtain ⟨ps, ss, hc⟩ := postSingleShot_posts name payload (c.log (.doProcessMessage c.state v))
    rw [hc]
    rfl
  rw [doProcessMessage_announced h hs, messages_postMessages, messages_postSingleShot, hfound,
    List.append_assoc, ← List.map_append] at hposts
  exact (List.append_cancel_left hposts).symm

/-- The payload of a message for a channel or pattern that is processed after a subscription. -/
def heard (channel : Bytes) : Action κ → Option Bytes
  | .doProcessMessage state v =>
    if state = .subscribed then
      ((announced v).filter fun p => p.1 = channel).map Prod.snd
    else none
  | _ => none

theorem heard_announced {v : RedisValue} {name payload : Bytes} (channel : Bytes)
    (h : announced v = some (name, payload)) :
    heard channel (.doProcessMessage .subscribed v : Action κ) =
      if channel = name then some payload else none := by
  by_cases hn : channel = name
  · subst hn
    simp [heard, h, Option.filter]
  · simp [heard, h, Option.filter, hn, Ne.symm hn]

theorem heard_other {v : RedisValue} {state : ClientState} (channel : Bytes)
    (h : ¬ (state = .subscribed ∧ Announces v)) :
    heard channel (.doProcessMessage state v : Action κ) = none := by
  by_cases hs : state = .subscribed
  · have hv : announced v = none := by
      rw [← Option.not_isSome_iff_eq_none, ← announces_iff]
      exact fun hv => h ⟨hs, hv⟩
    simp [heard, hv]
  · simp [heard, hs]

/-! ### One moment -/

/-- The call unsubscribes the entry, or it disconnects the client. -/
def ends (e : MsgHandler κ) (m : Moment κ) : Bool :=
  match m.action with
  | .call _ .disconnect => true
  | .call _ (.unsubscribe handle) | .call _ (.punsubscribe handle) =>
    m.client.isConnected && decide (e.channel = handle.channel ∧ e.id = handle.id)
  | _ => false

theorem heard_of_ends {e : MsgHandler κ} {m : Moment κ} (h : ends e m = true) :
    heard e.channel m.action = none := by
  rcases m with ⟨c, a, s⟩
  cases a with
  | doProcessMessage => cases h
  | _ => rfl

/-- There is no single-shot handler of the name. -/
def Persists (k : κ) (es : List (SingleShotHandler κ)) : Prop := ∀ e ∈ es, e.msgHandler ≠ k

/-- What a moment that does not register the handler leaves of the single-shot handlers. -/
theorem persists_settled {k : κ} {m : Moment κ} (hm : ¬ Registers k m)
    (h : Persists k m.client.singleShotMsgHandlers) : Persists k (settled m) := by
  rcases m with ⟨c, a, s⟩
  cases a with
  | call state call =>
    show Persists k (call.body (c.log (.call state call))).2.2.singleShotMsgHandlers
    have hsame : (call.body (c.log (.call state call))).2.2.singleShotMsgHandlers =
        c.singleShotMsgHandlers ∨ ∃ channel k', k' ≠ k ∧
          (call.body (c.log (.call state call))).2.2.singleShotMsgHandlers =
            c.singleShotMsgHandlers ++ [⟨channel, k'⟩] := by
      cases call with
      | disconnect => exact Or.inl rfl
      | connect endpoint handler =>
        cases endpoint <;> simp only [Call.body, connectTcp, connectLocal] <;> split_ifs <;>
          exact Or.inl rfl
      | singleShotSubscribe channel k' handler | singleShotPSubscribe channel k' handler =>
        simp only [Call.body, singleShotSubscribe]
        split_ifs with hc
        · exact Or.inr ⟨channel, k', fun heq => hm ⟨decide_eq_true hc, congrArg some heq⟩, rfl⟩
        · exact Or.inl rfl
      | _ =>
        simp only [Call.body, command, publish, subscribe, unsubscribe]
        split_ifs <;> exact Or.inl rfl
    rcases hsame with hsame | ⟨channel, k', hne, hsame⟩ <;> rw [hsame]
    · exact h
    · intro e he
      rcases List.mem_append.mp he with he | he
      · exact h e he
      · rw [List.mem_singleton.mp he]
        exact hne
  | doProcessMessage state v =>
    by_cases hv : c.state = .subscribed ∧ Announces v
    · obtain ⟨⟨name, payload⟩, hp⟩ := Option.isSome_iff_exists.mp ((announces_iff v).mp hv.2)
      show Persists k (doProcessMessage v [] c).2.2.singleShotMsgHandlers
      rw [doProcessMessage_announced hp hv.1, postMessages_handlers, postSingleShot_handlers]
      exact fun e he => h e (List.mem_of_mem_eraseP he)
    · rw [settled_other rfl hv]
      exact h
  | _ => exact h

/-- A call that registers a handler with an entry. -/
theorem registers_inserted {m : Moment κ} {e : MsgHandler κ} (h : inserted? m = some e) :
    Registers e.msgHandler m ∧ posts m = [] ∧
      settled m = m.client.singleShotMsgHandlers := by
  obtain ⟨-, -, hnext, hhandle⟩ := inserted_spec h
  rcases m with ⟨c, a, s⟩
  cases a with
  | call state call =>
    have hnone : (call.body (c.log (.call state call))).2.1 ≠ none := by
      unfold handle? at hhandle
      dsimp only at hhandle
      rw [hhandle]
      exact Option.some_ne_none _
    have hother : ¬ Other call := fun hcall => hnone (body_other hcall _).1
    cases call with
    | subscribe channel k handler | psubscribe channel k handler =>
      by_cases hc : c.state = .connected ∨ c.state = .subscribed
      · simp only [Moment.next, Call.body, subscribe, RedisClientImpl.log, RedisClientImpl.post, hc,
          if_true, List.append_cancel_left_eq, List.cons.injEq, and_true] at hnext
        refine ⟨?_, rfl, ?_⟩
        · rw [← hnext]
          exact ⟨decide_eq_true hc, rfl⟩
        · simp [settled, Moment.next, Call.body, subscribe, RedisClientImpl.log,
            RedisClientImpl.post, hc]
      · simp [Moment.next, Call.body, subscribe, RedisClientImpl.log, hc, refuse] at hnext
    | unsubscribe | punsubscribe =>
      refine absurd ?_ hnone
      simp only [Call.body, unsubscribe, refuse]
      split_ifs <;> rfl
    | disconnect => exact absurd rfl hnone
    | connect | command | publish | singleShotSubscribe | singleShotPSubscribe =>
      exact absurd trivial hother
  | _ => cases hhandle

variable [DecidableEq κ]

/-- The entries of a handler. -/
def entries (k : κ) (es : List (MsgHandler κ)) : List (MsgHandler κ) :=
  es.filter fun e => e.msgHandler = k

theorem entries_append (k : κ) (es fs : List (MsgHandler κ)) :
    entries k (es ++ fs) = entries k es ++ entries k fs := List.filter_append _ _

/-- What a moment that does not register the handler leaves of its entries. -/
theorem entries_next {k : κ} {m : Moment κ} (hm : ¬ Registers k m) :
    entries k m.next.msgHandlers = (entries k m.client.msgHandlers).filter fun e => !ends e m := by
  rcases m with ⟨c, a, s⟩
  have hkeep : ∀ {a : Action κ}, (∀ e, ends e ⟨c, a, s⟩ = false) →
      (entries k c.msgHandlers).filter (fun e => !ends e ⟨c, a, s⟩) = entries k c.msgHandlers :=
    fun h => List.filter_eq_self.mpr fun e _ => by rw [h e]; rfl
  cases a with
  | call state call =>
    have hother : Other call → (∀ e, ends e ⟨c, .call state call, s⟩ = false) →
        entries k (call.body (c.log (.call state call))).2.2.msgHandlers =
          (entries k c.msgHandlers).filter fun e => !ends e ⟨c, .call state call, s⟩ := by
      intro hcall hends
      obtain ⟨hmap, -⟩ := Prod.mk.inj (body_other hcall (c.log (.call state call))).2
      rw [hkeep hends, hmap]
      rfl
    cases call with
    | disconnect =>
      refine (List.filter_eq_nil_iff.mpr fun e _ => ?_).symm
      simp [ends]
    | subscribe channel k' handler | psubscribe channel k' handler =>
      rw [hkeep fun _ => rfl]
      by_cases h : c.state = .connected ∨ c.state = .subscribed
      · have hne : k' ≠ k := fun heq => hm ⟨decide_eq_true h, congrArg some heq⟩
        simp [Moment.next, Call.body, subscribe, RedisClientImpl.log, RedisClientImpl.post, h, entries,
          hne]
      · simp [Moment.next, Call.body, subscribe, RedisClientImpl.log, h, refuse]
    | unsubscribe handle | punsubscribe handle =>
      by_cases h : c.state = .connected ∨ c.state = .subscribed
      · have hconn : c.isConnected = true := isConnected_iff.mpr h
        simp only [Moment.next, Call.body, unsubscribe, RedisClientImpl.log, RedisClientImpl.post, h,
          if_true, entries, List.filter_filter]
        refine List.filter_congr fun e _ => ?_
        rw [Bool.and_comm]
        simp [ends, hconn]
      · have hconn : c.isConnected = false := Bool.eq_false_iff.mpr (mt isConnected_iff.mp h)
        rw [hkeep fun e => by simp [ends, hconn]]
        simp [Moment.next, Call.body, unsubscribe, RedisClientImpl.log, h, refuse]
    | connect | command | publish | singleShotSubscribe | singleShotPSubscribe =>
      exact hother trivial fun _ => rfl
  | _ => exact (hkeep fun _ => rfl).symm

/-- Of the entries under a name, those of a handler. -/
theorem found_to (k : κ) (name payload : Bytes) : ∀ es : List (MsgHandler κ),
    ofUser k (((es.filter fun e => e.channel = name).map MsgHandler.msgHandler).map
        fun k => (k, payload)) =
      (entries k es).filterMap fun e => if e.channel = name then some payload else none
  | [] => rfl
  | e :: es => by
    have ih := found_to k name payload es
    unfold entries at ih ⊢
    by_cases hname : e.channel = name <;> by_cases hk : e.msgHandler = k <;>
      simp [hname, hk, ofUser_cons, ← ih]

/-- The messages that a moment posts to a handler. -/
theorem posts_to {k : κ} {m : Moment κ} (hm : Recorded (fun _ => True) m)
    (h : Persists k m.client.singleShotMsgHandlers) : ofUser k (posts m) =
      (entries k m.client.msgHandlers).filterMap fun e => heard e.channel m.action := by
  rcases m with ⟨c, a, s⟩
  cases a with
  | doProcessMessage state v =>
    obtain rfl : c.state = state := hm
    by_cases hv : c.state = .subscribed ∧ Announces v
    · obtain ⟨⟨name, payload⟩, hp⟩ := Option.isSome_iff_exists.mp ((announces_iff v).mp hv.2)
      have hsingle : ofUser k ((single name c).toList.map fun k => (k, payload)) = [] := by
        rcases hf : c.singleShotMsgHandlers.find? (fun e => e.channel = name) with _ | e
        · simp [single, hf, ofUser]
        · have hne : e.msgHandler ≠ k := h e (List.mem_of_find?_eq_some hf)
          simp [single, hf, ofUser, hne]
      rw [posts_announced rfl hp hv.1, List.map_append, ofUser_append, hsingle, List.nil_append]
      dsimp only
      rw [hv.1]
      simp only [heard_announced _ hp]
      exact found_to k name payload c.msgHandlers
    · rw [posts_eq_nil rfl hv]
      exact (List.filterMap_eq_nil_iff.mpr fun _ _ => heard_other _ hv).symm
  | _ => exact (List.filterMap_eq_nil_iff.mpr fun _ _ => rfl).symm

/-! ### Some moments -/

section Moments

variable {k : κ} {r r' : List (MsgHandler κ) × ℕ} {s s' : List (SingleShotHandler κ)}

/-- Moments that do not register the handler, from some registrations to others. -/
structure Passing (k : κ) (r : List (MsgHandler κ) × ℕ) (s : List (SingleShotHandler κ))
    (ms : List (Moment κ)) (r' : List (MsgHandler κ) × ℕ) (s' : List (SingleShotHandler κ)) : Prop where
  linked : LinkedBy registrations (fun m => registrations m.next) r ms r'
  chained : LinkedBy RedisClientImpl.singleShotMsgHandlers settled s ms s'
  recorded : ∀ m ∈ ms, Recorded (fun _ => True) m
  others : ∀ m ∈ ms, ¬ Registers k m
  persists : Persists k s

omit [DecidableEq κ] in
/-- The moments after the first one. -/
theorem Passing.tail {m : Moment κ} {ms : List (Moment κ)} (h : Passing k r s (m :: ms) r' s') :
    Passing k (registrations m.next) (settled m) ms r' s' where
  linked := h.linked.2
  chained := h.chained.2
  recorded m' hm := h.recorded m' (List.mem_cons_of_mem _ hm)
  others m' hm := h.others m' (List.mem_cons_of_mem _ hm)
  persists := persists_settled (h.others m List.mem_cons_self) (by rw [h.chained.1]; exact h.persists)

/-- What the first moment posts, and what it leaves of the entries. -/
theorem Passing.head {m : Moment κ} {ms : List (Moment κ)} (h : Passing k r s (m :: ms) r' s') :
    ofUser k (posts m) = (entries k r.1).filterMap (fun e => heard e.channel m.action) ∧
      entries k (registrations m.next).1 = (entries k r.1).filter fun e => !ends e m := by
  have hmap : m.client.msgHandlers = r.1 := congrArg Prod.fst h.linked.1
  have hposts := posts_to (h.recorded m List.mem_cons_self)
    (by rw [h.chained.1]; exact h.persists : Persists k m.client.singleShotMsgHandlers)
  have hnext := entries_next (h.others m List.mem_cons_self)
  rw [hmap] at hposts hnext
  exact ⟨hposts, hnext⟩

/-- Nothing is posted to a handler that is not registered. -/
theorem Passing.ended : ∀ {ms : List (Moment κ)} {r : List (MsgHandler κ) × ℕ}
    {s : List (SingleShotHandler κ)}, Passing k r s ms r' s' → entries k r.1 = [] →
      ofUser k (ms.flatMap posts) = [] ∧ entries k r'.1 = [] ∧ Persists k s'
  | [], r, s, h, he => by
    have hr : r' = r := h.linked
    have hs : s' = s := h.chained
    rw [hr, hs]
    exact ⟨rfl, he, h.persists⟩
  | m :: ms, r, s, h, he => by
    obtain ⟨hposts, hnext⟩ := h.head
    rw [he] at hposts hnext
    obtain ⟨hrest, hend⟩ := h.tail.ended hnext
    refine ⟨?_, hend⟩
    rw [List.flatMap_cons, ofUser_append, hposts, hrest]
    rfl

/-- A handler with one entry gets what is heard on its channel until the entry is taken away. -/
theorem Passing.live {e : MsgHandler κ} : ∀ {ms : List (Moment κ)} {r : List (MsgHandler κ) × ℕ}
    {s : List (SingleShotHandler κ)}, Passing k r s ms r' s' → entries k r.1 = [e] →
      ofUser k (ms.flatMap posts) =
        (ms.takeWhile fun m => !ends e m).filterMap fun m => heard e.channel m.action
  | [], _, _, _, _ => rfl
  | m :: ms, r, s, h, he => by
    obtain ⟨hposts, hnext⟩ := h.head
    rw [he] at hposts hnext
    rw [List.flatMap_cons, ofUser_append, hposts]
    cases hend : ends e m with
    | true =>
      have hnone : entries k (registrations m.next).1 = [] := by simpa [hend] using hnext
      rw [(h.tail.ended hnone).1, List.append_nil, List.takeWhile_cons, hend]
      simp [heard_of_ends hend]
    | false =>
      have hone : entries k (registrations m.next).1 = [e] := by simpa [hend] using hnext
      rw [h.tail.live hone, List.takeWhile_cons, hend]
      rcases hheard : heard e.channel m.action with _ | payload <;> simp [hheard]

end Moments

/-! ### The theorem -/

/-- **A handler is called with the messages of its subscription**: with those that are processed for
its channel or pattern from its registration on, until it is unsubscribed or the client is
disconnected, in their order and each once, but for those that are still on the strand. -/
theorem feed_in_order {es : List (Event κ)} (hrun : run es .new = some c) {pre post : List (Moment κ)}
    {m : Moment κ} {e : MsgHandler κ} (hms : runMoments es .new = pre ++ m :: post)
    (he : inserted? m = some e) (halone : ∀ m' ∈ pre ++ post, ¬ Registers e.msgHandler m') :
    ofUser e.msgHandler (called c.trace ++ messages c) =
      (post.takeWhile fun m' => !ends e m').filterMap fun m' => heard e.channel m'.action := by
  have hlinked := linked_run hrun
  have hchained : Chained .new (runMoments es .new) c := carries_chained.run (fun _ _ => trivial) hrun
  have hrecorded : ∀ m ∈ runMoments es .new, Recorded (fun _ => True) m :=
    runMoments_recorded (fun e _ => allIn_true e) _
  rw [posted_in_order hrun, hms, List.flatMap_append, List.flatMap_cons, ofUser_append, ofUser_append]
  rw [hms] at hlinked hchained hrecorded
  obtain ⟨hlinked1, hlinked2⟩ := hlinked.split
  obtain ⟨hchained1, hchained2⟩ := LinkedBy.split hchained
  have hbefore : Passing e.msgHandler ([], 0) [] pre (registrations m.client)
      m.client.singleShotMsgHandlers :=
    ⟨hlinked1, hchained1, fun m hm => hrecorded m (List.mem_append_left _ hm),
      fun m hm => halone m (List.mem_append_left _ hm), fun e he => by cases he⟩
  obtain ⟨hnothing, hnone, hpersists⟩ := hbefore.ended rfl
  obtain ⟨hregisters, hquiet, hsettled⟩ := registers_inserted he
  have hafter : Passing e.msgHandler (registrations m.next) (settled m) post (registrations c)
      c.singleShotMsgHandlers :=
    ⟨hlinked2, hchained2, fun m' hm => hrecorded m' (by simp [hm]),
      fun m' hm => halone m' (List.mem_append_right _ hm), hsettled ▸ hpersists⟩
  have hone : entries e.msgHandler (registrations m.next).1 = [e] := by
    have hnext : m.next.msgHandlers = m.client.msgHandlers ++ [e] := (inserted_spec he).2.2.1
    show entries e.msgHandler m.next.msgHandlers = [e]
    rw [hnext, entries_append]
    have hold : entries e.msgHandler m.client.msgHandlers = [] := hnone
    rw [hold]
    simp [entries]
  rw [hnothing, hquiet, hafter.live hone]
  rfl

/-! ### A run -/

/-- A message to the subscribers of `c`. -/
def text (payload : String) : Bytes :=
  chars "*3\r\n$7\r\nmessage\r\n$1\r\nc\r\n$2\r\n" ++ chars payload ++ chars "\r\n"

/-- Two messages are read at once. The handler unsubscribes itself when it is called with the first of
them, and then a third one is read. -/
def stopping : List (Event ℕ) :=
  dial (writes (text "hi" ++ text "yo" ++ text "no")) ++
    [.connectDone [.call (.subscribe (chars "c") 7 none) .returns .returns], .receive 63, .readDone [],
      .posted [], .posted [.call (.unsubscribe ⟨0, chars "c"⟩) .returns .returns], .posted [],
      .receive 99, .readDone []]

/-- The second message has been posted by then, and the third one is not. -/
theorem feed_in_order_stopping : ∃ c, run stopping .new = some c ∧
    ofUser 7 (called c.trace ++ messages c) = [chars "hi", chars "yo"] := by
  have hmoment : (runMoments stopping .new)[2]?.map inserted? = some (some ⟨chars "c", 0, 7⟩) := by
    decide +kernel
  obtain ⟨m, hm, he⟩ := Option.map_eq_some_iff.mp hmoment
  cases hrun : run stopping .new with
  | none =>
    have hsome : (run stopping .new).isSome = true := by decide +kernel
    rw [hrun] at hsome
    cases hsome
  | some c =>
    have halone : ∀ m' ∈ (runMoments stopping .new).take 2 ++ (runMoments stopping .new).drop 3,
        ¬ Silence.Registers 7 m' := by decide +kernel
    have hheard : ((((runMoments stopping .new).drop 3).takeWhile fun m' =>
        !ends ⟨chars "c", 0, 7⟩ m').filterMap fun m' => heard (chars "c") m'.action) =
        [chars "hi", chars "yo"] := by decide +kernel
    refine ⟨c, rfl, ?_⟩
    rw [feed_in_order hrun (split_getElem? hm) he halone]
    exact hheard

end RedisClient.Async.Feed

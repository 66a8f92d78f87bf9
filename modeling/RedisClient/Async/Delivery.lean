import RedisClient.Async.Moments
import RedisClient.Async.OwnReplies

/-! # The delivery of a reply

A reply is handed to the handler in front of the queue, and then the queue is popped. In between the
handler runs, and it may disconnect the client, which empties the queue, or throw, and then nothing is
popped. So the delivery removes the handler it was made to if and only if the handler either returns
without a disconnect or throws after one (`removes_iff`).

In a run with such handlers only, nothing is popped from an empty queue, and no place in the queue is
used for two replies (`deliveries`). -/

namespace RedisClient.Async.Delivery

open RedisClient.Value RedisClient.Parser.Defs RedisClient.Peers RedisClient.Async.Asio
open RedisClient.Async.Defs
open RedisClient.Async.Rules RedisClient.Async.Trace RedisClient.Async.Session
open RedisClient.Async.Receive RedisClient.Async.Moments RedisClient.Async.OwnReplies
open RedisClient.Sync.Defs (ErrorCode ClientState parserError)

variable {κ : Type} {c c' : RedisClientImpl κ}

/-! ### What the handler does -/

/-- The user's code disconnects the client. -/
def Disconnects (s : Script κ) (c : RedisClientImpl κ) : Prop :=
  ∃ m ∈ scriptMoments s c, IsDisconnect m.action

instance (s : Script κ) (c : RedisClientImpl κ) : Decidable (Disconnects s c) :=
  inferInstanceAs (Decidable (∃ m ∈ scriptMoments s c, _))

/-- What the handler of a reply does. `dummyHandler` does nothing. -/
def handlerScript (handler : Option κ) (cbs : Callbacks κ) : Script κ :=
  match handler with
  | none => .returns
  | some _ => cbs.headD .returns

/-- The code returns without a disconnect, or throws after one. -/
def Tidy (s : Script κ) (c : RedisClientImpl κ) : Prop := ending s = .returns ↔ ¬ Disconnects s c

/-- If the moment is the delivery of a reply, the handler is tidy. -/
@[reducible] def TidyAt (m : Moment κ) : Prop :=
  match m.action with
  | .reply _ _ => Tidy m.script (m.client.log m.action)
  | _ => True

instance (s : Script κ) (c : RedisClientImpl κ) : Decidable (Tidy s c) :=
  inferInstanceAs (Decidable (ending s = .returns ↔ ¬ Disconnects s c))

instance : DecidablePred (TidyAt : Moment κ → Prop) := fun m =>
  decidableActions (fun a => TidyAt { m with action := a }) m.action

/-- Only a disconnect touches the queue. -/
theorem body_handlers {state : ClientState} {call : Call κ} (h : ¬ IsDisconnect (.call state call))
    (c : RedisClientImpl κ) : (call.body c).2.2.handlers = c.handlers := by
  have hb := body_cases call c
  generalize call.body c = r at hb ⊢
  cases hb with
  | disconnect => exact absurd trivial h
  | connect | connected | posts | refused => rfl

theorem next_handlers (m : Moment κ) :
    m.next.handlers = if IsDisconnect m.action then [] else m.client.handlers := by
  rcases m with ⟨c, a, s⟩
  cases a with
  | call state call =>
    by_cases hd : IsDisconnect (.call state call)
    · rw [if_pos hd]
      cases call <;> first
        | exact hd.elim
        | rfl
    · rw [if_neg hd]
      exact body_handlers hd _
  | _ =>
    rw [if_neg id]
    rfl

/-- What a disconnect resets, and no other entry of the user's code changes. -/
theorem carriesCalls_reset {α : Type} {f : RedisClientImpl κ → α} {z : α}
    (h : ∀ m : Moment κ, f m.next = if IsDisconnect m.action then z else f m.client) :
    CarriesCalls (κ := κ) (fun _ => True) fun c ms c' =>
      f c' = if ∃ m ∈ ms, IsDisconnect m.action then z else f c := by
  refine carriesCalls_of_moment (fun c => by simp) ?_ fun m _ => ?_
  · intro ms ms' c c1 c' h1 h2
    rw [h2, h1]
    by_cases hd' : ∃ m ∈ ms', IsDisconnect m.action
    · have hd : ∃ m ∈ ms ++ ms', IsDisconnect m.action := by
        obtain ⟨m, hm, hd⟩ := hd'
        exact ⟨m, List.mem_append_right _ hm, hd⟩
      rw [if_pos hd', if_pos hd]
    · rw [if_neg hd']
      refine if_congr ?_ rfl rfl
      constructor
      · rintro ⟨m, hm, hd⟩
        exact ⟨m, List.mem_append_left _ hm, hd⟩
      · rintro ⟨m, hm, hd⟩
        rcases List.mem_append.mp hm with hm | hm
        · exact ⟨m, hm, hd⟩
        · exact absurd ⟨m, hm, hd⟩ hd'
  · have hsingle : (∃ m' ∈ [m], IsDisconnect m'.action) ↔ IsDisconnect m.action := by simp
    rw [h]
    exact if_congr hsingle.symm rfl rfl

/-- **The queue after the user's code.** -/
theorem runScript_handlers (s : Script κ) (c : RedisClientImpl κ) :
    (runScript s c).2.handlers = if Disconnects s c then [] else c.handlers :=
  (carriesCalls_reset next_handlers).runScript s c fun _ _ => trivial

/-! ### The delivery -/

/-- A handler for replies runs as its script says. -/
theorem callHandler_script (handler : Option κ) (v : RedisValue) (cbs : Callbacks κ)
    (c : RedisClientImpl κ) : ∃ cbs', callHandler handler v cbs c =
      (ending (handlerScript handler cbs), cbs',
        (runScript (handlerScript handler cbs) (c.log (.reply handler v))).2) := by
  cases handler with
  | none => exact ⟨cbs, rfl⟩
  | some handler => exact callback_script cbs (c.log (.reply (some handler) v))

/-- What the front of the queue is called with, and what becomes of the queue: it is popped, or that
cannot be done, or the handler throws. -/
theorem callFront_cases {handler : Option κ} {handlers : List (Option κ)} (v : RedisValue)
    (cbs : Callbacks κ) (hh : c.handlers = handler :: handlers) :
    (ending (handlerScript handler cbs) = .returns ∧
        ¬ Disconnects (handlerScript handler cbs) (c.log (.reply handler v)) ∧
        (callFront v cbs c).1 = .returns ∧ (callFront v cbs c).2.2.handlers = handlers) ∨
    (ending (handlerScript handler cbs) = .returns ∧
        Disconnects (handlerScript handler cbs) (c.log (.reply handler v)) ∧
        (callFront v cbs c).1 = .undefined ∧ (callFront v cbs c).2.2.handlers = []) ∨
    (ending (handlerScript handler cbs) = .throws ∧ (callFront v cbs c).1 = .throws ∧
        (callFront v cbs c).2.2.handlers =
          if Disconnects (handlerScript handler cbs) (c.log (.reply handler v)) then []
          else handler :: handlers) := by
  obtain ⟨cbs', hcall⟩ := callHandler_script handler v cbs c
  have hqueue := runScript_handlers (handlerScript handler cbs) (c.log (.reply handler v))
  have hlog : (c.log (.reply handler v)).handlers = handler :: handlers := hh
  rw [hlog] at hqueue
  generalize runScript (handlerScript handler cbs) (c.log (.reply handler v)) = o at hcall hqueue
  unfold callFront
  rw [hh]
  dsimp only
  rw [hcall]
  rcases he : ending (handlerScript handler cbs) with _ | _ | _
  · dsimp only
    by_cases hd : Disconnects (handlerScript handler cbs) (c.log (.reply handler v))
    · rw [if_pos hd] at hqueue
      rw [hqueue]
      exact Or.inr (Or.inl ⟨rfl, hd, rfl, hqueue⟩)
    · rw [if_neg hd] at hqueue
      rw [hqueue]
      exact Or.inl ⟨rfl, hd, rfl, rfl⟩
  · exact Or.inr (Or.inr ⟨rfl, rfl, hqueue⟩)
  · exact absurd he (ending_ne_undefined _)

/-- `doProcessMessage` hands the value to the handler in front: there is one, and after a subscription
the value is a confirmation. -/
def HandsOver (v : RedisValue) (c : RedisClientImpl κ) : Prop :=
  c.handlers ≠ [] ∧ (c.state = .subscribed → confirms v)

theorem doProcessMessage_front {v : RedisValue} (cbs : Callbacks κ) (h : HandsOver v c) :
    doProcessMessage v cbs c = callFront v cbs (c.log (.doProcessMessage c.state v)) := by
  unfold doProcessMessage
  dsimp only
  by_cases hs : c.state = .subscribed
  · exact (if_pos hs).trans (dispatch_confirms (h.2 hs) cbs h.1)
  · exact (if_neg hs).trans (if_pos h.1)

/-- **A delivery removes the handler it is made to**: the queue is what it was but for its front, or
empty if the handler disconnects, and nothing is popped from an empty queue. -/
structure Removes (v : RedisValue) (cbs : Callbacks κ) (handler : Option κ)
    (handlers : List (Option κ)) (c : RedisClientImpl κ) : Prop where
  popped : (doProcessMessage v cbs c).1 ≠ .undefined
  handlers : (doProcessMessage v cbs c).2.2.handlers =
    if Disconnects (handlerScript handler cbs)
      ((c.log (.doProcessMessage c.state v)).log (.reply handler v)) then [] else handlers

theorem removes_iff {v : RedisValue} {cbs : Callbacks κ} {handler : Option κ}
    {handlers : List (Option κ)} (hh : c.handlers = handler :: handlers) (hv : HandsOver v c) :
    Removes v cbs handler handlers c ↔ Tidy (handlerScript handler cbs)
      ((c.log (.doProcessMessage c.state v)).log (.reply handler v)) := by
  have hfront := doProcessMessage_front cbs hv
  have hh' : (c.log (.doProcessMessage c.state v)).handlers = handler :: handlers := hh
  unfold Tidy
  rcases callFront_cases v cbs hh' with ⟨he, hd, h1, h2⟩ | ⟨he, hd, h1, -⟩ |
    ⟨he, h1, h2⟩
  · refine iff_of_true ⟨?_, ?_⟩ (iff_of_true he hd)
    · rw [hfront, h1]
      rintro ⟨⟩
    · rw [hfront, h2, if_neg hd]
  · refine iff_of_false (fun h => h.popped ?_) fun h => h.mp he hd
    rw [hfront, h1]
  · rw [he]
    by_cases hd : Disconnects (handlerScript handler cbs)
      ((c.log (.doProcessMessage c.state v)).log (.reply handler v))
    · rw [if_pos hd] at h2
      refine iff_of_true ⟨?_, ?_⟩ (iff_of_false (by rintro ⟨⟩) (not_not.mpr hd))
      · rw [hfront, h1]
        rintro ⟨⟩
      · rw [hfront, h2, if_pos hd]
    · rw [if_neg hd] at h2
      refine iff_of_false (fun h => ?_) fun h => by cases h.mpr hd
      have hsame := h.handlers
      rw [hfront, h2, if_neg hd] at hsame
      exact List.cons_ne_self _ _ hsame

/-! ### Nothing is popped from an empty queue -/

theorem callback_defined (cbs : Callbacks κ) (c : RedisClientImpl κ) :
    (callback cbs c).1 ≠ .undefined := by
  obtain ⟨cbs', h⟩ := callback_script cbs c
  rw [h]
  exact ending_ne_undefined _

theorem tidy_of_front {handler : Option κ} {handlers : List (Option κ)} {v : RedisValue}
    {cbs : Callbacks κ} (hc : c.handlers = handler :: handlers)
    (hQ : ∀ m ∈ frontMoments v cbs c, TidyAt m) :
    Tidy (handlerScript handler cbs) (c.log (.reply handler v)) := by
  simp only [frontMoments, hc] at hQ
  cases handler with
  | none => exact hQ ⟨c, .reply none v, .returns⟩ List.mem_cons_self
  | some handler => exact hQ ⟨c, .reply (some handler) v, _⟩ List.mem_cons_self

theorem callFront_defined {v : RedisValue} {cbs : Callbacks κ} (hh : c.handlers ≠ [])
    (hQ : ∀ m ∈ frontMoments v cbs c, TidyAt m) : (callFront v cbs c).1 ≠ .undefined := by
  obtain ⟨handler, handlers, hc⟩ := List.exists_cons_of_ne_nil hh
  have htidy := tidy_of_front hc hQ
  rcases callFront_cases v cbs hc with ⟨-, -, h1, -⟩ | ⟨he, hd, -⟩ | ⟨-, h1, -⟩
  · rw [h1]
    rintro ⟨⟩
  · exact absurd hd (htidy.mp he)
  · rw [h1]
    rintro ⟨⟩

theorem doProcessMessage_defined {v : RedisValue} {cbs : Callbacks κ}
    (hQ : ∀ m ∈ doProcessMessageMoments v cbs c, TidyAt m) :
    (doProcessMessage v cbs c).1 ≠ .undefined := by
  obtain ⟨ms, hms, hcases⟩ := doProcessMessage_cases v cbs c
  rw [hms] at hQ
  rcases hcases with ⟨channel, msg, rfl, hd⟩ | ⟨hh, rfl, hd⟩ | ⟨text, -, rfl, hd⟩ <;> rw [hd]
  · rintro ⟨⟩
  · exact callFront_defined hh fun m hm => hQ m (List.mem_cons_of_mem _ hm)
  · exact callback_defined _ _

theorem readLoop_defined : ∀ (fuel : ℕ) {data : Bytes} {cbs : Callbacks κ} {c : RedisClientImpl κ}
    {o : Outcome κ}, (∀ m ∈ readLoopMoments fuel data cbs c, TidyAt m) →
    readLoop fuel data cbs c = some o → o.1 ≠ .undefined
  | 0, data, cbs, c, o, _, ho => by
    simp only [readLoop] at ho
    split_ifs at ho
    cases ho
    rintro ⟨⟩
  | fuel + 1, data, cbs, c, o, hQ, ho => by
    simp only [readLoop, readLoopMoments] at hQ ho
    split_ifs at hQ ho
    · cases ho
      rintro ⟨⟩
    · rcases hp : parse c.redisParser data with _ | ⟨⟨k, _ | _ | _⟩, p⟩ <;> rw [hp] at ho hQ
      · cases ho
      · dsimp only at ho hQ
        have h1 := doProcessMessage_defined fun m hm => hQ m (List.mem_append_left _ hm)
        rcases hx : doProcessMessage (result p).1 cbs { c with redisParser := (result p).2 } with
          ⟨_ | _ | _, cbs1, c1⟩ <;> rw [hx] at ho h1 hQ
        · exact readLoop_defined fuel (fun m hm => hQ m (List.mem_append_right _ hm)) ho
        · cases ho
          rintro ⟨⟩
        · exact absurd rfl h1
      · cases ho
        rintro ⟨⟩
      · cases ho
        exact callback_defined _ _

theorem asyncWrite_defined (ec : ErrorCode) (cbs : Callbacks κ) (c : RedisClientImpl κ) :
    (asyncWrite ec cbs c).1 ≠ .undefined := by
  unfold asyncWrite
  dsimp only
  split_ifs
  · exact callback_defined _ _
  · rintro ⟨⟩
  · rintro ⟨⟩

theorem runPosted_defined (f : Posted κ) (cbs : Callbacks κ) (c : RedisClientImpl κ) :
    (runPosted f cbs c).1 ≠ .undefined := by
  cases f with
  | doAsyncCommand buff handler =>
    simp only [runPosted, doAsyncCommand]
    split_ifs
    · exact asyncWrite_defined _ _ _
    · rintro ⟨⟩
  | message msgHandler msg => exact callback_defined _ _

theorem handleAsyncConnect_defined (ec : ErrorCode) (handler : κ) (cbs : Callbacks κ)
    (c : RedisClientImpl κ) : (handleAsyncConnect ec handler cbs c).1 ≠ .undefined := by
  cases ec with
  | none =>
    have hcb := callback_defined cbs ({ c with state := .connected }.log (.connect none handler))
    rcases handleAsyncConnect_cases handler cbs c with ⟨cbs1, c1, -, hd⟩ | ⟨-, hd⟩ <;> rw [hd]
    · rintro ⟨⟩
    · exact hcb
  | some e => exact callback_defined _ _

theorem keeps_broken : Keeps (κ := κ) (fun _ => True) fun c c' => c'.broken = c.broken where
  refl _ := rfl
  trans h h' := h'.trans h
  log _ _ := rfl
  body {call} c _ := by
    have hb := body_cases call c
    generalize call.body c = r at hb ⊢
    cases hb <;> rfl
  enqueue _ _ _ := rfl
  write _ _ := rfl
  pop _ := rfl
  postSingleShot channel msg c := by
    obtain ⟨ms, ss, hc⟩ := postSingleShot_posts channel msg c
    rw [hc]
  postMessages channel msg c := by
    obtain ⟨ms, hc⟩ := postMessages_posts channel msg c
    rw [hc]
  redisParser _ _ := rfl
  read _ := rfl

theorem client_broken {o : Outcome κ} (h : o.1 ≠ .undefined) (hb : o.2.2.broken = false) :
    o.client.broken = false := by
  rcases o with ⟨_ | _ | _, cbs, c⟩
  · exact hb
  · exact hb
  · exact absurd rfl h

/-- **A step with tidy handlers** pops nothing from an empty queue. -/
theorem step_broken {e : Event κ} (hQ : ∀ m ∈ stepMoments e c, TidyAt m)
    (hstep : step e c = some c') : c'.broken = false := by
  obtain ⟨hb, hs⟩ := step_cases hstep
  cases hs with
  | user s => exact (keeps_broken.runScript c (all_true s)).trans hb
  | @posted cbs f strand hs =>
    exact client_broken (runPosted_defined _ _ _)
      ((keeps_broken.runPosted _ _ (allOf_true cbs)).trans hb)
  | @readDone cbs ec size readsDone o hs ho =>
    simp only [stepMoments, hs] at hQ
    refine client_broken ?_ ((keeps_broken.asyncRead (allOf_true cbs) ho).trans hb)
    unfold asyncReadMoments asyncRead at *
    split_ifs at hQ ho
    · cases ho
      exact callback_defined _ _
    · cases ho
      rintro ⟨⟩
    · exact readLoop_defined _ hQ ho
  | @writeDone cbs ec writesDone hs =>
    refine client_broken (asyncWrite_defined _ _ _) ?_
    exact (keeps_broken.asyncWrite ec { c with
      socket := { c.socket with writesDone := writesDone } } (allOf_true cbs)).trans hb
  | @connectDone cbs ec handler connectsDone hs =>
    refine client_broken (handleAsyncConnect_defined _ _ _ _) ?_
    exact (keeps_broken.handleAsyncConnect ec handler { c with
      socket := { c.socket with connectsDone := connectsDone } } (allOf_true cbs)).trans hb
  | receive | readFail | send | writeFail | connectOk | connectFail => exact hb

theorem run_broken {es : List (Event κ)} {c : RedisClientImpl κ}
    (hQ : ∀ m ∈ runMoments es c, TidyAt m) (hb : c.broken = false) (hrun : run es c = some c') :
    c'.broken = false := by
  refine run_invariant (P := fun es c => ∀ m ∈ runMoments es c, TidyAt m)
    (I := fun c => c.broken = false) (fun e es c c1 hQ _ h1 => ?_) hQ hb hrun
  obtain ⟨hQ1, hQ2⟩ := forall_runMoments h1 hQ
  exact ⟨step_broken hQ1 h1, hQ2⟩

/-! ### No handler is called for a second reply -/

def enqueued? : Action κ → Option (Option κ)
  | .doAsyncCommand _ handler => some handler
  | _ => none

/-- The handlers that have entered the queue. -/
def enqueued (t : List (Action κ)) : List (Option κ) := t.filterMap enqueued?

/-- The handlers that have been called with a reply. -/
def delivered (t : List (Action κ)) : List (Option κ) := (replies t).map Prod.fst

@[simp] theorem enqueued_append (t u : List (Action κ)) :
    enqueued (t ++ u) = enqueued t ++ enqueued u := List.filterMap_append

@[simp] theorem delivered_append (t u : List (Action κ)) :
    delivered (t ++ u) = delivered t ++ delivered u := by
  simp [delivered]

/-- Each handler called was in the queue or has entered it, in this order, and is not in it any
more. -/
def Serving (c : RedisClientImpl κ) (ms : List (Moment κ)) (c' : RedisClientImpl κ) : Prop :=
  (delivered (ms.map Moment.action) ++ c'.handlers).Sublist
    (c.handlers ++ enqueued (ms.map Moment.action))

theorem Serving.append {ms ms' : List (Moment κ)} {c1 : RedisClientImpl κ} (h : Serving c ms c1)
    (h' : Serving c1 ms' c') : Serving c (ms ++ ms') c' := by
  unfold Serving at *
  rw [List.map_append, delivered_append, enqueued_append, List.append_assoc]
  have h1 : (delivered (ms.map Moment.action) ++ (delivered (ms'.map Moment.action) ++ c'.handlers)
      ).Sublist (delivered (ms.map Moment.action) ++
        (c1.handlers ++ enqueued (ms'.map Moment.action))) := (List.Sublist.refl _).append h'
  have h2 := h.append (List.Sublist.refl (enqueued (ms'.map Moment.action)))
  rw [← List.append_assoc _ c1.handlers] at h1
  rw [List.append_assoc c.handlers] at h2
  exact h1.trans h2

/-- Nothing is delivered and nothing enqueued. -/
theorem Serving.quiet {ms : List (Moment κ)} (hd : delivered (ms.map Moment.action) = [])
    (he : enqueued (ms.map Moment.action) = []) (h : c'.handlers.Sublist c.handlers) :
    Serving c ms c' := by
  unfold Serving
  rw [hd, he, List.append_nil]
  exact h

theorem carriesCalls_serving : CarriesCalls (κ := κ) TidyAt Serving where
  nil c := .quiet rfl rfl (List.Sublist.refl _)
  append := Serving.append
  entry a s c ha _ := by
    cases a <;> first
      | exact ha.elim
      | exact .quiet rfl rfl (List.Sublist.refl _)
  accepted {call handle c c'} hb _ := by
    refine .quiet rfl rfl ?_
    have h := next_handlers ⟨c, .call c.state call, .returns⟩
    simp only [Moment.next, hb] at h
    rw [h]
    split_ifs
    · exact List.nil_sublist _
    · exact List.Sublist.refl _
  refused s hb _ _ := by
    obtain ⟨rfl, ⟨endpoint, handler, -, rfl⟩ | ⟨-, text, rfl⟩⟩ := body_told hb
    · exact .quiet rfl rfl (List.Sublist.refl _)
    · exact .quiet rfl rfl (List.Sublist.refl _)

/-- The user's code delivers nothing itself. -/
theorem scriptMoments_quiet (s : Script κ) (c : RedisClientImpl κ) :
    delivered ((scriptMoments s c).map Moment.action) = [] ∧
      enqueued ((scriptMoments s c).map Moment.action) = [] := by
  have hof := scriptMoments_of (all_true s) c
  generalize scriptMoments s c = ms at hof
  induction ms with
  | nil => exact ⟨rfl, rfl⟩
  | cons m ms ih =>
    obtain ⟨ih1, ih2⟩ := ih fun m' hm' => hof m' (List.mem_cons_of_mem m hm')
    have hm := hof m List.mem_cons_self
    have hcons : (m :: ms).map Moment.action = [m.action] ++ ms.map Moment.action := rfl
    rw [hcons, delivered_append, enqueued_append, ih1, ih2]
    rcases m with ⟨c, a, s⟩
    cases a <;> first
      | exact hm.elim
      | exact ⟨rfl, rfl⟩

theorem frontMoments_delivered {handler : Option κ} {handlers : List (Option κ)} (v : RedisValue)
    (cbs : Callbacks κ) (hh : c.handlers = handler :: handlers) :
    delivered ((frontMoments v cbs c).map Moment.action) = [handler] ∧
      enqueued ((frontMoments v cbs c).map Moment.action) = [] := by
  unfold frontMoments
  rw [hh]
  cases handler with
  | none => exact ⟨rfl, rfl⟩
  | some handler =>
    obtain ⟨h1, h2⟩ :=
      scriptMoments_quiet (cbs.headD .returns) (c.log (.reply (some handler) v))
    exact ⟨congrArg (some handler :: ·) h1, h2⟩

theorem carries_serving : CarriesLoop (κ := κ) TidyAt Serving where
  toCarriesCalls := carriesCalls_serving
  processed _ := .quiet rfl rfl (List.Sublist.refl _)
  front {handler handlers c} v cbs hh hQ := by
    obtain ⟨hd, he⟩ := frontMoments_delivered v cbs hh
    have htidy := tidy_of_front hh hQ
    have hqueue : (callFront v cbs c).2.2.handlers.Sublist handlers := by
      rcases callFront_cases v cbs hh with ⟨-, -, -, h1⟩ | ⟨-, -, -, h1⟩ |
        ⟨he, -, h1⟩ <;> rw [h1]
      · exact List.nil_sublist _
      · have hd : Disconnects (handlerScript handler cbs) (c.log (.reply handler v)) := by
          by_contra hd
          cases he.symm.trans (htidy.mpr hd)
        rw [if_pos hd]
        exact List.nil_sublist _
    unfold Serving
    rw [hd, he, List.append_nil, hh]
    exact hqueue.cons_cons handler
  postSingleShot channel msg c := by
    obtain ⟨ms, ss, hc⟩ := postSingleShot_posts channel msg c
    rw [hc]
    exact .quiet rfl rfl (List.Sublist.refl _)
  postMessages channel msg c := by
    obtain ⟨ms, hc⟩ := postMessages_posts channel msg c
    rw [hc]
    exact .quiet rfl rfl (List.Sublist.refl _)
  redisParser _ c := .quiet rfl rfl (List.Sublist.refl _)
  read c := .quiet rfl rfl (List.Sublist.refl _)
  command _ hd _ := by
    subst hd
    exact List.Sublist.refl _
  message _ _ hd _ := by
    subst hd
    exact .quiet rfl rfl (List.Sublist.refl _)
  clear c := .quiet rfl rfl (List.Sublist.refl _)
  write _ _ hd _ := by
    subst hd
    exact .quiet rfl rfl (List.Sublist.refl _)
  broken c := .quiet rfl rfl (List.Sublist.refl _)
  receive _ := .quiet rfl rfl (List.Sublist.refl _)
  socket _ := .quiet rfl rfl (List.Sublist.refl _)
  readDone _ := .quiet rfl rfl (List.Sublist.refl _)
  writeDone _ := .quiet rfl rfl (List.Sublist.refl _)
  connectDone _ _ hd _ := by
    subst hd
    exact .quiet rfl rfl (List.Sublist.refl _)

/-! ### The theorem -/

variable (κ) in
/-- **A delivery removes the handler it is made to** if and only if that handler returns without a
disconnect or throws after one. If all handlers do so, nothing is ever popped from an empty queue, and
the handlers called so far and those in the queue are some of those that have entered it, in order. -/
theorem deliveries :
    (∀ (v : RedisValue) (cbs : Callbacks κ) (handler : Option κ) (handlers : List (Option κ))
      (c : RedisClientImpl κ), c.handlers = handler :: handlers → HandsOver v c →
      (Removes v cbs handler handlers c ↔ Tidy (handlerScript handler cbs)
        ((c.log (.doProcessMessage c.state v)).log (.reply handler v)))) ∧
    ∀ (es : List (Event κ)) (c : RedisClientImpl κ), run es .new = some c →
      (∀ m ∈ runMoments es .new, TidyAt m) →
      c.broken = false ∧ (delivered c.trace ++ c.handlers).Sublist (enqueued c.trace) := by
  refine ⟨fun v cbs handler handlers c hh hv => removes_iff hh hv, fun es c hrun hQ => ?_⟩
  refine ⟨run_broken hQ rfl hrun, ?_⟩
  have hserving := carries_serving.run hQ hrun
  have htrace : c.trace = (runMoments es .new).map Moment.action := runMoments_trace hrun
  rw [htrace]
  exact hserving

/-! ### Three handlers -/

/-- A command is issued on a connection to a server that answers `+PONG`, and its reply is read. The
handler of the reply does this. -/
def oneReply (s : Script ℕ) : List (Event ℕ) :=
  dial (pong.peer ()) ++ [.connectDone [],
    .user (.call (.command [65] [] (some 1)) .returns (.call (.command [66] [] (some 2)) .returns
      .returns)), .posted [], .posted [], .send 99, .writeDone [], .send 99, .receive 99, .readDone [s]]

/-- The handler disconnects the client and throws. -/
def leaves : Script ℕ := .call .disconnect .returns .throws

theorem deliveries_leave :
    (∃ c, run (oneReply leaves) .new = some c ∧ c.broken = false ∧
      (delivered c.trace ++ c.handlers).Sublist (enqueued c.trace)) ∧
    Removes (.int 7) [leaves] (some 1) [some 2]
      { (RedisClientImpl.new : RedisClientImpl ℕ) with
        handlers := [some 1, some 2], state := .connected } := by
  obtain ⟨c, hc⟩ : ∃ c, run (oneReply leaves) .new = some c :=
    Option.isSome_iff_exists.mp (by decide +kernel)
  exact ⟨⟨c, hc, (deliveries ℕ).2 _ c hc (by decide +kernel)⟩,
    ((deliveries ℕ).1 _ _ _ _ _ rfl ⟨List.cons_ne_nil _ _, by decide⟩).mpr (by decide +kernel)⟩

/-- **A handler that disconnects** and returns has the queue popped when it is empty, and one that
throws stays in the queue. -/
theorem delivery_fails :
    (∃ c, run (oneReply (.call .disconnect .returns .returns)) .new = some c ∧ c.broken = true ∧
      c.handlers = []) ∧
    ∃ c, run (oneReply .throws) .new = some c ∧
      delivered c.trace = [some 1] ∧ enqueued c.trace = [some 1, some 2] ∧
      c.handlers = [some 1, some 2] := by
  have h1 : (run (oneReply (.call .disconnect .returns .returns)) .new).map
      (fun c => decide (c.broken = true ∧ c.handlers = [])) = some true := by decide +kernel
  have h2 : (run (oneReply .throws) .new).map (fun c => decide (delivered c.trace = [some 1] ∧
      enqueued c.trace = [some 1, some 2] ∧ c.handlers = [some 1, some 2])) = some true := by
    decide +kernel
  obtain ⟨c1, hc1, hd1⟩ := Option.map_eq_some_iff.mp h1
  obtain ⟨c2, hc2, hd2⟩ := Option.map_eq_some_iff.mp h2
  exact ⟨⟨c1, hc1, of_decide_eq_true hd1⟩, ⟨c2, hc2, of_decide_eq_true hd2⟩⟩

end RedisClient.Async.Delivery

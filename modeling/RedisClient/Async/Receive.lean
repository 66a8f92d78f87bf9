import RedisClient.Async.Transmit

/-! # The incoming side of a session

The parser takes the items from the bytes received, one by one, and `doProcessMessage` hands a reply
to the handler in front of the queue (`callFront_core`) or posts a message to its subscribers
(`dispatch_push`). So what `asyncRead` does with its bytes is one step of the session for each item
that they complete (`readLoop_core`). -/

namespace RedisClient.Async.Receive

open RedisClient.Value RedisClient.Parser.Defs RedisClient.Parser.RoundTrip
open RedisClient.Parser.Awaiting RedisClient.Commands RedisClient.Peers
open RedisClient.Peers.Publisher (text text_append items_append length_replies)
open RedisClient.Async.Asio RedisClient.Async.Defs RedisClient.Async.Trace RedisClient.Async.Calls
open RedisClient.Async.Rules RedisClient.Async.Session RedisClient.Async.Transmit
open RedisClient.Sync.Defs (ErrorCode ClientState)

variable {κ σ : Type} {pub : Publisher σ} {s0 : σ} {S : List Bytes → Prop} {sub : Prop} {n : ℕ}
variable {L : List (Action κ) → Prop} {x : Progress κ} {c c' : RedisClientImpl κ}

/-- Nothing but the strand, the handlers, the subscriptions, the state and the trace is different. -/
structure SameWires (c c' : RedisClientImpl κ) : Prop where
  socket : c'.socket = c.socket
  redisParser : c'.redisParser = c.redisParser
  buf : c'.buf = c.buf
  dataWrited : c'.dataWrited = c.dataWrited
  dataQueued : c'.dataQueued = c.dataQueued

theorem SameWires.trans {c1 : RedisClientImpl κ} (h : SameWires c c1) (h' : SameWires c1 c') :
    SameWires c c' :=
  ⟨h'.socket.trans h.socket, h'.redisParser.trans h.redisParser, h'.buf.trans h.buf,
    h'.dataWrited.trans h.dataWrited, h'.dataQueued.trans h.dataQueued⟩

theorem SameWires.writing {left : Bytes} (h : SameWires c c') (hw : Writing c left) :
    Writing c' left :=
  hw.congr h.dataWrited h.dataQueued (by rw [h.socket]) (by rw [h.socket])

/-! ### Messages -/

theorem posted?_messages (ms : List (κ × Bytes)) :
    (ms.map fun m => Posted.message m.1 m.2).filterMap posted? = [] := by
  induction ms with
  | nil => rfl
  | cons m ms ih => exact ih

/-- **A message to a subscriber is posted** to the handlers of the subscription. -/
theorem dispatch_push {v : RedisValue} (h : IsPush v) (cbs : Callbacks κ) (c : RedisClientImpl κ) :
    ∃ fs ss, fs.filterMap posted? = [] ∧ dispatch v cbs c =
      (.returns, cbs, { c with strand := c.strand ++ fs, singleShotMsgHandlers := ss }) := by
  have key : ∀ channel msg : Bytes, ∃ fs ss, fs.filterMap posted? = [] ∧
      postMessages channel msg (postSingleShot channel msg c) =
        { c with strand := c.strand ++ fs, singleShotMsgHandlers := ss } := by
    intro channel msg
    obtain ⟨ms, ss, h⟩ := subscribers_posts channel msg c
    exact ⟨_, ss, posted?_messages ms, h⟩
  cases h with
  | message channel payload =>
    obtain ⟨fs, ss, h1, h2⟩ := key channel payload
    refine ⟨fs, ss, h1, ?_⟩
    rw [← h2]
    simp [dispatch, RedisValue.toArray, RedisValue.toByteArray, messageStr]
  | pmessage pattern channel payload =>
    obtain ⟨fs, ss, h1, h2⟩ := key pattern payload
    refine ⟨fs, ss, h1, ?_⟩
    rw [← h2]
    simp [dispatch, RedisValue.toArray, RedisValue.toByteArray, pmessageStr]

/-- A confirmation is taken for a reply. -/
theorem dispatch_confirms {v : RedisValue} (h : confirms v) (cbs : Callbacks κ)
    (hc : c.handlers ≠ []) : dispatch v cbs c = callFront v cbs c := by
  have hwords : ∀ w ∈ confirmWords, ¬ (w = messageStr ∨ w = pmessageStr) := by decide
  unfold confirms at h
  unfold dispatch
  rcases hv : v.toArray with _ | ⟨command, _ | ⟨second, _ | ⟨third, rest⟩⟩⟩ <;> rw [hv] at h
  · cases h
  · cases h
  · cases h
  · have hw : command.toByteArray ∈ confirmWords := by simpa using h
    dsimp only
    rw [if_neg (hwords _ hw), if_pos (And.intro hc hw)]

/-! ### Replies -/

/-- **The handler in front is called with the reply**, and leaves the queue. -/
theorem callFront_issues {v : RedisValue} {cbs : Callbacks κ} {handler : Option κ}
    {handlers : List (Option κ)} (hn : n ≤ c.trace.length) (hcbs : SessionCallbacks S sub cbs)
    (hst : SessionState sub c.state) (hc : c.handlers = handler :: handlers)
    (hacc : sub → AllAccepted ((callFront v cbs c).2.2.trace.drop n)) :
    ∃ qs t cbs' c1, callFront v cbs c = (.returns, cbs', { c1 with handlers := handlers }) ∧
      SessionCallbacks S sub cbs' ∧ Issues S sub qs t (c.log (.reply handler v)) c1 := by
  have hacc' : sub → AllAccepted ((callHandler handler v cbs c).2.2.trace.drop n) := by
    intro hsub
    have hgrow : (callHandler handler v cbs c).2.2.trace <+: (callFront v cbs c).2.2.trace := by
      unfold callFront
      rw [hc]
      dsimp only
      rcases callHandler handler v cbs c with ⟨_ | _ | _, cbs1, c1⟩
      · dsimp only
        split <;> exact List.prefix_refl _
      · exact List.prefix_refl _
      · exact List.prefix_refl _
    intro a ha
    exact hacc hsub a ((List.IsPrefix.drop hgrow n).subset ha)
  obtain ⟨qs, t, cbs', c1, hrun, hcbs', hi⟩ := callHandler_issues hn hcbs hst hacc'
  refine ⟨qs, t, cbs', c1, ?_, hcbs', hi⟩
  have hh : c1.handlers = handler :: handlers := hi.handlers.trans hc
  unfold callFront
  rw [hc]
  simp only [hrun, hh]

/-! ### The next item -/

/-- The session after its next item has been processed, with more commands issued. -/
def processNext (x : Progress κ) (qs : List (Request κ)) : Progress κ :=
  { x with processed := x.processed + 1, posted := x.posted ++ qs }

theorem take_next {is : List Item} {i : Item}
    (h : (written pub s0 x).drop x.processed = i :: is) (qs : List (Request κ)) :
    (written pub s0 (processNext x qs)).take (x.processed + 1) =
      (written pub s0 x).take x.processed ++ [i] := by
  show (written pub s0 x).take (x.processed + 1) = _
  have hk : (written pub s0 x)[x.processed]? = some i := by
    rw [← List.head?_drop, h]
    rfl
  rw [List.take_add_one, hk]
  rfl

theorem answered_next {is : List Item} {i : Item}
    (h : (written pub s0 x).drop x.processed = i :: is) (qs : List (Request κ)) :
    answered pub s0 (processNext x qs) = answered pub s0 x ++ Publisher.replies [i] := by
  unfold answered
  rw [← Publisher.replies_append, ← take_next h qs]
  rfl

/-- What a session is after an item, from the entries that it leaves in the trace. -/
theorem core_item {qs : List (Request κ)} {is : List Item} {i : Item} {t : List (Action κ)}
    (h : Core pub s0 S sub n x c) (hi : (written pub s0 x).drop x.processed = i :: is)
    (hstate : SessionState sub c'.state)
    (hquiet : c'.state = .connected → c.state = .connected ∧ ∀ q ∈ qs, ¬ S q.contents)
    (hstrand : c'.strand.filterMap posted? =
      c.strand.filterMap posted? ++ qs.map fun q => (q.command.enc, q.handler))
    (hwires : SameWires c c') (hbroken : c'.broken = c.broken)
    (hhandlers : c'.handlers = c.handlers.drop (Publisher.replies [i]).length)
    (htrace : c'.trace = c.trace ++ t) (hissued : issued t = qs.map Request.pair)
    (hreplies : expected pub s0 x ++ replies t = expected pub s0 (processNext x qs))
    (herrors : errors t = []) (hprocessed : (processed t).map Prod.snd = [i.value]) :
    Core pub s0 S sub n (processNext x qs) c' := by
  have hd := drop_append h htrace
  constructor
  · rw [hbroken, h.broken]
  · exact hstate
  · rw [htrace, List.length_append]
    exact h.long.trans (Nat.le_add_right _ _)
  · rw [hd, issued_append, h.issued, hissued]
    simp [processNext]
  · intro hc q hq
    obtain ⟨h1, h2⟩ := hquiet hc
    have hq' : q ∈ (x.run ++ x.posted) ++ qs := by
      rw [List.append_assoc]
      exact hq
    rcases List.mem_append.mp hq' with hq' | hq'
    · exact h.quiet h1 q hq'
    · exact h2 q hq'
  · rw [hstrand, h.strand]
    simp [processNext]
  · rw [hwires.socket]
    exact h.link
  · rw [hwires.socket]
    exact h.connects
  · rw [hwires.socket]
    exact h.connectsDone
  · rw [hwires.dataQueued]
    exact h.sent
  · rw [hhandlers, h.handlers, List.drop_drop, answered_next hi, List.length_append]
    rfl
  · have hlen := congrArg List.length hi
    rw [List.length_drop, List.length_cons] at hlen
    show x.processed + 1 ≤ (written pub s0 x).length
    omega
  · exact h.taken_le
  · rw [hd, replies_append, h.replies, hreplies]
  · rw [hd, errors_append, h.errors, herrors]
    rfl
  · rw [hd, processed_append, List.map_append, h.processed, hprocessed]
    show _ = ((written pub s0 (processNext x qs)).take (x.processed + 1)).map Item.value
    rw [take_next hi, List.map_append]
    rfl

/-- What is asked of the trace of a session is enough for every step: it is asked of the trace up to
there too, and a message that is processed comes after a subscription. -/
structure Suffices (pub : Publisher σ) (s0 : σ) (S : List Bytes → Prop) (sub : Prop) (n : ℕ)
    (L : List (Action κ) → Prop) : Prop where
  grows {t u : List (Action κ)} : L u → t <+: u → L t
  lawful {t : List (Action κ)} : L t → Lawful pub s0 t
  timely {x : Progress κ} {c : RedisClientImpl κ} {m : Push} {is : List Item} :
    Core pub s0 S sub n x c → (written pub s0 x).drop x.processed = .push m :: is →
    (sub → L ((c.log (.doProcessMessage c.state m.reply.value)).trace.drop n)) →
    c.state = .subscribed

/-- A server that pushes nothing before a subscription. -/
theorem suffices_of_quiet (hpub : pub.Quiet S s0) :
    Suffices (κ := κ) pub s0 S sub n (Lawful pub s0) where
  grows := Lawful.grows
  lawful := id
  timely {x c m is} h hi _ := by
    rcases h.state with hc | ⟨-, hc⟩
    · have hmem : Item.push m ∈ written pub s0 x :=
        List.mem_of_mem_drop (hi ▸ List.mem_cons_self)
      have hq : ∀ cs ∈ contents x.run, ¬ S cs := by
        intro cs hcs
        obtain ⟨q, hq, rfl⟩ := List.mem_map.mp hcs
        exact h.quiet hc q (List.mem_append_left _ hq)
      obtain ⟨r, hr⟩ := hpub _ hq _ hmem
      cases hr
    · exact hc

/-- The handler of a reply is in front of the queue. -/
theorem front_of_reply {is : List Item} {r : Reply} (h : Core pub s0 S sub n x c)
    (hi : (written pub s0 x).drop x.processed = .reply r :: is) :
    ∃ handler handlers, c.handlers = handler :: handlers ∧
      (x.run.map Request.handler).drop (answered pub s0 x).length = handler :: handlers := by
  have hle := answered_le pub s0 (processNext x [])
  rw [answered_next hi, List.length_append] at hle
  have hlt : (answered pub s0 x).length < (x.run.map Request.handler).length := by
    rw [List.length_map]
    exact hle
  exact ⟨_, _, h.handlers.trans (List.drop_eq_getElem_cons hlt), List.drop_eq_getElem_cons hlt⟩

/-- The next item and the entry that it makes have the same place in the trace and in the stream. -/
theorem next_mem_zip {is : List Item} {i : Item} (h : Core pub s0 S sub n x c)
    (hi : (written pub s0 x).drop x.processed = i :: is) :
    ((c.state, i.value), i) ∈
      (Trace.processed ((c.log (.doProcessMessage c.state i.value)).trace.drop n)).zip
        (itemsOf pub s0 ((c.log (.doProcessMessage c.state i.value)).trace.drop n)) := by
  have hw : (written pub s0 x)[x.processed]? = some i := by
    rw [← List.head?_drop, hi]
    rfl
  have hd : (c.log (.doProcessMessage c.state i.value)).trace.drop n =
      c.trace.drop n ++ [.doProcessMessage c.state i.value] := drop_append h rfl
  rw [hd]
  refine List.mem_iff_getElem?.mpr ⟨x.processed, List.getElem?_zip_eq_some.mpr ⟨?_, ?_⟩⟩
  · rw [processed_append, List.getElem?_append_right (Nat.le_of_eq h.length_processed),
      h.length_processed, Nat.sub_self]
    rfl
  · refine getElem?_grows (items_grows ?_) hw
    rw [issued_append, h.issued, List.map_append, contents_pairs, contents_append]
    exact (List.prefix_append _ _).trans (List.prefix_append _ _)

/-- What is asked of a reply that is processed after a subscription. -/
theorem confirms_of_lawful {is : List Item} {r : Reply} {cbs : Callbacks κ}
    (h : Core pub s0 S sub n x c) (hi : (written pub s0 x).drop x.processed = .reply r :: is)
    (hlaw : Lawful pub s0 ((doProcessMessage r.value cbs c).2.2.trace.drop n))
    (hc : c.state = .subscribed) : confirms r.value :=
  (hlaw.grows ((doProcessMessage_entry r.value cbs c).drop n)).confirmed _ (next_mem_zip h hi) hc

/-- **One item is processed.** A reply goes to its handler, a message to its subscribers. -/
theorem doProcessMessage_core {is : List Item} {i : Item} {cbs : Callbacks κ}
    (hL : Suffices pub s0 S sub n L) (h : Core pub s0 S sub n x c)
    (hi : (written pub s0 x).drop x.processed = i :: is) (hcbs : SessionCallbacks S sub cbs)
    (hlaw : sub → L ((doProcessMessage i.value cbs c).2.2.trace.drop n)) :
    ∃ qs cbs' c', doProcessMessage i.value cbs c = (.returns, cbs', c') ∧
      SessionCallbacks S sub cbs' ∧ Core pub s0 S sub n (processNext x qs) c' ∧
      SameWires c c' := by
  cases i with
  | push m =>
    have hc := hL.timely h hi fun hsub =>
      hL.grows (hlaw hsub) ((doProcessMessage_entry m.reply.value cbs c).drop n)
    obtain ⟨fs, ss, hfs, hd⟩ :=
      dispatch_push m.isPush cbs (c.log (.doProcessMessage c.state m.reply.value))
    refine ⟨[], cbs, _, (if_pos hc).trans hd, hcbs, ?_, ⟨rfl, rfl, rfl, rfl, rfl⟩⟩
    refine core_item (t := [.doProcessMessage c.state m.reply.value]) h hi h.state ?_ ?_
      ⟨rfl, rfl, rfl, rfl, rfl⟩ rfl rfl rfl rfl ?_ rfl rfl
    · intro hc'
      exact ⟨hc', fun q hq => by cases hq⟩
    · show (c.strand ++ fs).filterMap posted? = _
      rw [List.filterMap_append, hfs]
      rfl
    · unfold expected
      rw [answered_next hi, show Publisher.replies [.push m] = [] from rfl, List.append_nil]
      exact List.append_nil _
  | reply r =>
    obtain ⟨handler, handlers, hh, hd⟩ := front_of_reply h hi
    have hfront : doProcessMessage r.value cbs c =
        callFront r.value cbs (c.log (.doProcessMessage c.state r.value)) := by
      unfold doProcessMessage
      dsimp only
      have hne : (c.log (.doProcessMessage c.state r.value)).handlers ≠ [] := by
        show c.handlers ≠ []
        rw [hh]
        exact List.cons_ne_nil _ _
      rcases h.state with hc | ⟨hsub, hc⟩
      · have hnot : ¬ c.state = .subscribed := by simp [hc]
        exact (if_neg hnot).trans (if_pos hne)
      · exact (if_pos hc).trans
          (dispatch_confirms (confirms_of_lawful h hi (hL.lawful (hlaw hsub)) hc) cbs hne)
    change sub → L ((doProcessMessage r.value cbs c).2.2.trace.drop n) at hlaw
    change ∃ qs cbs' c', doProcessMessage r.value cbs c = _ ∧ _
    rw [hfront] at hlaw ⊢
    obtain ⟨qs, t, cbs', c1, hrun, hcbs', hiss⟩ := callFront_issues (S := S) (n := n)
      (h.long.trans (log_trace c _).length_le) hcbs h.state hh fun hsub =>
        (hL.lawful (hlaw hsub)).accepted
    refine ⟨qs, cbs', _, hrun, hcbs', ?_, ?_⟩
    · refine core_item (t := [.doProcessMessage c.state r.value, .reply handler r.value] ++ t) h hi
        (hiss.sessionState h.state) ?_ ?_ ?_ ?_ ?_ ?_ ?_ ?_ ?_ ?_
      · intro hc
        refine ⟨?_, hiss.quiet hc⟩
        rcases hiss.state with hs | ⟨-, hs⟩
        · exact hs.symm.trans hc
        · rw [hc] at hs
          cases hs
      · show c1.strand.filterMap posted? = _
        rw [hiss.strand, List.filterMap_append, posted?_posted]
        rfl
      · exact ⟨hiss.socket, hiss.redisParser, hiss.buf, hiss.dataWrited, hiss.dataQueued⟩
      · exact hiss.broken
      · show handlers = c.handlers.drop 1
        rw [hh]
        rfl
      · show c1.trace = _
        rw [hiss.trace]
        simp [RedisClientImpl.log]
      · rw [issued_append, hiss.issued]
        rfl
      · rw [replies_append, hiss.replies]
        unfold expected
        rw [answered_next hi, List.map_append]
        exact (zip_concat (by rw [List.length_map]; exact hd)).symm
      · rw [errors_append, hiss.errors]
        rfl
      · rw [processed_append, hiss.processed]
        rfl
    · exact ⟨hiss.socket, hiss.redisParser, hiss.buf, hiss.dataWrited, hiss.dataQueued⟩

/-! ### The bytes of a read -/

/-- The next read is started. -/
theorem processMessage_session (h : Core pub s0 S sub n x c)
    (hs : Incoming pub s0 x [] c.redisParser) (hw : Writing c x.left) (hr : c.socket.reads = 0)
    (hd : c.socket.readsDone = []) : InSession pub s0 S sub n (processMessage c) := by
  have hsock := Socket.asyncReadSome_linked h.link
  refine ⟨x, [], ?_, hs, ?_, ?_⟩
  · refine { h with link := ?_, connects := ?_, connectsDone := ?_ }
    · show c.socket.asyncReadSome.link = _
      rw [hsock, h.link]
    · show c.socket.asyncReadSome.connects = _
      rw [hsock, h.connects]
    · show c.socket.asyncReadSome.connectsDone = _
      rw [hsock, h.connectsDone]
  · refine hw.congr rfl rfl ?_ ?_
    · show c.socket.asyncReadSome.writes = _
      rw [hsock]
    · show c.socket.asyncReadSome.writesDone = _
      rw [hsock]
  · refine .waiting ?_ ?_
    · show c.socket.asyncReadSome.reads = 1
      rw [hsock, hr]
    · show c.socket.asyncReadSome.readsDone = []
      rw [hsock, hd]

/-- A round of the loop in which an item is completed. -/
theorem readLoop_completed {fuel k : ℕ} {data : Bytes} {p : RedisParser} (cbs : Callbacks κ)
    (hd : data ≠ []) (hp : parse c.redisParser data = some ((k, .completed), p)) :
    readLoop (fuel + 1) data cbs c =
      match doProcessMessage (result p).1 cbs { c with redisParser := (result p).2 } with
      | (.returns, cbs, c) => readLoop fuel (data.drop k) cbs c
      | r => some r := by
  rw [readLoop, if_neg hd]
  generalize parse c.redisParser data = r at hp
  subst hp
  rfl

/-- What the loop leaves in the trace begins with what an item leaves. -/
theorem readLoop_completed_trace {fuel k : ℕ} {data : Bytes} {p : RedisParser} {cbs : Callbacks κ}
    {o : Outcome κ} (hd : data ≠ []) (hp : parse c.redisParser data = some ((k, .completed), p))
    (h : readLoop (fuel + 1) data cbs c = some o) :
    (doProcessMessage (result p).1 cbs { c with redisParser := (result p).2 }).2.2.trace <+:
      o.2.2.trace := by
  rw [readLoop_completed cbs hd hp] at h
  rcases hx : doProcessMessage (result p).1 cbs { c with redisParser := (result p).2 } with
    ⟨_ | _ | _, cbs1, c1⟩ <;> rw [hx] at h
  · exact readLoop_trace h
  · cases h
    exact List.prefix_refl _
  · cases h
    exact List.prefix_refl _

/-- **The loop of `asyncRead`** processes every item that its bytes complete, and then the next read
is started. -/
theorem readLoop_core (hL : Suffices pub s0 S sub n L) : ∀ (fuel : ℕ) {data : Bytes} {cbs : Callbacks κ}
    {x : Progress κ} {c : RedisClientImpl κ}, data.length ≤ fuel → Core pub s0 S sub n x c →
    Incoming pub s0 x data c.redisParser → Writing c x.left → c.socket.reads = 0 →
    c.socket.readsDone = [] → SessionCallbacks S sub cbs →
    (sub → ∃ o, readLoop fuel data cbs c = some o ∧ L (o.2.2.trace.drop n)) →
    ∃ cbs' c', readLoop fuel data cbs c = some (.returns, cbs', c') ∧ InSession pub s0 S sub n c'
  | fuel, [], cbs, x, c, _, h, hs, hw, hr, hd, _, _ =>
    ⟨cbs, processMessage c, by cases fuel <;> rfl, processMessage_session h hs hw hr hd⟩
  | 0, b :: data, _, _, _, hl, _, _, _, _, _, _, _ => by simp at hl
  | fuel + 1, b :: data, cbs, x, c, hl, h, hs, hw, hr, hd, hcbs, hlaw => by
    have hne : b :: data ≠ [] := List.cons_ne_nil _ _
    unfold Incoming at hs
    rcases hi : (written pub s0 x).drop x.processed with _ | ⟨i, is⟩ <;> rw [hi] at hs
    · exact absurd hs.2 (List.cons_ne_nil _ _)
    · rcases parse_ahead hs hne with ⟨k, p, hp, hk, hrest, hidle, hv⟩ | ⟨p, hp, hahead⟩
      · have hlen := ahead_length hs
        rw [← hrest, List.length_append, List.length_append, List.length_drop] at hlen
        have hcore : Core pub s0 S sub n x { c with redisParser := (result p).2 } := { h with }
        obtain ⟨qs, cbs1, c1, hrun, hcbs1, hcore1, hwires⟩ :=
          doProcessMessage_core hL hcore hi hcbs fun hsub => by
            obtain ⟨o, ho, hlawo⟩ := hlaw hsub
            have hgrow := readLoop_completed_trace hne hp ho
            rw [hv] at hgrow
            exact hL.grows hlawo (hgrow.drop n)
        have hloop : readLoop (fuel + 1) (b :: data) cbs c =
            readLoop fuel ((b :: data).drop k) cbs1 c1 := by
          rw [readLoop_completed cbs hne hp, hv, hrun]
        rw [hloop] at hlaw ⊢
        refine readLoop_core hL fuel ?_ hcore1 ?_ ?_ ?_ ?_ hcbs1 hlaw
        · rw [List.length_drop]
          omega
        · have hnext : (written pub s0 x).drop (x.processed + 1) = is := by
            rw [← List.drop_drop, hi]
            rfl
          show Awaits c1.redisParser (_ ++ (text (written pub s0 x)).drop x.taken)
            ((written pub s0 x).drop (x.processed + 1))
          have hparser : c1.redisParser = (result p).2 := hwires.redisParser
          rw [hnext, hparser, hrest]
          exact awaits_text (idle_result hidle) is
        · exact hwires.writing (hw.congr rfl rfl rfl rfl)
        · rw [hwires.socket]
          exact hr
        · rw [hwires.socket]
          exact hd
      · refine ⟨cbs, processMessage { c with redisParser := p }, ?_,
          processMessage_session (x := x) { h with } ?_ (hw.congr rfl rfl rfl rfl) hr hd⟩
        · rw [readLoop, if_neg hne, hp]
        · unfold Incoming
          rw [hi]
          exact hahead

/-- **The completion handler of a read** processes the bytes of the read. -/
theorem readDone_core (hL : Suffices pub s0 S sub n L) {data : Bytes} {cbs : Callbacks κ} {ec : ErrorCode}
    {size : ℕ} {readsDone : List (ErrorCode × ℕ)} (h : Core pub s0 S sub n x c)
    (hs : Incoming pub s0 x data c.redisParser) (hw : Writing c x.left) (hr : Reading c data)
    (hc : c.socket.readsDone = (ec, size) :: readsDone) (hcbs : SessionCallbacks S sub cbs)
    (hlaw : sub → ∃ o, asyncRead ec size cbs
        { c with socket := { c.socket with readsDone := readsDone } } = some o ∧
      L (o.2.2.trace.drop n)) :
    ∃ cbs' c', asyncRead ec size cbs
        { c with socket := { c.socket with readsDone := readsDone } } = some (.returns, cbs', c') ∧
      InSession pub s0 S sub n c' := by
  cases hr with
  | waiting h1 h2 =>
    rw [h2] at hc
    cases hc
  | received _ h1 h2 h3 h4 =>
    rw [h4] at hc
    cases hc
    have hloop : asyncRead none data.length cbs
        { c with socket := { c.socket with readsDone := [] } } =
        readLoop data.length data cbs { c with socket := { c.socket with readsDone := [] } } := by
      unfold asyncRead
      rw [if_neg (by simpa using h1)]
      exact congrArg (readLoop data.length · cbs _) h2
    rw [hloop] at hlaw ⊢
    have hcore : Core pub s0 S sub n x { c with socket := { c.socket with readsDone := [] } } :=
      { h with link := h.link, connects := h.connects, connectsDone := h.connectsDone }
    exact readLoop_core hL data.length (Nat.le_refl _) hcore hs (hw.congr rfl rfl rfl rfl) h3 rfl
      hcbs hlaw

/-- What the server has written is the beginning of what it will have written when it has all the
commands run. -/
theorem out_le (h : Core pub s0 S sub n x c) :
    (pub.peer s0).out x.sent <+: text (written pub s0 x) := by
  have hmono := (pub.peer s0).mono x.sent (x.left ++ c.dataQueued.flatten)
  rw [← List.append_assoc, h.sent] at hmono
  rw [show text (written pub s0 x) = (pub.peer s0).out (texts x.run) by
    unfold texts
    rw [Publisher.out_encs, List.map_map]
    rfl]
  exact hmono

/-- **The system receives some bytes.** -/
theorem receive_core {data bytes : Bytes} {k : ℕ} {socket : Socket κ}
    (h : Core pub s0 S sub n x c) (hs : Incoming pub s0 x data c.redisParser)
    (hw : Writing c x.left) (hr : Reading c data)
    (hrecv : c.socket.receive k = some (bytes, socket)) :
    InSession pub s0 S sub n
      { c with socket := socket, buf := bytes ++ c.buf.drop bytes.length } := by
  unfold Socket.receive at hrecv
  rw [h.link] at hrecv
  cases hr with
  | received _ h1 h2 h3 h4 =>
    rw [h3] at hrecv
    cases hrecv
  | waiting h1 h2 =>
    rw [h1] at hrecv
    dsimp only at hrecv
    split_ifs at hrecv with hne
    cases hrecv
    generalize hb : (((pub.peer s0).out x.sent).drop x.taken).take
      (min (k + 1) Sync.Defs.bufferSize) = bytes at hne ⊢
    have hprefix : bytes <+: (text (written pub s0 x)).drop x.taken := by
      rw [← hb]
      exact (List.take_prefix _ _).trans ((out_le h).drop _)
    have hlen := hprefix.length_le
    rw [List.length_drop] at hlen
    have hrest : bytes ++ (text (written pub s0 x)).drop (x.taken + bytes.length) =
        (text (written pub s0 x)).drop x.taken := by
      rw [← List.drop_drop]
      exact List.prefix_iff_eq_append.mp hprefix
    refine ⟨{ x with taken := x.taken + bytes.length }, bytes,
      { h with
        link := rfl, connects := h.connects, connectsDone := h.connectsDone, taken_le := ?_ },
      ?_, hw.congr rfl rfl rfl rfl, .received _ hne ?_ rfl ?_⟩
    · have hle := h.taken_le
      show x.taken + bytes.length ≤ (text (written pub s0 x)).length
      omega
    · show Awaits _ (bytes ++ (text (written pub s0 x)).drop (x.taken + bytes.length)) _
      rw [hrest]
      exact hs
    · exact List.take_left
    · show c.socket.readsDone ++ _ = _
      rw [h2]
      rfl

end RedisClient.Async.Receive

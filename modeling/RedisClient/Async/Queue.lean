import RedisClient.Async.Moments
import RedisClient.Async.OwnReplies
import RedisClient.Async.Writes

/-! # The outgoing queue

`doAsyncCommand` puts a buffer into `dataQueued`. `asyncWrite` moves all of `dataQueued` to
`dataWrited` and hands it to `async_write`; it is called for a command that finds `dataWrited` empty,
and as the completion handler of a write. At most one write is outstanding, and nothing is lost,
repeated or reordered between the commands and the buffers that have been handed over (`queue_run`). -/

namespace RedisClient.Async.Queue

open RedisClient.Value RedisClient.Parser.Defs RedisClient.Commands RedisClient.Peers
open RedisClient.Async.Asio
open RedisClient.Async.Defs RedisClient.Async.Rules RedisClient.Async.Trace
open RedisClient.Async.Moments RedisClient.Async.OwnReplies RedisClient.Async.Writes
open RedisClient.Sync.Defs (SysError ErrorCode ClientState)

variable {κ : Type} {c c' : RedisClientImpl κ}

def handed? (m : Moment κ) : Option (List Bytes) :=
  match m.action with
  | .asyncWrite _ => some m.client.dataWrited
  | _ => none

/-- The buffers that `async_write` has been handed, call by call. -/
def handed (ms : List (Moment κ)) : List (List Bytes) := ms.filterMap handed?

def commanded? : Action κ → Option Bytes
  | .doAsyncCommand buff _ => some buff
  | _ => none

/-- The buffers that `doAsyncCommand` has been called with. -/
def commanded (t : List (Action κ)) : List Bytes := t.filterMap commanded?

/-- A write that is handed over writes the buffers of `dataWrited`, one after the other. -/
def Gathers (m : Moment κ) : Prop :=
  match m.action with
  | .asyncWrite data => data = m.client.dataWrited.flatten
  | _ => True

/-- The step is not the completion handler of a write that has failed. -/
def Succeeds (e : Event κ) (c : RedisClientImpl κ) : Prop :=
  match e with
  | .writeDone _ => ∀ ec ∈ c.socket.writesDone.head?, ec = none
  | _ => True

/-- No write fails in a run. -/
def WritesSucceed : List (Event κ) → RedisClientImpl κ → Prop
  | [], _ => True
  | e :: es, c => Succeeds e c ∧ ∀ c1 ∈ step e c, WritesSucceed es c1

/-! ### The buffers, in order -/

/-- What has been handed over and `dataQueued` are the commands so far, and `dataWrited` is what has
been handed over last. -/
structure Tally (pre : List (Moment κ)) (c : RedisClientImpl κ) : Prop where
  gathers : ∀ m ∈ pre, Gathers m
  last : c.dataWrited ≠ [] → (handed pre).getLast? = some c.dataWrited
  sum : (handed pre).flatten ++ c.dataQueued = commanded (pre.map Moment.action)

/-- The moments keep the tally of those before them. -/
def Tallies (c : RedisClientImpl κ) (ms : List (Moment κ)) (c' : RedisClientImpl κ) : Prop :=
  ∀ pre, Tally pre c → Tally (pre ++ ms) c'

theorem Tallies.append {ms ms' : List (Moment κ)} {c1 : RedisClientImpl κ} (h : Tallies c ms c1)
    (h' : Tallies c1 ms' c') : Tallies c (ms ++ ms') c' := by
  intro pre hpre
  rw [← List.append_assoc]
  exact h' _ (h pre hpre)

/-- Nothing is moved. -/
theorem Tallies.quiet (hqueued : c'.dataQueued = c.dataQueued)
    (hwrited : c'.dataWrited = c.dataWrited ∨ c'.dataWrited = []) : Tallies c [] c' := by
  intro pre hpre
  rw [List.append_nil]
  refine ⟨hpre.gathers, fun hne => ?_, ?_⟩
  · rcases hwrited with hw | hw
    · rw [hw] at hne ⊢
      exact hpre.last hne
    · exact absurd hw hne
  · rw [hqueued]
    exact hpre.sum

/-- An entry that is neither a command nor a write. -/
def Idle : Action κ → Prop
  | .doAsyncCommand _ _ | .asyncWrite _ => False
  | _ => True

theorem Tallies.one {m : Moment κ} (hm : Idle m.action) (hqueued : c'.dataQueued = c.dataQueued)
    (hwrited : c'.dataWrited = c.dataWrited) : Tallies c [m] c' := by
  intro pre hpre
  have hidle : Gathers m ∧ handed? m = none ∧ commanded? m.action = none := by
    rcases m with ⟨d, a, s⟩
    cases a with
    | doAsyncCommand | asyncWrite => exact hm.elim
    | call | returned | connect | reply | message | error | doProcessMessage =>
      exact ⟨trivial, rfl, rfl⟩
  have hhanded : handed (pre ++ [m]) = handed pre := by
    simp [handed, hidle.2.1]
  constructor
  · intro m' hm'
    rcases List.mem_append.mp hm' with hm' | hm'
    · exact hpre.gathers m' hm'
    · rw [List.mem_singleton.mp hm']
      exact hidle.1
  · rw [hhanded, hwrited]
    exact hpre.last
  · rw [hhanded, hqueued, hpre.sum]
    simp [commanded, hidle.2.2]

/-- The user's code moves no buffer. -/
theorem next_data (m : Moment κ) :
    m.next.dataQueued = m.client.dataQueued ∧ m.next.dataWrited = m.client.dataWrited := by
  rcases m with ⟨c, a, s⟩
  cases a with
  | call state call =>
    have hb := body_cases call (c.log (.call state call))
    show (call.body _).2.2.dataQueued = _ ∧ (call.body _).2.2.dataWrited = _
    generalize call.body (c.log (.call state call)) = r at hb ⊢
    cases hb <;> exact ⟨rfl, rfl⟩
  | _ => exact ⟨rfl, rfl⟩

theorem idle_of_scripted {a : Action κ} (h : Scripted a) : Idle a := by
  cases a <;> trivial

theorem carriesCalls_tallies : CarriesCalls (κ := κ) (fun _ => True) Tallies :=
  carriesCalls_of_scripted (fun _ => .quiet rfl (Or.inl rfl)) Tallies.append fun m hm _ =>
    .one (idle_of_scripted hm) (next_data m).1 (next_data m).2

theorem carries_tallies : CarriesLoop (κ := κ) (fun _ => True) Tallies where
  toCarriesCalls := carriesCalls_tallies
  processed _ := .one trivial rfl rfl
  front v cbs _ hQ := carriesCalls_tallies.callFront (fun _ => .one trivial rfl rfl)
    (fun _ => .quiet rfl (Or.inl rfl)) hQ
  postSingleShot channel msg c := by
    obtain ⟨ms, ss, hc⟩ := postSingleShot_posts channel msg c
    rw [hc]
    exact .quiet rfl (Or.inl rfl)
  postMessages channel msg c := by
    obtain ⟨ms, hc⟩ := postMessages_posts channel msg c
    rw [hc]
    exact .quiet rfl (Or.inl rfl)
  redisParser _ _ := .quiet rfl (Or.inl rfl)
  read _ := .quiet rfl (Or.inl rfl)
  command {buff handler strand c d} hs hd _ pre hpre := by
    subst hd
    have hhanded : handed (pre ++ [⟨{ c with strand := strand }, .doAsyncCommand buff handler,
        .returns⟩]) = handed pre := by simp [handed, handed?]
    refine ⟨fun m hm => ?_, ?_, ?_⟩
    · rcases List.mem_append.mp hm with hm | hm
      · exact hpre.gathers m hm
      · rw [List.mem_singleton.mp hm]
        trivial
    · rw [hhanded]
      exact hpre.last
    · show _ ++ (c.dataQueued ++ [buff]) = _
      rw [hhanded, ← List.append_assoc, hpre.sum]
      simp [commanded, commanded?]
  message _ _ hd _ := by
    subst hd
    exact .one trivial rfl rfl
  clear _ := .quiet rfl (Or.inr rfl)
  write {data c d} _ hdata hd _ pre hpre := by
    subst hd hdata
    refine ⟨fun m hm => ?_, fun _ => ?_, ?_⟩
    · rcases List.mem_append.mp hm with hm | hm
      · exact hpre.gathers m hm
      · rw [List.mem_singleton.mp hm]
        exact rfl
    · simp [handed, handed?, RedisClientImpl.log]
    · have hsum := hpre.sum
      simp only [handed, commanded] at hsum
      simp [handed, handed?, commanded, commanded?, RedisClientImpl.log, hsum]
  broken _ := .quiet rfl (Or.inl rfl)
  receive _ := .quiet rfl (Or.inl rfl)
  socket _ := .quiet rfl (Or.inl rfl)
  readDone _ := .quiet rfl (Or.inl rfl)
  writeDone _ := .quiet rfl (Or.inl rfl)
  connectDone _ _ hd _ := by
    subst hd
    exact .one trivial rfl rfl

theorem tally_run {es : List (Event κ)} (h : run es .new = some c) :
    Tally (runMoments es .new) c :=
  carries_tallies.run (fun _ _ => trivial) h []
    ⟨fun m hm => (by cases hm), fun hne => absurd rfl hne, rfl⟩

/-! ### No command is stranded -/

/-- While a command is queued, `dataWrited` holds something. -/
def Kicked (c : RedisClientImpl κ) : Prop := c.dataQueued ≠ [] → c.dataWrited ≠ []

theorem Kicked.congr (h : Kicked c) (hdata : c'.dataQueued = c.dataQueued ∧
    c'.dataWrited = c.dataWrited) : Kicked c' := by
  unfold Kicked
  rw [hdata.1, hdata.2]
  exact h

/-- No buffer is moved. -/
def Unmoved (c : RedisClientImpl κ) (_ : List (Moment κ)) (c' : RedisClientImpl κ) : Prop :=
  c'.dataQueued = c.dataQueued ∧ c'.dataWrited = c.dataWrited

theorem carriesCalls_unmoved : CarriesCalls (κ := κ) (fun _ => True) Unmoved :=
  carriesCalls_of_moment (fun _ => ⟨rfl, rfl⟩) (fun h h' => ⟨h'.1.trans h.1, h'.2.trans h.2⟩)
    fun m _ => next_data m

/-- User code and the functions that read move no buffer. -/
theorem carries_unmoved : CarriesInput (κ := κ) (fun _ => True) Unmoved where
  toCarriesCalls := carriesCalls_unmoved
  processed _ := ⟨rfl, rfl⟩
  front v cbs _ hQ := carriesCalls_unmoved.callFront (fun _ => ⟨rfl, rfl⟩) (fun _ => ⟨rfl, rfl⟩) hQ
  postSingleShot channel msg c := by
    obtain ⟨ms, ss, hc⟩ := postSingleShot_posts channel msg c
    rw [hc]
    exact ⟨rfl, rfl⟩
  postMessages channel msg c := by
    obtain ⟨ms, hc⟩ := postMessages_posts channel msg c
    rw [hc]
    exact ⟨rfl, rfl⟩
  redisParser _ _ := ⟨rfl, rfl⟩
  read _ := ⟨rfl, rfl⟩

theorem client_kicked {o : Outcome κ} (h : Kicked o.2.2) : Kicked o.client := by
  rcases o with ⟨_ | _ | _, cbs, c⟩ <;> exact h

theorem callback_kicked (cbs : Callbacks κ) (h : Kicked c) : Kicked (callback cbs c).2.2 :=
  h.congr (carriesCalls_unmoved.afterEntry fun _ _ => trivial)

/-- A write that has succeeded takes all that is queued. -/
theorem asyncWrite_kicked (cbs : Callbacks κ) (c : RedisClientImpl κ) :
    Kicked (asyncWrite none cbs c).2.2 := by
  unfold asyncWrite
  dsimp only
  split_ifs with hec hq
  · cases hec
  · exact fun hne => absurd rfl hne
  · exact fun hne => absurd hne hq

theorem doAsyncCommand_kicked (buff : Bytes) (handler : Option κ) (cbs : Callbacks κ)
    (c : RedisClientImpl κ) : Kicked (doAsyncCommand buff handler cbs c).2.2 := by
  unfold doAsyncCommand
  dsimp only
  split_ifs with hd
  · exact asyncWrite_kicked cbs _
  · exact fun _ => hd

theorem step_kicked {e : Event κ} (hc : Kicked c) (he : Succeeds e c)
    (hstep : step e c = some c') : Kicked c' := by
  obtain ⟨-, hs⟩ := step_cases hstep
  cases hs with
  | user s => exact hc.congr (carries_unmoved.runScript s c fun _ _ => trivial)
  | @posted cbs f strand hs =>
    apply client_kicked
    cases f with
    | doAsyncCommand buff handler => exact doAsyncCommand_kicked buff handler cbs _
    | message msgHandler msg => exact callback_kicked cbs (hc.congr ⟨rfl, rfl⟩)
  | @readDone cbs ec size readsDone o hs ho =>
    have hread := carries_unmoved.reads.asyncRead (fun _ _ => trivial) ho
    exact client_kicked (hc.congr hread)
  | @writeDone cbs ec writesDone hs =>
    obtain rfl : ec = none := he ec (by rw [hs]; rfl)
    exact client_kicked (asyncWrite_kicked cbs _)
  | @connectDone cbs ec handler connectsDone hs =>
    refine client_kicked (hc.congr ?_)
    have hcall : Unmoved _ _ (handleAsyncConnect ec handler cbs
        { c with socket := { c.socket with connectsDone := connectsDone } }).2.2 :=
      carries_unmoved.reads.handleAsyncConnect rfl fun _ _ => trivial
    exact hcall
  | receive | readFail | send | writeFail | connectOk | connectFail => exact hc.congr ⟨rfl, rfl⟩

theorem run_kicked {es : List (Event κ)} (hes : WritesSucceed es c) (hc : Kicked c)
    (hrun : run es c = some c') : Kicked c' :=
  run_invariant (P := WritesSucceed)
    (fun _ _ _ c1 hes hc h1 => ⟨step_kicked hc hes.1 h1, hes.2 c1 h1⟩) hes hc hrun

/-- **The outgoing queue loses, repeats and reorders nothing.** After every run at most one write is
outstanding, and one is exactly while `dataWrited` is not empty. Its buffers are still in `dataWrited`,
and what it has yet to move is an end of them. The buffers that have been handed to `async_write`, and
those in `dataQueued` after them, are those of the commands, in their order. If no write has failed,
one is outstanding while a command is queued. -/
theorem queue_run {es : List (Event κ)} (h : run es .new = some c) :
    outstanding c.socket ≤ 1 ∧ (outstanding c.socket = 1 ↔ c.dataWrited ≠ []) ∧
      (c.dataWrited ≠ [] → (handed (runMoments es .new)).getLast? = some c.dataWrited) ∧
      (∀ left ∈ c.socket.writes, left <:+ c.dataWrited.flatten) ∧
      (∀ m ∈ runMoments es .new, Gathers m) ∧
      (handed (runMoments es .new)).flatten ++ c.dataQueued = commanded c.trace ∧
      (WritesSucceed es .new → c.dataQueued ≠ [] → outstanding c.socket = 1) := by
  obtain ⟨hone, hleft⟩ := flight_run h
  obtain ⟨hgathers, hlast, hsum⟩ := tally_run h
  have htrace : (runMoments es .new).map Moment.action = c.trace := (runMoments_trace h).symm
  have hiff : outstanding c.socket = 1 ↔ c.dataWrited ≠ [] := by
    rw [hone]
    split_ifs with hd <;> simp [hd]
  refine ⟨?_, hiff, hlast, hleft, hgathers, ?_, fun hes hq => hiff.mpr ?_⟩
  · rw [hone]
    split_ifs <;> omega
  · rw [hsum, htrace]
  · exact run_kicked hes (fun hne => absurd rfl hne) h hq

instance : (e : Event κ) → (c : RedisClientImpl κ) → Decidable (Succeeds e c)
  | .writeDone _, c => inferInstanceAs (Decidable (∀ ec ∈ c.socket.writesDone.head?, ec = none))
  | .user _, _ | .posted _, _ | .receive _, _ | .readFail _, _ | .readDone _, _ | .send _, _
  | .writeFail _, _ | .connectOk _, _ | .connectFail _, _ | .connectDone _, _ => isTrue trivial

instance decidableWritesSucceed :
    (es : List (Event κ)) → (c : RedisClientImpl κ) → Decidable (WritesSucceed es c)
  | [], _ => isTrue trivial
  | e :: es, c =>
    match h : step e c with
    | none => decidable_of_iff (Succeeds e c) ⟨fun he => ⟨he, by simp [h]⟩, fun he => he.1⟩
    | some c1 =>
      have := decidableWritesSucceed es c1
      decidable_of_iff (Succeeds e c ∧ WritesSucceed es c1)
        ⟨fun he => ⟨he.1, by simpa [h] using he.2⟩, fun he => ⟨he.1, he.2 c1 h⟩⟩

/-- A command is in flight when two more are issued; they go out in one write, of which one byte has
moved when a fourth is issued. -/
def backlog : List (Event ℕ) :=
  dial (pong.peer ()) ++ [.connectDone [.call (.command [65] [] none) .returns .returns],
    .posted [], .send 3, .user (.call (.command [66] [] none) .returns
      (.call (.command [67] [] none) .returns .returns)), .posted [], .send 99, .posted [],
    .writeDone [], .send 0, .user (.call (.command [68] [] none) .returns .returns), .posted []]

/-- What is in flight was queued behind the first command, and the last one waits. -/
theorem queue_run_backlog : ∃ c, run backlog .new = some c ∧
    c.dataQueued = [makeCommand [.string [68]]] ∧ outstanding c.socket = 1 ∧
    (handed (runMoments backlog .new)).flatten ++ c.dataQueued = commanded c.trace := by
  have hqueued : (run backlog .new).map RedisClientImpl.dataQueued =
      some [makeCommand [.string [68]]] := by decide +kernel
  obtain ⟨c, hrun, hc⟩ := Option.map_eq_some_iff.mp hqueued
  obtain ⟨-, -, -, -, -, hsum, hkick⟩ := queue_run hrun
  have hes : WritesSucceed backlog .new := by decide +kernel
  refine ⟨c, hrun, hc, hkick hes ?_, hsum⟩
  rw [hc]
  exact List.cons_ne_nil _ _

end RedisClient.Async.Queue

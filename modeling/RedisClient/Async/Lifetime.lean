import RedisClient.Async.Ending
import RedisClient.Async.Wire

/-! # What outlives the client

`~RedisAsyncClient` closes the implementation and gives up its reference to it. The completion handlers
of the socket hold references of their own (`shared_from_this`), and so do the functions that `command`
and `publish` post; those that the other calls post hold `this`, a plain pointer. The implementation is
freed when nothing refers to it any more, and a function with a plain pointer must not be run after
that.

None is, in whatever order the loop runs what is left, exactly when the client is not destroyed with
such a function posted last (`destroy_safe_iff`). Then the loop comes to an end, and the implementation
is freed (`destroy_ends`). -/

namespace RedisClient.Async.Lifetime

open RedisClient.Value RedisClient.Commands RedisClient.Async.Asio RedisClient.Async.Defs
open RedisClient.Async.Rules RedisClient.Async.Trace RedisClient.Async.Session
open RedisClient.Async.Moments RedisClient.Async.Progress RedisClient.Async.Ending
open RedisClient.Async.Wire RedisClient.Async.OwnReplies RedisClient.Lib.Runs
open RedisClient.Async.Dialling (silent)
open RedisClient.Sync.Defs (ErrorCode ClientState)

variable {κ : Type} {c c' : RedisClientImpl κ}

/-! ### What the posted commands hold -/

/-- The call binds the shared pointer to what it posts, and not `this`. -/
def shares : Call κ → Bool
  | .command _ _ _ | .publish _ _ _ => true
  | _ => false

def made? : Action κ → Option (Call κ)
  | .call state call => if accepted state call then some call else none
  | _ => none

/-- The calls that have been accepted. -/
def made (t : List (Action κ)) : List (Call κ) := t.filterMap made?

/-- **What the commands on the strand hold**, in their order: a reference, or a plain pointer. -/
def pointers (c : RedisClientImpl κ) : List Bool :=
  ((made c.trace).map shares).drop (ordered c.trace).length

/-- The commands that have been run and those posted are the ones issued. -/
def Sent (c : RedisClientImpl κ) : Prop :=
  (issued c.trace).map order = ordered c.trace ++ c.strand.filterMap posted?

theorem made_append (t u : List (Action κ)) : made (t ++ u) = made t ++ made u :=
  List.filterMap_append

theorem made_length (t : List (Action κ)) : (made t).length = (issued t).length := by
  induction t with
  | nil => rfl
  | cons a t ih =>
    have hone : (made? a).isSome = (issued? a).isSome := by
      cases a with
      | call state call =>
        rcases hacc : accepted state call with _ | _
        · simp [made?, issued?, hacc]
        · obtain ⟨q, hq⟩ := request_of_accepted hacc
          simp [made?, issued?, hacc, hq]
      | _ => rfl
    unfold made issued at ih ⊢
    rcases hm : made? a with _ | call <;> rcases hi : issued? a with _ | q <;>
      rw [hm, hi] at hone <;> simp at hone <;> simp [hm, hi, ih]

/-- There is a pointer for each command that is posted. -/
theorem Sent.pointers_length (h : Sent c) :
    (pointers c).length = (c.strand.filterMap posted?).length := by
  have hlen := congrArg List.length h
  simp only [List.length_map, List.length_append] at hlen
  unfold pointers
  rw [List.length_drop, List.length_map, made_length]
  omega

theorem sent_run {es : List (Event κ)} (h : run es .new = some c) : Sent c := posted_run h

/-! ### After the destructor -/

/-- Nothing refers to the implementation. -/
def Unheld (c : RedisClientImpl κ) : Prop :=
  c.socket.reads = 0 ∧ c.socket.readsDone = [] ∧ c.socket.writes = [] ∧ c.socket.writesDone = [] ∧
    c.socket.connects = [] ∧ c.socket.connectsDone = [] ∧ true ∉ pointers c

instance (c : RedisClientImpl κ) : Decidable (Unheld c) := by unfold Unheld; infer_instance

/-- An implementation whose `RedisAsyncClient` has been destroyed, and whether it is freed. -/
structure Orphan (κ : Type) where
  client : RedisClientImpl κ
  freed : Bool

/-- `~RedisClientImpl`, if nothing refers to it any more. -/
def Orphan.release (o : Orphan κ) : Orphan κ :=
  if o.freed = false ∧ Unheld o.client then ⟨o.client.close, true⟩ else o

/-- `~RedisAsyncClient`. -/
def destroy (c : RedisClientImpl κ) : Orphan κ := Orphan.release ⟨c.close, false⟩

/-- The step runs a command. -/
def runsCommand (e : Event κ) (strand : List (Posted κ)) : Bool :=
  match e, strand with
  | .posted _, .doAsyncCommand _ _ :: _ => true
  | _, _ => false

/-- **A step of the loop** after the destructor. The user's code cannot call the client any more, and
what comes after a command on an implementation that is freed is undefined. -/
def Orphan.step (e : Event κ) (o : Orphan κ) : Option (Orphan κ) :=
  if (Mute e ∧ OfLoop e) ∧ ¬ (o.freed = true ∧ runsCommand e o.client.strand = true) then
    (Defs.step e o.client).map fun c => Orphan.release ⟨c, o.freed⟩
  else none

/-- The implementation is freed, and a command is posted that points to it. -/
def Orphan.Dangles (o : Orphan κ) : Prop := o.freed = true ∧ pointers o.client ≠ []

instance (o : Orphan κ) : Decidable o.Dangles := inferInstanceAs (Decidable (_ ∧ _))

/-! ### One step -/

theorem pointers_congr (h : c'.trace = c.trace) : pointers c' = pointers c := by
  unfold pointers
  rw [h]

theorem Sent.congr (h : Sent c) (htrace : c'.trace = c.trace) (hstrand : c'.strand = c.strand) :
    Sent c' := by
  unfold Sent
  rw [htrace, hstrand]
  exact h

theorem strandAfter_commands (e : Event κ) (strand : List (Posted κ)) :
    (strand.filterMap posted?).length = (if runsCommand e strand then 1 else 0) +
      ((strandAfter e strand).filterMap posted?).length := by
  cases e with
  | posted cbs =>
    rcases strand with _ | ⟨_ | _, strand⟩
    · rfl
    · exact Nat.add_comm _ 1
    · exact (Nat.zero_add _).symm
  | _ => exact (Nat.zero_add _).symm

/-- A step whose callbacks make no calls takes the pointer of the command that it runs. -/
theorem step_pointers {e : Event κ} (hsent : Sent c) (he : Mute e) (hstep : step e c = some c')
    (hstrand : c'.strand = strandAfter e c.strand) :
    Sent c' ∧ pointers c' = if runsCommand e c.strand then (pointers c).tail else pointers c := by
  have hrec := stepMoments_recorded he c
  have htrace : c'.trace = c.trace ++ (stepMoments e c).map Moment.action :=
    carries_trace.events.step (fun _ _ => trivial) hstep
  have hposts : Posts c (stepMoments e c) c' :=
    carries_posts.events.step (stepMoments_recorded (allIn_true e) c) hstep
  -- no call is made
  have hnone : ∀ a ∈ (stepMoments e c).map Moment.action, ∀ state call, a ≠ .call state call := by
    intro a ha state call hcall
    obtain ⟨m, hm, rfl⟩ := List.mem_map.mp ha
    have h1 := hrec m hm
    unfold Recorded at h1
    rw [hcall] at h1
    exact h1.2
  have hmade : made ((stepMoments e c).map Moment.action) = [] := by
    refine List.filterMap_eq_nil_iff.mpr fun a ha => ?_
    cases a with
    | call state call => exact absurd rfl (hnone _ ha state call)
    | _ => rfl
  have hissued : issued ((stepMoments e c).map Moment.action) = [] := by
    refine List.length_eq_zero_iff.mp ?_
    rw [← made_length, hmade]
    rfl
  have hsent' : Sent c' := by
    have h1 := hsent
    unfold Posts at hposts
    unfold Sent at h1 ⊢
    rw [hissued, List.map_nil, List.append_nil] at hposts
    rw [htrace, issued_append, hissued, List.append_nil, h1, ordered_append, hposts,
      List.append_assoc]
  refine ⟨hsent', ?_⟩
  have hdrop : pointers c' =
      (pointers c).drop (ordered ((stepMoments e c).map Moment.action)).length := by
    unfold pointers
    rw [htrace, made_append, hmade, List.append_nil, ordered_append, List.length_append,
      List.drop_drop]
  -- the commands that are run are those that leave the strand
  have hran : (ordered ((stepMoments e c).map Moment.action)).length =
      if runsCommand e c.strand then 1 else 0 := by
    have hlen := congrArg List.length hposts
    rw [hissued, List.map_nil, List.append_nil, List.length_append, hstrand] at hlen
    have hcount := strandAfter_commands e c.strand
    omega
  rw [hdrop, hran]
  split_ifs
  · exact List.drop_one
  · exact List.drop_zero

/-! ### The invariant -/

/-- What holds of an implementation after the destructor: it is shut; when it is freed, no reference is
posted, and until then something refers to it. -/
structure Orphan.Sane (o : Orphan κ) : Prop where
  shut : Shut o.client
  sent : Sent o.client
  freed : o.freed = true → true ∉ pointers o.client
  held : o.freed = false → ¬ Unheld o.client

/-- To close a client that is shut changes nothing that is left to run. -/
theorem effort_close (h : Shut c) : effort c.close = effort c := by
  simp [effort, RedisClientImpl.close, Socket.close, h.reads, h.writes, h.connects]

theorem release_sane {freed : Bool} (hshut : Shut c) (hsent : Sent c)
    (hfreed : freed = true → true ∉ pointers c) :
    (Orphan.release ⟨c, freed⟩).Sane ∧ (Orphan.release ⟨c, freed⟩).client.strand = c.strand ∧
      pointers (Orphan.release ⟨c, freed⟩).client = pointers c ∧
      effort (Orphan.release ⟨c, freed⟩).client = effort c := by
  unfold Orphan.release
  dsimp only
  split_ifs with hu
  · refine ⟨⟨shut_close hshut.broken hshut.parser, hsent.congr rfl rfl, fun _ => ?_, nofun⟩, rfl,
      pointers_congr rfl, effort_close hshut⟩
    have hsame : pointers c.close = pointers c := pointers_congr rfl
    show true ∉ pointers c.close
    rw [hsame]
    exact hu.2.2.2.2.2.2.2
  · exact ⟨⟨hshut, hsent, hfreed, fun hf hun => hu ⟨hf, hun⟩⟩, rfl, rfl, rfl⟩

theorem destroy_sane {es : List (Event κ)} (h : run es .new = some c) (hb : c.broken = false) :
    (destroy c).Sane ∧ pointers (destroy c).client = pointers c ∧
      effort (destroy c).client = effort c.close := by
  have hsent : Sent c.close := (sent_run h).congr rfl rfl
  have hfreed : false = true → true ∉ pointers c.close := by simp
  obtain ⟨hsane, -, hp, he⟩ := release_sane (shut_close hb (parser_run h)) hsent hfreed
  exact ⟨hsane, hp.trans (pointers_congr rfl), he⟩

/-- **A step** keeps the invariant, takes the pointer of the command that it runs, and leaves less to
run. -/
theorem step_sane {e : Event κ} {o o' : Orphan κ} (h : o.Sane) (hstep : o.step e = some o') :
    o'.Sane ∧ pointers o'.client =
      (if runsCommand e o.client.strand then (pointers o.client).tail else pointers o.client) ∧
      effort o'.client < effort o.client := by
  unfold Orphan.step at hstep
  split_ifs at hstep with hguard
  obtain ⟨c, hc, rfl⟩ := Option.map_eq_some_iff.mp hstep
  obtain ⟨hshut, hstrand, hlt⟩ := shut_step h.shut hguard.1.1 hguard.1.2 hc
  obtain ⟨hsent, hp⟩ := step_pointers h.sent hguard.1.1 hc hstrand
  have hfreed : o.freed = true → true ∉ pointers c := by
    intro hf hmem
    rw [hp] at hmem
    split_ifs at hmem
    · exact h.freed hf (List.mem_of_mem_tail hmem)
    · exact h.freed hf hmem
  obtain ⟨hsane, -, hp', he'⟩ := release_sane hshut hsent hfreed
  exact ⟨hsane, hp'.trans hp, he'.symm ▸ hlt⟩

/-- Something refers to an implementation that is not freed: a completion handler that waits for its
turn, or a command. -/
theorem Orphan.Sane.busy {o : Orphan κ} (h : o.Sane) (hf : o.freed = false) :
    o.client.socket.readsDone ≠ [] ∨ o.client.socket.writesDone ≠ [] ∨
      o.client.socket.connectsDone ≠ [] ∨ true ∈ pointers o.client := by
  have hheld := h.held hf
  unfold Unheld at hheld
  simp only [h.shut.reads, h.shut.writes, h.shut.connects, true_and] at hheld
  tauto

/-- **What waits for its turn can be run.** -/
theorem Orphan.Sane.step_possible {o : Orphan κ} (h : o.Sane) :
    (o.client.socket.readsDone ≠ [] → ∃ o', o.step (.readDone []) = some o') ∧
    (o.client.socket.writesDone ≠ [] → ∃ o', o.step (.writeDone []) = some o') ∧
    (o.client.socket.connectsDone ≠ [] → ∃ o', o.step (.connectDone []) = some o') ∧
    (o.client.strand ≠ [] → ¬ (o.freed = true ∧ runsCommand (.posted []) o.client.strand = true) →
      ∃ o', o.step (.posted []) = some o') := by
  have hmute : MuteAll ([] : Callbacks κ) := by simp [AllOf]
  obtain ⟨hp, hr, hw, hcd⟩ := Progress.step_possible h.shut.broken h.shut.parser []
  have key : ∀ {e : Event κ} {c : RedisClientImpl κ}, Mute e → OfLoop e →
      ¬ (o.freed = true ∧ runsCommand e o.client.strand = true) →
      Defs.step e o.client = some c → ∃ o', o.step e = some o' := by
    intro e c he hl hguard hc
    refine ⟨Orphan.release ⟨c, o.freed⟩, ?_⟩
    rw [Orphan.step, if_pos ⟨⟨he, hl⟩, hguard⟩, hc, Option.map_some]
  refine ⟨fun hne => ?_, fun hne => ?_, fun hne => ?_, fun hne hguard => ?_⟩
  · obtain ⟨c, hc⟩ := hr hne
    exact key hmute trivial (by simp [runsCommand]) hc
  · obtain ⟨c, hc⟩ := hw hne
    exact key hmute trivial (by simp [runsCommand]) hc
  · obtain ⟨c, hc⟩ := hcd hne
    exact key hmute trivial (by simp [runsCommand]) hc
  · obtain ⟨c, hc⟩ := hp hne
    exact key hmute trivial hguard hc

theorem Sent.strand_ne_nil (h : Sent c) (hp : pointers c ≠ []) : c.strand ≠ [] := by
  intro hs
  have hlen := h.pointers_length
  rw [hs] at hlen
  exact hp (List.length_eq_zero_iff.mp hlen)

/-! ### Which destructions are safe -/

theorem getLast?_tail {α : Type} {x : α} : ∀ {l : List α}, l.tail ≠ [] →
    (l.tail.getLast? = some x ↔ l.getLast? = some x)
  | [], h => absurd rfl h
  | [_], h => absurd rfl h
  | _ :: _ :: _, _ => by simp

/-- No plain pointer is posted last. -/
def Safe (c : RedisClientImpl κ) : Prop := (pointers c).getLast? ≠ some false

instance (c : RedisClientImpl κ) : Decidable (Safe c) := inferInstanceAs (Decidable (_ ≠ _))

/-- It stays so. -/
theorem step_safe {e : Event κ} {o o' : Orphan κ} (h : o.Sane) (hs : Safe o.client)
    (hstep : o.step e = some o') : o'.Sane ∧ Safe o'.client := by
  obtain ⟨hsane, hp, -⟩ := step_sane h hstep
  refine ⟨hsane, ?_⟩
  unfold Safe at hs ⊢
  rw [hp]
  split_ifs
  · by_cases ht : (pointers o.client).tail = []
    · simp [ht]
    · rw [Ne, getLast?_tail ht]
      exact hs
  · exact hs

/-- When references are all that was posted last, none but references dangle, and they do not. -/
theorem Orphan.Sane.not_dangles {o : Orphan κ} (h : o.Sane) (hs : Safe o.client) : ¬ o.Dangles := by
  rintro ⟨hf, hne⟩
  refine hs ?_
  rw [List.getLast?_eq_some_getLast hne, Option.some_inj]
  have hmem := List.getLast_mem hne
  rcases hlast : (pointers o.client).getLast hne with _ | _
  · rfl
  · rw [hlast] at hmem
    exact absurd hmem (h.freed hf)

/-- Otherwise a step brings the end nearer, until the implementation is freed. -/
theorem unsafe_step {o : Orphan κ} (h : o.Sane) (hs : ¬ Safe o.client) (hf : o.freed = false) :
    ∃ e o', o.step e = some o' ∧ (o'.Sane ∧ ¬ Safe o'.client) ∧
      effort o'.client < effort o.client := by
  have hlast : (pointers o.client).getLast? = some false := not_not.mp hs
  obtain ⟨hread, hwrite, hconnect, hposted⟩ := h.step_possible
  -- a completion handler takes no pointer
  have key : ∀ {e : Event κ} {o' : Orphan κ}, (runsCommand e o.client.strand = true →
      (pointers o.client).tail ≠ []) → o.step e = some o' → ∃ e o', o.step e = some o' ∧
        (o'.Sane ∧ ¬ Safe o'.client) ∧ effort o'.client < effort o.client := by
    intro e o' htail hstep
    obtain ⟨hsane, hp, hlt⟩ := step_sane h hstep
    refine ⟨e, o', hstep, ⟨hsane, not_not.mpr ?_⟩, hlt⟩
    rw [hp]
    split_ifs with hr
    · exact (getLast?_tail (htail hr)).mpr hlast
    · exact hlast
  rcases h.busy hf with hne | hne | hne | hmem
  · obtain ⟨o', ho'⟩ := hread hne
    exact key (by simp [runsCommand]) ho'
  · obtain ⟨o', ho'⟩ := hwrite hne
    exact key (by simp [runsCommand]) ho'
  · obtain ⟨o', ho'⟩ := hconnect hne
    exact key (by simp [runsCommand]) ho'
  · obtain ⟨o', ho'⟩ := hposted (h.sent.strand_ne_nil (List.ne_nil_of_mem hmem)) (by simp [hf])
    -- a reference and the plain pointer that is last are two
    refine key (fun _ ht => ?_) ho'
    rcases hx : pointers o.client with _ | ⟨x, xs⟩ <;> rw [hx] at hmem hlast ht
    · cases hmem
    · obtain rfl : xs = [] := ht
      rw [List.getLast?_singleton, Option.some_inj] at hlast
      rw [hlast] at hmem
      simp at hmem

/-- **Which destructions are safe.** No function with a plain pointer is left on the strand when the
implementation is freed, in whatever order the loop runs what is left, exactly if the command that has
been posted last, if any, is one of `command` or `publish`. -/
theorem destroy_safe_iff {es : List (Event κ)} (h : run es .new = some c) (hb : c.broken = false) :
    (∀ es' o, runs Orphan.step es' (destroy c) = some o → ¬ o.Dangles) ↔
      (pointers c).getLast? ≠ some false := by
  obtain ⟨hsane, hp, -⟩ := destroy_sane h hb
  constructor
  · intro hall hlast
    have hunsafe : ¬ Safe (destroy c).client := by
      unfold Safe
      rw [hp]
      exact not_not.mpr hlast
    have hstep : ∀ o : Orphan κ, o.Sane ∧ ¬ Safe o.client → ¬ o.freed = true →
        ∃ e o', True ∧ o.step e = some o' ∧ (o'.Sane ∧ ¬ Safe o'.client) ∧
          effort o'.client < effort o.client := by
      intro o ho hf
      obtain ⟨e, o', hstep, ho', hlt⟩ := unsafe_step ho.1 ho.2 (by simpa using hf)
      exact ⟨e, o', trivial, hstep, ho', hlt⟩
    obtain ⟨es', o, -, hrun, ⟨-, ho⟩, hf⟩ :=
      exists_runs_of_lowers (P := fun _ => True) hstep ⟨hsane, hunsafe⟩
    refine hall es' o hrun ⟨hf, fun hnil => ho ?_⟩
    unfold Safe
    rw [hnil]
    simp
  · intro hsafe es' o hrun
    have hsafe' : Safe (destroy c).client := by
      unfold Safe
      rw [hp]
      exact hsafe
    have ho := runs_induction (P := fun _ => True)
      (I := fun o : Orphan κ => o.Sane ∧ Safe o.client)
      (fun e o o' _ ho hstep => step_safe ho.1 ho.2 hstep) (fun _ _ => trivial) ⟨hsane, hsafe'⟩ hrun
    exact ho.1.not_dangles ho.2

/-- A client is connected, and its handler subscribes. -/
def subscribed : List (Event ℕ) :=
  dial silent ++ [.connectDone [.call (.subscribe [65] 1 none) .returns .returns]]

/-- With the command of a subscription posted last it is not safe. -/
theorem destroy_safe_iff_subscribed : ∃ c, run subscribed .new = some c ∧
    ¬ ∀ es' o, runs Orphan.step es' (destroy c) = some o → ¬ o.Dangles := by
  have hlast : (run subscribed .new).map (fun c => (c.broken, (pointers c).getLast?)) =
      some (false, some false) := by decide +kernel
  obtain ⟨c, hc, heq⟩ := Option.map_eq_some_iff.mp hlast
  obtain ⟨hb, hp⟩ := Prod.mk.inj heq
  refine ⟨c, hc, fun hall => ?_⟩
  exact (destroy_safe_iff hc hb).mp hall hp

/-- **A client that is destroyed safely ends.** The loop has at most `effort` left to run, and when it
has nothing left, the implementation is freed and nothing is posted. -/
theorem destroy_ends {es es' : List (Event κ)} {o : Orphan κ} (h : run es .new = some c)
    (hb : c.broken = false) (hsafe : (pointers c).getLast? ≠ some false)
    (hrun : runs Orphan.step es' (destroy c) = some o) :
    es'.length + effort o.client ≤ effort c.close ∧
      ((∀ e, o.step e = none) → o.freed = true ∧ o.client.strand = []) := by
  obtain ⟨hsane, hp, heffort⟩ := destroy_sane h hb
  have hsafe' : Safe (destroy c).client := by
    unfold Safe
    rw [hp]
    exact hsafe
  have ho := runs_induction (P := fun _ => True)
    (I := fun o : Orphan κ => o.Sane ∧ Safe o.client)
    (fun e o o' _ ho hstep => step_safe ho.1 ho.2 hstep) (fun _ _ => trivial) ⟨hsane, hsafe'⟩ hrun
  have hlen := length_le_of_lowers (P := fun _ => True) (I := Orphan.Sane)
    (μ := fun o : Orphan κ => effort o.client)
    (fun e o o' _ ho hstep => ⟨(step_sane ho hstep).1, (step_sane ho hstep).2.2⟩)
    (fun _ _ => trivial) hsane hrun
  refine ⟨heffort ▸ hlen, fun hstuck => ?_⟩
  have hnone : ∀ {e : Event κ}, ¬ ∃ o', o.step e = some o' := by
    rintro e ⟨o', ho'⟩
    rw [hstuck e] at ho'
    cases ho'
  obtain ⟨hread, hwrite, hconnect, hposted⟩ := ho.1.step_possible
  have hf : o.freed = true := by
    by_contra hf
    have hf : o.freed = false := by simpa using hf
    rcases ho.1.busy hf with hne | hne | hne | hmem
    · exact hnone (hread hne)
    · exact hnone (hwrite hne)
    · exact hnone (hconnect hne)
    · exact hnone (hposted (ho.1.sent.strand_ne_nil (List.ne_nil_of_mem hmem)) (by simp [hf]))
  refine ⟨hf, by_contra fun hne => hnone (hposted hne ?_)⟩
  -- what is left on the strand are messages
  rintro ⟨-, hr⟩
  refine ho.1.not_dangles ho.2 ⟨hf, fun hnil => ?_⟩
  have hlen := ho.1.sent.pointers_length
  rw [hnil] at hlen
  have hcount := strandAfter_commands (.posted []) o.client.strand
  rw [hr, if_pos rfl] at hcount
  rw [List.length_nil] at hlen
  omega

/-- A client is connected, and its handler unsubscribes and issues a command. -/
def unsubscribed : List (Event ℕ) :=
  dial silent ++ [.connectDone [.call (.unsubscribe ⟨0, [65]⟩) .returns
    (.call (.command [66] [] none) .returns .returns)]]

/-- What the loop has left to run after the destructor: both commands, the read that has been aborted,
and the write of the first, which fails. -/
def rest : List (Event ℕ) := [.posted [], .readDone [], .posted [], .writeDone []]

theorem destroy_ends_unsubscribed : ∃ c o, run unsubscribed .new = some c ∧
    runs Orphan.step rest (destroy c) = some o ∧ pointers c = [false, true] ∧
    rest.length + effort o.client ≤ effort c.close ∧
      ((∀ e, o.step e = none) → o.freed = true ∧ o.client.strand = []) := by
  have hrest : ((run unsubscribed .new).bind fun c => (runs Orphan.step rest (destroy c)).map
      fun _ => (c.broken, pointers c)) = some (false, [false, true]) := by decide +kernel
  obtain ⟨c, hc, hmap⟩ := Option.bind_eq_some_iff.mp hrest
  obtain ⟨o, ho, heq⟩ := Option.map_eq_some_iff.mp hmap
  obtain ⟨hb, hp⟩ := Prod.mk.inj heq
  exact ⟨c, o, hc, ho, hp, destroy_ends hc hb (by simp [hp]) ho⟩

end RedisClient.Async.Lifetime

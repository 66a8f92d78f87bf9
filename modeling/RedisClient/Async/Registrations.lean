import RedisClient.Async.Moments
import Mathlib.Data.List.Induction

/-! # Registrations of message handlers

`msgHandlers` and `subscribeSeq` are touched by calls only (`linked_run`): a subscription adds an entry
with the next number, `unsubscribe` takes entries away, `disconnect` all of them (`effect`). So each
entry has been added by one call of the run, and the numbers of the entries grow with the calls. -/

namespace RedisClient.Async.Registrations

open RedisClient.Value RedisClient.Parser.Defs RedisClient.Peers RedisClient.Async.Asio
open RedisClient.Async.Defs RedisClient.Async.Rules RedisClient.Async.Trace
open RedisClient.Async.Moments
open RedisClient.Sync.Defs (SysError ErrorCode ClientState)

variable {κ : Type} {c c' : RedisClientImpl κ} {ms : List (Moment κ)}

/-! ### Between the moments -/

/-- The members that hold the registrations. -/
def registrations (c : RedisClientImpl κ) : List (MsgHandler κ) × ℕ :=
  (c.msgHandlers, c.subscribeSeq)

/-- Each moment begins with the registrations that the one before it leaves. -/
def Linked (c : RedisClientImpl κ) (ms : List (Moment κ)) (c' : RedisClientImpl κ) : Prop :=
  LinkedBy registrations (fun m => registrations m.next) (registrations c) ms (registrations c')

theorem Linked.split {m : Moment κ} {post : List (Moment κ)} {pre : List (Moment κ)}
    (h : Linked c (pre ++ m :: post) c') : Linked c pre m.client ∧ Linked m.next post c' :=
  LinkedBy.split h

theorem Linked.at {i : ℕ} {m : Moment κ} (h : Linked c ms c') (hi : ms[i]? = some m) :
    Linked c (ms.take i) m.client :=
  LinkedBy.at h hi

/-- The moment that ends a run, and those before it. -/
theorem Linked.concat {m : Moment κ} (h : Linked c (ms ++ [m]) c') :
    Linked c ms m.client ∧ registrations c' = registrations m.next :=
  h.split

theorem carriesCalls_linked : CarriesCalls (κ := κ) (fun _ => True) Linked :=
  carriesCalls_of_moment (fun _ => rfl) LinkedBy.append fun _ _ => ⟨rfl, rfl⟩

theorem carries_linked : CarriesLoop (κ := κ) (fun _ => True) Linked where
  toCarriesCalls := carriesCalls_linked
  processed _ := ⟨rfl, rfl⟩
  front v cbs _ hQ := carriesCalls_linked.callFront (fun _ => ⟨rfl, rfl⟩) (fun _ => rfl) hQ
  postSingleShot channel msg c := by
    obtain ⟨ms, ss, hc⟩ := postSingleShot_posts channel msg c
    rw [hc]
    exact rfl
  postMessages channel msg c := by
    obtain ⟨ms, hc⟩ := postMessages_posts channel msg c
    rw [hc]
    exact rfl
  redisParser _ _ := rfl
  read _ := rfl
  command _ hd _ := by
    subst hd
    exact ⟨rfl, rfl⟩
  message _ _ hd _ := by
    subst hd
    exact ⟨rfl, rfl⟩
  clear _ := rfl
  write _ _ hd _ := by
    subst hd
    exact ⟨rfl, rfl⟩
  broken _ := rfl
  receive _ := rfl
  socket _ := rfl
  readDone _ := rfl
  writeDone _ := rfl
  connectDone _ _ hd _ := by
    subst hd
    exact ⟨rfl, rfl⟩

/-- **Only the moments touch the registrations.** -/
theorem linked_run {es : List (Event κ)} (h : run es c = some c') :
    Linked c (runMoments es c) c' :=
  carries_linked.run (fun _ _ => trivial) h

/-! ### What a moment does -/

/-- The entry that is added, if any: it comes after those that are there. -/
def inserted? (m : Moment κ) : Option (MsgHandler κ) :=
  m.next.msgHandlers[m.client.msgHandlers.length]?

/-- The handle that a call returns. -/
def handle? (m : Moment κ) : Option Handle :=
  match m.action with
  | .call _ call => (call.body (m.client.log m.action)).2.1
  | _ => none

/-- The handle that is unsubscribed. -/
def dropped? (m : Moment κ) : Option Handle :=
  match m.action with
  | .call _ (.unsubscribe handle) | .call _ (.punsubscribe handle) => some handle
  | _ => none

/-- What a moment does to the registrations. -/
inductive Effect (m : Moment κ) : Prop where
  | insert (e : MsgHandler κ) : m.client.isConnected = true → e.id = m.client.subscribeSeq →
      registrations m.next = (m.client.msgHandlers ++ [e], m.client.subscribeSeq + 1) →
      handle? m = some ⟨e.id, e.channel⟩ → dropped? m = none → ¬ IsDisconnect m.action → Effect m
  | refused (channel : Bytes) : m.client.isConnected = false →
      registrations m.next = registrations m.client → handle? m = some ⟨0, channel⟩ →
      dropped? m = none → ¬ IsDisconnect m.action → Effect m
  | remove (handle : Handle) : m.client.isConnected = true →
      registrations m.next = (m.client.msgHandlers.filter fun e =>
        ¬ (e.channel = handle.channel ∧ e.id = handle.id), m.client.subscribeSeq) →
      handle? m = none → dropped? m = some handle → ¬ IsDisconnect m.action → Effect m
  | keep : registrations m.next = registrations m.client → handle? m = none →
      (∀ handle ∈ dropped? m, m.client.isConnected = false) → ¬ IsDisconnect m.action → Effect m
  | clear : registrations m.next = ([], m.client.subscribeSeq) → handle? m = none →
      dropped? m = none → IsDisconnect m.action → Effect m

theorem isConnected_iff : c.isConnected = true ↔ c.state = .connected ∨ c.state = .subscribed :=
  decide_eq_true_iff

/-- The calls that do not touch the registrations. -/
def Other : Call κ → Prop
  | .connect _ _ | .command _ _ _ | .publish _ _ _ | .singleShotSubscribe _ _ _
  | .singleShotPSubscribe _ _ _ => True
  | _ => False

theorem body_other {call : Call κ} (h : Other call) (c : RedisClientImpl κ) :
    (call.body c).2.1 = none ∧ registrations (call.body c).2.2 = registrations c := by
  cases call with
  | disconnect | subscribe | psubscribe | unsubscribe | punsubscribe => exact h.elim
  | connect endpoint handler =>
    cases endpoint with
    | tcp =>
      simp only [Call.body, connectTcp]
      split_ifs <;> exact ⟨rfl, rfl⟩
    | localStream =>
      simp only [Call.body, connectLocal]
      split_ifs <;> exact ⟨rfl, rfl⟩
  | command | publish | singleShotSubscribe | singleShotPSubscribe =>
    simp only [Call.body, command, publish, singleShotSubscribe]
    split_ifs <;> exact ⟨rfl, rfl⟩

/-- **What each moment does to the registrations.** -/
theorem effect (m : Moment κ) : Effect m := by
  rcases m with ⟨c, a, s⟩
  have hstate : ∀ a : Action κ, (c.log a).state = c.state := fun _ => rfl
  have hnone : ∀ {p : Prop}, ∀ handle ∈ (none : Option Handle), p := by simp
  cases a with
  | call state call =>
    have hother : Other call → Effect ⟨c, .call state call, s⟩ := by
      intro hcall
      obtain ⟨hhandle, hreg⟩ := body_other hcall (c.log (.call state call))
      cases call <;> first
        | exact hcall.elim
        | exact .keep hreg hhandle hnone id
    cases call with
    | subscribe channel k handler | psubscribe channel k handler =>
      by_cases h : c.state = .connected ∨ c.state = .subscribed
      · refine .insert ⟨channel, c.subscribeSeq, k⟩ (isConnected_iff.mpr h) rfl ?_ ?_ rfl id
        · simp [registrations, Moment.next, Call.body, subscribe, hstate, h]
          exact ⟨rfl, rfl⟩
        · simp [handle?, Call.body, subscribe, hstate, h]
          rfl
      · refine .refused channel (Bool.eq_false_iff.mpr (mt isConnected_iff.mp h)) ?_ ?_ rfl id
        · simp [registrations, Moment.next, Call.body, subscribe, hstate, h, refuse]
          exact ⟨rfl, rfl⟩
        · simp [handle?, Call.body, subscribe, hstate, h, refuse]
    | unsubscribe handle | punsubscribe handle =>
      by_cases h : c.state = .connected ∨ c.state = .subscribed
      · refine .remove handle (isConnected_iff.mpr h) ?_ ?_ rfl id
        · simp [registrations, Moment.next, Call.body, unsubscribe, hstate, h]
          exact ⟨rfl, rfl⟩
        · simp [handle?, Call.body, unsubscribe, hstate, h]
      · refine .keep ?_ ?_ (fun _ _ => Bool.eq_false_iff.mpr (mt isConnected_iff.mp h)) id
        · simp [registrations, Moment.next, Call.body, unsubscribe, hstate, h, refuse]
          exact ⟨rfl, rfl⟩
        · simp [handle?, Call.body, unsubscribe, hstate, h, refuse]
    | disconnect => exact .clear rfl rfl rfl trivial
    | connect | command | publish | singleShotSubscribe | singleShotPSubscribe =>
      exact hother trivial
  | _ => exact .keep rfl rfl hnone id

theorem inserted_of_insert {m : Moment κ} {e : MsgHandler κ} {n : ℕ}
    (h : registrations m.next = (m.client.msgHandlers ++ [e], n)) : inserted? m = some e := by
  obtain ⟨hmap, -⟩ := Prod.mk.inj h
  unfold inserted?
  rw [hmap]
  exact List.getElem?_concat_length

theorem inserted_of_sublist {m : Moment κ} (h : m.next.msgHandlers.Sublist m.client.msgHandlers) :
    inserted? m = none :=
  List.getElem?_eq_none h.length_le

/-- An entry is added by a call that returns its handle, with the next number. -/
theorem inserted_spec {m : Moment κ} {e : MsgHandler κ} (h : inserted? m = some e) :
    e.id = m.client.subscribeSeq ∧ m.next.subscribeSeq = m.client.subscribeSeq + 1 ∧
      m.next.msgHandlers = m.client.msgHandlers ++ [e] ∧
      handle? m = some ⟨e.id, e.channel⟩ := by
  have hsub : ¬ m.next.msgHandlers.Sublist m.client.msgHandlers := by
    intro hsub
    rw [inserted_of_sublist hsub] at h
    cases h
  cases effect m with
  | insert e' _ hid hreg hhandle =>
    obtain ⟨hmap, hseq⟩ := Prod.mk.inj hreg
    obtain rfl := Option.some.inj (h.symm.trans (inserted_of_insert hreg))
    exact ⟨hid, hseq, hmap, hhandle⟩
  | refused _ _ hreg | keep hreg =>
    obtain ⟨hmap, -⟩ := Prod.mk.inj hreg
    exact absurd (hmap ▸ List.Sublist.refl _) hsub
  | remove handle _ hreg =>
    obtain ⟨hmap, -⟩ := Prod.mk.inj hreg
    exact absurd (hmap ▸ List.filter_sublist) hsub
  | clear hreg =>
    obtain ⟨hmap, -⟩ := Prod.mk.inj hreg
    exact absurd (hmap ▸ List.nil_sublist _) hsub

/-- A handle is that of the entry that has been added, or it has the number 0. -/
theorem handle_spec {m : Moment κ} {handle : Handle} (h : handle? m = some handle) :
    (∃ e, inserted? m = some e ∧ handle = ⟨e.id, e.channel⟩) ∨
      inserted? m = none ∧ m.client.isConnected = false ∧ handle.id = 0 := by
  cases effect m with
  | insert e _ _ hreg hhandle =>
    exact Or.inl ⟨e, inserted_of_insert hreg, Option.some.inj (h.symm.trans hhandle)⟩
  | refused channel hc hreg hhandle =>
    obtain ⟨hmap, -⟩ := Prod.mk.inj hreg
    obtain rfl := Option.some.inj (h.symm.trans hhandle)
    exact Or.inr ⟨inserted_of_sublist (hmap ▸ List.Sublist.refl _), hc, rfl⟩
  | remove _ _ _ hhandle | keep _ hhandle | clear _ hhandle => cases h.symm.trans hhandle

/-- The number only grows. -/
theorem subscribeSeq_next (m : Moment κ) : m.client.subscribeSeq ≤ m.next.subscribeSeq := by
  cases effect m with
  | insert _ _ _ hreg =>
    obtain ⟨-, hseq⟩ := Prod.mk.inj hreg
    rw [hseq]
    exact Nat.le_succ _
  | refused _ _ hreg | remove _ _ hreg | keep hreg | clear hreg => exact (Prod.mk.inj hreg).2.ge

/-! ### Where the entries come from -/

theorem Linked.subscribeSeq (h : Linked c ms c') : c.subscribeSeq ≤ c'.subscribeSeq := by
  induction ms using List.reverseRecOn generalizing c' with
  | nil => exact (Prod.mk.inj h).2.ge
  | append_singleton ms m ih =>
    obtain ⟨h1, h2⟩ := h.concat
    obtain ⟨-, hseq⟩ := Prod.mk.inj h2
    rw [hseq]
    exact (ih h1).trans (subscribeSeq_next m)

/-- What is added later has a greater number. -/
theorem Linked.id_lt (h : Linked c ms c') {i j : ℕ} {m m' : Moment κ} {e e' : MsgHandler κ}
    (hij : i < j) (hi : ms[i]? = some m) (hj : ms[j]? = some m') (he : inserted? m = some e)
    (he' : inserted? m' = some e') : e.id < e'.id := by
  have h1 := h.at hj
  have hi' : (ms.take j)[i]? = some m := by rw [List.getElem?_take_of_lt hij, hi]
  rw [split_getElem? hi'] at h1
  have h2 := h1.split.2.subscribeSeq
  obtain ⟨hid, hseq, -⟩ := inserted_spec he
  rw [hid, (inserted_spec he').1]
  omega

/-- An entry is added once. -/
theorem Linked.inserted_inj (h : Linked c ms c') {i j : ℕ} {m m' : Moment κ} {e e' : MsgHandler κ}
    (hi : ms[i]? = some m) (hj : ms[j]? = some m') (he : inserted? m = some e)
    (he' : inserted? m' = some e') (hid : e.id = e'.id) : i = j := by
  rcases lt_trichotomy i j with hlt | heq | hlt
  · exact absurd (h.id_lt hlt hi hj he he') (by omega)
  · exact heq
  · exact absurd (h.id_lt hlt hj hi he' he) (by omega)

/-- Each entry that is left has been added. -/
theorem Linked.mem_inserted (h : Linked c ms c') (hc : c.msgHandlers = []) {e : MsgHandler κ}
    (he : e ∈ c'.msgHandlers) : ∃ (i : ℕ) (m : Moment κ), ms[i]? = some m ∧ inserted? m = some e := by
  induction ms using List.reverseRecOn generalizing c' with
  | nil =>
    obtain ⟨hmap, -⟩ := Prod.mk.inj h
    rw [hmap, hc] at he
    cases he
  | append_singleton ms m ih =>
    obtain ⟨h1, h2⟩ := h.concat
    obtain ⟨hmap, -⟩ := Prod.mk.inj h2
    rw [hmap] at he
    have hbefore : e ∈ m.client.msgHandlers → ∃ (i : ℕ) (m' : Moment κ), (ms ++ [m])[i]? = some m' ∧
        inserted? m' = some e := by
      intro he
      obtain ⟨i, m', hi, hm'⟩ := ih h1 he
      refine ⟨i, m', ?_, hm'⟩
      rw [List.getElem?_append_left (List.getElem?_eq_some_iff.mp hi).1, hi]
    cases effect m with
    | insert e' _ _ hreg =>
      obtain ⟨hmap, -⟩ := Prod.mk.inj hreg
      rw [hmap] at he
      rcases List.mem_append.mp he with he | he
      · exact hbefore he
      · rw [List.mem_singleton.mp he]
        exact ⟨ms.length, m, List.getElem?_concat_length, inserted_of_insert hreg⟩
    | refused _ _ hreg | keep hreg =>
      obtain ⟨hmap, -⟩ := Prod.mk.inj hreg
      rw [hmap] at he
      exact hbefore he
    | remove _ _ hreg =>
      obtain ⟨hmap, -⟩ := Prod.mk.inj hreg
      rw [hmap] at he
      exact hbefore (List.mem_filter.mp he).1
    | clear hreg =>
      obtain ⟨hmap, -⟩ := Prod.mk.inj hreg
      rw [hmap] at he
      cases he

/-- The numbers of the entries grow, and have been given. -/
def Numbered (c : RedisClientImpl κ) : Prop :=
  c.msgHandlers.Pairwise (fun e e' => e.id < e'.id) ∧ ∀ e ∈ c.msgHandlers, e.id < c.subscribeSeq

theorem numbered_next {m : Moment κ} (h : Numbered m.client) : Numbered m.next := by
  unfold Numbered
  cases effect m with
  | insert e _ hid hreg =>
    obtain ⟨hmap, hseq⟩ := Prod.mk.inj hreg
    rw [hmap, hseq]
    have hlt : ∀ e' ∈ m.client.msgHandlers, e'.id < e.id := fun e' he' => hid ▸ h.2 e' he'
    refine ⟨List.pairwise_append.mpr ⟨h.1, List.pairwise_singleton _ _, ?_⟩, fun e' he' => ?_⟩
    · exact fun e' he' e'' he'' => List.mem_singleton.mp he'' ▸ hlt e' he'
    · rcases List.mem_append.mp he' with he' | he'
      · exact Nat.lt_succ_of_lt (h.2 e' he')
      · rw [List.mem_singleton.mp he', hid]
        exact Nat.lt_succ_self _
  | refused _ _ hreg | keep hreg =>
    obtain ⟨hmap, hseq⟩ := Prod.mk.inj hreg
    rw [hmap, hseq]
    exact h
  | remove _ _ hreg =>
    obtain ⟨hmap, hseq⟩ := Prod.mk.inj hreg
    rw [hmap, hseq]
    exact ⟨h.1.filter _, fun e he => h.2 e (List.mem_filter.mp he).1⟩
  | clear hreg =>
    obtain ⟨hmap, hseq⟩ := Prod.mk.inj hreg
    rw [hmap, hseq]
    exact ⟨List.Pairwise.nil, fun e he => by cases he⟩

theorem Linked.numbered (h : Linked c ms c') (hc : Numbered c) : Numbered c' := by
  have hcongr : ∀ {d d' : RedisClientImpl κ}, registrations d' = registrations d → Numbered d →
      Numbered d' := by
    intro d d' hreg hd
    obtain ⟨hmap, hseq⟩ := Prod.mk.inj hreg
    unfold Numbered
    rw [hmap, hseq]
    exact hd
  induction ms using List.reverseRecOn generalizing c' with
  | nil => exact hcongr h hc
  | append_singleton ms m ih =>
    obtain ⟨h1, h2⟩ := h.concat
    exact hcongr h2 (numbered_next (ih h1))

end RedisClient.Async.Registrations

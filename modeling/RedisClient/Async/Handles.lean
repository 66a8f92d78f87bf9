import RedisClient.Async.OwnReplies
import RedisClient.Async.Registrations

/-! # Handles

A handle is a number and a channel. That of a subscription in an invalid state has the number 0, which
is also that of the first subscription of the client: on the same channel it stands for an entry that
another call has added. And `unsubscribe` takes an entry away only while the client is connected. With
the exception of these two cases a handle names the entry that its call has added, and no other
(`handle_names`). -/

namespace RedisClient.Async.Handles

open RedisClient.Value RedisClient.Parser.Defs RedisClient.Parser.RoundTrip RedisClient.Peers
open RedisClient.Async.Asio RedisClient.Async.Defs RedisClient.Async.Rules
open RedisClient.Async.Moments RedisClient.Async.OwnReplies RedisClient.Async.Registrations

variable {κ : Type} {c c' : RedisClientImpl κ} {ms : List (Moment κ)} {d : ℕ → ℕ}

/-! ### What a handle names -/

/-- The entry that `r` has added goes, if it has added one and that is there, and nothing else. -/
def Removes [DecidableEq κ] (r m : Moment κ) : Prop :=
  m.next.msgHandlers = m.client.msgHandlers.filter fun e => some e ≠ inserted? r

/-- If `r` has added an entry and that is there, the client is connected. If it has added none and the
client is connected, no entry is there that has the same handle. -/
def Matches (r m : Moment κ) : Prop :=
  match inserted? r with
  | some e => e ∈ m.client.msgHandlers → m.client.isConnected = true
  | none => m.client.isConnected = true →
    ∀ e ∈ m.client.msgHandlers, handle? r ≠ some ⟨e.id, e.channel⟩

/-- Each handle that is unsubscribed has been returned before, by the call at the place that `d` says,
and matches it. -/
def Proper (d : ℕ → ℕ) (ms : List (Moment κ)) : Prop :=
  ∀ j < ms.length, ∀ m ∈ ms[j]?, ∀ handle ∈ dropped? m,
    ∃ r ∈ (ms.take j)[d j]?, handle? r = some handle ∧ Matches r m

/-- After the moment at a place, the client has not been disconnected, and the call at this place has
not been unsubscribed. -/
def Stands (d : ℕ → ℕ) (ms : List (Moment κ)) (i : ℕ) : Prop :=
  ∀ j < ms.length, i < j → ∀ m ∈ ms[j]?,
    ¬ IsDisconnect m.action ∧ ((dropped? m).isSome = true → d j ≠ i)

instance (d : ℕ → ℕ) (ms : List (Moment κ)) (i : ℕ) : Decidable (Stands d ms i) :=
  inferInstanceAs (Decidable (∀ j < ms.length, i < j → ∀ m ∈ ms[j]?, _))

/-- **The registrations since the last disconnect, without those unsubscribed.** -/
def standing (d : ℕ → ℕ) (ms : List (Moment κ)) : List (MsgHandler κ) :=
  (List.range ms.length).filterMap fun i => if Stands d ms i then ms[i]?.bind inserted? else none

/-! ### One call -/

/-- The entry with the handle is the one that its call has added. -/
theorem eq_of_handle (h : Linked .new ms c) {i : ℕ} {r : Moment κ} {e e' : MsgHandler κ}
    (hi : ms[i]? = some r) (he : inserted? r = some e) (he' : e' ∈ c.msgHandlers)
    (hid : e'.id = e.id) : e' = e := by
  obtain ⟨k, m, hk, hm⟩ := h.mem_inserted rfl he'
  obtain rfl := h.inserted_inj hi hk he hm hid.symm
  obtain rfl := Option.some.inj (hi.symm.trans hk)
  exact Option.some.inj (hm.symm.trans he)

variable [DecidableEq κ]

/-- **A handle that is unsubscribed removes the entry of its call and no other** if and only if it
matches. -/
theorem removes_iff {i : ℕ} {r m : Moment κ} {handle : Handle} (h : Linked .new ms m.client)
    (hi : ms[i]? = some r) (hr : handle? r = some handle) (hm : dropped? m = some handle) :
    Removes r m ↔ Matches r m := by
  unfold Removes Matches
  cases effect m with
  | insert _ _ _ _ _ hdrop | refused _ _ _ _ hdrop | clear _ _ hdrop => cases hdrop.symm.trans hm
  | remove handle' hc hreg _ hdrop =>
    obtain rfl := Option.some.inj (hdrop.symm.trans hm)
    obtain ⟨hmap, -⟩ := Prod.mk.inj hreg
    rw [hmap]
    rcases handle_spec hr with ⟨e, he, rfl⟩ | ⟨hnone, -, -⟩
    · -- the handle is found on the entry of the call alone
      rw [he]
      refine iff_of_true (List.filter_congr fun e' he' => decide_eq_decide.mpr (not_congr ?_))
        fun _ => hc
      constructor
      · exact fun hkey => congrArg some (eq_of_handle h hi he he' hkey.2)
      · intro heq
        obtain rfl := Option.some.inj heq
        exact ⟨rfl, rfl⟩
    · rw [hnone, hr]
      simp only [hc, forall_const, ne_eq, reduceCtorEq, not_false_eq_true, decide_true,
        List.filter_true]
      rw [List.filter_eq_self]
      refine forall₂_congr fun e _ => ?_
      rw [decide_eq_true_iff]
      refine not_congr ⟨fun hkey => ?_, fun heq => ?_⟩
      · rw [hkey.1, hkey.2]
      · rw [Option.some.inj heq]
        exact ⟨rfl, rfl⟩
  | keep hreg _ hdrop =>
    obtain ⟨hmap, -⟩ := Prod.mk.inj hreg
    have hc := hdrop handle hm
    rw [hmap, hc]
    rcases inserted? r with _ | e
    · simp
    · rw [eq_comm, List.filter_eq_self]
      simp only [ne_eq, Option.some.injEq, decide_not, Bool.not_eq_true', decide_eq_false_iff_not,
        Bool.false_eq_true, imp_false]
      exact ⟨fun hne hmem => hne e hmem rfl, fun hnot e' he' heq => hnot (heq ▸ he')⟩

/-! ### A run -/

omit [DecidableEq κ] in
theorem Proper.concat {m : Moment κ} (h : Proper d (ms ++ [m])) : Proper d ms ∧
    ∀ handle ∈ dropped? m, ∃ r ∈ ms[d ms.length]?, handle? r = some handle ∧ Matches r m := by
  constructor
  · intro j hj m' hm' handle hdrop
    have h1 := h j (by rw [List.length_append]; omega) m'
      (by rw [List.getElem?_append_left hj]; exact hm') handle hdrop
    rwa [List.take_append_of_le_length hj.le] at h1
  · intro handle hdrop
    have h1 := h ms.length (by simp) m (by simp) handle hdrop
    rwa [List.take_left] at h1

omit [DecidableEq κ] in
theorem stands_concat {m : Moment κ} {i : ℕ} (hi : i < ms.length) : Stands d (ms ++ [m]) i ↔
    (¬ IsDisconnect m.action ∧ ((dropped? m).isSome = true → d ms.length ≠ i)) ∧ Stands d ms i := by
  constructor
  · intro h
    refine ⟨h ms.length (by simp) hi m (by simp), fun j hj hij m' hm' => ?_⟩
    refine h j (by rw [List.length_append]; omega) hij m' ?_
    rwa [List.getElem?_append_left hj]
  · rintro ⟨hlast, h⟩ j hj hij m' hm'
    rw [List.length_append, List.length_singleton] at hj
    rcases Nat.lt_succ_iff_lt_or_eq.mp hj with hj | rfl
    · rw [List.getElem?_append_left hj] at hm'
      exact h j hj hij m' hm'
    · rw [List.getElem?_concat_length] at hm'
      obtain rfl := Option.some.inj hm'
      exact hlast

omit [DecidableEq κ] in
/-- One moment more: it may take away what stands, or add something. -/
theorem standing_concat (d : ℕ → ℕ) (ms : List (Moment κ)) (m : Moment κ) :
    standing d (ms ++ [m]) = ((List.range ms.length).filterMap fun i =>
      if ¬ IsDisconnect m.action ∧ ((dropped? m).isSome = true → d ms.length ≠ i) then
        if Stands d ms i then ms[i]?.bind inserted? else none
      else none) ++ (inserted? m).toList := by
  have hlast : Stands d (ms ++ [m]) ms.length := by
    intro j hj hij
    rw [List.length_append, List.length_singleton] at hj
    omega
  unfold standing
  rw [List.length_append, List.length_singleton, List.range_succ, List.filterMap_append]
  congr 1
  · refine List.filterMap_congr fun i hi => ?_
    have hlt := List.mem_range.mp hi
    rw [List.getElem?_append_left hlt, ← ite_and]
    exact if_congr (stands_concat hlt) rfl rfl
  · rw [List.filterMap_cons, if_pos hlast, List.getElem?_concat_length]
    cases h : inserted? m <;> simp [h]

omit [DecidableEq κ] in
theorem standing_keep {m : Moment κ} (hclear : ¬ IsDisconnect m.action) (hdrop : dropped? m = none) :
    standing d (ms ++ [m]) = standing d ms ++ (inserted? m).toList := by
  rw [standing_concat]
  congr 1
  refine List.filterMap_congr fun i _ => if_pos ⟨hclear, ?_⟩
  rw [hdrop]
  exact nofun

omit [DecidableEq κ] in
theorem standing_clear {m : Moment κ} (hclear : IsDisconnect m.action) :
    standing d (ms ++ [m]) = (inserted? m).toList := by
  rw [standing_concat]
  have hnone : ∀ l : List ℕ, l.filterMap (fun i =>
      if ¬ IsDisconnect m.action ∧ ((dropped? m).isSome = true → d ms.length ≠ i) then
        if Stands d ms i then ms[i]?.bind inserted? else none
      else none) = [] := fun l => List.filterMap_eq_nil_iff.mpr fun i _ => if_neg fun h => h.1 hclear
  rw [hnone]
  rfl

/-- Of what stands, the entry of the call goes that is unsubscribed. -/
theorem standing_drop {r m : Moment κ} {handle : Handle} (h : Linked c ms c')
    (hclear : ¬ IsDisconnect m.action) (hdrop : dropped? m = some handle) (hr : ms[d ms.length]? = some r) (hm : inserted? m = none) :
    standing d (ms ++ [m]) = (standing d ms).filter fun e => some e ≠ inserted? r := by
  rw [standing_concat, hm, Option.toList_none, List.append_nil]
  unfold standing
  rw [List.filter_filterMap]
  refine List.filterMap_congr fun i _ => ?_
  by_cases hs : Stands d ms i
  · rw [if_pos hs]
    rcases hi : ms[i]?.bind inserted? with _ | e
    · exact ite_self _
    obtain ⟨m', hm', he⟩ := Option.bind_eq_some_iff.mp hi
    by_cases hdi : d ms.length = i
    · subst hdi
      obtain rfl := Option.some.inj (hr.symm.trans hm')
      simp [hdrop, he, Option.filter]
    · have hne : some e ≠ inserted? r := fun heq => hdi (h.inserted_inj hr hm' heq.symm he rfl)
      simp [hclear, hdi, hne, Option.filter]
  · rw [if_neg hs]
    exact ite_self _

omit [DecidableEq κ] in
/-- **What is registered is what stands**, if each handle that is unsubscribed matches. -/
theorem msgHandlers_eq_standing (h : Linked .new ms c) (hd : Proper d ms) :
    c.msgHandlers = standing d ms := by
  classical
  induction ms using List.reverseRecOn generalizing c with
  | nil =>
    obtain ⟨hmap, -⟩ := Prod.mk.inj h
    exact hmap
  | append_singleton ms m ih =>
    obtain ⟨h1, h2⟩ := h.concat
    obtain ⟨hd1, hproper⟩ := hd.concat
    obtain ⟨hnext, -⟩ := Prod.mk.inj h2
    have hbefore := ih h1 hd1
    have hdropped : ∀ handle, ¬ IsDisconnect m.action → dropped? m = some handle →
        inserted? m = none → m.next.msgHandlers = standing d (ms ++ [m]) := by
      intro handle hclear hdrop hm
      obtain ⟨r, hr, hhandle, hmatch⟩ := hproper handle hdrop
      have hremoves : m.next.msgHandlers = _ := (removes_iff h1 hr hhandle hdrop).mpr hmatch
      rw [hremoves, hbefore, standing_drop h1 hclear hdrop hr hm]
    rw [hnext]
    cases effect m with
    | insert e _ _ hreg _ hdrop hclear =>
      obtain ⟨hmap, -⟩ := Prod.mk.inj hreg
      rw [hmap, standing_keep hclear hdrop, inserted_of_insert hreg, hbefore]
      rfl
    | refused _ _ hreg _ hdrop hclear =>
      obtain ⟨hmap, -⟩ := Prod.mk.inj hreg
      rw [standing_keep hclear hdrop, inserted_of_sublist (hmap ▸ List.Sublist.refl _), hmap, hbefore]
      exact (List.append_nil _).symm
    | remove handle _ hreg _ hdrop hclear =>
      obtain ⟨hmap, -⟩ := Prod.mk.inj hreg
      exact hdropped handle hclear hdrop (inserted_of_sublist (hmap ▸ List.filter_sublist))
    | keep hreg _ _ hclear =>
      obtain ⟨hmap, -⟩ := Prod.mk.inj hreg
      have hm : inserted? m = none := inserted_of_sublist (hmap ▸ List.Sublist.refl _)
      rcases hdrop : dropped? m with _ | handle
      · rw [standing_keep hclear hdrop, hm, hmap, hbefore]
        exact (List.append_nil _).symm
      · exact hdropped handle hclear hdrop hm
    | clear hreg _ _ hclear =>
      obtain ⟨hmap, -⟩ := Prod.mk.inj hreg
      rw [standing_clear hclear, inserted_of_sublist (hmap ▸ List.nil_sublist _), hmap]
      rfl

/-- **A handle names the entry of its call.** After every run, the numbers of the entries are distinct.
When a handle is unsubscribed that a call has returned before, the entry goes that the call has added,
if it is there, and no other, if and only if the handle matches. In a run in which all of them match,
what is registered are the registrations since the last disconnect without those unsubscribed. -/
theorem handle_names {es : List (Event κ)} (h : run es .new = some c) :
    (c.msgHandlers.map MsgHandler.id).Nodup ∧
      (∀ (i j : ℕ) (r m : Moment κ) (handle : Handle), i < j →
        (runMoments es .new)[i]? = some r → (runMoments es .new)[j]? = some m →
        handle? r = some handle → dropped? m = some handle → (Removes r m ↔ Matches r m)) ∧
      ∀ d, Proper d (runMoments es .new) → c.msgHandlers = standing d (runMoments es .new) := by
  have hlinked := linked_run h
  have hnumbered : Numbered c := hlinked.numbered ⟨List.Pairwise.nil, fun e he => by cases he⟩
  refine ⟨?_, fun i j r m handle hij hi hj hr hm => ?_, fun d hd =>
    msgHandlers_eq_standing hlinked hd⟩
  · exact (List.pairwise_map.mpr hnumbered.1).imp Nat.ne_of_lt
  · refine removes_iff (hlinked.at hj) (i := i) ?_ hr hm
    rw [List.getElem?_take_of_lt hij, hi]

/-! ### Three runs -/

instance (r m : Moment κ) : Decidable (Removes r m) :=
  inferInstanceAs (Decidable (_ = _))

instance (r m : Moment κ) : Decidable (Matches r m) :=
  match h : inserted? r with
  | some e => decidable_of_iff (e ∈ m.client.msgHandlers → m.client.isConnected = true)
      (by unfold Matches; rw [h])
  | none => decidable_of_iff (m.client.isConnected = true →
      ∀ e ∈ m.client.msgHandlers, handle? r ≠ some ⟨e.id, e.channel⟩) (by unfold Matches; rw [h])

instance (d : ℕ → ℕ) (ms : List (Moment κ)) : Decidable (Proper d ms) :=
  inferInstanceAs (Decidable (∀ j < ms.length, ∀ m ∈ ms[j]?, ∀ handle ∈ dropped? m,
    ∃ r ∈ (ms.take j)[d j]?, handle? r = some handle ∧ Matches r m))

/-- Two handlers are subscribed to one channel, and the first of them is unsubscribed. -/
def secondStays : List (Event ℕ) :=
  dial (pong.peer ()) ++
    [.connectDone [.call (.subscribe (chars "c") 7 none) .returns
      (.call (.subscribe (chars "c") 8 none) .returns .returns)],
    .user (.call (.unsubscribe ⟨0, chars "c"⟩) .returns .returns)]

/-- A channel is subscribed to in vain before the client is connected and once it is; the handle of the
call that has failed is unsubscribed. -/
def failedHandle : List (Event ℕ) :=
  .user (.call (.subscribe (chars "c") 7 none) .returns .returns) :: dial (pong.peer ()) ++
    [.connectDone [.call (.subscribe (chars "c") 8 none) .returns .returns],
    .user (.call (.unsubscribe ⟨0, chars "c"⟩) .returns .returns)]

/-- The client is disconnected before the handler of its first connect runs, and connected again. That
handler subscribes a channel, and then the second connect fails. -/
def staleConnect : List (Event ℕ) :=
  dial (pong.peer ()) ++
    [.user (.call .disconnect .returns (.call (.connect .tcp 1) .returns .returns)),
    .connectDone [.call (.subscribe (chars "c") 7 none) .returns .returns],
    .connectFail (.system 111), .connectDone [],
    .user (.call (.unsubscribe ⟨0, chars "c"⟩) .returns .returns)]

/-- The first handle takes its own entry. -/
theorem handle_names_secondStays : ∃ c, run secondStays .new = some c ∧
    c.msgHandlers = [⟨chars "c", 1, 8⟩] := by
  cases hrun : run secondStays .new with
  | none =>
    have hsome : (run secondStays .new).isSome = true := by decide +kernel
    rw [hrun] at hsome
    cases hsome
  | some c =>
    obtain ⟨-, -, hstanding⟩ := handle_names hrun
    have hproper : Proper (fun _ => 2) (runMoments secondStays .new) := by decide +kernel
    have hone : standing (fun _ => 2) (runMoments secondStays .new) = [⟨chars "c", 1, 8⟩] := by
      decide +kernel
    exact ⟨c, rfl, (hstanding _ hproper).trans hone⟩

/-- **A handle does not name one entry**: that of a call that has failed takes the entry of another
call, and one whose entry is there takes nothing while the client is not connected. -/
theorem handle_takes_other :
    ((run failedHandle .new).isSome = true ∧
      ∃ r ∈ (runMoments failedHandle .new)[0]?, ∃ m ∈ (runMoments failedHandle .new)[7]?,
        handle? r = some ⟨0, chars "c"⟩ ∧ dropped? m = some ⟨0, chars "c"⟩ ∧ ¬ Removes r m ∧
        inserted? r = none ∧ m.client.msgHandlers = [⟨chars "c", 0, 8⟩] ∧ m.next.msgHandlers = []) ∧
    ((run staleConnect .new).isSome = true ∧
      ∃ r ∈ (runMoments staleConnect .new)[4]?, ∃ m ∈ (runMoments staleConnect .new)[7]?,
        handle? r = some ⟨0, chars "c"⟩ ∧ dropped? m = some ⟨0, chars "c"⟩ ∧ ¬ Removes r m ∧
        inserted? r = some ⟨chars "c", 0, 7⟩ ∧ m.client.msgHandlers = [⟨chars "c", 0, 7⟩] ∧
        m.next.msgHandlers = m.client.msgHandlers) := by
  decide +kernel

end RedisClient.Async.Handles

import RedisClient.Lib.Programs

/-! # A service that is shared

Several users send their requests to one service, which answers them in the order in which they come.
The users are *apart* if what one of them asks for does not change what the others see (`Apart`). Then
each gets the answers that it would get alone (`answers_alone`), however the requests of the others
come in between.

If a user runs a program, so that each of its requests is the next one after the answers it has got,
these are the first answers that the program gets from the service alone (`told_serve`). -/

namespace RedisClient.Lib.Sharing

open RedisClient.Lib.Programs

universe u v

variable {α : Type u} {β : Type v} {σ κ : Type*} {service : α → σ → β × σ}

/-- The answers to some requests. -/
def answers (service : α → σ → β × σ) : List α → σ → List β
  | [], _ => []
  | a :: as, s => (service a s).1 :: answers service as (service a s).2

/-! ### Users that are apart -/

/-- **Users that are apart**: `own h a` says that `a` may be a request of `h`, and `like i s s'` that
`i` cannot tell `s` from `s'`. A request is nobody's if there is no `h`. -/
structure Apart (service : α → σ → β × σ) (own : Option κ → α → Prop) (like : κ → σ → σ → Prop) :
    Prop where
  answer : ∀ {i a s s'}, own (some i) a → like i s s' → (service a s).1 = (service a s').1
  step : ∀ {i a s s'}, own (some i) a → like i s s' → like i (service a s).2 (service a s').2
  others : ∀ {i h a s s'}, own h a → h ≠ some i → like i s s' → like i (service a s).2 s'

/-- What belongs to a user, in a list in which each entry names one. -/
def ofUser {ι : Type*} [DecidableEq ι] {γ : Type*} (i : ι) (l : List (ι × γ)) : List γ :=
  (l.filter fun e => e.1 = i).map Prod.snd

section ofUser

variable {ι γ : Type*} [DecidableEq ι]

theorem ofUser_cons (i : ι) (e : ι × γ) (l : List (ι × γ)) :
    ofUser i (e :: l) = if e.1 = i then e.2 :: ofUser i l else ofUser i l := by
  unfold ofUser
  by_cases h : e.1 = i <;> simp [h]

theorem ofUser_append (i : ι) (l m : List (ι × γ)) :
    ofUser i (l ++ m) = ofUser i l ++ ofUser i m := by
  simp [ofUser]

theorem ofUser_prefix {i : ι} {l m : List (ι × γ)} (h : l <+: m) : ofUser i l <+: ofUser i m :=
  (h.filter _).map _

end ofUser

variable [DecidableEq κ]

/-- **A user gets the answers that it would get alone.** -/
theorem answers_alone {own : Option κ → α → Prop} {like : κ → σ → σ → Prop}
    (hapart : Apart service own like) {i : κ} : ∀ {log : List (Option κ × α)} {s s' : σ},
      (∀ e ∈ log, own e.1 e.2) → like i s s' →
        ofUser (some i) ((log.map Prod.fst).zip (answers service (log.map Prod.snd) s)) =
          answers service (ofUser (some i) log) s'
  | [], _, _, _, _ => rfl
  | (h, a) :: log, s, s', hown, hlike => by
    have ha := hown (h, a) List.mem_cons_self
    have hlog : ∀ e ∈ log, own e.1 e.2 := fun e he => hown e (List.mem_cons_of_mem _ he)
    rw [List.map_cons, List.map_cons, answers, List.zip_cons_cons, ofUser_cons, ofUser_cons]
    by_cases hi : h = some i
    · subst hi
      rw [if_pos rfl, if_pos rfl, answers, hapart.answer ha hlike,
        answers_alone hapart hlog (hapart.step ha hlike)]
    · rw [if_neg hi, if_neg hi, answers_alone hapart hlog (hapart.others ha hi hlike)]

/-! ### Users that run programs -/

omit [DecidableEq κ]

/-- What a program has asked for once it has got some answers, the request after them included. -/
def requests : Program α β → List β → List α
  | .done, _ => []
  | .ask a _, [] => [a]
  | .ask a next, b :: bs => a :: requests (next b) bs

/-- **A program that is answered by the service.** Its requests `as` are the first of those that it
makes, and what it has been told are the first of the answers to them. -/
theorem told_serve : ∀ (p : Program α β) {as : List α} {bs : List β} {s : σ},
    as <+: requests p bs → bs <+: answers service as s →
      bs <+: (serve service p s).1 ∧
        (as = requests p bs → bs.length = as.length → bs = (serve service p s).1)
  | .done, as, bs, s, has, hbs => by
    have hnil : as = [] := List.prefix_nil.mp has
    subst hnil
    have hbsnil : bs = [] := List.prefix_nil.mp hbs
    subst hbsnil
    exact ⟨List.nil_prefix, fun _ _ => rfl⟩
  | .ask a next, as, [], s, has, hbs => by
    refine ⟨List.nil_prefix, fun hall hlen => ?_⟩
    rw [hall] at hlen
    cases hlen
  | .ask a next, as, b :: bs, s, has, hbs => by
    cases as with
    | nil => exact absurd (List.prefix_nil.mp hbs) (List.cons_ne_nil _ _)
    | cons a' as =>
      obtain ⟨rfl, has'⟩ := List.cons_prefix_cons.mp has
      obtain ⟨hb, hbs'⟩ := List.cons_prefix_cons.mp hbs
      subst hb
      obtain ⟨hpre, hwhole⟩ := told_serve (next (service a' s).1) has' hbs'
      refine ⟨List.cons_prefix_cons.mpr ⟨rfl, hpre⟩, fun hall hlen => ?_⟩
      have hrest : bs = (serve service (next (service a' s).1) (service a' s).2).1 :=
        hwhole (List.cons.inj hall).2 (Nat.succ.inj hlen)
      exact congrArg ((service a' s).1 :: ·) hrest

end RedisClient.Lib.Sharing

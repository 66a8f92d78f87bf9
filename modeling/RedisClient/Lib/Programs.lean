import Mathlib.Data.List.Basic

/-! # Programs that ask a service

A program asks for one thing at a time and goes on with the answer. A service that always answers
gives it all its answers (`serve`). A service that is used over a network may block or stop with an
error (`attempt`). If each of its answers is the one that the first service gives, so are all
(`attempt_serve`), and if its means are enough for each request, they are enough for the program
(`attempt_total`). -/

namespace RedisClient.Lib.Programs

universe u v

/-- What a program asks next, and how it goes on. -/
inductive Program (α : Type u) (β : Type v) where
  | done
  | ask (request : α) (next : β → Program α β)

variable {α : Type u} {β : Type v} {σ γ ε : Type*}

/-- The answers of a service, and its state after them. -/
def serve (service : α → σ → β × σ) : Program α β → σ → List β × σ
  | .done, s => ([], s)
  | .ask a next, s =>
    let (b, s) := service a s
    let (bs, s) := serve service (next b) s
    (b :: bs, s)

/-- What a program asks a service for. -/
def asked (service : α → σ → β × σ) : Program α β → σ → List α
  | .done, _ => []
  | .ask a next, s => a :: asked service (next (service a s).1) (service a s).2

/-- The answers of a service that may block (`none`), the error that has stopped it, if any, and its
state then. -/
def attempt (service : α → γ → Option (Except ε β × γ)) :
    Program α β → γ → Option (List β × Option ε × γ)
  | .done, c => some ([], none, c)
  | .ask a next, c =>
    match service a c with
    | none => none
    | some (.error e, c) => some ([], some e, c)
    | some (.ok b, c) => (attempt service (next b) c).map fun (bs, r) => (b :: bs, r)

/-- What the requests of a program cost. -/
def total (service : α → σ → β × σ) (cost : α → σ → ℕ) : Program α β → σ → ℕ
  | .done, _ => 0
  | .ask a next, s =>
    cost a s + total service cost (next (service a s).1) (service a s).2

/-- The answer is the one of the first service, or there is an error. -/
def Simulates (R : σ → γ → Prop) (F : ε → γ → Prop) (b : β) (s : σ) (r : Except ε β × γ) : Prop :=
  match r.1 with
  | .ok b' => b' = b ∧ R s r.2
  | .error e => F e r.2

/-- All answers are the ones of the first service, or there are fewer and then an error. -/
def SimulatesAll (R : σ → γ → Prop) (F : ε → γ → Prop) (bs : List β) (s : σ)
    (r : List β × Option ε × γ) : Prop :=
  match r.2.1 with
  | none => r.1 = bs ∧ R s r.2.2
  | some e => r.1 <+: bs ∧ r.1.length < bs.length ∧ F e r.2.2

variable {service : α → σ → β × σ} {service' : α → γ → Option (Except ε β × γ)}
variable {R : σ → γ → Prop} {F : ε → γ → Prop}

/-- **A program is answered as by the first service**, up to an error. -/
theorem attempt_serve
    (hstep : ∀ a s c r, R s c → service' a c = some r →
      Simulates R F (service a s).1 (service a s).2 r) :
    ∀ (p : Program α β) {s : σ} {c : γ} {r : List β × Option ε × γ}, R s c →
      attempt service' p c = some r →
      SimulatesAll R F (serve service p s).1 (serve service p s).2 r
  | .done, s, c, r, hR, h => by
    cases h
    exact ⟨rfl, hR⟩
  | .ask a next, s, c, r, hR, h => by
    rw [attempt] at h
    rcases hx : service' a c with _ | ⟨e | b, c1⟩ <;> rw [hx] at h
    · cases h
    · cases h
      have hone : F e c1 := hstep a s c _ hR hx
      refine ⟨List.nil_prefix, ?_, hone⟩
      exact Nat.succ_pos _
    · obtain ⟨hb, hR1⟩ : b = (service a s).1 ∧ R (service a s).2 c1 := hstep a s c _ hR hx
      subst hb
      obtain ⟨⟨bs, stop, c2⟩, h2, rfl⟩ := Option.map_eq_some_iff.mp h
      have ih := attempt_serve hstep (next (service a s).1) hR1 h2
      cases stop with
      | none =>
        obtain ⟨hbs, hR2⟩ := ih
        exact ⟨congrArg ((service a s).1 :: ·) hbs, hR2⟩
      | some e =>
        obtain ⟨hpre, hlt, hF⟩ := ih
        exact ⟨List.cons_prefix_cons.mpr ⟨rfl, hpre⟩, Nat.succ_lt_succ hlt, hF⟩

/-- **A program is answered to its end** if the means are enough for it. -/
theorem attempt_total {cost : α → σ → ℕ} {m : γ → ℕ}
    (hstep : ∀ a s c, R s c → cost a s ≤ m c → ∃ c', service' a c = some (.ok (service a s).1, c') ∧
      R (service a s).2 c' ∧ m c ≤ m c' + cost a s) :
    ∀ (p : Program α β) {s : σ} {c : γ}, R s c → total service cost p s ≤ m c →
      ∃ c', attempt service' p c = some ((serve service p s).1, none, c') ∧ R (serve service p s).2 c'
  | .done, s, c, hR, _ => ⟨c, rfl, hR⟩
  | .ask a next, s, c, hR, hm => by
    rw [total] at hm
    obtain ⟨c1, h1, hR1, hm1⟩ := hstep a s c hR (by omega)
    obtain ⟨c2, h2, hR2⟩ := attempt_total hstep (next (service a s).1) hR1 (by omega)
    refine ⟨c2, ?_, hR2⟩
    rw [attempt, h1]
    dsimp only
    rw [h2]
    rfl

end RedisClient.Lib.Programs

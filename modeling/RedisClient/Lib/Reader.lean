import Mathlib.Algebra.GroupWithZero.Nat
import Mathlib.Data.List.Basic

/-! # Machines that read a stream

A reader takes one symbol at a time. After each it asks for more, delivers or rejects; a call reads
a list of symbols up to the first one after which it does not ask for more (`run`). A call on
`xs ++ ys` is the call on `xs` unless that asks for more, and then it goes on with `ys`
(`run_append`).

A driver calls the reader again and again on what the last call has left, restarting it with
`resume` after a delivery or a rejection (`drain`). What it delivers, and where, does not depend on
how the stream is cut into chunks (`drainChunks_eq`). -/

namespace RedisClient.Lib.Reader

/-- What the reader says after a symbol. -/
inductive Verdict where
  | more | done | fail
  deriving DecidableEq

variable {σ β : Type*} (step : σ → β → Verdict × σ)

/-- **One call**: the verdict, the state and the symbols that were not read. -/
def run (s : σ) : List β → Verdict × σ × List β
  | [] => (.more, s, [])
  | b :: bs =>
    match step s b with
    | (.more, s) => run s bs
    | (.done, s) => (.done, s, bs)
    | (.fail, s) => (.fail, s, bs)

variable {step}

@[simp] theorem run_nil (s : σ) : run step s [] = (.more, s, []) := rfl

theorem run_cons_more {s s' : σ} {b : β} (h : step s b = (.more, s')) (bs : List β) :
    run step s (b :: bs) = run step s' bs := by
  simp [run, h]

theorem run_cons_done {s s' : σ} {b : β} (h : step s b = (.done, s')) (bs : List β) :
    run step s (b :: bs) = (.done, s', bs) := by
  simp [run, h]

theorem run_cons_fail {s s' : σ} {b : β} (h : step s b = (.fail, s')) (bs : List β) :
    run step s (b :: bs) = (.fail, s', bs) := by
  simp [run, h]

/-- A step that does not ask for more ends the call. -/
theorem run_cons_stop {s s' : σ} {b : β} {v : Verdict} (h : step s b = (v, s')) (hv : v ≠ .more)
    (bs : List β) : run step s (b :: bs) = (v, s', bs) := by
  cases v with
  | more => exact absurd rfl hv
  | done => exact run_cons_done h bs
  | fail => exact run_cons_fail h bs

/-- A call that asks for more has read everything. -/
theorem rest_of_more : ∀ {bs : List β} {s s' : σ} {rest : List β},
    run step s bs = (.more, s', rest) → rest = []
  | [], s, s', rest, h => by simp at h; exact h.2
  | b :: bs, s, s', rest, h => by
    rcases hs : step s b with ⟨v, s1⟩
    by_cases hv : v = .more
    · subst hv
      rw [run_cons_more hs] at h
      exact rest_of_more h
    · rw [run_cons_stop hs hv] at h
      simp only [Prod.mk.injEq] at h
      exact absurd h.1 hv

section Rest
variable (step)

/-- A call leaves the end of what it was given. -/
theorem rest_suffix : ∀ (bs : List β) (s : σ), (run step s bs).2.2 <:+ bs
  | [], s => List.suffix_refl _
  | b :: bs, s => by
    rcases hs : step s b with ⟨v, s1⟩
    by_cases hv : v = .more
    · subst hv
      rw [run_cons_more hs]
      exact (rest_suffix bs s1).trans (List.suffix_cons b bs)
    · rw [run_cons_stop hs hv]
      exact List.suffix_cons b bs

/-- A call leaves less than it was given. -/
theorem length_rest : ∀ (bs : List β) (s : σ), bs ≠ [] →
    (run step s bs).2.2.length < bs.length
  | [], _, h => absurd rfl h
  | b :: bs, s, _ => by
    rcases hs : step s b with ⟨v, s1⟩
    by_cases hv : v = .more
    · subst hv
      rw [run_cons_more hs]
      rcases bs with _ | ⟨c, bs⟩
      · simp
      · exact Nat.lt_trans (length_rest (c :: bs) s1 (by simp)) (by simp)
    · rw [run_cons_stop hs hv]; simp

end Rest

theorem run_append_more {s' : σ} {ys : List β} : ∀ {xs : List β} {s : σ} {rest : List β},
    run step s xs = (.more, s', rest) → run step s (xs ++ ys) = run step s' ys
  | [], s, rest, h => by simp at h; rw [h.1]; rfl
  | b :: xs, s, rest, h => by
    rcases hs : step s b with ⟨v, s1⟩
    by_cases hv : v = .more
    · subst hv
      rw [run_cons_more hs] at h
      rw [List.cons_append, run_cons_more hs]
      exact run_append_more h
    · rw [run_cons_stop hs hv] at h
      simp only [Prod.mk.injEq] at h
      exact absurd h.1 hv

theorem run_append_stop {v : Verdict} (hv : v ≠ .more) {s' : σ} {ys : List β} :
    ∀ {xs : List β} {s : σ} {rest : List β},
      run step s xs = (v, s', rest) → run step s (xs ++ ys) = (v, s', rest ++ ys)
  | [], s, rest, h => by simp at h; exact absurd h.1.symm hv
  | b :: xs, s, rest, h => by
    rcases hs : step s b with ⟨v1, s1⟩
    by_cases hv1 : v1 = .more
    · subst hv1
      rw [run_cons_more hs] at h
      rw [List.cons_append, run_cons_more hs]
      exact run_append_stop hv h
    · rw [run_cons_stop hs hv1] at h
      simp only [Prod.mk.injEq] at h
      obtain ⟨rfl, rfl, rfl⟩ := h
      rw [List.cons_append, run_cons_stop hs hv1]

/-- A call that stops does so at one symbol; up to there it asks for more. -/
theorem run_stop_cut {v : Verdict} (hv : v ≠ .more) {s' : σ} : ∀ {bs : List β} {s : σ}
    {rest : List β}, run step s bs = (v, s', rest) → ∃ us b s₁, bs = us ++ b :: rest ∧
      run step s us = (.more, s₁, []) ∧ step s₁ b = (v, s')
  | [], s, rest, h => by simp at h; exact absurd h.1.symm hv
  | b :: bs, s, rest, h => by
    rcases hs : step s b with ⟨v1, s1⟩
    by_cases hv1 : v1 = .more
    · subst hv1
      rw [run_cons_more hs] at h
      obtain ⟨us, b', s₁, rfl, hrun, hstep⟩ := run_stop_cut hv h
      exact ⟨b :: us, b', s₁, rfl, by rw [run_cons_more hs, hrun], hstep⟩
    · rw [run_cons_stop hs hv1] at h
      simp only [Prod.mk.injEq] at h
      obtain ⟨rfl, rfl, rfl⟩ := h
      exact ⟨[], b, s, rfl, rfl, hs⟩

/-- An invariant of the steps is an invariant of the calls. -/
theorem run_invariant {I : σ → Prop} (hI : ∀ s b, I s → I (step s b).2) :
    ∀ (bs : List β) (s : σ), I s → I (run step s bs).2.1
  | [], _, h => h
  | b :: bs, s, h => by
    have h1 := hI s b h
    rcases hs : step s b with ⟨v, s1⟩
    rw [hs] at h1
    by_cases hv : v = .more
    · subst hv; rw [run_cons_more hs]; exact run_invariant hI bs s1 h1
    · rw [run_cons_stop hs hv]; exact h1

/-! ### Driving a reader -/

variable (step) (resume : Verdict → σ → σ)

/-- What a driver sees of a stream: at which offset the reader stopped, why and in which state. -/
def drain : σ → ℕ → List β → List (ℕ × Verdict × σ) × σ
  | s, _, [] => ([], s)
  | s, off, b :: bs =>
    match step s b with
    | (.more, s) => drain s (off + 1) bs
    | (v, s) =>
      let r := drain (resume v s) (off + 1) bs
      ((off + 1, v, s) :: r.1, r.2)

/-- The driver on a list of chunks. -/
def drainChunks (s : σ) (off : ℕ) : List (List β) → List (ℕ × Verdict × σ) × σ
  | [] => ([], s)
  | c :: cs =>
    let r := drain step resume s off c
    let t := drainChunks r.2 (off + c.length) cs
    (r.1 ++ t.1, t.2)

variable {step resume}

theorem drain_cons_more {s s' : σ} {b : β} (h : step s b = (.more, s')) (off : ℕ) (bs : List β) :
    drain step resume s off (b :: bs) = drain step resume s' (off + 1) bs := by
  simp [drain, h]

theorem drain_cons_stop {s s' : σ} {b : β} {v : Verdict} (h : step s b = (v, s'))
    (hv : v ≠ .more) (off : ℕ) (bs : List β) :
    drain step resume s off (b :: bs) =
      ((off + 1, v, s') :: (drain step resume (resume v s') (off + 1) bs).1,
        (drain step resume (resume v s') (off + 1) bs).2) := by
  cases v with
  | more => exact absurd rfl hv
  | done => simp [drain, h]
  | fail => simp [drain, h]

theorem drain_append : ∀ (xs ys : List β) (s : σ) (off : ℕ),
    drain step resume s off (xs ++ ys) =
      ((drain step resume s off xs).1 ++
          (drain step resume (drain step resume s off xs).2 (off + xs.length) ys).1,
        (drain step resume (drain step resume s off xs).2 (off + xs.length) ys).2)
  | [], ys, s, off => by simp [drain]
  | b :: xs, ys, s, off => by
    rw [List.cons_append, List.length_cons, show off + (xs.length + 1) = off + 1 + xs.length by omega]
    rcases hs : step s b with ⟨v, s1⟩
    by_cases hv : v = .more
    · subst hv
      rw [drain_cons_more hs, drain_cons_more hs]
      exact drain_append xs ys s1 (off + 1)
    · rw [drain_cons_stop hs hv, drain_cons_stop hs hv, drain_append xs ys (resume v s1) (off + 1)]
      rfl

/-- **What a driver sees does not depend on the cuts.** -/
theorem drainChunks_eq : ∀ (cs : List (List β)) (s : σ) (off : ℕ),
    drainChunks step resume s off cs = drain step resume s off cs.flatten
  | [], s, off => by simp [drainChunks, drain]
  | c :: cs, s, off => by
    rw [List.flatten_cons, drain_append, drainChunks, drainChunks_eq cs]

/-- A call followed by the driver on what is left is the driver: a call that asks for more. -/
theorem drain_of_run_more : ∀ {bs : List β} {s s' : σ} {rest : List β} (off : ℕ),
    run step s bs = (.more, s', rest) → drain step resume s off bs = ([], s')
  | [], s, s', rest, off, h => by simp at h; rw [h.1]; rfl
  | b :: bs, s, s', rest, off, h => by
    rcases hs : step s b with ⟨v, s1⟩
    by_cases hv : v = .more
    · subst hv
      rw [run_cons_more hs] at h
      rw [drain_cons_more hs]
      exact drain_of_run_more (off + 1) h
    · rw [run_cons_stop hs hv] at h
      simp only [Prod.mk.injEq] at h
      exact absurd h.1 hv

/-- A call followed by the driver on what is left is the driver: a call that stops. -/
theorem drain_of_run_stop {v : Verdict} (hv : v ≠ .more) :
    ∀ {bs : List β} {s s' : σ} {rest : List β} (off : ℕ),
      run step s bs = (v, s', rest) →
        drain step resume s off bs =
          ((off + bs.length - rest.length, v, s') ::
              (drain step resume (resume v s') (off + bs.length - rest.length) rest).1,
            (drain step resume (resume v s') (off + bs.length - rest.length) rest).2)
  | [], s, s', rest, off, h => by simp at h; exact absurd h.1.symm hv
  | b :: bs, s, s', rest, off, h => by
    rcases hs : step s b with ⟨v1, s1⟩
    by_cases hv1 : v1 = .more
    · subst hv1
      rw [run_cons_more hs] at h
      rw [drain_cons_more hs, drain_of_run_stop hv (off + 1) h, List.length_cons,
        show off + 1 + bs.length = off + (bs.length + 1) by omega]
    · rw [run_cons_stop hs hv1] at h
      simp only [Prod.mk.injEq] at h
      obtain ⟨rfl, rfl, rfl⟩ := h
      rw [drain_cons_stop hs hv1, List.length_cons,
        show off + (bs.length + 1) - bs.length = off + 1 by omega]

/-! ### Potentials -/

section Potential

variable {φ : σ → ℕ} {w : Verdict → σ → ℕ}

/-- **Amortization.** If a symbol adds at most one to a potential and what a stop puts out is paid from
it, all that is put out and the potential that is left are at most what there was in the beginning and
one for each symbol. -/
theorem drain_potential
    (hmore : ∀ {s s' : σ} {b : β}, step s b = (.more, s') → φ s' ≤ φ s + 1)
    (hstop : ∀ {s s' : σ} {b : β} {v : Verdict}, step s b = (v, s') → v ≠ .more →
      w v s' + φ (resume v s') ≤ φ s + 1) :
    ∀ (bs : List β) (s : σ) (off : ℕ),
      ((drain step resume s off bs).1.map fun e => w e.2.1 e.2.2).sum +
        φ (drain step resume s off bs).2 ≤ φ s + bs.length
  | [], s, off => by simp [drain]
  | b :: bs, s, off => by
    rw [List.length_cons]
    rcases hs : step s b with ⟨v, s1⟩
    by_cases hv : v = .more
    · subst hv
      have hone := hmore hs
      have ih := drain_potential hmore hstop bs s1 (off + 1)
      rw [drain_cons_more hs]
      omega
    · have hone := hstop hs hv
      have ih := drain_potential hmore hstop bs (resume v s1) (off + 1)
      rw [drain_cons_stop hs hv, List.map_cons, List.sum_cons]
      dsimp only
      omega

/-- What grows by at most one with a symbol is in the end at most the number of symbols larger. -/
theorem drain_growth
    (hmore : ∀ {s s' : σ} {b : β}, step s b = (.more, s') → φ s' ≤ φ s + 1)
    (hstop : ∀ {s s' : σ} {b : β} {v : Verdict}, step s b = (v, s') → v ≠ .more →
      φ (resume v s') ≤ φ s + 1) (bs : List β) (s : σ) (off : ℕ) :
    φ (drain step resume s off bs).2 ≤ φ s + bs.length := by
  have hdrain : ((drain step resume s off bs).1.map fun _ => 0).sum +
      φ (drain step resume s off bs).2 ≤ φ s + bs.length :=
    drain_potential (w := fun _ _ => 0) hmore
      (fun hs hv => by rw [Nat.zero_add]; exact hstop hs hv) bs s off
  exact Nat.le_trans (Nat.le_add_left _ _) hdrain

end Potential

/-! ### Output -/

section Output

variable {γ : Type*} (step) (resume) (out : σ → β → List γ)

/-- What a call puts out, if the reader puts something out at each symbol that it reads. -/
def runOut : σ → List β → List γ
  | _, [] => []
  | s, b :: bs =>
    out s b ++
      match step s b with
      | (.more, s) => runOut s bs
      | _ => []

/-- What comes of a stream. -/
def drainOut : σ → List β → List γ
  | _, [] => []
  | s, b :: bs =>
    out s b ++
      match step s b with
      | (.more, s) => drainOut s bs
      | (v, s) => drainOut (resume v s) bs

variable {step resume out}

theorem runOut_cons_more {s s' : σ} {b : β} (h : step s b = (.more, s')) (bs : List β) :
    runOut step out s (b :: bs) = out s b ++ runOut step out s' bs := by
  simp [runOut, h]

theorem runOut_cons_stop {s s' : σ} {b : β} {v : Verdict} (h : step s b = (v, s'))
    (hv : v ≠ .more) (bs : List β) : runOut step out s (b :: bs) = out s b := by
  cases v with
  | more => exact absurd rfl hv
  | done => simp [runOut, h]
  | fail => simp [runOut, h]

theorem drainOut_cons_more {s s' : σ} {b : β} (h : step s b = (.more, s')) (bs : List β) :
    drainOut step resume out s (b :: bs) = out s b ++ drainOut step resume out s' bs := by
  simp [drainOut, h]

theorem drainOut_cons_stop {s s' : σ} {b : β} {v : Verdict} (h : step s b = (v, s'))
    (hv : v ≠ .more) (bs : List β) : drainOut step resume out s (b :: bs) =
      out s b ++ drainOut step resume out (resume v s') bs := by
  cases v with
  | more => exact absurd rfl hv
  | done => simp [drainOut, h]
  | fail => simp [drainOut, h]

/-- Where a driver begins to count does not matter for the state that it leaves. -/
theorem drain_state : ∀ (bs : List β) (s : σ) (m n : ℕ),
    (drain step resume s m bs).2 = (drain step resume s n bs).2
  | [], _, _, _ => rfl
  | b :: bs, s, m, n => by
    rcases hs : step s b with ⟨v, s1⟩
    by_cases hv : v = .more
    · subst hv
      rw [drain_cons_more hs, drain_cons_more hs]
      exact drain_state bs s1 (m + 1) (n + 1)
    · rw [drain_cons_stop hs hv, drain_cons_stop hs hv]
      exact drain_state bs (resume v s1) (m + 1) (n + 1)

theorem drainOut_append : ∀ (xs ys : List β) (s : σ), drainOut step resume out s (xs ++ ys) =
    drainOut step resume out s xs ++
      drainOut step resume out (drain step resume s 0 xs).2 ys
  | [], _, _ => rfl
  | b :: xs, ys, s => by
    rw [List.cons_append]
    rcases hs : step s b with ⟨v, s1⟩
    by_cases hv : v = .more
    · subst hv
      rw [drainOut_cons_more hs, drainOut_cons_more hs, drain_cons_more hs,
        drainOut_append xs ys s1, List.append_assoc, drain_state xs s1 (0 + 1) 0]
    · rw [drainOut_cons_stop hs hv, drainOut_cons_stop hs hv, drain_cons_stop hs hv,
        drainOut_append xs ys (resume v s1), List.append_assoc,
        drain_state xs (resume v s1) (0 + 1) 0]

theorem drainOut_of_run_more : ∀ {bs : List β} {s s' : σ} {rest : List β},
    run step s bs = (.more, s', rest) → drainOut step resume out s bs = runOut step out s bs
  | [], _, _, _, _ => rfl
  | b :: bs, s, s', rest, h => by
    rcases hs : step s b with ⟨v, s1⟩
    by_cases hv : v = .more
    · subst hv
      rw [run_cons_more hs] at h
      rw [drainOut_cons_more hs, runOut_cons_more hs, drainOut_of_run_more h]
    · rw [run_cons_stop hs hv] at h
      exact absurd (congrArg Prod.fst h) hv

theorem drainOut_of_run_stop {v : Verdict} (hv : v ≠ .more) :
    ∀ {bs : List β} {s s' : σ} {rest : List β}, run step s bs = (v, s', rest) →
      drainOut step resume out s bs =
        runOut step out s bs ++ drainOut step resume out (resume v s') rest
  | [], s, s', rest, h => by simp at h; exact absurd h.1.symm hv
  | b :: bs, s, s', rest, h => by
    rcases hs : step s b with ⟨v1, s1⟩
    by_cases hv1 : v1 = .more
    · subst hv1
      rw [run_cons_more hs] at h
      rw [drainOut_cons_more hs, runOut_cons_more hs, drainOut_of_run_stop hv h, List.append_assoc]
    · rw [run_cons_stop hs hv1] at h
      simp only [Prod.mk.injEq] at h
      obtain ⟨rfl, rfl, rfl⟩ := h
      rw [drainOut_cons_stop hs hv1, runOut_cons_stop hs hv1]

/-- What comes of a stream comes of one of its symbols. -/
theorem mem_drainOut {x : γ} : ∀ {bs : List β} {s : σ}, x ∈ drainOut step resume out s bs →
    ∃ us b vs, bs = us ++ b :: vs ∧ x ∈ out (drain step resume s 0 us).2 b
  | [], _, h => by cases h
  | b :: bs, s, h => by
    rcases hs : step s b with ⟨v, s1⟩
    by_cases hv : v = .more
    · subst hv
      rw [drainOut_cons_more hs] at h
      rcases List.mem_append.mp h with h | h
      · exact ⟨[], b, bs, rfl, h⟩
      · obtain ⟨us, b', vs, rfl, hx⟩ := mem_drainOut h
        refine ⟨b :: us, b', vs, rfl, ?_⟩
        rwa [drain_cons_more hs, drain_state us s1 (0 + 1) 0]
    · rw [drainOut_cons_stop hs hv] at h
      rcases List.mem_append.mp h with h | h
      · exact ⟨[], b, bs, rfl, h⟩
      · obtain ⟨us, b', vs, rfl, hx⟩ := mem_drainOut h
        refine ⟨b :: us, b', vs, rfl, ?_⟩
        rwa [drain_cons_stop hs hv, drain_state us (resume v s1) (0 + 1) 0]

end Output

end RedisClient.Lib.Reader

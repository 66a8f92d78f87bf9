import Mathlib.Data.List.Basic

/-! # Runs of a machine that may be stuck

A machine takes events one at a time and may refuse one (`step`). Something that every step keeps
holds in every state that a run leads to (`runs_induction`). A measure that every step lowers bounds
the length of the runs (`length_le_of_lowers`), and if there is a step that lowers it from every state
short of a goal, a run leads to the goal (`exists_runs_of_lowers`). -/

namespace RedisClient.Lib.Runs

variable {ε α : Type*} (step : ε → α → Option α)

/-- The states after these events, if all of them are possible. -/
def runs : List ε → α → Option α
  | [], a => some a
  | e :: es, a => (step e a).bind (runs es)

variable {step}

theorem runs_cons {e : ε} {es : List ε} {a b : α} :
    runs step (e :: es) a = some b ↔ ∃ a1, step e a = some a1 ∧ runs step es a1 = some b :=
  Option.bind_eq_some_iff

/-- **An invariant of the steps** holds after every run. `P` is known of the events. -/
theorem runs_induction {P : ε → Prop} {I : α → Prop}
    (hstep : ∀ e a b, P e → I a → step e a = some b → I b) {es : List ε} {a b : α}
    (hes : ∀ e ∈ es, P e) (ha : I a) (h : runs step es a = some b) : I b := by
  induction es generalizing a with
  | nil =>
    cases h
    exact ha
  | cons e es ih =>
    obtain ⟨a1, h1, h2⟩ := runs_cons.mp h
    have he := hes e List.mem_cons_self
    exact ih (fun e' he' => hes e' (List.mem_cons_of_mem e he')) (hstep e a a1 he ha h1) h2

section Measure

variable {P : ε → Prop} {I : α → Prop} {μ : α → ℕ}

/-- **A measure that every step lowers** bounds the runs. -/
theorem length_le_of_lowers
    (hstep : ∀ e a b, P e → I a → step e a = some b → I b ∧ μ b < μ a) {es : List ε} {a b : α}
    (hes : ∀ e ∈ es, P e) (ha : I a) (h : runs step es a = some b) : es.length + μ b ≤ μ a := by
  induction es generalizing a with
  | nil =>
    cases h
    simp
  | cons e es ih =>
    obtain ⟨a1, h1, h2⟩ := runs_cons.mp h
    obtain ⟨ha1, hlt⟩ := hstep e a a1 (hes e List.mem_cons_self) ha h1
    have hle := ih (fun e' he' => hes e' (List.mem_cons_of_mem e he')) ha1 h2
    rw [List.length_cons]
    omega

/-- **A goal is reached** if from every other state there is a step that lowers the measure. -/
theorem exists_runs_of_lowers {G : α → Prop}
    (hstep : ∀ a, I a → ¬ G a → ∃ e b, P e ∧ step e a = some b ∧ I b ∧ μ b < μ a) {a : α}
    (ha : I a) : ∃ es b, (∀ e ∈ es, P e) ∧ runs step es a = some b ∧ I b ∧ G b := by
  induction hn : μ a using Nat.strongRecOn generalizing a with
  | ind n ih =>
    by_cases hg : G a
    · exact ⟨[], a, by simp, rfl, ha, hg⟩
    · obtain ⟨e, a1, he, h1, ha1, hlt⟩ := hstep a ha hg
      obtain ⟨es, b, hes, h2, hb, hgb⟩ := ih (μ a1) (by omega) ha1 rfl
      refine ⟨e :: es, b, fun e' he' => ?_, runs_cons.mpr ⟨a1, h1, h2⟩, hb, hgb⟩
      rcases List.mem_cons.mp he' with rfl | he'
      · exact he
      · exact hes e' he'

end Measure

end RedisClient.Lib.Runs

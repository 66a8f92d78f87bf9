import RedisClient.Parser.RoundTrip

/-! # A reply that is still to come

A caller holds some bytes and will receive more. `Ahead p s v rest` says that the bytes `s`, those at
hand and those to come, take the parser `p` to the end of a reply with the value `v`, and that `rest`
follows. It holds between two replies in front of the text of one (`ahead_enc`), and a call on the
bytes at hand either completes the reply or leaves it ahead on the bytes to come (`parse_ahead`). -/

namespace RedisClient.Parser.Awaiting

open RedisClient.Value RedisClient.Lib.Reader RedisClient.Parser.Defs RedisClient.Parser.Machine
open RedisClient.Parser.Refine RedisClient.Parser.Grammar RedisClient.Parser.Descent
open RedisClient.Parser.RoundTrip

/-- The bytes `s` complete a reply and `rest` is left. -/
def Ahead (p : RedisParser) (s : Bytes) (v : RedisValue) (rest : Bytes) : Prop :=
  ∃ c c', Rep p c ∧ Ok c ∧ run step c s = (.done, c', rest) ∧ c'.redisValue = v

theorem settle_done {c c' : Config} (h : settle c = (.done, c')) :
    c'.state = .start ∧ c'.frames = [] := by
  unfold settle at h
  split_ifs at h with hs
  · dsimp only at h
    split_ifs at h with hf
    · cases h
      exact ⟨hs, hf⟩
    · cases h
  · cases h

theorem run_done : ∀ {s : Bytes} {c c' : Config} {rest : Bytes},
    run step c s = (.done, c', rest) → c'.state = .start ∧ c'.frames = []
  | [], _, _, _, h => by cases h
  | b :: s, c, c', rest, h => by
    rcases hx : step c b with ⟨v, c1⟩
    cases v with
    | more =>
      rw [run_cons_more hx] at h
      exact run_done h
    | done =>
      rw [run_cons_done hx] at h
      cases h
      unfold step at hx
      split at hx
      · cases hx
      · exact settle_done hx
    | fail =>
      rw [run_cons_fail hx] at h
      cases h

/-- **Between two replies the text of one is ahead.** -/
theorem ahead_enc {p : RedisParser} (hp : Idle p) (v : Reply) (s : Bytes) :
    Ahead p (v.enc ++ s) v.value s := by
  obtain ⟨c, hr, hc, hst, hf⟩ := rep_of_idle hp
  have h := run_reply (v.enc ++ s).length (v.enc ++ s) c (Nat.le_refl _) (Or.inl hst)
  have href : reply (v.enc ++ s).length (v.enc ++ s) = .done v.value s := ref_enc v s
  rw [href] at h
  obtain ⟨c', hf', h⟩ := h
  rw [deliver_nil (by rw [hf', hf])] at h
  exact ⟨c, _, hr, hc, h, rfl⟩

theorem ahead_ne_nil {p : RedisParser} {s rest : Bytes} {v : RedisValue} (h : Ahead p s v rest) :
    s ≠ [] := by
  rintro rfl
  obtain ⟨c, c', -, -, h, -⟩ := h
  cases h

theorem ahead_length {p : RedisParser} {s rest : Bytes} {v : RedisValue} (h : Ahead p s v rest) :
    rest.length < s.length := by
  have hne := ahead_ne_nil h
  obtain ⟨c, c', -, -, h, -⟩ := h
  have := length_rest step s c hne
  rwa [h] at this

/-- What comes after the reply may go on. -/
theorem ahead_append {p : RedisParser} {s rest : Bytes} {v : RedisValue} (h : Ahead p s v rest)
    (t : Bytes) : Ahead p (s ++ t) v (rest ++ t) := by
  obtain ⟨c, c', hr, hc, hrun, hv⟩ := h
  exact ⟨c, c', hr, hc, by rw [run_append_stop (by simp) hrun], hv⟩

/-- **A call on the bytes at hand** completes the reply, or has read them all and the reply is still
ahead. -/
theorem parse_ahead {p : RedisParser} {b s rest : Bytes} {v : RedisValue}
    (h : Ahead p (b ++ s) v rest) (hb : b ≠ []) :
    (∃ k p', parse p b = some ((k, .completed), p') ∧ k ≤ b.length ∧ b.drop k ++ s = rest ∧
      Idle p' ∧ (result p').1 = v) ∨
    ∃ p', parse p b = some ((b.length, .incompleted), p') ∧ Ahead p' s v rest := by
  obtain ⟨c, c', hr, hc, hrun, hv⟩ := h
  have hp := parse_rep hr hc hb
  rcases hx : run step c b with ⟨w, c1, rest1⟩
  rw [hx] at hp
  cases w with
  | more =>
    have hrest := rest_of_more hx
    subst hrest
    have hok := run_ok hc b
    rw [hx] at hok
    rw [run_append_more hx] at hrun
    exact Or.inr ⟨_, hp, c1, c', Or.inl rfl, hok, hrun, hv⟩
  | done =>
    rw [run_append_stop (by simp) hx] at hrun
    cases hrun
    have hd : b.drop (b.length - rest1.length) = rest1 := by
      have hsuf := rest_suffix step b c
      rw [hx] at hsuf
      exact (List.suffix_iff_eq_drop.mp hsuf).symm
    obtain ⟨-, hf⟩ := run_done hx
    refine Or.inl ⟨_, _, hp, ?_, ?_, ?_, ?_⟩
    · dsimp only [report]
      omega
    · dsimp only [report]
      rw [hd]
    · simp [Idle, after, toParser, hf]
    · exact hv
  | fail =>
    rw [run_append_stop (by simp) hx] at hrun
    cases hrun

end RedisClient.Parser.Awaiting

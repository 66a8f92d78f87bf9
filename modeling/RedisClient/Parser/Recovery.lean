import RedisClient.Parser.Likeness

/-! # After an error

An error leaves the parser between two replies, but with the arrays that were open when the byte was
read that it rejects: every error exit clears the saved state, and none clears the stacks of the
arrays. So the parser goes on like a new one exactly if no array was open in front of that byte
(`recovers_iff`). Otherwise what comes next is read as an element of the old array. -/

namespace RedisClient.Parser.Recovery

open RedisClient.Value RedisClient.Lib.Reader RedisClient.Parser.Defs RedisClient.Parser.Machine
open RedisClient.Parser.Refine RedisClient.Parser.Descent RedisClient.Parser.Likeness

/-! ### What a caller sees -/

/-- What a call reports, with the value if it completes a reply. -/
abbrev Observation := (ℕ × ParseResult) × Option RedisValue

/-- What a caller sees that calls `parse` on each chunk, and `result` after each reply. -/
def observe (p : RedisParser) : List Bytes → Option (List Observation)
  | [] => some []
  | s :: ss =>
    match parse p s with
    | none => none
    | some ((k, .completed), p) =>
      let (v, p) := result p
      (observe p ss).map (((k, .completed), some v) :: ·)
    | some ((k, r), p) => (observe p ss).map (((k, r), none) :: ·)

/-- No sequence of nonempty chunks tells the parser from a new one. -/
def LikeNew (p : RedisParser) : Prop :=
  ∀ ss : List Bytes, (∀ s ∈ ss, s ≠ []) → observe p ss = observe fresh ss

theorem observe_alike : ∀ {ss : List Bytes} {p q : RedisParser}, Alike p q →
    (∀ s ∈ ss, s ≠ []) → observe p ss = observe q ss
  | [], _, _, _, _ => rfl
  | s :: ss, p, q, h, hss => by
    obtain ⟨k, r, p', q', hp, hq, ha, -, hv⟩ := parse_alike h (hss s List.mem_cons_self)
    have htail : ∀ t ∈ ss, t ≠ [] := fun t ht => hss t (List.mem_cons_of_mem s ht)
    simp only [observe, hp, hq]
    cases r with
    | completed =>
      have ih := observe_alike (alike_result ha) htail
      have hval := hv rfl
      dsimp only
      rw [ih, hval]
    | incompleted =>
      exact congrArg (Option.map (((k, .incompleted), none) :: ·)) (observe_alike ha htail)
    | error => exact congrArg (Option.map (((k, .error), none) :: ·)) (observe_alike ha htail)

/-! ### What an error leaves -/

/-- A byte that is rejected leaves the open arrays as they are. -/
theorem lex_error_frames {c c' : Config} {b : UInt8} (h : lex c b = .error c') :
    c'.frames = c.frames := by
  rcases hs : c.state <;>
    simp only [lex, hs, lexStart, lexLine, lexNumeral, lexBulkSizeEnd, lexBulk, lexArraySizeEnd] at h
  case bulk => cases h
  all_goals split_ifs at h <;> cases h <;> rfl

theorem step_fail_frames {c c' : Config} {b : UInt8} (h : step c b = (.fail, c')) :
    c'.frames = c.frames := by
  unfold step at h
  rcases hl : lex c b with c1 | c1 <;> rw [hl] at h
  · cases h
    exact lex_error_frames hl
  · exact absurd (congrArg Prod.fst h) (settle_ne_fail c1)

/-- The parser in front of the byte that a call rejects, and the parser that the call leaves: between
two replies, with the same open arrays. -/
theorem parse_error {p p' : RedisParser} (hp : Reachable p) {ptr : Bytes} (hne : ptr ≠ []) {k : ℕ}
    (h : parse p ptr = some ((k, .error), p')) : ∃ q c, Reachable q ∧
      (k = 1 ∧ q = p ∨ 1 < k ∧ parse p (ptr.take (k - 1)) = some ((k - 1, .incompleted), q)) ∧
      p' = toParser c [] ∧ q.arraySizes = p'.arraySizes := by
  obtain ⟨d, hr, hd⟩ := rep_of_reachable hp
  rw [parse_rep hr hd hne] at h
  rcases hx : run step d ptr with ⟨v, c, rest⟩
  rw [hx] at h
  simp only [report, Option.some.injEq, Prod.mk.injEq] at h
  obtain ⟨⟨hk, hv⟩, rfl⟩ := h
  obtain rfl : v = .fail := by cases v <;> first | rfl | cases hv
  obtain ⟨us, b, c1, rfl, hrun, hstep⟩ := run_stop_cut (by simp) hx
  have hframes := step_fail_frames hstep
  have hk1 : k = us.length + 1 := by
    rw [List.length_append, List.length_cons] at hk
    omega
  rcases us with _ | ⟨u, us⟩
  · cases hrun
    refine ⟨p, c, hp, Or.inl ⟨hk1, rfl⟩, rfl, ?_⟩
    rcases hr with rfl | ⟨-, rfl⟩ <;> simp [after, toParser, hframes]
  · have hpar := parse_rep hr hd (List.cons_ne_nil u us)
    rw [hrun] at hpar
    have htake : (u :: us ++ b :: rest).take (k - 1) = u :: us := by
      rw [hk1, Nat.add_sub_cancel]
      exact List.take_left
    have hcount : k - 1 = (u :: us).length := by
      rw [hk1]
      rfl
    refine ⟨toParser c1 [c1.state], c, hp.parse (List.cons_ne_nil u us) hpar,
      Or.inr ⟨by rw [hk1, List.length_cons]; omega, ?_⟩, rfl, ?_⟩
    · rw [htake, hcount]
      exact hpar
    · simp [after, toParser, hframes]

/-! ### Recovery -/

theorem likeNew_of_idle {p : RedisParser} (h : Idle p) : LikeNew p := fun _ hss =>
  observe_alike (alike_of_idle h ⟨rfl, rfl, rfl⟩) hss

/-- The integer reply `:0`. -/
def zero : Bytes := [integerReply, 48, CR, LF]

/-- With an array open the integer is not the next reply. -/
theorem not_likeNew {c : Config} (hf : c.frames ≠ []) : ¬ LikeNew (toParser c []) := by
  intro h
  have hz : zero ≠ [] := List.cons_ne_nil _ _
  have hobs := h [zero] fun s hs => by
    rw [List.mem_singleton.mp hs]
    exact hz
  rw [show observe fresh [zero] = some [((4, .completed), some (.int 0))] by decide +kernel] at hobs
  have hrep : Rep (toParser c []) (restart c) := Or.inr ⟨rfl, rfl⟩
  simp only [observe, parse_rep hrep (ok_restart c) hz, report] at hobs
  rcases hx : run step (restart c) zero with ⟨v, c', rest⟩
  rw [hx] at hobs
  cases v with
  | more => simp [resultOf] at hobs
  | fail => simp [resultOf] at hobs
  | done =>
    refine mid_integer (c := restart c) (s := [48, CR, LF]) (Or.inr hf) hx 0 ?_
    simp only [resultOf, result, Option.map_some, Option.some.injEq, List.cons.injEq,
      Prod.mk.injEq] at hobs
    exact hobs.1.2

/-- **When the parser recovers.** After an error it cannot be told from a new one exactly if no array
was open in front of the byte that it rejected; `q` is the parser there. -/
theorem recovers_iff {p p' : RedisParser} (hp : Reachable p) {ptr : Bytes} (hne : ptr ≠ []) {k : ℕ}
    (h : parse p ptr = some ((k, .error), p')) : ∃ q, Reachable q ∧
      (k = 1 ∧ q = p ∨ 1 < k ∧ parse p (ptr.take (k - 1)) = some ((k - 1, .incompleted), q)) ∧
      (LikeNew p' ↔ q.arraySizes = []) := by
  obtain ⟨q, c, hq, hcut, rfl, hsizes⟩ := parse_error hp hne h
  refine ⟨q, hq, hcut, fun hnew => ?_, fun hnil => ?_⟩
  · by_contra hopen
    refine not_likeNew (fun hf => hopen ?_) hnew
    rw [hsizes]
    simp [toParser, hf]
  · rw [hsizes] at hnil
    have hf : c.frames = [] := by simpa [toParser] using hnil
    exact likeNew_of_idle (by simp [Idle, toParser, hf])

/-- An error outside of all arrays. -/
theorem recovers_iff_line : ∃ q, Reachable q ∧
    ((2 = 1 ∧ q = fresh) ∨
      1 < 2 ∧ parse fresh (([43, 10] : Bytes).take (2 - 1)) = some ((2 - 1, .incompleted), q)) ∧
    (LikeNew { fresh with states := [] } ↔ q.arraySizes = []) :=
  recovers_iff .fresh (List.cons_ne_nil 43 [10]) (by decide +kernel)

/-- **An array that was open stays open**: after an error inside of it, the integer reply `:5` is its
first element. -/
theorem error_in_array : ∃ p', parse fresh [42, 49, 13, 10, 33] = some ((5, .error), p') ∧
    observe p' [[58, 53, 13, 10]] = some [((4, .completed), some (.array [.int 5]))] ∧
    observe fresh [[58, 53, 13, 10]] = some [((4, .completed), some (.int 5))] ∧
    ¬ LikeNew p' := by
  have hp : parse fresh [42, 49, 13, 10, 33] = some ((5, .error),
      { fresh with arraySizes := [1], arrayValues := [.array []] }) := by decide +kernel
  have h1 : observe { fresh with arraySizes := [1], arrayValues := [.array []] } [[58, 53, 13, 10]] =
      some [((4, .completed), some (.array [.int 5]))] := by decide +kernel
  have h2 : observe fresh [[58, 53, 13, 10]] = some [((4, .completed), some (.int 5))] := by
    decide +kernel
  refine ⟨_, hp, h1, h2, fun hnew => ?_⟩
  have hsame := hnew [[58, 53, 13, 10]] (by simp)
  rw [h1, h2] at hsame
  simp at hsame

end RedisClient.Parser.Recovery

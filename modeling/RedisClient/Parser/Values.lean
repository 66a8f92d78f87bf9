import RedisClient.Parser.Awaiting
import RedisClient.Parser.Chunks
import RedisClient.Parser.Likeness

/-! # The values of a stream

What a caller gets from a stream, errors included (`outcomesFrom`), and the values before the first
error (`valuesFrom`). One call on the bytes at hand takes the first outcome, or leaves them all to the
bytes to come (`outcomes_parse`, `values_parse`). So they are the same for every way of cutting the
stream. -/

namespace RedisClient.Parser.Values

open RedisClient.Value RedisClient.Lib.Reader RedisClient.Parser.Defs RedisClient.Parser.Machine
open RedisClient.Parser.Refine RedisClient.Parser.Chunks RedisClient.Parser.Descent
open RedisClient.Parser.RoundTrip RedisClient.Parser.Likeness

/-- The values of the replies in front of the first error. -/
def upToError : List Event → List RedisValue
  | .reply _ v :: es => v :: upToError es
  | _ => []

/-- **The values that the parser gives on a stream**, up to its first error. -/
def valuesFrom (p : RedisParser) (s : Bytes) : List RedisValue :=
  ((feedChunk s.length p 0 s).map fun r => upToError r.1).getD []

/-- The values of a whole stream. -/
def wholeValues (s : Bytes) : List RedisValue := valuesFrom fresh s

/-! ### Outcomes -/

/-- What a caller gets: the value of a reply, or `none` for an error. -/
def outcome : Event → Option RedisValue
  | .reply _ v => some v
  | .error _ => none

/-- **What a caller gets from a stream**, errors included. -/
def outcomesFrom (p : RedisParser) (s : Bytes) : List (Option RedisValue) :=
  ((feedChunk s.length p 0 s).map fun r => r.1.map outcome).getD []

/-- The values in front of the first `none`. -/
def upToNone : List (Option RedisValue) → List RedisValue
  | some v :: os => v :: upToNone os
  | _ => []

theorem upToError_eq : ∀ es : List Event, upToError es = upToNone (es.map outcome)
  | [] => rfl
  | .reply _ v :: es => congrArg (v :: ·) (upToError_eq es)
  | .error _ :: _ => rfl

theorem upToNone_mono : ∀ {os os' : List (Option RedisValue)}, os <+: os' →
    upToNone os <+: upToNone os'
  | [], _, _ => List.nil_prefix
  | none :: _, _, _ => List.nil_prefix
  | some v :: os, [], h => absurd (List.prefix_nil.mp h) (List.cons_ne_nil _ _)
  | some v :: os, o :: os', h => by
    obtain ⟨rfl, htail⟩ := List.cons_prefix_cons.mp h
    exact (List.prefix_cons_inj v).mpr (upToNone_mono htail)

theorem upToNone_map_some : ∀ vs : List RedisValue, upToNone (vs.map some) = vs
  | [] => rfl
  | v :: vs => congrArg (v :: ·) (upToNone_map_some vs)

/-! ### On the machine -/

/-- What the machine gives on a stream. -/
def machineOutcomes (c : Config) (off : ℕ) (s : Bytes) : List (Option RedisValue) :=
  ((drain step resume c off s).1.map eventOf).map outcome

/-- The values that the machine gives on a stream. -/
def machineValues (c : Config) (off : ℕ) (s : Bytes) : List RedisValue :=
  upToError ((drain step resume c off s).1.map eventOf)

theorem machineValues_eq (c : Config) (off : ℕ) (s : Bytes) :
    machineValues c off s = upToNone (machineOutcomes c off s) :=
  upToError_eq _

theorem outcomesFrom_rep {p : RedisParser} {c : Config} (hr : Rep p c) (hc : Ok c) (s : Bytes) :
    outcomesFrom p s = machineOutcomes c 0 s := by
  obtain ⟨q, h, -⟩ := feedChunk_rep s.length p c 0 s (Nat.le_refl _) hr hc
  unfold outcomesFrom
  rw [h]
  rfl

theorem valuesFrom_rep {p : RedisParser} {c : Config} (hr : Rep p c) (hc : Ok c) (s : Bytes) :
    valuesFrom p s = machineValues c 0 s := by
  obtain ⟨q, h, -⟩ := feedChunk_rep s.length p c 0 s (Nat.le_refl _) hr hc
  unfold valuesFrom
  rw [h]
  rfl

/-- Where a stream begins does not matter. -/
theorem machineOutcomes_off : ∀ (s : Bytes) (c : Config) (off off' : ℕ),
    machineOutcomes c off s = machineOutcomes c off' s
  | [], _, _, _ => rfl
  | b :: s, c, off, off' => by
    unfold machineOutcomes
    rcases hx : step c b with ⟨v, c1⟩
    by_cases hv : v = .more
    · subst hv
      rw [drain_cons_more hx, drain_cons_more hx]
      exact machineOutcomes_off s c1 (off + 1) (off' + 1)
    · have ih := machineOutcomes_off s (resume v c1) (off + 1) (off' + 1)
      unfold machineOutcomes at ih
      rw [drain_cons_stop hx hv, drain_cons_stop hx hv]
      simp only [List.map_cons, ih]
      cases v <;> rfl

theorem machineOutcomes_append (c : Config) (s t : Bytes) :
    machineOutcomes c 0 s <+: machineOutcomes c 0 (s ++ t) := by
  unfold machineOutcomes
  rw [drain_append, List.map_append, List.map_append]
  exact List.prefix_append _ _

theorem machineValues_append (c : Config) (s t : Bytes) :
    machineValues c 0 s <+: machineValues c 0 (s ++ t) := by
  rw [machineValues_eq, machineValues_eq]
  exact upToNone_mono (machineOutcomes_append c s t)

/-- A call that asks for more has taken nothing. -/
theorem machineOutcomes_more {c c' : Config} {s rest : Bytes}
    (h : run step c s = (.more, c', rest)) (t : Bytes) :
    machineOutcomes c 0 (s ++ t) = machineOutcomes c' 0 t := by
  have hs := machineOutcomes_off t c' (0 + s.length) 0
  unfold machineOutcomes at hs ⊢
  rw [drain_append, drain_of_run_more 0 h]
  exact hs

/-- A call that stops has taken the first outcome. -/
theorem machineOutcomes_stop {c c' : Config} {v : Verdict} {s rest : Bytes} (hv : v ≠ .more)
    (h : run step c s = (v, c', rest)) (t : Bytes) : machineOutcomes c 0 (s ++ t) =
      outcome (eventOf (0, v, c')) :: machineOutcomes (resume v c') 0 (rest ++ t) := by
  have h1 : run step c (s ++ t) = (v, c', rest ++ t) := run_append_stop hv h
  have hs := machineOutcomes_off (rest ++ t) (resume v c')
    (0 + (s ++ t).length - (rest ++ t).length) 0
  unfold machineOutcomes at hs ⊢
  rw [drain_of_run_stop hv 0 h1, List.map_cons, List.map_cons, ← hs]
  cases v <;> rfl

/-! ### On the parser -/

@[simp] theorem valuesFrom_nil (p : RedisParser) : valuesFrom p [] = [] := rfl

theorem valuesFrom_eq (p : RedisParser) (s : Bytes) :
    valuesFrom p s = upToNone (outcomesFrom p s) := by
  unfold valuesFrom outcomesFrom
  rcases feedChunk s.length p 0 s with _ | r
  · rfl
  · exact upToError_eq r.1

@[simp] theorem outcomesFrom_nil (p : RedisParser) : outcomesFrom p [] = [] := rfl

/-- The values in front of the first error, from the outcomes. -/
theorem prefix_valuesFrom {p : RedisParser} {s : Bytes} {vs : List RedisValue}
    (h : vs.map some <+: outcomesFrom p s) : vs <+: valuesFrom p s := by
  have hvs := upToNone_mono h
  rwa [upToNone_map_some, ← valuesFrom_eq] at hvs

section Parser

variable {p : RedisParser} (hp : Reachable p)
include hp

/-- A longer stream has these outcomes and perhaps more. -/
theorem outcomesFrom_prefix (s t : Bytes) : outcomesFrom p s <+: outcomesFrom p (s ++ t) := by
  obtain ⟨c, hr, hc⟩ := rep_of_reachable hp
  rw [outcomesFrom_rep hr hc, outcomesFrom_rep hr hc]
  exact machineOutcomes_append c s t

/-- A longer stream has these values and perhaps more. -/
theorem valuesFrom_prefix (s t : Bytes) : valuesFrom p s <+: valuesFrom p (s ++ t) := by
  obtain ⟨c, hr, hc⟩ := rep_of_reachable hp
  rw [valuesFrom_rep hr hc, valuesFrom_rep hr hc]
  exact machineValues_append c s t

/-- **A call on the bytes at hand**: it takes the first outcome of the stream, a reply or an error; or
it has read them all, and the outcomes are those that the parser will give on the bytes to come. -/
theorem outcomes_parse {s : Bytes} (hs : s ≠ []) :
    (∃ k p', parse p s = some ((k, .completed), p') ∧ 0 < k ∧ k ≤ s.length ∧
      ∀ t, outcomesFrom p (s ++ t) =
        some (result p').1 :: outcomesFrom (result p').2 (s.drop k ++ t)) ∨
    (∃ p', parse p s = some ((s.length, .incompleted), p') ∧
      ∀ t, outcomesFrom p (s ++ t) = outcomesFrom p' t) ∨
    ∃ k p', parse p s = some ((k, .error), p') ∧
      ∀ t, outcomesFrom p (s ++ t) = none :: outcomesFrom p' (s.drop k ++ t) := by
  obtain ⟨c, hr, hc⟩ := rep_of_reachable hp
  have h := parse_rep hr hc hs
  have hok := run_ok hc s
  have hlen := length_rest step s c hs
  rcases hx : run step c s with ⟨v, c', rest⟩
  rw [hx] at h hok hlen
  dsimp only at hlen hok
  cases v with
  | more =>
    have hrest := rest_of_more hx
    subst hrest
    refine Or.inr (Or.inl ⟨_, h, fun t => ?_⟩)
    rw [outcomesFrom_rep hr hc, outcomesFrom_rep (rep_after .more c') hok]
    exact machineOutcomes_more hx t
  | done =>
    have hdrop := run_rest_eq hx
    have hrep : Rep (result (after .done c')).2 (resume .done c') := Or.inr ⟨rfl, rfl⟩
    refine Or.inl ⟨_, _, h, ?_, ?_, fun t => ?_⟩
    · dsimp only
      omega
    · dsimp only
      omega
    · dsimp only
      rw [outcomesFrom_rep hr hc, outcomesFrom_rep hrep (by simp [Ok, resume, restart]), hdrop]
      exact machineOutcomes_stop (by simp) hx t
  | fail =>
    have hdrop := run_rest_eq hx
    refine Or.inr (Or.inr ⟨_, _, h, fun t => ?_⟩)
    dsimp only
    rw [outcomesFrom_rep hr hc, outcomesFrom_rep (rep_after .fail c') (ok_restart c'), hdrop]
    exact machineOutcomes_stop (by simp) hx t

/-- The same for the values in front of the first error. -/
theorem values_parse {s : Bytes} (hs : s ≠ []) :
    (∃ k p', parse p s = some ((k, .completed), p') ∧ 0 < k ∧ k ≤ s.length ∧
      ∀ t, valuesFrom p (s ++ t) = (result p').1 :: valuesFrom (result p').2 (s.drop k ++ t)) ∨
    (∃ p', parse p s = some ((s.length, .incompleted), p') ∧
      ∀ t, valuesFrom p (s ++ t) = valuesFrom p' t) ∨
    ∃ k p', parse p s = some ((k, .error), p') ∧ ∀ t, valuesFrom p (s ++ t) = [] := by
  simp only [valuesFrom_eq]
  rcases outcomes_parse hp hs with ⟨k, p', h, hk, hle, ho⟩ | ⟨p', h, ho⟩ | ⟨k, p', h, ho⟩
  · refine Or.inl ⟨k, p', h, hk, hle, fun t => ?_⟩
    rw [ho]
    rfl
  · refine Or.inr (Or.inl ⟨p', h, fun t => ?_⟩)
    rw [ho]
  · refine Or.inr (Or.inr ⟨k, p', h, fun t => ?_⟩)
    rw [ho]
    rfl

end Parser

/-! ### Parsers that nobody can tell apart -/

theorem feedChunk_alike : ∀ (fuel : ℕ) {p q : RedisParser} (off : ℕ) (s : Bytes), Alike p q →
    (feedChunk fuel p off s).map Prod.fst = (feedChunk fuel q off s).map Prod.fst
  | 0, _, _, _, [], _ => rfl
  | _ + 1, _, _, _, [], _ => rfl
  | 0, _, _, _, _ :: _, _ => rfl
  | fuel + 1, p, q, off, b :: data, h => by
    obtain ⟨k, r, p', q', hp, hq, halike, -, hvalue⟩ := parse_alike h (List.cons_ne_nil b data)
    -- an event in front of both
    have hcons : ∀ (e : Event) {x y : Option (List Event × RedisParser)},
        x.map Prod.fst = y.map Prod.fst → (x.map fun r => (e :: r.1, r.2)).map Prod.fst =
          (y.map fun r => (e :: r.1, r.2)).map Prod.fst := by
      intro e x y hxy
      have hes := congrArg (Option.map (e :: ·)) hxy
      rwa [Option.map_map, Option.map_map] at hes ⊢
    simp only [feedChunk, hp, hq]
    cases r with
    | completed =>
      dsimp only
      rw [← hvalue rfl]
      exact hcons _ (feedChunk_alike fuel (off + k) ((b :: data).drop k) (alike_result halike))
    | incompleted => exact feedChunk_alike fuel (off + k) ((b :: data).drop k) halike
    | error => exact hcons _ (feedChunk_alike fuel (off + k) ((b :: data).drop k) halike)

theorem valuesFrom_alike {p q : RedisParser} (h : Alike p q) (s : Bytes) :
    valuesFrom p s = valuesFrom q s := by
  have hes := congrArg (Option.map upToError) (feedChunk_alike s.length 0 s h)
  rw [Option.map_map, Option.map_map] at hes
  exact congrArg (Option.getD · []) hes

/-- Between two replies a parser reads a stream like a new one. -/
theorem valuesFrom_idle {p : RedisParser} (h : Idle p) (s : Bytes) : valuesFrom p s = wholeValues s :=
  valuesFrom_alike (alike_of_idle h idle_fresh) s

/-- **The values of some replies** are theirs. -/
theorem wholeValues_replies : ∀ rs : List Reply,
    wholeValues (rs.map Reply.enc).flatten = rs.map Reply.value
  | [] => rfl
  | r :: rs => by
    have ih := wholeValues_replies rs
    have hpos : r.enc ≠ [] := List.length_pos_iff.mp (enc_pos r.1)
    obtain ⟨p1, h1, hidle1, hvalue⟩ := parse_enc idle_fresh r []
    rw [List.append_nil] at h1
    rcases values_parse .fresh hpos with ⟨k, p, h, -, -, hvals⟩ | ⟨p, h, -⟩ | ⟨k, p, h, -⟩ <;>
      rw [h1] at h <;> cases h
    rw [List.map_cons, List.flatten_cons, List.map_cons]
    refine (hvals _).trans ?_
    rw [hvalue, List.drop_length, List.nil_append, valuesFrom_idle (idle_result hidle1), ih]

/-- Two replies and an error, whatever the cut. -/
example : wholeValues [43, 97, 13, 10, 58, 49, 13, 10, 33] = [.bytes [97] false, .int 1] := by
  decide +kernel

end RedisClient.Parser.Values

import RedisClient.Parser.Refine

/-! # Parsing does not depend on the cuts

A caller that reads a stream piece by piece gets the same replies and errors, at the same offsets,
as one that reads it whole (`feedChunks_eq`), and a single call on `s₁ ++ s₂` is the call on `s₁`,
followed by the call on `s₂` if the first one is not at the end of a reply (`parse_append`). -/

namespace RedisClient.Parser.Chunks

open RedisClient.Value RedisClient.Lib.Reader RedisClient.Parser.Defs RedisClient.Parser.Machine
open RedisClient.Parser.Refine

/-! ### Reading a stream -/

/-- What a caller gets: a reply or an error, and how many bytes of the stream had been read. -/
inductive Event where
  | reply (offset : ℕ) (v : RedisValue)
  | error (offset : ℕ)
  deriving DecidableEq

/-- A caller that has read the chunk `data` calls `parse` on what is left of it until nothing is,
and `result` after each reply. Every call takes a byte, so the length of the chunk bounds the
calls. -/
def feedChunk : ℕ → RedisParser → ℕ → Bytes → Option (List Event × RedisParser)
  | _, p, _, [] => some ([], p)
  | 0, _, _, _ :: _ => none
  | fuel + 1, p, off, b :: data =>
    match parse p (b :: data) with
    | none => none
    | some ((k, .completed), p) =>
      let (v, p) := result p
      (feedChunk fuel p (off + k) ((b :: data).drop k)).map fun (es, p) =>
        (.reply (off + k) v :: es, p)
    | some ((k, .error), p) =>
      (feedChunk fuel p (off + k) ((b :: data).drop k)).map fun (es, p) =>
        (.error (off + k) :: es, p)
    | some ((k, .incompleted), p) => feedChunk fuel p (off + k) ((b :: data).drop k)

/-- The caller on a list of chunks. -/
def feedChunks (p : RedisParser) (off : ℕ) : List Bytes → Option (List Event × RedisParser)
  | [] => some ([], p)
  | c :: cs =>
    (feedChunk c.length p off c).bind fun (es, p) =>
      (feedChunks p (off + c.length) cs).map fun (es', p) => (es ++ es', p)

/-! ### The stream on the machine -/

/-- The machine at the next call, after `result` if there was a reply. -/
def resume : Verdict → Config → Config
  | .done, c => { restart c with redisValue := c.redisValue.movedFrom }
  | .more, c => restart c
  | .fail, c => restart c

def eventOf : ℕ × Verdict × Config → Event
  | (off, .done, c) => .reply off c.redisValue
  | (off, _, _) => .error off

theorem run_rest_eq {c c' : Config} {v : Verdict} {data rest : Bytes}
    (h : run step c data = (v, c', rest)) : data.drop (data.length - rest.length) = rest := by
  have := rest_suffix step data c
  rw [h] at this
  exact (List.suffix_iff_eq_drop.mp this).symm

/-- **A chunk read call by call is the machine driven over its bytes.** -/
theorem feedChunk_rep : ∀ (fuel : ℕ) (p : RedisParser) (c : Config) (off : ℕ) (data : Bytes),
    data.length ≤ fuel → Rep p c → Ok c → ∃ q,
      feedChunk fuel p off data = some ((drain step resume c off data).1.map eventOf, q) ∧
        Rep q (drain step resume c off data).2 ∧ Ok (drain step resume c off data).2
  | fuel, p, c, off, [], _, hr, hc => ⟨p, by cases fuel <;> rfl, hr, hc⟩
  | fuel + 1, p, c, off, b :: data, hl, hr, hc => by
    have hlen := length_rest step (b :: data) c (by simp)
    have hok := run_ok hc (b :: data)
    have hp := parse_rep hr hc (List.cons_ne_nil b data)
    rcases hrun : run step c (b :: data) with ⟨v, c', rest⟩
    have hd := run_rest_eq hrun
    rw [hrun] at hlen hok hp
    simp only [report] at hlen hok hp
    have hle : rest.length ≤ fuel := by simp at hl hlen; omega
    have hoff : off + ((b :: data).length - rest.length) =
        off + (b :: data).length - rest.length := by omega
    cases v with
    | more =>
      have hrest := rest_of_more hrun
      subst hrest
      rw [drain_of_run_more off hrun]
      refine ⟨toParser c' [c'.state], ?_, Or.inl rfl, hok⟩
      simp only [feedChunk, hp, resultOf, after, hd]
      cases fuel <;> rfl
    | done =>
      obtain ⟨q, h1, h2, h3⟩ := feedChunk_rep fuel (result (toParser c' [])).2 (resume .done c')
        (off + (b :: data).length - rest.length) rest hle (Or.inr ⟨rfl, rfl⟩) (by simp [Ok, resume, restart])
      rw [drain_of_run_stop (by simp) off hrun]
      refine ⟨q, ?_, h2, h3⟩
      simp only [feedChunk, hp, resultOf, after, hd, hoff, h1, Option.map_some, List.map_cons]
      rfl
    | fail =>
      obtain ⟨q, h1, h2, h3⟩ := feedChunk_rep fuel (toParser c' []) (resume .fail c')
        (off + (b :: data).length - rest.length) rest hle (Or.inr ⟨rfl, rfl⟩) (ok_restart c')
      rw [drain_of_run_stop (by simp) off hrun]
      refine ⟨q, ?_, h2, h3⟩
      simp only [feedChunk, hp, resultOf, after, hd, hoff, h1, Option.map_some, List.map_cons]
      rfl

theorem feedChunks_rep : ∀ (cs : List Bytes) (p : RedisParser) (c : Config) (off : ℕ),
    Rep p c → Ok c → ∃ q,
      feedChunks p off cs = some ((drainChunks step resume c off cs).1.map eventOf, q) ∧
        Rep q (drainChunks step resume c off cs).2 ∧ Ok (drainChunks step resume c off cs).2
  | [], p, c, off, hr, hc => ⟨p, rfl, hr, hc⟩
  | d :: cs, p, c, off, hr, hc => by
    obtain ⟨q, h1, h2, h3⟩ := feedChunk_rep d.length p c off d (Nat.le_refl _) hr hc
    obtain ⟨q', h4, h5, h6⟩ := feedChunks_rep cs q _ (off + d.length) h2 h3
    refine ⟨q', ?_, h5, h6⟩
    simp only [feedChunks, h1, Option.bind_some, h4, Option.map_some, drainChunks, List.map_append]

/-- **A stream in pieces gives what the whole stream gives.** -/
theorem feedChunks_eq {p : RedisParser} (hp : Reachable p) (off : ℕ) (cs : List Bytes) :
    ∃ es q q', feedChunks p off cs = some (es, q) ∧
      feedChunk cs.flatten.length p off cs.flatten = some (es, q') := by
  obtain ⟨c, hr, hc⟩ := rep_of_reachable hp
  obtain ⟨q, h1, -⟩ := feedChunks_rep cs p c off hr hc
  obtain ⟨q', h2, -⟩ := feedChunk_rep _ p c off cs.flatten (Nat.le_refl _) hr hc
  rw [drainChunks_eq] at h1
  exact ⟨_, q, q', h1, h2⟩

/-! ### One call on two pieces -/

theorem parse_append {p : RedisParser} (hp : Reachable p) {s₁ s₂ : Bytes} (h₁ : s₁ ≠ [])
    (h₂ : s₂ ≠ []) : ∃ k r p₁, parse p s₁ = some ((k, r), p₁) ∧
      (r ≠ .incompleted → parse p (s₁ ++ s₂) = some ((k, r), p₁)) ∧
      (r = .incompleted → k = s₁.length ∧ ∃ k₂ r₂ p₂, parse p₁ s₂ = some ((k₂, r₂), p₂) ∧
        parse p (s₁ ++ s₂) = some ((s₁.length + k₂, r₂), p₂)) := by
  obtain ⟨c, hr, hc⟩ := rep_of_reachable hp
  have h12 := parse_rep hr hc (List.append_ne_nil_of_left_ne_nil h₁ s₂)
  rcases hrun : run step c s₁ with ⟨v, c', rest⟩
  have hlen := length_rest step s₁ c h₁
  have hok := run_ok hc s₁
  rw [hrun] at hlen hok
  refine ⟨_, _, _, parse_rep hr hc h₁, fun hv => ?_, fun hv => ?_⟩
  · rw [hrun] at hv ⊢
    have hv' : v ≠ .more := fun h => hv (by simp [resultOf, h])
    rw [h12, run_append_stop hv' hrun]
    simp only [report, List.length_append, Option.some.injEq, Prod.mk.injEq, and_true]
    omega
  · rw [hrun] at hv ⊢
    have hv' : v = .more := by cases v <;> simp_all [resultOf]
    subst hv'
    have hrest := rest_of_more hrun
    subst hrest
    have h2 := parse_rep (p := after .more c') (Or.inl rfl) hok h₂
    refine ⟨by simp, _, _, _, h2, ?_⟩
    rw [h12, run_append_more hrun]
    have := length_rest step s₂ c' h₂
    simp only [report, List.length_append, Option.some.injEq, Prod.mk.injEq, and_true]
    omega

/-- **Parsing does not depend on the cuts**, from every parser that calls on nonempty chunks lead
to: one call on two pieces, and a stream in any number of pieces. -/
theorem parse_cuts {p : RedisParser} (hp : Reachable p) :
    (∀ s₁ s₂ : Bytes, s₁ ≠ [] → s₂ ≠ [] → ∃ k r p₁, parse p s₁ = some ((k, r), p₁) ∧
      (r ≠ .incompleted → parse p (s₁ ++ s₂) = some ((k, r), p₁)) ∧
      (r = .incompleted → k = s₁.length ∧ ∃ k₂ r₂ p₂, parse p₁ s₂ = some ((k₂, r₂), p₂) ∧
        parse p (s₁ ++ s₂) = some ((s₁.length + k₂, r₂), p₂))) ∧
    ∀ (off : ℕ) (cs : List Bytes), ∃ es q q', feedChunks p off cs = some (es, q) ∧
      feedChunk cs.flatten.length p off cs.flatten = some (es, q') :=
  ⟨fun _ _ h₁ h₂ => parse_append hp h₁ h₂, fun off cs => feedChunks_eq hp off cs⟩

/-- A bulk string cut inside, read by a fresh parser. -/
theorem parse_cuts_fresh : ∃ es q q',
    feedChunks fresh 0 [[36, 51, 13, 10, 97], [98, 99, 13, 10]] = some (es, q) ∧
      feedChunk 9 fresh 0 [36, 51, 13, 10, 97, 98, 99, 13, 10] = some (es, q') :=
  (parse_cuts .fresh).2 0 [[36, 51, 13, 10, 97], [98, 99, 13, 10]]

end RedisClient.Parser.Chunks

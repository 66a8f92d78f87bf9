import RedisClient.Parser.Chunks

/-! # What the parser keeps

A value counts one for each value in it, itself included, and one for each byte of a string. On any
input the parser delivers and keeps in its open arrays no more than what it has read, over all calls
and also after errors, so nesting and the announced lengths cannot make it deliver more
(`space_linear`). What `reserve` sets aside is not counted.

`drain_potential` is applied to three potentials of the byte machine: what is in the open arrays and in
the reply that is being read, the buffer, and the value read last. -/

namespace RedisClient.Parser.Space

open RedisClient.Value RedisClient.Lib.Reader RedisClient.Parser.Defs RedisClient.Parser.Machine
open RedisClient.Parser.Refine RedisClient.Parser.Chunks

/-! ### The size of values -/

mutual

/-- The size of a value. -/
def weight : RedisValue → ℕ
  | .null | .int _ => 1
  | .bytes buf _ => 1 + buf.length
  | .array items => 1 + weightAll items

/-- The size of some values. -/
def weightAll : List RedisValue → ℕ
  | [] => 0
  | v :: vs => weight v + weightAll vs

end

@[simp] theorem weightAll_append : ∀ vs ws : List RedisValue,
    weightAll (vs ++ ws) = weightAll vs + weightAll ws
  | [], ws => by simp [weightAll]
  | v :: vs, ws => by
    rw [List.cons_append, weightAll, weightAll, weightAll_append vs ws, Nat.add_assoc]

theorem weight_pos (v : RedisValue) : 1 ≤ weight v := by
  cases v <;> simp [weight]

theorem length_le_weightAll : ∀ vs : List RedisValue, vs.length ≤ weightAll vs
  | [] => Nat.le_refl 0
  | v :: vs => by
    have hv := weight_pos v
    have ih := length_le_weightAll vs
    rw [List.length_cons, weightAll]
    omega

theorem weight_movedFrom (v : RedisValue) : weight v.movedFrom ≤ weight v := by
  cases v <;> simp [RedisValue.movedFrom, weight, weightAll]

/-! ### Open arrays -/

/-- What is in the open arrays. -/
def held (fs : List Frame) : ℕ := weightAll (fs.map fun f => .array f.items)

theorem held_cons (f : Frame) (fs : List Frame) :
    held (f :: fs) = 1 + weightAll f.items + held fs := by
  simp [held, weightAll, weight]

/-- A value that joins the open arrays is in them then, or they are in the value that results. -/
theorem closeFrames_held : ∀ (fs : List Frame) (v : RedisValue),
    ((closeFrames fs v).1 ≠ [] → held (closeFrames fs v).1 = held fs + weight v) ∧
    ((closeFrames fs v).1 = [] → weight (closeFrames fs v).2 = held fs + weight v) ∧
    weight (closeFrames fs v).2 ≤ held fs + weight v
  | [], v => by simp [closeFrames, held, weightAll]
  | f :: fs, v => by
    rcases f with ⟨_ | n, items⟩
    · -- the array is full, so it is the value that joins the others
      obtain ⟨h1, h2, h3⟩ := closeFrames_held fs (.array (items ++ [v]))
      have hw : held fs + weight (.array (items ++ [v])) = held (⟨0, items⟩ :: fs) + weight v := by
        rw [held_cons]
        simp only [weight, weightAll_append, weightAll]
        omega
      rw [hw] at h1 h2 h3
      exact ⟨h1, h2, h3⟩
    · have hclose : closeFrames (⟨n + 1, items⟩ :: fs) v = (⟨n, items ++ [v]⟩ :: fs, v) := rfl
      rw [hclose]
      refine ⟨fun _ => ?_, fun h => absurd h (List.cons_ne_nil _ _), Nat.le_add_left _ _⟩
      rw [held_cons, held_cons]
      simp only [weightAll_append, weightAll]
      omega

/-! ### The potential -/

/-- What has been read of a reply that is not complete. -/
def lexing (c : Config) : ℕ :=
  if c.state = .start ∨ c.state = .startArray then 0 else 1 + c.buf.length

/-- **The potential.** -/
def potential (c : Config) : ℕ := held c.frames + lexing c

/-- A byte that does not complete a value adds at most one to what has been read. -/
theorem lex_inside {c c' : Config} {b : UInt8} (h : lex c b = .ok c') (hne : c'.state ≠ .start) :
    potential c' ≤ potential c + 1 := by
  rcases hs : c.state <;>
    simp only [lex, hs, lexStart, lexLine, lexNumeral, lexBulkSizeEnd, lexBulk, lexArraySizeEnd] at h
  case bulk =>
    cases h
    unfold potential lexing
    simp only [hs]
    split_ifs <;> simp <;> omega
  all_goals
    split_ifs at h <;> cases h <;> first
      | exact absurd rfl hne
      | (simp [potential, lexing, hs, held_cons, weightAll]; done)
      | (simp [potential, lexing, hs, held_cons, weightAll]; omega)

/-- A value that a byte completes is not larger than what has been read of it. -/
theorem lex_value {c c' : Config} {b : UInt8} (h : lex c b = .ok c') (hstart : c'.state = .start) :
    held c'.frames + weight c'.redisValue ≤ potential c + 1 := by
  rcases hs : c.state <;>
    simp only [lex, hs, lexStart, lexLine, lexNumeral, lexBulkSizeEnd, lexBulk, lexArraySizeEnd] at h
  case bulk =>
    cases h
    dsimp only at hstart
    split_ifs at hstart
  all_goals
    split_ifs at h <;> cases h <;> first
      | (simp only [reduceCtorEq] at hstart; done)
      | simp [potential, lexing, hs, weight, weightAll]

/-- Before a value is complete the value read last stays. -/
theorem lex_keeps {c c' : Config} {b : UInt8} (h : lex c b = .ok c') (hne : c'.state ≠ .start) :
    c'.redisValue = c.redisValue := by
  rcases hs : c.state <;>
    simp only [lex, hs, lexStart, lexLine, lexNumeral, lexBulkSizeEnd, lexBulk, lexArraySizeEnd] at h
  case bulk => cases h; rfl
  all_goals
    split_ifs at h <;> cases h <;> first
      | rfl
      | exact absurd rfl hne

/-- A byte that is rejected opens no array. -/
theorem lex_rejects {c c' : Config} {b : UInt8} (h : lex c b = .error c') :
    c'.frames = c.frames ∧ c'.redisValue = c.redisValue ∧ c'.buf.length ≤ c.buf.length := by
  rcases hs : c.state <;>
    simp only [lex, hs, lexStart, lexLine, lexNumeral, lexBulkSizeEnd, lexBulk, lexArraySizeEnd] at h
  case bulk => cases h
  all_goals split_ifs at h <;> cases h <;> simp

theorem lex_buf {c c' : Config} {b : UInt8} (h : lex c b = .ok c') :
    c'.buf.length ≤ c.buf.length + 1 := by
  rcases hs : c.state <;>
    simp only [lex, hs, lexStart, lexLine, lexNumeral, lexBulkSizeEnd, lexBulk, lexArraySizeEnd] at h
  case bulk => cases h; simp
  all_goals split_ifs at h <;> cases h <;> simp

/-! ### The steps -/

/-- The size of what a call delivers. -/
def delivers (v : Verdict) (c : Config) : ℕ := if v = .done then weight c.redisValue else 0

/-- What is left of the potential between two replies. -/
theorem potential_start {c : Config} (hs : c.state = .start) : potential c = held c.frames := by
  simp [potential, lexing, hs]

theorem resume_frames (v : Verdict) (c : Config) : (resume v c).frames = c.frames := by
  cases v <;> rfl

theorem resume_state (v : Verdict) (c : Config) : (resume v c).state = .start := by
  cases v <;> rfl

theorem resume_buf (v : Verdict) (c : Config) : (resume v c).buf = c.buf := by
  cases v <;> rfl

theorem resume_value (v : Verdict) (c : Config) :
    weight (resume v c).redisValue ≤ weight c.redisValue := by
  cases v
  · exact Nat.le_refl _
  · exact weight_movedFrom c.redisValue
  · exact Nat.le_refl _

theorem potential_resume (v : Verdict) (c : Config) : potential (resume v c) = held c.frames := by
  rw [potential_start (resume_state v c), resume_frames]

/-- The machine after a value has joined the open arrays. -/
def joined (d : Config) : Config :=
  { d with frames := (closeFrames d.frames d.redisValue).1
           redisValue := (closeFrames d.frames d.redisValue).2 }

theorem settle_joined {d : Config} (hd : d.state = .start) :
    settle d = (if (joined d).frames = [] then .done else .more, joined d) := by
  by_cases hnil : (closeFrames d.frames d.redisValue).1 = [] <;> simp [settle, joined, hd, hnil]

/-- What a step can do: the byte is rejected, it is inside a value, or it completes one. -/
theorem step_cases {c c' : Config} {b : UInt8} {v : Verdict} (h : step c b = (v, c')) :
    (v = .fail ∧ lex c b = .error c') ∨
    (v = .more ∧ lex c b = .ok c' ∧ c'.state ≠ .start) ∨
    ∃ d, lex c b = .ok d ∧ d.state = .start ∧ c' = joined d ∧
      v = if (joined d).frames = [] then .done else .more := by
  unfold step at h
  rcases hl : lex c b with d | d <;> rw [hl] at h
  · cases h
    exact .inl ⟨rfl, rfl⟩
  · replace h : settle d = (v, c') := h
    by_cases hd : d.state = .start
    · rw [settle_joined hd] at h
      cases h
      exact .inr (.inr ⟨d, rfl, hd, rfl, rfl⟩)
    · have hs : settle d = (.more, d) := by simp [settle, hd]
      rw [hs] at h
      cases h
      exact .inr (.inl ⟨rfl, rfl, hd⟩)

theorem step_more {c c' : Config} {b : UInt8} (h : step c b = (.more, c')) :
    potential c' ≤ potential c + 1 := by
  rcases step_cases h with ⟨hv, -⟩ | ⟨-, hl, hne⟩ | ⟨d, hl, hd, rfl, hv⟩
  · exact absurd hv (by simp)
  · exact lex_inside hl hne
  · have hopen : (joined d).frames ≠ [] := fun he => by simp [he] at hv
    have hheld : held (joined d).frames = held d.frames + weight d.redisValue :=
      (closeFrames_held d.frames d.redisValue).1 hopen
    have hvalue := lex_value hl hd
    have hjoined : potential (joined d) = held (joined d).frames := potential_start hd
    omega

theorem step_stop {c c' : Config} {b : UInt8} {v : Verdict} (h : step c b = (v, c'))
    (hv : v ≠ .more) : delivers v c' + potential (resume v c') ≤ potential c + 1 := by
  rw [potential_resume]
  rcases step_cases h with ⟨rfl, hl⟩ | ⟨rfl, -⟩ | ⟨d, hl, hd, rfl, hvd⟩
  · rw [(lex_rejects hl).1]
    simp only [delivers, reduceCtorEq, if_false, potential]
    omega
  · exact absurd rfl hv
  · have hnil : (joined d).frames = [] := by
      by_contra hne
      exact hv (by rw [hvd, if_neg hne])
    have hweight : weight (joined d).redisValue = held d.frames + weight d.redisValue :=
      (closeFrames_held d.frames d.redisValue).2.1 hnil
    have hvalue := lex_value hl hd
    have hempty : held [] = 0 := rfl
    rw [if_pos hnil] at hvd
    rw [hnil, hempty, delivers, if_pos hvd, hweight]
    omega

theorem step_buf {c c' : Config} {b : UInt8} {v : Verdict} (h : step c b = (v, c')) :
    c'.buf.length ≤ c.buf.length + 1 := by
  rcases step_cases h with ⟨-, hl⟩ | ⟨-, hl, -⟩ | ⟨d, hl, -, rfl, -⟩
  · have := (lex_rejects hl).2.2
    omega
  · exact lex_buf hl
  · have hbuf : (joined d).buf = d.buf := rfl
    rw [hbuf]
    exact lex_buf hl

/-- The value read last was delivered, or it is in the open arrays, or it was there before. -/
theorem step_value {c c' : Config} {b : UInt8} {v : Verdict} (h : step c b = (v, c')) :
    weight c'.redisValue ≤ max (weight c.redisValue) (potential c + 1) := by
  rcases step_cases h with ⟨-, hl⟩ | ⟨-, hl, hne⟩ | ⟨d, hl, hd, rfl, -⟩
  · rw [(lex_rejects hl).2.1]
    exact Nat.le_max_left _ _
  · rw [lex_keeps hl hne]
    exact Nat.le_max_left _ _
  · have hweight : weight (joined d).redisValue ≤ held d.frames + weight d.redisValue :=
      (closeFrames_held d.frames d.redisValue).2.2
    have hvalue := lex_value hl hd
    omega

/-! ### Streams -/

/-- The size of what an event delivers. -/
def deliveredBy : Event → ℕ
  | .reply _ v => weight v
  | .error _ => 0

theorem deliveredBy_eventOf (e : ℕ × Verdict × Config) :
    deliveredBy (eventOf e) = delivers e.2.1 e.2.2 := by
  obtain ⟨off, v, c⟩ := e
  cases v <;> rfl

/-- The bound for the value read last. -/
def valueBound (c : Config) : ℕ := max (weight c.redisValue) (potential c + 1)

theorem step_more_valueBound {c c' : Config} {b : UInt8} (h : step c b = (.more, c')) :
    valueBound c' ≤ valueBound c + 1 := by
  have hvalue := step_value h
  have hone := step_more h
  unfold valueBound
  omega

theorem step_stop_valueBound {c c' : Config} {b : UInt8} {v : Verdict} (h : step c b = (v, c'))
    (hv : v ≠ .more) : valueBound (resume v c') ≤ valueBound c + 1 := by
  have hvalue := step_value h
  have hone := step_stop h hv
  have hkept := resume_value v c'
  unfold valueBound
  omega

theorem drain_held (bs : Bytes) (c : Config) :
    ((drain step resume c 0 bs).1.map fun e => delivers e.2.1 e.2.2).sum +
      potential (drain step resume c 0 bs).2 ≤ potential c + bs.length :=
  drain_potential step_more step_stop bs c 0

theorem drain_buf (bs : Bytes) (c : Config) :
    (drain step resume c 0 bs).2.buf.length ≤ c.buf.length + bs.length :=
  drain_growth (φ := fun c => c.buf.length) step_buf
    (fun h _ => by rw [resume_buf]; exact step_buf h) bs c 0

theorem drain_value (bs : Bytes) (c : Config) :
    weight (drain step resume c 0 bs).2.redisValue ≤ valueBound c + bs.length :=
  Nat.le_trans (Nat.le_max_left _ _)
    (drain_growth step_more_valueBound step_stop_valueBound bs c 0)

/-- Between two calls the stack of states holds at most one. -/
theorem rep_states {p : RedisParser} {c : Config} (h : Rep p c) :
    p = toParser c p.states ∧ p.states.length ≤ 1 := by
  rcases h with rfl | ⟨-, rfl⟩
  · exact ⟨rfl, Nat.le_refl _⟩
  · exact ⟨rfl, Nat.zero_le _⟩

/-- **The parser keeps and delivers no more than it has read.** However a stream is cut, the replies
and the values in the open arrays, which an error does not clear, together have at most the size of the
stream. The stack of countdowns, the buffer and the value read last are bounded by it too, and the stack
of states holds at most one. -/
theorem space_linear (cs : List Bytes) : ∃ es p, feedChunks fresh 0 cs = some (es, p) ∧
    (es.map deliveredBy).sum + weightAll p.arrayValues ≤ cs.flatten.length ∧
    p.arraySizes.length = p.arrayValues.length ∧ p.buf.length ≤ cs.flatten.length ∧
    weight p.redisValue ≤ cs.flatten.length + 1 ∧ p.states.length ≤ 1 := by
  obtain ⟨p, hfeed, hrep, -⟩ := feedChunks_rep cs fresh init 0 rep_fresh ok_init
  rw [drainChunks_eq] at hfeed hrep
  refine ⟨_, p, hfeed, ?_⟩
  have hheld := drain_held cs.flatten init
  have hbuf := drain_buf cs.flatten init
  have hvalue := drain_value cs.flatten init
  have hsum : ((drain step resume init 0 cs.flatten).1.map eventOf).map deliveredBy =
      (drain step resume init 0 cs.flatten).1.map fun e => delivers e.2.1 e.2.2 := by
    rw [List.map_map]
    exact List.map_congr_left fun e _ => deliveredBy_eventOf e
  have hkept : held (drain step resume init 0 cs.flatten).2.frames ≤
      potential (drain step resume init 0 cs.flatten).2 := Nat.le_add_right _ _
  have hinit : potential init = 0 := rfl
  have hnull : valueBound init = 1 := rfl
  have hnil : init.buf.length = 0 := rfl
  obtain ⟨hp, hone⟩ := rep_states hrep
  rw [hsum, hp]
  simp only [toParser, List.length_map]
  refine ⟨?_, trivial, ?_, ?_, hone⟩
  · exact Nat.le_trans (Nat.add_le_add_left hkept _) (by omega)
  · omega
  · omega

end RedisClient.Parser.Space

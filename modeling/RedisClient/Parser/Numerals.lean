import RedisClient.Parser.Chunks
import RedisClient.Parser.RoundTrip
import Mathlib.Tactic.Ring

/-! # The numbers that numerals stand for

A numeral is an optional minus sign and some digits (`WellFormed`), and stands for an integer of any
size (`value`). `bufToLong` gives that integer modulo `2 ^ 64` (`bufToLong_eq`), and its signed
operations stay in range exactly if the integer is smaller than `2 ^ 63` in absolute value
(`noOverflow_iff`). So an integer reply is exact up to there and wrong beyond; a length beyond is
refused only if what is left of it happens to be negative (`conversion_iff`). -/

namespace RedisClient.Parser.Numerals

open RedisClient.Value RedisClient.Lib.Reader RedisClient.Lib.Decimal RedisClient.Parser.Defs
open RedisClient.Parser.Machine RedisClient.Parser.Refine RedisClient.Parser.Chunks
open RedisClient.Parser.Grammar RedisClient.Parser.Descent RedisClient.Parser.RoundTrip

/-! ### Numerals -/

/-- What follows an optional minus sign. -/
def unsigned : Bytes → Bytes
  | [] => []
  | c :: str => if c = minus then str else c :: str

/-- An optional minus sign and at least one digit. -/
def WellFormed (r : Bytes) : Prop := unsigned r ≠ [] ∧ ∀ b ∈ unsigned r, isDigit b

instance (r : Bytes) : Decidable (WellFormed r) := inferInstanceAs (Decidable (_ ∧ _))

/-- The number that some digits stand for, after others that stand for `v`. -/
def natValue (v : ℕ) (ds : Bytes) : ℕ := ds.foldl (fun v c => v * 10 + (c.toNat - 48)) v

theorem natValue_nil (v : ℕ) : natValue v [] = v := rfl

theorem natValue_cons (v : ℕ) (c : UInt8) (ds : Bytes) :
    natValue v (c :: ds) = natValue (v * 10 + (c.toNat - 48)) ds := by
  rw [natValue, natValue, List.foldl_cons]

/-- The integer that a numeral stands for. -/
def value : Bytes → ℤ
  | [] => 0
  | c :: str => if c = minus then -natValue 0 str else natValue 0 (c :: str)

def InRange (x : ℤ) : Prop := -9223372036854775808 ≤ x ∧ x < 9223372036854775808

instance (x : ℤ) : Decidable (InRange x) := inferInstanceAs (Decidable (_ ∧ _))

/-! ### The operations of `bufToLong` -/

/-- The exact results of the signed operations of the loop, from `value` on. -/
def loopOps (value : ℤ) : Bytes → List ℤ
  | [] => []
  | c :: str =>
    value * 10 :: (wrap64 (value * 10) + (charInt c - 48)) :: loopOps (addDigit value c) str

/-- The exact results of the signed operations of `bufToLong`. -/
def ops : Bytes → List ℤ
  | [] => []
  | c :: str =>
    if c = minus then loopOps 0 str ++ (if str = [] then [] else [-(str.foldl addDigit 0)])
    else loopOps 0 (c :: str)

/-- No signed operation of `bufToLong` leaves the range of its type. -/
def NoOverflow (r : Bytes) : Prop := ∀ x ∈ ops r, InRange x

theorem wrap64_inRange {x : ℤ} (h : InRange x) : wrap64 x = x := by
  obtain ⟨h1, h2⟩ := h
  unfold wrap64
  omega

theorem charInt_digit {c : UInt8} (h : isDigit c) : charInt c - 48 = ((c.toNat - 48 : ℕ) : ℤ) := by
  unfold isDigit at h
  have hc := of_decide_eq_true h
  unfold charInt
  rw [if_pos (by omega)]
  omega

/-- A number and its remainder differ by a multiple of `2 ^ 64`. -/
theorem wrap64_eq (x : ℤ) : ∃ k, wrap64 x = x + 18446744073709551616 * k := by
  refine ⟨-((x + 9223372036854775808) / 18446744073709551616), ?_⟩
  unfold wrap64
  rw [Int.emod_def]
  ring

theorem wrap64_add_mul (x k : ℤ) : wrap64 (x + 18446744073709551616 * k) = wrap64 x := by
  unfold wrap64
  rw [add_right_comm, Int.add_mul_emod_self_left]

/-- Wrapping what is added to does not matter. -/
theorem wrap64_wrap_add (x y : ℤ) : wrap64 (wrap64 x + y) = wrap64 (x + y) := by
  obtain ⟨k, hk⟩ := wrap64_eq x
  rw [hk, add_right_comm, wrap64_add_mul]

/-- One digit more, modulo `2 ^ 64`. -/
theorem addDigit_wrap {c : UInt8} (h : isDigit c) (v : ℕ) :
    addDigit (wrap64 v) c = wrap64 ((v * 10 + (c.toNat - 48) : ℕ) : ℤ) := by
  obtain ⟨k, hk⟩ := wrap64_eq v
  unfold addDigit
  rw [charInt_digit h, wrap64_wrap_add, hk,
    show ((v : ℤ) + 18446744073709551616 * k) * 10 + ((c.toNat - 48 : ℕ) : ℤ) =
      ((v * 10 + (c.toNat - 48) : ℕ) : ℤ) + 18446744073709551616 * (k * 10) by
        push_cast
        ring,
    wrap64_add_mul]

theorem foldl_addDigit_wrap : ∀ {ds : Bytes}, (∀ b ∈ ds, isDigit b) → ∀ v : ℕ,
    ds.foldl addDigit (wrap64 v) = wrap64 (natValue v ds)
  | [], _, v => by rw [natValue_nil, List.foldl_nil]
  | c :: ds, h, v => by
    rw [List.foldl_cons, addDigit_wrap (h c List.mem_cons_self), natValue_cons,
      foldl_addDigit_wrap fun b hb => h b (List.mem_cons_of_mem c hb)]

theorem wrap64_neg_wrap (x : ℤ) : wrap64 (-(wrap64 x)) = wrap64 (-x) := by
  obtain ⟨k, hk⟩ := wrap64_eq x
  rw [hk, show -(x + 18446744073709551616 * k) = -x + 18446744073709551616 * -k by ring,
    wrap64_add_mul]

/-- **`bufToLong` gives the number modulo `2 ^ 64`.** -/
theorem bufToLong_eq {r : Bytes} (h : WellFormed r) : bufToLong r = wrap64 (value r) := by
  obtain ⟨hne, hds⟩ := h
  have h0 : (0 : ℤ) = wrap64 ((0 : ℕ) : ℤ) := by decide
  rcases r with _ | ⟨c, str⟩
  · exact absurd rfl hne
  · simp only [unsigned] at hne hds
    simp only [bufToLong, value]
    by_cases hc : c = minus
    · rw [if_pos hc] at hne hds
      rw [if_pos hc, if_pos hc, if_neg hne, h0, foldl_addDigit_wrap hds, wrap64_neg_wrap]
    · rw [if_neg hc] at hds
      rw [if_neg hc, if_neg hc, h0, foldl_addDigit_wrap hds]

/-! ### Overflow -/

theorem natValue_le : ∀ (ds : Bytes) (v : ℕ), v ≤ natValue v ds
  | [], v => Nat.le_refl v
  | c :: ds, v => by
    have ih := natValue_le ds (v * 10 + (c.toNat - 48))
    rw [natValue_cons]
    omega

/-- The loop stays in range exactly if the number that it reads is in range. -/
theorem loopOps_inRange : ∀ {ds : Bytes}, (∀ b ∈ ds, isDigit b) → ∀ {v : ℕ},
    v < 9223372036854775808 →
    ((∀ x ∈ loopOps v ds, InRange x) ↔ natValue v ds < 9223372036854775808)
  | [], _, v, hv => ⟨fun _ => hv, fun _ x hx => by cases hx⟩
  | c :: ds, h, v, hv => by
    have hc := h c List.mem_cons_self
    have hds : ∀ b ∈ ds, isDigit b := fun b hb => h b (List.mem_cons_of_mem c hb)
    have hle := natValue_le ds (v * 10 + (c.toNat - 48))
    have hwrap : wrap64 (v : ℤ) = v := wrap64_inRange ⟨by omega, by omega⟩
    have hadd := addDigit_wrap hc v
    rw [hwrap] at hadd
    rw [natValue_cons]
    unfold loopOps
    rw [charInt_digit hc, hadd]
    by_cases hnext : v * 10 + (c.toNat - 48) < 9223372036854775808
    · have hprod : InRange ((v : ℤ) * 10) := ⟨by omega, by omega⟩
      have hsum : InRange ((v : ℤ) * 10 + ((c.toNat - 48 : ℕ) : ℤ)) := ⟨by omega, by omega⟩
      have hw : wrap64 ((v * 10 + (c.toNat - 48) : ℕ) : ℤ) = (v * 10 + (c.toNat - 48) : ℕ) :=
        wrap64_inRange ⟨by omega, by omega⟩
      rw [wrap64_inRange hprod, hw, List.forall_mem_cons, List.forall_mem_cons,
        loopOps_inRange hds hnext]
      exact ⟨fun hall => hall.2.2, fun hlt => ⟨hprod, hsum, hlt⟩⟩
    · -- if all results are in range, the sum is not wrapped
      refine ⟨fun hall => absurd ?_ hnext, fun hlt => absurd (Nat.lt_of_le_of_lt hle hlt) hnext⟩
      have hprod : InRange ((v : ℤ) * 10) := hall _ List.mem_cons_self
      have hsum := hall _ (List.mem_cons_of_mem _ List.mem_cons_self)
      rw [wrap64_inRange hprod] at hsum
      obtain ⟨-, hlt⟩ := hsum
      omega

/-- **When `bufToLong` does not overflow.** -/
theorem noOverflow_iff {r : Bytes} (h : WellFormed r) :
    NoOverflow r ↔ -9223372036854775808 < value r ∧ value r < 9223372036854775808 := by
  obtain ⟨hne, hds⟩ := h
  have h0 : wrap64 ((0 : ℕ) : ℤ) = 0 := by decide
  rcases r with _ | ⟨c, str⟩
  · exact absurd rfl hne
  · simp only [unsigned] at hne hds
    simp only [NoOverflow, ops, value]
    by_cases hc : c = minus
    · rw [if_pos hc] at hne hds
      rw [if_pos hc, if_pos hc, if_neg hne]
      have hloop := loopOps_inRange hds (v := 0) (by omega)
      have hfold := foldl_addDigit_wrap hds 0
      rw [h0] at hfold
      constructor
      · intro hall
        have hlt := hloop.mp fun x hx => hall x (List.mem_append_left _ hx)
        omega
      · intro hv x hx
        rcases List.mem_append.mp hx with hx | hx
        · exact hloop.mpr (by omega) x hx
        · rw [List.mem_singleton.mp hx, hfold, wrap64_inRange ⟨by omega, by omega⟩]
          exact ⟨by omega, by omega⟩
    · rw [if_neg hc] at hds
      rw [if_neg hc, if_neg hc]
      have hloop := loopOps_inRange hds (v := 0) (by omega)
      constructor
      · intro hall
        have hlt := hloop.mp hall
        omega
      · intro hv
        exact hloop.mpr (by omega)

/-! ### The text of an integer -/

theorem natValue_decimal (n : ℕ) : natValue 0 (decimal n) = n := by
  refine foldl_decimal (P := fun v x => x = v) rfl fun v d x hd _ hx => ?_
  rw [hx, toNat_digit hd]
  omega

theorem unsigned_intText (v : ℤ) : unsigned (intText v) = decimal v.natAbs := by
  unfold intText
  split_ifs
  · rfl
  · rcases hd : decimal v.natAbs with _ | ⟨c, str⟩
    · rfl
    · have hc : c ≠ minus := by
        rintro rfl
        exact minus_not_decimal v.natAbs (by simp [hd])
      simp only [unsigned, if_neg hc]

/-- **The decimal text of an integer is a numeral for it.** -/
theorem wellFormed_intText (v : ℤ) : WellFormed (intText v) ∧ value (intText v) = v := by
  have hwf : WellFormed (intText v) := by
    unfold WellFormed
    rw [unsigned_intText]
    exact ⟨decimal_ne_nil _, fun b hb => isDigit_decimal hb⟩
  refine ⟨hwf, ?_⟩
  unfold intText
  split_ifs with hv
  · simp only [value, if_true, natValue_decimal]
    omega
  · rcases hd : decimal v.natAbs with _ | ⟨c, str⟩
    · exact absurd hd (decimal_ne_nil _)
    · have hc : c ≠ minus := by
        rintro rfl
        exact minus_not_decimal v.natAbs (by simp [hd])
      simp only [value, if_neg hc]
      rw [← hd, natValue_decimal]
      omega

/-! ### Numerals in a stream -/

/-- The byte begins a reply that has a numeral. -/
def HasNumeral (kind : UInt8) : Prop :=
  kind = integerReply ∨ kind = bulkReply ∨ kind = arrayReply

instance (kind : UInt8) : Decidable (HasNumeral kind) := inferInstanceAs (Decidable (_ ∨ _))

/-- The parser is in front of a reply or of an element of an array. -/
def InFront (p : RedisParser) : Prop :=
  p.states = [] ∨ p.states = [.start] ∨ p.states = [.startArray]

instance (p : RedisParser) : Decidable (InFront p) := inferInstanceAs (Decidable (_ ∨ _))

theorem inFront_state {p : RedisParser} {c : Config} (h : Rep p c) :
    InFront p ↔ c.state = .start ∨ c.state = .startArray := by
  rcases h with rfl | ⟨hs, rfl⟩
  · simp [InFront, toParser]
  · simp [InFront, toParser, hs]

theorem wellFormed_chars {r : Bytes} (h : WellFormed r) : ∀ b ∈ r, isDigit b || b = minus := by
  obtain ⟨-, hds⟩ := h
  rcases r with _ | ⟨c, str⟩
  · intro b hb
    cases hb
  · intro b hb
    simp only [unsigned] at hds
    by_cases hc : c = minus
    · rw [if_pos hc] at hds
      rcases List.mem_cons.mp hb with rfl | hb
      · simp [hc]
      · simp [hds b hb]
    · rw [if_neg hc] at hds
      simp [hds b hb]

theorem wellFormed_ne_nil {r : Bytes} (h : WellFormed r) : r ≠ [] := by
  rintro rfl
  exact h.1 rfl

/-- What the grammar says of a reply that ends with its numeral. -/
theorem reply_numeral {kind : UInt8} (hk : HasNumeral kind) {r : Bytes} (h : WellFormed r) (d : ℕ) :
    reply (d + 1) (field kind r []) =
      if kind = integerReply then .done (.int (bufToLong r)) []
      else if kind = bulkReply then bulkOf (bufToLong r) []
      else arrayOf (reply d) (bufToLong r) [] := by
  have hnum := numeral_append r [] [] (wellFormed_chars h) (by simpa using wellFormed_ne_nil h)
  rw [List.nil_append] at hnum
  rcases hk with rfl | rfl | rfl
  · rw [field, reply, if_neg (by decide), if_neg (by decide), if_pos rfl, hnum, if_pos rfl]
    rfl
  · rw [field, reply, if_neg (by decide), if_neg (by decide), if_neg (by decide), if_pos rfl, hnum,
      if_neg (by decide), if_pos rfl]
    rfl
  · rw [field, reply, if_neg (by decide), if_neg (by decide), if_neg (by decide), if_neg (by decide),
      if_pos rfl, hnum, if_neg (by decide), if_neg (by decide)]
    rfl

/-- The next value that the parser has is `v`: it joins the open arrays like any element, and if that
completes a reply, the reply is what comes of the chunks. -/
def Joins (p : RedisParser) (cs : List Bytes) (v : RedisValue) : Prop :=
  ∃ q es q', closeReply { p with redisValue := v } = some q ∧ feedChunks p 0 cs = some (es, q') ∧
    es = (if q.arraySizes = [] then [.reply cs.flatten.length q.redisValue] else []) ∧
    q'.arraySizes = q.arraySizes ∧ q'.arrayValues = q.arrayValues

/-- The first thing that comes of the chunks is an error. -/
def Refused (p : RedisParser) (cs : List Bytes) : Prop :=
  ∃ off es q, feedChunks p 0 cs = some (.error off :: es, q)

/-- An integer reply in range gives its integer, without an overflow on the way, and what is out of
range is refused. -/
def Exact (p : RedisParser) (kind : UInt8) (r : Bytes) (cs : List Bytes) : Prop :=
  (InRange (value r) → kind = integerReply → Joins p cs (.int (value r)) ∧ NoOverflow r) ∧
    (¬ InRange (value r) → Refused p cs)

/-- The integer is smaller than `2 ^ 63` in absolute value; or it is a length, and it is in range or
what is left of it in 64 bits is less than -1. -/
def Small (kind : UInt8) (v : ℤ) : Prop :=
  if kind = integerReply then -9223372036854775808 < v ∧ v < 9223372036854775808
  else InRange v ∨ wrap64 v < -1

/-! ### What comes of them -/

/-- At the end of the bytes a value has been delivered: the machine has settled it. -/
theorem deliver_end (c : Config) (v : RedisValue) : deliver c v [] =
    ((settle { c with state := .start, redisValue := v }).1,
      (settle { c with state := .start, redisValue := v }).2, []) := by
  unfold deliver
  rcases settle { c with state := .start, redisValue := v } with ⟨w, d⟩
  cases w <;> rfl

/-- Settling looks at the open arrays and the value only. -/
theorem settle_congr {c d : Config} (hc : c.state = .start) (hd : d.state = .start)
    (hf : c.frames = d.frames) (hv : c.redisValue = d.redisValue) :
    (settle c).1 = (settle d).1 ∧ (settle c).2.frames = (settle d).2.frames ∧
      (settle c).2.redisValue = (settle d).2.redisValue := by
  unfold settle
  rw [if_pos hc, if_pos hd, hf, hv]
  dsimp only
  split_ifs <;> exact ⟨rfl, rfl, rfl⟩

/-- A value that is delivered at the end of the chunks. -/
theorem joins_of_deliver {p : RedisParser} {c d : Config} (hr : Rep p c) (hc : Ok c)
    {cs : List Bytes} {v : RedisValue} (hf : d.frames = c.frames)
    (hrun : run step c cs.flatten = deliver d v []) : Joins p cs v := by
  obtain ⟨ss, hp⟩ : ∃ ss, p = toParser c ss := by
    rcases hr with rfl | ⟨-, rfl⟩ <;> exact ⟨_, rfl⟩
  set e : Config := { c with state := .start, redisValue := v } with he
  obtain ⟨hclose, hdone⟩ := closeReply_toParser e ss rfl
  obtain ⟨h1, h2, h3⟩ := settle_congr (c := { d with state := .start, redisValue := v }) (d := e)
    rfl rfl hf rfl
  rw [deliver_end] at hrun
  obtain ⟨q, hq, hrep, -⟩ := feedChunks_rep cs p c 0 hr hc
  rw [drainChunks_eq] at hq hrep
  have hlayout : ∀ {q : RedisParser} {c : Config}, Rep q c →
      q.arraySizes = c.frames.map (fun f => (f.left : ℤ) + 1) ∧
        q.arrayValues = c.frames.map fun f => .array f.items := by
    rintro q c (rfl | ⟨-, rfl⟩) <;> exact ⟨rfl, rfl⟩
  refine ⟨toParser (settle e).2 ss, _, q, by rw [hp]; exact hclose, hq, ?_⟩
  have hnil : (toParser (settle e).2 ss).arraySizes = [] ↔ (settle e).2.frames = [] := by
    simp [toParser]
  rcases hs : settle { d with state := .start, redisValue := v } with ⟨w, d'⟩
  rw [hs] at hrun h1 h2 h3
  dsimp only at hrun h1 h2 h3
  cases w with
  | fail => exact absurd h1.symm (settle_ne_fail e)
  | more =>
    have hopen : (settle e).2.frames ≠ [] := fun hnil => by
      rw [hdone.mpr hnil] at h1
      cases h1
    rw [drain_of_run_more 0 hrun] at hrep ⊢
    rw [if_neg fun h => hopen (hnil.mp h)]
    obtain ⟨h4, h5⟩ := hlayout hrep
    exact ⟨rfl, by rw [h4, h2]; rfl, by rw [h5, h2]; rfl⟩
  | done =>
    have hclosed : (settle e).2.frames = [] := hdone.mp h1.symm
    rw [drain_of_run_stop (by simp) 0 hrun] at hrep ⊢
    rw [if_pos (hnil.mpr hclosed)]
    obtain ⟨h4, h5⟩ := hlayout hrep
    refine ⟨?_, ?_, ?_⟩
    · simp [drain, eventOf, h3, toParser]
    · rw [h4]
      simp [drain, resume, restart, h2, toParser]
    · rw [h5]
      simp [drain, resume, restart, h2, toParser]

/-- What the machine rejects at the end of the chunks is refused, and nothing else is. -/
theorem refused_iff {p : RedisParser} {c : Config} (hr : Rep p c) (hc : Ok c) {cs : List Bytes}
    (hrest : (run step c cs.flatten).2.2 = []) :
    Refused p cs ↔ (run step c cs.flatten).1 = .fail := by
  obtain ⟨q, hq, -⟩ := feedChunks_rep cs p c 0 hr hc
  rw [drainChunks_eq] at hq
  unfold Refused
  rw [hq]
  rcases hx : run step c cs.flatten with ⟨v, d, rest⟩
  rw [hx] at hrest
  dsimp only at hrest
  subst hrest
  cases v with
  | more =>
    rw [drain_of_run_more 0 hx]
    simp
  | done =>
    rw [drain_of_run_stop (by simp) 0 hx]
    simp [eventOf]
  | fail =>
    rw [drain_of_run_stop (by simp) 0 hx]
    simp [eventOf]

/-- After a length the machine waits, or delivers a value, or rejects a length less than -1. -/
theorem run_length {fs : List Frame} {n : ℤ} {out : Verdict × Config × Bytes} {d : ℕ}
    (h : Agrees fs (bulkOf n []) out ∨ Agrees fs (arrayOf (reply d) n []) out) :
    out.2.2 = [] ∧ (out.1 = .fail ↔ n < -1) := by
  have hdone : ∀ v : RedisValue, ¬ n < -1 → Agrees fs (.done v []) out →
      out.2.2 = [] ∧ (out.1 = .fail ↔ n < -1) := by
    rintro v hn ⟨c, -, rfl⟩
    rw [deliver_end]
    exact ⟨rfl, iff_of_false (settle_ne_fail _) hn⟩
  have hmore : ¬ n < -1 → Agrees fs .more out → out.2.2 = [] ∧ (out.1 = .fail ↔ n < -1) := by
    rintro hn ⟨c, rfl⟩
    exact ⟨rfl, iff_of_false (by simp) hn⟩
  rcases h with h | h
  · unfold bulkOf at h
    split_ifs at h with h1 h2
    · exact hdone _ (by omega) h
    · obtain ⟨c, rfl⟩ := h
      exact ⟨rfl, iff_of_true rfl (by omega)⟩
    · have hb : (bulk n.toNat []).map (RedisValue.bytes · false) = .more := by
        unfold bulk
        split_ifs with h3
        · rfl
        · have h0 : n.toNat = 0 := by simpa using h3
          rw [h0]
          rfl
      rw [hb] at h
      exact hmore (by omega) h
  · unfold arrayOf at h
    split_ifs at h with h1 h2
    · exact hdone _ (by omega) h
    · obtain ⟨c, rfl⟩ := h
      exact ⟨rfl, iff_of_true rfl (by omega)⟩
    · rcases hn : n.toNat with _ | m
      · rw [hn] at h
        exact hdone _ (by omega) h
      · have hi : (items (reply d) (m + 1) []).map RedisValue.array = .more := by
          have hr : reply d [] = .more := by cases d <;> rfl
          simp [items, hr]
        rw [hn, hi] at h
        exact hmore (by omega) h

/-- **When numbers are converted exactly.** A well-formed numeral, in front of which the parser is at
any depth, in any chunks. -/
theorem conversion_iff {p : RedisParser} (hp : Reachable p) (hfront : InFront p) {kind : UInt8}
    (hk : HasNumeral kind) {r : Bytes} (hr : WellFormed r) {cs : List Bytes}
    (hcs : cs.flatten = field kind r []) : Exact p kind r cs ↔ Small kind (value r) := by
  obtain ⟨c, hrep, hc⟩ := rep_of_reachable hp
  have hrun := run_reply cs.flatten.length cs.flatten c (Nat.le_refl _) ((inFront_state hrep).mp hfront)
  have hlen : cs.flatten.length = r.length + 2 + 1 := by
    rw [hcs]
    simp [field]
  rw [hlen, hcs, reply_numeral hk hr, bufToLong_eq hr] at hrun
  rw [← hcs] at hrun
  unfold Exact Small
  by_cases hint : kind = integerReply
  · rw [if_pos hint] at hrun ⊢
    obtain ⟨d, hf, hrun⟩ := hrun
    have hrest : (run step c cs.flatten).2.2 = [] := by rw [hrun, deliver_end]
    have hnot : ¬ Refused p cs := by
      rw [refused_iff hrep hc hrest, hrun, deliver_end]
      exact settle_ne_fail _
    rw [← noOverflow_iff hr]
    constructor
    · rintro ⟨hin, hout⟩
      by_cases hrange : InRange (value r)
      · exact (hin hrange hint).2
      · exact absurd (hout hrange) hnot
    · intro hno
      obtain ⟨h1, h2⟩ := (noOverflow_iff hr).mp hno
      have hrange : InRange (value r) := ⟨h1.le, h2⟩
      refine ⟨fun _ _ => ⟨?_, hno⟩, fun h => absurd hrange h⟩
      rw [wrap64_inRange hrange] at hrun
      exact joins_of_deliver hrep hc hf hrun
  · rw [if_neg hint] at hrun ⊢
    have hlength : (run step c cs.flatten).2.2 = [] ∧
        ((run step c cs.flatten).1 = .fail ↔ wrap64 (value r) < -1) := by
      by_cases hb : kind = bulkReply
      · rw [if_pos hb] at hrun
        exact run_length (d := 0) (Or.inl hrun)
      · rw [if_neg hb] at hrun
        exact run_length (Or.inr hrun)
    rw [refused_iff hrep hc hlength.1, hlength.2]
    constructor
    · rintro ⟨-, hout⟩
      exact or_iff_not_imp_left.mpr hout
    · intro h
      exact ⟨fun _ hi => absurd hi hint, fun hrange => h.resolve_left hrange⟩

/-- `:-12`, in two chunks, as the second element of an array of three. -/
theorem conversion_iff_element : ∃ p, Reachable p ∧ p.arraySizes = [2] ∧
    (Exact p integerReply [45, 49, 50] [[58, 45], [49, 50, 13, 10]] ↔
      Small integerReply (value [45, 49, 50])) := by
  have hp : parse fresh [42, 51, 13, 10, 58, 49, 13, 10] = some ((8, .incompleted),
      { fresh with
        states := [.start], redisValue := .int 1, arraySizes := [2],
        arrayValues := [.array [.int 1]] }) := by
    decide +kernel
  exact ⟨_, Reachable.fresh.parse (List.cons_ne_nil _ _) hp, rfl,
    conversion_iff (Reachable.fresh.parse (List.cons_ne_nil _ _) hp) (by decide) (by decide)
      (by decide +kernel) (by decide +kernel)⟩

/-- What a call on a reply gives that ends with its numeral. -/
def converted (kind : UInt8) (r : Bytes) : Option ((ℕ × ParseResult) × RedisValue) :=
  (parse fresh (field kind r [])).map fun (r, p) => (r, (result p).1)

/-- **Numbers wrap.** `2 ^ 64 + 1` is read as 1, a bulk string of `2 ^ 64 - 1` bytes as nil and an
array of `2 ^ 64` elements as empty, and the least integer is read through two overflows. -/
theorem numbers_wrap :
    (WellFormed (chars "18446744073709551617") ∧
      value (chars "18446744073709551617") = 18446744073709551617 ∧
      converted integerReply (chars "18446744073709551617") = some ((23, .completed), .int 1)) ∧
    converted bulkReply (chars "18446744073709551615") = some ((23, .completed), .null) ∧
    converted arrayReply (chars "18446744073709551616") = some ((23, .completed), .array []) ∧
    value (chars "-9223372036854775808") = -9223372036854775808 ∧
    ¬ NoOverflow (chars "-9223372036854775808") := by
  refine ⟨by decide +kernel, by decide +kernel, by decide +kernel, by decide +kernel, fun h => ?_⟩
  have hlast : InRange (922337203685477580 * 10 + 8) := h _ (by decide +kernel)
  exact absurd hlast (by decide)

end RedisClient.Parser.Numerals

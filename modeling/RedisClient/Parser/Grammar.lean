import RedisClient.Parser.Defs

/-! # The grammar of replies, by recursive descent

What a reply is, as a parser that calls itself for the elements of an array. It has the lexical
rules of the code (printable characters in strings, digits and minus signs in numerals, the value of
a numeral by `bufToLong`), but no state, no stack and no chunks: it reads one string from its
beginning and tells where the reply ends, after which byte it cannot be a reply, or that the string
stops before the end of a reply. -/

namespace RedisClient.Parser.Grammar

open RedisClient.Value RedisClient.Parser.Defs

/-- The outcome of reading something off a string. -/
inductive Ref (α : Type) where
  | done (v : α) (rest : Bytes)
  | bad (rest : Bytes)
  | more
  deriving DecidableEq

variable {α β : Type}

namespace Ref

def bind (r : Ref α) (f : α → Bytes → Ref β) : Ref β :=
  match r with
  | done v rest => f v rest
  | bad rest => bad rest
  | more => more

def map (f : α → β) (r : Ref α) : Ref β := r.bind fun v rest => done (f v) rest

@[simp] theorem bind_done (v : α) (rest : Bytes) (f : α → Bytes → Ref β) :
    (done v rest).bind f = f v rest := rfl
@[simp] theorem bind_bad (rest : Bytes) (f : α → Bytes → Ref β) : (bad rest).bind f = bad rest := rfl
@[simp] theorem bind_more (f : α → Bytes → Ref β) : (more : Ref α).bind f = more := rfl
@[simp] theorem map_done (f : α → β) (v : α) (rest : Bytes) :
    (done v rest).map f = done (f v) rest := rfl
@[simp] theorem map_bad (f : α → β) (rest : Bytes) : (bad rest : Ref α).map f = bad rest := rfl
@[simp] theorem map_more (f : α → β) : (more : Ref α).map f = more := rfl

theorem bind_eq_done {r : Ref α} {f : α → Bytes → Ref β} {v : β} {rest : Bytes}
    (h : r.bind f = .done v rest) : ∃ a s, r = .done a s ∧ f a s = .done v rest := by
  cases r with
  | done a s => exact ⟨a, s, rfl, h⟩
  | bad s => cases h
  | more => cases h

theorem map_eq_done {r : Ref α} {f : α → β} {w : β} {rest : Bytes}
    (h : r.map f = .done w rest) : ∃ a, r = .done a rest ∧ f a = w := by
  obtain ⟨a, s, h1, h2⟩ := bind_eq_done h
  cases h2
  exact ⟨a, h1, rfl⟩

end Ref

/-! ### Lexical rules -/

/-- The byte `b` is expected. -/
def expect (b : UInt8) : Bytes → Ref Unit
  | [] => .more
  | c :: s => if c = b then .done () s else .bad s

def crlf (s : Bytes) : Ref Unit := (expect CR s).bind fun _ s => expect LF s

def printable (b : UInt8) : Bool := 32 ≤ b.toNat ∧ b.toNat ≤ 126

/-- Printable characters up to CRLF, after those of `acc`. -/
def line (acc : Bytes) : Bytes → Ref Bytes
  | [] => .more
  | b :: s =>
    if b = CR then (expect LF s).map fun _ => acc
    else if printable b then line (acc ++ [b]) s
    else .bad s

/-- A nonempty run of digits and minus signs up to CRLF, after those of `acc`. -/
def numeral (acc : Bytes) : Bytes → Ref Bytes
  | [] => .more
  | b :: s =>
    if b = CR then if acc = [] then .bad s else (expect LF s).map fun _ => acc
    else if isDigit b || b = minus then numeral (acc ++ [b]) s
    else .bad s

/-- Exactly `n` bytes, then CRLF. -/
def bulk (n : ℕ) (s : Bytes) : Ref Bytes :=
  if s.length < n then .more else (crlf (s.drop n)).map fun _ => s.take n

/-! ### Replies -/

/-- Exactly `n` replies. -/
def items (reply : Bytes → Ref RedisValue) : ℕ → Bytes → Ref (List RedisValue)
  | 0, s => .done [] s
  | n + 1, s => (reply s).bind fun v s => (items reply n s).map (v :: ·)

/-- What follows the length of a bulk string. -/
def bulkOf (n : ℤ) (s : Bytes) : Ref RedisValue :=
  if n = -1 then .done .null s
  else if n < 0 then .bad s
  else (bulk n.toNat s).map (.bytes · false)

/-- What follows the length of an array. -/
def arrayOf (reply : Bytes → Ref RedisValue) (n : ℤ) (s : Bytes) : Ref RedisValue :=
  if n = -1 then .done .null s
  else if n < 0 then .bad s
  else (items reply n.toNat s).map .array

/-- A reply with arrays nested at most `depth` deep. -/
def reply : ℕ → Bytes → Ref RedisValue
  | _, [] => .more
  | 0, _ :: _ => .more
  | depth + 1, b :: s =>
    if b = stringReply then (line [] s).map (.bytes · false)
    else if b = errorReply then (line [] s).map (.bytes · true)
    else if b = integerReply then (numeral [] s).map fun ds => .int (bufToLong ds)
    else if b = bulkReply then (numeral [] s).bind fun ds s => bulkOf (bufToLong ds) s
    else if b = arrayReply then
      (numeral [] s).bind fun ds s => arrayOf (reply depth) (bufToLong ds) s
    else .bad s

/-- **A reply.** Arrays cannot be nested deeper than the string is long. -/
def ref (s : Bytes) : Ref RedisValue := reply s.length s

/-! ### Reading what has been written -/

theorem crlf_cons (s : Bytes) : crlf (CR :: LF :: s) = .done () s := by simp [crlf, expect]

theorem line_append : ∀ (l acc rest : Bytes), (∀ b ∈ l, printable b) →
    line acc (l ++ CR :: LF :: rest) = .done (acc ++ l) rest
  | [], acc, rest, _ => by simp [line, expect]
  | b :: l, acc, rest, h => by
    have hb : printable b := h b (by simp)
    have hne : b ≠ CR := by rintro rfl; exact absurd hb (by decide)
    rw [List.cons_append, line, if_neg hne, if_pos hb,
      line_append l (acc ++ [b]) rest fun c hc => h c (by simp [hc])]
    simp

theorem numeral_append : ∀ (ds acc rest : Bytes), (∀ b ∈ ds, isDigit b || b = minus) →
    acc ++ ds ≠ [] → numeral acc (ds ++ CR :: LF :: rest) = .done (acc ++ ds) rest
  | [], acc, rest, _, hne => by
    have : acc ≠ [] := by simpa using hne
    simp [numeral, expect, this]
  | b :: ds, acc, rest, h, _ => by
    have hb : (isDigit b || b = minus) = true := h b (by simp)
    have hcr : b ≠ CR := by rintro rfl; exact absurd hb (by decide)
    rw [List.cons_append, numeral, if_neg hcr, if_pos hb,
      numeral_append ds (acc ++ [b]) rest (fun c hc => h c (by simp [hc])) (by simp)]
    simp

theorem bulk_append (b rest : Bytes) : bulk b.length (b ++ CR :: LF :: rest) = .done b rest := by
  simp [bulk, crlf_cons]

/-! ### What is left is shorter -/

theorem expect_rest {b : UInt8} {s rest : Bytes} {u : Unit} (h : expect b s = .done u rest) :
    rest.length < s.length := by
  rcases s with _ | ⟨c, s⟩
  · simp [expect] at h
  · simp only [expect] at h
    split_ifs at h
    cases h
    simp

theorem crlf_rest {s rest : Bytes} {u : Unit} (h : crlf s = .done u rest) :
    rest.length < s.length := by
  obtain ⟨_, s', h1, h2⟩ := Ref.bind_eq_done h
  exact Nat.lt_trans (expect_rest h2) (expect_rest h1)

theorem line_rest : ∀ {s acc l rest : Bytes}, line acc s = .done l rest → rest.length < s.length
  | [], _, _, _, h => by simp [line] at h
  | b :: s, acc, l, rest, h => by
    simp only [line] at h
    split_ifs at h
    · obtain ⟨_, h1, -⟩ := Ref.map_eq_done h
      exact Nat.lt_succ_of_lt (expect_rest h1)
    · exact Nat.lt_succ_of_lt (line_rest h)

theorem numeral_rest : ∀ {s acc ds rest : Bytes}, numeral acc s = .done ds rest →
    rest.length < s.length
  | [], _, _, _, h => by simp [numeral] at h
  | b :: s, acc, ds, rest, h => by
    simp only [numeral] at h
    split_ifs at h
    · obtain ⟨_, h1, -⟩ := Ref.map_eq_done h
      exact Nat.lt_succ_of_lt (expect_rest h1)
    · exact Nat.lt_succ_of_lt (numeral_rest h)

theorem bulk_rest {n : ℕ} {s b rest : Bytes} (h : bulk n s = .done b rest) :
    b.length = n ∧ rest.length < s.length := by
  unfold bulk at h
  split_ifs at h with hn
  obtain ⟨_, h1, rfl⟩ := Ref.map_eq_done h
  have := crlf_rest h1
  simp at this ⊢
  omega

section Items
variable {r : Bytes → Ref RedisValue}
  (hr : ∀ s v rest, r s = .done v rest → rest.length < s.length)
include hr

theorem items_rest : ∀ {n : ℕ} {s : Bytes} {vs : List RedisValue} {rest : Bytes},
    items r n s = .done vs rest → vs.length = n ∧ rest.length ≤ s.length
  | 0, s, vs, rest, h => by cases h; simp
  | n + 1, s, vs, rest, h => by
    obtain ⟨v, s', h1, h2⟩ := Ref.bind_eq_done h
    obtain ⟨vs', h3, rfl⟩ := Ref.map_eq_done h2
    have := hr _ _ _ h1
    have := items_rest h3
    simp; omega

/-- An array has as many elements as its length says. -/
theorem arrayOf_done {n : ℤ} {s rest : Bytes} {v : RedisValue}
    (h : arrayOf r n s = .done v rest) :
    (n = -1 ∧ v = .null ∨ ∃ vs, v = .array vs ∧ (vs.length : ℤ) = n) ∧
      rest.length ≤ s.length := by
  unfold arrayOf at h
  split_ifs at h with h1 h2
  · cases h
    exact ⟨Or.inl ⟨h1, rfl⟩, Nat.le_refl _⟩
  · obtain ⟨vs, h3, rfl⟩ := Ref.map_eq_done h
    obtain ⟨hl, hs⟩ := items_rest hr h3
    exact ⟨Or.inr ⟨vs, rfl, by omega⟩, hs⟩

end Items

/-- A bulk string has as many bytes as its length says. -/
theorem bulkOf_done {n : ℤ} {s rest : Bytes} {v : RedisValue} (h : bulkOf n s = .done v rest) :
    (n = -1 ∧ v = .null ∨ ∃ b, v = .bytes b false ∧ (b.length : ℤ) = n) ∧
      rest.length ≤ s.length := by
  unfold bulkOf at h
  split_ifs at h with h1 h2
  · cases h
    exact ⟨Or.inl ⟨h1, rfl⟩, Nat.le_refl _⟩
  · obtain ⟨b, h3, rfl⟩ := Ref.map_eq_done h
    obtain ⟨hl, hs⟩ := bulk_rest h3
    exact ⟨Or.inr ⟨b, rfl, by omega⟩, by omega⟩

theorem reply_rest : ∀ {depth : ℕ} {s : Bytes} {v : RedisValue} {rest : Bytes},
    reply depth s = .done v rest → rest.length < s.length
  | 0, [], _, _, h | 0, _ :: _, _, _, h | _ + 1, [], _, _, h => by simp [reply] at h
  | depth + 1, b :: s, v, rest, h => by
    simp only [reply] at h
    split_ifs at h
    · obtain ⟨_, h1, -⟩ := Ref.map_eq_done h
      exact Nat.lt_succ_of_lt (line_rest h1)
    · obtain ⟨_, h1, -⟩ := Ref.map_eq_done h
      exact Nat.lt_succ_of_lt (line_rest h1)
    · obtain ⟨_, h1, -⟩ := Ref.map_eq_done h
      exact Nat.lt_succ_of_lt (numeral_rest h1)
    · obtain ⟨_, s', h1, h2⟩ := Ref.bind_eq_done h
      exact Nat.lt_succ_of_lt (Nat.lt_of_le_of_lt (bulkOf_done h2).2 (numeral_rest h1))
    · obtain ⟨_, s', h1, h2⟩ := Ref.bind_eq_done h
      have := arrayOf_done (fun _ _ _ h => reply_rest h) h2
      exact Nat.lt_succ_of_lt (Nat.lt_of_le_of_lt this.2 (numeral_rest h1))

end RedisClient.Parser.Grammar

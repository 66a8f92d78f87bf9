import RedisClient.Lib.Decimal
import RedisClient.Parser.Descent

/-! # Reading a stream of replies

A server writes replies from a small set of trees (`ReplyTree`, `enc`), and the parser reads them
back: called again and again on what is left of a stream, it gives one reply a call, and the bytes
of the reply are those the call consumes (`parse_stream`). A number survives because the loop of
`bufToLong` stays in range on the way to it (`bufToLong_decimal`), a tree because the grammar reads
back its text whatever follows it (`reply_enc`). -/

namespace RedisClient.Parser.RoundTrip

open RedisClient.Value RedisClient.Lib.Decimal RedisClient.Parser.Defs RedisClient.Parser.Grammar
open RedisClient.Parser.Descent

/-! ### Numbers -/

/-- One more digit, in range. -/
theorem addDigit_digit {v d : ℕ} (hd : d < 10) (h : v * 10 + d < 9223372036854775808) :
    addDigit v (digit d) = ((v * 10 + d : ℕ) : ℤ) := by
  have hc : charInt (digit d) = 48 + d := by
    unfold charInt
    rw [toNat_digit hd, if_pos (by omega)]
    omega
  unfold addDigit wrap64
  rw [hc]
  omega

theorem foldl_addDigit {n : ℕ} (h : n < 9223372036854775808) :
    (decimal n).foldl addDigit 0 = n := by
  refine (foldl_decimal (P := fun v x => x = ((v : ℕ) : ℤ)) rfl fun v d x hd hn hx => ?_).symm ▸ rfl
  rw [hx]
  exact addDigit_digit hd (by omega)

theorem isDigit_decimal {n : ℕ} {b : UInt8} (h : b ∈ decimal n) : isDigit b = true := by
  have := mem_decimal h
  unfold isDigit
  simp only [decide_eq_true_eq]
  omega

theorem minus_not_decimal (n : ℕ) : minus ∉ decimal n := by
  intro h
  have := isDigit_decimal h
  exact absurd this (by decide)

/-- **The loop reads a number back.** -/
theorem bufToLong_decimal {n : ℕ} (h : n < 9223372036854775808) : bufToLong (decimal n) = n := by
  rcases hd : decimal n with _ | ⟨c, str⟩
  · exact absurd hd (decimal_ne_nil n)
  · have hc : c ≠ minus := by
      rintro rfl
      exact minus_not_decimal n (by simp [hd])
    rw [bufToLong, if_neg hc, ← hd]
    exact foldl_addDigit h

theorem bufToLong_minus {n : ℕ} (h : n < 9223372036854775808) :
    bufToLong (minus :: decimal n) = -n := by
  rw [bufToLong, if_pos rfl, if_neg (decimal_ne_nil n), foldl_addDigit h]
  unfold wrap64
  omega

/-- The text of an integer. -/
def intText (v : ℤ) : Bytes := if v < 0 then minus :: decimal v.natAbs else decimal v.natAbs

theorem intText_chars (v : ℤ) : ∀ b ∈ intText v, isDigit b || b = minus := by
  intro b hb
  unfold intText at hb
  split_ifs at hb
  · rcases List.mem_cons.mp hb with rfl | hb
    · decide
    · simp [isDigit_decimal hb]
  · simp [isDigit_decimal hb]

theorem intText_ne_nil (v : ℤ) : intText v ≠ [] := by
  unfold intText
  split_ifs
  · simp
  · exact decimal_ne_nil _

theorem bufToLong_intText {v : ℤ} (h1 : -9223372036854775808 < v) (h2 : v < 9223372036854775808) :
    bufToLong (intText v) = v := by
  unfold intText
  split_ifs
  · rw [bufToLong_minus (by omega)]
    omega
  · rw [bufToLong_decimal (by omega)]
    omega

theorem numeral_intText (v : ℤ) (rest : Bytes) :
    numeral [] (intText v ++ CR :: LF :: rest) = .done (intText v) rest :=
  numeral_append (intText v) [] rest (intText_chars v) (by simpa using intText_ne_nil v)

/-! ### Reply trees -/

/-- What a server can reply. -/
inductive ReplyTree where
  | simple (text : Bytes)
  | error (text : Bytes)
  | int (v : ℤ)
  | bulk (b : Bytes)
  | nilBulk
  | nilArray
  | array (items : List ReplyTree)

/-- A kind of reply, a text, and what follows. -/
def field (kind : UInt8) (text rest : Bytes) : Bytes := kind :: (text ++ CR :: LF :: rest)

namespace ReplyTree

mutual
/-- Printable text, integers of 64 bits, and lengths that a `reserve` can meet. -/
def Wf : ReplyTree → Prop
  | simple text | error text => ∀ b ∈ text, printable b
  | int v => -9223372036854775808 < v ∧ v < 9223372036854775808
  | bulk b => b.length < 9223372036854775808
  | nilBulk | nilArray => True
  | array items => items.length < 9223372036854775808 ∧ AllWf items
def AllWf : List ReplyTree → Prop
  | [] => True
  | t :: ts => t.Wf ∧ AllWf ts
end

mutual
/-- The bytes of a reply. -/
def enc : ReplyTree → Bytes
  | simple text => field stringReply text []
  | error text => field errorReply text []
  | int v => field integerReply (intText v) []
  | bulk b => field bulkReply (intText b.length) (b ++ [CR, LF])
  | nilBulk => field bulkReply (intText (-1)) []
  | nilArray => field arrayReply (intText (-1)) []
  | array items => field arrayReply (intText items.length) (encAll items)
def encAll : List ReplyTree → Bytes
  | [] => []
  | t :: ts => t.enc ++ encAll ts
end

mutual
/-- The value of a reply. -/
def value : ReplyTree → RedisValue
  | simple text => .bytes text false
  | error text => .bytes text true
  | int v => .int v
  | bulk b => .bytes b false
  | nilBulk | nilArray => .null
  | array items => .array (valueAll items)
def valueAll : List ReplyTree → List RedisValue
  | [] => []
  | t :: ts => t.value :: valueAll ts
end

end ReplyTree

open ReplyTree

theorem field_append (kind : UInt8) (text rest s : Bytes) :
    field kind text rest ++ s = field kind text (rest ++ s) := by simp [field]

theorem encAll_eq : ∀ ts : List ReplyTree, encAll ts = (ts.map enc).flatten
  | [] => rfl
  | t :: ts => by simp [encAll, encAll_eq ts]

theorem valueAll_eq : ∀ ts : List ReplyTree, valueAll ts = ts.map value
  | [] => rfl
  | t :: ts => by simp [valueAll, valueAll_eq ts]

/-! ### The grammar reads back what is written -/

section Field
variable {d : ℕ} (s : Bytes)

theorem reply_simple {text : Bytes} (h : ∀ b ∈ text, printable b) :
    reply (d + 1) (field stringReply text s) = .done (.bytes text false) s := by
  rw [field, reply, if_pos rfl, line_append text [] s h]
  rfl

theorem reply_error {text : Bytes} (h : ∀ b ∈ text, printable b) :
    reply (d + 1) (field errorReply text s) = .done (.bytes text true) s := by
  rw [field, reply, if_neg (by decide), if_pos rfl, line_append text [] s h]
  rfl

theorem reply_int (v : ℤ) :
    reply (d + 1) (field integerReply (intText v) s) = .done (.int (bufToLong (intText v))) s := by
  rw [field, reply, if_neg (by decide), if_neg (by decide), if_pos rfl, numeral_intText]
  rfl

theorem reply_bulk (v : ℤ) :
    reply (d + 1) (field bulkReply (intText v) s) = bulkOf (bufToLong (intText v)) s := by
  rw [field, reply, if_neg (by decide), if_neg (by decide), if_neg (by decide), if_pos rfl,
    numeral_intText]
  rfl

theorem reply_array (v : ℤ) :
    reply (d + 1) (field arrayReply (intText v) s) =
      arrayOf (reply d) (bufToLong (intText v)) s := by
  rw [field, reply, if_neg (by decide), if_neg (by decide), if_neg (by decide),
    if_neg (by decide), if_pos rfl, numeral_intText]
  rfl

end Field

theorem enc_pos (t : ReplyTree) : 0 < t.enc.length := by
  cases t <;> simp [enc, field]

mutual
/-- **The text of a reply reads back**, whatever follows it. -/
theorem reply_enc (t : ReplyTree) (ht : t.Wf) (d : ℕ) (hd : t.enc.length ≤ d) (s : Bytes) :
    reply d (t.enc ++ s) = .done t.value s := by
  obtain ⟨d, rfl⟩ : ∃ e, d = e + 1 := ⟨d - 1, by have := enc_pos t; omega⟩
  cases t with
  | simple text =>
    rw [enc, field_append]
    exact reply_simple s ht
  | error text =>
    rw [enc, field_append]
    exact reply_error s ht
  | int v =>
    obtain ⟨h1, h2⟩ := ht
    rw [enc, field_append, List.nil_append, reply_int, bufToLong_intText h1 h2]
    rfl
  | bulk b =>
    have hb : b.length < 9223372036854775808 := ht
    rw [enc, field_append, reply_bulk, bufToLong_intText (by omega) (by omega), bulkOf,
      if_neg (by omega), if_neg (by omega), Int.toNat_natCast, List.append_assoc]
    exact congrArg (Ref.map _) (bulk_append b s)
  | nilBulk =>
    rw [enc, field_append, reply_bulk, bufToLong_intText (by omega) (by omega)]
    rfl
  | nilArray =>
    rw [enc, field_append, reply_array, bufToLong_intText (by omega) (by omega)]
    rfl
  | array ts =>
    obtain ⟨hl, hts⟩ := ht
    have hd' : (encAll ts).length ≤ d := by
      simp only [enc, field, List.length_cons, List.length_append] at hd
      omega
    rw [enc, field_append, reply_array, bufToLong_intText (by omega) (by omega), arrayOf,
      if_neg (by omega), if_neg (by omega), Int.toNat_natCast, items_enc ts hts d hd' s]
    rfl
theorem items_enc (ts : List ReplyTree) (hts : AllWf ts) (d : ℕ) (hd : (encAll ts).length ≤ d)
    (s : Bytes) : items (reply d) ts.length (encAll ts ++ s) = .done (valueAll ts) s := by
  cases ts with
  | nil => rfl
  | cons t ts =>
    obtain ⟨ht, hts⟩ := hts
    simp only [encAll, List.length_append] at hd
    rw [encAll, List.append_assoc, List.length_cons, items, reply_enc t ht d (by omega),
      Ref.bind_done, items_enc ts hts d (by omega) s]
    rfl
end

/-! ### Calls on a stream -/

/-- A reply with its proof of well-formedness. -/
def Reply : Type := { t : ReplyTree // t.Wf }

namespace Reply

def enc (v : Reply) : Bytes := v.1.enc

def value (v : Reply) : RedisValue := v.1.value

end Reply

theorem ref_enc (v : Reply) (s : Bytes) : ref (v.enc ++ s) = .done v.value s :=
  reply_enc v.1 v.2 _ (by simp [Reply.enc]) s

/-- `n` calls of `parse`, each on the bytes that the calls before it have left, and `result` after
each. -/
def parseCalls : ℕ → RedisParser → Bytes →
    Option (List ((ℕ × ParseResult) × RedisValue) × RedisParser)
  | 0, p, _ => some ([], p)
  | n + 1, p, s =>
    (parse p s).bind fun (r, p) =>
    (parseCalls n (result p).2 (s.drop r.1)).map fun (rs, p') => ((r, (result p).1) :: rs, p')

theorem idle_result {p : RedisParser} (h : Idle p) : Idle (result p).2 := h

/-- A call on a reply gives the reply, whatever the parser has read before. -/
theorem parse_enc {p : RedisParser} (hp : Idle p) (v : Reply) (s : Bytes) :
    ∃ p', parse p (v.enc ++ s) = some ((v.enc.length, .completed), p') ∧ Idle p' ∧
      (result p').1 = v.value := by
  have hne : v.enc ++ s ≠ [] := by
    intro h
    have hpos := enc_pos v.1
    have hnil : v.1.enc = [] := (List.append_eq_nil_iff.mp h).1
    simp [hnil] at hpos
  have h := parse_idle hp hne
  rw [ref_enc] at h
  simpa using h

theorem parseCalls_enc : ∀ (vs : List Reply) {p : RedisParser} (r : Bytes), Idle p →
    ∃ p', Idle p' ∧ parseCalls vs.length p ((vs.map Reply.enc).flatten ++ r) =
      some (vs.map fun v => ((v.enc.length, .completed), v.value), p')
  | [], p, r, hp => ⟨p, hp, rfl⟩
  | v :: vs, p, r, hp => by
    obtain ⟨p1, h1, hp1, hv⟩ := parse_enc hp v ((vs.map Reply.enc).flatten ++ r)
    obtain ⟨p2, hp2, h2⟩ := parseCalls_enc vs r (idle_result hp1)
    refine ⟨p2, hp2, ?_⟩
    simp [parseCalls, h1, h2, hv]

/-- **Decoding undoes encoding on a stream of replies.** A fresh parser called `n` times on the
texts of `n` replies and some bytes completes each time, on exactly the bytes of the reply, with
its value. -/
theorem parse_stream (vs : List Reply) (r : Bytes) :
    (parseCalls vs.length fresh ((vs.map Reply.enc).flatten ++ r)).map Prod.fst =
      some (vs.map fun v => ((v.enc.length, .completed), v.value)) := by
  obtain ⟨p, -, h⟩ := parseCalls_enc vs r idle_fresh
  rw [h]
  rfl

/-- An array that ends in an empty array, and a reply after it. -/
example : (parseCalls 2 fresh ((ReplyTree.array [.int (-12), .array []]).enc ++
    (ReplyTree.simple [79, 75]).enc)).map Prod.fst =
      some [((14, .completed), .array [.int (-12), .array []]),
        ((5, .completed), .bytes [79, 75] false)] := by
  decide +kernel

end RedisClient.Parser.RoundTrip

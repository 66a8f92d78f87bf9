import RedisClient.Parser.Chunks
import RedisClient.Parser.RoundTrip

/-! # Commands on the wire

`makeCommand` writes a command as an array of bulk strings, that is, as the text of a reply tree
(`makeCommand_eq_enc`). So the parser reads commands back, however the stream of them is cut
(`commands_survive`), and the text of a command together with anything after it determines the
contents of the command and where it ends (`makeCommand_append_inj`). -/

namespace RedisClient.Commands

open RedisClient.Value RedisClient.Lib.Decimal RedisClient.Parser.Defs RedisClient.Parser.Grammar
open RedisClient.Parser.Chunks RedisClient.Parser.RoundTrip

/-! ### The encoder -/

/-- `RedisBuffer`: a `std::string` or a `std::vector<char>`. -/
inductive RedisBuffer where
  | string (data : Bytes)
  | vector (data : Bytes)
  deriving DecidableEq

namespace RedisBuffer

/-- The bytes, in either representation. -/
def data : RedisBuffer → Bytes
  | string data => data
  | vector data => data

def size : RedisBuffer → ℕ
  | string data => data.length
  | vector data => data.length

theorem size_eq (b : RedisBuffer) : b.size = b.data.length := by cases b <;> rfl

end RedisBuffer

/-- The array `crlf`, which has no terminator. -/
def crlf : Bytes := [CR, LF]

/-- `bufferAppend` on a range of characters: a string, a vector or an array. -/
def bufferAppend (vec s : Bytes) : Bytes := vec ++ s

/-- `bufferAppend` on one character. -/
def bufferAppendChar (vec : Bytes) (c : UInt8) : Bytes := vec ++ [c]

/-- `bufferAppend` on a `RedisBuffer`. -/
def bufferAppendBuffer (vec : Bytes) : RedisBuffer → Bytes
  | .string s => bufferAppend vec s
  | .vector s => bufferAppend vec s

/-- The body of the loop of `makeCommand`. -/
def appendItem (result : Bytes) (item : RedisBuffer) : Bytes :=
  let result := bufferAppendChar result bulkReply
  let result := bufferAppend result (decimal item.size)
  let result := bufferAppend result crlf
  let result := bufferAppendBuffer result item
  bufferAppend result crlf

def makeCommand (items : List RedisBuffer) : Bytes :=
  let result := bufferAppendChar [] arrayReply
  let result := bufferAppend result (decimal items.length)
  let result := bufferAppend result crlf
  items.foldl appendItem result

/-- The number and the lengths of the items are those of containers in memory. -/
def Fits (items : List RedisBuffer) : Prop :=
  items.length < 9223372036854775808 ∧ ∀ b ∈ items, b.size < 9223372036854775808

instance (items : List RedisBuffer) : Decidable (Fits items) := by unfold Fits; infer_instance

/-- A command. -/
structure Command where
  items : List RedisBuffer
  fits : Fits items

namespace Command

/-- The bytes on the wire. -/
def enc (c : Command) : Bytes := makeCommand c.items

/-- The contents of the items. -/
def contents (c : Command) : List Bytes := c.items.map RedisBuffer.data

/-- What a parser makes of the command. -/
def value (c : Command) : RedisValue := .array (c.contents.map (.bytes · false))

end Command

/-! ### Commands as reply trees -/

theorem intText_natCast (n : ℕ) : intText n = decimal n := by
  unfold intText
  rw [if_neg (by omega), Int.natAbs_natCast]

/-- A bulk string for each item. -/
def trees (items : List RedisBuffer) : List ReplyTree := items.map fun b => .bulk b.data

theorem appendItem_eq (result : Bytes) (item : RedisBuffer) :
    appendItem result item = result ++ (ReplyTree.bulk item.data).enc := by
  cases item <;>
    simp [appendItem, bufferAppend, bufferAppendChar, bufferAppendBuffer, crlf, RedisBuffer.size,
      RedisBuffer.data, ReplyTree.enc, field, intText_natCast]

theorem foldl_appendItem : ∀ (items : List RedisBuffer) (result : Bytes),
    items.foldl appendItem result = result ++ ReplyTree.encAll (trees items)
  | [], result => by simp [trees, ReplyTree.encAll]
  | b :: items, result => by
    rw [List.foldl_cons, foldl_appendItem items, appendItem_eq]
    simp [trees, ReplyTree.encAll]

theorem makeCommand_eq_enc (items : List RedisBuffer) :
    makeCommand items = (ReplyTree.array (trees items)).enc := by
  unfold makeCommand
  rw [foldl_appendItem]
  simp [bufferAppend, bufferAppendChar, crlf, ReplyTree.enc, field, intText_natCast, trees]

theorem allWf_trees : ∀ {items : List RedisBuffer},
    (∀ b ∈ items, b.size < 9223372036854775808) → ReplyTree.AllWf (trees items)
  | [], _ => trivial
  | b :: items, h => by
    refine ⟨?_, allWf_trees fun x hx => h x (by simp [hx])⟩
    have := h b (by simp)
    rwa [RedisBuffer.size_eq] at this

/-- A command as a reply. -/
def tree (c : Command) : Reply :=
  ⟨.array (trees c.items), by simpa [trees] using c.fits.1, allWf_trees c.fits.2⟩

theorem enc_tree (c : Command) : (tree c).enc = c.enc := (makeCommand_eq_enc c.items).symm

theorem value_tree (c : Command) : (tree c).value = c.value := by
  simp [Reply.value, tree, ReplyTree.value, valueAll_eq, trees, Command.value, Command.contents]

/-! ### Reading commands back -/

theorem ref_command (c : Command) (s : Bytes) : ref (c.enc ++ s) = .done c.value s := by
  rw [← enc_tree, ← value_tree]
  exact ref_enc (tree c) s

theorem contents_of_value {c d : Command} (h : c.value = d.value) : c.contents = d.contents := by
  simp only [Command.value, RedisValue.array.injEq] at h
  exact (List.map_injective_iff.mpr fun a b hab => by simpa using hab) h

/-- **A command ends where it ends**, whatever follows. -/
theorem makeCommand_append_inj {c d : Command} {s t : Bytes} (h : c.enc ++ s = d.enc ++ t) :
    c.contents = d.contents ∧ s = t := by
  have hc := ref_command c s
  rw [h, ref_command d t] at hc
  injection hc with hv hs
  exact ⟨(contents_of_value hv).symm, hs.symm⟩

theorem enc_ne_nil (c : Command) : c.enc ≠ [] := by
  intro h
  have := enc_pos (tree c).1
  rw [← Reply.enc, enc_tree, h] at this
  exact absurd this (by simp)

/-- The bytes of a stream of commands. -/
def encs (cs : List Command) : Bytes := (cs.map Command.enc).flatten

@[simp] theorem encs_nil : encs [] = [] := rfl

@[simp] theorem encs_cons (c : Command) (cs : List Command) : encs (c :: cs) = c.enc ++ encs cs :=
  rfl

theorem encs_append (cs ds : List Command) : encs (cs ++ ds) = encs cs ++ encs ds := by
  simp [encs]

theorem encs_inj : ∀ {cs ds : List Command}, encs cs = encs ds →
    cs.map Command.contents = ds.map Command.contents
  | [], [], _ => rfl
  | [], d :: ds, h => by
    simp only [encs_nil, encs_cons] at h
    exact absurd (List.append_eq_nil_iff.mp h.symm).1 (enc_ne_nil d)
  | c :: cs, [], h => by
    simp only [encs_nil, encs_cons] at h
    exact absurd (List.append_eq_nil_iff.mp h).1 (enc_ne_nil c)
  | c :: cs, d :: ds, h => by
    obtain ⟨h1, h2⟩ := makeCommand_append_inj h
    simp [h1, encs_inj h2]

/-- A stream of commands that goes on after some commands holds more of them. -/
theorem encs_longer : ∀ {cs ds : List Command} {s : Bytes}, encs ds = encs cs ++ s → s ≠ [] →
    cs.length < ds.length
  | [], [], s, h, hs => absurd h.symm (by simpa using hs)
  | [], d :: ds, _, _, _ => by simp
  | c :: cs, [], s, h, _ => by
    simp only [encs_nil, encs_cons, List.append_assoc] at h
    exact absurd (List.append_eq_nil_iff.mp h.symm).1 (enc_ne_nil c)
  | c :: cs, d :: ds, s, h, hs => by
    rw [encs_cons, encs_cons, List.append_assoc] at h
    have := encs_longer (makeCommand_append_inj h).2 hs
    simpa using this

/-- The replies that a stream of commands reads as, each at the end of its command. -/
def events (off : ℕ) : List Command → List Event
  | [] => []
  | c :: cs => .reply (off + c.enc.length) c.value :: events (off + c.enc.length) cs

theorem feedChunk_encs : ∀ (cs : List Command) (fuel : ℕ) (p : RedisParser) (off : ℕ), Idle p →
    (encs cs).length ≤ fuel → ∃ q, feedChunk fuel p off (encs cs) = some (events off cs, q)
  | [], fuel, p, off, _, _ => ⟨p, by cases fuel <;> rfl⟩
  | c :: cs, fuel, p, off, hp, hl => by
    obtain ⟨p1, h1, hp1, hv⟩ := parse_enc hp (tree c) (encs cs)
    rw [enc_tree] at h1
    rw [value_tree] at hv
    have hpos : 0 < c.enc.length := List.length_pos_iff.mpr (enc_ne_nil c)
    simp only [encs_cons, List.length_append] at hl
    obtain ⟨fuel, rfl⟩ : ∃ m, fuel = m + 1 := ⟨fuel - 1, by omega⟩
    obtain ⟨q, h2⟩ := feedChunk_encs cs fuel (result p1).2 (off + c.enc.length) (idle_result hp1)
      (by omega)
    refine ⟨q, ?_⟩
    obtain ⟨b, data, hb⟩ := List.exists_cons_of_ne_nil (enc_ne_nil c)
    have hfeed : feedChunk (fuel + 1) p off (c.enc ++ encs cs) =
        (feedChunk fuel (result p1).2 (off + c.enc.length)
          ((c.enc ++ encs cs).drop c.enc.length)).map fun r =>
            (.reply (off + c.enc.length) (result p1).1 :: r.1, r.2) := by
      rw [hb, List.cons_append] at h1 ⊢
      simp only [feedChunk, h1]
    rw [encs_cons, hfeed, List.drop_left, h2, hv]
    rfl

/-- However a stream of commands is cut, a fresh parser reads the commands. -/
theorem feedChunks_encs (cs : List Command) {chunks : List Bytes} (h : chunks.flatten = encs cs) :
    ∃ q, feedChunks fresh 0 chunks = some (events 0 cs, q) := by
  obtain ⟨es, q, q', h1, h2⟩ := feedChunks_eq .fresh 0 chunks
  obtain ⟨q'', h3⟩ := feedChunk_encs cs _ fresh 0 ⟨rfl, rfl, rfl⟩ (Nat.le_refl _)
  rw [h, h3] at h2
  cases h2
  exact ⟨q, h1⟩

/-- **Commands survive the wire.** In any partition into chunks the parser completes once for each
command, at its last byte and with its contents; the last one ends the stream. The text of a command
determines its contents, no text of a command is a proper prefix of another's, and the bytes of a
stream determine the commands in it. -/
theorem commands_survive :
    (∀ (cs : List Command) (chunks : List Bytes), chunks.flatten = encs cs →
      ∃ q, feedChunks fresh 0 chunks = some (events 0 cs, q)) ∧
    (∀ c d : Command, makeCommand c.items = makeCommand d.items →
      c.items.map RedisBuffer.data = d.items.map RedisBuffer.data) ∧
    (∀ c d : Command, makeCommand c.items <+: makeCommand d.items →
      makeCommand c.items = makeCommand d.items) ∧
    ∀ cs ds : List Command, encs cs = encs ds →
      cs.map Command.contents = ds.map Command.contents := by
  refine ⟨fun cs chunks h => feedChunks_encs cs h, fun c d h => ?_, fun c d h => ?_,
    fun cs ds h => encs_inj h⟩
  · have hnil : c.enc ++ [] = d.enc ++ [] := congrArg (· ++ []) h
    exact (makeCommand_append_inj hnil).1
  · obtain ⟨t, ht⟩ := h
    have hnil : c.enc ++ t = d.enc ++ [] := by rw [List.append_nil]; exact ht
    rw [(makeCommand_append_inj hnil).2, List.append_nil] at ht
    exact ht

/-- Two commands, the first with `CR LF $` as its argument and the second without arguments, cut
inside the argument. -/
theorem commands_survive_cut : ∃ q,
    feedChunks fresh 0 [[42, 49, 13, 10, 36, 51, 13, 10, 13], [10, 36, 13, 10, 42, 48, 13, 10]] =
      some ([.reply 13 (.array [.bytes [13, 10, 36] false]), .reply 17 (.array [])], q) := by
  have hevents : events 0 [⟨[.vector [13, 10, 36]], by decide⟩, ⟨[], by decide⟩] =
      [.reply 13 (.array [.bytes [13, 10, 36] false]), .reply 17 (.array [])] := by decide +kernel
  rw [← hevents]
  exact commands_survive.1 _ _ (by decide +kernel)

end RedisClient.Commands

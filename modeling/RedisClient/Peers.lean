import RedisClient.Commands

/-! # The other end of the connection

A peer sees the bytes that have been sent to it and has written some bytes in turn (`Peer`). A server
is a peer that answers every complete command with one reply, in order (`Server`): what counts as a
complete command is what the grammar reads, and a server that is sent something else stops
answering. On a whole number of commands the server has written exactly their replies
(`out_encs`). A server with subscribers also writes messages, after any of its replies
(`Publisher`). -/

namespace RedisClient.Peers

open RedisClient.Value RedisClient.Lib.Reader RedisClient.Parser.Defs RedisClient.Parser.Machine
open RedisClient.Parser.Grammar RedisClient.Parser.Descent RedisClient.Parser.RoundTrip
open RedisClient.Commands

/-- What a peer has written in all, once it has been sent these bytes. It takes nothing back. -/
structure Peer where
  out : Bytes → Bytes
  mono : ∀ a b, out a <+: out (a ++ b)

/-- A server with states `σ`: a command, as the contents of its items, is answered with one
reply. -/
structure Server (σ : Type) where
  step : σ → List Bytes → σ × Reply

/-! ### Complete commands -/

/-- The contents of a command, where the value is one. -/
def asCommand : RedisValue → Option (List Bytes)
  | .array items => items.mapM fun
    | .bytes b false => some b
    | _ => none
  | _ => none

/-- The commands at the beginning of a string, with a bound on their number. -/
def completeCommands : ℕ → Bytes → List (List Bytes)
  | 0, _ => []
  | n + 1, s =>
    match ref s with
    | .done v rest =>
      match asCommand v with
      | some c => c :: completeCommands n rest
      | none => []
    | _ => []

/-- The complete commands at the beginning of a string. Each takes a byte. -/
def commandsIn (s : Bytes) : List (List Bytes) := completeCommands s.length s

theorem asCommand_value (c : Command) : asCommand c.value = some c.contents := by
  have h : ∀ bs : List Bytes, (bs.map (RedisValue.bytes · false)).mapM (m := Option) (fun
      | .bytes b false => some b
      | _ => none) = some bs := by
    intro bs
    induction bs with
    | nil => rfl
    | cons b bs ih => simp [ih]
  exact h c.contents

theorem ref_eq_reading (s : Bytes) : ref s = reading (run step init s) :=
  agrees_reading (run_reply s.length s init (Nat.le_refl _) (Or.inl rfl))

/-- A reply that has ended stays where it is, whatever follows. -/
theorem ref_append {s rest : Bytes} {v : RedisValue} (h : ref s = .done v rest) (t : Bytes) :
    ref (s ++ t) = .done v (rest ++ t) := by
  rw [ref_eq_reading] at h ⊢
  rcases hx : run step init s with ⟨w, c, r⟩
  rw [hx] at h
  cases w with
  | more => cases h
  | done =>
    cases h
    rw [run_append_stop (by simp) hx]
    rfl
  | fail => cases h

theorem ref_rest {s rest : Bytes} {v : RedisValue} (h : ref s = .done v rest) :
    rest.length < s.length := reply_rest h

theorem completeCommands_prefix : ∀ (n m : ℕ) (s t : Bytes), s.length ≤ n → (s ++ t).length ≤ m →
    completeCommands n s <+: completeCommands m (s ++ t)
  | 0, m, s, t, _, _ => List.nil_prefix
  | n + 1, m, s, t, hn, hm => by
    simp only [completeCommands]
    rcases hx : ref s with ⟨v, rest⟩ | rest | _
    · have hr := ref_rest hx
      simp only [List.length_append] at hm
      obtain ⟨m, rfl⟩ : ∃ k, m = k + 1 := ⟨m - 1, by omega⟩
      simp only [completeCommands, ref_append hx t]
      rcases asCommand v with _ | c
      · exact List.nil_prefix
      · have ih := completeCommands_prefix n m rest t (by omega)
          (by rw [List.length_append]; omega)
        exact List.prefix_cons_inj c |>.mpr ih
    · exact List.nil_prefix
    · exact List.nil_prefix

theorem commandsIn_prefix (s t : Bytes) : commandsIn s <+: commandsIn (s ++ t) :=
  completeCommands_prefix _ _ s t (Nat.le_refl _) (Nat.le_refl _)

theorem completeCommands_encs : ∀ (cs : List Command) (n : ℕ), (encs cs).length ≤ n →
    completeCommands n (encs cs) = cs.map Command.contents
  | [], 0, _ => rfl
  | [], n + 1, _ => rfl
  | c :: cs, n, h => by
    have hpos : 0 < c.enc.length := List.length_pos_iff.mpr (enc_ne_nil c)
    simp only [encs_cons, List.length_append] at h
    obtain ⟨n, rfl⟩ : ∃ k, n = k + 1 := ⟨n - 1, by omega⟩
    rw [encs_cons]
    simp only [completeCommands, ref_command, asCommand_value]
    rw [completeCommands_encs cs n (by omega)]
    rfl

/-- **A stream of commands holds the commands.** -/
theorem commandsIn_encs (cs : List Command) : commandsIn (encs cs) = cs.map Command.contents :=
  completeCommands_encs cs _ (Nat.le_refl _)

/-! ### A server as a peer -/

namespace Server

variable {σ : Type} (srv : Server σ)

/-- The replies to a list of commands. -/
def answers : σ → List (List Bytes) → List Reply
  | _, [] => []
  | s, c :: cs => (srv.step s c).2 :: answers (srv.step s c).1 cs

/-- The state after a list of commands. -/
def after (s : σ) (cs : List (List Bytes)) : σ := cs.foldl (fun s c => (srv.step s c).1) s

theorem answers_append (s : σ) (cs ds : List (List Bytes)) :
    srv.answers s (cs ++ ds) = srv.answers s cs ++ srv.answers (srv.after s cs) ds := by
  induction cs generalizing s with
  | nil => rfl
  | cons c cs ih =>
    have h := ih (srv.step s c).1
    simp only [List.cons_append, answers, h]
    rfl

theorem length_answers (s : σ) (cs : List (List Bytes)) :
    (srv.answers s cs).length = cs.length := by
  induction cs generalizing s with
  | nil => rfl
  | cons c cs ih => simp [answers, ih]

/-- The bytes of a list of replies. -/
def text (rs : List Reply) : Bytes := (rs.map Reply.enc).flatten

@[simp] theorem text_nil : text [] = [] := rfl

@[simp] theorem text_cons (r : Reply) (rs : List Reply) : text (r :: rs) = r.enc ++ text rs := rfl

@[simp] theorem text_append (rs ts : List Reply) : text (rs ++ ts) = text rs ++ text ts := by
  simp [text]

/-- The server, started in the state `s`, as a peer. -/
def peer (s : σ) : Peer where
  out sent := text (srv.answers s (commandsIn sent))
  mono a b := by
    obtain ⟨cs, h⟩ := commandsIn_prefix a b
    rw [← h, answers_append, text_append]
    exact List.prefix_append _ _

theorem out_encs (s : σ) (cs : List Command) :
    (srv.peer s).out (encs cs) = text (srv.answers s (cs.map Command.contents)) := by
  simp only [peer, commandsIn_encs]

end Server

/-! ### A server that also pushes messages -/

/-- A message to a subscriber. -/
inductive IsPush : RedisValue → Prop where
  | message (channel payload : Bytes) : IsPush (.array [.bytes (chars "message") false,
      .bytes channel false, .bytes payload false])
  | pmessage (pattern channel payload : Bytes) : IsPush (.array [.bytes (chars "pmessage") false,
      .bytes pattern false, .bytes channel false, .bytes payload false])

structure Push where
  reply : Reply
  isPush : IsPush reply.value

/-- What such a server writes: the reply to a command, or a message. -/
inductive Item where
  | reply (r : Reply)
  | push (m : Push)

namespace Item

/-- The item as it is written. -/
def written : Item → Reply
  | reply r => r
  | push m => m.reply

def value (i : Item) : RedisValue := i.written.value

/-- The reply, if it is one. -/
def reply? : Item → Option Reply
  | reply r => some r
  | push _ => none

end Item

/-- The command subscribes to a channel or to a pattern. -/
def Subscribes (c : List Bytes) : Prop :=
  c.head? = some (chars "subscribe") ∨ c.head? = some (chars "psubscribe")

instance : DecidablePred Subscribes := fun _ => inferInstanceAs (Decidable (_ ∨ _))

/-- A server with states `σ`: a command is answered with one reply, and some messages may follow it.
Some may also come before it (`early`). -/
structure Publisher (σ : Type) where
  step : σ → List Bytes → σ × Reply × List Push
  early : σ → List Bytes → List Push := fun _ _ => []

namespace Publisher

variable {σ : Type} (pub : Publisher σ)

/-- What is written after a list of commands. -/
def items : σ → List (List Bytes) → List Item
  | _, [] => []
  | s, c :: cs =>
    (pub.early s c).map .push ++ .reply (pub.step s c).2.1 ::
      ((pub.step s c).2.2.map .push ++ items (pub.step s c).1 cs)

/-- The state after a list of commands. -/
def after (s : σ) (cs : List (List Bytes)) : σ := cs.foldl (fun s c => (pub.step s c).1) s

theorem items_append (s : σ) (cs ds : List (List Bytes)) :
    pub.items s (cs ++ ds) = pub.items s cs ++ pub.items (pub.after s cs) ds := by
  induction cs generalizing s with
  | nil => rfl
  | cons c cs ih =>
    have h := ih (pub.step s c).1
    simp only [List.cons_append, items, h, List.append_assoc]
    rfl

/-- The replies among some items. -/
def replies (is : List Item) : List Reply := is.filterMap Item.reply?

@[simp] theorem replies_append (is js : List Item) :
    replies (is ++ js) = replies is ++ replies js := by simp [replies]

@[simp] theorem replies_pushes (ms : List Push) : replies (ms.map .push) = [] := by
  simp [replies, Item.reply?]

theorem replies_map_reply (rs : List Reply) : replies (rs.map .reply) = rs := by
  induction rs with
  | nil => rfl
  | cons r rs ih => exact congrArg (r :: ·) ih

theorem length_replies (s : σ) (cs : List (List Bytes)) :
    (replies (pub.items s cs)).length = cs.length := by
  induction cs generalizing s with
  | nil => rfl
  | cons c cs ih =>
    have h : replies (pub.items s (c :: cs)) =
        (pub.step s c).2.1 :: replies (pub.items (pub.step s c).1 cs) := by
      rw [items, replies_append, replies_pushes, List.nil_append]
      show (pub.step s c).2.1 ::
        replies ((pub.step s c).2.2.map .push ++ pub.items (pub.step s c).1 cs) = _
      rw [replies_append, replies_pushes, List.nil_append]
    rw [h, List.length_cons, ih, List.length_cons]

/-- The bytes of a list of items. -/
def text (is : List Item) : Bytes := Server.text (is.map Item.written)

@[simp] theorem text_nil : text [] = [] := rfl

@[simp] theorem text_cons (i : Item) (is : List Item) : text (i :: is) = i.written.enc ++ text is :=
  rfl

@[simp] theorem text_append (is js : List Item) : text (is ++ js) = text is ++ text js := by
  simp [text]

/-- The server, started in the state `s`, as a peer. -/
def peer (s : σ) : Peer where
  out sent := text (pub.items s (commandsIn sent))
  mono a b := by
    obtain ⟨cs, h⟩ := commandsIn_prefix a b
    rw [← h, items_append, text_append]
    exact List.prefix_append _ _

theorem out_encs (s : σ) (cs : List Command) :
    (pub.peer s).out (encs cs) = text (pub.items s (cs.map Command.contents)) := by
  simp only [peer, commandsIn_encs]

/-- It pushes nothing before a command that subscribes, which is one with the property `S`. -/
def Quiet (S : List Bytes → Prop) (s : σ) : Prop :=
  ∀ cs, (∀ c ∈ cs, ¬ S c) → ∀ i ∈ pub.items s cs, ∃ r, i = .reply r

end Publisher

/-! ### A server that only replies -/

namespace Server

variable {σ : Type} (srv : Server σ)

/-- A server as one that pushes no messages. -/
def publisher : Publisher σ where
  step s c := ((srv.step s c).1, (srv.step s c).2, [])

theorem items_publisher (s : σ) (cs : List (List Bytes)) :
    srv.publisher.items s cs = (srv.answers s cs).map .reply := by
  induction cs generalizing s with
  | nil => rfl
  | cons c cs ih =>
    have h := ih (srv.step s c).1
    show Item.reply (srv.step s c).2 :: ([] ++ srv.publisher.items (srv.step s c).1 cs) = _
    rw [h]
    rfl

theorem quiet_publisher (S : List Bytes → Prop) (s : σ) : srv.publisher.Quiet S s := by
  intro cs _ i hi
  rw [items_publisher, List.mem_map] at hi
  obtain ⟨r, -, rfl⟩ := hi
  exact ⟨r, rfl⟩

theorem peer_publisher (s : σ) : srv.publisher.peer s = srv.peer s := by
  have h : ∀ rs : List Reply, Publisher.text (rs.map .reply) = text rs := by
    intro rs
    simp [Publisher.text, List.map_map, Function.comp_def, Item.written]
  simp only [Publisher.peer, peer, items_publisher, h]

end Server

end RedisClient.Peers

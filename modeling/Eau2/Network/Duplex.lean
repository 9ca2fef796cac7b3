import Eau2.Lib.Run
import Eau2.Network.Message
import Mathlib.Data.PNat.Basic
import Mathlib.Tactic.Simps.Basic

/-!
# Two nodes on one connection

Each side has a `Connection` object over its socket: the application sends
messages with `send_message`, and the handler runs `Connection::run`. The socket
carries bytes, and holds at most `cap b` of them on their way from the side `b`.
Sending a message takes the lock `l_` until all its bytes are written, and
receiving one takes it until all its bytes are read; a `send` and a `recv` of the
system move some bytes at a time, and wait when there is no room, or nothing to
read.

What `handle_message_` does with a message depends on the store of the node
(`Node.handle`): it may send an answer, and it may have to wait until something
is put, which may be by the application of its own node. `KVStore.node` is that
of `connection.h`.

`Flow` is the invariant of each direction: what is on its way is whole messages, the
first of which may be read in part.
-/

namespace Eau2.Duplex

open Serializer

/-- The bytes of a serialized message. -/
structure Packet where
  bytes : Bytes
  length_lt : bytes.length < 2 ^ 64

/-- What `send_message` sends: the number of bytes, and the bytes. -/
def Packet.framed (m : Packet) : Bytes := addSizeT m.bytes.length ++ m.bytes

/-! ## The threads -/

/-- What `handle_message_` does with a message. -/
inductive Outcome (σ : Type)
  /-- It waits for the store to change. -/
  | wait
  /-- It leaves a store, and may send an answer. -/
  | done (store : σ) (reply : Option Packet)
  /-- No message is handled after this one. -/
  | ends

/-- A node, for the threads of a connection: the puts of its application change its
    store, and its handler reads and changes it. -/
structure Node (σ π : Type) where
  put : π → σ → σ
  handle : σ → Bytes → Outcome σ
  /-- What has been put is not waited for. -/
  lasting : ∀ {p st w}, handle (put p st) w = .wait → handle st w = .wait

/-- The threads that send. -/
inductive Thread
  | application
  | handler
  deriving DecidableEq

/-- Who has the lock `l_`. -/
inductive Lock
  | free
  /-- A thread in `send_message`, with the bytes it has not written. -/
  | sending (t : Thread) (left : Bytes)
  /-- The handler in `recv_message`, with the bytes it has read. -/
  | receiving (acc : Bytes)
  deriving DecidableEq

namespace Lock

/-- The bytes that are being sent and not written. -/
def left : Lock → Bytes
  | sending _ left => left
  | free | receiving _ => []

/-- The bytes read of the message that is being received. -/
def acc : Lock → Option Bytes
  | receiving acc => some acc
  | free | sending _ _ => none

/-- The thread that is sending. -/
def sender : Lock → Option Thread
  | sending t _ => some t
  | free | receiving _ => none

@[simp] theorem left_free : free.left = [] := rfl
@[simp] theorem left_sending (t : Thread) (w : Bytes) : (sending t w).left = w := rfl
@[simp] theorem left_receiving (w : Bytes) : (receiving w).left = [] := rfl
@[simp] theorem acc_free : free.acc = none := rfl
@[simp] theorem acc_sending (t : Thread) (w : Bytes) : (sending t w).acc = none := rfl
@[simp] theorem acc_receiving (w : Bytes) : (receiving w).acc = some w := rfl
@[simp] theorem sender_sending (t : Thread) (w : Bytes) : (sending t w).sender = some t := rfl

end Lock

/-- What an application does: it sends a message, or puts something into the store of its
    own node. -/
inductive Task (π : Type)
  | send (m : Packet)
  | put (p : π)

/-- Where the handler stands in `Connection::run`. -/
inductive Handler
  /-- At the head of the loop. -/
  | idle
  /-- In `handle_message_`. -/
  | handling (w : Bytes)
  /-- About to send the answer. -/
  | replying (m : Packet)
  /-- After the loop. -/
  | ended

/-- One side of the connection. -/
structure Side (σ π : Type) where
  /-- What the application has yet to do. -/
  tasks : List (Task π)
  store : σ
  handler : Handler
  lock : Lock

@[ext]
structure State (σ π : Type) where
  side : Bool → Side σ π
  /-- The bytes on their way from a side to the other. -/
  channel : Bool → Bytes

/-- The threads of the side `b` move: the application or the handler takes the lock to
    send, the handler takes it to receive, the thread that has the lock writes or reads
    some bytes, the application puts, and the handler returns from `handle_message_`. -/
inductive Action
  | send (b : Bool)
  | reply (b : Bool)
  | receive (b : Bool)
  | write (b : Bool) (k : Nat)
  | read (b : Bool) (k : Nat)
  | put (b : Bool)
  | handle (b : Bool)

/-- How many more bytes `recv_message` asks for: those of the size, then those of the
    message. -/
def wanted (acc : Bytes) : Nat :=
  if acc.length < 8 then 8 - acc.length else 8 + LittleEndian.decode (acc.take 8) - acc.length

/-- `recv_message` has the whole message. -/
def Complete (acc : Bytes) : Prop := 8 ≤ acc.length ∧ wanted acc = 0

instance (acc : Bytes) : Decidable (Complete acc) := inferInstanceAs (Decidable (_ ∧ _))

namespace State

variable {σ π : Type}

@[simps]
def setSide (s : State σ π) (b : Bool) (d : Side σ π) : State σ π :=
  { s with side := Function.update s.side b d }

@[simps]
def setChannel (s : State σ π) (b : Bool) (w : Bytes) : State σ π :=
  { s with channel := Function.update s.channel b w }

/-- A message is not sent, or not received. -/
def Pending (s : State σ π) : Prop :=
  ∃ b, (∃ m, .send m ∈ (s.side b).tasks) ∨ (∃ m, (s.side b).handler = .replying m) ∨
    (s.side b).lock ≠ .free ∨ s.channel b ≠ []

end State

section
variable {σ π : Type} (cap : Bool → ℕ+) (node : Bool → Node σ π)

/-- The room in the direction from the side `b`. -/
def State.room (s : State σ π) (b : Bool) : Nat := cap b - (s.channel b).length

/-- A move. -/
def step : Action → State σ π → Option (State σ π)
  | .send b, s =>
    match (s.side b).lock, (s.side b).tasks with
    | .free, .send m :: rest =>
      some (s.setSide b { s.side b with tasks := rest, lock := .sending .application m.framed })
    | _, _ => none
  | .reply b, s =>
    match (s.side b).lock, (s.side b).handler with
    | .free, .replying m =>
      some (s.setSide b { s.side b with handler := .idle, lock := .sending .handler m.framed })
    | _, _ => none
  | .receive b, s =>
    -- `has_new_bytes` is checked before the lock is taken, and only this thread reads.
    match (s.side b).lock, (s.side b).handler with
    | .free, .idle =>
      if s.channel (!b) = [] then none
      else some (s.setSide b { s.side b with lock := .receiving [] })
    | _, _ => none
  | .write b k, s =>
    match (s.side b).lock with
    | .sending t left =>
      if 0 < k ∧ k ≤ left.length ∧ k ≤ s.room cap b then
        let lock := if left.drop k = [] then .free else .sending t (left.drop k)
        some ((s.setChannel b (s.channel b ++ left.take k)).setSide b
          { s.side b with lock := lock })
      else none
    | _ => none
  | .read b k, s =>
    match (s.side b).lock with
    | .receiving acc =>
      if 0 < k ∧ k ≤ wanted acc ∧ k ≤ (s.channel (!b)).length then
        let acc' := acc ++ (s.channel (!b)).take k
        let d := if Complete acc' then
            { s.side b with handler := .handling (acc'.drop 8), lock := .free }
          else { s.side b with lock := .receiving acc' }
        some ((s.setChannel (!b) ((s.channel (!b)).drop k)).setSide b d)
      else none
    | _ => none
  | .put b, s =>
    -- Not while the application is in `send_message`.
    match (s.side b).tasks with
    | .put p :: rest =>
      if (s.side b).lock.sender = some .application then none
      else some (s.setSide b
        { s.side b with tasks := rest, store := (node b).put p (s.side b).store })
    | _ => none
  | .handle b, s =>
    match (s.side b).handler with
    | .handling w =>
      match (node b).handle (s.side b).store w with
      | .wait => none
      | .done st reply => some (s.setSide b
          { s.side b with store := st, handler := reply.elim .idle .replying })
      | .ends => some (s.setSide b { s.side b with handler := .ended })
    | _ => none

/-- The applications have something to do, and nothing is on its way. -/
def init (tasks : Bool → List (Task π)) (store : Bool → σ) : State σ π where
  side b := ⟨tasks b, store b, .idle, .free⟩
  channel _ := []

/-- Some thread can move. -/
def Live (s : State σ π) : Prop := ∃ a, (step cap node a s).isSome

/-- The moves, of which no record is kept. -/
def moves (a : Action) (s : State σ π) : Option (State σ π × List Empty) :=
  (step cap node a s).map (·, [])

end

/-! ## The store of a node -/

section
variable (inetNtop : BitVec 32 → Bytes)

open Wire

/-- What `send_message` sends of a message, if it can be serialized. -/
def packetOf (body : Body) : Option Packet := do
  let w ← Message.serialize ⟨⟨0, 0, 0⟩, body⟩
  if h : w.length < 2 ^ 64 then some ⟨w, h⟩ else none

/-- `send_message(&r)` for `Reply r(v)`. -/
def sendReply (items : Items) (v : Value) : Outcome Items :=
  match packetOf (.reply v) with
  | some m => .done items (some m)
  | none => .ends

/-- `handle_message_` of a node, for messages about keys of the node. -/
def handleMessage (items : Items) (w : Bytes) : Outcome Items :=
  match (Message.deserialize inetNtop).run w with
  | some (some m, _) =>
    match m.body with
    | .status _ => .done items none
    | .get k =>
      -- `assert(items_.find(k) != items_.end())`
      match items.find k with
      | some v => sendReply items v
      | none => .ends
    | .put k v => .done (items.put k v) none
    | .waitAndGet k =>
      match items.find k with
      | some v => sendReply items v
      | none => .wait
    -- The reply is pushed to `replies`.
    | .reply _ => .done items none
    | .kill => .ends
    | .register _ _ | .directory _ => .ends
  | _ => .ends

variable {inetNtop}

theorem sendReply_ne_wait (items : Items) (v : Value) : sendReply items v ≠ .wait := by
  unfold sendReply
  split <;> nofun

/-- Nothing but a `WAITANDGET` of an absent key waits. -/
theorem handleMessage_eq_wait_iff {items : Items} {w : Bytes} :
    handleMessage inetNtop items w = .wait ↔ ∃ header k trailing,
      (Message.deserialize inetNtop).run w = some (some ⟨header, .waitAndGet k⟩, trailing) ∧
        items.find k = none := by
  constructor
  · intro h
    unfold handleMessage at h
    split at h
    · next m trailing hrun =>
      obtain ⟨header, body⟩ := m
      cases body with
      | waitAndGet k =>
        refine ⟨header, k, trailing, hrun, ?_⟩
        cases hfind : items.find k with
        | none => rfl
        | some v =>
          simp only [hfind] at h
          exact absurd h (sendReply_ne_wait items v)
      | get k =>
        cases hfind : items.find k with
        | none => simp [hfind] at h
        | some v =>
          simp only [hfind] at h
          exact absurd h (sendReply_ne_wait items v)
      | put _ _ | reply _ | kill | register _ _ | directory _ | status _ => cases h
    · cases h
  · rintro ⟨header, k, trailing, hrun, hfind⟩
    simp [handleMessage, hrun, hfind]

/-- A key that is there stays there. -/
theorem find_put_eq_none {items : Items} {k k' : Key} {v : Value}
    (h : (items.put k v).find k' = none) : items.find k' = none := by
  by_cases hk : k'.k = k.k
  · simp [Items.find, Items.put, hk] at h
  · rwa [Items.put_of_ne items v hk] at h

variable (inetNtop) in
/-- The store of a node and its `handle_message_`. -/
def KVStore.node : Node Items (Key × Value) where
  put p items := items.put p.1 p.2
  handle := handleMessage inetNtop
  lasting h := by
    obtain ⟨header, k, trailing, hrun, hfind⟩ := handleMessage_eq_wait_iff.1 h
    exact handleMessage_eq_wait_iff.2 ⟨header, k, trailing, hrun, find_put_eq_none hfind⟩

end

/-! ## The bytes on their way -/

theorem Packet.length_framed (m : Packet) : m.framed.length = 8 + m.bytes.length := by
  rw [framed, List.length_append, addSizeT, LittleEndian.length_encode]

theorem Packet.framed_ne_nil (m : Packet) : m.framed ≠ [] := by
  have hlen := m.length_framed
  rintro heq
  rw [heq, List.length_nil] at hlen
  omega

/-- The size, once it is read. -/
theorem Packet.decode_take (m : Packet) :
    LittleEndian.decode (m.framed.take 8) = m.bytes.length := by
  have hlen : (addSizeT m.bytes.length).length = 8 := LittleEndian.length_encode 8 _
  rw [framed, List.take_append_of_le_length hlen.ge, List.take_of_length_le hlen.le]
  exact LittleEndian.decode_encode_of_lt m.length_lt

/-- In the middle of a message, `recv_message` asks for no more than the rest of it. -/
theorem wanted_le {acc : Bytes} {m : Packet} (h : acc <+: m.framed) :
    acc.length + wanted acc ≤ m.framed.length := by
  have hlen := m.length_framed
  unfold wanted
  split_ifs with h8
  · omega
  · have htake : acc.take 8 = m.framed.take 8 := by
      obtain ⟨t, ht⟩ := h
      rw [← ht, List.take_append_of_le_length (by omega)]
    have hle := h.length_le
    rw [htake, m.decode_take]
    omega

/-- The message is complete when all of it is read, and not before. -/
theorem complete_iff {acc : Bytes} {m : Packet} (h : acc <+: m.framed) : Complete acc ↔
    acc = m.framed := by
  have hlen := m.length_framed
  have hle := h.length_le
  have hwanted (h8 : 8 ≤ acc.length) : wanted acc = m.framed.length - acc.length := by
    have htake : acc.take 8 = m.framed.take 8 := by
      obtain ⟨t, ht⟩ := h
      rw [← ht, List.take_append_of_le_length h8]
    rw [wanted, if_neg (by omega), htake, m.decode_take, hlen]
  constructor
  · rintro ⟨h8, hzero⟩
    rw [hwanted h8] at hzero
    exact h.eq_of_length (by omega)
  · rintro rfl
    have h8 : 8 ≤ m.framed.length := by omega
    exact ⟨h8, (hwanted h8).trans (Nat.sub_self _)⟩

/-- What is on its way in a direction is whole messages, the first of which may be read
    in part. -/
def Flow (acc : Option Bytes) (chan left : Bytes) : Prop :=
  ∃ ms : List Packet, acc.getD [] ++ chan ++ left = ms.flatMap Packet.framed ∧
    ∀ w, acc = some w → ∃ m rest, ms = m :: rest ∧ w.length < m.framed.length

namespace Flow

variable {acc : Option Bytes} {w chan left : Bytes} {k : Nat}

theorem nil : Flow none [] [] := ⟨[], rfl, nofun⟩

/-- A message is sent. -/
theorem send (h : Flow acc chan []) (m : Packet) : Flow acc chan m.framed := by
  obtain ⟨ms, heq, hfirst⟩ := h
  refine ⟨ms ++ [m], ?_, fun w hw => ?_⟩
  · rw [List.append_nil] at heq
    rw [List.flatMap_append, ← heq, List.flatMap_singleton]
  · obtain ⟨m', rest, rfl, hlt⟩ := hfirst w hw
    exact ⟨m', rest ++ [m], rfl, hlt⟩

/-- Bytes are written. -/
theorem write (h : Flow acc chan left) (k : Nat) :
    Flow acc (chan ++ left.take k) (left.drop k) := by
  obtain ⟨ms, heq, hfirst⟩ := h
  refine ⟨ms, ?_, hfirst⟩
  rw [← heq, List.append_assoc, List.append_assoc, List.append_assoc, List.take_append_drop]

/-- The handler begins to receive, when there is something. -/
theorem receive (h : Flow none chan left) (hne : chan ≠ []) : Flow (some []) chan left := by
  obtain ⟨ms, heq, -⟩ := h
  refine ⟨ms, heq, ?_⟩
  rintro w ⟨⟩
  rcases ms with _ | ⟨m, rest⟩
  · simp [hne] at heq
  · exact ⟨m, rest, rfl, by rw [m.length_framed, List.length_nil]; omega⟩

/-- What is being received is the beginning of a message. -/
theorem exists_isPrefix (h : Flow (some w) chan left) :
    ∃ (m : Packet) (rest : List Packet), w ++ chan ++ left =
      m.framed ++ rest.flatMap Packet.framed ∧
      w <+: m.framed ∧ w.length < m.framed.length := by
  obtain ⟨ms, heq, hfirst⟩ := h
  obtain ⟨m, rest, rfl, hlt⟩ := hfirst w rfl
  rw [Option.getD_some, List.flatMap_cons] at heq
  refine ⟨m, rest, heq, ?_, hlt⟩
  rw [List.append_assoc] at heq
  exact List.prefix_of_prefix_length_le ⟨_, heq⟩ (List.prefix_append _ _) hlt.le

/-- Bytes are read, up to the end of the message. -/
theorem read (h : Flow (some w) chan left) (hk : k ≤ wanted w) (hk' : k ≤ chan.length) :
    if Complete (w ++ chan.take k) then Flow none (chan.drop k) left
    else Flow (some (w ++ chan.take k)) (chan.drop k) left := by
  obtain ⟨m, rest, heq, hp, hlt⟩ := h.exists_isPrefix
  have hsplit : w ++ chan.take k ++ (chan.drop k ++ left) =
      m.framed ++ rest.flatMap Packet.framed := by
    rw [← heq, List.append_assoc, ← List.append_assoc (chan.take k), List.take_append_drop,
      List.append_assoc]
  have hlen : (w ++ chan.take k).length = w.length + k := by
    rw [List.length_append, List.length_take, Nat.min_eq_left hk']
  have hle : (w ++ chan.take k).length ≤ m.framed.length := by
    rw [hlen]
    exact (Nat.add_le_add_left hk _).trans (wanted_le hp)
  have hp' : w ++ chan.take k <+: m.framed :=
    List.prefix_of_prefix_length_le ⟨_, hsplit⟩ (List.prefix_append _ _) hle
  split_ifs with hc
  · rw [(complete_iff hp').1 hc] at hsplit
    exact ⟨rest, List.append_cancel_left hsplit, nofun⟩
  · refine ⟨m :: rest, ?_, ?_⟩
    · rw [Option.getD_some, List.append_assoc, hsplit, List.flatMap_cons]
    · rintro _ ⟨⟩
      refine ⟨m, rest, rfl, lt_of_le_of_ne hle fun heq => hc ?_⟩
      exact (complete_iff hp').2 (hp'.eq_of_length heq)

/-- A message that is received in part is still on its way. -/
theorem ne_nil (h : Flow (some w) chan left) : chan ++ left ≠ [] := by
  obtain ⟨m, rest, heq, -, hlt⟩ := h.exists_isPrefix
  intro hnil
  rw [List.append_assoc, hnil, List.append_nil] at heq
  rw [heq, List.length_append] at hlt
  omega

/-- Nor is a message for which `recv_message` asks for no more. -/
theorem wanted_pos (h : Flow (some w) chan left) : 0 < wanted w := by
  obtain ⟨m, rest, -, hp, hlt⟩ := h.exists_isPrefix
  by_contra! hzero
  have hwanted : wanted w = 0 := by omega
  have h8 : 8 ≤ w.length := by
    unfold wanted at hwanted
    split_ifs at hwanted <;> omega
  exact hlt.ne (congrArg List.length ((complete_iff hp).1 ⟨h8, hwanted⟩))

end Flow

end Eau2.Duplex

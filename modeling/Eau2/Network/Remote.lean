import Eau2.Network.Message
import Eau2.Network.System

/-!
# The local and the remote path

What a call of `KVStore` does when nothing else happens: at the home node of the
key it reads or writes the map; from another node the message is encoded and
decoded, the handler at the home node calls the same method there, and the value
of a `Reply` is encoded and decoded on its way back.

Main result: `KVStore.paths_agree`, the two paths give the same as long as the name and
the value are not empty, and only then: `add_buffer` asserts it on the remote
path, while the local path has no such check.
-/

namespace Eau2.KVStore

open Wire

section
variable (inetNtop : BitVec 32 → Bytes)

/-- `send_message` at one end of a connection, `recv_message` and the constructor
    of the class at the other. -/
def transmit (m : Message) : Option Message := do
  let bytes ← m.serialize
  let (m', _) ← (Message.deserialize inetNtop).run bytes
  m'

/-- `put` called at the node `i`, for the `items_` of every node. The handler of
    another node calls it again, there; `hops` is how often that may happen. -/
def put (hops : Nat) (items : Nat → Items) (i : Nat) (k : Key) (v : Value) : Option (Nat → Items) :=
  if k.node = i then some (Function.update items i ((items i).put k v))
  else match hops with
  | 0 => none
  | hops + 1 => do
    match ← transmit inetNtop ⟨⟨0, 0, 0⟩, .put k v⟩ with
    | ⟨_, .put k' v'⟩ => put hops items k.node k' v'
    | _ => none

/-- The `Reply` of the handler, as `process_reply_` returns it. -/
def reply (result : Value) : Option Value := do
  match ← transmit inetNtop ⟨⟨0, 0, 0⟩, .reply result⟩ with
  | ⟨_, .reply v⟩ => some v
  | _ => none

/-- `get`, and `waitAndGet` when `wait`, called at the node `i`. Where the key is
    absent `get` fails its assertion, and `waitAndGet` waits for ever. -/
def fetch (wait : Bool) (hops : Nat) (items : Nat → Items) (i : Nat) (k : Key) : Option Value :=
  if k.node = i then (items i).find k
  else match hops with
  | 0 => none
  | hops + 1 => do
    match ← transmit inetNtop ⟨⟨0, 0, 0⟩, if wait then .waitAndGet k else .get k⟩ with
    | ⟨_, .get k'⟩ => (fetch false hops items k.node k').bind (reply inetNtop)
    | ⟨_, .waitAndGet k'⟩ => (fetch true hops items k.node k').bind (reply inetNtop)
    | _ => none

def get (hops : Nat) (items : Nat → Items) (i : Nat) (k : Key) : Option Value :=
  fetch inetNtop false hops items i k

def waitAndGet (hops : Nat) (items : Nat → Items) (i : Nat) (k : Key) : Option Value :=
  fetch inetNtop true hops items i k

end

variable {inetNtop : BitVec 32 → Bytes} {hops i : Nat} {items : Nat → Items} {k : Key} {v : Value}

/-- A body that can be sent arrives as it is. -/
theorem transmit_body (body : Body) (h : body.Storable inetNtop) :
    transmit inetNtop ⟨⟨0, 0, 0⟩, body⟩ = some ⟨⟨0, 0, 0⟩, body⟩ := by
  have hs : Message.Storable inetNtop ⟨⟨0, 0, 0⟩, body⟩ :=
    ⟨⟨by norm_num, by norm_num, by norm_num⟩, h⟩
  obtain ⟨w, hw, hdec⟩ := Message.decodes hs
  simp [transmit, hw, hdec.run_eq]

/-- One that cannot be serialized does not. -/
theorem transmit_none {body : Body} (h : body.serialize = none) :
    transmit inetNtop ⟨⟨0, 0, 0⟩, body⟩ = none := by
  simp [transmit, Message.serialize, h]

theorem put_home (h : k.node = i) :
    put inetNtop hops items i k v = some (Function.update items i ((items i).put k v)) := by
  rw [put.eq_def, if_pos h]

theorem fetch_home {wait : Bool} (h : k.node = i) :
    fetch inetNtop wait hops items i k = (items i).find k := by
  rw [fetch.eq_def, if_pos h]

theorem reply_eq (hv : v.Storable) : reply inetNtop v = some v := by
  have hsent : transmit inetNtop ⟨⟨0, 0, 0⟩, .reply v⟩ = some ⟨⟨0, 0, 0⟩, .reply v⟩ :=
    transmit_body _ hv
  simp [reply, hsent]

/-- The remote path of `put`: the map of the home node is written. -/
theorem put_remote (h : k.node ≠ i) (hk : k.Storable) (hv : v.Storable) :
    put inetNtop (hops + 1) items i k v =
      some (Function.update items k.node ((items k.node).put k v)) := by
  have hsent : transmit inetNtop ⟨⟨0, 0, 0⟩, .put k v⟩ = some ⟨⟨0, 0, 0⟩, .put k v⟩ :=
    transmit_body _ ⟨hk, hv⟩
  rw [put.eq_def, if_neg h]
  simp only [hsent, Option.bind_eq_bind, Option.bind_some]
  exact put_home rfl

/-- The remote path of `get` and `waitAndGet`: the value in the map of the home node. -/
theorem fetch_remote {wait : Bool} (h : k.node ≠ i) (hk : k.Storable) (hv : v.Storable)
    (hfind : (items k.node).find k = some v) :
    fetch inetNtop wait (hops + 1) items i k = some v := by
  have hserved (w : Bool) : fetch inetNtop w hops items k.node k = some v :=
    (fetch_home rfl).trans hfind
  rw [fetch.eq_def, if_neg h]
  cases wait with
  | false =>
    have hsent : transmit inetNtop ⟨⟨0, 0, 0⟩, .get k⟩ = some ⟨⟨0, 0, 0⟩, .get k⟩ :=
      transmit_body _ hk
    simp [hsent, hserved, reply_eq hv]
  | true =>
    have hsent : transmit inetNtop ⟨⟨0, 0, 0⟩, .waitAndGet k⟩ = some ⟨⟨0, 0, 0⟩, .waitAndGet k⟩ :=
      transmit_body _ hk
    simp [hsent, hserved, reply_eq hv]

/-- An empty name or value is not put at another node: `add_buffer` asserts there are bytes. -/
theorem put_remote_none (h : k.node ≠ i) (hempty : k.k = [] ∨ v = []) :
    put inetNtop hops items i k v = none := by
  have hser : (Body.put k v).serialize = none := by
    rcases hempty with hk | rfl
    · simp [Body.serialize, Key.serialize, hk, cString, addString_nil]
    · cases hk : k.serialize <;> simp [Body.serialize, hk, Value.serialize, Serializer.addBuffer]
  rw [put.eq_def, if_neg h]
  cases hops with
  | zero => rfl
  | succ hops => simp [transmit_none hser]

/-- What is put is read back at the node that put it exactly if that node is the
    home of the key, or neither the name nor the value is empty. -/
theorem paths_agree (items : Nat → Items) (i hops : Nat) (hname : (0 : UInt8) ∉ k.k)
    (hk : k.k.length < 2 ^ 64) (hnode : k.node < 2 ^ 64) (hv : v.length < 2 ^ 64) :
    (∃ items', put inetNtop (hops + 1) items i k v = some items' ∧
      get inetNtop (hops + 1) items' i k = some v ∧ waitAndGet inetNtop
      (hops + 1) items' i k = some v) ↔
    k.node = i ∨ (k.k ≠ [] ∧ v ≠ []) := by
  constructor
  · rintro ⟨items', hput, -⟩
    by_contra! hne
    have hempty : k.k = [] ∨ v = [] := or_iff_not_imp_left.2 hne.2
    rw [put_remote_none hne.1 hempty] at hput
    cases hput
  · intro h
    by_cases hi : k.node = i
    · refine ⟨_, put_home hi, ?_, ?_⟩
      · rw [get, fetch_home hi, Function.update_self, Items.put_self]
      · rw [waitAndGet, fetch_home hi, Function.update_self, Items.put_self]
    · obtain ⟨hne, hne'⟩ := h.resolve_left hi
      have hk : k.Storable := ⟨hne, hname, hk, hnode⟩
      have hv : v.Storable := ⟨hne', hv⟩
      have hfind : (Function.update items k.node ((items k.node).put k v) k.node).find k =
          some v := by
        rw [Function.update_self, Items.put_self]
      exact ⟨_, put_remote hi hk hv, fetch_remote hi hk hv hfind, fetch_remote hi hk hv hfind⟩

theorem paths_agree_remote :
    ∃ items', put Message.dottedDecimal 1 (fun _ _ => none) 1 ⟨lit "k", 0⟩ [7] = some items' ∧
      get Message.dottedDecimal 1 items' 1 ⟨lit "k", 0⟩ = some [7] ∧
      waitAndGet Message.dottedDecimal 1 items' 1 ⟨lit "k", 0⟩ = some [7] :=
  (paths_agree _ 1 0 (by decide) (by decide) (by decide) (by decide)).2
    (Or.inr ⟨by decide, by decide⟩)

/-- The empty value, put by the node 1 at a key of the node 0. -/
theorem paths_agree_fails :
    ¬ ∀ (i : Nat) (k : Key) (v : Value), (0 : UInt8) ∉ k.k → k.k.length < 2 ^ 64 → k.node < 2 ^ 64 →
      v.length < 2 ^ 64 → ∃ hops items', put Message.dottedDecimal hops (fun _ _ => none) i k v =
        some items' ∧
        get Message.dottedDecimal hops items' i k = some v ∧
        waitAndGet Message.dottedDecimal hops items' i k = some v := by
  intro h
  obtain ⟨hops, items', hput, -⟩ :=
    h 1 ⟨lit "k", 0⟩ [] (by decide) (by decide) (by decide) (by decide)
  rw [put_remote_none (by decide) (Or.inr rfl)] at hput
  cases hput

/-! ## The messages of the system -/

/-- The message on the wire. -/
def toWire : Network.Message → Message
  | .put k v => ⟨⟨0, 0, 0⟩, .put k v⟩
  | .get k => ⟨⟨0, 0, 0⟩, .get k⟩
  | .waitAndGet k => ⟨⟨0, 0, 0⟩, .waitAndGet k⟩
  | .reply v => ⟨⟨0, 0, 0⟩, .reply v⟩

/-- Its names are C strings, and its numbers and lengths are `size_t`. -/
def WellTyped : Network.Message → Prop
  | .put k v => (0 : UInt8) ∉ k.k ∧ k.k.length < 2 ^ 64 ∧ k.node < 2 ^ 64 ∧ v.length < 2 ^ 64
  | .get k | .waitAndGet k => (0 : UInt8) ∉ k.k ∧ k.k.length < 2 ^ 64 ∧ k.node < 2 ^ 64
  | .reply v => v.length < 2 ^ 64

/-- The channels of the system may carry messages instead of bytes: a message that can
    be sent arrives as it is. -/
theorem transmit_toWire {m : Network.Message} (hm : WellTyped m) (h : m.Sendable) :
    transmit inetNtop (toWire m) = some (toWire m) := by
  cases m with
  | put k v => exact transmit_body (.put k v) ⟨⟨h.1, hm.1, hm.2.1, hm.2.2.1⟩, h.2, hm.2.2.2⟩
  | get k => exact transmit_body (.get k) ⟨h, hm.1, hm.2.1, hm.2.2⟩
  | waitAndGet k => exact transmit_body (.waitAndGet k) ⟨h, hm.1, hm.2.1, hm.2.2⟩
  | reply v => exact transmit_body (.reply v) ⟨h, hm⟩

end Eau2.KVStore

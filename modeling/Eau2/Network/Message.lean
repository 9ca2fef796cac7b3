import Eau2.Store.Key

/-!
# Messages on the wire

A message is sent as its kind (`MsgType`, an `int`), the fields of `Message`, and
what its class adds to them; the receiver reads the kind first, then calls the
constructor of the class for that kind (`Message.ofKind`). An address is sent
as its bytes and port: its text is made again with `inet_ntop`, which is a
parameter here.

Main result: `Message.decodes`, the constructor reads back the message from its
encoding, whatever follows it. So no encoding is a proper prefix of another.
-/

namespace Eau2.Wire

open Serializer Deserializer

/-- The kind of a message. -/
inductive MsgType
  | put
  | get
  | waitAndGet
  | reply
  | kill
  | register
  | directory
  | status
  deriving DecidableEq

namespace MsgType

/-- The underlying `int`: the enumerators are numbered from 0. -/
def toInt : MsgType → BitVec 32
  | put => 0
  | get => 1
  | waitAndGet => 2
  | reply => 3
  | kill => 4
  | register => 5
  | directory => 6
  | status => 7

/-- The enumerator of an `int`, if there is one. -/
def ofInt (n : BitVec 32) : Option MsgType :=
  [put, get, waitAndGet, reply, kill, register, directory, status].find? (·.toInt == n)

@[simp] theorem ofInt_toInt (t : MsgType) : ofInt t.toInt = some t := by
  cases t <;> rfl

end MsgType

/-- `Serializer::add_msg_type`. -/
def addMsgType (val : MsgType) : Bytes := addInt val.toInt

/-- `Deserializer::get_msg_type`. An `int` that is no enumerator is `none`. -/
def getMsgType : Deserializer (Option MsgType) := MsgType.ofInt <$> getInt

theorem decodes_msgType (t : MsgType) : Decodes getMsgType (addMsgType t) (some t) := by
  have h := (decodes_int t.toInt).map MsgType.ofInt
  rwa [MsgType.ofInt_toInt] at h

/-- An address: its text, its bytes in network order, and the port. -/
structure Address where
  ipStr : Bytes
  ipBytes : BitVec 32
  port : BitVec 16
  deriving DecidableEq

namespace Address

/-- `serialize`: the text is left out. -/
def serialize (a : Address) : Bytes := addUint32 a.ipBytes ++ addUint16 a.port

/-- `Address(Deserializer *d)`. -/
def deserialize (inetNtop : BitVec 32 → Bytes) : Deserializer Address := do
  let ipBytes ← getUint32
  let port ← getUint16
  return ⟨inetNtop ipBytes, ipBytes, port⟩

/-- The text of the address is that of its bytes. -/
def Canonical (inetNtop : BitVec 32 → Bytes) (a : Address) : Prop := a.ipStr = inetNtop a.ipBytes

instance (inetNtop : BitVec 32 → Bytes) : DecidablePred (Canonical inetNtop) :=
  fun a => inferInstanceAs (Decidable (a.ipStr = inetNtop a.ipBytes))

theorem decodes {inetNtop : BitVec 32 → Bytes} {a : Address} (h : a.Canonical inetNtop) :
    Decodes (deserialize inetNtop) a.serialize a := by
  have ha : (⟨inetNtop a.ipBytes, a.ipBytes, a.port⟩ : Address) = a := by
    rw [← show a.ipStr = inetNtop a.ipBytes from h]
  have hport := (decodes_uint16 a.port).read (Address.mk (inetNtop a.ipBytes) a.ipBytes)
  rw [ha] at hport
  exact (decodes_uint32 a.ipBytes).bind hport

end Address

/-- The fields of `Message`, after its kind. -/
structure Header where
  sender : Nat
  target : Nat
  id : Nat
  deriving DecidableEq

namespace Header

def serialize (h : Header) : Bytes := addSizeT h.sender ++ addSizeT h.target ++ addSizeT h.id

/-- `Message(MsgType t, Deserializer* d)`, which has the kind already. -/
def deserialize : Deserializer Header := do
  let sender ← getSizeT
  let target ← getSizeT
  let id ← getSizeT
  return ⟨sender, target, id⟩

/-- Its numbers are `size_t`. -/
structure Storable (h : Header) : Prop where
  sender_lt : h.sender < 2 ^ 64
  target_lt : h.target < 2 ^ 64
  id_lt : h.id < 2 ^ 64

theorem decodes {h : Header} (hs : h.Storable) : Decodes deserialize h.serialize h := by
  rw [serialize, List.append_assoc]
  have hid := (decodes_sizeT hs.id_lt).read (Header.mk h.sender h.target)
  exact (decodes_sizeT hs.sender_lt).bind ((decodes_sizeT hs.target_lt).bind hid)

end Header

/-- What the class of a message adds to these. The `Message` itself is sent for
    `KILL` only. The directory has a null pointer where there is no address. -/
inductive Body
  | put (k : Key) (v : Value)
  | get (k : Key)
  | waitAndGet (k : Key)
  | reply (v : Value)
  | kill
  | register (nodeNum : Nat) (clientAddr : Address)
  | directory (clientAddrs : List (Option Address))
  | status (message : Bytes)
  deriving DecidableEq

/-- A `Message`, with its class. -/
structure Message where
  header : Header
  body : Body
  deriving DecidableEq

namespace Body

/-- `kind_`, as the constructors set it. -/
def kind : Body → MsgType
  | put .. => .put
  | get _ => .get
  | waitAndGet _ => .waitAndGet
  | reply _ => .reply
  | kill => .kill
  | register .. => .register
  | directory _ => .directory
  | status _ => .status

/-- What `serialize` of the class adds to `Message::serialize`. -/
def serialize : Body → Option Bytes
  | put k v => do
    let key ← k.serialize
    let value ← v.serialize
    return key ++ value
  | get k | waitAndGet k => k.serialize
  | reply v => v.serialize
  | kill => some []
  | register nodeNum clientAddr => some (addSizeT nodeNum ++ clientAddr.serialize)
  | directory clientAddrs => do
    let addrs ← clientAddrs.mapM fun addr => addr.map Address.serialize
    return addSizeT clientAddrs.length ++ addrs.flatten
  | status message => addString message

end Body

/-! ## The constructors from a `Deserializer` -/

def Put.deserialize : Deserializer Message := do
  let header ← Header.deserialize
  let k ← Key.deserialize
  let v ← Value.deserialize
  return ⟨header, .put k v⟩

def Get.deserialize : Deserializer Message := do
  let header ← Header.deserialize
  let k ← Key.deserialize
  return ⟨header, .get k⟩

def WaitAndGet.deserialize : Deserializer Message := do
  let header ← Header.deserialize
  let k ← Key.deserialize
  return ⟨header, .waitAndGet k⟩

def Reply.deserialize : Deserializer Message := do
  let header ← Header.deserialize
  let v ← Value.deserialize
  return ⟨header, .reply v⟩

def Kill.deserialize : Deserializer Message := do
  let header ← Header.deserialize
  return ⟨header, .kill⟩

section
variable (inetNtop : BitVec 32 → Bytes)

def Register.deserialize : Deserializer Message := do
  let header ← Header.deserialize
  let nodeNum ← getSizeT
  let clientAddr ← Address.deserialize inetNtop
  return ⟨header, .register nodeNum clientAddr⟩

def Directory.deserialize : Deserializer Message := do
  let header ← Header.deserialize
  let numAddrs ← getSizeT
  let addrs ← (Address.deserialize inetNtop).times numAddrs
  return ⟨header, .directory (addrs.map some)⟩

def Status.deserialize : Deserializer Message := do
  let header ← Header.deserialize
  let message ← getString
  return ⟨header, .status message⟩

end

namespace Message

/-- `kind_`. -/
def kind (m : Message) : MsgType := m.body.kind

/-- `serialize`. -/
def serialize (m : Message) : Option Bytes := do
  let body ← m.body.serialize
  return addMsgType m.kind ++ m.header.serialize ++ body

/-- The constructor of the class for a kind. -/
def ofKind (inetNtop : BitVec 32 → Bytes) : MsgType → Deserializer Message
  | .put => Put.deserialize
  | .get => Get.deserialize
  | .waitAndGet => WaitAndGet.deserialize
  | .reply => Reply.deserialize
  | .kill => Kill.deserialize
  | .register => Register.deserialize inetNtop
  | .directory => Directory.deserialize inetNtop
  | .status => Status.deserialize

end Message

/-! ## Reading a message back -/

/-- A body that can be sent, its addresses having the text of their bytes. -/
def Body.Storable (inetNtop : BitVec 32 → Bytes) : Body → Prop
  | put k v => k.Storable ∧ v.Storable
  | get k | waitAndGet k => k.Storable
  | reply v => v.Storable
  | kill => True
  | register nodeNum clientAddr => nodeNum < 2 ^ 64 ∧ clientAddr.Canonical inetNtop
  | directory clientAddrs =>
    clientAddrs.length < 2 ^ 64 ∧ ∀ a ∈ clientAddrs, ∃ addr, a = some addr ∧ addr.Canonical inetNtop
  | status message => message ≠ [] ∧ message.length < 2 ^ 64

/-- A directory without null pointers can be serialized. -/
theorem Body.serialize_directory (addrs : List Address) :
    (directory (addrs.map some)).serialize =
      some (addSizeT addrs.length ++ addrs.flatMap Address.serialize) := by
  have hser : (addrs.map some).mapM (fun addr => addr.map Address.serialize) =
      some (addrs.map Address.serialize) := by
    rw [List.mapM_map]
    exact List.mapM_eq_some_map fun _ _ => rfl
  rw [serialize, hser, List.length_map]
  rfl

/-- The addresses of a directory, none of which is null. -/
theorem exists_map_some {inetNtop : BitVec 32 → Bytes} {clientAddrs : List (Option Address)}
    (h : ∀ a ∈ clientAddrs, ∃ addr, a = some addr ∧ addr.Canonical inetNtop) :
    ∃ addrs : List Address, clientAddrs = addrs.map some ∧
    ∀ addr ∈ addrs, addr.Canonical inetNtop := by
  induction clientAddrs with
  | nil => exact ⟨[], rfl, nofun⟩
  | cons a clientAddrs ih =>
    rw [List.forall_mem_cons] at h
    obtain ⟨⟨addr, rfl, haddr⟩, hrest⟩ := h
    obtain ⟨addrs, rfl, haddrs⟩ := ih hrest
    exact ⟨addr :: addrs, rfl, List.forall_mem_cons.2 ⟨haddr, haddrs⟩⟩

namespace Message

variable {inetNtop : BitVec 32 → Bytes} {m : Message}

/-- A message that can be sent. -/
structure Storable (inetNtop : BitVec 32 → Bytes) (m : Message) : Prop where
  header : m.header.Storable
  body : m.body.Storable inetNtop

/-- After the kind, the constructor of its class reads the message back. -/
theorem decodes_ofKind (h : m.Storable inetNtop) :
    ∃ w, m.body.serialize = some w ∧
      Decodes (ofKind inetNtop m.kind) (m.header.serialize ++ w) m := by
  obtain ⟨header, body⟩ := m
  obtain ⟨hh, hb⟩ := h
  have hheader := Header.decodes hh
  cases body with
  | put k v =>
    refine ⟨k.encode ++ v.encode, ?_, hheader.bind ?_⟩
    · rw [Body.serialize, Key.serialize_eq hb.1, Value.serialize_eq hb.2.ne_nil]
      rfl
    · exact (Key.decodes hb.1).bind ((Value.decodes hb.2).read fun v => mk header (.put k v))
  | get k =>
    refine ⟨k.encode, Key.serialize_eq hb, hheader.bind ?_⟩
    exact (Key.decodes hb).read fun k => mk header (.get k)
  | waitAndGet k =>
    refine ⟨k.encode, Key.serialize_eq hb, hheader.bind ?_⟩
    exact (Key.decodes hb).read fun k => mk header (.waitAndGet k)
  | reply v =>
    refine ⟨v.encode, Value.serialize_eq hb.ne_nil, hheader.bind ?_⟩
    exact (Value.decodes hb).read fun v => mk header (.reply v)
  | kill =>
    refine ⟨[], rfl, ?_⟩
    rw [List.append_nil]
    exact hheader.read fun header => mk header .kill
  | register nodeNum clientAddr =>
    refine ⟨_, rfl, hheader.bind ((decodes_sizeT hb.1).bind ?_)⟩
    exact (Address.decodes hb.2).read fun clientAddr => mk header (.register nodeNum clientAddr)
  | directory clientAddrs =>
    -- a directory that is sent has no null pointer
    obtain ⟨addrs, rfl, haddrs⟩ := exists_map_some hb.2
    have hlen := hb.1
    rw [List.length_map] at hlen
    refine ⟨addSizeT addrs.length ++ addrs.flatMap Address.serialize, ?_, hheader.bind
      ((decodes_sizeT hlen).bind ?_)⟩
    · exact Body.serialize_directory addrs
    · have hall := Decodes.times fun a ha => Address.decodes (haddrs a ha)
      exact hall.read fun addrs => mk header (.directory (addrs.map some))
  | status message =>
    refine ⟨_, addString_eq hb.1, hheader.bind ?_⟩
    exact (decodes_string hb.1 hb.2).read fun message => mk header (.status message)

/-- Reading a message: its kind, then the rest of it. -/
def deserialize (inetNtop : BitVec 32 → Bytes) : Deserializer (Option Message) := do
  match ← getMsgType with
  | none => return none
  | some t => some <$> ofKind inetNtop t

/-- A message as a whole, from its encoding. -/
theorem decodes (h : m.Storable inetNtop) :
    ∃ w, m.serialize = some w ∧ Decodes (deserialize inetNtop) w (some m) := by
  obtain ⟨w, hw, hdec⟩ := decodes_ofKind h
  refine ⟨addMsgType m.kind ++ m.header.serialize ++ w, ?_, ?_⟩
  · rw [serialize, hw]
    rfl
  · rw [List.append_assoc]
    exact (decodes_msgType m.kind).bind (hdec.map some)

/-- The kind of a message and then the constructor for it rebuild the message from its
    encoding, leaving what follows; no encoding is a prefix of that of another message. -/
theorem roundTrip (h : m.Storable inetNtop) :
    ∃ w, m.serialize = some w ∧
      (∀ trailing, ∃ unread, getMsgType.run (w ++ trailing) = some (some m.kind, unread) ∧
        (ofKind inetNtop m.kind).run unread = some (m, trailing)) ∧
      ∀ m' w', m'.Storable inetNtop → m'.serialize = some w' → m' ≠ m → ¬ w <+: w' ∧
      ¬ w' <+: w := by
  obtain ⟨body, hbody, hdec⟩ := decodes_ofKind h
  obtain ⟨w, hw, hall⟩ := decodes h
  have heq : w = addMsgType m.kind ++ (m.header.serialize ++ body) := by
    rw [serialize, hbody] at hw
    exact (Option.some.inj hw).symm.trans (List.append_assoc _ _ _)
  refine ⟨w, hw, fun trailing => ⟨m.header.serialize ++ body ++ trailing, ?_, hdec trailing⟩, ?_⟩
  · rw [heq, List.append_assoc]
    exact decodes_msgType m.kind _
  · intro m' w' h' hw' hne
    obtain ⟨w'', hw'', hall'⟩ := decodes h'
    obtain rfl : w' = w'' := Option.some.inj (hw'.symm.trans hw'')
    constructor
    · intro hp
      exact hne (Option.some.inj (hall.eq_of_isPrefix hall' hp).2).symm
    · intro hp
      exact hne (Option.some.inj (hall'.eq_of_isPrefix hall hp).2)

/-- The text of an address in `inet_ntop`: its bytes, in memory order, in decimal. -/
def dottedDecimal (addr : BitVec 32) : Bytes :=
  List.intercalate (lit ".") ((LittleEndian.encode 4 addr.toNat).map fun b => decimal b.toNat)

/-- The directory of two nodes, the second at `127.0.0.1`. -/
def localhost : Message :=
  ⟨⟨0, 0, 0⟩, .directory [some ⟨lit "1.2.3.4", 0x04030201, 8080⟩,
    some ⟨lit "127.0.0.1", 0x0100007f, 8081⟩]⟩

theorem localhost_storable : localhost.Storable dottedDecimal := by
  refine ⟨⟨by decide, by decide, by decide⟩, by decide, ?_⟩
  rintro a ha
  rcases List.mem_pair.1 ha with rfl | rfl
  · exact ⟨_, rfl, by decide⟩
  · exact ⟨_, rfl, by decide⟩

theorem roundTrip_localhost :
    ∃ w, localhost.serialize = some w ∧ w.length = 48 ∧
      ∀ trailing, ∃ unread, getMsgType.run (w ++ trailing) = some (some .directory, unread) ∧
        (ofKind dottedDecimal .directory).run unread = some (localhost, trailing) := by
  obtain ⟨w, hw, hall, -⟩ := roundTrip localhost_storable
  refine ⟨w, hw, ?_, hall⟩
  cases hw
  rfl

end Message

end Eau2.Wire

import Eau2.Util.Serial

/-!
# Keys, values and the map of a store

A key of the store has a name and the number of its home node. Two keys are
compared, and hashed, by their names only (`Key.equals`), so the map of a store
(`Items`) is a map on names; an entry keeps the key it was created with.
-/

namespace Eau2

/-- A key of the store: `k_` and `node_`. -/
@[ext]
structure Key where
  k : Bytes
  node : Nat
  deriving DecidableEq

/-- The bytes of a value: `blob_`, of length `size_`. -/
abbrev Value := Bytes

namespace Key

/-- `Key(const char* k, size_t node)`. -/
def ofCStr (k : Bytes) (node : Nat) : Key := ⟨cString k, node⟩

/-- `Key()`. -/
def empty : Key := ofCStr [] 0

/-- `Key::equals`, `operator==`: the home node takes no part. -/
def equals (k k' : Key) : Bool := k.k == k'.k

theorem equals_iff {k k' : Key} : k.equals k' = true ↔ k.k = k'.k := beq_iff_eq

/-- `serialize`: the name goes through a C string. -/
def serialize (k : Key) : Option Bytes := do
  let name ← Serializer.addString (cString k.k)
  return name ++ Serializer.addSizeT k.node

/-- `Key(Deserializer* d)`. -/
def deserialize : Deserializer Key := do
  let temp ← Deserializer.getString
  let node ← Deserializer.getSizeT
  return ofCStr temp node

/-- The encoding of a key. -/
def encode (k : Key) : Bytes :=
  Serializer.addSizeT k.k.length ++ k.k ++ Serializer.addSizeT k.node

/-- A key that can be serialized: its name is a non-empty C string, and its
    numbers are `size_t`. -/
structure Storable (k : Key) : Prop where
  ne_nil : k.k ≠ []
  not_mem : (0 : UInt8) ∉ k.k
  length_lt : k.k.length < 2 ^ 64
  node_lt : k.node < 2 ^ 64

theorem serialize_eq {k : Key} (h : k.Storable) : k.serialize = some k.encode := by
  rw [serialize, cString_of_not_mem h.not_mem, addString_eq h.ne_nil]
  rfl

theorem decodes {k : Key} (h : k.Storable) : Decodes deserialize k.encode k := by
  have hk : ofCStr k.k k.node = k := by rw [ofCStr, cString_of_not_mem h.not_mem]
  have hnode := (decodes_sizeT h.node_lt).read (ofCStr k.k)
  rw [hk] at hnode
  exact (decodes_string h.ne_nil h.length_lt).bind hnode

end Key

namespace Value

/-- `serialize`. -/
def serialize (v : Value) : Option Bytes := do
  let blob ← Serializer.addBuffer v
  return Serializer.addSizeT v.length ++ blob

/-- `Value(Deserializer* d)`. -/
def deserialize : Deserializer Value := do
  let size ← Deserializer.getSizeT
  Deserializer.getBuffer size

/-- The encoding of a value. -/
def encode (v : Value) : Bytes := Serializer.addSizeT v.length ++ v

/-- A value that can be serialized: it is not empty, and its length is a `size_t`. -/
structure Storable (v : Value) : Prop where
  ne_nil : v ≠ []
  length_lt : v.length < 2 ^ 64

theorem serialize_eq {v : Value} (h : v ≠ []) : v.serialize = some v.encode := by
  simp [serialize, encode, Serializer.addBuffer, h]

theorem decodes {v : Value} (h : v.Storable) : Decodes deserialize v.encode v :=
  decodes_string h.ne_nil h.length_lt

end Value

/-- An entry of `items_`: the key stored and its value. -/
structure Item where
  key : Key
  value : Value
  deriving DecidableEq

/-- `items_`, an `unordered_map<Key, Value*>`: the entry of a name. -/
abbrev Items := Bytes → Option Item

namespace Items

/-- The value at `k`, if the map has it: `items_.find(k)`. -/
def find (m : Items) (k : Key) : Option Value := (m k.k).map (·.value)

/-- The branch of `KVStore::put` for a key of this node: the value of an entry
    is replaced, keeping its key, or an entry is created. -/
def put (m : Items) (k : Key) (v : Value) : Items :=
  Function.update m k.k (some ⟨((m k.k).map (·.key)).getD k, v⟩)

@[simp] theorem put_self (m : Items) (k : Key) (v : Value) : (m.put k v).find k = some v := by
  simp [find, put]

theorem put_of_ne (m : Items) {k k' : Key} (v : Value) (h : k'.k ≠ k.k) :
    (m.put k v).find k' = m.find k' := by
  simp [find, put, h]

/-- All the entries of the map have keys of the node `i`. -/
def Home (m : Items) (i : Nat) : Prop := ∀ name it, m name = some it → it.key = ⟨name, i⟩

theorem Home.put {m : Items} {i : Nat} (h : m.Home i) {k : Key} (hk : k.node = i) (v : Value) :
    (m.put k v).Home i := by
  intro name it hit
  by_cases hn : name = k.k
  · subst hn
    rw [Items.put, Function.update_self, Option.some.injEq] at hit
    subst hit
    cases hm : m k.k with
    | none => simp [← hk]
    | some it' => simpa using h _ _ hm
  · rw [Items.put, Function.update_of_ne hn] at hit
    exact h _ _ hit

end Items

end Eau2

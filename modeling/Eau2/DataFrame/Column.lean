import Eau2.Lib.Chunk
import Eau2.Lib.Prog
import Eau2.Store.Key
import Eau2.Util.Array

/-!
# Columns

A column is a sequence of values of one type, cut into segments. A segment is an
array of at most `segment_capacity_` values, stored under a key of its own; the
keys go round the nodes of the store. The values pushed last are in `cache_`,
put in the store when the segment is full and when the column is finalized. From
then on `cache_` is the segment read last, and `cache_key_` its key.

The four classes of columns differ in the array they use and, the one of
integers aside, in the type of the index in a segment: they keep it in an `int`
(`ColType.indexInSeg`).

A method that uses the store is a program on it (`Prog`). Reading out of a
vector fails, as an assertion does. Counts of elements are natural numbers: a
column of `2 ^ 64` values does not fit in the memory of a node.
-/

namespace Eau2

/-- `ColumnType`, without `UNKNOWN`. -/
inductive ColType
  | string
  | int
  | double
  | bool
  deriving DecidableEq

namespace ColType

/-- The values of a column. A double is its eight bytes. -/
abbrev Elem : ColType → Type
  | string => Str
  | int => BitVec 32
  | double => BitVec 64
  | bool => Bool

/-- `get_type()`: `'S'`, `'I'`, `'D'` or `'B'`. -/
def getType : ColType → UInt8
  | string => 83
  | int => 73
  | double => 68
  | bool => 66

/-- `serialize` of the array of the column. -/
def serializeArray : (t : ColType) → BaseArray t.Elem → Option Bytes
  | string => StringArray.serialize
  | int => IntArray.serialize
  | double => DoubleArray.serialize
  | bool => BoolArray.serialize

/-- The constructor from a `Deserializer` of the array of the column. -/
def deserializeArray : (t : ColType) → Deserializer (BaseArray t.Elem)
  | string => StringArray.deserialize
  | int => IntArray.deserialize
  | double => DoubleArray.deserialize
  | bool => BoolArray.deserialize

/-- The index passed to the array for the index `j` in a segment. It is a
    `size_t` in `IntColumn`; the other columns have `int index_in_seg`, which
    is converted to `size_t` again. -/
def indexInSeg : ColType → Nat → Nat
  | int, j => j
  | string, j | double, j | bool, j => ((BitVec.ofNat 32 j).signExtend 64).toNat

end ColType

/-- `DEFAULT_SEGMENT_CAPACITY`. -/
def defaultSegmentCapacity : Nat := 5242880 * 2

/-- `ALPHA`, with the NUL that ends it. -/
def alpha : Bytes := lit "ABCDEFGHIJKLMNOPQRSTUVWXYZabcdefghijklmnopqrstuvwxyz" ++ [0]

/-- `col_id_`, of the ten numbers drawn: `StrBuff::c` appends a C string, which
    is empty for the number of the NUL. -/
def colId (draws : Fin 10 → Fin 53) : Bytes :=
  (List.ofFn draws).flatMap fun i : Fin 53 => cString [alpha.getD i 0]

/-- The name of the segment `j`, as `snprintf(buffer, 15, "%s_%zu", ..)` leaves it. -/
def segName (id : Bytes) (j : Nat) : Bytes := (cString id ++ lit "_" ++ decimal j).take 14

/-- A `Column` and the array of its class. -/
structure Column (t : ColType) where
  segments : List Key
  finalized : Bool
  size : Nat
  colId : Bytes
  cache : BaseArray t.Elem
  cacheKey : Key
  currNode : Nat
  segmentCapacity : Nat

abbrev StringColumn := Column .string
abbrev IntColumn := Column .int
abbrev DoubleColumn := Column .double
abbrev BoolColumn := Column .bool

namespace Column

variable {t : ColType}

/-- `Column::expand_`, in a store of `numNodes` nodes. -/
def expandBase (numNodes : Nat) (col : Column t) : Column t :=
  { col with
    segments := col.segments ++ [Key.ofCStr (segName col.colId col.segments.length) col.currNode]
    currNode := (col.currNode + 1) % numNodes }

/-- `expand_` of the classes of columns: a new cache besides. -/
def expand (numNodes : Nat) (col : Column t) : Column t :=
  { col.expandBase numNodes with cache := .ofCapacity col.segmentCapacity }

/-- `Column(KVStore* store, size_t segment_capacity)`, and the cache of its class. -/
def new (t : ColType) (numNodes : Nat) (draws : Fin 10 → Fin 53) (segmentCapacity : Nat) :
    Column t :=
  expandBase numNodes
    { segments := [], finalized := false, size := 0, colId := Eau2.colId draws,
      cache := .ofCapacity segmentCapacity, cacheKey := .empty, currNode := 0, segmentCapacity }

/-- `put_in_store_`. -/
def putInStore (col : Column t) : Prog Key Value Unit := do
  let v ← Prog.ofOption (t.serializeArray col.cache)
  let k ← Prog.ofOption col.segments.getLast?
  Prog.put k v (pure ())

/-- The part of `push_back` that makes room for a value. -/
def makeRoom (numNodes : Nat) (col : Column t) : Prog Key Value (Column t) :=
  if col.size = col.segments.length * col.segmentCapacity then do
    col.putInStore
    pure (col.expand numNodes)
  else
    pure col

/-- `push_back`. -/
def pushBack (numNodes : Nat) (col : Column t) (val : t.Elem) : Prog Key Value (Column t) := do
  Prog.assert (col.finalized = false)
  let col ← col.makeRoom numNodes
  let cache ← Prog.ofOption (col.cache.pushBack val)
  pure { col with cache := cache, size := col.size + 1 }

/-- `finalize`. -/
def finalize (col : Column t) : Prog Key Value (Column t) :=
  if col.finalized then
    pure col
  else do
    col.putInStore
    pure { col with finalized := true }

/-- The part of `get` that makes `cache_` the segment `k`. -/
def fetch (col : Column t) (k : Key) : Prog Key Value (Column t) :=
  if k.equals col.cacheKey then
    pure col
  else
    Prog.get k fun v => do
      let cache ← Prog.ofOption ((t.deserializeArray.run v).map Prod.fst)
      pure { col with cache := cache, cacheKey := k }

/-- `get`. -/
def get (col : Column t) (idx : Nat) : Prog Key Value (t.Elem × Column t) := do
  Prog.assert (idx < col.size)
  Prog.assert (col.finalized = true)
  let k ← Prog.ofOption col.segments[idx / col.segmentCapacity]?
  let col ← col.fetch k
  let x ← Prog.ofOption (col.cache.get (t.indexInSeg (idx % col.segmentCapacity)))
  pure (x, col)

/-- The rows that `local_indices` lists for the segment `i`. -/
def segIndices (col : Column t) (i : Nat) : List Nat :=
  List.range' (i * col.segmentCapacity)
    (if i < col.segments.length - 1 ∨ col.size % col.segmentCapacity = 0 then
      col.segmentCapacity
    else
      col.size % col.segmentCapacity)

/-- `local_indices`, on the node `thisNode`. -/
def localIndices (thisNode : Nat) (col : Column t) : Option (List Nat) :=
  if col.finalized then
    some <| (List.range col.segments.length).flatMap fun i =>
      if (col.segments[i]?).map (·.node) = some thisNode then col.segIndices i else []
  else
    none

/-- `serialize`. -/
def serialize (col : Column t) : Option Bytes :=
  if col.finalized then do
    let id ← Serializer.addString col.colId
    let keys ← col.segments.mapM Key.serialize
    return Serializer.addSizeT col.size ++ id ++ Serializer.addSizeT col.segments.length ++
      keys.flatten
  else
    none

/-- `Column(KVStore* store, Deserializer* d)`, and the cache of its class. -/
def deserialize (t : ColType) : Deserializer (Column t) := do
  let size ← Deserializer.getSizeT
  let colId ← Deserializer.getString
  let numSegments ← Deserializer.getSizeT
  let segments ← Key.deserialize.times numSegments
  return {
    segments, finalized := true, size, colId
    cache := .ofCapacity defaultSegmentCapacity, cacheKey := .empty, currNode := 0
    segmentCapacity := defaultSegmentCapacity }

/-- A column created, filled with `xs` and finalized. -/
def fill (t : ColType) (numNodes : Nat) (draws : Fin 10 → Fin 53) (segmentCapacity : Nat)
    (xs : List t.Elem) : Prog Key Value (Column t) := do
  let col ← xs.foldlM (pushBack numNodes) (new t numNodes draws segmentCapacity)
  col.finalize

end Column

end Eau2

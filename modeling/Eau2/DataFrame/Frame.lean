import Eau2.DataFrame.Schema

/-!
# Data frames

A data frame has columns of the same size and a schema. It is kept in the store
as a value (`KDStore`): its schema and its columns, serialized, while the
segments of the columns are values of their own.

* `DataFrame.ofColumns`, `DataFrame.ofColumn`: the constructors, which finalize
  the columns;
* `DataFrame.fromArray`, `fromScalar`, `fromVisitor`: a data frame created and
  put in the store;
* `DataFrame.getCell`: the value of a column and a row, by the getter of the type
  of the column.
-/

namespace Eau2

/-- A `Column*`, to a column of one of the four classes. -/
abbrev ColumnPtr := Σ t : ColType, Column t

namespace ColumnPtr

/-- `as_string`, `as_int`, `as_double` and `as_bool`. -/
def asType (t : ColType) (p : ColumnPtr) : Option (Column t) :=
  if h : p.1 = t then some (h ▸ p.2) else none

@[simp] theorem asType_mk (t : ColType) (col : Column t) : asType t ⟨t, col⟩ = some col := by
  simp [asType]

theorem eq_of_asType {t : ColType} {p : ColumnPtr} {col : Column t} (h : p.asType t = some col) :
    p = ⟨t, col⟩ := by
  obtain ⟨t', col'⟩ := p
  rw [asType] at h
  split_ifs at h with heq
  cases heq
  cases h
  rfl

/-- `push_back`, of a value of the type of the column. -/
def pushBack (numNodes : Nat) (p : ColumnPtr) (d : Data) : Prog Key Value ColumnPtr := do
  let val ← Prog.ofOption (d.value p.1)
  let col ← p.2.pushBack numNodes val
  return ⟨p.1, col⟩

end ColumnPtr

/-- A `DataFrame`. -/
structure DataFrame where
  columns : List ColumnPtr
  schema : Schema

namespace DataFrame

/-- `add_column_`. -/
def addColumn (df : DataFrame) (p : ColumnPtr) : Prog Key Value DataFrame := do
  Prog.assert (p.2.size = df.schema.length)
  let col ← p.2.finalize
  return ⟨df.columns ++ [⟨p.1, col⟩], df.schema.addColumn p.1.getType⟩

/-- `DataFrame(std::vector<Column*> columns, KVStore* store)`. -/
def ofColumns (columns : List ColumnPtr) : Prog Key Value DataFrame := do
  let length ← Prog.ofOption (columns.head?.map (·.2.size))
  Prog.assert (∀ p ∈ columns.tail, p.2.size = length)
  columns.foldlM addColumn ⟨[], Schema.empty.addRows length⟩

/-- `DataFrame(Column* c, KVStore* store)`. -/
def ofColumn (p : ColumnPtr) : Prog Key Value DataFrame :=
  addColumn ⟨[], Schema.empty.addRows p.2.size⟩ p

/-- `nrows()`. -/
def nrows (df : DataFrame) : Nat := df.schema.length

/-- `ncols()`. -/
def ncols (df : DataFrame) : Nat := df.schema.width

/-- `col_type`. -/
def colType (df : DataFrame) (idx : Nat) : Option UInt8 := df.schema.colType idx

/-- `serialize`. -/
def serialize (df : DataFrame) : Option Bytes := do
  let cols ← df.columns.mapM fun p => p.2.serialize
  return df.schema.serialize ++ cols.flatten

/-- The column that `DataFrame(Deserializer* d, KVStore* store)` reads for a type
    of the schema. -/
def deserializeColumn (c : UInt8) : Deserializer ColumnPtr := do
  let t ← Decoder.ofOption (ColType.ofChar? c)
  let col ← Column.deserialize t
  return ⟨t, col⟩

/-- `DataFrame(Deserializer* d, KVStore* store)`. -/
def deserialize : Deserializer DataFrame := do
  let schema ← Schema.deserialize
  let columns ← schema.colTypes.mapM deserializeColumn
  return ⟨columns, schema⟩

/-- `get_int`, `get_bool`, `get_double` and `get_string`. -/
def getAs (t : ColType) (df : DataFrame) (col row : Nat) : Prog Key Value (t.Elem × DataFrame) := do
  Prog.assert (col < df.schema.width ∧ row < df.schema.length)
  Prog.assert (df.schema.colType col = some t.getType)
  let c ← Prog.ofOption (df.columns[col]?.bind (ColumnPtr.asType t))
  let r ← c.get row
  return (r.1, { df with columns := df.columns.set col ⟨t, r.2⟩ })

def getInt : DataFrame → Nat → Nat → Prog Key Value (BitVec 32 × DataFrame) := getAs .int
def getBool : DataFrame → Nat → Nat → Prog Key Value (Bool × DataFrame) := getAs .bool
def getDouble : DataFrame → Nat → Nat → Prog Key Value (BitVec 64 × DataFrame) := getAs .double
def getString : DataFrame → Nat → Nat → Prog Key Value (Str × DataFrame) := getAs .string

/-- The value of a column and a row, as `fill_row` gets it. -/
def getCell (df : DataFrame) (col row : Nat) : Prog Key Value (Data × DataFrame) := do
  let t ← Prog.ofOption (df.colType col >>= ColType.ofChar?)
  match t with
  | .string => do
    let r ← df.getString col row
    return (.string (some r.1), r.2)
  | .int => do
    let r ← df.getInt col row
    return (.int r.1, r.2)
  | .double => do
    let r ← df.getDouble col row
    return (.double r.1, r.2)
  | .bool => do
    let r ← df.getBool col row
    return (.bool r.1, r.2)

/-- The values of the columns and rows `calls`, one after the other. -/
def getCells (df : DataFrame) : List (Nat × Nat) → Prog Key Value (List Data)
  | [] => return []
  | (col, row) :: calls => do
    let r ← df.getCell col row
    let ds ← r.2.getCells calls
    return r.1 :: ds

end DataFrame

namespace Row

/-- `add_to_columns`. -/
def addToColumns (numNodes : Nat) (r : Row) (cols : List ColumnPtr) :
    Prog Key Value (List ColumnPtr) := do
  Prog.assert (r.width = cols.length)
  Prog.assert (r.values.map (·.type.getType) = cols.map (·.1.getType))
  (cols.zip r.values).mapM fun pd => pd.1.pushBack numNodes pd.2

end Row

/-- A `Writer`, with the states `σ`. It changes the row it visits by setting
    values of it. -/
structure Writer (σ : Type) where
  done : σ → Bool
  visit : σ → Row → Option (List (Nat × Data) × σ)

namespace Writer

variable {σ : Type} (w : Writer σ)

/-- `visit`: the row after the visit. -/
def visitRow (s : σ) (r : Row) : Option (Row × σ) := do
  let (sets, s) ← w.visit s r
  let r ← sets.foldlM (fun r cv => r.set cv.1 cv.2) r
  return (r, s)

/-- The rows after each visit, until `done`, of at most `fuel` visits. -/
def rows : Nat → σ → Row → Option (List Row)
  | 0, _, _ => none
  | fuel + 1, s, r =>
    if w.done s then
      some []
    else do
      let (r, s) ← w.visitRow s r
      let rs ← rows fuel s r
      return r :: rs

end Writer

namespace KDStore

/-- `put`. -/
def put (k : Key) (df : DataFrame) : Prog Key Value Unit := do
  let v ← Prog.ofOption df.serialize
  Prog.put k v (pure ())

/-- The data frame of a value. -/
def ofValue (v : Value) : Prog Key Value DataFrame :=
  Prog.ofOption ((DataFrame.deserialize.run v).map Prod.fst)

/-- `get`. -/
def get (k : Key) : Prog Key Value DataFrame := Prog.get k ofValue

/-- `waitAndGet`. -/
def waitAndGet (k : Key) : Prog Key Value DataFrame := Prog.waitAndGet k ofValue

end KDStore

namespace DataFrame

section

variable (numNodes : Nat) (k : Key)

/-- `fromArray`. -/
def fromArray (t : ColType) (draws : Fin 10 → Fin 53) (vals : List t.Elem) :
    Prog Key Value DataFrame := do
  let col ← vals.foldlM (Column.pushBack numNodes)
    (Column.new t numNodes draws defaultSegmentCapacity)
  let df ← ofColumn ⟨t, col⟩
  KDStore.put k df
  return df

/-- `fromScalar`. -/
def fromScalar (t : ColType) (draws : Fin 10 → Fin 53) (val : t.Elem) :
    Prog Key Value DataFrame := do
  let col ← (Column.new t numNodes draws 1).pushBack numNodes val
  let df ← ofColumn ⟨t, col⟩
  KDStore.put k df
  return df

/-- The loop of `fromVisitor`, of at most `fuel` visits. -/
def visitAll {σ : Type} (w : Writer σ) :
    Nat → σ → Row → List ColumnPtr → Prog Key Value (List ColumnPtr)
  | 0, _, _, _ => .fail
  | fuel + 1, s, r, cols =>
    if w.done s then
      return cols
    else do
      let (r, s) ← Prog.ofOption (w.visitRow s r)
      let cols ← r.addToColumns numNodes cols
      visitAll w fuel s r cols

/-- `fromVisitor`, the `i`-th column having drawn `draws i`. -/
def fromVisitor {σ : Type} (types : Bytes) (draws : Nat → Fin 10 → Fin 53) (w : Writer σ) (s : σ)
    (fuel : Nat) : Prog Key Value DataFrame := do
  let ts ← Prog.ofOption ((Schema.ofTypes types).colTypes.mapM ColType.ofChar?)
  let cols := ts.mapIdx fun i t => ⟨t, Column.new t numNodes (draws i) defaultSegmentCapacity⟩
  let cols ← visitAll numNodes w fuel s (Row.ofTypes ts) cols
  let df ← ofColumns cols
  KDStore.put k df
  return df

end

end DataFrame

end Eau2

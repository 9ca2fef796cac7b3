import Eau2.DataFrame.Column

/-!
# Schemas and rows

A schema has the types of the columns of a data frame, as the characters of
`get_type`, and the number of its rows. A row has a value for every column of its
schema, of the type of the column: a row is its values, and its schema is theirs.
-/

namespace Eau2

/-- The column type of a character, if it is one. -/
def ColType.ofChar? (c : UInt8) : Option ColType :=
  if c = 83 then some .string
  else if c = 73 then some .int
  else if c = 68 then some .double
  else if c = 66 then some .bool
  else none

@[simp] theorem ColType.ofChar?_getType (t : ColType) : ColType.ofChar? t.getType = some t := by
  cases t <;> rfl

theorem ColType.getType_injective : Function.Injective ColType.getType := fun t t' h => by
  simpa using congrArg ColType.ofChar? h

/-- A `Schema`: `col_types_` and `num_rows_`. -/
structure Schema where
  colTypes : Bytes
  numRows : Nat

namespace Schema

/-- `Schema()`. -/
def empty : Schema := ⟨[], 0⟩

/-- `Schema(const char* types)`. -/
def ofTypes (types : Bytes) : Schema := ⟨cString types, 0⟩

/-- `add_column`. -/
def addColumn (s : Schema) (type : UInt8) : Schema := { s with colTypes := s.colTypes ++ [type] }

/-- `add_rows`. -/
def addRows (s : Schema) (n : Nat) : Schema := { s with numRows := s.numRows + n }

/-- `col_type`. -/
def colType (s : Schema) (idx : Nat) : Option UInt8 := s.colTypes[idx]?

/-- `width()`. -/
def width (s : Schema) : Nat := s.colTypes.length

/-- `length()`. -/
def length (s : Schema) : Nat := s.numRows

/-- A `char` as an `int`, and back. -/
def charToInt (c : UInt8) : BitVec 32 := c.toBitVec.signExtend 32
def intToChar (i : BitVec 32) : UInt8 := ⟨i.setWidth 8⟩

/-- `serialize`. -/
def serialize (s : Schema) : Bytes :=
  Serializer.addSizeT s.width ++ s.colTypes.flatMap (fun c => Serializer.addInt (charToInt c)) ++
    Serializer.addSizeT s.numRows

/-- `Schema(Deserializer* d)`. -/
def deserialize : Deserializer Schema := do
  let numCols ← Deserializer.getSizeT
  let colTypes ← (intToChar <$> Deserializer.getInt).times numCols
  let numRows ← Deserializer.getSizeT
  return ⟨colTypes, numRows⟩

theorem intToChar_charToInt (c : UInt8) : intToChar (charToInt c) = c := by
  refine UInt8.toBitVec_inj.1 (BitVec.eq_of_getLsbD_eq fun i hi => ?_)
  simp only [intToChar, charToInt, BitVec.getLsbD_setWidth, BitVec.getLsbD_signExtend, hi, if_true]
  simp
  omega

theorem decodes {s : Schema} (hw : s.width < 2 ^ 64) (hl : s.length < 2 ^ 64) :
    Decodes deserialize s.serialize s := by
  have hchar : ∀ c ∈ s.colTypes,
      Decodes (intToChar <$> Deserializer.getInt) (Serializer.addInt (charToInt c)) c := by
    intro c _
    have := (decodes_int (charToInt c)).map intToChar
    rwa [intToChar_charToInt] at this
  have hrows := (decodes_sizeT hl).bind (f := fun numRows => pure (Schema.mk s.colTypes numRows))
    (y := s)
    (Decodes.pure s)
  rw [List.append_nil] at hrows
  rw [serialize, List.append_assoc]
  exact (decodes_sizeT hw).bind ((Decodes.times hchar).bind hrows)

end Schema

/-- The payload of a value of a row. A string may be a null pointer. -/
inductive Data
  | string (s : Option Str)
  | int (i : BitVec 32)
  | double (d : BitVec 64)
  | bool (b : Bool)

namespace Data

/-- The type the value is of. -/
def type : Data → ColType
  | string _ => .string
  | int _ => .int
  | double _ => .double
  | bool _ => .bool

/-- The value to push on a column of type `t`: a null pointer cannot be cloned. -/
def value : (t : ColType) → Data → Option t.Elem
  | .string, string s => s
  | .int, int i => some i
  | .double, double d => some d
  | .bool, bool b => some b
  | _, _ => none

/-- The value of type `t` of a row not written yet: its bytes are zero. -/
def zero : ColType → Data
  | .string => string none
  | .int => int 0
  | .double => double 0
  | .bool => bool false

end Data

/-- A `Row`, of a schema of the four types. -/
structure Row where
  values : List Data

namespace Row

/-- `Row(Schema& scm)`, for a schema of the types `ts`. -/
def ofTypes (ts : List ColType) : Row := ⟨ts.map Data.zero⟩

/-- `width()`. -/
def width (r : Row) : Nat := r.values.length

/-- `col_type`. -/
def colType (r : Row) (idx : Nat) : Option UInt8 := (r.values[idx]?).map (·.type.getType)

/-- `set`, of the type of the value. -/
def set (r : Row) (col : Nat) (v : Data) : Option Row :=
  if r.colType col = some v.type.getType then some ⟨r.values.set col v⟩ else none

/-- `get_int`. -/
def getInt (r : Row) (col : Nat) : Option (BitVec 32) :=
  match r.values[col]? with
  | some (.int v) => some v
  | _ => none

/-- `get_string`, of a string that is used. -/
def getString (r : Row) (col : Nat) : Option Str :=
  match r.values[col]? with
  | some (.string s) => s
  | _ => none

end Row

end Eau2

import Eau2.DataFrame.Frame
import Eau2.Sorer.LineReader
import Mathlib.Data.List.DropRight

/-!
# The SoR parser

A SoR file has a row on each line, whose cells are the fields `<...>` of the
line; a `>` between quotes does not end a field, and what is between fields is
ignored. `guessSchema` goes twice over the first 500 lines: it counts the fields
of the longest, and then guesses the type of each column from its fields.
`parseFile` goes over all lines and pushes the values of the fields on the columns,
which may put segments in the store. `_scanLine` is the same for both: it is run in
the monad of what is done with a field.

A `StrSlice` is the bytes of the slice, a line the bytes before its terminator:
`strlen` finds the first NUL in it. Writing out of an array fails, as an
assertion does.
-/

namespace Eau2

/-- `ColumnType`. -/
inductive ColumnType
  | string
  | integer
  | double
  | bool
  | unknown
  deriving DecidableEq

/-! ## Slices -/

namespace StrSlice

/-- `trim`. -/
def trim (c : UInt8) (slice : Bytes) : Bytes := (slice.dropWhile (· == c)).rdropWhile (· == c)

/-- `c >= '0' && c <= '9'`. -/
def isDigit (c : UInt8) : Bool := 48 ≤ c ∧ c ≤ 57

/-- The characters after the sign, if there is one. -/
def unsigned (slice : Bytes) : Bytes :=
  if slice.head? = some 45 ∨ slice.head? = some 43 then slice.tail else slice

/-- `toInt`. The `long` wraps around, and its low 32 bits are returned. -/
def toInt (slice : Bytes) : BitVec 32 :=
  let result : BitVec 64 := ((unsigned slice).takeWhile isDigit).foldl
    (fun result c => result * 10 + BitVec.ofNat 64 (c.toNat - 48)) 0
  (if slice.head? = some 45 then -result else result).setWidth 32

end StrSlice

/-! ## Fields -/

/-- Where `_scanLine` stands in a line. -/
structure Scan where
  numFields : Nat
  inField : Bool
  inString : Bool
  /-- The bytes of the current field so far. -/
  field : Bytes

namespace SorParser

/-- `GUESS_SCHEMA_LINES`. -/
def guessSchemaLines : Nat := 500

/-- `isNumeric`: `'-'`, `'+'`, `'.'` or a digit. -/
def isNumeric (c : UInt8) : Bool := c = 45 ∨ c = 43 ∨ c = 46 ∨ StrSlice.isDigit c

section
variable {m : Type → Type} [Monad m] {σ : Type} (onField : Bytes → Nat → σ → m σ)

/-- The loop of `_scanLine`, for one character. -/
def scanChar (p : Scan × σ) (c : UInt8) : m (Scan × σ) :=
  let (scan, s) := p
  if scan.inField = false then
    if c = 60 then pure ({ scan with inField := true, field := [] }, s) else pure (scan, s)
  else if c = 34 then
    -- `>` is allowed inside quotes
    pure ({ scan with inString := !scan.inString, field := scan.field ++ [c] }, s)
  else if c = 62 ∧ scan.inString = false then do
    let s ← onField scan.field scan.numFields s
    pure ({ scan with inField := false, numFields := scan.numFields + 1 }, s)
  else pure ({ scan with field := scan.field ++ [c] }, s)

/-- `_scanLine`: `onField` is what the mode does with a field. The number of fields is
    returned. -/
def scanLine (line : Bytes) (s : σ) : m (Nat × σ) := do
  let (scan, s) ← (cString line).foldlM (scanChar onField) (⟨0, false, false, []⟩, s)
  pure (scan.numFields, s)

end

/-! ## Types -/

/-- The guess for a column, once it has got a field that is not missing. -/
def updateGuess (guess : ColumnType) (slice : Bytes) : ColumnType :=
  let isNumeric := slice.any SorParser.isNumeric
  let hasDot := slice.any fun c => SorParser.isNumeric c && c == 46
  if guess ≠ .string then
    if isNumeric ∧ ¬hasDot then
      let val := StrSlice.toInt slice
      if (val = 0 ∨ val = 1) ∧ guess ≠ .integer ∧ guess ≠ .double then .bool
      else if guess ≠ .double then .integer
      else guess
    else if isNumeric ∧ hasDot then .double
    else .string
  else guess

/-- `_guessFieldType`. -/
def guessFieldType (slice : Bytes) (fieldNum : Nat) (typeGuesses : List ColumnType) :
    Option (List ColumnType) :=
  let slice := StrSlice.trim 32 slice
  if slice = [] then some typeGuesses
  else do
    let guess ← typeGuesses[fieldNum]?
    return typeGuesses.set fieldNum (updateGuess guess slice)

end SorParser

/-- `ColumnSet::initializeColumn`: the type of the column, or the failed assertion. -/
def ColumnType.colType : ColumnType → Option ColType
  | string => some .string
  | integer => some .int
  | double => some .double
  | bool => some .bool
  | unknown => none

/-- A `SorParser`; its `_num_columns` is the length of both arrays. -/
structure SorParser where
  reader : LineReader
  columns : Option (List ColumnPtr)
  typeGuesses : Option (List ColumnType)

namespace SorParser

/-- `SorParser(FILE* file, KVStore* store)`. -/
def ofFile (file : Bytes) : SorParser where
  reader := .new file 0 file.length file.length
  columns := none
  typeGuesses := none

/-- The mode `DETECT_NUM_COLUMNS`, for a line. -/
def detectNumColumns (line : Bytes) (maxColumns : Nat) : Option Nat := do
  let (numColumns, _) ← scanLine (fun _ _ s => some s) line ()
  return if numColumns > maxColumns then numColumns else maxColumns

/-- The mode `DETECT_SCHEMA`, for a line. -/
def detectSchema (line : Bytes) (typeGuesses : List ColumnType) : Option (List ColumnType) := do
  let (_, typeGuesses) ← scanLine guessFieldType line typeGuesses
  return typeGuesses

/-- `guessSchema`, in a store of `numNodes` nodes; `draws` are the numbers drawn for the
    names of the columns. -/
def guessSchema (numNodes : Nat) (draws : Nat → Fin 10 → Fin 53) (p : SorParser) :
    Option SorParser := do
  guard (p.columns.isNone ∧ p.typeGuesses.isNone)
  let (maxColumns, reader) ← p.reader.forLines detectNumColumns guessSchemaLines 0
  guard (maxColumns ≠ 0)
  let (typeGuesses, reader) ←
    reader.reset.forLines detectSchema guessSchemaLines (List.replicate maxColumns .unknown)
  -- bool for a column without a guess
  let typeGuesses := typeGuesses.map fun t => if t = .unknown then .bool else t
  let types ← typeGuesses.mapM ColumnType.colType
  let columns := types.mapIdx fun i t => ⟨t, Column.new t numNodes (draws i) defaultSegmentCapacity⟩
  return { reader, columns := some columns, typeGuesses := some typeGuesses }

/-! ## Values -/

/-- `MAX_STRING`. -/
def maxString : Nat := 255

section
variable (numNodes : Nat) (toDouble : Bytes → BitVec 64)

/-- The value of a field of a column of type `t`. The field has been trimmed. -/
def fieldValue (slice : Bytes) : (t : ColType) → Option t.Elem
  | .string =>
    let chars := StrSlice.trim 34 slice
    if h : chars.length ≤ maxString then some ⟨chars, h.trans_lt (by decide)⟩ else none
  | .int => some (StrSlice.toInt slice)
  | .double => some (toDouble slice)
  | .bool =>
    let i := StrSlice.toInt slice
    if i = 0 ∨ i = 1 then some (i = 1) else none

/-- `_appendField`; `toDouble` is the `atof` of the C library. -/
def appendField (slice : Bytes) (fieldNum : Nat) (columns : List ColumnPtr) :
    Prog Key Value (List ColumnPtr) := do
  let slice := StrSlice.trim 32 slice
  let ⟨t, column⟩ ← Prog.ofOption columns[fieldNum]?
  Prog.assert (slice ≠ [])
  let val ← Prog.ofOption (fieldValue toDouble slice t)
  let column ← column.pushBack numNodes val
  return columns.set fieldNum ⟨t, column⟩

/-- The mode `PARSE_FILE`, for a line. -/
def appendLine (line : Bytes) (columns : List ColumnPtr) : Prog Key Value (List ColumnPtr) := do
  let (_, columns) ← scanLine (appendField numNodes toDouble) line columns
  return columns

/-- `parseFile`: the loop ends where the file does, which has at most as many lines as
    bytes. -/
def parseFile (p : SorParser) : Prog Key Value SorParser := do
  let columns ← Prog.ofOption p.columns
  let (columns, reader) ← p.reader.reset.forLines (appendLine numNodes toDouble)
    (p.reader.file.length + 1) columns
  return { p with reader, columns := some columns }

end

end SorParser

/-- `DataFrame::fromSorFile`, up to the data frame. -/
def DataFrame.ofSorFile (numNodes : Nat) (draws : Nat → Fin 10 → Fin 53)
    (toDouble : Bytes → BitVec 64) (file : Bytes) : Prog Key Value DataFrame := do
  let parser ← Prog.ofOption ((SorParser.ofFile file).guessSchema numNodes draws)
  let parser ← parser.parseFile numNodes toDouble
  let columns ← Prog.ofOption parser.columns
  ofColumns columns

/-- `DataFrame::fromSorFile`. -/
def DataFrame.fromSorFile (numNodes : Nat) (k : Key) (draws : Nat → Fin 10 → Fin 53)
    (toDouble : Bytes → BitVec 64) (file : Bytes) : Prog Key Value DataFrame := do
  let df ← ofSorFile numNodes draws toDouble file
  KDStore.put k df
  return df

end Eau2

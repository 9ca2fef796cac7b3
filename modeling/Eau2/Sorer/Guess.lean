import Eau2.Lib.Codec
import Eau2.Sorer.Parser

/-!
# What the schema is guessed from

A line has the fields `fields line`, whatever is done with them (`scanLine_eq`).
The guess for the column `j` is made of the `j`-th fields of the lines, in their
order, those aside that are empty once trimmed (`column`, `nonMissing`); the
other columns have no part in it (`guessRows_getElem?`).

Main result: `guessSchema_eq`. On a file one of whose first 500 lines has a field,
`guessSchema` finds as many columns as the longest of them has fields, each with
the type guessed from the fields of the column.
-/

namespace Eau2

/-- The type of a column, of which there may be no guess. -/
def ColumnType.inferred : ColumnType → ColType
  | string => .string
  | integer => .int
  | double => .double
  | bool | unknown => .bool

theorem ColumnType.colType_inferred (guess : ColumnType) :
    (if guess = unknown then bool else guess).colType = some guess.inferred := by
  cases guess <;> rfl

namespace SorParser

/-! ## The fields of a line -/

/-- The fields of what is left of a line: whether the current one has begun, whether
    a quote is open in it, and what it is so far. -/
def fieldsFrom : Bool → Bool → Bytes → Bytes → List Bytes
  | _, _, _, [] => []
  | false, inString, field, c :: line =>
    if c = 60 then fieldsFrom true inString [] line else fieldsFrom false inString field line
  | true, inString, field, c :: line =>
    if c = 34 then fieldsFrom true (!inString) (field ++ [c]) line
    else if c = 62 ∧ inString = false then field :: fieldsFrom false inString field line
    else fieldsFrom true inString (field ++ [c]) line

/-- The fields of a line. -/
def fields (line : Bytes) : List Bytes := fieldsFrom false false [] (cString line)

section
variable {m : Type → Type} [Monad m] [LawfulMonad m] {σ : Type} (onField : Bytes → Nat → σ → m σ)

theorem scanChars_eq (line : Bytes) (numFields : Nat) (inField inString : Bool) (field : Bytes)
    (s : σ) :
    (do
      let (scan, s) ← line.foldlM (scanChar onField) (⟨numFields, inField, inString, field⟩, s)
      pure (scan.numFields, s)) =
      (numFields + (fieldsFrom inField inString field line).length, ·) <$>
        ((fieldsFrom inField inString field line).zipIdx numFields).foldlM
          (fun s (field, i) => onField field i s) s := by
  induction line generalizing numFields inField inString field s with
  | nil => cases inField <;> simp [fieldsFrom]
  | cons c line ih =>
    rw [List.foldlM_cons, bind_assoc]
    cases inField with
    | false =>
      by_cases hc : c = 60 <;> simp only [scanChar, fieldsFrom, hc, if_true, if_false,
        pure_bind] <;>
        exact ih ..
    | true =>
      by_cases hquote : c = 34
      · simp only [scanChar, fieldsFrom, hquote, Bool.true_eq_false, if_true, if_false, pure_bind]
        exact ih ..
      · -- The field ends, and the next one has the next number.
        by_cases hend : c = 62 ∧ inString = false
        · simp only [scanChar, fieldsFrom, if_neg hquote, if_pos hend, Bool.true_eq_false, if_false,
            bind_assoc, pure_bind, List.zipIdx_cons, List.foldlM_cons, List.length_cons, map_bind]
          refine congrArg _ (funext fun s₁ => (ih ..).trans ?_)
          rw [Nat.add_assoc, Nat.add_comm 1]
        · simp only [scanChar, fieldsFrom, if_neg hquote, if_neg hend, Bool.true_eq_false, if_false,
            pure_bind]
          exact ih ..

/-- In all modes `_scanLine` finds the same fields, and numbers them. -/
theorem scanLine_eq (line : Bytes) (s : σ) :
    scanLine onField line s = ((fields line).length, ·) <$>
      (fields line).zipIdx.foldlM (fun s (field, i) => onField field i s) s := by
  rw [scanLine, scanChars_eq, Nat.zero_add]
  rfl

end

/-! ## The guesses for a line -/

/-- The guess for a column, once it has got a field. -/
def guessField (guess : ColumnType) (field : Bytes) : ColumnType :=
  if StrSlice.trim 32 field = [] then guess else updateGuess guess (StrSlice.trim 32 field)

/-- The guesses for all columns, once they have got the fields of a line. -/
def guessRow (guesses : List ColumnType) (fs : List Bytes) : List ColumnType :=
  guesses.mapIdx fun j guess => (fs[j]?).elim guess (guessField guess)

theorem guessFieldType_eq {guesses : List ColumnType} {j : Nat} (field : Bytes) {guess : ColumnType}
    (h : guesses[j]? = some guess) :
    guessFieldType field j guesses = some (guesses.set j (guessField guess field)) := by
  by_cases hf : StrSlice.trim 32 field = []
  · obtain ⟨hj, rfl⟩ := List.getElem?_eq_some_iff.1 h
    rw [guessFieldType, if_pos hf, guessField, if_pos hf, List.set_getElem_self]
  · rw [guessFieldType, if_neg hf, guessField, if_neg hf, h]
    rfl

theorem getElem?_guessRow (guesses : List ColumnType) (fs : List Bytes) (j : Nat) :
    (guessRow guesses fs)[j]? = guesses[j]?.map fun guess => (fs[j]?).elim guess
    (guessField guess) := by
  rw [guessRow, List.getElem?_mapIdx]

theorem foldlM_guessFieldType {guesses : List ColumnType} {fs : List Bytes}
    (h : fs.length ≤ guesses.length) :
    fs.zipIdx.foldlM (fun guesses (field, i) => guessFieldType field i guesses) guesses =
      some (guessRow guesses fs) := by
  induction fs using List.reverseRecOn with
  | nil =>
    refine congrArg some (List.ext_getElem? fun i => ?_)
    simp [getElem?_guessRow]
  | append_singleton fs field ih =>
    have hlt : fs.length < guesses.length := by
      rwa [List.length_append, List.length_singleton] at h
    have hj : (guessRow guesses fs)[fs.length]? = some guesses[fs.length] := by
      simp [getElem?_guessRow, hlt]
    rw [List.zipIdx_append, List.foldlM_append, ih (Nat.le_of_lt hlt), Option.bind_eq_bind,
      Option.bind_some]
    simp only [List.zipIdx_singleton, Nat.zero_add, List.foldlM_cons, List.foldlM_nil,
      guessFieldType_eq field hj, Option.bind_eq_bind, Option.bind_some, Option.pure_def]
    refine congrArg some (List.ext_getElem? fun i => ?_)
    rw [List.getElem?_set, getElem?_guessRow, getElem?_guessRow]
    by_cases hi : fs.length = i
    · subst hi
      have hlen : fs.length < (guessRow guesses fs).length := (List.getElem?_eq_some_iff.1 hj).1
      simp [hlt, hlen]
    · -- A column of another number: before this field, or not come to yet.
      rw [if_neg hi]
      rcases lt_or_gt_of_ne hi with hlt' | hgt
      · have hnone : (fs ++ [field])[i]? = none := List.getElem?_eq_none <| by
          rwa [List.length_append, List.length_singleton]
        rw [hnone, List.getElem?_eq_none hlt'.le]
      · rw [List.getElem?_append_left hgt]

/-! ## The guesses for a file -/

/-- The column `j` of some lines: their `j`-th fields. -/
def column (lines : List Bytes) (j : Nat) : List Bytes :=
  lines.filterMap fun line => (fields line)[j]?

/-- The fields that are not missing, trimmed. -/
def nonMissing (fs : List Bytes) : List Bytes := (fs.map (StrSlice.trim 32)).filter (· ≠ [])

/-- The guess for a column. -/
def guess (fs : List Bytes) : ColumnType := (nonMissing fs).foldl updateGuess .unknown

/-- The number of fields of the longest line. -/
def width (lines : List Bytes) : Nat :=
  lines.foldl (fun w line => if (fields line).length > w then (fields line).length else w) 0

/-- The lines the schema is guessed from. -/
def sample (file : Bytes) : List Bytes := (file.lines newline).take guessSchemaLines

theorem guess_eq (fs : List Bytes) : guess fs = fs.foldl guessField .unknown := by
  rw [guess, nonMissing, List.foldl_filter, List.foldl_map]
  congr 1
  funext guess field
  by_cases h : StrSlice.trim 32 field = [] <;> simp [guessField, h]

/-- The guess for a column is made of its fields. -/
theorem getElem?_foldl_guessRow (guesses : List ColumnType) (lines : List Bytes) (j : Nat) :
    (lines.foldl (fun guesses line => guessRow guesses (fields line)) guesses)[j]? =
      guesses[j]?.map fun guess => (column lines j).foldl guessField guess := by
  induction lines generalizing guesses with
  | nil => simp [column]
  | cons line lines ih =>
    rw [List.foldl_cons, ih, getElem?_guessRow, Option.map_map]
    congr 1
    funext guess
    cases h : (fields line)[j]? <;> simp [column, h]

theorem length_le_width {lines : List Bytes} {line : Bytes} (h : line ∈ lines) :
    (fields line).length ≤ width lines := by
  have mono (ls : List Bytes) (w : Nat) : w ≤ ls.foldl
      (fun w line => if (fields line).length > w then (fields line).length else w) w := by
    induction ls generalizing w with
    | nil => exact le_rfl
    | cons l ls ih =>
      refine le_trans ?_ (ih _)
      dsimp only
      split_ifs <;> omega
  obtain ⟨before, after, rfl⟩ := List.append_of_mem h
  rw [width, List.foldl_append, List.foldl_cons]
  refine le_trans ?_ (mono after _)
  split_ifs <;> omega

theorem foldlM_detectSchema {guesses : List ColumnType} {lines : List Bytes}
    (h : ∀ line ∈ lines, (fields line).length ≤ guesses.length) :
    lines.foldlM (fun guesses line => detectSchema line guesses) guesses =
      some (lines.foldl (fun guesses line => guessRow guesses (fields line)) guesses) := by
  induction lines generalizing guesses with
  | nil => rfl
  | cons line lines ih =>
    have hlen (fs : List Bytes) : (guessRow guesses fs).length = guesses.length := by
      simp [guessRow]
    rw [List.foldlM_cons, detectSchema, scanLine_eq,
      foldlM_guessFieldType (h line List.mem_cons_self)]
    exact ih fun l hl => (h l (List.mem_cons_of_mem line hl)).trans_eq (hlen _).symm

variable {file rest : Bytes} {r : LineReader}

/-- A mode that ignores the fields counts them. -/
theorem detectNumColumns_eq (line : Bytes) (maxColumns : Nat) : detectNumColumns line maxColumns =
    some (if (fields line).length > maxColumns then (fields line).length else maxColumns) := by
  rw [detectNumColumns, scanLine_eq]
  generalize (fields line).zipIdx = l
  induction l with
  | nil => rfl
  | cons f l ih => exact ih

theorem forLines_detectNumColumns (h : r.Whole file rest) (hnone : r.currentLine = none) :
    ∃ r' rest', r'.Whole file rest' ∧
      r.forLines detectNumColumns guessSchemaLines 0 = some (width (sample rest), r') := by
  obtain ⟨r', rest', hw, heq⟩ := LineReader.forLines_whole detectNumColumns guessSchemaLines h hnone
  refine ⟨r', rest', hw, (heq 0).trans ?_⟩
  simp only [detectNumColumns_eq]
  exact congrArg ((·, r') <$> ·) List.foldlM_pure

theorem forLines_detectSchema (h : r.Whole file rest) (hnone : r.currentLine = none) :
    ∃ r' rest', r'.Whole file rest' ∧
      r.forLines detectSchema guessSchemaLines (List.replicate (width (sample rest)) .unknown) =
        some ((List.range (width (sample rest))).map fun j =>
          guess (column (sample rest) j), r') := by
  obtain ⟨r', rest', hw, heq⟩ := LineReader.forLines_whole detectSchema guessSchemaLines h hnone
  have hlen : ∀ line ∈ sample rest,
      (fields line).length ≤ (List.replicate (width (sample rest)) ColumnType.unknown).length := by
    intro line hline
    rw [List.length_replicate]
    exact length_le_width hline
  refine ⟨r', rest', hw, ((heq _).trans
    (congrArg ((·, r') <$> ·) (foldlM_detectSchema hlen))).trans ?_⟩
  refine congrArg (fun guesses => some (guesses, r')) (List.ext_getElem? fun j => ?_)
  rw [getElem?_foldl_guessRow, List.getElem?_map, List.getElem?_replicate]
  split_ifs with hj
  · rw [List.getElem?_range hj, Option.map_some, Option.map_some, guess_eq]
    rfl
  · rw [List.getElem?_eq_none (by simpa using hj), Option.map_none, Option.map_none]

/-- The columns can be initialized. -/
theorem mapM_colType (guesses : List ColumnType) :
    (guesses.map fun t => if t = .unknown then .bool else t).mapM ColumnType.colType =
      some (guesses.map ColumnType.inferred) := by
  rw [List.mapM_map]
  exact List.mapM_eq_some_map fun t _ => t.colType_inferred

/-- Where none of the first lines has a field, `guessSchema` fails. -/
theorem guessSchema_eq (numNodes : Nat) (draws : Nat → Fin 10 → Fin 53) (file : Bytes) :
    ∃ reader rest, reader.Whole file rest ∧ (ofFile file).guessSchema numNodes draws =
      if width (sample file) = 0 then none
      else some
        { reader
          columns := some ((List.range (width (sample file))).map fun j =>
            let t := (guess (column (sample file) j)).inferred
            ⟨t, Column.new t numNodes (draws j) defaultSegmentCapacity⟩)
          typeGuesses := some ((List.range (width (sample file))).map fun j =>
            if guess (column (sample file) j) = .unknown then .bool
            else guess (column (sample file) j)) } := by
  obtain ⟨r₁, rest₁, hw₁, h₁⟩ := forLines_detectNumColumns (LineReader.whole_new file) rfl
  obtain ⟨r₂, rest₂, hw₂, h₂⟩ := forLines_detectSchema hw₁.reset rfl
  refine ⟨r₂, rest₂, hw₂, ?_⟩
  have hreader : (ofFile file).reader.forLines detectNumColumns guessSchemaLines 0 =
      some (width (sample file), r₁) := h₁
  have hnew : (ofFile file).columns.isNone = true ∧ (ofFile file).typeGuesses.isNone =
    true := ⟨rfl, rfl⟩
  split_ifs with hwidth
  · simp [guessSchema, hreader, hwidth, guard]
  · simp only [guessSchema, hreader, hnew, hwidth, h₂, mapM_colType, guard, and_self,
      if_true, ne_eq,
      not_false_eq_true, Option.bind_eq_bind, Option.bind_some, Option.pure_def, List.map_map]
    -- a column has the number of its guess, and is made with the draws for this number
    refine congrArg (fun columns => some (SorParser.mk r₂ (some columns) _)) ?_
    refine List.ext_getElem? fun j => ?_
    rw [List.getElem?_mapIdx, List.getElem?_map, List.getElem?_map, Option.map_map]
    by_cases hj : j < width (sample file)
    · rw [List.getElem?_range hj]
      rfl
    · rw [List.getElem?_eq_none (by simpa using hj)]
      rfl

end SorParser

end Eau2

import Eau2.DataFrame.Fill
import Eau2.DataFrame.Table
import Eau2.Sorer.Guess

/-!
# What is appended

`parseFile` appends the fields of the file, line after line, to the columns of
their numbers (`calls`). The columns hold a table that grows by one value with each
field (`Table.filling`), and what they have put in the store are its full segments
(`Table.segPuts`): `parsed_of_writes`, for a parse that fails no assertion.

The assertions of `_appendField` fail one after the other (`Assertion`, `failing`);
those of `push_back` do not fail before a segment is full (`appendField_of_room`).
-/

namespace Eau2

namespace Table

variable {n c : Nat} {ids : Nat → Bytes} {table : Table}

/-- The columns to which the values of the table have been pushed. -/
def filling (n c : Nat) (ids : Nat → Bytes) (table : Table) : List ColumnPtr :=
  table.mapIdx fun i q => ⟨q.1, Column.filling q.1 n (ids i) c q.2⟩

/-- These columns, finalized. -/
def filled (n c : Nat) (ids : Nat → Bytes) (table : Table) : List ColumnPtr :=
  table.mapIdx fun i q => ⟨q.1, Column.filled q.1 n (ids i) c q.2⟩

/-- The puts of the segments of the table, but of the last `k` of every column. -/
def segPuts (n c : Nat) (ids : Nat → Bytes) (k : Nat) (table : Table) : List (Key × Value) :=
  (table.mapIdx fun i q =>
    Column.segPuts q.1 n (ids i) c q.2 (List.numChunks c q.2.length - k)).flatten

theorem mem_segPuts_iff {k : Nat} {kv : Key × Value} : kv ∈ segPuts n c ids k table ↔
    ∃ i q, table[i]? = some q ∧
      kv ∈ Column.segPuts q.1 n (ids i) c q.2 (List.numChunks c q.2.length - k) := by
  rw [segPuts, List.mem_flatten]
  constructor
  · rintro ⟨ps, hps, hkv⟩
    obtain ⟨i, hi, rfl⟩ := List.mem_mapIdx.1 hps
    exact ⟨i, table[i], List.getElem?_eq_getElem hi, hkv⟩
  · rintro ⟨i, q, hq, hkv⟩
    obtain ⟨hi, rfl⟩ := List.getElem?_eq_some_iff.1 hq
    exact ⟨_, List.mem_mapIdx.2 ⟨i, hi, rfl⟩, hkv⟩

theorem getElem?_filling (j : Nat) : (filling n c ids table)[j]? =
    table[j]?.map fun q => ⟨q.1, Column.filling q.1 n (ids j) c q.2⟩ := by
  rw [filling, List.getElem?_mapIdx]

theorem length_filling : (filling n c ids table).length = table.length := List.length_mapIdx

/-- A value at the end of the column `j`. -/
theorem filling_set (j : Nat) (q : Σ t : ColType, List t.Elem) :
    filling n c ids (table.set j q) =
      (filling n c ids table).set j ⟨q.1, Column.filling q.1 n (ids j) c q.2⟩ :=
  List.mapIdx_set

/-- The columns of a table without values have just been made. -/
theorem filling_new (draws : Nat → Fin 10 → Fin 53) (h : ∀ q ∈ table, q.2 = []) :
    filling n c (fun i => colId (draws i)) table =
      (table.map Sigma.fst).mapIdx fun i t => ⟨t, Column.new t n (draws i) c⟩ := by
  refine List.ext_getElem? fun i => ?_
  rw [filling, List.getElem?_mapIdx, List.getElem?_mapIdx, List.getElem?_map]
  cases hi : table[i]? with
  | none => rfl
  | some q =>
    simp only [Option.map_some, Column.new_eq, h q (List.mem_of_getElem? hi)]

/-- The values of the full segments can be serialized. -/
def FullStorable (c : Nat) (table : Table) : Prop :=
  ∀ q ∈ table, ∀ x ∈ q.2.take ((List.numChunks c q.2.length - 1) * c), q.1.Storable x

end Table

namespace SorParser

variable {n c : Nat} {ids : Nat → Bytes} {toDouble : Bytes → BitVec 64} {table : Table}
  {field : Bytes}
  {j : Nat} {q : Σ t : ColType, List t.Elem}

/-! ## One field -/

/-- The value of a field for a column of type `t`, if there is one. -/
def cellValue (toDouble : Bytes → BitVec 64) (field : Bytes) (t : ColType) : Option t.Elem :=
  if StrSlice.trim 32 field = [] then none else fieldValue toDouble (StrSlice.trim 32 field) t

theorem appendField_eq {x : q.1.Elem} (hq : table[j]? = some q)
    (hx : cellValue toDouble field q.1 = some x) :
    appendField n toDouble field j (Table.filling n c ids table) =
      ((Column.filling q.1 n (ids j) c q.2).pushBack n x >>= fun col =>
        .ret ((Table.filling n c ids table).set j ⟨q.1, col⟩)) := by
  rw [cellValue] at hx
  split_ifs at hx with hne
  rw [appendField]
  simp only [Table.getElem?_filling, hq, Option.map_some, Prog.ofOption_some, Prog.ret_bind,
    Prog.assert_true hne, hx, Prog.pure_eq]

/-- `_appendField` goes on only with a value for a column of the table. -/
theorem exists_of_appendField {r : List (Key × Value) × List ColumnPtr}
    (hw : (appendField n toDouble field j (Table.filling n c ids table)).writes = some r) :
    ∃ q x, table[j]? = some q ∧ cellValue toDouble field q.1 = some x := by
  obtain ⟨_, ⟨t, col⟩, _, hcol, hrest, -⟩ := Prog.writes_bind_eq_some.1 hw
  obtain ⟨hj, -⟩ := Prog.writes_ofOption.1 hcol
  obtain ⟨_, _, _, hassert, hval, -⟩ := Prog.writes_bind_eq_some.1 hrest
  obtain ⟨hne, -⟩ := Prog.writes_assert.1 hassert
  obtain ⟨_, x, _, hof, -, -⟩ := Prog.writes_bind_eq_some.1 hval
  obtain ⟨hx, -⟩ := Prog.writes_ofOption.1 hof
  rw [Table.getElem?_filling] at hj
  obtain ⟨q, hq, heq⟩ := Option.map_eq_some_iff.1 hj
  cases heq
  exact ⟨q, x, hq, by rw [cellValue, if_neg hne, hx]⟩

/-- What `_appendField` preserves, if no assertion fails. -/
theorem filling_of_appendField (hc : 0 < c) {ps : List (Key × Value)} {cols : List ColumnPtr}
    (hw : (appendField n toDouble field j (Table.filling n c ids table)).writes = some (ps, cols))
    (hs : table.FullStorable c) :
    ∃ q x, table[j]? = some q ∧ cellValue toDouble field q.1 = some x ∧
      cols = Table.filling n c ids (table.set j ⟨q.1, q.2 ++ [x]⟩) ∧
      Table.FullStorable c (table.set j ⟨q.1, q.2 ++ [x]⟩) ∧
      ∀ kv, kv ∈ Table.segPuts n c ids 1 (table.set j ⟨q.1, q.2 ++ [x]⟩) ↔
        kv ∈ Table.segPuts n c ids 1 table ∨ kv ∈ ps := by
  obtain ⟨q, x, hq, hx⟩ := exists_of_appendField hw
  rw [appendField_eq hq hx] at hw
  obtain ⟨ps₁, col, _, hpush, hret, rfl⟩ := Prog.writes_bind_eq_some.1 hw
  cases hret
  obtain rfl := Column.eq_of_writes_pushBack hc hpush
  obtain ⟨hputs, hs'⟩ := Column.puts_of_writes_pushBack hc hpush (hs q (List.mem_of_getElem? hq))
  have hlt : j < table.length := (List.getElem?_eq_some_iff.1 hq).1
  refine ⟨q, x, hq, hx, (Table.filling_set j ⟨q.1, q.2 ++ [x]⟩).symm, fun q' hq' => ?_,
    fun kv => ?_⟩
  · -- The column that the value is pushed to, or another, which stays as it is.
    rcases List.mem_or_eq_of_mem_set hq' with hmem | rfl
    · exact hs q' hmem
    · exact hs'
  · rw [Table.mem_segPuts_iff, Table.mem_segPuts_iff, List.append_nil]
    constructor
    · rintro ⟨i, q', hi, hkv⟩
      by_cases hij : j = i
      · subst hij
        rw [List.getElem?_set_self hlt] at hi
        cases hi
        rw [hputs, List.mem_append] at hkv
        exact hkv.imp_left fun hkv => ⟨j, q, hq, hkv⟩
      · rw [List.getElem?_set_ne hij] at hi
        exact .inl ⟨i, q', hi, hkv⟩
    · rintro (⟨i, q', hi, hkv⟩ | hkv)
      · by_cases hij : j = i
        · subst hij
          obtain rfl : q = q' := Option.some.inj (hq.symm.trans hi)
          exact ⟨j, _, List.getElem?_set_self hlt, by rw [hputs]; exact List.mem_append_left _ hkv⟩
        · exact ⟨i, q', by rw [List.getElem?_set_ne hij, hi], hkv⟩
      · exact ⟨j, _, List.getElem?_set_self hlt, by rw [hputs]; exact List.mem_append_right _ hkv⟩

/-! ## Assertions -/

/-- The assertions of `_appendField`. -/
inductive Assertion
  /-- `which < getLength()`, of `getColumn`. -/
  | columnBound
  /-- `slice.getLength() != 0`. -/
  | missing
  /-- `slice.getLength() <= MAX_STRING`. -/
  | maxString
  /-- `i == 0 || i == 1`. -/
  | boolean
  /-- `false`, in the default branch. -/
  | columnType
  deriving DecidableEq

/-- The assertion of `_appendField` that fails, if one does before `push_back`. -/
def failing (slice : Bytes) (fieldNum : Nat) (columns : List ColumnPtr) : Option Assertion :=
  match columns[fieldNum]? with
  | none => some .columnBound
  | some ⟨t, _⟩ =>
    let slice := StrSlice.trim 32 slice
    if slice = [] then some .missing
    else match ColType.ofChar? t.getType with
      | some .string => if (StrSlice.trim 34 slice).length ≤ maxString then none
          else some .maxString
      | some .bool => if StrSlice.toInt slice = 0 ∨ StrSlice.toInt slice = 1 then none
          else some .boolean
      | some .int | some .double => none
      | none => some .columnType

/-- `_appendField` comes to `push_back` with a value of the column. -/
theorem failing_eq_none_iff {columns : List ColumnPtr} : failing field j columns = none ↔
    ∃ t col x, columns[j]? = some ⟨t, col⟩ ∧ cellValue toDouble field t = some x := by
  rw [failing]
  cases columns[j]? with
  | none => simp
  | some p =>
    obtain ⟨t, col⟩ := p
    have hsome : (∃ t' col' x, some ⟨t, col⟩ = some (⟨t', col'⟩ : ColumnPtr) ∧
      cellValue toDouble field t' = some x) ↔
        (cellValue toDouble field t).isSome = true := by
      rw [Option.isSome_iff_exists]
      constructor
      · rintro ⟨t', col', x, heq, hx⟩
        cases heq
        exact ⟨x, hx⟩
      · exact fun ⟨x, hx⟩ => ⟨t, col, x, rfl, hx⟩
    rw [hsome, cellValue]
    by_cases hne : StrSlice.trim 32 field = []
    · simp [hne]
    · cases t with
      | string | bool =>
        simp only [hne, if_false, ColType.ofChar?_getType, fieldValue]
        split_ifs <;> simp
      | int | double => simp [hne, fieldValue]

theorem appendField_of_failing {columns : List ColumnPtr} {a : Assertion}
    (h : failing field j columns = some a) : appendField n toDouble field j columns = .fail := by
  have hnone : ¬∃ t col x, columns[j]? = some ⟨t, col⟩ ∧ cellValue toDouble field t = some x := by
    rw [← failing_eq_none_iff, h]
    exact Option.some_ne_none a
  rw [appendField]
  cases hj : columns[j]? with
  | none => rfl
  | some p =>
    obtain ⟨t, col⟩ := p
    simp only [Prog.ofOption_some, Prog.ret_bind]
    by_cases hne : StrSlice.trim 32 field = []
    · rw [Prog.assert_false (not_not.2 hne), Prog.fail_bind]
    · rw [Prog.assert_true hne, Prog.ret_bind]
      cases hx : fieldValue toDouble (StrSlice.trim 32 field) t with
      | none => rfl
      | some x => exact absurd ⟨t, col, x, hj, by rw [cellValue, if_neg hne, hx]⟩ hnone

/-- No segment is full before it has its values: nothing is put then. -/
theorem appendField_of_room (hc : 0 < c) {x : q.1.Elem} (hq : table[j]? = some q)
    (hx : cellValue toDouble field q.1 = some x) (hroom : q.2.length < c) :
    appendField n toDouble field j (Table.filling n c ids table) =
      .ret (Table.filling n c ids (table.set j ⟨q.1, q.2 ++ [x]⟩)) := by
  have hchunks : List.numChunks c q.2.length = 1 := by
    rw [List.numChunks, Nat.div_eq_of_lt (by omega)]
  rw [appendField_eq hq hx, Column.pushBack_of_ne hc (by rw [hchunks, Nat.one_mul]; exact hroom.ne),
    Prog.ret_bind, ← Table.filling_set j ⟨q.1, q.2 ++ [x]⟩]

/-! ## The columns guessed -/

/-- The columns that are guessed for a file, still empty. -/
def guessed (file : Bytes) : Table :=
  (List.range (width (sample file))).map fun j => ⟨(guess (column (sample file) j)).inferred, []⟩

theorem getElem?_guessed {file : Bytes} (h : (guessed file)[j]? = some q) :
    j < width (sample file) ∧ q = ⟨(guess (column (sample file) j)).inferred, []⟩ := by
  rw [guessed, List.getElem?_map] at h
  obtain ⟨i, hi, rfl⟩ := Option.map_eq_some_iff.1 h
  obtain ⟨hlt, rfl⟩ := List.getElem?_eq_some_iff.1 hi
  rw [List.getElem_range]
  exact ⟨by simpa using hlt, rfl⟩

theorem length_guessed (file : Bytes) : (guessed file).length = width (sample file) := by
  rw [guessed, List.length_map, List.length_range]

theorem guessed_empty {file : Bytes} : ∀ q ∈ guessed file, q.2 = [] := by
  intro q hq
  obtain ⟨j, -, rfl⟩ := List.mem_map.1 hq
  rfl

/-- `guessSchema` goes through if some line of the sample has a field, and only then. -/
theorem guessSchema_eq_some_iff {draws : Nat → Fin 10 → Fin 53} {file : Bytes} :
    (∃ p, (ofFile file).guessSchema n draws = some p) ↔ width (sample file) ≠ 0 := by
  obtain ⟨reader, rest, -, heq⟩ := guessSchema_eq n draws file
  rw [heq]
  split_ifs with hwidth <;> simp [hwidth]

theorem columns_guessSchema {draws : Nat → Fin 10 → Fin 53} {file : Bytes} {p : SorParser}
    (h : (ofFile file).guessSchema n draws = some p) :
    ∃ rest, p.reader.Whole file rest ∧
      p.columns = some (Table.filling n defaultSegmentCapacity (fun i => colId (draws i))
        (guessed file)) := by
  obtain ⟨reader, rest, hw, heq⟩ := guessSchema_eq n draws file
  rw [heq] at h
  split_ifs at h with hwidth
  cases h
  refine ⟨rest, hw, congrArg some (List.ext_getElem? fun i => ?_)⟩
  rw [Table.filling, guessed, List.getElem?_mapIdx, List.getElem?_map, List.getElem?_map]
  by_cases hi : i < width (sample file)
  · rw [List.getElem?_range hi]
    simp [Column.new_eq]
  · rw [List.getElem?_eq_none (by simpa using hi)]
    rfl

/-! ## The fields of a file -/

/-- The calls of `_appendField` for some lines: the fields, with their numbers. -/
def calls (lines : List Bytes) : List (Bytes × Nat) :=
  lines.flatMap fun line => (fields line).zipIdx

/-- The fields that some calls append to the column `j`. -/
def appended (cs : List (Bytes × Nat)) (j : Nat) : List Bytes :=
  cs.filterMap fun call => if call.2 = j then some call.1 else none

/-- The table has the values of the fields that the calls append. -/
structure Parsed (toDouble : Bytes → BitVec 64) (cs : List (Bytes × Nat)) (table : Table) :
    Prop where
  lt : ∀ call ∈ cs, call.2 < table.length
  values : ∀ j q, table[j]? = some q →
    List.Forall₂ (fun field x => cellValue toDouble field q.1 = some x) (appended cs j) q.2

theorem appendLine_eq (n : Nat) (toDouble : Bytes → BitVec 64) (line : Bytes)
    (columns : List ColumnPtr) :
    appendLine n toDouble line columns = (fields line).zipIdx.foldlM
      (fun columns call => appendField n toDouble call.1 call.2 columns) columns := by
  rw [appendLine, scanLine_eq, bind_map_left]
  exact bind_pure _

theorem foldlM_appendLine (n : Nat) (toDouble : Bytes → BitVec 64) (lines : List Bytes)
    (columns : List ColumnPtr) :
    lines.foldlM (fun columns line => appendLine n toDouble line columns) columns =
      (calls lines).foldlM (fun columns call => appendField n toDouble call.1 call.2 columns)
      columns := by
  induction lines generalizing columns with
  | nil => rfl
  | cons line lines ih =>
    rw [List.foldlM_cons, appendLine_eq, calls, List.flatMap_cons, List.foldlM_append]
    exact congrArg _ (funext ih)

/-- `parseFile` makes the calls, in order. -/
theorem parseFile_calls (n : Nat) (toDouble : Bytes → BitVec 64) {p : SorParser} {file rest : Bytes}
    (hw : p.reader.Whole file rest) {columns : List ColumnPtr} (hp : p.columns = some columns) :
    ∃ r', p.parseFile n toDouble =
      (fun columns => { p with reader := r', columns := some columns }) <$>
        (calls (file.lines newline)).foldlM
          (fun columns call => appendField n toDouble call.1 call.2 columns) columns := by
  obtain ⟨r', rest', -, hlines⟩ := LineReader.forLines_whole (appendLine n toDouble)
    (p.reader.file.length + 1) hw.reset rfl
  have hall : (file.lines newline).length ≤ p.reader.file.length + 1 := by
    rw [hw.file_eq]
    exact (List.length_lines_le file).trans (Nat.le_succ _)
  refine ⟨r', ?_⟩
  rw [parseFile, hp, Prog.ofOption_some, Prog.ret_bind, hlines, List.take_of_length_le hall,
    foldlM_appendLine]
  simp only [map_eq_pure_bind, Prog.pure_eq, Prog.bind_assoc, Prog.ret_bind]

/-- Among the fields of a line there is one of each number. -/
theorem appended_zipIdx (fs : List Bytes) (k j : Nat) :
    appended (fs.zipIdx k) j = if k ≤ j then fs[j - k]?.toList else [] := by
  induction fs generalizing k with
  | nil => simp [appended]
  | cons field fs ih =>
    rw [List.zipIdx_cons, appended, List.filterMap_cons]
    have htail : List.filterMap (fun call => if call.2 = j then some call.1 else none)
      (fs.zipIdx (k + 1)) =
        if k + 1 ≤ j then fs[j - (k + 1)]?.toList else [] := ih (k + 1)
    rcases lt_trichotomy k j with hlt | rfl | hgt
    · obtain ⟨d, rfl⟩ := Nat.exists_eq_add_of_lt hlt
      rw [if_neg hlt.ne, htail, if_pos (by omega), if_pos hlt.le, show k + d + 1 - k =
        d + 1 by omega, show k + d + 1 - (k + 1) = d by omega, List.getElem?_cons_succ]
    · rw [if_pos rfl, htail, if_neg (by omega), if_pos le_rfl, Nat.sub_self,
        List.getElem?_cons_zero]
      rfl
    · rw [if_neg hgt.ne', htail, if_neg (by omega), if_neg (by omega)]

/-- To the column `j` go the `j`-th fields of the lines. -/
theorem appended_calls (lines : List Bytes) (j : Nat) :
    appended (calls lines) j = column lines j := by
  induction lines with
  | nil => rfl
  | cons line lines ih =>
    have hline := appended_zipIdx (fields line) 0 j
    rw [if_pos j.zero_le, Nat.sub_zero] at hline
    rw [calls, List.flatMap_cons, appended, List.filterMap_append, ← appended, hline,
      ← appended, ← calls, ih, column, column, List.filterMap_cons]
    cases (fields line)[j]? <;> rfl

/-- The calls made so far, for a parse in which no assertion fails. -/
theorem parsed_of_writes (hc : 0 < c) {cs : List (Bytes × Nat)} {ps : List (Key × Value)}
    {cols : List ColumnPtr} (hw : (cs.foldlM
      (fun columns call => appendField n toDouble call.1 call.2 columns)
      (Table.filling n c ids table)).writes = some (ps, cols)) (hempty : ∀ q ∈ table, q.2 = []) :
    ∃ table', cols = Table.filling n c ids table' ∧ table'.map Sigma.fst = table.map Sigma.fst ∧
      Parsed toDouble cs table' ∧ table'.FullStorable c ∧
      ∀ kv, kv ∈ Table.segPuts n c ids 1 table' ↔ kv ∈ Table.segPuts n c ids 1 table ∨ kv ∈ ps := by
  induction cs using List.reverseRecOn generalizing ps cols with
  | nil =>
    cases hw
    refine ⟨table, rfl, rfl, ⟨List.forall_mem_nil _, fun j q hq => ?_⟩,
      fun q hq x hx => ?_, by simp⟩
    · rw [hempty q (List.mem_of_getElem? hq)]
      exact .nil
    · rw [hempty q hq, List.take_nil] at hx
      cases hx
  | append_singleton cs call ih =>
    rw [List.foldlM_append] at hw
    obtain ⟨ps₁, cols₁, ps₂, hcs, hcall, rfl⟩ := Prog.writes_bind_eq_some.1 hw
    obtain ⟨table₁, rfl, htypes, hparsed, hs, hputs⟩ := ih hcs
    rw [List.foldlM_cons] at hcall
    obtain ⟨ps₃, cols₂, _, happend, hret, rfl⟩ := Prog.writes_bind_eq_some.1 hcall
    cases hret
    obtain ⟨q, x, hq, hx, rfl, hs', hputs'⟩ := filling_of_appendField hc happend hs
    have hlt : call.2 < table₁.length := (List.getElem?_eq_some_iff.1 hq).1
    refine ⟨_, rfl, ?_, ⟨?_, fun j q' hj => ?_⟩, hs', fun kv => ?_⟩
    · obtain ⟨_, rfl⟩ := List.getElem?_eq_some_iff.1 hq
      have hself := @List.set_getElem_self _ (table₁.map Sigma.fst) call.2 (by simpa using hlt)
      rw [List.getElem_map] at hself
      exact List.map_set.trans (hself.trans htypes)
    · rw [List.length_set, List.forall_mem_append, List.forall_mem_singleton]
      exact ⟨hparsed.lt, hlt⟩
    · -- The field goes to the column of its number, and to no other.
      rw [appended, List.filterMap_append, ← appended, List.filterMap_cons, List.filterMap_nil]
      by_cases hij : call.2 = j
      · subst hij
        rw [List.getElem?_set_self hlt] at hj
        cases hj
        rw [if_pos rfl]
        exact List.rel_append (hparsed.values _ _ hq) (.cons hx .nil)
      · rw [List.getElem?_set_ne hij] at hj
        rw [if_neg hij]
        simpa using hparsed.values _ _ hj
    · rw [hputs', hputs, List.mem_append, List.append_nil, or_assoc]

end SorParser

end Eau2

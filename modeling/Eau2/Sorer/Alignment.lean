import Eau2.Sorer.RoundTrip

/-!
# Rows do not shift

`parseFile` appends a line field by field, and appends nothing for the fields that a
line does not have. What keeps the rows in line is the constructor of `DataFrame`,
which asserts that all columns have the same size: the last column has a value for
each line with as many fields as there are columns, the first one for each line with
a field at all, so that these are the same lines (`length_eq_of_columns`).

Main result: `rows_aligned`. The data frame of a file of any length has the row of each
line with a field, the segments of one name aside.
-/

/-- A relation with what some elements have. -/
theorem List.Forall₂.of_filterMap {α β γ : Type} {f : α → Option β} {R : β → γ → Prop} {as : List α}
    {ys : List γ} (h : List.Forall₂ R (as.filterMap f) ys) (hf : ∀ a ∈ as, (f a).isSome = true) :
    List.Forall₂ (fun a y => ∃ b, f a = some b ∧ R b y) as ys := by
  induction as generalizing ys with
  | nil =>
    cases h
    exact .nil
  | cons a as ih =>
    rw [List.forall_mem_cons] at hf
    obtain ⟨b, hb⟩ := Option.isSome_iff_exists.1 hf.1
    rw [List.filterMap_cons, hb] at h
    cases h with
    | cons hab h => exact .cons ⟨b, hb, hab⟩ (ih h hf.2)

namespace Eau2

namespace SorParser

variable {lines : List Bytes} {file : Bytes}

/-! ## The lines of the rows -/

/-- The lines that contain a field. -/
def rowLines (file : Bytes) : List Bytes := (file.lines newline).filter fun line => fields line ≠ []

theorem length_column (lines : List Bytes) (j : Nat) :
    (column lines j).length = (lines.filter fun line => j < (fields line).length).length := by
  induction lines with
  | nil => rfl
  | cons line lines ih =>
    rw [column, List.filterMap_cons, ← column, List.filter_cons]
    by_cases hj : j < (fields line).length
    · rw [List.getElem?_eq_getElem hj, if_pos (decide_eq_true hj), List.length_cons,
        List.length_cons, ih]
    · rw [List.getElem?_eq_none (not_lt.1 hj), if_neg (by simpa using hj), ih]

/-- If all columns have a value for the same number of lines, every line with a field
    has a field for every column. -/
theorem length_eq_of_columns {w : Nat} (hle : ∀ line ∈ lines, (fields line).length ≤ w)
    (heq : ∀ j < w, (column lines j).length = (column lines 0).length) {line : Bytes}
    (hline : line ∈ lines)
    (hne : fields line ≠ []) : (fields line).length = w := by
  have hpos : 0 < (fields line).length := List.length_pos_of_ne_nil hne
  obtain ⟨k, rfl⟩ : ∃ k, w = k + 1 := ⟨w - 1, by have := hle line hline; omega⟩
  have hsub : (lines.filter fun line => k < (fields line).length).Sublist
      (lines.filter fun line => 0 < (fields line).length) :=
    List.monotone_filter_right lines fun line hk => by
      simp only [decide_eq_true_eq] at hk ⊢
      omega
  have hfull := hsub.eq_of_length (by
    rw [← length_column, ← length_column]
    exact heq k k.lt_succ_self)
  have hmem : line ∈ lines.filter fun line => 0 < (fields line).length :=
    List.mem_filter.2 ⟨hline, decide_eq_true hpos⟩
  rw [← hfull, List.mem_filter] at hmem
  have hlast := of_decide_eq_true hmem.2
  exact Nat.le_antisymm (hle line hline) hlast

/-- A line without fields has none for a column. -/
theorem column_rowLines (file : Bytes) (j : Nat) : column (rowLines file) j = column
    (file.lines newline) j := by
  rw [column, rowLines, column, List.filterMap_filter]
  refine List.filterMap_congr fun line _ => ?_
  by_cases hne : fields line = [] <;> simp [hne]

end SorParser

/-! ## The columns of a data frame -/

namespace Table

variable {n c : Nat} {ids : Nat → Bytes} {table : Table}

/-- The columns are added only if their last segments can be put. -/
theorem storable_of_addColumns {df : DataFrame} {r : List (Key × Value) × DataFrame}
    (hw : ((filling n c ids table).foldlM DataFrame.addColumn df).writes = some r) :
    ∀ q ∈ table, ∀ x ∈ q.2.chunk c (List.numChunks c q.2.length - 1), q.1.Storable x := by
  induction table generalizing ids df r with
  | nil => exact List.forall_mem_nil _
  | cons q table ih =>
    rw [filling, List.mapIdx_cons, List.foldlM_cons] at hw
    obtain ⟨_, df', _, hadd, hrest, -⟩ := Prog.writes_bind_eq_some.1 hw
    obtain ⟨_, _, _, -, hfin, -⟩ := Prog.writes_bind_eq_some.1 hadd
    obtain ⟨_, _, _, hfinalize, -, -⟩ := Prog.writes_bind_eq_some.1 hfin
    rw [Column.finalize, if_neg (show ¬(Column.filling q.1 n (ids 0) c q.2).finalized = true from
      Bool.false_ne_true)] at hfinalize
    obtain ⟨_, _, _, hput, -, -⟩ := Prog.writes_bind_eq_some.1 hfinalize
    exact List.forall_mem_cons.2 ⟨Column.storable_of_putInStore hput, ih hrest⟩

/-- A data frame is made of columns of the same size, whose values can be serialized. -/
theorem of_ofColumns (hc : 0 < c) (hs : table.FullStorable c) {r : List (Key × Value) × DataFrame}
    (hw : (DataFrame.ofColumns (filling n c ids table)).writes = some r) :
    table ≠ [] ∧ (∃ nrows, ∀ q ∈ table, q.2.length = nrows) ∧ table.Storable := by
  obtain ⟨_, nrows, _, hof, hrest, -⟩ := Prog.writes_bind_eq_some.1 hw
  obtain ⟨hhead, -⟩ := Prog.writes_ofOption.1 hof
  obtain ⟨_, _, _, hassert, hfold, -⟩ := Prog.writes_bind_eq_some.1 hrest
  obtain ⟨hsize, -⟩ := Prog.writes_assert.1 hassert
  cases table with
  | nil => cases hhead
  | cons q table =>
    rw [filling, List.mapIdx_cons] at hhead hsize
    obtain rfl : q.2.length = nrows := Option.some.inj hhead
    refine ⟨List.cons_ne_nil _ _, ⟨_, List.forall_mem_cons.2 ⟨rfl, fun q' hq' => ?_⟩⟩,
      fun q' hq' => ?_⟩
    · obtain ⟨i, hi, rfl⟩ := List.getElem_of_mem hq'
      exact hsize _ (List.mem_mapIdx.2 ⟨i, hi, rfl⟩)
    · rw [← List.take_append_chunk hc q'.2, List.forall_mem_append]
      exact ⟨hs q' hq', storable_of_addColumns hfold q' hq'⟩

end Table

/-! ## The rows of a data frame -/

namespace DataFrame

variable {n : Nat} {draws : Nat → Fin 10 → Fin 53} {toDouble : Bytes → BitVec 64} {file : Bytes}
  {puts : List (Key × Value)} {df : DataFrame}

/-- The table has a row for each line with a field, with the values of the fields of the
    line in their order. -/
def RowsOf (toDouble : Bytes → BitVec 64) (file : Bytes) (table : Table) : Prop :=
  ∀ (j : Nat) (q : Σ t : ColType, List t.Elem), table[j]? = some q →
    List.Forall₂ (fun line x => ∃ field, (SorParser.fields line)[j]? = some field ∧
      SorParser.cellValue toDouble field q.1 = some x) (SorParser.rowLines file) q.2

/-- Every line with a field has one for each column, if the columns have the same size. -/
theorem length_fields_of_parsed {table : Table} (hne : table ≠ []) {nrows : Nat}
    (hlen : ∀ q ∈ table, q.2.length = nrows)
    (hparsed : SorParser.Parsed toDouble (SorParser.calls (file.lines newline)) table) :
    ∀ line ∈ SorParser.rowLines file, (SorParser.fields line).length = table.length := by
  have hcolumn (j : Nat) (hj : j < table.length) :
      (SorParser.column (file.lines newline) j).length = nrows := by
    rw [← hlen _ (List.getElem_mem hj),
      ← (hparsed.values j _ (List.getElem?_eq_getElem hj)).length_eq, SorParser.appended_calls]
  have hpos : 0 < table.length := List.length_pos_of_ne_nil hne
  -- a field beyond the last column would have been appended to no column
  have hle : ∀ line ∈ file.lines newline, (SorParser.fields line).length ≤ table.length := by
    intro line hline
    by_contra! hgt
    refine absurd (hparsed.lt ((SorParser.fields line)[table.length], table.length) ?_)
      (Nat.lt_irrefl _)
    exact List.mem_flatMap.2 ⟨line, hline, List.mem_zipIdx_iff_getElem?.2
      (List.getElem?_eq_getElem hgt)⟩
  intro line hline
  obtain ⟨hmem, hfields⟩ := List.mem_filter.1 hline
  exact SorParser.length_eq_of_columns hle
    (fun j hj => (hcolumn j hj).trans (hcolumn 0 hpos).symm) hmem (of_decide_eq_true hfields)

/-- A table of columns of the same size has the rows of the file it is parsed from. -/
theorem rowsOf_of_parsed {table : Table} (hne : table ≠ []) {nrows : Nat}
    (hlen : ∀ q ∈ table, q.2.length = nrows)
    (hparsed : SorParser.Parsed toDouble (SorParser.calls (file.lines newline)) table) :
    RowsOf toDouble file table := by
  have hfull := length_fields_of_parsed hne hlen hparsed
  intro j q hq
  have hvalues := hparsed.values j q hq
  rw [SorParser.appended_calls, ← SorParser.column_rowLines] at hvalues
  refine hvalues.of_filterMap fun line hline => ?_
  rw [List.getElem?_eq_getElem (by rw [hfull line hline]; exact (List.getElem?_eq_some_iff.1 hq).1)]
  rfl

/-- The columns of the data frame made of a file have the types guessed and the rows of the file. -/
theorem table_ofSorFile
    (hw : (DataFrame.ofSorFile n draws toDouble file).writes = some (puts, df)) :
    ∃ table : Table, (table ≠ [] ∧ table.map Sigma.fst = (SorParser.guessed file).map Sigma.fst) ∧
      RowsOf toDouble file table ∧ table.Storable ∧
      (∀ q ∈ table, q.2.length = (SorParser.rowLines file).length) ∧
      (∀ line ∈ SorParser.rowLines file, (SorParser.fields line).length = table.length) ∧
      df = ⟨table.filled n defaultSegmentCapacity fun i => colId (draws i),
        ⟨table.map (·.1.getType), (SorParser.rowLines file).length⟩⟩ ∧
      ∀ kv, kv ∈ puts ↔ kv ∈ table.segPuts n defaultSegmentCapacity
      (fun i => colId (draws i)) 0 := by
  have hcap : 0 < defaultSegmentCapacity := by decide
  obtain ⟨_, p, _, hguess, hrest₁, rfl⟩ := Prog.writes_bind_eq_some.1 hw
  obtain ⟨hp, rfl⟩ := Prog.writes_ofOption.1 hguess
  obtain ⟨ps₁, p', _, hparse, hrest₂, rfl⟩ := Prog.writes_bind_eq_some.1 hrest₁
  obtain ⟨_, cols, ps₂, hof, hmake, rfl⟩ := Prog.writes_bind_eq_some.1 hrest₂
  obtain ⟨hcols, rfl⟩ := Prog.writes_ofOption.1 hof
  obtain ⟨rest, hwhole, hcolumns⟩ := SorParser.columns_guessSchema hp
  obtain ⟨r', heq⟩ := SorParser.parseFile_calls n toDouble hwhole hcolumns
  rw [heq, map_eq_pure_bind] at hparse
  obtain ⟨ps₃, cols', _, hcalls, hret, rfl⟩ := Prog.writes_bind_eq_some.1 hparse
  cases hret
  cases hcols
  obtain ⟨table, rfl, htypes, hparsed, hs, hputs⟩ := SorParser.parsed_of_writes hcap hcalls
    SorParser.guessed_empty
  obtain ⟨hne, ⟨nrows, hlen⟩, hstorable⟩ := Table.of_ofColumns hcap hs hmake
  have hrows : RowsOf toDouble file table := rowsOf_of_parsed hne hlen hparsed
  have hlen' : ∀ q ∈ table, q.2.length = (SorParser.rowLines file).length := by
    intro q hq
    obtain ⟨j, hj⟩ := List.mem_iff_getElem?.1 hq
    exact (hrows j q hj).length_eq.symm
  rw [Table.ofColumns_filling hstorable hne hlen', Prog.writes_putAll] at hmake
  cases hmake
  refine ⟨table, ⟨hne, htypes⟩, hrows, hstorable, hlen', length_fields_of_parsed hne hlen hparsed,
    rfl, fun kv => ?_⟩
  -- no segment has been put for the columns as they are guessed, which are empty
  have hguessed : kv ∉ Table.segPuts n defaultSegmentCapacity (fun i => colId (draws i)) 1
      (SorParser.guessed file) := by
    intro hkv
    obtain ⟨i, q, hq, hkv⟩ := Table.mem_segPuts_iff.1 hkv
    rw [(SorParser.getElem?_guessed hq).2] at hkv
    simp [Column.segPuts, List.numChunks] at hkv
  rw [Table.mem_segPuts_zero, hputs, or_iff_right hguessed]
  simp only [List.nil_append, List.append_nil, List.mem_append]

theorem rowsOf_ofSorFile
    (hw : (DataFrame.ofSorFile n draws toDouble file).writes = some (puts, df)) :
    ∃ table, RowsOf toDouble file table ∧ table.Storable ∧
      (∀ q ∈ table, q.2.length = (SorParser.rowLines file).length) ∧
      (∀ line ∈ SorParser.rowLines file, (SorParser.fields line).length = table.length) ∧
      df = ⟨table.filled n defaultSegmentCapacity fun i => colId (draws i),
        ⟨table.map (·.1.getType), (SorParser.rowLines file).length⟩⟩ ∧
      ∀ kv, kv ∈ puts ↔ kv ∈ table.segPuts n defaultSegmentCapacity
      (fun i => colId (draws i)) 0 := by
  obtain ⟨table, -, h⟩ := table_ofSorFile hw
  exact ⟨table, h⟩

/-- On the store `m`, the rows of the data frame are those of the file. -/
structure HasRowsOf (toDouble : Bytes → BitVec 64) (file : Bytes) (m : Key → Option Value)
    (df : DataFrame) :
    Prop where
  nrows : df.nrows = (SorParser.rowLines file).length
  table : ∃ table, RowsOf toDouble file table ∧ df.ReadsAs m table

/-- A data frame is made of a file only if its lines have a field for every column, or
    none. Its rows are those of the file, if the segments have distinct names. -/
theorem rows_aligned (hlt : file.length < 2 ^ 64)
    (hw : (DataFrame.ofSorFile n draws toDouble file).writes = some (puts, df)) :
    (∀ line ∈ file.lines newline, SorParser.fields line = [] ∨
      (SorParser.fields line).length = df.ncols) ∧
      (DistinctSegments draws df.ncols (SorParser.rowLines file).length →
        ∀ m, df.HasRowsOf toDouble file (Prog.writeAll puts m)) := by
  obtain ⟨table, hrows, hs, hlen, hfull, rfl, hputs⟩ := rowsOf_ofSorFile hw
  have hncols : (DataFrame.mk (table.filled n defaultSegmentCapacity fun i => colId (draws i))
      ⟨table.map (·.1.getType), (SorParser.rowLines file).length⟩).ncols =
        table.length := List.length_map _
  have hnrows : (SorParser.rowLines file).length < 2 ^ 64 :=
    ((List.length_filter_le _ _).trans (List.length_lines_le file)).trans_lt hlt
  rw [hncols]
  refine ⟨fun line hline => ?_, fun hdistinct m => ⟨rfl, table, hrows, ?_⟩⟩
  · by_cases hne : SorParser.fields line = []
    · exact .inl hne
    · exact .inr (hfull line (List.mem_filter.2 ⟨hline, decide_eq_true hne⟩))
  · exact readsAs_filled hs hlen hnrows hdistinct hputs m

/-- Two rows of three cells. -/
theorem rows_aligned_two : ∃ puts df,
    (DataFrame.ofSorFile 2 (fun i _ => Fin.ofNat 53 i) (fun _ => 0) twoLines).writes =
      some (puts, df) ∧
      df.HasRowsOf (fun _ => 0) twoLines (Prog.writeAll puts fun _ => none) := by
  obtain ⟨reader, -, -, h⟩ := SorParser.guessSchema_eq 2 (fun i _ => Fin.ofNat 53 i) twoLines
  rw [if_neg (by decide)] at h
  obtain ⟨puts, heq, -⟩ := DataFrame.ofSorFile_eq (fun _ => 0) (List.cons_ne_nil _ _)
    (show ∀ r ∈ twoRows, r.values.map Data.type = [.bool, .int, .string] by decide)
      rendersFile_twoRows h rfl
  refine ⟨puts, _, by rw [heq, Prog.writes_putAll], ?_⟩
  exact (rows_aligned (by decide) (by rw [heq, Prog.writes_putAll])).2 distinctSegments_twoRows _

/-- A row of one of two segments of the same name comes from a line of the other. -/
theorem rows_aligned_fails :
    ¬ ∀ (n : Nat) (draws : Nat → Fin 10 → Fin 53) (toDouble : Bytes → BitVec 64) (file : Bytes)
      (puts : List (Key × Value)) (df : DataFrame) (m : Key → Option Value), file.length < 2 ^ 64 →
      (DataFrame.ofSorFile n draws toDouble file).writes = some (puts, df) →
      df.HasRowsOf toDouble file (Prog.writeAll puts m) := by
  intro h
  obtain ⟨bs, _, puts, df, col, hlt, -, -, heq, hcol, hschema, i, j, hfalse, htrue, hget⟩ :=
    exists_collision
  obtain ⟨-, table, hrows, hreads⟩ := h 1 _ (fun _ => 0) _ puts df (fun _ => none) hlt
    (by rw [heq, Prog.writes_putAll])
  have hlen : table.length = 1 := by
    rw [← hreads.ncols, ncols, hschema]
    rfl
  obtain ⟨q, rfl⟩ := List.length_eq_one_iff.1 hlen
  have htype : q.1 = .bool := by
    have hq := hreads.colType 0 q rfl
    rw [colType, hschema] at hq
    exact ColType.getType_injective (Option.some.inj hq.symm)
  obtain ⟨t, xs⟩ := q
  dsimp only at htype
  subst htype
  have hrowLines : SorParser.rowLines (boolFile bs) = bs.map boolLine := by
    rw [SorParser.rowLines, lines_boolFile, List.filter_eq_self, List.forall_mem_map]
    intro b _
    cases b <;> decide
  have hxs : xs = bs := by
    have hvalues := hrows 0 _ rfl
    rw [hrowLines, List.forall₂_map_left_iff] at hvalues
    have hcell (b : Bool) : ∃ field, (SorParser.fields (boolLine b))[0]? = some field ∧
        SorParser.cellValue (fun _ => 0) field .bool = some b := by
      cases b
      · exact ⟨lit "0", by decide, rfl⟩
      · exact ⟨lit "1", by decide, rfl⟩
    have hall : List.Forall₂ (· = ·) bs xs := by
      refine hvalues.imp fun b x hvalue => ?_
      obtain ⟨field, hfield, hx⟩ := hvalue
      obtain ⟨field', hfield', hb⟩ := hcell b
      cases hfield.symm.trans hfield'
      exact Option.some.inj (hb.symm.trans hx)
    rw [List.forall₂_eq_eq_eq] at hall
    exact hall.symm
  subst hxs
  obtain ⟨hi, hbi⟩ := List.getElem?_eq_some_iff.1 hfalse
  obtain ⟨hj, hbj⟩ := List.getElem?_eq_some_iff.1 htrue
  have hvalue := hreads.eq_of_get hcol hi hj hget
  rw [hbi, hbj] at hvalue
  cases hvalue

end DataFrame

end Eau2

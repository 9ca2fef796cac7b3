import Eau2.DataFrame.RoundTrip
import Eau2.Sorer.Append
import Eau2.Sorer.Render

/-!
# Parsing a rendered table

`parseFile` pushes the cells of a rendered table on the columns, row after row, so
that the columns are those to which the columns of the table have been pushed
(`Table.filling`), and what it has put in the store are their full segments
(`Table.segPuts`). The data frame made of them puts the others.
-/

namespace Eau2

namespace Table

variable {n c : Nat} {ids : Nat → Bytes} {table : Table}

theorem segPuts_append (k : Nat) (front back : Table) : segPuts n c ids k (front ++ back) =
    segPuts n c ids k front ++ segPuts n c (fun i => ids (i + front.length)) k back := by
  rw [segPuts, List.mapIdx_append, List.flatten_append]
  rfl

theorem types_addRow {r : Row} (h : r.values.map Data.type = table.map Sigma.fst) :
    (table.addRow r).map Sigma.fst = table.map Sigma.fst := by
  have hlen : table.length ≤ r.values.length := by simpa using (congrArg List.length h).ge
  rw [addRow, List.map_map]
  change (table.zip r.values).map (Sigma.fst ∘ Prod.fst) = _
  rw [← List.map_map, List.map_fst_zip hlen]

end Table

/-- The values of a rendered row can be stored. -/
theorem Renders.storable {r : Row} {line : Bytes} (h : Renders r.values line) : r.Storable := by
  intro d hd t x hx
  obtain ⟨field, -, hfield⟩ := List.Forall₂.exists_mem h.fields hd
  obtain ⟨-, y, hy, hs, -⟩ := hfield.fieldValue fun _ => 0
  obtain rfl : t = d.type := by cases d <;> cases t <;> first | rfl | cases hx
  rw [hx] at hy
  cases hy
  exact hs

namespace SorParser

variable (n : Nat) {c : Nat} (ids : Nat → Bytes) (toDouble : Bytes → BitVec 64)

/-- A value appended to the column after those of `front`. -/
theorem appendField_filling (hc : 0 < c) (front back : Table) {q : Σ t : ColType, List t.Elem}
    (hs : ∀ x ∈ q.2, q.1.Storable x) {d : Data} (ht : d.type = q.1) {field : Bytes}
    (hd : d.Field field) :
    ∃ qs, appendField n toDouble field front.length (Table.filling n c ids (front ++ q :: back)) =
        Prog.putAll qs (.ret (Table.filling n c ids (front ++ Table.pushCell q d :: back))) ∧
      ∀ kv, kv ∈ Table.segPuts n c ids 1 (front ++ Table.pushCell q d :: back) ↔
        kv ∈ Table.segPuts n c ids 1 (front ++ q :: back) ∨ kv ∈ qs := by
  obtain ⟨t, xs⟩ := q
  change d.type = t at ht
  subst ht
  obtain ⟨hne, x, hx, -, hval⟩ := hd.fieldValue toDouble
  obtain ⟨qs, hpush, hputs⟩ := Column.pushBack_filling n (ids (0 + front.length)) hc hs x
  -- the value of the field is that of the cell, in the type of the column
  have hcell : Table.pushCell ⟨d.type, xs⟩ d = ⟨d.type, xs ++ [x]⟩ := by
    rw [Table.pushCell, hx]; rfl
  have hget : (front ++ ⟨d.type, xs⟩ :: back)[front.length]? = some ⟨d.type, xs⟩ := by
    rw [List.getElem?_append_right le_rfl, Nat.sub_self, List.getElem?_cons_zero]
  have hset : (front ++ ⟨d.type, xs⟩ :: back).set front.length ⟨d.type, xs ++ [x]⟩ =
      front ++ ⟨d.type, xs ++ [x]⟩ :: back := by
    rw [List.set_append_right _ _ le_rfl, Nat.sub_self, List.set_cons_zero]
  refine ⟨qs, ?_, fun kv => ?_⟩
  · rw [appendField_eq hget (show cellValue toDouble field d.type = some x by rw
      [cellValue, if_neg hne, hval])]
    rw [Nat.zero_add] at hpush
    rw [hpush, Prog.putAll_bind, Prog.ret_bind, ← Table.filling_set front.length
      ⟨d.type, xs ++ [x]⟩, hset, hcell]
  · rw [hcell, Table.segPuts_append, Table.segPuts_append]
    simp only [Table.segPuts, List.mapIdx_cons, List.flatten_cons, hputs, List.mem_append]
    tauto

/-- The values of a row appended to the columns after those of `front`. -/
theorem appendFields_filling (hc : 0 < c) (front : Table) {table : Table} (hs : table.Storable)
    {ds : List Data} {fs : List Bytes} (ht : ds.map Data.type = table.map Sigma.fst)
    (hds : List.Forall₂ Data.Field ds fs) :
    ∃ qs, (fs.zipIdx front.length).foldlM
          (fun columns p => appendField n toDouble p.1 p.2 columns)
          (Table.filling n c ids (front ++ table)) =
        Prog.putAll qs (.ret (Table.filling n c ids (front ++ table.addRow ⟨ds⟩))) ∧
      ∀ kv, kv ∈ Table.segPuts n c ids 1 (front ++ table.addRow ⟨ds⟩) ↔
        kv ∈ Table.segPuts n c ids 1 (front ++ table) ∨ kv ∈ qs := by
  induction hds generalizing front table with
  | nil =>
    obtain rfl : table = [] := List.map_eq_nil_iff.1 ht.symm
    exact ⟨[], rfl, fun kv => by simp [Table.addRow]⟩
  | @cons d field ds fs hd _ ih =>
    obtain ⟨q, table, rfl, hq, htable⟩ := List.map_eq_cons_iff.1 ht.symm
    rw [Table.Storable, List.forall_mem_cons] at hs
    obtain ⟨qs₁, happend, hputs₁⟩ :=
      appendField_filling n ids toDouble hc front table hs.1 hq.symm hd
    obtain ⟨qs₂, hrest, hputs₂⟩ := ih (front ++ [Table.pushCell q d]) hs.2 htable.symm
    have haddRow : Table.addRow (q :: table) ⟨d :: ds⟩ = Table.pushCell q d :: Table.addRow table
      ⟨ds⟩ := rfl
    simp only [List.append_assoc, List.singleton_append, List.length_append, List.length_singleton]
      at hrest hputs₂
    refine ⟨qs₁ ++ qs₂, ?_, fun kv => ?_⟩
    · rw [List.zipIdx_cons, List.foldlM_cons, happend, Prog.putAll_bind, Prog.ret_bind,
        hrest, haddRow, Prog.putAll_append]
    · rw [haddRow, hputs₂, hputs₁, List.mem_append, or_assoc]

/-- The rows of a table, appended one after the other. -/
theorem appendLines_filling (hc : 0 < c) {table : Table} (hs : table.Storable) {rows : List Row}
    {lines : List Bytes} (ht : ∀ r ∈ rows, r.values.map Data.type = table.map Sigma.fst)
    (h : List.Forall₂ (fun r line => Renders r.values line) rows lines) :
    ∃ qs, lines.foldlM (fun columns line => appendLine n toDouble line columns)
          (Table.filling n c ids table) =
        Prog.putAll qs (.ret (Table.filling n c ids (rows.foldl Table.addRow table))) ∧
      ∀ kv, kv ∈ Table.segPuts n c ids 1 (rows.foldl Table.addRow table) ↔
        kv ∈ Table.segPuts n c ids 1 table ∨ kv ∈ qs := by
  induction h generalizing table with
  | nil => exact ⟨[], rfl, fun kv => by simp⟩
  | @cons r line rows lines hr _ ih =>
    rw [List.forall_mem_cons] at ht
    obtain ⟨qs₁, hrow, hputs₁⟩ := appendFields_filling n ids toDouble hc [] hs ht.1 hr.fields
    have htypes : (table.addRow r).map Sigma.fst = table.map Sigma.fst := Table.types_addRow ht.1
    obtain ⟨qs₂, hrest, hputs₂⟩ := ih (hs.addRow hr.storable) fun r' hr' =>
      (ht.2 r' hr').trans htypes.symm
    rw [List.length_nil, List.nil_append, List.nil_append] at hrow
    rw [List.nil_append, List.nil_append] at hputs₁
    refine ⟨qs₁ ++ qs₂, ?_, fun kv => ?_⟩
    · rw [List.foldlM_cons, appendLine_eq, hrow, Prog.putAll_bind, Prog.ret_bind, hrest,
        Prog.putAll_append]
      rfl
    · rw [List.foldl_cons, hputs₂, hputs₁, List.mem_append, or_assoc]

/-- `parseFile` appends the rows of a rendered table. -/
theorem parseFile_eq (hc : 0 < c) {p : SorParser} {file rest : Bytes}
    (hw : p.reader.Whole file rest)
    {table : Table} (hp : p.columns = some (Table.filling n c ids table)) (hs : table.Storable)
    {rows : List Row} (ht : ∀ r ∈ rows, r.values.map Data.type = table.map Sigma.fst)
    (h : RendersFile rows file) :
    ∃ qs p', p.parseFile n toDouble = Prog.putAll qs (.ret p') ∧
      p'.columns = some (Table.filling n c ids (rows.foldl Table.addRow table)) ∧
      ∀ kv, kv ∈ Table.segPuts n c ids 1 (rows.foldl Table.addRow table) ↔
        kv ∈ Table.segPuts n c ids 1 table ∨ kv ∈ qs := by
  obtain ⟨r', hparse⟩ := parseFile_calls n toDouble hw hp
  obtain ⟨qs, happend, hputs⟩ := appendLines_filling n ids toDouble hc hs ht h
  refine ⟨qs, ⟨r', some (Table.filling n c ids (rows.foldl Table.addRow table)), p.typeGuesses⟩, ?_,
    rfl, hputs⟩
  rw [hparse, ← foldlM_appendLine, happend, ← bind_pure_comp, Prog.putAll_bind]
  rfl

end SorParser

namespace Table

variable {n c : Nat} {ids : Nat → Bytes} {table : Table}

/-- The puts of the last segments of the columns. -/
def lastPuts (n c : Nat) (ids : Nat → Bytes) (table : Table) : List (Key × Value) :=
  table.mapIdx fun i q => Column.segPut q.1 n (ids i) c q.2 (List.numChunks c q.2.length - 1)

theorem foldlM_addColumn (hs : table.Storable) (df : DataFrame)
    (hlen : ∀ q ∈ table, q.2.length = df.schema.length) :
    (filling n c ids table).foldlM DataFrame.addColumn df =
      Prog.putAll (lastPuts n c ids table) (.ret ⟨df.columns ++ filled n c ids table,
        ⟨df.schema.colTypes ++ table.map (·.1.getType), df.schema.numRows⟩⟩) := by
  induction table generalizing df ids with
  | nil => simp [filling, filled, lastPuts]
  | cons q table ih =>
    rw [Storable, List.forall_mem_cons] at hs
    rw [List.forall_mem_cons] at hlen
    have hadd : df.addColumn ⟨q.1, Column.filling q.1 n (ids 0) c q.2⟩ =
        Prog.putAll [Column.segPut q.1 n (ids 0) c q.2 (List.numChunks c q.2.length - 1)]
          (.ret ⟨df.columns ++ [⟨q.1, Column.filled q.1 n (ids 0) c q.2⟩],
            ⟨df.schema.colTypes ++ [q.1.getType], df.schema.numRows⟩⟩) := by
      rw [DataFrame.addColumn, Prog.assert_true (show (Column.filling q.1 n (ids 0) c q.2).size =
        _ from hlen.1), Prog.ret_bind, Column.finalize_filling hs.1, Prog.putAll_bind]
      rfl
    have hrest := @ih (fun i => ids (i + 1)) hs.2
      ⟨df.columns ++ [⟨q.1, Column.filled q.1 n (ids 0) c q.2⟩],
        ⟨df.schema.colTypes ++ [q.1.getType], df.schema.numRows⟩⟩ hlen.2
    rw [filling, List.mapIdx_cons, List.foldlM_cons, hadd, Prog.putAll_bind, Prog.ret_bind]
    refine (congrArg (Prog.putAll _) hrest).trans ?_
    rw [lastPuts, lastPuts, filled, filled, List.mapIdx_cons, List.mapIdx_cons,
      ← Prog.putAll_append]
    simp

/-- The data frame made of the columns puts their last segments. -/
theorem ofColumns_filling (hs : table.Storable) (hne : table ≠ []) {nrows : Nat}
    (hlen : ∀ q ∈ table, q.2.length = nrows) :
    DataFrame.ofColumns (filling n c ids table) = Prog.putAll (lastPuts n c ids table)
      (.ret ⟨filled n c ids table, ⟨table.map (·.1.getType), nrows⟩⟩) := by
  obtain ⟨q, rest, rfl⟩ := List.exists_cons_of_ne_nil hne
  have hsize : ∀ p ∈ (filling n c ids (q :: rest)).tail, p.2.size = nrows := by
    intro p hp
    obtain ⟨i, hi, rfl⟩ := List.mem_mapIdx.1 (List.mem_of_mem_tail hp)
    exact hlen _ (List.getElem_mem hi)
  have hhead : (filling n c ids (q :: rest)).head?.map (·.2.size) = some nrows := by
    rw [List.forall_mem_cons] at hlen
    rw [filling, List.mapIdx_cons, List.head?_cons, Option.map_some, ← hlen.1]
    rfl
  rw [DataFrame.ofColumns, hhead, Prog.ofOption_some, Prog.ret_bind, Prog.assert_true hsize,
    Prog.ret_bind, foldlM_addColumn hs ⟨[], Schema.empty.addRows nrows⟩ fun q' hq' =>
      (hlen q' hq').trans (Nat.zero_add nrows).symm]
  simp [Schema.empty, Schema.addRows]

/-- All the segments have been put then. -/
theorem mem_segPuts_zero (kv : Key × Value) : kv ∈ segPuts n c ids 0 table ↔
    kv ∈ segPuts n c ids 1 table ∨ kv ∈ lastPuts n c ids table := by
  induction table generalizing ids with
  | nil => simp [segPuts, lastPuts]
  | cons q table ih =>
    have hrest := @ih fun i => ids (i + 1)
    simp only [segPuts, lastPuts, List.mapIdx_cons, List.flatten_cons, List.mem_append,
      List.mem_cons, Nat.sub_zero, Column.segPuts_numChunks] at hrest ⊢
    rw [hrest]
    simp only [List.not_mem_nil, or_false]
    tauto

theorem mem_segPuts {kv : Key × Value} : kv ∈ segPuts n c ids 0 table ↔
    ∃ i q j, table[i]? = some q ∧ j < List.numChunks c q.2.length ∧
      kv = Column.segPut q.1 n (ids i) c q.2 j := by
  rw [mem_segPuts_iff]
  constructor
  · rintro ⟨i, q, hq, hkv⟩
    obtain ⟨j, hj, rfl⟩ := List.mem_map.1 hkv
    exact ⟨i, q, j, hq, List.mem_range.1 hj, rfl⟩
  · rintro ⟨i, q, j, hq, hj, rfl⟩
    exact ⟨i, q, hq, List.mem_map_of_mem (List.mem_range.2 hj)⟩

/-! ## The table of rendered rows -/

theorem length_addRow {ds : List Data} {fs : List Bytes} {k : Nat}
    (hds : List.Forall₂ Data.Field ds fs)
    (ht : ds.map Data.type = table.map Sigma.fst) (hk : ∀ q ∈ table, q.2.length = k) :
    ∀ q ∈ table.addRow ⟨ds⟩, q.2.length = k + 1 := by
  induction hds generalizing table with
  | nil => simp [addRow]
  | @cons d field ds fs hd _ ih =>
    obtain ⟨⟨t, xs⟩, table, rfl, hq, htable⟩ := List.map_eq_cons_iff.1 ht.symm
    change t = d.type at hq
    subst hq
    obtain ⟨-, x, hx, -⟩ := hd.fieldValue fun _ => 0
    rw [List.forall_mem_cons] at hk
    change ∀ q ∈ pushCell ⟨d.type, xs⟩ d :: addRow table ⟨ds⟩, q.2.length = k + 1
    rw [List.forall_mem_cons, pushCell, hx]
    exact ⟨by simpa using hk.1, ih htable.symm hk.2⟩

/-- The columns of rendered rows have the types of the rows, and as many values as there
    are rows. -/
theorem foldl_addRow {rows : List Row} {lines : List Bytes} {k : Nat}
    (h : List.Forall₂ (fun r line => Renders r.values line) rows lines)
    (ht : ∀ r ∈ rows, r.values.map Data.type = table.map Sigma.fst)
    (hk : ∀ q ∈ table, q.2.length = k) :
    (rows.foldl addRow table).map Sigma.fst = table.map Sigma.fst ∧
      ∀ q ∈ rows.foldl addRow table, q.2.length = k + rows.length := by
  induction h generalizing table k with
  | nil => exact ⟨rfl, hk⟩
  | @cons r line rows lines hr _ ih =>
    rw [List.forall_mem_cons] at ht
    have htypes := types_addRow ht.1
    obtain ⟨htypes', hlen⟩ := ih (fun r' hr' => (ht.2 r' hr').trans htypes.symm)
      (length_addRow hr.fields ht.1 hk)
    refine ⟨htypes'.trans htypes, fun q hq => (hlen q hq).trans ?_⟩
    rw [List.length_cons]
    omega

theorem types_empty (ts : List ColType) :
    (ts.map fun t => (⟨t, []⟩ : Σ t : ColType, List t.Elem)).map Sigma.fst = ts := by
  rw [List.map_map]
  exact List.map_id ts

theorem length_empty (ts : List ColType) :
    ∀ q ∈ ts.map fun t => (⟨t, []⟩ : Σ t : ColType, List t.Elem), q.2.length = 0 := by
  intro q hq
  obtain ⟨t, -, rfl⟩ := List.mem_map.1 hq
  rfl

theorem storable_empty (ts : List ColType) : Storable (ts.map fun t => ⟨t, []⟩) := by
  intro q hq x hx
  exact absurd (List.length_pos_of_mem hx) (length_empty ts q hq).not_gt

/-- Nothing is put before a column has a value. -/
theorem not_mem_segPuts_empty (ts : List ColType) (kv : Key × Value) :
    kv ∉ segPuts n c ids 1 (ts.map fun t => ⟨t, []⟩) := by
  rw [segPuts, List.mem_flatten]
  rintro ⟨ps, hps, hkv⟩
  obtain ⟨i, hi, rfl⟩ := List.mem_mapIdx.1 hps
  have hlen := length_empty ts _ (List.getElem_mem hi)
  simp [Column.segPuts, List.numChunks, hlen] at hkv

/-- The table of rendered rows. -/
theorem ofRows_rendered {ts : List ColType} {rows : List Row} {lines : List Bytes}
    (h : List.Forall₂ (fun r line => Renders r.values line) rows lines)
    (ht : ∀ r ∈ rows, r.values.map Data.type = ts) :
    (ofRows ts rows).map Sigma.fst = ts ∧ (∀ q ∈ ofRows ts rows, q.2.length = rows.length) ∧
      (ofRows ts rows).Storable := by
  obtain ⟨htypes, hlen⟩ := foldl_addRow h (fun r hr => (ht r hr).trans (types_empty ts).symm)
    (length_empty ts)
  refine ⟨htypes.trans (types_empty ts), fun q hq => (hlen q hq).trans (Nat.zero_add _), ?_⟩
  refine (storable_empty ts).foldl_addRow fun r hr => ?_
  obtain ⟨line, -, hline⟩ := List.Forall₂.exists_mem h hr
  exact hline.storable

end Table

/-- The segments of the columns of a table have distinct names. -/
def DistinctSegments (draws : Nat → Fin 10 → Fin 53) (ncols nrows : Nat) : Prop :=
  ∀ i < ncols, ∀ i' < ncols, ∀ j < List.numChunks defaultSegmentCapacity nrows,
    ∀ j' < List.numChunks defaultSegmentCapacity nrows,
      segName (colId (draws i)) j = segName (colId (draws i')) j' → i = i' ∧ j = j'

section

variable {n : Nat} {draws : Nat → Fin 10 → Fin 53} (toDouble : Bytes → BitVec 64) {file : Bytes}
  {ts : List ColType} {rows : List Row} {p : SorParser}

/-- The data frame made of a file with a rendered table, and the segments put. -/
theorem DataFrame.ofSorFile_eq (hts : ts ≠ []) (ht : ∀ r ∈ rows, r.values.map Data.type = ts)
    (hfile : RendersFile rows file) (hguess : (SorParser.ofFile file).guessSchema n draws = some p)
    (hp : p.columns.map (List.map Sigma.fst) = some ts) :
    ∃ puts, DataFrame.ofSorFile n draws toDouble file = Prog.putAll puts
        (.ret ⟨(Table.ofRows ts rows).filled n defaultSegmentCapacity fun i => colId (draws i),
          ⟨ts.map ColType.getType, rows.length⟩⟩) ∧
      ∀ kv, kv ∈ puts ↔
        kv ∈ (Table.ofRows ts rows).segPuts n defaultSegmentCapacity
        (fun i => colId (draws i)) 0 := by
  obtain ⟨rest, hw, hcolumns⟩ := SorParser.columns_guessSchema hguess
  rw [hcolumns, Option.map_some, Option.some.injEq] at hp
  -- the columns of the types guessed, which are those of the table
  have htable : SorParser.guessed file = ts.map fun t => ⟨t, []⟩ := by
    refine List.ext_getElem? fun i => ?_
    rw [← hp, List.getElem?_map, List.getElem?_map, Table.getElem?_filling]
    cases hi : (SorParser.guessed file)[i]? with
    | none => rfl
    | some q => rw [(SorParser.getElem?_guessed hi).2]; rfl
  rw [htable] at hcolumns
  obtain ⟨htypes, hlen, hs⟩ := Table.ofRows_rendered hfile ht
  obtain ⟨qs, p', hparse, hp', hputs⟩ :=
    SorParser.parseFile_eq n (fun i => colId (draws i)) toDouble
    (by decide) hw hcolumns (Table.storable_empty ts)
    (fun r hr => (ht r hr).trans (Table.types_empty ts).symm) hfile
  have hne : Table.ofRows ts rows ≠ [] := by
    intro hnil
    rw [hnil] at htypes
    exact hts htypes.symm
  have hchars : (Table.ofRows ts rows).map (·.1.getType) = ts.map ColType.getType := by
    rw [← congrArg (List.map ColType.getType) htypes, List.map_map]
    rfl
  refine ⟨qs ++ Table.lastPuts n defaultSegmentCapacity (fun i => colId (draws i))
    (Table.ofRows ts rows), ?_, fun kv => ?_⟩
  · rw [DataFrame.ofSorFile, hguess, Prog.ofOption_some, Prog.ret_bind, hparse, Prog.putAll_bind,
      Prog.ret_bind,
      hp', Prog.ofOption_some, Prog.ret_bind, ← Table.ofRows, Table.ofColumns_filling hs hne hlen,
      Prog.putAll_append, hchars]
  · rw [Table.mem_segPuts_zero, List.mem_append, Table.ofRows, hputs]
    rw [or_iff_right (Table.not_mem_segPuts_empty ts kv)]

/-- Segments of distinct names are all in the store once they have been put. -/
theorem Table.holds_segPuts {table : Table} {nrows : Nat} (hlen : ∀ q ∈ table, q.2.length = nrows)
    (hdistinct : DistinctSegments draws table.length nrows) {puts : List (Key × Value)}
    (hputs : ∀ kv, kv ∈ puts ↔
      kv ∈ table.segPuts n defaultSegmentCapacity (fun i => colId (draws i)) 0)
      (m : Key → Option Value) :
    Prog.Holds puts (Prog.writeAll puts m) := by
  refine Prog.holds_writeAll (fun kv hkv kv' hkv' hkey => ?_) m
  obtain ⟨i, q, j, hq, hj, rfl⟩ := Table.mem_segPuts.1 ((hputs kv).1 hkv)
  obtain ⟨i', q', j', hq', hj', rfl⟩ := Table.mem_segPuts.1 ((hputs kv').1 hkv')
  have hname := congrArg Key.k hkey
  change (Column.segKey _ _ _).k = (Column.segKey _ _ _).k at hname
  rw [Column.segKey_k, Column.segKey_k] at hname
  rw [hlen q (List.mem_of_getElem? hq)] at hj
  rw [hlen q' (List.mem_of_getElem? hq')] at hj'
  obtain ⟨rfl, rfl⟩ := hdistinct i (List.getElem?_eq_some_iff.1 hq).1 i'
    (List.getElem?_eq_some_iff.1 hq').1
    j hj j' hj' hname
  cases hq.symm.trans hq'
  rfl

theorem DistinctSegments.distinct {ncols nrows i : Nat} (h : DistinctSegments draws ncols nrows)
    (hi : i < ncols) :
    Column.Distinct (colId (draws i)) (List.numChunks defaultSegmentCapacity nrows) :=
  List.Nodup.map_on (fun j hj j' hj' hname =>
    (h i hi i hi j (List.mem_range.1 hj) j' (List.mem_range.1 hj') hname).2) List.nodup_range

/-- The columns of a table, finalized, with their segments in the store. -/
theorem Table.isStored_filled {table : Table} {nrows c : Nat} (hc : 0 < c) (hs : table.Storable)
    (hlen : ∀ q ∈ table, q.2.length = nrows) (hlt : nrows < 2 ^ 64)
    (hdistinct : ∀ i < table.length, Column.Distinct (colId (draws i)) (List.numChunks c nrows))
    {m : Key → Option Value} (hm : Prog.Holds (table.segPuts n c (fun i => colId (draws i)) 0) m) :
    List.Forall₂ (ColumnRel.Lift (Column.IsStored m n c))
      (table.filled n c fun i => colId (draws i)) table := by
  refine List.Forall₂.mapIdx_left fun i q hq => ?_
  have hi := (List.getElem?_eq_some_iff.1 hq).1
  have hmem := List.mem_of_getElem? hq
  refine .mk ⟨_, Column.length_colId_lt _, ⟨hc, hs q hmem, (hlen q hmem).trans_lt hlt, ?_, ?_⟩, rfl⟩
  · rw [hlen q hmem]
    exact hdistinct i hi
  · intro kv hkv
    obtain ⟨j, hj, rfl⟩ := List.mem_map.1 hkv
    exact hm _ (Table.mem_segPuts.2 ⟨i, q, j, hq, List.mem_range.1 hj, rfl⟩)

/-- A data frame whose segments have been put, under distinct names, reads as its table. -/
theorem DataFrame.readsAs_filled {table : Table} {nrows : Nat} (hs : table.Storable)
    (hlen : ∀ q ∈ table, q.2.length = nrows) (hlt : nrows < 2 ^ 64)
    (hdistinct : DistinctSegments draws table.length nrows) {puts : List (Key × Value)}
    (hputs : ∀ kv, kv ∈ puts ↔
      kv ∈ table.segPuts n defaultSegmentCapacity (fun i => colId (draws i)) 0)
      (m : Key → Option Value) :
    (DataFrame.mk (table.filled n defaultSegmentCapacity fun i => colId (draws i))
      ⟨table.map (·.1.getType), nrows⟩).ReadsAs (Prog.writeAll puts m) table := by
  have hholds := Table.holds_segPuts hlen hdistinct hputs m
  have hcols := Table.isStored_filled (by decide) hs hlen hlt (fun i hi => hdistinct.distinct hi)
    fun kv hkv =>
    hholds kv ((hputs kv).2 hkv)
  have hcap : defaultSegmentCapacity ≤ 2 ^ 31 := by decide
  exact DataFrame.HasTable.readsAs ⟨hcols.imp fun _ _ h => h.imp fun t xs col hcol =>
    hcol.reads ((Nat.min_le_left _ _).trans hcap), rfl, hlen⟩

/-- Parsing a rendered table and making a data frame of it. -/
theorem DataFrame.ofSorFile_readsAs (hts : ts ≠ []) (ht : ∀ r ∈ rows, r.values.map Data.type = ts)
    (hfile : RendersFile rows file) (hlt : file.length < 2 ^ 64)
    (hguess : (SorParser.ofFile file).guessSchema n draws = some p)
    (hp : p.columns.map (List.map Sigma.fst) = some ts)
    (hdistinct : DistinctSegments draws ts.length rows.length) (m : Key → Option Value) :
    ∃ df m', (DataFrame.ofSorFile n draws toDouble file).run m = some (df, m') ∧
      df.ReadsAs m' (Table.ofRows ts rows) := by
  obtain ⟨puts, heq, hputs⟩ := DataFrame.ofSorFile_eq toDouble hts ht hfile hguess hp
  obtain ⟨htypes, hlen, hs⟩ := Table.ofRows_rendered hfile ht
  have hrows : rows.length < 2 ^ 64 :=
    (hfile.length_eq.le.trans (List.length_lines_le file)).trans_lt hlt
  rw [← htypes, List.length_map] at hdistinct
  have hreads := DataFrame.readsAs_filled hs hlen hrows hdistinct hputs m
  have hchars : (Table.ofRows ts rows).map (·.1.getType) = ts.map ColType.getType := by
    rw [← congrArg (List.map ColType.getType) htypes, List.map_map]
    rfl
  rw [hchars] at hreads
  exact ⟨_, Prog.writeAll puts m, by rw [heq, Prog.run_putAll], hreads⟩

end

/-- Two rows of three cells. -/
def twoRows : List Row :=
  [⟨[.bool false, .int (-7), .string (some ⟨lit " a>", by decide⟩)]⟩,
    ⟨[.bool true, .int 12, .string (some ⟨lit "b", by decide⟩)]⟩]

/-- The two rows, rendered. -/
def twoLines : Bytes := lit "<0>, < -7 ><\" a>\">\n<1><+12><\"b\"> \n"

theorem rendersFile_twoRows : RendersFile twoRows twoLines := by
  have hone : Renders [.bool false, .int (-7), .string (some ⟨lit " a>", by decide⟩)]
      (lit "<0>, < -7 ><\" a>\">") :=
    @Renders.cons [] (lit "0") _ _ _ (by decide) (.mk (.bool false) 0 0) <|
    @Renders.cons (lit ", ") (lit " -7 ") _ _ _ (by decide)
      (.mk (@Data.Content.int (-7) (lit "-7") ⟨by decide, List.all_eq_true.1 (by decide)⟩
        (by decide)) 1 1) <|
    @Renders.cons [] (lit "\" a>\"") _ _ _ (by decide)
      (.mk (.string (by decide) (by decide) (by decide)) 0 0) <| .nil (by decide)
  have htwo : Renders [.bool true, .int 12, .string (some ⟨lit "b", by decide⟩)]
      (lit "<1><+12><\"b\"> ") :=
    @Renders.cons [] (lit "1") _ _ _ (by decide) (.mk (.bool true) 0 0) <|
    @Renders.cons [] (lit "+12") _ _ _ (by decide)
      (.mk (@Data.Content.int 12 (lit "+12") ⟨by decide, List.all_eq_true.1 (by decide)⟩
        (by decide)) 0 0) <|
    @Renders.cons [] (lit "\"b\"") _ _ _ (by decide)
      (.mk (.string (by decide) (by decide) (by decide)) 0 0) <| @Renders.nil (lit " ") (by decide)
  exact .cons hone (.cons htwo .nil)

theorem distinctSegments_twoRows : DistinctSegments (fun i _ => Fin.ofNat 53 i) 3 2 := by
  have hnames : ∀ i < 3, ∀ i' < 3, segName (colId fun _ => Fin.ofNat 53 i) 0 =
      segName (colId fun _ => Fin.ofNat 53 i') 0 → i = i' := by decide
  intro i hi i' hi' j hj j' hj' hname
  rw [show List.numChunks defaultSegmentCapacity 2 = 1 by decide, Nat.lt_one_iff] at hj hj'
  subst hj hj'
  exact ⟨hnames i hi i' hi' hname, rfl⟩

theorem DataFrame.ofSorFile_readsAs_two : ∃ df m',
    (DataFrame.ofSorFile 2 (fun i _ => Fin.ofNat 53 i) (fun _ => 0) twoLines).run (fun _ => none) =
      some (df, m') ∧ df.ReadsAs m' (Table.ofRows [.bool, .int, .string] twoRows) := by
  obtain ⟨reader, -, -, h⟩ := SorParser.guessSchema_eq 2 (fun i _ => Fin.ofNat 53 i) twoLines
  rw [if_neg (by decide)] at h
  exact DataFrame.ofSorFile_readsAs (fun _ => 0) (List.cons_ne_nil _ _)
    (by decide) rendersFile_twoRows
    (by decide) h rfl distinctSegments_twoRows _

/-! ## More than a thousand segments -/

/-- `get` takes two rows for the same, if they are at the same place of segments of the
    same key. -/
theorem Column.get_congr {t : ColType} {col : Column t} {i j : Nat} (hi : i < col.size)
    (hj : j < col.size)
    (hseg : col.segments[i / col.segmentCapacity]? = col.segments[j / col.segmentCapacity]?)
    (hmod : i % col.segmentCapacity = j % col.segmentCapacity) : col.get i = col.get j := by
  rw [get, get, Prog.assert_true hi, Prog.assert_true hj, hseg]
  refine congrArg _ (funext fun _ => congrArg _ (funext fun _ => congrArg _ (funext fun k => ?_)))
  rw [fetch]
  split_ifs
  · simp only [Prog.pure_eq, Prog.ret_bind, hmod]
  · simp only [Prog.pure_eq, Prog.get_bind, Prog.bind_assoc, Prog.ret_bind, hmod]

theorem DataFrame.getCell_congr {df : DataFrame} {t : ColType} {col : Column t}
    (hdf : df.columns = [⟨t, col⟩])
    {i j : Nat} (hi : i < df.nrows) (hj : j < df.nrows) (hget : col.get i = col.get j) :
    df.getCell 0 i = df.getCell 0 j := by
  have hgetAs (t' : ColType) : df.getAs t' 0 i = df.getAs t' 0 j := by
    have hassert : (Prog.assert (0 < df.schema.width ∧ i < df.schema.length) :
      Prog Key Value Unit) =
        Prog.assert (0 < df.schema.width ∧ j < df.schema.length) := by
      rw [Prog.assert, Prog.assert]
      exact if_congr (and_congr_right' (iff_of_true hi hj)) rfl rfl
    rw [getAs, getAs, hassert, hdf, List.getElem?_cons_zero, Option.bind_some]
    by_cases ht : t = t'
    · subst ht
      rw [ColumnPtr.asType_mk, Prog.ofOption_some, Prog.ret_bind, Prog.ret_bind, hget]
    · simp only [ColumnPtr.asType, dif_neg ht, Prog.ofOption_none, Prog.fail_bind]
  simp only [getCell, getString, getInt, getDouble, getBool, hgetAs]

/-- Rows that `get` takes for the same have the same value, if the data frame reads as
    the table. -/
theorem DataFrame.ReadsAs.eq_of_get {df : DataFrame} {m : Key → Option Value} {xs : List Bool}
    (h : df.ReadsAs m [⟨.bool, xs⟩]) {col : Column .bool} (hdf : df.columns = [⟨.bool, col⟩])
    {i j : Nat}
    (hi : i < xs.length) (hj : j < xs.length) (hget : col.get i = col.get j) : xs[i] = xs[j] := by
  have hrows : df.nrows = xs.length := h.nrows _ List.mem_cons_self
  have hcells {k : Nat} (hk : k < xs.length) :
      ((df.getCells [(0, k)]).run m).map Prod.fst = some [.bool xs[k]] := by
    rw [h.cells [(0, k)] (List.forall_mem_singleton.2 ⟨h.ncols ▸ Nat.one_pos, hrows ▸ hk⟩)]
    simp [Table.cell, hk]
  have heq := hcells hi
  rw [DataFrame.getCells, DataFrame.getCell_congr hdf (hrows ▸ hi) (hrows ▸ hj) hget,
    ← DataFrame.getCells, hcells hj] at heq
  simpa using heq.symm

/-- A line with a boolean, and a file of such lines. -/
def boolLine (b : Bool) : Bytes := if b then lit "<1>" else lit "<0>"
def boolFile (bs : List Bool) : Bytes := (bs.map boolLine).flatMap (· ++ [newline])

theorem renders_boolLine (b : Bool) : Renders [.bool b] (boolLine b) := by
  cases b with
  | false =>
    exact @Renders.cons [] (lit "0") _ _ _ (by decide) (.mk (.bool false) 0 0) (.nil (by decide))
  | true =>
    exact @Renders.cons [] (lit "1") _ _ _ (by decide) (.mk (.bool true) 0 0) (.nil (by decide))

theorem lines_boolFile (bs : List Bool) : (boolFile bs).lines newline = bs.map boolLine := by
  have hlines := List.lines_flatMap
    (List.forall_mem_map.2 fun b (_ : b ∈ bs) => (renders_boolLine b).not_mem.2) []
  rwa [List.append_nil, List.lines_nil, List.append_nil] at hlines

theorem length_boolFile (bs : List Bool) : (boolFile bs).length = bs.length * 4 := by
  induction bs with
  | nil => rfl
  | cons b bs ih =>
    have hline : (boolLine b).length = 3 := by cases b <;> rfl
    have hcons : boolFile (b :: bs) = boolLine b ++ [newline] ++ boolFile bs := rfl
    rw [hcons, List.length_append, List.length_append, ih, hline, List.length_singleton,
      List.length_cons]
    omega

theorem rendersFile_bools (bs : List Bool) :
    RendersFile (bs.map fun b => ⟨[.bool b]⟩) (boolFile bs) := by
  rw [RendersFile, lines_boolFile, List.forall₂_map_left_iff, List.forall₂_map_right_iff,
    List.forall₂_same]
  exact fun b _ => renders_boolLine b

theorem Table.ofRows_bools (bs : List Bool) :
    Table.ofRows [.bool] (bs.map fun b => ⟨[.bool b]⟩) = [⟨.bool, bs⟩] := by
  induction bs using List.reverseRecOn with
  | nil => rfl
  | append_singleton bs b ih =>
    rw [List.map_append, Table.ofRows, List.foldl_append, ← Table.ofRows, ih]
    rfl

/-- A file whose first lines are `<0>` has a column of booleans. -/
theorem guessSchema_boolFile (draws : Nat → Fin 10 → Fin 53) {bs : List Bool}
    (hfirst : bs.take 500 = List.replicate 500 false) :
    ∃ p, (SorParser.ofFile (boolFile bs)).guessSchema 1 draws = some p ∧
      p.columns.map (List.map Sigma.fst) = some [.bool] := by
  have hsample : SorParser.sample (boolFile bs) = List.replicate 500 (boolLine false) := by
    rw [SorParser.sample, lines_boolFile, ← List.map_take, SorParser.guessSchemaLines, hfirst,
      List.map_replicate]
  have hwidth : SorParser.width (List.replicate 500 (boolLine false)) = 1 := by decide +kernel
  obtain ⟨reader, -, -, hguess⟩ := SorParser.guessSchema_eq 1 draws (boolFile bs)
  rw [hsample, hwidth, if_neg Nat.one_ne_zero] at hguess
  have htype : (SorParser.guess (SorParser.column (List.replicate 500 (boolLine false))
      0)).inferred = .bool := by
    decide +kernel
  refine ⟨_, hguess, ?_⟩
  rw [Option.map_some, List.range_one, List.map_singleton, List.map_singleton, htype]

/-- Booleans of which the first ones of the segments `100` and `1000` differ. -/
theorem exists_bools : ∃ bs : List Bool, bs.length = 1000 * defaultSegmentCapacity + 1 ∧
    bs.take 500 = List.replicate 500 false ∧ bs[100 * defaultSegmentCapacity]? = some false ∧
    bs[1000 * defaultSegmentCapacity]? = some true := by
  have hcap : defaultSegmentCapacity = 5242880 * 2 := rfl
  refine ⟨List.replicate (1000 * defaultSegmentCapacity) false ++ [true], ?_, ?_, ?_, ?_⟩
  · rw [List.length_append, List.length_replicate, List.length_singleton]
  · rw [List.take_append_of_le_length (by rw [List.length_replicate]; omega), List.take_replicate,
      Nat.min_eq_left (by omega)]
  · rw [List.getElem?_append_left (by rw [List.length_replicate]; omega), List.getElem?_replicate,
      if_pos (by omega)]
  · rw [List.getElem?_append_right (by rw [List.length_replicate]), List.length_replicate,
      Nat.sub_self]
    rfl

/-- A file of `1000` full segments of booleans and one more. The names of the segments
    `100` and `1000` end where the buffer does, and are the same. -/
theorem DataFrame.exists_collision : ∃ (bs : List Bool) (p : SorParser) (puts : List (Key × Value))
    (df : DataFrame) (col : Column .bool), (boolFile bs).length < 2 ^ 64 ∧
    (SorParser.ofFile (boolFile bs)).guessSchema 1 (fun _ _ => 0) = some p ∧
    p.columns.map (List.map Sigma.fst) = some [.bool] ∧
    DataFrame.ofSorFile 1 (fun _ _ => 0) (fun _ => 0) (boolFile bs) = Prog.putAll puts (.ret df) ∧
    df.columns = [⟨.bool, col⟩] ∧ df.schema = ⟨[ColType.bool.getType], bs.length⟩ ∧
    ∃ i j, bs[i]? = some false ∧ bs[j]? = some true ∧ col.get i = col.get j := by
  have hcap : 0 < defaultSegmentCapacity := by decide
  obtain ⟨bs, hlen, hfirst, hfalse, htrue⟩ := exists_bools
  have hfile : (boolFile bs).length < 2 ^ 64 := by
    rw [length_boolFile, hlen]
    decide
  obtain ⟨p, hguess, hp⟩ := guessSchema_boolFile (fun _ _ => 0) hfirst
  have ht : ∀ r ∈ bs.map fun b => Row.mk [.bool b], r.values.map Data.type = [.bool] :=
    List.forall_mem_map.2 fun b _ => rfl
  obtain ⟨puts, heq, -⟩ := DataFrame.ofSorFile_eq (fun _ => 0) (List.cons_ne_nil _ _) ht
    (rendersFile_bools bs) hguess hp
  rw [Table.ofRows_bools, List.length_map] at heq
  obtain ⟨hi, -⟩ := List.getElem?_eq_some_iff.1 hfalse
  obtain ⟨hj, -⟩ := List.getElem?_eq_some_iff.1 htrue
  -- the last digit of `1000` does not fit the buffer
  have hkey : Column.segKey 1 (colId fun _ => 0) 100 = Column.segKey 1 (colId fun _ => 0) 1000 := by
    decide
  have hchunks : List.numChunks defaultSegmentCapacity bs.length = 1001 := by
    rw [hlen]
    decide
  have hsegs (j : Nat) (hj : j < 1001) :
      (Column.filled .bool 1 (colId fun _ => 0) defaultSegmentCapacity bs).segments[j]? =
        some (Column.segKey 1 (colId fun _ => 0) j) := by
    rw [Column.filled, Column.filling, List.getElem?_map, hchunks, List.getElem?_range hj,
      Option.map_some]
  refine ⟨bs, p, puts, _, _, hfile, hguess, hp, heq, rfl, rfl, _, _, hfalse, htrue, ?_⟩
  refine Column.get_congr hi hj ?_ ?_
  · change (Column.filled ..).segments[_ / defaultSegmentCapacity]? =
      (Column.filled ..).segments[_ / defaultSegmentCapacity]?
    rw [Nat.mul_div_cancel _ hcap, Nat.mul_div_cancel _ hcap, hsegs 100 (by decide),
      hsegs 1000 (by decide), hkey]
  · change _ % defaultSegmentCapacity = _ % defaultSegmentCapacity
    rw [Nat.mul_mod_left, Nat.mul_mod_left]

/-- A row of one of the two segments of the same name is not among those of the data frame. -/
theorem DataFrame.ofSorFile_readsAs_fails :
    ¬ ∀ (n : Nat) (draws : Nat → Fin 10 → Fin 53) (toDouble : Bytes → BitVec 64) (file : Bytes)
      (ts : List ColType) (rows : List Row) (p : SorParser) (m : Key → Option Value), ts ≠ [] →
      (∀ r ∈ rows, r.values.map Data.type = ts) → RendersFile rows file → file.length < 2 ^ 64 →
      (SorParser.ofFile file).guessSchema n draws = some p →
      p.columns.map (List.map Sigma.fst) = some ts →
      ∃ df m', (DataFrame.ofSorFile n draws toDouble file).run m = some (df, m') ∧
        df.ReadsAs m' (Table.ofRows ts rows) := by
  intro h
  obtain ⟨bs, p, puts, df, col, hfile, hguess, hp, heq, hcol, -, i, j, hfalse, htrue, hget⟩ :=
    DataFrame.exists_collision
  have ht : ∀ r ∈ bs.map fun b => Row.mk [.bool b], r.values.map Data.type = [.bool] :=
    List.forall_mem_map.2 fun b _ => rfl
  obtain ⟨df', m', hrun, hreads⟩ := h 1 _ (fun _ => 0) _ [.bool] _ p (fun _ => none)
    (List.cons_ne_nil _ _) ht
    (rendersFile_bools bs) hfile hguess hp
  rw [heq, Prog.run_putAll] at hrun
  cases hrun
  rw [Table.ofRows_bools] at hreads
  obtain ⟨hi, hbi⟩ := List.getElem?_eq_some_iff.1 hfalse
  obtain ⟨hj, hbj⟩ := List.getElem?_eq_some_iff.1 htrue
  have hvalue := hreads.eq_of_get hcol hi hj hget
  rw [hbi, hbj] at hvalue
  cases hvalue

end Eau2

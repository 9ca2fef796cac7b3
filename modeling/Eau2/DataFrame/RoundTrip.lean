import Eau2.DataFrame.Table

/-!
# The round trip of a data frame

A data frame that has a table, whose segments are in the store, reads as the
table (`DataFrame.HasTable.readsAs`): the values of its cells are those of the
table, in whatever order they are asked for. So does the data frame made of its
serialization (`DataFrame.HasTable.decodes`), though its columns have the default
capacity: every data frame is made of columns of that capacity, or of one row.

Together: a data frame that is produced and put in the store is got from it
(`KDStore.get_produced`).
-/

namespace Eau2

/-! ## Columns -/

namespace Column

variable {t : ColType} {n c : Nat} {id : Bytes} {xs : List t.Elem} {col : Column t}
  {m : Key → Option Value}

/-- The segments of the values `xs` are in the store `m`, under distinct names. -/
structure Stored (m : Key → Option Value) (n : Nat) (id : Bytes) (c : Nat) (xs : List t.Elem) :
    Prop where
  pos : 0 < c
  storable : ∀ x ∈ xs, t.Storable x
  length_lt : xs.length < 2 ^ 64
  distinct : Distinct id (List.numChunks c xs.length)
  holds : Prog.Holds (segPuts t n id c xs (List.numChunks c xs.length)) m

/-- The column reads `xs` from the store `m`. Its capacity is that of the segments
    of `xs`, or allows them all in one segment. -/
def Reads (m : Key → Option Value) : ColumnRel := fun _ xs col =>
  ∃ n id c, Stored m n id c xs ∧ Coherent n id c xs col ∧
    (col.segmentCapacity = c ∨ xs.length ≤ c ∧ xs.length ≤ col.segmentCapacity) ∧
    min col.segmentCapacity xs.length ≤ 2 ^ 31

theorem Reads.get (h : Reads m t xs col) {i : Nat} (hi : i < xs.length) :
    ∃ col', (col.get i).run m = some ((xs[i], col'), m) ∧ Reads m t xs col' := by
  obtain ⟨n, id, c, hst, hcoh, hcap, hmin⟩ := h
  have hpos : 0 < col.segmentCapacity := by
    rcases hcap with heq | ⟨-, hle⟩
    · exact heq ▸ hst.pos
    · omega
  have hindex : t.indexInSeg (i % col.segmentCapacity) = i % col.segmentCapacity := by
    refine ColType.indexInSeg_of_lt ?_
    have h₁ := Nat.mod_lt i hpos
    have h₂ := Nat.mod_le i col.segmentCapacity
    omega
  -- the capacity of the column or that of the segments, the row is at the same place
  have hplace : i / col.segmentCapacity = i / c ∧ i % col.segmentCapacity = i % c := by
    rcases hcap with heq | ⟨hle, hle'⟩
    · rw [heq]
      exact ⟨rfl, rfl⟩
    · rw [Nat.div_eq_of_lt (hi.trans_le hle), Nat.div_eq_of_lt (hi.trans_le hle'),
        Nat.mod_eq_of_lt (hi.trans_le hle), Nat.mod_eq_of_lt (hi.trans_le hle')]
      exact ⟨rfl, rfl⟩
  have hj : i / col.segmentCapacity < List.numChunks c xs.length :=
    hplace.1 ▸ List.div_lt_numChunks hi
  obtain ⟨col', hcoh', hcap', hrun⟩ := hcoh.get hst.distinct.agree hst.storable hst.length_lt hi hj
    (hst.holds (segPut t n id c xs _) (List.mem_map_of_mem (List.mem_range.2 hj)))
  rw [hindex, hplace.1, hplace.2, List.getElem?_chunk hst.pos, List.getElem?_eq_getElem hi] at hrun
  rw [← hcap'] at hcap hmin
  exact ⟨col', hrun, n, id, c, hst, hcoh', hcap, hmin⟩

end Column

/-! ## Data frames -/

namespace DataFrame

/-- What is read from the data frame on the store `m` is the table. -/
structure ReadsAs (m : Key → Option Value) (df : DataFrame) (table : Table) : Prop where
  ncols : df.ncols = table.length
  colType : ∀ i q, table[i]? = some q → df.colType i = some q.1.getType
  nrows : ∀ q ∈ table, df.nrows = q.2.length
  cells : ∀ calls : List (Nat × Nat), (∀ call ∈ calls, call.1 < df.ncols ∧ call.2 < df.nrows) →
    ((df.getCells calls).run m).map Prod.fst = calls.mapM fun call => table.cell call.1 call.2

namespace HasTable

variable {m : Key → Option Value} {df : DataFrame} {table : Table}

theorem ncols {R : ColumnRel} (h : df.HasTable R table) : df.ncols = table.length := by
  rw [DataFrame.ncols, Schema.width, h.colTypes, List.length_map]

theorem colType {R : ColumnRel} (h : df.HasTable R table) {i : Nat} {q : Σ t : ColType, List t.Elem}
    (hq : table[i]? = some q) : df.colType i = some q.1.getType := by
  rw [DataFrame.colType, Schema.colType, h.colTypes, List.getElem?_map, hq, Option.map_some]

theorem getAs (h : df.HasTable (Column.Reads m) table) {t : ColType} {xs : List t.Elem}
    {col row : Nat} (hcol : table[col]? = some ⟨t, xs⟩) (hrow : row < xs.length) :
    ∃ df', (df.getAs t col row).run m = some ((xs[row], df'), m) ∧
    df'.HasTable (Column.Reads m) table ∧
      df'.schema = df.schema := by
  obtain ⟨hlt, hget⟩ := List.getElem?_eq_some_iff.1 hcol
  have hlen := h.length _ (List.mem_of_getElem? hcol)
  obtain ⟨p, hp, hlift⟩ := List.Forall₂.exists_getElem? h.columns hcol
  cases hlift with
  | @mk _ _ c hc =>
    obtain ⟨c', hrun, hc'⟩ := hc.get hrow
    refine ⟨{ df with columns := df.columns.set col ⟨t, c'⟩ }, ?_,
      ⟨List.Forall₂.set_left h.columns hcol (.mk hc'), h.colTypes, h.length⟩, rfl⟩
    have hassert : col < df.schema.width ∧ row < df.schema.length :=
      ⟨h.ncols.symm.le.trans_lt' hlt, hlen.le.trans_lt' hrow⟩
    rw [DataFrame.getAs, Prog.assert_true hassert, Prog.ret_bind,
      Prog.assert_true (show df.schema.colType col = some t.getType from h.colType hcol),
      Prog.ret_bind, hp, Option.bind_some, ColumnPtr.asType_mk, Prog.ofOption_some, Prog.ret_bind,
      Prog.run_bind, hrun]
    rfl

theorem getCell (h : df.HasTable (Column.Reads m) table) {col row : Nat} (hcol : col < df.ncols)
    (hrow : row < df.nrows) :
    ∃ d df', table.cell col row = some d ∧ (df.getCell col row).run m = some ((d, df'), m) ∧
      df'.HasTable (Column.Reads m) table ∧ df'.schema = df.schema := by
  rw [h.ncols] at hcol
  obtain ⟨⟨t, xs⟩, hq⟩ : ∃ q, table[col]? = some q := ⟨_, List.getElem?_eq_getElem hcol⟩
  have hrow' : row < xs.length := (h.length _ (List.mem_of_getElem? hq)).symm ▸ hrow
  obtain ⟨df', hrun, hdf'⟩ := h.getAs hq hrow'
  have htype : df.colType col >>= ColType.ofChar? = some t := by
    rw [h.colType hq, Option.bind_eq_bind, Option.bind_some, ColType.ofChar?_getType]
  rw [Table.cell, hq, Option.bind_some, List.getElem?_eq_getElem hrow', Option.map_some,
    DataFrame.getCell, htype, Prog.ofOption_some, Prog.ret_bind]
  cases t with
  | string => exact ⟨_, df', rfl, by rw [getString, Prog.run_bind, hrun]; rfl, hdf'⟩
  | int => exact ⟨_, df', rfl, by rw [getInt, Prog.run_bind, hrun]; rfl, hdf'⟩
  | double => exact ⟨_, df', rfl, by rw [getDouble, Prog.run_bind, hrun]; rfl, hdf'⟩
  | bool => exact ⟨_, df', rfl, by rw [getBool, Prog.run_bind, hrun]; rfl, hdf'⟩

theorem getCells (h : df.HasTable (Column.Reads m) table) {calls : List (Nat × Nat)}
    (hcalls : ∀ call ∈ calls, call.1 < df.ncols ∧ call.2 < df.nrows) :
    ((df.getCells calls).run m).map Prod.fst = calls.mapM fun call => table.cell call.1 call.2 := by
  induction calls generalizing df with
  | nil => rfl
  | cons call calls ih =>
    rw [List.forall_mem_cons] at hcalls
    obtain ⟨d, df', hcell, hrun, hdf', hschema⟩ := h.getCell hcalls.1.1 hcalls.1.2
    have hrest := ih hdf' (by simpa only [DataFrame.ncols, DataFrame.nrows, hschema] using hcalls.2)
    rw [DataFrame.getCells, Prog.run_bind, hrun, Option.bind_some, Prog.run_bind,
      List.mapM_cons, hcell]
    rw [← hrest]
    cases (df'.getCells calls).run m <;> rfl

/-- A data frame that has a table reads as it. -/
theorem readsAs (h : df.HasTable (Column.Reads m) table) : df.ReadsAs m table where
  ncols := h.ncols
  colType _ _ := h.colType
  nrows q hq := (h.length q hq).symm
  cells _ := h.getCells

end HasTable

end DataFrame

/-! ## Serialization -/

namespace Column

variable {t : ColType} {n c : Nat} {id : Bytes} {xs : List t.Elem} {col : Column t}
  {m : Key → Option Value}

/-- The column has been filled with `xs` and finalized, and its segments are in
    the store `m`. -/
def IsStored (m : Key → Option Value) (n c : Nat) : ColumnRel := fun t xs col =>
  ∃ id, id.length < 2 ^ 64 ∧ Stored m n id c xs ∧ col = filled t n id c xs

/-- The column has been rebuilt from one filled with `xs`, and its segments are in
    the store `m`. -/
def IsRebuilt (m : Key → Option Value) (n c : Nat) : ColumnRel := fun t xs col =>
  ∃ id, Stored m n id c xs ∧ col = rebuilt t n id c xs

theorem IsStored.reads (h : IsStored m n c t xs col) (hc : min c xs.length ≤ 2 ^ 31) :
    Reads m t xs col := by
  obtain ⟨id, -, hst, rfl⟩ := h
  exact ⟨n, id, c, hst, coherent_filled, Or.inl rfl, hc⟩

theorem IsRebuilt.reads (h : IsRebuilt m n c t xs col)
    (hc : c = defaultSegmentCapacity ∨ xs.length ≤ c ∧ xs.length ≤ defaultSegmentCapacity) :
    Reads m t xs col := by
  obtain ⟨id, hst, rfl⟩ := h
  refine ⟨n, id, c, hst, coherent_rebuilt, hc.imp Eq.symm fun h => h, ?_⟩
  exact (Nat.min_le_left _ _).trans (show defaultSegmentCapacity ≤ 2 ^ 31 by decide)

theorem IsStored.decodes (h : IsStored m n c t xs col) {w : Bytes} (hw : col.serialize = some w) :
    ∃ col', Decodes (deserialize t) w col' ∧ IsRebuilt m n c t xs col' := by
  obtain ⟨id, hid64, hst, rfl⟩ := h
  have hid := ne_nil_of_serialize hw
  rw [serialize_filled hid hst.length_lt, Option.some.injEq] at hw
  subst hw
  exact ⟨_, decodes_rebuilt hid hst.length_lt hid64, id, hst, rfl⟩

end Column

namespace DataFrame

variable {df : DataFrame} {table : Table}

theorem decodes_column {t : ColType} {w : Bytes} {col : Column t}
    (h : Decodes (Column.deserialize t) w col) :
    Decodes (deserializeColumn t.getType) w ⟨t, col⟩ := by
  have := h.bind (f := fun col => pure (⟨t, col⟩ : ColumnPtr)) (Decodes.pure _)
  rw [List.append_nil] at this
  rw [deserializeColumn, ColType.ofChar?_getType]
  exact (Decodes.pure t).bind this

section

variable {R R' : ColumnRel} (hR : ∀ t xs col w, R t xs col → col.serialize = some w →
  ∃ col', Decodes (Column.deserialize t) w col' ∧ R' t xs col')
include hR

theorem decodes_columns {cols : List ColumnPtr} (h : List.Forall₂ R.Lift cols table)
    {ws : List Bytes} (hw : cols.mapM (fun p : ColumnPtr => p.2.serialize) = some ws) :
    ∃ cols', Decodes ((table.map (·.1.getType)).mapM deserializeColumn) ws.flatten cols' ∧
      List.Forall₂ R'.Lift cols' table := by
  induction h generalizing ws with
  | nil =>
    cases hw
    exact ⟨[], Decodes.pure _, .nil⟩
  | @cons p q cols table hp _ ih =>
    rw [List.mapM_cons] at hw
    obtain ⟨w, hser, hrest⟩ := Option.bind_eq_some_iff.1 hw
    obtain ⟨ws', hws', heq⟩ := Option.bind_eq_some_iff.1 hrest
    cases heq
    obtain ⟨cols', hdec, hcols'⟩ := ih hws'
    cases hp with
    | @mk t xs col hcol =>
      obtain ⟨col', hdec', hcol'⟩ := hR _ _ _ _ hcol hser
      refine ⟨⟨t, col'⟩ :: cols', ?_, .cons (.mk hcol') hcols'⟩
      have htail := hdec.bind (f := fun cols => pure ((⟨t, col'⟩ : ColumnPtr) :: cols))
        (Decodes.pure _)
      rw [List.append_nil] at htail
      rw [List.map_cons, List.mapM_cons, List.flatten_cons]
      exact (decodes_column hdec').bind htail

/-- The data frame made of the serialization of another has the same table, if its
    columns are rebuilt. -/
theorem HasTable.decodes (h : df.HasTable R table) (hncols : df.ncols < 2 ^ 64)
    (hnrows : df.nrows < 2 ^ 64) {v : Value} (hv : df.serialize = some v) :
    ∃ df', Decodes deserialize v df' ∧ df'.HasTable R' table := by
  obtain ⟨ws, hws, heq⟩ := Option.bind_eq_some_iff.1 hv
  cases heq
  obtain ⟨cols', hdec, hcols'⟩ := decodes_columns hR h.columns hws
  refine ⟨⟨cols', df.schema⟩, ?_, hcols', h.colTypes, h.length⟩
  rw [← h.colTypes] at hdec
  have := hdec.bind (f := fun cols => pure (DataFrame.mk cols df.schema)) (Decodes.pure _)
  rw [List.append_nil] at this
  exact (Schema.decodes hncols hnrows).bind this

end

end DataFrame

/-! ## Data frames that are produced -/

/-- The calls that produce a data frame. -/
inductive Producer
  | fromArray (t : ColType) (draws : Fin 10 → Fin 53) (vals : List t.Elem)
  | fromScalar (t : ColType) (draws : Fin 10 → Fin 53) (val : t.Elem)
  | fromVisitor (σ : Type) (types : Bytes) (draws : Nat → Fin 10 → Fin 53) (w : Writer σ)
      (s : σ) (fuel : Nat)

namespace Producer

/-- The program of the call, with the key `k`, in a store of `n` nodes. -/
def program (n : Nat) (k : Key) : Producer → Prog Key Value DataFrame
  | fromArray t draws vals => DataFrame.fromArray n k t draws vals
  | fromScalar t draws val => DataFrame.fromScalar n k t draws val
  | fromVisitor _ types draws w s fuel => DataFrame.fromVisitor n k types draws w s fuel

/-- The table of the values given to the call. -/
def table : Producer → Option Table
  | fromArray t _ vals => some [⟨t, vals⟩]
  | fromScalar t _ val => some [⟨t, [val]⟩]
  | fromVisitor _ types _ w s fuel => do
    let ts ← (Schema.ofTypes types).colTypes.mapM ColType.ofChar?
    let rows ← w.rows fuel s (Row.ofTypes ts)
    return Table.ofRows ts rows

/-- No string given to the call is empty. -/
def NonEmptyStrings : Producer → Prop
  | fromArray t _ vals => ∀ x ∈ vals, t.Storable x
  | fromScalar t _ val => t.Storable val
  | fromVisitor _ types _ w s fuel =>
    ∀ ts rows, (Schema.ofTypes types).colTypes.mapM ColType.ofChar? = some ts →
      w.rows fuel s (Row.ofTypes ts) = some rows → ∀ row ∈ rows, row.Storable

end Producer

theorem KDStore.writes_put {k : Key} {df : DataFrame} {ps : List (Key × Value)} {u : Unit}
    (h : (KDStore.put k df).writes = some (ps, u)) :
    ∃ v, df.serialize = some v ∧ ps = [(k, v)] := by
  obtain ⟨_, v, _, hof, hput, rfl⟩ := Prog.writes_bind_eq_some.1 h
  obtain ⟨hv, rfl⟩ := Prog.writes_ofOption.1 hof
  cases hput
  exact ⟨v, hv, rfl⟩

/-- A data frame made of columns that hold a table, and put in the store. -/
theorem DataFrame.HasTable.of_put {mk : Prog Key Value DataFrame} {n c : Nat} {k : Key}
    {ps qs : List (Key × Value)} {df : DataFrame} {table : Table}
    (hmk : ∀ qs' df', mk.writes = some (qs', df') →
      df'.HasTable (Column.IsFilled n c (ps ++ qs')) table)
    (hw : (do
      let df ← mk
      KDStore.put k df
      return df).writes = some (qs, df)) :
    ∃ v, df.serialize = some v ∧ (k, v) ∈ ps ++ qs ∧
    df.HasTable (Column.IsFilled n c (ps ++ qs)) table := by
  obtain ⟨qs₁, df₁, _, hdf, hrest, rfl⟩ := Prog.writes_bind_eq_some.1 hw
  obtain ⟨_, u, _, hput, hret, rfl⟩ := Prog.writes_bind_eq_some.1 hrest
  obtain ⟨v, hv, rfl⟩ := KDStore.writes_put hput
  cases hret
  refine ⟨v, hv, by simp, (hmk qs₁ _ hdf).mono fun t xs col hcol => hcol.mono ?_⟩
  rw [← List.append_assoc]
  exact List.subset_append_left _ _

/-- The columns that `fromVisitor` creates. -/
theorem holding_new (n c : Nat) (draws : Nat → Fin 10 → Fin 53) (ts : List ColType) :
    Holding n c [] (ts.mapIdx fun i t => ⟨t, Column.new t n (draws i) c⟩)
    (ts.map fun t => ⟨t, []⟩) := by
  induction ts generalizing draws with
  | nil => exact .nil
  | cons t ts ih =>
    rw [List.mapIdx_cons]
    exact .cons (.mk (Column.isFilling_new t n c (draws 0))) (ih fun i => draws (i + 1))

theorem Table.Storable.foldl_addRow {table : Table} {rows : List Row} (hs : table.Storable)
    (hrs : ∀ row ∈ rows, row.Storable) : (rows.foldl Table.addRow table).Storable := by
  induction rows generalizing table with
  | nil => exact hs
  | cons row rows ih =>
    rw [List.forall_mem_cons] at hrs
    exact ih (hs.addRow hrs.1) hrs.2

/-- What a data frame that is produced has: the table of the values given, in
    columns of the default capacity or of one row, and its segments and its
    serialization among the puts. -/
theorem Producer.hasTable {p : Producer} {n : Nat} {k : Key} {puts : List (Key × Value)}
    {df : DataFrame}
    (hp : (p.program n k).writes = some (puts, df)) (hs : p.NonEmptyStrings) :
    ∃ table c v, p.table = some table ∧ df.serialize = some v ∧ (k, v) ∈ puts ∧
      df.HasTable (Column.IsFilled n c puts) table ∧ table.Storable ∧ 0 < c ∧
      (c = defaultSegmentCapacity ∨ ∀ q ∈ table, q.2.length ≤ c ∧
        q.2.length ≤ defaultSegmentCapacity) := by
  have hD : 0 < defaultSegmentCapacity := by decide
  cases p with
  | fromArray t draws vals =>
    obtain ⟨ps, col, qs, hcol, hrest, rfl⟩ := Prog.writes_bind_eq_some.1 hp
    rw [Column.foldlM_pushBack hD draws hs, Prog.writes_putAll] at hcol
    cases hcol
    have hfill : Column.IsFilling n defaultSegmentCapacity _ t vals _ :=
      ⟨_, Column.length_colId_lt draws, rfl, List.Subset.refl _⟩
    obtain ⟨v, hv, hmem, hdf⟩ := DataFrame.HasTable.of_put
      (fun _ _ => DataFrame.HasTable.ofColumn (.mk hfill) hs) hrest
    exact ⟨_, _, v, rfl, hv, hmem, hdf, List.forall_mem_singleton.2 hs, hD, Or.inl rfl⟩
  | fromScalar t draws val =>
    obtain ⟨ps, col, qs, hcol, hrest, rfl⟩ := Prog.writes_bind_eq_some.1 hp
    have hs' : ∀ x ∈ [val], t.Storable x := List.forall_mem_singleton.2 hs
    obtain ⟨ps', col', hpush, hfill⟩ :=
      (Column.isFilling_new t n 1 draws).pushBack Nat.one_pos (List.forall_mem_nil _) val
    rw [hpush, Prog.writes_putAll] at hcol
    cases hcol
    obtain ⟨v, hv, hmem, hdf⟩ := DataFrame.HasTable.of_put
      (fun _ _ => DataFrame.HasTable.ofColumn (.mk hfill) hs') hrest
    refine ⟨_, _, v, rfl, hv, hmem, hdf, List.forall_mem_singleton.2 hs', Nat.one_pos, Or.inr ?_⟩
    rw [List.forall_mem_singleton]
    exact ⟨le_rfl, hD⟩
  | fromVisitor σ types draws w s fuel =>
    obtain ⟨_, ts, _, hof, hrest, rfl⟩ := Prog.writes_bind_eq_some.1 hp
    obtain ⟨hts, rfl⟩ := Prog.writes_ofOption.1 hof
    obtain ⟨ps, cols, qs, hloop, hrest', rfl⟩ := Prog.writes_bind_eq_some.1 hrest
    -- a loop that ends has visited rows, whose strings are not empty by assumption
    obtain ⟨rows, hrows⟩ := exists_rows_of_visitAll hloop
    have hrs := hs ts rows hts hrows
    have hempty : Table.Storable (ts.map fun t => ⟨t, []⟩) := by
      intro q hq
      obtain ⟨t, -, rfl⟩ := List.mem_map.1 hq
      exact List.forall_mem_nil _
    have hcols := (holding_new n defaultSegmentCapacity draws ts).visitAll hD hempty hrows hrs hloop
    have htable := hempty.foldl_addRow hrs
    obtain ⟨v, hv, hmem, hdf⟩ := DataFrame.HasTable.of_put
      (fun _ _ => DataFrame.HasTable.ofColumns hcols htable) hrest'
    refine ⟨_, _, v, ?_, hv, hmem, hdf, htable, hD, Or.inl rfl⟩
    rw [Producer.table, hts, Option.bind_eq_bind, Option.bind_some, hrows]
    rfl

/-- The columns of a data frame whose segments have distinct names, in a store
    that has them. -/
theorem DataFrame.HasTable.stored {n c : Nat} {puts : List (Key × Value)} {df : DataFrame}
    {table : Table}
    {m : Key → Option Value} (h : df.HasTable (Column.IsFilled n c puts) table) (hc : 0 < c)
    (hs : table.Storable) (hnrows : df.nrows < 2 ^ 64)
    (hd : ∀ p ∈ df.columns, (p.2.segments.map (·.k)).Nodup) (hm : Prog.Holds puts m) :
    df.HasTable (Column.IsStored m n c) table := by
  refine h.imp fun t xs col hxs hcol hfill => ?_
  obtain ⟨id, hid, rfl, hputs⟩ := hfill
  have hnames := hd _ hcol
  rw [Column.filled, Column.filling, List.map_map] at hnames
  have hdistinct : Column.Distinct id (List.numChunks c xs.length) := by
    have hname : segName id = (·.k) ∘ Column.segKey n id := funext fun j =>
      (Column.segKey_k n id j).symm
    rwa [Column.Distinct, hname]
  exact ⟨id, hid, ⟨hc, hs _ hxs, h.length _ hxs ▸ hnrows, hdistinct, fun kv hkv =>
    hm kv (hputs hkv)⟩, rfl⟩

/-- A data frame that is produced and put in the store, read and got from any
    state of the store with all that was put. -/
theorem KDStore.get_produced (p : Producer) (n : Nat) (k : Key) (puts : List (Key × Value))
    (df : DataFrame) (hp : (p.program n k).writes = some (puts, df)) (hs : p.NonEmptyStrings)
    (hncols : df.ncols < 2 ^ 64) (hnrows : df.nrows < 2 ^ 64)
    (hd : ∀ p ∈ df.columns, (p.2.segments.map (·.k)).Nodup) (m : Key → Option Value)
    (hm : Prog.Holds puts m) :
    ∃ table df', p.table = some table ∧ (KDStore.get k).run m = some (df', m) ∧
      df.ReadsAs m table ∧ df'.ReadsAs m table := by
  obtain ⟨table, c, v, htable, hv, hmem, hdf, hst, hc, hcap⟩ := Producer.hasTable hp hs
  have hdf := hdf.stored hc hst hnrows hd hm
  obtain ⟨df', hdec, hdf'⟩ := DataFrame.HasTable.decodes (fun _ _ _ _ h hw => h.decodes hw) hdf
    hncols hnrows hv
  refine ⟨table, df', htable, ?_, DataFrame.HasTable.readsAs ?_, DataFrame.HasTable.readsAs ?_⟩
  · rw [KDStore.get, Prog.run_get (hm _ hmem), KDStore.ofValue, hdec.run_eq]
    rfl
  · refine hdf.imp fun t xs col hxs _ hcol => hcol.reads ?_
    rcases hcap with rfl | hone
    · exact (Nat.min_le_left _ _).trans (by decide)
    · exact ((Nat.min_le_right _ _).trans (hone _ hxs).2).trans (by decide)
  · exact hdf'.imp fun t xs col hxs _ hcol => hcol.reads (hcap.imp_right fun hone => hone _ hxs)

/-- A writer of rows of one integer. -/
def intWriter : Writer (List (BitVec 32)) where
  done s := s.isEmpty
  visit s _ := match s with
    | [] => none
    | i :: s => some ([(0, .int i)], s)

theorem KDStore.get_produced_ints : ∃ puts df table df',
    ((Producer.fromVisitor _ (lit "I") (fun _ _ => 0) intWriter [5, 6] 3).program 2
      ⟨lit "df", 1⟩).writes =
      some (puts, df) ∧
    (KDStore.get ⟨lit "df", 1⟩).run (fun k => puts.lookup k) = some (df', fun k => puts.lookup k) ∧
    df.ReadsAs (fun k => puts.lookup k) table ∧ df'.ReadsAs (fun k => puts.lookup k) table := by
  have hp : ((Producer.fromVisitor _ (lit "I") (fun _ _ => 0) intWriter [5, 6] 3).program 2
      ⟨lit "df", 1⟩).writes = some (_, _) := rfl
  have hs : (Producer.fromVisitor _ (lit "I") (fun _ _ => 0) intWriter
      [5, 6] 3).NonEmptyStrings := by
    intro ts rows hts hrows row hrow d hd t x hx
    cases hts
    cases hrows
    have hint : ∀ row ∈ [Row.mk [.int 5], Row.mk [.int 6]], ∀ d ∈ row.values, d.type =
      .int := by decide
    have htype := hint row hrow d hd
    cases d with
    | int i =>
      cases t with
      | int => trivial
      | string | double | bool => cases hx
    | string | double | bool => cases htype
  obtain ⟨table, df', -, hget, hdf, hdf'⟩ := KDStore.get_produced _ 2 ⟨lit "df", 1⟩ _ _ hp hs
    (by decide)
    (by decide) (by decide) _ (Prog.holds_lookup (by decide))
  exact ⟨_, _, table, df', hp, hget, hdf, hdf'⟩

end Eau2

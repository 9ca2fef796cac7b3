import Eau2.DataFrame.Coverage
import Eau2.DataFrame.Effects
import Eau2.Sorer.RoundTrip

/-!
# The rows that a data frame shows

A table has rows (`Table.HasRows`), those it has been made of, say (`Table.hasRows_ofRows`). A data
frame that reads as the table shows these rows on the store (`DataFrame.Shows`): `map` gives a
reader all of them, `local_map` some, and neither changes what the data frame shows, as the
caches of its columns are all that changes.
-/

namespace Eau2

/-! ## The rows of a table -/

/-- The value is that of an element of a column. -/
theorem Data.eq_ofElem {d : Data} {t : ColType} {x : t.Elem} (h : d.value t = some x) :
    d = .ofElem t x := by
  cases d <;> cases t <;> simp only [Data.value, reduceCtorEq, Option.some.injEq] at h <;>
    rw [h] <;> rfl

/-- No string of the row is a null pointer. -/
def Row.Full (r : Row) : Prop := ∀ d ∈ r.values, (d.value d.type).isSome

namespace Table

variable {table : Table} {rows : List Row} {r : Row}

/-- The rows have the values of the columns. -/
structure HasRows (table : Table) (rows : List Row) : Prop where
  width : ∀ r ∈ rows, r.values.length = table.length
  column : ∀ (j : Nat) (q : Σ t : ColType, List t.Elem), table[j]? = some q →
    rows.map (·.values[j]?) = q.2.map fun x => some (Data.ofElem q.1 x)

theorem cell_eq (table : Table) (j idx : Nat) :
    table.cell j idx = table[j]?.bind fun q => q.2[idx]?.map (Data.ofElem q.1) := by
  rw [cell]
  cases table[j]? with
  | none => rfl
  | some q =>
    obtain ⟨t, xs⟩ := q
    cases t <;> rfl

theorem HasRows.length (h : table.HasRows rows) : ∀ q ∈ table, q.2.length = rows.length := by
  intro q hq
  obtain ⟨j, hj⟩ := List.mem_iff_getElem?.1 hq
  simpa using (congrArg List.length (h.column j q hj)).symm

theorem HasRows.cell (h : table.HasRows rows) {j idx : Nat} (hr : rows[idx]? = some r)
    (hj : j < table.length) : table.cell j idx = r.values[j]? := by
  have hq : table[j]? = some table[j] := List.getElem?_eq_getElem hj
  have hget := congrArg (·[idx]?) (h.column j _ hq)
  simp only [List.getElem?_map, hr, Option.map_some] at hget
  rw [cell_eq, hq, Option.bind_some]
  cases hx : table[j].2[idx]? with
  | none =>
    rw [hx] at hget
    cases hget
  | some x =>
    rw [hx] at hget
    exact (Option.some.inj hget).symm

theorem hasRows_empty (ts : List ColType) : HasRows (ts.map fun t => ⟨t, []⟩) [] where
  width := List.forall_mem_nil _
  column j q hq := by
    rw [List.getElem?_map] at hq
    obtain ⟨t, -, rfl⟩ := Option.map_eq_some_iff.1 hq
    rfl

theorem HasRows.addRow (h : table.HasRows rows) (ht : r.values.map Data.type = table.map Sigma.fst)
    (hr : r.Full) : (table.addRow r).HasRows (rows ++ [r]) := by
  have hlen : r.values.length = table.length := by simpa using congrArg List.length ht
  have hwidth : (table.addRow r).length = table.length := by
    rw [Table.addRow, List.length_map, List.length_zip, hlen, Nat.min_self]
  refine ⟨fun r' hr' => ?_, fun j q hq => ?_⟩
  · rcases List.mem_append.1 hr' with hr' | hr'
    · exact (h.width r' hr').trans hwidth.symm
    · rw [List.mem_singleton.1 hr', hlen, hwidth]
  · rw [Table.addRow, List.getElem?_map] at hq
    obtain ⟨⟨q', d⟩, hzip, rfl⟩ := Option.map_eq_some_iff.1 hq
    obtain ⟨hq', hd⟩ := List.getElem?_zip_eq_some.1 hzip
    have htype : d.type = q'.1 := by
      have hj := congrArg (·[j]?) ht
      simpa [hd, hq'] using hj
    obtain ⟨x, hx⟩ := Option.isSome_iff_exists.1 (hr d (List.mem_of_getElem? hd))
    obtain ⟨t, xs⟩ := q'
    obtain rfl : d.type = t := htype
    rw [List.map_append, h.column j _ hq', List.map_singleton, hd, pushCell, hx, List.map_append]
    exact congrArg (fun d => _ ++ [some d]) (Data.eq_ofElem hx)

/-- A table has the rows it is made of. -/
theorem hasRows_ofRows {ts : List ColType} (ht : ∀ r ∈ rows, r.values.map Data.type = ts)
    (hr : ∀ r ∈ rows, r.Full) :
    (ofRows ts rows).HasRows rows ∧ (ofRows ts rows).map Sigma.fst = ts := by
  induction rows using List.reverseRecOn with
  | nil => exact ⟨hasRows_empty ts, types_empty ts⟩
  | append_singleton rows r ih =>
    rw [List.forall_mem_append, List.forall_mem_singleton] at ht hr
    obtain ⟨hrows, htypes⟩ := ih ht.1 hr.1
    have hr' : r.values.map Data.type = (ofRows ts rows).map Sigma.fst := ht.2.trans htypes.symm
    rw [ofRows, List.foldl_append, ← ofRows]
    exact ⟨hrows.addRow hr' hr.2, (types_addRow hr').trans htypes⟩

end Table

/-! ## Going over the rows -/

namespace DataFrame

variable {σ : Type} {m : Key → Option Value} {df df' : DataFrame} {table : Table} {rows : List Row}
  {v : Reader σ} {s s' : σ} {n : Nat}

/-- On the store `m`, the data frame, which has not been read yet, has the rows. -/
structure Shows (m : Key → Option Value) (df : DataFrame) (rows : List Row) : Prop where
  wellTyped : df.WellTyped
  distinct : ∀ p ∈ df.columns, p.2.DistinctNames
  cached : df.Cached m df
  length : df.schema.length = rows.length
  row : ∀ idx < rows.length, df.rowAt m idx = rows[idx]?

/-- The cells of a row, one by one. -/
theorem mapM_getElem? {α : Type} (l : List α) : (List.range l.length).mapM (l[·]?) = some l := by
  induction l using List.reverseRecOn with
  | nil => rfl
  | append_singleton l a ih =>
    have hfront : (List.range l.length).mapM ((l ++ [a])[·]?) =
        (List.range l.length).mapM (l[·]?) :=
      List.mapM_congr_mem fun i hi => List.getElem?_append_left (List.mem_range.1 hi)
    rw [List.length_append, List.length_singleton, List.range_succ, List.mapM_append, hfront, ih]
    simp

/-- A data frame that reads as a table shows its rows. -/
theorem HasTable.shows (h : df.HasTable (Column.Reads m) table)
    (hd : ∀ p ∈ df.columns, p.2.DistinctNames) (hc : df.Cached m df) (hrows : table.HasRows rows)
    (hlen : df.schema.length = rows.length) : df.Shows m rows := by
  refine ⟨h.wellTyped, hd, hc, hlen, fun idx hidx => ?_⟩
  have hr : rows[idx]? = some rows[idx] := List.getElem?_eq_getElem hidx
  have hwidth : rows[idx].values.length = df.schema.width :=
    (hrows.width _ (List.getElem_mem hidx)).trans h.ncols.symm
  -- the cells are those of the table, as the two ways of reading them agree
  have hcell (j : Nat) (hj : j < df.schema.width) : df.cellAt m j idx = rows[idx].values[j]? := by
    obtain ⟨d, df₁, hd₁, hrun₁, -⟩ := h.getCell hj (hlen ▸ hidx)
    obtain ⟨df₂, -, hrun₂⟩ := hc.getCell h.wellTyped hd hj (hlen ▸ hidx)
    rw [← hrows.cell hr (hj.trans_eq h.ncols), hd₁]
    rw [hrun₁] at hrun₂
    obtain ⟨d', hd', heq⟩ := Option.map_eq_some_iff.1 hrun₂.symm
    rw [hd', (Prod.mk.inj (Prod.mk.inj heq).1).1]
  have hcells : (List.range df.schema.width).mapM (fun j => df.cellAt m j idx) =
      some rows[idx].values := by
    rw [List.mapM_congr_mem fun j hj => hcell j (List.mem_range.1 hj), ← hwidth]
    exact mapM_getElem? _
  rw [rowAt, if_pos (hlen ▸ hidx), hcells, hr]
  rfl

/-- The data frame that is left when a reader has visited rows. -/
theorem Cached.visitRows_run (h : df.Cached m df') (ht : df.WellTyped)
    (hd : ∀ p ∈ df.columns, p.2.DistinctNames) {row : Row} (hrow : df.Fits row) {indices : List Nat}
    (hfold : indices.foldlM (fun s idx => (df.rowAt m idx).bind (v.visit s)) s = some s') :
    ∃ df'', df.Cached m df'' ∧
      (DataFrame.visitRows v indices s row df').run m = some ((s', df''), m) := by
  induction indices generalizing s row df' with
  | nil =>
    cases hfold
    exact ⟨df', h, rfl⟩
  | cons idx indices ih =>
    rw [List.foldlM_cons] at hfold
    obtain ⟨s₁, hvisit, hrest⟩ := Option.bind_eq_some_iff.1 hfold
    obtain ⟨r, hidx, hr⟩ := Option.bind_eq_some_iff.1 hvisit
    obtain ⟨df₁, hdf₁, hrun⟩ := h.fillRow ht hd hrow idx
    obtain ⟨df₂, hdf₂, hrun₂⟩ := ih hdf₁ (fits_rowAt ht hidx) hrest
    refine ⟨df₂, hdf₂, ?_⟩
    rw [DataFrame.visitRows, Prog.run_bind, hrun, hidx, Option.map_some, Option.bind_some, hr,
      Prog.ofOption_some, Prog.ret_bind]
    exact hrun₂

/-- Reading changes nothing of what `local_map` goes over. -/
theorem Cached.localIndices_eq (h : df.Cached m df') (node : Nat) :
    df'.localIndices node = df.localIndices node := by
  obtain ⟨cols, schema⟩ := df
  obtain ⟨cols', schema'⟩ := df'
  obtain ⟨-, hcols⟩ := h
  cases hcols with
  | nil => rfl
  | cons hp _ =>
    cases hp with
    | mk hcol =>
      exact Column.localIndices_congr _ _ hcol.segments hcol.finalized hcol.size
        hcol.segmentCapacity node

namespace Shows

/-- The rows of the indices. -/
theorem foldlM_rowAt (h : df.Shows m rows) {indices : List Nat}
    (hlt : ∀ i ∈ indices, i < rows.length) :
    indices.foldlM (fun s idx => (df.rowAt m idx).bind (v.visit s)) s =
      (indices.filterMap (rows[·]?)).foldlM v.visit s := by
  induction indices generalizing s with
  | nil => rfl
  | cons idx indices ih =>
    rw [List.forall_mem_cons] at hlt
    have hget := List.getElem?_eq_getElem hlt.1
    rw [List.foldlM_cons, h.row idx hlt.1, hget, List.filterMap_cons_some hget, Option.bind_some,
      List.foldlM_cons]
    exact bind_congr fun s => ih hlt.2

theorem newRow (h : df.Shows m rows) (hc : df.Cached m df') :
    ∃ row, df'.newRow = some row ∧ df.Fits row := by
  obtain ⟨row, hrow, hfits⟩ := newRow_fits h.wellTyped
  refine ⟨row, ?_, hfits⟩
  rwa [DataFrame.newRow, hc.schema]

/-- `map` gives the reader the rows. -/
theorem map_run (h : df.Shows m rows) (hc : df.Cached m df')
    (hfold : rows.foldlM v.visit s = some s') :
    ∃ df'', df.Cached m df'' ∧ (df'.map v s).run m = some ((s', df''), m) := by
  obtain ⟨row, hrow, hfits⟩ := h.newRow hc
  have hall := @foldlM_rowAt σ m df rows v s h _ fun i hi => List.mem_range.1 hi
  rw [List.filterMap_getElem?_range, hfold] at hall
  rw [DataFrame.map, hrow, Prog.ofOption_some, Prog.ret_bind, hc.schema, h.length]
  exact hc.visitRows_run h.wellTyped h.distinct hfits hall

/-- `local_map` gives the reader the rows that are listed for the node. -/
theorem localMap_run (h : df.Shows m rows) (hc : df.Cached m df') {node : Nat} {is : List Nat}
    (his : df.localIndices node = some is) (hlt : ∀ i ∈ is, i < rows.length)
    (hfold : (is.filterMap (rows[·]?)).foldlM v.visit s = some s') :
    ∃ df'', df.Cached m df'' ∧ (df'.localMap node v s).run m = some ((s', df''), m) := by
  obtain ⟨row, hrow, hfits⟩ := h.newRow hc
  have hall := @foldlM_rowAt σ m df rows v s h _ hlt
  rw [hfold] at hall
  rw [DataFrame.localMap, hrow, Prog.ofOption_some, Prog.ret_bind, hc.localIndices_eq, his,
    Prog.ofOption_some, Prog.ret_bind]
  exact hc.visitRows_run h.wellTyped h.distinct hfits hall

end Shows

end DataFrame

end Eau2

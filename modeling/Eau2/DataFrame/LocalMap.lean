import Eau2.DataFrame.Table

/-!
# Mapping a reader over a data frame

`map` gives a reader all the rows of a data frame, and `local_map` those that
`local_indices` of the first column lists for the node. Both go through
`fill_row`, which reads every cell from the store, or from the cache of its
column.

On a given store, the row that `fill_row` makes only depends on its index
(`DataFrame.rowAt`): the caches hold what the store has (`DataFrame.Cached`), as
long as no two segments of a column have the same name. So what a reader is given
is determined by the indices (`DataFrame.Cached.visitRows`).
-/

namespace Eau2

/-- A `Reader`, with the states `σ`. -/
structure Reader (σ : Type) where
  visit : σ → Row → Option σ

namespace DataFrame

variable {σ : Type}

/-- What `fill_row` does for the column `j`. -/
def fillCell (idx : Nat) (rd : Row × DataFrame) (j : Nat) : Prog Key Value (Row × DataFrame) := do
  let r ← rd.2.getCell j idx
  let row ← Prog.ofOption (rd.1.set j r.1)
  return (row, r.2)

/-- `fill_row`. -/
def fillRow (df : DataFrame) (idx : Nat) (row : Row) : Prog Key Value (Row × DataFrame) := do
  Prog.assert (idx < df.schema.length)
  Prog.assert (row.width = df.schema.width)
  Prog.assert (∀ i < row.width, df.schema.colType i = row.colType i)
  (List.range row.width).foldlM (fillCell idx) (row, df)

/-- `Row r(*df_schema_)`. -/
def newRow (df : DataFrame) : Option Row :=
  (df.schema.colTypes.mapM ColType.ofChar?).map Row.ofTypes

/-- The loop of `map` and `local_map`, over the rows `indices`. -/
def visitRows (v : Reader σ) : List Nat → σ → Row → DataFrame → Prog Key Value (σ × DataFrame)
  | [], s, _, df => return (s, df)
  | idx :: indices, s, row, df => do
    let r ← df.fillRow idx row
    let s ← Prog.ofOption (v.visit s r.1)
    visitRows v indices s r.1 r.2

/-- The rows that `local_map` visits on the node `thisNode`:
    `columns_[0]->local_indices()`. -/
def localIndices (thisNode : Nat) (df : DataFrame) : Option (List Nat) :=
  df.columns.head?.bind fun p => p.2.localIndices thisNode

/-- `local_map`, on the node `thisNode`. -/
def localMap (thisNode : Nat) (v : Reader σ) (s : σ) (df : DataFrame) :
    Prog Key Value (σ × DataFrame) := do
  let row ← Prog.ofOption df.newRow
  let indices ← Prog.ofOption (df.localIndices thisNode)
  visitRows v indices s row df

/-- `map`. -/
def map (v : Reader σ) (s : σ) (df : DataFrame) : Prog Key Value (σ × DataFrame) := do
  let row ← Prog.ofOption df.newRow
  visitRows v (List.range df.schema.length) s row df

end DataFrame

/-! ## The value of a cell -/

namespace Column

variable {t : ColType} {m : Key → Option Value} {col col' : Column t}

/-- The value of the row `i` on the store `m`: the one at its place in the segment
    where it should be. -/
def readAt (m : Key → Option Value) (col : Column t) (i : Nat) : Option t.Elem :=
  if i < col.size ∧ col.finalized = true then do
    let k ← col.segments[i / col.segmentCapacity]?
    let v ← m k
    let a ← (t.deserializeArray.run v).map Prod.fst
    a.get (t.indexInSeg (i % col.segmentCapacity))
  else
    none

/-- No two segments have the same name. -/
def DistinctNames (col : Column t) : Prop := (col.segments.map Key.k).Nodup

/-- The column `col'` is `col`, its cache being the segment of the store `m` that
    it says, if it is one of its segments. -/
structure Cached (m : Key → Option Value) (col col' : Column t) : Prop where
  segments : col'.segments = col.segments
  finalized : col'.finalized = col.finalized
  size : col'.size = col.size
  segmentCapacity : col'.segmentCapacity = col.segmentCapacity
  cache : ∀ k ∈ col.segments, k.k = col'.cacheKey.k →
    (m k).bind (fun v => (t.deserializeArray.run v).map Prod.fst) = some col'.cache

/-- `fetch` makes the cache the segment of the store. -/
theorem Cached.fetch (h : Cached m col col') (hd : col.DistinctNames) {k : Key}
    (hk : k ∈ col.segments) :
    ∃ col'', (∀ a, (m k).bind (fun v => (t.deserializeArray.run v).map Prod.fst) = some a →
      Cached m col col'' ∧ col''.cache = a) ∧
    (col'.fetch k).run m =
      ((m k).bind fun v => (t.deserializeArray.run v).map Prod.fst).map fun _ => (col'', m) := by
  by_cases hkey : k.k = col'.cacheKey.k
  · -- The name is that of the cache key, so that the cache is what the store has.
    have hcache := h.cache k hk hkey
    refine ⟨col', fun a ha => ⟨h, Option.some.inj (hcache.symm.trans ha)⟩, ?_⟩
    rw [Column.fetch, if_pos (Key.equals_iff.2 hkey), hcache]
    rfl
  · cases hload : (m k).bind (fun v => (t.deserializeArray.run v).map Prod.fst) with
    | none =>
      refine ⟨col', fun a ha => (Option.some_ne_none a ha.symm).elim, ?_⟩
      rw [Column.fetch, if_neg (fun hn => hkey (Key.equals_iff.1 hn)), Prog.run, Option.map_none]
      cases hm : m k with
      | none => rfl
      | some v =>
        rw [hm, Option.bind_some] at hload
        simp only [hload, Prog.ofOption_none, Prog.fail_bind, Prog.run_fail]
    | some a =>
      obtain ⟨v, hm, ha⟩ := Option.bind_eq_some_iff.1 hload
      refine ⟨{ col' with cache := a, cacheKey := k }, fun a' ha' =>
        ⟨⟨h.segments, h.finalized, h.size, h.segmentCapacity, ?_⟩, Option.some.inj ha'⟩, ?_⟩
      · -- Only the segment fetched has the name of the new cache key.
        intro k' hk' heq
        rw [List.inj_on_of_nodup_map hd hk' hk heq]
        exact hload
      · rw [Column.fetch, if_neg (fun hn => hkey (Key.equals_iff.1 hn)), Prog.run_get hm, ha]
        rfl

/-- `get` returns the value of the row, whatever is in the cache. -/
theorem Cached.get (h : Cached m col col') (hd : col.DistinctNames) (i : Nat) :
    ∃ col'', Cached m col col'' ∧
      (col'.get i).run m = (col.readAt m i).map fun x => ((x, col''), m) := by
  rw [Column.get, readAt, h.size, h.finalized, h.segments, h.segmentCapacity]
  by_cases hi : i < col.size
  · by_cases hfin : col.finalized = true
    · rw [Prog.assert_true hi, Prog.ret_bind, Prog.assert_true hfin, Prog.ret_bind,
        if_pos ⟨hi, hfin⟩]
      cases hk : col.segments[i / col.segmentCapacity]? with
      | none => exact ⟨col', h, rfl⟩
      | some k =>
        obtain ⟨col'', hcol'', hrun⟩ := h.fetch hd (List.mem_of_getElem? hk)
        simp only [Prog.ofOption_some, Prog.ret_bind, Prog.run_bind, hrun, Option.bind_eq_bind,
          Option.bind_some]
        cases hload : (m k).bind (fun v => (t.deserializeArray.run v).map Prod.fst) with
        | none =>
          refine ⟨col', h, ?_⟩
          rw [Option.map_none, Option.bind_none, ← Option.bind_assoc, hload]
          rfl
        | some a =>
          obtain ⟨hcached, rfl⟩ := hcol'' a hload
          refine ⟨col'', hcached, ?_⟩
          rw [Option.map_some, Option.bind_some, ← Option.bind_assoc, hload, Option.bind_some,
            hcached.segmentCapacity]
          cases col''.cache.get (t.indexInSeg (i % col.segmentCapacity)) <;> rfl
    · rw [Prog.assert_true hi, Prog.ret_bind, Prog.assert_false hfin, if_neg fun hn => hfin hn.2]
      exact ⟨col', h, rfl⟩
  · rw [Prog.assert_false hi, if_neg fun hn => hi hn.1]
    exact ⟨col', h, rfl⟩

/-- A column that has not been read yet. -/
theorem Cached.refl (h : ∀ k ∈ col.segments, k.k ≠ col.cacheKey.k) : Cached m col col :=
  ⟨rfl, rfl, rfl, rfl, fun k hk heq => absurd heq (h k hk)⟩

end Column

/-- The value of an element of a column. -/
def Data.ofElem : (t : ColType) → t.Elem → Data
  | .string, s => .string (some s)
  | .int, i => .int i
  | .double, d => .double d
  | .bool, b => .bool b

@[simp] theorem Data.type_ofElem (t : ColType) (x : t.Elem) : (Data.ofElem t x).type = t := by
  cases t <;> rfl

/-- The column `p'` is `p`, its cache being a segment of the store `m`. -/
inductive ColumnPtr.Cached (m : Key → Option Value) : ColumnPtr → ColumnPtr → Prop
  | mk {t : ColType} {col col' : Column t} (h : col.Cached m col') : Cached m ⟨t, col⟩ ⟨t, col'⟩

namespace DataFrame

variable {σ : Type} {m : Key → Option Value} {df df' : DataFrame}

/-- The schema has the types of the columns. -/
def WellTyped (df : DataFrame) : Prop := df.schema.colTypes = df.columns.map (·.1.getType)

/-- The value of a cell, on the store `m`. -/
def cellAt (m : Key → Option Value) (df : DataFrame) (col row : Nat) : Option Data :=
  df.columns[col]?.bind fun p => (p.2.readAt m row).map (Data.ofElem p.1)

/-- The row `idx`, on the store `m`. -/
def rowAt (m : Key → Option Value) (df : DataFrame) (idx : Nat) : Option Row :=
  if idx < df.schema.length then
    ((List.range df.schema.width).mapM fun col => df.cellAt m col idx).map Row.mk
  else
    none

/-- The data frame `df'` is `df`, the caches of its columns being segments of the
    store `m`. -/
structure Cached (m : Key → Option Value) (df df' : DataFrame) : Prop where
  schema : df'.schema = df.schema
  columns : List.Forall₂ (ColumnPtr.Cached m) df.columns df'.columns

theorem Cached.colType (h : df.Cached m df') (ht : df.WellTyped) {j : Nat} {p : ColumnPtr}
    (hp : df.columns[j]? = some p) : df'.schema.colType j = some p.1.getType := by
  rw [h.schema, Schema.colType, ht, List.getElem?_map, hp, Option.map_some]

/-- The getters return the value of the cell. -/
theorem Cached.getAs (h : df.Cached m df') (ht : df.WellTyped)
    (hd : ∀ p ∈ df.columns, p.2.DistinctNames) {t : ColType} {col : Column t} {j idx : Nat}
    (hp : df.columns[j]? = some ⟨t, col⟩) (hidx : idx < df.schema.length) :
    ∃ df'', df.Cached m df'' ∧
      (df'.getAs t j idx).run m = (col.readAt m idx).map fun x => ((x, df''), m) := by
  obtain ⟨hlt, -⟩ := List.getElem?_eq_some_iff.1 hp
  obtain ⟨p', hp', hcached⟩ := List.Forall₂.exists_getElem? h.columns.flip hp
  cases hcached with
  | @mk _ _ col' hcol =>
    obtain ⟨col'', hcol'', hrun⟩ := hcol.get (hd _ (List.mem_of_getElem? hp)) idx
    refine ⟨{ df' with columns := df'.columns.set j ⟨t, col''⟩ }, ⟨h.schema, ?_⟩, ?_⟩
    · exact (List.Forall₂.set_left h.columns.flip hp (.mk hcol'')).flip
    · have hwidth : j < df'.schema.width ∧ idx < df'.schema.length := by
        rw [h.schema, Schema.width, ht, List.length_map]
        exact ⟨hlt, hidx⟩
      rw [DataFrame.getAs, Prog.assert_true hwidth, Prog.ret_bind,
        Prog.assert_true (h.colType ht hp), Prog.ret_bind, hp', Option.bind_some,
        ColumnPtr.asType_mk, Prog.ofOption_some, Prog.ret_bind, Prog.run_bind, hrun]
      cases col.readAt m idx <;> rfl

theorem Cached.getCell (h : df.Cached m df') (ht : df.WellTyped)
    (hd : ∀ p ∈ df.columns, p.2.DistinctNames) {j idx : Nat} (hj : j < df.schema.width)
    (hidx : idx < df.schema.length) :
    ∃ df'', df.Cached m df'' ∧
      (df'.getCell j idx).run m = (df.cellAt m j idx).map fun d => ((d, df''), m) := by
  rw [Schema.width, ht, List.length_map] at hj
  obtain ⟨⟨t, col⟩, hp⟩ : ∃ p, df.columns[j]? = some p := ⟨_, List.getElem?_eq_getElem hj⟩
  obtain ⟨df'', hdf'', hrun⟩ := h.getAs ht hd hp hidx
  have htype : df'.colType j >>= ColType.ofChar? = some t := by
    rw [DataFrame.colType, h.colType ht hp, Option.bind_eq_bind, Option.bind_some,
      ColType.ofChar?_getType]
  refine ⟨df'', hdf'', ?_⟩
  rw [cellAt, hp, Option.bind_some, DataFrame.getCell, htype, Prog.ofOption_some, Prog.ret_bind]
  cases t with
  | string => rw [getString, Prog.run_bind, hrun]; cases col.readAt m idx <;> rfl
  | int => rw [getInt, Prog.run_bind, hrun]; cases col.readAt m idx <;> rfl
  | double => rw [getDouble, Prog.run_bind, hrun]; cases col.readAt m idx <;> rfl
  | bool => rw [getBool, Prog.run_bind, hrun]; cases col.readAt m idx <;> rfl

/-- The value of a cell is of the type of its column. -/
theorem type_cellAt (ht : df.WellTyped) {j idx : Nat} {d : Data} (h : df.cellAt m j idx = some d) :
    df.schema.colType j = some d.type.getType := by
  obtain ⟨p, hp, hd⟩ := Option.bind_eq_some_iff.1 h
  obtain ⟨x, -, rfl⟩ := Option.map_eq_some_iff.1 hd
  rw [Schema.colType, ht, List.getElem?_map, hp, Option.map_some, Data.type_ofElem]

/-- The row has the types of the schema. -/
def Fits (df : DataFrame) (row : Row) : Prop := row.values.map (·.type.getType) = df.schema.colTypes

theorem Fits.width {row : Row} (h : df.Fits row) : row.width = df.schema.width := by
  rw [Row.width, Schema.width, ← h, List.length_map]

theorem Fits.colType {row : Row} (h : df.Fits row) (j : Nat) :
    row.colType j = df.schema.colType j := by
  rw [Row.colType, Schema.colType, ← h, List.getElem?_map]

/-- The first `k` cells of a row, filled one after the other. -/
theorem Cached.foldlM_fillCell (h : df.Cached m df') (ht : df.WellTyped)
    (hd : ∀ p ∈ df.columns, p.2.DistinctNames) {row : Row} (hrow : df.Fits row) {idx : Nat}
    (hidx : idx < df.schema.length) {k : Nat} (hk : k ≤ df.schema.width) :
    ∃ df'', df.Cached m df'' ∧
      ((List.range k).foldlM (fillCell idx) (row, df')).run m =
        ((List.range k).mapM fun col => df.cellAt m col idx).map
          fun ds => ((⟨ds ++ row.values.drop k⟩, df''), m) := by
  induction k with
  | zero => exact ⟨df', h, rfl⟩
  | succ k ih =>
    obtain ⟨df₁, hdf₁, hrun₁⟩ := ih (by omega)
    obtain ⟨df₂, hdf₂, hrun₂⟩ := hdf₁.getCell ht hd hk hidx
    refine ⟨df₂, hdf₂, ?_⟩
    rw [List.range_succ, List.foldlM_append, Prog.run_bind, hrun₁, List.mapM_append]
    cases hds : (List.range k).mapM fun col => df.cellAt m col idx with
    | none => rfl
    | some ds =>
      have hlen : ds.length = k := by
        have := List.length_of_mapM_eq_some hds
        rwa [List.length_range] at this
      have hdrop : k < row.values.length := lt_of_lt_of_eq hk hrow.width.symm
      simp only [Option.map_some, Option.bind_some, List.foldlM_cons, List.foldlM_nil,
        List.mapM_cons,
        List.mapM_nil, Option.pure_def, Option.bind_eq_bind, fillCell, Prog.bind_assoc,
        Prog.run_bind, hrun₂]
      cases hcell : df.cellAt m k idx with
      | none => rfl
      | some d =>
        -- the cell `k` of the row is the first of those left, and has the type of the value
        have hset : Row.set ⟨ds ++ row.values.drop k⟩ k d =
            some ⟨ds ++ [d] ++ row.values.drop (k + 1)⟩ := by
          have htype := (hrow.colType k).trans (type_cellAt ht hcell)
          rw [Row.colType] at htype
          rw [Row.set, Row.colType, List.getElem?_append_right hlen.le, hlen, Nat.sub_self,
            List.getElem?_drop, Nat.add_zero, if_pos htype, List.set_append_right _ _ hlen.le, hlen,
            Nat.sub_self, List.drop_eq_getElem_cons hdrop, List.set_cons_zero, List.append_assoc]
          rfl
        simp only [Option.map_some, Option.bind_some, hset, Prog.ofOption_some, Prog.pure_eq,
          Prog.run_ret]

theorem Cached.fillRow (h : df.Cached m df') (ht : df.WellTyped)
    (hd : ∀ p ∈ df.columns, p.2.DistinctNames) {row : Row} (hrow : df.Fits row) (idx : Nat) :
    ∃ df'', df.Cached m df'' ∧
      (df'.fillRow idx row).run m = (df.rowAt m idx).map fun r => ((r, df''), m) := by
  rw [DataFrame.fillRow, rowAt, h.schema]
  by_cases hidx : idx < df.schema.length
  · obtain ⟨df'', hdf'', hrun⟩ := h.foldlM_fillCell ht hd hrow hidx le_rfl
    refine ⟨df'', hdf'', ?_⟩
    rw [Prog.assert_true hidx, Prog.ret_bind, Prog.assert_true hrow.width, Prog.ret_bind,
      Prog.assert_true fun j _ => (hrow.colType j).symm, Prog.ret_bind, hrow.width,
      hrun, if_pos hidx, Option.map_map, List.drop_of_length_le hrow.width.le]
    simp [Function.comp_def]
  · rw [Prog.assert_false hidx, if_neg hidx]
    exact ⟨df', h, rfl⟩

theorem fits_rowAt (ht : df.WellTyped) {idx : Nat} {row : Row} (h : df.rowAt m idx = some row) :
    df.Fits row := by
  rw [rowAt] at h
  split_ifs at h
  obtain ⟨ds, hds, rfl⟩ := Option.map_eq_some_iff.1 h
  refine List.ext_getElem? fun j => ?_
  rw [List.getElem?_map]
  by_cases hj : j < df.schema.width
  · have hcell := List.getElem?_of_mapM_eq_some hds j
    rw [List.getElem?_range hj] at hcell
    have hlt : j < ds.length := by
      rw [List.length_of_mapM_eq_some hds, List.length_range]
      exact hj
    rw [List.getElem?_eq_getElem hlt] at hcell ⊢
    exact (type_cellAt ht hcell.symm).symm
  · rw [List.getElem?_eq_none, List.getElem?_eq_none (le_of_not_gt hj)]
    · rfl
    · rw [List.length_of_mapM_eq_some hds, List.length_range]
      exact le_of_not_gt hj

/-- What a reader is given is determined by the indices of the rows. -/
theorem Cached.visitRows (h : df.Cached m df') (ht : df.WellTyped)
    (hd : ∀ p ∈ df.columns, p.2.DistinctNames) {row : Row} (hrow : df.Fits row) (v : Reader σ)
    (indices : List Nat) (s : σ) :
    ((DataFrame.visitRows v indices s row df').run m).map (·.1.1) =
      indices.foldlM (fun s idx => (df.rowAt m idx).bind (v.visit s)) s := by
  induction indices generalizing s row df' with
  | nil => rfl
  | cons idx indices ih =>
    obtain ⟨df'', hdf'', hrun⟩ := h.fillRow ht hd hrow idx
    rw [DataFrame.visitRows, Prog.run_bind, hrun, List.foldlM_cons]
    cases hidx : df.rowAt m idx with
    | none => rfl
    | some r =>
      rw [Option.map_some, Option.bind_some, Prog.run_bind]
      simp only [Option.bind_some, Option.bind_eq_bind]
      cases v.visit s r with
      | none => rfl
      | some s' => exact ih hdf'' (fits_rowAt ht hidx) s'

end DataFrame

end Eau2

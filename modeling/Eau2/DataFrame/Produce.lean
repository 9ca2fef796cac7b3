import Eau2.DataFrame.Entry
import Eau2.DataFrame.Numbered
import Eau2.Sorer.Alignment

/-!
# Producing data frames

`fromVisitor`, `fromArray`, `fromScalar` and `fromSorFile` fail no assertion on values that can
be stored, in columns of distinct ids that are not empty. Each puts the segments of a table,
column by column as they fill up, and then the data frame: what it has written is the puts and
the value of an entry (`Produces`), of the rows that the writer has written, say
(`fromVisitor_produces`).
-/

namespace Eau2

variable {n c : Nat} {k : Key}

/-- The columns of the ids drawn can be told apart, and they can be serialized. -/
structure GoodIds (draws : Nat → Fin 10 → Fin 53) (ncols : Nat) : Prop where
  ne_nil : ∀ i < ncols, colId (draws i) ≠ []
  inj : ∀ i < ncols, ∀ j < ncols, colId (draws i) = colId (draws j) → i = j

/-- There are not that many ids. -/
theorem GoodIds.ncols_lt {draws : Nat → Fin 10 → Fin 53} {ncols : Nat} (h : GoodIds draws ncols) :
    ncols < 2 ^ 64 := by
  have hinj : Function.Injective fun i : Fin ncols => draws i := fun i j heq =>
    Fin.ext (h.inj i i.isLt j j.isLt (congrArg colId heq))
  have hle := Fintype.card_le_of_injective _ hinj
  rw [Fintype.card_fin, Fintype.card_fun, Fintype.card_fin, Fintype.card_fin] at hle
  exact hle.trans_lt (by norm_num)

/-! ## Pushing rows -/

namespace Table

variable {ids : Nat → Bytes} {table : Table} {rows : List Row} {r : Row}

theorem filling_cons (q : Σ t : ColType, List t.Elem) (table : Table) :
    filling n c ids (q :: table) =
    ⟨q.1, Column.filling q.1 n (ids 0) c q.2⟩ :: filling n c (fun i => ids (i + 1)) table :=
  List.mapIdx_cons

/-- The values of a row pushed on the columns. -/
theorem mapM_pushBack_filling (hc : 0 < c) (hs : table.Storable) {ds : List Data}
    (ht : ds.map Data.type = table.map Sigma.fst) (hfull : Row.Full ⟨ds⟩) :
    ∃ qs, ((filling n c ids table).zip ds).mapM
    (fun pd : ColumnPtr × Data => pd.1.pushBack n pd.2) =
        Prog.putAll qs (.ret (filling n c ids (table.addRow ⟨ds⟩))) ∧
      ∀ kv, kv ∈ segPuts n c ids 1 (table.addRow ⟨ds⟩) ↔ kv ∈ segPuts n c ids 1 table ∨
      kv ∈ qs := by
  induction ds generalizing table ids with
  | nil =>
    obtain rfl : table = [] := List.map_eq_nil_iff.1 ht.symm
    exact ⟨[], rfl, fun kv => by simp [addRow]⟩
  | cons d ds ih =>
    obtain ⟨⟨t, xs⟩, table, rfl, hq, htable⟩ := List.map_eq_cons_iff.1 ht.symm
    obtain rfl : t = d.type := hq
    rw [Storable, List.forall_mem_cons] at hs
    obtain ⟨hd, hds⟩ := List.forall_mem_cons.1 hfull
    obtain ⟨x, hx⟩ := Option.isSome_iff_exists.1 hd
    obtain ⟨qs₁, hpush, hputs₁⟩ := Column.pushBack_filling n (ids 0) hc hs.1 x
    obtain ⟨qs₂, hrest, hputs₂⟩ := @ih (fun i => ids (i + 1)) table hs.2 htable.symm hds
    have hadd : addRow (⟨d.type, xs⟩ :: table) ⟨d :: ds⟩ =
        ⟨d.type, xs ++ [x]⟩ :: addRow table ⟨ds⟩ := by
      rw [addRow, List.zip_cons_cons, List.map_cons, pushCell, hx]
      rfl
    have hcolumn : ColumnPtr.pushBack n ⟨d.type, Column.filling d.type n (ids 0) c xs⟩ d =
        Prog.putAll qs₁ (.ret ⟨d.type, Column.filling d.type n (ids 0) c (xs ++ [x])⟩) := by
      rw [ColumnPtr.pushBack, hx, Prog.ofOption_some, Prog.ret_bind, hpush, Prog.putAll_bind]
      rfl
    refine ⟨qs₁ ++ qs₂, ?_, fun kv => ?_⟩
    · rw [filling_cons, List.zip_cons_cons, List.mapM_cons, hcolumn, Prog.putAll_bind,
        Prog.ret_bind,
        hrest, Prog.putAll_bind, Prog.ret_bind, hadd, filling_cons, Prog.putAll_append]
      rfl
    · have hputs₂ := hputs₂ kv
      rw [hadd]
      simp only [segPuts, List.mapIdx_cons, List.flatten_cons, List.mem_append, hputs₁] at hputs₂ ⊢
      rw [hputs₂]
      tauto

/-- A row added to the columns. -/
theorem addToColumns_filling (n : Nat) (ids : Nat → Bytes) (hc : 0 < c) (hs : table.Storable)
    (ht : r.values.map Data.type = table.map Sigma.fst) (hfull : r.Full) :
    ∃ qs, r.addToColumns n (filling n c ids table) =
        Prog.putAll qs (.ret (filling n c ids (table.addRow r))) ∧
      ∀ kv, kv ∈ segPuts n c ids 1 (table.addRow r) ↔ kv ∈ segPuts n c ids 1 table ∨ kv ∈ qs := by
  have hlen : r.values.length = table.length := by simpa using congrArg List.length ht
  have htypes : r.values.map (·.type.getType) = (filling n c ids table).map (·.1.getType) := by
    have hcols : (filling n c ids table).map Sigma.fst = table.map Sigma.fst := by
      refine List.ext_getElem? fun i => ?_
      rw [List.getElem?_map, List.getElem?_map, getElem?_filling]
      cases table[i]? <;> rfl
    have := congrArg (List.map ColType.getType) (ht.trans hcols.symm)
    rwa [List.map_map, List.map_map] at this
  obtain ⟨qs, hpush, hputs⟩ := mapM_pushBack_filling hc hs ht hfull
  refine ⟨qs, ?_, hputs⟩
  rw [Row.addToColumns, Prog.assert_true (by rw [Row.width, hlen, length_filling]), Prog.ret_bind,
    Prog.assert_true htypes, Prog.ret_bind]
  exact hpush

end Table

/-- The rows of a writer added to the columns. -/
theorem DataFrame.visitAll_filling (n : Nat) (ids : Nat → Bytes) {σ : Type}
    {w : Writer σ} (hc : 0 < c)
    {fuel : Nat} {s : σ} {r : Row} {rows : List Row} {table : Table} (hs : table.Storable)
    (hrows : w.rows fuel s r = some rows) (ht : ∀ r ∈ rows, r.values.map Data.type =
      table.map Sigma.fst)
    (hfull : ∀ r ∈ rows, r.Full) (hrs : ∀ r ∈ rows, r.Storable) :
    ∃ qs, visitAll n w fuel s r (table.filling n c ids) =
        Prog.putAll qs (.ret ((rows.foldl Table.addRow table).filling n c ids)) ∧
      ∀ kv, kv ∈ (rows.foldl Table.addRow table).segPuts n c ids 1 ↔
        kv ∈ table.segPuts n c ids 1 ∨ kv ∈ qs := by
  induction fuel generalizing s r rows table with
  | zero => cases hrows
  | succ fuel ih =>
    rw [Writer.rows] at hrows
    rw [visitAll]
    by_cases hdone : w.done s = true
    · rw [if_pos hdone] at hrows ⊢
      cases hrows
      exact ⟨[], rfl, fun kv => by simp⟩
    · rw [if_neg hdone] at hrows ⊢
      obtain ⟨⟨r', s'⟩, hvisit, hnext⟩ := Option.bind_eq_some_iff.1 hrows
      obtain ⟨rest, hrest, heq⟩ := Option.bind_eq_some_iff.1 hnext
      cases heq
      rw [List.forall_mem_cons] at ht hfull hrs
      obtain ⟨qs₁, hadd, hputs₁⟩ := Table.addToColumns_filling n ids hc hs ht.1 hfull.1
      have htypes := Table.types_addRow ht.1
      obtain ⟨qs₂, hloop, hputs₂⟩ := ih (hs.addRow hrs.1) hrest
        (fun r hr => (ht.2 r hr).trans htypes.symm) hfull.2 hrs.2
      refine ⟨qs₁ ++ qs₂, ?_, fun kv => ?_⟩
      · rw [hvisit, Prog.ofOption_some, Prog.ret_bind]
        show (r'.addToColumns n _ >>= fun cols => visitAll n w fuel s' r' cols) = _
        rw [hadd, Prog.putAll_bind, Prog.ret_bind, hloop, Prog.putAll_append, List.foldl_cons]
      · rw [List.foldl_cons, hputs₂, hputs₁, List.mem_append, or_assoc]

/-! ## Entries -/

/-- The program puts the data frame of the entry, made of the rows in columns of the ids drawn,
    under the key `k`, and returns it. -/
structure Produces (k : Key) (p : Prog Key Value DataFrame)
    (draws : Nat → Fin 10 → Fin 53) (cap : Nat)
    (ts : List ColType) (rows : List Row) (e : Entry n) : Prop where
  writes : p.writes = some (e.puts ++ [(k, e.value)], e.frame)
  draws : e.draws = draws
  cap : e.cap = cap
  types : e.table.map Sigma.fst = ts
  rows : e.rows = rows

variable {draws : Nat → Fin 10 → Fin 53} {table : Table} {ts : List ColType} {rows : List Row}

/-- A data frame whose columns have ids can be serialized. -/
theorem Table.exists_serialize_frame (hids : ∀ i < table.length, colId (draws i) ≠ [])
    (hlen : ∀ q ∈ table, q.2.length < 2 ^ 64) (nrows : Nat) :
    ∃ v, (table.frame n c (fun i => colId (draws i)) nrows).serialize = some v := by
  have hcols : ∃ ws, (table.filled n c fun i => colId (draws i)).mapM
      (fun p : ColumnPtr => p.2.serialize) = some ws := by
    refine ⟨_, List.mapM_eq_some_map (g := fun p : ColumnPtr => p.2.serialize.getD []) fun p hp =>
      ?_⟩
    obtain ⟨i, hi, rfl⟩ := List.mem_mapIdx.1 hp
    rw [Column.serialize_filled (hids i hi) (hlen _ (List.getElem_mem hi))]
    rfl
  obtain ⟨ws, hws⟩ := hcols
  refine ⟨(Schema.mk (table.map (·.1.getType)) nrows).serialize ++ ws.flatten, ?_⟩
  rw [DataFrame.serialize, frame, hws]
  rfl

/-- The keys of the segments, by the numbers of their column and of their own. -/
def SegNames (draws : Nat → Fin 10 → Fin 53) (w c j : Nat) (k : Key) : Prop :=
  c < w ∧ k.k = segName (colId (draws c)) j

theorem segNames_ofCStr (draws : Nat → Fin 10 → Fin 53) (w : Nat) : ∀ c < w, ∀ j node,
    SegNames draws w c j (Key.ofCStr (segName (colId (draws c)) j) node) :=
  fun _ hc j node => ⟨hc, Column.segKey_k node _ j⟩

/-- Segments put in order are put once, as long as their numbers have three digits. -/
theorem nodup_of_numbered {w : Nat} (hids : GoodIds draws w) {mk : Prog Key Value DataFrame}
    {df : DataFrame} {puts : List (Key × Value)} (hmk : mk.writes = some (puts, df))
    (hnum : mk.Numbered (SegNames draws w)
      (fun df g => DataFrame.Counted id df.columns g) fun _ => 0)
    (hwidth : df.columns.length = w) (hfew : ∀ p ∈ df.columns, p.2.segments.length ≤ 1000) :
    (puts.map Prod.fst).Nodup := by
  obtain ⟨g, hwritten, hcounted⟩ := hnum.written_of_writes .nil hmk
  have hlt {c j : Nat} (hc : c < w) (hj : j < g c) : j < 1000 := by
    have hp := List.getElem?_eq_getElem (hwidth.symm ▸ hc)
    exact hj.trans_le ((hcounted c _ hp).trans (hfew _ (List.mem_of_getElem? hp)))
  refine List.nodup_iff_pairwise_ne.2 (hwritten.pairwise ?_)
  rintro c j _ c' j' _ hj hj' ⟨hc, hk⟩ ⟨hc', hk'⟩ hne rfl
  obtain ⟨hid, rfl⟩ := Column.segName_colId_inj (hlt hc hj) (hlt hc' hj') (hk.symm.trans hk')
  exact hne (Prod.ext (hids.inj c hc c' hc' hid) rfl)

/-- The columns of a table have as many segments as it takes. -/
theorem Table.length_segments_filled {ids : Nat → Bytes} {m : Nat}
    (hlen : ∀ q ∈ table, q.2.length = m) :
    ∀ p ∈ table.filled n c ids, p.2.segments.length = List.numChunks c m := by
  intro p hp
  obtain ⟨i, hi, rfl⟩ := List.mem_mapIdx.1 hp
  rw [← hlen _ (List.getElem_mem hi)]
  exact (List.length_map _).trans List.length_range

/-- A data frame of columns that hold a table is put, once its segments have been. -/
theorem exists_produces (hc : 0 < c)
    (hcap : c = defaultSegmentCapacity ∨ rows.length ≤ c ∧ c ≤ defaultSegmentCapacity)
    (hfew : List.numChunks c rows.length ≤ 1000) (hids : GoodIds draws table.length)
    (hne : table ≠ []) (hs : table.Storable) (hrows : table.HasRows rows)
    {puts : List (Key × Value)}
    (hputs : ∀ kv, kv ∈ puts ↔ kv ∈ table.segPuts n c (fun i => colId (draws i)) 0)
    {mk : Prog Key Value DataFrame}
    (hmk : mk.writes = some (puts, table.frame n c (fun i => colId (draws i)) rows.length))
    (hnum : mk.Numbered (SegNames draws table.length)
      (fun df g => DataFrame.Counted id df.columns g) fun _ => 0) :
    ∃ e : Entry n, Produces k (mk >>= fun df => KDStore.put k df >>= fun _ => pure df) draws c
      (table.map Sigma.fst) rows e ∧ e.puts = puts ∧ e.table = table := by
  have hcle : c ≤ defaultSegmentCapacity := hcap.elim le_of_eq And.right
  have hnrows : rows.length < 2 ^ 64 := by
    have hle := (List.numChunks_le_iff hc (by norm_num)).1 hfew
    have hmul : c * 1000 ≤ defaultSegmentCapacity * 1000 := Nat.mul_le_mul_right _ hcle
    exact (hle.trans hmul).trans_lt (by decide)
  obtain ⟨v, hv⟩ := Table.exists_serialize_frame (n := n) (c := c) hids.ne_nil
    (fun q hq => (hrows.length q hq).trans_lt hnrows) rows.length
  have hnodup : (puts.map Prod.fst).Nodup :=
    nodup_of_numbered hids hmk hnum List.length_mapIdx fun p hp =>
      (Table.length_segments_filled hrows.length p hp).trans_le hfew
  refine ⟨⟨table, rows, draws, c, puts, v, hc, hcap, hfew, hne, hids.ncols_lt, hids.inj, hs, hrows,
    hputs, hnodup, hv⟩, ⟨?_, rfl, rfl, rfl, rfl⟩, rfl, rfl⟩
  refine Prog.writes_bind_eq_some.2 ⟨puts, _, _, hmk, ?_, rfl⟩
  rw [KDStore.put, hv]
  rfl

/-- `fromVisitor` on a writer whose rows can be stored. -/
theorem fromVisitor_produces (n : Nat) (k : Key) {σ : Type} {types : Bytes} {w : Writer σ}
    {s : σ} {fuel : Nat} (hts : (Schema.ofTypes types).colTypes.mapM ColType.ofChar? = some ts)
    (hrows : w.rows fuel s (Row.ofTypes ts) = some rows) (hne : ts ≠ [])
    (hids : GoodIds draws ts.length) (ht : ∀ r ∈ rows, r.values.map Data.type = ts)
    (hfull : ∀ r ∈ rows, r.Full) (hs : ∀ r ∈ rows, r.Storable)
    (hfew : List.numChunks defaultSegmentCapacity rows.length ≤ 1000) :
    ∃ e : Entry n, Produces k (DataFrame.fromVisitor n k types draws w s fuel) draws
      defaultSegmentCapacity ts rows e := by
  have hcap : 0 < defaultSegmentCapacity := by decide
  obtain ⟨hhas, htypes⟩ := Table.hasRows_ofRows ht hfull
  have hlen : (Table.ofRows ts rows).length = ts.length := by
    simpa using congrArg List.length htypes
  have hstorable : (Table.ofRows ts rows).Storable := (Table.storable_empty ts).foldl_addRow hs
  have hnil : Table.ofRows ts rows ≠ [] := List.ne_nil_of_length_pos
    (hlen ▸ List.length_pos_of_ne_nil hne)
  obtain ⟨qs, hvisit, hputs⟩ := DataFrame.visitAll_filling n (fun i => colId (draws i)) hcap
    (Table.storable_empty ts) hrows
      (fun r hr => (ht r hr).trans (Table.types_empty ts).symm) hfull hs
  have hcols := @Table.filling_new n defaultSegmentCapacity
    (ts.map fun t => ⟨t, []⟩) draws fun q hq => List.eq_nil_of_length_eq_zero
      (Table.length_empty ts q hq)
  rw [Table.types_empty] at hcols
  have hmade : (DataFrame.made n types draws w s fuel).writes = some (qs ++ Table.lastPuts n
      defaultSegmentCapacity (fun i => colId (draws i)) (Table.ofRows ts rows),
        (Table.ofRows ts rows).frame n defaultSegmentCapacity
        (fun i => colId (draws i)) rows.length) := by
    rw [DataFrame.made, hts, Prog.ofOption_some, Prog.ret_bind, ← hcols]
    show (DataFrame.visitAll .. >>= DataFrame.ofColumns).writes = _
    rw [hvisit, Prog.putAll_bind, Prog.ret_bind, ← Table.ofRows,
      Table.ofColumns_filling hstorable hnil hhas.length, ← Prog.putAll_append, Prog.writes_putAll,
      Table.frame]
  have hputs' (kv : Key × Value) : kv ∈ qs ++ Table.lastPuts n defaultSegmentCapacity
      (fun i => colId (draws i)) (Table.ofRows ts rows) ↔
        kv ∈ (Table.ofRows ts rows).segPuts n defaultSegmentCapacity
        (fun i => colId (draws i)) 0 := by
    rw [Table.mem_segPuts_zero, List.mem_append, Table.ofRows, hputs]
    exact or_congr_left (or_iff_right (Table.not_mem_segPuts_empty ts kv)).symm
  have hwidth : (cString types).length = (Table.ofRows ts rows).length :=
    hlen.symm ▸ (List.length_of_mapM_eq_some hts).symm
  obtain ⟨e, he, -⟩ := exists_produces (k := k) hcap (.inl rfl) hfew
    (hlen ▸ hids) hnil hstorable hhas
    hputs' hmade ((DataFrame.made_numbered Function.injective_id (segNames_ofCStr draws _)
      (fun _ _ => rfl) hwidth w s fuel).imp fun _ _ h => h.1)
  rw [DataFrame.fromVisitor_eq]
  exact ⟨e, htypes ▸ he⟩

/-! ## Columns -/

/-- The row of a data frame of one column. -/
def Row.single {t : ColType} (x : t.Elem) : Row := ⟨[Data.ofElem t x]⟩

theorem Table.hasRows_single {t : ColType} (xs : List t.Elem) :
    HasRows [⟨t, xs⟩] (xs.map Row.single) where
  width := List.forall_mem_map.2 fun _ _ => rfl
  column j q hq := by
    cases j with
    | zero =>
      cases hq
      rw [List.map_map]
      rfl
    | succ j => cases hq

/-- A data frame of one column. -/
theorem pushed_produces {t : ColType} {xs : List t.Elem} (hc : 0 < c)
    (hcap : c = defaultSegmentCapacity ∨ xs.length ≤ c ∧ c ≤ defaultSegmentCapacity)
    (hid : colId (draws 0) ≠ []) (hs : ∀ x ∈ xs, t.Storable x)
    (hfew : List.numChunks c xs.length ≤ 1000) :
    ∃ e : Entry n, Produces k (do
      let col ← xs.foldlM (Column.pushBack n) (Column.new t n (draws 0) c)
      let df ← DataFrame.ofColumn ⟨t, col⟩
      KDStore.put k df
      return df) draws c [t] (xs.map Row.single) e := by
  let table : Table := [⟨t, xs⟩]
  have hids : GoodIds draws table.length := by
    refine ⟨fun i hi => ?_, fun i hi j hj _ => ?_⟩
    · rwa [Nat.lt_one_iff.1 hi]
    · rw [Nat.lt_one_iff.1 hi, Nat.lt_one_iff.1 hj]
  have hlen : (xs.map (Row.single (t := t))).length = xs.length := List.length_map _
  have hmk : (xs.foldlM (Column.pushBack n) (Column.new t n (draws 0) c) >>= fun col =>
      DataFrame.ofColumn ⟨t, col⟩).writes =
        some (Column.segPuts t n (colId (draws 0)) c xs (List.numChunks c xs.length),
          table.frame n c (fun i => colId (draws i)) (xs.map (Row.single (t := t))).length) := by
    rw [Column.foldlM_pushBack hc (draws 0) hs, Prog.putAll_bind, Prog.ret_bind,
      DataFrame.ofColumn_filling hs, ← Prog.putAll_append, ← Column.segPuts_numChunks,
      Prog.writes_putAll, hlen]
    rfl
  have hputs (kv : Key × Value) :
      kv ∈ Column.segPuts t n (colId (draws 0)) c xs (List.numChunks c xs.length) ↔
        kv ∈ table.segPuts n c (fun i => colId (draws i)) 0 := by
    rw [Table.segPuts, List.mapIdx_singleton, List.flatten_singleton, Nat.sub_zero]
  obtain ⟨e, he, -⟩ := exists_produces (k := k) hc (hlen ▸ hcap) (hlen ▸ hfew) hids
    (List.cons_ne_nil _ _)
    (List.forall_mem_singleton.2 hs) (Table.hasRows_single xs) hputs hmk
    ((DataFrame.pushed_numbered Function.injective_id (segNames_ofCStr draws _) (fun _ _ => rfl)
      Nat.one_pos t n c xs).imp fun _ _ h => h.1)
  rw [bind_assoc] at he
  exact ⟨e, he⟩

theorem fromArray_produces (n : Nat) (k : Key) {t : ColType} {vals : List t.Elem}
    (hid : colId (draws 0) ≠ []) (hs : ∀ x ∈ vals, t.Storable x)
    (hfew : List.numChunks defaultSegmentCapacity vals.length ≤ 1000) :
    ∃ e : Entry n, Produces k (DataFrame.fromArray n k t (draws 0) vals) draws
    defaultSegmentCapacity [t]
      (vals.map Row.single) e :=
  pushed_produces (by decide) (.inl rfl) hid hs hfew

theorem fromScalar_produces (n : Nat) (k : Key) {t : ColType} {val : t.Elem}
    (hid : colId (draws 0) ≠ []) (hs : t.Storable val) :
    ∃ e : Entry n, Produces k (DataFrame.fromScalar n k t (draws 0) val) draws 1 [t]
    [Row.single val] e := by
  obtain ⟨e, he⟩ := pushed_produces (n := n) (k := k) Nat.one_pos (.inr ⟨le_rfl, by decide⟩) hid
    (List.forall_mem_singleton.2 hs) (show List.numChunks 1 1 ≤ 1000 by decide)
  rw [List.foldlM_cons, bind_assoc] at he
  exact ⟨e, he⟩

/-- What the column holds. -/
theorem Produces.table_single {p : Prog Key Value DataFrame} {t : ColType} {xs : List t.Elem}
    {e : Entry n} (h : Produces k p draws c [t] (xs.map Row.single) e) : e.table = [⟨t, xs⟩] := by
  obtain ⟨⟨t', ys⟩, hq, rfl⟩ := List.map_eq_singleton_iff.1 h.types
  have hcol := e.hasRows.column 0 ⟨t', ys⟩ (by rw [hq, List.getElem?_cons_zero])
  rw [h.rows, List.map_map] at hcol
  have hinj : Function.Injective fun x : t'.Elem => some (Data.ofElem t' x) := by
    intro x y hxy
    cases t' <;> cases hxy <;> rfl
  rw [hq, hinj.list_map hcol]

/-! ## Files -/

theorem DataFrame.Shows.unique {m : Key → Option Value} {df : DataFrame} {rows' : List Row}
    (h : df.Shows m rows) (h' : df.Shows m rows') : rows = rows' := by
  have hlen := h.length.symm.trans h'.length
  refine List.ext_getElem? fun i => ?_
  rcases Nat.lt_or_ge i rows.length with hi | hi
  · rw [← h.row i hi, ← h'.row i (hlen ▸ hi)]
  · rw [List.getElem?_eq_none hi, List.getElem?_eq_none (hlen ▸ hi)]

/-- Columns of the same length have rows. -/
theorem Table.exists_hasRows {nrows : Nat} (hlen : ∀ q ∈ table, q.2.length = nrows) :
    ∃ rows, table.HasRows rows ∧ rows.length = nrows := by
  induction table with
  | nil =>
    exact ⟨List.replicate nrows ⟨[]⟩, ⟨fun r hr => by rw [List.eq_of_mem_replicate hr]; rfl,
      fun j q hq => by cases hq⟩, List.length_replicate⟩
  | cons q table ih =>
    rw [List.forall_mem_cons] at hlen
    obtain ⟨rows, hrows, hnrows⟩ := ih hlen.2
    have hzip : rows.length ≤ q.2.length := (hnrows.trans hlen.1.symm).le
    refine ⟨(q.2.zip rows).map fun xr => ⟨Data.ofElem q.1 xr.1 :: xr.2.values⟩, ⟨fun r hr => ?_,
      fun j q' hq' => ?_⟩, ?_⟩
    · obtain ⟨xr, hxr, rfl⟩ := List.mem_map.1 hr
      exact congrArg Nat.succ (hrows.width _ (List.of_mem_zip hxr).2)
    · rw [List.map_map]
      cases j with
      | zero =>
        cases hq'
        rw [show (fun r : Row => r.values[0]?) ∘ (fun xr : q.1.Elem × Row =>
          (⟨Data.ofElem q.1 xr.1 :: xr.2.values⟩ : Row)) =
            (fun x => some (Data.ofElem q.1 x)) ∘ Prod.fst
          from rfl, ← List.map_map, List.map_fst_zip (hlen.1.trans hnrows.symm).le]
      | succ j =>
        rw [← hrows.column j q' hq', show (fun r : Row => r.values[j + 1]?) ∘
          (fun xr : q.1.Elem × Row =>
          (⟨Data.ofElem q.1 xr.1 :: xr.2.values⟩ : Row)) = (fun r => r.values[j]?) ∘ Prod.snd
          from rfl, ← List.map_map, List.map_snd_zip hzip]
    · rw [List.length_map, List.length_zip, hlen.1, hnrows, Nat.min_self]

/-- The parser makes a data frame of the file, with the rows. -/
def Parses (n : Nat) (draws : Nat → Fin 10 → Fin 53) (toDouble : Bytes → BitVec 64) (file : Bytes)
    (rows : List Row) : Prop :=
  ∃ puts df, (DataFrame.ofSorFile n draws toDouble file).writes = some (puts, df) ∧
    df.Shows (Prog.writeAll puts fun _ => none) rows

/-- The parser makes a data frame of a rendered table, if it guesses the types of the columns. -/
theorem parses_of_renders {toDouble : Bytes → BitVec 64} {file : Bytes}
    (hfile : RendersFile rows file) (ht : ∀ r ∈ rows, r.values.map Data.type = ts) (hne : ts ≠ [])
    (hguess : (SorParser.guessed file).map Sigma.fst = ts) (hids : GoodIds draws ts.length)
    (hfew : List.numChunks defaultSegmentCapacity rows.length ≤ 1000) :
    Parses n draws toDouble file rows := by
  have hwidth : SorParser.width (SorParser.sample file) = ts.length := by
    rw [← SorParser.length_guessed, ← hguess, List.length_map]
  obtain ⟨p, hp⟩ : ∃ p, (SorParser.ofFile file).guessSchema n draws = some p :=
    SorParser.guessSchema_eq_some_iff.2 (hwidth.trans_ne (List.length_pos_of_ne_nil hne).ne')
  obtain ⟨rest, -, hcols⟩ := SorParser.columns_guessSchema hp
  have htypes : p.columns.map (List.map Sigma.fst) = some ts := by
    rw [hcols, Option.map_some, ← hguess]
    refine congrArg some (List.ext_getElem? fun i => ?_)
    rw [List.getElem?_map, List.getElem?_map, Table.getElem?_filling]
    cases (SorParser.guessed file)[i]? <;> rfl
  have hfull : ∀ r ∈ rows, r.Full := by
    intro r hr d hd
    obtain ⟨line, -, hline⟩ := List.Forall₂.exists_mem hfile hr
    obtain ⟨field, -, hfield⟩ := List.Forall₂.exists_mem hline.fields hd
    obtain ⟨-, x, hx, -⟩ := hfield.fieldValue toDouble
    rw [hx]
    rfl
  obtain ⟨puts, heq, hputs⟩ := DataFrame.ofSorFile_eq toDouble hne ht hfile hp htypes
  obtain ⟨hhas, htable⟩ := Table.hasRows_ofRows ht hfull
  have hlen : (Table.ofRows ts rows).length = ts.length := by
    simpa using congrArg List.length htable
  have hw : (DataFrame.ofSorFile n draws toDouble file).writes = some (puts,
      (Table.ofRows ts rows).frame n defaultSegmentCapacity
      (fun i => colId (draws i)) rows.length) := by
    have hchars : (Table.ofRows ts rows).map (·.1.getType) = ts.map ColType.getType := by
      rw [← congrArg (List.map ColType.getType) htable, List.map_map]
      rfl
    rw [heq, Prog.writes_putAll, Table.frame, hchars]
  obtain ⟨e, he, heputs, hetable⟩ := exists_produces (k := .empty) (by decide) (.inl rfl) hfew
    (hlen ▸ hids)
    (List.ne_nil_of_length_pos (hlen ▸ List.length_pos_of_ne_nil hne))
      (Table.ofRows_rendered hfile ht).2.2
    hhas hputs hw ((DataFrame.ofSorFile_numbered Function.injective_id (segNames_ofCStr draws _)
      (fun _ _ => rfl) (hwidth.trans hlen.symm) toDouble).imp fun _ _ h => h.1)
  have hframe : e.frame = (Table.ofRows ts rows).frame n defaultSegmentCapacity
      (fun i => colId (draws i)) rows.length := by
    rw [Entry.frame, hetable, he.cap, he.draws, he.rows]
  refine ⟨puts, _, hw, ?_⟩
  rw [← hframe, ← he.rows, ← heputs]
  exact Entry.shows_of_ready e.ready_frame

/-- `fromSorFile` of a file that the parser makes a data frame of. -/
theorem fromSorFile_produces (k : Key) {toDouble : Bytes → BitVec 64} {file : Bytes}
    (h : Parses n draws toDouble file rows)
    (hids : GoodIds draws (SorParser.width (SorParser.sample file)))
    (hfew : List.numChunks defaultSegmentCapacity rows.length ≤ 1000) :
    ∃ e : Entry n, Produces k (DataFrame.fromSorFile n k draws toDouble file) draws
      defaultSegmentCapacity ((SorParser.guessed file).map Sigma.fst) rows e := by
  obtain ⟨puts, df, hw, hshows⟩ := h
  obtain ⟨table, ⟨hne, htypes⟩, -, hs, hlen, -, rfl, hputs⟩ := DataFrame.table_ofSorFile hw
  have hwidth : table.length = SorParser.width (SorParser.sample file) := by
    rw [← SorParser.length_guessed]
    simpa using congrArg List.length htypes
  obtain ⟨rows', hrows', hnrows⟩ := Table.exists_hasRows hlen
  have hnrows' : rows'.length = rows.length := hnrows.trans hshows.length
  rw [← hnrows] at hw
  obtain ⟨e, he, heputs, hetable⟩ :=
    exists_produces (k := k) (by decide) (.inl rfl) (hnrows' ▸ hfew)
    (hwidth ▸ hids) hne hs hrows' hputs hw
    ((DataFrame.ofSorFile_numbered Function.injective_id (segNames_ofCStr draws _) (fun _ _ => rfl)
      hwidth.symm toDouble).imp fun _ _ h => h.1)
  -- the rows that the data frame shows are those of its table
  have hstore : e.store = Prog.writeAll puts fun _ => none := by rw [Entry.store, heputs]
  have hframe : e.frame = table.frame n defaultSegmentCapacity
      (fun i => colId (draws i)) rows'.length := by
    rw [Entry.frame, hetable, he.cap, he.draws, he.rows]
  have hrows : e.rows = rows :=
    (Entry.shows_of_ready e.ready_frame).unique (by rw [hstore, hframe, hnrows]; exact hshows)
  exact ⟨e, he.writes, he.draws, he.cap, he.types.trans htypes, hrows⟩

end Eau2

import Eau2.DataFrame.Names
import Eau2.DataFrame.Shows

/-!
# Data frames in the store

A data frame that has been put (`Entry`): its table, with the ids of its columns and the
capacity of their segments, the puts of the segments, and the value under its own key. Both the
data frame itself and the one that is got back show the rows of the table (`Entry.Is`), on any
store with the segments, and go on doing so while they are read (`Entry.is_frame`,
`Entry.ofValue_is`). A reader goes over the rows with `map` (`Entry.Is.map`), and with
`local_map` over the chunks of them that are dealt to the node (`Entry.Is.localMap`).
-/

namespace Eau2

namespace Column

variable {t : ColType} {n c : Nat} {id : Bytes} {xs : List t.Elem} {col : Column t}
  {m : Key → Option Value}

/-- A column that reads `xs` from the store `m`, cut into chunks of `c`, and has not read
    anything yet. -/
structure Ready (m : Key → Option Value) (n c : Nat) (t : ColType) (xs : List t.Elem)
    (col : Column t) :
    Prop where
  placed : col.Placed n
  distinct : col.DistinctNames
  reads : Reads m t xs col
  length : col.segments.length = List.numChunks c xs.length
  size : col.size = xs.length
  capacity : c = defaultSegmentCapacity → col.segmentCapacity = c

/-- The names of the segments. -/
theorem map_segKey_k (n : Nat) (id : Bytes) (k : Nat) :
    ((List.range k).map (segKey n id)).map Key.k = (List.range k).map (segName id) := by
  rw [List.map_map]
  exact List.map_congr_left fun j _ => segKey_k n id j

theorem IsStored.ready (h : IsStored m n c t xs col) (hc : c ≤ defaultSegmentCapacity) :
    Ready m n c t xs col := by
  have hreads := h.reads ((Nat.min_le_left _ _).trans (hc.trans (by decide)))
  obtain ⟨id, -, hst, rfl⟩ := h
  refine ⟨placed_filled hst.pos xs, ?_, hreads, ?_, rfl, fun _ => rfl⟩
  · rw [DistinctNames, filled, filling, map_segKey_k]
    exact hst.distinct
  · rw [filled, filling, List.length_map, List.length_range]

theorem IsRebuilt.ready (h : IsRebuilt m n c t xs col)
    (hc : c = defaultSegmentCapacity ∨ xs.length ≤ c ∧ xs.length ≤ defaultSegmentCapacity) :
    Ready m n c t xs col := by
  have hreads := h.reads hc
  obtain ⟨id, hst, rfl⟩ := h
  refine ⟨placed_rebuilt n id c xs, ?_, hreads, ?_, rfl, Eq.symm⟩
  · rw [DistinctNames, rebuilt, map_segKey_k]
    exact hst.distinct
  · rw [rebuilt, List.length_map, List.length_range]

/-- The rows of a segment are those of the chunk. -/
theorem Placed.filterMap_segIndices (h : col.Placed n) (hcut : col.Cut) {α : Type} {rows : List α}
    (hlen : rows.length = col.size) {i : Nat} (hi : i < col.segments.length) :
    (col.segIndices i).filterMap (rows[·]?) = rows.chunk col.segmentCapacity i := by
  have hrows := h.rows_eq_size_iff.2 hcut
  rcases Nat.lt_or_ge i (col.segments.length - 1) with hlt | hge
  · rw [segIndices_of_lt hlt, List.filterMap_getElem?_range', List.chunk]
  · obtain rfl : i = col.segments.length - 1 := by omega
    have hle := h.lastLength_le
    have hdrop : (rows.drop ((col.segments.length - 1) * col.segmentCapacity)).length =
        col.lastLength := by
      rw [List.length_drop, hlen, ← hrows, Nat.add_sub_cancel_left]
    rw [segIndices_last, List.filterMap_getElem?_range', List.chunk,
      List.take_of_length_le hdrop.le, List.take_of_length_le (hdrop.trans_le hle)]

/-- `local_indices` of a column that is ready. -/
theorem Ready.localIndices (h : Ready m n defaultSegmentCapacity t xs col) (hpos : 0 < xs.length)
    {α : Type} {rows : List α} (hlen : rows.length = xs.length) (node : Nat) :
    ∃ is, col.localIndices node = some is ∧ (∀ i ∈ is, i < rows.length) ∧
      is.filterMap (rows[·]?) = rows.dealt n defaultSegmentCapacity node := by
  have hcap := h.capacity rfl
  have hcut : col.Cut := ⟨h.size ▸ hpos, by rw [h.length, hcap, h.size]⟩
  have hsize : rows.length = col.size := hlen.trans h.size.symm
  refine ⟨_, h.placed.localIndices_eq node, fun i hi => ?_, ?_⟩
  · obtain ⟨j, hj, hi⟩ := List.mem_flatMap.1 hi
    split_ifs at hi with hnode
    · have hmem : i ∈ (List.range col.segments.length).flatMap col.segIndices :=
        List.mem_flatMap.2 ⟨j, hj, hi⟩
      rw [h.placed.flatMap_segIndices, h.placed.rows_eq_size_iff.2 hcut, List.mem_range] at hmem
      exact hmem.trans_eq hsize.symm
    · cases hi
  · rw [List.dealt, List.filterMap_flatMap, hlen, ← h.length]
    refine List.flatMap_congr fun j hj => ?_
    split_ifs
    · rw [h.placed.filterMap_segIndices hcut hsize (List.mem_range.1 hj), hcap]
    · rfl

end Column

namespace DataFrame

variable {m : Key → Option Value} {n c : Nat} {df : DataFrame} {table : Table} {rows : List Row}

/-- Columns that are ready show the rows of the table. -/
theorem HasTable.shows_of_ready (h : df.HasTable (Column.Ready m n c) table)
    (hrows : table.HasRows rows) (hlen : df.schema.length = rows.length) : df.Shows m rows := by
  have hready {p : ColumnPtr} (hp : p ∈ df.columns) : p.2.DistinctNames ∧
      ∀ k ∈ p.2.segments, k.k ≠ p.2.cacheKey.k := by
    obtain ⟨q, -, hpq⟩ := List.Forall₂.exists_mem h.columns hp
    cases hpq with
    | mk hcol => exact ⟨hcol.distinct, hcol.placed.unread⟩
  have hcached : df.Cached m df := ⟨rfl, List.forall₂_same.2 fun p hp => .mk (.refl (hready hp).2)⟩
  exact (h.mono fun _ _ _ => Column.Ready.reads).shows
    (fun p hp => (hready hp).1) hcached hrows hlen

/-- The rows that `local_map` goes over. -/
theorem HasTable.localIndices (h : df.HasTable (Column.Ready m n defaultSegmentCapacity) table)
    (hne : table ≠ []) (hrows : table.HasRows rows) (hpos : 0 < rows.length) (node : Nat) :
    ∃ is, df.localIndices node = some is ∧ (∀ i ∈ is, i < rows.length) ∧
      is.filterMap (rows[·]?) = rows.dealt n defaultSegmentCapacity node := by
  obtain ⟨cols, schema⟩ := df
  obtain ⟨hcols, -, -⟩ := h
  cases hcols with
  | nil => exact absurd rfl hne
  | cons hp _ =>
    cases hp with
    | mk hcol =>
      have hlen := (hrows.length _ List.mem_cons_self).symm
      exact hcol.localIndices (hlen ▸ hpos) hlen node

end DataFrame

namespace Table

/-- The data frame of a table. -/
def frame (n c : Nat) (ids : Nat → Bytes) (nrows : Nat) (table : Table) : DataFrame :=
  ⟨table.filled n c ids, ⟨table.map (·.1.getType), nrows⟩⟩

end Table

/-- A data frame that has been put in a store of `n` nodes. -/
structure Entry (n : Nat) where
  table : Table
  rows : List Row
  draws : Nat → Fin 10 → Fin 53
  /-- The capacity of the segments. -/
  cap : Nat
  /-- The puts of the segments. -/
  puts : List (Key × Value)
  value : Value
  cap_pos : 0 < cap
  cap_or : cap = defaultSegmentCapacity ∨ rows.length ≤ cap ∧ cap ≤ defaultSegmentCapacity
  /-- The numbers of the segments have three digits. -/
  few : List.numChunks cap rows.length ≤ 1000
  ne_nil : table ≠ []
  ncols_lt : table.length < 2 ^ 64
  ids_inj : ∀ i < table.length, ∀ j < table.length, colId (draws i) = colId (draws j) → i = j
  storable : table.Storable
  hasRows : table.HasRows rows
  mem_puts : ∀ kv, kv ∈ puts ↔ kv ∈ table.segPuts n cap (fun i => colId (draws i)) 0
  nodup_puts : (puts.map Prod.fst).Nodup
  serialize : (table.frame n cap (fun i => colId (draws i)) rows.length).serialize = some value

namespace Entry

variable {n : Nat} (e : Entry n)

/-- The data frame. -/
def frame : DataFrame := e.table.frame n e.cap (fun i => colId (e.draws i)) e.rows.length

/-- The store with the segments. -/
def store : Key → Option Value := Prog.writeAll e.puts fun _ => none

theorem cap_le : e.cap ≤ defaultSegmentCapacity := e.cap_or.elim le_of_eq And.right

theorem nrows_lt : e.rows.length < 2 ^ 64 := by
  have hle := (List.numChunks_le_iff e.cap_pos (by norm_num)).1 e.few
  have hcap : e.cap * 1000 ≤ defaultSegmentCapacity * 1000 := Nat.mul_le_mul_right _ e.cap_le
  exact (hle.trans hcap).trans_lt (by decide)

/-- What a put of a segment is for. -/
theorem exists_of_mem {kv : Key × Value} (h : kv ∈ e.puts) : ∃ i q j, e.table[i]? = some q ∧
    i < e.table.length ∧ j < 1000 ∧ kv = Column.segPut q.1 n (colId (e.draws i)) e.cap q.2 j ∧
      kv.1.k = segName (colId (e.draws i)) j := by
  obtain ⟨i, q, j, hq, hj, rfl⟩ := Table.mem_segPuts.1 ((e.mem_puts kv).1 h)
  rw [e.hasRows.length q (List.mem_of_getElem? hq)] at hj
  exact ⟨i, q, j, hq, (List.getElem?_eq_some_iff.1 hq).1, hj.trans_le e.few, rfl,
    Column.segKey_k n _ j⟩

/-- The segments have different names. -/
theorem eq_of_mem {kv kv' : Key × Value} (h : kv ∈ e.puts) (h' : kv' ∈ e.puts)
    (hkey : kv.1.k = kv'.1.k) :
    kv = kv' := by
  obtain ⟨i, q, j, hq, hi, hj, rfl, hk⟩ := e.exists_of_mem h
  obtain ⟨i', q', j', hq', hi', hj', rfl, hk'⟩ := e.exists_of_mem h'
  obtain ⟨hid, rfl⟩ := Column.segName_colId_inj hj hj' (hk.symm.trans (hkey.trans hk'))
  obtain rfl := e.ids_inj i hi i' hi' hid
  cases hq.symm.trans hq'
  rfl

theorem distinct (i : Nat) : Column.Distinct (colId (e.draws i))
    (List.numChunks e.cap e.rows.length) := by
  refine List.Nodup.map_on (fun j hj j' hj' hname => ?_) List.nodup_range
  rw [List.mem_range] at hj hj'
  exact (Column.segName_colId_inj (hj.trans_le e.few) (hj'.trans_le e.few) hname).2

theorem holds_store : Prog.Holds e.puts e.store :=
  Prog.holds_writeAll (fun _ h _ h' hkey => e.eq_of_mem h h' (congrArg Key.k hkey)) _

theorem mem_of_store {k : Key} {v : Value} (h : e.store k = some v) : (k, v) ∈ e.puts :=
  (Prog.mem_of_writeAll h).resolve_right (by simp)

/-- The columns of the data frame. -/
theorem hasTable_frame : e.frame.HasTable (Column.IsStored e.store n e.cap) e.table where
  columns := Table.isStored_filled e.cap_pos e.storable e.hasRows.length e.nrows_lt
    (fun i _ => e.distinct i) fun kv hkv => e.holds_store kv ((e.mem_puts kv).2 hkv)
  colTypes := rfl
  length := e.hasRows.length

/-- A data frame with the rows, in which some may have been read. -/
def Is (df : DataFrame) : Prop :=
  ∃ base : DataFrame, base.HasTable (Column.Ready e.store n e.cap) e.table ∧ base.Cached e.store df

variable {e} {df : DataFrame}

theorem shows_of_ready (h : df.HasTable (Column.Ready e.store n e.cap) e.table) :
    df.Shows e.store e.rows := by
  obtain ⟨q, table, hq⟩ := List.exists_cons_of_ne_nil e.ne_nil
  have hmem : q ∈ e.table := hq ▸ List.mem_cons_self
  exact h.shows_of_ready e.hasRows ((h.length q hmem).symm.trans (e.hasRows.length q hmem))

/-- A data frame that has not been read yet. -/
theorem is_of_ready (h : df.HasTable (Column.Ready e.store n e.cap) e.table) : e.Is df :=
  ⟨df, h, (shows_of_ready h).cached⟩

variable (e) in
theorem ready_frame : e.frame.HasTable (Column.Ready e.store n e.cap) e.table :=
  e.hasTable_frame.mono fun _ _ _ h => h.ready e.cap_le

variable (e) in
/-- The data frame shows its rows. -/
theorem is_frame : e.Is e.frame := is_of_ready e.ready_frame

variable (e) in
/-- So does the one that is got back. -/
theorem ofValue_is : ∃ df, KDStore.ofValue e.value = .ret df ∧ e.Is df := by
  have hncols : e.frame.ncols < 2 ^ 64 := (List.length_map _).trans_lt e.ncols_lt
  obtain ⟨df, hdec, hdf⟩ := DataFrame.HasTable.decodes (fun _ _ _ _ h hw => h.decodes hw)
    e.hasTable_frame hncols e.nrows_lt e.serialize
  refine ⟨df, by rw [KDStore.ofValue, hdec.run_eq]; rfl, is_of_ready ?_⟩
  refine hdf.imp fun t xs col hxs _ hcol => hcol.ready (e.cap_or.imp_right fun hle => ?_)
  have hlen : xs.length = e.rows.length := e.hasRows.length _ hxs
  exact ⟨hlen.trans_le hle.1, hlen.trans_le (hle.1.trans hle.2)⟩

namespace Is

variable {σ : Type} {v : Reader σ} {s s' : σ}

theorem nrows (h : e.Is df) : df.nrows = e.rows.length := by
  obtain ⟨base, hbase, hc⟩ := h
  rw [DataFrame.nrows, hc.schema]
  exact (shows_of_ready hbase).length

/-- `map` goes over the rows. -/
theorem map (h : e.Is df) (hfold : e.rows.foldlM v.visit s = some s') :
    ∃ df', e.Is df' ∧ (df.map v s).run e.store = some ((s', df'), e.store) := by
  obtain ⟨base, hbase, hc⟩ := h
  obtain ⟨df', hc', hrun⟩ := (shows_of_ready hbase).map_run hc hfold
  exact ⟨df', ⟨base, hbase, hc'⟩, hrun⟩

/-- `local_map` goes over those of the node. -/
theorem localMap (h : e.Is df) (hcap : e.cap = defaultSegmentCapacity) (hpos : 0 < e.rows.length)
    {node : Nat} (hfold : (e.rows.dealt n e.cap node).foldlM v.visit s = some s') :
    ∃ df', e.Is df' ∧ (df.localMap node v s).run e.store = some ((s', df'), e.store) := by
  obtain ⟨base, hbase, hc⟩ := h
  have hready := hbase
  rw [hcap] at hready
  obtain ⟨is, his, hlt, hrows⟩ := hready.localIndices e.ne_nil e.hasRows hpos node
  rw [hcap, ← hrows] at hfold
  obtain ⟨df', hc', hrun⟩ := (shows_of_ready hbase).localMap_run hc his hlt hfold
  exact ⟨df', ⟨base, hbase, hc'⟩, hrun⟩

/-- The getters return the elements. -/
theorem getAs (h : e.Is df) {t : ColType} {xs : List t.Elem} {j i : Nat}
    (hj : e.table[j]? = some ⟨t, xs⟩) (hi : i < xs.length) :
    ∃ df', e.Is df' ∧ (df.getAs t j i).run e.store = some ((xs[i], df'), e.store) := by
  obtain ⟨base, hbase, hc⟩ := h
  have hshows := shows_of_ready hbase
  have hlt : i < base.schema.length := by
    rw [hshows.length, ← e.hasRows.length _ (List.mem_of_getElem? hj)]
    exact hi
  obtain ⟨p, hp, hlift⟩ := List.Forall₂.exists_getElem? hbase.columns hj
  cases hlift with
  | @mk _ _ col _ =>
    -- what the column holds is what is read from it
    have hreads := hbase.mono fun _ _ _ => Column.Ready.reads
    obtain ⟨df₁, hrun₁, -⟩ := hreads.getAs hj hi
    obtain ⟨df₂, -, hrun₂⟩ := hshows.cached.getAs hshows.wellTyped hshows.distinct hp hlt
    rw [hrun₁] at hrun₂
    obtain ⟨x, hx, heq⟩ := Option.map_eq_some_iff.1 hrun₂.symm
    obtain rfl : x = xs[i] := (Prod.mk.inj (Prod.mk.inj heq).1).1
    obtain ⟨df₃, hc₃, hrun₃⟩ := hc.getAs hshows.wellTyped hshows.distinct hp hlt
    refine ⟨df₃, ⟨base, hbase, hc₃⟩, ?_⟩
    rw [hrun₃, hx, Option.map_some]

end Is

end Entry

end Eau2

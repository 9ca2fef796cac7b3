import Eau2.DataFrame.Effects
import Eau2.Sorer.Alignment

/-!
# Reading the rows of a node

`local_map` takes its rows from the first column, and reads them in all. The data
frames that `fromArray`, `fromVisitor` and `fromSorFile` make, and those got back from the
store (`DataFrame.Built`), have columns of the default capacity, whose segments are cut
at the same rows and go round the nodes in the same order (`Column.Striped`), whatever
the pushes to each of them have been. So the segments of a row are all on one node.

Main result: `DataFrame.localMap_local`, what `local_map` reads on a node is in segments of
that node.
-/

namespace Eau2

namespace Column

variable {t : ColType} {n i idx : Nat} {xs : List t.Elem} {col col' : Column t}

/-- The column has been finalized with the values `xs`, in segments of the default capacity
    that go round the nodes. -/
structure Striped (n : Nat) (t : ColType) (xs : List t.Elem) (col : Column t) : Prop where
  finalized : col.finalized = true
  size : col.size = xs.length
  segmentCapacity : col.segmentCapacity = defaultSegmentCapacity
  colId : col.colId.length < 2 ^ 64
  segments : col.segments =
    (List.range (List.numChunks defaultSegmentCapacity xs.length)).map (segKey n col.colId)

theorem Striped.of_same (h : Striped n t xs col) (hs : col.Same col') : Striped n t xs col' where
  finalized := hs.finalized.trans h.finalized
  size := hs.size.trans h.size
  segmentCapacity := hs.segmentCapacity.trans h.segmentCapacity
  colId := hs.colId ▸ h.colId
  segments := by rw [hs.segments, hs.colId, h.segments]

/-- What is read from its serialization is striped too. -/
theorem Striped.decodes (h : Striped n t xs col) (hlen : xs.length < 2 ^ 64) {w : Bytes}
    (hw : col.serialize = some w) : ∃ col', Decodes (deserialize t) w col' ∧
    Striped n t xs col' := by
  have hser : col.serialize = (filled t n col.colId defaultSegmentCapacity xs).serialize := by
    rw [serialize, serialize, h.finalized, h.size, h.segments]
    rfl
  rw [hser] at hw
  have hid := ne_nil_of_serialize hw
  rw [serialize_filled hid hlen, Option.some.injEq] at hw
  subst hw
  exact ⟨_, decodes_rebuilt hid hlen h.colId, ⟨rfl, rfl, rfl, h.colId, rfl⟩⟩

theorem striped_filled {id : Bytes} (hid : id.length < 2 ^ 64) :
    Striped n t xs (filled t n id defaultSegmentCapacity xs) := ⟨rfl, rfl, rfl, hid, rfl⟩

/-- The segment of a row: there is one, on the node of its number. -/
theorem Striped.exists_segment (h : Striped n t xs col)
    (hidx : idx / defaultSegmentCapacity < List.numChunks defaultSegmentCapacity xs.length) :
    ∃ k, col.segments[idx / col.segmentCapacity]? = some k ∧
      k.node = idx / defaultSegmentCapacity % n := by
  rw [h.segments, h.segmentCapacity, List.getElem?_map, List.getElem?_range hidx, Option.map_some]
  exact ⟨_, rfl, rfl⟩

/-- The segments are of the default capacity and go round the nodes. -/
structure Dealt (n : Nat) (col : Column t) : Prop where
  segmentCapacity : col.segmentCapacity = defaultSegmentCapacity
  node : ∀ j k, col.segments[j]? = some k → k.node = j % n

theorem Dealt.of_same (h : col.Dealt n) (hs : col.Same col') : col'.Dealt n :=
  ⟨hs.segmentCapacity.trans h.segmentCapacity, hs.segments ▸ h.node⟩

theorem Striped.dealt (h : Striped n t xs col) : col.Dealt n := by
  refine ⟨h.segmentCapacity, fun j k hk => ?_⟩
  rw [h.segments, List.getElem?_map] at hk
  obtain ⟨j', hj, rfl⟩ := Option.map_eq_some_iff.1 hk
  obtain ⟨_, rfl⟩ := List.getElem?_eq_some_iff.1 hj
  rw [segKey_node, List.getElem_range]

/-- The rows that are listed for a node are those of its segments. -/
theorem Striped.of_mem_localIndices (h : Striped n t xs col) {indices : List Nat}
    (hindices : col.localIndices i = some indices) (hidx : idx ∈ indices) :
    idx / defaultSegmentCapacity < List.numChunks defaultSegmentCapacity xs.length ∧
      idx / defaultSegmentCapacity % n = i := by
  have hcap : 0 < defaultSegmentCapacity := by decide
  rw [localIndices, if_pos h.finalized] at hindices
  cases hindices
  obtain ⟨j, hj, hmem⟩ := List.mem_flatMap.1 hidx
  rw [h.segments, List.length_map, List.length_range, List.mem_range] at hj
  rw [h.segments, List.getElem?_map, List.getElem?_range hj, Option.map_some, Option.map_some,
    segKey_node] at hmem
  split_ifs at hmem with hnode
  · rw [segIndices, h.segmentCapacity, List.mem_range'_1] at hmem
    have hdiv : idx / defaultSegmentCapacity = j := by
      have hmod := Nat.mod_lt col.size hcap
      rw [Nat.div_eq_iff hcap]
      split_ifs at hmem <;> constructor <;> omega
    rw [hdiv]
    exact ⟨hj, Option.some.inj hnode⟩
  · cases hmem

end Column

namespace DataFrame

variable {σ : Type} {n i idx j : Nat} {df df' : DataFrame} {table : Table} {ps : List (Key × Value)}

/-! ## What is read -/

section

variable {P : ColumnRel} (hdealt : ∀ {t xs col}, P t xs col → Column.Dealt n col)
  (hsame : ∀ {t xs} {col col' : Column t}, P t xs col → col.Same col' → P t xs col')
include hdealt hsame

/-- A cell is read from the segment of its row, on the node of its number. -/
theorem HasTable.getCell_fetches_of (h : df.HasTable P table)
    (hi : idx / defaultSegmentCapacity % n = i) :
    (df.getCell j idx).Fetches {k | k.node = i} fun r => r.2.HasTable P table := by
  have hget (t : ColType) : (df.getAs t j idx).Fetches {k | k.node = i} fun r =>
      r.2.HasTable P table := by
    refine (Prog.fetches_assert _).bind fun _ _ => (Prog.fetches_assert _).bind fun _ _ => ?_
    refine (Prog.fetches_ofOption fun c hc => hc).bind fun c hc => ?_
    obtain ⟨p, hp, htype⟩ := Option.bind_eq_some_iff.1 hc
    obtain rfl := ColumnPtr.eq_of_asType htype
    obtain ⟨⟨t', xs⟩, hq, hlift⟩ := List.Forall₂.exists_getElem? h.columns.flip hp
    cases hlift with
    | mk hcol =>
      have hcap := (hdealt hcol).segmentCapacity
      refine (Column.get_fetches fun k hk => ((hdealt hcol).node _ k hk).trans (hcap ▸ hi)).bind
        fun r hr => ?_
      exact ⟨h.columns.set_left hq (.mk (hsame hcol hr.1)), h.colTypes, h.length⟩
  refine (Prog.fetches_ofOption fun _ _ => trivial).bind fun t _ => ?_
  cases t
  · exact (hget .string).bind fun _ hr => hr
  · exact (hget .int).bind fun _ hr => hr
  · exact (hget .double).bind fun _ hr => hr
  · exact (hget .bool).bind fun _ hr => hr

theorem HasTable.fillRow_fetches (h : df.HasTable P table)
    (hi : idx / defaultSegmentCapacity % n = i) (row : Row) :
    (df.fillRow idx row).Fetches {k | k.node = i} fun r => r.2.HasTable P table := by
  refine (Prog.fetches_assert _).bind fun _ _ => (Prog.fetches_assert _).bind fun _ _ =>
    (Prog.fetches_assert _).bind fun _ _ => Prog.Fetches.foldlM h fun j _ rd hrd => ?_
  exact (hrd.getCell_fetches_of hdealt hsame hi).bind fun r hr =>
    (Prog.fetches_ofOption fun _ _ => trivial).bind fun _ _ => hr

theorem HasTable.visitRows_fetches_of (h : df.HasTable P table) (v : Reader σ)
    {indices : List Nat} (hi : ∀ idx ∈ indices, idx / defaultSegmentCapacity % n = i) (s : σ)
    (row : Row) : (visitRows v indices s row df).Fetches {k | k.node = i} fun _ => True := by
  induction indices generalizing s row df with
  | nil => trivial
  | cons idx indices ih =>
    rw [List.forall_mem_cons] at hi
    exact (h.fillRow_fetches hdealt hsame hi.1 row).bind fun rd hrd =>
      (Prog.fetches_ofOption fun _ _ => trivial).bind fun s _ => ih hrd hi.2 s rd.1

end

theorem HasTable.getCell_fetches (h : df.HasTable (Column.Striped n) table)
    (hi : idx / defaultSegmentCapacity % n = i) :
    (df.getCell j idx).Fetches {k | k.node = i} fun r => r.2.HasTable (Column.Striped n) table :=
  h.getCell_fetches_of Column.Striped.dealt Column.Striped.of_same hi

theorem HasTable.visitRows_fetches (h : df.HasTable (Column.Striped n) table) (v : Reader σ)
    {indices : List Nat} (hi : ∀ idx ∈ indices, idx / defaultSegmentCapacity % n = i) (s : σ)
    (row : Row) : (visitRows v indices s row df).Fetches {k | k.node = i} fun _ => True :=
  h.visitRows_fetches_of Column.Striped.dealt Column.Striped.of_same v hi s row

/-- The rows that are listed for a node, by the first column. -/
theorem HasTable.of_mem_localIndices (h : df.HasTable (Column.Striped n) table) {indices : List Nat}
    (hindices : df.localIndices i = some indices) (hidx : idx ∈ indices) :
    idx / defaultSegmentCapacity < List.numChunks defaultSegmentCapacity df.nrows ∧
      idx / defaultSegmentCapacity % n = i := by
  obtain ⟨p, hp, hcol⟩ := Option.bind_eq_some_iff.1 hindices
  obtain ⟨q, hq, hlift⟩ := List.Forall₂.exists_mem h.columns (List.mem_of_head? hp)
  cases hlift with
  | mk hstriped =>
    have hmem := hstriped.of_mem_localIndices hcol hidx
    rwa [h.length _ hq] at hmem

/-! ## The data frames that are built -/

/-- Values have been pushed to the columns, of the default capacity. -/
def Filling (n : Nat) (cols : List ColumnPtr) : Prop :=
  ∀ p ∈ cols, ∃ id xs, id.length < 2 ^ 64 ∧
    p.2 = Column.filling p.1 n id defaultSegmentCapacity xs

/-- One more row. -/
theorem Filling.addToColumns {cols cols' : List ColumnPtr} (h : Filling n cols) {r : Row}
    (hw : (r.addToColumns n cols).writes = some (ps, cols')) : Filling n cols' := by
  obtain ⟨_, _, _, -, hrest, -⟩ := Prog.writes_bind_eq_some.1 hw
  obtain ⟨_, _, _, -, hpush, -⟩ := Prog.writes_bind_eq_some.1 hrest
  intro p' hp'
  obtain ⟨⟨p, d⟩, hpd, _, hval⟩ := Prog.exists_of_writes_mapM hpush hp'
  obtain ⟨id, xs, hid, hp⟩ := h p (List.of_mem_zip hpd).1
  obtain ⟨_, x, _, -, hrest, -⟩ := Prog.writes_bind_eq_some.1 hval
  obtain ⟨_, col, _, hcol, hret, -⟩ := Prog.writes_bind_eq_some.1 hrest
  cases hret
  rw [hp] at hcol
  exact ⟨id, xs ++ [x], hid, Column.eq_of_writes_pushBack (by decide) hcol⟩

theorem Filling.visitAll {cols cols' : List ColumnPtr} (h : Filling n cols)
    {w : Writer σ} {fuel : Nat}
    {s : σ} {r : Row} (hw : (visitAll n w fuel s r cols).writes = some (ps, cols')) :
    Filling n cols' := by
  induction fuel generalizing s r cols ps with
  | zero => cases hw
  | succ fuel ih =>
    rw [DataFrame.visitAll] at hw
    by_cases hdone : w.done s = true
    · rw [if_pos hdone] at hw
      cases hw
      exact h
    · rw [if_neg hdone] at hw
      obtain ⟨_, _, _, -, hrest, -⟩ := Prog.writes_bind_eq_some.1 hw
      obtain ⟨_, _, _, hadd, hloop, -⟩ := Prog.writes_bind_eq_some.1 hrest
      exact ih (h.addToColumns hadd) hloop

/-- A column finalized and added to a data frame. -/
theorem HasTable.addFilling {p : ColumnPtr} {id : Bytes} {xs : List p.1.Elem}
    (h : df.HasTable (Column.Striped n) table) (hid : id.length < 2 ^ 64)
    (hp : p.2 = Column.filling p.1 n id defaultSegmentCapacity xs)
    (hw : (df.addColumn p).writes = some (ps, df')) :
    df'.HasTable (Column.Striped n) (table ++ [⟨p.1, xs⟩]) := by
  obtain ⟨_, _, _, hassert, hrest, -⟩ := Prog.writes_bind_eq_some.1 hw
  obtain ⟨hsize, -⟩ := Prog.writes_assert.1 hassert
  obtain ⟨_, col', _, hfin, hret, -⟩ := Prog.writes_bind_eq_some.1 hrest
  cases hret
  have hcol' : Column.Striped n p.1 xs col' := by
    rw [hp, Column.finalize, if_neg (show ¬(Column.filling p.1 n id defaultSegmentCapacity
      xs).finalized = true from Bool.false_ne_true)] at hfin
    obtain ⟨_, _, _, -, hret, -⟩ := Prog.writes_bind_eq_some.1 hfin
    cases hret
    exact Column.striped_filled hid
  refine ⟨List.rel_append h.columns (.cons (.mk hcol') .nil), ?_, ?_⟩
  · rw [Schema.addColumn, h.colTypes, List.map_append]
    rfl
  · rw [List.forall_mem_append, List.forall_mem_singleton]
    rw [hp] at hsize
    exact ⟨h.length, hsize⟩

theorem HasTable.foldlM_addFilling {cols : List ColumnPtr} (hcols : Filling n cols)
    (h : df.HasTable (Column.Striped n) table)
    (hw : (cols.foldlM DataFrame.addColumn df).writes = some (ps, df')) :
    ∃ table, df'.HasTable (Column.Striped n) table := by
  induction cols generalizing df table ps with
  | nil =>
    cases hw
    exact ⟨table, h⟩
  | cons p cols ih =>
    rw [Filling, List.forall_mem_cons] at hcols
    obtain ⟨⟨id, xs, hid, hp⟩, hcols⟩ := hcols
    rw [List.foldlM_cons] at hw
    obtain ⟨_, df₁, _, hadd, hrest, -⟩ := Prog.writes_bind_eq_some.1 hw
    exact ih hcols (h.addFilling hid hp hadd) hrest

theorem Filling.ofColumns {cols : List ColumnPtr} (h : Filling n cols)
    (hw : (DataFrame.ofColumns cols).writes = some (ps, df)) :
    ∃ table, df.HasTable (Column.Striped n) table := by
  obtain ⟨_, _, _, -, hrest, -⟩ := Prog.writes_bind_eq_some.1 hw
  obtain ⟨_, _, _, -, hfold, -⟩ := Prog.writes_bind_eq_some.1 hrest
  exact HasTable.foldlM_addFilling h (HasTable.nil _ rfl) hfold

/-- The data frames of a store of `n` nodes: made by `fromArray`, `fromVisitor` and
    `fromSorFile`, got back from the serialization of another, and these after some of
    their cells have been read. Their numbers of rows and columns are `size_t`. -/
inductive Built (n : Nat) : DataFrame → Prop
  | fromArray {k t draws vals puts df}
      (h : (DataFrame.fromArray n k t draws vals).writes = some (puts, df)) : Built n df
  | fromVisitor {k σ types draws} {w : Writer σ} {s fuel puts df}
      (h : (DataFrame.fromVisitor n k types draws w s fuel).writes = some (puts, df)) : Built n df
  | fromSorFile {k draws toDouble file puts df}
      (h : (DataFrame.fromSorFile n k draws toDouble file).writes = some (puts, df)) : Built n df
  | get {df df' v} (h : Built n df) (hncols : df.ncols < 2 ^ 64) (hnrows : df.nrows < 2 ^ 64)
      (hv : df.serialize = some v) (hget : KDStore.ofValue v = .ret df') : Built n df'
  | read {df df' m m' j idx d} (h : Built n df)
      (hrun : (df.getCell j idx).run m = some ((d, df'), m')) : Built n df'

/-- The rest of a call that makes a data frame puts it in the store. -/
theorem exists_of_writes_put {mk : Prog Key Value DataFrame} {k : Key} (hw : (do
      let df ← mk
      KDStore.put k df
      return df).writes = some (ps, df)) : ∃ qs, mk.writes = some (qs, df) := by
  obtain ⟨qs, df₁, _, hmk, hrest, -⟩ := Prog.writes_bind_eq_some.1 hw
  obtain ⟨_, _, _, -, hret, -⟩ := Prog.writes_bind_eq_some.1 hrest
  cases hret
  exact ⟨qs, hmk⟩

/-- What the data frames that are built are. -/
theorem Built.hasTable (h : Built n df) : ∃ table, df.HasTable (Column.Striped n) table := by
  induction h with
  | @fromArray k t draws vals puts df h =>
    obtain ⟨_, col, _, hcol, hrest, -⟩ := Prog.writes_bind_eq_some.1 h
    obtain ⟨_, hmk⟩ := exists_of_writes_put hrest
    have hfilling := Column.eq_of_writes_foldlM (by decide) draws hcol
    exact ⟨_, HasTable.addFilling (p := ⟨t, col⟩) (HasTable.nil _ rfl)
      (Column.length_colId_lt draws)
      hfilling hmk⟩
  | @fromVisitor k σ types draws w s fuel puts df h =>
    obtain ⟨_, ts, _, -, hrest, -⟩ := Prog.writes_bind_eq_some.1 h
    obtain ⟨_, cols, _, hloop, hrest, -⟩ := Prog.writes_bind_eq_some.1 hrest
    obtain ⟨_, hmk⟩ := exists_of_writes_put hrest
    refine Filling.ofColumns (Filling.visitAll (fun p hp => ?_) hloop) hmk
    obtain ⟨i, hi, rfl⟩ := List.mem_mapIdx.1 hp
    exact ⟨_, [], Column.length_colId_lt (draws i), Column.new_eq n (draws i) _⟩
  | fromSorFile h =>
    obtain ⟨_, hmk⟩ := exists_of_writes_put h
    obtain ⟨table, -, -, hlen, -, rfl, -⟩ := rowsOf_ofSorFile hmk
    refine ⟨table, ⟨?_, rfl, hlen⟩⟩
    exact List.Forall₂.mapIdx_left fun i q _ =>
      .mk (Column.striped_filled (Column.length_colId_lt _))
  | @get df df' v _ hncols hnrows hv hget ih =>
    obtain ⟨table, htable⟩ := ih
    -- a column can be read back only if its size fits a `size_t`
    have htable' : df.HasTable (fun t xs col => xs.length < 2 ^ 64 ∧ Column.Striped n t xs col)
        table :=
      htable.imp fun t xs col hxs _ hcol => ⟨(htable.length _ hxs).trans_lt hnrows, hcol⟩
    obtain ⟨df₂, hdec, hdf₂⟩ := HasTable.decodes
      (fun t xs col w hcol hw => hcol.2.decodes hcol.1 hw)
      htable' hncols hnrows hv
    rw [KDStore.ofValue, hdec.run_eq] at hget
    cases hget
    exact ⟨table, hdf₂⟩
  | read _ hrun ih =>
    obtain ⟨table, htable⟩ := ih
    exact ⟨table, (htable.getCell_fetches rfl).of_run hrun⟩

/-- What `local_map` reads on the node `i` is in segments of that node: those of the cells of
    the rows that it visits, in all columns, and no other key is got from the store. -/
theorem localMap_local (h : Built n df) (i : Nat) (v : Reader σ) (s : σ) :
    (∀ indices, df.localIndices i = some indices → ∀ idx ∈ indices, ∀ p ∈ df.columns,
      ∃ k, p.2.segments[idx / p.2.segmentCapacity]? = some k ∧ k.node = i) ∧
    (df.localMap i v s).Gets {k | k.node = i} := by
  obtain ⟨table, htable⟩ := h.hasTable
  refine ⟨fun indices hindices idx hidx p hp => ?_, ?_⟩
  · obtain ⟨hlt, hi⟩ := htable.of_mem_localIndices hindices hidx
    obtain ⟨q, hq, hlift⟩ := List.Forall₂.exists_mem htable.columns hp
    cases hlift with
    | mk hcol =>
      rw [← hi]
      exact hcol.exists_segment (by rwa [htable.length _ hq])
  · refine (Prog.gets_ofOption _).bind fun row => ?_
    cases hindices : df.localIndices i with
    | none => trivial
    | some indices =>
      exact (htable.visitRows_fetches v (fun idx hidx =>
        (htable.of_mem_localIndices hindices hidx).2) s row).gets

/-- A writer of rows of a string and an integer. -/
def namedIntWriter : Writer (List (Str × BitVec 32)) where
  done s := s.isEmpty
  visit s _ := match s with
    | [] => none
    | (name, i) :: s => some ([(0, .string (some name)), (1, .int i)], s)

/-- The sum of the second column. -/
def sumReader : Reader (BitVec 32) where
  visit s row := (s + ·) <$> row.getInt 1

/-- The rows of a data frame of two columns, in a store of two nodes, which the first node
    adds up. -/
theorem localMap_local_namedInts : ∃ puts df,
    (DataFrame.fromVisitor 2 ⟨lit "df", 1⟩ (lit "SI") (fun i _ => Fin.ofNat 53 i) namedIntWriter
      [(⟨lit "a", by decide⟩, 5), (⟨lit "b", by decide⟩, 6)] 3).writes = some (puts, df) ∧
    df.localIndices 0 = some [0, 1] ∧
    ((df.localMap 0 sumReader 0).run fun k => puts.lookup k).map (·.1.1) = some 11 ∧
    (∀ idx ∈ [0, 1], ∀ p ∈ df.columns,
      ∃ k, p.2.segments[idx / p.2.segmentCapacity]? = some k ∧ k.node = 0) ∧
    (df.localMap 0 sumReader 0).Gets {k | k.node = 0} := by
  have hw : (DataFrame.fromVisitor 2 ⟨lit "df", 1⟩ (lit "SI")
      (fun i _ => Fin.ofNat 53 i) namedIntWriter
      [(⟨lit "a", by decide⟩, 5), (⟨lit "b", by decide⟩, 6)] 3).writes = some (_, _) := rfl
  have hlocal := localMap_local (.fromVisitor hw) 0 sumReader 0
  exact ⟨_, _, hw, rfl, rfl, hlocal.1 _ rfl, hlocal.2⟩

end DataFrame

end Eau2

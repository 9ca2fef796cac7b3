import Eau2.DataFrame.RoundTrip
import Eau2.DataFrame.LocalMap

/-!
# Finalized columns and data frames

The columns that the program makes: filled by `push_back` and finalized, or
rebuilt from the serialization of such a column (`Column.Finalized`); and the
data frames made of them (`DataFrame.Made`), each column with a capacity of its
own.

The segments of such a column are on the nodes in turn. Their number is that of
the chunks of its values, for the capacity of the column or, if it was rebuilt,
for that of the column it was rebuilt from (`Column.Finalized.eq`).
-/

namespace Eau2

namespace Column

variable {t : ColType} {n : Nat} {xs : List t.Elem} {col : Column t}

/-- The column has been filled with `xs` and finalized in a store of `n` nodes, or
    rebuilt from the serialization of such a column. -/
inductive Finalized (n : Nat) {t : ColType} (xs : List t.Elem) : Column t → Prop
  | fill {draws : Fin 10 → Fin 53} {c : Nat} {puts : List (Key × Value)}
      {col : Column t} (hc : 0 < c)
      (h : (Column.fill t n draws c xs).writes = some (puts, col)) : Finalized n xs col
  | rebuild {col col' : Column t} {w : Bytes} (h : Finalized n xs col) (hw : col.serialize = some w)
      (hd : (Column.deserialize t).run w = some (col', [])) : Finalized n xs col'

theorem serialize_rebuilt (t : ColType) (n : Nat) (id : Bytes) (c : Nat) (xs : List t.Elem) :
    (rebuilt t n id c xs).serialize = (filled t n id c xs).serialize := rfl

theorem Finalized.eq (h : Finalized n xs col) (hlen : xs.length < 2 ^ 64) :
    ∃ id c, 0 < c ∧ id.length < 2 ^ 64 ∧
    (col = filled t n id c xs ∨ col = rebuilt t n id c xs) := by
  induction h with
  | @fill draws c puts col hc h =>
    exact ⟨_, c, hc, length_colId_lt draws, Or.inl ((writes_fill hc draws).1 h).2.2⟩
  | @rebuild col col' w h hw hd ih =>
    obtain ⟨id, c, hc, hid64, heq⟩ := ih
    have hser : (filled t n id c xs).serialize = some w := by
      rcases heq with rfl | rfl
      · exact hw
      · rwa [serialize_rebuilt] at hw
    have hid := ne_nil_of_serialize hser
    rw [serialize_filled hid hlen, Option.some.injEq] at hser
    rw [← hser, (decodes_rebuilt hid hlen hid64).run_eq, Option.some.injEq, Prod.mk.injEq] at hd
    exact ⟨id, c, hc, hid64, Or.inr hd.1.symm⟩

/-- What is read from the serialization is a column too. -/
theorem Finalized.decodes (h : Finalized n xs col) (hlen : xs.length < 2 ^ 64) {w : Bytes}
    (hw : col.serialize = some w) : ∃ col', Decodes (deserialize t) w col' ∧
    Finalized n xs col' := by
  obtain ⟨id, c, -, hid64, heq⟩ := h.eq hlen
  have hser : (filled t n id c xs).serialize = some w := by
    rcases heq with rfl | rfl
    · exact hw
    · rwa [serialize_rebuilt] at hw
  have hid := ne_nil_of_serialize hser
  rw [serialize_filled hid hlen, Option.some.injEq] at hser
  subst hser
  have hdec := decodes_rebuilt (t := t) (n := n) (c := c) hid hlen hid64
  exact ⟨_, hdec, h.rebuild hw hdec.run_eq⟩

/-- Its segments are on the nodes in turn, and it has not been read yet. -/
structure Placed (n : Nat) (col : Column t) : Prop where
  finalized : col.finalized = true
  capacity_pos : 0 < col.segmentCapacity
  pos : 0 < col.segments.length
  node : ∀ i k, col.segments[i]? = some k → k.node = i % n
  unread : ∀ k ∈ col.segments, k.k ≠ col.cacheKey.k

/-- A finalized column with the keys of segments, and none of them in its cache. -/
theorem placed_of_segments {id : Bytes} {k : Nat}
    (hseg : col.segments = (List.range k).map (segKey n id))
    (hk : 0 < k) (hfin : col.finalized = true) (hcap : 0 < col.segmentCapacity)
    (hkey : col.cacheKey.k = []) : col.Placed n := by
  refine ⟨hfin, hcap, ?_, fun i k hk => ?_, fun k hk => ?_⟩
  · rwa [hseg, List.length_map, List.length_range]
  · rw [hseg, List.getElem?_map] at hk
    obtain ⟨j, hj, rfl⟩ := Option.map_eq_some_iff.1 hk
    obtain ⟨hlt, rfl⟩ := List.getElem?_eq_some_iff.1 hj
    rw [segKey_node, List.getElem_range]
  · rw [hseg] at hk
    obtain ⟨j, -, rfl⟩ := List.mem_map.1 hk
    rw [hkey, segKey_k]
    exact segName_ne_nil id j

theorem placed_filled {id : Bytes} {c : Nat} (hc : 0 < c) (xs : List t.Elem) :
    (filled t n id c xs).Placed n :=
  placed_of_segments rfl (List.numChunks_pos _ _) rfl hc rfl

theorem placed_rebuilt (n : Nat) (id : Bytes) (c : Nat) (xs : List t.Elem) :
    (rebuilt t n id c xs).Placed n :=
  placed_of_segments rfl (List.numChunks_pos _ _) rfl (by decide : 0 < defaultSegmentCapacity) rfl

theorem Finalized.placed (h : Finalized n xs col) (hlen : xs.length < 2 ^ 64) : col.Placed n := by
  obtain ⟨id, c, hc, -, rfl | rfl⟩ := h.eq hlen
  · exact placed_filled hc xs
  · exact placed_rebuilt n id c xs

theorem Finalized.size (h : Finalized n xs col) (hlen : xs.length < 2 ^ 64) :
    col.size = xs.length := by
  obtain ⟨id, c, -, -, rfl | rfl⟩ := h.eq hlen <;> rfl

/-- The values `xs` have been pushed on the column. -/
def Pushed (n : Nat) (t : ColType) (xs : List t.Elem) (col : Column t) : Prop :=
  ∃ draws c puts, 0 < c ∧ xs.length < 2 ^ 64 ∧
    (xs.foldlM (pushBack n) (new t n draws c)).writes = some (puts, col)

theorem Pushed.finalize (h : Pushed n t xs col) {puts : List (Key × Value)} {col' : Column t}
    (hw : col.finalize.writes = some (puts, col')) : Finalized n xs col' := by
  obtain ⟨draws, c, puts', hc, -, hpush⟩ := h
  exact .fill hc (Prog.writes_bind_eq_some.2 ⟨puts', col, puts, hpush, hw, rfl⟩)

end Column

namespace DataFrame

variable {n : Nat} {df df' : DataFrame} {table table' : Table} {ps qs : List (Key × Value)}

/-- The data frames of a store of `n` nodes: made of columns, of any capacities,
    to which values have been pushed, or of the serialization of another. -/
inductive Made (n : Nat) : DataFrame → Prop
  | ofColumns {cols : List ColumnPtr} {puts : List (Key × Value)} {df : DataFrame}
      (hcols : ∀ p ∈ cols, ∃ xs, Column.Pushed n p.1 xs p.2)
      (h : (DataFrame.ofColumns cols).writes = some (puts, df)) : Made n df
  | ofColumn {p : ColumnPtr} {puts : List (Key × Value)} {df : DataFrame}
      (hp : ∃ xs, Column.Pushed n p.1 xs p.2)
      (h : (DataFrame.ofColumn p).writes = some (puts, df)) : Made n df
  | addColumn {df df' : DataFrame} {p : ColumnPtr} {puts : List (Key × Value)} (h : Made n df)
      (hp : ∃ xs, Column.Pushed n p.1 xs p.2) (hw : (df.addColumn p).writes = some (puts, df')) :
        Made n df'
  | rebuild {df df' : DataFrame} {v : Value} (h : Made n df) (hncols : df.ncols < 2 ^ 64)
      (hv : df.serialize = some v) (hd : deserialize.run v = some (df', [])) : Made n df'

/-- The columns of a data frame are finalized. -/
def IsFinalized (n : Nat) : ColumnRel :=
  fun _ xs col => xs.length < 2 ^ 64 ∧ Column.Finalized n xs col

theorem HasTable.addPushed (h : df.HasTable (IsFinalized n) table) {p : ColumnPtr}
    (hp : ∃ xs, Column.Pushed n p.1 xs p.2) (hw : (df.addColumn p).writes = some (ps, df')) :
    ∃ q, df'.HasTable (IsFinalized n) (table ++ [q]) := by
  obtain ⟨xs, hxs⟩ := hp
  obtain ⟨_, _, _, hassert, hrest, -⟩ := Prog.writes_bind_eq_some.1 hw
  obtain ⟨_, col', _, hfin, hret, -⟩ := Prog.writes_bind_eq_some.1 hrest
  obtain ⟨hsize, -⟩ := Prog.writes_assert.1 hassert
  cases hret
  have hcol := hxs.finalize hfin
  obtain ⟨_, _, _, _, hlen, hpush⟩ := hxs
  have hxsize : p.2.size = xs.length := by
    have := Column.eq_of_writes_foldlM ‹_› _ hpush
    rw [this]
    rfl
  refine ⟨⟨p.1, xs⟩, List.rel_append h.columns (.cons (.mk ⟨hlen, hcol⟩) .nil), ?_, ?_⟩
  · rw [Schema.addColumn, h.colTypes, List.map_append]
    rfl
  · rw [List.forall_mem_append, List.forall_mem_singleton]
    exact ⟨h.length, hxsize.symm.trans hsize⟩

theorem HasTable.foldlM_addPushed {cols : List ColumnPtr}
    (hcols : ∀ p ∈ cols, ∃ xs, Column.Pushed n p.1 xs p.2) (h : df.HasTable (IsFinalized n) table)
    (hw : (cols.foldlM DataFrame.addColumn df).writes = some (ps, df')) :
    ∃ table', df'.HasTable (IsFinalized n) (table ++ table') ∧ table'.length = cols.length := by
  induction cols generalizing df table ps with
  | nil =>
    cases hw
    exact ⟨[], by rwa [List.append_nil], rfl⟩
  | cons p cols ih =>
    rw [List.forall_mem_cons] at hcols
    rw [List.foldlM_cons] at hw
    obtain ⟨_, df₁, _, hadd, hrest, -⟩ := Prog.writes_bind_eq_some.1 hw
    obtain ⟨q, h₁⟩ := h.addPushed hcols.1 hadd
    obtain ⟨table', h₂, hlen⟩ := ih hcols.2 h₁ hrest
    refine ⟨q :: table', ?_, by rw [List.length_cons, List.length_cons, hlen]⟩
    rwa [List.append_assoc] at h₂

/-- What the data frames of the program are: finalized columns of the same size. -/
theorem Made.hasTable (h : Made n df) :
    ∃ table, table ≠ [] ∧ df.HasTable (IsFinalized n) table := by
  induction h with
  | @ofColumns cols puts df hcols h =>
    obtain ⟨_, length, _, hhead, hrest, -⟩ := Prog.writes_bind_eq_some.1 h
    obtain ⟨hhead, -⟩ := Prog.writes_ofOption.1 hhead
    obtain ⟨_, _, _, -, hfold, -⟩ := Prog.writes_bind_eq_some.1 hrest
    obtain ⟨table, htable, hlen⟩ := HasTable.foldlM_addPushed hcols (HasTable.nil _ rfl) hfold
    refine ⟨table, ?_, htable⟩
    rintro rfl
    rw [List.length_nil, eq_comm, List.length_eq_zero_iff] at hlen
    rw [hlen] at hhead
    cases hhead
  | @ofColumn p puts df hp h =>
    obtain ⟨q, hq⟩ := HasTable.addPushed (HasTable.nil _ rfl) hp h
    exact ⟨_, List.cons_ne_nil _ _, hq⟩
  | @addColumn df df' p puts _ hp hw ih =>
    obtain ⟨table, -, htable⟩ := ih
    obtain ⟨q, hq⟩ := htable.addPushed hp hw
    exact ⟨_, List.append_ne_nil_of_right_ne_nil _ (List.cons_ne_nil _ _), hq⟩
  | @rebuild df df' v _ hncols hv hd ih =>
    -- the columns read back have the values that the ones put have
    obtain ⟨table, hne, htable⟩ := ih
    obtain ⟨q, table', rfl⟩ := List.exists_cons_of_ne_nil hne
    have hnrows : df.nrows < 2 ^ 64 := by
      obtain ⟨p, hp, hlift⟩ := List.Forall₂.exists_getElem? htable.columns
        (show (q :: table')[0]? = some q from rfl)
      have hlen := htable.length q List.mem_cons_self
      cases hlift with
      | mk hx => exact hlen.symm.trans_lt hx.1
    have hcol : ∀ t xs col w, IsFinalized n t xs col → col.serialize = some w →
        ∃ col', Decodes (Column.deserialize t) w col' ∧ IsFinalized n t xs col' :=
      fun _ _ _ _ hx hw => (hx.2.decodes hx.1 hw).imp fun _ h => ⟨h.1, hx.1, h.2⟩
    obtain ⟨df₂, hdec, hdf₂⟩ := HasTable.decodes hcol htable hncols hnrows hv
    rw [hdec.run_eq, Option.some.injEq, Prod.mk.injEq] at hd
    rw [← hd.1]
    exact ⟨_, hne, hdf₂⟩

theorem map_getType_eq {R : ColumnRel} {cols : List ColumnPtr}
    (h : List.Forall₂ R.Lift cols table) :
    cols.map (·.1.getType) = table.map (·.1.getType) := by
  induction h with
  | nil => rfl
  | cons hpq _ ih =>
    cases hpq with
    | mk h => rw [List.map_cons, List.map_cons, ih]

theorem HasTable.wellTyped {R : ColumnRel} (h : df.HasTable R table) : df.WellTyped := by
  rw [WellTyped, h.colTypes, map_getType_eq h.columns]

theorem Made.wellTyped (h : Made n df) : df.WellTyped := by
  obtain ⟨table, -, htable⟩ := h.hasTable
  exact htable.wellTyped

/-- The columns of a data frame have as many values as it has rows. -/
theorem Made.column (h : Made n df) {p : ColumnPtr} (hp : p ∈ df.columns) :
    ∃ xs, xs.length < 2 ^ 64 ∧ Column.Finalized n xs p.2 ∧ p.2.size = df.nrows := by
  obtain ⟨table, -, htable⟩ := h.hasTable
  obtain ⟨q, hq, hlift⟩ := List.Forall₂.exists_mem htable.columns hp
  cases hlift with
  | @mk t xs col hx => exact ⟨xs, hx.1, hx.2, (hx.2.size hx.1).trans (htable.length _ hq)⟩

/-- A data frame has a column. -/
theorem Made.exists_head (h : Made n df) : ∃ p, df.columns.head? = some p ∧ p ∈ df.columns := by
  obtain ⟨table, hne, htable⟩ := h.hasTable
  obtain ⟨p, cols, hcols⟩ := List.exists_cons_of_ne_nil (l := df.columns) fun hnil => hne <| by
    have := htable.columns.length_eq
    rwa [hnil, List.length_nil, eq_comm, List.length_eq_zero_iff] at this
  exact ⟨p, by rw [hcols]; rfl, by rw [hcols]; exact List.mem_cons_self⟩

end DataFrame

end Eau2

import Mathlib.Data.List.Forall2
import Eau2.DataFrame.Frame
import Eau2.DataFrame.Rebuild

/-!
# Tables

What a data frame is for: a table, with a list of values for every column. The
columns of a data frame under construction hold a table (`Holding`) whose rows
grow (`Holding.addToColumns`), and the data frame made of them has the table, its
segments all put in the store (`DataFrame.HasTable`).

These are statements about programs that write and return (`Prog.writes`): a
program that fails an assertion makes no data frame.
-/

namespace List.Forall₂

variable {α β : Type} {R : α → β → Prop} {as : List α} {bs : List β} {i : Nat} {a : α} {b : β}

theorem exists_getElem? (h : List.Forall₂ R as bs) (hb : bs[i]? = some b) :
    ∃ a, as[i]? = some a ∧ R a b := by
  induction h generalizing i with
  | nil => cases hb
  | @cons a b' as bs hab _ ih =>
    cases i with
    | zero =>
      cases hb
      exact ⟨a, rfl, hab⟩
    | succ i => exact ih hb

theorem exists_mem (h : List.Forall₂ R as bs) (ha : a ∈ as) : ∃ b ∈ bs, R a b := by
  induction h with
  | nil => cases ha
  | @cons a' b as bs hab _ ih =>
    rcases List.mem_cons.1 ha with rfl | hmem
    · exact ⟨b, List.mem_cons_self, hab⟩
    · obtain ⟨b', hb', hR⟩ := ih hmem
      exact ⟨b', List.mem_cons_of_mem _ hb', hR⟩

theorem set_left (h : List.Forall₂ R as bs) (hb : bs[i]? = some b) (hab : R a b) :
    List.Forall₂ R (as.set i a) bs := by
  induction h generalizing i with
  | nil => cases hb
  | @cons a' b' as bs hab' htail ih =>
    cases i with
    | zero =>
      cases hb
      exact .cons hab htail
    | succ i => exact .cons hab' (ih hb)

theorem imp_mem {R' : α → β → Prop} (h : List.Forall₂ R as bs)
    (himp : ∀ a ∈ as, ∀ b ∈ bs, R a b → R' a b) : List.Forall₂ R' as bs := by
  induction h with
  | nil => exact .nil
  | @cons a b as bs hab _ ih =>
    refine .cons (himp a List.mem_cons_self b List.mem_cons_self hab) (ih fun a' ha b' hb => ?_)
    exact himp a' (List.mem_cons_of_mem _ ha) b' (List.mem_cons_of_mem _ hb)

theorem trans_left {γ : Type} {S : α → γ → Prop} {T : γ → β → Prop} {cs : List γ}
    (h : List.Forall₂ R as bs) (h' : List.Forall₂ S as cs) (himp : ∀ a b c, R a b → S a c → T c b) :
    List.Forall₂ T cs bs := by
  induction h generalizing cs with
  | nil =>
    cases h'
    exact .nil
  | cons hab _ ih =>
    cases h' with
    | cons hac h' => exact .cons (himp _ _ _ hab hac) (ih h')

theorem mapIdx_left {f : Nat → β → α} (h : ∀ i b, bs[i]? = some b → R (f i b) b) :
    List.Forall₂ R (bs.mapIdx f) bs := by
  induction bs generalizing f with
  | nil => exact .nil
  | cons b bs ih =>
    rw [List.mapIdx_cons]
    exact .cons (h 0 b rfl) (ih fun i b hb => h (i + 1) b hb)

end List.Forall₂

namespace Eau2

/-- A table: the values of its columns, with their types. -/
abbrev Table := List (Σ t : ColType, List t.Elem)

namespace Table

/-- A value at the end of a column. -/
def pushCell (q : Σ t : ColType, List t.Elem) (d : Data) : Σ t : ColType, List t.Elem :=
  ⟨q.1, q.2 ++ (d.value q.1).toList⟩

/-- One more row. -/
def addRow (table : Table) (r : Row) : Table :=
  (table.zip r.values).map fun qd => pushCell qd.1 qd.2

/-- The table of the given rows. -/
def ofRows (ts : List ColType) (rows : List Row) : Table :=
  rows.foldl addRow (ts.map fun t => ⟨t, []⟩)

/-- The value of a column and a row. -/
def cell (table : Table) (col row : Nat) : Option Data :=
  table[col]?.bind fun q => q.2[row]?.map fun x =>
    match q, x with
    | ⟨.string, _⟩, s => .string (some s)
    | ⟨.int, _⟩, i => .int i
    | ⟨.double, _⟩, d => .double d
    | ⟨.bool, _⟩, b => .bool b

/-- All the values can be serialized: no string is empty. -/
def Storable (table : Table) : Prop := ∀ q ∈ table, ∀ x ∈ q.2, q.1.Storable x

end Table

/-- The value can be serialized. -/
def Data.Storable (d : Data) : Prop := ∀ t x, d.value t = some x → t.Storable x

/-- The values of the row can be serialized. -/
def Row.Storable (r : Row) : Prop := ∀ d ∈ r.values, d.Storable

theorem Table.Storable.addRow {table : Table} {r : Row} (hs : table.Storable) (hr : r.Storable) :
    (table.addRow r).Storable := by
  intro q hq x hx
  obtain ⟨⟨q', d⟩, hqd, rfl⟩ := List.mem_map.1 hq
  rcases List.mem_append.1 hx with hmem | hmem
  · exact hs q' (List.of_mem_zip hqd).1 x hmem
  · exact hr d (List.of_mem_zip hqd).2 _ x (Option.mem_toList.1 hmem)

namespace Column

/-- The column has been filled with `xs`, and the pairs `ps` put in the store
    include its full segments. -/
def IsFilling (n c : Nat) (ps : List (Key × Value)) (t : ColType) (xs : List t.Elem)
    (col : Column t) :
    Prop :=
  ∃ id, id.length < 2 ^ 64 ∧ col = filling t n id c xs ∧
    segPuts t n id c xs (List.numChunks c xs.length - 1) ⊆ ps

/-- The column has been filled with `xs` and finalized, and the pairs `ps` include
    its segments. -/
def IsFilled (n c : Nat) (ps : List (Key × Value)) (t : ColType) (xs : List t.Elem)
    (col : Column t) :
    Prop :=
  ∃ id, id.length < 2 ^ 64 ∧ col = filled t n id c xs ∧
    segPuts t n id c xs (List.numChunks c xs.length) ⊆ ps

variable {t : ColType} {n c : Nat} {ps qs : List (Key × Value)} {xs : List t.Elem} {col : Column t}

theorem isFilling_new (t : ColType) (n c : Nat) (draws : Fin 10 → Fin 53) :
    IsFilling n c [] t [] (new t n draws c) := by
  refine ⟨_, length_colId_lt draws, new_eq n draws c, ?_⟩
  simp [segPuts, List.numChunks]

theorem IsFilling.mono (h : IsFilling n c ps t xs col) (hsub : ps ⊆ qs) :
    IsFilling n c qs t xs col := by
  obtain ⟨id, hid, hcol, hputs⟩ := h
  exact ⟨id, hid, hcol, List.Subset.trans hputs hsub⟩

theorem IsFilled.mono (h : IsFilled n c ps t xs col) (hsub : ps ⊆ qs) :
    IsFilled n c qs t xs col := by
  obtain ⟨id, hid, hcol, hputs⟩ := h
  exact ⟨id, hid, hcol, List.Subset.trans hputs hsub⟩

theorem IsFilling.size (h : IsFilling n c ps t xs col) : col.size = xs.length := by
  obtain ⟨id, -, rfl, -⟩ := h
  rfl

/-- `push_back` of a column being filled. -/
theorem IsFilling.pushBack (h : IsFilling n c ps t xs col) (hc : 0 < c)
    (hs : ∀ x ∈ xs, t.Storable x)
    (x : t.Elem) : ∃ qs col', col.pushBack n x = Prog.putAll qs (.ret col') ∧
      IsFilling n c (ps ++ qs) t (xs ++ [x]) col' := by
  obtain ⟨id, hid, rfl, hputs⟩ := h
  obtain ⟨qs, hpush, heq⟩ := pushBack_filling n id hc hs x
  refine ⟨qs, _, hpush, id, hid, rfl, ?_⟩
  rw [heq]
  exact List.append_subset.2 ⟨List.subset_append_of_subset_left _ hputs,
    List.subset_append_right _ _⟩

/-- `finalize` of a column being filled. -/
theorem IsFilling.finalize (h : IsFilling n c ps t xs col) (hs : ∀ x ∈ xs, t.Storable x) :
    ∃ qs col', col.finalize = Prog.putAll qs (.ret col') ∧ IsFilled n c (ps ++ qs) t xs col' := by
  obtain ⟨id, hid, rfl, hputs⟩ := h
  refine ⟨_, _, finalize_filling hs, id, hid, rfl, ?_⟩
  rw [segPuts_numChunks]
  exact List.append_subset.2 ⟨List.subset_append_of_subset_left _ hputs,
    List.subset_append_right _ _⟩

end Column

/-- A property of columns and their values. -/
abbrev ColumnRel := (t : ColType) → List t.Elem → Column t → Prop

/-- The column has the type of the values, and the property `R` with them. -/
inductive ColumnRel.Lift (R : ColumnRel) : ColumnPtr → (Σ t : ColType, List t.Elem) → Prop
  | mk {t : ColType} {xs : List t.Elem} {col : Column t} (h : R t xs col) : Lift R ⟨t, col⟩ ⟨t, xs⟩

namespace ColumnRel.Lift

variable {R R' : ColumnRel} {n c : Nat} {ps qs : List (Key × Value)} {p p' : ColumnPtr}
  {q : Σ t : ColType, List t.Elem}

theorem imp (himp : ∀ t xs col, R t xs col → R' t xs col) (h : Lift R p q) : Lift R' p q := by
  cases h with
  | mk h => exact mk (himp _ _ _ h)

/-- A value pushed on a column being filled. -/
theorem pushBack (h : Lift (Column.IsFilling n c ps) p q) (hc : 0 < c)
    (hs : ∀ x ∈ q.2, q.1.Storable x) {d : Data} (hw : (p.pushBack n d).writes = some (qs, p')) :
    Lift (Column.IsFilling n c (ps ++ qs)) p' (Table.pushCell q d) := by
  cases h with
  | @mk t xs col h =>
    obtain ⟨_, x, _, hval, hcol, rfl⟩ := Prog.writes_bind_eq_some.1 hw
    obtain ⟨hx, rfl⟩ := Prog.writes_ofOption.1 hval
    obtain ⟨qs, col', hpush, h'⟩ := h.pushBack hc hs x
    obtain ⟨_, col'', _, hcol', hret, rfl⟩ := Prog.writes_bind_eq_some.1 hcol
    have heq := hpush ▸ hcol'
    rw [Prog.writes_putAll] at heq
    cases heq
    cases hret
    rw [Table.pushCell, hx, List.nil_append, List.append_nil]
    exact mk h'

end ColumnRel.Lift

/-- The columns hold the table, and the pairs `ps` put in the store include their
    full segments. -/
def Holding (n c : Nat) (ps : List (Key × Value)) : List ColumnPtr → Table → Prop :=
  List.Forall₂ (ColumnRel.Lift (Column.IsFilling n c ps))

namespace Holding

variable {n c : Nat} {ps qs : List (Key × Value)} {cols cols' : List ColumnPtr} {table : Table}

theorem mono (h : Holding n c ps cols table) (hsub : ps ⊆ qs) : Holding n c qs cols table :=
  List.Forall₂.imp (fun _ _ => .imp fun _ _ _ h => h.mono hsub) h

theorem mapM_pushBack (h : Holding n c ps cols table) (hc : 0 < c) (hs : table.Storable)
    {ds : List Data} (hlen : cols.length = ds.length)
    (hw : ((cols.zip ds).mapM fun pd : ColumnPtr × Data => pd.1.pushBack n pd.2).writes =
      some (qs, cols')) :
    Holding n c (ps ++ qs) cols' ((table.zip ds).map fun qd => Table.pushCell qd.1 qd.2) := by
  induction h generalizing ds qs cols' with
  | nil =>
    cases hw
    exact .nil
  | @cons p q cols table hp hcols ih =>
    obtain ⟨d, ds, rfl⟩ := List.exists_cons_of_length_eq_add_one hlen.symm
    rw [Table.Storable, List.forall_mem_cons] at hs
    rw [List.zip_cons_cons, List.mapM_cons] at hw
    obtain ⟨qs₁, p', _, hp', hrest, rfl⟩ := Prog.writes_bind_eq_some.1 hw
    obtain ⟨qs₂, cols₂, _, hcols₂, hret, rfl⟩ := Prog.writes_bind_eq_some.1 hrest
    cases hret
    have h₁ := hp.pushBack hc hs.1 hp'
    have h₂ := ih hs.2 (Nat.succ.inj hlen) hcols₂
    -- a column has its segments among the puts of all
    have hsub₁ : ps ++ qs₁ ⊆ ps ++ (qs₁ ++ qs₂) := by
      rw [← List.append_assoc]
      exact List.subset_append_left _ _
    have hsub₂ : ps ++ qs₂ ⊆ ps ++ (qs₁ ++ qs₂) :=
      List.append_subset.2 ⟨List.subset_append_left _ _,
        List.subset_append_of_subset_right _ (List.subset_append_right _ _)⟩
    rw [List.append_nil]
    exact .cons (h₁.imp fun _ _ _ h => h.mono hsub₁) (mono h₂ hsub₂)

/-- A row added to the columns. -/
theorem addToColumns (h : Holding n c ps cols table) (hc : 0 < c) (hs : table.Storable) {r : Row}
    (hw : (r.addToColumns n cols).writes = some (qs, cols')) :
    Holding n c (ps ++ qs) cols' (table.addRow r) := by
  obtain ⟨_, _, _, hassert, hrest, rfl⟩ := Prog.writes_bind_eq_some.1 hw
  obtain ⟨hwidth, rfl⟩ := Prog.writes_assert.1 hassert
  obtain ⟨_, _, _, hassert', hpush, rfl⟩ := Prog.writes_bind_eq_some.1 hrest
  obtain ⟨-, rfl⟩ := Prog.writes_assert.1 hassert'
  exact h.mapM_pushBack hc hs hwidth.symm hpush

end Holding

section VisitAll

variable {n c : Nat} {σ : Type} {w : Writer σ} {fuel : Nat} {s : σ} {r : Row}
  {ps qs : List (Key × Value)}
  {cols cols' : List ColumnPtr} {table : Table} {rows : List Row}

/-- A loop that ends has visited the rows of the writer. -/
theorem exists_rows_of_visitAll (hw : (DataFrame.visitAll n w fuel s r cols).writes =
    some (qs, cols')) :
    ∃ rows, w.rows fuel s r = some rows := by
  induction fuel generalizing s r qs cols with
  | zero => cases hw
  | succ fuel ih =>
    rw [DataFrame.visitAll] at hw
    rw [Writer.rows]
    by_cases hdone : w.done s = true
    · exact ⟨[], if_pos hdone⟩
    · rw [if_neg hdone] at hw
      obtain ⟨_, ⟨r', s'⟩, _, hof, hrest, rfl⟩ := Prog.writes_bind_eq_some.1 hw
      obtain ⟨hvisit, rfl⟩ := Prog.writes_ofOption.1 hof
      obtain ⟨_, _, _, -, hloop, rfl⟩ := Prog.writes_bind_eq_some.1 hrest
      obtain ⟨rows, hrows⟩ := ih hloop
      refine ⟨r' :: rows, ?_⟩
      rw [if_neg hdone, hvisit, Option.bind_eq_bind, Option.bind_some]
      exact Option.bind_eq_some_iff.2 ⟨rows, hrows, rfl⟩

/-- The rows of a writer added to the columns. -/
theorem Holding.visitAll (h : Holding n c ps cols table) (hc : 0 < c) (hs : table.Storable)
    (hrows : w.rows fuel s r = some rows) (hrs : ∀ row ∈ rows, row.Storable)
    (hw : (DataFrame.visitAll n w fuel s r cols).writes = some (qs, cols')) :
    Holding n c (ps ++ qs) cols' (rows.foldl Table.addRow table) := by
  induction fuel generalizing s r ps qs cols table rows with
  | zero => cases hw
  | succ fuel ih =>
    rw [DataFrame.visitAll] at hw
    rw [Writer.rows] at hrows
    by_cases hdone : w.done s = true
    · rw [if_pos hdone] at hw hrows
      cases hw
      cases hrows
      exact h.mono (List.subset_append_left _ _)
    · rw [if_neg hdone] at hw hrows
      obtain ⟨_, ⟨r', s'⟩, _, hof, hrest, rfl⟩ := Prog.writes_bind_eq_some.1 hw
      obtain ⟨hvisit, rfl⟩ := Prog.writes_ofOption.1 hof
      obtain ⟨qs₁, cols₁, qs₂, hadd, hloop, rfl⟩ := Prog.writes_bind_eq_some.1 hrest
      rw [hvisit, Option.bind_eq_bind, Option.bind_some] at hrows
      obtain ⟨rest, hrest, heq⟩ := Option.bind_eq_some_iff.1 hrows
      cases heq
      rw [List.forall_mem_cons] at hrs
      have h₁ := h.addToColumns hc hs hadd
      have h₂ := ih h₁ (hs.addRow hrs.1) hrest hrs.2 hloop
      rwa [List.append_assoc] at h₂

end VisitAll

/-- The data frame made of one column, filled with `xs`. -/
theorem DataFrame.ofColumn_filling {t : ColType} {n c : Nat} {id : Bytes} {xs : List t.Elem}
    (hs : ∀ x ∈ xs, t.Storable x) :
    DataFrame.ofColumn ⟨t, Column.filling t n id c xs⟩ =
      Prog.putAll [Column.segPut t n id c xs (List.numChunks c xs.length - 1)]
        (.ret ⟨[⟨t, Column.filled t n id c xs⟩], ⟨[t.getType], xs.length⟩⟩) := by
  rw [ofColumn, addColumn, Column.finalize_filling hs, Prog.assert_true]
  · simp [Schema.addColumn, Schema.addRows, Schema.empty, Column.filling]
  · exact (Nat.zero_add _).symm

/-- The data frame has the columns of the table, in the sense of `R`, and a schema
    that says so. -/
structure DataFrame.HasTable (R : ColumnRel) (df : DataFrame) (table : Table) : Prop where
  columns : List.Forall₂ R.Lift df.columns table
  colTypes : df.schema.colTypes = table.map (·.1.getType)
  length : ∀ q ∈ table, q.2.length = df.schema.numRows

namespace DataFrame.HasTable

variable {R R' : ColumnRel} {n c : Nat} {ps qs : List (Key × Value)} {df df' : DataFrame}
  {table table' : Table}

theorem mono (himp : ∀ t xs col, R t xs col → R' t xs col) (h : df.HasTable R table) :
    df.HasTable R' table :=
  ⟨h.columns.imp fun _ _ => .imp himp, h.colTypes, h.length⟩

theorem imp (himp : ∀ t xs col, ⟨t, xs⟩ ∈ table → ⟨t, col⟩ ∈ df.columns → R t xs col → R' t xs col)
    (h : df.HasTable R table) : df.HasTable R' table := by
  refine ⟨h.columns.imp_mem fun p hp q hq hpq => ?_, h.colTypes, h.length⟩
  cases hpq with
  | mk hpq => exact .mk (himp _ _ _ hq hp hpq)

/-- A data frame without columns. -/
theorem nil (schema : Schema) (hempty : schema.colTypes = []) :
    (DataFrame.mk [] schema).HasTable R [] :=
  ⟨.nil, hempty, List.forall_mem_nil _⟩

/-- A column finalized and added to a data frame. -/
theorem addColumn (h : df.HasTable (Column.IsFilled n c ps) table) {p : ColumnPtr}
    {q : Σ t : ColType, List t.Elem} (hp : ColumnRel.Lift (Column.IsFilling n c ps) p q)
    (hs : ∀ x ∈ q.2, q.1.Storable x) (hw : (df.addColumn p).writes = some (qs, df')) :
    df'.HasTable (Column.IsFilled n c (ps ++ qs)) (table ++ [q]) := by
  cases hp with
  | @mk t xs col hcol =>
    obtain ⟨_, _, _, hassert, hrest, rfl⟩ := Prog.writes_bind_eq_some.1 hw
    obtain ⟨hsize, rfl⟩ := Prog.writes_assert.1 hassert
    obtain ⟨_, _, _, hfin, hret, rfl⟩ := Prog.writes_bind_eq_some.1 hrest
    obtain ⟨qs, col', heq, hcol'⟩ := hcol.finalize hs
    rw [heq, Prog.writes_putAll] at hfin
    cases hfin
    cases hret
    rw [List.nil_append, List.append_nil]
    refine ⟨List.rel_append ?_ (.cons (.mk hcol') .nil), ?_, ?_⟩
    · exact h.columns.imp fun _ _ => .imp fun _ _ _ hx => hx.mono (List.subset_append_left _ _)
    · rw [Schema.addColumn, h.colTypes, List.map_append]
      rfl
    · rw [List.forall_mem_append, List.forall_mem_singleton]
      exact ⟨h.length, hcol.size ▸ hsize⟩

/-- Columns finalized and added to a data frame, one after the other. -/
theorem foldlM_addColumn {ps' : List (Key × Value)} {cols : List ColumnPtr}
    (h : df.HasTable (Column.IsFilled n c ps') table) (hsub : ps ⊆ ps')
    (hcols : Holding n c ps cols table')
    (hs : table'.Storable) (hw : (cols.foldlM DataFrame.addColumn df).writes = some (qs, df')) :
    df'.HasTable (Column.IsFilled n c (ps' ++ qs)) (table ++ table') := by
  induction hcols generalizing df table ps' qs with
  | nil =>
    cases hw
    simpa using h
  | @cons p q cols table' hp hcols ih =>
    rw [Table.Storable, List.forall_mem_cons] at hs
    rw [List.foldlM_cons] at hw
    obtain ⟨qs₁, df₁, qs₂, hadd, hrest, rfl⟩ := Prog.writes_bind_eq_some.1 hw
    have h₁ := h.addColumn (hp.imp fun _ _ _ hx => hx.mono hsub) hs.1 hadd
    have h₂ := ih h₁ (List.subset_append_of_subset_left _ hsub) hs.2 hrest
    rwa [List.append_assoc, List.append_assoc] at h₂

/-- The data frame made of columns that hold a table. -/
theorem ofColumns {cols : List ColumnPtr} (hcols : Holding n c ps cols table) (hs : table.Storable)
    (hw : (DataFrame.ofColumns cols).writes = some (qs, df)) :
    df.HasTable (Column.IsFilled n c (ps ++ qs)) table := by
  obtain ⟨_, length, _, hof, hrest, rfl⟩ := Prog.writes_bind_eq_some.1 hw
  obtain ⟨-, rfl⟩ := Prog.writes_ofOption.1 hof
  obtain ⟨_, _, _, hassert, hfold, rfl⟩ := Prog.writes_bind_eq_some.1 hrest
  obtain ⟨-, rfl⟩ := Prog.writes_assert.1 hassert
  exact foldlM_addColumn (nil _ rfl) (List.Subset.refl ps) hcols hs hfold

/-- The data frame made of a column. -/
theorem ofColumn {p : ColumnPtr} {q : Σ t : ColType, List t.Elem}
    (hp : ColumnRel.Lift (Column.IsFilling n c ps) p q) (hs : ∀ x ∈ q.2, q.1.Storable x)
    (hw : (DataFrame.ofColumn p).writes = some (qs, df)) :
    df.HasTable (Column.IsFilled n c (ps ++ qs)) [q] :=
  addColumn (nil _ rfl) hp hs hw

end DataFrame.HasTable

end Eau2

import Eau2.Lib.Duty
import Eau2.DataFrame.LocalMap
import Eau2.DataFrame.Publish

/-!
# What data frames do to the store

Making a data frame with `fromVisitor` only puts: segments, whose names have a `_`
(`segmentKeys`), and at last the data frame itself. Going over a data frame with `map`
only gets.
-/

namespace Eau2

/-- The keys whose names have a `_`, as those of segments do. -/
def segmentKeys : Set Key := {k | 95 ∈ k.k}

theorem mem_segmentKeys {id : Bytes} (hid : id.length ≤ 10) (j node : Nat) :
    Key.ofCStr (segName id j) node ∈ segmentKeys := by
  have hlen : (cString id).length ≤ 10 := (List.takeWhile_sublist _).length_le.trans hid
  have hget : (segName id j)[(cString id).length]? = some 95 := by
    rw [segName, List.getElem?_take_of_lt (by omega), List.append_assoc,
      List.getElem?_append_right le_rfl, Nat.sub_self]
    rfl
  have hname : (Key.ofCStr (segName id j) node).k = segName id j := Column.segKey_k node id j
  show 95 ∈ (Key.ofCStr (segName id j) node).k
  rw [hname]
  exact List.mem_of_getElem? hget

namespace Column

variable {t : ColType} {col : Column t}

/-- The segments of the column have names of segments, and will have. -/
structure Named (col : Column t) : Prop where
  colId : col.colId.length ≤ 10
  segments : ∀ k ∈ col.segments, k ∈ segmentKeys

theorem Named.expand (h : col.Named) (numNodes : Nat) : (col.expand numNodes).Named where
  colId := h.colId
  segments k hk := by
    rcases List.mem_append.1 hk with hk | hk
    · exact h.segments k hk
    · rw [List.mem_singleton.1 hk]
      exact mem_segmentKeys h.colId _ _

theorem named_new (t : ColType) (numNodes : Nat) (draws : Fin 10 → Fin 53) (segmentCapacity : Nat) :
    (new t numNodes draws segmentCapacity).Named where
  colId := length_colId_le draws
  segments k hk := by
    rw [List.mem_singleton.1 hk]
    exact mem_segmentKeys (length_colId_le draws) _ _

theorem Named.putInStore (h : col.Named) : col.putInStore.Puts segmentKeys fun _ => True :=
  (Prog.puts_ofOption fun _ _ => trivial).bind fun _ _ =>
    (Prog.puts_ofOption fun _ hk => h.segments _ (List.mem_of_getLast? hk)).bind fun _ hk =>
      ⟨hk, trivial⟩

theorem Named.pushBack (h : col.Named) (numNodes : Nat) (val : t.Elem) :
    (col.pushBack numNodes val).Puts segmentKeys Named := by
  have hroom : (col.makeRoom numNodes).Puts segmentKeys Named := by
    rw [makeRoom]
    split_ifs
    · exact h.putInStore.bind fun _ _ => h.expand numNodes
    · exact h
  refine (Prog.puts_assert _).bind fun _ _ => hroom.bind fun col' h' => ?_
  exact (Prog.puts_ofOption (Q := fun _ => True) fun _ _ => trivial).bind fun _ _ =>
    ⟨h'.colId, h'.segments⟩

theorem Named.finalize (h : col.Named) : col.finalize.Puts segmentKeys fun _ => True := by
  rw [Column.finalize]
  split_ifs
  · trivial
  · exact h.putInStore.bind fun _ _ => trivial

end Column

/-- A column whose segments have names of segments. -/
def ColumnPtr.Named (p : ColumnPtr) : Prop := p.2.Named

theorem ColumnPtr.Named.pushBack {p : ColumnPtr} (h : p.Named) (numNodes : Nat) (d : Data) :
    (p.pushBack numNodes d).Puts segmentKeys Named :=
  (Prog.puts_ofOption (Q := fun _ => True) fun _ _ => trivial).bind fun val _ =>
    (Column.Named.pushBack h numNodes val).bind fun _ h' => h'

theorem Row.addToColumns_puts {cols : List ColumnPtr} (h : ∀ p ∈ cols, p.Named) (numNodes : Nat)
    (r : Row) : (r.addToColumns numNodes cols).Puts segmentKeys fun cols => ∀ p ∈ cols, p.Named :=
  (Prog.puts_assert _).bind fun _ _ => (Prog.puts_assert _).bind fun _ _ =>
    .mapM fun pd hpd => (h pd.1 (List.of_mem_zip hpd).1).pushBack numNodes pd.2

namespace DataFrame

theorem visitAll_puts {σ : Type} (numNodes : Nat) (w : Writer σ) (fuel : Nat) (s : σ) (r : Row)
    {cols : List ColumnPtr} (h : ∀ p ∈ cols, p.Named) :
    (visitAll numNodes w fuel s r cols).Puts segmentKeys fun cols => ∀ p ∈ cols, p.Named := by
  induction fuel generalizing s r cols with
  | zero => trivial
  | succ fuel ih =>
    rw [visitAll]
    split_ifs
    · exact h
    · exact (Prog.puts_ofOption (Q := fun _ => True) fun _ _ => trivial).bind fun rs _ =>
        (Row.addToColumns_puts h numNodes rs.1).bind fun cols' h' => ih rs.2 rs.1 h'

theorem ofColumns_puts {cols : List ColumnPtr} (h : ∀ p ∈ cols, p.Named) :
    (ofColumns cols).Puts segmentKeys fun _ => True := by
  refine (Prog.puts_ofOption (Q := fun _ => True) fun _ _ => trivial).bind fun _ _ =>
    (Prog.puts_assert _).bind fun _ _ => .foldlM trivial fun p hp df _ => ?_
  exact (Prog.puts_assert _).bind fun _ _ =>
    (Column.Named.finalize (h p hp)).bind fun _ _ => trivial

section FromVisitor

variable {σ : Type} (numNodes : Nat) (k : Key) (types : Bytes) (draws : Nat → Fin 10 → Fin 53)
  (w : Writer σ) (s : σ) (fuel : Nat)

/-- `fromVisitor` up to the put of the data frame. -/
def made : Prog Key Value DataFrame := do
  let ts ← Prog.ofOption ((Schema.ofTypes types).colTypes.mapM ColType.ofChar?)
  let cols := ts.mapIdx fun i t => ⟨t, Column.new t numNodes (draws i) defaultSegmentCapacity⟩
  let cols ← visitAll numNodes w fuel s (Row.ofTypes ts) cols
  ofColumns cols

theorem fromVisitor_eq : fromVisitor numNodes k types draws w s fuel =
    made numNodes types draws w s fuel >>= fun df => KDStore.put k df >>= fun _ => pure df := by
  simp only [fromVisitor, made, bind_assoc]

theorem made_puts : (made numNodes types draws w s fuel).Puts segmentKeys fun _ => True := by
  refine (Prog.puts_ofOption (Q := fun _ => True) fun _ _ => trivial).bind fun ts _ => ?_
  refine (visitAll_puts numNodes w fuel s _ fun p hp => ?_).bind fun cols h => ofColumns_puts h
  obtain ⟨i, hi, rfl⟩ := List.mem_mapIdx.1 hp
  exact Column.named_new _ _ _ _

/-- What `fromVisitor` puts. -/
theorem fromVisitor_puts : (fromVisitor numNodes k types draws w s fuel).Puts
    (insert k segmentKeys) fun _ => True := by
  rw [fromVisitor_eq]
  refine ((made_puts ..).mono (Set.subset_insert k _)).bind fun df _ => ?_
  have hput : (KDStore.put k df).Puts (insert k segmentKeys) fun _ => True :=
    (Prog.puts_ofOption (Q := fun _ => True) fun _ _ => trivial).bind fun _ _ =>
      ⟨Set.mem_insert k _, trivial⟩
  exact hput.bind fun _ _ => trivial

/-- `fromVisitor` puts the data frame, unless it fails. -/
theorem fromVisitor_owes (rank : Key → Nat) :
    (fromVisitor numNodes k types draws w s fuel).Owes rank k := by
  rw [fromVisitor_eq]
  refine Prog.Owes.after (fun k' hk => absurd hk ((made_puts ..).not_mayWait k')) fun df => ?_
  refine Prog.Owes.bind ?_ _
  rw [KDStore.put]
  cases df.serialize with
  | none => trivial
  | some v => exact .inl rfl

end FromVisitor

end DataFrame

/-! ## Reading -/

namespace Column

variable {t : ColType} {col : Column t} {idx : Nat}

/-- The column `col'` is `col`, with any cache. -/
structure Same (col col' : Column t) : Prop where
  segments : col'.segments = col.segments
  finalized : col'.finalized = col.finalized
  size : col'.size = col.size
  colId : col'.colId = col.colId
  segmentCapacity : col'.segmentCapacity = col.segmentCapacity

/-- `get` reads the segment of the row, unless its key is that of the cache, and changes the
    cache only, which has the key of the segment then. -/
theorem get_fetches {S : Set Key}
    (h : ∀ k, col.segments[idx / col.segmentCapacity]? = some k → k ∈ S) :
    (col.get idx).Fetches S fun r => col.Same r.2 ∧
      ∃ k, col.segments[idx / col.segmentCapacity]? = some k ∧ k.equals r.2.cacheKey = true := by
  refine (Prog.fetches_assert _).bind fun _ _ => (Prog.fetches_assert _).bind fun _ _ => ?_
  refine (Prog.fetches_ofOption fun k hk => hk).bind fun k hk => ?_
  have hfetch : (col.fetch k).Fetches S fun col' => col.Same col' ∧
      k.equals col'.cacheKey = true := by
    rw [fetch]
    split_ifs with hcache
    · exact ⟨⟨rfl, rfl, rfl, rfl, rfl⟩, hcache⟩
    · refine ⟨h k hk, fun v => (Prog.fetches_ofOption fun _ _ => trivial).bind fun _ _ => ?_⟩
      exact ⟨⟨rfl, rfl, rfl, rfl, rfl⟩, Key.equals_iff.2 rfl⟩
  refine hfetch.bind fun col' hcol' => (Prog.fetches_ofOption fun _ _ => trivial).bind fun _ _ => ?_
  exact ⟨hcol'.1, k, hk, hcol'.2⟩

end Column

namespace DataFrame

section Reading

variable {σ : Type} (v : Reader σ)

theorem visitRows_gets (indices : List Nat) (s : σ) (row : Row) (df : DataFrame) :
    (visitRows v indices s row df).Gets Set.univ := by
  have hcell (idx : Nat) (rd : Row × DataFrame) (j : Nat) : (fillCell idx rd j).Gets Set.univ :=
    ((rd.2.getCell_gets j idx).mono (Set.subset_univ _)).bind fun _ =>
      (Prog.gets_ofOption _).bind fun _ => trivial
  have hrow (df : DataFrame) (idx : Nat) (row : Row) : (df.fillRow idx row).Gets Set.univ :=
    (Prog.gets_assert _).bind fun _ => (Prog.gets_assert _).bind fun _ =>
      (Prog.gets_assert _).bind fun _ => .foldlM fun j _ rd => hcell idx rd j
  induction indices generalizing s row df with
  | nil => trivial
  | cons idx indices ih =>
    exact (hrow df idx row).bind fun rd => (Prog.gets_ofOption _).bind fun s => ih s rd.1 rd.2

/-- `map` only gets. -/
theorem map_gets (s : σ) (df : DataFrame) : (df.map v s).Gets Set.univ :=
  (Prog.gets_ofOption _).bind fun row => visitRows_gets v _ s row df

/-- `local_map` only gets. -/
theorem localMap_gets (i : Nat) (s : σ) (df : DataFrame) : (df.localMap i v s).Gets Set.univ :=
  (Prog.gets_ofOption _).bind fun row => (Prog.gets_ofOption _).bind fun indices =>
    visitRows_gets v indices s row df

end Reading

end DataFrame

end Eau2

import Mathlib.Algebra.BigOperators.Group.List.Basic
import Mathlib.Data.List.Pairwise
import Eau2.DataFrame.Finalized

/-!
# The rows of the nodes

`local_indices` lists, on every node, the rows of its segments, the last segment
ending where the size says. The rows listed by all the nodes together are those
of segments that are all full but the last (`Column.flatMap_segIndices`): these
are the rows of the column if it has as many segments as chunks (`Column.Cut`),
but a column without values has a segment too, and lists the rows of a full one.

* `Column.localIndices_lt_iff`, `DataFrame.localIndices_sound`: when the rows
  listed are rows of the data frame;
* `DataFrame.localMap_covers`: when the nodes share out the rows, so that
  `local_map` on all of them amounts to `map`.
-/

namespace Eau2

namespace Column

variable {t : ColType} {n : Nat} {xs : List t.Elem} {col : Column t}

/-- The rows that the last segment of a column is taken to have. -/
def lastLength (col : Column t) : Nat :=
  if col.size % col.segmentCapacity = 0 then col.segmentCapacity else col.size % col.segmentCapacity

/-- The column has values, and a segment for every chunk of them. -/
def Cut (col : Column t) : Prop :=
  0 < col.size ∧ col.segments.length = List.numChunks col.segmentCapacity col.size

instance : Decidable col.Cut := inferInstanceAs (Decidable (_ ∧ _))

theorem Placed.lastLength_pos (h : col.Placed n) : 0 < col.lastLength := by
  rw [lastLength]
  split_ifs with h0
  · exact h.capacity_pos
  · exact Nat.pos_of_ne_zero h0

theorem Placed.lastLength_le (h : col.Placed n) : col.lastLength ≤ col.segmentCapacity := by
  rw [lastLength]
  split_ifs
  · exact le_rfl
  · exact (Nat.mod_lt _ h.capacity_pos).le

theorem segIndices_of_lt {i : Nat} (hi : i < col.segments.length - 1) :
    col.segIndices i = List.range' (i * col.segmentCapacity) col.segmentCapacity := by
  rw [segIndices, if_pos (Or.inl hi)]

theorem segIndices_last (col : Column t) :
    col.segIndices (col.segments.length - 1) =
      List.range' ((col.segments.length - 1) * col.segmentCapacity) col.lastLength := by
  simp [segIndices, lastLength]

/-- The rows of all the segments. -/
theorem Placed.flatMap_segIndices (h : col.Placed n) :
    (List.range col.segments.length).flatMap col.segIndices =
      List.range ((col.segments.length - 1) * col.segmentCapacity + col.lastLength) := by
  have hlast := segIndices_last col
  have hfull : (List.range (col.segments.length - 1)).flatMap col.segIndices =
      List.range ((col.segments.length - 1) * col.segmentCapacity) := by
    rw [← List.flatMap_range']
    exact List.flatMap_congr fun i hi => segIndices_of_lt (List.mem_range.1 hi)
  obtain ⟨k, hk⟩ : ∃ k, col.segments.length = k + 1 := ⟨_, (Nat.succ_pred_eq_of_pos h.pos).symm⟩
  rw [hk, Nat.add_sub_cancel] at hlast hfull
  rw [hk, List.range_succ, List.flatMap_append, List.flatMap_singleton, Nat.add_sub_cancel,
    hfull, hlast, List.range_eq_range', List.range_eq_range', ← List.range'_append_1, Nat.zero_add]

/-- They are the rows of the column exactly when it is cut as it should be. -/
theorem Placed.rows_eq_size_iff (h : col.Placed n) :
    (col.segments.length - 1) * col.segmentCapacity + col.lastLength = col.size ↔ col.Cut := by
  have hpos := h.lastLength_pos
  have hle := h.lastLength_le
  have hk := h.pos
  constructor
  · intro heq
    refine ⟨by omega, ?_⟩
    have hdiv : (col.size - 1) / col.segmentCapacity = col.segments.length - 1 := by
      rw [← heq, Nat.div_eq_iff h.capacity_pos]
      constructor <;> rw [Nat.mul_comm] <;> omega
    rw [List.numChunks, hdiv]
    omega
  · rintro ⟨hsize, hcut⟩
    have hdiv := Nat.div_add_mod col.size col.segmentCapacity
    rw [hcut, List.numChunks, Nat.add_sub_cancel, lastLength]
    split_ifs with h0
    · rw [h0, Nat.add_zero] at hdiv
      -- the rows fill the segments: the last row is in the one before the quotient
      obtain ⟨q, hq⟩ : ∃ q, col.size / col.segmentCapacity = q + 1 :=
        ⟨_, (Nat.succ_pred_eq_of_pos (Nat.pos_of_ne_zero fun hz =>
          by rw [hz, Nat.mul_zero] at hdiv; omega)).symm⟩
      rw [hq, Nat.mul_add, Nat.mul_one] at hdiv
      have hpred : (col.size - 1) / col.segmentCapacity = q := by
        rw [Nat.div_eq_iff h.capacity_pos]
        constructor <;> rw [Nat.mul_comm] <;> omega
      rw [hpred, Nat.mul_comm, hdiv]
    · have hlt := Nat.mod_lt col.size h.capacity_pos
      have hpred : (col.size - 1) / col.segmentCapacity = col.size / col.segmentCapacity := by
        rw [Nat.div_eq_iff h.capacity_pos]
        constructor <;> rw [Nat.mul_comm] <;> omega
      rw [hpred, Nat.mul_comm, hdiv]

/-- The rows listed on a node, by segment. -/
theorem Placed.localIndices_eq (h : col.Placed n) (node : Nat) :
    col.localIndices node = some ((List.range col.segments.length).flatMap fun i =>
      if i % n = node then col.segIndices i else []) := by
  rw [localIndices, if_pos h.finalized, Option.some.injEq]
  refine List.flatMap_congr fun i hi => ?_
  have hget := List.getElem?_eq_getElem (List.mem_range.1 hi)
  rw [hget, Option.map_some, h.node i _ hget]
  simp only [Option.some.injEq]

/-- Every segment is on one node. -/
theorem Placed.perm_localIndices (h : col.Placed n) (hn : 0 < n) :
    ((List.range n).flatMap fun node => (List.range col.segments.length).flatMap fun i =>
      if i % n = node then col.segIndices i else []).Perm
        (List.range ((col.segments.length - 1) * col.segmentCapacity + col.lastLength)) := by
  rw [← h.flatMap_segIndices]
  exact List.flatMap_ite_perm (· % n) col.segIndices List.nodup_range fun i _ =>
    List.mem_range.2 (Nat.mod_lt i hn)

/-- The rows listed on the node are rows of the column. -/
def LocalIndicesLt (node : Nat) (col : Column t) : Prop :=
  ∃ is, col.localIndices node = some is ∧ ∀ i ∈ is, i < col.size

/-- The column has no more segments than its size takes, or those from the row
    `size` on are not on the node. -/
def NoneBeyond (n node : Nat) (col : Column t) : Prop :=
  col.segments.length ≤ (col.size + col.segmentCapacity - 1) / col.segmentCapacity ∨
    ∀ i, col.size / col.segmentCapacity ≤ i → i < col.segments.length → i % n ≠ node

/-- The end of the rows listed for the segment `i`. -/
theorem Placed.lt_segIndices_iff (h : col.Placed n) {i : Nat} (hi : i < col.segments.length) :
    (∀ r ∈ col.segIndices i, r < col.size) ↔
      if i = col.segments.length - 1 then i * col.segmentCapacity + col.lastLength ≤ col.size
      else (i + 1) * col.segmentCapacity ≤ col.size := by
  have hrange (s len : Nat) (hlen : 0 < len) :
      (∀ r ∈ List.range' s len, r < col.size) ↔ s + len ≤ col.size := by
    simp only [List.mem_range'_1]
    refine ⟨fun hr => ?_, fun hle r hr => by omega⟩
    have := hr (s + len - 1) (by omega)
    omega
  split_ifs with heq
  · rw [heq, segIndices_last, hrange _ _ h.lastLength_pos]
  · rw [segIndices_of_lt (by omega), hrange _ _ h.capacity_pos, Nat.add_mul, Nat.one_mul]

theorem Placed.lt_segIndices_of_le (h : col.Placed n)
    (hle : col.segments.length ≤ (col.size + col.segmentCapacity - 1) / col.segmentCapacity)
    {i : Nat} (hi : i < col.segments.length) : ∀ r ∈ col.segIndices i, r < col.size := by
  have hmul := (Nat.mul_le_mul_right col.segmentCapacity hle).trans (Nat.div_mul_le_self _ _)
  have hpos := h.capacity_pos
  rw [h.lt_segIndices_iff hi]
  split_ifs with heq
  · obtain ⟨k, hk⟩ : ∃ k, col.segments.length = k + 1 := ⟨_, (Nat.succ_pred_eq_of_pos h.pos).symm⟩
    rw [hk, Nat.add_mul, Nat.one_mul] at hmul
    rw [heq, hk, Nat.add_sub_cancel, lastLength]
    have hdiv := Nat.div_add_mod col.size col.segmentCapacity
    have hmod := Nat.mod_lt col.size hpos
    have hkdiv : k ≤ col.size / col.segmentCapacity := by
      rw [Nat.le_div_iff_mul_le hpos]
      omega
    have hkmul := Nat.mul_le_mul_left col.segmentCapacity hkdiv
    rw [Nat.mul_comm _ k] at hkmul
    split_ifs with h0
    · -- a multiple of the capacity that is not below `k` segments is not `k` segments
      rcases hkdiv.lt_or_eq with hlt | rfl
      · have := Nat.mul_le_mul_left col.segmentCapacity hlt
        rw [Nat.succ_eq_add_one, Nat.mul_add, Nat.mul_one, Nat.mul_comm _ k] at this
        omega
      · rw [Nat.mul_comm] at hmul
        omega
    · omega
  · have hmul' := Nat.mul_le_mul_right col.segmentCapacity
      (show i + 2 ≤ col.segments.length by omega)
    rw [Nat.add_mul] at hmul' ⊢
    omega

/-- When the rows listed on a node are rows of the column. -/
theorem Placed.localIndicesLt_iff (h : col.Placed n) (node : Nat) :
    col.LocalIndicesLt node ↔ col.NoneBeyond n node := by
  have hpos := h.capacity_pos
  have hseg : col.LocalIndicesLt node ↔
      ∀ i < col.segments.length, i % n = node → ∀ r ∈ col.segIndices i, r < col.size := by
    rw [LocalIndicesLt, h.localIndices_eq]
    constructor
    · rintro ⟨is, his, hlt⟩ i hi hnode r hr
      rw [Option.some.injEq] at his
      refine hlt r (his ▸ List.mem_flatMap.2 ⟨i, List.mem_range.2 hi, ?_⟩)
      rwa [if_pos hnode]
    · refine fun hlt => ⟨_, rfl, fun r hr => ?_⟩
      obtain ⟨i, hi, hmem⟩ := List.mem_flatMap.1 hr
      split_ifs at hmem with hnode
      · exact hlt i (List.mem_range.1 hi) hnode r hmem
      · cases hmem
  have hdiv := Nat.lt_div_mul_add hpos (a := col.size)
  rw [hseg]
  constructor
  · intro hlt
    by_contra hnot
    rw [NoneBeyond, not_or, not_le] at hnot
    push Not at hnot
    obtain ⟨hmany, i, hge, hi, hnode⟩ := hnot
    have hend := hlt i hi hnode
    have hmul := Nat.mul_le_mul_right col.segmentCapacity hge
    rw [h.lt_segIndices_iff hi] at hend
    split_ifs at hend with heq
    · -- the last segment, which is one too many
      rw [Nat.div_lt_iff_lt_mul hpos] at hmany
      rw [heq] at hmul hend
      obtain ⟨k, hk⟩ : ∃ k, col.segments.length = k + 1 := ⟨_, (Nat.succ_pred_eq_of_pos h.pos).symm⟩
      have hlast := h.lastLength_pos
      rw [hk, Nat.add_sub_cancel] at hend
      rw [hk, Nat.add_mul, Nat.one_mul] at hmany
      omega
    · rw [Nat.add_mul, Nat.one_mul] at hend
      omega
  · rintro (hle | hfree) i hi hnode
    · exact h.lt_segIndices_of_le hle hi
    · have hlt : i < col.size / col.segmentCapacity := by
        by_contra hge
        exact hfree i (not_lt.1 hge) hi hnode
      have hmul := (Nat.mul_le_mul_right col.segmentCapacity hlt).trans (Nat.div_mul_le_self _ _)
      have hlast := h.lastLength_le
      rw [Nat.succ_mul] at hmul
      rw [h.lt_segIndices_iff hi]
      split_ifs
      · omega
      · rwa [Nat.add_mul, Nat.one_mul]

end Column

/-! ## Sums over the nodes -/

section Fold

variable {ι M : Type} [CommMonoid M]

/-- The product of the values of a list, if none of them is missing. -/
def prodM (g : ι → Option M) (l : List ι) : Option M := (l.mapM g).map List.prod

theorem prodM_cons (g : ι → Option M) (i : ι) (l : List ι) :
    prodM g (i :: l) = (g i).bind fun x => (prodM g l).map (x * ·) := by
  rw [prodM, prodM, List.mapM_cons]
  cases g i with
  | none => rfl
  | some x => cases l.mapM g <;> simp

theorem prodM_append (g : ι → Option M) (l l' : List ι) :
    prodM g (l ++ l') = (prodM g l).bind fun x => (prodM g l').map (x * ·) := by
  rw [prodM, prodM, prodM, List.mapM_append]
  cases l.mapM g with
  | none => rfl
  | some xs => cases l'.mapM g <;> simp

/-- The order of the values does not matter. -/
theorem prodM_perm (g : ι → Option M) {l l' : List ι} (h : l.Perm l') : prodM g l = prodM g l' := by
  induction h with
  | nil => rfl
  | cons i _ ih => rw [prodM_cons, prodM_cons, ih]
  | swap i j l =>
    rw [prodM_cons, prodM_cons, prodM_cons, prodM_cons]
    cases g i with
    | none => cases g j <;> simp
    | some x =>
      cases g j with
      | none => simp
      | some y => cases prodM g l <;> simp [mul_left_comm]
  | trans _ _ ih ih' => exact ih.trans ih'

/-- The product of the products of the parts of a list. -/
theorem prodM_flatMap {κ : Type} (g : ι → Option M) (f : κ → List ι) (l : List κ) :
    prodM (fun k => prodM g (f k)) l = prodM g (l.flatMap f) := by
  induction l with
  | nil => rfl
  | cons k l ih => rw [prodM_cons, List.flatMap_cons, prodM_append, ih]

end Fold

/-- The reader that keeps the rows it is given. -/
def Reader.collect : Reader (List Row) := ⟨fun rows r => some (rows ++ [r])⟩

/-- The reader that merges what it makes of the rows it is given. -/
def Reader.fold {M : Type} [CommMonoid M] (f : Row → M) : Reader M := ⟨fun s r => some (s * f r)⟩

theorem Reader.foldlM_collect (g : Nat → Option Row) (indices : List Nat) (rows : List Row) :
    indices.foldlM (fun s i => (g i).bind (Reader.collect.visit s)) rows =
      (indices.mapM g).map (rows ++ ·) := by
  induction indices generalizing rows with
  | nil => simp
  | cons i indices ih =>
    rw [List.foldlM_cons, List.mapM_cons]
    cases g i with
    | none => rfl
    | some r =>
      simp only [Option.bind_some, Reader.collect, Option.bind_eq_bind] at ih ⊢
      rw [ih]
      cases indices.mapM g <;> simp

theorem Reader.foldlM_fold {M : Type} [CommMonoid M] (f : Row → M) (g : Nat → Option Row)
    (indices : List Nat) (s : M) :
    indices.foldlM (fun s i => (g i).bind ((Reader.fold f).visit s)) s =
      (prodM (fun i => (g i).map f) indices).map (s * ·) := by
  induction indices generalizing s with
  | nil => simp [prodM]
  | cons i indices ih =>
    rw [List.foldlM_cons, prodM_cons]
    cases g i with
    | none => rfl
    | some r =>
      simp only [Option.bind_some, Option.map_some, Reader.fold, Option.bind_eq_bind] at ih ⊢
      rw [ih]
      cases prodM (fun i => (g i).map f) indices <;> simp [mul_assoc]

/-! ## Data frames -/

namespace DataFrame

variable {n : Nat} {df : DataFrame} {m : Key → Option Value}

/-- The rows that `local_map` visits on the node are rows of the data frame, as
    `fill_row` asserts. -/
def LocalIndicesLt (node : Nat) (df : DataFrame) : Prop :=
  ∃ is, df.localIndices node = some is ∧ ∀ i ∈ is, i < df.schema.length

/-- The nodes share out the rows of the data frame, and `local_map` on all of them
    amounts to `map`. -/
structure Covers (n : Nat) (df : DataFrame) : Prop where
  listed : ∀ node < n, df.LocalIndicesLt node
  once : ∀ r < df.nrows, ∃ node < n, ∀ node' < n, ∀ is, df.localIndices node' = some is →
    is.count r = if node' = node then 1 else 0
  cells : ∀ m rows, ((df.map .collect []).run m).map (·.1.1) = some rows → ∀ node < n, ∀ is,
    df.localIndices node = some is →
      ((df.localMap node .collect []).run m).map (·.1.1) = is.mapM (rows[·]?)
  fold : ∀ (M : Type) [CommMonoid M] (f : Row → M) m,
    prodM (fun node => ((df.localMap node (.fold f) 1).run m).map (·.1.1)) (List.range n) =
      ((df.map (.fold f) 1).run m).map (·.1.1)

theorem mapM_ofChar? (h : df.WellTyped) :
    df.schema.colTypes.mapM ColType.ofChar? = some (df.columns.map (·.1)) := by
  have hmap (l : List ColumnPtr) : (l.map (·.1.getType)).mapM ColType.ofChar? =
      some (l.map (·.1)) := by
    induction l with
    | nil => rfl
    | cons p l ih =>
      rw [List.map_cons, List.mapM_cons, ih, ColType.ofChar?_getType]
      rfl
  rw [h, hmap]

theorem newRow_fits (h : df.WellTyped) : ∃ row, df.newRow = some row ∧ df.Fits row := by
  refine ⟨_, by rw [newRow, mapM_ofChar? h, Option.map_some], ?_⟩
  rw [Fits, h, Row.ofTypes, List.map_map, List.map_map]
  refine List.map_congr_left fun p _ => ?_
  obtain ⟨t, col⟩ := p
  cases t <;> rfl

section

variable (hwt : df.WellTyped) (hcached : df.Cached m df) (hd : ∀ p ∈ df.columns, p.2.DistinctNames)
include hwt hcached hd

theorem map_run {σ : Type} (v : Reader σ) (s : σ) : ((df.map v s).run m).map (·.1.1) =
    (List.range df.schema.length).foldlM (fun s idx => (df.rowAt m idx).bind (v.visit s)) s := by
  obtain ⟨row, hrow, hfits⟩ := newRow_fits hwt
  rw [DataFrame.map, hrow, Prog.ofOption_some, Prog.ret_bind, hcached.visitRows hwt hd hfits]

theorem localMap_run {σ : Type} (v : Reader σ) (s : σ) {node : Nat} {is : List Nat}
    (his : df.localIndices node = some is) : ((df.localMap node v s).run m).map (·.1.1) =
      is.foldlM (fun s idx => (df.rowAt m idx).bind (v.visit s)) s := by
  obtain ⟨row, hrow, hfits⟩ := newRow_fits hwt
  rw [DataFrame.localMap, hrow, Prog.ofOption_some, Prog.ret_bind, his, Prog.ofOption_some,
    Prog.ret_bind, hcached.visitRows hwt hd hfits]

end

/-- A data frame that has not been read yet. -/
theorem Made.cached (h : df.Made n) (m : Key → Option Value) : df.Cached m df := by
  refine ⟨rfl, List.forall₂_same.2 fun p hp => ?_⟩
  obtain ⟨xs, hlen, hcol, -⟩ := h.column hp
  exact .mk (.refl (hcol.placed hlen).unread)

theorem Made.placed (h : df.Made n) {p : ColumnPtr} (hp : p ∈ df.columns) : p.2.Placed n := by
  obtain ⟨xs, hlen, hcol, -⟩ := h.column hp
  exact hcol.placed hlen

theorem Made.size (h : df.Made n) {p : ColumnPtr} (hp : p ∈ df.columns) : p.2.size = df.nrows := by
  obtain ⟨xs, -, -, hsize⟩ := h.column hp
  exact hsize

/-- When `local_map` visits rows of the data frame, on a node. -/
theorem Made.localIndicesLt_iff (h : df.Made n) (node : Nat) :
    df.LocalIndicesLt node ↔ ∀ p, df.columns.head? = some p → p.2.NoneBeyond n node := by
  obtain ⟨p, hp, hmem⟩ := h.exists_head
  rw [LocalIndicesLt, localIndices, hp, Option.bind_some, ← nrows, ← h.size hmem]
  change p.2.LocalIndicesLt node ↔ _
  rw [(h.placed hmem).localIndicesLt_iff]
  refine ⟨fun hnb p' hp' => ?_, fun hnb => hnb p rfl⟩
  cases hp'
  exact hnb

/-- The rows listed on the nodes for a column, all together. -/
theorem Made.exists_indices (h : df.Made n) (hn : 0 < n) {p : ColumnPtr}
    (hp : df.columns.head? = some p) :
    ∃ is : Nat → List Nat, (∀ node, df.localIndices node = some (is node)) ∧
      ((List.range n).flatMap is).Perm
        (List.range ((p.2.segments.length - 1) * p.2.segmentCapacity + p.2.lastLength)) := by
  have hplaced := h.placed (List.mem_of_mem_head? (Option.mem_def.2 hp))
  refine ⟨_, fun node => ?_, hplaced.perm_localIndices hn⟩
  rw [localIndices, hp, Option.bind_some, hplaced.localIndices_eq]

/-- Data frames whose rows are shared out have their first column cut as it should
    be. -/
theorem Made.cut_of_covers (h : df.Made n) (hn : 0 < n) (hc : df.Covers n) {p : ColumnPtr}
    (hp : df.columns.head? = some p) : p.2.Cut := by
  have hmem := List.mem_of_mem_head? (Option.mem_def.2 hp)
  obtain ⟨is, his, hperm⟩ := h.exists_indices hn hp
  rw [← (h.placed hmem).rows_eq_size_iff, h.size hmem]
  have hiff (r : Nat) : (∃ node < n, r ∈ is node) ↔
      r < (p.2.segments.length - 1) * p.2.segmentCapacity + p.2.lastLength := by
    rw [← List.mem_range, ← hperm.mem_iff, List.mem_flatMap]
    simp only [List.mem_range]
  refine le_antisymm (not_lt.1 fun hlt => ?_) (not_lt.1 fun hlt => ?_)
  · -- a row listed that is not one
    obtain ⟨node, hnode, hr⟩ := (hiff df.nrows).2 hlt
    obtain ⟨is', his', hlisted⟩ := hc.listed node hnode
    rw [his node, Option.some.injEq] at his'
    exact lt_irrefl _ (hlisted _ (his' ▸ hr))
  · -- a row that is not listed
    obtain ⟨node, hnode, hone⟩ := hc.once _ hlt
    have hcount := hone node hnode _ (his node)
    rw [if_pos rfl] at hcount
    exact lt_irrefl _ ((hiff _).1 ⟨node, hnode, List.one_le_count_iff.1 hcount.ge⟩)

/-- The nodes share out the rows of a data frame whose first column is cut as it
    should be. -/
theorem Made.covers_of_cut (h : df.Made n) (hn : 0 < n)
    (hcut : ∀ p, df.columns.head? = some p → p.2.Cut)
    (hd : ∀ p ∈ df.columns, p.2.DistinctNames) : df.Covers n := by
  obtain ⟨p, hp, hmem⟩ := h.exists_head
  obtain ⟨is, his, hperm⟩ := h.exists_indices hn hp
  rw [(h.placed hmem).rows_eq_size_iff.2 (hcut p hp), h.size hmem] at hperm
  have hlt {node r : Nat} (hnode : node < n) (hr : r ∈ is node) : r < df.nrows :=
    List.mem_range.1 (hperm.mem_iff.1 (List.mem_flatMap.2 ⟨node, List.mem_range.2 hnode, hr⟩))
  obtain ⟨hnodup, hdisjoint⟩ := List.nodup_flatMap.1 (hperm.nodup_iff.2 List.nodup_range)
  refine ⟨fun node hnode => ⟨is node, his node, fun r => hlt hnode⟩, fun r hr => ?_,
    fun m rows hrows node hnode is' his' => ?_, fun M _ f m => ?_⟩
  · -- A row is listed by one node, and once: the lists of the nodes together have no duplicate.
    obtain ⟨node, hnode, hr⟩ := List.mem_flatMap.1 (hperm.mem_iff.2 (List.mem_range.2 hr))
    refine ⟨node, List.mem_range.1 hnode, fun node' hnode' is' his' => ?_⟩
    rw [his node', Option.some.injEq] at his'
    subst his'
    split_ifs with heq
    · rw [heq]
      exact List.count_eq_one_of_mem (hnodup node hnode) hr
    · refine List.count_eq_zero_of_not_mem fun hr' => ?_
      have : Std.Symm (Function.onFun List.Disjoint is) := ⟨fun _ _ hxy r hr hr' => hxy hr' hr⟩
      exact hdisjoint.forall (List.mem_range.2 hnode') hnode heq hr' hr
  · -- What `local_map` shows of the rows of a node is what `map` shows of them.
    rw [his node, Option.some.injEq] at his'
    subst his'
    rw [map_run h.wellTyped (h.cached m) hd, Reader.foldlM_collect] at hrows
    rw [localMap_run h.wellTyped (h.cached m) hd _ _ (his node), Reader.foldlM_collect]
    obtain ⟨rows', hrows', heq⟩ := Option.map_eq_some_iff.1 hrows
    rw [List.nil_append] at heq
    subst heq
    have hget := List.getElem?_of_mapM_eq_some hrows'
    have hsame : (is node).mapM (df.rowAt m) = (is node).mapM (rows'[·]?) := by
      refine List.mapM_congr_mem fun r hr => ?_
      have hr' : r < df.schema.length := hlt hnode hr
      rw [hget, List.getElem?_range hr', Option.bind_some]
    rw [hsame]
    simp
  · -- A product does not depend on the order in which the nodes list the rows.
    have hlocal : (fun node => ((df.localMap node (.fold f) 1).run m).map (·.1.1)) = fun node =>
        prodM (fun r => (df.rowAt m r).map f) (is node) := by
      funext node
      rw [localMap_run h.wellTyped (h.cached m) hd _ _ (his node), Reader.foldlM_fold]
      simp
    rw [hlocal, prodM_flatMap, prodM_perm _ hperm, map_run h.wellTyped (h.cached m) hd,
      Reader.foldlM_fold]
    simp [nrows]

/-- The data frame of one column filled with `xs`. -/
theorem made_ofColumn (t : ColType) (n c : Nat) (draws : Fin 10 → Fin 53) (xs : List t.Elem)
    (hc : 0 < c) (hs : ∀ x ∈ xs, t.Storable x) (hlen : xs.length < 2 ^ 64) :
    Made n ⟨[⟨t, Column.filled t n (colId draws) c xs⟩], ⟨[t.getType], xs.length⟩⟩ := by
  have hpush := Column.foldlM_pushBack (n := n) hc draws hs
  refine .ofColumn (p := ⟨t, Column.filling t n (colId draws) c xs⟩)
    ⟨xs, draws, c, _, hc, hlen, by rw [hpush, Prog.writes_putAll]⟩
    (by rw [ofColumn_filling hs, Prog.writes_putAll])

/-- The nodes share out the rows of a data frame if its first column has values and
    a segment for every chunk of them, which it must, and the segments of each
    column have distinct names. -/
theorem localMap_covers (n : Nat) (df : DataFrame) (hn : 0 < n) (h : df.Made n) :
    (df.Covers n → ∀ p, df.columns.head? = some p → p.2.Cut) ∧
      ((∀ p, df.columns.head? = some p → p.2.Cut) → (∀ p ∈ df.columns, p.2.DistinctNames) →
        df.Covers n) :=
  ⟨fun hc _ hp => h.cut_of_covers hn hc hp, h.covers_of_cut hn⟩

theorem localMap_covers_ints : ∃ df : DataFrame, df.Made 2 ∧ df.Covers 2 := by
  have hmade := made_ofColumn .int 2 2 (fun _ => 0) [5, 6, 7] (by decide)
    (fun _ _ => trivial) (by decide)
  refine ⟨_, hmade, (localMap_covers 2 _ (by decide) hmade).2 ?_ ?_⟩
  · rintro p hp
    cases hp
    decide
  · refine List.forall_mem_singleton.2 ?_
    rw [Column.DistinctNames]
    decide

/-- A data frame without rows: `local_map` visits the rows of a full segment. -/
theorem localMap_covers_fails : ∃ df : DataFrame, df.Made 1 ∧ df.nrows = 0 ∧ ¬df.Covers 1 := by
  have hmade := made_ofColumn .int 1 2 (fun _ => 0) [] (by decide)
    (List.forall_mem_nil _) (by decide)
  exact ⟨_, hmade, rfl, fun hc => absurd (hmade.cut_of_covers (by decide) hc rfl).1 (by decide)⟩

end DataFrame

/-- `local_indices` lists rows of the column exactly when the column has no more
    segments than its size takes, or the segments from there on are on other nodes;
    and then `local_map` of a data frame it is the first column of respects the
    bound that `fill_row` asserts. -/
theorem Column.localIndices_sound (n node : Nat) (t : ColType) (xs : List t.Elem) (col : Column t)
    (df : DataFrame) (hlen : xs.length < 2 ^ 64) (hcol : col.Finalized n xs) (hdf : df.Made n) :
    (col.LocalIndicesLt node ↔ col.NoneBeyond n node) ∧
      (df.LocalIndicesLt node ↔ ∀ p, df.columns.head? = some p → p.2.NoneBeyond n node) :=
  ⟨(hcol.placed hlen).localIndicesLt_iff node, hdf.localIndicesLt_iff node⟩

theorem Column.localIndices_sound_ints :
    (filled .int 2 (Eau2.colId fun _ => 0) 2 [5, 6, 7]).LocalIndicesLt 1 ∧
      (DataFrame.mk [⟨.int, filled .int 2 (Eau2.colId fun _ => 0) 2 [5, 6, 7]⟩]
        ⟨[73], 3⟩).LocalIndicesLt 1 := by
  have hs : ∀ x ∈ [(5 : BitVec 32), 6, 7], ColType.int.Storable x := fun _ _ => trivial
  have h := localIndices_sound 2 1 .int [5, 6, 7] _ _ (by decide)
    (.fill (c := 2) (by decide) ((writes_fill (by decide) fun _ => 0).2 ⟨hs, rfl, rfl⟩))
    (DataFrame.made_ofColumn .int 2 2 (fun _ => 0) [5, 6, 7] (by decide) hs (by decide))
  refine ⟨h.1.2 (Or.inl (by decide)), h.2.2 fun p hp => ?_⟩
  cases hp
  exact Or.inl (by decide)

/-- A column without values, of capacity two, lists the rows `0` and `1`. -/
theorem Column.localIndices_sound_fails :
    ∃ col : Column .int, col.Finalized 1 [] ∧ col.localIndices 0 = some [0, 1] ∧ col.size = 0 ∧
      (DataFrame.mk [⟨.int, col⟩] ⟨[73], 0⟩).Made 1 ∧
        ¬col.LocalIndicesLt 0 ∧ ¬(DataFrame.mk [⟨.int, col⟩] ⟨[73], 0⟩).LocalIndicesLt 0 := by
  have hs : ∀ x ∈ ([] : List (BitVec 32)), ColType.int.Storable x := List.forall_mem_nil _
  have hlisted : (filled .int 1 (Eau2.colId fun _ => 0) 2 []).localIndices 0 =
    some [0, 1] := by decide
  refine ⟨_, .fill (c := 2) (by decide) ((writes_fill (by decide) fun _ => 0).2 ⟨hs, rfl, rfl⟩),
    hlisted, rfl,
    DataFrame.made_ofColumn .int 1 2 (fun _ => 0) [] (by decide) hs (by decide), ?_, ?_⟩
  · rintro ⟨is, his, hlt⟩
    cases hlisted.symm.trans his
    exact absurd (hlt 0 (by decide)) (by decide)
  · rintro ⟨is, his, hlt⟩
    cases hlisted.symm.trans his
    exact absurd (hlt 0 (by decide)) (by decide)

end Eau2

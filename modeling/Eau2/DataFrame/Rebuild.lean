import Mathlib.Algebra.Order.BigOperators.Group.List
import Eau2.DataFrame.ReadBack

/-!
# Rebuilding a column

A column is serialized as its size, its id and the keys of its segments. Its
segment capacity is not part of the encoding: a column rebuilt from it has the
default capacity, and finds the row `i` where a column of that capacity would
have it.

So it is the column that was serialized if the capacity was the default one, or
if all the values are in one segment that both capacities allow. Otherwise some
row is not found where it is, or `local_indices` lists other rows
(`rebuildsSame_iff`).
-/

namespace Eau2

namespace Column

variable {t : ColType} {n c : Nat} {id : Bytes} {xs : List t.Elem}

/-- The column rebuilt from the encoding of a column filled with `xs`. -/
def rebuilt (t : ColType) (n : Nat) (id : Bytes) (c : Nat) (xs : List t.Elem) : Column t where
  segments := (List.range (List.numChunks c xs.length)).map (segKey n id)
  finalized := true
  size := xs.length
  colId := id
  cache := .ofCapacity defaultSegmentCapacity
  cacheKey := .empty
  currNode := 0
  segmentCapacity := defaultSegmentCapacity

/-- The encoding of a column filled with `size` values. -/
def encode (n : Nat) (id : Bytes) (c size : Nat) : Bytes :=
  Serializer.addSizeT size ++ (Serializer.addSizeT id.length ++ id) ++
    Serializer.addSizeT (List.numChunks c size) ++
    ((List.range (List.numChunks c size)).map (segKey n id)).flatMap Key.encode

theorem coherent_rebuilt : Coherent n id c xs (rebuilt t n id c xs) where
  segments := rfl
  finalized := rfl
  size := rfl
  cache j _ h := by
    rw [segKey_k] at h
    exact absurd h (segName_ne_nil id j)

theorem numChunks_lt (hlen : xs.length < 2 ^ 64) : List.numChunks c xs.length < 2 ^ 64 := by
  have := Nat.div_le_self (xs.length - 1) c
  rw [List.numChunks]
  omega

theorem storable_segKey {j : Nat} (hj : j < 2 ^ 64) : (segKey n id j).Storable where
  ne_nil := segKey_k n id j ▸ segName_ne_nil id j
  not_mem h := by simpa using List.mem_takeWhile_imp (show 0 ∈ cString (segName id j) from h)
  length_lt := by
    rw [segKey_k]
    have : (segName id j).length ≤ 14 := List.length_take_le _ _
    omega
  node_lt := (Nat.mod_le j n).trans_lt hj

section

variable (hid : id ≠ []) (hlen : xs.length < 2 ^ 64)
include hid hlen

theorem serialize_filled : (filled t n id c xs).serialize = some (encode n id c xs.length) := by
  have hkeys : (filled t n id c xs).segments.mapM Key.serialize =
      some ((filled t n id c xs).segments.map Key.encode) := by
    refine List.mapM_eq_some_map fun k hk => ?_
    obtain ⟨j, hj, rfl⟩ := List.mem_map.1 hk
    exact Key.serialize_eq (storable_segKey ((List.mem_range.1 hj).trans (numChunks_lt hlen)))
  rw [serialize, if_pos (show (filled t n id c xs).finalized = true from rfl), hkeys,
    show (filled t n id c xs).colId = id from rfl, addString_eq hid, encode, List.flatMap_def]
  simp [filled, filling]

omit hid hlen in
theorem ne_nil_of_serialize {w : Bytes} (h : (filled t n id c xs).serialize = some w) :
    id ≠ [] := by
  rintro rfl
  rw [serialize, if_pos (show (filled t n [] c xs).finalized = true from rfl)] at h
  cases h

theorem decodes_rebuilt (hid64 : id.length < 2 ^ 64) :
    Decodes (deserialize t) (encode n id c xs.length) (rebuilt t n id c xs) := by
  have hkeys := Decodes.times (d := Key.deserialize) fun k
      (hk : k ∈ (List.range (List.numChunks c xs.length)).map (segKey n id)) => by
      obtain ⟨j, hj, rfl⟩ := List.mem_map.1 hk
      exact Key.decodes (storable_segKey ((List.mem_range.1 hj).trans (numChunks_lt hlen)))
  rw [List.length_map, List.length_range] at hkeys
  rw [encode, List.append_assoc, List.append_assoc]
  refine (decodes_sizeT hlen).bind ((decodes_string hid hid64).bind
    ((decodes_sizeT (numChunks_lt hlen)).bind ?_))
  rw [← List.append_nil (List.flatMap ..)]
  exact hkeys.bind (Decodes.pure _)

end

/-! ## What the columns read -/

/-- The value that `get` finds where no segment is in the cache: it is that of the last
    segment that was put at the key. -/
theorem Coherent.exists_map_get {col : Column t} (h : Coherent n id c xs col)
    (hkey : col.cacheKey = .empty) (hs : ∀ x ∈ xs, t.Storable x) (hlen : xs.length < 2 ^ 64)
    {i : Nat} (hi : i < xs.length) (hj : i / col.segmentCapacity < List.numChunks c xs.length)
    (m₀ : Key → Option Value) :
    ∃ l, i / col.segmentCapacity ≤ l ∧ l < List.numChunks c xs.length ∧
      ((col.get i).run (Prog.writeAll (segPuts t n id c xs (List.numChunks c xs.length)) m₀)).map
          (·.1.1) = (xs.chunk c l)[t.indexInSeg (i % col.segmentCapacity)]? := by
  obtain ⟨l, hjl, hl, -, hw⟩ := exists_segment n id c m₀ xs hj
  have hys : (xs.chunk c l).length < 2 ^ 64 := by
    rw [List.length_chunk]
    omega
  refine ⟨l, hjl, hl, ?_⟩
  rw [h.get_of_stored hkey hi hj (storable_chunk hs l) hys hw]
  cases (xs.chunk c l)[t.indexInSeg (i % col.segmentCapacity)]? <;> rfl

theorem getAll_singleton (col : Column t) (i : Nat) (m : Key → Option Value) :
    col.getAll [(i, m)] = (((col.get i).run m).map (·.1.1)).map fun x => [x] := by
  rw [getAll]
  cases (col.get i).run m <;> rfl

/-- The columns differ in the room of the cache at most, in the node that is next, and in what
    is in the cache while it is no segment. -/
structure Alike (col col' : Column t) : Prop where
  segments : col'.segments = col.segments
  finalized : col'.finalized = col.finalized
  size : col'.size = col.size
  segmentCapacity : col'.segmentCapacity = col.segmentCapacity
  cacheKey : col'.cacheKey = col.cacheKey
  cache : ∀ k ∈ col.segments, k.equals col.cacheKey = true → col'.cache.items = col.cache.items

/-- `fetch` of one of the segments fails in both columns, or in none. -/
theorem Alike.fetch {col col' : Column t} (h : Alike col col') {k : Key} (hk : k ∈ col.segments)
    (m : Key → Option Value) :
    (col.fetch k).run m = none ∧ (col'.fetch k).run m = none ∨
      ∃ d d', (col.fetch k).run m = some (d, m) ∧ (col'.fetch k).run m = some (d', m) ∧
        Alike d d' ∧ d'.cache.items = d.cache.items := by
  rw [Column.fetch, Column.fetch, h.cacheKey]
  by_cases hkey : k.equals col.cacheKey = true
  · rw [if_pos hkey, if_pos hkey]
    exact .inr ⟨col, col', rfl, rfl, h, h.cache k hk hkey⟩
  · rw [if_neg hkey, if_neg hkey]
    cases hm : m k with
    | none => exact .inl (by simp [Prog.run, hm])
    | some v =>
      rw [Prog.run_get hm, Prog.run_get hm]
      cases t.deserializeArray.run v with
      | none => exact .inl ⟨rfl, rfl⟩
      | some r =>
        exact .inr ⟨_, _, rfl, rfl, ⟨h.segments, h.finalized, h.size, h.segmentCapacity, rfl,
          fun _ _ _ => rfl⟩, rfl⟩

/-- `get` fails in both columns, or finds the same value in both. -/
theorem Alike.get {col col' : Column t} (h : Alike col col') (i : Nat) (m : Key → Option Value) :
    (col.get i).run m = none ∧ (col'.get i).run m = none ∨
      ∃ x d d', (col.get i).run m = some ((x, d), m) ∧
        (col'.get i).run m = some ((x, d'), m) ∧ Alike d d' := by
  rw [Column.get, Column.get, h.size, h.finalized, h.segments, h.segmentCapacity]
  by_cases hi : i < col.size
  · by_cases hfin : col.finalized = true
    · rw [Prog.assert_true hi, Prog.ret_bind, Prog.ret_bind, Prog.assert_true hfin, Prog.ret_bind,
        Prog.ret_bind]
      cases hseg : col.segments[i / col.segmentCapacity]? with
      | none => exact .inl ⟨rfl, rfl⟩
      | some k =>
        rw [Prog.ofOption_some, Prog.ret_bind, Prog.ret_bind, Prog.run_bind, Prog.run_bind]
        rcases h.fetch (List.mem_of_getElem? hseg) m with ⟨h₁, h₂⟩ | ⟨d, d', h₁, h₂, hd, hcache⟩
        · exact .inl (by rw [h₁, h₂]; exact ⟨rfl, rfl⟩)
        · rw [h₁, h₂, Option.bind_some, Option.bind_some, hd.segmentCapacity, BaseArray.get,
            BaseArray.get, hcache]
          cases d.cache.items[t.indexInSeg (i % d.segmentCapacity)]? with
          | none => exact .inl ⟨rfl, rfl⟩
          | some x => exact .inr ⟨x, d, d', rfl, rfl, hd⟩
    · rw [Prog.assert_true hi, Prog.ret_bind, Prog.ret_bind, Prog.assert_false hfin]
      exact .inl ⟨rfl, rfl⟩
  · rw [Prog.assert_false hi]
    exact .inl ⟨rfl, rfl⟩

/-- The columns give the same values, one call after the other. -/
theorem Alike.getAll {col col' : Column t} (h : Alike col col')
    (calls : List (Nat × (Key → Option Value))) : col'.getAll calls = col.getAll calls := by
  induction calls generalizing col col' with
  | nil => rfl
  | cons call calls ih =>
    obtain ⟨i, m⟩ := call
    rw [Column.getAll, Column.getAll]
    rcases h.get i m with ⟨h₁, h₂⟩ | ⟨x, d, d', h₁, h₂, hd⟩
    · rw [h₁, h₂]
    · rw [h₁, h₂, Option.bind_eq_bind, Option.bind_some, Option.bind_eq_bind, Option.bind_some,
        ih hd]

/-! ## When it is the same column -/

/-- The column `col'` is `col`, on a store in which the pairs `puts` have been put: it has the
    same size and the same rows on each node, and `get` gives the same values, in whatever
    order they are read. -/
structure SameColumn (n : Nat) (puts : List (Key × Value)) (col col' : Column t) : Prop where
  size : col'.size = col.size
  get : ∀ (m₀ : Key → Option Value) (is : List Nat), (∀ i ∈ is, i < col.size) →
    col'.getAll (is.map fun i => (i, Prog.writeAll puts m₀)) =
      col.getAll (is.map fun i => (i, Prog.writeAll puts m₀))
  localIndices : ∀ node < n, col'.localIndices node = col.localIndices node

/-- A column created, filled with `xs` and finalized is serialized, and the column
    rebuilt is the same column. -/
def RebuildsSame (t : ColType) (n : Nat) (draws : Fin 10 → Fin 53) (c : Nat) (xs : List t.Elem) :
    Prop :=
  ∃ puts col w col', (fill t n draws c xs).writes = some (puts, col) ∧ col.serialize = some w ∧
    (deserialize t).run w = some (col', []) ∧ SameColumn n puts col col'

/-- The rows of a column of one segment, on the node of its segment. -/
theorem localIndices_of_one (col : Column t) (hseg : col.segments = [segKey n id 0])
    (hfin : col.finalized = true) (hpos : 0 < col.size) (hcap : col.size ≤ col.segmentCapacity)
    (node : Nat) :
    col.localIndices node = some (if 0 % n = node then List.range' 0 col.size else []) := by
  have hrows : col.segIndices 0 = List.range' 0 col.size := by
    rw [segIndices, hseg, Nat.zero_mul]
    rcases hcap.lt_or_eq with hlt | heq
    · rw [Nat.mod_eq_of_lt hlt, if_neg]
      simp
      omega
    · rw [heq, Nat.mod_self, if_pos (Or.inr rfl)]
  simp only [localIndices, hfin, hseg, if_true]
  simp only [List.length_singleton, List.range_one, List.flatMap_singleton, List.getElem?_cons_zero,
    Option.map_some, Option.some.injEq, segKey_node, hrows]

/-- The rows of the first segment, on the first node, of a column without rows. -/
theorem localIndices_of_empty (col : Column t) (hseg : col.segments = [segKey n id 0])
    (hfin : col.finalized = true) (hsize : col.size = 0) :
    col.localIndices 0 = some (List.range' 0 col.segmentCapacity) := by
  simp [localIndices, segIndices, hfin, hseg, hsize]

/-- What `local_indices` depends on. -/
theorem localIndices_congr (col col' : Column t) (hseg : col'.segments = col.segments)
    (hfin : col'.finalized = col.finalized) (hsize : col'.size = col.size)
    (hcap : col'.segmentCapacity = col.segmentCapacity) (node : Nat) :
    col'.localIndices node = col.localIndices node := by
  simp only [localIndices, segIndices, hseg, hfin, hsize, hcap]

/-- Columns of the default capacity read the same, whatever the names of their segments. -/
theorem sameColumn_of_default (puts : List (Key × Value)) (xs : List t.Elem)
    (hcap : c = defaultSegmentCapacity) :
    SameColumn n puts (filled t n id c xs) (rebuilt t n id c xs) := by
  have halike : Alike (filled t n id c xs) (rebuilt t n id c xs) := by
    refine ⟨rfl, rfl, rfl, hcap.symm, rfl, fun k hk hkey => ?_⟩
    obtain ⟨j, -, rfl⟩ := List.mem_map.1 hk
    rw [Key.equals_iff, segKey_k] at hkey
    exact absurd hkey (segName_ne_nil id j)
  exact ⟨rfl, fun _ _ _ => halike.getAll _, fun node _ =>
    localIndices_congr _ _ halike.segments halike.finalized halike.size halike.segmentCapacity node⟩

section

variable (hs : ∀ x ∈ xs, t.Storable x) (hlen : xs.length < 2 ^ 64) (hc : 0 < c)
include hs hlen hc

/-- Columns of one segment, which both capacities allow, read the values that were pushed. -/
theorem sameColumn_of_one (hpos : 0 < xs.length) (hle : xs.length ≤ c)
    (hled : xs.length ≤ defaultSegmentCapacity) :
    SameColumn n (segPuts t n id c xs (List.numChunks c xs.length)) (filled t n id c xs)
      (rebuilt t n id c xs) := by
  have hD : 0 < defaultSegmentCapacity := by decide
  have hone {k : Nat} (hk : xs.length ≤ k) : List.numChunks k xs.length = 1 := by
    rw [List.numChunks, Nat.div_eq_of_lt (by omega)]
  have hchunk {k : Nat} (hk : xs.length ≤ k) : xs.chunk k 0 = xs := by
    rw [List.chunk, Nat.zero_mul, List.drop_zero, List.take_of_length_le hk]
  have hagree {k : Nat} (hk : xs.length ≤ k) : Agree id k xs := by
    intro i hi j hj _
    rw [hone hk] at hi hj
    rw [Nat.lt_one_iff.1 hi, Nat.lt_one_iff.1 hj]
  have hmin {k : Nat} : t = .int ∨ min k xs.length ≤ 2 ^ 31 :=
    .inr ((Nat.min_le_right _ _).trans (hled.trans (by decide)))
  -- the segment is found at its key, whatever the capacity
  have hread (m₀ : Key → Option Value) {k i : Nat} (hk : xs.length ≤ k) (hi : i < xs.length) :
      Prog.writeAll (segPuts t n id c xs (List.numChunks c xs.length)) m₀ (segKey n id (i / k)) =
        some (t.encodeArray (xs.chunk k (i / k))) := by
    obtain ⟨l, -, hl, -, hw⟩ := exists_segment n id c m₀ xs (List.numChunks_pos c xs.length)
    rw [hone hle] at hl
    rw [Nat.div_eq_of_lt (hi.trans_le hk), hw, Nat.lt_one_iff.1 hl, hchunk hle, hchunk hk]
  have hrebuilt : Coherent n id defaultSegmentCapacity xs (rebuilt t n id c xs) := by
    refine ⟨by rw [hone hled, rebuilt, hone hle], rfl, rfl, fun j _ h => ?_⟩
    rw [segKey_k] at h
    exact absurd h (segName_ne_nil id j)
  have hseg : (filled t n id c xs).segments = [segKey n id 0] := by
    rw [filled, filling, hone hle]
    rfl
  refine ⟨rfl, fun m₀ is his => ?_, fun node _ => ?_⟩
  · have hcalls {k : Nat} (hk : xs.length ≤ k) : ∀ call ∈ is.map fun i =>
        (i, Prog.writeAll (segPuts t n id c xs (List.numChunks c xs.length)) m₀),
        call.1 < xs.length ∧ call.2 (segKey n id (call.1 / k)) =
          some (t.encodeArray (xs.chunk k (call.1 / k))) := by
      intro call hcall
      obtain ⟨i, hi, rfl⟩ := List.mem_map.1 hcall
      exact ⟨his i hi, hread m₀ hk (his i hi)⟩
    rw [hrebuilt.getAll_eq hD hs hlen (hagree hled) rfl hmin _ (hcalls hled),
      coherent_filled.getAll_eq hc hs hlen (hagree hle) rfl hmin _ (hcalls hle)]
  · rw [localIndices_of_one _ hseg rfl hpos hle, localIndices_of_one (rebuilt t n id c xs) hseg
      rfl hpos hled]
    rfl

omit hs hlen hc in
/-- A row that a column of the capacity `c` has, and that is not where one of the default
    capacity has it, whichever segment is at the key. -/
theorem exists_row (hc : 0 < c) (hcap : c ≠ defaultSegmentCapacity)
    (hlt : min c defaultSegmentCapacity < xs.length) :
    ∃ i < xs.length,
      (∀ l, i / c ≤ l → l < List.numChunks c xs.length →
        t.indexInSeg (i % c) < (xs.chunk c l).length) ∧
      ∀ l, i / defaultSegmentCapacity ≤ l → l < List.numChunks c xs.length →
        (xs.chunk c l).length ≤ i % defaultSegmentCapacity := by
  have hD : 0 < defaultSegmentCapacity := by decide
  have hD31 : 2 * defaultSegmentCapacity ≤ 2 ^ 31 := by decide
  have hzero : t.indexInSeg 0 = 0 := ColType.indexInSeg_of_lt (by decide)
  generalize defaultSegmentCapacity = d at *
  simp only [List.length_chunk, List.numChunks, Nat.lt_succ_iff]
  have hqc : (xs.length - 1) / c * c ≤ xs.length - 1 := Nat.div_mul_le_self _ _
  -- no segment is empty
  have hrow {l : Nat} (hl : l ≤ (xs.length - 1) / c) : 0 < min c (xs.length - l * c) := by
    have := Nat.mul_le_mul_right c hl
    omega
  rcases lt_or_gt_of_ne hcap with hcd | hcd
  · -- the first row of the second segment, looked for in the first
    refine ⟨c, by omega, fun l _ hl => ?_, fun l _ _ => ?_⟩
    · rw [Nat.mod_self, hzero]
      exact hrow hl
    · rw [Nat.mod_eq_of_lt hcd]
      exact Nat.min_le_left _ _
  · rcases le_or_gt xs.length c with hle | hgt
    · have hone : (xs.length - 1) / c = 0 := Nat.div_eq_of_lt (by omega)
      -- a row of the only segment, looked for in a second
      refine ⟨d, by omega, fun l _ hl => ?_, fun l hl hl' => ?_⟩
      · rw [Nat.mod_eq_of_lt hcd, ColType.indexInSeg_of_lt (by omega)]
        rw [hone, Nat.le_zero] at hl
        subst hl
        omega
      · rw [Nat.div_self hD] at hl
        omega
    · have hq : 1 ≤ (xs.length - 1) / c := Nat.div_pos (by omega) hc
      by_cases hint : t = .int ∨ c ≤ 2 ^ 31
      · -- the last row, looked for beyond the end of the last segment
        have hmod := Nat.div_add_mod (xs.length - 1) c
        rw [Nat.mul_comm] at hmod
        have hindex : t.indexInSeg ((xs.length - 1) % c) = (xs.length - 1) % c := by
          rcases hint with rfl | h31
          · rfl
          · exact ColType.indexInSeg_of_lt ((Nat.mod_lt _ hc).trans_le h31)
        refine ⟨xs.length - 1, by omega, fun l hl hl' => ?_, fun l hl hl' => ?_⟩
        · have hlt := Nat.mod_lt (xs.length - 1) hc
          rw [hindex, le_antisymm hl' hl]
          omega
        · have hle : (xs.length - 1) / c ≤ (xs.length - 1) / d := Nat.div_le_div_left hcd.le hD
          have heq : (xs.length - 1) / d = (xs.length - 1) / c := le_antisymm (hl.trans hl') hle
          have hmod' := Nat.div_add_mod (xs.length - 1) d
          rw [heq] at hmod'
          rw [le_antisymm hl' (hle.trans hl)]
          have hmul : (xs.length - 1) / c * (d + 1) ≤ (xs.length - 1) / c * c :=
            Nat.mul_le_mul_left _ hcd
          rw [Nat.mul_add, Nat.mul_one, Nat.mul_comm _ d] at hmul
          omega
      · -- the first row of the last segment, looked for beyond the segments
        rw [not_or, not_le] at hint
        refine ⟨(xs.length - 1) / c * c, by omega, fun l hl hl' => ?_, fun l hl hl' => ?_⟩
        · rw [Nat.mul_mod_left, hzero]
          exact hrow hl'
        · refine absurd (hl.trans hl') (not_le.2 ?_)
          rw [Nat.lt_iff_add_one_le, Nat.le_div_iff_mul_le hD]
          calc ((xs.length - 1) / c + 1) * d
              ≤ ((xs.length - 1) / c * 2) * d := Nat.mul_le_mul_right d (by omega)
            _ = (xs.length - 1) / c * (2 * d) := Nat.mul_assoc _ _ _
            _ ≤ (xs.length - 1) / c * c := Nat.mul_le_mul_left _ (by omega)

/-- A row that the column has, and the column rebuilt has not. -/
theorem exists_map_get_ne (hcap : c ≠ defaultSegmentCapacity)
    (hlt : min c defaultSegmentCapacity < xs.length) (m₀ : Key → Option Value) :
    ∃ i < xs.length,
      (((rebuilt t n id c xs).get i).run
        (Prog.writeAll (segPuts t n id c xs (List.numChunks c xs.length)) m₀)).map (·.1.1) = none ∧
      (((filled t n id c xs).get i).run
        (Prog.writeAll (segPuts t n id c xs (List.numChunks c xs.length)) m₀)).map (·.1.1) ≠
          none := by
  obtain ⟨i, hi, hin, hout⟩ := exists_row (t := t) hc hcap hlt
  refine ⟨i, hi, ?_, ?_⟩
  · rcases lt_or_ge (i / defaultSegmentCapacity) (List.numChunks c xs.length) with hj | hj
    · obtain ⟨l, hjl, hl, hget⟩ := coherent_rebuilt.exists_map_get rfl hs hlen hi hj m₀
      rw [hget, List.getElem?_eq_none_iff]
      have hlt := Nat.mod_lt i (show 0 < defaultSegmentCapacity by decide)
      exact (hout l hjl hl).trans_eq (ColType.indexInSeg_of_lt (hlt.trans (by decide))).symm
    · rw [coherent_rebuilt.get_eq_none hj]
      rfl
  · obtain ⟨l, hjl, hl, hget⟩ :=
      coherent_filled.exists_map_get rfl hs hlen hi (List.div_lt_numChunks hi) m₀
    rw [hget.trans (List.getElem?_eq_getElem (hin l hjl hl))]
    exact Option.some_ne_none _

/-- A column that is not the one rebuilt. -/
theorem not_sameColumn (hn : 0 < n) (hcap : c ≠ defaultSegmentCapacity)
    (hxs : xs.length = 0 ∨ min c defaultSegmentCapacity < xs.length) :
    ¬SameColumn n (segPuts t n id c xs (List.numChunks c xs.length)) (filled t n id c xs)
      (rebuilt t n id c xs) := by
  intro h
  rcases hxs with hnil | hlt
  · have hseg : (filled t n id c xs).segments = [segKey n id 0] := by
      rw [filled, filling, hnil]
      simp [List.numChunks]
    have hrows := h.localIndices 0 hn
    rw [localIndices_of_empty (filled t n id c xs) hseg rfl hnil,
      localIndices_of_empty (rebuilt t n id c xs) hseg rfl hnil, Option.some.injEq] at hrows
    have := congrArg List.length hrows
    rw [List.length_range', List.length_range'] at this
    exact hcap this.symm
  · obtain ⟨i, hi, hnone, hsome⟩ := exists_map_get_ne hs hlen hc hcap hlt fun _ => none
    have heq := h.get (fun _ => none) [i] (List.forall_mem_singleton.2 hi)
    rw [List.map_singleton, getAll_singleton, getAll_singleton, hnone, Option.map_none] at heq
    exact hsome (Option.map_eq_none_iff.1 heq.symm)

end

theorem length_colId_le (draws : Fin 10 → Fin 53) : (Eau2.colId draws).length ≤ 10 := by
  have hone : ∀ l ∈ (List.ofFn draws).map fun i : Fin 53 =>
      (cString [alpha.getD i 0]).length, l ≤ 1 := by
    intro l hl
    obtain ⟨i, -, rfl⟩ := List.mem_map.1 hl
    exact (List.takeWhile_sublist _).length_le
  have := List.sum_le_card_nsmul _ 1 hone
  rw [List.length_map, List.length_ofFn, Nat.nsmul_eq_mul, Nat.mul_one] at this
  rwa [Eau2.colId, List.length_flatMap]

theorem length_colId_lt (draws : Fin 10 → Fin 53) : (Eau2.colId draws).length < 2 ^ 64 :=
  (length_colId_le draws).trans_lt (by norm_num)

theorem rebuildsSame_iff_sameColumn {draws : Fin 10 → Fin 53} (hc : 0 < c)
    (hs : ∀ x ∈ xs, t.Storable x) (hlen : xs.length < 2 ^ 64) :
    RebuildsSame t n draws c xs ↔ Eau2.colId draws ≠ [] ∧
      SameColumn n (segPuts t n (Eau2.colId draws) c xs (List.numChunks c xs.length))
        (filled t n (Eau2.colId draws) c xs) (rebuilt t n (Eau2.colId draws) c xs) := by
  constructor
  · rintro ⟨puts, col, w, col', hfill, hser, hdes, h⟩
    rw [fill_eq hc draws hs, Prog.writes_putAll, Option.some.injEq, Prod.mk.injEq] at hfill
    obtain ⟨rfl, rfl⟩ := hfill
    have hid := ne_nil_of_serialize hser
    rw [serialize_filled hid hlen, Option.some.injEq] at hser
    subst hser
    rw [(decodes_rebuilt hid hlen (length_colId_lt draws)).run_eq, Option.some.injEq,
      Prod.mk.injEq] at hdes
    obtain ⟨rfl, -⟩ := hdes
    exact ⟨hid, h⟩
  · rintro ⟨hid, h⟩
    exact ⟨_, _, _, _, by rw [fill_eq hc draws hs, Prog.writes_putAll], serialize_filled hid hlen,
      (decodes_rebuilt hid hlen (length_colId_lt draws)).run_eq, h⟩

/-- The column rebuilt is the column serialized exactly when there is an id to
    serialize, and the capacity is the default one or all the values are in one
    segment, for both capacities. -/
theorem rebuildsSame_iff (t : ColType) (n : Nat) (draws : Fin 10 → Fin 53) (c : Nat)
    (xs : List t.Elem) (hn : 0 < n) (hc : 0 < c) (hs : ∀ x ∈ xs, t.Storable x)
    (hlen : xs.length < 2 ^ 64) :
    RebuildsSame t n draws c xs ↔ Eau2.colId draws ≠ [] ∧
      (c = defaultSegmentCapacity ∨
        0 < xs.length ∧ xs.length ≤ c ∧ xs.length ≤ defaultSegmentCapacity) := by
  rw [rebuildsSame_iff_sameColumn hc hs hlen]
  refine and_congr_right fun _ => ⟨fun h => ?_, ?_⟩
  · by_contra hnot
    refine not_sameColumn hs hlen hc hn (fun hcap => hnot (Or.inl hcap)) ?_ h
    have := fun h' => hnot (Or.inr h')
    omega
  · rintro (hcap | ⟨hpos, hle, hled⟩)
    · exact sameColumn_of_default _ xs hcap
    · exact sameColumn_of_one hs hlen hc hpos hle hled

theorem rebuildsSame_iff_ints : RebuildsSame .int 2 (fun _ => 0) 2 [5, 6, 7] ↔
    Eau2.colId (fun _ => 0) ≠ [] ∧ (2 = defaultSegmentCapacity ∨
      0 < [(5 : BitVec 32), 6, 7].length ∧ [(5 : BitVec 32), 6, 7].length ≤ 2 ∧
        [(5 : BitVec 32), 6, 7].length ≤ defaultSegmentCapacity) :=
  rebuildsSame_iff .int 2 (fun _ => 0) 2 [5, 6, 7] (by decide) (by decide) (fun _ _ => trivial)
    (by decide)

/-- A column of three integers in segments of two: the third is not found. -/
theorem rebuildsSame_fails : ¬RebuildsSame .int 1 (fun _ => 0) 2 [5, 6, 7] := by
  intro h
  have hs : ∀ x ∈ [(5 : BitVec 32), 6, 7], ColType.int.Storable x := fun _ _ => trivial
  rw [rebuildsSame_iff_sameColumn (by decide) hs (by decide)] at h
  exact not_sameColumn hs (by decide) (by decide) (by decide) (by decide) (by decide) h.2

end Column

end Eau2

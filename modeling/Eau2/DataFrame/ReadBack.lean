import Mathlib.Data.List.Nodup
import Eau2.DataFrame.Fill

/-!
# Reading a column

A column that reads the values `xs` from a store (`Coherent`) may hold any
segment in its cache, but only the values of that segment. This is what `get`
preserves, so the cache never serves a value of another segment, in whatever
order the values are read (`getAll_eq`).

What `get` makes of the index in a segment is another matter: all the columns
but that of integers keep it in an `int`. A column whose first segment has more
than `2 ^ 31` values cannot be read back (`readsBack_iff`).
-/

namespace Eau2

namespace ColType

variable {t : ColType}

theorem indexInSeg_of_lt {j : Nat} (h : j < 2 ^ 31) : t.indexInSeg j = j := by
  have hj : ((BitVec.ofNat 32 j).signExtend 64).toNat = j := by
    rw [BitVec.toNat_signExtend, BitVec.msb_eq_decide]
    simp only [BitVec.toNat_setWidth, BitVec.toNat_ofNat]
    split_ifs with h' <;> simp at h' <;> omega
  cases t
  · exact hj
  · rfl
  · exact hj
  · exact hj

/-- From `2 ^ 31` on, the index is negative as an `int`. -/
theorem le_indexInSeg {j : Nat} (ht : t ≠ .int) (h : 2 ^ 31 ≤ j) (hlt : j < 2 ^ 32) :
    t.indexInSeg j = j + (2 ^ 64 - 2 ^ 32) := by
  have hj : ((BitVec.ofNat 32 j).signExtend 64).toNat = j + (2 ^ 64 - 2 ^ 32) := by
    rw [BitVec.toNat_signExtend, BitVec.msb_eq_decide]
    simp only [BitVec.toNat_setWidth, BitVec.toNat_ofNat]
    split_ifs with h' <;> simp at h' <;> omega
  cases t
  · exact hj
  · exact absurd rfl ht
  · exact hj
  · exact hj

end ColType

namespace Column

variable {t : ColType} {n c : Nat} {id : Bytes} {xs : List t.Elem} {col : Column t}

/-- The column has the segments of `xs`, and in its cache nothing but values of
    the segment it says. -/
structure Coherent (n : Nat) (id : Bytes) (c : Nat) (xs : List t.Elem) (col : Column t) : Prop where
  segments : col.segments = (List.range (List.numChunks c xs.length)).map (segKey n id)
  finalized : col.finalized = true
  size : col.size = xs.length
  cache : ∀ j < List.numChunks c xs.length, (segKey n id j).k = col.cacheKey.k →
    col.cache.items = xs.chunk c j

/-- The names of the segments are distinct. -/
def Distinct (id : Bytes) (k : Nat) : Prop := ((List.range k).map (segName id)).Nodup

instance (id : Bytes) (k : Nat) : Decidable (Distinct id k) :=
  inferInstanceAs (Decidable (List.Nodup _))

theorem segKey_k (n : Nat) (id : Bytes) (j : Nat) : (segKey n id j).k = segName id j := by
  refine cString_of_not_mem fun h => ?_
  have := List.mem_of_mem_take h
  rw [List.mem_append, List.mem_append] at this
  rcases this with (h | h) | h
  · simpa using List.mem_takeWhile_imp h
  · exact absurd h (by decide)
  · exact zero_not_mem_decimal j h

theorem segName_ne_nil (id : Bytes) (j : Nat) : segName id j ≠ [] := by
  simp [segName, lit]

theorem Distinct.eq {k i j : Nat} (h : Distinct id k) (hi : i < k) (hj : j < k)
    (heq : (segKey n id i).k = (segKey n id j).k) : i = j := by
  rw [segKey_k, segKey_k] at heq
  exact List.inj_on_of_nodup_map h (List.mem_range.2 hi) (List.mem_range.2 hj) heq

/-- Segments of the same name have the same values. -/
def Agree {t : ColType} (id : Bytes) (c : Nat) (xs : List t.Elem) : Prop :=
  ∀ i < List.numChunks c xs.length, ∀ j < List.numChunks c xs.length,
    segName id i = segName id j → xs.chunk c i = xs.chunk c j

theorem Distinct.agree (h : Distinct id (List.numChunks c xs.length)) : Agree id c xs := by
  intro i hi j hj heq
  rw [List.inj_on_of_nodup_map h (List.mem_range.2 hi) (List.mem_range.2 hj) heq]

theorem coherent_filled : Coherent n id c xs (filled t n id c xs) where
  segments := rfl
  finalized := rfl
  size := rfl
  cache j _ h := by
    rw [segKey_k] at h
    exact absurd h (segName_ne_nil id j)

/-- The segment at a key is the last one that was put there. -/
theorem exists_segment (n : Nat) (id : Bytes) (c : Nat) (m₀ : Key → Option Value) {t : ColType}
    (xs : List t.Elem) {j k : Nat} (hj : j < k) :
    ∃ i, j ≤ i ∧ i < k ∧ segKey n id i = segKey n id j ∧
      Prog.writeAll (segPuts t n id c xs k) m₀ (segKey n id j) =
        some (t.encodeArray (xs.chunk c i)) :=
  Prog.writeAll_map (segPut t n id c xs) m₀ hj

/-- After `fetch`, the cache is the segment asked for. -/
theorem Coherent.fetch (h : Coherent n id c xs col) (ha : Agree id c xs)
    (hs : ∀ x ∈ xs, t.Storable x) (hlen : xs.length < 2 ^ 64) {j : Nat}
    (hj : j < List.numChunks c xs.length) {m : Key → Option Value}
    (hm : m (segKey n id j) = some (t.encodeArray (xs.chunk c j))) :
    ∃ col', (col.fetch (segKey n id j)).run m = some (col', m) ∧ Coherent n id c xs col' ∧
      col'.segmentCapacity = col.segmentCapacity ∧ col'.cache.items = xs.chunk c j := by
  by_cases hk : (segKey n id j).k = col.cacheKey.k
  · refine ⟨col, ?_, h, rfl, h.cache j hj hk⟩
    rw [Column.fetch, if_pos (Key.equals_iff.2 hk)]
    rfl
  · have hchunk : (xs.chunk c j).length < 2 ^ 64 := by
      have := List.length_take_le' c (xs.drop (j * c))
      rw [List.length_drop] at this
      rw [List.chunk]
      omega
    refine ⟨{ col with cache := ⟨xs.chunk c j, (xs.chunk c j).length⟩, cacheKey := segKey n id j },
      ?_, ⟨h.segments, h.finalized, h.size, ?_⟩, rfl, rfl⟩
    · rw [Column.fetch, if_neg (fun hn => hk (Key.equals_iff.1 hn)), Prog.run_get hm,
        (ColType.decodes_array hchunk (storable_chunk hs j)).run_eq]
      rfl
    · intro i hi heq
      rw [segKey_k, segKey_k] at heq
      exact ha j hj i hi heq.symm

/-- `get` of an index whose segment is fetched. -/
theorem get_of_fetch {col' : Column t} {i : Nat} {k : Key} {m : Key → Option Value}
    (hi : i < col.size)
    (hfin : col.finalized = true) (hk : col.segments[i / col.segmentCapacity]? = some k)
    (hfetch : (col.fetch k).run m = some (col', m)) :
    (col.get i).run m =
      (col'.cache.items[t.indexInSeg (i % col'.segmentCapacity)]?).map fun x => ((x, col'), m) := by
  rw [Column.get, Prog.assert_true hi, Prog.ret_bind, Prog.assert_true hfin, Prog.ret_bind, hk,
    Prog.ofOption_some, Prog.ret_bind, Prog.run_bind, hfetch, Option.bind_some, BaseArray.get]
  cases col'.cache.items[t.indexInSeg (i % col'.segmentCapacity)]? <;> rfl

/-- `get` of a column that has no segment in its cache. -/
theorem Coherent.get_of_stored (h : Coherent n id c xs col) (hkey : col.cacheKey = .empty) {i : Nat}
    (hi : i < xs.length) (hj : i / col.segmentCapacity < List.numChunks c xs.length)
    {ys : List t.Elem} (hs : ∀ y ∈ ys, t.Storable y) (hys : ys.length < 2 ^ 64)
    {m : Key → Option Value}
    (hm : m (segKey n id (i / col.segmentCapacity)) = some (t.encodeArray ys)) :
    (col.get i).run m = (ys[t.indexInSeg (i % col.segmentCapacity)]?).map fun x =>
      ((x, { col with
        cache := ⟨ys, ys.length⟩, cacheKey := segKey n id (i / col.segmentCapacity) }), m) := by
  have hseg : col.segments[i / col.segmentCapacity]? =
      some (segKey n id (i / col.segmentCapacity)) := by
    rw [h.segments, List.getElem?_map, List.getElem?_range hj, Option.map_some]
  have hne : ¬(segKey n id (i / col.segmentCapacity)).equals col.cacheKey = true := by
    rw [hkey, Key.equals_iff, segKey_k]
    exact segName_ne_nil id _
  refine get_of_fetch (h.size ▸ hi) h.finalized hseg ?_
  rw [Column.fetch, if_neg hne, Prog.run_get hm, (ColType.decodes_array hys hs).run_eq]
  rfl

/-- `get` of an index whose segment, for the capacity of the column, is one of
    its segments. -/
theorem Coherent.get (h : Coherent n id c xs col) (ha : Agree id c xs)
    (hs : ∀ x ∈ xs, t.Storable x) (hlen : xs.length < 2 ^ 64) {i : Nat} (hi : i < xs.length)
    (hj : i / col.segmentCapacity < List.numChunks c xs.length) {m : Key → Option Value}
    (hm : m (segKey n id (i / col.segmentCapacity)) =
      some (t.encodeArray (xs.chunk c (i / col.segmentCapacity)))) :
    ∃ col', Coherent n id c xs col' ∧ col'.segmentCapacity = col.segmentCapacity ∧
      (col.get i).run m =
        ((xs.chunk c (i / col.segmentCapacity))[t.indexInSeg (i % col.segmentCapacity)]?).map
          fun x => ((x, col'), m) := by
  obtain ⟨col', hrun, hcol', hcap, hcache⟩ := h.fetch ha hs hlen hj hm
  have hseg : col.segments[i / col.segmentCapacity]? =
      some (segKey n id (i / col.segmentCapacity)) := by
    rw [h.segments, List.getElem?_map, List.getElem?_range hj, Option.map_some]
  refine ⟨col', hcol', hcap, ?_⟩
  rw [get_of_fetch (h.size ▸ hi) h.finalized hseg hrun, hcache, hcap]

/-- `get` of an index beyond the segments of the column. -/
theorem Coherent.get_eq_none (h : Coherent n id c xs col) {i : Nat}
    (hj : List.numChunks c xs.length ≤ i / col.segmentCapacity) (m : Key → Option Value) :
    (col.get i).run m = none := by
  have hseg : col.segments[i / col.segmentCapacity]? = none := by
    rw [h.segments, List.getElem?_eq_none]
    rwa [List.length_map, List.length_range]
  rw [Column.get, hseg]
  by_cases hi : i < col.size
  · rw [Prog.assert_true hi, Prog.ret_bind, Prog.assert_true h.finalized]
    rfl
  · rw [Prog.assert_false hi]
    rfl

/-- The values of the calls `get(i)`, made one after the other, each on the
    store it comes with. -/
def getAll : Column t → List (Nat × (Key → Option Value)) → Option (List t.Elem)
  | _, [] => some []
  | col, (i, m) :: calls => do
    let r ← (col.get i).run m
    let xs ← getAll r.1.2 calls
    return r.1.1 :: xs

/-- What a column filled with `xs` should be: of the size of `xs`, its segments on
    the nodes in turn, of `c` values but the last, and such that `get` returns the
    values of `xs` in whatever order they are asked for, if the segment is in the
    store by then. -/
structure ReadsBack (n c : Nat) (xs : List t.Elem) (puts : List (Key × Value)) (col : Column t) :
    Prop where
  size : col.size = xs.length
  length_segments : col.segments.length = max 1 ((xs.length + c - 1) / c)
  node : ∀ j k, col.segments[j]? = some k → k.node = j % n
  keys : puts.map Prod.fst = col.segments
  full : ∀ j < col.segments.length - 1, ∃ kv a, puts[j]? = some kv ∧
    t.deserializeArray.run kv.2 = some (a, []) ∧ a.size = c
  getAll : ∀ calls : List (Nat × (Key → Option Value)),
    (∀ call ∈ calls, call.1 < xs.length ∧
      ∀ kv, puts[call.1 / c]? = some kv → call.2 kv.1 = some kv.2) →
    col.getAll calls = calls.mapM fun call => xs[call.1]?

section

variable (hc : 0 < c) (hs : ∀ x ∈ xs, t.Storable x) (hlen : xs.length < 2 ^ 64)
include hc hs hlen

theorem Coherent.getAll_eq (ha : Agree id c xs) (h : Coherent n id c xs col)
    (hcap : col.segmentCapacity = c)
    (hint : t = .int ∨ min c xs.length ≤ 2 ^ 31) (calls : List (Nat × (Key → Option Value)))
    (hcalls : ∀ call ∈ calls, call.1 < xs.length ∧
      call.2 (segKey n id (call.1 / c)) = some (t.encodeArray (xs.chunk c (call.1 / c)))) :
    col.getAll calls = calls.mapM fun call => xs[call.1]? := by
  induction calls generalizing col with
  | nil => rfl
  | cons call calls ih =>
    rw [List.forall_mem_cons] at hcalls
    obtain ⟨⟨hi, hm⟩, hcalls⟩ := hcalls
    -- the index fits the `int` that the columns of the other types make of it
    have hindex : t.indexInSeg (call.1 % c) = call.1 % c := by
      rcases hint with rfl | hmin
      · rfl
      · refine ColType.indexInSeg_of_lt ?_
        have h₁ := Nat.mod_lt call.1 hc
        have h₂ := Nat.mod_le call.1 c
        omega
    subst hcap
    obtain ⟨col', hcol', hcap', hrun⟩ := h.get ha hs hlen hi (List.div_lt_numChunks hi) hm
    rw [hindex, List.getElem?_chunk hc, List.getElem?_eq_getElem hi, Option.map_some] at hrun
    rw [Column.getAll, hrun, Option.bind_eq_bind, Option.bind_some, ih hcol' hcap' hcalls,
      List.mapM_cons, List.getElem?_eq_getElem hi]
    rfl

variable (hd : Distinct id (List.numChunks c xs.length))
include hd

theorem readsBack_filled (hint : t = .int ∨ min c xs.length ≤ 2 ^ 31) :
    ReadsBack n c xs (segPuts t n id c xs (List.numChunks c xs.length)) (filled t n id c xs) where
  size := rfl
  length_segments := by
    rw [← List.numChunks_eq hc]
    simp [filled, filling]
  node j k hk := by
    obtain ⟨hj, rfl⟩ := List.getElem?_eq_some_iff.1 hk
    simp [filled, filling]
  keys := by simp [segPuts, segPut, filled, filling, Function.comp_def]
  full j hj := by
    have hk : (filled t n id c xs).segments.length = List.numChunks c xs.length := by
      simp [filled, filling]
    rw [hk] at hj
    have hchunk := List.length_chunk_of_lt hj
    have hle : c ≤ xs.length := by
      rw [List.length_chunk] at hchunk
      omega
    refine ⟨segPut t n id c xs j, ⟨xs.chunk c j, _⟩, getElem?_segPuts (by omega),
      (ColType.decodes_array ?_ (storable_chunk hs j)).run_eq, hchunk⟩
    omega
  getAll calls hcalls := by
    refine Coherent.getAll_eq hc hs hlen hd.agree coherent_filled rfl hint calls fun call hmem => ?_
    obtain ⟨hi, hm⟩ := hcalls call hmem
    exact ⟨hi, hm _ (getElem?_segPuts (List.div_lt_numChunks hi))⟩

/-- The values of a segment from the index `2 ^ 31` on cannot be read. -/
theorem not_readsBack_filled (hc64 : c < 2 ^ 64) (hint : t ≠ .int)
    (hmin : 2 ^ 31 < min c xs.length) :
    ¬ReadsBack n c xs (segPuts t n id c xs (List.numChunks c xs.length)) (filled t n id c xs) := by
  intro h
  obtain ⟨i, hi⟩ : ∃ i, i = min (min c xs.length) (2 ^ 32) - 1 := ⟨_, rfl⟩
  have hic : i < c := by omega
  have hixs : i < xs.length := by omega
  have hdiv : i / c = 0 := Nat.div_eq_of_lt hic
  have hget := h.getAll [(i, fun _ => some (t.encodeArray (xs.chunk c 0)))] <| by
    refine List.forall_mem_singleton.2 ⟨hixs, fun kv hkv => ?_⟩
    rw [hdiv, getElem?_segPuts (List.numChunks_pos c _), Option.some.injEq] at hkv
    rw [← hkv]
    rfl
  obtain ⟨col', -, -, hrun⟩ := (coherent_filled (t := t) (n := n) (c := c)).get
    hd.agree hs hlen hixs
    (List.div_lt_numChunks hixs) (m := fun _ => some (t.encodeArray (xs.chunk c 0)))
    (by rw [show (filled t n id c xs).segmentCapacity = c from rfl, hdiv])
  have hindex : (xs.chunk c 0).length ≤ t.indexInSeg i := by
    have := ColType.le_indexInSeg hint (j := i) (by omega) (by omega)
    rw [List.length_chunk, this]
    omega
  rw [show (filled t n id c xs).segmentCapacity = c from rfl, hdiv, Nat.mod_eq_of_lt hic,
    List.getElem?_eq_none hindex] at hrun
  rw [Column.getAll, hrun, List.mapM_cons, List.getElem?_eq_getElem hixs] at hget
  cases hget

end

/-- The column created, filled with `xs` and finalized reads back as it should. -/
def FillsBack (t : ColType) (n : Nat) (draws : Fin 10 → Fin 53) (c : Nat) (xs : List t.Elem) :
    Prop :=
  ∃ puts col, (fill t n draws c xs).writes = some (puts, col) ∧ ReadsBack n c xs puts col

section

variable {draws : Fin 10 → Fin 53}

theorem fillsBack_iff_readsBack (hc : 0 < c) (hs : ∀ x ∈ xs, t.Storable x) :
    FillsBack t n draws c xs ↔
      ReadsBack n c xs (segPuts t n (Eau2.colId draws) c xs (List.numChunks c xs.length))
        (filled t n (Eau2.colId draws) c xs) := by
  rw [FillsBack, fill_eq hc draws hs, Prog.writes_putAll]
  constructor
  · rintro ⟨puts, col, heq, h⟩
    rw [Option.some.injEq, Prod.mk.injEq] at heq
    rwa [heq.1, heq.2]
  · exact fun h => ⟨_, _, rfl, h⟩

end

/-- A column reads back, whatever is pushed to it, exactly when it is a column of
    integers or its segments have at most `2 ^ 31` values. -/
theorem fillsBack_iff (t : ColType) (n : Nat) (draws : Fin 10 → Fin 53) (c : Nat) (xs : List t.Elem)
    (hc : 0 < c) (hc64 : c < 2 ^ 64) (hs : ∀ x ∈ xs, t.Storable x) (hlen : xs.length < 2 ^ 64)
    (hd : Distinct (Eau2.colId draws) (List.numChunks c xs.length)) :
    FillsBack t n draws c xs ↔ t = .int ∨ min c xs.length ≤ 2 ^ 31 := by
  rw [fillsBack_iff_readsBack hc hs]
  refine ⟨fun h => ?_, readsBack_filled hc hs hlen hd⟩
  by_contra hnot
  rw [not_or, not_le] at hnot
  exact not_readsBack_filled hc hs hlen hd hc64 hnot.1 hnot.2 h

theorem fillsBack_iff_ints : FillsBack .int 2 (fun _ => 0) 2 [5, 6, 7] ↔
    ColType.int = .int ∨ min 2 [(5 : BitVec 32), 6, 7].length ≤ 2 ^ 31 :=
  fillsBack_iff .int 2 (fun _ => 0) 2 [5, 6, 7] (by decide) (by decide)
    (fun _ _ => trivial) (by decide)
    (by decide)

/-- A column of `2 ^ 31 + 1` booleans, all in one segment, the last of which
    cannot be read. -/
theorem fillsBack_fails :
    Distinct (Eau2.colId fun _ => 0)
    (List.numChunks (2 ^ 31 + 1) (List.replicate (2 ^ 31 + 1) true).length) ∧
      ¬FillsBack .bool 1 (fun _ => 0) (2 ^ 31 + 1) (List.replicate (2 ^ 31 + 1) true) := by
  have hlen : (List.replicate (2 ^ 31 + 1) true).length = 2 ^ 31 + 1 := List.length_replicate
  generalize List.replicate (2 ^ 31 + 1) true = xs at hlen
  have hc : 0 < 2 ^ 31 + 1 := by decide
  have hs : ∀ x ∈ xs, ColType.bool.Storable x := fun _ _ => trivial
  have hd : Distinct (Eau2.colId fun _ => 0) (List.numChunks (2 ^ 31 + 1) xs.length) := by
    rw [show List.numChunks (2 ^ 31 + 1) xs.length = 1 by rw [hlen]; decide]
    decide
  refine ⟨hd, fun h => ?_⟩
  rw [fillsBack_iff_readsBack hc hs] at h
  exact not_readsBack_filled hc hs (by omega) hd (by decide) (by decide) (by omega) h

end Column

end Eau2

import Mathlib.Data.Nat.Digits.Lemmas
import Eau2.DataFrame.Effects
import Eau2.DataFrame.Rebuild

/-!
# The names of the segments of a column

The name of a segment is the id of the column, a `_` and the number of the segment,
cut at 14 bytes. The id takes up to ten of them, so that there is room for three digits
and one more for each letter that the id falls short of ten. The names are distinct as
long as the numbers fit (`distinct_iff`); the first one that does not fit gives the name
of the segment of a tenth of its number.

Main result: `Column.apart_iff`, for which columns the store and the cache tell the
segments apart.
-/

namespace Eau2

/-! ## Numbers in decimal -/

theorem decimal_ten_mul {n : Nat} (h : 0 < n) : decimal (10 * n) = decimal n ++ [digit 0] := by
  rw [decimal, decimal, if_neg (by omega), if_neg h.ne', Nat.digits_base_mul (by norm_num) h,
    List.reverse_cons, List.map_append, List.map_singleton]

theorem length_decimal_le_iff {n k : Nat} (hk : 0 < k) : (decimal n).length ≤ k ↔ n < 10 ^ k := by
  rw [decimal]
  split_ifs with hn
  · rw [List.length_singleton, hn]
    exact iff_of_true hk (by positivity)
  · rw [List.length_map, List.length_reverse]
    exact Nat.digits_length_le_iff (by norm_num) n

theorem length_decimal_pow (k : Nat) : (decimal (10 ^ k)).length = k + 1 := by
  induction k with
  | zero => rfl
  | succ k ih =>
    rw [pow_succ', decimal_ten_mul (by positivity), List.length_append, ih, List.length_singleton]

/-! ## Names of segments -/

theorem cString_colId (draws : Fin 10 → Fin 53) : cString (colId draws) = colId draws := by
  refine cString_of_not_mem fun h => ?_
  obtain ⟨i, -, hi⟩ := List.mem_flatMap.1 h
  simpa using List.mem_takeWhile_imp hi

/-- The ids of columns are of letters. -/
theorem not_mem_colId (draws : Fin 10 → Fin 53) : 95 ∉ colId draws := by
  have halpha : ∀ i : Fin 53, 95 ∉ cString [alpha.getD i 0] := by decide
  intro h
  obtain ⟨i, -, hi⟩ := List.mem_flatMap.1 h
  exact halpha i hi

namespace Column

variable {id : Bytes} {k : Nat}

theorem segName_eq (hid : (cString id).length ≤ 13) (j : Nat) :
    segName id j = cString id ++ lit "_" ++ (decimal j).take (13 - (cString id).length) := by
  have hlen : (cString id ++ lit "_").length = (cString id).length + 1 := List.length_append
  rw [segName, List.take_append, hlen, List.take_of_length_le (by omega)]
  exact congrArg (fun m => cString id ++ lit "_" ++ (decimal j).take m) (by omega)

theorem segName_inj (hid : (cString id).length ≤ 13) (i j : Nat) :
    segName id i = segName id j ↔ (decimal i).take (13 - (cString id).length) =
      (decimal j).take (13 - (cString id).length) := by
  rw [segName_eq hid, segName_eq hid]
  exact List.append_right_inj _

/-- The names are distinct as long as the numbers of the segments fit. -/
theorem distinct_iff (hid : (cString id).length ≤ 12) :
    Distinct id k ↔ k ≤ 10 ^ (13 - (cString id).length) := by
  obtain ⟨d, hd⟩ : ∃ d, 13 - (cString id).length = d + 1 := ⟨12 - (cString id).length, by omega⟩
  have hinj := segName_inj (show (cString id).length ≤ 13 by omega)
  rw [hd] at hinj ⊢
  constructor
  · intro h
    by_contra hlt
    -- the numbers `10 ^ d` and `10 ^ (d + 1)` have the same first digits
    have hpow : 10 ^ d < 10 ^ (d + 1) := Nat.pow_lt_pow_right (by norm_num) (Nat.lt_succ_self d)
    have heq : segName id (10 ^ (d + 1)) = segName id (10 ^ d) := by
      rw [hinj, pow_succ', decimal_ten_mul (by positivity),
        List.take_append_of_le_length (length_decimal_pow d).ge]
    have := List.inj_on_of_nodup_map h (List.mem_range.2 (by omega))
      (List.mem_range.2 (by omega)) heq
    omega
  · intro h
    refine List.nodup_range.map_on fun i hi j hj heq => ?_
    rw [List.mem_range] at hi hj
    have hi' := (length_decimal_le_iff (Nat.succ_pos d)).2 (hi.trans_le h)
    have hj' := (length_decimal_le_iff (Nat.succ_pos d)).2 (hj.trans_le h)
    rw [hinj, List.take_of_length_le hi', List.take_of_length_le hj'] at heq
    exact decimal_injective heq

theorem distinct_colId_iff (draws : Fin 10 → Fin 53) :
    Distinct (Eau2.colId draws) k ↔ k ≤ 10 ^ (13 - (Eau2.colId draws).length) := by
  have hlen := length_colId_le draws
  rw [distinct_iff (by rw [cString_colId]; omega), cString_colId]

/-- The id of a column of ten letters or less leaves room for three digits. -/
theorem segName_colId (draws : Fin 10 → Fin 53) {j : Nat} (hj : j < 1000) :
    segName (Eau2.colId draws) j = Eau2.colId draws ++ lit "_" ++ decimal j := by
  have hid := length_colId_le draws
  have hlen : (decimal j).length ≤ 3 := (length_decimal_le_iff (by norm_num)).2 hj
  rw [segName_eq (by rw [cString_colId]; omega), cString_colId, List.take_of_length_le (by omega)]

theorem isPrefixOf_segName (draws : Fin 10 → Fin 53) (j : Nat) :
    (Eau2.colId draws ++ lit "_").isPrefixOf (segName (Eau2.colId draws) j) = true := by
  have hid := length_colId_le draws
  rw [List.isPrefixOf_iff_prefix, segName_eq (by rw [cString_colId]; omega), cString_colId]
  exact List.prefix_append _ _

/-- The id of a column and the number of a segment can be read back from the name. -/
theorem segName_colId_inj {draws draws' : Fin 10 → Fin 53} {i j : Nat} (hi : i < 1000)
    (hj : j < 1000) (h : segName (Eau2.colId draws) i = segName (Eau2.colId draws') j) :
    Eau2.colId draws = Eau2.colId draws' ∧ i = j := by
  have hname (draws : Fin 10 → Fin 53) {j : Nat} (hj : j < 1000) :
      segName (Eau2.colId draws) j = Eau2.colId draws ++ 95 :: decimal j := by
    rw [segName_colId draws hj, List.append_assoc]
    rfl
  have hdigits : 95 ∉ decimal i := not_mem_decimal (fun d hd => by interval_cases d <;> decide) i
  rw [hname draws hi, hname draws' hj, List.append_cons_inj_of_notMem
    (not_mem_colId draws) hdigits] at h
  exact ⟨h.1, decimal_injective h.2.2⟩

/-! ## Segments told apart -/

variable {t : ColType} {n c : Nat} {xs : List t.Elem} {col col' : Column t} {last : Option Nat}
  {puts : List (Key × Value)}

/-- What `get` makes of a column, call after call, whatever it finds in the store: the
    index read last, and the column then. -/
inductive Read (col : Column t) : Option Nat → Column t → Prop
  | start : Read col none col
  | get {last col' idx x col'' m m'} (h : Read col last col')
    (hget : (col'.get idx).run m = some ((x, col''), m')) : Read col (some idx) col''

/-- The segments of the column, for which `puts` have been made, are told apart: their
    keys are pairwise different, no `put` replaces what another has put, and the test of
    `get` takes the segment in the cache for itself only, that of the index read last. -/
structure Apart (puts : List (Key × Value)) (col : Column t) : Prop where
  keys : col.segments.Pairwise fun k k' => k.equals k' = false
  store : puts.Pairwise fun kv kv' => kv.1.equals kv'.1 = false
  cache : ∀ last col', Read col last col' → ∀ idx k,
    col.segments[idx / col.segmentCapacity]? = some k → k.equals col'.cacheKey = true →
    ∃ i, last = some i ∧ i / col.segmentCapacity = idx / col.segmentCapacity

/-- The cache has the key of the segment of the index read last, or none. -/
theorem Read.cacheKey (h : Read col last col') :
    col'.segments = col.segments ∧ col'.segmentCapacity = col.segmentCapacity ∧
      ((last = none ∧ col'.cacheKey = col.cacheKey) ∨ ∃ i k, last = some i ∧
        col.segments[i / col.segmentCapacity]? = some k ∧ k.equals col'.cacheKey = true) := by
  induction h with
  | start => exact ⟨rfl, rfl, .inl ⟨rfl, rfl⟩⟩
  | get h hget ih =>
    obtain ⟨hseg, hcap, -⟩ := ih
    obtain ⟨hsame, k, hk, hkey⟩ := (get_fetches fun k _ => Set.mem_univ k).of_run hget
    rw [hseg, hcap] at hk
    exact ⟨hsame.segments.trans hseg, hsame.segmentCapacity.trans hcap,
      .inr ⟨_, k, rfl, hk, hkey⟩⟩

theorem pairwise_segKey : ((List.range k).map (segKey n id)).Pairwise
    (fun k k' => k.equals k' = false) ↔ Distinct id k := by
  rw [Distinct, List.Nodup, List.pairwise_map, List.pairwise_map]
  refine List.Pairwise.iff fun i j => ?_
  rw [← Bool.not_eq_true, Key.equals_iff, segKey_k, segKey_k]

theorem pairwise_filled (t : ColType) (n : Nat) (id : Bytes) (c : Nat) (xs : List t.Elem) :
    (filled t n id c xs).segments.Pairwise (fun k k' => k.equals k' = false) ↔
      Distinct id (List.numChunks c xs.length) := pairwise_segKey

/-- A column whose `puts` are of its segments, and that has not been read yet, tells its
    segments apart if their names are distinct. -/
theorem apart_filled (hputs : puts.map Prod.fst = (filled t n id c xs).segments) :
    Apart puts (filled t n id c xs) ↔ Distinct id (List.numChunks c xs.length) := by
  have hkeys := pairwise_filled t n id c xs
  refine ⟨fun h => hkeys.1 h.keys, fun h => ⟨hkeys.2 h, ?_, ?_⟩⟩
  · have hpair := hkeys.2 h
    rwa [← hputs, List.pairwise_map] at hpair
  · intro last col' hread idx k hk heq
    have hget {i : Nat} {k : Key} (hi : (filled t n id c xs).segments[i]? = some k) :
        i < List.numChunks c xs.length ∧ k = segKey n id i := by
      obtain ⟨j, hj, rfl⟩ := Option.map_eq_some_iff.1 (List.getElem?_map.symm.trans hi)
      obtain ⟨hlt, rfl⟩ := List.getElem?_eq_some_iff.1 hj
      rw [List.length_range] at hlt
      exact ⟨hlt, by rw [List.getElem_range]⟩
    obtain ⟨hlt, rfl⟩ := hget hk
    obtain ⟨-, -, ⟨-, hnone⟩ | ⟨i, k', hlast, hk', hcache⟩⟩ := hread.cacheKey
    · rw [Key.equals_iff, hnone, segKey_k] at heq
      exact absurd heq (segName_ne_nil id _)
    · obtain ⟨hlt', rfl⟩ := hget hk'
      rw [Key.equals_iff] at heq hcache
      exact ⟨i, hlast, h.eq hlt' hlt (hcache.trans heq.symm)⟩

/-- Nothing can be pushed to a column without capacity. -/
theorem eq_nil_of_writes {draws : Fin 10 → Fin 53}
    (hw : (xs.foldlM (pushBack n) (new t n draws 0)).writes = some (puts, col)) : xs = [] := by
  cases xs with
  | nil => rfl
  | cons x xs =>
    rw [List.foldlM_cons] at hw
    obtain ⟨_, _, _, hpush, -, -⟩ := Prog.writes_bind_eq_some.1 hw
    obtain ⟨_, _, _, -, hpush, -⟩ := Prog.writes_bind_eq_some.1 hpush
    obtain ⟨_, col₁, _, hroom, hcache, -⟩ := Prog.writes_bind_eq_some.1 hpush
    obtain ⟨_, _, _, hcache, -, -⟩ := Prog.writes_bind_eq_some.1 hcache
    have hfull : (new t n draws 0).size =
      (new t n draws 0).segments.length * (new t n draws 0).segmentCapacity := rfl
    rw [makeRoom, if_pos hfull] at hroom
    obtain ⟨_, _, _, -, hexpand, -⟩ := Prog.writes_bind_eq_some.1 hroom
    cases hexpand
    cases (Prog.writes_ofOption.1 hcache).1

/-- The column to which `xs` have been pushed, whatever its capacity. -/
theorem of_writes_foldlM {draws : Fin 10 → Fin 53}
    (hw : (xs.foldlM (pushBack n) (new t n draws c)).writes = some (puts, col)) :
    (c = 0 → xs = []) ∧ col = filling t n (Eau2.colId draws) c xs := by
  rcases Nat.eq_zero_or_pos c with rfl | hc
  · obtain rfl := eq_nil_of_writes hw
    rw [List.foldlM_nil, new_eq] at hw
    cases hw
    exact ⟨fun _ => rfl, rfl⟩
  · exact ⟨fun h => absurd h hc.ne', eq_of_writes_foldlM hc draws hw⟩

/-- The column that has been filled, and the keys it has put. -/
theorem of_writes_fill {draws : Fin 10 → Fin 53}
    (hw : (fill t n draws c xs).writes = some (puts, col)) :
    (c = 0 → xs = []) ∧ col = filled t n (Eau2.colId draws) c xs ∧
      puts.map Prod.fst = col.segments := by
  obtain ⟨_, _, _, hpush, -, -⟩ := Prog.writes_bind_eq_some.1 hw
  have hzero := (of_writes_foldlM hpush).1
  refine ⟨hzero, ?_⟩
  rcases Nat.eq_zero_or_pos c with rfl | hc
  · obtain rfl := hzero rfl
    rw [fill, List.foldlM_nil, new_eq, Prog.pure_eq, Prog.ret_bind,
      finalize_filling (List.forall_mem_nil _), Prog.writes_putAll] at hw
    cases hw
    exact ⟨rfl, by simp [segPut, filled, filling, List.numChunks]⟩
  · obtain ⟨-, rfl, rfl⟩ := (writes_fill hc draws).1 hw
    exact ⟨rfl, List.map_map⟩

/-- The names of as many segments as the values take are distinct exactly when their
    numbers fit. -/
theorem distinct_numChunks_iff {draws : Fin 10 → Fin 53} (h : c = 0 → xs = []) :
    Distinct (Eau2.colId draws) (List.numChunks c xs.length) ↔
      xs.length ≤ c * 10 ^ (13 - (Eau2.colId draws).length) := by
  rw [distinct_colId_iff]
  have hpos : 0 < 10 ^ (13 - (Eau2.colId draws).length) := by positivity
  rcases Nat.eq_zero_or_pos c with hc | hc
  · rw [h hc, hc, List.length_nil, List.numChunks, Nat.zero_sub, Nat.zero_div]
    exact iff_of_true hpos (Nat.zero_le _)
  · exact List.numChunks_le_iff hc hpos

/-- The segments of a column are told apart exactly if their numbers fit in the names:
    the keys that pushing has made, and those of the column when it is finalized, in the
    store and in its cache. -/
theorem apart_iff (t : ColType) (n : Nat) (draws : Fin 10 → Fin 53) (c : Nat) (xs : List t.Elem) :
    (∀ puts col, (xs.foldlM (pushBack n) (new t n draws c)).writes = some (puts, col) →
      (col.segments.Pairwise (fun k k' => k.equals k' = false) ↔
        xs.length ≤ c * 10 ^ (13 - (Eau2.colId draws).length))) ∧
    ∀ puts col, (fill t n draws c xs).writes = some (puts, col) →
      (Apart puts col ↔ xs.length ≤ c * 10 ^ (13 - (Eau2.colId draws).length)) := by
  refine ⟨fun puts col hw => ?_, fun puts col hw => ?_⟩
  · obtain ⟨hzero, rfl⟩ := of_writes_foldlM hw
    rw [← distinct_numChunks_iff hzero]
    exact pairwise_segKey
  · obtain ⟨hzero, rfl, hputs⟩ := of_writes_fill hw
    rw [← distinct_numChunks_iff hzero]
    exact apart_filled hputs

/-- Three values in segments of two, with an id of ten letters. -/
theorem apart_iff_three : ∃ puts col,
    (fill .int 1 (fun _ => 0) 2 [(5 : BitVec 32), 6, 7]).writes = some (puts, col) ∧
      Apart puts col := by
  have hw : (fill .int 1 (fun _ => 0) 2 [(5 : BitVec 32), 6, 7]).writes = some (_, _) :=
    (writes_fill (by decide) _).2 ⟨fun _ _ => trivial, rfl, rfl⟩
  exact ⟨_, _, hw, ((apart_iff .int 1 (fun _ => 0) 2 [(5 : BitVec 32), 6, 7]).2 _ _ hw).2
    (by decide)⟩

/-- With an id of ten letters and a value in each segment, the segments `100` and `1000`
    have the same key. -/
theorem apart_fails : ¬ ∀ (t : ColType) (n : Nat) (draws : Fin 10 → Fin 53) (c : Nat)
    (xs : List t.Elem) (puts : List (Key × Value)) (col : Column t),
    (fill t n draws c xs).writes = some (puts, col) →
      col.segments.Pairwise fun k k' => k.equals k' = false := by
  intro h
  have hw : (fill .int 1 (fun _ => 0) 1 (List.replicate 1001 (0 : BitVec 32))).writes =
      some (_, _) :=
    (writes_fill (by decide) _).2 ⟨fun _ _ => trivial, rfl, rfl⟩
  have hkeys := h .int 1 (fun _ => 0) 1 _ _ _ hw
  have hdistinct := (pairwise_filled ..).1 hkeys
  rw [distinct_colId_iff, List.length_replicate] at hdistinct
  exact absurd hdistinct (by decide)

end Column

end Eau2

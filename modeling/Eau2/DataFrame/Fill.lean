import Mathlib.Data.List.Induction
import Eau2.DataFrame.Column

/-!
# Filling a column

The column `filling`, to which the values `xs` have been pushed, has the keys of
all the chunks of `xs`, has put all of them but the last in the store, and holds
the last in its cache. This is what `push_back` preserves (`pushBack_filling`);
`finalize` puts the last chunk (`fill_eq`), so a column that is created, filled
and finalized issues one `put` for every chunk of the values, and nothing else. A
value that `serialize` does not take is pushed all the same: the column fails
when the chunk is put (`writes_fill`).
-/

namespace Eau2

open Serializer

namespace ColType

/-- The values that `serialize` takes. -/
def Storable : (t : ColType) → t.Elem → Prop
  | string, s => s.chars ≠ []
  | int, _ | double, _ | bool, _ => True

/-- The encoding of a value. -/
def encodeElem : (t : ColType) → t.Elem → Bytes
  | string, s => addSizeT s.chars.length ++ s.chars
  | int, i => addInt i
  | double, v => addDouble v
  | bool, b => addBool b

/-- The encoding of an array of values. -/
def encodeArray (t : ColType) (xs : List t.Elem) : Bytes :=
  addSizeT xs.length ++ xs.flatMap t.encodeElem

variable {t : ColType}

theorem serializeArray_eq {a : BaseArray t.Elem} (h : ∀ x ∈ a.items, t.Storable x) :
    t.serializeArray a = some (t.encodeArray a.items) := by
  cases t with
  | string => exact BaseArray.serialize_eq fun x hx => addString_eq (h x hx)
  | int => exact BaseArray.serialize_eq fun x _ => rfl
  | double => exact BaseArray.serialize_eq fun x _ => rfl
  | bool => exact BaseArray.serialize_eq fun x _ => rfl

/-- An array is serialized only if its values can be. -/
theorem storable_of_serializeArray {a : BaseArray t.Elem} {w : Bytes}
    (h : t.serializeArray a = some w) :
    ∀ x ∈ a.items, t.Storable x := by
  intro x hx
  cases t with
  | string =>
    obtain ⟨ws, hws, -⟩ := Option.bind_eq_some_iff.1 h
    obtain ⟨w', hw'⟩ := List.exists_of_mapM_eq_some hws hx
    rintro hnil
    rw [hnil, addString_nil] at hw'
    cases hw'
  | int | double | bool => trivial

/-- The array read back from its encoding has no room for more. -/
theorem decodes_array {xs : List t.Elem} (hlen : xs.length < 2 ^ 64) (h : ∀ x ∈ xs, t.Storable x) :
    Decodes t.deserializeArray (t.encodeArray xs) ⟨xs, xs.length⟩ := by
  cases t with
  | string => exact BaseArray.decodes (a := ⟨xs, xs.length⟩) hlen fun x hx => decodes_str (h x hx)
  | int => exact BaseArray.decodes (a := ⟨xs, xs.length⟩) hlen fun x _ => decodes_int x
  | double => exact BaseArray.decodes (a := ⟨xs, xs.length⟩) hlen fun x _ => decodes_double x
  | bool => exact BaseArray.decodes (a := ⟨xs, xs.length⟩) hlen fun x _ => decodes_bool x

end ColType

namespace Column

variable {t : ColType} {n c : Nat} {id : Bytes} {xs : List t.Elem}

/-- The key of the segment `j`. -/
def segKey (n : Nat) (id : Bytes) (j : Nat) : Key := Key.ofCStr (segName id j) (j % n)

@[simp] theorem segKey_node (n : Nat) (id : Bytes) (j : Nat) : (segKey n id j).node = j % n := rfl

/-- The `put` of the segment `j` of the values `xs`. -/
def segPut (t : ColType) (n : Nat) (id : Bytes) (c : Nat) (xs : List t.Elem) (j : Nat) :
    Key × Value :=
  (segKey n id j, t.encodeArray (xs.chunk c j))

/-- The `put`s of the first `k` segments. -/
def segPuts (t : ColType) (n : Nat) (id : Bytes) (c : Nat) (xs : List t.Elem) (k : Nat) :
    List (Key × Value) :=
  (List.range k).map (segPut t n id c xs)

/-- A column to which `xs` have been pushed. -/
def filling (t : ColType) (n : Nat) (id : Bytes) (c : Nat) (xs : List t.Elem) : Column t where
  segments := (List.range (List.numChunks c xs.length)).map (segKey n id)
  finalized := false
  size := xs.length
  colId := id
  cache := ⟨xs.chunk c (List.numChunks c xs.length - 1), c⟩
  cacheKey := .empty
  currNode := List.numChunks c xs.length % n
  segmentCapacity := c

/-- A column to which `xs` have been pushed, finalized. -/
def filled (t : ColType) (n : Nat) (id : Bytes) (c : Nat) (xs : List t.Elem) : Column t :=
  { filling t n id c xs with finalized := true }

theorem segPuts_succ (k : Nat) :
    segPuts t n id c xs (k + 1) = segPuts t n id c xs k ++ [segPut t n id c xs k] := by
  rw [segPuts, segPuts, List.range_succ, List.map_append, List.map_singleton]

theorem getElem?_segPuts {j k : Nat} (h : j < k) :
    (segPuts t n id c xs k)[j]? = some (segPut t n id c xs j) := by
  rw [segPuts, List.getElem?_map, List.getElem?_range h, Option.map_some]

theorem storable_chunk (hs : ∀ x ∈ xs, t.Storable x) (j : Nat) : ∀ x ∈ xs.chunk c j, t.Storable x :=
  fun x hx => hs x (List.mem_of_mem_drop (List.mem_of_mem_take hx))

/-- The segments that are full keep their values. -/
theorem segPuts_append {k : Nat} (h : k * c ≤ xs.length) (x : t.Elem) :
    segPuts t n id c (xs ++ [x]) k = segPuts t n id c xs k := by
  refine List.map_congr_left fun j hj => ?_
  have hle : (j + 1) * c ≤ k * c := Nat.mul_le_mul_right c (List.mem_range.1 hj)
  rw [segPut, segPut, List.chunk_append_of_le (hle.trans h)]

/-- The last segment is the one put in the store. -/
theorem putInStore_filling
    (hs : ∀ x ∈ xs.chunk c (List.numChunks c xs.length - 1), t.Storable x) :
    (filling t n id c xs).putInStore =
      Prog.putAll [segPut t n id c xs (List.numChunks c xs.length - 1)] (.ret ()) := by
  have hlast : (filling t n id c xs).segments.getLast? =
      some (segKey n id (List.numChunks c xs.length - 1)) := by
    rw [filling, List.numChunks, List.range_succ, List.map_append, List.map_singleton,
      List.getLast?_concat, Nat.add_sub_cancel]
  rw [putInStore, ColType.serializeArray_eq (a := (filling t n id c xs).cache) hs, hlast]
  rfl

/-- The last segment is put only if its values can be serialized. -/
theorem storable_of_putInStore {r : List (Key × Value) × Unit}
    (hw : (filling t n id c xs).putInStore.writes = some r) :
    ∀ x ∈ xs.chunk c (List.numChunks c xs.length - 1), t.Storable x := by
  obtain ⟨_, w, _, hser, -, -⟩ := Prog.writes_bind_eq_some.1 hw
  exact ColType.storable_of_serializeArray (Prog.writes_ofOption.1 hser).1

/-- A value that goes to the last segment. -/
theorem pushBack_of_ne (hc : 0 < c) (h : xs.length ≠ List.numChunks c xs.length * c) (x : t.Elem) :
    (filling t n id c xs).pushBack n x = .ret (filling t n id c (xs ++ [x])) := by
  have hle := List.le_numChunks_mul hc xs.length
  have hge := List.pred_numChunks_mul_le c xs.length
  have hsucc : List.numChunks c (xs.length + 1) = List.numChunks c xs.length := by
    rw [List.numChunks_succ hc, if_neg h]
    rfl
  have hchunk : (xs ++ [x]).chunk c (List.numChunks c xs.length - 1) =
      xs.chunk c (List.numChunks c xs.length - 1) ++ [x] := by
    refine List.chunk_append hge ?_ x
    rw [Nat.sub_add_cancel (List.numChunks_pos c _)]
    omega
  have hroom : (filling t n id c xs).cache.size < (filling t n id c xs).cache.capacity := by
    have hlen : ((xs ++ [x]).chunk c (List.numChunks c xs.length - 1)).length ≤ c :=
      List.length_take_le _ _
    rw [hchunk, List.length_append, List.length_singleton] at hlen
    exact hlen
  have hfull : ¬(filling t n id c xs).size =
      (filling t n id c xs).segments.length * (filling t n id c xs).segmentCapacity := by
    rwa [filling, List.length_map, List.length_range]
  rw [pushBack, Prog.assert_true (show (filling t n id c xs).finalized = false from rfl),
    Prog.ret_bind, makeRoom, if_neg hfull, Prog.pure_eq, Prog.ret_bind, BaseArray.pushBack_eq hroom,
    Prog.ofOption_some, Prog.ret_bind,
    Prog.pure_eq, filling, filling, List.length_append, List.length_singleton, hsucc, hchunk]

/-- A value pushed when the last segment is full. -/
theorem pushBack_of_eq (hc : 0 < c) (h : xs.length = List.numChunks c xs.length * c) (x : t.Elem) :
    (filling t n id c xs).pushBack n x =
      ((filling t n id c xs).putInStore >>= fun _ => .ret (filling t n id c (xs ++ [x]))) := by
  have hsucc : List.numChunks c (xs.length + 1) = List.numChunks c xs.length + 1 := by
    rw [List.numChunks_succ hc, if_pos h]
  have hchunk : (xs ++ [x]).chunk c (List.numChunks c xs.length) = [x] := by
    have hnil : xs.chunk c (List.numChunks c xs.length) = [] := by
      rw [List.chunk, List.drop_of_length_le h.le, List.take_nil]
    rw [List.chunk_append h.ge _ x, hnil, List.nil_append]
    rw [Nat.add_mul]
    omega
  have hfull : (filling t n id c xs).size =
      (filling t n id c xs).segments.length * (filling t n id c xs).segmentCapacity := by
    rwa [filling, List.length_map, List.length_range]
  have hroom : ((filling t n id c xs).expand n).cache.size <
      ((filling t n id c xs).expand n).cache.capacity := hc
  have hexpand : { (filling t n id c xs).expand n with
      cache := ⟨((filling t n id c xs).expand n).cache.items ++ [x], c⟩, size := xs.length + 1 } =
        filling t n id c (xs ++ [x]) := by
    simp [filling, expand, expandBase, BaseArray.ofCapacity, hsucc, hchunk, List.range_succ, segKey]
  rw [pushBack, Prog.assert_true (show (filling t n id c xs).finalized = false from rfl),
    Prog.ret_bind, makeRoom, if_pos hfull, Prog.bind_assoc]
  simp only [Prog.pure_eq, Prog.ret_bind]
  rw [BaseArray.pushBack_eq hroom, Prog.ofOption_some, Prog.ret_bind]
  exact congrArg _ (funext fun _ => congrArg Prog.ret hexpand)

/-- What is pushed is in the column. -/
theorem eq_of_writes_pushBack (hc : 0 < c) {x : t.Elem} {ps : List (Key × Value)} {col : Column t}
    (hw : ((filling t n id c xs).pushBack n x).writes = some (ps, col)) :
    col = filling t n id c (xs ++ [x]) := by
  by_cases h : xs.length = List.numChunks c xs.length * c
  · rw [pushBack_of_eq hc h] at hw
    obtain ⟨_, _, _, -, hret, -⟩ := Prog.writes_bind_eq_some.1 hw
    cases hret
    rfl
  · rw [pushBack_of_ne hc h] at hw
    cases hw
    rfl

/-- What has been put when a value is pushed: the segment that was full, whose values
    could be serialized. -/
theorem puts_of_writes_pushBack (hc : 0 < c) {x : t.Elem} {ps : List (Key × Value)} {col : Column t}
    (hw : ((filling t n id c xs).pushBack n x).writes = some (ps, col))
    (hs : ∀ y ∈ xs.take ((List.numChunks c xs.length - 1) * c), t.Storable y) :
    segPuts t n id c (xs ++ [x]) (List.numChunks c (xs ++ [x]).length - 1) =
        segPuts t n id c xs (List.numChunks c xs.length - 1) ++ ps ∧
      ∀ y ∈ (xs ++ [x]).take ((List.numChunks c (xs ++ [x]).length - 1) * c), t.Storable y := by
  have hge := List.pred_numChunks_mul_le c xs.length
  have hsucc := List.numChunks_succ hc xs.length
  rw [List.length_append, List.length_singleton, hsucc]
  split_ifs with h
  · -- The last segment is full, and is put before the column is expanded.
    rw [pushBack_of_eq hc h] at hw
    obtain ⟨ps₁, _, _, hput, hret, rfl⟩ := Prog.writes_bind_eq_some.1 hw
    cases hret
    have hlast := storable_of_putInStore hput
    have hall : ∀ y ∈ xs, t.Storable y := by
      rw [← List.take_append_chunk hc xs, List.forall_mem_append]
      exact ⟨hs, hlast⟩
    rw [putInStore_filling hlast, Prog.writes_putAll] at hput
    cases hput
    refine ⟨?_, fun y hy => hall y ?_⟩
    · rw [Nat.add_sub_cancel, segPuts_append h.ge, List.append_nil, ← segPuts_succ,
        Nat.sub_add_cancel (List.numChunks_pos c _)]
    · rwa [Nat.add_sub_cancel, List.take_append_of_le_length h.ge,
        List.take_of_length_le h.le] at hy
  · rw [pushBack_of_ne hc h] at hw
    cases hw
    rw [Nat.add_zero, segPuts_append hge, List.append_nil, List.take_append_of_le_length hge]
    exact ⟨rfl, hs⟩

/-- What `push_back` preserves: the full segments have been put. -/
theorem pushBack_filling (n : Nat) (id : Bytes) (hc : 0 < c) (hs : ∀ x ∈ xs, t.Storable x)
    (x : t.Elem) :
    ∃ qs, (filling t n id c xs).pushBack n x = Prog.putAll qs
    (.ret (filling t n id c (xs ++ [x]))) ∧
      segPuts t n id c (xs ++ [x]) (List.numChunks c (xs ++ [x]).length - 1) =
        segPuts t n id c xs (List.numChunks c xs.length - 1) ++ qs := by
  have hge := List.pred_numChunks_mul_le c xs.length
  have hsucc := List.numChunks_succ hc xs.length
  rw [List.length_append, List.length_singleton, hsucc]
  split_ifs with h
  · obtain ⟨k, hk⟩ : ∃ k, List.numChunks c xs.length = k + 1 := ⟨_, rfl⟩
    refine ⟨[segPut t n id c xs (List.numChunks c xs.length - 1)], ?_, ?_⟩
    · rw [pushBack_of_eq hc h, putInStore_filling (storable_chunk hs _), Prog.putAll_bind,
        Prog.ret_bind]
    rw [Nat.add_sub_cancel, segPuts_append h.ge, hk, Nat.add_sub_cancel, segPuts_succ]
  · refine ⟨[], pushBack_of_ne hc h x, ?_⟩
    rw [Nat.add_zero, segPuts_append hge, List.append_nil]

theorem new_eq (n : Nat) (draws : Fin 10 → Fin 53) (c : Nat) :
    new t n draws c = filling t n (Eau2.colId draws) c [] := by
  simp [new, expandBase, filling, List.numChunks, List.chunk, BaseArray.ofCapacity, segKey]

/-- Pushing values puts the segments but the last. -/
theorem foldlM_pushBack (hc : 0 < c) (draws : Fin 10 → Fin 53) (hs : ∀ x ∈ xs, t.Storable x) :
    xs.foldlM (pushBack n) (new t n draws c) =
      Prog.putAll (segPuts t n (Eau2.colId draws) c xs (List.numChunks c xs.length - 1))
        (.ret (filling t n (Eau2.colId draws) c xs)) := by
  induction xs using List.reverseRecOn with
  | nil =>
    rw [new_eq]
    simp [segPuts, List.numChunks]
  | append_singleton xs x ih =>
    rw [List.forall_mem_append] at hs
    obtain ⟨qs, hpush, hputs⟩ := pushBack_filling n (Eau2.colId draws) hc hs.1 x
    rw [List.foldlM_append, ih hs.1, Prog.putAll_bind, Prog.ret_bind, List.foldlM_cons,
      hpush, hputs, Prog.putAll_append]
    simp only [List.foldlM_nil, Prog.pure_eq, Prog.bind_ret]

/-- `finalize` puts the last segment. -/
theorem finalize_filling (hs : ∀ x ∈ xs, t.Storable x) :
    (filling t n id c xs).finalize =
      Prog.putAll [segPut t n id c xs (List.numChunks c xs.length - 1)]
      (.ret (filled t n id c xs)) := by
  rw [finalize, if_neg (show ¬(filling t n id c xs).finalized = true from Bool.false_ne_true),
    putInStore_filling (storable_chunk hs _), Prog.putAll_bind, Prog.ret_bind]
  rfl

theorem segPuts_numChunks : segPuts t n id c xs (List.numChunks c xs.length) =
    segPuts t n id c xs (List.numChunks c xs.length - 1) ++
      [segPut t n id c xs (List.numChunks c xs.length - 1)] := by
  rw [← segPuts_succ, Nat.sub_add_cancel (List.numChunks_pos c _)]

/-- A column that is created, filled and finalized puts all its segments. -/
theorem fill_eq (hc : 0 < c) (draws : Fin 10 → Fin 53) (hs : ∀ x ∈ xs, t.Storable x) :
    fill t n draws c xs =
      Prog.putAll (segPuts t n (Eau2.colId draws) c xs (List.numChunks c xs.length))
        (.ret (filled t n (Eau2.colId draws) c xs)) := by
  rw [fill, foldlM_pushBack hc draws hs, Prog.putAll_bind, Prog.ret_bind, finalize_filling hs,
    ← Prog.putAll_append, segPuts_numChunks]

/-! ## Columns that have been filled -/

/-- The column to which `xs` have been pushed, if the assertions of `push_back` hold. -/
theorem eq_of_writes_foldlM (hc : 0 < c) (draws : Fin 10 → Fin 53) {ps : List (Key × Value)}
    {col : Column t} (hw : (xs.foldlM (pushBack n) (new t n draws c)).writes = some (ps, col)) :
    col = filling t n (Eau2.colId draws) c xs := by
  induction xs using List.reverseRecOn generalizing ps col with
  | nil =>
    rw [new_eq] at hw
    cases hw
    rfl
  | append_singleton xs x ih =>
    rw [List.foldlM_append] at hw
    obtain ⟨_, col', _, hxs, hx, -⟩ := Prog.writes_bind_eq_some.1 hw
    obtain ⟨_, _, _, hpush, hret, -⟩ := Prog.writes_bind_eq_some.1 hx
    cases hret
    rw [ih hxs] at hpush
    exact eq_of_writes_pushBack hc hpush

/-- A value pushed is serialized when its chunk is full, and at the end. -/
theorem storable_of_writes_foldlM (hc : 0 < c) (draws : Fin 10 → Fin 53) {ps : List (Key × Value)}
    {col : Column t} (hw : (xs.foldlM (pushBack n) (new t n draws c)).writes = some (ps, col))
    (hlast : ∀ x ∈ xs.chunk c (List.numChunks c xs.length - 1), t.Storable x) :
    ∀ x ∈ xs, t.Storable x := by
  induction xs using List.reverseRecOn generalizing ps col with
  | nil => exact List.forall_mem_nil _
  | append_singleton xs x ih =>
    rw [List.foldlM_append] at hw
    obtain ⟨_, col', _, hxs, hx, -⟩ := Prog.writes_bind_eq_some.1 hw
    obtain ⟨_, _, _, hpush, -, -⟩ := Prog.writes_bind_eq_some.1 hx
    rw [eq_of_writes_foldlM hc draws hxs] at hpush
    have hge := List.pred_numChunks_mul_le c xs.length
    have hle := List.le_numChunks_mul hc xs.length
    have hsucc := List.numChunks_succ hc xs.length
    rw [List.length_append, List.length_singleton, hsucc] at hlast
    rw [List.forall_mem_append, List.forall_mem_singleton]
    by_cases h : xs.length = List.numChunks c xs.length * c
    · -- the chunk of `xs` that is full is put, and `x` starts another
      rw [pushBack_of_eq hc h] at hpush
      obtain ⟨_, _, _, hput, -, -⟩ := Prog.writes_bind_eq_some.1 hpush
      rw [if_pos h, Nat.add_sub_cancel, List.chunk_append h.ge (by rw [Nat.add_mul]; omega),
        List.forall_mem_append, List.forall_mem_singleton] at hlast
      exact ⟨ih hxs (storable_of_putInStore hput), hlast.2⟩
    · rw [if_neg h, Nat.add_zero, List.chunk_append hge, List.forall_mem_append,
        List.forall_mem_singleton] at hlast
      · exact ⟨ih hxs hlast.1, hlast.2⟩
      · rw [Nat.sub_add_cancel (List.numChunks_pos c _)]
        omega

/-- A column is filled and finalized exactly when all its values can be
    serialized. -/
theorem writes_fill (hc : 0 < c) (draws : Fin 10 → Fin 53) {ps : List (Key × Value)}
    {col : Column t} :
    (fill t n draws c xs).writes = some (ps, col) ↔ (∀ x ∈ xs, t.Storable x) ∧
      ps = segPuts t n (Eau2.colId draws) c xs (List.numChunks c xs.length) ∧
      col = filled t n (Eau2.colId draws) c xs := by
  constructor
  · intro hw
    obtain ⟨_, col', _, hxs, hfin, -⟩ := Prog.writes_bind_eq_some.1 hw
    have heq := eq_of_writes_foldlM hc draws hxs
    rw [heq, finalize, if_neg (show ¬(filling t n (Eau2.colId draws) c xs).finalized = true from
      Bool.false_ne_true)] at hfin
    obtain ⟨_, _, _, hput, -, -⟩ := Prog.writes_bind_eq_some.1 hfin
    have hs := storable_of_writes_foldlM hc draws hxs (storable_of_putInStore hput)
    rw [fill_eq hc draws hs, Prog.writes_putAll, Option.some.injEq, Prod.mk.injEq] at hw
    exact ⟨hs, hw.1.symm, hw.2.symm⟩
  · rintro ⟨hs, rfl, rfl⟩
    rw [fill_eq hc draws hs, Prog.writes_putAll]

end Column

end Eau2

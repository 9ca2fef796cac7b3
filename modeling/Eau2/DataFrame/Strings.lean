import Eau2.DataFrame.ReadBack

/-!
# Columns of strings

What `push_back` of a column of strings accepts and what can be stored are not
the same: an empty string is pushed as any other, and fails the assertion of
`add_buffer` when its segment is serialized. The name of a segment is cut to
fourteen characters besides, so that two segments may have the same one: the
last to be put takes the place of the other at its node, and `get` takes one for
the other in its cache.

A list of strings is read back if none of this matters, and only then
(`Column.storesBack_iff`).
-/

namespace Eau2

namespace Column

variable {n c : Nat} {id : Bytes} {xs : List Str} {draws : Fin 10 → Fin 53}

/-- The strings can be pushed to a column, which is finalized, and then read back
    in any order. -/
def StoresBack (n : Nat) (draws : Fin 10 → Fin 53) (c : Nat) (xs : List Str) : Prop :=
  ∃ puts col, (fill .string n draws c xs).writes = some (puts, col) ∧
    ∀ (m₀ : Key → Option Value) (is : List Nat), (∀ i ∈ is, i < xs.length) →
      col.getAll (is.map fun i => (i, Prog.writeAll puts m₀)) = is.mapM (xs[·]?)

/-- The column filled with `xs`, its cache being `ys`, under the key `k`. -/
def holding (n : Nat) (id : Bytes) (c : Nat) (xs ys : List Str) (k : Key) : Column .string :=
  { filled .string n id c xs with cache := ⟨ys, ys.length⟩, cacheKey := k }

section

variable {ys : List Str} {i : Nat} {m : Key → Option Value}

/-- A value of a segment that is not in the cache. -/
theorem get_filled (n : Nat) (id : Bytes) (c : Nat) (hi : i < xs.length)
    (hs : ∀ y ∈ ys, ColType.string.Storable y) (hys : ys.length < 2 ^ 64)
    (hm : m (segKey n id (i / c)) = some (ColType.string.encodeArray ys)) :
    ((filled .string n id c xs).get i).run m =
      (ys[ColType.string.indexInSeg (i % c)]?).map
        fun x => ((x, holding n id c xs ys (segKey n id (i / c))), m) :=
  coherent_filled.get_of_stored rfl hi (List.div_lt_numChunks hi) hs hys hm

/-- A value of a segment that has the name of the one in the cache. -/
theorem get_holding (n : Nat) (id : Bytes) (c : Nat) (ys : List Str) (hi : i < xs.length) {k : Key}
    (hk : segName id (i / c) = k.k) :
    ((holding n id c xs ys k).get i).run m =
      (ys[ColType.string.indexInSeg (i % c)]?).map fun x => ((x, holding n id c xs ys k), m) := by
  have hseg : (holding n id c xs ys k).segments[i / c]? = some (segKey n id (i / c)) := by
    rw [holding, filled, filling, List.getElem?_map, List.getElem?_range (List.div_lt_numChunks hi),
      Option.map_some]
  have hkey : (segKey n id (i / c)).equals (holding n id c xs ys k).cacheKey = true := by
    rw [Key.equals_iff, segKey_k]
    exact hk
  refine get_of_fetch hi rfl hseg ?_
  rw [fetch, if_pos hkey]
  rfl

end

section

variable (hc : 0 < c) (hs : ∀ x ∈ xs, ColType.string.Storable x) (hlen : xs.length < 2 ^ 64)
include hc hs hlen

/-- Strings whose segments agree are read back. -/
theorem getAll_of_agree (ha : Agree (t := .string) id c xs) (hmin : min c xs.length ≤ 2 ^ 31)
    (m₀ : Key → Option Value) {is : List Nat} (his : ∀ i ∈ is, i < xs.length) :
    (filled .string n id c xs).getAll (is.map fun i =>
      (i, Prog.writeAll (segPuts .string n id c xs (List.numChunks c xs.length)) m₀)) =
        is.mapM (xs[·]?) := by
  rw [Coherent.getAll_eq hc hs hlen ha (n := n) coherent_filled rfl (Or.inr hmin), List.mapM_map]
  · rfl
  · intro call hcall
    obtain ⟨i, hi, rfl⟩ := List.mem_map.1 hcall
    have hj := List.div_lt_numChunks (c := c) (his i hi)
    obtain ⟨l, -, hl, hkey, hw⟩ := exists_segment n id c m₀ (t := .string) xs hj
    have hname := congrArg Key.k hkey
    rw [segKey_k, segKey_k] at hname
    exact ⟨his i hi, hw.trans (by rw [ha l hl _ hj hname])⟩

variable (hread : ∀ is : List Nat, (∀ i ∈ is, i < xs.length) →
  (filled .string n id c xs).getAll (is.map fun i =>
    (i, Prog.writeAll (segPuts .string n id c xs (List.numChunks c xs.length)) fun _ => none)) =
      is.mapM (xs[·]?))
include hread

omit hc in
/-- The segment that is read at the key of the segment `j` has the values of all the
    segments of this name. -/
theorem exists_chunk {j : Nat} (hj : j < List.numChunks c xs.length) :
    ∃ l, j ≤ l ∧ l < List.numChunks c xs.length ∧ ∀ i < xs.length, i / c = j →
      ∀ i' < xs.length, segName id (i' / c) = segName id j →
        (xs.chunk c l)[ColType.string.indexInSeg (i % c)]? = xs[i]? ∧
          (xs.chunk c l)[ColType.string.indexInSeg (i' % c)]? = xs[i']? := by
  obtain ⟨l, hjl, hl, -, hw⟩ := exists_segment n id c (fun _ => none) (t := .string) xs hj
  refine ⟨l, hjl, hl, fun i hi hij i' hi' hname => ?_⟩
  have hall := hread [i, i'] (by simp [hi, hi'])
  have hys : (xs.chunk c l).length < 2 ^ 64 := by
    rw [List.length_chunk]
    omega
  have hstorable : ∀ y ∈ xs.chunk c l, ColType.string.Storable y :=
    storable_chunk (t := .string) hs l
  have hfirst := get_filled n id c hi hstorable hys (by rw [hij]; exact hw)
  have hsecond := get_holding n id c (xs.chunk c l) hi' (k := segKey n id (i / c))
    (m := Prog.writeAll (segPuts .string n id c xs (List.numChunks c xs.length)) fun _ => none)
    (by rw [segKey_k, hij, hname])
  -- the calls of `get(i)` and `get(i')`, one after the other
  rw [List.map_cons, List.map_cons, List.map_nil, getAll, hfirst, List.mapM_cons, List.mapM_cons,
    List.getElem?_eq_getElem hi, List.getElem?_eq_getElem hi'] at hall
  cases hx : (xs.chunk c l)[ColType.string.indexInSeg (i % c)]? with
  | none =>
    rw [hx] at hall
    cases hall
  | some x =>
    rw [hx, Option.map_some, Option.bind_eq_bind, Option.bind_some, getAll, hsecond] at hall
    cases hx' : (xs.chunk c l)[ColType.string.indexInSeg (i' % c)]? with
    | none =>
      rw [hx'] at hall
      cases hall
    | some x' =>
      rw [hx'] at hall
      have heq : [x, x'] = [xs[i], xs[i']] := Option.some.inj hall
      rw [List.cons.injEq, List.cons.injEq] at heq
      rw [heq.1, heq.2.1, List.getElem?_eq_getElem hi, List.getElem?_eq_getElem hi']
      exact ⟨rfl, rfl⟩

/-- No index in a segment is negative as an `int`. -/
theorem min_le_of_read (hc64 : c < 2 ^ 64) : min c xs.length ≤ 2 ^ 31 := by
  by_contra hmin
  obtain ⟨i, hi⟩ : ∃ i, i = min (min c xs.length) (2 ^ 32) - 1 := ⟨_, rfl⟩
  have hic : i < c := by omega
  have hixs : i < xs.length := by omega
  have hdiv : i / c = 0 := Nat.div_eq_of_lt hic
  obtain ⟨l, -, -, hget⟩ := exists_chunk hs hlen hread (List.numChunks_pos c xs.length)
  have hsome := (hget i hixs hdiv i hixs (by rw [hdiv])).1
  rw [List.getElem?_eq_getElem hixs, Nat.mod_eq_of_lt hic] at hsome
  obtain ⟨hlt, -⟩ := List.getElem?_eq_some_iff.1 hsome
  rw [ColType.le_indexInSeg (by decide) (by omega) (by omega), List.length_chunk] at hlt
  have := Nat.sub_le xs.length (l * c)
  omega

/-- Segments of the same name have the same values. -/
theorem agree_of_read (hc64 : c < 2 ^ 64) : Agree (t := .string) id c xs := by
  have hmin := min_le_of_read hc hs hlen hread hc64
  have hindex {i : Nat} (hi : i < xs.length) : ColType.string.indexInSeg (i % c) = i % c := by
    refine ColType.indexInSeg_of_lt ?_
    have h₁ := Nat.mod_lt i hc
    have h₂ := Nat.mod_le i c
    omega
  have hfull (a b : Nat) (hab : a < b) (hb : b < List.numChunks c xs.length)
      (hname : segName id a = segName id b) : xs.chunk c a = xs.chunk c b := by
    -- the first value of the segment `b` is read before those of the segments of this name
    have hrows : b * c < xs.length := by
      have hle := Nat.mul_le_mul_right c (show b ≤ List.numChunks c xs.length - 1 by omega)
      have hdiv := Nat.div_mul_le_self (xs.length - 1) c
      rw [List.numChunks, Nat.add_sub_cancel] at hle
      have hpos : 0 < b * c := Nat.mul_pos (by omega) hc
      omega
    obtain ⟨l, hbl, hl, hget⟩ := exists_chunk hs hlen hread hb
    have hsame (j : Nat) (hj : j < List.numChunks c xs.length - 1)
        (hjname : segName id j = segName id b) : xs.chunk c j = xs.chunk c l := by
      refine List.ext_getElem? fun q => ?_
      rcases lt_or_ge q c with hq | hq
      · have hmul := Nat.mul_le_mul_right c (show j + 1 ≤ List.numChunks c xs.length - 1 by omega)
        have hle := List.pred_numChunks_mul_le c xs.length
        rw [Nat.add_mul, Nat.one_mul] at hmul
        have hdiv : (j * c + q) / c = j := by
          rw [Nat.mul_comm, Nat.mul_add_div hc, Nat.div_eq_of_lt hq, Nat.add_zero]
        have hmod : (j * c + q) % c = q := by
          rw [Nat.mul_comm, Nat.mul_add_mod, Nat.mod_eq_of_lt hq]
        have hi : j * c + q < xs.length := by omega
        have hval := (hget (b * c) hrows (Nat.mul_div_cancel b hc) (j * c + q) hi
          (by rw [hdiv, hjname])).2
        rw [hindex hi, hmod] at hval
        rw [hval, ← List.getElem?_chunk hc xs (j * c + q), hdiv, hmod]
      · have hlength (k : Nat) : (xs.chunk c k).length ≤ q := (List.length_take_le _ _).trans hq
        rw [List.getElem?_eq_none (hlength j), List.getElem?_eq_none (hlength l)]
    rw [hsame a (by omega) hname]
    rcases hbl.eq_or_lt with rfl | hlt
    · rfl
    · exact (hsame b (by omega) rfl).symm
  intro i hi j hj hname
  rcases lt_trichotomy i j with hlt | rfl | hgt
  · exact hfull i j hlt hj hname
  · rfl
  · exact (hfull j i hgt hi hname.symm).symm

end

/-- Strings are read back exactly when none is empty, no segment has more than
    `2 ^ 31` of them, and segments of the same name have the same ones. -/
theorem storesBack_iff (n : Nat) (draws : Fin 10 → Fin 53) (c : Nat) (xs : List Str) (hc : 0 < c)
    (hc64 : c < 2 ^ 64) (hlen : xs.length < 2 ^ 64) :
    StoresBack n draws c xs ↔ (∀ x ∈ xs, x.chars ≠ []) ∧ min c xs.length ≤ 2 ^ 31 ∧
      Agree (t := .string) (Eau2.colId draws) c xs := by
  constructor
  · rintro ⟨puts, col, hfill, hread⟩
    obtain ⟨hs, rfl, rfl⟩ := (writes_fill hc draws).1 hfill
    have hread' := hread fun _ => none
    exact ⟨hs, min_le_of_read hc hs hlen hread' hc64, agree_of_read hc hs hlen hread' hc64⟩
  · rintro ⟨hs, hmin, ha⟩
    exact ⟨_, _, (writes_fill hc draws).2 ⟨hs, rfl, rfl⟩, fun m₀ is his =>
      getAll_of_agree hc hs hlen ha hmin m₀ his⟩

theorem storesBack_iff_letters :
    StoresBack 2 (fun _ => 0) 2 [⟨lit "a", by decide⟩, ⟨lit "b", by decide⟩,
      ⟨lit "c", by decide⟩] := by
  refine (storesBack_iff 2 (fun _ => 0) 2 _ (by decide) (by decide) (by decide)).2 ⟨?_, ?_, ?_⟩
  · decide
  · decide
  · exact Distinct.agree (t := .string) (by decide)

/-- A column of one empty string, which cannot be put in the store. -/
theorem storesBack_fails : ¬StoresBack 1 (fun _ => 0) 1 [⟨[], by decide⟩] := by
  rintro ⟨puts, col, hfill, -⟩
  exact ((writes_fill (by decide) fun _ => 0).1 hfill).1 _ List.mem_cons_self rfl

end Column

end Eau2

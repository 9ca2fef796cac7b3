import Eau2.DataFrame.LocalMap
import Mathlib.Data.Finset.Lattice.Lemmas
import Mathlib.Data.Finset.SDiff

/-!
# The sets of the application

`Linus` marks projects and users in bit sets (`Set`), and goes over data frames with
readers and a writer: `SetUpdater` and `SetWriter` copy a set out of and into a data
frame, `ProjectsTagger` and `UsersTagger` mark what the commits lead to.

A set ignores indices out of its bounds: `set` does nothing there, but `test` says
`true`. So a tagger takes an index out of the bounds of the set it filters by for one
that is in this set, and it never tags one out of bounds (`tags`).

What the readers do to a set is said by `map_setUpdater` and `map_tagger`, and what the
writer writes by `visited_eq`; a set goes through a data frame unchanged as its
elements are values of type `int` (`Ints`).
-/

namespace Eau2

namespace Linus

/-- The conversion of an `int` to `size_t`: negative values become huge. -/
def sizeT (v : BitVec 32) : Nat := (v.signExtend 64).toNat

theorem sizeT_eq (v : BitVec 32) : sizeT v = v.toNat + if v.msb then 2 ^ 64 - 2 ^ 32 else 0 := by
  rw [sizeT, BitVec.toNat_signExtend, BitVec.toNat_setWidth, Nat.mod_eq_of_lt]
  have := v.isLt
  omega

theorem ofNat_sizeT (v : BitVec 32) : BitVec.ofNat 32 (sizeT v) = v := by
  apply BitVec.eq_of_toNat_eq
  rw [BitVec.toNat_ofNat, sizeT_eq]
  have := v.isLt
  split <;> omega

theorem sizeT_injective : Function.Injective sizeT :=
  Function.LeftInverse.injective ofNat_sizeT

/-- The indices of a table are the `int`s between zero and its number of rows. -/
theorem sizeT_lt_iff {v : BitVec 32} {n : Nat} (h : n < 2 ^ 63) :
    sizeT v < n ↔ 0 ≤ v.toInt ∧ v.toInt < n := by
  rw [sizeT_eq, BitVec.toInt_eq_msb_cond]
  have := v.isLt
  split <;> omega

/-- A `Set`: `size_` and `vals_`. -/
@[ext]
structure Set where
  size : Nat
  vals : Finset Nat
  lt_size : ∀ i ∈ vals, i < size

namespace Set

/-- `Set(size_t sz)`. -/
def new (sz : Nat) : Set := ⟨sz, ∅, fun _ h => (Finset.notMem_empty _ h).elim⟩

/-- `set`. -/
def set (s : Set) (idx : Nat) : Set :=
  if h : idx ≥ s.size then s
  else ⟨s.size, insert idx s.vals, (Finset.forall_mem_insert ..).2 ⟨not_le.1 h, s.lt_size⟩⟩

/-- `test`. -/
def test (s : Set) (idx : Nat) : Bool :=
  if idx ≥ s.size then true else decide (idx ∈ s.vals)

/-- The elements of a set. -/
def elems (s : Set) : List Nat := (List.range s.size).filter (· ∈ s.vals)

/-- `union_`. It makes no difference in which order the elements of the other set come. -/
def union (s other : Set) : Set := other.elems.foldl set s

end Set

/-- `SetUpdater`. -/
def setUpdater : Reader Set where
  visit s row := (row.getInt 0).map fun v => s.set (sizeT v)

/-- The place where `SetWriter::done` leaves `i_`: it skips the indices from `i` on that are
    not in the set. -/
def skip (s : Set) (i : Nat) : Nat :=
  ((List.range' i (s.size - i)).find? s.test).getD s.size

/-- `SetWriter`, its state being `i_`. A visit comes after a call of `done`, so it is for
    the index where `done` has left `i_`. -/
def setWriter (s : Set) : Writer Nat where
  done i := skip s i == s.size
  visit i _ := some ([(0, .int (BitVec.ofNat 32 (skip s i)))], skip s i + 1)

/-- A tagger, its state being the set of what is tagged and the set of what is newly
    tagged. It visits a row with an index for the set it filters by in the column `src`,
    and what to tag in the column `dst`. -/
def tagger (src dst : Nat) (filter : Set) : Reader (Set × Set) where
  visit sets row := do
    let idx ← row.getInt src
    let tag ← row.getInt dst
    if filter.test (sizeT idx) then
      if sets.1.test (sizeT tag) then
        return sets
      else
        return (sets.1.set (sizeT tag), sets.2.set (sizeT tag))
    else
      return sets

/-- `ProjectsTagger`, with the set `uSet`, and the sets `pSet` and `newProjects`. -/
def projectsTagger : Set → Reader (Set × Set) := tagger 1 0

/-- `UsersTagger`, with the set `pSet`, and the sets `uSet` and `newUsers`. -/
def usersTagger : Set → Reader (Set × Set) := tagger 0 1

/-- `map`: the reader visits all the rows of a data frame. -/
def map {σ : Type} (v : Reader σ) (s : σ) (rows : List Row) : Option σ := rows.foldlM v.visit s

/-- The rows that `fromVisitor` has the writer of a set write, to a data frame of one
    column of type `int`. There is at most one visit for each index. -/
def visited (s : Set) : Option (List Row) :=
  (setWriter s).rows (s.size + 1) 0 (Row.ofTypes [.int])

/-! ## The sets -/

namespace Set

variable {s other : Set} {idx : Nat}

@[simp] theorem new_size (sz : Nat) : (new sz).size = sz := rfl
@[simp] theorem new_vals (sz : Nat) : (new sz).vals = ∅ := rfl

@[simp] theorem set_size : (s.set idx).size = s.size := by
  rw [set]
  split_ifs <;> rfl

theorem mem_set {i : Nat} : i ∈ (s.set idx).vals ↔ i ∈ s.vals ∨ i = idx ∧ idx < s.size := by
  rw [set]
  split_ifs with h
  · simp [not_lt.2 h]
  · simp [not_le.1 h, or_comm]

theorem test_iff : s.test idx = true ↔ idx ∈ s.vals ∨ s.size ≤ idx := by
  rw [test]
  split_ifs with h
  · simp [h]
  · simp [h]

theorem mem_elems {i : Nat} : i ∈ s.elems ↔ i ∈ s.vals := by
  rw [elems, List.mem_filter, List.mem_range, decide_eq_true_iff]
  exact ⟨And.right, fun h => ⟨s.lt_size i h, h⟩⟩

@[simp] theorem foldl_set_size (l : List Nat) (s : Set) : (l.foldl set s).size = s.size := by
  induction l generalizing s with
  | nil => rfl
  | cons idx l ih => rw [List.foldl_cons, ih, set_size]

theorem mem_foldl_set {i : Nat} (l : List Nat) (s : Set) :
    i ∈ (l.foldl set s).vals ↔ i ∈ s.vals ∨ i ∈ l ∧ i < s.size := by
  induction l generalizing s with
  | nil => simp
  | cons idx l ih =>
    rw [List.foldl_cons, ih, mem_set, set_size, List.mem_cons, or_assoc, or_and_right]
    exact or_congr_right (or_congr_left (and_congr_right fun h => by rw [h]))

@[simp] theorem union_size : (s.union other).size = s.size := foldl_set_size _ s

theorem union_vals (h : other.size ≤ s.size) : (s.union other).vals = s.vals ∪ other.vals := by
  ext i
  rw [union, mem_foldl_set, mem_elems, Finset.mem_union]
  exact or_congr_right (and_iff_left_of_imp fun hi => (other.lt_size i hi).trans_le h)

end Set

/-! ## A set in a data frame -/

/-- The row of a data frame of one column of type `int`. -/
def intRow (i : Nat) : Row := ⟨[.int (BitVec.ofNat 32 i)]⟩

/-- The rows of a data frame with the elements of a set. -/
def frame (s : Set) : List Row := s.elems.map intRow

/-- Values of type `int`, converted to `size_t`. -/
def Ints (l : List Nat) : Prop := ∀ i ∈ l, sizeT (BitVec.ofNat 32 i) = i

theorem map_setUpdater {l : List Nat} (h : Ints l) (s : Set) :
    map setUpdater s (l.map intRow) = some (l.foldl Set.set s) := by
  induction l generalizing s with
  | nil => rfl
  | cons i l ih =>
    have hi : setUpdater.visit s (intRow i) = some (s.set i) := by
      simp [setUpdater, Row.getInt, intRow, h i List.mem_cons_self]
    rw [map, List.map_cons, List.foldlM_cons, hi, Option.bind_eq_bind, Option.bind_some,
      List.foldl_cons]
    exact ih (fun j hj => h j (List.mem_cons_of_mem i hj)) _

theorem map_setUpdater_frame {other : Set} (h : Ints other.elems) (s : Set) :
    map setUpdater s (frame other) = some (s.union other) :=
  map_setUpdater h s

/-- The elements of a set from `i` on. -/
def Set.elemsFrom (s : Set) (i : Nat) : List Nat :=
  (List.range' i (s.size - i)).filter (· ∈ s.vals)

theorem range'_sub {i size : Nat} (h : i < size) :
    List.range' i (size - i) = i :: List.range' (i + 1) (size - (i + 1)) := by
  rw [← Nat.succ_pred_eq_of_pos (Nat.sub_pos_of_lt h), List.range'_succ]
  rfl

theorem skip_of_le {s : Set} {i : Nat} (h : s.size ≤ i) : skip s i = s.size := by
  rw [skip, Nat.sub_eq_zero_of_le h]
  rfl

theorem skip_of_mem {s : Set} {i : Nat} (h : i ∈ s.vals) : skip s i = i := by
  rw [skip, range'_sub (s.lt_size i h), List.find?_cons_of_pos (Set.test_iff.2 (.inl h))]
  rfl

theorem skip_of_not_mem {s : Set} {i : Nat} (hlt : i < s.size) (h : i ∉ s.vals) :
    skip s i = skip s (i + 1) := by
  have htest : ¬s.test i = true := fun ht => (Set.test_iff.1 ht).elim h (not_le.2 hlt)
  rw [skip, skip, range'_sub hlt, List.find?_cons_of_neg htest]

/-- The writer does not mind where `done` has left `i_`. -/
theorem rows_setWriter_congr {s : Set} {i j : Nat} (h : skip s i = skip s j)
    (fuel : Nat) (r : Row) :
    (setWriter s).rows fuel i r = (setWriter s).rows fuel j r := by
  cases fuel with
  | zero => rfl
  | succ fuel =>
    have hdone : (setWriter s).done i = (setWriter s).done j := congrArg (· == s.size) h
    have hvisit : (setWriter s).visitRow i r = (setWriter s).visitRow j r := by
      simp only [Writer.visitRow, setWriter, h]
    rw [Writer.rows, Writer.rows, hdone, hvisit]

/-- The elements from `i` on are written, whatever the row holds. -/
theorem rows_setWriter (s : Set) (i fuel : Nat) (v : BitVec 32) (hfuel : s.size - i < fuel) :
    (setWriter s).rows fuel i ⟨[.int v]⟩ = some ((s.elemsFrom i).map intRow) := by
  obtain ⟨m, hm⟩ : ∃ m, s.size - i = m := ⟨_, rfl⟩
  induction m generalizing i fuel v with
  | zero =>
    obtain ⟨fuel, rfl⟩ := Nat.exists_eq_succ_of_ne_zero (Nat.ne_zero_of_lt hfuel)
    have hdone : (setWriter s).done i = true :=
      beq_iff_eq.2 (skip_of_le (Nat.sub_eq_zero_iff_le.1 hm))
    rw [Writer.rows, if_pos hdone, Set.elemsFrom, hm]
    rfl
  | succ m ih =>
    have hlt : i < s.size := Nat.lt_of_sub_eq_succ hm
    have hm' : s.size - (i + 1) = m := by omega
    by_cases hmem : i ∈ s.vals
    · obtain ⟨fuel, rfl⟩ := Nat.exists_eq_succ_of_ne_zero (Nat.ne_zero_of_lt hfuel)
      -- the element `i` makes a row, with the one unit of fuel it takes
      have hskip := skip_of_mem hmem
      have hdone : ¬(setWriter s).done i = true := by
        show ¬(skip s i == s.size) = true
        rw [hskip, beq_iff_eq]
        exact hlt.ne
      have hvisit : (setWriter s).visitRow i ⟨[.int v]⟩ = some (intRow i, i + 1) := by
        simp [Writer.visitRow, setWriter, hskip, Row.set, Row.colType, Data.type, intRow]
      have helems : s.elemsFrom i = i :: s.elemsFrom (i + 1) := by
        rw [Set.elemsFrom, range'_sub hlt, List.filter_cons_of_pos (by simpa using hmem)]
        rfl
      rw [Writer.rows, if_neg hdone, hvisit, helems]
      show ((setWriter s).rows fuel (i + 1) (intRow i) >>= fun rs => some (intRow i :: rs)) = _
      rw [intRow, ih (i + 1) fuel _ (by omega) hm']
      rfl
    · have helems : s.elemsFrom i = s.elemsFrom (i + 1) := by
        rw [Set.elemsFrom, range'_sub hlt, List.filter_cons_of_neg (by simpa using hmem)]
        rfl
      rw [rows_setWriter_congr (skip_of_not_mem hlt hmem), ih (i + 1) fuel v (by omega) hm', helems]

/-- `SetWriter` writes the set. -/
theorem visited_eq (s : Set) : visited s = some (frame s) := by
  rw [visited, frame, Set.elems, List.range_eq_range']
  exact rows_setWriter s 0 _ 0 (Nat.lt_succ_self _)

/-! ## Tagging -/

/-- What the items `cs` lead to that come from `vals`, or from out of `bound`, within the
    bound `size`. -/
def tags {γ : Type} (src dst : γ → Nat) (bound size : Nat) (cs : List γ) (vals : Finset Nat) :
    Finset Nat :=
  (((cs.filter fun c => src c ∈ vals ∨ bound ≤ src c).map dst).filter (· < size)).toFinset

variable {γ : Type} {src dst : γ → Nat} {bound size : Nat} {cs : List γ} {vals : Finset Nat}

theorem mem_tags {i : Nat} : i ∈ tags src dst bound size cs vals ↔
    i < size ∧ ∃ c ∈ cs, (src c ∈ vals ∨ bound ≤ src c) ∧ dst c = i := by
  simp only [tags, List.mem_toFinset, List.mem_filter, List.mem_map, decide_eq_true_iff]
  exact ⟨fun ⟨⟨c, ⟨hc, hsrc⟩, hi⟩, hlt⟩ => ⟨hlt, c, hc, hsrc, hi⟩,
    fun ⟨hlt, c, hc, hsrc, hi⟩ => ⟨⟨c, ⟨hc, hsrc⟩, hi⟩, hlt⟩⟩

theorem tags_append (cs cs' : List γ) : tags src dst bound size (cs ++ cs') vals =
    tags src dst bound size cs vals ∪ tags src dst bound size cs' vals := by
  simp only [tags, List.filter_append, List.map_append, List.toFinset_append]

theorem tags_union (vals vals' : Finset Nat) : tags src dst bound size cs (vals ∪ vals') =
    tags src dst bound size cs vals ∪ tags src dst bound size cs vals' := by
  ext i
  simp only [mem_tags, Finset.mem_union]
  grind

/-- A tagger has gone from the sets `sets` to `sets'`, having found `found`: what it has
    found is tagged, and what of it was not tagged before is new. -/
structure Tagged (found : Finset Nat) (sets sets' : Set × Set) : Prop where
  size_fst : sets'.1.size = sets.1.size
  size_snd : sets'.2.size = sets.2.size
  fst : sets'.1.vals = sets.1.vals ∪ found
  snd : sets'.2.vals = sets.2.vals ∪ found \ sets.1.vals

theorem Tagged.refl (sets : Set × Set) : Tagged ∅ sets sets :=
  ⟨rfl, rfl, (Finset.union_empty _).symm, by simp⟩

theorem Tagged.trans {found found' : Finset Nat} {sets sets' sets'' : Set × Set}
    (h : Tagged found sets sets') (h' : Tagged found' sets' sets'') :
    Tagged (found ∪ found') sets sets'' where
  size_fst := h'.size_fst.trans h.size_fst
  size_snd := h'.size_snd.trans h.size_snd
  fst := by rw [h'.fst, h.fst, Finset.union_assoc]
  snd := by
    rw [h'.snd, h.snd, h.fst]
    ext i
    simp only [Finset.mem_union, Finset.mem_sdiff]
    tauto

/-- The visit of a row. -/
theorem visit_tagger {row : Row} {src dst : Nat} {idx tag : BitVec 32}
    (hsrc : row.getInt src = some idx) (hdst : row.getInt dst = some tag) (filter : Set)
    {sets : Set × Set} (hsize : sets.2.size = sets.1.size) : ∃ sets',
      (tagger src dst filter).visit sets row = some sets' ∧
      Tagged (tags sizeT (fun _ => sizeT tag) filter.size sets.1.size [idx] filter.vals)
        sets sets' := by
  have hmem (i : Nat) :
      i ∈ tags sizeT (fun _ => sizeT tag) filter.size sets.1.size [idx] filter.vals ↔
        i < sets.1.size ∧ filter.test (sizeT idx) = true ∧ sizeT tag = i := by
    rw [mem_tags, Set.test_iff]
    simp
  have hvisit : (tagger src dst filter).visit sets row =
      if filter.test (sizeT idx) then
        if sets.1.test (sizeT tag) then some sets
        else some (sets.1.set (sizeT tag), sets.2.set (sizeT tag))
      else some sets := by
    simp only [tagger, hsrc, hdst, Option.bind_eq_bind, Option.bind_some]
    split_ifs <;> rfl
  rw [hvisit]
  by_cases htest : filter.test (sizeT idx) = true
  · rw [if_pos htest]
    by_cases hthere : sets.1.test (sizeT tag) = true
    · rw [if_pos hthere]
      -- it is tagged already, or out of bounds
      have hsub (i : Nat) (hi : i < sets.1.size) (htag : sizeT tag = i) : i ∈ sets.1.vals := by
        subst htag
        exact (Set.test_iff.1 hthere).resolve_right (not_le.2 hi)
      refine ⟨sets, rfl, rfl, rfl, ?_, ?_⟩
      · ext i
        rw [Finset.mem_union, hmem]
        exact ⟨.inl, fun h => h.elim id fun ⟨hi, _, htag⟩ => hsub i hi htag⟩
      · ext i
        rw [Finset.mem_union, Finset.mem_sdiff, hmem]
        exact ⟨.inl, fun h => h.elim id fun ⟨⟨hi, _, htag⟩, hnot⟩ => absurd (hsub i hi htag) hnot⟩
    · rw [if_neg hthere]
      have hnot : sizeT tag ∉ sets.1.vals ∧ sizeT tag < sets.1.size := by
        rwa [Set.test_iff, not_or, not_le] at hthere
      refine ⟨_, rfl, Set.set_size, Set.set_size, ?_, ?_⟩
      · ext i
        rw [Finset.mem_union, hmem, Set.mem_set]
        grind
      · ext i
        rw [Finset.mem_union, Finset.mem_sdiff, hmem, Set.mem_set, hsize]
        grind
  · rw [if_neg htest]
    have hempty :
        tags sizeT (fun _ => sizeT tag) filter.size sets.1.size [idx] filter.vals = ∅ :=
      Finset.eq_empty_of_forall_notMem fun i hi => htest ((hmem i).1 hi).2.1
    exact ⟨sets, rfl, hempty ▸ .refl sets⟩

/-- A tagger finds what the rows it visits lead to. -/
theorem map_tagger {row : γ → Row} {src dst : Nat} {f g : γ → BitVec 32}
    (hf : ∀ c, (row c).getInt src = some (f c)) (hg : ∀ c, (row c).getInt dst = some (g c))
    (filter : Set) (cs : List γ) (sets : Set × Set) (hsize : sets.2.size = sets.1.size) :
    ∃ sets', map (tagger src dst filter) sets (cs.map row) = some sets' ∧
      Tagged (tags (sizeT ∘ f) (sizeT ∘ g) filter.size sets.1.size cs filter.vals)
        sets sets' := by
  induction cs generalizing sets with
  | nil => exact ⟨sets, rfl, .refl sets⟩
  | cons c cs ih =>
    obtain ⟨sets₁, hvisit, htagged⟩ := visit_tagger (hf c) (hg c) filter hsize
    obtain ⟨sets₂, hmap, htagged'⟩ :=
      ih sets₁ (htagged.size_snd.trans (hsize.trans htagged.size_fst.symm))
    refine ⟨sets₂, ?_, ?_⟩
    · rw [map, List.map_cons, List.foldlM_cons, hvisit]
      exact hmap
    · rw [← List.singleton_append, tags_append]
      rw [htagged.size_fst] at htagged'
      refine .trans ?_ htagged'
      have hone : tags (sizeT ∘ f) (sizeT ∘ g) filter.size sets.1.size [c] filter.vals =
          tags sizeT (fun _ => sizeT (g c)) filter.size sets.1.size [f c] filter.vals := by
        ext i
        simp [mem_tags]
      rwa [hone]

end Linus

end Eau2

import Eau2.Lib.Slots
import Eau2.DataFrame.Effects
import Eau2.Sorer.Append
import Mathlib.Data.Set.Function

/-!
# The segments that a data frame puts

Whatever makes a data frame of the columns with the ids `ids 0`, `ids 1`, … puts the segments
of each of them in order: the segments of a column are numbered in a slot of its own
(`slot c`), and when `push_back` comes to make room, those of all numbers but the last have
been put (`Column.Numbered`).

Main results: `DataFrame.made_numbered`, `pushed_numbered` and `ofSorFile_numbered`, the
puts of `fromVisitor`, `fromArray` and `fromSorFile` up to that of the data frame, which are
no more than its columns have segments (`DataFrame.Counted`), and leave the counts of the other
slots as they were.
-/

namespace Eau2

open Slots

variable {ι : Type} {names : ι → Nat → Key → Prop} {g g₀ : ι → Nat}

namespace Column

variable {t : ColType} {col : Column t} {id : Bytes} {m : Nat} {s : ι}

/-- `m` segments of the column have been put, and it has one more. -/
structure Numbered (id : Bytes) (m : Nat) (col : Column t) : Prop where
  colId : col.colId = id
  length : col.segments.length = m + 1
  last : ∃ node, col.segments.getLast? = some (Key.ofCStr (segName id m) node)

theorem Numbered.expand (h : col.Numbered id m) (n : Nat) : (col.expand n).Numbered id (m + 1) where
  colId := h.colId
  length := by
    show (col.segments ++ [_]).length = _
    rw [List.length_append, h.length, List.length_singleton]
  last := by
    refine ⟨col.currNode, ?_⟩
    show (col.segments ++ [Key.ofCStr
      (segName col.colId col.segments.length) col.currNode]).getLast? = _
    rw [List.getLast?_append, List.getLast?_singleton, h.colId, h.length]
    rfl

theorem numbered_new (t : ColType) (n : Nat) (draws : Fin 10 → Fin 53) (c : Nat) :
    (new t n draws c).Numbered (Eau2.colId draws) 0 := ⟨rfl, rfl, 0, rfl⟩

section

variable [DecidableEq ι] (hs : ∀ j node, names s j (Key.ofCStr (segName id j) node))

include hs

theorem Numbered.putInStore (h : col.Numbered id (g s)) :
    col.putInStore.Numbered names (fun _ g' => g' = bump g s) g := by
  refine Prog.numbered_ofOption_bind fun v _ => Prog.numbered_ofOption_bind fun k hk => ?_
  obtain ⟨node, hlast⟩ := h.last
  obtain rfl := Option.some.inj (hk.symm.trans hlast)
  exact Prog.numbered_put (hs _ node) rfl

/-- `push_back` puts the last segment if it is full. -/
theorem Numbered.pushBack (h : col.Numbered id (g s)) (n : Nat) (val : t.Elem) :
    (col.pushBack n val).Numbered names
      (fun col' g' => col'.Numbered id (g' s) ∧ Set.EqOn g' g {s}ᶜ) g := by
  have hroom : (col.makeRoom n).Numbered names
      (fun col' g' => col'.Numbered id (g' s) ∧ Set.EqOn g' g {s}ᶜ) g := by
    rw [makeRoom]
    split_ifs
    · refine (h.putInStore hs).bind ?_
      rintro _ _ rfl
      refine ⟨?_, fun s' hs' => bump_of_ne g hs'⟩
      rw [bump_self]
      exact h.expand n
    · exact ⟨h, fun _ _ => rfl⟩
  refine Prog.numbered_assert_bind fun _ => hroom.bind fun col' g' hcol' => ?_
  refine Prog.numbered_ofOption_bind fun cache _ => ?_
  exact ⟨⟨hcol'.1.colId, hcol'.1.length, hcol'.1.last⟩, hcol'.2⟩

theorem Numbered.finalize (h : col.Numbered id (g s)) : col.finalize.Numbered names
    (fun col' g' => g' s ≤ col'.segments.length ∧ Set.EqOn g' g {s}ᶜ) g := by
  rw [Column.finalize]
  split_ifs
  · exact ⟨h.length ▸ Nat.le_succ _, fun _ _ => rfl⟩
  · refine (h.putInStore hs).bind ?_
    rintro _ _ rfl
    exact ⟨by rw [bump_self]; exact h.length.ge, fun s' hs' => bump_of_ne g hs'⟩

end

end Column

theorem ColumnPtr.numbered_pushBack [DecidableEq ι] {p : ColumnPtr} {id : Bytes} {s : ι}
    (hs : ∀ j node, names s j (Key.ofCStr (segName id j) node))
    (h : p.2.Numbered id (g s)) (n : Nat) (d : Data) : (p.pushBack n d).Numbered names
      (fun p' g' => p'.2.Numbered id (g' s) ∧ Set.EqOn g' g {s}ᶜ) g :=
  Prog.numbered_ofOption_bind fun val _ => (h.pushBack hs n val).bind fun _ _ hcol => hcol

namespace DataFrame

variable {ids : Nat → Bytes} {slot : Nat → ι} {w o n : Nat} {cols : List ColumnPtr}

/-- The columns from the number `o` on, each with its count of segments put. -/
def NumberedFrom (ids : Nat → Bytes) (slot : Nat → ι) (o : Nat) (cols : List ColumnPtr)
    (g : ι → Nat) : Prop :=
  ∀ c (p : ColumnPtr), cols[c]? = some p → p.2.Numbered (ids (o + c)) (g (slot (o + c)))

theorem numberedFrom_cons {p : ColumnPtr} : NumberedFrom ids slot o (p :: cols) g ↔
    p.2.Numbered (ids o) (g (slot o)) ∧ NumberedFrom ids slot (o + 1) cols g := by
  constructor
  · intro h
    refine ⟨h 0 p rfl, fun c q hq => ?_⟩
    rw [Nat.add_assoc, Nat.add_comm 1 c]
    exact h (c + 1) q hq
  · rintro ⟨hp, h⟩ c q hq
    cases c with
    | zero =>
      cases hq
      exact hp
    | succ c =>
      rw [← Nat.add_assoc, Nat.add_right_comm]
      exact h c q hq

/-- The slots of no column from the number `o` on. -/
def offColumns (slot : Nat → ι) (o : Nat) : Set ι := {s | ∀ c, o ≤ c → s ≠ slot c}

theorem offColumns_subset : offColumns slot o ⊆ offColumns slot (o + 1) :=
  fun _ hs c hc => hs c (Nat.le_of_succ_le hc)

theorem offColumns_subset_compl : offColumns slot o ⊆ {slot o}ᶜ := fun _ hs => hs o le_rfl

theorem mem_offColumns_succ (hslot : Function.Injective slot) : slot o ∈ offColumns slot (o + 1) :=
  fun _ hc heq => absurd (hslot heq) (Nat.ne_of_lt hc)

/-- The columns after the first are not concerned by what happens to it. -/
theorem NumberedFrom.of_eqOn (hslot : Function.Injective slot)
    (h : NumberedFrom ids slot (o + 1) cols g)
    {g' : ι → Nat} (heq : Set.EqOn g' g {slot o}ᶜ) : NumberedFrom ids slot (o + 1) cols g' := by
  intro c p hp
  have hne : slot (o + 1 + c) ∈ ({slot o}ᶜ : Set ι) := fun h => by
    have := hslot h
    omega
  rw [heq hne]
  exact h c p hp

/-- No more segments of the columns have been put than they have. -/
def Counted (slot : Nat → ι) (cols : List ColumnPtr) (g : ι → Nat) : Prop :=
  ∀ c (p : ColumnPtr), cols[c]? = some p → g (slot c) ≤ p.2.segments.length

/-- A column is finalized. -/
theorem addColumn_numbered [DecidableEq ι] {df : DataFrame} {p : ColumnPtr} {id : Bytes}
    (hslot : Function.Injective slot) (hlen : df.columns.length = o)
    (hs : ∀ j node, names (slot o) j (Key.ofCStr (segName id j) node))
    (h : p.2.Numbered id (g (slot o))) (hcounted : Counted slot df.columns g) :
    (df.addColumn p).Numbered names (fun df' g' => df'.columns.length = o + 1 ∧
      Counted slot df'.columns g' ∧ Set.EqOn g' g {slot o}ᶜ) g := by
  refine Prog.numbered_assert_bind fun _ => (h.finalize hs).bind fun col g' hcol => ?_
  obtain ⟨hle, heq⟩ := hcol
  refine ⟨(List.length_append).trans (congrArg Nat.succ hlen), fun c q hq => ?_, heq⟩
  rcases Nat.lt_or_ge c df.columns.length with hlt | hge
  · rw [List.getElem?_append_left hlt] at hq
    rw [heq fun h => (hlen ▸ hlt).ne (hslot h)]
    exact hcounted c q hq
  · rw [List.getElem?_append_right hge, List.getElem?_singleton] at hq
    obtain ⟨hzero, hq⟩ := Option.ite_none_right_eq_some.1 hq
    obtain rfl := Option.some.inj hq
    obtain rfl : c = o := by omega
    exact hle

section

variable [DecidableEq ι] (hslot : Function.Injective slot)
  (hnames : ∀ c < w, ∀ j node, names (slot c) j (Key.ofCStr (segName (ids c) j) node))

include hslot hnames

/-- A value for each column. -/
theorem mapM_pushBack_numbered (n : Nat) {pds : List (ColumnPtr × Data)}
    (h : NumberedFrom ids slot o (pds.map Prod.fst) g) (hw : o + pds.length ≤ w) :
    (pds.mapM fun pd : ColumnPtr × Data => pd.1.pushBack n pd.2).Numbered names
      (fun cols g' => cols.length = pds.length ∧ NumberedFrom ids slot o cols g' ∧
        Set.EqOn g' g (offColumns slot o)) g := by
  induction pds generalizing o g with
  | nil =>
    refine ⟨rfl, fun c p hp => ?_, fun _ _ => rfl⟩
    cases hp
  | cons pd pds ih =>
    rw [List.map_cons, numberedFrom_cons] at h
    rw [List.length_cons] at hw
    rw [List.mapM_cons]
    refine (ColumnPtr.numbered_pushBack (hnames o (by omega)) h.1 n pd.2).bind fun p g₁ hp => ?_
    refine (ih (h.2.of_eqOn hslot hp.2) (by omega)).bind fun cols g₂ hcols => ?_
    obtain ⟨hlen, hcols, heq⟩ := hcols
    refine ⟨congrArg Nat.succ hlen, numberedFrom_cons.2 ⟨?_, hcols⟩, ?_⟩
    · rw [heq (mem_offColumns_succ hslot)]
      exact hp.1
    · exact (heq.mono offColumns_subset).trans (hp.2.mono offColumns_subset_compl)

/-- The columns finalized one after the other. -/
theorem foldlM_addColumn_numbered {df : DataFrame} (h : NumberedFrom ids slot o cols g)
    (hw : o + cols.length ≤ w) (hlen : df.columns.length = o)
    (hcounted : Counted slot df.columns g) :
    (cols.foldlM addColumn df).Numbered names (fun df' g' => Counted slot df'.columns g' ∧
      Set.EqOn g' g (offColumns slot o)) g := by
  induction cols generalizing o g df with
  | nil => exact ⟨hcounted, fun _ _ => rfl⟩
  | cons p cols ih =>
    rw [numberedFrom_cons] at h
    rw [List.length_cons] at hw
    rw [List.foldlM_cons]
    refine (addColumn_numbered hslot hlen (hnames o (by omega)) h.1 hcounted).bind
      fun df₁ g₁ h₁ => ?_
    obtain ⟨hlen₁, hcounted₁, heq₁⟩ := h₁
    refine (ih (h.2.of_eqOn hslot heq₁) (by omega) hlen₁ hcounted₁).imp fun _ g₂ h₂ => ⟨h₂.1, ?_⟩
    exact (h₂.2.mono offColumns_subset).trans (heq₁.mono offColumns_subset_compl)

end

/-- The `w` columns of a data frame that is being made, the counts of the other slots being
    those of `g₀`. -/
structure Columns (ids : Nat → Bytes) (slot : Nat → ι) (w : Nat) (g₀ : ι → Nat)
    (cols : List ColumnPtr) (g : ι → Nat) : Prop where
  length : cols.length = w
  numbered : NumberedFrom ids slot 0 cols g
  eqOn : Set.EqOn g g₀ (offColumns slot 0)

section

variable [DecidableEq ι] (hslot : Function.Injective slot)
  (hnames : ∀ c < w, ∀ j node, names (slot c) j (Key.ofCStr (segName (ids c) j) node))

include hslot hnames

/-- A row. -/
theorem Columns.addToColumns (h : Columns ids slot w g₀ cols g) (r : Row) :
    (r.addToColumns n cols).Numbered names (Columns ids slot w g₀) g := by
  refine Prog.numbered_assert_bind fun hwidth => Prog.numbered_assert_bind fun _ => ?_
  have hzip : (cols.zip r.values).map Prod.fst = cols := List.map_fst_zip hwidth.ge
  have hlen : (cols.zip r.values).length = w := by
    rw [← h.length, ← congrArg List.length hzip, List.length_map]
  refine (mapM_pushBack_numbered hslot hnames n (hzip.symm ▸ h.numbered)
    (by rw [hlen, Nat.zero_add])).imp fun cols' g' hcols' => ?_
  exact ⟨hcols'.1.trans hlen, hcols'.2.1, hcols'.2.2.trans h.eqOn⟩

/-- The loop of `fromVisitor`. -/
theorem Columns.visitAll {σ : Type} (h : Columns ids slot w g₀ cols g) (wr : Writer σ)
    (fuel : Nat) (s : σ)
    (r : Row) : (visitAll n wr fuel s r cols).Numbered names (Columns ids slot w g₀) g := by
  induction fuel generalizing s r cols g with
  | zero => trivial
  | succ fuel ih =>
    rw [DataFrame.visitAll]
    split_ifs
    · exact h
    · refine Prog.numbered_ofOption_bind fun rs _ => ?_
      exact (h.addToColumns hslot hnames rs.1).bind fun cols' g' h' => ih h' rs.2 rs.1

/-- All the segments are put when the columns are finalized. -/
theorem Columns.ofColumns (h : Columns ids slot w g₀ cols g) :
    (ofColumns cols).Numbered names
      (fun df g' => Counted slot df.columns g' ∧ Set.EqOn g' g₀ (offColumns slot 0)) g := by
  refine Prog.numbered_ofOption_bind fun length _ => Prog.numbered_assert_bind fun _ => ?_
  refine (foldlM_addColumn_numbered hslot hnames h.numbered ?_ rfl fun c p hp => by cases hp).imp
    fun _ g' h' => ⟨h'.1, h'.2.trans h.eqOn⟩
  rw [Nat.zero_add, h.length]

/-- A field of a line. -/
theorem Columns.appendField (h : Columns ids slot w g₀ cols g) (toDouble : Bytes → BitVec 64)
    (field : Bytes) (j : Nat) :
    (SorParser.appendField n toDouble field j cols).Numbered names (Columns ids slot w g₀) g := by
  refine Prog.numbered_ofOption_bind fun p hj => ?_
  obtain ⟨t, col⟩ := p
  refine Prog.numbered_assert_bind fun _ => Prog.numbered_ofOption_bind fun val _ => ?_
  have hlt : j < cols.length := (List.getElem?_eq_some_iff.1 hj).1
  have hcol : col.Numbered (ids j) (g (slot j)) := by
    have := h.numbered j _ hj
    rwa [Nat.zero_add] at this
  refine (hcol.pushBack (hnames j (h.length ▸ hlt)) n val).bind fun col' g' hcol' => ?_
  refine ⟨List.length_set.trans h.length, fun c p hp => ?_, ?_⟩
  · rw [Nat.zero_add]
    by_cases hc : j = c
    · subst hc
      rw [List.getElem?_set_self hlt] at hp
      cases hp
      exact hcol'.1
    · rw [List.getElem?_set_ne hc] at hp
      have hp := h.numbered c p hp
      rwa [Nat.zero_add, ← hcol'.2 fun heq => hc (hslot heq).symm] at hp
  · refine (hcol'.2.mono ?_).trans h.eqOn
    exact fun s hs => hs j j.zero_le

end

/-- Columns that have been made and not been pushed to. -/
theorem columns_new (draws : Nat → Fin 10 → Fin 53) {ts : List ColType} (hw : ts.length = w)
    (hg : ∀ c < w, g (slot c) = 0) (c : Nat) :
    Columns (fun i => colId (draws i)) slot w g
      (ts.mapIdx fun i t => ⟨t, Column.new t n (draws i) c⟩) g where
  length := List.length_mapIdx.trans hw
  numbered i p hp := by
    rw [List.getElem?_mapIdx] at hp
    obtain ⟨t, ht, rfl⟩ := Option.map_eq_some_iff.1 hp
    rw [Nat.zero_add, hg i (hw ▸ (List.getElem?_eq_some_iff.1 ht).1)]
    exact Column.numbered_new t n (draws i) c
  eqOn _ _ := rfl

/-! ## Making data frames -/

section

variable [DecidableEq ι] {draws : Nat → Fin 10 → Fin 53} (hslot : Function.Injective slot)
  (hnames : ∀ c < w, ∀ j node, names (slot c) j (Key.ofCStr (segName (colId (draws c)) j) node))
  (hg : ∀ c < w, g (slot c) = 0)

include hslot hnames hg

/-- The segments put by `fromArray` and `fromScalar`. -/
theorem pushed_numbered (hw : 0 < w) (t : ColType) (n c : Nat) (xs : List t.Elem) :
    (xs.foldlM (Column.pushBack n) (Column.new t n (draws 0) c) >>= fun col =>
      ofColumn ⟨t, col⟩).Numbered names
        (fun df g' => Counted slot df.columns g' ∧ Set.EqOn g' g (offColumns slot 0)) g := by
  have hs := hnames 0 hw
  have hnew : (Column.new t n (draws 0) c).Numbered (colId (draws 0)) (g (slot 0)) := by
    rw [hg 0 hw]
    exact Column.numbered_new ..
  refine (Prog.Numbered.foldlM
    (R := fun col g' => col.Numbered (colId (draws 0)) (g' (slot 0)) ∧ Set.EqOn g' g {slot 0}ᶜ)
    ⟨hnew, fun _ _ => rfl⟩ fun x _ col g₁ h₁ => ?_).bind fun col g₁ h₁ => ?_
  · exact (h₁.1.pushBack hs n x).imp fun _ _ h₂ => ⟨h₂.1, h₂.2.trans h₁.2⟩
  · refine (addColumn_numbered (p := ⟨t, col⟩) hslot rfl hs h₁.1 fun c p hp => by cases hp).imp
      fun _ g₂ h₂ => ⟨h₂.2.1, ?_⟩
    exact (h₂.2.2.trans h₁.2).mono offColumns_subset_compl

/-- The segments put by `fromVisitor`. -/
theorem made_numbered {σ : Type} {types : Bytes} (hw : (cString types).length = w) (wr : Writer σ)
    (s : σ) (fuel : Nat) : (made n types draws wr s fuel).Numbered names
      (fun df g' => Counted slot df.columns g' ∧ Set.EqOn g' g (offColumns slot 0)) g := by
  refine Prog.numbered_ofOption_bind fun ts hts => ?_
  have hnew := columns_new (n := n) draws ((List.length_of_mapM_eq_some hts).trans hw) hg
  exact ((hnew _).visitAll hslot hnames wr fuel s _).bind fun cols g' h => h.ofColumns hslot hnames

/-- The segments put by `fromSorFile`. -/
theorem ofSorFile_numbered {file : Bytes} (hw : SorParser.width (SorParser.sample file) = w)
    (toDouble : Bytes → BitVec 64) : (ofSorFile n draws toDouble file).Numbered names
      (fun df g' => Counted slot df.columns g' ∧ Set.EqOn g' g (offColumns slot 0)) g := by
  refine Prog.numbered_ofOption_bind fun p hp => ?_
  obtain ⟨rest, hwhole, hcols⟩ := SorParser.columns_guessSchema hp
  obtain ⟨r', hparse⟩ := SorParser.parseFile_calls n toDouble hwhole hcols
  have hnew : Columns (fun i => colId (draws i)) slot w g
      (Table.filling n defaultSegmentCapacity (fun i => colId (draws i))
        (SorParser.guessed file)) g := by
    rw [Table.filling_new draws SorParser.guessed_empty]
    exact columns_new draws (by rw [List.length_map, SorParser.length_guessed, hw]) hg _
  rw [hparse, map_eq_pure_bind, bind_assoc]
  refine (Prog.Numbered.foldlM hnew fun call _ cols g' h => ?_).bind fun cols g' h => ?_
  · exact h.appendField hslot hnames toDouble call.1 call.2
  · exact h.ofColumns hslot hnames

end

end DataFrame

end Eau2

import Eau2.Sorer.Inference
import Mathlib.Data.Finset.Lattice.Fold
import Mathlib.Order.Lattice

/-!
# The guess as a join

The guesses are a chain with unknown at the bottom, and a field raises the guess for
its column to that for the field alone, if this is higher (`guessField_eq`). The
guesses after any calls of `_guessFieldType` are joins over the *set* of the calls.

Main result: `guess_join`. The guesses do not depend on the order of the fields nor on
how often they come, and those of a file depend on the set of the lines of its sample.
-/

namespace Eau2

namespace SorParser

/-- The chain of the guesses. -/
instance : LinearOrder ColumnType := LinearOrder.lift' rank fun _ _ => rank_injective

instance : OrderBot ColumnType where
  bot := .unknown
  bot_le _ := Nat.zero_le _

theorem le_iff_rank {t t' : ColumnType} : t ≤ t' ↔ rank t ≤ rank t' := Iff.rfl

/-- The guess for a column with this only field. -/
def alone (field : Bytes) : ColumnType := guessField .unknown field

/-- The guesses for `w` columns, after some calls of `_guessFieldType`. -/
def guessAll (w : Nat) (calls : List (Bytes × Nat)) : Option (List ColumnType) :=
  calls.foldlM (fun typeGuesses call => guessFieldType call.1 call.2 typeGuesses)
    (List.replicate w .unknown)

/-- The highest of the guesses for the fields of a column alone. -/
def joined (calls : List (Bytes × Nat)) (j : Nat) : ColumnType :=
  (calls.toFinset.filter (·.2 = j)).sup fun call => alone call.1

theorem alone_of_missing {field : Bytes} (h : StrSlice.trim 32 field = []) : alone field = ⊥ := by
  rw [alone, guessField, if_pos h]
  rfl

/-- A field raises the guess to that for the field alone. -/
theorem guessField_eq (guess : ColumnType) (field : Bytes) : guessField guess field =
    guess ⊔ alone field := by
  by_cases h : StrSlice.trim 32 field = []
  · rw [alone_of_missing h, sup_bot_eq, guessField, if_pos h]
  · have halone : alone field = classify (StrSlice.trim 32 field) := by
      rw [alone, guessField, if_neg h, classify]
    rw [halone, guessField, if_neg h, updateGuess_eq]
    by_cases hlt : rank guess < rank (classify (StrSlice.trim 32 field))
    · rw [if_pos hlt]
      exact (sup_eq_right.2 (le_iff_rank.2 hlt.le)).symm
    · rw [if_neg hlt]
      exact (sup_eq_left.2 (le_iff_rank.2 (not_lt.1 hlt))).symm

theorem joined_concat (calls : List (Bytes × Nat)) (call : Bytes × Nat) (j : Nat) :
    joined (calls ++ [call]) j = if call.2 = j then joined calls j ⊔ alone call.1 else joined
    calls j := by
  rw [joined, List.toFinset_append, Finset.filter_union, Finset.sup_union, ← joined]
  have hlast : ([call].toFinset.filter (·.2 = j)).sup (fun call => alone call.1) =
      if call.2 = j then alone call.1 else ⊥ := by
    rw [List.toFinset_cons, List.toFinset_nil, insert_empty_eq, Finset.filter_singleton]
    split_ifs with h
    · rw [Finset.sup_singleton]
    · rw [Finset.sup_empty]
  rw [hlast]
  split_ifs with h
  · rfl
  · exact sup_bot_eq _

/-- The guesses after some calls. -/
theorem guessAll_eq {w : Nat} {calls : List (Bytes × Nat)} (h : ∀ call ∈ calls, call.2 < w) :
    guessAll w calls = some ((List.range w).map (joined calls)) := by
  induction calls using List.reverseRecOn with
  | nil =>
    rw [guessAll, List.foldlM_nil]
    refine congrArg some (List.ext_getElem? fun i => ?_)
    rw [List.getElem?_replicate, List.getElem?_map]
    by_cases hi : i < w
    · rw [if_pos hi, List.getElem?_range hi]
      rfl
    · rw [if_neg hi, List.getElem?_eq_none (by simpa using hi)]
      rfl
  | append_singleton calls call ih =>
    rw [List.forall_mem_append, List.forall_mem_singleton] at h
    obtain ⟨h, hlt⟩ := h
    have hcol : ((List.range w).map (joined calls))[call.2]? = some (joined calls call.2) := by
      rw [List.getElem?_map, List.getElem?_range hlt]
      rfl
    rw [guessAll, List.foldlM_append, ← guessAll, ih h, Option.bind_eq_bind, Option.bind_some,
      List.foldlM_cons]
    refine ((bind_pure _).trans (guessFieldType_eq call.1 hcol)).trans
      (congrArg some (List.ext_getElem? fun i => ?_))
    rw [List.getElem?_set, List.length_map, List.length_range, List.getElem?_map,
      List.getElem?_map, if_pos hlt, guessField_eq]
    by_cases hi : i < w
    · -- The guess of the column of the call rises to that of the field alone.
      rw [List.getElem?_range hi, Option.map_some, Option.map_some, joined_concat]
      split_ifs with heq
      · rw [heq]
      · rfl
    · rw [if_neg fun heq : call.2 = i => hi (heq ▸ hlt), List.getElem?_eq_none (by simpa using hi)]
      rfl

/-! ## A file -/

theorem guess_eq_sup (fs : List Bytes) : guess fs = fs.toFinset.sup alone := by
  rw [guess_eq]
  induction fs using List.reverseRecOn with
  | nil => rfl
  | append_singleton fs field ih =>
    rw [List.foldl_append, ih, List.foldl_cons, List.foldl_nil, guessField_eq, List.toFinset_append,
      Finset.sup_union,
      List.toFinset_cons, List.toFinset_nil, insert_empty_eq, Finset.sup_singleton]

/-- The width and the columns of the sample depend on the set of its lines. -/
theorem width_le_of_subset {lines lines' : List Bytes} (h : lines ⊆ lines') :
    width lines ≤ width lines' := by
  induction lines using List.reverseRecOn with
  | nil => exact Nat.zero_le _
  | append_singleton lines line ih =>
    have hline := length_le_width (h (List.mem_append_right _ List.mem_cons_self))
    have hwidth := ih fun l hl => h (List.mem_append_left _ hl)
    rw [width, List.foldl_append, List.foldl_cons, List.foldl_nil, ← width]
    split_ifs
    · exact hline
    · exact hwidth

theorem guess_column_congr {lines lines' : List Bytes} (h : ∀ line, line ∈ lines ↔ line ∈ lines')
    (j : Nat) :
    guess (column lines j) = guess (column lines' j) := by
  have hset : (column lines j).toFinset = (column lines' j).toFinset := by
    ext field
    simp only [column, List.mem_toFinset, List.mem_filterMap, h]
  rw [guess_eq_sup, guess_eq_sup, hset]

theorem guessAll_congr {w : Nat} {calls calls' : List (Bytes × Nat)}
    (h : ∀ call ∈ calls, call.2 < w)
    (hmem : ∀ call, call ∈ calls' ↔ call ∈ calls) : guessAll w calls' = guessAll w calls := by
  have hset : calls'.toFinset = calls.toFinset := by
    ext call
    rw [List.mem_toFinset, List.mem_toFinset, hmem]
  have hjoined : joined calls' = joined calls := by
    funext j
    rw [joined, joined, hset]
  rw [guessAll_eq h, guessAll_eq fun call hcall => h call ((hmem call).1 hcall), hjoined]

/-- Missing fields leave the guesses as they are: alone, they make the lowest. -/
theorem joined_filter (calls : List (Bytes × Nat)) :
    joined (calls.filter fun call => StrSlice.trim 32 call.1 ≠ []) = joined calls := by
  funext j
  refine le_antisymm (Finset.sup_mono fun call hcall => ?_) (Finset.sup_le fun call hcall => ?_)
  · rw [Finset.mem_filter, List.mem_toFinset] at hcall ⊢
    exact ⟨(List.mem_filter.1 hcall.1).1, hcall.2⟩
  · rw [Finset.mem_filter, List.mem_toFinset] at hcall
    by_cases hmissing : StrSlice.trim 32 call.1 = []
    · rw [alone_of_missing hmissing]
      exact bot_le
    · have hmem : call ∈ (calls.filter fun call => StrSlice.trim 32 call.1 ≠ []).toFinset.filter
          (·.2 = j) := by
        rw [Finset.mem_filter, List.mem_toFinset, List.mem_filter]
        exact ⟨⟨hcall.1, decide_eq_true hmissing⟩, hcall.2⟩
      exact Finset.le_sup (f := fun call : Bytes × Nat => alone call.1) hmem

theorem typeGuesses_congr (numNodes : Nat) (draws : Nat → Fin 10 → Fin 53) {file file' : Bytes}
    (h : ∀ line, line ∈ sample file ↔ line ∈ sample file') :
    ((ofFile file).guessSchema numNodes draws).map SorParser.typeGuesses =
      ((ofFile file').guessSchema numNodes draws).map SorParser.typeGuesses := by
  obtain ⟨reader, _, -, heq⟩ := guessSchema_eq numNodes draws file
  obtain ⟨reader', _, -, heq'⟩ := guessSchema_eq numNodes draws file'
  have hwidth : width (sample file) = width (sample file') :=
    le_antisymm (width_le_of_subset fun line => (h line).1)
      (width_le_of_subset fun line => (h line).2)
  rw [heq, heq', hwidth]
  simp only [guess_column_congr h]
  split_ifs <;> rfl

/-- The guesses after any calls of `_guessFieldType` are the highest of those for the
    fields alone. They do not depend on the order of the calls or on repetitions, rise with
    more calls, and disregard missing fields; those of a file do not depend on the order of
    the lines of its sample or on repetitions. -/
theorem guess_join (w : Nat) (calls : List (Bytes × Nat)) (h : ∀ call ∈ calls, call.2 < w) :
    guessAll w calls = some ((List.range w).map (joined calls)) ∧
    (∀ calls', (∀ call, call ∈ calls' ↔ call ∈ calls) → guessAll w calls' = guessAll w calls) ∧
    (∀ more, (∀ call ∈ more, call.2 < w) → ∃ typeGuesses typeGuesses', guessAll w calls =
      some typeGuesses ∧
      guessAll w (calls ++ more) = some typeGuesses' ∧
      List.Forall₂ (· ≤ ·) typeGuesses typeGuesses') ∧
    guessAll w (calls.filter fun call => StrSlice.trim 32 call.1 ≠ []) = guessAll w calls ∧
    (∀ numNodes draws file file', (∀ line, line ∈ sample file ↔ line ∈ sample file') →
      ((ofFile file).guessSchema numNodes draws).map SorParser.typeGuesses =
        ((ofFile file').guessSchema numNodes draws).map SorParser.typeGuesses) := by
  refine ⟨guessAll_eq h, fun calls' hmem => guessAll_congr h hmem, fun more hmore => ?_, ?_,
    fun numNodes draws file file' hlines => typeGuesses_congr numNodes draws hlines⟩
  · -- More fields have a higher supremum.
    refine ⟨_, _, guessAll_eq h, guessAll_eq (List.forall_mem_append.2 ⟨h, hmore⟩), ?_⟩
    rw [List.forall₂_map_left_iff, List.forall₂_map_right_iff, List.forall₂_same]
    intro j _
    rw [joined, joined, List.toFinset_append, Finset.filter_union, Finset.sup_union]
    exact le_sup_left
  · rw [guessAll_eq h, guessAll_eq fun call hcall => h call (List.mem_filter.1 hcall).1,
      joined_filter]

/-- A missing field, and two fields in one order and in the other. -/
theorem guess_join_two :
    guessAll 1 [(lit "7", 0), (lit " ", 0), (lit "1", 0)] = guessAll 1
    [(lit "1", 0), (lit "7", 0)] := by
  obtain ⟨-, -, -, hmissing, -⟩ :=
    guess_join 1 [(lit "7", 0), (lit " ", 0), (lit "1", 0)] (by decide)
  obtain ⟨-, hswap, -⟩ := guess_join 1 [(lit "7", 0), (lit "1", 0)] (by decide)
  exact hmissing.symm.trans (hswap _ fun _ => (List.Perm.swap ..).mem_iff).symm

end SorParser

end Eau2

import Eau2.Sorer.Append
import Eau2.Sorer.Inference

/-!
# The passes over a file

A file of at most 500 lines is scanned three times, from its beginning: to count
the fields, to guess the types of the columns, and to append the values. The counts
bound the indices of both arrays, and a column that is still one of booleans at the
end has only had fields whose `toInt` is `0` or `1`, as any other would have raised
the guess (`failing_guessed`).

Main result: `passes_agree`. Once `guessSchema` goes through, the only assertions
that `parseFile` can fail are those on a missing field and on a long string.
-/

namespace Eau2.SorParser

variable {n : Nat} {draws : Nat → Fin 10 → Fin 53} {toDouble : Bytes → BitVec 64}
  {file line field : Bytes}
  {j k : Nat} {cols : List ColumnPtr}

/-- In a column of booleans every field that is not missing is `0` or `1` for `toInt`. -/
theorem toInt_of_inferred_bool {fs : List Bytes} (h : (guess fs).inferred = .bool) {slice : Bytes}
    (hmem : slice ∈ nonMissing fs) : StrSlice.toInt slice = 0 ∨ StrSlice.toInt slice = 1 := by
  have hle : rank (classify slice) ≤ 1 := by
    refine (rank_classify_le hmem).trans ?_
    rw [← guess]
    cases hguess : guess fs <;> rw [hguess] at h <;> first | decide | cases h
  by_contra hne
  have hclass := classify_eq slice
  split_ifs at hclass <;> rw [hclass] at hle <;> exact absurd hle (by decide)

/-- The fields of the sample, appended to columns of the types guessed. -/
theorem failing_guessed (n c : Nat) (ids : Nat → Bytes) (hline : line ∈ sample file)
    (hfield : (fields line)[j]? = some field) {table : Table}
    (htypes : table.map Sigma.fst = (guessed file).map Sigma.fst) :
    failing field j (Table.filling n c ids table) = none ∨
      failing field j (Table.filling n c ids table) = some .missing ∨
      failing field j (Table.filling n c ids table) = some .maxString := by
  have hlt : j < width (sample file) :=
    (List.getElem?_eq_some_iff.1 hfield).1.trans_le (length_le_width hline)
  have hlen : table.length = width (sample file) := by
    rw [← length_guessed, ← List.length_map Sigma.fst, htypes, List.length_map]
  obtain ⟨q, hq⟩ : ∃ q, table[j]? = some q := ⟨_, List.getElem?_eq_getElem (hlen ▸ hlt)⟩
  have htype : q.1 = (guess (column (sample file) j)).inferred := by
    have hj := congrArg (·[j]?) htypes
    simp only [List.getElem?_map, hq, Option.map_some] at hj
    obtain ⟨q', hq', heq⟩ := Option.map_eq_some_iff.1 hj.symm
    rw [← heq, (getElem?_guessed hq').2]
  rw [failing, Table.getElem?_filling, hq, Option.map_some]
  dsimp only
  by_cases hne : StrSlice.trim 32 field = []
  · exact .inr (.inl (if_pos hne))
  · rw [if_neg hne, ColType.ofChar?_getType]
    -- the field is one of those that the type of its column was guessed from
    have hmem : StrSlice.trim 32 field ∈ nonMissing (column (sample file) j) := by
      refine List.mem_filter.2 ⟨List.mem_map_of_mem
        (List.mem_filterMap.2 ⟨line, hline, hfield⟩), ?_⟩
      exact decide_eq_true hne
    generalize q.1 = t at htype
    cases t with
    | string =>
      dsimp only
      split_ifs with hle
      · exact .inl rfl
      · exact .inr (.inr rfl)
    | int | double => exact .inl rfl
    | bool => exact .inl (if_pos (toInt_of_inferred_bool htype.symm hmem))

/-- A call of `_appendField` is for a field of a line. -/
theorem exists_of_mem_calls {lines : List Bytes} {call : Bytes × Nat} (h : call ∈ calls lines) :
    ∃ line ∈ lines, (fields line)[call.2]? = some call.1 := by
  obtain ⟨line, hline, hcall⟩ := List.mem_flatMap.1 h
  exact ⟨line, hline, List.mem_zipIdx_iff_getElem?.1 hcall⟩

/-- The columns when `parseFile` comes to the call `k`. -/
def columnsAt (n : Nat) (draws : Nat → Fin 10 → Fin 53) (toDouble : Bytes → BitVec 64)
    (file : Bytes) (k : Nat) :
    Prog Key Value (List ColumnPtr) :=
  ((calls (file.lines newline)).take k).foldlM
    (fun columns call => appendField n toDouble call.1 call.2 columns)
    (Table.filling n defaultSegmentCapacity (fun i => colId (draws i)) (guessed file))

/-- What `parseFile` comes to before a call, if it does. -/
theorem columnsAt_eq_ret (h : columnsAt n draws toDouble file k = .ret cols) :
    ∃ table, cols = Table.filling n defaultSegmentCapacity (fun i => colId (draws i)) table ∧
      table.map Sigma.fst = (guessed file).map Sigma.fst ∧
      Parsed toDouble ((calls (file.lines newline)).take k) table := by
  obtain ⟨table, hcols, htypes, hparsed, -⟩ :=
    parsed_of_writes (by decide) (show (columnsAt n draws toDouble file k).writes =
      some ([], cols) by
      rw [h]; rfl) guessed_empty
  exact ⟨table, hcols, htypes, hparsed⟩

/-- A column has at most one value for each line. -/
theorem Parsed.length_le {lines : List Bytes} {table : Table}
    (h : Parsed toDouble ((calls lines).take k) table)
    {q : Σ t : ColType, List t.Elem} (hq : table[j]? = some q) : q.2.length ≤ lines.length := by
  rw [← (h.values j q hq).length_eq]
  calc (appended ((calls lines).take k) j).length
      ≤ (appended (calls lines) j).length := ((List.take_sublist k _).filterMap _).length_le
    _ = (column lines j).length := by rw [appended_calls]
    _ ≤ lines.length := List.length_filterMap_le _ _

/-- `parseFile` comes to the call `k`, or fails the assertion on a missing field or the
    one on a long string before. -/
theorem columnsAt_cases (hlines : (file.lines newline).length ≤ guessSchemaLines)
    (hk : k ≤ (calls (file.lines newline)).length) :
    (∃ cols, columnsAt n draws toDouble file k = .ret cols) ∨
      columnsAt n draws toDouble file k = .fail ∧ ∃ i call cols, (calls (file.lines newline))[i]? =
        some call ∧
        columnsAt n draws toDouble file i = .ret cols ∧
        (failing call.1 call.2 cols = some .missing ∨ failing call.1 call.2 cols =
          some .maxString) := by
  have hsample : sample file = file.lines newline := List.take_of_length_le hlines
  induction k with
  | zero => exact .inl ⟨_, rfl⟩
  | succ k ih =>
    have hcall : (calls (file.lines newline))[k]? = some (calls (file.lines newline))[k] :=
      List.getElem?_eq_getElem hk
    generalize (calls (file.lines newline))[k] = call at hcall
    have hsucc : columnsAt n draws toDouble file (k + 1) =
      (columnsAt n draws toDouble file k >>= fun cols =>
        appendField n toDouble call.1 call.2 cols) := by
      rw [columnsAt, List.take_add_one, hcall, List.foldlM_append]
      exact congrArg _ (funext fun cols => bind_pure _)
    rcases ih (Nat.le_of_succ_le hk) with ⟨cols, hret⟩ | ⟨hfail, hi⟩
    · rw [hsucc, hret, Prog.ret_bind]
      obtain ⟨table, rfl, htypes, hparsed⟩ := columnsAt_eq_ret hret
      obtain ⟨line, hline, hfield⟩ := exists_of_mem_calls (List.mem_of_getElem? hcall)
      rw [← hsample] at hline
      rcases failing_guessed n defaultSegmentCapacity (fun i => colId (draws i)) hline hfield htypes
        with hnone | hsome
      · obtain ⟨t, col, x, hcol, hx⟩ := (@failing_eq_none_iff toDouble _ _ _).1 hnone
        rw [Table.getElem?_filling] at hcol
        obtain ⟨q, hq, heq⟩ := Option.map_eq_some_iff.1 hcol
        cases heq
        -- a column of so few lines has no full segment to be put
        have hroom : q.2.length < defaultSegmentCapacity :=
          ((hparsed.length_le hq).trans hlines).trans_lt (by decide)
        exact .inl ⟨_, appendField_of_room (by decide) hq hx hroom⟩
      · -- This is the call that fails.
        refine .inr ⟨?_, k, call, _, hcall, hret, hsome⟩
        rcases hsome with hsome | hsome <;> exact appendField_of_failing hsome
    · rw [hsucc, hfail]
      exact .inr ⟨rfl, hi⟩

/-- The passes over a file of at most 500 lines agree: no index is out of bounds, and a
    parse that fails has come to a missing field or to a long string. -/
theorem passes_agree (n : Nat) (draws : Nat → Fin 10 → Fin 53) (toDouble : Bytes → BitVec 64)
    (file : Bytes)
    (hlines : (file.lines newline).length ≤ guessSchemaLines) (hmax : width (sample file) ≠ 0) :
    ∃ p columns, (ofFile file).guessSchema n draws = some p ∧ p.columns = some columns ∧
      (∀ line ∈ sample file, ∀ j < (fields line).length, j < columns.length) ∧
      (∀ k call cols, (calls (file.lines newline))[k]? = some call →
        columnsAt n draws toDouble file k = .ret cols →
        failing call.1 call.2 cols = none ∨ failing call.1 call.2 cols = some .missing ∨
          failing call.1 call.2 cols = some .maxString) ∧
      ((∃ p', p.parseFile n toDouble = .ret p') ∨
        p.parseFile n toDouble = .fail ∧
        ∃ k call cols, (calls (file.lines newline))[k]? = some call ∧
          columnsAt n draws toDouble file k = .ret cols ∧
          (failing call.1 call.2 cols = some .missing ∨ failing call.1 call.2 cols =
            some .maxString)) := by
  have hsample : sample file = file.lines newline := List.take_of_length_le hlines
  obtain ⟨p, hp⟩ := guessSchema_eq_some_iff.2 hmax
  obtain ⟨rest, hw, hcolumns⟩ := columns_guessSchema hp
  refine ⟨p, _, hp, hcolumns, fun line hline j hj => ?_, fun k call cols hcall hret => ?_, ?_⟩
  · rw [Table.length_filling, length_guessed]
    exact hj.trans_le (length_le_width hline)
  · obtain ⟨table, rfl, htypes, -⟩ := columnsAt_eq_ret hret
    obtain ⟨line, hline, hfield⟩ := exists_of_mem_calls (List.mem_of_getElem? hcall)
    exact failing_guessed n _ _ (hsample ▸ hline) hfield htypes
  · obtain ⟨r', hparse⟩ := parseFile_calls n toDouble hw hcolumns
    have hall := @columnsAt_cases n draws toDouble file _ hlines le_rfl
    rw [columnsAt, List.take_length] at hall
    rw [hparse]
    rcases hall with ⟨cols, hret⟩ | ⟨hfail, hk⟩
    · exact .inl ⟨_, by rw [hret]; rfl⟩
    · exact .inr ⟨by rw [hfail]; rfl, hk⟩

/-- A line shorter than the other. -/
theorem passes_agree_two : ∃ p, (ofFile (lit "<0><a>\n< 1>")).guessSchema 1
    (fun _ _ => 0) = some p ∧
    ((∃ p', p.parseFile 1 (fun _ => 0) = .ret p') ∨ p.parseFile 1 (fun _ => 0) = .fail) := by
  obtain ⟨p, _, hp, -, -, -, hparse⟩ :=
    passes_agree 1 (fun _ _ => 0) (fun _ => 0) (lit "<0><a>\n< 1>") (by decide) (by decide)
  exact ⟨p, hp, hparse.imp_right And.left⟩

end Eau2.SorParser

import Eau2.DataFrame.Fill
import Eau2.Sorer.Inference

/-!
# Rendered tables

How a table is written in a SoR file: a line for every row, a cell `<...>` for every
value of the row, and anything but a `<` between them. A boolean is written `0` or
`1`, an integer as a literal, and a string in quotes; there may be spaces around them.

The fields of a rendered row are its cells (`Renders.fields`), and `_appendField`
makes of each the value it was rendered from (`Cell.fieldValue`).
-/

namespace Eau2

open SorParser

/-! ## Slices -/

/-- `trim` takes off what is around the slice. -/
theorem StrSlice.trim_replicate {c : UInt8} {slice : Bytes} (hne : slice ≠ [])
    (hhead : slice.head? ≠ some c) (hlast : slice.getLast? ≠ some c) (a b : Nat) :
    trim c (List.replicate a c ++ slice ++ List.replicate b c) = slice := by
  have hfront : (List.replicate a c ++ slice ++ List.replicate b c).dropWhile (· == c) =
      slice ++ List.replicate b c := by
    rw [List.append_assoc, List.dropWhile_append_of_pos fun x hx =>
      by simp [List.eq_of_mem_replicate hx]]
    cases slice with
    | nil => exact absurd rfl hne
    | cons x slice =>
      have hx : (x == c) = false := by simpa using hhead
      rw [List.cons_append, List.dropWhile_cons_of_neg (by simp [hx])]
  obtain ⟨front, x, rfl⟩ := (List.eq_nil_or_concat slice).resolve_left hne
  have hx : (x == c) = false := by simpa using hlast
  rw [trim, hfront, List.rdropWhile, List.reverse_append, List.reverse_replicate,
    List.dropWhile_append_of_pos fun y hy => by simp [List.eq_of_mem_replicate hy]]
  simp [hx]

theorem not_mem_spaces (k : Nat) {c : UInt8} (hc : c ≠ 32) : c ∉ List.replicate k 32 :=
  fun hmem => hc (List.eq_of_mem_replicate hmem)

/-! ## Cells -/

/-- What is written for a value. -/
inductive Data.Content : Data → Bytes → Prop
  | bool (b : Bool) : Content (.bool b) (if b then lit "1" else lit "0")
  | int {i : BitVec 32} {text : Bytes} (h : IsInteger text) (hval : intValue text = i.toInt) :
      Content (.int i) text
  | string {s : Str} (hne : s.chars ≠ []) (hle : s.chars.length ≤ maxString)
      (h : 34 ∉ s.chars ∧ 0 ∉ s.chars ∧ newline ∉ s.chars) :
      Content (.string (some s)) (34 :: (s.chars ++ [34]))

/-- A field the value is read from: the spaces around what is written for it belong to
    the field. -/
inductive Data.Field (d : Data) : Bytes → Prop
  | mk {content : Bytes} (h : d.Content content) (a b : Nat) :
      Field d (List.replicate a 32 ++ content ++ List.replicate b 32)

/-- The row is rendered as the line. -/
inductive Renders : List Data → Bytes → Prop
  | nil {sep : Bytes} (h : 60 ∉ sep ∧ 0 ∉ sep ∧ newline ∉ sep) : Renders [] sep
  | cons {sep field line : Bytes} {d : Data} {ds : List Data}
      (h : 60 ∉ sep ∧ 0 ∉ sep ∧ newline ∉ sep) (hd : d.Field field) (hds : Renders ds line) :
      Renders (d :: ds) (sep ++ 60 :: (field ++ 62 :: line))

/-- The file has a line for every row. -/
def RendersFile (rows : List Row) (file : Bytes) : Prop :=
  List.Forall₂ (fun r line => Renders r.values line) rows (file.lines newline)

/-! ## The fields of a rendered row -/

namespace SorParser

variable {w line field : Bytes}

/-- What is before a field. -/
theorem fieldsFrom_sep (h : 60 ∉ w) (inString : Bool) (field field' line : Bytes) :
    fieldsFrom false inString field (w ++ 60 :: line) = fieldsFrom true inString [] line ∧
      fieldsFrom false inString field' w = [] := by
  induction w generalizing field field' with
  | nil => exact ⟨by rw [List.nil_append, fieldsFrom, if_pos rfl], rfl⟩
  | cons c w ih =>
    rw [List.mem_cons, not_or] at h
    rw [List.cons_append, fieldsFrom, fieldsFrom, if_neg (Ne.symm h.1), if_neg (Ne.symm h.1)]
    exact ih h.2 _ _

/-- A part of a field where no quote is, and no `>` but between quotes. -/
theorem fieldsFrom_plain {inString : Bool} (h : 34 ∉ w) (hend : inString = true ∨ 62 ∉ w)
    (field line : Bytes) :
    fieldsFrom true inString field (w ++ line) = fieldsFrom true inString (field ++ w) line := by
  induction w generalizing field with
  | nil => rw [List.nil_append, List.append_nil]
  | cons c w ih =>
    rw [List.mem_cons, not_or] at h
    have hc : ¬(c = 62 ∧ inString = false) := by
      rintro ⟨rfl, rfl⟩
      rcases hend with hend | hend
      · cases hend
      · exact hend List.mem_cons_self
    rw [List.cons_append, fieldsFrom, if_neg (Ne.symm h.1), if_neg hc,
      ih h.2 (hend.imp_right fun hnot hmem => hnot (List.mem_cons_of_mem c hmem)),
      List.append_assoc, List.singleton_append]

/-- A quoted part of a field. -/
theorem fieldsFrom_quoted (h : 34 ∉ w) (field line : Bytes) :
    fieldsFrom true false field (34 :: (w ++ 34 :: line)) =
      fieldsFrom true false (field ++ 34 :: (w ++ [34])) line := by
  rw [fieldsFrom, if_pos rfl, Bool.not_false, fieldsFrom_plain h (.inl rfl), fieldsFrom, if_pos rfl,
    Bool.not_true]
  simp only [List.append_assoc, List.cons_append, List.nil_append]

theorem fieldsFrom_end (field line : Bytes) :
    fieldsFrom true false field (62 :: line) = field :: fieldsFrom false false field line := by
  rw [fieldsFrom, if_neg (by decide), if_pos ⟨rfl, rfl⟩]

end SorParser

/-- What is written for a value does not end the field. -/
theorem Data.Content.fieldsFrom {d : Data} {content : Bytes} (h : d.Content content)
    (field line : Bytes) : fieldsFrom true false field (content ++ line) =
      SorParser.fieldsFrom true false (field ++ content) line := by
  cases h with
  | bool b =>
    exact fieldsFrom_plain (by cases b <;> decide) (.inr (by cases b <;> decide)) field line
  | int h =>
    have hnumeric := h.isDecimal.isNumeric
    exact fieldsFrom_plain (fun hc => absurd (hnumeric 34 hc) (by decide))
      (.inr fun hc => absurd (hnumeric 62 hc) (by decide)) field line
  | string _ _ h =>
    rw [List.cons_append, List.append_assoc, List.singleton_append]
    exact fieldsFrom_quoted h.1 field line

theorem Data.Field.fieldsFrom {d : Data} {field : Bytes} (h : d.Field field) (line : Bytes) :
    fieldsFrom true false [] (field ++ 62 :: line) =
      field :: SorParser.fieldsFrom false false field line := by
  cases h with
  | @mk content h a b =>
    rw [List.append_assoc, List.append_assoc,
      fieldsFrom_plain (not_mem_spaces a (by decide)) (.inr (not_mem_spaces a (by decide))),
      h.fieldsFrom,
      fieldsFrom_plain (not_mem_spaces b (by decide)) (.inr (not_mem_spaces b (by decide))),
      List.nil_append, fieldsFrom_end]

/-- What is written for a value does not end a string or a line. -/
theorem Data.Content.not_mem {d : Data} {content : Bytes} (h : d.Content content) :
    0 ∉ content ∧ newline ∉ content := by
  cases h with
  | bool b => cases b <;> decide
  | int h =>
    have hnumeric := h.isDecimal.isNumeric
    exact ⟨fun hc => absurd (hnumeric 0 hc) (by decide), fun hc => absurd (hnumeric newline hc)
      (by decide)⟩
  | string _ _ h =>
    simp only [List.mem_cons, List.mem_append, List.not_mem_nil, or_false, not_or]
    exact ⟨⟨by decide, h.2.1, by decide⟩, by decide, h.2.2, by decide⟩

/-- A rendered row is a line. -/
theorem Renders.not_mem {ds : List Data} {line : Bytes} (h : Renders ds line) :
    0 ∉ line ∧ newline ∉ line := by
  induction h with
  | nil h => exact h.2
  | cons h hd _ ih =>
    cases hd with
    | mk hd a b =>
      simp only [List.mem_cons, List.mem_append, not_or]
      have hspaces (k : Nat) : (0 : UInt8) ∉ List.replicate k 32 ∧ newline ∉ List.replicate k 32 :=
        ⟨not_mem_spaces k (by decide), not_mem_spaces k (by decide)⟩
      exact ⟨⟨h.2.1, by decide, ⟨⟨(hspaces a).1, hd.not_mem.1⟩, (hspaces b).1⟩, by decide, ih.1⟩,
        h.2.2, by decide, ⟨⟨(hspaces a).2, hd.not_mem.2⟩, (hspaces b).2⟩, by decide, ih.2⟩

/-- The cells of a rendered row are the fields of the line. -/
theorem Renders.fields {ds : List Data} {line : Bytes} (h : Renders ds line) :
    List.Forall₂ Data.Field ds (SorParser.fields line) := by
  have hscan (field : Bytes) : List.Forall₂ Data.Field ds
      (SorParser.fieldsFrom false false field line) := by
    induction h generalizing field with
    | nil h =>
      rw [(fieldsFrom_sep h.1 false [] field []).2]
      exact .nil
    | cons h hd _ ih =>
      rw [(fieldsFrom_sep h.1 false field [] _).1, hd.fieldsFrom]
      exact .cons hd (ih _)
  rw [SorParser.fields, cString_of_not_mem h.not_mem.1]
  exact hscan []

/-! ## The values of the cells -/

/-- What is written for a value has no spaces around it. -/
theorem Data.Content.trim {d : Data} {content : Bytes} (h : d.Content content) (a b : Nat) :
    content ≠ [] ∧
      StrSlice.trim 32 (List.replicate a 32 ++ content ++ List.replicate b 32) = content := by
  have hends : content ≠ [] ∧ content.head? ≠ some 32 ∧ content.getLast? ≠ some 32 := by
    cases h with
    | bool b => cases b <;> decide
    | @int i text h =>
      have hspace : 32 ∉ content := fun hc => absurd (h.isDecimal.isNumeric 32 hc) (by decide)
      refine ⟨?_, fun hc => hspace (List.mem_of_mem_head? hc), fun hc =>
        hspace (List.mem_of_getLast? hc)⟩
      rintro rfl
      exact h.1 rfl
    | string =>
      exact ⟨List.cons_ne_nil _ _, by simp,
        by rw [← List.cons_append, List.getLast?_concat]; decide⟩
  exact ⟨hends.1, StrSlice.trim_replicate hends.1 hends.2.1 hends.2.2 a b⟩

theorem Data.Content.fieldValue {d : Data} {content : Bytes} (h : d.Content content)
    (toDouble : Bytes → BitVec 64) : ∃ x, d.value d.type = some x ∧ d.type.Storable x ∧
      SorParser.fieldValue toDouble content d.type = some x := by
  cases h with
  | bool b => cases b <;> exact ⟨_, rfl, trivial, rfl⟩
  | @int i text h hval =>
    refine ⟨i, rfl, trivial, ?_⟩
    change some (StrSlice.toInt content) = some i
    rw [toInt_eq h, hval, BitVec.ofInt_toInt]
  | @string s hne hle h =>
    refine ⟨s, rfl, hne, ?_⟩
    have htrim : StrSlice.trim 34 (34 :: (s.chars ++ [34])) = s.chars :=
      StrSlice.trim_replicate hne (fun hc => h.1 (List.mem_of_mem_head? hc))
        (fun hc => h.1 (List.mem_of_getLast? hc)) 1 1
    change (if h : (StrSlice.trim 34 _).length ≤ maxString then some (Str.mk _ _) else none) = _
    simp only [htrim]
    exact dif_pos hle

/-- The value that `_appendField` makes of a field is the one it was rendered from. -/
theorem Data.Field.fieldValue {d : Data} {field : Bytes} (h : d.Field field)
    (toDouble : Bytes → BitVec 64) :
    StrSlice.trim 32 field ≠ [] ∧ ∃ x, d.value d.type = some x ∧ d.type.Storable x ∧
      SorParser.fieldValue toDouble (StrSlice.trim 32 field) d.type = some x := by
  cases h with
  | mk h a b =>
    rw [(h.trim a b).2]
    exact ⟨(h.trim a b).1, h.fieldValue toDouble⟩

end Eau2

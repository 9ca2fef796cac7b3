import Eau2.Sorer.Append
import Eau2.Sorer.Inference

/-!
# Integer fields

The digits of an integer are accumulated in a `long`, of which `toInt` returns the low
32 bits. A field that is an integer makes its column one of booleans or integers, however
large it is, and nothing looks at what the narrowing drops.

Main result: `keepsValue_iff`. An integer field keeps its value if and only if this fits
32 bits.
-/

namespace Eau2.SorParser

open StrSlice

/-- The `long` of `toInt`, once it has got some digits. -/
def accumulate (digits : Bytes) : BitVec 64 :=
  digits.foldl (fun result c => result * 10 + BitVec.ofNat 64 (c.toNat - 48)) 0

/-- The number that is written in the field is the one that gets to the column. -/
structure KeepsValue (numNodes : Nat) (toDouble : Bytes → BitVec 64) (slice : Bytes) : Prop where
  /-- The `long` never overflows. -/
  long : ∀ k, (accumulate ((unsigned slice).take k)).toInt = decimalValue ((unsigned slice).take k)
  toInt : (toInt slice).toInt = intValue slice
  /-- What `_appendField` does in a column of integers. -/
  int : ∀ (columns : List ColumnPtr) j column, columns[j]? = some ⟨.int, column⟩ →
    ∃ val : BitVec 32, val.toInt = intValue slice ∧ appendField numNodes toDouble slice j columns =
      column.pushBack numNodes val >>= fun column => pure (columns.set j ⟨.int, column⟩)
  /-- What it does in a column of booleans. -/
  bool : ∀ (columns : List ColumnPtr) j column, columns[j]? = some ⟨.bool, column⟩ →
    appendField numNodes toDouble slice j columns = .fail ∨
      ∃ val : Bool, (if val then 1 else 0) = intValue slice ∧
      appendField numNodes toDouble slice j columns =
        column.pushBack numNodes val >>= fun column => pure (columns.set j ⟨.bool, column⟩)

variable {slice : Bytes}

/-! ## Digits -/

theorem foldl_digits_le (cs : Bytes) (a : Nat) :
    a ≤ cs.foldl (fun a c => a * 10 + (c.toNat - 48)) a := by
  induction cs generalizing a with
  | nil => exact le_rfl
  | cons c cs ih => exact le_trans (show a ≤ a * 10 + (c.toNat - 48) by omega) (ih _)

/-- The first digits denote no more than all of them. -/
theorem decimalValue_take_le (cs : Bytes) (k : Nat) :
    decimalValue (cs.take k) ≤ decimalValue cs := by
  conv_rhs => rw [← List.take_append_drop k cs, decimalValue, List.foldl_append]
  exact foldl_digits_le _ _

theorem toInt_accumulate {cs : Bytes} (h : decimalValue cs < 2 ^ 63) : (accumulate cs).toInt =
    decimalValue cs := by
  have hlong : accumulate cs = BitVec.ofNat 64 (decimalValue cs) := foldl_long cs 0
  rw [hlong, BitVec.toInt_ofNat', Int.bmod_eq_of_le_mul_two]
  · omega
  · push_cast
    omega

theorem natAbs_intValue (slice : Bytes) :
    (intValue slice).natAbs = decimalValue (unsigned slice) := by
  rw [intValue]
  split_ifs <;> omega

/-! ## Fields -/

theorem trim_of_not_mem {c : UInt8} (h : c ∉ slice) : trim c slice = slice := by
  have hfront : slice.dropWhile (· == c) = slice := by
    rw [List.dropWhile_eq_self_iff]
    exact fun hlt heq => h (beq_iff_eq.1 heq ▸ List.getElem_mem hlt)
  rw [trim, hfront, List.rdropWhile_eq_self_iff]
  exact fun hne heq => h (beq_iff_eq.1 heq ▸ List.getLast_mem hne)

theorem IsInteger.trim_eq (h : IsInteger slice) : trim 32 slice = slice :=
  trim_of_not_mem fun hmem => absurd (h.isDecimal.isNumeric 32 hmem) (by decide)

theorem IsInteger.ne_nil (h : IsInteger slice) : slice ≠ [] := by
  rintro rfl
  exact h.1 rfl

/-- An integer makes its column one of booleans or of integers. -/
theorem IsInteger.classify (h : IsInteger slice) : classify slice = .bool ∨ classify slice =
    .integer := by
  rw [h.isDecimal.classify, if_neg h.not_mem]
  split_ifs
  · exact .inl rfl
  · exact .inr rfl

/-- `_appendField` for an integer. -/
theorem IsInteger.appendField_eq (h : IsInteger slice) {numNodes : Nat}
    {toDouble : Bytes → BitVec 64}
    {columns : List ColumnPtr} {j : Nat} {t : ColType} {column : Column t}
    (hj : columns[j]? = some ⟨t, column⟩) :
    appendField numNodes toDouble slice j columns = Prog.ofOption
    (fieldValue toDouble slice t) >>= fun val =>
      column.pushBack numNodes val >>= fun column => pure (columns.set j ⟨t, column⟩) := by
  rw [appendField]
  simp only [h.trim_eq, hj, Prog.ofOption_some, Prog.ret_bind, Prog.assert_true h.ne_nil]

/-- An integer field keeps its value if and only if this fits 32 bits. -/
theorem keepsValue_iff (numNodes : Nat) (toDouble : Bytes → BitVec 64) (slice : Bytes)
    (h : IsInteger slice) :
    (classify slice = .bool ∨ classify slice = .integer) ∧
      (KeepsValue numNodes toDouble slice ↔ -2 ^ 31 ≤ intValue slice ∧
        intValue slice < 2 ^ 31) := by
  refine ⟨h.classify, fun hkeeps => ?_, fun hrange => ?_⟩
  · rw [← hkeeps.toInt]
    exact ⟨BitVec.le_toInt _, BitVec.toInt_lt⟩
  · have hnat := natAbs_intValue slice
    have hint : (toInt slice).toInt = intValue slice := by
      rw [toInt_eq h]
      exact BitVec.toInt_ofInt_eq_self (by decide) hrange.1 hrange.2
    refine ⟨fun k => toInt_accumulate ?_, hint, fun columns j column hj => ?_,
      fun columns j column hj => ?_⟩
    · exact (decimalValue_take_le _ k).trans_lt (by omega)
    · exact ⟨toInt slice, hint, (h.appendField_eq hj).trans rfl⟩
    · rw [h.appendField_eq hj, fieldValue]
      split_ifs with hbool
      · -- A boolean is the value of its number, which is 0 or 1.
        refine .inr ⟨toInt slice = 1, ?_, rfl⟩
        rw [← hint]
        rcases hbool with hzero | hone
        · rw [hzero]
          rfl
        · rw [hone]
          rfl
      · exact .inl rfl

/-- A number of booleans. -/
theorem keepsValue_iff_one : KeepsValue 1 (fun _ => 0) (lit "+001") :=
  (keepsValue_iff 1 (fun _ => 0) (lit "+001") (by decide)).2.2 (by decide)

/-- `2 ^ 32` makes a column of booleans and is false in it. -/
theorem keepsValue_fails : ¬∀ numNodes toDouble slice, IsInteger slice →
    (classify slice = .bool ∨ classify slice = .integer) → KeepsValue numNodes toDouble slice := by
  intro h
  have hkeeps := (h 1 (fun _ => 0) (lit "4294967296") (by decide) (by decide)).toInt
  exact absurd hkeeps (by decide)

end Eau2.SorParser

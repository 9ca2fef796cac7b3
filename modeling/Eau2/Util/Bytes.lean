import Mathlib.Data.List.Basic
import Mathlib.Data.List.TakeWhile
import Mathlib.Data.Nat.Digits.Defs
import Mathlib.Tactic.IntervalCases

/-!
# Bytes and C strings

The program works on `char` arrays: names, text and encodings are lists of
bytes. A C string ends at its first NUL byte (`cString`), and numbers are
written in decimal by `std::to_string` and by the `%zu` of `snprintf`
(`decimal`).
-/

namespace Eau2

/-- A `char` array. -/
abbrev Bytes := List UInt8

/-- The bytes of a string literal (of ASCII characters). -/
def lit (s : String) : Bytes := s.toList.map fun c => c.toNat.toUInt8

/-- The C string at the start of `s`: the bytes up to the first NUL. -/
def cString (s : Bytes) : Bytes := s.takeWhile (· != 0)

/-- The decimal digit `d`. -/
def digit (d : Nat) : UInt8 := 48 + d.toUInt8

/-- A `size_t` in decimal. -/
def decimal (n : Nat) : Bytes :=
  if n = 0 then [digit 0] else (Nat.digits 10 n).reverse.map digit

theorem cString_of_not_mem {s : Bytes} (h : (0 : UInt8) ∉ s) : cString s = s := by
  refine List.takeWhile_eq_self_iff.2 fun c hc => ?_
  simp only [bne_iff_ne, ne_eq]
  rintro rfl
  exact h hc

theorem not_mem_decimal {c : UInt8} (h : ∀ d < 10, digit d ≠ c) (n : Nat) : c ∉ decimal n := by
  rw [decimal]
  split
  · exact fun hc => h 0 (by norm_num) (List.mem_singleton.1 hc).symm
  · intro hc
    obtain ⟨d, hd, heq⟩ := List.mem_map.1 hc
    exact h d (Nat.digits_lt_base (by norm_num) (List.mem_reverse.1 hd)) heq

theorem zero_not_mem_decimal (n : Nat) : (0 : UInt8) ∉ decimal n :=
  not_mem_decimal (fun d h => by interval_cases d <;> decide) n

theorem decimal_ne_nil (n : Nat) : decimal n ≠ [] := by
  rw [decimal]
  split_ifs with hn
  · exact List.cons_ne_nil _ _
  · rw [ne_eq, List.map_eq_nil_iff, List.reverse_eq_nil_iff]
    exact Nat.digits_ne_nil_iff_ne_zero.2 hn

/-- The number a string of digits denotes. -/
def decimalValue (s : Bytes) : Nat := s.foldl (fun a c => a * 10 + (c.toNat - 48)) 0

theorem toNat_digit {d : Nat} (h : d < 10) : (digit d).toNat - 48 = d := by
  interval_cases d <;> rfl

theorem decimalValue_decimal (n : Nat) : decimalValue (decimal n) = n := by
  rw [decimal]
  split_ifs with hn
  · rw [hn]
    rfl
  · have hd : ∀ d ∈ Nat.digits 10 n, d < 10 := fun d => Nat.digits_lt_base (by norm_num)
    conv_rhs => rw [← Nat.ofDigits_digits 10 n]
    rw [decimalValue, List.map_reverse, List.foldl_reverse]
    generalize Nat.digits 10 n = l at hd ⊢
    induction l with
    | nil => rfl
    | cons d l ih =>
      rw [List.forall_mem_cons] at hd
      rw [List.map_cons, List.foldr_cons, ih hd.2, toNat_digit hd.1, Nat.ofDigits_cons]
      ring

/-- A number is determined by its decimal representation. -/
theorem decimal_injective : Function.Injective decimal :=
  Function.LeftInverse.injective decimalValue_decimal

end Eau2

import Eau2.Sorer.Guess

/-!
# Type inference

The guess for a column is the highest of those its fields would give alone, in
the order unknown, bool, integer, double, string (`updateGuess_eq`). A field alone
counts as numeric as soon as *one* of its characters is: only a field without any
numeric character makes the column one of strings. The digits of `a1` are those
`toInt` would get to, of which there are none, so that it counts as `0`.

Main result: `inference_sound_iff`. The type of a column fits its fields if and only
if one of them has no numeric character, or all of them are numerals and those
beyond 32 bits do not come out as `0` and `1`.
-/

namespace Eau2.SorParser

open StrSlice

/-! ## Literals -/

/-- An optional sign and digits. -/
def IsInteger (slice : Bytes) : Prop := unsigned slice ≠ [] ∧ ∀ c ∈ unsigned slice, isDigit c = true

instance (slice : Bytes) : Decidable (IsInteger slice) :=
  decidable_of_iff (unsigned slice ≠ [] ∧ (unsigned slice).all isDigit = true)
    (by rw [IsInteger, List.all_eq_true])

/-- An optional sign and digits, of which there is at least one, with a dot allowed. -/
def IsDecimal (slice : Bytes) : Prop :=
  (∃ c ∈ unsigned slice, isDigit c = true) ∧ (∀ c ∈ unsigned slice, isDigit c = true ∨ c = 46) ∧
    (unsigned slice).count 46 ≤ 1

/-- The integer denoted. -/
def intValue (slice : Bytes) : Int :=
  if slice.head? = some 45 then -decimalValue (unsigned slice) else decimalValue (unsigned slice)

/-- The literals of a type. -/
def Literal (slice : Bytes) : ColType → Prop
  | .bool => IsInteger slice ∧ (intValue slice = 0 ∨ intValue slice = 1)
  | .int => IsInteger slice
  | .double => IsDecimal slice
  | .string => True

/-- The fields of a column that is not one of strings are literals of its type. -/
def Sound (t : ColType) (fs : List Bytes) : Prop :=
  t ≠ .string → ∀ slice ∈ nonMissing fs, (∀ c ∈ slice, isNumeric c = true) ∧ Literal slice t

/-- Some field has no numeric character, or all are numerals; and if all of them are
    integers that equal `0` or `1` in 32 bits, then they are `0` or `1`. -/
def Unmistakable (fs : List Bytes) : Prop :=
  (∃ slice ∈ nonMissing fs, ∀ c ∈ slice, isNumeric c = false) ∨
  (∀ slice ∈ nonMissing fs, IsDecimal slice) ∧
    ((∀ slice ∈ nonMissing fs, 46 ∉ slice ∧
        (intValue slice % 2 ^ 32 = 0 ∨ intValue slice % 2 ^ 32 = 1)) →
      ∀ slice ∈ nonMissing fs, intValue slice = 0 ∨ intValue slice = 1)

variable {slice : Bytes}

theorem mem_of_mem_unsigned {c : UInt8} (h : c ∈ unsigned slice) : c ∈ slice := by
  rw [unsigned] at h
  split_ifs at h
  · exact List.mem_of_mem_tail h
  · exact h

/-- A character is the sign or one of those after it. -/
theorem mem_unsigned {c : UInt8} (h : c ∈ slice) : c ∈ unsigned slice ∨ c = 45 ∨ c = 43 := by
  rw [unsigned]
  split_ifs with hs
  · cases slice with
    | nil => cases h
    | cons d slice =>
      rcases List.mem_cons.1 h with rfl | hc
      · exact .inr (by simpa using hs)
      · exact .inl hc
  · exact .inl h

theorem isNumeric_of_isDigit {c : UInt8} (h : isDigit c = true) : isNumeric c = true := by
  simp [isNumeric, h]

theorem IsInteger.isDecimal (h : IsInteger slice) : IsDecimal slice := by
  obtain ⟨hne, hdigits⟩ := h
  obtain ⟨c, hc⟩ := List.exists_mem_of_ne_nil _ hne
  refine ⟨⟨c, hc, hdigits c hc⟩, fun c hc => .inl (hdigits c hc), ?_⟩
  rw [List.count_eq_zero.2 fun h46 => by simpa [isDigit] using hdigits 46 h46]
  exact Nat.zero_le 1

theorem IsDecimal.isInteger (h : IsDecimal slice) (hdot : 46 ∉ slice) : IsInteger slice := by
  obtain ⟨⟨c, hc, -⟩, hall, -⟩ := h
  refine ⟨List.ne_nil_of_mem hc, fun c hc => (hall c hc).resolve_right ?_⟩
  rintro rfl
  exact hdot (mem_of_mem_unsigned hc)

theorem IsInteger.not_mem (h : IsInteger slice) : 46 ∉ slice := by
  intro hdot
  rcases mem_unsigned hdot with hc | hc | hc
  · simpa [isDigit] using h.2 46 hc
  · cases hc
  · cases hc

theorem IsDecimal.isNumeric (h : IsDecimal slice) : ∀ c ∈ slice, isNumeric c = true := by
  intro c hc
  rcases mem_unsigned hc with hc | rfl | rfl
  · rcases h.2.1 c hc with hd | rfl
    · exact isNumeric_of_isDigit hd
    · decide
  · decide
  · decide

theorem Literal.isDecimal {t : ColType} (h : Literal slice t) (ht : t ≠ .string) :
    IsDecimal slice := by
  cases t with
  | string => exact absurd rfl ht
  | int => exact IsInteger.isDecimal h
  | double => exact h
  | bool => exact h.1.isDecimal

/-- The `long` of `toInt` has the low 64 bits of the number. -/
theorem foldl_long (cs : Bytes) (a : Nat) :
    cs.foldl (fun result c => result * 10 + BitVec.ofNat 64 (c.toNat - 48)) (BitVec.ofNat 64 a) =
      BitVec.ofNat 64 (cs.foldl (fun a c => a * 10 + (c.toNat - 48)) a) := by
  induction cs generalizing a with
  | nil => rfl
  | cons c cs ih =>
    rw [List.foldl_cons, List.foldl_cons, ← ih]
    congr 1
    rw [BitVec.ofNat_add, BitVec.ofNat_mul]
    rfl

/-- On integers `toInt` gives the low 32 bits. -/
theorem toInt_eq (h : IsInteger slice) : toInt slice = BitVec.ofInt 32 (intValue slice) := by
  have hlong := foldl_long (unsigned slice) 0
  rw [toInt, List.takeWhile_eq_self_iff.2 h.2, intValue]
  rw [show (0 : BitVec 64) = BitVec.ofNat 64 0 from rfl, hlong, ← decimalValue]
  split_ifs
  · rw [BitVec.setWidth_neg_of_le (by norm_num), BitVec.setWidth_ofNat_of_le (by norm_num),
      BitVec.ofInt_neg, BitVec.ofInt_natCast]
  · rw [BitVec.setWidth_ofNat_of_le (by norm_num), BitVec.ofInt_natCast]

theorem toInt_eq_iff (h : IsInteger slice) : toInt slice = 0 ∨ toInt slice = 1 ↔
    intValue slice % 2 ^ 32 = 0 ∨ intValue slice % 2 ^ 32 = 1 := by
  have hnat : (toInt slice).toNat = (intValue slice % 2 ^ 32).toNat := by
    rw [toInt_eq h, BitVec.toNat_ofInt]
    rfl
  have hnonneg : 0 ≤ intValue slice % 2 ^ 32 := Int.emod_nonneg _ (by norm_num)
  rw [← BitVec.toNat_inj, ← BitVec.toNat_inj, hnat]
  change (intValue slice % 2 ^ 32).toNat = 0 ∨ (intValue slice % 2 ^ 32).toNat = 1 ↔ _
  omega

/-! ## The guess for a field alone -/

/-- The guess for a column with this only field. -/
def classify (slice : Bytes) : ColumnType := updateGuess .unknown slice

/-- The order of the guesses. -/
def rank : ColumnType → Nat
  | .unknown => 0
  | .bool => 1
  | .integer => 2
  | .double => 3
  | .string => 4

theorem rank_injective {t t' : ColumnType} (h : rank t = rank t') : t = t' := by
  cases t <;> cases t' <;> first | rfl | cases h

/-- The higher of the guess so far and that for the field alone. -/
theorem updateGuess_eq (guess : ColumnType) (slice : Bytes) :
    updateGuess guess slice =
      if rank guess < rank (classify slice) then classify slice else guess := by
  unfold classify updateGuess
  generalize slice.any isNumeric = isNumeric, slice.any (fun c => _ && c == 46) = hasDot
  by_cases hval : toInt slice = 0 ∨ toInt slice = 1 <;> simp only [hval] <;>
    cases isNumeric <;> cases hasDot <;> cases guess <;> rfl

theorem any_dot : (slice.any fun c => isNumeric c && c == 46) = true ↔ 46 ∈ slice := by
  simp only [List.any_eq_true, Bool.and_eq_true, beq_iff_eq]
  constructor
  · rintro ⟨c, hc, -, rfl⟩
    exact hc
  · exact fun h => ⟨46, h, by decide, rfl⟩

theorem classify_eq (slice : Bytes) : classify slice =
    if slice.any isNumeric = false then .string
    else if 46 ∈ slice then .double
    else if toInt slice = 0 ∨ toInt slice = 1 then .bool
    else .integer := by
  rw [classify, updateGuess]
  cases hany : slice.any isNumeric with
  | false => simp
  | true =>
    by_cases hdot : 46 ∈ slice
    · simp [hdot, any_dot.2 hdot]
    · have hdot' : (slice.any fun c => isNumeric c && c == 46) = false := by
        rw [Bool.eq_false_iff, ne_eq, any_dot]
        exact hdot
      simp only [hdot, hdot']
      simp

/-! ## The guess for a column -/

theorem rank_classify_le {slices : List Bytes} (h : slice ∈ slices) :
    rank (classify slice) ≤ rank (slices.foldl updateGuess .unknown) := by
  induction slices using List.reverseRecOn with
  | nil => cases h
  | append_singleton slices last ih =>
    rw [List.foldl_append, List.foldl_cons, List.foldl_nil, updateGuess_eq]
    rcases List.mem_append.1 h with hmem | hlast
    · have := ih hmem
      split_ifs <;> omega
    · rw [List.mem_singleton.1 hlast]
      split_ifs <;> omega

/-- The guess is that for one of the fields, if there is any. -/
theorem exists_classify_eq {slices : List Bytes} (h : slices ≠ []) :
    ∃ slice ∈ slices, classify slice = slices.foldl updateGuess .unknown := by
  induction slices using List.reverseRecOn with
  | nil => exact absurd rfl h
  | append_singleton slices last ih =>
    rw [List.foldl_append, List.foldl_cons, List.foldl_nil, updateGuess_eq]
    by_cases hlt : rank (slices.foldl updateGuess .unknown) < rank (classify last)
    · exact ⟨last, List.mem_append_right _ List.mem_cons_self, (if_pos hlt).symm⟩
    · rw [if_neg hlt]
      by_cases hnil : slices = []
      · subst hnil
        exact ⟨last, List.mem_cons_self, rank_injective (Nat.le_zero.1 (not_lt.1 hlt))⟩
      · obtain ⟨slice, hmem, heq⟩ := ih hnil
        exact ⟨slice, List.mem_append_left _ hmem, heq⟩

variable {fs : List Bytes}

theorem guess_eq_string : guess fs = .string ↔
    ∃ slice ∈ nonMissing fs, ∀ c ∈ slice, isNumeric c = false := by
  have hstring (slice : Bytes) : classify slice = .string ↔ ∀ c ∈ slice, isNumeric c = false := by
    simp only [← Bool.not_eq_true, ← List.any_eq_false]
    rw [classify_eq, Bool.not_eq_true]
    split_ifs with h
    · exact iff_of_true rfl h
    all_goals exact iff_of_false (by decide) h
  constructor
  · intro h
    have hne : nonMissing fs ≠ [] := by
      intro hnil
      rw [guess, hnil] at h
      cases h
    obtain ⟨slice, hmem, heq⟩ := exists_classify_eq hne
    exact ⟨slice, hmem, (hstring slice).1 (heq.trans h)⟩
  · rintro ⟨slice, hmem, hnone⟩
    have hle := rank_classify_le hmem
    rw [(hstring slice).2 hnone] at hle
    cases h : guess fs <;> rw [guess] at h <;> rw [h] at hle <;> first | rfl | simp [rank] at hle

theorem IsDecimal.classify (h : IsDecimal slice) : classify slice =
    if 46 ∈ slice then .double
    else if intValue slice % 2 ^ 32 = 0 ∨ intValue slice % 2 ^ 32 = 1 then .bool
    else .integer := by
  have hnum : slice.any SorParser.isNumeric ≠ false := by
    obtain ⟨c, hc, -⟩ := h.1
    have hmem := mem_of_mem_unsigned hc
    exact Bool.ne_false_iff.2 (List.any_eq_true.2 ⟨c, hmem, h.isNumeric c hmem⟩)
  rw [classify_eq, if_neg hnum]
  by_cases hdot : 46 ∈ slice
  · rw [if_pos hdot, if_pos hdot]
  · rw [if_neg hdot, if_neg hdot]
    simp only [toInt_eq_iff (h.isInteger hdot)]

/-- The type of a column fits its fields if and only if they are unmistakable. -/
theorem sound_iff (fs : List Bytes) : Sound (guess fs).inferred fs ↔ Unmistakable fs := by
  constructor
  · intro hs
    by_cases hstring : guess fs = .string
    · exact .inl (guess_eq_string.1 hstring)
    · have ht : (guess fs).inferred ≠ .string := by
        cases h : guess fs <;> simp_all [ColumnType.inferred]
      have hdec : ∀ slice ∈ nonMissing fs, IsDecimal slice := fun slice hmem =>
        (hs ht slice hmem).2.isDecimal ht
      refine .inr ⟨hdec, fun hall slice hmem => ?_⟩
      obtain ⟨s, hs', heq⟩ := exists_classify_eq (List.ne_nil_of_mem hmem)
      have hbool : guess fs = .bool := by
        rw [guess, ← heq, (hdec s hs').classify, if_neg (hall s hs').1, if_pos (hall s hs').2]
      have hlit := (hs ht slice hmem).2
      rw [hbool] at hlit
      exact hlit.2
  · rintro (hstring | ⟨hdec, hall⟩) ht slice hmem
    · exact absurd (by rw [guess_eq_string.2 hstring]; rfl) ht
    · refine ⟨(hdec slice hmem).isNumeric, ?_⟩
      have hle (s : Bytes) (hs : s ∈ nonMissing fs) :
          rank (SorParser.classify s) ≤ rank (guess fs) :=
        rank_classify_le hs
      -- with a dot the column would be one of doubles at least
      have hdot (hlt : rank (guess fs) < 3) (s : Bytes) (hs : s ∈ nonMissing fs) : 46 ∉ s := by
        intro hmem
        have := hle s hs
        rw [(hdec s hs).classify, if_pos hmem] at this
        exact absurd this (not_le.2 hlt)
      cases hguess : guess fs with
      | string =>
        rw [hguess] at ht
        exact absurd rfl ht
      | double => exact hdec slice hmem
      | integer => exact (hdec slice hmem).isInteger (hdot (by rw [hguess]; decide) slice hmem)
      | bool | unknown =>
        have hlt : rank (guess fs) < 2 := by rw [hguess]; decide
        have hdot' := hdot (hlt.trans (by decide))
        refine ⟨(hdec slice hmem).isInteger (hdot' slice hmem),
          hall (fun s hs => ⟨hdot' s hs, ?_⟩) slice hmem⟩
        by_contra hbig
        have := hle s hs
        rw [(hdec s hs).classify, if_neg (hdot' s hs), if_neg hbig] at this
        exact absurd this (not_le.2 hlt)

/-- In every file, the type of a column fits its fields if and only if they are
    unmistakable. -/
theorem inference_sound_iff (numNodes : Nat) (draws : Nat → Fin 10 → Fin 53) (file : Bytes)
    (p : SorParser) (h : (ofFile file).guessSchema numNodes draws = some p) :
    ∀ columns, p.columns = some columns → ∀ j t c, columns[j]? = some ⟨t, c⟩ →
      (Sound t (column (sample file) j) ↔ Unmistakable (column (sample file) j)) := by
  intro columns hcolumns j t c hj
  obtain ⟨reader, -, -, heq⟩ := guessSchema_eq numNodes draws file
  rw [heq] at h
  split_ifs at h with hwidth
  cases h
  cases hcolumns
  obtain ⟨hlt, hc⟩ := List.getElem?_eq_some_iff.1 hj
  rw [List.getElem_map, List.getElem_range] at hc
  cases hc
  exact sound_iff _

/-- A column of booleans and one of integers. -/
theorem inference_sound_iff_two : ∃ p columns c,
    (ofFile (lit "<1><7>\n<0>")).guessSchema 1 (fun _ _ => 0) = some p ∧ p.columns = some columns ∧
      columns[1]? = some ⟨.int, c⟩ ∧
      (Sound .int (column (sample (lit "<1><7>\n<0>")) 1) ↔
        Unmistakable (column (sample (lit "<1><7>\n<0>")) 1)) := by
  obtain ⟨reader, -, -, h⟩ := guessSchema_eq 1 (fun _ _ => 0) (lit "<1><7>\n<0>")
  rw [if_neg (by decide)] at h
  exact ⟨_, _, _, h, rfl, rfl, inference_sound_iff _ _ _ _ h _ rfl 1 _ _ rfl⟩

/-- A name with a digit in it makes a column of booleans. -/
theorem inference_sound_fails :
    ¬ ∀ (numNodes : Nat) (draws : Nat → Fin 10 → Fin 53) (file : Bytes) (p : SorParser),
      (ofFile file).guessSchema numNodes draws = some p →
        ∀ columns, p.columns = some columns → ∀ j t c, columns[j]? = some ⟨t, c⟩ →
          Sound t (column (sample file) j) := by
  intro hsound
  obtain ⟨reader, -, -, h⟩ := guessSchema_eq 1 (fun _ _ => 0) (lit "<a1>")
  rw [if_neg (by decide)] at h
  have hbool : Sound .bool (column (sample (lit "<a1>")) 0) := hsound _ _ _ _ h _ rfl 0 _ _ rfl
  exact absurd ((hbool (by decide) (lit "a1") (by decide)).1 97 (by decide)) (by decide)

end Eau2.SorParser

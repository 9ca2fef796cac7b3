import Mathlib.Data.List.DropRight
import Mathlib.Data.List.TakeWhile

/-!
# Lines

A text is cut into lines by a separator (`lines`). What follows the last
separator is a line of its own unless it is empty, so that a text may or may not
end with a separator: both end the last line.

A reader that takes one line at a time takes the text up to the first separator
and goes on after it (`afterLine`, `lines_of_ne_nil`).
-/

namespace List

variable {α : Type*} [DecidableEq α] {sep : α}

/-- The lines of a text, without their separators. -/
def lines (sep : α) : List α → List (List α)
  | [] => []
  | c :: text =>
    if c = sep then [] :: lines sep text
    else match lines sep text with
      | [] => [[c]]
      | line :: rest => (c :: line) :: rest

/-- The text that follows the first separator. -/
def afterLine (sep : α) (text : List α) : List α := (text.dropWhile (· ≠ sep)).tail

@[simp] theorem lines_nil : lines sep [] = [] := rfl

@[simp] theorem afterLine_nil : afterLine sep [] = [] := rfl

theorem length_afterLine_le (sep : α) (text : List α) :
    (afterLine sep text).length ≤ text.length - 1 := by
  rw [afterLine, length_tail]
  exact Nat.sub_le_sub_right (dropWhile_suffix _).length_le 1

theorem takeWhile_of_not_mem {text : List α} (h : sep ∉ text) : text.takeWhile (· ≠ sep) = text :=
  takeWhile_eq_self_iff.2 fun _ hc => decide_eq_true fun heq => h (heq ▸ hc)

theorem afterLine_of_not_mem {text : List α} (h : sep ∉ text) : afterLine sep text = [] := by
  have hdrop : text.dropWhile (· ≠ sep) = [] :=
    dropWhile_eq_nil_iff.2 fun c hc => decide_eq_true fun heq => h (heq ▸ hc)
  rw [afterLine, hdrop, tail_nil]

/-- The first line and the others. -/
theorem lines_of_ne_nil {text : List α} (h : text ≠ []) :
    lines sep text = text.takeWhile (· ≠ sep) :: lines sep (afterLine sep text) := by
  induction text with
  | nil => exact absurd rfl h
  | cons c text ih =>
    by_cases hc : c = sep
    · simp [lines, afterLine, hc]
    · have hdrop : afterLine sep (c :: text) = afterLine sep text := by simp [afterLine, hc]
      rw [hdrop, lines, if_neg hc, takeWhile_cons_of_pos (by simpa using hc)]
      cases text with
      | nil => simp
      | cons d text => rw [ih (cons_ne_nil d text)]

theorem lines_head? (text : List α) :
    (lines sep text).head? = if text = [] then none else some (text.takeWhile (· ≠ sep)) := by
  split_ifs with h
  · rw [h, lines_nil, head?_nil]
  · rw [lines_of_ne_nil h, head?_cons]

theorem lines_tail (text : List α) : (lines sep text).tail = lines sep (afterLine sep text) := by
  by_cases h : text = []
  · rw [h, lines_nil, afterLine_nil, lines_nil, tail_nil]
  · rw [lines_of_ne_nil h, tail_cons]

theorem length_lines_le (text : List α) : (lines sep text).length ≤ text.length := by
  induction text with
  | nil => exact le_rfl
  | cons c text ih =>
    rw [lines]
    split_ifs with hc
    · exact Nat.succ_le_succ ih
    · cases hl : lines sep text with
      | nil => exact Nat.le_add_left 1 _
      | cons line rest =>
        rw [hl] at ih
        exact ih.trans (Nat.le_succ _)

/-- A text of which a part without separators has been read. -/
theorem takeWhile_append_of_not_mem {piece text : List α} (h : sep ∉ piece) :
    (piece ++ text).takeWhile (· ≠ sep) = piece ++ text.takeWhile (· ≠ sep) :=
  takeWhile_append_of_pos fun c hc => by
    simp only [ne_eq, decide_eq_true_eq]
    rintro rfl
    exact h hc

theorem afterLine_append_of_not_mem {piece text : List α} (h : sep ∉ piece) :
    afterLine sep (piece ++ text) = afterLine sep text := by
  rw [afterLine, dropWhile_append_of_pos, afterLine]
  intro c hc
  simp only [ne_eq, decide_eq_true_eq]
  rintro rfl
  exact h hc

/-- A text of which a part with a separator is at hand. -/
theorem takeWhile_append_of_mem {piece text : List α} (h : sep ∈ piece) :
    (piece ++ text).takeWhile (· ≠ sep) = piece.takeWhile (· ≠ sep) := by
  induction piece with
  | nil => simp at h
  | cons c piece ih =>
    by_cases hc : c = sep
    · simp [hc]
    · simpa [hc] using ih ((mem_cons.1 h).resolve_left (Ne.symm hc))

theorem afterLine_append_of_mem {piece text : List α} (h : sep ∈ piece) :
    afterLine sep (piece ++ text) = afterLine sep piece ++ text := by
  induction piece with
  | nil => simp at h
  | cons c piece ih =>
    by_cases hc : c = sep
    · simp [afterLine, hc]
    · simpa [afterLine, hc] using ih ((mem_cons.1 h).resolve_left (Ne.symm hc))

/-- A text made of lines has these lines. -/
theorem lines_flatMap {ls : List (List α)} (h : ∀ l ∈ ls, sep ∉ l) (text : List α) :
    lines sep (ls.flatMap (· ++ [sep]) ++ text) = ls ++ lines sep text := by
  induction ls with
  | nil => rfl
  | cons l ls ih =>
    rw [forall_mem_cons] at h
    rw [flatMap_cons, append_assoc, append_assoc, lines_of_ne_nil (by simp),
      takeWhile_append_of_not_mem h.1, afterLine_append_of_not_mem h.1]
    simp only [takeWhile_cons_of_neg, afterLine, dropWhile_cons_of_neg, ne_eq, not_true,
      decide_false,
      Bool.false_eq_true, not_false_eq_true, append_nil, tail_cons, nil_append, cons_append, ih h.2]

/-! ## Complete lines -/

/-- The lines of a text that end with a separator. -/
def fullLines (sep : α) (text : List α) : List (List α) := lines sep (text.rdropWhile (· ≠ sep))

theorem fullLines_of_not_mem {text : List α} (h : sep ∉ text) : fullLines sep text = [] := by
  have hall : ∀ c ∈ text, decide (c ≠ sep) = true := fun c hc =>
    decide_eq_true fun heq => h (heq ▸ hc)
  rw [fullLines, rdropWhile_eq_nil_iff.2 hall, lines_nil]

/-- What is dropped at the end of a text is after its first separator. -/
theorem rdropWhile_append_cons (line text : List α) :
    (line ++ sep :: text).rdropWhile (· ≠ sep) = line ++ sep :: text.rdropWhile (· ≠ sep) := by
  rw [rdropWhile, reverse_append, reverse_cons, append_assoc, dropWhile_append, rdropWhile]
  cases hd : text.reverse.dropWhile (· ≠ sep) with
  | nil => simp
  | cons c cs => simp

theorem fullLines_of_mem {text : List α} (h : sep ∈ text) :
    fullLines sep text = text.takeWhile (· ≠ sep) :: fullLines sep (afterLine sep text) := by
  obtain ⟨line, rest, rfl, hline⟩ := eq_append_cons_of_mem h
  have htake : (line ++ sep :: rest).takeWhile (· ≠ sep) = line := by
    rw [takeWhile_append_of_not_mem hline, takeWhile_cons_of_neg (by simp), append_nil]
  have hafter : afterLine sep (line ++ sep :: rest) = rest := by
    rw [afterLine_append_of_not_mem hline, afterLine, dropWhile_cons_of_neg (by simp), tail_cons]
  rw [htake, hafter, fullLines, rdropWhile_append_cons, lines_of_ne_nil (by simp),
    takeWhile_append_of_not_mem hline, afterLine_append_of_not_mem hline, afterLine,
    takeWhile_cons_of_neg (by simp), dropWhile_cons_of_neg (by simp), append_nil,
    tail_cons, fullLines]

end List

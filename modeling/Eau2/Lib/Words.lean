import Mathlib.Data.List.TakeWhile

/-!
# Words

The words of a text are what is between separators, unless there is nothing (`words`). Whoever
goes over a text takes the word at its front (`words_append_cons`) and drops the separators
after it (`words_dropWhile`).
-/

namespace List

variable {α : Type*} {p : α → Bool} {text : List α}

/-- The words of a text with the separators `p`. -/
def words (p : α → Bool) (text : List α) : List (List α) :=
  (text.splitOnP p).filter fun w => !w.isEmpty

@[simp] theorem words_nil : words p [] = [] := by simp [words]

theorem words_cons_of_pos {sep : α} (hsep : p sep) : words p (sep :: text) = words p text := by
  simp [words, splitOnP_cons_eq_if_modifyHead, hsep]

/-- Separators in front of a text. -/
theorem words_dropWhile (text : List α) : words p (text.dropWhile p) = words p text := by
  induction text with
  | nil => rfl
  | cons c text ih =>
    rw [dropWhile_cons]
    split_ifs with hc
    · rw [ih, words_cons_of_pos hc]
    · rfl

/-- A word in front of a text. -/
theorem words_append_cons {w : List α} {sep : α} (hne : w ≠ []) (hw : ∀ c ∈ w, p c = false)
    (hsep : p sep) : words p (w ++ sep :: text) = w :: words p text := by
  rw [words, splitOnP_append_cons_of_forall_mem hw sep hsep, filter_cons_of_pos
    (by simpa using hne), words]

/-- A text that has a separator at its end has a word in front, if no separator is there. -/
theorem exists_word {c : α} (hc : p c = false) (hlast : ∀ d ∈ (c :: text).getLast?, p d) :
    ∃ w sep rest, c :: text = w ++ sep :: rest ∧ w ≠ [] ∧ (∀ d ∈ w, p d = false) ∧ p sep := by
  have hhead : (c :: text).takeWhile (fun d => !p d) ≠ [] := by simp [hc]
  cases hrest : (c :: text).dropWhile (fun d => !p d) with
  | nil =>
    -- the last of the text is a separator, so not all of it is the word
    have hlast := hlast _ (getLast?_eq_some_getLast (cons_ne_nil c text))
    have hall := dropWhile_eq_nil_iff.1 hrest _ (getLast_mem (cons_ne_nil c text))
    rw [hlast] at hall
    cases hall
  | cons sep rest =>
    refine ⟨_, sep, rest, ?_, hhead, fun d hd => ?_, ?_⟩
    · rw [← hrest, takeWhile_append_dropWhile]
    · simpa using mem_takeWhile_imp hd
    · have := head_dropWhile_not (fun d => !p d) (l := c :: text) (by simp [hrest])
      simpa [hrest] using this

/-- A word has a character at least. -/
theorem length_words_le (text : List α) : (words p text).length ≤ text.length := by
  induction text with
  | nil => simp
  | cons c text ih =>
    rw [words] at ih ⊢
    rw [splitOnP_cons_eq_if_modifyHead]
    split_ifs
    · exact ih.trans (Nat.le_succ _)
    · cases hs : text.splitOnP p with
      | nil => exact absurd hs (splitOnP_ne_nil p text)
      | cons first rest =>
        rw [hs, filter_cons] at ih
        rw [modifyHead_cons, filter_cons_of_pos rfl, length_cons, length_cons]
        refine Nat.succ_le_succ (le_trans ?_ ih)
        split_ifs
        · exact Nat.le_succ _
        · exact le_rfl

theorem ne_nil_of_mem_words {w : List α} (h : w ∈ words p text) : w ≠ [] := by
  simpa using (mem_filter.1 h).2

/-- What is in a word is in the text. -/
theorem subset_of_mem_words {w : List α} (h : w ∈ words p text) : w ⊆ text := by
  have hsplit : ∀ w ∈ text.splitOnP p, w ⊆ text := by
    clear h
    induction text with
    | nil => simp
    | cons c text ih =>
      rw [splitOnP_cons_eq_if_modifyHead]
      split_ifs
      · exact forall_mem_cons.2 ⟨nil_subset _, fun w hw => subset_cons_of_subset c (ih w hw)⟩
      · cases hs : text.splitOnP p with
        | nil => exact absurd hs (splitOnP_ne_nil p text)
        | cons first rest =>
          rw [hs, forall_mem_cons] at ih
          exact forall_mem_cons.2 ⟨cons_subset_cons c ih.1, fun w hw =>
            subset_cons_of_subset c (ih.2 w hw)⟩
  exact hsplit w (mem_filter.1 h).1

end List

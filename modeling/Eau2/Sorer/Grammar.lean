import Eau2.Sorer.Append
import Eau2.Sorer.Render

/-!
# The grammar of a line

What the fields of a line are, without a scanner (`Grammar`): a field begins at the
next `<`, and ends at the first `>` with an even number of quotes between; a field
without an end is none.

Main result: `scanLine_grammar`. Every line has exactly one list of fields, which is
what `_scanLine` reports in each of its modes, and a rendered list of contents has
these as its fields.
-/

namespace Eau2.SorParser

/-- The end of `text` is between quotes. -/
def inQuotes (text : Bytes) : Bool := text.count 34 % 2 = 1

/-- Each `>` of `text` is between quotes, when `front` is before it in the field. -/
def Enclosed (front text : Bytes) : Prop :=
  ∀ before after, text = before ++ 62 :: after → inQuotes (front ++ before) = true

/-- The fields of a line. -/
inductive Grammar : Bytes → List Bytes → Prop
  /-- No field begins. -/
  | nil {sep : Bytes} (h : 60 ∉ sep) : Grammar sep []
  /-- The last field does not end. -/
  | unterminated {sep text : Bytes} (h : 60 ∉ sep) (htext : Enclosed [] text) :
      Grammar (sep ++ 60 :: text) []
  | field {sep content line : Bytes} {fs : List Bytes} (h : 60 ∉ sep)
      (hcontent : Enclosed [] content)
      (hquotes : inQuotes content = false) (hline : Grammar line fs) :
      Grammar (sep ++ 60 :: (content ++ 62 :: line)) (content :: fs)

/-- A line with the contents of its fields, each after the separator before it. -/
def render (cells : List (Bytes × Bytes)) (last : Bytes) : Bytes :=
  cells.flatMap (fun (sep, content) => sep ++ 60 :: (content ++ [62])) ++ last

variable {line text : Bytes} {fs : List Bytes}

/-! ## A field -/

theorem inQuotes_concat (front : Bytes) (c : UInt8) :
    inQuotes (front ++ [c]) = if c = 34 then !inQuotes front else inQuotes front := by
  by_cases hc : c = 34
  · rw [if_pos hc, hc, inQuotes, inQuotes, List.count_append, List.count_singleton_self,
      ← decide_not, decide_eq_decide]
    omega
  · have hzero : [c].count 34 = 0 := List.count_eq_zero.2 (by simpa using Ne.symm hc)
    rw [if_neg hc, inQuotes, inQuotes, List.count_append, hzero, Nat.add_zero]

theorem Enclosed.tail {front : Bytes} {c : UInt8} (h : Enclosed front (c :: text)) :
    Enclosed (front ++ [c]) text := by
  intro before after heq
  have hquotes := h (c :: before) after (by rw [heq]; rfl)
  rwa [← List.append_cons]

/-- Bytes that do not end the field. -/
theorem fieldsFrom_enclosed {front : Bytes} (h : Enclosed front text) (line : Bytes) :
    fieldsFrom true (inQuotes front) front (text ++ line) =
      fieldsFrom true (inQuotes (front ++ text)) (front ++ text) line := by
  induction text generalizing front with
  | nil => rw [List.nil_append, List.append_nil]
  | cons c text ih =>
    have hstep : fieldsFrom true (inQuotes front) front (c :: (text ++ line)) =
        fieldsFrom true (inQuotes (front ++ [c])) (front ++ [c]) (text ++ line) := by
      rw [fieldsFrom, inQuotes_concat]
      by_cases hquote : c = 34
      · rw [if_pos hquote, if_pos hquote]
      · have hend : ¬(c = 62 ∧ inQuotes front = false) := by
          rintro ⟨rfl, hfalse⟩
          have htrue := h [] text rfl
          rw [List.append_nil, hfalse] at htrue
          cases htrue
        rw [if_neg hquote, if_neg hquote, if_neg hend]
    rw [List.cons_append, hstep, ih h.tail, ← List.append_cons]

/-- The first `>` that ends a field, if there is one. -/
theorem enclosed_or_end (front text : Bytes) : Enclosed front text ∨
    ∃ content line, text = content ++ 62 :: line ∧ Enclosed front content ∧
    inQuotes (front ++ content) = false := by
  induction text generalizing front with
  | nil => exact .inl fun before after heq => absurd heq (by simp)
  | cons c text ih =>
    by_cases hend : c = 62 ∧ inQuotes front = false
    · refine .inr ⟨[], text, by rw [hend.1]; rfl, fun before after heq => absurd heq (by simp), ?_⟩
      rw [List.append_nil]
      exact hend.2
    · -- The byte `c` does not end the field, as it is no `>` or is between quotes.
      have hcons {rest : Bytes} (h : Enclosed (front ++ [c]) rest) :
          Enclosed front (c :: rest) := by
        intro before after heq
        cases before with
        | nil =>
          obtain ⟨rfl, -⟩ := List.cons_eq_cons.1 heq
          rw [List.append_nil, ← Bool.not_eq_false]
          exact fun hfalse => hend ⟨rfl, hfalse⟩
        | cons d before =>
          obtain ⟨rfl, hrest⟩ := List.cons_eq_cons.1 heq
          have hquotes := h before after hrest
          rwa [← List.append_cons] at hquotes
      rcases ih (front ++ [c]) with h | ⟨content, line, rfl, h, hquotes⟩
      · exact .inl (hcons h)
      · rw [← List.append_cons] at hquotes
        exact .inr ⟨c :: content, line, rfl, hcons h, hquotes⟩

/-! ## A line -/

/-- The fields of the grammar are those that are scanned. -/
theorem Grammar.fieldsFrom_eq (h : Grammar line fs) (field : Bytes) :
    fieldsFrom false false field line = fs := by
  induction h generalizing field with
  | nil h => exact (fieldsFrom_sep h false field field []).2
  | @unterminated sep text h htext =>
    have hopen := fieldsFrom_enclosed htext []
    rw [List.append_nil] at hopen
    rw [(fieldsFrom_sep h false field field text).1]
    exact hopen.trans (by rw [fieldsFrom])
  | @field sep content line fs h hcontent hquotes _ ih =>
    have hopen := fieldsFrom_enclosed hcontent (62 :: line)
    rw [List.nil_append, hquotes, fieldsFrom_end, ih] at hopen
    rw [(fieldsFrom_sep h false field field (content ++ 62 :: line)).1]
    exact hopen

/-- Every line has fields. -/
theorem grammar_fieldsFrom (line : Bytes) : Grammar line (fieldsFrom false false [] line) := by
  suffices ∃ fs, Grammar line fs by
    obtain ⟨fs, h⟩ := this
    rwa [h.fieldsFrom_eq]
  induction hn : line.length using Nat.strong_induction_on generalizing line with
  | _ n ih =>
    by_cases hmem : 60 ∈ line
    · obtain ⟨sep, text, rfl, hsep⟩ := List.eq_append_cons_of_mem hmem
      rcases enclosed_or_end [] text with h | ⟨content, line, rfl, h, hquotes⟩
      · exact ⟨[], .unterminated hsep h⟩
      · obtain ⟨fs, hfs⟩ := ih line.length (by simp [← hn]; omega) line rfl
        exact ⟨content :: fs, .field hsep h hquotes hfs⟩
    · exact ⟨[], .nil hmem⟩

/-- A rendered list of contents has these as its fields. -/
theorem grammar_render {cells : List (Bytes × Bytes)} {last : Bytes} (hlast : 60 ∉ last)
    (h : ∀ cell ∈ cells, 60 ∉ cell.1 ∧ Enclosed [] cell.2 ∧ inQuotes cell.2 = false) :
    Grammar (render cells last) (cells.map Prod.snd) := by
  induction cells with
  | nil => exact .nil hlast
  | cons cell cells ih =>
    obtain ⟨sep, content⟩ := cell
    rw [List.forall_mem_cons] at h
    have heq : render ((sep, content) :: cells) last = sep ++ 60 ::
        (content ++ 62 :: render cells last) := by
      simp [render]
    rw [heq]
    exact .field h.1.1 h.1.2.1 h.1.2.2 (ih h.2)

/-- Every line has one list of fields. `_scanLine` reports these, with their indices, and
    returns how many there are, whatever the mode does with a field: it counts them,
    guesses from them, or appends them. -/
theorem scanLine_grammar (line : Bytes) (hnul : 0 ∉ line) :
    ∃ fs, Grammar line fs ∧ (∀ fs', Grammar line fs' → fs' = fs) ∧
    (∀ {m : Type → Type} [Monad m] [LawfulMonad m] {σ : Type} (onField : Bytes → Nat → σ → m σ)
        (s : σ), scanLine onField line s =
      (fs.length, ·) <$> fs.zipIdx.foldlM (fun s (field, i) => onField field i s) s) ∧
    (∀ maxColumns, detectNumColumns line maxColumns = some (max maxColumns fs.length)) ∧
    (∀ typeGuesses, detectSchema line typeGuesses =
      fs.zipIdx.foldlM (fun typeGuesses (field, i) => guessFieldType field i typeGuesses)
      typeGuesses) ∧
    (∀ numNodes toDouble columns, appendLine numNodes toDouble line columns =
      fs.zipIdx.foldlM (fun columns (field, i) =>
        appendField numNodes toDouble field i columns) columns) ∧
    (∀ cells last, line = render cells last → 60 ∉ last →
      (∀ cell ∈ cells, 60 ∉ cell.1 ∧ Enclosed [] cell.2 ∧ inQuotes cell.2 = false) →
      fs = cells.map Prod.snd) := by
  have hfields : fields line = fieldsFrom false false [] line := by
    rw [fields, cString_of_not_mem hnul]
  have hunique : ∀ fs', Grammar line fs' → fs' = fields line := by
    intro fs' h
    rw [hfields, h.fieldsFrom_eq]
  refine ⟨fields line, hfields ▸ grammar_fieldsFrom line, hunique, fun onField s =>
    scanLine_eq onField line s,
    fun maxColumns => ?_, fun typeGuesses => ?_, fun numNodes toDouble columns => ?_,
    fun cells last hline hlast h => ?_⟩
  · rw [detectNumColumns_eq, max_def]
    refine congrArg some ?_
    split_ifs <;> omega
  · rw [detectSchema, scanLine_eq]
    cases h : (fields line).zipIdx.foldlM (fun s (field, i) => guessFieldType field i s) typeGuesses
      <;> rfl
  · exact appendLine_eq ..
  · exact (hunique _ (hline ▸ grammar_render hlast h)).symm

/-- A `>` between quotes, and a field without an end. -/
theorem scanLine_grammar_one : ∃ fs, Grammar (lit "a<\">\"b>c<d") fs ∧ fs.length = 1 := by
  obtain ⟨fs, h, -, -, hcount, -⟩ := scanLine_grammar (lit "a<\">\"b>c<d") (by decide)
  have hone : detectNumColumns (lit "a<\">\"b>c<d") 0 = some 1 := by decide
  have hlength := Option.some.inj ((hcount 0).symm.trans hone)
  rw [Nat.zero_max] at hlength
  exact ⟨fs, h, hlength⟩

end Eau2.SorParser

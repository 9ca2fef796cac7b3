import Eau2.Sorer.LineReader

/-!
# Reading a range of a file

A reader of a whole file gives its lines in order and then null pointers for ever,
and the same again after each `reset` (`readLine_lines`).

A reader of a range from `start` to `stop` is to skip up to the first newline and to
leave what follows the last one before `stop` (`rangeLines`). It does so on some of the
ranges only (`readLine_range`):

* what it asks for is bounded by the size of the range and not by what is left of it, so
  that it reads over the end of a range of more than 4096 bytes that is not cut into
  buffers of 4096;
* at the end of the file it does not know that a line was to be skipped: it gives the
  line all the same when it has no newline, and an empty line when nothing follows its
  newline.
-/

namespace Eau2.LineReader

variable {file rest : Bytes} {start stop : Nat} {r : LineReader}

/-! ## Calls of a reader -/

/-- A call of a reader. -/
inductive Call
  | readLine
  | reset

/-- What `readLine` returns, call after call. -/
def run : List Call → LineReader → Option (List (Option Bytes) × LineReader)
  | [], r => some ([], r)
  | .readLine :: calls, r => do
    let (line, r) ← r.readLine
    let (lines, r) ← run calls r
    some (line :: lines, r)
  | .reset :: calls, r => run calls r.reset

theorem run_readLine {r' : LineReader} {line : Option Bytes} (h : r.readLine = some (line, r'))
    (calls : List Call) :
    run (.readLine :: calls) r = (run calls r').map fun p => (line :: p.1, p.2) := by
  rw [run, h]
  cases hrun : run calls r' with
  | none => simp [hrun]
  | some p => simp [hrun]

/-- What it is to return: the lines to come, one after the other, and from the first of
    `all` on after a reset. -/
def expected (all : List Bytes) : List Call → List Bytes → List (Option Bytes)
  | [], _ => []
  | .readLine :: calls, lines => lines.head? :: expected all calls lines.tail
  | .reset :: calls, _ => expected all calls all

/-- A reader between two calls, which has no line to skip before `rest`. -/
structure Ready (file : Bytes) (start stop : Nat) (rest : Bytes) (r : LineReader) : Prop where
  part : Part file start stop rest r
  currentLine : r.currentLine = none
  fresh : r.readSize = 0 → start ≠ 0 → rest = []

theorem Ready.readLine (h : Ready file start stop rest r) :
    ∃ r', r.readLine = some ((linesOf (decide (stop = file.length)) rest).head?, r') ∧
      Ready file start stop (rest.afterLine newline) r' := by
  obtain ⟨r', hr, hpart, hnone, hle, -⟩ := readLine_part h.part h.currentLine rfl
  by_cases hskip : r.readSize = 0 ∧ start ≠ 0
  · obtain rfl := h.fresh hskip.1 hskip.2
    rw [lineFrom_nil, ite_self] at hr
    rw [restFrom_nil] at hpart
    rw [linesOf_nil]
    exact ⟨r', hr, hpart, hnone, fun _ _ => rfl⟩
  · rw [decide_eq_false hskip] at hr hpart
    rw [lineFrom_false, lineOf_none] at hr
    exact ⟨r', hr, hpart, hnone, fun hzero hne => absurd ⟨by omega, hne⟩ hskip⟩

/-- The first line of a range is skipped. -/
theorem readLine_first (h : Part file start stop rest r) (hnone : r.currentLine = none)
    (hunread : r.unread = []) (hsize : r.readSize = 0) (hstart : start ≠ 0) :
    ∃ r', r.readLine = some (lineFrom (decide (stop = file.length)) true none rest, r') ∧
      Ready file start stop ((rest.afterLine newline).afterLine newline) r' := by
  obtain ⟨r', hr, hpart, hnone', -, hlt⟩ :=
    readLine_part h hnone (decide_eq_true ⟨hsize, hstart⟩).symm
  refine ⟨r', hr, hpart, hnone', fun hzero _ => ?_⟩
  have hnil : rest = [] := by
    by_contra hne
    have := hlt hunread hne
    omega
  rw [hnil, List.afterLine_nil, List.afterLine_nil]

/-! ## Whole files -/

theorem ready_of_whole (h : Part file 0 file.length rest r) (hnone : r.currentLine = none) :
    Ready file 0 file.length rest r := ⟨h, hnone, fun _ hne => absurd rfl hne⟩

theorem run_ready (calls : List Call) (h : Ready file 0 file.length rest r) :
    ∃ r', run calls r = some (expected (file.lines newline) calls (rest.lines newline), r') := by
  induction calls generalizing rest r with
  | nil => exact ⟨r, rfl⟩
  | cons call calls ih =>
    cases call with
    | readLine =>
      obtain ⟨r₁, hr, hready⟩ := h.readLine
      obtain ⟨r₂, hrun⟩ := ih hready
      rw [linesOf, if_pos (decide_eq_true rfl)] at hr
      rw [← List.lines_tail] at hrun
      exact ⟨r₂, by rw [run_readLine hr, hrun]; rfl⟩
    | reset =>
      have hpart := h.part.reset
      rw [got_of_eq, List.drop_zero] at hpart
      exact ih (ready_of_whole hpart rfl)

/-- A reader of a whole file gives the lines of the file, and then null pointers; it
    gives them again after a reset, wherever it is. -/
theorem readLine_lines (file : Bytes) (calls : List Call) :
    ∃ r, run calls (new file 0 file.length file.length) =
      some (expected (file.lines newline) calls (file.lines newline), r) := by
  have hpart := part_new file (Nat.zero_le file.length) le_rfl
  rw [got_of_eq, List.drop_zero] at hpart
  exact run_ready calls (ready_of_whole hpart rfl)

/-! ## Ranges -/

/-- The complete lines of the range: without what comes up to the first newline, unless
    the range starts where the file does, and without what follows the last one, unless
    it ends where the file does. -/
def rangeLines (file : Bytes) (start stop : Nat) : List Bytes :=
  let text := (file.take stop).drop start
  linesOf (stop = file.length) (if start = 0 then text else text.afterLine newline)

/-- `k` calls of `readLine` return the lines of the range and then null pointers, and get
    no byte of the file from `stop` on. -/
def InRange (file : Bytes) (start stop k : Nat) : Prop :=
  ∃ r, run (List.replicate k .readLine) (new file start stop file.length) =
      some (expected (rangeLines file start stop) (List.replicate k .readLine)
        (rangeLines file start stop), r) ∧
    r.offset ≤ stop

/-- The ranges that are read as they should be. -/
def Readable (file : Bytes) (start stop : Nat) : Prop :=
  (stop = file.length → 0 < start → start = stop ∨ (file.drop start).afterLine newline ≠ []) ∧
    (stop < file.length → stop - start ≤ 4096 ∨ 4096 ∣ stop - start)

/-- The calls of a reader that is past its first line. -/
theorem run_replicate (all : List Bytes) (k : Nat) (h : Ready file start stop rest r) :
    ∃ r', run (List.replicate k .readLine) r = some (expected all (List.replicate k .readLine)
        (linesOf (decide (stop = file.length)) rest), r') ∧
      Ready file start stop ((List.afterLine newline)^[k] rest) r' := by
  induction k generalizing rest r with
  | zero => exact ⟨r, rfl, h⟩
  | succ k ih =>
    obtain ⟨r₁, hr, hready⟩ := h.readLine
    obtain ⟨r₂, hrun, hready₂⟩ := ih hready
    rw [linesOf_afterLine] at hrun
    exact ⟨r₂, by rw [List.replicate_succ, run_readLine hr, hrun]; rfl, hready₂⟩

/-- The first line of a range. -/
def firstLine (file : Bytes) (start stop : Nat) : Option Bytes :=
  lineFrom (decide (stop = file.length)) (decide (start ≠ 0)) none (got file start stop)

/-- The calls of a new reader. -/
theorem run_new (hle : start ≤ stop) (hstop : stop ≤ file.length) (all : List Bytes) (k : Nat) :
    ∃ r', run (List.replicate (k + 1) .readLine) (new file start stop file.length) =
        some (firstLine file start stop :: expected all (List.replicate k .readLine)
          (linesOf (decide (stop = file.length))
            (restFrom (decide (start ≠ 0)) (got file start stop))), r') ∧
      Ready file start stop ((List.afterLine newline)^[k]
        (restFrom (decide (start ≠ 0)) (got file start stop))) r' := by
  have hpart := part_new file hle hstop
  have hfirst : ∃ r₁, (new file start stop file.length).readLine =
    some (firstLine file start stop, r₁) ∧
      Ready file start stop (restFrom (decide (start ≠ 0)) (got file start stop)) r₁ := by
    by_cases hzero : start = 0
    · have hready : Ready file start stop (got file start stop) (new file start stop file.length) :=
        ⟨hpart, rfl, fun _ hne => absurd hzero hne⟩
      rw [firstLine, decide_eq_false (not_not.2 hzero), lineFrom_false, lineOf_none]
      exact hready.readLine
    · rw [firstLine, decide_eq_true hzero]
      exact readLine_first hpart rfl rfl rfl hzero
  obtain ⟨r₁, hr, hready⟩ := hfirst
  obtain ⟨r₂, hrun, hready₂⟩ := run_replicate all k hready
  exact ⟨r₂, by rw [List.replicate_succ, run_readLine hr, hrun]; rfl, hready₂⟩

/-- The first line, where the reader knows that a line was to be skipped. -/
theorem firstLine_eq (h : stop = file.length → 0 < start →
      got file start stop = [] ∨ (got file start stop).afterLine newline ≠ []) :
    firstLine file start stop = (linesOf (decide (stop = file.length))
      (if start = 0 then got file start stop else
        (got file start stop).afterLine newline)).head? := by
  rw [firstLine]
  generalize got file start stop = rest at *
  by_cases hzero : start = 0
  · rw [decide_eq_false (not_not.2 hzero), lineFrom_false, lineOf_none, if_pos hzero]
  · rw [decide_eq_true hzero, if_neg hzero, ← lineOf_none]
    -- the end of a line would be returned as well, if no line began in the range
    by_cases hmem : newline ∈ rest
    · rw [lineFrom, if_pos ⟨rfl, hmem⟩, lineOf, lineOf]
      split_ifs with hnext hwhole hnil
      · rfl
      · rcases h (of_decide_eq_true hwhole) (Nat.pos_of_ne_zero hzero) with hrest | hne
        · rw [hrest] at hmem
          cases hmem
        · exact absurd hnil hne
      · rfl
      · rfl
    · rw [lineFrom, if_neg fun hskip => hmem hskip.2, List.afterLine_of_not_mem hmem, lineOf,
        if_neg hmem]
      split_ifs with hwhole hnil
      · rw [hwhole]
        rfl
      · exact absurd (List.afterLine_of_not_mem hmem)
          ((h (of_decide_eq_true hwhole) (Nat.pos_of_ne_zero hzero)).resolve_left hnil)
      · rw [Bool.not_eq_true _] at hwhole
        rw [hwhole]
        rfl

/-- What a reader of a readable range gets is the range. -/
theorem got_of_readable (hstop : stop ≤ file.length) (h : Readable file start stop) :
    got file start stop = (file.take stop).drop start := by
  by_cases hwhole : stop = file.length
  · rw [hwhole, got_of_eq, List.take_length]
  · have hsize : List.numChunks (bufSize start stop) (stop - start) * bufSize start stop =
        stop - start := by
      have hbuf : bufSize start stop = min 4096 (stop - start) := rfl
      rcases h.2 (lt_of_le_of_ne hstop hwhole) with hshort | hdvd
      · rw [min_eq_right hshort] at hbuf
        rw [hbuf, List.numChunks]
        rcases Nat.eq_zero_or_pos (stop - start) with hzero | hpos
        · rw [hzero]
        · rw [Nat.div_eq_of_lt (Nat.sub_lt hpos Nat.one_pos), Nat.zero_add, Nat.one_mul]
      · rcases Nat.eq_zero_or_pos (stop - start) with hzero | hpos
        · rw [hbuf, hzero]
          rfl
        · rw [min_eq_left (Nat.le_of_dvd hpos hdvd)] at hbuf
          rw [hbuf, List.numChunks]
          omega
    rw [got, hsize, List.drop_take]

/-- What a reader gets of a range that is not cut into buffers. -/
theorem lt_length_got (hlt : stop < file.length) (hlong : 4096 < stop - start)
    (hdvd : ¬4096 ∣ stop - start) :
    stop - start < (got file start stop).length := by
  have hbuf : bufSize start stop = 4096 := min_eq_left hlong.le
  rw [length_got, hbuf, List.numChunks]
  omega

theorem Ready.offset_le (h : Ready file start stop rest r) :
    r.offset ≤ start + (got file start stop).length :=
  h.part.offset.trans_le (Nat.add_le_add_left h.part.le start)

/-- A reader with nothing to come has got all there is to get. -/
theorem Ready.offset_eq (h : Ready file start stop [] r) :
    r.offset = start + (got file start stop).length := by
  have hrest := (List.append_eq_nil_iff.1 h.part.rest).2
  have hge := List.drop_eq_nil_iff.1 hrest
  have hle := h.part.le
  rw [h.part.offset]
  omega

theorem iterate_afterLine {k : Nat} (h : rest.length ≤ k) :
    (List.afterLine newline)^[k] rest = [] := by
  induction k generalizing rest with
  | zero => exact List.length_eq_zero_iff.1 (Nat.le_zero.1 h)
  | succ k ih =>
    have hle := List.length_afterLine_le newline rest
    exact ih (by omega)

theorem length_restFrom_le (skipLine : Bool) (rest : Bytes) :
    (restFrom skipLine rest).length ≤ rest.length := by
  have h₁ := List.length_afterLine_le newline rest
  have h₂ := List.length_afterLine_le newline (rest.afterLine newline)
  rw [restFrom]
  split_ifs <;> omega

/-- A range up to the end of the file is empty, or a line begins in it: otherwise the end of
    a line that begins before would be returned. -/
theorem eq_or_ne_of_inRange (hle : start ≤ stop) (hstop : stop ≤ file.length)
    (h : ∀ k, InRange file start stop k) (hwhole : stop = file.length) (hpos : 0 < start) :
    start = stop ∨ (file.drop start).afterLine newline ≠ [] := by
  by_contra hnot
  rw [not_or, not_not] at hnot
  obtain ⟨r, hrun, -⟩ := h 1
  obtain ⟨r', hrun', -⟩ := run_new hle hstop (rangeLines file start stop) 0
  have heq := congrArg Prod.fst (Option.some.inj (hrun'.symm.trans hrun))
  have hfirst : firstLine file start stop = (rangeLines file start stop).head? :=
    (List.cons_eq_cons.1 heq).1
  have hne : file.drop start ≠ [] := by
    rw [ne_eq, List.drop_eq_nil_iff]
    omega
  have hnone : (rangeLines file start stop).head? = none := by
    rw [rangeLines, if_neg hpos.ne', hwhole, List.take_length, hnot.2, linesOf_nil, List.head?_nil]
  rw [hnone, firstLine, hwhole, got_of_eq, decide_eq_true hpos.ne', decide_eq_true rfl,
    lineFrom, hnot.2] at hfirst
  split_ifs at hfirst with hskip
  · cases hfirst
  · rw [lineOf, if_pos rfl, if_neg hne] at hfirst
    split_ifs at hfirst

/-- The last buffer of a range before the end of the file ends where the range does:
    otherwise enough calls would get the bytes after it. -/
theorem le_or_dvd_of_inRange (hle : start ≤ stop) (hstop : stop ≤ file.length)
    (h : ∀ k, InRange file start stop k) (hlt : stop < file.length) :
    stop - start ≤ 4096 ∨ 4096 ∣ stop - start := by
  by_contra hnot
  rw [not_or, not_le] at hnot
  have hgot := lt_length_got hlt hnot.1 hnot.2
  obtain ⟨r, hrun, hoffset⟩ := h ((got file start stop).length + 1)
  obtain ⟨r', hrun', hready⟩ := run_new hle hstop (rangeLines file start stop)
    (got file start stop).length
  obtain rfl : r' = r := congrArg Prod.snd (Option.some.inj (hrun'.symm.trans hrun))
  rw [iterate_afterLine (length_restFrom_le _ _)] at hready
  have := hready.offset_eq
  omega

/-- The ranges on which `readLine` returns the complete lines of the range, and gets no
    byte over its end. -/
theorem readLine_range (hle : start ≤ stop) (hstop : stop ≤ file.length) :
    (∀ k, InRange file start stop k) ↔ Readable file start stop := by
  constructor
  · exact fun h => ⟨eq_or_ne_of_inRange hle hstop h, le_or_dvd_of_inRange hle hstop h⟩
  · intro h k
    cases k with
    | zero => exact ⟨_, rfl, hle⟩
    | succ k =>
      obtain ⟨r, hrun, hready⟩ := run_new hle hstop (rangeLines file start stop) k
      -- what is got of the file is the range
      have hgot := got_of_readable hstop h
      have hlen : (got file start stop).length = stop - start := by
        rw [hgot, List.length_drop, List.length_take_of_le hstop]
      have hoffset := hready.offset_le
      have hfirst : firstLine file start stop = (rangeLines file start stop).head? := by
        rw [rangeLines, ← hgot]
        refine firstLine_eq fun hwhole hpos => ?_
        rw [hwhole, got_of_eq, List.drop_eq_nil_iff]
        exact (h.1 hwhole hpos).imp_left fun heq => by omega
      have htail : linesOf (decide (stop = file.length))
        (restFrom (decide (start ≠ 0)) (got file start stop)) =
          (rangeLines file start stop).tail := by
        rw [rangeLines, ← hgot, ← linesOf_afterLine, restFrom]
        by_cases hzero : start = 0
        · simp [hzero]
        · simp [hzero]
      rw [hfirst, htail] at hrun
      exact ⟨r, hrun, by omega⟩

/-- A range with one complete line. -/
theorem readLine_range_one :
    rangeLines (lit "ab\ncd\nef") 1 7 = [lit "cd"] ∧ InRange (lit "ab\ncd\nef") 1 7 3 := by
  refine ⟨by decide, (readLine_range (by decide) (by decide)).2 ⟨fun h => ?_, fun _ => ?_⟩ 3⟩
  · exact absurd h (by decide)
  · exact .inl (by decide)

/-- A range up to the end of the file that has no newline: its bytes are a line all the
    same. -/
theorem readLine_range_fails : ¬∀ (file : Bytes) (start stop : Nat), start ≤ stop →
    stop ≤ file.length → (0 < start ∨ stop < file.length) → ∀ k, InRange file start stop k := by
  intro h
  obtain ⟨r, hrun, -⟩ := h (lit "abcd") 2 4 (by decide) (by decide) (.inl (by decide)) 1
  have heq := congrArg (Option.map Prod.fst) hrun
  have hread : (run [.readLine] (new (lit "abcd") 2 4 4)).map Prod.fst = some [some (lit "cd")] :=
    by decide
  have hlines : expected (rangeLines (lit "abcd") 2 4) [.readLine] (rangeLines (lit "abcd") 2 4) =
    [none] := by decide
  cases (Option.some.inj (hread.symm.trans heq)).trans hlines

end Eau2.LineReader

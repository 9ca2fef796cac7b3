import Eau2.Lib.Chunk
import Eau2.Lib.Lines
import Eau2.Util.Bytes
import Mathlib.Tactic.Simps.Basic

/-!
# Reading lines

`LineReader` reads a file through a buffer of 4096 bytes and cuts it into lines.
A reader of a part of the file skips the first line, unless it starts where the
file does, and what it has of the last, unless it ends where the file does.

A `FILE*` is the contents of the file, a position and the end-of-file indicator;
`fread` gets what it asks for unless the file ends before. Positions are natural
numbers, with `file_start <= file_end`.

A reader of a part of the file gets it out of the file a buffer at a time, and
gives the lines of what it gets, wherever they are cut by the buffer
(`readLine_part`). One of a whole file gives the lines of the file
(`readLine_whole`).
-/

namespace Eau2

/-- The `'\n'` of the source. -/
def newline : UInt8 := 10

/-- A `LineReader`. -/
structure LineReader where
  /-- The contents of `_file`. -/
  file : Bytes
  /-- The position of `_file`. -/
  offset : Nat
  /-- `feof(_file)`. -/
  eof : Bool
  fileStart : Nat
  fileEnd : Nat
  fileSize : Nat
  /-- `_buf`, from `_pos` to `_buf_length`. -/
  unread : Bytes
  /-- `_current_line`, of `_current_line_size` bytes. -/
  currentLine : Option Bytes
  readSize : Nat

namespace LineReader

/-- `LineReader(FILE* file, size_t file_start, size_t file_end, size_t file_size)`. -/
def new (file : Bytes) (fileStart fileEnd fileSize : Nat) : LineReader where
  file
  offset := fileStart
  eof := false
  fileStart
  fileEnd
  fileSize
  unread := []
  currentLine := none
  readSize := 0

/-- `reset`. -/
def reset (r : LineReader) : LineReader :=
  { r with currentLine := none, offset := r.fileStart, eof := false, unread := [], readSize := 0 }

/-- `_get_current_line`. -/
def getCurrentLine (r : LineReader) : Option Bytes × LineReader :=
  (r.currentLine, { r with currentLine := none })

/-- `_append_current_line`, of the bytes `piece` of the buffer. -/
def appendCurrentLine (r : LineReader) (piece : Bytes) : LineReader :=
  { r with currentLine := some (r.currentLine.getD [] ++ piece) }

/-- How many bytes `readLine` asks for. -/
def toRead (r : LineReader) : Nat :=
  if r.fileEnd < r.fileStart + 4096 then 4096 - (r.fileStart + 4096 - r.fileEnd) else 4096

/-- `fread` into the buffer, which is empty. -/
def refill (r : LineReader) : LineReader :=
  let bytes := (r.file.drop r.offset).take r.toRead
  { r with
    offset := r.offset + bytes.length
    eof := r.eof || bytes.length < r.toRead
    unread := bytes
    readSize := r.readSize + bytes.length }

/-- The search for the next newline, in what is left of the buffer; `piece` has the
    bytes from `start` on. With it, what the search leaves: the line if it is complete,
    and whether a line is still to be skipped. -/
def search (skipLine : Bool) (piece : Bytes) :
    Bytes → LineReader → Option Bytes × Bool × LineReader
  | [], r => (none, skipLine, { r.appendCurrentLine piece with unread := [] })
  | c :: rest, r =>
    if c = newline then
      let (line, r) := { r.appendCurrentLine piece with unread := rest }.getCurrentLine
      if skipLine then search false [] rest r else (line, skipLine, r)
    else search skipLine (piece ++ [c]) rest r

/-- The loop of `readLine`, as long as it goes round at most `fuel` times. -/
def readLoop : Nat → Bool → LineReader → Option (Option Bytes × LineReader)
  | 0, _, _ => none
  | fuel + 1, skipLine, r =>
    let process (r : LineReader) : Option (Option Bytes × LineReader) :=
      match search skipLine [] r.unread r with
      | (some line, _, r) => some (some line, r)
      | (none, skipLine, r) => readLoop fuel skipLine r
    if r.unread = [] then
      if r.readSize ≥ r.fileEnd - r.fileStart ∨ r.eof then
        let (line, r) := r.getCurrentLine
        if r.fileEnd ≠ r.fileSize then some (none, r) else some (line, r)
      else
        let r := r.refill
        if r.unread = [] then readLoop fuel skipLine r else process r
    else process r

/-- `readLine`: the next line, or none for a null pointer. Every round but three gets
    something out of the file. -/
def readLine (r : LineReader) : Option (Option Bytes × LineReader) :=
  readLoop (r.file.length + 3) (r.readSize = 0 ∧ r.fileStart ≠ 0) r

/-- The loops over at most `k` lines: `body` is run on each. -/
def forLines {m : Type → Type} [Monad m] [MonadLiftT Option m] {σ : Type} (body : Bytes → σ → m σ) :
    Nat → LineReader → σ → m (σ × LineReader)
  | 0, r, s => pure (s, r)
  | k + 1, r, s => do
    let (line, r) ← monadLift r.readLine
    match line with
    | none => pure (s, r)
    | some line => do
      let s ← body line s
      forLines body k r s

/-! ## Parts of a file -/

/-- How many bytes a reader of the part asks for at a time. -/
def bufSize (start stop : Nat) : Nat := min 4096 (stop - start)

/-- What a reader of the part gets out of the file: the buffers that start before `stop`. -/
def got (file : Bytes) (start stop : Nat) : Bytes :=
  (file.drop start).take (List.numChunks (bufSize start stop) (stop - start) * bufSize start stop)

/-- A reader of the part of `file` from `start` to `stop`, with the bytes `rest` to come. -/
structure Part (file : Bytes) (start stop : Nat) (rest : Bytes) (r : LineReader) : Prop where
  file_eq : r.file = file
  fileStart : r.fileStart = start
  fileEnd : r.fileEnd = stop
  fileSize : r.fileSize = file.length
  start_le : start ≤ stop
  stop_le : stop ≤ file.length
  offset : r.offset = start + r.readSize
  le : r.readSize ≤ (got file start stop).length
  aligned : stop < file.length → r.readSize = (got file start stop).length ∨
    bufSize start stop ∣ r.readSize
  eof : r.eof = true → r.readSize = (got file start stop).length
  rest : r.unread ++ (got file start stop).drop r.readSize = rest

theorem part_new (file : Bytes) {start stop : Nat} (hle : start ≤ stop)
    (hstop : stop ≤ file.length) :
    Part file start stop (got file start stop) (new file start stop file.length) where
  file_eq := rfl
  fileStart := rfl
  fileEnd := rfl
  fileSize := rfl
  start_le := hle
  stop_le := hstop
  offset := rfl
  le := Nat.zero_le _
  aligned := fun _ => .inr (dvd_zero _)
  eof := nofun
  rest := rfl

variable {file rest : Bytes} {start stop : Nat} {r : LineReader}

/-- From the start again, wherever the reader is. -/
theorem Part.reset (h : Part file start stop rest r) :
    Part file start stop (got file start stop) r.reset where
  file_eq := h.file_eq
  fileStart := h.fileStart
  fileEnd := h.fileEnd
  fileSize := h.fileSize
  start_le := h.start_le
  stop_le := h.stop_le
  offset := h.fileStart
  le := Nat.zero_le _
  aligned := fun _ => .inr (dvd_zero _)
  eof := nofun
  rest := rfl

theorem length_got (file : Bytes) (start stop : Nat) : (got file start stop).length =
    min (List.numChunks (bufSize start stop) (stop - start) * bufSize start stop)
    (file.length - start) := by
  rw [got, List.length_take, List.length_drop]

/-- A reader gets all of the part. -/
theorem sub_le_length_got (start : Nat) (hstop : stop ≤ file.length) :
    stop - start ≤ (got file start stop).length := by
  rw [length_got]
  refine le_min ?_ (Nat.sub_le_sub_right hstop start)
  by_cases hlt : start < stop
  · exact List.le_numChunks_mul (lt_min (by decide) (Nat.sub_pos_of_lt hlt)) _
  · rw [Nat.sub_eq_zero_of_le (not_lt.1 hlt)]
    exact Nat.zero_le _

/-- A reader of a part that ends where the file does gets nothing else. -/
theorem got_of_eq (file : Bytes) (start : Nat) : got file start file.length = file.drop start := by
  have hle := sub_le_length_got start (le_refl file.length)
  rw [length_got] at hle
  exact List.take_of_length_le (by rw [List.length_drop]; omega)

theorem Part.toRead_eq (h : Part file start stop rest r) : r.toRead = bufSize start stop := by
  have := h.start_le
  rw [toRead, bufSize, h.fileStart, h.fileEnd]
  split_ifs <;> omega

/-- The search in a buffer without a newline takes all of it. -/
theorem search_of_not_mem {skipLine : Bool} {buf : Bytes} (h : newline ∉ buf) (piece : Bytes) :
    search skipLine piece buf r =
      (none, skipLine, { r.appendCurrentLine (piece ++ buf) with unread := [] }) := by
  induction buf generalizing piece with
  | nil => rw [search, List.append_nil]
  | cons c buf ih =>
    rw [List.mem_cons, not_or] at h
    rw [search, if_neg (Ne.symm h.1), ih h.2, List.append_assoc, List.singleton_append]

/-- The search in a buffer with a newline takes the bytes before it. -/
theorem search_of_mem {buf : Bytes} (h : newline ∈ buf) (piece : Bytes) :
    search false piece buf r =
      (some (r.currentLine.getD [] ++ (piece ++ buf.takeWhile (· ≠ newline))), false,
        { r with currentLine := none, unread := buf.afterLine newline }) := by
  induction buf generalizing piece with
  | nil => simp at h
  | cons c buf ih =>
    by_cases hc : c = newline
    · subst hc
      simp [search, List.afterLine, appendCurrentLine, getCurrentLine]
    · rw [search, if_neg hc, ih ((List.mem_cons.1 h).resolve_left (Ne.symm hc))]
      simp [List.afterLine, hc]

/-- The search that is to skip a line, in a buffer with a newline. -/
theorem search_skip {buf : Bytes} (h : newline ∈ buf) (piece : Bytes) :
    search true piece buf r = search false [] (buf.afterLine newline)
      { r with currentLine := none, unread := buf.afterLine newline } := by
  induction buf generalizing piece with
  | nil => simp at h
  | cons c buf ih =>
    by_cases hc : c = newline
    · subst hc
      simp [search, List.afterLine, appendCurrentLine, getCurrentLine]
    · rw [search, if_neg hc, ih ((List.mem_cons.1 h).resolve_left (Ne.symm hc))]
      simp [List.afterLine, hc]

/-! ## The loop -/

/-- The line that the loop ends with, from what it has of the line and the bytes to come. -/
def lineOf (whole : Bool) (cur : Option Bytes) (rest : Bytes) : Option Bytes :=
  if newline ∈ rest then some (cur.getD [] ++ rest.takeWhile (· ≠ newline))
  else if whole then if rest = [] then cur else some (cur.getD [] ++ rest)
  else none

/-- The same, when the loop is to skip a line: it has an empty line once it has come to
    the end of the line to skip. -/
def lineFrom (whole skipLine : Bool) (cur : Option Bytes) (rest : Bytes) : Option Bytes :=
  if skipLine ∧ newline ∈ rest then lineOf whole (some []) (rest.afterLine newline)
    else lineOf whole cur rest

/-- The bytes to come after it. -/
def restFrom (skipLine : Bool) (rest : Bytes) : Bytes :=
  if skipLine then (rest.afterLine newline).afterLine newline else rest.afterLine newline

@[simp] theorem lineFrom_false (whole : Bool) (cur : Option Bytes) (rest : Bytes) :
    lineFrom whole false cur rest = lineOf whole cur rest := by simp [lineFrom]

@[simp] theorem lineFrom_nil (whole skipLine : Bool) (cur : Option Bytes) :
    lineFrom whole skipLine cur [] = if whole then cur else none := by simp [lineFrom, lineOf]

@[simp] theorem restFrom_nil (skipLine : Bool) : restFrom skipLine [] = [] := by simp [restFrom]

/-- A piece without a newline goes to the current line. -/
theorem lineOf_append {whole : Bool} {piece : Bytes} (h : newline ∉ piece) {cur : Option Bytes}
    (hcur : cur.getD [] ++ piece = [] → cur = some []) (rest : Bytes) :
    lineOf whole cur (piece ++ rest) = lineOf whole (some (cur.getD [] ++ piece)) rest := by
  have hmem : newline ∈ piece ++ rest ↔ newline ∈ rest := by simp [h]
  rw [lineOf, lineOf, List.takeWhile_append_of_not_mem h, Option.getD_some, List.append_assoc,
    List.append_assoc]
  simp only [hmem]
  split_ifs with hnl hwhole hnil hrest hrest
  · rfl
  · rw [List.append_eq_nil_iff] at hnil
    rw [hnil.1, List.append_nil]
    cases cur with
    | none => exact hcur (by rw [hnil.1]; rfl)
    | some line => rfl
  · exact absurd (List.append_eq_nil_iff.1 hnil).2 hrest
  · rw [hrest, List.append_nil]
  · rfl
  · rfl

theorem lineFrom_append {whole skipLine : Bool} {piece : Bytes} (h : newline ∉ piece)
    (hne : piece ≠ []) (cur : Option Bytes) (rest : Bytes) :
    lineFrom whole skipLine cur (piece ++ rest) = lineFrom whole skipLine
    (some (cur.getD [] ++ piece)) rest := by
  have hmem : newline ∈ piece ++ rest ↔ newline ∈ rest := by simp [h]
  rw [lineFrom, lineFrom, List.afterLine_append_of_not_mem h,
    lineOf_append h (fun hnil => absurd (List.append_eq_nil_iff.1 hnil).2 hne)]
  simp only [hmem]

theorem restFrom_append {skipLine : Bool} {piece : Bytes} (h : newline ∉ piece) (rest : Bytes) :
    restFrom skipLine (piece ++ rest) = restFrom skipLine rest := by
  rw [restFrom, restFrom, List.afterLine_append_of_not_mem h]

/-- The search has come to the end of a line, or to that of the buffer with more of the
    line in it. -/
inductive Searched (r : LineReader) (whole skipLine : Bool) (rest : Bytes) : Prop
  | found (r' : LineReader) (line : Bytes) (skip' : Bool) (buf : Bytes)
      (search : search skipLine [] r.unread r = (some line, skip', r'))
      (reader : r' = { r with currentLine := none, unread := buf })
      (line_eq : lineFrom whole skipLine r.currentLine (r.unread ++ rest) = some line)
      (rest_eq : restFrom skipLine (r.unread ++ rest) = buf ++ rest)
  | more (r' : LineReader) (skip' : Bool) (line : Bytes)
      (search : search skipLine [] r.unread r = (none, skip', r'))
      (reader : r' = { r with currentLine := some line, unread := [] })
      (line_eq : lineFrom whole skipLine r.currentLine (r.unread ++ rest) = lineFrom whole skip'
        (some line) rest)
      (rest_eq : restFrom skipLine (r.unread ++ rest) = restFrom skip' rest)

theorem searched (hne : r.unread ≠ []) (whole skipLine : Bool) (rest : Bytes) :
    Searched r whole skipLine rest := by
  by_cases hmem : newline ∈ r.unread
  · have hmem' : newline ∈ r.unread ++ rest := List.mem_append_left _ hmem
    cases skipLine with
    | false =>
      refine .found _ _ _ _ (search_of_mem hmem []) rfl ?_ ?_
      · rw [lineFrom_false, lineOf, if_pos hmem', List.takeWhile_append_of_mem hmem,
          List.nil_append]
      · exact List.afterLine_append_of_mem hmem
    | true =>
      have hafter : (r.unread ++ rest).afterLine newline = r.unread.afterLine newline ++ rest :=
        List.afterLine_append_of_mem hmem
      have hline (cur : Option Bytes) : lineFrom whole true cur (r.unread ++ rest) =
          lineOf whole (some []) (r.unread.afterLine newline ++ rest) := by
        rw [lineFrom, if_pos ⟨rfl, hmem'⟩, hafter]
      have hrest : restFrom true (r.unread ++ rest) = (r.unread.afterLine newline ++ rest).afterLine
          newline := by
        rw [restFrom, if_pos rfl, hafter]
      -- the line to skip ends in the buffer, and the one after it may or may not
      by_cases hnext : newline ∈ r.unread.afterLine newline
      · refine .found _ _ _ _ ((search_skip hmem []).trans (search_of_mem hnext [])) rfl ?_ ?_
        · rw [hline, lineOf, if_pos (List.mem_append_left _ hnext),
            List.takeWhile_append_of_mem hnext]
          rfl
        · rw [hrest, List.afterLine_append_of_mem hnext]
      · refine .more _ _ _ ((search_skip hmem []).trans (search_of_not_mem hnext [])) rfl ?_ ?_
        · rw [hline, lineOf_append hnext fun _ => rfl, lineFrom_false]
          rfl
        · rw [hrest, List.afterLine_append_of_not_mem hnext]
          rfl
  · exact .more _ _ _ (search_of_not_mem hmem []) rfl (lineFrom_append hmem hne _ _)
      (restFrom_append hmem _)

/-- `fread` gets the next bytes of the part. -/
theorem Part.refill (h : Part file start stop rest r) (hnil : r.unread = [])
    (hlt : r.readSize < stop - start) :
    Part file start stop rest r.refill ∧ r.refill.unread ≠ [] ∧ r.readSize < r.refill.readSize := by
  have hgot := sub_le_length_got start h.stop_le
  have hpos : 0 < bufSize start stop := lt_min (by decide) (Nat.zero_lt_of_lt hlt)
  have hbuf : bufSize start stop ≤ stop - start := min_le_right _ _
  have hlength := length_got file start stop
  have hend : bufSize start stop ∣ r.readSize → r.readSize + bufSize start stop ≤
      List.numChunks (bufSize start stop) (stop - start) * bufSize start stop :=
    fun hdvd => List.add_le_numChunks_mul hdvd hlt
  have hstop := h.stop_le
  have hstart := h.start_le
  have hunread : r.refill.unread = (file.drop (start + r.readSize)).take (bufSize start stop) := by
    rw [← h.offset, ← h.file_eq, ← h.toRead_eq]
    rfl
  have hlen : r.refill.unread.length = min (bufSize start stop)
      (file.length - (start + r.readSize)) := by
    rw [hunread, List.length_take, List.length_drop]
  have hsize : r.refill.readSize = r.readSize + r.refill.unread.length := rfl
  -- a part before the end of the file is read in whole buffers, the last of them over its end
  have hle : r.refill.readSize ≤ (got file start stop).length := by
    by_cases hwhole : stop < file.length
    · rcases h.aligned hwhole with heq | hdvd
      · omega
      · have := hend hdvd
        omega
    · omega
  refine ⟨⟨h.file_eq, h.fileStart, h.fileEnd, h.fileSize, h.start_le, h.stop_le, ?_, hle, ?_, ?_,
    ?_⟩, ?_, ?_⟩
  · rw [hsize, ← Nat.add_assoc, ← h.offset]
    rfl
  · intro hwhole
    rcases h.aligned hwhole with heq | hdvd
    · omega
    · by_cases hfull : r.refill.unread.length = bufSize start stop
      · exact .inr (by rw [hsize, hfull]; exact Nat.dvd_add hdvd dvd_rfl)
      · left
        omega
  · intro heof
    rcases Bool.or_eq_true_iff.1 heof with he | he
    · exact absurd (h.eof he) (by omega)
    · have he : r.refill.unread.length < r.toRead := of_decide_eq_true he
      rw [h.toRead_eq] at he
      omega
  · -- The buffer holds the beginning of what is to come.
    have hrest : (got file start stop).drop r.readSize = rest := by simpa [hnil] using h.rest
    have hpiece : r.refill.unread = rest.take r.refill.unread.length := by
      rw [← hrest, got, List.drop_take, List.drop_drop, List.take_take, min_eq_left (by omega),
        hlen, hunread, List.take_eq_take_min, List.length_drop]
    rw [hsize, ← List.drop_drop, hrest]
    conv_rhs => rw [← List.take_append_drop r.refill.unread.length rest, ← hpiece]
  · rw [← List.length_pos_iff]
    omega
  · omega

/-- Nothing is to come out of the file once the size of the part has been read. -/
theorem Part.exhausted (h : Part file start stop rest r) (hge : stop - start ≤ r.readSize) :
    (got file start stop).length ≤ r.readSize := by
  have hstop := h.stop_le
  have hlength := length_got file start stop
  by_cases hwhole : stop < file.length
  · rcases h.aligned hwhole with heq | hdvd
    · exact heq.ge
    · rcases Nat.eq_zero_or_pos (stop - start) with hzero | hpos
      · have hbuf : bufSize start stop = 0 := Nat.le_zero.1 (hzero ▸ min_le_right _ _)
        rw [hbuf, Nat.mul_zero] at hlength
        omega
      · have hle := List.numChunks_mul_le hdvd hpos hge
        omega
  · omega

/-- What is left of the buffer does not change what is got out of the file. -/
theorem Part.with_unread (h : Part file start stop rest r) (cur : Option Bytes) (buf : Bytes) :
    Part file start stop (buf ++ (got file start stop).drop r.readSize)
      { r with currentLine := cur, unread := buf } :=
  ⟨h.file_eq, h.fileStart, h.fileEnd, h.fileSize, h.start_le, h.stop_le, h.offset, h.le,
    h.aligned, h.eof, rfl⟩

/-- The loop ends with the line that comes: every round empties the buffer, and then gets
    something out of the file. -/
theorem readLoop_part {fuel : Nat} (skipLine : Bool) (h : Part file start stop rest r)
    (hfuel : (got file start stop).length - r.readSize + (if r.unread = [] then 1 else 2) ≤ fuel) :
    ∃ r', readLoop fuel skipLine r =
        some (lineFrom (decide (stop = file.length)) skipLine r.currentLine rest, r') ∧
      Part file start stop (restFrom skipLine rest) r' ∧ r'.currentLine = none ∧
      r.readSize ≤ r'.readSize ∧
      (r.unread = [] → rest ≠ [] → r.readSize < r'.readSize) := by
  induction fuel generalizing r rest skipLine with
  | zero => split_ifs at hfuel <;> omega
  | succ fuel ih =>
    -- a buffer that is not empty has the end of the line, or is used up with no line
    have process {r₁ : LineReader} (h₁ : Part file start stop rest r₁) (hne : r₁.unread ≠ [])
        (hcur : r₁.currentLine = r.currentLine)
          (hf : (got file start stop).length - r₁.readSize + 1 ≤ fuel) :
        ∃ r', (match LineReader.search skipLine [] r₁.unread r₁ with
          | (some line, _, r₂) => some (some line, r₂)
          | (none, skipLine, r₂) => readLoop fuel skipLine r₂) =
            some (lineFrom (decide (stop = file.length)) skipLine r.currentLine rest, r') ∧
          Part file start stop (restFrom skipLine rest) r' ∧ r'.currentLine = none ∧
          r₁.readSize ≤ r'.readSize := by
      rw [← hcur, ← h₁.rest]
      cases searched hne (decide (stop = file.length)) skipLine
        ((got file start stop).drop r₁.readSize) with
      | found r' line skip' buf hsearch hr hline hrest =>
        subst hr
        rw [hsearch, hline, hrest]
        exact ⟨_, rfl, h₁.with_unread none buf, rfl, le_rfl⟩
      | more r' skip' line hsearch hr hline hrest =>
        subst hr
        obtain ⟨r'', hloop, hpart, hnone, hle, -⟩ :=
          ih skip' (h₁.with_unread (some line) []) (by simpa using hf)
        rw [hsearch, hline, hrest]
        exact ⟨r'', hloop, hpart, hnone, hle⟩
    by_cases hnil : r.unread = []
    · rw [if_pos hnil] at hfuel
      by_cases hlt : r.readSize < stop - start
      · -- More of the part is to be read: the buffer is filled, and searched.
        obtain ⟨hpart, hun, hsize⟩ := h.refill hnil hlt
        have hgot := sub_le_length_got start h.stop_le
        have hmore : ¬(r.readSize ≥ r.fileEnd - r.fileStart ∨ r.eof = true) := by
          rw [h.fileEnd, h.fileStart, not_or]
          exact ⟨not_le.2 hlt, fun heof => absurd (h.eof heof) (by omega)⟩
        obtain ⟨r', hloop, hpart', hnone, hle⟩ := process hpart hun rfl (by omega)
        rw [readLoop, if_pos hnil, if_neg hmore, if_neg hun]
        exact ⟨r', hloop, hpart', hnone, by omega, fun _ _ => by omega⟩
      · -- The part is read to its end: what is left is the line that is not ended.
        have hrest : rest = [] := by
          rw [← h.rest, hnil]
          exact List.drop_of_length_le (h.exhausted (not_lt.1 hlt))
        have hover : r.readSize ≥ r.fileEnd - r.fileStart ∨ r.eof = true := by
          rw [h.fileEnd, h.fileStart]
          exact .inl (not_lt.1 hlt)
        rw [readLoop, if_pos hnil, if_pos hover, hrest, lineFrom_nil, restFrom_nil]
        have hpart := h.with_unread none r.unread
        rw [h.rest, hrest] at hpart
        refine ⟨_, ?_, hpart, rfl, le_rfl, fun _ hne => absurd rfl hne⟩
        dsimp only [getCurrentLine]
        rw [h.fileEnd, h.fileSize]
        split_ifs with hne hwhole hwhole
        · exact absurd (of_decide_eq_true hwhole) hne
        · rfl
        · rfl
        · exact absurd (decide_eq_true (not_not.1 hne)) hwhole
    · rw [if_neg hnil] at hfuel
      obtain ⟨r', hloop, hpart, hnone, hle⟩ := process h hnil rfl (by omega)
      rw [readLoop, if_neg hnil]
      exact ⟨r', hloop, hpart, hnone, hle, fun hnil' => absurd hnil' hnil⟩

/-- `readLine` gives the line that comes, after the first one if nothing has been read of
    a part that does not start where the file does. -/
theorem readLine_part (h : Part file start stop rest r) (hnone : r.currentLine = none)
    {skipLine : Bool} (hskip : skipLine = decide (r.readSize = 0 ∧ start ≠ 0)) :
    ∃ r', r.readLine = some (lineFrom (decide (stop = file.length)) skipLine none rest, r') ∧
      Part file start stop (restFrom skipLine rest) r' ∧ r'.currentLine = none ∧
      r.readSize ≤ r'.readSize ∧
      (r.unread = [] → rest ≠ [] → r.readSize < r'.readSize) := by
  have hgot : (got file start stop).length ≤ file.length := by
    have := length_got file start stop
    omega
  have hfuel : (got file start stop).length - r.readSize + (if r.unread = [] then 1 else 2) ≤
      file.length + 3 := by
    split_ifs <;> omega
  have hloop := readLoop_part skipLine h hfuel
  rw [readLine, h.file_eq, h.fileStart, ← hskip]
  rwa [hnone] at hloop

/-- The lines of a text to come, without what follows the last newline unless the text
    ends where the file does. -/
def linesOf (whole : Bool) (rest : Bytes) : List Bytes :=
  if whole then rest.lines newline else rest.fullLines newline

theorem lineOf_none (whole : Bool) (rest : Bytes) : lineOf whole none rest =
    (linesOf whole rest).head? := by
  by_cases hmem : newline ∈ rest
  · have hne : rest ≠ [] := List.ne_nil_of_mem hmem
    cases whole with
    | true => simp [lineOf, linesOf, hmem, List.lines_head?, hne]
    | false => simp [lineOf, linesOf, hmem, List.fullLines_of_mem]
  · cases whole with
    | true =>
      rw [lineOf, if_neg hmem, if_pos rfl, linesOf, if_pos rfl, List.lines_head?,
        List.takeWhile_of_not_mem hmem]
      rfl
    | false => simp [lineOf, linesOf, hmem, List.fullLines_of_not_mem]

theorem linesOf_nil (whole : Bool) : linesOf whole [] = [] := by cases whole <;> rfl

theorem linesOf_afterLine (whole : Bool) (rest : Bytes) :
    linesOf whole (rest.afterLine newline) = (linesOf whole rest).tail := by
  cases whole with
  | true => exact (List.lines_tail rest).symm
  | false =>
    by_cases hmem : newline ∈ rest
    · simp [linesOf, List.fullLines_of_mem hmem]
    · rw [List.afterLine_of_not_mem hmem, linesOf_nil, linesOf, if_neg Bool.false_ne_true,
        List.fullLines_of_not_mem hmem, List.tail_nil]

/-! ## Whole files -/

/-- A reader of the whole of `file`, with the bytes `rest` to come. -/
structure Whole (file rest : Bytes) (r : LineReader) : Prop where
  file_eq : r.file = file
  fileStart : r.fileStart = 0
  fileEnd : r.fileEnd = file.length
  fileSize : r.fileSize = file.length
  offset : r.offset = r.readSize
  le : r.readSize ≤ file.length
  eof : r.eof = true → r.readSize = file.length
  rest : r.unread ++ file.drop r.offset = rest

theorem whole_new (file : Bytes) : Whole file file (new file 0 file.length file.length) where
  file_eq := rfl
  fileStart := rfl
  fileEnd := rfl
  fileSize := rfl
  offset := rfl
  le := Nat.zero_le _
  eof := nofun
  rest := rfl

/-- From the start again, wherever the reader is. -/
theorem Whole.reset (h : Whole file rest r) : Whole file file r.reset where
  file_eq := h.file_eq
  fileStart := h.fileStart
  fileEnd := h.fileEnd
  fileSize := h.fileSize
  offset := h.fileStart
  le := Nat.zero_le _
  eof := nofun
  rest := by simp [LineReader.reset, h.fileStart]

theorem Whole.part (h : Whole file rest r) : Part file 0 file.length rest r := by
  have hgot : got file 0 file.length = file := got_of_eq file 0
  refine ⟨h.file_eq, h.fileStart, h.fileEnd, h.fileSize, Nat.zero_le _, le_rfl, ?_, ?_, ?_, ?_, ?_⟩
  · rw [h.offset, Nat.zero_add]
  · rw [hgot]
    exact h.le
  · exact fun hlt => absurd hlt (lt_irrefl _)
  · rw [hgot]
    exact h.eof
  · rw [hgot, ← h.offset]
    exact h.rest

theorem Part.whole (h : Part file 0 file.length rest r) : Whole file rest r := by
  have hgot : got file 0 file.length = file := got_of_eq file 0
  have hoffset : r.offset = r.readSize := h.offset.trans (Nat.zero_add _)
  refine ⟨h.file_eq, h.fileStart, h.fileEnd, h.fileSize, hoffset, ?_, ?_, ?_⟩
  · exact hgot ▸ h.le
  · exact hgot ▸ h.eof
  · have hrest := h.rest
    rwa [hgot, ← hoffset] at hrest

/-- `readLine` gives the first of the lines to come. -/
theorem readLine_whole (h : Whole file rest r) (hnone : r.currentLine = none) :
    ∃ r', r.readLine = some ((rest.lines newline).head?, r') ∧
      Whole file (rest.afterLine newline) r' ∧ r'.currentLine = none := by
  obtain ⟨r', hr, hpart, hnone', -⟩ := readLine_part h.part hnone (show false = _ by simp)
  rw [lineFrom_false, lineOf_none] at hr
  exact ⟨r', hr.trans (by simp [linesOf]), hpart.whole, hnone'⟩

/-- A loop over lines runs its body on the lines to come. -/
theorem forLines_whole {m : Type → Type} [Monad m] [LawfulMonad m] [MonadLiftT Option m]
    [LawfulMonadLiftT Option m] {σ : Type} (body : Bytes → σ → m σ) (k : Nat)
    (h : Whole file rest r) (hnone : r.currentLine = none) :
    ∃ r' rest', Whole file rest' r' ∧ ∀ s, r.forLines body k s =
      (·, r') <$> ((rest.lines newline).take k).foldlM (fun s line => body line s) s := by
  induction k generalizing r rest with
  | zero => exact ⟨r, rest, h, fun s => by simp [forLines]⟩
  | succ k ih =>
    obtain ⟨r₁, hr, hw, hnone₁⟩ := readLine_whole h hnone
    have hread : (monadLift r.readLine : m _) = pure ((rest.lines newline).head?, r₁) := by
      rw [hr]
      exact LawfulMonadLiftT.monadLift_pure _
    have htail : (rest.lines newline).tail = _ := List.lines_tail rest
    cases hl : rest.lines newline with
    | nil =>
      rw [hl, List.head?_nil] at hread
      exact ⟨r₁, _, hw, fun s => by simp [forLines, hread]⟩
    | cons line lines =>
      rw [hl, List.head?_cons] at hread
      rw [hl, List.tail_cons] at htail
      obtain ⟨r', rest', hw', heq⟩ := ih hw hnone₁
      rw [← htail] at heq
      exact ⟨r', rest', hw', fun s => by simp [forLines, hread, heq]⟩

end LineReader

end Eau2

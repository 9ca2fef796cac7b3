import Eau2.DataFrame.Frame
import Eau2.Lib.Words
import Eau2.Util.Buffer

/-!
# The reader of words

A `FileReader` is a `Writer` that puts the words of a file in rows, one after the other. It
reads the file into a buffer of `BUFSIZE` characters, and moves what it has of a word to the
front of the buffer when it has to read more. Where the code looks at characters that it has
not read, the model has what is in the buffer; an access out of the bounds of the buffer, or a
`memcpy` of overlapping arrays, is `none`.

Main result: `rows_writer`, the rows are those of the words of the file, if these have no more
than `BUFSIZE / 2` characters and there is a space after the last one.
-/

namespace Eau2

open Buffer (setByte store load)

/-- `isspace`, in the C locale. -/
def isSpace (c : UInt8) : Bool := c == 32 || (9 ≤ c && c ≤ 13)

/-- `String(char const* cstr, size_t len)`. -/
def toStr (chars : Bytes) : Option Str :=
  if h : chars.length < 2 ^ 64 then some ⟨chars, h⟩ else none

/-- A `FileReader`, with what has not been read of its file and whether the end of it has been
    found. -/
structure FileReader where
  buf : Bytes
  end_ : Nat
  i : Nat
  file : Bytes
  eof : Bool

namespace FileReader

/-- `BUFSIZE`. -/
def bufsize : Nat := 1024

/-- `memcpy(buf_, buf_ + i, n)`. -/
def moveToFront (buf : Bytes) (i n : Nat) : Option Bytes :=
  if n ≤ i then (load buf i n).bind (store buf 0) else none

/-- `fillBuffer_`. -/
def fillBuffer (r : FileReader) : Option FileReader := do
  let start := if r.i ≠ r.end_ then (2 ^ 64 + r.end_ - r.i) % 2 ^ 64 else 0
  let buf ← compact start
  let room := bufsize - start
  let data := r.file.take room
  let buf ← store buf start data
  return ⟨buf, start + data.length, start, r.file.drop room, r.eof || decide (data.length < room)⟩
where
  compact (start : Nat) : Option Bytes :=
    if r.i ≠ r.end_ then moveToFront r.buf r.i start else some r.buf

/-- The loop of `skipWhitespace_`, of at most `fuel` rounds. -/
def skipLoop : Nat → FileReader → Option FileReader
  | 0, _ => none
  | fuel + 1, r =>
    if r.i = r.end_ ∧ r.eof then some r
    else do
      let r ← refill r
      let c ← r.buf[r.i]?
      if isSpace c then skipLoop fuel { r with i := r.i + 1 } else some r
where
  refill (r : FileReader) : Option FileReader := if r.i = r.end_ then r.fillBuffer else some r

/-- The rounds that the loops have at most: one for each character of the file and of the
    buffer. -/
def rounds (r : FileReader) : Nat := r.file.length + (r.end_ - r.i) + bufsize + 2

/-- `skipWhitespace_`. -/
def skipWhitespace (r : FileReader) : Option FileReader := skipLoop r.rounds r

/-- The loop of `visit`, of at most `fuel` rounds, with `wStart`. -/
def wordLoop : Nat → FileReader → Nat → Option (FileReader × Nat)
  | 0, _, _ => none
  | fuel + 1, r, wStart =>
    if r.i = r.end_ ∧ r.eof then some ({ r with i := r.i + 1 }, wStart)
    else do
      let (r, wStart) ← refill r wStart
      let c ← r.buf[r.i]?
      if isSpace c then some (r, wStart) else wordLoop fuel { r with i := r.i + 1 } wStart
where
  refill (r : FileReader) (wStart : Nat) : Option (FileReader × Nat) :=
    if r.i = r.end_ then ({ r with i := wStart }.fillBuffer).map fun r => (r, 0)
      else some (r, wStart)

/-- `visit`: the word that is set. -/
def visit (r : FileReader) : Option (Bytes × FileReader) := do
  let c ← r.buf[r.i]?
  if r.i < r.end_ ∧ isSpace c = false then do
    let (r, wStart) ← wordLoop r.rounds r r.i
    let buf ← setByte r.buf r.i 0
    let word ← load buf wStart (r.i - wStart)
    let r ← { r with buf, i := r.i + 1 }.skipWhitespace
    some (word, r)
  else none

/-- `done`. -/
def done (r : FileReader) : Bool := r.end_ ≤ r.i && r.eof

/-- `FileReader(const char* file_name)`, on a file that can be opened, with what is in the
    buffer at first. -/
def new (buf file : Bytes) : Option FileReader := do
  let r ← fillBuffer ⟨buf, 0, 0, file, false⟩
  r.skipWhitespace

/-- The `Writer`. -/
def writer : Writer FileReader where
  done := done
  visit r _ := do
    let (word, r) ← r.visit
    let word ← toStr word
    return ([(0, .string (some word))], r)

/-! ## The buffer -/

/-- The buffer has `seen` up to the position, and `avail` after it; the character past its end
    is not a space. -/
structure At (r : FileReader) (seen avail : Bytes) : Prop where
  i_eq : r.i = seen.length
  end_eq : r.end_ = seen.length + avail.length
  buf : ∃ tail c, r.buf = seen ++ (avail ++ (tail ++ [c])) ∧ isSpace c = false ∧
    seen.length + avail.length + tail.length = bufsize
  file : r.eof = true → r.file = []

/-- As long as there may be more in the file, the buffer is full. -/
def Full (r : FileReader) : Prop := r.eof = false → r.end_ = bufsize

variable {r : FileReader} {seen avail before word rest : Bytes} {c : UInt8}

theorem At.lt (h : r.At seen (c :: avail)) : r.i < r.end_ := by
  rw [h.i_eq, h.end_eq]
  exact Nat.lt_add_of_pos_right (Nat.succ_pos _)

theorem At.i_eq_end (h : r.At seen []) : r.i = r.end_ := by rw [h.i_eq, h.end_eq]; rfl

theorem At.getElem? (h : r.At seen (c :: avail)) : r.buf[r.i]? = some c := by
  obtain ⟨tail, d, hbuf, -, -⟩ := h.buf
  rw [hbuf, h.i_eq, List.getElem?_append_right le_rfl, Nat.sub_self]
  rfl

/-- The position moves on. -/
theorem At.next (h : r.At seen (c :: avail)) : At { r with i := r.i + 1 } (seen ++ [c]) avail := by
  obtain ⟨tail, d, hbuf, hd, hlen⟩ := h.buf
  refine ⟨?_, ?_, ⟨tail, d, ?_, hd, ?_⟩, h.file⟩
  · rw [h.i_eq, List.length_append, List.length_singleton]
  · rw [h.end_eq, List.length_append, List.length_singleton, List.length_cons]
    omega
  · rw [hbuf, List.append_assoc]
    rfl
  · rw [List.length_append, List.length_singleton, ← hlen, List.length_cons]
    omega

/-- The character at the position is overwritten. -/
theorem At.setByte (h : r.At seen (c :: avail)) (d : UInt8) :
    ∃ buf, setByte r.buf r.i d = some buf ∧
    At { r with buf } seen (d :: avail) := by
  obtain ⟨tail, e, hbuf, he, hlen⟩ := h.buf
  refine ⟨seen ++ (d :: avail ++ (tail ++ [e])), ?_, h.i_eq, h.end_eq,
    ⟨tail, e, rfl, he, hlen⟩, h.file⟩
  have hlt : r.i < r.buf.length := by
    rw [hbuf, h.i_eq, List.length_append]
    exact Nat.lt_add_of_pos_right (Nat.succ_pos _)
  rw [Buffer.setByte, if_pos hlt, hbuf, h.i_eq, List.set_append_right _ _ le_rfl, Nat.sub_self]
  rfl

theorem moveToFront_eq (hle : word.length ≤ before.length) :
    moveToFront (before ++ (word ++ rest)) before.length word.length =
      some (word ++ (before ++ (word ++ rest)).drop word.length) := by
  have hload : load (before ++ (word ++ rest)) before.length word.length = some word := by
    rw [load, if_pos (by simp), List.drop_left, List.take_left]
  rw [moveToFront, if_pos hle, hload, Option.bind_some, store, if_pos, List.take_zero,
    List.nil_append, Nat.zero_add]
  simp only [List.length_append]
  omega

/-- More is read after the part `word` of a word, which is moved to the front. -/
theorem At.fillBuffer (h : r.At (before ++ word) []) (heof : r.eof = false)
    (hle : word.length ≤ before.length) :
    ∃ r', FileReader.fillBuffer { r with i := before.length } = some r' ∧
      r'.At word (r.file.take (bufsize - word.length)) ∧ r'.Full ∧
      r'.file = r.file.drop (bufsize - word.length) := by
  obtain ⟨tail, c, hbuf, hc, hlen⟩ := h.buf
  rw [List.length_append, List.length_nil, Nat.add_zero] at hlen
  have hend : r.end_ = before.length + word.length := by
    rw [h.end_eq, List.length_append, List.length_nil, Nat.add_zero]
  rw [List.nil_append, List.append_assoc] at hbuf
  have hstart : (if before.length ≠ r.end_ then (2 ^ 64 + r.end_ - before.length) % 2 ^ 64 else 0) =
      word.length := by
    have hlt : word.length < 2 ^ 64 := by
      have : bufsize < 2 ^ 64 := by decide
      omega
    rw [hend, Nat.add_left_comm, Nat.add_sub_cancel_left, Nat.add_mod_left, Nat.mod_eq_of_lt hlt]
    split_ifs <;> omega
  have hmove : fillBuffer.compact { r with i := before.length } word.length =
      some (word ++ r.buf.drop word.length) := by
    rw [fillBuffer.compact]
    split_ifs with hne
    · rw [hbuf, moveToFront_eq hle]
    · have heq : before.length = r.end_ := not_not.1 hne
      have hnil : word = [] := List.eq_nil_of_length_eq_zero (by omega)
      rw [hnil]
      rfl
  -- what is stored after the word
  obtain ⟨front, hfront⟩ : ∃ front, r.buf = front ++ [c] :=
    ⟨before ++ (word ++ tail), by simp [hbuf]⟩
  have hflen : front.length = bufsize := by
    have hlen' := congrArg List.length hbuf
    rw [hfront] at hlen'
    simp only [List.length_append, List.length_singleton] at hlen'
    omega
  let data := r.file.take (bufsize - word.length)
  have hdata : word.length + data.length ≤ bufsize := by
    have := List.length_take_le (bufsize - word.length) r.file
    show word.length + (r.file.take (bufsize - word.length)).length ≤ bufsize
    omega
  have hstore : store (word ++ r.buf.drop word.length) word.length data =
      some (word ++ (data ++ (front.drop (word.length + data.length) ++ [c]))) := by
    rw [store, if_pos, List.take_left, List.drop_append, List.drop_of_length_le
      (Nat.le_add_right _ _), List.nil_append, Nat.add_sub_cancel_left, List.drop_drop, hfront,
      List.drop_append_of_le_length (hdata.trans_eq hflen.symm), List.append_assoc]
    rw [List.length_append, List.length_drop, hfront, List.length_append, List.length_singleton]
    omega
  refine ⟨⟨word ++ (data ++ (front.drop (word.length + data.length) ++ [c])),
    word.length + data.length, word.length, r.file.drop (bufsize - word.length),
    r.eof || decide (data.length < bufsize - word.length)⟩, ?_,
    ⟨rfl, rfl, ⟨_, c, rfl, hc, ?_⟩, ?_⟩, ?_, rfl⟩
  · rw [FileReader.fillBuffer]
    simp only [hstart, hmove]
    rw [Option.bind_eq_bind, Option.bind_some, hstore]
    rfl
  · rw [List.length_drop, hflen]
    exact Nat.add_sub_cancel' hdata
  · intro hend
    rw [heof, Bool.false_or, decide_eq_true_iff] at hend
    have hlt : r.file.length ≤ bufsize - word.length := by
      by_contra hgt
      exact hend.ne (List.length_take_of_le (Nat.le_of_not_ge hgt))
    exact List.drop_eq_nil_of_le hlt
  · intro hend
    rw [heof, Bool.false_or, decide_eq_false_iff_not] at hend
    show word.length + data.length = bufsize
    omega

theorem At.last (h : r.At seen avail) : ∃ c, r.buf[bufsize]? = some c ∧ isSpace c = false := by
  obtain ⟨tail, c, hbuf, hc, hlen⟩ := h.buf
  have hfront : (seen ++ (avail ++ tail)).length = bufsize := by
    rw [List.length_append, List.length_append, ← hlen, Nat.add_assoc]
  refine ⟨c, ?_, hc⟩
  rw [hbuf, ← List.append_assoc avail, ← List.append_assoc seen, ← hfront,
    List.getElem?_append_right le_rfl, Nat.sub_self]
  rfl

/-! ## The loops -/

/-- A reader that is at a word, or has read all of the file, the text `u` being left. -/
inductive Ready (r : FileReader) : Bytes → Prop
  | done (hi : r.end_ ≤ r.i) (heof : r.eof = true) : Ready r []
  | word {seen avail : Bytes} {c : UInt8} (h : r.At seen (c :: avail)) (hfull : r.Full)
      (hc : isSpace c = false) : Ready r (c :: avail ++ r.file)

/-- What is looked at past the end of the file comes to an end. -/
theorem skipLoop_past {fuel : Nat} (hlast : ∃ c, r.buf[bufsize]? = some c ∧ isSpace c = false)
    (hi : r.end_ < r.i) (hle : r.i ≤ bufsize) (hfuel : bufsize < r.i + fuel) :
    ∃ r', skipLoop fuel r = some r' ∧ r'.end_ ≤ r'.i ∧ r'.eof = r.eof := by
  induction fuel generalizing r with
  | zero => omega
  | succ fuel ih =>
    have hne : r.i ≠ r.end_ := hi.ne'
    obtain ⟨c, hc, hspace⟩ := hlast
    obtain ⟨d, hd⟩ : ∃ d, r.buf[r.i]? = some d :=
      ⟨_, List.getElem?_eq_getElem (hle.trans_lt (List.getElem?_eq_some_iff.1 hc).1)⟩
    rw [skipLoop, if_neg fun h => hne h.1, skipLoop.refill, if_neg hne, Option.bind_eq_bind,
      Option.bind_some, hd, Option.bind_eq_bind, Option.bind_some]
    split_ifs with hdspace
    · have hlt : r.i ≠ bufsize := by
        rintro heq
        rw [heq, hc] at hd
        cases hd
        rw [hspace] at hdspace
        cases hdspace
      exact ih (r := { r with i := r.i + 1 }) ⟨c, hc, hspace⟩ (Nat.lt_succ_of_lt hi)
        (by simp; omega)
        (by simp; omega)
    · exact ⟨r, rfl, hi.le, rfl⟩

/-- The spaces are skipped, those that are still in the file as well. -/
theorem skipLoop_ready {fuel : Nat} (h : r.At seen avail) (hfull : r.Full)
    (hfuel : r.file.length + avail.length + bufsize + 1 < fuel) :
    ∃ r', skipLoop fuel r = some r' ∧ r'.Ready ((avail ++ r.file).dropWhile isSpace) := by
  induction fuel generalizing r seen avail with
  | zero => omega
  | succ fuel ih =>
    -- a round at a character that has been read
    have hround {r : FileReader} {seen avail : Bytes} {c : UInt8} (h : r.At seen (c :: avail))
        (hfull : r.Full) (hfuel : r.file.length + avail.length + bufsize + 1 < fuel) :
        ∃ r', (if isSpace c then skipLoop fuel { r with i := r.i + 1 } else some r) = some r' ∧
          r'.Ready ((c :: avail ++ r.file).dropWhile isSpace) := by
      rw [List.cons_append, List.dropWhile_cons]
      split_ifs with hc
      · exact ih h.next hfull hfuel
      · exact ⟨r, rfl, .word h hfull (Bool.eq_false_of_not_eq_true hc)⟩
    rw [skipLoop]
    cases avail with
    | cons c avail =>
      have hne := h.lt.ne
      rw [if_neg fun h => hne h.1, skipLoop.refill, if_neg hne, Option.bind_eq_bind,
        Option.bind_some, h.getElem?, Option.bind_eq_bind, Option.bind_some]
      exact hround h hfull (by rw [List.length_cons] at hfuel; omega)
    | nil =>
      cases heof : r.eof with
      | true =>
        rw [if_pos ⟨h.i_eq_end, rfl⟩, h.file heof]
        exact ⟨r, rfl, .done h.i_eq_end.ge heof⟩
      | false =>
        have hr : { r with i := seen.length } = r := by rw [← h.i_eq]
        have hat := h
        rw [← List.append_nil seen] at hat
        obtain ⟨r', hfill, h', hfull', hfile⟩ := hat.fillBuffer heof (Nat.zero_le _)
        rw [hr] at hfill
        rw [List.length_nil, Nat.sub_zero] at h' hfile
        rw [if_neg (by simp), skipLoop.refill, if_pos h.i_eq_end, hfill, Option.bind_eq_bind,
          Option.bind_some, List.nil_append]
        cases hnext : r.file with
        | nil =>
          -- nothing is left, and what is looked at is in the buffer from before
          rw [hnext, List.take_nil] at h'
          have heof' : r'.eof = true := by
            by_contra hne
            have hend := (hfull' (Bool.eq_false_of_not_eq_true hne)).symm.trans h'.end_eq
            exact absurd hend (by decide)
          have hlast := h'.last
          obtain ⟨d, hd, -⟩ := hlast
          obtain ⟨e, he⟩ : ∃ e, r'.buf[r'.i]? = some e := by
            rw [h'.i_eq]
            exact ⟨_, List.getElem?_eq_getElem
              (Nat.zero_lt_of_lt (List.getElem?_eq_some_iff.1 hd).1)⟩
          rw [he, Option.bind_eq_bind, Option.bind_some]
          split_ifs with hspace
          · have hrest : bufsize < r'.i + 1 + fuel := by
              rw [h'.i_eq, List.length_nil]
              omega
            obtain ⟨r'', hskip, hle, heof''⟩ :=
              skipLoop_past (r := { r' with i := r'.i + 1 }) h'.last
              (Nat.lt_succ_of_le h'.i_eq_end.ge) (by simp [h'.i_eq, bufsize]) hrest
            exact ⟨r'', hskip, .done hle (heof''.trans heof')⟩
          · exact ⟨r', rfl, .done h'.i_eq_end.ge heof'⟩
        | cons c rest =>
          rw [hnext, show bufsize = 1023 + 1 from rfl, List.take_succ_cons] at h'
          rw [hnext, show bufsize = 1023 + 1 from rfl, List.drop_succ_cons] at hfile
          rw [h'.getElem?, Option.bind_eq_bind, Option.bind_some]
          have hsplit : c :: rest = c :: rest.take 1023 ++ r'.file := by
            rw [hfile, List.cons_append, List.take_append_drop]
          have hlen := congrArg List.length hsplit
          rw [hsplit]
          refine hround h' hfull' ?_
          rw [hnext] at hfuel
          simp only [List.length_append, List.length_cons] at hlen hfuel
          simp only [List.length_nil] at hfuel
          omega

/-- The loop of `visit` finds the end of the word. -/
theorem wordLoop_eq {fuel : Nat} {w v : Bytes} {s : UInt8} (h : r.At (before ++ word) avail)
    (hfull : r.Full) (heq : avail ++ r.file = w ++ s :: v) (hw : ∀ c ∈ w, isSpace c = false)
    (hs : isSpace s) (hlen : (word ++ w).length ≤ bufsize / 2)
    (hfuel : r.file.length + avail.length < fuel) :
    ∃ r' before' avail', wordLoop fuel r before.length = some (r', before'.length) ∧
      r'.At (before' ++ (word ++ w)) (s :: avail') ∧ r'.Full ∧ avail' ++ r'.file = v := by
  induction fuel generalizing r before word avail w with
  | zero => omega
  | succ fuel ih =>
    -- a round at a character that has been read
    have hround {r : FileReader} {before avail : Bytes} {c : UInt8}
        (h : r.At (before ++ word) (c :: avail))
        (hfull : r.Full) (heq : c :: avail ++ r.file = w ++ s :: v)
        (hfuel : r.file.length + avail.length < fuel) :
        ∃ r' before' avail', (if isSpace c then some (r, before.length)
            else wordLoop fuel { r with i := r.i + 1 } before.length) = some (r', before'.length) ∧
          r'.At (before' ++ (word ++ w)) (s :: avail') ∧ r'.Full ∧ avail' ++ r'.file = v := by
      cases w with
      | nil =>
        obtain ⟨rfl, rfl⟩ := List.cons.inj heq
        rw [if_pos hs, List.append_nil]
        exact ⟨r, before, avail, rfl, h, hfull, rfl⟩
      | cons d w =>
        obtain ⟨rfl, hrest⟩ := List.cons.inj heq
        rw [List.forall_mem_cons] at hw
        have hnext := h.next
        rw [List.append_assoc] at hnext
        rw [List.append_cons] at hlen
        rw [if_neg (by rw [hw.1]; exact Bool.false_ne_true), List.append_cons word c w]
        exact ih hnext hfull hrest hw.2 hlen hfuel
    rw [wordLoop]
    cases avail with
    | cons c avail =>
      have hne := h.lt.ne
      rw [if_neg fun h => hne h.1, wordLoop.refill, if_neg hne, Option.bind_eq_bind,
        Option.bind_some]
      dsimp only
      rw [h.getElem?, Option.bind_eq_bind, Option.bind_some]
      exact hround h hfull heq (by rw [List.length_cons] at hfuel; omega)
    | nil =>
      have hne : r.file ≠ [] := fun hnil => by simp [hnil] at heq
      have heof : r.eof = false := Bool.eq_false_of_not_eq_true fun heof => hne (h.file heof)
      have hsum : before.length + word.length = bufsize := by
        rw [← hfull heof, h.end_eq, List.length_append, List.length_nil, Nat.add_zero]
      have hword : word.length ≤ bufsize / 2 :=
        (List.length_append ▸ Nat.le_add_right _ _).trans hlen
      have hhalf : bufsize / 2 + bufsize / 2 = bufsize := rfl
      obtain ⟨r', hfill, h', hfull', hfile⟩ := h.fillBuffer heof (by omega)
      obtain ⟨m, hm⟩ : ∃ m, bufsize - word.length = m + 1 :=
        Nat.exists_eq_succ_of_ne_zero (by have : 0 < bufsize := by decide
                                          omega)
      obtain ⟨c, rest, hrest⟩ := List.exists_cons_of_ne_nil hne
      rw [hm, hrest, List.take_succ_cons] at h'
      rw [hm, hrest, List.drop_succ_cons] at hfile
      have hsplit : c :: rest = c :: rest.take m ++ r'.file := by
        rw [hfile, List.cons_append, List.take_append_drop]
      rw [if_neg (by simp [heof]), wordLoop.refill, if_pos h.i_eq_end, hfill, Option.bind_eq_bind,
        Option.map_some, Option.bind_some]
      dsimp only
      rw [h'.getElem?, Option.bind_eq_bind, Option.bind_some]
      rw [List.nil_append, hrest, hsplit] at heq
      refine @hround r' [] _ _ h' hfull' heq ?_
      have hlen' := congrArg List.length hsplit
      rw [hrest] at hfuel
      simp only [List.length_append, List.length_cons, List.length_nil] at hlen' hfuel
      omega

/-! ## The words -/

/-- `visit` takes the word, and the spaces after it. -/
theorem Ready.visit {w v : Bytes} {s : UInt8} (h : r.Ready (w ++ s :: v))
    (hw : ∀ c ∈ w, isSpace c = false) (hs : isSpace s) (hlen : w.length ≤ bufsize / 2) :
    ∃ r', r.visit = some (w, r') ∧ r'.Ready (v.dropWhile isSpace) := by
  generalize hu : w ++ s :: v = u at h
  cases h with
  | done => simp at hu
  | @word seen avail c hat hfull hc =>
    have hrounds : r.file.length + (c :: avail).length < r.rounds := by
      rw [rounds, hat.i_eq, hat.end_eq, Nat.add_sub_cancel_left]
      omega
    have hat' := hat
    rw [← List.append_nil seen] at hat'
    obtain ⟨r₁, before, rest, hloop, h₁, hfull₁, hrest⟩ :=
      wordLoop_eq hat' hfull hu.symm hw hs hlen hrounds
    rw [List.nil_append] at h₁
    obtain ⟨buf, hset, h₂⟩ := h₁.setByte 0
    have hload : load buf before.length (r₁.i - before.length) = some w := by
      obtain ⟨tail, d, hbuf, -, -⟩ := h₂.buf
      have hbuf : buf = before ++ (w ++ (0 :: rest ++ (tail ++ [d]))) := by
        rw [← List.append_assoc]; exact hbuf
      rw [h₁.i_eq, List.length_append, Nat.add_sub_cancel_left, hbuf, load, if_pos, List.drop_left,
        List.take_left]
      simp only [List.length_append]
      omega
    have hrounds₁ : r₁.file.length + rest.length + bufsize + 1 < rounds
        { r₁ with buf, i := r₁.i + 1 } := by
      rw [rounds, h₁.i_eq, h₁.end_eq, List.length_cons]
      simp only [List.length_append]
      omega
    obtain ⟨r₂, hskip, h₃⟩ := skipLoop_ready h₂.next hfull₁ hrounds₁
    refine ⟨r₂, ?_, hrest ▸ h₃⟩
    rw [FileReader.visit, hat.getElem?, Option.bind_eq_bind, Option.bind_some, if_pos ⟨hat.lt, hc⟩,
      hat.i_eq, hloop, Option.bind_eq_bind, Option.bind_some]
    dsimp only
    rw [hset, Option.bind_eq_bind, Option.bind_some, hload, Option.bind_some, skipWhitespace, hskip]
    rfl

/-- The reader of a file is at its first word, after the spaces. -/
theorem new_ready {buf file : Bytes} (hbuf : buf.length = bufsize + 1)
    (hlast : ∀ c ∈ buf[bufsize]?, isSpace c = false) :
    ∃ r, new buf file = some r ∧ r.Ready (file.dropWhile isSpace) := by
  obtain ⟨tail, c, rfl⟩ : ∃ tail c, buf = tail ++ [c] :=
    ⟨buf.dropLast, _, (List.dropLast_append_getLast (List.ne_nil_of_length_eq_add_one hbuf)).symm⟩
  have htail : tail.length = bufsize := by simpa using hbuf
  have hc : isSpace c = false := hlast c (by rw [← htail]; simp)
  have hat : At ⟨tail ++ [c], 0, 0, file, false⟩ ([] ++ []) [] :=
    ⟨rfl, rfl, ⟨tail, c, rfl, hc, by simpa using htail⟩, fun h => by cases h⟩
  obtain ⟨r, hfill, h, hfull, hfile⟩ := hat.fillBuffer rfl le_rfl
  have hrounds : r.file.length + (file.take (bufsize - 0)).length + bufsize + 1 < r.rounds := by
    rw [rounds, h.i_eq, h.end_eq, Nat.add_sub_cancel_left]
    exact Nat.lt_succ_self _
  obtain ⟨r', hskip, hready⟩ := skipLoop_ready h hfull hrounds
  refine ⟨r', ?_, ?_⟩
  · rw [new]
    exact Option.bind_eq_some_iff.2 ⟨r, hfill, hskip⟩
  · rwa [hfile, List.take_append_drop] at hready

/-- The row of a word. -/
def wordRow (w : Bytes) : Row := ⟨[.string (toStr w)]⟩

theorem rows_ready {fuel : Nat} {u : Bytes} {row : Row} (h : r.Ready u)
    (hlast : ∀ c ∈ u.getLast?, isSpace c) (hlen : ∀ w ∈ u.words isSpace, w.length ≤ bufsize / 2)
    (hrow : ∃ w, row = ⟨[.string w]⟩) (hfuel : (u.words isSpace).length < fuel) :
    writer.rows fuel r row = some ((u.words isSpace).map wordRow) := by
  induction fuel generalizing r u row with
  | zero => omega
  | succ fuel ih =>
    rw [Writer.rows]
    cases hready : h with
    | done hi heof => rw [if_pos (by simp [writer, done, hi, heof]), List.words_nil, List.map_nil]
    | @word seen avail c hat hfull hc =>
      have hdone : ¬writer.done r := by simp [writer, done, hat.lt]
      obtain ⟨w, s, v, hu, hne, hw, hs⟩ := List.exists_word hc hlast
      have hu : c :: avail ++ r.file = w ++ s :: v := hu
      rw [hu] at h hlen hfuel hlast ⊢
      rw [List.words_append_cons hne hw hs] at hlen hfuel ⊢
      rw [List.forall_mem_cons] at hlen
      obtain ⟨r', hvisit, h'⟩ := h.visit hw hs hlen.1
      have hlt : w.length < 2 ^ 64 := hlen.1.trans_lt (by decide)
      have hstr : toStr w = some ⟨w, hlt⟩ := dif_pos hlt
      have hrest : (writer.rows fuel r' (wordRow w)) =
          some ((v.words isSpace).map wordRow) := by
        rw [← List.words_dropWhile v] at hlen hfuel ⊢
        refine ih h' (fun d hd => hlast d ?_) hlen.2 ⟨_, rfl⟩ (Nat.lt_of_succ_lt_succ hfuel)
        rw [← List.takeWhile_append_dropWhile (p := isSpace) (l := v), ← List.cons_append,
          ← List.append_assoc]
        exact List.mem_getLast?_append_of_mem_getLast? hd
      obtain ⟨w₀, rfl⟩ := hrow
      have hrow : writer.visitRow r ⟨[.string w₀]⟩ = some (wordRow w, r') := by
        rw [wordRow, hstr, Writer.visitRow, writer]
        simp only [hvisit, Option.bind_eq_bind, Option.bind_some, hstr]
        rfl
      rw [if_neg hdone, hrow, Option.bind_eq_bind, Option.bind_some]
      dsimp only
      rw [hrest]
      rfl

/-- The rows of a reader are those of the words of its file. -/
theorem rows_writer {buf file : Bytes} (hbuf : buf.length = bufsize + 1)
    (hfirst : ∀ c ∈ buf[bufsize]?, isSpace c = false) (hlast : ∀ c ∈ file.getLast?, isSpace c)
    (hlen : ∀ w ∈ file.words isSpace, w.length ≤ bufsize / 2) {fuel : Nat}
    (hfuel : (file.words isSpace).length < fuel) {row : Row} (hrow : ∃ w, row = ⟨[.string w]⟩) :
    ∃ r, new buf file = some r ∧ writer.rows fuel r row =
      some ((file.words isSpace).map wordRow) := by
  obtain ⟨r, hnew, hready⟩ := new_ready hbuf hfirst
  refine ⟨r, hnew, ?_⟩
  rw [← List.words_dropWhile] at hlen hfuel ⊢
  refine rows_ready hready (fun c hc => hlast c ?_) hlen hrow hfuel
  rw [← List.takeWhile_append_dropWhile (p := isSpace) (l := file)]
  exact List.mem_getLast?_append_of_mem_getLast? hc

/-- Three words of 500 characters, the third of which goes past the end of the buffer. -/
def longWords : Bytes :=
  List.replicate 500 97 ++ 32 :: (List.replicate 500 98 ++ 32 :: (List.replicate 500 99 ++ [32]))

theorem words_longWords : longWords.words isSpace =
    [List.replicate 500 97, List.replicate 500 98, List.replicate 500 99] := by
  have hword {c : UInt8} (hc : isSpace c = false) (text : Bytes) :
      (List.replicate 500 c ++ 32 :: text).words isSpace =
        List.replicate 500 c :: text.words isSpace := by
    refine List.words_append_cons ?_ (fun d hd => ?_) rfl
    · exact List.ne_nil_of_length_eq_add_one List.length_replicate
    · rw [List.eq_of_mem_replicate hd, hc]
  rw [longWords, hword rfl, hword rfl, hword rfl, List.words_nil]

/-- The third word is moved to the front of the buffer when the rest of it is read. -/
theorem rows_writer_longWords : bufsize < longWords.length ∧
    ∃ r, new (List.replicate (bufsize + 1) 0) longWords = some r ∧
      writer.rows 4 r ⟨[.string none]⟩ = some [wordRow (List.replicate 500 97),
        wordRow (List.replicate 500 98), wordRow (List.replicate 500 99)] := by
  have hfirst (c : UInt8) (hc : c ∈ (List.replicate (bufsize + 1) (0 : UInt8))[bufsize]?) :
      isSpace c = false := by
    rw [List.getElem?_replicate_of_lt (Nat.lt_succ_self _)] at hc
    cases hc
    rfl
  have hlast (c : UInt8) (hc : c ∈ longWords.getLast?) : isSpace c := by
    have hend : longWords.getLast? = some 32 := by
      simp only [longWords, List.getLast?_append, List.getLast?_cons, List.getLast?_nil,
        Option.getD_some, Option.getD_none, Option.some_or]
    rw [hend] at hc
    cases hc
    rfl
  have hlen (w : Bytes) (hw : w ∈ longWords.words isSpace) : w.length ≤ bufsize / 2 := by
    have hfits : 500 ≤ bufsize / 2 := by decide
    rw [words_longWords] at hw
    simp only [List.mem_cons, List.not_mem_nil, or_false] at hw
    obtain rfl | rfl | rfl := hw
    · exact List.length_replicate.trans_le hfits
    · exact List.length_replicate.trans_le hfits
    · exact List.length_replicate.trans_le hfits
  have hcount : (longWords.words isSpace).length < 4 := by
    rw [words_longWords]
    decide
  obtain ⟨r, hnew, hrows⟩ :=
    rows_writer List.length_replicate hfirst hlast hlen hcount ⟨none, rfl⟩
  rw [words_longWords] at hrows
  refine ⟨?_, r, hnew, hrows⟩
  simp only [longWords, List.length_append, List.length_cons, List.length_replicate]
  decide

end FileReader

end Eau2

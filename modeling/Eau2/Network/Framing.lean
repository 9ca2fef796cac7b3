import Eau2.Network.Duplex
import Eau2.Network.Message

/-!
# Frames on a stream

`send_message` writes the number of bytes of a message and then the bytes, and
`recv_message` reads a number and then as many bytes. A `send` and a `recv` of the
system move some bytes at a time. When the connection is closed, what has been written
is still read, and then `recv` gets nothing: `recv_bytes` returns what it has, which
`recv_message` only compares with zero.

`Inv` is the invariant of a direction: what has been returned, what is being read, what
is on its way and what is not written are the frames of the messages sent, in order.

Main results:

* `delivers`: on a stream closed between two messages, if it is closed, the results are
  the messages sent, whatever the moves of the two ends;
* `cut_safe`: a stream that is closed within a frame yields no part of the message when
  the bytes written are zeros of the size, or the size alone.
-/

namespace Eau2

/-- A serialized message has a kind. -/
theorem Wire.Message.ne_nil_of_serialize {m : Wire.Message} {bytes : Bytes}
    (h : m.serialize = some bytes) :
    bytes ≠ [] := by
  obtain ⟨body, -, heq⟩ := Option.bind_eq_some_iff.1 h
  cases heq
  have hkind : Wire.addMsgType m.kind ≠ [] := by
    rw [← List.length_pos_iff, Wire.addMsgType, Serializer.addInt, LittleEndian.length_encode]
    decide
  exact List.append_ne_nil_of_left_ne_nil (List.append_ne_nil_of_left_ne_nil hkind _) _

namespace Framing

open Serializer Duplex

/-- The bytes of a message. -/
structure Frame extends Packet where
  ne_nil : bytes ≠ []

/-- The bytes `send_message` sends for a message. -/
def Frame.ofMessage {m : Wire.Message} {bytes : Bytes} (h : m.serialize = some bytes)
    (hlt : bytes.length < 2 ^ 64) : Frame := ⟨⟨bytes, hlt⟩, m.ne_nil_of_serialize h⟩

/-- What `recv_message` returns: a null pointer, or a `Deserializer` of so many bytes, of
    which these have been received. -/
inductive Result
  | null
  | message (numBytes : Nat) (buf : Bytes)
  deriving DecidableEq

/-- All of a message. -/
def Frame.result (m : Frame) : Result := .message m.bytes.length m.bytes

/-- `send_message`, with what is left of what `send_bytes` is called for. -/
inductive Sender
  | idle
  | size (m : Frame) (left : Bytes)
  | body (m : Frame) (left : Bytes)

/-- `recv_message`, with what `recv_bytes` has got: of the size, and then of as many
    bytes. -/
inductive Receiver
  | idle
  | size (buf : Bytes)
  | body (sizeBytes buf : Bytes)
  /-- An assertion has failed. -/
  | failed

/-- One direction of a connection. -/
structure State where
  /-- The messages `send_message` has been called for. -/
  sent : List Frame
  sender : Sender
  /-- The bytes on their way. -/
  channel : Bytes
  /-- The sending end is closed. -/
  closed : Bool
  receiver : Receiver

inductive Action
  /-- A call of `send_message`. -/
  | send (m : Frame)
  /-- A `send` that moves `k` bytes. -/
  | write (k : Nat)
  | close
  /-- A call of `recv_message`. -/
  | call
  /-- A `recv` that moves `k` bytes. -/
  | recv (k : Nat)
  /-- A `recv` that gets nothing, for ever. -/
  | eof

/-- `recv_message`, once it has what it gets of the size: these are the low bytes of
    `num_bytes`, which was `0`. -/
def sized (sizeBytes : Bytes) : Receiver :=
  if LittleEndian.decode sizeBytes = 0 then .failed else .body sizeBytes []

/-- A move, and what `recv_message` returns if it does. -/
def step : Action → State → Option (State × List Result)
  | .send m, s =>
    match s.sender with
    | .idle =>
      if s.closed then none
      else some ({ s with sent := s.sent ++ [m], sender := .size m (addSizeT m.bytes.length) }, [])
    | _ => none
  | .write k, s =>
    if s.closed then none
    else match s.sender with
      | .idle => none
      | .size m left =>
        if 0 < k ∧ k ≤ left.length then
          let sender := if left.drop k = [] then .body m m.bytes else .size m (left.drop k)
          some ({ s with channel := s.channel ++ left.take k, sender := sender }, [])
        else none
      | .body m left =>
        if 0 < k ∧ k ≤ left.length then
          let sender := if left.drop k = [] then .idle else .body m (left.drop k)
          some ({ s with channel := s.channel ++ left.take k, sender := sender }, [])
        else none
  | .close, s => if s.closed then none else some ({ s with closed := true }, [])
  | .call, s =>
    match s.receiver with
    | .idle => some ({ s with receiver := .size [] }, [])
    | _ => none
  | .recv k, s =>
    let got := s.channel.take k
    match s.receiver with
    | .size buf =>
      if 0 < k ∧ k ≤ 8 - buf.length ∧ k ≤ s.channel.length then
        let receiver := if (buf ++ got).length < 8 then .size (buf ++ got) else sized (buf ++ got)
        some ({ s with channel := s.channel.drop k, receiver := receiver }, [])
      else none
    | .body sizeBytes buf =>
      let numBytes := LittleEndian.decode sizeBytes
      if 0 < k ∧ k ≤ numBytes - buf.length ∧ k ≤ s.channel.length then
        if (buf ++ got).length < numBytes then
          some ({ s with channel := s.channel.drop k, receiver := .body sizeBytes (buf ++ got) },
            [])
        else some ({ s with channel := s.channel.drop k, receiver := .idle },
          [.message numBytes (buf ++ got)])
      else none
    | _ => none
  | .eof, s =>
    if s.closed ∧ s.channel = [] then
      match s.receiver with
      | .size buf =>
        if buf = [] then some ({ s with receiver := .idle }, [.null])
        else some ({ s with receiver := sized buf }, [])
      | .body sizeBytes buf =>
        if buf = [] then some ({ s with receiver := .failed }, [])
        else some ({ s with receiver := .idle }, [.message (LittleEndian.decode sizeBytes) buf])
      | _ => none
    else none

/-- A new connection. -/
def init : State where
  sent := []
  sender := .idle
  channel := []
  closed := false
  receiver := .idle

/-! ## The stream -/

/-- What is not written of the current frame. -/
def Sender.left : Sender → Bytes
  | idle => []
  | size m left => left ++ m.bytes
  | body _ left => left

/-- What has been read of the current frame. -/
def Receiver.got : Receiver → Bytes
  | idle | failed => []
  | size buf => buf
  | body sizeBytes buf => sizeBytes ++ buf

/-- The current frame is that of the last message. -/
def Sender.Current (sent : List Frame) : Sender → Prop
  | idle => True
  | size m left => left ≠ [] ∧ left <:+ addSizeT m.bytes.length ∧ ∃ before, sent = before ++ [m]
  | body m left => left ≠ [] ∧ left <:+ m.bytes ∧ ∃ before, sent = before ++ [m]

/-- The bytes written of the current frame are zeros of the size, or the size alone. -/
def Sender.CleanCut : Sender → Prop
  | idle => True
  | size m left => m.bytes.length % 256 ^ (8 - left.length) = 0
  | body m left => left.length = m.bytes.length

/-- What is received is the message `k`. -/
def Receiver.Reads (sent : List Frame) (k : Nat) : Receiver → Prop
  | size buf => buf.length < 8
  | body sizeBytes buf => ∃ m, sent[k]? = some m ∧ sizeBytes = addSizeT m.bytes.length ∧
      buf.length < m.bytes.length
  | idle | failed => True

/-- The first `k` messages have been returned, and then `j` null pointers; `P` holds where
    the connection has been closed. -/
structure At (P : Sender → Prop) (l : List Result) (s : State) (k j : Nat) : Prop where
  results : l = (s.sent.take k).map Frame.result ++ List.replicate j .null
  le : k ≤ s.sent.length
  null : 0 < j → s.closed = true ∧ s.channel = [] ∧ s.receiver.got = []
  stream : s.receiver = .failed ∨
    (s.sent.drop k).flatMap (·.framed) = s.receiver.got ++ (s.channel ++ s.sender.left)
  sender : s.sender.Current s.sent
  reads : s.receiver.Reads s.sent k
  cut : s.closed = true → P s.sender
  failed : s.receiver = .failed → s.closed = true ∧ s.sender ≠ .idle

/-- The results so far are those of the first messages. -/
def Inv (P : Sender → Prop) (l : List Result) (s : State) : Prop := ∃ k j, At P l s k j

/-- The connection is closed only where `P` holds. -/
def ClosesAt (P : Sender → Prop) (a : Action) (s : State) : Prop := a = .close → P s.sender

theorem Frame.length_pos (m : Frame) : 0 < m.bytes.length := List.length_pos_iff.2 m.ne_nil

theorem length_addSizeT (n : Nat) : (addSizeT n).length = 8 := LittleEndian.length_encode 8 n

variable {P : Sender → Prop} {l : List Result} {s : State} {k j : Nat} {m : Frame}

theorem at_init : At P [] init 0 0 :=
  ⟨rfl, le_rfl, nofun, .inr rfl, trivial, trivial, nofun, nofun⟩

theorem Sender.current_size (sent : List Frame) (m : Frame) :
    (Sender.size m (addSizeT m.bytes.length)).Current (sent ++ [m]) := by
  refine ⟨?_, List.suffix_refl _, sent, rfl⟩
  rw [← List.length_pos_iff, length_addSizeT]
  decide

theorem Receiver.Reads.concat {sent : List Frame} {receiver : Receiver} (h : receiver.Reads sent k)
    (m : Frame) :
    receiver.Reads (sent ++ [m]) k := by
  cases receiver with
  | idle | failed => trivial
  | size buf => exact h
  | body sizeBytes buf =>
    obtain ⟨m', hm', hsize⟩ := h
    exact ⟨m', by rw [List.getElem?_append_left (List.getElem?_eq_some_iff.1 hm').1, hm'], hsize⟩

/-! ## The moves of the sender -/

/-- `send_message` is called. -/
theorem At.send (h : At P l s k j) (hidle : s.sender = .idle) (hopen : s.closed = false)
    (m : Frame) :
    At P l { s with sent := s.sent ++ [m], sender := .size m (addSizeT m.bytes.length) } k j where
  results := by
    rw [List.take_append_of_le_length h.le]
    exact h.results
  le := h.le.trans (by simp)
  null := h.null
  stream := by
    refine h.stream.imp_right fun hstream => ?_
    rw [hidle] at hstream
    rw [List.drop_append_of_le_length h.le, List.flatMap_append, hstream, List.flatMap_singleton]
    simp [Sender.left, Packet.framed]
  sender := Sender.current_size _ m
  reads := h.reads.concat m
  cut := fun hclosed => absurd (hopen.symm.trans hclosed) Bool.false_ne_true
  failed := fun hfailed => absurd (hopen.symm.trans (h.failed hfailed).1) Bool.false_ne_true

/-- Bytes are written. -/
theorem At.write (h : At P l s k j) (hopen : s.closed = false) {piece : Bytes} {sender : Sender}
    (hleft : piece ++ sender.left = s.sender.left) (hcurrent : sender.Current s.sent) :
    At P l { s with channel := s.channel ++ piece, sender := sender } k j where
  results := h.results
  le := h.le
  null := fun hj => absurd (hopen.symm.trans (h.null hj).1) Bool.false_ne_true
  stream := h.stream.imp_right fun hstream => by rw [hstream, List.append_assoc, hleft]
  sender := hcurrent
  reads := h.reads
  cut := fun hclosed => absurd (hopen.symm.trans hclosed) Bool.false_ne_true
  failed := fun hfailed => absurd (hopen.symm.trans (h.failed hfailed).1) Bool.false_ne_true

theorem At.close (h : At P l s k j) (hcut : P s.sender) : At P l { s with closed := true } k j where
  results := h.results
  le := h.le
  null := fun hj => ⟨rfl, (h.null hj).2⟩
  stream := h.stream
  sender := h.sender
  reads := h.reads
  cut := fun _ => hcut
  failed := fun hfailed => ⟨rfl, (h.failed hfailed).2⟩

/-! ## The moves of the receiver -/

/-- `recv_message` is called. -/
theorem At.call (h : At P l s k j) (hidle : s.receiver = .idle) :
    At P l { s with receiver := .size [] } k j where
  results := h.results
  le := h.le
  null := fun hj => ⟨(h.null hj).1, (h.null hj).2.1, rfl⟩
  stream := by
    refine .inr (h.stream.elim (fun hfailed => ?_) fun hstream => ?_)
    · rw [hidle] at hfailed
      cases hfailed
    · rw [hidle] at hstream
      exact hstream
  sender := h.sender
  reads := Nat.zero_lt_succ 7
  cut := h.cut
  failed := nofun

/-- An assertion fails. -/
theorem At.fail (h : At P l s k j) (hclosed : s.closed = true) (hsender : s.sender ≠ .idle) :
    At P l { s with receiver := .failed } k j where
  results := h.results
  le := h.le
  null := fun hj => ⟨(h.null hj).1, (h.null hj).2.1, rfl⟩
  stream := .inl rfl
  sender := h.sender
  reads := trivial
  cut := h.cut
  failed := fun _ => ⟨hclosed, hsender⟩

/-- Bytes are read. -/
theorem At.recv (h : At P l s k j) {piece channel : Bytes} (hchannel : s.channel = piece ++ channel)
    (hne : piece ≠ [])
    (hreceiver : s.receiver ≠ .failed) {receiver : Receiver}
    (hgot : receiver.got = s.receiver.got ++ piece)
    (hreads : receiver.Reads s.sent k) (hnot : receiver ≠ .failed) :
    At P l { s with channel := channel, receiver := receiver } k j where
  results := h.results
  le := h.le
  null := by
    intro hj
    rw [(h.null hj).2.1] at hchannel
    exact absurd (List.append_eq_nil_iff.1 hchannel.symm).1 hne
  stream := by
    refine .inr ((h.stream.resolve_left hreceiver).trans ?_)
    rw [hchannel, hgot]
    simp only [List.append_assoc]
  sender := h.sender
  reads := hreads
  cut := h.cut
  failed := fun hfailed => absurd hfailed hnot

/-- The next frame of the stream. -/
theorem At.next (h : At P l s k j) (hreceiver : s.receiver ≠ .failed)
    (hne : s.receiver.got ++ (s.channel ++ s.sender.left) ≠ []) :
    ∃ m, s.sent[k]? = some m ∧ m.framed ++ (s.sent.drop (k + 1)).flatMap (·.framed) =
      s.receiver.got ++ (s.channel ++ s.sender.left) := by
  have hstream := h.stream.resolve_left hreceiver
  have hlt : k < s.sent.length := by
    by_contra hge
    rw [List.drop_of_length_le (not_lt.1 hge), List.flatMap_nil] at hstream
    exact hne hstream.symm
  refine ⟨s.sent[k], List.getElem?_eq_getElem hlt, ?_⟩
  rw [← hstream, List.drop_eq_getElem_cons hlt, List.flatMap_cons]

/-- The size, once it is wholly received. -/
theorem At.size_eq (h : At P l s k j) {buf piece channel : Bytes} (hsize : s.receiver = .size buf)
    (hchannel : s.channel = piece ++ channel) (hne : piece ≠ [])
    (hlen : (buf ++ piece).length = 8) :
    ∃ m, s.sent[k]? = some m ∧ buf ++ piece = addSizeT m.bytes.length := by
  obtain ⟨m, hm, hframe⟩ := h.next (by rw [hsize]; exact Receiver.noConfusion)
    (by rw [hsize, hchannel]; simp [hne])
  refine ⟨m, hm, ?_⟩
  rw [hsize, hchannel, Packet.framed] at hframe
  simp only [Receiver.got, List.append_assoc] at hframe
  rw [← List.append_assoc buf] at hframe
  exact (List.append_inj_left hframe (by rw [hlen, length_addSizeT])).symm

theorem Frame.decode_size (m : Frame) : LittleEndian.decode (addSizeT m.bytes.length) =
    m.bytes.length :=
  LittleEndian.decode_encode_of_lt m.length_lt

theorem sized_addSizeT (m : Frame) : sized (addSizeT m.bytes.length) =
    .body (addSizeT m.bytes.length) [] := by
  rw [sized, m.decode_size, if_neg m.length_pos.ne']

theorem At.sized (h : At P l s k j) {buf piece channel : Bytes} (hsize : s.receiver = .size buf)
    (hchannel : s.channel = piece ++ channel) (hne : piece ≠ [])
    (hlen : (buf ++ piece).length = 8) :
    At P l { s with channel := channel, receiver := Framing.sized (buf ++ piece) } k j := by
  obtain ⟨m, hm, hbuf⟩ := h.size_eq hsize hchannel hne hlen
  rw [hbuf, sized_addSizeT]
  refine h.recv hchannel hne (by rw [hsize]; exact Receiver.noConfusion) ?_
    ⟨m, hm, rfl, m.length_pos⟩
    Receiver.noConfusion
  rw [Receiver.got, List.append_nil, ← hbuf, hsize]
  rfl

/-- All of a message is received. -/
theorem At.message (h : At P l s k j) {sizeBytes buf piece channel : Bytes}
    (hbody : s.receiver = .body sizeBytes buf)
    (hchannel : s.channel = piece ++ channel) (hne : piece ≠ [])
    (hlen : (buf ++ piece).length = LittleEndian.decode sizeBytes) :
    At P (l ++ [.message (LittleEndian.decode sizeBytes) (buf ++ piece)])
    { s with channel := channel, receiver := .idle }
      (k + 1) 0 := by
  obtain ⟨m, hm, hframe⟩ := h.next (by rw [hbody]; exact Receiver.noConfusion)
    (by rw [hchannel]; simp [hne])
  have hreads := h.reads
  rw [hbody] at hreads hframe
  obtain ⟨m', hm', rfl, -⟩ := hreads
  obtain rfl : m = m' := Option.some.inj (hm.symm.trans hm')
  rw [hchannel, Packet.framed, Receiver.got] at hframe
  rw [m.decode_size] at hlen
  have hbody' : m.bytes ++ (s.sent.drop (k + 1)).flatMap (·.framed) =
      (buf ++ piece) ++ (channel ++ s.sender.left) := by
    simp only [List.append_assoc] at hframe ⊢
    exact List.append_cancel_left hframe
  have hbuf : m.bytes = buf ++ piece := List.append_inj_left hbody' hlen.symm
  have hj : j = 0 := by
    by_contra hj
    rw [(h.null (Nat.pos_of_ne_zero hj)).2.1] at hchannel
    exact hne (List.append_eq_nil_iff.1 hchannel.symm).1
  refine ⟨?_, (List.getElem?_eq_some_iff.1 hm).1, fun hj => absurd hj (lt_irrefl 0), .inr ?_,
    h.sender, trivial, h.cut, fun hfailed => Receiver.noConfusion hfailed⟩
  · rw [h.results, hj, List.take_add_one, hm, List.map_append, ← hbuf, m.decode_size]
    simp [Frame.result]
  · rw [← hbuf] at hbody'
    exact List.append_cancel_left hbody'

/-! ## The end of the stream -/

/-- `recv_message` gets nothing at all. -/
theorem At.eof (h : At P l s k j) (hclosed : s.closed = true) (hchannel : s.channel = [])
    (hsize : s.receiver = .size []) :
    At P (l ++ [.null]) { s with receiver := .idle } k (j + 1) where
  results := by rw [h.results, List.append_assoc, List.replicate_succ']
  le := h.le
  null := fun _ => ⟨hclosed, hchannel, rfl⟩
  stream := by
    refine .inr (h.stream.elim (fun hfailed => ?_) fun hstream => ?_)
    · rw [hsize] at hfailed
      cases hfailed
    · rw [hsize] at hstream
      exact hstream
  sender := h.sender
  reads := trivial
  cut := h.cut
  failed := nofun

/-- Less than the frame that comes is read of it. -/
theorem At.length_got_lt (h : At P l s k j) (hm : s.sent[k]? = some m) :
    s.receiver.got.length < m.framed.length := by
  have hreads := h.reads
  rw [m.length_framed]
  cases hreceiver : s.receiver with
  | idle | failed => exact Nat.add_pos_left (by decide) _
  | size buf =>
    rw [hreceiver] at hreads
    exact Nat.lt_add_right _ hreads
  | body sizeBytes buf =>
    rw [hreceiver] at hreads
    obtain ⟨m', hm', rfl, hlt⟩ := hreads
    obtain rfl : m = m' := Option.some.inj (hm.symm.trans hm')
    rw [Receiver.got, List.length_append, length_addSizeT]
    exact Nat.add_lt_add_left hlt 8

/-- The frame that is received in part when nothing more comes is that of the last
    message, and what is received is what was written of it. -/
theorem At.last (hP : ∀ sender, P sender → sender.CleanCut) (h : At P l s k j)
    (hclosed : s.closed = true) (hchannel : s.channel = [])
    (hreceiver : s.receiver ≠ .failed) (hgot : s.receiver.got ≠ []) :
    ∃ m, s.sent[k]? = some m ∧ m.framed = s.receiver.got ++ s.sender.left ∧
      (s.receiver.got.length = 8 ∨
        s.receiver.got.length < 8 ∧ m.bytes.length % 256 ^ s.receiver.got.length = 0) := by
  obtain ⟨m, hm, hframe⟩ := h.next hreceiver (List.append_ne_nil_of_left_ne_nil hgot _)
  have hlt := h.length_got_lt hm
  have hcut := hP _ (h.cut hclosed)
  have hcurrent := h.sender
  rw [hchannel, List.nil_append] at hframe
  have hlen := congrArg List.length hframe
  rw [List.length_append, List.length_append] at hlen
  -- the frames after this one are too long for what is left
  have hlast {m₁ : Frame} {before : List Frame} (hsent : s.sent = before ++ [m₁])
      (hleft : s.sender.left.length ≤ m₁.framed.length) : m = m₁ ∧ m.framed =
        s.receiver.got ++ s.sender.left := by
    rw [hsent] at hm hlen hframe
    have hk := (List.getElem?_eq_some_iff.1 hm).1
    rw [List.length_append, List.length_singleton] at hk
    by_cases hbefore : k < before.length
    · rw [List.drop_append_of_le_length hbefore, List.flatMap_append, List.flatMap_singleton,
        List.length_append] at hlen
      omega
    · obtain rfl : k = before.length := by omega
      rw [List.getElem?_concat_length] at hm
      rw [List.drop_of_length_le (by simp), List.flatMap_nil, List.append_nil] at hframe
      exact ⟨(Option.some.inj hm).symm, hframe⟩
  cases hsender : s.sender with
  | idle =>
    rw [hsender, Sender.left, List.length_nil] at hlen
    omega
  | size m₁ left =>
    rw [hsender] at hcurrent hcut hlast
    obtain ⟨hne, hsuffix, before, hsent⟩ := hcurrent
    have hle := hsuffix.length_le
    have hpos := List.length_pos_iff.2 hne
    rw [length_addSizeT] at hle
    have hlength := m₁.length_framed
    have hleft : (Sender.size m₁ left).left.length = left.length + m₁.bytes.length :=
      List.length_append
    obtain ⟨rfl, heq⟩ := hlast hsent (by omega)
    have htotal := congrArg List.length heq
    rw [List.length_append] at htotal
    have hread : s.receiver.got.length = 8 - left.length := by omega
    exact ⟨m, hm, heq, .inr ⟨by omega, by rw [hread]; exact hcut⟩⟩
  | body m₁ left =>
    rw [hsender] at hcurrent hcut hlast
    obtain ⟨-, -, before, hsent⟩ := hcurrent
    have hlength := m₁.length_framed
    have hleft : (Sender.body m₁ left).left.length = m₁.bytes.length := hcut
    obtain ⟨rfl, heq⟩ := hlast hsent (by omega)
    have htotal := congrArg List.length heq
    rw [List.length_append] at htotal
    exact ⟨m, hm, heq, .inl (by omega)⟩

/-- What is received in part when nothing more comes has not been written to its end. -/
theorem At.ne_idle (hP : ∀ sender, P sender → sender.CleanCut) (h : At P l s k j)
    (hclosed : s.closed = true)
    (hchannel : s.channel = []) (hreceiver : s.receiver ≠ .failed) (hgot : s.receiver.got ≠ []) :
    s.sender ≠ .idle := by
  intro hidle
  obtain ⟨m, hm, hframe, -⟩ := h.last hP hclosed hchannel hreceiver hgot
  have hlt := h.length_got_lt hm
  rw [hframe, hidle, Sender.left, List.append_nil] at hlt
  exact lt_irrefl _ hlt

/-- A part of the size that is received alone is zero. -/
theorem At.sized_eq (hP : ∀ sender, P sender → sender.CleanCut) (h : At P l s k j)
    (hclosed : s.closed = true) (hchannel : s.channel = []) {buf : Bytes}
    (hsize : s.receiver = .size buf) (hne : buf ≠ []) : Framing.sized buf = .failed := by
  have hgot : s.receiver.got = buf := by rw [hsize]; rfl
  have hreads := h.reads
  rw [hsize] at hreads
  obtain ⟨m, -, hframe, hzero⟩ := h.last hP hclosed hchannel
    (by rw [hsize]; exact Receiver.noConfusion) (hgot ▸ hne)
  rw [hgot] at hframe hzero
  have hlt : buf.length < 8 := hreads
  have hmod := (hzero.resolve_left hlt.ne).2
  have hbuf : buf = LittleEndian.encode buf.length m.bytes.length := by
    have htake := congrArg (List.take buf.length) hframe
    rw [List.take_left, Packet.framed, List.take_append_of_le_length
      (by rw [length_addSizeT]; exact hlt.le), addSizeT, LittleEndian.take_encode hlt.le] at htake
    exact htake.symm
  rw [Framing.sized, if_pos]
  rw [hbuf, LittleEndian.decode_encode, hmod]

/-- No part of a body is received alone. -/
theorem At.buf_eq_nil (hP : ∀ sender, P sender → sender.CleanCut) (h : At P l s k j)
    (hclosed : s.closed = true) (hchannel : s.channel = []) {sizeBytes buf : Bytes}
    (hbody : s.receiver = .body sizeBytes buf) : buf = [] := by
  have hreads := h.reads
  rw [hbody] at hreads
  obtain ⟨m', -, rfl, -⟩ := hreads
  have hlength : s.receiver.got.length = 8 + buf.length := by
    rw [hbody, Receiver.got, List.length_append, length_addSizeT]
  have hgot : s.receiver.got ≠ [] := by
    rw [← List.length_pos_iff]
    omega
  obtain ⟨m, -, -, hcut⟩ := h.last hP hclosed hchannel
    (by rw [hbody]; exact Receiver.noConfusion) hgot
  rw [← List.length_eq_zero_iff]
  omega

/-! ## The runs -/

/-- The bytes are written that are left to write first. -/
theorem Inv.write {s' : State} {n : Nat} {ev : List Result} (h : Inv P l s)
    (hs : Framing.step (.write n) s = some (s', ev)) : Inv P (l ++ ev) s' := by
  obtain ⟨k, j, h⟩ := h
  have hcurrent := h.sender
  rw [Framing.step] at hs
  split_ifs at hs with hclosed
  split at hs
  · cases hs
  · rename_i m left hsender
    rw [hsender] at hcurrent
    obtain ⟨-, hsuffix, hlast⟩ := hcurrent
    split_ifs at hs with _ hnil
    all_goals
      cases hs
      rw [List.append_nil]
    · -- The size is written: the body comes next.
      refine ⟨k, j, h.write (Bool.not_eq_true _ ▸ hclosed) ?_ ⟨m.ne_nil, List.suffix_refl _, hlast⟩⟩
      rw [hsender, Sender.left, Sender.left, List.take_of_length_le (List.drop_eq_nil_iff.1 hnil)]
    · refine ⟨k, j, h.write (Bool.not_eq_true _ ▸ hclosed) ?_
        ⟨hnil, (List.drop_suffix n left).trans hsuffix, hlast⟩⟩
      rw [hsender, Sender.left, Sender.left, ← List.append_assoc, List.take_append_drop]
  · rename_i m left hsender
    rw [hsender] at hcurrent
    obtain ⟨-, hsuffix, hlast⟩ := hcurrent
    split_ifs at hs with _ hnil
    all_goals
      cases hs
      rw [List.append_nil]
    · -- The body is written: nothing is left of the frame.
      refine ⟨k, j, h.write (Bool.not_eq_true _ ▸ hclosed) ?_ trivial⟩
      rw [hsender, Sender.left, Sender.left, List.take_of_length_le (List.drop_eq_nil_iff.1 hnil),
        List.append_nil]
    · refine ⟨k, j, h.write (Bool.not_eq_true _ ▸ hclosed) ?_
        ⟨hnil, (List.drop_suffix n left).trans hsuffix, hlast⟩⟩
      rw [hsender, Sender.left, Sender.left, List.take_append_drop]

/-- What a `recv` gets is as long as it says, and something. -/
theorem length_append_take {channel : Bytes} {n : Nat} (hpos : 0 < n) (hle : n ≤ channel.length)
    (buf : Bytes) :
    (buf ++ channel.take n).length = buf.length + n ∧ channel.take n ≠ [] := by
  have hlen : (channel.take n).length = n := List.length_take_of_le hle
  refine ⟨by rw [List.length_append, hlen], ?_⟩
  rwa [← List.length_pos_iff, hlen]

/-- The bytes are read that were written first. -/
theorem Inv.recv {s' : State} {n : Nat} {ev : List Result} (h : Inv P l s)
    (hs : Framing.step (.recv n) s = some (s', ev)) : Inv P (l ++ ev) s' := by
  obtain ⟨k, j, h⟩ := h
  have hchannel := (List.take_append_drop n s.channel).symm
  have hreads := h.reads
  rw [Framing.step] at hs
  split at hs
  · rename_i buf hsize
    split_ifs at hs with hn hlt
    all_goals
      cases hs
      obtain ⟨hlen, hne⟩ := length_append_take hn.1 hn.2.2 buf
      rw [List.append_nil]
      rw [hsize] at hreads
    · refine ⟨k, j, h.recv hchannel hne (by rw [hsize]; exact Receiver.noConfusion) ?_ hlt
        Receiver.noConfusion⟩
      rw [hsize]
      rfl
    · -- No more than the size is asked for: this is all of it.
      have hbuf : buf.length < 8 := hreads
      exact ⟨k, j, h.sized hsize hchannel hne (by omega)⟩
  · rename_i sizeBytes buf hbody
    dsimp only at hs
    split_ifs at hs with hn hlt
    all_goals
      cases hs
      obtain ⟨hlen, hne⟩ := length_append_take hn.1 hn.2.2 buf
    · rw [hbody] at hreads
      obtain ⟨m, hm, hsize, -⟩ := hreads
      rw [hsize, m.decode_size] at hlt
      rw [List.append_nil]
      refine ⟨k, j, h.recv hchannel hne (by rw [hbody]; exact Receiver.noConfusion) ?_
        ⟨m, hm, hsize, hlt⟩ Receiver.noConfusion⟩
      rw [hbody, Receiver.got, Receiver.got, List.append_assoc]
    · exact ⟨k + 1, 0, h.message hbody hchannel hne (by omega)⟩
  · cases hs

/-- Nothing comes any more: `recv_message` returns a null pointer between two frames, and
    fails within one. -/
theorem Inv.eof (hP : ∀ sender, P sender → sender.CleanCut) {s' : State} {ev : List Result}
    (h : Inv P l s) (hs : Framing.step .eof s = some (s', ev)) : Inv P (l ++ ev) s' := by
  obtain ⟨k, j, h⟩ := h
  rw [Framing.step] at hs
  split_ifs at hs with hend
  split at hs
  · rename_i buf hsize
    split_ifs at hs with hnil
    · cases hs
      exact ⟨k, j + 1, h.eof hend.1 hend.2 (hnil ▸ hsize)⟩
    · -- A part of the size is zero, which `recv_message` asserts it is not.
      cases hs
      have hne : s.sender ≠ .idle :=
        h.ne_idle hP hend.1 hend.2 (by rw [hsize]; exact Receiver.noConfusion)
          (by rw [hsize]; exact hnil)
      rw [List.append_nil, h.sized_eq hP hend.1 hend.2 hsize hnil]
      exact ⟨k, j, h.fail hend.1 hne⟩
  · -- The size has come and nothing of the body.
    rename_i sizeBytes buf hbody
    have hreads := h.reads
    rw [hbody] at hreads
    obtain ⟨m, -, rfl, -⟩ := hreads
    have hgot : s.receiver.got ≠ [] := by
      rw [hbody, Receiver.got, ← List.length_pos_iff, List.length_append, length_addSizeT]
      exact Nat.add_pos_left (by decide) _
    have hne : s.sender ≠ .idle :=
      h.ne_idle hP hend.1 hend.2 (by rw [hbody]; exact Receiver.noConfusion) hgot
    rw [if_pos (h.buf_eq_nil hP hend.1 hend.2 hbody)] at hs
    cases hs
    rw [List.append_nil]
    exact ⟨k, j, h.fail hend.1 hne⟩
  · cases hs

/-- Every move preserves the invariant. -/
theorem Inv.step (hP : ∀ sender, P sender → sender.CleanCut) {s' : State} {a : Action}
    {ev : List Result}
    (h : Inv P l s) (hok : ClosesAt P a s) (hs : Framing.step a s = some (s', ev)) :
    Inv P (l ++ ev) s' := by
  cases a with
  | send m =>
    obtain ⟨k, j, h⟩ := h
    rw [Framing.step] at hs
    split at hs
    · rename_i hidle
      split_ifs at hs with hclosed
      cases hs
      rw [List.append_nil]
      exact ⟨k, j, h.send hidle (Bool.not_eq_true _ ▸ hclosed) m⟩
    · cases hs
  | write n => exact h.write hs
  | close =>
    obtain ⟨k, j, h⟩ := h
    rw [Framing.step] at hs
    split_ifs at hs
    cases hs
    rw [List.append_nil]
    exact ⟨k, j, h.close (hok rfl)⟩
  | call =>
    obtain ⟨k, j, h⟩ := h
    rw [Framing.step] at hs
    split at hs
    · rename_i hidle
      cases hs
      rw [List.append_nil]
      exact ⟨k, j, h.call hidle⟩
    · cases hs
  | recv n => exact h.recv hs
  | eof => exact h.eof hP hs

theorem inv_of_run (hP : ∀ sender, P sender → sender.CleanCut)
    (h : Trace.Run Framing.step (ClosesAt P) init l s) : Inv P l s :=
  h.invariant (Inv P) ⟨0, 0, at_init⟩ fun hinv hok hs => hinv.step hP hok hs

end Framing

end Eau2

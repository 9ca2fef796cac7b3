import Eau2.Network.Framing

/-!
# What is received of a stream

On a stream that is closed between two messages, if it is closed, `recv_message` returns
the messages in order and then null pointers, however the bytes are cut by the moves of
the two ends (`delivers`): no assertion fails, and whatever has been sent can still be
received.

On a stream that is closed anywhere, `recv_message` may return a part of a message. It
does not where the bytes written of it are zeros of the size, or the size alone
(`cut_safe`).
-/

namespace Eau2.Framing

open Serializer Duplex Trace

variable {l : List Result} {s : State} {k j : Nat} {m : Frame}

/-! ## Streams closed between messages -/

/-- The connection is closed only between two messages. -/
def AtBoundary : Action → State → Prop := ClosesAt (· = .idle)

theorem cleanCut_of_idle (sender : Sender) (h : sender = .idle) : sender.CleanCut := by
  rw [h]
  trivial

/-- What is received is the beginning of the size of the message `k`, or of its bytes. -/
def Receiver.InFrame (sent : List Frame) (k : Nat) : Receiver → Prop
  | idle => True
  | size buf => buf = [] ∨ ∃ m, sent[k]? = some m ∧ buf <+: addSizeT m.bytes.length
  | body sizeBytes buf => ∃ m, sent[k]? = some m ∧ sizeBytes = addSizeT m.bytes.length ∧
      buf <+: m.bytes
  | failed => False

theorem At.ne_failed (h : At (· = .idle) l s k j) : s.receiver ≠ .failed := fun hfailed =>
  absurd (h.cut (h.failed hfailed).1) (h.failed hfailed).2

theorem At.inFrame (h : At (· = .idle) l s k j) : s.receiver.InFrame s.sent k := by
  have hreads := h.reads
  have hne := h.ne_failed
  cases hreceiver : s.receiver with
  | idle => trivial
  | failed => exact absurd hreceiver hne
  | size buf =>
    by_cases hnil : buf = []
    · exact .inl hnil
    · obtain ⟨m, hm, hframe⟩ := h.next hne
        (by rw [hreceiver]; exact List.append_ne_nil_of_left_ne_nil hnil _)
      rw [hreceiver] at hreads hframe
      -- what is read is not longer than the size of the next message, and the stream goes on
      -- with it
      have hlt : buf.length < 8 := hreads
      refine .inr ⟨m, hm, ?_⟩
      rw [Packet.framed, List.append_assoc] at hframe
      exact List.prefix_of_prefix_length_le ⟨_, hframe.symm⟩ (List.prefix_append _ _)
        (by rw [length_addSizeT]; exact hlt.le)
  | body sizeBytes buf =>
    rw [hreceiver] at hreads
    obtain ⟨m, hm, hsize, hlt⟩ := hreads
    have hgot : s.receiver.got ≠ [] := by
      rw [hreceiver, Receiver.got, hsize, ← List.length_pos_iff, List.length_append,
        length_addSizeT]
      exact Nat.add_pos_left (by decide) _
    obtain ⟨m', hm', hframe⟩ := h.next hne (List.append_ne_nil_of_left_ne_nil hgot _)
    obtain rfl : m = m' := Option.some.inj (hm.symm.trans hm')
    rw [hreceiver, Receiver.got, hsize, Packet.framed, List.append_assoc,
      List.append_assoc] at hframe
    have hbody := List.append_cancel_left hframe
    exact ⟨m, hm, hsize, List.prefix_of_prefix_length_le ⟨_, hbody.symm⟩
      (List.prefix_append _ _) hlt.le⟩

/-- All has been returned when nothing is received in part, nor on its way. -/
theorem At.eq_length (h : At (· = .idle) l s k j) (hgot : s.receiver.got = [])
    (hchannel : s.channel = [])
    (hsender : s.sender = .idle) : k = s.sent.length := by
  have hstream := h.stream.resolve_left h.ne_failed
  rw [hgot, hchannel, hsender] at hstream
  refine le_antisymm h.le (not_lt.1 fun hlt => ?_)
  rw [List.drop_eq_getElem_cons hlt, List.flatMap_cons] at hstream
  exact Packet.framed_ne_nil _ (List.append_eq_nil_iff.1 hstream).1

/-! ## Progress -/

/-- Whether `recv_message` is yet to be called. -/
def Receiver.work : Receiver → Nat
  | idle => 1
  | size _ | body _ _ | failed => 0

theorem Receiver.work_le (receiver : Receiver) : receiver.work ≤ 1 := by
  cases receiver with
  | idle => exact le_rfl
  | size _ | body _ _ | failed => exact Nat.zero_le 1

/-- Bytes count three times before they are written, and twice on their way. -/
def State.work (s : State) : Nat :=
  3 * s.sender.left.length + 2 * s.channel.length + s.receiver.work

/-- What `recv` does with the next byte. -/
theorem At.exists_recv (h : At (· = .idle) l s k j) (hidle : s.receiver ≠ .idle)
    (hchannel : s.channel ≠ []) :
    ∃ receiver ev, step (.recv 1) s =
      some ({ s with channel := s.channel.drop 1, receiver := receiver }, ev) := by
  have hreads := h.reads
  have hpos := List.length_pos_iff.2 hchannel
  rw [step]
  cases hreceiver : s.receiver with
  | idle => exact absurd hreceiver hidle
  | failed => exact absurd hreceiver h.ne_failed
  | size buf =>
    rw [hreceiver] at hreads
    -- a byte of the size is missing
    have hlt : buf.length < 8 := hreads
    dsimp only
    rw [if_pos ⟨Nat.one_pos, by omega, hpos⟩]
    exact ⟨_, _, rfl⟩
  | body sizeBytes buf =>
    rw [hreceiver] at hreads
    obtain ⟨m, -, hsize, hlt⟩ := hreads
    dsimp only
    rw [hsize, m.decode_size, if_pos ⟨Nat.one_pos, by omega, hpos⟩]
    split_ifs
    · exact ⟨_, _, rfl⟩
    · exact ⟨_, _, rfl⟩

/-- What `send` does with the next byte. -/
theorem At.exists_write (h : At (· = .idle) l s k j) (hleft : s.sender.left ≠ []) :
    ∃ sender, sender.left.length + 1 = s.sender.left.length ∧
      step (.write 1) s =
        some ({ s with channel := s.channel ++ s.sender.left.take 1, sender := sender }, []) := by
  have hopen : ¬s.closed = true := fun hclosed => hleft (by rw [h.cut hclosed]; rfl)
  have hcurrent := h.sender
  rw [step, if_neg hopen]
  cases hsender : s.sender with
  | idle =>
    rw [hsender] at hleft
    exact absurd rfl hleft
  | size m left =>
    rw [hsender] at hcurrent
    have hpos := List.length_pos_iff.2 hcurrent.1
    have htake : (Sender.size m left).left.take 1 = left.take 1 :=
      List.take_append_of_le_length hpos
    dsimp only
    rw [if_pos ⟨Nat.one_pos, hpos⟩, htake]
    refine ⟨_, ?_, rfl⟩
    split_ifs with hnil
    · have hone := List.drop_eq_nil_iff.1 hnil
      simp only [Sender.left, List.length_append]
      omega
    · simp only [Sender.left, List.length_append, List.length_drop]
      omega
  | body m left =>
    rw [hsender] at hcurrent
    have hpos := List.length_pos_iff.2 hcurrent.1
    dsimp only
    rw [if_pos ⟨Nat.one_pos, hpos⟩]
    refine ⟨_, ?_, rfl⟩
    split_ifs with hnil
    · have hone := List.drop_eq_nil_iff.1 hnil
      simp only [Sender.left, List.length_nil]
      omega
    · simp only [Sender.left, List.length_drop]
      omega

/-- As long as messages are to be received, some move brings them nearer. -/
theorem At.exists_step (h : At (· = .idle) l s k j) (hlt : k < s.sent.length) :
    ∃ a s' ev, AtBoundary a s ∧ step a s = some (s', ev) ∧ s'.sent = s.sent ∧ s'.closed = s.closed ∧
    s'.work < s.work := by
  by_cases hidle : s.receiver = .idle
  · refine ⟨.call, { s with receiver := .size [] }, [], fun hclose => Action.noConfusion hclose,
      by rw [step, hidle], rfl, rfl, ?_⟩
    rw [State.work, State.work, hidle]
    exact Nat.lt_succ_self _
  · by_cases hchannel : s.channel = []
    · have hm := List.getElem?_eq_getElem hlt
      obtain ⟨m, hm, hframe⟩ : ∃ m, s.sent[k]? = some m ∧ m.framed ++ (s.sent.drop (k + 1)).flatMap
        (·.framed) =
          s.receiver.got ++ (s.channel ++ s.sender.left) := by
        refine ⟨_, hm, ?_⟩
        rw [← h.stream.resolve_left h.ne_failed, List.drop_eq_getElem_cons hlt, List.flatMap_cons]
      -- what has come is not the whole frame, and nothing is on its way: something is left to
      -- write
      have hgot := h.length_got_lt hm
      have hlen := congrArg List.length hframe
      rw [hchannel, List.nil_append, List.length_append, List.length_append] at hlen
      have hleft : s.sender.left ≠ [] := by
        rw [← List.length_pos_iff]
        omega
      obtain ⟨sender, hsender, hstep⟩ := h.exists_write hleft
      refine ⟨.write 1, _, _, fun hclose => Action.noConfusion hclose, hstep, rfl, rfl, ?_⟩
      rw [State.work, State.work, hchannel]
      simp only [List.nil_append, List.length_take, List.length_nil]
      omega
    · have hpos := List.length_pos_iff.2 hchannel
      obtain ⟨receiver, ev, hstep⟩ := h.exists_recv hidle hchannel
      refine ⟨.recv 1, _, _, fun hclose => Action.noConfusion hclose, hstep, rfl, rfl, ?_⟩
      have hwork := receiver.work_le
      simp only [State.work, List.length_drop]
      omega

theorem run_step {a : Action} {s s' : State} {ev : List Result} (hs : step a s = some (s', ev))
    (hne : a ≠ .close) :
    Run step AtBoundary s ev s' := .move .refl (fun h => absurd h hne) hs

/-- A null pointer is returned at the end. -/
theorem At.exists_null (h : At (· = .idle) l s k 0) (hclosed : s.closed = true)
    (hk : k = s.sent.length) :
    ∃ s', Run step AtBoundary s [.null] s' ∧ s'.sent = s.sent ∧ s'.closed = s.closed := by
  have hreads := h.reads
  have hstream := h.stream.resolve_left h.ne_failed
  rw [List.drop_of_length_le hk.ge, h.cut hclosed, List.flatMap_nil] at hstream
  obtain ⟨hgot, hrest⟩ := List.append_eq_nil_iff.1 hstream.symm
  have hchannel := (List.append_eq_nil_iff.1 hrest).1
  have heof {s : State} (hc : s.closed = true) (hch : s.channel = [])
      (hsize : s.receiver = .size []) :
      Run step AtBoundary s [.null] { s with receiver := .idle } := by
    have hstep : step .eof s = some ({ s with receiver := .idle }, [.null]) := by
      rw [step, if_pos ⟨hc, hch⟩, hsize]
      rfl
    exact run_step hstep fun hclose => Action.noConfusion hclose
  cases hreceiver : s.receiver with
  | failed => exact absurd hreceiver h.ne_failed
  | idle =>
    have hcall : step .call s = some ({ s with receiver := .size [] }, []) := by
      rw [step, hreceiver]
    have hsize : Run step AtBoundary s [] { s with receiver := .size [] } :=
      run_step hcall fun hclose => Action.noConfusion hclose
    exact ⟨_, hsize.trans (heof hclosed hchannel rfl), rfl, rfl⟩
  | size buf =>
    rw [hreceiver] at hgot
    have hnil : buf = [] := hgot
    exact ⟨_, heof hclosed hchannel (hnil ▸ hreceiver), rfl, rfl⟩
  | body sizeBytes buf =>
    rw [hreceiver] at hreads hgot
    obtain ⟨m, -, hsize, -⟩ := hreads
    -- the size has been read, which is not nothing
    have hlen := congrArg List.length (List.append_eq_nil_iff.1 hgot).1
    rw [hsize, length_addSizeT] at hlen
    cases hlen

/-- The messages sent can be received. -/
theorem exists_received (h : Run step AtBoundary init l s) :
    ∃ l' s', Run step AtBoundary s l' s' ∧ s'.sent = s.sent ∧ s'.closed = s.closed ∧
      ∃ j, l ++ l' = s.sent.map Frame.result ++ List.replicate j .null ∧
      (s.closed = true → 0 < j) := by
  induction hw : s.work using Nat.strong_induction_on generalizing l s with
  | _ w ih =>
    obtain ⟨k, j, hat⟩ := inv_of_run cleanCut_of_idle h
    rcases hat.le.lt_or_eq with hlt | heq
    · obtain ⟨a, s₁, ev, hok, hstep, hsent, hclosed, hless⟩ := hat.exists_step hlt
      obtain ⟨l', s', hrun, hsent', hclosed', j', heq, hnull⟩ := ih _ (hw ▸ hless)
        (h.move hok hstep) rfl
      refine ⟨ev ++ l', s', .trans (.move .refl hok hstep) hrun, hsent'.trans hsent,
        hclosed'.trans hclosed, j', ?_, ?_⟩
      · rw [← List.append_assoc, heq, hsent]
      · rwa [hclosed] at hnull
    · have hl := hat.results
      rw [heq, List.take_length] at hl
      by_cases hdone : s.closed = true ∧ j = 0
      · obtain ⟨hclosed, rfl⟩ := hdone
        obtain ⟨s', hrun, hsent, hclosed'⟩ := hat.exists_null hclosed heq
        exact ⟨_, s', hrun, hsent, hclosed', 1, by rw [hl]; simp, fun _ => Nat.one_pos⟩
      · refine ⟨[], s, .refl, rfl, rfl, j, by rw [List.append_nil, hl], fun hclosed => ?_⟩
        exact Nat.pos_of_ne_zero fun hj => hdone ⟨hclosed, hj⟩

/-- However the stream is cut, the results are the messages sent, in order, and then null
    pointers once the stream has been closed between two messages; what is read of a
    message is of its own frame, no assertion fails, and what has been sent can be
    received to the end. -/
theorem delivers (h : Run step AtBoundary init l s) :
    ∃ k j, l = (s.sent.take k).map Frame.result ++ List.replicate j .null ∧
      (0 < j → s.closed = true ∧ k = s.sent.length) ∧ s.receiver.InFrame s.sent k ∧
      ∃ l' s', Run step AtBoundary s l' s' ∧ s'.sent = s.sent ∧ s'.closed = s.closed ∧
        ∃ j', l ++ l' = s.sent.map Frame.result ++ List.replicate j' .null ∧
        (s.closed = true → 0 < j') := by
  obtain ⟨k, j, hat⟩ := inv_of_run cleanCut_of_idle h
  refine ⟨k, j, hat.results, fun hj => ?_, hat.inFrame, exists_received h⟩
  obtain ⟨hclosed, hchannel, hgot⟩ := hat.null hj
  exact ⟨hclosed, hat.eq_length hgot hchannel (hat.cut hclosed)⟩

/-- A `KILL` message of node 0. -/
def kill : Frame := .ofMessage (m := ⟨⟨0, 0, 0⟩, .kill⟩) rfl (by decide)

/-- A `GET` message of node 0, for a key of node 1. -/
def get : Frame := .ofMessage (m := ⟨⟨0, 1, 0⟩, .get ⟨[97], 1⟩⟩) rfl (by decide)

/-- Two messages, the size of the second of which is sent with the end of the first, and
    then the stream is closed. -/
theorem delivers_twoFrames :
    ∃ s, Run step AtBoundary init [kill.result, get.result, .null] s ∧
      s.closed = true ∧ s.receiver.InFrame s.sent 2 ∧
      ∃ l' s', Run step AtBoundary s l' s' ∧ s'.sent = s.sent := by
  have hexec : ∃ s, exec step [.send kill, .write 3, .call, .recv 2, .write 5, .write 20, .recv 6,
      .recv 13, .write 8, .send get, .write 4, .recv 15, .call, .recv 3, .write 4, .write 10,
      .recv 5, .recv 7, .write (get.bytes.length - 10)] init = some (s, [kill.result]) ∧
      s.sender = .idle ∧
      step .close s = some ({ s with closed := true }, []) ∧
      exec step [.recv (get.bytes.length - 7), .call, .eof] { s with closed := true } =
        some ({ s with closed := true, channel := [], receiver := .idle },
          [get.result, .null]) := ⟨_, rfl, rfl, rfl, rfl⟩
  obtain ⟨s, hexec, hsender, hclose, hexec'⟩ := hexec
  have hopen : Run step AtBoundary init [kill.result] s :=
    .of_exec hexec (by simp [AtBoundary, ClosesAt])
  have hclosed : Run step AtBoundary init [kill.result] { s with closed := true } :=
    hopen.move (fun _ => hsender) hclose
  have hrun : Run step AtBoundary init [kill.result, get.result, .null]
      { s with closed := true, channel := [], receiver := .idle } :=
    hclosed.trans (.of_exec hexec' (by simp [AtBoundary, ClosesAt]))
  obtain ⟨_, _, -, -, -, l', s', hrun', hsent, -⟩ := delivers hrun
  exact ⟨_, hrun, rfl, trivial, l', s', hrun', hsent⟩

/-! ## Streams closed anywhere -/

/-- The connection is closed only at a clean cut. -/
def Cleanly : Action → State → Prop := ClosesAt Sender.CleanCut

/-- The results are messages sent, in order, and then null pointers, and a size that is
    used has been received whole. -/
def Uncut (l : List Result) (s : State) : Prop :=
  ∃ k j, l = (s.sent.take k).map Frame.result ++ List.replicate j .null ∧
    ∀ sizeBytes buf, s.receiver = .body sizeBytes buf →
      ∃ m, s.sent[k]? = some m ∧ sizeBytes = addSizeT m.bytes.length

/-- A stream that is closed at a clean cut yields no part of a message. -/
theorem cut_safe (h : Run step Cleanly init l s) : Uncut l s := by
  obtain ⟨k, j, hat⟩ := inv_of_run (fun _ => id) h
  refine ⟨k, j, hat.results, fun sizeBytes buf hbody => ?_⟩
  have hreads := hat.reads
  rw [hbody] at hreads
  obtain ⟨m, hm, hsize, -⟩ := hreads
  exact ⟨m, hm, hsize⟩

/-- The size of a message, and none of its bytes. -/
theorem cut_safe_kill : ∃ s, Run step Cleanly init [] s ∧ s.receiver = .failed ∧ Uncut [] s := by
  have hsize : ∃ s, exec step [.send kill, .write 8] init = some (s, []) ∧ s.sender =
    .body kill kill.bytes ∧
      exec step [.call, .recv 8, .eof] { s with closed := true } =
        some ({ s with closed := true, channel := [], receiver := .failed }, []) ∧
      step .close s = some ({ s with closed := true }, []) := ⟨_, rfl, rfl, rfl, rfl⟩
  obtain ⟨s, hexec, hsender, hexec', hclose⟩ := hsize
  have hwritten : Run step Cleanly init [] s := .of_exec hexec (by simp [Cleanly, ClosesAt])
  have hclosed : Run step Cleanly init [] { s with closed := true } :=
    hwritten.move (fun _ => by rw [hsender]; rfl) hclose
  have hrun := hclosed.trans (.of_exec hexec' (by simp [Cleanly, ClosesAt]))
  exact ⟨_, hrun, rfl, cut_safe hrun⟩

/-- The size of a message, and one of its bytes: what is returned has the size of the
    message and this byte. -/
theorem cut_fails : ¬∀ l s, Run step (fun _ _ => True) init l s → Uncut l s := by
  intro h
  have hexec : ∃ s, exec step [.send kill, .write 8, .write 1, .close, .call, .recv 8, .recv 1,
    .eof] init =
      some (s, [.message 28 [4]]) ∧ s.sent = [kill] := ⟨_, rfl, rfl⟩
  obtain ⟨s, hexec, hsent⟩ := hexec
  obtain ⟨k, j, hl, -⟩ := h _ _ (.of_exec hexec fun _ _ _ => trivial)
  rw [hsent] at hl
  cases k with
  | zero =>
    have heq : [Result.message 28 [4]] = List.replicate j .null := hl
    have hmem : Result.message 28 [4] ∈ List.replicate j Result.null := heq ▸ List.mem_cons_self
    cases List.eq_of_mem_replicate hmem
  | succ k =>
    have hhead := (List.cons_eq_cons.1 hl).1
    exact absurd hhead (by decide)

end Eau2.Framing

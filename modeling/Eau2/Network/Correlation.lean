import Eau2.Network.Refinement

/-!
# Replies and the requests they answer

A `Reply` does not say which request it answers. It need not: a node has one request
outstanding at a time, on one end of one connection, so that the only reply to come on
this end is the answer to it.

Main result: `replies_correlate`. The assertions on the number of `replies` never fail,
and the reply taken is the one the peer has made for the request just sent.
-/

namespace Eau2.Network

variable {n : Nat} {s : State} {l : List Event}

theorem Sync.outstanding_le (h : Sync s) (e : EndId) : s.outstanding e ≤ 1 := by
  rw [h.count]
  split_ifs <;> omega

/-- The requests of a node are outstanding on one end at most. -/
theorem Sync.eq_of_outstanding (h : Sync s) {e e' : EndId} (howner : s.owner e = s.owner e')
    (he : 0 < s.outstanding e) (he' : 0 < s.outstanding e') : e = e' := by
  have haw := h.awaiting_of_pos he
  rw [howner] at haw
  exact Phase.awaiting.inj (haw.symm.trans (h.awaiting_of_pos he'))

/-- The value of a reply. -/
def Message.value? : Message → Option Value
  | reply v => some v
  | put _ _ | get _ | waitAndGet _ => none

/-- The values on their way to the node of the end `e`. -/
def State.coming (s : State) (e : EndId) : List Value :=
  (s.handler e.peer).values ++ ((s.inbox e).filterMap Message.value? ++ s.replies e)

theorem mem_coming {e : EndId} {v : Value} (h : s.Coming e v) : v ∈ s.coming e := by
  rcases h with h | h | h
  · refine List.mem_append_left _ ?_
    rw [h]
    exact List.mem_singleton_self v
  · exact List.mem_append_right _ (List.mem_append_left _ (List.mem_filterMap.2 ⟨_, h, rfl⟩))
  · exact List.mem_append_right _ (List.mem_append_right _ h)

theorem Sync.length_coming_le (h : Sync s) (e : EndId) : (s.coming e).length ≤ 1 := by
  have hle := h.outstanding_le e
  have hreplies : ((s.inbox e).filterMap Message.value?).length =
      (s.inbox e).countP Message.isReply := by
    rw [List.length_filterMap_eq_countP]
    exact List.countP_congr fun m _ => by cases m <;> simp [Message.value?, Message.isReply]
  rw [State.outstanding] at hle
  rw [State.coming, List.length_append, List.length_append, hreplies]
  omega

/-- One value comes at most. -/
theorem Sync.coming_unique (h : Sync s) {e : EndId} {v v' : Value} (hv : s.Coming e v)
    (hv' : s.Coming e v') :
    v = v' := by
  have hle := h.length_coming_le e
  have hmem := mem_coming hv
  have hmem' := mem_coming hv'
  cases hlist : s.coming e with
  | nil =>
    rw [hlist] at hmem
    cases hmem
  | cons w rest =>
    rw [hlist] at hle hmem hmem'
    obtain rfl : rest = [] := List.eq_nil_of_length_eq_zero
      (Nat.le_zero.1 (Nat.le_of_succ_le_succ hle))
    rw [List.mem_singleton.1 hmem, List.mem_singleton.1 hmem']

/-- What comes to a node that waits is the answer to the request it waits with. -/
theorem answered_of_coming {ok : Action → State → Prop} {progs : Nat → Prog Key Value Unit}
    (h : Trace.Run (step n) ok (init n progs) l s) {i : Nat} {c : EndId} {op : Op} {v : Value}
    (hphase : s.phase i = .awaiting c) (hop : currentOp (s.prog i) = some op) (hv : s.Coming c v) :
    AnsweredFrom l i op v := by
  have hsync := sync_of_run h
  obtain ⟨m, hm, hR⟩ := refines_of_run h
  have hread := hR.reading i
  cases hreading : m.reading i with
  | idle =>
    rw [hreading] at hread
    exact absurd hphase (hread c)
  | requested op' =>
    rw [hreading] at hread
    obtain ⟨e, he, hr, hmem⟩ := hread
    obtain rfl : e = c := Phase.awaiting.inj (he.symm.trans hphase)
    exact absurd hv (hsync.not_coming hr hmem)
  | served op' v' =>
    rw [hreading] at hread
    obtain ⟨e, he, hop', hv'⟩ := hread
    obtain rfl : e = c := Phase.awaiting.inj (he.symm.trans hphase)
    obtain rfl : op' = op := Option.some.inj (hop'.symm.trans hop)
    obtain rfl := hsync.coming_unique hv hv'
    exact (hm.reading i).2 _ _ hreading

/-- Along every run: on every end at most one request of its node is outstanding, and a
    node has outstanding requests on one end at most; `replies` is empty where a request is
    about to be sent, and has no reply or one where it is waited for; a reply that comes to
    a node which waits has been made for the request it waits with, its last call; and so
    has the value that a call returns. Unless the `Value` was deleted when it was cloned,
    the answer is the value of the key at that moment. -/
theorem replies_correlate {progs : Nat → Prog Key Value Unit} (h : Run n progs l s) :
    (∀ e, s.outstanding e ≤ 1) ∧
    (∀ e e', s.owner e = s.owner e' → 0 < s.outstanding e → 0 < s.outstanding e' → e = e') ∧
    (∀ i c op, s.phase i = .holding c → currentOp (s.prog i) = some op → op.isRead = true →
      s.replies c = []) ∧
    (∀ i c, s.phase i = .awaiting c → s.replies c = [] ∨ ∃ v, s.replies c = [v]) ∧
    (∀ i c op v, s.phase i = .awaiting c → currentOp (s.prog i) = some op → s.Coming c v →
      AnsweredFrom l i op v ∧ (.deleted i op v ∉ l → ServedFrom l i op v)) ∧
    (∀ l₁ l₂ i op v, l = l₁ ++ .return i op v :: l₂ →
      AnsweredFrom l₁ i op v ∧ (.deleted i op v ∉ l₁ → ServedFrom l₁ i op v)) := by
  have wf := wf_of_run h
  have hsync := sync_of_run h
  refine ⟨hsync.outstanding_le, fun e e' => hsync.eq_of_outstanding, fun i c op hphase hop _ => ?_,
    fun i c _ => ?_, fun i c op v hphase hop hv => ?_, fun l₁ l₂ i op v hl => ?_⟩
  · have howner := (wf.holding hop (.inl hphase)).1.owner
    refine (hsync.of_not_awaiting (e := c) ?_).2.2.2
    rw [howner, hphase]
    exact Phase.noConfusion
  · have hle := hsync.length_coming_le c
    rw [State.coming, List.length_append, List.length_append] at hle
    -- a second reply would be to a second request
    cases hreplies : s.replies c with
    | nil => exact .inl rfl
    | cons v rest =>
      rw [hreplies, List.length_cons] at hle
      exact .inr ⟨v, by rw [List.eq_nil_of_length_eq_zero (show rest.length = 0 by omega)]⟩
  · have hans := answered_of_coming h hphase hop hv
    exact ⟨hans, hans.served⟩
  · obtain ⟨m, hm, -⟩ := refines_of_run h
    subst hl
    exact ⟨hm.return_answered, hm.return_answered.served⟩

/-- A value is read back: the request is answered before the call returns. -/
theorem replies_correlate_writeThenRead :
    ∃ s, Run 2 (writeThenRead ⟨lit "a", 0⟩ [7])
        [.issue 1 ⟨lit "a", 0⟩ [7], .apply 1 0 ⟨lit "a", 0⟩ [7], .request 1 (.get ⟨lit "a", 0⟩),
          .serve 1 (.get ⟨lit "a", 0⟩) [7], .return 1 (.get ⟨lit "a", 0⟩) [7]] s ∧
      s.outstanding ⟨0, false⟩ ≤ 1 ∧
      ServedFrom [.issue 1 ⟨lit "a", 0⟩ [7], .apply 1 0 ⟨lit "a", 0⟩ [7],
        .request 1 (.get ⟨lit "a", 0⟩), .serve 1 (.get ⟨lit "a", 0⟩) [7]] 1
        (.get ⟨lit "a", 0⟩) [7] := by
  obtain ⟨s, h⟩ := exists_run_writeThenRead
  obtain ⟨hle, -, -, -, -, hret⟩ := replies_correlate h
  exact ⟨s, h, hle _, (hret _ [] _ _ _ rfl).2 (by simp)⟩

end Eau2.Network

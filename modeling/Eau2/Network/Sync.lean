import Eau2.Network.Invariant
import Mathlib.Data.List.Count

/-!
# Requests and replies

Reply messages carry no identification: a reply is matched to a request by its
position only. What makes this work is that the requests and replies of a run
are in step (`Sync`): on every end of a connection there is at most one request
of its node outstanding (`State.outstanding`), namely when the application of
the node waits in `process_reply_` on this end; and it is in exactly one place,
a request in the channel towards the peer, a value the handler of the peer is
about to send back, a reply in the channel back, or a reply in `replies`.
-/

namespace Eau2.Network

open Function

variable {n : Nat} {s s' : State} {a : Action} {ev : List Event}

/-- The values a handler is about to send back. -/
def Handler.values : Handler → List Value
  | replying v => [v]
  | idle | serving _ => []

/-- The places where a request of the node of `e` made on this end may be. -/
def State.outstanding (s : State) (e : EndId) : Nat :=
  (s.inbox e.peer).countP Message.isRead + (s.handler e.peer).values.length +
    (s.inbox e).countP Message.isReply + (s.replies e).length

/-- The requests and replies are in step. -/
structure Sync (s : State) : Prop where
  count : ∀ e, s.outstanding e = if s.phase (s.owner e) = .awaiting e then 1 else 0
  /-- A request in a channel is the current call of the application it comes from. -/
  request : ∀ e (op : Op), op.isRead = true → op.message ∈ s.inbox e.peer →
    currentOp (s.prog (s.owner e)) = some op

theorem Sync.awaiting_of_pos (h : Sync s) {e : EndId} (hpos : 0 < s.outstanding e) :
    s.phase (s.owner e) = .awaiting e := by
  by_contra hne
  rw [h.count, if_neg hne] at hpos
  exact lt_irrefl _ hpos

/-- A request in the channel towards the peer of `e` is being waited for on `e`. -/
theorem Sync.awaiting_of_mem (h : Sync s) {e : EndId} {op : Op} (hr : op.isRead = true)
    (hm : op.message ∈ s.inbox e.peer) : s.phase (s.owner e) = .awaiting e := by
  refine h.awaiting_of_pos ?_
  have : 0 < (s.inbox e.peer).countP Message.isRead :=
    List.countP_pos_iff.2 ⟨_, hm, by rw [Op.message_isRead, hr]⟩
  rw [State.outstanding]
  omega

/-- An end nobody waits on has nothing outstanding. -/
theorem Sync.of_not_awaiting (h : Sync s) {e : EndId} (hne : s.phase (s.owner e) ≠ .awaiting e) :
    (s.inbox e.peer).countP Message.isRead = 0 ∧ (s.handler e.peer).values = [] ∧
      (s.inbox e).countP Message.isReply = 0 ∧ s.replies e = [] := by
  have := h.count e
  rw [if_neg hne, State.outstanding] at this
  refine ⟨by omega, List.eq_nil_of_length_eq_zero (by omega), by omega,
    List.eq_nil_of_length_eq_zero (by omega)⟩

/-- The moves that leave the channels, the handlers' values and the replies
    alone keep the state in step, if nobody starts or stops waiting. -/
theorem Sync.of_phase (h : Sync s) (i : Nat) (ph : Phase)
    (hwas : ∀ e, s.phase i ≠ .awaiting e) (hph : ∀ e, ph ≠ .awaiting e) (e : EndId) :
    s.outstanding e = if update s.phase i ph (s.owner e) = .awaiting e then 1 else 0 := by
  rw [h.count e]
  by_cases hi : s.owner e = i
  · rw [hi, update_self, if_neg (hwas e), if_neg (hph e)]
  · rw [update_of_ne hi]

/-- An application that was not waiting and now waits on the end `c` does not
    wait on another end. -/
theorem Sync.of_wait (h : Sync s) (i : Nat) (e c : EndId) (hwas : ∀ e, s.phase i ≠ .awaiting e)
    (hne : e ≠ c) :
    s.outstanding e = if update s.phase i (.awaiting c) (s.owner e) = .awaiting e
    then 1 else 0 := by
  rw [h.count]
  by_cases hi : s.owner e = i
  · rw [hi, update_self, if_neg (hwas e), if_neg (by simpa using Ne.symm hne)]
  · rw [update_of_ne hi]

theorem Sync.request_update (h : Sync s) {i : Nat} {p : Prog Key Value Unit}
    (hwas : ∀ e, s.phase i ≠ .awaiting e) (e : EndId) (op : Op) (hr : op.isRead = true)
    (hm : op.message ∈ s.inbox e.peer) : currentOp (update s.prog i p (s.owner e)) = some op := by
  have hi : s.owner e ≠ i := by
    rintro hi
    exact hwas e (hi ▸ h.awaiting_of_mem hr hm)
  rw [update_of_ne hi]
  exact h.request e op hr hm

/-- Nobody waits on a connection to come. -/
theorem WF.not_awaiting_fresh (wf : WF n s) {e : EndId} (he : s.nextConn ≤ e.conn) (i : Nat) :
    s.phase i ≠ .awaiting e := by
  intro hph
  obtain ⟨op, _, hend, _⟩ := wf.phase_awaiting hph
  exact absurd hend.conn (not_lt.2 he)

/-- A handler takes a request and is about to send back its value. -/
theorem outstanding_serve {c : EndId} {op : Op} {ph : Phase} {rest : List Message}
    (hh : s.handler c = .serving ph) (hin : s.inbox c = op.message :: rest)
    (hr : op.isRead = true) (v : Value) (e : EndId) :
    ((s.setInbox c rest).setHandler c (.replying v)).outstanding e = s.outstanding e := by
  rcases e.trichotomy c with rfl | rfl | ⟨h₁, h₂, h₃, h₄⟩ <;>
    simp_all [State.outstanding, Handler.values]

/-- A handler takes a request, or its reply, from one of its places to the next. -/
theorem Move.outstanding_handler (n : Nat) {c : EndId} (h : Move n s (.handler c) s' ev)
    (e : EndId) :
    s'.outstanding e = s.outstanding e := by
  cases h with
  | @recvReply _ v rest hh hin =>
    rcases e.trichotomy c with rfl | rfl | ⟨h₁, h₂, h₃, h₄⟩
    · simp only [State.outstanding, State.setReplies_inbox, State.setInbox_inbox, update_self,
        update_of_ne e.peer_ne, State.setReplies_handler, State.setInbox_handler,
        State.setReplies_replies, List.length_append, List.length_singleton, hin,
        List.countP_cons_of_pos (p := Message.isReply) (a := .reply v) (l := rest) rfl]
      omega
    · simp [State.outstanding, hin, Message.isRead]
    · simp [State.outstanding, h₁, h₃]
  | recv hh hin | find hh hin =>
    rcases e.trichotomy c with rfl | rfl | ⟨h₁, h₂, h₃, h₄⟩ <;>
      simp_all [State.outstanding, Handler.values]
  | servePut hh hin =>
    rcases e.trichotomy c with rfl | rfl | ⟨h₁, h₂, h₃, h₄⟩ <;>
      simp_all [State.outstanding, Message.isRead, Message.isReply, Handler.values]
  | serveRead hh hin hr => exact outstanding_serve hh hin hr _ e
  | reply hh =>
    rcases e.trichotomy c with rfl | rfl | ⟨h₁, h₂, h₃, h₄⟩
    · simp [State.outstanding, Message.isRead]
    · simp [State.outstanding, Message.isReply, Handler.values, hh]
      omega
    · simp [State.outstanding, h₂, h₃, h₄]
  | crash | missing => rfl

theorem Move.outstanding (wf : WF n s) (hsync : Sync s) (h : Move n s a s' ev) :
    ∀ e, s'.outstanding e = if s'.phase (s'.owner e) = .awaiting e then 1 else 0 := by
  cases h with
  | putLocal _ hph | findLocal _ hph | readLocal _ hph | deletedLocal _ hph =>
    exact hsync.of_phase _ _ (by simp [hph]) (by simp)
  | connected _ hph | hold _ hph | store _ hph => exact hsync.of_phase _ _ (by simp [hph]) (by simp)
  | @«open» i op hop hph hne hc hlt hi =>
    intro e
    by_cases he : e.conn < s.nextConn
    · have := hsync.of_phase i (.opened s.nextEnd) (by simp [hph]) (by simp) e
      rwa [← owner_openConn s i op.key.node he] at this
    · have h0 := wf.not_awaiting_fresh (not_lt.1 he)
      have hne : update s.phase i (.opened s.nextEnd) ((s.openConn i op.key.node).owner e) ≠
          .awaiting e := by
        by_cases hi' : (s.openConn i op.key.node).owner e = i
        · simp only [hi', update_self, ne_eq, reduceCtorEq, not_false_eq_true]
        · simp only [update_of_ne hi']
          exact h0 _
      exact ((hsync.count e).trans (if_neg (h0 _))).trans (if_neg hne).symm
  | @sendPut i k v next c hp hph =>
    intro e
    refine Eq.trans ?_ (hsync.of_phase i .entry (by simp [hph]) (by simp) e)
    rcases e.trichotomy c with rfl | rfl | ⟨h₁, h₂, h₃, h₄⟩ <;>
      simp_all [State.outstanding, Message.isRead, Message.isReply]
  | @sendRead i op c hop hph hr hrep =>
    intro e
    have hi : s.owner c = i := (wf.holding hop (.inl hph)).1.owner
    rcases e.trichotomy c with rfl | rfl | ⟨h₁, h₂, h₃, h₄⟩
    · have h0 := hsync.of_not_awaiting (e := e) (by simp [hi, hph])
      simp [State.outstanding, hi, h0, hr]
    · refine Eq.trans ?_ (hsync.of_wait i c.peer c (by simp [hph]) (by simp))
      simp [State.outstanding]
    · refine Eq.trans ?_ (hsync.of_wait i e c (by simp [hph]) h₁)
      simp [State.outstanding, h₂, h₄]
  | @returned i op c v hop hph hr hrep =>
    intro e
    have hi : s.owner c = i := (wf.holding hop (.inr (.inl hph))).1.owner
    by_cases h₁ : e = c
    · subst h₁
      have := hsync.count e
      rw [hi, hph, if_pos rfl, State.outstanding, hrep, List.length_singleton] at this
      rw [State.finish_phase, State.finish_owner, State.setReplies_owner, hi, update_self,
        if_neg (by simp), State.outstanding, State.finish_replies, State.setReplies_replies,
        update_self, List.length_nil]
      exact Nat.add_right_cancel this
    · have : s.outstanding e = if update s.phase i .entry (s.owner e) = .awaiting e
          then 1 else 0 := by
        rw [hsync.count]
        by_cases hi' : s.owner e = i
        · rw [hi', update_self, hph, if_neg (by simpa using Ne.symm h₁), if_neg (by simp)]
        · rw [update_of_ne hi']
      refine Eq.trans ?_ this
      simp [State.outstanding, h₁]
  | recvReply hh hin =>
    exact fun e => ((recvReply hh hin).outstanding_handler n e).trans (hsync.count e)
  | recv hh hin => exact fun e => ((recv hh hin).outstanding_handler n e).trans (hsync.count e)
  | find hh hin hf =>
    exact fun e => ((find hh hin hf).outstanding_handler n e).trans (hsync.count e)
  | servePut hh hin hk =>
    exact fun e => ((servePut hh hin hk).outstanding_handler n e).trans (hsync.count e)
  | serveRead hh hin hr hk hv =>
    exact fun e => ((serveRead hh hin hr hk hv).outstanding_handler n e).trans (hsync.count e)
  | serveDeleted hh hin _ hf =>
    exact fun e => (outstanding_serve hh hin hf.isRead _ e).trans (hsync.count e)
  | reply hh hv => exact fun e => ((reply hh hv).outstanding_handler n e).trans (hsync.count e)
  | _ => exact hsync.count

theorem Move.request (wf : WF n s) (hsync : Sync s) (h : Move n s a s' ev) :
    ∀ e (op : Op), op.isRead = true → op.message ∈ s'.inbox e.peer →
      currentOp (s'.prog (s'.owner e)) = some op := by
  cases h with
  | putLocal _ hph | readLocal _ hph | deletedLocal _ hph =>
    exact hsync.request_update (by simp [hph])
  | @«open» i op =>
    intro e op' hr hm
    have hm : op'.message ∈ s.inbox e.peer := hm
    have hc : e.conn < s.nextConn := wf.conn_of_inbox (e := e.peer) (List.ne_nil_of_mem hm)
    rw [State.setPhase_owner, owner_openConn s _ _ hc]
    exact hsync.request e op' hr hm
  | @sendPut i k v next c hp hph =>
    intro e op hr hm
    refine hsync.request_update (by simp [hph]) e op hr ?_
    exact (mem_inbox_of_send hm).resolve_right fun h => Op.message_ne_put hr k v h.2
  | @sendRead i op c hop hph =>
    intro e op' hr hm
    have hi : s.owner c = i := (wf.holding hop (.inl hph)).1.owner
    rcases mem_inbox_of_send hm with hmem | ⟨he, heq⟩
    · exact hsync.request e op' hr hmem
    · obtain rfl : e = c := EndId.peer_inj.1 he
      obtain rfl := Op.message_inj heq
      rw [← hop, ← hi]
      rfl
  | @returned i op c v hop hph hr hrep =>
    intro e op' hr' hm
    have hi : s.owner c = i := (wf.holding hop (.inr (.inl hph))).1.owner
    have hne : s.owner e ≠ i := by
      -- the request of `i` has been answered: the reply is what `i` has just taken
      rintro he
      have haw := hsync.awaiting_of_mem hr' hm
      rw [he, hph] at haw
      obtain rfl : c = e := by simpa using haw
      have hcount := hsync.count c
      have hpos : 0 < (s.inbox c.peer).countP Message.isRead :=
        List.countP_pos_iff.2 ⟨_, hm, by rw [Op.message_isRead, hr']⟩
      rw [State.outstanding, hrep, List.length_singleton] at hcount
      split_ifs at hcount
      omega
    simp only [State.finish_prog, State.setReplies_prog, State.finish_owner, State.setReplies_owner,
      update_of_ne hne]
    exact hsync.request e op' hr' hm
  | recvReply _ hin | servePut _ hin | serveRead _ hin | serveDeleted _ hin =>
    exact fun e op hr hm => hsync.request e op hr (mem_inbox_of_pop hin hm)
  | @reply c v =>
    intro e op hr hm
    refine hsync.request e op hr ?_
    exact (mem_inbox_of_send hm).resolve_right fun h => op.message_ne_reply v h.2
  | _ => exact hsync.request

theorem Move.sync (wf : WF n s) (hsync : Sync s) (h : Move n s a s' ev) : Sync s' :=
  ⟨h.outstanding wf hsync, h.request wf hsync⟩

theorem init_sync (n : Nat) (progs : Nat → Prog Key Value Unit) : Sync (init n progs) where
  count e := by simp [init, State.outstanding, Handler.values]
  request e op _ h := by cases h

/-- In the states of a run, and of a restricted run, the requests and replies are in step. -/
theorem sync_of_run {ok : Action → State → Prop} {progs : Nat → Prog Key Value Unit}
    {l : List Event} (h : Trace.Run (step n) ok (init n progs) l s) : Sync s :=
  h.invariant_of (Q := fun _ s => WF n s) wf_of_run (fun _ s => Sync s) (init_sync n progs)
    fun wf hsync _ hs => (step_move wf hs).sync wf hsync

end Eau2.Network

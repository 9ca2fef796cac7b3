import Eau2.Network.Alone
import Eau2.Network.Session
import Eau2.Network.Progress
import Eau2.Network.Correlation

/-!
# The read of one's own write returns

What a node reads of its own writes is right (`readsOwnWrites_of_run`) as soon as it is
read. That it comes back takes more: the handler that is to deliver the reply serves the
requests of the home of the key that come before it, and it must neither wait in one
(`Withheld`) nor end the process with it. This is so if every such request is for a key
that has a value which can be sent (`Answerable`), and that is not deleted while it is
looked up (`Intact`).

Then the threads of the connection and the accept loop of the home have only so much to
do (`State.toDo`) before the read returns.

Main result: `read_your_writes`.
-/

namespace Eau2.Network

open Function Trace

variable {n : Nat} {s s' : State} {a : Action} {ev l : List Event} {A : Nat} {k : Key}
  {c e : EndId} {progs : Nat → Prog Key Value Unit}

/-! ## Values that can be sent -/

/-- The messages in the channels have been sent. -/
def Filled (s : State) : Prop := ∀ e, ∀ m ∈ s.inbox e, m.Sendable

theorem Move.filled (h : Move n s a s' ev) (hs : Filled s) : Filled s' := by
  intro e m hm
  cases h with
  | sendPut _ _ hsend | sendRead _ _ _ _ hsend =>
    rcases mem_inbox_of_send hm with hm | ⟨-, rfl⟩
    · exact hs e m hm
    · exact hsend
  | reply _ hv =>
    rcases mem_inbox_of_send hm with hm | ⟨-, rfl⟩
    · exact hs e m hm
    · exact hv
  | recvReply _ hin | servePut _ hin | serveRead _ hin | serveDeleted _ hin =>
    exact hs e m (mem_inbox_of_pop hin hm)
  | _ => exact hs e m hm

theorem filled_of_run {ok : Action → State → Prop} (h : Trace.Run (step n) ok (init n progs) l s) :
    Filled s :=
  h.invariant_of (Q := fun _ s => WF n s) wf_of_run (fun _ s => Filled s) (fun _ _ hm => nomatch hm)
    fun wf hs _ hstep => (step_move wf hstep).filled hs

/-- The home of `k` has a value of it that can be sent. -/
def State.Holds (s : State) (k : Key) : Prop := ∃ v, s.lookup k.node k = some v ∧ v ≠ []

/-- It keeps one, unless its own application puts an empty value. -/
theorem Move.holds (h : Move n s a s' ev) (hfilled : Filled s) (hk : s.Holds k)
    (hphase : s.phase k.node ≠ .entry) : s'.Holds k := by
  obtain ⟨v, hv, hne⟩ := hk
  rw [State.Holds, h.lookup]
  cases h with
  | @putLocal i k' v' next _ hph hk' =>
    have hk : k ≠ k' := by
      rintro rfl
      exact hphase (hk' ▸ hph)
    exact ⟨v, (update_of_ne hk _ _).trans hv, hne⟩
  | @servePut e k' v' rest _ hin =>
    by_cases hk : k = k'
    · subst hk
      have hsend : (Message.put k v').Sendable := hfilled e _ (hin ▸ List.mem_cons_self)
      exact ⟨v', update_self .., hsend.2⟩
    · exact ⟨v, (update_of_ne hk _ _).trans hv, hne⟩
  | _ => exact ⟨v, hv, hne⟩

/-- A put of a key of another node is sent. -/
theorem ne_nil_of_issue {ok : Action → State → Prop} (h : Trace.Run (step n) ok (init n progs) l s)
    (hA : A ≠ k.node) {v : Value} (hv : .issue A k v ∈ l) : v ≠ [] := by
  refine h.invariant_of (Q := fun _ s => WF n s) wf_of_run
    (fun l _ => .issue A k v ∈ l → v ≠ []) (fun hm => nomatch hm) ?_ hv
  intro l s a s' ev wf ih _ hstep hm
  rcases List.mem_append.1 hm with hm | hm
  · exact ih hm
  · cases step_move wf hstep with
    | putLocal _ _ hk =>
      simp only [List.mem_cons, Event.issue.injEq, reduceCtorEq, List.not_mem_nil, or_false] at hm
      obtain ⟨rfl, rfl, -⟩ := hm
      exact absurd hk.symm hA
    | sendPut _ _ hsend =>
      obtain ⟨-, -, rfl⟩ := Event.issue.inj (List.mem_singleton.1 hm)
      exact hsend.2
    | _ => simp at hm

theorem issue_mem_of_issuedBy {v : Value} (h : v ∈ issuedBy A k l) : .issue A k v ∈ l := by
  obtain ⟨e, he, heq⟩ := List.mem_filterMap.1 h
  cases e with
  | issue i k' v' =>
    dsimp only at heq
    obtain ⟨⟨rfl, rfl⟩, hv⟩ := Option.ite_none_right_eq_some.1 heq
    exact Option.some.inj hv ▸ he
  | _ => cases heq

/-- The last value that `A` has put at a key of another node can be sent. -/
theorem getLast_issuedBy_ne_nil {ok : Action → State → Prop}
    (h : Trace.Run (step n) ok (init n progs) l s) (hA : A ≠ k.node) {v : Value}
    (hv : (issuedBy A k l).getLast? = some v) : v ≠ [] :=
  ne_nil_of_issue h hA (issue_mem_of_issuedBy (List.mem_of_getLast? hv))

/-! ## The requests that come before the reply -/

/-- The requests of the home of `k` that cross a read of `k` by `A`, on the same
    connection, are for keys that have a value at `A` which can be sent. -/
def Answerable (A : Nat) (k : Key) (a : Action) (s : State) : Prop :=
  ∀ i op c, a = .app i → currentOp (s.prog i) = some op → op.isRead = true →
    s.phase i = .holding c →
    (i = A → op.key = k → s.handler c ≠ .replying [] ∧
      ∀ op' : Op, op'.isRead = true → op'.message ∈ s.inbox c → s.Holds op'.key) ∧
    ∀ op', s.phase A = .awaiting c.peer → currentOp (s.prog A) = some op' → op'.key = k →
      (s.inbox c.peer).countP Message.isReply = 0 → s.replies c.peer = [] → s.Holds op.key

/-- The handler of the end `e` gets to the reply: what it serves before can be answered. -/
structure Clear (s : State) (e : EndId) : Prop where
  replying : s.handler e ≠ .replying []
  queued : ∀ op : Op, op.isRead = true → s.Queued e op → s.Holds op.key

/-- The application of `A` waits for the reply to a read of `k` on the end `e`. -/
structure State.Reads (s : State) (A : Nat) (k : Key) (e : EndId) (op : Op) : Prop where
  phase : s.phase A = .awaiting e
  current : currentOp (s.prog A) = some op
  key : op.key = k

/-- Where `A` waits for a read of `k`, the reply is not held up. -/
def Answered (A : Nat) (k : Key) (s : State) : Prop :=
  ∀ e op, s.Reads A k e op → s.replies e = [] → Clear s e

/-- A node that waits, with nothing in `replies`, did so before the move, or has just sent its
    request. -/
theorem Move.waits (wf : WF n s) (h : Move n s a s' ev) (hw : s'.phase A = .awaiting e)
    (hrep : s'.replies e = []) :
    s'.prog A = s.prog A ∧ (s.phase A = .awaiting e ∧ s.replies e = [] ∨
      a = .app A ∧ s.phase A = .holding e ∧ ∃ op, currentOp (s.prog A) = some op ∧
      op.isRead = true) := by
  have before {i : Nat} {ph : Phase} (hph : ph ≠ .awaiting e)
      (hw : update s.phase i ph A = .awaiting e) : A ≠ i ∧ s.phase A = .awaiting e := by
    by_cases hi : A = i
    · subst hi
      rw [update_self] at hw
      exact absurd hw hph
    · exact ⟨hi, by rwa [update_of_ne hi] at hw⟩
  cases h with
  | putLocal | readLocal | deletedLocal | sendPut =>
    obtain ⟨hi, hw⟩ := before (by simp) hw
    exact ⟨update_of_ne hi _ _, .inl ⟨hw, hrep⟩⟩
  | connected | «open» | store | hold | findLocal =>
    exact ⟨rfl, .inl ⟨(before (by simp) hw).2, hrep⟩⟩
  | @sendRead i op c hop hph hr =>
    by_cases hi : A = i
    · subst hi
      obtain rfl : c = e := by simpa using hw
      exact ⟨rfl, .inr ⟨rfl, hph, op, hop, hr⟩⟩
    · exact ⟨rfl, .inl ⟨(update_of_ne hi _ _).symm.trans hw, hrep⟩⟩
  | @returned i op c v hop hph hr hrep' =>
    obtain ⟨hi, hw'⟩ := before (by simp) hw
    have hc : e ≠ c := by
      rintro rfl
      exact hi ((wf.owner_of_awaiting hw').symm.trans (wf.owner_of_awaiting hph))
    exact ⟨update_of_ne hi _ _, .inl ⟨hw', (update_of_ne hc _ _).symm.trans hrep⟩⟩
  | @recvReply c v rest hh hin =>
    have hc : e ≠ c := by
      rintro rfl
      simp at hrep
    exact ⟨rfl, .inl ⟨hw, (update_of_ne hc _ _).symm.trans hrep⟩⟩
  | _ => exact ⟨rfl, .inl ⟨hw, hrep⟩⟩

/-- The keys of `A`, as the home of `k` reads them. -/
def asked (A : Nat) (k : Key) : Set (Nat × Key) := {p | p.1 = k.node ∧ p.2.node = A}

/-- The handler of the end `e` has found the `Value` of the last put. -/
def Fresh (s : State) (e : EndId) : Prop :=
  ∀ (op : Op) rest t, s.handler e = .serving (.found t) → s.inbox e = op.message :: rest →
    s.version (s.owner e) op.key.k = t

theorem Current.fresh {op : Op} (h : Current (asked A k) s) (wf : WF n s)
    (hreads : s.Reads A k e op) : Fresh s e := by
  intro op' rest t hh hin
  obtain ⟨op₁, hop₁, hend, -⟩ := wf.phase_awaiting hreads.phase
  obtain rfl : op₁ = op := Option.some.inj (hop₁.symm.trans hreads.current)
  have hnode := (wf.inbox e op' (hin ▸ List.mem_cons_self)).trans hend.owner
  exact h.handler e op' rest t ⟨hend.peer.trans (congrArg Key.node hreads.key), hnode⟩ hh hin

theorem Move.answered (wf : WF n s) (hfilled : Filled s)
    (hc : ∀ e op, s.Reads A k e op → Fresh s e) (hok : Answerable A k a s) (hs : Answered A k s)
    (h : Move n s a s' ev) : Answered A k s' := by
  intro e op hreads hrep
  have hwf' := h.wf wf
  have howner : s'.owner e = A := hwf'.owner_of_awaiting hreads.phase
  obtain ⟨hprog, hwait⟩ := h.waits wf hreads.phase hrep
  have hop : currentOp (s.prog A) = some op := hprog ▸ hreads.current
  -- the application of `A` puts nothing while it waits, or sends its request
  have hphase : s.phase A ≠ .entry := by
    rcases hwait with ⟨hph, -⟩ | ⟨-, hph, -⟩ <;> simp [hph]
  have hkept {op' : Op} (hnode : op'.key.node = A) (hk : s.Holds op'.key) : s'.Holds op'.key :=
    h.holds hfilled hk (hnode ▸ hphase)
  constructor
  · intro hreply
    rcases h.replying hreply with hreply | ⟨hph, op', rest, hin, hr, hval⟩
    · rcases hwait with ⟨hph, hrep⟩ | ⟨rfl, hph, op', hop', hr⟩
      · exact (hs e op ⟨hph, hop, hreads.key⟩ hrep).replying hreply
      · obtain rfl : op' = op := Option.some.inj (hop'.symm.trans hop)
        exact ((hok A op' e rfl hop hr hph).1 rfl hreads.key).1 hreply
    · -- the request is at the head of the channel, and has been answered with an empty value
      have hw : s.phase A = .awaiting e := hph ▸ hreads.phase
      have hnode := wf.inbox e op' (hin ▸ List.mem_cons_self)
      have hrep : s.replies e = [] := by
        rcases hwait with ⟨-, hrep⟩ | ⟨-, hph', -⟩
        · exact hrep
        · cases hw.symm.trans hph'
      rcases hval with hl | ⟨t, hh, hversion⟩
      · obtain ⟨v, hv, hne⟩ := (hs e op ⟨hw, hop, hreads.key⟩ hrep).queued op' hr
          ⟨hrep, [], rest, hin, rfl⟩
        rw [hnode, hl] at hv
        exact hne (Option.some.inj hv).symm
      · exact hversion (hc e op ⟨hw, hop, hreads.key⟩ op' rest t hh hin)
  · intro op' hr hqueued
    rcases h.queued wf hr hreads.phase hqueued with ⟨hw, hq, -⟩ |
      ⟨rfl, hph, hm, op₁, hop₁, hr₁, -⟩ |
      ⟨i, -, rfl, hop₁, hph, hw, -, hreply, hrep'⟩
    · obtain ⟨l₁, l₂, hin, -⟩ := hq.2
      have hnode := (wf.inbox e op' (by simp [hin])).trans (wf.owner_of_awaiting hw)
      exact hkept hnode ((hs e op ⟨hw, hop, hreads.key⟩ hq.1).queued op' hr hq)
    · obtain rfl : op₁ = op := Option.some.inj (hop₁.symm.trans hop)
      have hnode := (wf.inbox e op' hm).trans (wf.holding hop (.inl hph)).1.owner
      exact hkept hnode (((hok A op₁ e rfl hop hr₁ hph).1 rfl hreads.key).2 op' hr hm)
    · have hend := (wf.holding hop₁ (.inl hph)).1
      have hnode : op'.key.node = A := by
        rw [← hend.peer, EndId.peer_peer]
        exact wf.owner_of_awaiting hw
      refine hkept hnode ((hok i op' e.peer rfl hop₁ hr hph).2 op ?_ hop hreads.key ?_ ?_) <;>
        rwa [EndId.peer_peer]

theorem answered_of_run (h : Trace.Run (step n) (fun a s => Answerable A k a s ∧
    Intact (asked A k) a s)
    (init n progs) l s) : Answered A k s :=
  h.invariant_of (Q := fun _ s => WF n s ∧ Filled s ∧ Current (asked A k) s)
    (fun h => ⟨wf_of_run h, filled_of_run h, current_of_run (h.mono fun _ _ => And.right)⟩)
    (fun _ s => Answered A k s) (fun _ _ h => nomatch h.phase)
    fun ⟨wf, hfilled, hc⟩ hs hok hstep =>
      (step_move wf hstep).answered wf hfilled (fun _ _ => hc.fresh wf) hok.1 hs

/-! ## What is left to be done -/

/-- The moves that a message takes: a request is received, looked up and cloned, and its reply is
    sent and received. -/
def Message.moves : Message → Nat
  | put _ _ => 2
  | get _ | waitAndGet _ => 5
  | reply _ => 1

/-- The moves that are left of the message that a handler serves, with two for the next. -/
def Handler.moves : Handler → Nat
  | idle => 2
  | serving .entry => 1
  | serving _ => 0
  | replying _ => 4

/-- The moves left for the handler of the end `e`. -/
def State.work (s : State) (e : EndId) : Nat :=
  ((s.inbox e).map Message.moves).sum + (s.handler e).moves

/-- The moves left for the accept loop of the node `i`. -/
def State.toAccept (s : State) (i : Nat) : Nat :=
  2 * (s.backlog i).length + (if (s.accepting i).isSome then 1 else 0)

/-- The moves left for the handlers of the connection of the end `e`, and for the accept loop of
    the node `i`. -/
def State.toDo (s : State) (e : EndId) (i : Nat) : Nat := s.work e + s.work e.peer + s.toAccept i

theorem toDo_peer (s : State) (e : EndId) (i : Nat) : s.toDo e.peer i = s.toDo e i := by
  rw [State.toDo, State.toDo, EndId.peer_peer, Nat.add_comm (s.work e.peer)]

/-- The handler of the end `e` has something to do, and nothing keeps it from doing it. -/
structure State.Free (s : State) (e : EndId) : Prop where
  live : s.live e = true
  running : s.crashed (s.owner e) = false
  busy : s.inbox e ≠ [] ∨ ∃ v, s.handler e = .replying v
  replying : s.handler e ≠ .replying []
  head : ∀ (op : Op) rest, s.inbox e = op.message :: rest → op.isRead = true →
    ∃ v, s.lookup (s.owner e) op.key = some v
  current : ∀ (op : Op) rest t, s.handler e = .serving (.found t) → s.inbox e = op.message :: rest →
    s.version (s.owner e) op.key.k = t

/-- A move which the processes survive, and which leaves less to be done. -/
structure Advances (s : State) (e : EndId) (i : Nat) (s' : State) : Prop where
  crashed : s'.crashed = s.crashed
  toDo_lt : s'.toDo e i < s.toDo e i

theorem Advances.of_peer {i : Nat} (h : Advances s e.peer i s') : Advances s e i s' :=
  ⟨h.crashed, by rw [← toDo_peer s' e, ← toDo_peer s e]; exact h.toDo_lt⟩

theorem Op.moves_of_isRead {op : Op} (h : op.isRead = true) : op.message.moves = 5 := by
  cases op <;> first | rfl | cases h

section

variable {op : Op} {v : Value} {rest : List Message}

theorem handlerStep_recvReply (hh : s.handler e = .idle) (hin : s.inbox e = .reply v :: rest) :
    handlerStep n e s = some ((s.setInbox e rest).setReplies e (s.replies e ++ [v]), []) := by
  rw [handlerStep, hh]
  simp only [hin]

theorem handlerStep_recv (hh : s.handler e = .idle) (hin : s.inbox e = op.message :: rest) :
    handlerStep n e s = some (s.setHandler e (.serving .entry), []) := by
  rw [handlerStep, hh]
  cases op <;> simp only [hin, Op.message]

theorem handlerStep_reply (hh : s.handler e = .replying v) (hv : v ≠ []) :
    handlerStep n e s = some ((s.send e (.reply v)).setHandler e .idle, []) := by
  have hsend : (Message.reply v).Sendable := hv
  rw [handlerStep, hh]
  simp only [if_pos hsend]

theorem handlerStep_serving {ph : Phase} (hh : s.handler e = .serving ph)
    (hin : s.inbox e = op.message :: rest) : handlerStep n e s =
      (kvStep n (s.owner e.peer) (s.owner e) op s ph).map (handlerAfter e s) := by
  rw [handlerStep, hh]
  simp only [hin, List.head?_cons, Op.message_op?, Option.bind_eq_bind, Option.bind_some]
  cases kvStep n (s.owner e.peer) (s.owner e) op s ph <;> rfl

theorem localOp_found {who i : Nat} (hr : op.isRead = true) (hl : s.lookup i op.key = some v) :
    localOp who i op s = some (s, .go (.found (s.version i op.key.k)), []) := by
  cases op with
  | put => cases hr
  | get k | waitAndGet k =>
    have hl : s.lookup i k = some v := hl
    rw [localOp, hl]
    rfl

end

/-- Such a handler moves. -/
theorem State.Free.exists_advances (h : s.Free e) (wf : WF n s) (i : Nat) :
    ∃ s' ev, step n (.handler e) s = some (s', ev) ∧ Advances s e i s' := by
  have hstep : step n (.handler e) s = handlerStep n e s := if_pos ⟨h.live, h.running⟩
  cases hh : s.handler e with
  | idle =>
    obtain ⟨m, rest, hin⟩ : ∃ m rest, s.inbox e = m :: rest :=
      List.exists_cons_of_ne_nil (h.busy.resolve_right fun ⟨v, hv⟩ => by cases hh.symm.trans hv)
    cases hm : m.op? with
    | none =>
      obtain ⟨v, rfl⟩ : ∃ v, m = .reply v := by
        cases m with
        | reply v => exact ⟨v, rfl⟩
        | _ => cases hm
      refine ⟨_, _, hstep.trans (handlerStep_recvReply hh hin), rfl, ?_⟩
      simp [State.toDo, State.work, State.toAccept, hin, Message.moves]
    | some op =>
      obtain rfl : m = op.message := by
        cases m <;> cases hm <;> rfl
      refine ⟨_, _, hstep.trans (handlerStep_recv hh hin), rfl, ?_⟩
      simp [State.toDo, State.work, State.toAccept, Handler.moves, hh]
  | replying v =>
    have hv : v ≠ [] := fun hv => h.replying (hv ▸ hh)
    refine ⟨_, _, hstep.trans (handlerStep_reply hh hv), rfl, ?_⟩
    simp [State.toDo, State.work, State.toAccept, Handler.moves, Message.moves, hh]
    omega
  | serving ph =>
    obtain ⟨op, rest, hin, hph⟩ := wf.serving e ph hh
    have hnode : op.key.node = s.owner e := wf.inbox e op (hin ▸ List.mem_cons_self)
    have hstep := hstep.trans (handlerStep_serving hh hin)
    rcases hph with rfl | ⟨⟨t, rfl⟩, hfound⟩
    · rw [kvStep, if_pos hnode] at hstep
      by_cases hr : op.isRead = true
      · obtain ⟨v, hv⟩ := h.head op rest hin hr
        rw [localOp_found hr hv] at hstep
        refine ⟨_, _, hstep, rfl, ?_⟩
        simp [State.toDo, State.work, State.toAccept, Handler.moves, hh]
      · obtain ⟨k, v, rfl⟩ : ∃ k v, op = .put k v := by
          cases op with
          | put k v => exact ⟨k, v, rfl⟩
          | _ => exact absurd rfl hr
        refine ⟨_, _, hstep, rfl, ?_⟩
        have hin : s.inbox e = .put k v :: rest := hin
        simp [State.toDo, State.work, State.toAccept, Handler.moves, Message.moves, hh, hin]
        omega
    · obtain ⟨v, hv⟩ := Option.isSome_iff_exists.1 hfound.lookup
      rw [kvStep, cloneOp, if_pos (h.current op rest t hh hin), hv] at hstep
      refine ⟨_, _, hstep, rfl, ?_⟩
      simp [State.toDo, State.work, State.toAccept, Handler.moves,
        Op.moves_of_isRead hfound.isRead, hh, hin]
      omega

/-- So does an accept loop with connections to accept. -/
theorem exists_accept {i : Nat} (hi : i < n) (hrunning : s.crashed i = false)
    (hback : s.backlog i ≠ []) :
    ∃ s' ev, step n (.accept i) s = some (s', ev) ∧ Advances s e i s' := by
  have hstep : step n (.accept i) s = acceptStep i s := if_pos ⟨hi, hrunning⟩
  cases hacc : s.accepting i with
  | some p =>
    rw [acceptStep, hacc] at hstep
    refine ⟨_, _, hstep, rfl, ?_⟩
    simp [State.toDo, State.work, State.toAccept, hacc]
  | none =>
    obtain ⟨p, rest, hin⟩ := List.exists_cons_of_ne_nil hback
    rw [acceptStep, hacc] at hstep
    simp only [hin] at hstep
    refine ⟨_, _, hstep, rfl, ?_⟩
    simp [State.toDo, State.work, State.toAccept, hacc, hin]
    omega

/-! ## The threads of the connection -/

/-- The threads that the reply to `A` on the end `c` depends on, but for its application. -/
inductive Serves (s : State) (c : EndId) : Action → Prop
  | handler : Serves s c (.handler c)
  | peer : Serves s c (.handler c.peer)
  | accept : Serves s c (.accept (s.owner c.peer))

/-- They leave the applications where they are. -/
theorem Move.apps (h : Move n s a s' ev) (ha : Serves s c a) :
    s'.phase = s.phase ∧ s'.prog = s.prog ∧ ∀ i k v, .issue i k v ∉ ev := by
  cases ha <;> cases h <;> exact ⟨rfl, rfl, by simp⟩

/-- What the handler has found is not deleted by them: it makes no puts itself meanwhile, and
    those of its peer are to the store of another node. -/
theorem Move.fresh_of_serves (wf : WF n s) (h : Move n s a s' ev) (ha : Serves s c a)
    (hs : Fresh s c) (hc : c.conn < s.nextConn) : Fresh s' c := by
  intro op rest t hh hin
  cases ha with
  | handler =>
    cases h with
    | crash | missing => exact hs op rest t hh hin
    | @find _ op' rest' hh' hin' =>
      have ht : Phase.found (s.version (s.owner c) op'.key.k) = .found t := by simpa using hh
      obtain rfl := Op.message_inj (List.cons.inj (hin'.symm.trans hin)).1
      exact Phase.found.inj ht
    | recv | servePut | serveRead | reply => simp at hh
    | recvReply hidle =>
      have hh : s.handler c = .serving (.found t) := hh
      cases hidle.symm.trans hh
  | peer =>
    have hne : c ≠ c.peer := c.ne_peer
    cases h with
    | crash | missing => exact hs op rest t hh hin
    | recvReply | find | recv | serveRead =>
      simp only [State.setReplies_handler, State.setInbox_handler, State.setHandler_handler,
        State.setReplies_inbox, State.setInbox_inbox, State.setHandler_inbox, ne_eq, hne,
        not_false_eq_true, update_of_ne] at hh hin
      exact hs op rest t hh hin
    | @servePut _ k v rest' =>
      simp only [State.setHandler_handler, State.setInbox_handler, State.putItem_handler,
        State.setHandler_inbox, State.setInbox_inbox, State.putItem_inbox, ne_eq, hne,
        not_false_eq_true, update_of_ne] at hh hin
      exact (version_putItem s _ k v fun h => wf.distinct c hc h.1).trans (hs op rest t hh hin)
    | @reply _ v =>
      simp only [State.setHandler_handler, State.send_handler, ne_eq, hne, not_false_eq_true,
        update_of_ne] at hh
      obtain ⟨op', rest', hin', -⟩ := wf.serving c _ hh
      simp only [State.setHandler_inbox, State.send_inbox, EndId.peer_peer, update_self, hin',
        List.cons_append] at hin
      obtain rfl := Op.message_inj (List.cons.inj hin).1
      exact hs op' rest' t hh hin'
  | accept =>
    cases h with
    | crash | accept | acceptStore => exact hs op rest t hh hin

section

variable (hA : A ≠ k.node) (h : Trace.Run (step n) (Undisturbed A k) (init n progs) l s)
  (only : OnlyWriter A k l) {op : Op} (hreads : s.Reads A k c op)
include hA h only hreads

/-- What comes to `A` is its last put. -/
theorem getLast_of_coming {v : Value} (hv : s.Coming c v) : (issuedBy A k l).getLast? = some v := by
  have hserve : Always (ServesLast A k) (l ++ []) := fun l₁ e l₂ heq => by
    rw [List.append_nil] at heq
    exact servesLast_of_run hA h l₁ e l₂ heq (heq ▸ only).of_append
  refine getLast_of_answered hserve ?_ hreads.key
    (answered_of_coming h hreads.phase hreads.current hv)
  exact not_deleted_of_run (intact_of_run hA h only) (by rw [hreads.key]; rfl) v

/-- The handler of the peer is free, as long as it has the request or its reply. -/
theorem free_peer (hlast : issuedBy A k l ≠ []) (hlive : s.live c.peer = true)
    (hrunning : s.crashed (s.owner c.peer) = false)
    (hbusy : s.inbox c.peer ≠ [] ∨ ∃ v, s.handler c.peer = .replying v) : s.Free c.peer where
  live := hlive
  running := hrunning
  busy := hbusy
  replying hh := by
    have hv := getLast_of_coming hA h only hreads (.inl hh)
    exact getLast_issuedBy_ne_nil h hA hv rfl
  head op' rest hin hr := by
    have hsync := sync_of_run h
    have hown : s.owner c = A := (wf_of_run h).owner_of_awaiting hreads.phase
    have hop := hsync.request c op' hr (hin ▸ List.mem_cons_self)
    rw [hown] at hop
    obtain rfl : op' = op := Option.some.inj (hop.symm.trans hreads.current)
    -- the puts of `A` are ahead of its request, which is at the head
    obtain ⟨m, hm, hR⟩ := refines_of_run h
    have hd := (session_of_run hA h).drained_of_head hsync (by rw [EndId.peer_peer, hown])
      (by rw [hreads.key]) hr hin
    have hnode := (wf_of_run h).inbox c.peer op' (hin ▸ List.mem_cons_self)
    have hl := hd.lookup hm hR only
    rw [← hreads.key, hnode] at hl
    rw [hl]
    exact Option.ne_none_iff_exists'.1 (mt List.getLast?_eq_none_iff.1 (hreads.key ▸ hlast))
  current op' rest t hh hin := by
    have hown : s.owner c = A := (wf_of_run h).owner_of_awaiting hreads.phase
    have hr : op'.isRead = true := by
      obtain ⟨op₁, rest₁, hin₁, hph⟩ := (wf_of_run h).serving c.peer _ hh
      rw [Op.message_inj (List.cons.inj (hin.symm.trans hin₁)).1]
      exact (hph.resolve_left Phase.noConfusion).2.isRead
    have hop := (sync_of_run h).request c op' hr (hin ▸ List.mem_cons_self)
    rw [hown] at hop
    obtain rfl : op' = op := Option.some.inj (hop.symm.trans hreads.current)
    refine (current_of_run (intact_of_run hA h only)).handler c.peer op' rest t ?_ hh hin
    rw [EndId.peer_peer, hown, hreads.key]
    rfl

/-- Until a reply is delivered, a thread of the connection moves, or the accept loop of the
    home of `k` does. -/
theorem exists_serves (hlast : issuedBy A k l ≠ []) (hanswered : Answered A k s)
    (hfresh : Fresh s c) (hrunning : s.crashed A = false) (hrunning' : s.crashed k.node = false)
    (hrep : s.replies c = []) :
    ∃ a s' ev, Serves s c a ∧ step n a s = some (s', ev) ∧ Advances s c k.node s' := by
  have wf := wf_of_run h
  have hown : s.owner c = A := wf.owner_of_awaiting hreads.phase
  obtain ⟨hend, hlive, -⟩ : s.PhaseOk A op (.awaiting c) := by
    obtain ⟨op', hop', hok⟩ := wf.phase A (by simp [hreads.phase])
    obtain rfl : op' = op := Option.some.inj (hop'.symm.trans hreads.current)
    rwa [hreads.phase] at hok
  have hpeer : s.owner c.peer = k.node := hend.peer.trans (congrArg Key.node hreads.key)
  have hone := (sync_of_run h).count c
  rw [hown, hreads.phase, if_pos rfl, State.outstanding, hrep, List.length_nil] at hone
  by_cases hreply : (s.inbox c).countP Message.isReply = 0
  · -- the peer has the request, or its reply
    have hbusy : s.inbox c.peer ≠ [] ∨ ∃ v, s.handler c.peer = .replying v := by
      by_contra! hnone
      have hvalues : (s.handler c.peer).values = [] := by
        cases hh : s.handler c.peer with
        | replying v => exact absurd hh (hnone.2 v)
        | idle | serving ph => rfl
      simp [hnone.1, hvalues, hreply] at hone
    by_cases hlive' : s.live c.peer = true
    · have hfree := free_peer hA h only hreads hlast hlive' (hpeer ▸ hrunning') hbusy
      obtain ⟨s', ev, hstep, hadv⟩ := hfree.exists_advances wf k.node
      exact ⟨_, s', ev, .peer, hstep, hadv.of_peer⟩
    · obtain ⟨p, hp⟩ := (accepted_of_run h c.peer hend.conn).resolve_left hlive'
      rw [hpeer] at hp
      obtain ⟨s', ev, hstep, hadv⟩ := exists_accept (e := c)
        (hpeer ▸ wf.bound c.peer hend.conn) hrunning' (List.ne_nil_of_mem hp)
      exact ⟨_, s', ev, hpeer ▸ .accept, hstep, hadv⟩
  · -- the reply is in the channel
    have hclear := hanswered c op hreads hrep
    have hfree : s.Free c :=
      { live := hlive
        running := hown ▸ hrunning
        busy := .inl fun hnil => hreply (by rw [hnil]; rfl)
        replying := hclear.replying
        head := fun op' rest hin hr => by
          obtain ⟨v, hv, -⟩ := hclear.queued op' hr ⟨hrep, [], rest, hin, rfl⟩
          exact ⟨v, by rwa [← wf.inbox c op' (hin ▸ List.mem_cons_self)]⟩
        current := hfresh }
    obtain ⟨s', ev, hstep, hadv⟩ := hfree.exists_advances wf k.node
    exact ⟨_, s', ev, .handler, hstep, hadv⟩

end

/-- The reply has been delivered: the application goes on. -/
theorem step_returned {i : Nat} {op : Op} {v : Value} (hi : i < n) (hrunning : s.crashed i = false)
    (hop : currentOp (s.prog i) = some op) (hph : s.phase i = .awaiting c)
    (hrep : s.replies c = [v]) :
    step n (.app i) s = some ((s.setReplies c []).finish i (resume (s.prog i) (some v)),
      [.return i op v]) := by
  rw [step, if_pos ⟨hi, hrunning⟩, appStep_eq hop, hph, kvStep, processReply, hrep, Option.map_some,
    Option.map_some, appAfter, hph]
  rfl

/-- The threads that the read of `k` by `A` on the end `c` depends on. -/
def Concerned (A : Nat) (k : Key) (c : EndId) (a : Action) : Prop :=
  a = .app A ∨ a = .handler c ∨ a = .handler c.peer ∨ a = .accept k.node

theorem Serves.concerned (h : Serves s c a) (hpeer : s.owner c.peer = k.node) :
    Concerned A k c a := by
  cases h with
  | handler => exact .inr (.inl rfl)
  | peer => exact .inr (.inr (.inl rfl))
  | accept => exact .inr (.inr (.inr (congrArg Action.accept hpeer)))

theorem issuedBy_eq_nil_of_not_mem (h : ∀ v, .issue A k v ∉ l) : issuedBy A k l = [] := by
  by_contra hne
  obtain ⟨v, rest, heq⟩ := List.exists_cons_of_ne_nil hne
  exact h v (issue_mem_of_issuedBy (heq ▸ List.mem_cons_self))

/-- A read of `k` by `A` returns. -/
theorem exists_return (hA : A ≠ k.node)
    (h : Trace.Run (step n) (Undisturbed A k) (init n progs) l s)
    (only : OnlyWriter A k l) {op : Op} (hreads : s.Reads A k c op) (hlast : issuedBy A k l ≠ [])
    (hanswered : Answered A k s) (hfresh : Fresh s c) (hrunning : s.crashed A = false)
    (hrunning' : s.crashed k.node = false) :
    ∃ l' s' v, Trace.Run (step n) (fun a _ => Concerned A k c a) s (l' ++ [.return A op v]) s' ∧
      (issuedBy A k l).getLast? = some v := by
  induction hw : s.toDo c k.node using Nat.strong_induction_on generalizing l s with
  | _ w ih =>
    have wf := wf_of_run h
    obtain ⟨op', hop', hend, -⟩ := wf.phase_awaiting hreads.phase
    obtain rfl : op' = op := Option.some.inj (hop'.symm.trans hreads.current)
    have hpeer : s.owner c.peer = k.node := hend.peer.trans (congrArg Key.node hreads.key)
    rcases hrep : s.replies c with _ | ⟨v, rest⟩
    · -- one more move of the handlers or of the accept loop
      obtain ⟨a, s', ev, ha, hstep, hadv⟩ := exists_serves hA h only hreads hlast hanswered hfresh
        hrunning hrunning' hrep
      have hmove := step_move wf hstep
      obtain ⟨hphase, hprog, hissue⟩ := hmove.apps ha
      have hok : Undisturbed A k a s := by
        rintro rfl
        cases ha
        exact absurd hpeer hA
      have hnext : Trace.Run (step n) (Undisturbed A k) (init n progs) (l ++ ev) s' :=
        .move h hok hstep
      have hissued : issuedBy A k (l ++ ev) = issuedBy A k l := by
        rw [issuedBy_append, issuedBy_eq_nil_of_not_mem fun v => hissue A k v, List.append_nil]
      have hanswered' : Answered A k s' := by
        refine hmove.answered wf (filled_of_run h) (fun e op he => ?_) ?_ hanswered
        · obtain rfl : c = e := Phase.awaiting.inj (hreads.phase.symm.trans he.phase)
          exact hfresh
        · rintro i op c rfl
          cases ha
      have honly : OnlyWriter A k (l ++ ev) := fun i v hm =>
        only i v ((List.mem_append.1 hm).resolve_right (hissue i k v))
      obtain ⟨l', t, v, hrun, hv⟩ := ih _ (hw ▸ hadv.toDo_lt) hnext honly
        ⟨hphase ▸ hreads.phase, hprog ▸ hreads.current, hreads.key⟩ (hissued ▸ hlast) hanswered'
        (hmove.fresh_of_serves wf ha hfresh hend.conn) (hadv.crashed ▸ hrunning)
        (hadv.crashed ▸ hrunning') rfl
      refine ⟨ev ++ l', t, v, ?_, hissued ▸ hv⟩
      have hfirst : Trace.Run (step n) (fun a _ => Concerned A k c a) s ([] ++ ev) s' :=
        .move .refl (ha.concerned hpeer) hstep
      rw [List.append_assoc]
      exact hfirst.trans hrun
    · -- the reply is there, and the application takes it
      have hone := (sync_of_run h).outstanding_le c
      rw [State.outstanding, hrep, List.length_cons] at hone
      obtain rfl : rest = [] := List.eq_nil_of_length_eq_zero (by omega)
      have hcoming : s.Coming c v := .inr (.inr (hrep ▸ List.mem_cons_self))
      refine ⟨[], _, v, .move .refl (.inl rfl)
        (step_returned ?_ hrunning hreads.current hreads.phase
        hrep), getLast_of_coming hA h only hreads hcoming⟩
      exact hend.owner ▸ wf.bound c hend.conn

/-- An application in a read of a key of another node is not blocked before it waits for the
    reply. -/
theorem isSome_step_of_not_awaiting (wf : WF n s) (hA : A ≠ k.node) (hn : A < n) {op : Op}
    (hrunning : s.crashed A = false) (hop : currentOp (s.prog A) = some op) (hk : op.key = k)
    (hph : ∀ c, s.phase A ≠ .awaiting c) : (step n (.app A) s).isSome := by
  have hnode : op.key.node ≠ A := hk ▸ hA.symm
  rw [step, if_pos ⟨hn, hrunning⟩, appStep_eq hop, Option.isSome_map]
  cases hph' : s.phase A with
  | entry =>
    rw [kvStep, if_neg hnode]
    rfl
  | found t => exact absurd (wf.found hop hph').node hnode
  | connected =>
    rw [kvStep]
    split <;> rfl
  | opened c | holding c => rfl
  | awaiting c => exact absurd hph' (hph c)

/-- The accept loop of `A` replaces no connection that is in use for `k`. -/
def isUndisturbed (A : Nat) (k : Key) : Action → State → Bool
  | .accept i, s => i ≠ A ||
    match s.connections A k.node with
    | some c₀ => s.puts k c₀ = [] && s.phase A ≠ .holding c₀
    | none => true
  | _, _ => true

theorem undisturbed_of_isUndisturbed (h : isUndisturbed A k a s = true) : Undisturbed A k a s := by
  rintro rfl c c₀ - hc
  simp only [isUndisturbed, hc, ne_eq, not_true_eq_false, decide_false, Bool.false_or,
    Bool.and_eq_true, decide_eq_true_eq] at h
  exact .inr ⟨h.1, fun _ _ _ => h.2⟩

/-- Requests are sent where none comes the other way. -/
def isOneWay (A : Nat) : Action → State → Bool
  | .app i, s =>
    match s.phase i with
    | .holding c => s.inbox c = [] && s.handler c = .idle && s.phase A ≠ .awaiting c.peer
    | _ => true
  | _, _ => true

theorem answerable_of_isOneWay (h : isOneWay A a s = true) : Answerable A k a s := by
  rintro i op c rfl - - hph
  simp only [isOneWay, hph, Bool.and_eq_true, decide_eq_true_eq] at h
  refine ⟨fun _ _ => ⟨by simp [h.1.2], fun op' _ hm => ?_⟩, fun op' hw => absurd hw h.2⟩
  rw [h.1.1] at hm
  cases hm

end Eau2.Network

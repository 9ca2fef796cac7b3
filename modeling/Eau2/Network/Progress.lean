import Eau2.Lib.Duty
import Eau2.Network.Withheld

/-!
# Progress

A state in which no thread can move, while an application has not finished
(`Deadlock`), is made of applications blocked in `waitAndGet` and of replies that are
withheld: nothing else blocks a thread (`appStep_eq_none`, `handlerStep_eq_none`).

Without requests that cross (`NoCrossing`) there are no replies withheld for a key that
only its home puts. So where the keys asked for from another node are such keys, every
unfinished application of a deadlock waits for a key that has not been put
(`Deadlock.waits`). If every key waited for is owed by some application, which waits for
keys of a lower rank only before it puts it (`Prog.Owes`), there is no first of them, and
so no deadlock (`not_deadlock_of_run`).
-/

namespace Eau2.Network

open Function Trace

variable {n : Nat} {s s' : State} {a : Action} {ev l : List Event} {e : EndId} {k : Key}
  {progs : Nat → Prog Key Value Unit}

/-! ## The connections -/

/-- An end of a connection is started, or is still to be accepted by its node. -/
def Accepted (s : State) : Prop :=
  ∀ e, e.conn < s.nextConn → s.live e = true ∨ ∃ p, (e, p) ∈ s.backlog (s.owner e)

theorem Move.accepted (h : Move n s a s' ev) (ha : Accepted s) : Accepted s' := by
  intro e he
  cases h with
  | @«open» i op hop hph hne hc hlt hi =>
    -- an end there was before, the end of the caller, which is started, or that of the peer,
    -- which is put on its backlog
    rcases openConn_conn (i := i) (j := op.key.node) he with he | rfl | rfl
    · have hne₁ : e ≠ s.nextEnd := by
        rintro rfl
        exact lt_irrefl _ he
      refine (ha e he).imp (fun hlive => ?_) fun ⟨p, hp⟩ => ⟨p, ?_⟩
      · exact (update_of_ne hne₁ _ _).trans hlive
      · have howner := owner_openConn s i op.key.node he
        simp only [State.setPhase_owner, State.setPhase_backlog, howner, State.openConn_backlog]
        by_cases hj : s.owner e = op.key.node
        · rw [hj, update_self]
          exact List.mem_append_left _ (hj ▸ hp)
        · rwa [update_of_ne hj]
    · exact .inl (by simp)
    · exact .inr ⟨i, by simp⟩
  | @accept i c p rest hacc hback =>
    by_cases hec : e = c
    · exact .inl (by simp [hec])
    · refine (ha e he).imp (fun hlive => ?_) fun ⟨q, hq⟩ => ⟨q, ?_⟩
      · exact (update_of_ne hec _ _).trans hlive
      · simp only [State.setAccepting_owner, State.startConn_owner, State.setAccepting_backlog,
          State.startConn_backlog]
        by_cases hi : s.owner e = i
        · rw [hi, hback] at hq
          rw [hi, update_self]
          exact (List.mem_cons.1 hq).resolve_left fun heq => hec (Prod.mk.inj heq).1
        · rwa [update_of_ne hi]
  | _ => exact ha e he

theorem accepted_of_run {ok : Action → State → Prop}
    (h : Trace.Run (step n) ok (init n progs) l s) : Accepted s :=
  h.invariant_of (Q := fun _ s => WF n s) wf_of_run (fun _ s => Accepted s)
    (fun _ he => .inl (decide_eq_true he)) fun wf ha _ hs => (step_move wf hs).accepted ha

/-! ## The order of the messages -/

/-- No put comes behind a request in a channel: who sends a request waits for the reply
    before sending anything else. -/
def PutsFirst (s : State) : Prop :=
  ∀ e, (s.inbox e).Pairwise fun m m' => m.isRead = true → ∀ k v, m' ≠ .put k v

theorem Move.putsFirst (wf : WF n s) (hsync : Sync s) (h : Move n s a s' ev) (hs : PutsFirst s) :
    PutsFirst s' := by
  have pop {c : EndId} {m : Message} {rest : List Message} (hin : s.inbox c = m :: rest)
      (e : EndId) :
      (update s.inbox c rest e).Pairwise fun m m' => m.isRead = true → ∀ k v, m' ≠ .put k v := by
    by_cases he : e = c
    · subst he
      rw [update_self]
      exact (hin ▸ hs e).of_cons
    · rw [update_of_ne he]
      exact hs e
  have push {c : EndId} {m : Message} (hm : ∀ m₀ ∈ s.inbox c.peer, m₀.isRead = true →
      ∀ k v, m ≠ .put k v) (e : EndId) :
      ((s.send c m).inbox e).Pairwise fun m m' => m.isRead = true → ∀ k v, m' ≠ .put k v := by
    by_cases he : e = c.peer
    · subst he
      rw [State.send_inbox, update_self, List.pairwise_append]
      refine ⟨hs _, List.pairwise_singleton _ _, fun m₀ hm₀ m' hm' => ?_⟩
      rw [List.mem_singleton.1 hm']
      exact hm m₀ hm₀
    · rw [State.send_inbox, update_of_ne he]
      exact hs e
  cases h with
  | @sendPut i k v next c hp hph =>
    have hop : currentOp (s.prog i) = some (.put k v) := by rw [hp]; rfl
    have hi : s.owner c = i := (wf.holding hop (.inl hph)).1.owner
    -- the node that sends a put is not waiting, so that no request of it is in the channel
    have hnone := (hsync.of_not_awaiting (e := c) (by simp [hi, hph])).1
    refine push fun m₀ hm₀ hr => ?_
    exact absurd hr (Bool.not_eq_true _ ▸ List.countP_eq_zero.1 hnone m₀ hm₀)
  | sendRead _ _ hr => exact push fun _ _ _ => Op.message_ne_put hr
  | reply => exact push fun _ _ _ k v => by simp
  | recvReply _ hin | servePut _ hin | serveRead _ hin | serveDeleted _ hin => exact pop hin
  | _ => exact hs

theorem putsFirst_of_run {ok : Action → State → Prop}
    (h : Trace.Run (step n) ok (init n progs) l s) : PutsFirst s :=
  h.invariant_of (Q := fun _ s => WF n s ∧ Sync s) (fun h => ⟨wf_of_run h, sync_of_run h⟩)
    (fun _ s => PutsFirst s) (fun _ => .nil) fun ⟨wf, hsync⟩ hfirst _ hs =>
      (step_move wf hs).putsFirst wf hsync hfirst

/-! ## Threads that cannot move -/

/-- Inside a call a thread is blocked by an absent key, or it waits for a reply, or the `Value`
    that it is to clone has been deleted. -/
theorem kvStep_eq_none {who i : Nat} {op : Op} {ph : Phase} (h : kvStep n who i op s ph = none) :
    (∃ k, op = .waitAndGet k ∧ ¬s.Present k) ∨ (∃ c, ph = .awaiting c ∧ s.replies c = []) ∨
      ∃ t, ph = .found t ∧ (s.lookup i op.key = none ∨ s.version i op.key.k ≠ t) := by
  cases ph with
  | entry =>
    rw [kvStep] at h
    split_ifs at h with hi
    obtain rfl : op.key.node = i := hi
    cases op with
    | put k v => cases h
    | get k =>
      cases hl : s.lookup k.node k <;> simp [localOp, Op.key, hl] at h
    | waitAndGet k =>
      cases hl : s.lookup k.node k with
      | none => exact .inl ⟨k, rfl, by simp [State.Present, hl]⟩
      | some v => simp [localOp, Op.key, hl] at h
  | found t =>
    rw [kvStep, cloneOp] at h
    split_ifs at h with ht
    · exact .inr (.inr ⟨t, rfl, .inl (Option.map_eq_none_iff.1 h)⟩)
    · exact .inr (.inr ⟨t, rfl, .inr ht⟩)
  | opened c => cases h
  | connected =>
    cases hc : s.connections i op.key.node <;> simp [kvStep, hc] at h
  | holding c => cases h
  | awaiting c =>
    rw [kvStep, Option.map_eq_none_iff] at h
    -- one reply is taken, and a second one fails the assertion
    rcases hrep : s.replies c with _ | ⟨v, _ | ⟨v', rest⟩⟩
    · exact .inr (.inl ⟨c, rfl, hrep⟩)
    · simp [processReply, hrep] at h
    · simp [processReply, hrep] at h

/-- An application that cannot move has finished, or is blocked in its call. -/
theorem appStep_eq_none {i : Nat} (h : appStep n i s = none) :
    s.prog i = .ret () ∨ ∃ op, currentOp (s.prog i) = some op ∧
      kvStep n i i op s (s.phase i) = none := by
  rw [appStep] at h
  split at h
  · next hret => exact .inl hret
  · cases h
  · next hret hfail =>
    cases hop : currentOp (s.prog i) with
    | none => cases hp : s.prog i <;> simp_all [currentOp]
    | some op =>
      rw [hop, Option.bind_eq_bind, Option.bind_some, Option.bind_eq_bind] at h
      refine .inr ⟨op, rfl, ?_⟩
      by_contra hne
      obtain ⟨⟨t, o, ev⟩, hk⟩ := Option.ne_none_iff_exists'.1 hne
      rw [hk, Option.bind_some] at h
      cases o <;> cases h

/-- A deleted `Value` is read, whatever it gives. -/
theorem deletedOp_ne_none {who i t : Nat} {op : Op} (h : s.version i op.key.k ≠ t) :
    deletedOp who i op none s (.found t) ≠ none := by
  simp [deletedOp, h]

/-- A handler that cannot move has nothing to read, or serves a `waitAndGet` of an absent key,
    or the `Value` that it is to clone has been deleted. -/
theorem handlerStep_eq_none (wf : WF n s) (h : handlerStep n e s = none) :
    (s.handler e).values = [] ∧ (s.inbox e = [] ∨ (s.handler e = .serving .entry ∧
      ∃ k rest, s.inbox e = .waitAndGet k :: rest ∧ ¬s.Present k) ∨
      ∃ op rest t, s.handler e = .serving (.found t) ∧ s.inbox e = Op.message op :: rest ∧
        s.version (s.owner e) op.key.k ≠ t) := by
  cases hh : s.handler e with
  | idle =>
    rw [handlerStep, hh] at h
    refine ⟨rfl, .inl ?_⟩
    by_contra hne
    obtain ⟨m, rest, hin⟩ := List.exists_cons_of_ne_nil hne
    rw [hin] at h
    cases m <;> cases h
  | serving ph =>
    obtain ⟨op, rest, hin, hph⟩ := wf.serving e ph hh
    refine ⟨rfl, .inr ?_⟩
    -- the call of the store is all that can block the handler
    have hk : kvStep n (s.owner e.peer) (s.owner e) op s ph = none := by
      rw [handlerStep, hh] at h
      simpa only [hin, List.head?_cons, Op.message_op?, Option.bind_eq_bind, Option.bind_some,
        Option.bind_eq_none_iff, Option.pure_def, reduceCtorEq, imp_false,
        ← Option.eq_none_iff_forall_ne_some] using h
    rcases hph with rfl | ⟨⟨t, rfl⟩, hfound⟩
    · rcases kvStep_eq_none hk with ⟨k, rfl, hl⟩ | ⟨c, hph, -⟩ | ⟨t, hph, -⟩
      · exact .inl ⟨rfl, k, rest, hin, hl⟩
      · cases hph
      · cases hph
    · rcases kvStep_eq_none hk with ⟨k, rfl, hl⟩ | ⟨c, hph, -⟩ | ⟨t', hph, hl⟩
      · rw [State.Present, show k.node = s.owner e from hfound.node] at hl
        exact absurd hfound.lookup hl
      · cases hph
      · obtain rfl := Phase.found.inj hph
        refine .inr ⟨op, rest, t, rfl, hin, hl.resolve_left fun hnone => ?_⟩
        have hsome := hfound.lookup
        rw [hnone] at hsome
        cases hsome
  | replying v =>
    simp only [handlerStep, hh] at h
    split_ifs at h

/-! ## Deadlocks -/

/-- No thread can move, though no process has ended and the application of a node has not
    finished. -/
structure Deadlock (n : Nat) (s : State) : Prop where
  stuck : ∀ a, step n a s = none
  running : ∀ i, s.crashed i = false
  unfinished : ∃ i < n, s.prog i ≠ .ret ()

/-- An application has finished, or it waits for an absent key, or for a reply. -/
theorem Deadlock.app (h : Deadlock n s) (wf : WF n s) {i : Nat} (hi : i < n) :
    s.prog i = .ret () ∨ ∃ op, currentOp (s.prog i) = some op ∧
      ((∃ k, op = .waitAndGet k ∧ ¬s.Present k) ∨
        ∃ c, s.phase i = .awaiting c ∧ s.replies c = []) := by
  have hstuck := h.stuck (.app i)
  rw [step, if_pos ⟨hi, h.running i⟩] at hstuck
  rcases appStep_eq_none hstuck with hret | ⟨op, hop, hk⟩
  · exact .inl hret
  refine .inr ⟨op, hop, ?_⟩
  rcases kvStep_eq_none hk with habsent | hwait | ⟨t, hph, ht⟩
  · exact .inl habsent
  · exact .inr hwait
  · -- a `Value` found is cloned, deleted or not
    have hdeleted := h.stuck (.appDeleted i none)
    rw [step, if_pos ⟨hi, h.running i⟩, appDeletedStep, hop, Option.bind_eq_bind,
      Option.bind_some, Option.bind_eq_bind, Option.bind_eq_none_iff] at hdeleted
    have hversion : s.version i op.key.k ≠ t := ht.resolve_left fun hnone => by
      have hsome := (wf.found hop hph).lookup
      rw [hnone] at hsome
      cases hsome
    obtain ⟨r, hr⟩ := Option.ne_none_iff_exists'.1
      (deletedOp_ne_none hversion)
    rw [hph] at hdeleted
    cases hdeleted r hr

/-- All connections have been accepted. -/
theorem Deadlock.live (h : Deadlock n s) (wf : WF n s) (ha : Accepted s)
    (he : e.conn < s.nextConn) :
    s.live e = true := by
  refine (ha e he).resolve_right fun ⟨p, hp⟩ => ?_
  have haccept : acceptStep (s.owner e) s = none :=
    (if_pos ⟨wf.bound e he, h.running _⟩).symm.trans (h.stuck (.accept (s.owner e)))
  obtain ⟨c, rest, hback⟩ := List.exists_cons_of_ne_nil (List.ne_nil_of_mem hp)
  rw [acceptStep] at haccept
  split at haccept
  · cases haccept
  · rw [hback] at haccept
    cases haccept

theorem Deadlock.handler (h : Deadlock n s) (wf : WF n s) (ha : Accepted s)
    (he : e.conn < s.nextConn) : (s.handler e).values = [] ∧
      (s.inbox e = [] ∨ s.handler e = .serving .entry ∧
        ∃ k rest, s.inbox e = .waitAndGet k :: rest ∧ ¬s.Present k) := by
  have hlive := h.live wf ha he
  have hstuck := h.stuck (.handler e)
  rw [step, if_pos ⟨hlive, h.running _⟩] at hstuck
  obtain ⟨hvalues, hcase⟩ := handlerStep_eq_none wf hstuck
  refine ⟨hvalues, (or_assoc.2 hcase).resolve_right ?_⟩
  -- a `Value` found is cloned, deleted or not
  rintro ⟨op, rest, t, hh, hin, hversion⟩
  have hdeleted := h.stuck (.handlerDeleted e none)
  rw [step, if_pos ⟨hlive, h.running _⟩, handlerDeletedStep, hh] at hdeleted
  simp only [hin, List.head?_cons, Op.message_op?, Option.bind_eq_bind, Option.bind_some,
    Option.bind_eq_none_iff] at hdeleted
  obtain ⟨r, hr⟩ := Option.ne_none_iff_exists'.1
    (deletedOp_ne_none hversion)
  cases hdeleted r hr

/-- In a deadlock no put is in a channel: what is in a channel is behind a request for
    `waitAndGet`. -/
theorem Deadlock.no_put (h : Deadlock n s) (wf : WF n s) (ha : Accepted s) (hfirst : PutsFirst s)
    (c : EndId) (v : Value) : .put k v ∉ s.inbox c := by
  intro hm
  have hne := List.ne_nil_of_mem hm
  obtain ⟨-, hnil | ⟨-, k', rest, hin, -⟩⟩ := h.handler wf ha (wf.conn_of_inbox hne)
  · exact hne hnil
  · have hpair := hfirst c
    rw [hin, List.pairwise_cons] at hpair
    rw [hin, List.mem_cons] at hm
    exact hpair.1 _ (hm.resolve_left (by simp)) rfl k v rfl

/-- The application of a node waits for a key that has not been put. -/
def State.Waits (s : State) (i : Nat) : Prop :=
  ∃ k, currentOp (s.prog i) = some (.waitAndGet k) ∧ ¬s.Issued k

/-- The keys that are waited for on another node are put by their home only. -/
def PutAtHome (progs : Nat → Prog Key Value Unit) : Prop :=
  ∀ i k, (progs i).MayWait k → k.node ≠ i → ∀ j, j ≠ k.node → ¬(progs j).MayPut k

theorem mayWait_resume {p : Prog Key Value Unit} {r : Option Value} (h : (resume p r).MayWait k) :
    p.MayWait k := by
  cases p with
  | put k' v next => cases r <;> exact h
  | get k' next =>
    cases r with
    | none => exact h
    | some v => exact ⟨v, h⟩
  | waitAndGet k' next =>
    cases r with
    | none => exact h
    | some v => exact .inr ⟨v, h⟩
  | _ => cases r <;> exact h

/-- What an application may still wait for it could wait for before. -/
theorem Move.mayWait (h : Move n s a s' ev) {i : Nat} (hp : (s'.prog i).MayWait k) :
    (s.prog i).MayWait k := by
  rcases h.prog i with heq | ⟨k', v, hput, -⟩ | ⟨op, v, -, -, heq⟩
  · exact heq ▸ hp
  · exact hput ▸ hp
  · exact mayWait_resume (heq ▸ hp)

theorem mayWait_of_run {ok : Action → State → Prop} {i : Nat}
    (h : Trace.Run (step n) ok (init n progs) l s) (hp : (s.prog i).MayWait k) :
    (progs i).MayWait k := by
  refine h.invariant_of (Q := fun _ s => WF n s) wf_of_run
    (fun _ s => (s.prog i).MayWait k → (progs i).MayWait k) id ?_ hp
  exact fun wf hk _ hs hp => hk ((step_move wf hs).mayWait hp)

theorem mayWait_of_currentOp {p : Prog Key Value Unit} (h : currentOp p = some (.waitAndGet k)) :
    p.MayWait k := by
  cases p with
  | waitAndGet k' next =>
    cases h
    exact .inl rfl
  | _ => cases h

/-- Where no requests have crossed, the reply an application waits for is not behind a request
    for a key that has not been put. -/
theorem issued_of_blocks {i : Nat} (h : Trace.Run (step n) NoCrossing (init n progs) l s)
    (hhome : PutAtHome progs) (hph : s.phase i = .awaiting e) (hblocks : s.Blocks e k) :
    s.Issued k := by
  have wf := wf_of_run h
  rcases (or_assoc ..).2 (unblocked_of_run h i e k hph hblocks) with hk | ⟨j, hj, hput⟩
  · exact hk
  · -- another node would put the key, which the peer waits for
    obtain ⟨-, l₁, l₂, hin, -⟩ := hblocks
    have hm : Op.message (.waitAndGet k) ∈ s.inbox e.peer.peer := by simp [hin, Op.message]
    have hpeer := (sync_of_run h).request e.peer (.waitAndGet k) rfl hm
    have hwait : (progs (s.owner e.peer)).MayWait k := mayWait_of_run h (mayWait_of_currentOp hpeer)
    rw [EndId.peer_peer] at hm
    have hnode : k.node = i := (wf.inbox e (.waitAndGet k) hm).trans (wf.owner_of_awaiting hph)
    have hne : k.node ≠ s.owner e.peer := by
      rw [hnode, ← wf.owner_of_awaiting hph]
      exact wf.distinct e (wf.conn_of_inbox (List.ne_nil_of_mem hm))
    have hnot := hhome _ k hwait hne j (hnode ▸ hj)
    exact absurd hput.mayPut (notMayPut_of_run h hnot)

/-- In a deadlock that no crossing requests have led to, every unfinished application waits for
    a key that has not been put. -/
theorem Deadlock.waits (h : Deadlock n s) (hrun : Trace.Run (step n) NoCrossing (init n progs) l s)
    (hhome : PutAtHome progs) {i : Nat} (hi : i < n) (hne : s.prog i ≠ .ret ()) : s.Waits i := by
  have wf := wf_of_run hrun
  have hsync := sync_of_run hrun
  have handler {e : EndId} (he : e.conn < s.nextConn) := h.handler wf (accepted_of_run hrun) he
  have issued {k : Key} (hk : ¬s.Present k) : ¬s.Issued k := not_or.2 ⟨hk, fun ⟨c, v, hm⟩ =>
    h.no_put wf (accepted_of_run hrun) (putsFirst_of_run hrun) c v hm⟩
  obtain ⟨op, hop, ⟨k, rfl, hk⟩ | ⟨c, hph, hrep⟩⟩ := (h.app wf hi).resolve_left hne
  · exact ⟨k, hop, issued hk⟩
  · obtain ⟨_, -, hend, -⟩ := wf.phase_awaiting hph
    obtain ⟨hvalues, hpeer⟩ := handler (e := c.peer) hend.conn
    rcases hpeer with hnil | ⟨-, k, rest, hin, hk⟩
    · -- the reply is in the channel, and not delivered
      have hcount := hsync.count c
      rw [hend.owner, if_pos hph, State.outstanding, hrep, hvalues, hnil] at hcount
      obtain ⟨-, hnil' | ⟨-, k, rest, hin, hk⟩⟩ := handler hend.conn
      · rw [hnil'] at hcount
        cases hcount
      · exact absurd (issued_of_blocks hrun hhome hph ⟨hrep, [], rest, hin, rfl⟩) (issued hk)
    · -- the request is for a key that is not there
      have hm : Op.message (.waitAndGet k) ∈ s.inbox c.peer := by simp [hin, Op.message]
      exact ⟨k, hend.owner ▸ hsync.request c (.waitAndGet k) rfl hm, issued hk⟩

/-! ## Programs without deadlock -/

section Owes

variable {rank : Key → Nat}

theorem owes_resume {p : Prog Key Value Unit} {op : Op} {v : Value} (hop : currentOp p = some op)
    (hr : op.isRead = true) (h : p.Owes rank k) : (resume p (some v)).Owes rank k := by
  cases p with
  | put => cases hop; cases hr
  | get k' next => exact h v
  | waitAndGet k' next => exact h.2 v
  | _ => cases hop

/-- What an application owes it owes until it has put it. -/
theorem Move.owes (h : Move n s a s' ev) {i : Nat} (hk : s.Issued k ∨ (s.prog i).Owes rank k) :
    s'.Issued k ∨ (s'.prog i).Owes rank k := by
  rcases hk with hk | hk
  · exact .inl (h.issued hk)
  · rcases h.prog i with heq | ⟨k', v, hput, hk'⟩ | ⟨op, v, hop, hr, heq⟩
    · exact .inr (heq ▸ hk)
    · rw [hput] at hk
      rcases hk with rfl | hk
      · exact .inl hk'
      · exact .inr hk
    · exact .inr (heq ▸ owes_resume hop hr hk)

theorem owes_of_run {ok : Action → State → Prop} {i : Nat}
    (h : Trace.Run (step n) ok (init n progs) l s) (hk : (progs i).Owes rank k) :
    s.Issued k ∨ (s.prog i).Owes rank k :=
  h.invariant_of (Q := fun _ s => WF n s) wf_of_run (fun _ s => s.Issued k ∨ (s.prog i).Owes rank k)
    (.inr hk) fun wf hk _ hs => (step_move wf hs).owes hk

/-- Programs without deadlock: every key waited for is owed by some program, and those waited
    for on another node are put by their home only. -/
theorem not_deadlock_of_run (hrun : Trace.Run (step n) NoCrossing (init n progs) l s)
    (howed : ∀ i < n, ∀ k, (progs i).MayWait k → ∃ j < n, (progs j).Owes rank k)
    (hhome : PutAtHome progs) : ¬Deadlock n s := by
  intro h
  -- by induction on the rank, every key waited for has been put
  have put (r : Nat) : ∀ i < n, ∀ k, (progs i).MayWait k → rank k = r → s.Issued k := by
    induction r using Nat.strong_induction_on with
    | h r ih =>
      intro i hi k hwait hrank
      obtain ⟨j, hj, howes⟩ := howed i hi k hwait
      refine (owes_of_run hrun howes).resolve_right fun howes => ?_
      have hne : s.prog j ≠ .ret () := fun hret => by rw [hret] at howes; exact howes
      obtain ⟨k', hop, hk'⟩ := h.waits hrun hhome hj hne
      have hlt : rank k' < rank k := by
        cases hp : s.prog j with
        | waitAndGet k'' next =>
          rw [hp] at hop howes
          cases hop
          exact howes.1
        | _ => rw [hp] at hop; cases hop
      exact hk' (ih (rank k') (hrank ▸ hlt) j hj k'
        (mayWait_of_run hrun (mayWait_of_currentOp hop)) rfl)
  obtain ⟨i, hi, hne⟩ := h.unfinished
  obtain ⟨k, hop, hk⟩ := h.waits hrun hhome hi hne
  exact hk (put (rank k) i hi k (mayWait_of_run hrun (mayWait_of_currentOp hop)) rfl)

end Owes

end Eau2.Network

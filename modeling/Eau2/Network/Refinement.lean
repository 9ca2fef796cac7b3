import Eau2.Network.MapSpec
import Eau2.Network.Sync
import Mathlib.Algebra.BigOperators.Group.Finset.Basic

/-!
# The nodes refine one map

The stores of the nodes, the puts in the channels, and the reads under way make
a state of the specification `MapSpec` (`Refines`), and every move does to it
what its events say (`Move.refines`): a forward simulation. So every history of
a run is one that the specification allows.
-/

namespace Eau2.Network

open Function Trace

variable {n : Nat} {s s' : State} {a : Action} {ev : List Event}

/-! ## Puts in flight -/

/-- The ends of the first `N` connections. -/
def ends (N : Nat) : Finset EndId :=
  (Finset.range N ×ˢ Finset.univ).image fun p => ⟨p.1, p.2⟩

@[simp] theorem mem_ends {N : Nat} {e : EndId} : e ∈ ends N ↔ e.conn < N := by
  obtain ⟨c, b⟩ := e
  simp [ends]

/-- The puts of `v` at `k` by the node `i` in the channel towards the end `e`. -/
def State.putsAt (s : State) (i : Nat) (k : Key) (v : Value) (e : EndId) : Nat :=
  if s.owner e.peer = i then (s.inbox e).count (.put k v) else 0

/-- The puts of `v` at `k` by the node `i` that are in some channel. -/
def State.inFlight (s : State) (i : Nat) (k : Key) (v : Value) : Nat :=
  ∑ e ∈ ends s.nextConn, s.putsAt i k v e

@[simp] theorem inFlight_finish (s : State) (i : Nat) (p : Prog Key Value Unit) :
    (s.finish i p).inFlight = s.inFlight := rfl
@[simp] theorem inFlight_setPhase (s : State) (i : Nat) (ph : Phase) :
    (s.setPhase i ph).inFlight = s.inFlight := rfl
@[simp] theorem inFlight_setHandler (s : State) (e : EndId) (h : Handler) :
    (s.setHandler e h).inFlight = s.inFlight := rfl
@[simp] theorem inFlight_setReplies (s : State) (e : EndId) (l : List Value) :
    (s.setReplies e l).inFlight = s.inFlight := rfl
@[simp] theorem inFlight_putItem (s : State) (i : Nat) (k : Key) (v : Value) :
    (s.putItem i k v).inFlight = s.inFlight := rfl

theorem inFlight_congr {t : State} {i : Nat} {k : Key} {v : Value} (hn : t.nextConn = s.nextConn)
    (h : ∀ e, t.putsAt i k v e = s.putsAt i k v e) : t.inFlight i k v = s.inFlight i k v := by
  rw [State.inFlight, State.inFlight, hn]
  exact Finset.sum_congr rfl fun e _ => h e

/-- A change in one channel. -/
theorem inFlight_update {i : Nat} {k : Key} {v : Value} {c : EndId} {d : Nat}
    (hn : s'.nextConn = s.nextConn)
    (hc : c.conn < s.nextConn) (hd : s'.putsAt i k v c = s.putsAt i k v c + d)
    (h : ∀ e, e ≠ c → s'.putsAt i k v e = s.putsAt i k v e) :
    s'.inFlight i k v = s.inFlight i k v + d := by
  have hsum : ∑ e ∈ (ends s.nextConn).erase c, s'.putsAt i k v e =
      ∑ e ∈ (ends s.nextConn).erase c, s.putsAt i k v e :=
    Finset.sum_congr rfl fun e he => h e (Finset.ne_of_mem_erase he)
  have hmem : c ∈ ends s.nextConn := mem_ends.2 hc
  rw [State.inFlight, State.inFlight, hn, ← Finset.add_sum_erase _ _ hmem,
    ← Finset.add_sum_erase _ (s.putsAt i k v) hmem, hd, hsum, Nat.add_right_comm]

theorem putsAt_send (s : State) (c : EndId) (m : Message) (i : Nat) (k : Key) (v : Value)
    (e : EndId) :
    (s.send c m).putsAt i k v e =
      s.putsAt i k v e + if e = c.peer ∧ s.owner c = i ∧ m = .put k v then 1 else 0 := by
  by_cases he : e = c.peer
  · subst he
    by_cases hi : s.owner c = i <;> by_cases hm : m = .put k v <;>
      simp [State.putsAt, hi, hm]
  · simp [State.putsAt, he]

theorem inFlight_openConn (wf : WF n s) (i' j : Nat) (i : Nat) (k : Key) (v : Value) :
    (s.openConn i' j).inFlight i k v = s.inFlight i k v := by
  have hsub : ends s.nextConn ⊆ ends (s.nextConn + 1) := fun e he =>
    mem_ends.2 ((mem_ends.1 he).trans_le (Nat.le_succ _))
  rw [State.inFlight, State.inFlight, State.openConn_nextConn, ← Finset.sum_subset hsub]
  · refine Finset.sum_congr rfl fun e he => ?_
    have hc : e.peer.conn < s.nextConn := by simpa using he
    rw [State.putsAt, State.putsAt, owner_openConn s i' j hc, State.openConn_inbox]
  · intro e _ he
    have hin : s.inbox e = [] := (wf.fresh e (not_lt.1 fun h => he (mem_ends.2 h))).1
    simp [State.putsAt, hin]

/-- A put in a channel is one of the node at the other end. -/
theorem inFlight_pos (wf : WF n s) {e : EndId} {k : Key} {v : Value} (hm : .put k v ∈ s.inbox e) :
    0 < s.inFlight (s.owner e.peer) k v := by
  have hmem : e ∈ ends s.nextConn := mem_ends.2 (wf.conn_of_inbox (List.ne_nil_of_mem hm))
  have hpos : 0 < s.putsAt (s.owner e.peer) k v e := by
    rw [State.putsAt, if_pos rfl]
    exact List.count_pos_iff.2 hm
  rw [State.inFlight, ← Finset.add_sum_erase _ _ hmem]
  exact Nat.add_pos_left hpos _

/-- The puts in the channels, before and after a move: those called enter, those
    applied leave. -/
theorem Move.inFlight (wf : WF n s) (h : Move n s a s' ev) (i : Nat) (k : Key) (v : Value) :
    s'.inFlight i k v + ev.count (.apply i k.node k v) =
      s.inFlight i k v + ev.count (.issue i k v) := by
  -- a message other than a put leaves a channel, or enters one
  have pop {c : EndId} {m : Message} {rest : List Message} (hin : s.inbox c = m :: rest)
      (hm : m ≠ .put k v) : (s.setInbox c rest).inFlight i k v = s.inFlight i k v := by
    refine inFlight_congr (t := s.setInbox c rest) rfl fun e => ?_
    by_cases he : e = c
    · subst he
      simp [State.putsAt, hin, hm]
    · simp [State.putsAt, he]
  have push {c : EndId} {m : Message} (hm : m ≠ .put k v) :
      (s.send c m).inFlight i k v = s.inFlight i k v :=
    inFlight_congr (t := s.send c m) rfl fun e => by simp [putsAt_send, hm]
  cases h with
  | @putLocal i' k' v' next _ _ hk =>
    have : (Event.issue i' k' v' = .issue i k v) ↔
        (Event.apply i' i' k' v' = .apply i k.node k v) := by
      simp only [Event.issue.injEq, Event.apply.injEq]
      constructor
      · rintro ⟨rfl, rfl, rfl⟩
        exact ⟨rfl, hk.symm, rfl, rfl⟩
      · rintro ⟨rfl, -, rfl, rfl⟩
        exact ⟨rfl, rfl, rfl⟩
    simp only [List.count_cons, List.count_nil, beq_iff_eq, this, reduceCtorEq, if_false]
    rfl
  | «open» => exact inFlight_openConn wf _ _ i k v
  | @sendPut i' k' v' next c hp hph =>
    have hend := (wf.holding (show _ = some (Op.put k' v') by rw [hp]; rfl) (.inl hph)).1
    by_cases hc : i' = i ∧ k' = k ∧ v' = v
    · obtain ⟨rfl, rfl, rfl⟩ := hc
      have : (s.send c (.put k' v')).inFlight i' k' v' = s.inFlight i' k' v' + 1 :=
        inFlight_update (c := c.peer) rfl hend.conn (by simp [putsAt_send, hend.owner])
          fun e he => by simp [putsAt_send, he]
      simpa using this
    · have : (s.send c (.put k' v')).inFlight i k v = s.inFlight i k v := by
        refine inFlight_congr (t := s.send c (.put k' v')) rfl fun e => ?_
        rw [putsAt_send, if_neg, Nat.add_zero]
        rintro ⟨-, hi, hm⟩
        cases hm
        exact hc ⟨hend.owner.symm.trans hi, rfl, rfl⟩
      simpa [hc] using this
  | @sendRead i' op c _ _ hr => exact push (Op.message_ne_put hr k v)
  | recvReply _ hin => exact pop hin (by simp)
  | @servePut c k' v' rest hh hin hk =>
    have hlt : c.conn < s.nextConn := wf.conn_of_inbox (by simp [hin])
    by_cases hc : s.owner c.peer = i ∧ k' = k ∧ v' = v
    · obtain ⟨rfl, rfl, rfl⟩ := hc
      have : s.inFlight (s.owner c.peer) k' v' =
          (s.setInbox c rest).inFlight (s.owner c.peer) k' v' + 1 :=
        inFlight_update (c := c) rfl hlt (by simp [State.putsAt, hin])
          fun e he => by simp [State.putsAt, he]
      simp only [hk, List.count_cons_self, List.count_nil, List.count_cons, beq_iff_eq,
        reduceCtorEq, if_false, this]
      rfl
    · have : (s.setInbox c rest).inFlight i k v = s.inFlight i k v := by
        by_cases hm : (Message.put k' v') = .put k v
        · refine inFlight_congr (t := s.setInbox c rest) rfl fun e => ?_
          have hi : s.owner c.peer ≠ i := fun hi => hc ⟨hi, by simpa using hm⟩
          by_cases he : e = c
          · subst he
            simp [State.putsAt, hi]
          · simp [State.putsAt, he]
        · exact pop hin hm
      have hne : Event.apply (s.owner c.peer) (s.owner c) k' v' ≠ .apply i k.node k v := fun h => by
        simp only [Event.apply.injEq] at h
        exact hc ⟨h.1, h.2.2⟩
      simp only [List.count_cons, beq_iff_eq, hne, if_false, List.count_nil, reduceCtorEq]
      exact this
  | @serveRead c op v' rest hh hin hr =>
    simpa using pop hin (Op.message_ne_put hr k v)
  | @serveDeleted c op t v' rest hh hin ht hf =>
    simpa using pop hin (Op.message_ne_put hf.isRead k v)
  | reply => exact push (by simp)
  | _ => simp <;> rfl

/-! ## Reads under way -/

/-- The value `v` is on its way to the node of the end `e`. -/
def State.Coming (s : State) (e : EndId) (v : Value) : Prop :=
  s.handler e.peer = .replying v ∨ .reply v ∈ s.inbox e ∨ v ∈ s.replies e

/-- Where the node `i` stands in a read. -/
def State.ReadingOk (s : State) (i : Nat) : Reading → Prop
  | .idle => ∀ e, s.phase i ≠ .awaiting e
  | .requested op => ∃ e, s.phase i = .awaiting e ∧ op.isRead = true ∧ op.message ∈ s.inbox e.peer
  | .served op v => ∃ e, s.phase i = .awaiting e ∧ currentOp (s.prog i) = some op ∧ s.Coming e v

/-- Nothing comes before the request is served. -/
theorem Sync.not_coming (h : Sync s) {e : EndId} {op : Op} {v : Value} (hr : op.isRead = true)
    (hm : op.message ∈ s.inbox e.peer) : ¬s.Coming e v := by
  intro hv
  have hreq : 0 < (s.inbox e.peer).countP Message.isRead :=
    List.countP_pos_iff.2 ⟨_, hm, by rw [Op.message_isRead, hr]⟩
  have hcount : s.outstanding e ≤ 1 := by
    rw [h.count]
    split_ifs <;> omega
  rw [State.outstanding] at hcount
  rcases hv with hv | hv | hv
  · rw [hv, Handler.values, List.length_singleton] at hcount
    omega
  · have : 0 < (s.inbox e).countP Message.isReply := List.countP_pos_iff.2 ⟨_, hv, rfl⟩
    omega
  · have := List.length_pos_of_mem hv
    omega

/-- Only the reply that has come comes. -/
theorem Sync.eq_of_coming (h : Sync s) {e : EndId} {v v' : Value} (hv : s.replies e = [v])
    (hv' : s.Coming e v') : v' = v := by
  have hcount : s.outstanding e ≤ 1 := by
    rw [h.count]
    split_ifs <;> omega
  rw [State.outstanding, hv, List.length_singleton] at hcount
  rcases hv' with hv' | hv' | hv'
  · rw [hv', Handler.values, List.length_singleton] at hcount
    omega
  · have : 0 < (s.inbox e).countP Message.isReply := List.countP_pos_iff.2 ⟨_, hv', rfl⟩
    omega
  · simpa [hv] using hv'

/-- A move that leaves the thread of the node `i` where it is, and what it waits
    for on its way. -/
theorem State.ReadingOk.frame {i : Nat} {r : Reading} (h : s.ReadingOk i r)
    (hphase : s'.phase i = s.phase i)
    (hprog : s'.prog i = s.prog i)
    (hreq : ∀ e (op : Op), s.phase i = .awaiting e → op.isRead = true →
      op.message ∈ s.inbox e.peer →
      op.message ∈ s'.inbox e.peer)
    (hcom : ∀ e v, s.phase i = .awaiting e → s.Coming e v → s'.Coming e v) : s'.ReadingOk i r := by
  cases r with
  | idle => simpa [State.ReadingOk, hphase] using h
  | requested op =>
    obtain ⟨e, he, hr, hm⟩ := h
    exact ⟨e, hphase.trans he, hr, hreq e op he hr hm⟩
  | served op v =>
    obtain ⟨e, he, hop, hc⟩ := h
    exact ⟨e, hphase.trans he, by rw [hprog, hop], hcom e v he hc⟩

/-- The state of the nodes makes the state `m` of one map. -/
structure Refines (m : MapSpec) (s : State) : Prop where
  map : ∀ k, m.map k = s.lookup k.node k
  pending : ∀ i k v, m.pending i k v = s.inFlight i k v
  reading : ∀ i, s.ReadingOk i (m.reading i)

theorem Refines.idle {m : MapSpec} (h : Refines m s) {i : Nat} (hi : ∀ e, s.phase i ≠ .awaiting e) :
    m.reading i = .idle := by
  have := h.reading i
  cases hm : m.reading i with
  | idle => rfl
  | requested op =>
    rw [hm] at this
    obtain ⟨e, he, _⟩ := this
    exact absurd he (hi e)
  | served op v =>
    rw [hm] at this
    obtain ⟨e, he, _⟩ := this
    exact absurd he (hi e)

/-- The request at the head of a channel is the one the specification knows of. -/
theorem Refines.requested {m : MapSpec} (h : Refines m s) (hsync : Sync s) {e : EndId} {op : Op}
    (hr : op.isRead = true) (hm : op.message ∈ s.inbox e.peer) :
    m.reading (s.owner e) = .requested op := by
  have haw := hsync.awaiting_of_mem hr hm
  have hok := h.reading (s.owner e)
  cases hread : m.reading (s.owner e) with
  | idle =>
    rw [hread] at hok
    exact absurd haw (hok e)
  | requested op' =>
    rw [hread] at hok
    obtain ⟨e', he', hr', hm'⟩ := hok
    obtain rfl : e = e' := by simpa using haw.symm.trans he'
    have := (hsync.request e op hr hm).symm.trans (hsync.request e op' hr' hm')
    rw [Option.some.inj this]
  | served op' v =>
    rw [hread] at hok
    obtain ⟨e', he', _, hc⟩ := hok
    obtain rfl : e = e' := by simpa using haw.symm.trans he'
    exact absurd hc (hsync.not_coming hr hm)

/-- The reply that has come is the value served. -/
theorem Refines.served {m : MapSpec} (h : Refines m s) (hsync : Sync s) {i : Nat}
    {e : EndId} {op : Op}
    {v : Value} (hop : currentOp (s.prog i) = some op) (haw : s.phase i = .awaiting e)
    (hv : s.replies e = [v]) : m.reading i = .served op v := by
  have hok := h.reading i
  cases hread : m.reading i with
  | idle =>
    rw [hread] at hok
    exact absurd haw (hok e)
  | requested op' =>
    rw [hread] at hok
    obtain ⟨e', he', hr', hm'⟩ := hok
    obtain rfl : e = e' := by simpa using haw.symm.trans he'
    exact absurd (.inr (.inr (by simp [hv]))) (hsync.not_coming (v := v) hr' hm')
  | served op' v' =>
    rw [hread] at hok
    obtain ⟨e', he', hop', hc⟩ := hok
    obtain rfl : e = e' := by simpa using haw.symm.trans he'
    rw [Option.some.inj (hop.symm.trans hop'), hsync.eq_of_coming hv hc]

/-! ## The simulation -/

theorem lookup_putItem {i : Nat} {k : Key} (hi : k.node = i) (k' : Key) (v : Value) :
    (s.putItem i k v).lookup k'.node k' = update (fun k => s.lookup k.node k) k (some v) k' := by
  by_cases hk : k' = k
  · subst hk
    simp [State.lookup, hi]
  · rw [update_of_ne hk]
    by_cases hnode : k'.node = i
    · have hname : k'.k ≠ k.k := fun h => hk (Key.ext h (hnode.trans hi.symm))
      simp [State.lookup, hnode, Items.put_of_ne _ _ hname]
    · simp [State.lookup, hnode]

/-- The stores after a move: those before, with the puts applied. -/
theorem Move.lookup (h : Move n s a s' ev) (k : Key) :
    s'.lookup k.node k = applied (fun k => s.lookup k.node k) ev k := by
  cases h with
  | putLocal _ _ hk | servePut _ _ hk => exact lookup_putItem hk _ _
  | _ => rfl

/-- A move of the application of `i` that leaves the channels to the others, and
    what they wait for, in place. -/
theorem Refines.reading_app {m : MapSpec} (hR : Refines m s) {i : Nat} {r : Reading}
    (hphase : ∀ j, j ≠ i → s'.phase j = s.phase j) (hprog : ∀ j, j ≠ i → s'.prog j = s.prog j)
    (hinbox : ∀ e msg, msg ∈ s.inbox e → msg ∈ s'.inbox e) (hhandler : s'.handler = s.handler)
    (hreplies : ∀ j, j ≠ i → ∀ e, s.phase j = .awaiting e → s'.replies e = s.replies e)
    (hi : s'.ReadingOk i r) (j : Nat) : s'.ReadingOk j (update m.reading i r j) := by
  by_cases hj : j = i
  · subst hj
    rwa [update_self]
  · rw [update_of_ne hj]
    refine (hR.reading j).frame (hphase j hj) (hprog j hj) (fun _ _ _ _ => hinbox _ _)
      fun e v he hc => ?_
    exact hc.imp (fun h => by rw [hhandler, h]) (.imp (hinbox _ _) fun h => by
      rwa [hreplies j hj e he])

/-- A move of the application of `i`, which was not waiting and is not waiting. -/
theorem Refines.reading_idle {m : MapSpec} (hR : Refines m s) {i : Nat}
    (hwas : ∀ e, s.phase i ≠ .awaiting e) (hnow : ∀ e, s'.phase i ≠ .awaiting e)
    (hphase : ∀ j, j ≠ i → s'.phase j = s.phase j) (hprog : ∀ j, j ≠ i → s'.prog j = s.prog j)
    (hinbox : ∀ e msg, msg ∈ s.inbox e → msg ∈ s'.inbox e) (hhandler : s'.handler = s.handler)
    (hreplies : s'.replies = s.replies) (j : Nat) : s'.ReadingOk j (m.reading j) := by
  have := hR.reading_app (r := .idle) hphase hprog hinbox hhandler (fun _ _ _ _ => by rw [hreplies])
    hnow j
  rwa [← hR.idle hwas, update_eq_self] at this

/-- A handler's move that leaves the requests and the replies on their way. -/
theorem Refines.reading_handler {m : MapSpec} (hR : Refines m s) (hphase : s'.phase = s.phase)
    (hprog : s'.prog = s.prog)
    (hreq : ∀ e (op : Op), op.isRead = true → op.message ∈ s.inbox e → op.message ∈ s'.inbox e)
    (hcom : ∀ e v, s.Coming e v → s'.Coming e v) (i : Nat) : s'.ReadingOk i (m.reading i) :=
  (hR.reading i).frame (congrFun hphase i) (congrFun hprog i) (fun _ op _ => hreq _ op)
    fun e v _ h => hcom e v h

/-- A handler that has no reply to send does something else. -/
theorem State.Coming.setHandler {c e : EndId} {v : Value} (hh : ∀ v, s.handler c ≠ .replying v)
    (h : s.Coming e v) (ph : Handler) : (s.setHandler c ph).Coming e v := by
  refine h.imp_left fun hreplying => ?_
  have he : e.peer ≠ c := fun he => hh v (he ▸ hreplying)
  simpa [he] using hreplying

/-- A message that is not a reply has been handled. -/
theorem State.Coming.pop {c e : EndId} {v : Value} {msg : Message} {rest : List Message}
    (hin : s.inbox c = msg :: rest) (hne : ∀ v, msg ≠ .reply v)
    (hh : ∀ v, s.handler c ≠ .replying v)
    (h : s.Coming e v) (ph : Handler) : ((s.setInbox c rest).setHandler c ph).Coming e v := by
  have hrest : (s.setInbox c rest).Coming e v :=
    h.imp_right (.imp_left (mem_inbox_pop hin (hne v).symm))
  exact State.Coming.setHandler (s := s.setInbox c rest) hh hrest ph

/-- A reply has been handed to the application. -/
theorem State.Coming.recvReply {c e : EndId} {v v' : Value} {rest : List Message}
    (hin : s.inbox c = .reply v :: rest) (h : s.Coming e v') :
    ((s.setInbox c rest).setReplies c (s.replies c ++ [v])).Coming e v' := by
  by_cases he : e = c
  · subst he
    rcases h with hreplying | hmem | hreply
    · exact .inl hreplying
    · rw [hin, List.mem_cons] at hmem
      rcases hmem with heq | hmem
      · cases heq
        exact .inr (.inr (by simp))
      · exact .inr (.inl (by simpa using hmem))
    · exact .inr (.inr (by simp [hreply]))
  · simpa [State.Coming, he] using h

/-- A reply has been sent. -/
theorem State.Coming.reply {c e : EndId} {v v' : Value} (hh : s.handler c = .replying v)
    (h : s.Coming e v') : ((s.send c (.reply v)).setHandler c .idle).Coming e v' := by
  rcases h with hreplying | hmem | hreply
  · by_cases he : e.peer = c
    · obtain rfl : e = c.peer := EndId.eq_peer_iff.2 he
      rw [he, hh] at hreplying
      cases hreplying
      exact .inr (.inl (by simp))
    · exact .inl (by simpa [he] using hreplying)
  · exact .inr (.inl (mem_inbox_send hmem))
  · exact .inr (.inr hreply)

/-- The key is in the store of its home. -/
def State.Present (s : State) (k : Key) : Prop := (s.lookup k.node k).isSome

/-- Writing never removes a key. -/
theorem Move.present (h : Move n s a s' ev) {k : Key} (hk : s.Present k) : s'.Present k := by
  rw [State.Present, h.lookup]
  exact isSome_applied (m := fun k => s.lookup k.node k) hk ev

/-- A handler has answered a request: the answer comes to the node that made it. -/
theorem Refines.reading_served {m : MapSpec} (hR : Refines m s) (wf : WF n s) (hsync : Sync s)
    {c : EndId} {op : Op} {ph : Phase} {rest : List Message} (hh : s.handler c = .serving ph)
    (hin : s.inbox c = op.message :: rest) (hr : op.isRead = true) (v : Value) (j : Nat) :
    ((s.setInbox c rest).setHandler c (.replying v)).ReadingOk j
      ((m.setReading (s.owner c.peer) (.served op v)).reading j) := by
  have hmem : op.message ∈ s.inbox c.peer.peer := by simp [hin]
  by_cases hj : j = s.owner c.peer
  · -- The node whose request this is: its reply is coming.
    subst hj
    simp only [MapSpec.setReading, update_self]
    exact ⟨c.peer, hsync.awaiting_of_mem hr hmem, hsync.request _ op hr hmem, .inl (by simp)⟩
  · -- The other nodes wait on other connections.
    simp only [MapSpec.setReading, update_of_ne hj]
    refine (hR.reading j).frame rfl rfl (fun e op' he hr' hm => ?_) fun e v' he hc => ?_
    · have hej : s.owner e = j := wf.owner_of_awaiting he
      have hec : e.peer ≠ c := fun h => hj (by rw [← hej, ← h, EndId.peer_peer])
      simpa [hec] using hm
    · exact hc.pop hin op.message_ne_reply (by simp [hh]) _

/-- The specification allows the events of a move, and its reads are those of
    the state after it. -/
theorem Move.allowed {m : MapSpec} (wf : WF n s) (hsync : Sync s) (hR : Refines m s)
    (h : Move n s a s' ev) :
    ∃ m', observe MapSpec.next m ev = some m' ∧ ∀ i, s'.ReadingOk i (m'.reading i) := by
  have hflight := h.inFlight wf
  cases h with
  | @putLocal i k v next hp hph hk =>
    have hwas : ∀ e, s.phase i ≠ .awaiting e := by simp [hph]
    obtain ⟨m', hm', hr⟩ := MapSpec.observe_put (hR.idle hwas) hk v
    refine ⟨m', hm', hr ▸ hR.reading_idle (i := i) hwas (by simp) ?_ ?_
      (fun _ _ h => h) rfl rfl⟩ <;> exact fun j hj => update_of_ne hj _ _
  | @readLocal i op v hop hph hk hr hv =>
    have hwas : ∀ e, s.phase i ≠ .awaiting e := by simp [hph]
    obtain ⟨m', hm', hr⟩ := MapSpec.observe_read (m := m) (i := i) (hR.idle hwas)
      (show m.map op.key = some v by rw [hR.map, hk, hv])
    refine ⟨m', hm', hr ▸ hR.reading_idle (i := i) hwas (by simp) ?_ ?_
      (fun _ _ h => h) rfl rfl⟩ <;> exact fun j hj => update_of_ne hj _ _
  | @deletedLocal i op t v hop hph ht hf =>
    have hwas : ∀ e, s.phase i ≠ .awaiting e := by simp [hph]
    obtain ⟨m', hm', hr⟩ := MapSpec.observe_deleted (m := m) (i := i) (hR.idle hwas)
      (show (m.map op.key).isSome by rw [hR.map, hf.node]; exact hf.lookup) v
    refine ⟨m', hm', hr ▸ hR.reading_idle (i := i) hwas (by simp) ?_ ?_
      (fun _ _ h => h) rfl rfl⟩ <;> exact fun j hj => update_of_ne hj _ _
  | crash => exact ⟨m, rfl, hR.reading_handler rfl rfl (fun _ _ _ h => h) fun _ _ h => h⟩
  | missingLocal _ _ hk hl | missing _ _ hk hl =>
    refine ⟨m, ?_, hR.reading_handler rfl rfl (fun _ _ _ h => h) fun _ _ h => h⟩
    simp [MapSpec.next, hR.map, hk, hl]
  | @findLocal i op _ hph =>
    exact ⟨m, rfl, hR.reading_idle (i := i) (by simp [hph]) (by simp)
      (fun j hj => update_of_ne hj _ _) (fun _ _ => rfl) (fun _ _ h => h) rfl rfl⟩
  | @connected i _ _ _ hph | @hold i _ _ _ hph | @store i _ _ _ hph | @«open» i op _ hph =>
    exact ⟨m, rfl, hR.reading_idle (i := i) (by simp [hph]) (by simp)
      (fun j hj => update_of_ne hj _ _) (fun _ _ => rfl) (fun _ _ h => h) rfl rfl⟩
  | @sendPut i k v next c hp hph =>
    have hwas : ∀ e, s.phase i ≠ .awaiting e := by simp [hph]
    refine ⟨m.setPending i k v (m.pending i k v + 1), by simp [MapSpec.next, hR.idle hwas],
      hR.reading_idle (i := i) hwas (by simp) ?_ ?_ (fun _ _ h => mem_inbox_send h) rfl rfl⟩ <;>
      exact fun j hj => update_of_ne hj _ _
  | @sendRead i op c hop hph hr =>
    have hidle : m.reading i = .idle := hR.idle (by simp [hph])
    refine ⟨m.setReading i (.requested op), by simp [MapSpec.next, hidle], ?_⟩
    refine hR.reading_app (fun j hj => update_of_ne hj _ _) (fun _ _ => rfl)
      (fun _ _ h => mem_inbox_send h) rfl (fun _ _ _ _ => rfl) ?_
    exact ⟨c, by simp, hr, by simp⟩
  | @returned i op c v hop hph hr hrep =>
    have hserved := hR.served hsync hop hph hrep
    have hi : s.owner c = i := wf.owner_of_awaiting hph
    refine ⟨m.setReading i .idle, by simp [MapSpec.next, hserved], ?_⟩
    refine hR.reading_app (fun j hj => update_of_ne hj _ _) (fun j hj => update_of_ne hj _ _)
      (fun _ _ h => h) rfl (fun j hj e he => ?_) (by simp [State.ReadingOk])
    have hj' : s.owner e = j := wf.owner_of_awaiting he
    exact update_of_ne (fun hec => hj (by rw [← hj', hec, hi])) _ _
  | @recvReply c v rest hh hin =>
    refine ⟨m, rfl, hR.reading_handler rfl rfl (fun e op hr hm => ?_) fun e v' hc =>
      hc.recvReply hin⟩
    exact mem_inbox_pop hin (op.message_ne_reply v) hm
  | @recv c op rest hh hin | @find c op rest hh hin =>
    exact ⟨m, rfl, hR.reading_handler rfl rfl (fun _ _ _ h => h) fun e v hc =>
      hc.setHandler (by simp [hh]) _⟩
  | @servePut c k v rest hh hin hk =>
    have hpos : 0 < m.pending (s.owner c.peer) k v := by
      have := hflight (s.owner c.peer) k v
      rw [hk, List.count_singleton_self] at this
      rw [hR.pending]
      simp at this
      omega
    obtain ⟨m', hm', hr⟩ := MapSpec.observe_apply hk hpos
    refine ⟨m', hm', hr ▸ hR.reading_handler rfl rfl (fun e op hr hm => ?_) fun e v' hc => ?_⟩
    · exact mem_inbox_pop hin (Op.message_ne_put hr k v) hm
    · exact State.Coming.pop (s := s.putItem _ k v) hin (by simp) (by simp [hh]) hc _
  | @serveRead c op v rest hh hin hr hk hv =>
    have hreq : m.reading (s.owner c.peer) = .requested op :=
      hR.requested hsync hr (by simp [hin])
    have hval : m.map op.key = some v := by rw [hR.map, hk, hv]
    exact ⟨m.setReading (s.owner c.peer) (.served op v), by simp [MapSpec.next, hreq, hval],
      hR.reading_served wf hsync hh hin hr v⟩
  | @serveDeleted c op t v rest hh hin ht hf =>
    have hreq : m.reading (s.owner c.peer) = .requested op :=
      hR.requested hsync hf.isRead (by simp [hin])
    have hval : (m.map op.key).isSome := by
      rw [hR.map, hf.node]
      exact hf.lookup
    exact ⟨m.setReading (s.owner c.peer) (.served op v), by simp [MapSpec.next, hreq, hval],
      hR.reading_served wf hsync hh hin hf.isRead v⟩
  | @reply c v hh =>
    exact ⟨m, rfl, hR.reading_handler rfl rfl (fun _ _ _ h => mem_inbox_send h) fun e v' hc =>
      hc.reply hh⟩
  | accept | acceptStore =>
    exact ⟨m, rfl, hR.reading_handler rfl rfl (fun _ _ _ h => h) fun _ _ h => h⟩

theorem Move.refines {m : MapSpec} (wf : WF n s) (hsync : Sync s) (hR : Refines m s)
    (h : Move n s a s' ev) : ∃ m', observe MapSpec.next m ev = some m' ∧ Refines m' s' := by
  obtain ⟨m', hm', hread⟩ := h.allowed wf hsync hR
  refine ⟨m', hm', fun k => ?_, fun i k v => ?_, hread⟩
  · rw [h.lookup, MapSpec.map_of_observe hm', funext hR.map]
  · have h₁ := h.inFlight wf i k v
    have h₂ := MapSpec.pending_of_observe hm' i k v
    rw [hR.pending] at h₂
    omega

theorem init_refines (n : Nat) (progs : Nat → Prog Key Value Unit) :
    Refines MapSpec.init (init n progs) where
  map _ := rfl
  pending i k v := (Finset.sum_eq_zero fun _ _ => ite_self 0).symm
  reading i := by simp [State.ReadingOk, MapSpec.init, init]

/-- The specification allows the history of a run, and of a restricted run, and
    the state reached makes its state. -/
theorem refines_of_run {ok : Action → State → Prop} {progs : Nat → Prog Key Value Unit}
    {l : List Event}
    (h : Trace.Run (step n) ok (init n progs) l s) : ∃ m, MapSpec.Allows l m ∧ Refines m s :=
  h.refines (Q := fun _ s => WF n s ∧ Sync s) (fun h => ⟨wf_of_run h, sync_of_run h⟩) Refines
    (init_refines n progs) fun ⟨wf, hsync⟩ hR _ hs => (step_move wf hs).refines wf hsync hR

/-- Along every run: the entries of a store are those of its node; the messages
    in the channels are addressed to the home of their keys; a put called is
    either in one channel or has been applied, once, at the home of its key; and
    the stores hold what the puts applied made of one map, in which keys with the
    same name and different nodes are different keys. -/
theorem one_map_of_run {ok : Action → State → Prop} {progs : Nat → Prog Key Value Unit}
    {l : List Event} (h : Trace.Run (step n) ok (init n progs) l s) :
    (∀ i name it, s.items i name = some it → it.key = ⟨name, i⟩) ∧
    (∀ e (op : Op), op.message ∈ s.inbox e → op.key.node = s.owner e) ∧
    (∀ i k v, l.count (.issue i k v) = s.inFlight i k v + l.count (.apply i k.node k v)) ∧
    (∀ i j k v, .apply i j k v ∈ l → j = k.node) ∧ ∀ k, s.lookup k.node k = contents l k := by
  have wf := wf_of_run h
  obtain ⟨m, hm, hR⟩ := refines_of_run h
  refine ⟨wf.items, wf.inbox, fun i k v => ?_, fun i j k v => hm.apply_node, fun k => ?_⟩
  · rw [hm.pending, hR.pending]
  · rw [← hR.map, hm.map]

/-- A client that writes a key of the controller and reads it back. -/
def writeThenRead (k : Key) (v : Value) (i : Nat) : Prog Key Value Unit :=
  if i = 1 then .put k v (.get k fun _ => .ret ()) else .ret ()

theorem exists_run_writeThenRead :
    ∃ s, Run 2 (writeThenRead ⟨lit "a", 0⟩ [7])
      [.issue 1 ⟨lit "a", 0⟩ [7], .apply 1 0 ⟨lit "a", 0⟩ [7], .request 1 (.get ⟨lit "a", 0⟩),
        .serve 1 (.get ⟨lit "a", 0⟩) [7], .return 1 (.get ⟨lit "a", 0⟩) [7]] s :=
  run_of_exec (fun _ _ => True) 2 (writeThenRead ⟨lit "a", 0⟩ [7])
    [.app 1, .app 1, .app 1, .handler ⟨0, true⟩, .handler ⟨0, true⟩, .app 1, .app 1, .app 1,
      .handler ⟨0, true⟩, .handler ⟨0, true⟩, .handler ⟨0, true⟩, .handler ⟨0, true⟩,
      .handler ⟨0, false⟩, .app 1] _
      (by decide)
    fun _ _ _ => trivial

end Eau2.Network

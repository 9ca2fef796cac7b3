import Eau2.Network.Move

/-!
# The basic invariants of a run

What the moves of the threads never undo (`Grows`), and that they keep the state
well-formed (`Move.wf`, one lemma for each field of `WF`).
-/

namespace Eau2.Network

open Function

variable {n : Nat} {s s' : State} {a : Action} {ev : List Event}

/-! ## Growth -/

/-- What no move undoes: connections are opened and started, and the entries of
    `connections_` and of the stores are replaced but never removed. -/
structure Grows (s s' : State) : Prop where
  nextConn : s.nextConn ≤ s'.nextConn
  owner : ∀ e, e.conn < s.nextConn → s'.owner e = s.owner e
  live : ∀ e, s.live e = true → s'.live e = true
  connections : ∀ i j c, s.connections i j = some c → ∃ c', s'.connections i j = some c'
  lookup : ∀ i k, (s.lookup i k).isSome → (s'.lookup i k).isSome

theorem Grows.isEnd (h : Grows s s') {e : EndId} {i j : Nat} (he : s.IsEnd e i j) :
    s'.IsEnd e i j where
  conn := he.conn.trans_le h.nextConn
  owner := (h.owner e he.conn).trans he.owner
  peer := (h.owner e.peer he.conn).trans he.peer

theorem Grows.found (h : Grows s s') {i : Nat} {op : Op} (hf : s.Found i op) : s'.Found i op :=
  ⟨hf.isRead, hf.node, h.lookup _ _ hf.lookup⟩

theorem Grows.phaseOk (h : Grows s s') {i : Nat} {op : Op} {ph : Phase} (hp : s.PhaseOk i op ph) :
    s'.PhaseOk i op ph := by
  cases ph with
  | entry => trivial
  | found => exact h.found hp
  | opened c | holding c => exact ⟨h.isEnd hp.1, h.live _ hp.2⟩
  | connected =>
    obtain ⟨c, hc⟩ := hp
    exact h.connections _ _ _ hc
  | awaiting c => exact ⟨h.isEnd hp.1, h.live _ hp.2.1, hp.2.2⟩

theorem grows_setConnection (s : State) (i j : Nat) (c : EndId) :
    Grows s (s.setConnection i j c) where
  nextConn := le_rfl
  owner _ _ := rfl
  live _ h := h
  connections i' j' c' h := by
    by_cases hi : i' = i
    · subst hi
      by_cases hj : j' = j
      · exact ⟨c, by simp [hj]⟩
      · exact ⟨c', by simp [hj, h]⟩
    · exact ⟨c', by simp [hi, h]⟩
  lookup _ _ h := h

theorem isSome_lookup_putItem (i : Nat) (k : Key) (v : Value) {i' : Nat} {k' : Key}
    (h : (s.lookup i' k').isSome) : ((s.putItem i k v).lookup i' k').isSome := by
  by_cases hi : i' = i
  · subst hi
    by_cases hk : k'.k = k.k
    · simp [State.lookup, Items.find, Items.put, hk]
    · simpa [State.lookup, Items.find, Items.put, hk] using h
  · simpa [State.lookup, hi] using h

theorem owner_openConn (s : State) (i j : Nat) {e : EndId} (he : e.conn < s.nextConn) :
    (s.openConn i j).owner e = s.owner e := by
  have h₁ : e ≠ s.nextEnd := fun h => by rw [h] at he; exact lt_irrefl _ he
  have h₂ : e ≠ s.nextEnd.peer := fun h => by rw [h] at he; exact lt_irrefl _ he
  simp [h₁, h₂]

theorem grows_openConn (s : State) (i j : Nat) : Grows s (s.openConn i j) where
  nextConn := Nat.le_succ _
  owner _ he := owner_openConn s i j he
  live e h := by
    by_cases he : e = s.nextEnd <;> simp [he, h]
  connections _ _ c h := ⟨c, h⟩
  lookup _ _ h := h

theorem Move.grows (h : Move n s a s' ev) : Grows s s' := by
  cases h with
  | @«open» i op =>
    have hg := grows_openConn s i op.key.node
    exact ⟨hg.nextConn, hg.owner, hg.live, hg.connections, hg.lookup⟩
  | store | acceptStore =>
    exact ⟨le_rfl, fun _ _ => rfl, fun _ h => h, (grows_setConnection _ _ _ _).4, fun _ _ h => h⟩
  | @accept i c =>
    refine ⟨le_rfl, fun _ _ => rfl, fun e h => ?_, fun _ _ c h => ⟨c, h⟩, fun _ _ h => h⟩
    by_cases he : e = c <;> simp [he, h]
  | putLocal | servePut =>
    exact ⟨le_rfl, fun _ _ => rfl, fun _ h => h, fun _ _ c h => ⟨c, h⟩,
      fun _ _ => isSome_lookup_putItem _ _ _⟩
  | _ => exact ⟨le_rfl, fun _ _ => rfl, fun _ h => h, fun _ _ c h => ⟨c, h⟩, fun _ _ h => h⟩

/-! ## The channels -/

theorem mem_inbox_send {c e : EndId} {msg m : Message} (h : msg ∈ s.inbox e) :
    msg ∈ (s.send c m).inbox e := by
  by_cases he : e = c.peer
  · subst he
    simp [h]
  · simpa [he] using h

/-- What is in a channel after a `send` was there before, or is what is sent. -/
theorem mem_inbox_of_send {c e : EndId} {msg m : Message} (h : msg ∈ (s.send c m).inbox e) :
    msg ∈ s.inbox e ∨ e = c.peer ∧ msg = m := by
  by_cases he : e = c.peer
  · subst he
    rw [State.send_inbox, update_self, List.mem_append, List.mem_singleton] at h
    exact h.imp_right fun heq => ⟨rfl, heq⟩
  · rw [State.send_inbox, update_of_ne he] at h
    exact .inl h

/-- Handling a message leaves the others in place. -/
theorem mem_inbox_pop {c e : EndId} {msg m : Message} {rest : List Message}
    (hin : s.inbox c = m :: rest) (hne : msg ≠ m) (h : msg ∈ s.inbox e) :
    msg ∈ (s.setInbox c rest).inbox e := by
  by_cases he : e = c
  · subst he
    rw [hin, List.mem_cons] at h
    simpa using h.resolve_left hne
  · simpa [he] using h

theorem mem_inbox_of_pop {c e : EndId} {msg m : Message} {rest : List Message}
    (hin : s.inbox c = m :: rest) (h : msg ∈ (s.setInbox c rest).inbox e) : msg ∈ s.inbox e := by
  by_cases he : e = c
  · subst he
    rw [State.setInbox_inbox, update_self] at h
    rw [hin]
    exact List.mem_cons_of_mem _ h
  · rwa [State.setInbox_inbox, update_of_ne he] at h

/-! ## Well-formedness -/

/-- The end an application sends on or waits for. -/
theorem WF.holding (wf : WF n s) {i : Nat} {op : Op} {c : EndId}
    (hop : currentOp (s.prog i) = some op)
    (hph : s.phase i = .holding c ∨ s.phase i = .awaiting c ∨ s.phase i = .opened c) :
    s.IsEnd c i op.key.node ∧ s.live c = true := by
  obtain ⟨op', hop', hok⟩ := wf.phase i (by rcases hph with h | h | h <;> simp [h])
  obtain rfl : op = op' := Option.some.inj (hop.symm.trans hop')
  rcases hph with h | h | h <;> rw [h] at hok
  · exact hok
  · exact ⟨hok.1, hok.2.1⟩
  · exact hok

theorem WF.phase_awaiting (wf : WF n s) {i : Nat} {c : EndId} (hph : s.phase i = .awaiting c) :
    ∃ op, currentOp (s.prog i) = some op ∧ s.IsEnd c i op.key.node ∧ op.isRead = true := by
  obtain ⟨op, hop, hok⟩ := wf.phase i (by simp [hph])
  rw [hph] at hok
  exact ⟨op, hop, hok.1, hok.2.2⟩

theorem WF.owner_of_awaiting (wf : WF n s) {i : Nat} {c : EndId} (hph : s.phase i = .awaiting c) :
    s.owner c = i :=
  (wf.phase_awaiting hph).elim fun _ h => h.2.1.owner

theorem WF.isRead_of_awaiting (wf : WF n s) {i : Nat} {c : EndId} {op : Op}
    (hop : currentOp (s.prog i) = some op) (hph : s.phase i = .awaiting c) : op.isRead = true := by
  obtain ⟨op', hop', _, hr⟩ := wf.phase_awaiting hph
  rwa [Option.some.inj (hop.symm.trans hop')]

theorem WF.conn_of_inbox (wf : WF n s) {e : EndId} (h : s.inbox e ≠ []) : e.conn < s.nextConn := by
  by_contra hlt
  exact h (wf.fresh e (not_lt.1 hlt)).1

theorem WF.conn_of_handler (wf : WF n s) {e : EndId} (h : s.handler e ≠ .idle) :
    e.conn < s.nextConn := by
  by_contra hlt
  exact h (wf.fresh e (not_lt.1 hlt)).2.1

theorem openConn_isEnd (s : State) (i j : Nat) :
    (s.openConn i j).IsEnd s.nextEnd i j where
  conn := Nat.lt_succ_self _
  owner := by simp [s.nextEnd.peer_ne.symm]
  peer := by simp

/-- The ends of a connection just opened, or those there were. -/
theorem openConn_conn {s : State} {i j : Nat} {e : EndId}
    (he : e.conn < (s.openConn i j).nextConn) :
    e.conn < s.nextConn ∨ e = s.nextEnd ∨ e = s.nextEnd.peer := by
  rcases Nat.lt_succ_iff_lt_or_eq.1 he with h | h
  · exact .inl h
  · exact .inr (EndId.eq_or_eq_peer h)

theorem Move.distinct (wf : WF n s) (h : Move n s a s' ev) :
    ∀ e, e.conn < s'.nextConn → s'.owner e ≠ s'.owner e.peer ∧ s'.owner e < n := by
  cases h with
  | @«open» i op hop hph hne hc hlt hi =>
    intro e he
    have hend := openConn_isEnd s i op.key.node
    rcases openConn_conn (show e.conn < (s.openConn i op.key.node).nextConn from he)
      with h | rfl | rfl
    · change (s.openConn i op.key.node).owner e ≠ (s.openConn i op.key.node).owner e.peer ∧
        (s.openConn i op.key.node).owner e < n
      rw [owner_openConn s _ _ h, owner_openConn s _ _ (show e.peer.conn < _ from h)]
      exact ⟨wf.distinct e h, wf.bound e h⟩
    · exact ⟨hend.owner.trans_ne (hne.symm.trans_eq hend.peer.symm), hend.owner.trans_lt hi⟩
    · exact ⟨hend.peer.trans_ne (hne.trans_eq (by rw [EndId.peer_peer]; exact hend.owner.symm)),
        hend.peer.trans_lt hlt⟩
  | _ => exact fun e he => ⟨wf.distinct e he, wf.bound e he⟩

theorem Move.fresh (wf : WF n s) (h : Move n s a s' ev) : ∀ e, s'.nextConn ≤ e.conn →
    s'.inbox e = [] ∧ s'.handler e = .idle ∧ s'.replies e = [] ∧ s'.live e = false := by
  have ne {c e : EndId} (hc : c.conn < s.nextConn) (he : s.nextConn ≤ e.conn) : e ≠ c := by
    rintro rfl
    exact absurd hc (not_lt.2 he)
  cases h with
  | @«open» i op =>
    intro e he
    have hle : s.nextConn ≤ e.conn := Nat.le_of_succ_le he
    have : e ≠ s.nextEnd := by
      rintro rfl
      exact absurd he (Nat.not_succ_le_self _)
    simpa [this] using wf.fresh e hle
  | sendPut hp hph =>
    intro e he
    have hc := (wf.holding (show _ = some (Op.put _ _) by rw [hp]; rfl) (.inl hph)).1.conn
    simpa [ne (c := EndId.peer _) hc he] using wf.fresh e he
  | sendRead hop hph =>
    intro e he
    have hc := (wf.holding hop (.inl hph)).1.conn
    simpa [ne (c := EndId.peer _) hc he] using wf.fresh e he
  | returned hop hph =>
    intro e he
    have hc := (wf.holding hop (.inr (.inl hph))).1.conn
    simpa [ne hc he] using wf.fresh e he
  | recvReply _ hin | recv _ hin | find _ hin =>
    intro e he
    have hc := wf.conn_of_inbox (by rw [hin]; simp)
    simpa [ne hc he] using wf.fresh e he
  | servePut _ hin | serveRead _ hin | serveDeleted _ hin =>
    intro e he
    have hc := wf.conn_of_inbox (by rw [hin]; simp)
    simpa [ne hc he] using wf.fresh e he
  | @reply c v hh =>
    intro e he
    have hc := wf.conn_of_handler (e := c) (by rw [hh]; simp)
    simpa [ne hc he, ne (c := c.peer) hc he] using wf.fresh e he
  | @accept i c p rest hacc hb =>
    intro e he
    have hc := (wf.backlog i c p (by rw [hb]; exact List.mem_cons_self)).conn
    simpa [ne hc he] using wf.fresh e he
  | _ => exact wf.fresh

theorem Move.connections (wf : WF n s) (h : Move n s a s' ev) : ∀ i j e,
    s'.connections i j = some e → s'.IsEnd e i j ∧ s'.live e = true := by
  have old : ∀ i j e, s.connections i j = some e → s'.IsEnd e i j ∧ s'.live e = true :=
    fun i j e he => ⟨h.grows.isEnd (wf.connections i j e he).1,
      h.grows.live e (wf.connections i j e he).2⟩
  have set {i j : Nat} {c : EndId} (hc : s.IsEnd c i j ∧ s.live c = true) : ∀ i' j' e,
      (s.setConnection i j c).connections i' j' = some e → s'.IsEnd e i' j' ∧ s'.live e = true := by
    intro i' j' e he
    by_cases hi : i' = i
    · subst hi
      by_cases hj : j' = j
      · subst hj
        simp only [State.setConnection_connections, update_self, Option.some.injEq] at he
        subst he
        exact ⟨h.grows.isEnd hc.1, h.grows.live _ hc.2⟩
      · simp only [State.setConnection_connections, update_self, update_of_ne hj] at he
        exact old _ _ _ he
    · simp only [State.setConnection_connections, update_of_ne hi] at he
      exact old _ _ _ he
  cases h with
  | store hop hph => exact set (wf.holding hop (.inr (.inr hph)))
  | acceptStore hacc => exact set (wf.accepting _ _ _ hacc)
  | _ => exact old

theorem Move.backlog (wf : WF n s) (h : Move n s a s' ev) : ∀ i e p,
    (e, p) ∈ s'.backlog i → s'.IsEnd e i p := by
  have old : ∀ i e p, (e, p) ∈ s.backlog i → s'.IsEnd e i p :=
    fun i e p he => h.grows.isEnd (wf.backlog i e p he)
  cases h with
  | @«open» i op =>
    intro j e p he
    by_cases hj : j = op.key.node
    · subst hj
      simp only [State.setPhase_backlog, State.openConn_backlog, update_self, List.mem_append,
        List.mem_singleton, Prod.mk.injEq] at he
      rcases he with he | ⟨rfl, rfl⟩
      · exact old _ _ _ he
      · have := openConn_isEnd s p op.key.node
        exact ⟨this.conn, this.peer, by rw [EndId.peer_peer]; exact this.owner⟩
    · simp only [State.setPhase_backlog, State.openConn_backlog, update_of_ne hj] at he
      exact old _ _ _ he
  | @accept i c p rest hacc hb =>
    intro j e p' he
    by_cases hj : j = i
    · subst hj
      simp only [State.setAccepting_backlog, State.startConn_backlog, update_self] at he
      exact old _ _ _ (by rw [hb]; exact List.mem_cons_of_mem _ he)
    · simp only [State.setAccepting_backlog, State.startConn_backlog, update_of_ne hj] at he
      exact old _ _ _ he
  | _ => exact old

theorem Move.accepting (wf : WF n s) (h : Move n s a s' ev) : ∀ i e p,
    s'.accepting i = some (e, p) → s'.IsEnd e i p ∧ s'.live e = true := by
  have old : ∀ i e p, s.accepting i = some (e, p) → s'.IsEnd e i p ∧ s'.live e = true :=
    fun i e p he => ⟨h.grows.isEnd (wf.accepting i e p he).1,
      h.grows.live e (wf.accepting i e p he).2⟩
  cases h with
  | @accept i c p rest hacc hb =>
    intro j e p' he
    by_cases hj : j = i
    · subst hj
      simp only [State.setAccepting_accepting, update_self, Option.some.injEq, Prod.mk.injEq] at he
      obtain ⟨rfl, rfl⟩ := he
      have hend := wf.backlog j c p (by rw [hb]; exact List.mem_cons_self)
      exact ⟨⟨hend.conn, hend.owner, hend.peer⟩, by simp⟩
    · simp only [State.setAccepting_accepting, update_of_ne hj] at he
      exact old _ _ _ he
  | @acceptStore i c p hacc =>
    intro j e p' he
    by_cases hj : j = i
    · subst hj
      simp at he
    · simp only [State.setAccepting_accepting, update_of_ne hj] at he
      exact old _ _ _ he
  | _ => exact old

theorem Move.inbox (wf : WF n s) (h : Move n s a s' ev) : ∀ e (op : Op),
    op.message ∈ s'.inbox e → op.key.node = s'.owner e := by
  have send {c : EndId} {m : Message} (hm : ∀ op : Op, op.message = m → op.key.node =
      s.owner c.peer) :
      ∀ e (op : Op), op.message ∈ (s.send c m).inbox e → op.key.node = s.owner e := by
    intro e op hop
    rcases mem_inbox_of_send hop with hmem | ⟨rfl, heq⟩
    · exact wf.inbox e op hmem
    · exact hm op heq
  cases h with
  | @«open» i op =>
    intro e op' hm
    have hc : e.conn < s.nextConn := wf.conn_of_inbox (List.ne_nil_of_mem hm)
    exact (wf.inbox e op' hm).trans (owner_openConn s _ _ hc).symm
  | @sendPut i k v next c hp hph =>
    refine send fun op hop => ?_
    obtain rfl : op = .put k v := Op.message_inj hop
    exact (wf.holding (show _ = some (Op.put k v) by rw [hp]; rfl) (.inl hph)).1.peer.symm
  | @sendRead i op c hop hph =>
    refine send fun op' hop' => ?_
    obtain rfl : op' = op := Op.message_inj hop'
    exact (wf.holding hop (.inl hph)).1.peer.symm
  | recvReply _ hin | servePut _ hin | serveRead _ hin | serveDeleted _ hin =>
    exact fun e op hm => wf.inbox e op (mem_inbox_of_pop hin hm)
  | reply => exact send fun op hop => by cases op <;> cases hop
  | _ => exact wf.inbox

/-- A handler that serves has its message at the head of its channel. -/
theorem WF.serving_conn (wf : WF n s) {e : EndId} {ph : Phase} (h : s.handler e = .serving ph) :
    e.conn < s.nextConn :=
  wf.conn_of_handler (by rw [h]; exact Handler.noConfusion)

theorem Move.serving (wf : WF n s) (h : Move n s a s' ev) : ∀ e ph, s'.handler e = .serving ph →
    ∃ (op : Op) (rest : _), s'.inbox e = op.message :: rest ∧
      (ph = .entry ∨ (∃ t, ph = .found t) ∧ s'.Found (s'.owner e) op) := by
  -- a handler that was serving, its message still at the head of its channel
  have old {e : EndId} {ph : Phase} (he : s.handler e = .serving ph)
      (hin : ∀ m rest, s.inbox e = m :: rest → ∃ rest', s'.inbox e = m :: rest') :
      ∃ (op : Op) (rest : _), s'.inbox e = op.message :: rest ∧
        (ph = .entry ∨ (∃ t, ph = .found t) ∧ s'.Found (s'.owner e) op) := by
    obtain ⟨op, rest, hop, hph⟩ := wf.serving e ph he
    obtain ⟨rest', hop'⟩ := hin _ _ hop
    refine ⟨op, rest', hop', hph.imp_right fun ⟨ht, hf⟩ => ⟨ht, ?_⟩⟩
    rw [h.grows.owner e (wf.serving_conn he)]
    exact h.grows.found hf
  have send {c : EndId} {m : Message} (e : EndId) : ∀ m' rest, s.inbox e = m' :: rest →
      ∃ rest', (s.send c m).inbox e = m' :: rest' := by
    intro m' rest hin
    by_cases hc : e = c.peer
    · exact ⟨rest ++ [m], by simp [← hc, hin]⟩
    · exact ⟨rest, by simp [hc, hin]⟩
  have hg := h.grows
  cases h with
  | sendPut | sendRead => exact fun e ph he => old he (send e)
  | @recvReply c v rest hh hin =>
    intro e ph he
    have hc : e ≠ c := by
      rintro rfl
      exact absurd (hh.symm.trans he) (by simp)
    exact old he fun m rest' hm => ⟨rest', by simpa [hc] using hm⟩
  | @recv c op rest hh hin =>
    intro e ph he
    by_cases hc : e = c
    · subst hc
      simp only [State.setHandler_handler, update_self, Handler.serving.injEq] at he
      exact ⟨op, rest, hin, .inl he.symm⟩
    · simp only [State.setHandler_handler, update_of_ne hc] at he
      exact old he fun m rest' hm => ⟨rest', hm⟩
  | @find c op rest hh hin hf =>
    intro e ph he
    by_cases hc : e = c
    · subst hc
      simp only [State.setHandler_handler, update_self, Handler.serving.injEq] at he
      exact ⟨op, rest, hin, .inr ⟨⟨_, he.symm⟩, hg.found hf⟩⟩
    · simp only [State.setHandler_handler, update_of_ne hc] at he
      exact old he fun m rest' hm => ⟨rest', hm⟩
  | @servePut c _ _ _ hh hin | @serveRead c _ _ _ hh hin | @serveDeleted c _ _ _ _ hh hin =>
    intro e ph he
    have hc : e ≠ c := by
      rintro rfl
      simp at he
    simp only [State.setHandler_handler, update_of_ne hc] at he
    exact old he fun m rest' hm => ⟨rest', by simpa [hc] using hm⟩
  | @reply c v hh =>
    intro e ph he
    have hc : e ≠ c := by
      rintro rfl
      simp at he
    simp only [State.setHandler_handler, update_of_ne hc] at he
    exact old he (send e)
  | _ => exact fun e ph he => old he fun m rest' hm => ⟨rest', hm⟩

theorem Move.phase (wf : WF n s) (h : Move n s a s' ev) : ∀ i, s'.phase i ≠ .entry →
    ∃ op, currentOp (s'.prog i) = some op ∧ s'.PhaseOk i op (s'.phase i) := by
  have old : ∀ i, s.phase i ≠ .entry →
      ∃ op, currentOp (s.prog i) = some op ∧ s'.PhaseOk i op (s.phase i) := fun i hi => by
    obtain ⟨op, hop, hok⟩ := wf.phase i hi
    exact ⟨op, hop, h.grows.phaseOk hok⟩
  -- An application that enters the phase `ph` of its current call.
  have enter {i : Nat} {op : Op} {ph : Phase} (hop : currentOp (s.prog i) = some op)
      (hok : s'.PhaseOk i op ph) : ∀ i', update s.phase i ph i' ≠ .entry →
      ∃ op, currentOp (s.prog i') = some op ∧ s'.PhaseOk i' op (update s.phase i ph i') := by
    intro i' hi'
    by_cases hi : i' = i
    · subst hi
      exact ⟨op, hop, by rw [update_self]; exact hok⟩
    · rw [update_of_ne hi] at hi' ⊢
      exact old i' hi'
  -- An application whose call is over.
  have ended {i : Nat} {p : Prog Key Value Unit} : ∀ i', update s.phase i .entry i' ≠ .entry →
      ∃ op, currentOp (update s.prog i p i') = some op ∧
        s'.PhaseOk i' op (update s.phase i .entry i') := by
    intro i' hi'
    by_cases hi : i' = i
    · subst hi
      simp at hi'
    · rw [update_of_ne hi] at hi' ⊢
      rw [update_of_ne hi]
      exact old i' hi'
  have hg := h.grows
  cases h with
  | putLocal | readLocal | deletedLocal | sendPut | returned => exact ended
  | findLocal hop _ hf => exact enter hop (hg.found hf)
  | connected hop _ _ hc => exact enter hop ⟨_, hc⟩
  | hold hop _ hc =>
    have hend := wf.connections _ _ _ hc
    exact enter hop ⟨hg.isEnd hend.1, hend.2⟩
  | @«open» i op hop =>
    have hend := openConn_isEnd s i op.key.node
    exact enter hop ⟨⟨hend.conn, hend.owner, hend.peer⟩, by simp⟩
  | @store _ _ c hop => exact enter hop ⟨c, by simp⟩
  | sendRead hop hph hr =>
    have hend := wf.holding hop (.inl hph)
    exact enter hop ⟨hg.isEnd hend.1, hend.2, hr⟩
  | _ => exact old

theorem Move.items (wf : WF n s) (h : Move n s a s' ev) : ∀ i, (s'.items i).Home i := by
  have put {i : Nat} {k : Key} {v : Value} (hk : k.node = i) :
      ∀ i', Items.Home (update s.items i ((s.items i).put k v) i') i' := by
    intro i'
    by_cases hi : i' = i
    · subst hi
      rw [update_self]
      exact (wf.items i').put hk v
    · rw [update_of_ne hi]
      exact wf.items i'
  cases h with
  | putLocal _ _ hk => exact put hk
  | servePut _ _ hk => exact put hk
  | _ => exact wf.items

/-- Every move keeps the state well-formed. -/
theorem Move.wf (wf : WF n s) (h : Move n s a s' ev) : WF n s' where
  distinct e he := (h.distinct wf e he).1
  bound e he := (h.distinct wf e he).2
  fresh := h.fresh wf
  connections := h.connections wf
  backlog := h.backlog wf
  accepting := h.accepting wf
  inbox := h.inbox wf
  serving := h.serving wf
  phase := h.phase wf
  items := h.items wf

theorem init_wf (n : Nat) (progs : Nat → Prog Key Value Unit) : WF n (init n progs) where
  distinct e _ := by cases hs : e.side <;> simp [init, EndId.peer, hs]
  bound e he := by
    have : e.conn < n - 1 := he
    cases hs : e.side <;> simp only [init, hs, if_true, if_false, Bool.false_eq_true] <;> omega
  fresh e he := ⟨rfl, rfl, rfl, decide_eq_false (not_lt.2 he)⟩
  connections i j e he := by
    simp only [init] at he
    split_ifs at he with h₁ h₂ <;> simp only [Option.some.injEq] at he <;> subst he
    · refine ⟨⟨?_, ?_, ?_⟩, ?_⟩ <;> simp [init, EndId.peer] <;> omega
    · refine ⟨⟨?_, ?_, ?_⟩, ?_⟩ <;> simp [init, EndId.peer] <;> omega
  backlog i e p h := by cases h
  accepting i e p h := by cases h
  inbox e op h := by cases h
  serving e ph h := by cases h
  phase i h := absurd rfl h
  items i name it h := by cases h

/-- The states of a run, and of a restricted run, are well-formed. -/
theorem wf_of_run {ok : Action → State → Prop} {progs : Nat → Prog Key Value Unit} {l : List Event}
    (h : Trace.Run (step n) ok (init n progs) l s) : WF n s :=
  h.invariant (fun _ s => WF n s) (init_wf n progs) fun wf _ hs => (step_move wf hs).wf wf

end Eau2.Network

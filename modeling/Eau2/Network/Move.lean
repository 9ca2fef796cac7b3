import Eau2.Network.System

/-!
# Well-formed states and their moves

In a well-formed state (`WF`) every connection joins two different nodes, the
maps and queues hold connections of the right nodes, and every message is
addressed to the home of its key. So a handler only ever calls the store for a
key of its own node, and the moves of a well-formed state are those of `Move`:
`step_move` is the one place where the code of the threads is taken apart, and
everything about runs is proved from `Move`.
-/

namespace Eau2.Network

open Function

@[simp] theorem EndId.peer_peer (e : EndId) : e.peer.peer = e := by
  cases e
  simp [peer]

@[simp] theorem EndId.peer_conn (e : EndId) : e.peer.conn = e.conn := rfl

@[simp] theorem EndId.peer_ne (e : EndId) : e.peer ≠ e := by
  cases e
  simp [peer]

@[simp] theorem EndId.ne_peer (e : EndId) : e ≠ e.peer := e.peer_ne.symm

@[simp] theorem EndId.peer_inj {e e' : EndId} : e.peer = e'.peer ↔ e = e' := by
  constructor
  · intro h
    rw [← e.peer_peer, h, e'.peer_peer]
  · rintro rfl
    rfl

theorem EndId.eq_peer_iff {e e' : EndId} : e = e'.peer ↔ e.peer = e' := by
  rw [← EndId.peer_inj, EndId.peer_peer]

/-- An end is the end `c`, its peer, or an end of another connection. -/
theorem EndId.trichotomy (e c : EndId) :
    e = c ∨ e = c.peer ∨ (e ≠ c ∧ e ≠ c.peer ∧ e.peer ≠ c ∧ e.peer ≠ c.peer) := by
  by_cases h₁ : e = c
  · exact .inl h₁
  · by_cases h₂ : e = c.peer
    · exact .inr (.inl h₂)
    · exact .inr (.inr ⟨h₁, h₂, fun h => h₂ (eq_peer_iff.2 h), fun h => h₁ (peer_inj.1 h)⟩)

/-- Two ends of the same connection are equal or opposite. -/
theorem EndId.eq_or_eq_peer {e e' : EndId} (h : e.conn = e'.conn) : e = e' ∨ e = e'.peer := by
  obtain ⟨c, b⟩ := e
  obtain ⟨c', b'⟩ := e'
  obtain rfl : c = c' := h
  cases b <;> cases b' <;> simp [peer]

/-- A `get` or a `waitAndGet`: a call that waits for a reply. -/
def Op.isRead : Op → Bool
  | put _ _ => false
  | get _ | waitAndGet _ => true

/-- A request: a message that asks for a reply. -/
def Message.isRead : Message → Bool
  | get _ | waitAndGet _ => true
  | put _ _ | reply _ => false

/-- A reply. -/
def Message.isReply : Message → Bool
  | reply _ => true
  | _ => false

@[simp] theorem Op.message_op? (op : Op) : op.message.op? = some op := by cases op <;> rfl
@[simp] theorem Op.message_isRead (op : Op) : op.message.isRead = op.isRead := by cases op <;> rfl
@[simp] theorem Op.message_isReply (op : Op) : op.message.isReply = false := by cases op <;> rfl

theorem Op.message_ne_put {op : Op} (h : op.isRead = true) (k : Key) (v : Value) :
    op.message ≠ .put k v := by
  rintro hm
  cases op <;> cases hm
  cases h

theorem Op.message_ne_reply (op : Op) (v : Value) : op.message ≠ .reply v := by
  cases op <;> exact Message.noConfusion

theorem Op.message_inj {op op' : Op} (h : op.message = op'.message) : op = op' := by
  have := congrArg Message.op? h
  rwa [message_op?, message_op?, Option.some.injEq] at this

/-- `e` is an end, on the node `i`, of a connection with the node `j`. -/
structure State.IsEnd (s : State) (e : EndId) (i j : Nat) : Prop where
  conn : e.conn < s.nextConn
  owner : s.owner e = i
  peer : s.owner e.peer = j

/-- The call `op` has found its key in the store of its node `i`. -/
structure State.Found (s : State) (i : Nat) (op : Op) : Prop where
  isRead : op.isRead = true
  node : op.key.node = i
  lookup : (s.lookup i op.key).isSome

/-- The application of the node `i`, in the call `op`, may stand in the phase given. -/
def State.PhaseOk (s : State) (i : Nat) (op : Op) : Phase → Prop
  | .entry => True
  | .found _ => s.Found i op
  | .opened c | .holding c => s.IsEnd c i op.key.node ∧ s.live c = true
  | .connected => ∃ c, s.connections i op.key.node = some c
  | .awaiting c => s.IsEnd c i op.key.node ∧ s.live c = true ∧ op.isRead = true

/-- The states of `n` nodes whose connections, maps and messages are in order. -/
structure WF (n : Nat) (s : State) : Prop where
  /-- A connection joins two different nodes. -/
  distinct : ∀ e, e.conn < s.nextConn → s.owner e ≠ s.owner e.peer
  bound : ∀ e, e.conn < s.nextConn → s.owner e < n
  /-- Nothing has happened on the connections to come. -/
  fresh : ∀ e, s.nextConn ≤ e.conn →
    s.inbox e = [] ∧ s.handler e = .idle ∧ s.replies e = [] ∧ s.live e = false
  connections : ∀ i j e, s.connections i j = some e → s.IsEnd e i j ∧ s.live e = true
  backlog : ∀ i e p, (e, p) ∈ s.backlog i → s.IsEnd e i p
  accepting : ∀ i e p, s.accepting i = some (e, p) → s.IsEnd e i p ∧ s.live e = true
  /-- A message that calls the store is addressed to the home of its key. -/
  inbox : ∀ e (op : Op), op.message ∈ s.inbox e → op.key.node = s.owner e
  /-- A handler serves the message at the head of its channel, on its own node. -/
  serving : ∀ e ph, s.handler e = .serving ph → ∃ (op : Op) (rest : _),
    s.inbox e = op.message :: rest ∧ (ph = .entry ∨ (∃ t, ph = .found t) ∧ s.Found (s.owner e) op)
  /-- An application is in the phases of its current call. -/
  phase : ∀ i, s.phase i ≠ .entry → ∃ op, currentOp (s.prog i) = some op ∧
    s.PhaseOk i op (s.phase i)
  /-- The keys of a store are those of its node. -/
  items : ∀ i, (s.items i).Home i

/-- The moves of a well-formed state, by the thread that makes them. -/
inductive Move (n : Nat) (s : State) : Action → State → List Event → Prop
  /-- `KVStore::put` of a key of this node. -/
  | putLocal {i k v next} : s.prog i = .put k v next → s.phase i = .entry → k.node = i →
      Move n s (.app i) ((s.putItem i k v).finish i next) [.issue i k v, .apply i i k v]
  /-- `KVStore::get` or `waitAndGet` of a key of this node, under the lock. -/
  | findLocal {i op} : currentOp (s.prog i) = some op → s.phase i = .entry → s.Found i op →
      Move n s (.app i) (s.setPhase i (.found (s.version i op.key.k))) []
  /-- `KVStore::get` or `waitAndGet` of a key of this node, once the lock is released. -/
  | readLocal {i op v} : currentOp (s.prog i) = some op →
      s.phase i = .found (s.version i op.key.k) → op.key.node = i →
      op.isRead = true → s.lookup i op.key = some v →
      Move n s (.app i) (s.finish i (resume (s.prog i) (some v)))
        [.request i op, .serve i op v, .return i op v]
  /-- The same, of a `Value` deleted by then. -/
  | deletedLocal {i op t v} : currentOp (s.prog i) = some op → s.phase i = .found t →
      s.version i op.key.k ≠ t → s.Found i op →
      Move n s (.appDeleted i (some v)) (s.finish i (resume (s.prog i) (some v)))
        [.request i op, .deleted i op v, .return i op v]
  /-- A failed assertion, other than that of `KVStore::get`, or worse. -/
  | crash {a i} : Move n s a (s.crash i) []
  /-- The failed assertion of `KVStore::get`, called by the application. -/
  | missingLocal {i k} : currentOp (s.prog i) = some (.get k) → s.phase i = .entry → k.node = i →
      s.lookup i k = none → Move n s (.app i) (s.crash i) [.missing i i k]
  | connected {i op c} : currentOp (s.prog i) = some op → s.phase i = .entry → op.key.node ≠ i →
      s.connections i op.key.node = some c → Move n s (.app i) (s.setPhase i .connected) []
  | open {i op} : currentOp (s.prog i) = some op → s.phase i = .entry → op.key.node ≠ i →
      s.connections i op.key.node = none → op.key.node < n → i < n →
      Move n s (.app i) ((s.openConn i op.key.node).setPhase i (.opened s.nextEnd)) []
  | store {i op c} : currentOp (s.prog i) = some op → s.phase i = .opened c →
      Move n s (.app i) ((s.setConnection i op.key.node c).setPhase i .connected) []
  | hold {i op c} : currentOp (s.prog i) = some op → s.phase i = .connected →
      s.connections i op.key.node = some c → Move n s (.app i) (s.setPhase i (.holding c)) []
  | sendPut {i k v next c} : s.prog i = .put k v next → s.phase i = .holding c →
      (Message.put k v).Sendable →
      Move n s (.app i) ((s.send c (.put k v)).finish i next) [.issue i k v]
  | sendRead {i} {op : Op} {c} : currentOp (s.prog i) = some op → s.phase i = .holding c →
      op.isRead = true → s.replies c = [] → op.message.Sendable →
      Move n s (.app i) ((s.send c op.message).setPhase i (.awaiting c)) [.request i op]
  | returned {i op c v} : currentOp (s.prog i) = some op → s.phase i = .awaiting c →
      op.isRead = true → s.replies c = [v] →
      Move n s (.app i) ((s.setReplies c []).finish i (resume (s.prog i) (some v)))
        [.return i op v]
  | recvReply {e v rest} : s.handler e = .idle → s.inbox e = .reply v :: rest →
      Move n s (.handler e) ((s.setInbox e rest).setReplies e (s.replies e ++ [v])) []
  | recv {e} {op : Op} {rest} : s.handler e = .idle → s.inbox e = op.message :: rest →
      Move n s (.handler e) (s.setHandler e (.serving .entry)) []
  | servePut {e k v rest} : s.handler e = .serving .entry → s.inbox e = .put k v :: rest →
      k.node = s.owner e →
      Move n s (.handler e) (((s.putItem (s.owner e) k v).setInbox e rest).setHandler e .idle)
        [.apply (s.owner e.peer) (s.owner e) k v]
  | find {e} {op : Op} {rest} : s.handler e = .serving .entry → s.inbox e = op.message :: rest →
      s.Found (s.owner e) op →
      Move n s (.handler e) (s.setHandler e (.serving (.found (s.version (s.owner e) op.key.k)))) []
  | serveRead {e} {op : Op} {v rest} :
      s.handler e = .serving (.found (s.version (s.owner e) op.key.k)) →
      s.inbox e = op.message :: rest → op.isRead = true → op.key.node = s.owner e →
      s.lookup (s.owner e) op.key = some v →
      Move n s (.handler e) ((s.setInbox e rest).setHandler e (.replying v))
        [.serve (s.owner e.peer) op v]
  | serveDeleted {e} {op : Op} {t v rest} : s.handler e = .serving (.found t) →
      s.inbox e = op.message :: rest → s.version (s.owner e) op.key.k ≠ t →
      s.Found (s.owner e) op →
      Move n s (.handlerDeleted e (some v)) ((s.setInbox e rest).setHandler e (.replying v))
        [.deleted (s.owner e.peer) op v]
  /-- The failed assertion of `KVStore::get`, called by a handler. -/
  | missing {e k rest} : s.handler e = .serving .entry → s.inbox e = .get k :: rest →
      k.node = s.owner e → s.lookup (s.owner e) k = none →
      Move n s (.handler e) (s.crash (s.owner e)) [.missing (s.owner e.peer) (s.owner e) k]
  | reply {e v} : s.handler e = .replying v → v ≠ [] →
      Move n s (.handler e) ((s.send e (.reply v)).setHandler e .idle) []
  | accept {i c p rest} : s.accepting i = none → s.backlog i = (c, p) :: rest →
      Move n s (.accept i) ((s.startConn i c rest).setAccepting i (some (c, p))) []
  | acceptStore {i c p} : s.accepting i = some (c, p) →
      Move n s (.accept i) ((s.setConnection i p c).setAccepting i none) []

variable {n : Nat} {s s' : State} {ev : List Event}

/-! ## The code of the threads -/

theorem localOp_cases {who i : Nat} {op : Op} {o : Outcome} (hnode : op.key.node = i)
    (h : localOp who i op s = some (s', o, ev)) :
    (∃ k v, op = .put k v ∧ s' = s.putItem i k v ∧ o = .done none ∧ ev = [.apply who i k v]) ∨
    (s.Found i op ∧ s' = s ∧ o = .go (.found (s.version i op.key.k)) ∧ ev = []) ∨
    (∃ k, op = .get k ∧ s.lookup i k = none ∧ s' = s ∧ o = .fail ∧ ev = [.missing who i k]) := by
  cases op with
  | put k v =>
    simp only [localOp, Option.some.injEq, Prod.mk.injEq] at h
    obtain ⟨rfl, rfl, rfl⟩ := h
    exact .inl ⟨k, v, rfl, rfl, rfl, rfl⟩
  | get k =>
    rw [localOp] at h
    split at h <;> rename_i hl <;> simp only [Option.some.injEq, Prod.mk.injEq] at h <;>
      obtain ⟨rfl, rfl, rfl⟩ := h
    · exact .inr (.inl ⟨⟨rfl, hnode, by rw [Op.key, hl]; rfl⟩, rfl, rfl, rfl⟩)
    · exact .inr (.inr ⟨_, rfl, hl, rfl, rfl, rfl⟩)
  | waitAndGet k =>
    rw [localOp] at h
    split at h <;> rename_i hl <;> simp only [Option.some.injEq, Prod.mk.injEq, reduceCtorEq] at h
    obtain ⟨rfl, rfl, rfl⟩ := h
    exact .inr (.inl ⟨⟨rfl, hnode, by rw [Op.key, hl]; rfl⟩, rfl, rfl, rfl⟩)

theorem cloneOp_cases {who i t : Nat} {op : Op} {o : Outcome}
    (h : cloneOp who i op t s = some (s', o, ev)) :
    ∃ v, s.version i op.key.k = t ∧ s.lookup i op.key = some v ∧ s' = s ∧ o = .done (some v) ∧
      ev = [.serve who op v] := by
  rw [cloneOp] at h
  split_ifs at h with ht
  obtain ⟨v, hv, heq⟩ := Option.map_eq_some_iff.1 h
  simp only [Prod.mk.injEq] at heq
  obtain ⟨rfl, rfl, rfl⟩ := heq
  exact ⟨v, ht, hv, rfl, rfl, rfl⟩

theorem deletedOp_cases {who i : Nat} {op : Op} {w : Option Value} {ph : Phase} {o : Outcome}
    (h : deletedOp who i op w s ph = some (s', o, ev)) :
    ∃ t, ph = .found t ∧ s.version i op.key.k ≠ t ∧ s' = s ∧
      ((∃ v, w = some v ∧ o = .done (some v) ∧ ev = [.deleted who op v]) ∨ o = .fail ∧
        ev = []) := by
  cases ph with
  | found t =>
    simp only [deletedOp, Option.ite_none_left_eq_some] at h
    obtain ⟨ht, h⟩ := h
    cases w with
    | some v =>
      simp only [Option.some.injEq, Prod.mk.injEq] at h
      obtain ⟨rfl, rfl, rfl⟩ := h
      exact ⟨t, rfl, ht, rfl, .inl ⟨v, rfl, rfl, rfl⟩⟩
    | none =>
      simp only [Option.some.injEq, Prod.mk.injEq] at h
      obtain ⟨rfl, rfl, rfl⟩ := h
      exact ⟨t, rfl, ht, rfl, .inr ⟨rfl, rfl⟩⟩
  | _ => cases h

theorem currentOp_ne_fail {p : Prog Key Value Unit} {op : Op} (h : currentOp p = some op) :
    p ≠ .fail ∧ ∀ a, p ≠ .ret a := by
  cases p <;> simp_all [currentOp]

theorem currentOp_put {p : Prog Key Value Unit} {k : Key} {v : Value}
    (h : currentOp p = some (.put k v)) : ∃ next, p = .put k v next := by
  cases p <;> simp_all [currentOp]

/-- A move of an application that does not crash: inside a call. -/
theorem appStep_of_currentOp {i : Nat} {op : Op} (hop : currentOp (s.prog i) = some op)
    (h : appStep n i s = some (s', ev)) :
    ∃ r, kvStep n i i op s (s.phase i) = some r ∧
      s' = (appAfter i op s r).1 ∧ ev = (appAfter i op s r).2 := by
  rw [appStep] at h
  obtain ⟨hf, hr⟩ := currentOp_ne_fail hop
  split at h
  · exact absurd ‹_› (hr _)
  · exact absurd ‹_› hf
  · simp only [hop, Option.bind_eq_bind, Option.bind_some, Option.pure_def,
      Option.bind_eq_some_iff, Option.some.injEq] at h
    obtain ⟨r, hr, heq⟩ := h
    exact ⟨r, hr, by rw [heq], by rw [heq]⟩

/-- The call of an application that has found its key. -/
theorem WF.found (wf : WF n s) {i t : Nat} {op : Op} (hop : currentOp (s.prog i) = some op)
    (hph : s.phase i = .found t) : s.Found i op := by
  obtain ⟨op', hop', hok⟩ := wf.phase i (by simp [hph])
  obtain rfl : op = op' := Option.some.inj (hop.symm.trans hop')
  rwa [hph] at hok

theorem appStep_move {i : Nat} (wf : WF n s) (hi : i < n) (h : appStep n i s = some (s', ev)) :
    Move n s (.app i) s' ev := by
  cases hop : currentOp (s.prog i) with
  | none =>
    rw [appStep] at h
    split at h
    · cases h
    · simp only [Option.some.injEq, Prod.mk.injEq] at h
      obtain ⟨rfl, rfl⟩ := h
      exact .crash
    · simp [hop] at h
  | some op =>
    obtain ⟨⟨t, o, ev'⟩, hk, rfl, rfl⟩ := appStep_of_currentOp hop h
    cases hph : s.phase i with
    | entry =>
      rw [hph, kvStep] at hk
      by_cases hnode : op.key.node = i
      · rw [if_pos hnode] at hk
        rcases localOp_cases hnode hk with ⟨k, v, rfl, rfl, rfl, rfl⟩ | ⟨hfound, rfl, rfl, rfl⟩ |
          ⟨k, rfl, hl, rfl, rfl, rfl⟩
        · obtain ⟨next, hp⟩ := currentOp_put hop
          simp only [appAfter, appEvents, hp, resume]
          exact .putLocal hp hph hnode
        · exact .findLocal hop hph hfound
        · exact .missingLocal hop hph hnode hl
      · cases hc : s.connections i op.key.node with
        | some c =>
          simp only [if_neg hnode, connectToNode, hc, Option.some.injEq, Prod.mk.injEq] at hk
          obtain ⟨rfl, rfl, rfl⟩ := hk
          exact .connected hop hph hnode hc
        | none =>
          by_cases hlt : op.key.node < n <;>
            simp only [if_neg hnode, connectToNode, hc, hlt, if_true, if_false, Option.some.injEq,
              Prod.mk.injEq] at hk <;> obtain ⟨rfl, rfl, rfl⟩ := hk
          · exact .open hop hph hnode hc hlt hi
          · exact .crash
    | found u =>
      rw [hph, kvStep] at hk
      obtain ⟨v, rfl, hl, rfl, rfl, rfl⟩ := cloneOp_cases hk
      have hfound := wf.found hop hph
      simp only [appAfter, appEvents, hph, List.cons_append, List.nil_append]
      exact .readLocal hop hph hfound.node hfound.isRead hl
    | opened c =>
      simp only [hph, kvStep, Option.some.injEq, Prod.mk.injEq] at hk
      obtain ⟨rfl, rfl, rfl⟩ := hk
      exact .store hop hph
    | connected =>
      rw [hph, kvStep] at hk
      split at hk <;> simp only [Option.some.injEq, Prod.mk.injEq] at hk <;>
        obtain ⟨rfl, rfl, rfl⟩ := hk
      · exact .hold hop hph ‹_›
      · exact .crash
    | holding c =>
      simp only [hph, kvStep, Option.some.injEq, Prod.mk.injEq] at hk
      cases op with
      | put k v =>
        obtain ⟨next, hp⟩ := currentOp_put hop
        rw [sendOp] at hk
        split_ifs at hk with hs <;> obtain ⟨rfl, rfl, rfl⟩ := hk
        · simp only [appAfter, appEvents, hp, resume]
          exact .sendPut hp hph hs
        · exact .crash
      | get k | waitAndGet k =>
        rw [sendOp] at hk
        split_ifs at hk with hr <;> obtain ⟨rfl, rfl, rfl⟩ := hk
        · exact .sendRead hop hph rfl hr.1 hr.2
        · exact .crash
    | awaiting c =>
      obtain ⟨op', hop', _, _, hr⟩ : ∃ op, currentOp (s.prog i) = some op ∧
          s.PhaseOk i op (.awaiting c) :=
        hph ▸ wf.phase i (by simp [hph])
      obtain rfl : op = op' := Option.some.inj (hop.symm.trans hop')
      rw [hph, kvStep, Option.map_eq_some_iff] at hk
      obtain ⟨⟨t', o'⟩, hp, hk⟩ := hk
      simp only [Prod.mk.injEq] at hk
      obtain ⟨rfl, rfl, rfl⟩ := hk
      rw [processReply] at hp
      split at hp
      · cases hp
      · simp only [Option.some.injEq, Prod.mk.injEq] at hp
        obtain ⟨rfl, rfl⟩ := hp
        simp only [appAfter, appEvents, hph, List.nil_append]
        exact .returned hop hph hr ‹_›
      · simp only [Option.some.injEq, Prod.mk.injEq] at hp
        obtain ⟨rfl, rfl⟩ := hp
        exact .crash

theorem handlerStep_move {e : EndId} (wf : WF n s) (h : handlerStep n e s = some (s', ev)) :
    Move n s (.handler e) s' ev := by
  cases hh : s.handler e with
  | idle =>
    rw [handlerStep, hh] at h
    dsimp only at h
    split at h
    · cases h
    · simp only [Option.some.injEq, Prod.mk.injEq] at h
      obtain ⟨rfl, rfl⟩ := h
      exact .recvReply hh ‹_›
    · rename_i m rest hrep hin
      simp only [Option.some.injEq, Prod.mk.injEq] at h
      obtain ⟨rfl, rfl⟩ := h
      cases m with
      | put k v => exact .recv hh (show _ = (Op.put k v).message :: rest from hin)
      | get k => exact .recv hh (show _ = (Op.get k).message :: rest from hin)
      | waitAndGet k => exact .recv hh (show _ = (Op.waitAndGet k).message :: rest from hin)
      | reply v => exact absurd rfl (hrep v)
  | serving ph =>
    -- the message is addressed to this node, so the call is a local one
    obtain ⟨op, rest, hin, hph⟩ := wf.serving e ph hh
    have hnode : op.key.node = s.owner e := wf.inbox e op (by rw [hin]; exact List.mem_cons_self)
    rw [handlerStep, hh] at h
    simp only [hin, List.head?_cons, Option.bind_eq_bind, Option.bind_some, Op.message_op?,
      Option.bind_eq_some_iff, Option.pure_def, Option.some.injEq] at h
    obtain ⟨⟨t, o, ev'⟩, hk, h⟩ := h
    rcases hph with rfl | ⟨⟨u, rfl⟩, hfound⟩
    · rw [kvStep, if_pos hnode] at hk
      rcases localOp_cases hnode hk with ⟨k, v, rfl, rfl, rfl, rfl⟩ | ⟨hfound, rfl, rfl, rfl⟩ |
        ⟨k, rfl, hl, rfl, rfl, rfl⟩ <;>
        simp only [handlerAfter, Prod.mk.injEq] at h <;> obtain ⟨rfl, rfl⟩ := h
      · rw [show ((s.putItem (s.owner e) k v).inbox e).tail = rest by simp [State.putItem, hin]]
        exact .servePut hh hin hnode
      · exact .find hh hin hfound
      · exact .missing hh hin hnode hl
    · obtain ⟨v, rfl, hl, rfl, rfl, rfl⟩ := cloneOp_cases hk
      simp only [handlerAfter, Prod.mk.injEq, hin, List.tail_cons] at h
      obtain ⟨rfl, rfl⟩ := h
      exact .serveRead hh hin hfound.isRead hnode hl
  | replying v =>
    rw [handlerStep, hh] at h
    dsimp only at h
    split_ifs at h with hv <;> simp only [Option.some.injEq, Prod.mk.injEq] at h <;>
      obtain ⟨rfl, rfl⟩ := h
    · exact .reply hh hv
    · exact .crash

theorem appDeletedStep_move {i : Nat} {w : Option Value} (wf : WF n s)
    (h : appDeletedStep i w s = some (s', ev)) : Move n s (.appDeleted i w) s' ev := by
  simp only [appDeletedStep, Option.bind_eq_bind, Option.bind_eq_some_iff, Option.pure_def,
    Option.some.injEq] at h
  obtain ⟨op, hop, ⟨t, o, ev'⟩, hk, h⟩ := h
  obtain ⟨u, hph, hu, rfl, ⟨v, rfl, rfl, rfl⟩ | ⟨rfl, rfl⟩⟩ := deletedOp_cases hk
  · simp only [appAfter, appEvents, hph, List.cons_append, List.nil_append, Prod.mk.injEq] at h
    obtain ⟨rfl, rfl⟩ := h
    exact .deletedLocal hop hph hu (wf.found hop hph)
  · simp only [appAfter, appEvents, Prod.mk.injEq] at h
    obtain ⟨rfl, rfl⟩ := h
    exact .crash

theorem handlerDeletedStep_move {e : EndId} {w : Option Value} (wf : WF n s)
    (h : handlerDeletedStep e w s = some (s', ev)) : Move n s (.handlerDeleted e w) s' ev := by
  rw [handlerDeletedStep] at h
  split at h
  · rename_i ph hh
    obtain ⟨op, rest, hin, hph⟩ := wf.serving e ph hh
    simp only [hin, List.head?_cons, Option.bind_eq_bind, Option.bind_some, Op.message_op?,
      Option.bind_eq_some_iff, Option.pure_def, Option.some.injEq] at h
    obtain ⟨⟨t, o, ev'⟩, hk, h⟩ := h
    obtain ⟨u, rfl, hu, rfl, ⟨v, rfl, rfl, rfl⟩ | ⟨rfl, rfl⟩⟩ := deletedOp_cases hk
    · simp only [handlerAfter, Prod.mk.injEq, hin, List.tail_cons] at h
      obtain ⟨rfl, rfl⟩ := h
      exact .serveDeleted hh hin hu (hph.resolve_left Phase.noConfusion).2
    · simp only [handlerAfter, Prod.mk.injEq] at h
      obtain ⟨rfl, rfl⟩ := h
      exact .crash
  · cases h

theorem acceptStep_move {i : Nat} (h : acceptStep i s = some (s', ev)) :
    Move n s (.accept i) s' ev := by
  rw [acceptStep] at h
  split at h
  · simp only [Option.some.injEq, Prod.mk.injEq] at h
    obtain ⟨rfl, rfl⟩ := h
    exact .acceptStore ‹_›
  · split at h
    · cases h
    · simp only [Option.some.injEq, Prod.mk.injEq] at h
      obtain ⟨rfl, rfl⟩ := h
      exact .accept ‹_› ‹_›

/-- A move of a thread of a well-formed state. -/
theorem step_move {a : Action} (wf : WF n s) (h : step n a s = some (s', ev)) :
    Move n s a s' ev := by
  cases a with
  | app i =>
    rw [step] at h
    split at h
    · exact appStep_move wf (by tauto) h
    · cases h
  | handler e =>
    rw [step] at h
    split at h
    · exact handlerStep_move wf h
    · cases h
  | accept i =>
    rw [step] at h
    split at h
    · exact acceptStep_move h
    · cases h
  | appDeleted i w =>
    rw [step] at h
    split at h
    · exact appDeletedStep_move wf h
    · cases h
  | handlerDeleted e w =>
    rw [step] at h
    split at h
    · exact handlerDeletedStep_move wf h
    · cases h

end Eau2.Network

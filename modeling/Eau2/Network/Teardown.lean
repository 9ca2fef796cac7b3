import Eau2.Network.Invariant

/-!
# Teardown

A process starts its application, waits for `run()` to return, and destroys it:
`~Application` stops the `NetworkIfc` of the node and waits for its thread. That
thread leaves the accept loop; at the controller it sends `KILL` on every
connection; then it stops the connections of the node one by one, waiting for
their handlers to leave `Connection::run`. A handler that receives `KILL` leaves
as well.

The nodes move as before (`Network.step`), under the flags `keep_processing_`:
a thread tests its flag at the head of its loop, and then looks once for
something to receive. The sockets stay open, as they do until the `NetworkIfc` is
destroyed.

Nobody tells the controller, or any other node, that its keys are still needed:
an application can be left waiting for a reply that no handler will send
(`Stranded`, `not_stranded_fails`). It takes a node that is destroyed before the
others are done with it (`Orderly`, `not_stranded_of_run`).
-/

namespace Eau2.Teardown

open Network Function

/-- Where the thread of a `NetworkIfc` stands in `NetworkIfc::run`, after the
    registration phase. `left` has the nodes that a loop over `connections_` has yet
    to come to. -/
inductive Loop
  /-- About to test `keep_processing_`. -/
  | testing
  /-- Looking for a new connection, or storing it. -/
  | accepting
  /-- In `broadcast_(&kill_msg)`. -/
  | killing (left : List Nat)
  /-- In the loop ending the connections. -/
  | ending (left : List Nat)
  /-- There, in the `join` of the connection with the node `j`. -/
  | joining (j : Nat) (left : List Nat)
  | over
  deriving DecidableEq

/-- The state of the nodes, with what their teardown has come to. -/
structure State where
  net : Network.State
  /-- `keep_processing_` of the `NetworkIfc` of a node is no longer set. -/
  stopped : Nat → Bool
  loop : Nat → Loop
  /-- `Connection::keep_processing_`. -/
  keep : EndId → Bool
  /-- The handler has passed the test of `keep_processing_`, and has not come back to it. -/
  receiving : EndId → Bool
  /-- The handler has left the loop of `Connection::run`. -/
  left : EndId → Bool
  /-- A `KILL` is on its way to an end, behind so many messages of its `inbox`. -/
  kill : EndId → Option Nat

/-- The threads that move: those of the running nodes; the main thread of a process,
    destroying its application; the thread of a `NetworkIfc`, coming to the entry `j` if
    it goes through `connections_`; a handler, testing its flag, finding nothing to
    receive, or receiving `KILL`. -/
inductive Action
  | net (a : Network.Action)
  | destroy (i : Nat)
  | loop (i j : Nat)
  | handler (e : EndId)
  deriving DecidableEq

/-- The nodes with an entry in `connections_` of the node `i`. -/
def peers (n : Nat) (s : Network.State) (i : Nat) : List Nat :=
  (List.range n).filter fun j => (s.connections i j).isSome

/-- Whether the thread may make a move of the running nodes: a handler has to pass
    the test before it receives, and `KILL` is not for `handle_message_` of the store; the
    accept loop is not left. -/
def mayMove (s : State) : Network.Action → Bool
  | .app _ | .appDeleted _ _ => true
  | .handler e | .handlerDeleted e _ => s.net.handler e ≠ .idle ∨ s.receiving e ∧ s.kill e ≠ some 0
  | .accept i => s.loop i = .accepting

/-- A move of the running nodes: the messages that leave a channel are no longer
    ahead of its `KILL`, and a handler or an accept loop that is done with what it has
    received goes back to the test. -/
def moved (s : State) (t : Network.State) : Network.Action → State
  | .app _ | .appDeleted _ _ => { s with net := t }
  | .handler e | .handlerDeleted e _ =>
    { s with
      net := t
      receiving := update s.receiving e (s.receiving e && t.handler e ≠ .idle)
      kill := update s.kill e
        ((s.kill e).map (· - ((s.net.inbox e).length - (t.inbox e).length))) }
  | .accept i =>
    { s with
      net := t
      loop := update s.loop i (if t.accepting i = none then .testing else .accepting) }

/-- `~Application`: `stop()`, once `run()` has returned. -/
def destroy (i : Nat) (s : State) : Option State :=
  match s.net.prog i with
  | .ret _ => some { s with stopped := update s.stopped i true }
  | _ => none

/-- A move of the thread of the `NetworkIfc`, other than accepting a connection. -/
def loopStep (n i j : Nat) (s : State) : Option State :=
  let go (s : State) (l : Loop) : Option State := some { s with loop := update s.loop i l }
  match s.loop i with
  | .testing =>
    if s.stopped i = false then go s .accepting
    else if i = 0 then go s (.killing (peers n s.net i))
    else go s (.ending (peers n s.net i))
  | .accepting =>
    if s.net.accepting i = none ∧ s.net.backlog i = [] then go s .testing else none
  | .killing [] => go s (.ending (peers n s.net i))
  | .killing left => do
    let c ← s.net.connections i j
    if j ∈ left then
      go { s with kill := update s.kill c.peer (some (s.net.inbox c.peer).length) }
        (.killing (left.erase j))
    else none
  | .ending [] => go s .over
  | .ending left => do
    let c ← s.net.connections i j
    if j ∈ left then go { s with keep := update s.keep c false } (.joining j (left.erase j))
    else none
  | .joining j left => do
    let c ← s.net.connections i j
    if s.left c = true then go s (.ending left) else none
  | .over => none

/-- A move of the handler of `e` at the head of its loop. -/
def handlerStep (e : EndId) (s : State) : Option State :=
  if s.net.handler e ≠ .idle ∨ s.left e = true then none
  else if s.receiving e = false then
    if s.keep e = true then some { s with receiving := update s.receiving e true }
    else some { s with left := update s.left e true }
  else if s.kill e = some 0 then
    -- `handle_message_` of `KILL`
    some { s with
      keep := update s.keep e false
      receiving := update s.receiving e false
      kill := update s.kill e none }
  else if s.net.inbox e = [] then some { s with receiving := update s.receiving e false }
  else none

/-- The moves of the `n` nodes. -/
def step (n : Nat) : Action → State → Option (State × List Event)
  | .net a, s =>
    if mayMove s a then (Network.step n a s.net).map fun (t, ev) => (moved s t a, ev) else none
  | .destroy i, s =>
    if i < n ∧ s.net.crashed i = false then (destroy i s).map (·, []) else none
  | .loop i j, s =>
    if i < n ∧ s.net.crashed i = false then (loopStep n i j s).map (·, []) else none
  | .handler e, s =>
    if s.net.live e = true ∧ s.net.crashed (s.net.owner e) = false then
      (handlerStep e s).map (·, [])
    else none

/-- The state after the registration phase. -/
def init (n : Nat) (progs : Nat → Prog Key Value Unit) : State where
  net := Network.init n progs
  stopped _ := false
  loop _ := .testing
  keep _ := true
  receiving _ := false
  left _ := false
  kill _ := none

/-- The runs of `n` nodes on the programs `progs`, each of which is destroyed when it
    has returned. -/
abbrev Run (n : Nat) (progs : Nat → Prog Key Value Unit) : List Event → State → Prop :=
  Trace.Run (step n) (fun _ _ => True) (init n progs)

/-! ## Waiting for a reply -/

/-- The application of the node `j` waits in `process_reply_(c)`, or is about to. -/
def Waits (s : Network.State) (j : Nat) (c : EndId) : Prop :=
  ∃ op, currentOp (s.prog j) = some op ∧ op.isRead = true ∧
    (s.phase j = .opened c ∨ s.phase j = .connected ∧ s.connections j op.key.node = some c ∨
      s.phase j = .holding c ∨ s.phase j = .awaiting c ∧ s.replies c = [])

/-- The application of the node `j` waits, or is about to wait, for a reply on a
    connection one of whose handlers has left its loop. -/
def Stranded (s : State) (j : Nat) : Prop :=
  ∃ c, Waits s.net j c ∧ (s.left c = true ∨ s.left c.peer = true)

/-- The application of the node `j` is inside a `get` or `waitAndGet` of a key of another
    node `i`, and has got no reply so far. -/
def Asks (s : Network.State) (j i : Nat) : Prop :=
  ∃ op, currentOp (s.prog j) = some op ∧ op.isRead = true ∧ op.key.node = i ∧ i ≠ j ∧
    s.phase j ≠ .entry ∧ ∀ c, s.phase j = .awaiting c → s.replies c = []

/-- An application is destroyed when nobody asks it for anything, and is asked for
    nothing once it is destroyed. -/
def Orderly : Action → State → Prop
  | .destroy i, s => ∀ j, ¬Asks s.net j i
  | .net (.app j), s => s.net.phase j = .entry → ∀ op, currentOp (s.net.prog j) = some op →
      op.isRead = true → op.key.node ≠ j → s.stopped op.key.node = false
  | _, _ => True

variable {n : Nat} {s s' : State} {a : Action} {ev l : List Event}
  {progs : Nat → Prog Key Value Unit}

/-! ## The moves -/

/-- The moves, by what they do to the flags. -/
inductive Move (n : Nat) (s : State) : Action → State → List Event → Prop
  | net {a : Network.Action} {t : Network.State} {ev : List Event} : mayMove s a = true →
      Network.step n a s.net = some (t, ev) → Move n s (.net a) (moved s t a) ev
  | destroy {i : Nat} : s.net.prog i = .ret () →
      Move n s (.destroy i) { s with stopped := update s.stopped i true } []
  /-- The accept loop goes on. -/
  | again {i j : Nat} {l : Loop} : l = .testing ∨ l = .accepting →
      Move n s (.loop i j) { s with loop := update s.loop i l } []
  /-- The accept loop is left, or the thread goes on with the teardown. -/
  | leave {i j : Nat} {l : Loop} :
      s.stopped i = true ∨ s.loop i ≠ .testing ∧ s.loop i ≠ .accepting →
      Move n s (.loop i j) { s with loop := update s.loop i l } []
  | sendKill {i j : Nat} {c : EndId} {l : Loop} : s.loop i ≠ .testing ∧ s.loop i ≠ .accepting →
      s.net.connections i j = some c →
      Move n s (.loop i j)
        { s with
          kill := update s.kill c.peer (some (s.net.inbox c.peer).length)
          loop := update s.loop i l } []
  | stop {i j : Nat} {c : EndId} {l : Loop} : s.loop i ≠ .testing ∧ s.loop i ≠ .accepting →
      s.net.connections i j = some c →
      Move n s (.loop i j)
        { s with keep := update s.keep c false, loop := update s.loop i l } []
  /-- A handler goes through the head of its loop. -/
  | receiving {e : EndId} {b : Bool} :
      Move n s (.handler e) { s with receiving := update s.receiving e b } []
  | left {e : EndId} : s.keep e = false →
      Move n s (.handler e) { s with left := update s.left e true } []
  | recvKill {e : EndId} : s.kill e = some 0 →
      Move n s (.handler e)
        { s with
          keep := update s.keep e false
          receiving := update s.receiving e false
          kill := update s.kill e none } []

theorem loopStep_move {i j : Nat} (h : loopStep n i j s = some s') :
    Move n s (.loop i j) s' [] := by
  rw [loopStep] at h
  dsimp only at h
  split at h
  next hl =>
    split_ifs at h with hs h0 <;> cases h
    · exact .again (.inr rfl)
    · exact .leave (.inl (by simpa using hs))
    · exact .leave (.inl (by simpa using hs))
  next hl =>
    split_ifs at h
    cases h
    exact .again (.inl rfl)
  next hl =>
    cases h
    exact .leave (.inr (by simp [hl]))
  next left hne hl =>
    obtain ⟨c, hc, h⟩ := Option.bind_eq_some_iff.1 h
    split_ifs at h
    cases h
    exact .sendKill (by simp [hl]) hc
  next hl =>
    cases h
    exact .leave (.inr (by simp [hl]))
  next left hne hl =>
    obtain ⟨c, hc, h⟩ := Option.bind_eq_some_iff.1 h
    split_ifs at h
    cases h
    exact .stop (by simp [hl]) hc
  next j' left hl =>
    obtain ⟨c, hc, h⟩ := Option.bind_eq_some_iff.1 h
    split_ifs at h
    cases h
    exact .leave (.inr (by simp [hl]))
  next => cases h

theorem handlerStep_move {e : EndId} (h : handlerStep e s = some s') :
    Move n s (.handler e) s' [] := by
  rw [handlerStep] at h
  split_ifs at h with hidle hrecv hkeep hkill hin <;> cases h
  · exact .receiving
  · exact .left (by simpa using hkeep)
  · exact .recvKill hkill
  · exact .receiving

theorem step_move (h : step n a s = some (s', ev)) : Move n s a s' ev := by
  have quiet {f : Option State} {c : Prop} [Decidable c]
      (h : (if c then f.map (·, ([] : List Event)) else none) = some (s', ev)) :
      f = some s' ∧ ev = [] := by
    split_ifs at h
    obtain ⟨t, ht, heq⟩ := Option.map_eq_some_iff.1 h
    cases heq
    exact ⟨ht, rfl⟩
  cases a with
  | net a =>
    rw [step] at h
    split_ifs at h with hm
    obtain ⟨⟨t, ev⟩, ht, heq⟩ := Option.map_eq_some_iff.1 h
    cases heq
    exact .net hm ht
  | destroy i =>
    obtain ⟨hd, rfl⟩ := quiet h
    rw [destroy] at hd
    split at hd <;> cases hd
    exact .destroy ‹_›
  | loop i j =>
    obtain ⟨hl, rfl⟩ := quiet h
    exact loopStep_move hl
  | handler e =>
    obtain ⟨hl, rfl⟩ := quiet h
    exact handlerStep_move hl

theorem moved_net (s : State) (t : Network.State) (b : Network.Action) : (moved s t b).net = t := by
  cases b <;> rfl

theorem moved_stopped (s : State) (t : Network.State) (b : Network.Action) :
    (moved s t b).stopped = s.stopped := by
  cases b <;> rfl

/-- The nodes make a run of the nodes that are never torn down. -/
theorem net_run {ok : Action → State → Prop} (h : Trace.Run (step n) ok (init n progs) l s) :
    Network.Run n progs l s.net := by
  induction h with
  | refl => exact .refl
  | move _ _ hs ih =>
    cases step_move hs with
    | net _ ht => exact moved_net .. ▸ .move ih trivial ht
    | _ => rwa [List.append_nil]

/-! ## The invariant -/

/-- An application that has returned does not move any more. -/
theorem prog_ret {t t' : Network.State} {b : Network.Action}
    (h : Network.Move n t b t' ev) {i : Nat} (hi : t.prog i = .ret ()) : t'.prog i = .ret () := by
  have go {j : Nat} {p : Prog Key Value Unit} (hj : t.prog j ≠ .ret ()) :
      update t.prog j p i = .ret () := by
    have hij : i ≠ j := by
      rintro rfl
      exact hj hi
    rwa [update_of_ne hij]
  cases h with
  | putLocal hp | sendPut hp => exact go (by simp [hp])
  | readLocal hop | deletedLocal hop | returned hop => exact go ((currentOp_ne_fail hop).2 ())
  | _ => exact hi

/-- A call that asks another node has either begun with this move, or asked before. -/
theorem asks_of_move {t t' : Network.State} {b : Network.Action} (wf : WF n t)
    (h : Network.Move n t b t' ev) {j i : Nat} (ha : Asks t' j i) :
    Asks t j i ∨ b = .app j ∧ t.phase j = .entry ∧ ∃ op, currentOp (t.prog j) = some op ∧
      op.isRead = true ∧ op.key.node ≠ j ∧ op.key.node = i := by
  obtain ⟨op, hop, hread, hnode, hij, hph, hrep⟩ := ha
  -- a call that is over leaves its application at the head of the next one
  have finish {k : Nat} {p : Prog Key Value Unit} (hprog : t'.prog = update t.prog k p)
      (hphase : t'.phase = update t.phase k .entry)
      (hreplies : ∀ c, t.phase j = .awaiting c → j ≠ k → t'.replies c = t.replies c) :
        Asks t j i := by
    have hjk : j ≠ k := by
      rintro rfl
      exact hph (by rw [hphase, update_self])
    rw [hprog, update_of_ne hjk] at hop
    rw [hphase, update_of_ne hjk] at hph hrep
    exact ⟨op, hop, hread, hnode, hij, hph, fun c hc => hreplies c hc hjk ▸ hrep c hc⟩
  -- a call that goes on was not waiting for its reply
  have go {k : Nat} {ph : Phase} (hprog : t'.prog = t.prog)
      (hphase : t'.phase = update t.phase k ph)
      (hreplies : t'.replies = t.replies) (hk : ∀ c, t.phase k ≠ .awaiting c) :
      Asks t j i ∨ j = k ∧ t.phase j = .entry := by
    rw [hprog] at hop
    rw [hphase, hreplies] at hrep
    rw [hphase] at hph
    by_cases hjk : j = k
    · subst hjk
      by_cases he : t.phase j = .entry
      · exact .inr ⟨rfl, he⟩
      · exact .inl ⟨op, hop, hread, hnode, hij, he, fun c hc => absurd hc (hk c)⟩
    · rw [update_of_ne hjk] at hph hrep
      exact .inl ⟨op, hop, hread, hnode, hij, hph, hrep⟩
  cases h with
  | putLocal | readLocal | deletedLocal | sendPut => exact .inl (finish rfl rfl fun _ _ _ => rfl)
  | findLocal hop' hph' hf =>
    rcases go rfl rfl rfl (by simp [hph']) with h | ⟨rfl, -⟩
    · exact .inl h
    · -- the key is one of this node
      obtain rfl := Option.some.inj (hop'.symm.trans hop)
      exact absurd (hnode.symm.trans hf.node) hij
  | @returned k op' c v hop' hph' =>
    refine .inl (finish rfl rfl fun c' hc' hjk => update_of_ne ?_ _ _)
    rintro rfl
    exact hjk ((wf.owner_of_awaiting hc').symm.trans (wf.owner_of_awaiting hph'))
  | @connected k op' c hop' hph' hne | @«open» k op' hop' hph' hne =>
    rcases go rfl rfl rfl (by simp [hph']) with h | ⟨rfl, he⟩
    · exact .inl h
    · obtain rfl : op' = op := Option.some.inj (hop'.symm.trans hop)
      exact .inr ⟨rfl, he, op', hop', hread, hne, hnode⟩
  | store hop' hph' | hold hop' hph' | sendRead hop' hph' =>
    rcases go rfl rfl rfl (by simp [hph']) with h | ⟨rfl, he⟩
    · exact .inl h
    · simp [hph'] at he
  | @recvReply e v rest =>
    refine .inl ⟨op, hop, hread, hnode, hij, hph, fun c hc => ?_⟩
    have hnil := hrep c hc
    by_cases hce : c = e
    · subst hce
      simp at hnil
    · simpa [hce] using hnil
  | _ => exact .inl ⟨op, hop, hread, hnode, hij, hph, hrep⟩

/-- What the teardown of a node has come to affects the connections of the node only. -/
structure Inv (s : State) : Prop where
  returned : ∀ i, s.stopped i = true → s.net.prog i = .ret ()
  loop : ∀ i, s.loop i ≠ .testing → s.loop i ≠ .accepting → s.stopped i = true
  left : ∀ e, s.left e = true → s.keep e = false
  /-- A handler that is stopped, or told to, belongs to a connection of a stopped node. -/
  closing : ∀ e, s.keep e = false ∨ s.kill e ≠ none → e.conn < s.net.nextConn ∧
    (s.stopped (s.net.owner e) = true ∨ s.stopped (s.net.owner e.peer) = true)

/-- The flags after a move of the running nodes. -/
theorem Inv.moved {t : Network.State} {b : Network.Action} (hm : mayMove s b = true)
    (h : Network.Move n s.net b t ev) (hs : Inv s) : Inv (moved s t b) := by
  have closing {kill : EndId → Option Nat} (hkill : ∀ e, kill e ≠ none →
      s.kill e ≠ none) (e : EndId) (he : s.keep e = false ∨ kill e ≠ none) : e.conn < t.nextConn ∧
        (s.stopped (t.owner e) = true ∨ s.stopped (t.owner e.peer) = true) := by
    obtain ⟨hlt, hc⟩ := hs.closing e (he.imp_right (hkill e))
    rw [h.grows.owner e hlt, h.grows.owner e.peer hlt]
    exact ⟨hlt.trans_le h.grows.nextConn, hc⟩
  have returned (i : Nat) (hi : s.stopped i = true) : t.prog i = .ret () :=
    prog_ret h (hs.returned i hi)
  cases b with
  | app i | appDeleted i w => exact ⟨returned, hs.loop, hs.left, closing fun _ => id⟩
  | handler e | handlerDeleted e w =>
    refine ⟨returned, hs.loop, hs.left, closing fun e' => ?_⟩
    by_cases he : e' = e
    · simp [he, Teardown.moved]
    · simp [he, Teardown.moved]
  | accept i =>
    refine ⟨returned, fun i' => ?_, hs.left, closing fun _ => id⟩
    by_cases hi : i' = i
    · subst hi
      by_cases hacc : t.accepting i' = none <;> simp [Teardown.moved, hacc]
    · simpa [Teardown.moved, hi] using hs.loop i'

theorem Move.inv (wf : WF n s.net) (h : Move n s a s' ev) (hs : Inv s) : Inv s' := by
  -- a thread that goes on with the teardown belongs to a stopped node
  have loop {i : Nat} {l : Loop} (hi : (l = .testing ∨ l = .accepting) ∨ s.stopped i =
      true) (i' : Nat)
      (ht : update s.loop i l i' ≠ .testing) (ha : update s.loop i l i' ≠ .accepting) :
      s.stopped i' = true := by
    by_cases hii : i' = i
    · subst hii
      rw [update_self] at ht ha
      exact hi.resolve_left (not_or_intro ht ha)
    · rw [update_of_ne hii] at ht ha
      exact hs.loop i' ht ha
  cases h with
  | net hm hstep => exact hs.moved hm (Network.step_move wf hstep)
  | @destroy i hret =>
    have mono {i' : Nat} (h : s.stopped i' = true) : update s.stopped i true i' = true := by
      by_cases hi : i' = i
      · rw [hi, update_self]
      · rwa [update_of_ne hi]
    refine ⟨fun i' hi' => ?_, fun i' ht ha => mono (hs.loop i' ht ha), hs.left,
      fun e he => (hs.closing e he).imp_right (Or.imp mono mono)⟩
    by_cases hi : i' = i
    · exact hi ▸ hret
    · exact hs.returned i' (by simpa [hi] using hi')
  | again hl => exact ⟨hs.returned, loop (.inl hl), hs.left, hs.closing⟩
  | leave hl =>
    exact ⟨hs.returned, loop (.inr (hl.elim id fun h => hs.loop _ h.1 h.2)), hs.left, hs.closing⟩
  | @sendKill i j c l hl hc =>
    have hi := hs.loop i hl.1 hl.2
    have hend := (wf.connections i j c hc).1
    refine ⟨hs.returned, loop (.inr hi), hs.left, fun e he => ?_⟩
    by_cases hce : e = c.peer
    · subst hce
      refine ⟨hend.conn, .inr ?_⟩
      rw [EndId.peer_peer, hend.owner]
      exact hi
    · exact hs.closing e (by simpa [hce] using he)
  | @stop i j c l hl hc =>
    have hi := hs.loop i hl.1 hl.2
    have hend := (wf.connections i j c hc).1
    refine ⟨hs.returned, loop (.inr hi), fun e he => ?_, fun e he => ?_⟩
    · by_cases hce : e = c
      · simp [hce]
      · simpa [hce] using hs.left e he
    · by_cases hce : e = c
      · subst hce
        exact ⟨hend.conn, .inl (hend.owner ▸ hi)⟩
      · exact hs.closing e (by simpa [hce] using he)
  | receiving => exact ⟨hs.returned, hs.loop, hs.left, hs.closing⟩
  | @left e hkeep =>
    refine ⟨hs.returned, hs.loop, fun e' he' => ?_, hs.closing⟩
    by_cases hee : e' = e
    · exact hee ▸ hkeep
    · exact hs.left e' (by simpa [hee] using he')
  | @recvKill e hkill =>
    have he := hs.closing e (.inr (by simp [hkill]))
    refine ⟨hs.returned, hs.loop, fun e' he' => ?_, fun e' he' => ?_⟩
    · by_cases hee : e' = e
      · simp [hee]
      · simpa [hee] using hs.left e' he'
    · by_cases hee : e' = e
      · exact hee ▸ he
      · exact hs.closing e' (by simpa [hee] using he')

theorem inv_of_run {ok : Action → State → Prop} (h : Trace.Run (step n) ok (init n progs) l s) :
    Inv s := by
  refine h.invariant_of (Q := fun _ s => WF n s.net) (fun h => wf_of_run (net_run h)) (fun _ => Inv)
    ⟨?_, ?_, ?_, ?_⟩ fun wf hs _ hstep => (step_move hstep).inv wf hs <;> simp [init]

/-! ## Nobody is stranded -/

/-- No application asks a node whose application is destroyed. -/
theorem Move.asks (wf : WF n s.net) (h : Move n s a s' ev) (hok : Orderly a s)
    (hs : ∀ j i, Asks s.net j i → s.stopped i = false) : ∀ j i, Asks s'.net j i →
    s'.stopped i = false := by
  cases h with
  | @net a t _ hm hstep =>
    intro j i ha
    rw [moved_stopped]
    rw [moved_net] at ha
    rcases asks_of_move wf (Network.step_move wf hstep) ha with ha |
      ⟨rfl, hph, op, hop, hread, hne, rfl⟩
    · exact hs j i ha
    · exact hok hph op hop hread hne
  | @destroy i hret =>
    intro j i' ha
    have hi : i' ≠ i := by
      rintro rfl
      exact hok j ha
    exact (update_of_ne hi _ _).trans (hs j i' ha)
  | _ => exact hs

theorem asks_of_run (h : Trace.Run (step n) Orderly (init n progs) l s) :
    ∀ j i, Asks s.net j i → s.stopped i = false :=
  h.invariant_of (Q := fun _ s => WF n s.net) (fun h => wf_of_run (net_run h))
    (fun _ s => ∀ j i, Asks s.net j i → s.stopped i = false) (fun _ _ _ => rfl)
    fun wf hs hok hstep => (step_move hstep).asks wf hok hs

/-- The connection of a call joins its node with the home of the key. -/
theorem Waits.asks {t : Network.State} (wf : WF n t) {j : Nat} {c : EndId} (h : Waits t j c) :
    ∃ i, t.IsEnd c j i ∧ Asks t j i := by
  obtain ⟨op, hop, hread, hph⟩ := h
  have hend : t.IsEnd c j op.key.node := by
    rcases hph with hph | ⟨hph, hc⟩ | hph | ⟨hph, hrep⟩
    · exact (wf.holding hop (.inr (.inr hph))).1
    · exact (wf.connections j _ c hc).1
    · exact (wf.holding hop (.inl hph)).1
    · exact (wf.holding hop (.inr (.inl hph))).1
  have hij : op.key.node ≠ j := by
    rw [← hend.owner, ← hend.peer]
    exact (wf.distinct c hend.conn).symm
  refine ⟨op.key.node, hend, op, hop, hread, rfl, hij, ?_⟩
  rcases hph with hph | ⟨hph, hc⟩ | hph | ⟨hph, hrep⟩ <;> simp [hph]
  exact hrep

/-- Where applications are destroyed in order, the teardown strands nobody. -/
theorem not_stranded_of_run (h : Trace.Run (step n) Orderly (init n progs) l s) (j : Nat) :
    ¬Stranded s j := by
  rintro ⟨c, hw, hleft⟩
  have hs := inv_of_run h
  obtain ⟨i, hend, ha⟩ := hw.asks (wf_of_run (net_run h))
  have hj : s.stopped j ≠ true := by
    intro hj
    obtain ⟨op, hop, -⟩ := ha
    rw [hs.returned j hj] at hop
    cases hop
  have hi : s.stopped i ≠ true := by simp [asks_of_run h j i ha]
  rcases hleft with hl | hl
  · have hc := (hs.closing c (.inl (hs.left c hl))).2
    rw [hend.owner, hend.peer] at hc
    exact hc.elim hj hi
  · have hc := (hs.closing c.peer (.inl (hs.left _ hl))).2
    rw [EndId.peer_peer, hend.owner, hend.peer] at hc
    exact hc.elim hi hj

/-- The node 0 puts the merged value the node 1 waits for, and returns. -/
def merging : Nat → Prog Key Value Unit
  | 0 => .put ⟨lit "merged", 0⟩ [1] (.ret ())
  | 1 => .waitAndGet ⟨lit "merged", 0⟩ fun _ => .ret ()
  | _ => .ret ()

/-- As long as no application is destroyed, the moves are in order. -/
theorem run_orderly {as : List Action} (hs : ∀ i, s.stopped i = false)
    (has : ∀ a ∈ as, ∀ i, a ≠ .destroy i) (h : Trace.exec (step n) as s = some (s', l)) :
    Trace.Run (step n) Orderly s l s' := by
  induction as generalizing s l with
  | nil =>
    simp only [Trace.exec, Option.some.injEq, Prod.mk.injEq] at h
    obtain ⟨rfl, rfl⟩ := h
    exact .refl
  | cons a as ih =>
    simp only [Trace.exec_cons, Option.bind_eq_some_iff, Option.some.injEq, Prod.mk.injEq] at h
    obtain ⟨⟨t, ev⟩, ht, ⟨u, ev'⟩, hu, rfl, rfl⟩ := h
    have hne := has a List.mem_cons_self
    have hok : Orderly a s := by
      cases a with
      | net b => cases b <;> first | trivial | exact fun _ _ _ _ _ => hs _
      | destroy i => exact absurd rfl (hne i)
      | loop | handler => trivial
    have hstopped : ∀ i, t.stopped i = false := by
      cases step_move ht with
      | net => exact fun i => by rw [moved_stopped]; exact hs i
      | destroy => exact absurd rfl (hne _)
      | _ => exact hs
    have first : Trace.Run (step n) Orderly s ([] ++ ev) t := .move .refl hok ht
    exact first.trans (ih hstopped (fun b hb => has b (List.mem_cons_of_mem _ hb)) hu)

/-- The node 1 gets the merged value and returns, and then both applications are
    destroyed, that of the node 0 first. -/
theorem not_stranded_of_run_merging : ∃ s, Trace.Run (step 2) Orderly (init 2 merging)
      [.request 1 (.waitAndGet ⟨lit "merged", 0⟩), .issue 0 ⟨lit "merged", 0⟩ [1],
        .apply 0 0 ⟨lit "merged", 0⟩ [1], .serve 1 (.waitAndGet ⟨lit "merged", 0⟩) [1],
        .return 1 (.waitAndGet ⟨lit "merged", 0⟩) [1]] s ∧
    s.left ⟨0, false⟩ = true ∧ s.left ⟨0, true⟩ = true ∧ s.loop 0 = .over ∧ s.loop 1 = .over ∧
    ¬Stranded s 1 := by
  -- the node 1 asks before the node 0 puts
  obtain ⟨⟨s, l⟩, hs⟩ : ∃ r, Trace.exec (step 2) [.net (.app 1), .net (.app 1), .net (.app 1),
      .handler ⟨0, true⟩, .net (.handler ⟨0, true⟩), .net (.app 0), .net (.handler ⟨0, true⟩),
      .net (.handler ⟨0, true⟩), .net (.handler ⟨0, true⟩), .handler ⟨0, false⟩,
      .net (.handler ⟨0, false⟩), .net (.app 1)] (init 2 merging) = some r := ⟨_, rfl⟩
  have hrun := run_orderly (n := 2) (fun _ => rfl) (by simp) hs
  cases hs
  have returned {s : State} (h : ∀ j, s.net.prog j = .ret ()) (i : Nat) :
      Orderly (.destroy i) s := by
    rintro j ⟨op, hop, -⟩
    rw [h j] at hop
    cases hop
  have h₁ := hrun.move (a := .destroy 0)
    (returned (fun j => by rcases j with _ | _ | j <;> rfl) 0) rfl
  have h₂ := h₁.move (a := .destroy 1)
    (returned (fun j => by rcases j with _ | _ | j <;> rfl) 1) rfl
  have teardown : ∀ a ∈ [.loop 0 0, .loop 0 1, .loop 0 0, .loop 0 1, .handler ⟨0, true⟩,
      .handler ⟨0, false⟩, .handler ⟨0, false⟩, .handler ⟨0, false⟩, .loop 0 0, .loop 0 0,
      .loop 1 0, .loop 1 0, .loop 1 0, .loop 1 0], ∀ s, Orderly a s := by
    simp [Orderly]
  have h₃ := h₂.trans (.of_exec (by rfl) teardown)
  exact ⟨_, h₃, rfl, rfl, rfl, rfl, not_stranded_of_run h₃ 1⟩

/-- The node 0 is torn down while the node 1 is about to send its request: the node 1
    waits for ever. -/
theorem not_stranded_fails :
    ∃ l s, Run 2 merging l s ∧ Stranded s 1 ∧ s.loop 0 = .over ∧
      s.left ⟨0, false⟩ = true ∧ s.left ⟨0, true⟩ = true ∧
      s.net.phase 1 = .awaiting ⟨0, false⟩ ∧ s.net.replies ⟨0, false⟩ = [] ∧
      s.net.inbox ⟨0, true⟩ = [.waitAndGet ⟨lit "merged", 0⟩] := by
  obtain ⟨⟨s, l⟩, hs⟩ : ∃ r, Trace.exec (step 2) [.net (.app 0), .net (.app 1),
      .net (.app 1), .destroy 0,
      .loop 0 0, .loop 0 1, .loop 0 0, .loop 0 1, .handler ⟨0, true⟩, .loop 0 0, .loop 0 0,
      .net (.app 1),
      .handler ⟨0, false⟩, .handler ⟨0, false⟩, .handler ⟨0, false⟩] (init 2 merging) =
      some r := ⟨_, rfl⟩
  have hrun : Run 2 merging l s := .of_exec hs fun _ _ _ => trivial
  cases hs
  exact ⟨_, _, hrun, ⟨⟨0, false⟩,
    ⟨.waitAndGet ⟨lit "merged", 0⟩, rfl, rfl, .inr (.inr (.inr ⟨rfl, rfl⟩))⟩,
    .inl rfl⟩, rfl, rfl, rfl, rfl, rfl, rfl⟩

end Eau2.Teardown

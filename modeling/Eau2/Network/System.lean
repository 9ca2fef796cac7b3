import Eau2.Lib.Run
import Eau2.Lib.Prog
import Eau2.Store.Key
import Mathlib.Tactic.Simps.Basic

/-!
# The store over the network

The state of the `n` nodes of an application after the registration phase, and
the moves of their threads. Every node has

* an application thread, running a program (`Prog`) whose operations are the
  methods of its `KVStore`;
* one handler thread for every `Connection` object, running `Connection::run`;
* the accept loop of `NetworkIfc::run`.

The threads move in any order (`step`). A method of `KVStore` is cut where
another thread of the node can get in between (`Phase`): `connect_to_node_`
looks up `connections_`, opens a connection, and stores it, while the accept
loop stores the connections opened by the peers into the same map; the
connection to use is read from the map before the message is sent on it. The
code inside a critical section of a lock is one move. `get` and `waitAndGet` of
a key of the node leave the critical section with a pointer to the `Value`, and
clone it afterwards: between the two, a put of the key may delete it. A handler
that serves a message calls the methods of the `KVStore` of its node, so it goes
through the same phases (`kvStep`).

A connection has two ends (`EndId`), one `Connection` object at each, and a FIFO
channel in each direction; the channel towards an end is its `inbox`. A message
leaves the channel when its handling is over: nobody but the handler of the end
reads the channel, so the message being handled may as well stay at its head.

A failed assertion, or `at` on an absent key, ends the process: the node stops
(`crashed`). Teardown is not modelled here: the state is that of the nodes
before any of them stops.
-/

namespace Eau2.Network

/-- A call of a method of `KVStore`. -/
inductive Op
  | put (k : Key) (v : Value)
  | get (k : Key)
  | waitAndGet (k : Key)
  deriving DecidableEq

/-- The key of a call. -/
def Op.key : Op → Key
  | put k _ | get k | waitAndGet k => k

/-- The messages between running nodes: `Put`, `Get`, `WaitAndGet`, `Reply`. -/
inductive Message
  | put (k : Key) (v : Value)
  | get (k : Key)
  | waitAndGet (k : Key)
  | reply (v : Value)
  deriving DecidableEq

/-- The message asking another node for the call. -/
def Op.message : Op → Message
  | put k v => .put k v
  | get k => .get k
  | waitAndGet k => .waitAndGet k

/-- A message whose serialization goes through: `add_buffer` asserts that the
    name of a key and a value are not empty. -/
def Message.Sendable : Message → Prop
  | put k v => k.k ≠ [] ∧ v ≠ []
  | get k | waitAndGet k => k.k ≠ []
  | reply v => v ≠ []

instance : DecidablePred Message.Sendable
  | .put k v => inferInstanceAs (Decidable (k.k ≠ [] ∧ v ≠ []))
  | .get k | .waitAndGet k => inferInstanceAs (Decidable (k.k ≠ []))
  | .reply v => inferInstanceAs (Decidable (v ≠ []))

/-- The method that `handle_message_` calls on the store of its node. -/
def Message.op? : Message → Option Op
  | put k v => some (.put k v)
  | get k => some (.get k)
  | waitAndGet k => some (.waitAndGet k)
  | reply _ => none

/-- One end of a connection: a `Connection` object. The side `false` is that of
    the node that opened it. -/
structure EndId where
  conn : Nat
  side : Bool
  deriving DecidableEq

/-- The other end. -/
def EndId.peer (e : EndId) : EndId := ⟨e.conn, !e.side⟩

/-- Where a thread stands in a call of `KVStore`. -/
inductive Phase
  /-- At the head of the method. -/
  | entry
  /-- In `get` or `waitAndGet` of a key of this node: it has the `Value` of the
      `t`-th put of the name, and has released `l_`. -/
  | found (t : Nat)
  /-- In `connect_to_node_`: it has opened `c`, to be stored in `connections_`. -/
  | opened (c : EndId)
  /-- `connect_to_node_` has returned. -/
  | connected
  /-- It has read `c` from `connections_`. -/
  | holding (c : EndId)
  /-- In `process_reply_(c)`. -/
  | awaiting (c : EndId)
  deriving DecidableEq

/-- Where a handler thread stands in `Connection::run`. -/
inductive Handler
  /-- Waiting for bytes. -/
  | idle
  /-- Calling the store for the message at the head of its channel. -/
  | serving (ph : Phase)
  /-- Sending back the reply. -/
  | replying (v : Value)
  deriving DecidableEq

/-- The state of the nodes, of the connections and of the channels. -/
structure State where
  /-- `KVStore::items_`, by node. -/
  items : Nat → Items
  /-- The number of puts applied to a name in `items_`, by node. A put deletes
      the `Value` of the put before. -/
  version : Nat → Bytes → Nat
  /-- `NetworkIfc::connections_`, by node. -/
  connections : Nat → Nat → Option EndId
  /-- The connections waiting to be accepted by a node, with the number their
      opener has sent. -/
  backlog : Nat → List (EndId × Nat)
  /-- The connection the accept loop of a node has started and not yet stored. -/
  accepting : Nat → Option (EndId × Nat)
  /-- What is left to run for the application thread of a node. -/
  prog : Nat → Prog Key Value Unit
  /-- Where the application thread stands in its current call. -/
  phase : Nat → Phase
  crashed : Nat → Bool
  /-- The node of an end. -/
  owner : EndId → Nat
  /-- The `Connection` object of an end exists and its thread is started. -/
  live : EndId → Bool
  /-- The channel towards an end. -/
  inbox : EndId → List Message
  handler : EndId → Handler
  /-- `Connection::replies`. -/
  replies : EndId → List Value
  /-- The number of connections opened so far. -/
  nextConn : Nat

/-- What happens in a run: a put is called and applied, the value of a key is
    requested, looked up at its home on behalf of the node that requested it,
    and returned; or it is read from a `Value` that has been deleted; or a `get`
    fails as its key is not there. -/
inductive Event
  | issue (i : Nat) (k : Key) (v : Value)
  | apply (i j : Nat) (k : Key) (v : Value)
  | request (i : Nat) (op : Op)
  | serve (i : Nat) (op : Op) (v : Value)
  | deleted (i : Nat) (op : Op) (v : Value)
  | return (i : Nat) (op : Op) (v : Value)
  | missing (i j : Nat) (k : Key)
  deriving DecidableEq

namespace State

/-- The value of `k` in the store of the node `i`. -/
def lookup (s : State) (i : Nat) (k : Key) : Option Value := (s.items i).find k

/-- `send_message` on the end `c`. -/
@[simps -fullyApplied]
def send (s : State) (c : EndId) (m : Message) : State :=
  { s with inbox := Function.update s.inbox c.peer (s.inbox c.peer ++ [m]) }

/-- The end of the node that opens the next connection. -/
def nextEnd (s : State) : EndId := ⟨s.nextConn, false⟩

/-- The node `i` opens a connection to the node `j`: `connect_to_other`, the
    number of the node, and the start of the handler. -/
@[simps -fullyApplied]
def openConn (s : State) (i j : Nat) : State :=
  { s with
    owner := Function.update (Function.update s.owner s.nextEnd i) s.nextEnd.peer j
    live := Function.update s.live s.nextEnd true
    backlog := Function.update s.backlog j (s.backlog j ++ [(s.nextEnd.peer, i)])
    nextConn := s.nextConn + 1 }

/-- `connections_[j] = c` on the node `i`. -/
@[simps -fullyApplied]
def setConnection (s : State) (i j : Nat) (c : EndId) : State :=
  { s with
    connections := Function.update s.connections i
      (Function.update (s.connections i) j (some c)) }

/-- The node `i` accepts the connection `c` and starts its handler, leaving
    `rest` to be accepted. -/
@[simps -fullyApplied]
def startConn (s : State) (i : Nat) (c : EndId) (rest : List (EndId × Nat)) : State :=
  { s with
    backlog := Function.update s.backlog i rest
    live := Function.update s.live c true }

/-- `accepting` of the node `i` becomes `c`. -/
@[simps -fullyApplied]
def setAccepting (s : State) (i : Nat) (c : Option (EndId × Nat)) : State :=
  { s with accepting := Function.update s.accepting i c }

/-- The value `v` is put at `k` in the map of the node `i`. -/
@[simps -fullyApplied]
def putItem (s : State) (i : Nat) (k : Key) (v : Value) : State :=
  { s with
    items := Function.update s.items i ((s.items i).put k v)
    version := Function.update s.version i
      (Function.update (s.version i) k.k (s.version i k.k + 1)) }

/-- The application thread of the node `i` goes to the phase `ph`. -/
@[simps -fullyApplied]
def setPhase (s : State) (i : Nat) (ph : Phase) : State :=
  { s with phase := Function.update s.phase i ph }

/-- The call of the application thread of the node `i` is over, leaving it `p` to run. -/
@[simps -fullyApplied]
def finish (s : State) (i : Nat) (p : Prog Key Value Unit) : State :=
  { s with
    prog := Function.update s.prog i p
    phase := Function.update s.phase i .entry }

/-- The handler of the end `e` goes to `h`. -/
@[simps -fullyApplied]
def setHandler (s : State) (e : EndId) (h : Handler) : State :=
  { s with handler := Function.update s.handler e h }

/-- The channel towards the end `e` becomes `l`. -/
@[simps -fullyApplied]
def setInbox (s : State) (e : EndId) (l : List Message) : State :=
  { s with inbox := Function.update s.inbox e l }

/-- The queue `replies` of the end `e` becomes `l`. -/
@[simps -fullyApplied]
def setReplies (s : State) (e : EndId) (l : List Value) : State :=
  { s with replies := Function.update s.replies e l }

/-- The process of the node `i` ends. -/
@[simps -fullyApplied]
def crash (s : State) (i : Nat) : State :=
  { s with crashed := Function.update s.crashed i true }

end State

/-! ## The methods of the store -/

/-- How a move inside a call of `KVStore` leaves the call: in a later phase, over
    (with the value of a `get` or `waitAndGet`), or with a failed assertion. -/
inductive Outcome
  | go (ph : Phase)
  | done (r : Option Value)
  | fail

/-- The branch of `KVStore::put`, `get` and `waitAndGet` for a key of this node
    `i`, as far as `l_` is held; the call is made on behalf of the application of
    `who`. A `waitAndGet` is blocked until the key is there. -/
def localOp (who i : Nat) (op : Op) (s : State) : Option (State × Outcome × List Event) :=
  match op with
  | .put k v =>
    some (s.putItem i k v, .done none, [.apply who i k v])
  | .get k =>
    match s.lookup i k with
    | some _ => some (s, .go (.found (s.version i k.k)), [])
    | none => some (s, .fail, [.missing who i k])
  | .waitAndGet k =>
    match s.lookup i k with
    | some _ => some (s, .go (.found (s.version i k.k)), [])
    | none => none

/-- `result->clone()`, once `l_` is released, for the `Value` of the `t`-th put:
    it is the one in `items_`. -/
def cloneOp (who i : Nat) (op : Op) (t : Nat) (s : State) : Option (State × Outcome × List Event) :=
  if s.version i op.key.k = t then
    (s.lookup i op.key).map fun v => (s, .done (some v), [.serve who op v])
  else none

/-- `result->clone()` where the `Value` has been deleted since: it gives some
    bytes `w`, or the process dies. -/
def deletedOp (who i : Nat) (op : Op) (w : Option Value) (s : State) :
    Phase → Option (State × Outcome × List Event)
  | .found t =>
    if s.version i op.key.k = t then none
    else
      match w with
      | some v => some (s, .done (some v), [.deleted who op v])
      | none => some (s, .fail, [])
  | _ => none

/-- `connect_to_node_` up to the connection it opens, if any. -/
def connectToNode (n i node : Nat) (s : State) : State × Outcome :=
  match s.connections i node with
  | some _ => (s, .go .connected)
  | none =>
    -- `peer_addresses_` has the addresses of the nodes `0, …, n - 1`
    if node < n then (s.openConn i node, .go (.opened s.nextEnd)) else (s, .fail)

/-- The sending of the message of a call on the connection `c`: a put is then
    over, the other calls wait for the reply. -/
def sendOp (op : Op) (c : EndId) (s : State) : State × Outcome :=
  match op with
  | .put _ _ => if op.message.Sendable then (s.send c op.message, .done none) else (s, .fail)
  | .get _ | .waitAndGet _ =>
    if s.replies c = [] ∧ op.message.Sendable then (s.send c op.message, .go (.awaiting c))
    else (s, .fail)

/-- `process_reply_`: it spins until there is a reply. -/
def processReply (c : EndId) (s : State) : Option (State × Outcome) :=
  match s.replies c with
  | [] => none
  | [v] => some (s.setReplies c [], .done (some v))
  | _ => some (s, .fail)

/-- A move of a thread of the node `i` inside the call `op`, from the phase
    given; `none` if the thread is blocked. -/
def kvStep (n who i : Nat) (op : Op) (s : State) : Phase → Option (State × Outcome × List Event)
  | .entry =>
    if op.key.node = i then localOp who i op s
    else
      let (s', o) := connectToNode n i op.key.node s
      some (s', o, [])
  | .found t => cloneOp who i op t s
  | .opened c => some (s.setConnection i op.key.node c, .go .connected, [])
  | .connected =>
    match s.connections i op.key.node with
    | some c => some (s, .go (.holding c), [])
    | none => some (s, .fail, [])
  | .holding c =>
    let (s', o) := sendOp op c s
    some (s', o, [])
  | .awaiting c => (processReply c s).map fun (s', o) => (s', o, [])

/-! ## The threads -/

/-- The call the application thread is in. -/
def currentOp : Prog Key Value Unit → Option Op
  | .put k v _ => some (.put k v)
  | .get k _ => some (.get k)
  | .waitAndGet k _ => some (.waitAndGet k)
  | .ret _ | .fail => none

/-- What is left to run once the current call has returned. -/
def resume : Prog Key Value Unit → Option Value → Prog Key Value Unit
  | .put _ _ next, _ => next
  | .get _ next, some v | .waitAndGet _ next, some v => next v
  | p, _ => p

/-- What a move in a call of the application of `i` means for its history. -/
def appEvents (i : Nat) (op : Op) (ph : Phase) : Outcome → List Event → List Event
  | .go (.awaiting _), ev => ev ++ [.request i op]
  | .done (some v), ev =>
    match ph with
    | .found _ => .request i op :: (ev ++ [.return i op v])
    | _ => ev ++ [.return i op v]
  | .done none, ev =>
    match op with
    | .put k v => .issue i k v :: ev
    | _ => ev
  | _, ev => ev

/-- How a move in a call of the application of `i` leaves its thread. -/
def appAfter (i : Nat) (op : Op) (s : State) : State × Outcome × List Event → State × List Event
  | (s', o, ev) =>
    let ev := appEvents i op (s.phase i) o ev
    match o with
    | .go ph => (s'.setPhase i ph, ev)
    | .done r => (s'.finish i (resume (s.prog i) r), ev)
    | .fail => (s'.crash i, ev)

/-- A move of the application thread of the node `i`. -/
def appStep (n i : Nat) (s : State) : Option (State × List Event) :=
  match s.prog i with
  | .ret _ => none
  | .fail => some (s.crash i, [])
  | p => do
    let op ← currentOp p
    return appAfter i op s (← kvStep n i i op s (s.phase i))

/-- The application thread of the node `i` clones a deleted `Value`. -/
def appDeletedStep (i : Nat) (w : Option Value) (s : State) : Option (State × List Event) := do
  let op ← currentOp (s.prog i)
  return appAfter i op s (← deletedOp i i op w s (s.phase i))

/-- How a move in a call of the handler of the end `e` leaves its thread. -/
def handlerAfter (e : EndId) (s : State) : State × Outcome × List Event → State × List Event
  | (s', o, ev) =>
    match o with
    | .go ph => (s'.setHandler e (.serving ph), ev)
    | .done none => ((s'.setInbox e (s'.inbox e).tail).setHandler e .idle, ev)
    | .done (some v) => ((s'.setInbox e (s'.inbox e).tail).setHandler e (.replying v), ev)
    | .fail => (s'.crash (s.owner e), ev)

/-- A move of the handler of the end `e`: `Connection::run`. -/
def handlerStep (n : Nat) (e : EndId) (s : State) : Option (State × List Event) :=
  match s.handler e with
  | .idle =>
    match s.inbox e with
    | [] => none
    | .reply v :: rest =>
      -- `handle_reply_message_`
      some ((s.setInbox e rest).setReplies e (s.replies e ++ [v]), [])
    | _ :: _ => some (s.setHandler e (.serving .entry), [])
  | .serving ph => do
    let m ← (s.inbox e).head?
    let op ← m.op?
    return handlerAfter e s (← kvStep n (s.owner e.peer) (s.owner e) op s ph)
  | .replying v =>
    if (Message.reply v).Sendable then some ((s.send e (.reply v)).setHandler e .idle, [])
    else some (s.crash (s.owner e), [])

/-- The handler of the end `e` clones a deleted `Value`. -/
def handlerDeletedStep (e : EndId) (w : Option Value) (s : State) : Option (State × List Event) :=
  match s.handler e with
  | .serving ph => do
    let m ← (s.inbox e).head?
    let op ← m.op?
    return handlerAfter e s (← deletedOp (s.owner e.peer) (s.owner e) op w s ph)
  | _ => none

/-- A move of the accept loop of the node `i`: a connection is accepted and its
    handler started, and then it is stored in `connections_`. -/
def acceptStep (i : Nat) (s : State) : Option (State × List Event) :=
  match s.accepting i with
  | some (c, node) =>
    some ((s.setConnection i node c).setAccepting i none, [])
  | none =>
    match s.backlog i with
    | [] => none
    | (c, node) :: rest =>
      some ((s.startConn i c rest).setAccepting i (some (c, node)), [])

/-- The thread that moves, and for the clone of a deleted `Value` what it gives. -/
inductive Action
  | app (i : Nat)
  | handler (e : EndId)
  | accept (i : Nat)
  | appDeleted (i : Nat) (w : Option Value)
  | handlerDeleted (e : EndId) (w : Option Value)
  deriving DecidableEq

/-- The moves of the `n` nodes. -/
def step (n : Nat) : Action → State → Option (State × List Event)
  | .app i, s => if i < n ∧ s.crashed i = false then appStep n i s else none
  | .handler e, s =>
    if s.live e = true ∧ s.crashed (s.owner e) = false then handlerStep n e s else none
  | .accept i, s => if i < n ∧ s.crashed i = false then acceptStep i s else none
  | .appDeleted i w, s => if i < n ∧ s.crashed i = false then appDeletedStep i w s else none
  | .handlerDeleted e w, s =>
    if s.live e = true ∧ s.crashed (s.owner e) = false then handlerDeletedStep e w s else none

/-- The state after the registration phase, the application of the node `i`
    being about to run `progs i`: every client `i` has a connection with the
    controller, opened by the client and stored by both. -/
def init (n : Nat) (progs : Nat → Prog Key Value Unit) : State where
  items _ _ := none
  version _ _ := 0
  connections i j :=
    if i = 0 ∧ 0 < j ∧ j < n then some ⟨j - 1, true⟩
    else if j = 0 ∧ 0 < i ∧ i < n then some ⟨i - 1, false⟩
    else none
  backlog _ := []
  accepting _ := none
  prog := progs
  phase _ := .entry
  crashed _ := false
  owner e := if e.side then 0 else e.conn + 1
  live e := decide (e.conn < n - 1)
  inbox _ := []
  handler _ := .idle
  replies _ := []
  nextConn := n - 1

/-- The runs of `n` nodes on the programs `progs`, observed by their events and
    the state reached. -/
abbrev Run (n : Nat) (progs : Nat → Prog Key Value Unit) : List Event → State → Prop :=
  Trace.Run (step n) (fun _ _ => True) (init n progs)

/-- The run of the actions `as`, if none of them is blocked. -/
theorem run_of_exec (ok : Action → State → Prop) (n : Nat) (progs : Nat → Prog Key Value Unit)
    (as : List Action) (l : List Event)
    (h : (Trace.exec (step n) as (init n progs)).map Prod.snd = some l)
    (hok : ∀ a ∈ as, ∀ s, ok a s) : ∃ s, Trace.Run (step n) ok (init n progs) l s := by
  obtain ⟨⟨s, l'⟩, hs, rfl⟩ := Option.map_eq_some_iff.1 h
  exact ⟨s, .of_exec hs hok⟩

end Eau2.Network

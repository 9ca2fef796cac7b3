import Eau2.Lib.Run
import Eau2.Network.Registration
import Mathlib.Tactic.Simps.Basic

/-!
# The registration phase

The controller and the `n - 1` clients from the start of `NetworkIfc::run` to the
end of the registration phase. A client connects, sends its `REGISTER` message and
waits for the directory; the controller accepts the connections, one after the
other, waiting on each for its message, and sends the directory on all of them
when it has `n` addresses. All of them move in any order, and the controller may
accept any of the connections that wait, and send the directory in any order, as
`connections_` is an `unordered_map`.

A connection is named by the client that opened it, and messages are bytes. A
failed assertion is `failed`.

`Encodings` gathers the bytes that are sent, and what their receivers make of them.
-/

namespace Eau2.Registration

open Wire

/-- Where a client stands in `register_with_controller_`. -/
inductive Phase
  | start
  | connected
  /-- It waits for the directory. -/
  | waiting
  | done
  | failed
  deriving DecidableEq

/-- A client, with its connection to the controller. -/
structure Client where
  phase : Phase
  /-- `peer_addresses_`. -/
  peers : Peers
  /-- The connection waits to be accepted. -/
  queued : Bool
  toController : List Bytes
  toClient : List Bytes

/-- Where the controller stands. -/
inductive Controller
  | start
  | accepting
  /-- In `recv_message` on a connection. -/
  | receiving (c : Nat)
  /-- In `broadcast_`, with the node numbers that it has not got to. -/
  | broadcasting (d : Bytes) (left : List Nat)
  | ending
  | done
  | failed
  deriving DecidableEq

structure State where
  controller : Controller
  /-- The controller's `peer_addresses_`. -/
  peers : Peers
  /-- The controller's `connections_`. -/
  connections : AList fun _ : Nat => Nat
  client : Nat → Client

/-- Who moves. -/
inductive Action
  | connect (i : Nat)
  | register (i : Nat)
  | directory (i : Nat)
  | controller
  | accept (i : Nat)
  | broadcast (i : Nat)

/-- The directory that the controller makes. -/
inductive Event
  | directory (m : Message)

namespace State

@[simps]
def setClient (s : State) (i : Nat) (c : Client) : State :=
  { s with client := Function.update s.client i c }

@[simps]
def setController (s : State) (c : Controller) : State := { s with controller := c }

end State

/-- The loop of `handle_directory_message_`: entry 0 is left out. -/
def mergeAddrs (peers : Peers) (addrs : List (Option Address)) : Peers :=
  (addrs.zipIdx.drop 1).foldl (fun p a => p.insert a.2 a.1) peers

section
variable (inetNtop : BitVec 32 → Bytes) (n : Nat) (addr : Nat → Address)

/-- `handle_directory_message_`. -/
def handleDirectory (peers : Peers) (d : Bytes) : Option Peers := do
  let (t, rest) ← getMsgType.run d
  guard (t = some .directory)
  match (← (Directory.deserialize inetNtop).run rest).1.body with
  | .directory addrs =>
    guard (addrs.length = n)
    return mergeAddrs peers addrs
  | _ => none

/-- The message of the client `i`. -/
def registration (i : Nat) : Register := ⟨⟨0, 0, 0⟩, i, addr i⟩

/-- A move of the client `i`. -/
def connect (i : Nat) (s : State) : Option State :=
  if 0 < i ∧ i < n ∧ (s.client i).phase = .start then
    some (s.setClient i { s.client i with phase := .connected, queued := true })
  else none

/-- The client `i` sends its address. -/
def register (i : Nat) (s : State) : Option State :=
  if (s.client i).phase = .connected then
    match (registration addr i).message.serialize with
    | some d =>
      some (s.setClient i { s.client i with
        phase := .waiting, toController := (s.client i).toController ++ [d] })
    | none => some (s.setClient i { s.client i with phase := .failed })
  else none

/-- The client `i` gets the directory, and ends the phase with the assertion on the
    size of its map. -/
def directory (i : Nat) (s : State) : Option State :=
  match (s.client i).phase, (s.client i).toClient with
  | .waiting, d :: rest =>
    match handleDirectory inetNtop n (s.client i).peers d with
    | some p =>
      some (s.setClient i { s.client i with
        phase := if p.size = n then .done else .failed
        peers := p
        toClient := rest })
    | none => some (s.setClient i { s.client i with phase := .failed })
  | _, _ => none

/-- The loop of `process_client_registrations_` is left: the directory is made. -/
def makeDirectory (s : State) : State × List Event :=
  let m := Directory.ofAddrs s.peers
  let s' := { s with peers := (Directory.collect s.peers 0).1 }
  match m.serialize with
  | some d => (s'.setController (.broadcasting d s.connections.keys), [.directory m])
  | none => (s'.setController .failed, [])

/-- A move of the controller, other than in `accept_connection` and `broadcast_`. -/
def controllerStep (s : State) : Option (State × List Event) :=
  match s.controller with
  | .start => some (s.setController (if 1 < n then .accepting else .ending), [])
  | .accepting => if s.peers.size = n then some (makeDirectory s) else none
  | .receiving c =>
    match (s.client c).toController with
    | [] => none
    | d :: rest =>
      match handleRegister inetNtop s.peers d with
      | some (node, p) =>
        let s' := s.setClient c { s.client c with toController := rest }
        some ({ s' with
          controller := .accepting
          peers := p
          connections := s.connections.insert node c }, [])
      | none => some (s.setController .failed, [])
  | .broadcasting _ [] => some (s.setController .ending, [])
  | .broadcasting _ (_ :: _) => none
  | .ending => some (s.setController (if s.peers.size = n then .done else .failed), [])
  | .done | .failed => none

/-- `accept_connection` returns the connection of the client `i`. -/
def accept (i : Nat) (s : State) : Option State :=
  if s.controller = .accepting ∧ s.peers.size ≠ n ∧ (s.client i).queued then
    some ((s.setClient i { s.client i with queued := false }).setController (.receiving i))
  else none

/-- `broadcast_` sends the directory to the node `i`. -/
def broadcast (i : Nat) (s : State) : Option State :=
  match s.controller, s.connections.lookup i with
  | .broadcasting d left, some c =>
    if i ∈ left then
      some ((s.setClient c { s.client c with
        toClient := (s.client c).toClient ++ [d] }).setController
        (.broadcasting d (left.erase i)))
    else none
  | _, _ => none

/-- A move. -/
def step : Action → State → Option (State × List Event)
  | .connect i, s => (connect n i s).map (·, [])
  | .register i, s => (register addr i s).map (·, [])
  | .directory i, s => (directory inetNtop n i s).map (·, [])
  | .controller, s => controllerStep inetNtop n s
  | .accept i, s => (accept n i s).map (·, [])
  | .broadcast i, s => (broadcast i s).map (·, [])

/-- All nodes start with the address of the controller. -/
def init : State where
  controller := .start
  peers := Peers.controller (addr 0)
  connections := ∅
  client _ := ⟨.start, Peers.controller (addr 0), false, [], []⟩

end

/-! ## The messages -/

section
variable (inetNtop : BitVec 32 → Bytes) (n : Nat) (addr : Nat → Address)

/-- An address as it is received: its text is made again. -/
def received (a : Address) : Address := ⟨inetNtop a.ipBytes, a.ipBytes, a.port⟩

/-- The address that the nodes get for the node `i`. -/
def entry (i : Nat) : Address := if i = 0 then addr 0 else received inetNtop (addr i)

/-- The directory, in node order. -/
def directoryMessage : Message :=
  ⟨⟨0, 0, 0⟩, .directory (((List.range n).map (entry inetNtop addr)).map some)⟩

/-- The map has exactly the entries of the `n` nodes. -/
def Agrees (p : Peers) : Prop :=
  ∀ j, p.lookup j = if j < n then some (some (entry inetNtop addr j)) else none

/-- The encodings of the messages, and what their receivers make of them. -/
structure Encodings where
  register : Nat → Bytes
  directory : Bytes
  /-- A client's map, once it has got the directory. -/
  merged : Peers
  serialize_register : ∀ i < n, (registration addr i).message.serialize = some (register i)
  handleRegister_eq : ∀ i < n, 0 < i → ∀ peers, handleRegister inetNtop peers (register i) =
    some (i, peers.insert i (some (entry inetNtop addr i)))
  serialize_directory : (directoryMessage inetNtop n addr).serialize = some directory
  handleDirectory_eq : handleDirectory inetNtop n
    (Peers.controller (addr 0)) directory = some merged
  merged_agrees : Agrees inetNtop n addr merged

end

variable {inetNtop : BitVec 32 → Bytes} {n : Nat} {addr : Nat → Address}

theorem received_canonical (a : Address) : (received inetNtop a).Canonical inetNtop := rfl

theorem entry_pos {i : Nat} (h : 0 < i) : entry inetNtop addr i = received inetNtop (addr i) :=
  if_neg h.ne'

/-- What is received of an entry that is not that of the controller. -/
theorem received_entry {i : Nat} (h : 0 < i) : received inetNtop (entry inetNtop addr i) =
    entry inetNtop addr i := by
  rw [entry_pos h]
  rfl

/-- The entry is the address of the node: its bytes and port. -/
theorem entry_eq (i : Nat) : (entry inetNtop addr i).ipBytes = (addr i).ipBytes ∧
    (entry inetNtop addr i).port = (addr i).port := by
  rw [entry]
  split_ifs with h
  · rw [h]
    exact ⟨rfl, rfl⟩
  · exact ⟨rfl, rfl⟩

theorem Agrees.numbers {p : Peers} (h : Agrees inetNtop n addr p) : p.numbers = Finset.range n := by
  ext j
  rw [Peers.mem_numbers, ← AList.lookup_isSome, h j, Finset.mem_range]
  split_ifs with hj
  · exact iff_of_true rfl hj
  · exact iff_of_false nofun hj

theorem Agrees.size {p : Peers} (h : Agrees inetNtop n addr p) : p.size = n := by
  rw [← Peers.card_numbers, h.numbers, Finset.card_range]

/-- Inserting the values of a function at the numbers of a list. -/
theorem lookup_foldl_insert {f : Nat → Option Address} {l : List Nat} {p : Peers} (j : Nat) :
    (l.foldl (fun p i => p.insert i (f i)) p).lookup j = if j ∈ l then some (f j)
    else p.lookup j := by
  induction l generalizing p with
  | nil => rfl
  | cons i l ih =>
    rw [List.foldl_cons, ih]
    by_cases hj : j ∈ l
    · rw [if_pos hj, if_pos (List.mem_cons_of_mem i hj)]
    · rw [if_neg hj]
      by_cases hi : j = i
      · subst hi
        rw [if_pos List.mem_cons_self, AList.lookup_insert]
      · rw [if_neg (List.not_mem_cons_of_ne_of_not_mem hi hj), AList.lookup_insert_ne hi]

/-- A client that merges a list of `n` addresses keeps its own entry for the controller. -/
theorem lookup_mergeAddrs (p : Peers) (f : Nat → Option Address) (j : Nat) :
    (mergeAddrs p ((List.range n).map f)).lookup j =
      if 0 < j ∧ j < n then some (f j) else p.lookup j := by
  have hidx : ((List.range n).map f).zipIdx.drop 1 = (List.range' 1 (n - 1)).map fun i =>
      (f i, i) := by
    apply List.ext_getElem
    · simp
    · intro i h₁ h₂
      simp [Nat.add_comm]
  rw [mergeAddrs, hidx, List.foldl_map, lookup_foldl_insert]
  congr 1
  rw [List.mem_range'_1]
  simp only [eq_iff_iff]
  omega

/-- The encoding of a directory, and what a client makes of it. -/
theorem handleDirectory_eq {addrs : List Address} (hlen : addrs.length < 2 ^ 64)
    (haddrs : ∀ a ∈ addrs, a.Canonical inetNtop) :
    ∃ d, Message.serialize ⟨⟨0, 0, 0⟩, .directory (addrs.map some)⟩ = some d ∧
      ∀ peers, handleDirectory inetNtop addrs.length peers d =
        some (mergeAddrs peers (addrs.map some)) := by
  have hs : Message.Storable inetNtop ⟨⟨0, 0, 0⟩, .directory (addrs.map some)⟩ := by
    refine ⟨⟨by norm_num, by norm_num, by norm_num⟩, by simpa using hlen, fun a ha => ?_⟩
    obtain ⟨b, hb, rfl⟩ := List.mem_map.1 ha
    exact ⟨b, rfl, haddrs b hb⟩
  obtain ⟨body, hbody, hdec⟩ := Message.decodes_ofKind hs
  refine ⟨addMsgType .directory ++ (Header.serialize ⟨0, 0, 0⟩ ++ body), ?_, fun peers => ?_⟩
  · rw [Message.serialize, hbody]
    exact congrArg some (List.append_assoc _ _ _)
  · have hkind := decodes_msgType .directory (Header.serialize ⟨0, 0, 0⟩ ++ body)
    have hdir : (Directory.deserialize inetNtop).run (Header.serialize ⟨0, 0, 0⟩ ++ body) =
        some (⟨⟨0, 0, 0⟩, .directory (addrs.map some)⟩, []) := hdec.run_eq
    rw [handleDirectory, hkind]
    simp [hdir]

/-- Every message has an encoding, and is understood. -/
theorem exists_encodings (hpos : 0 < n) (hn : n < 2 ^ 64) :
    Nonempty (Encodings inetNtop n addr) := by
  have hreg (i : Nat) : ∃ d, i < n → (registration addr i).message.serialize = some d ∧
      (0 < i → ∀ peers, handleRegister inetNtop peers d =
        some (i, peers.insert i (some (entry inetNtop addr i)))) := by
    by_cases hi : i < n
    · have hs : Register.Storable inetNtop ⟨⟨0, 0, 0⟩, i, received inetNtop (addr i)⟩ :=
        ⟨⟨by norm_num, by norm_num, by norm_num⟩, hi.trans hn, received_canonical _⟩
      obtain ⟨d, hd, hhandle⟩ := handleRegister_eq hs
      refine ⟨d, fun _ => ⟨hd, fun hpos peers => ?_⟩⟩
      rw [hhandle, entry_pos hpos]
    · exact ⟨[], fun h => absurd h hi⟩
  -- the registrations, and then the directory
  choose reg hreg using hreg
  let addrs := (List.range n).map fun i => received inetNtop (entry inetNtop addr i)
  have hlen : addrs.length = n := by simp [addrs]
  have hcanonical : ∀ a ∈ addrs, a.Canonical inetNtop := by
    intro a ha
    obtain ⟨i, -, rfl⟩ := List.mem_map.1 ha
    exact received_canonical _
  obtain ⟨d, hd, hhandle⟩ := handleDirectory_eq (hlen.trans_lt hn) hcanonical
  rw [hlen] at hhandle
  refine ⟨reg, d, _, fun i hi => (hreg i hi).1, fun i hi => (hreg i hi).2, ?_,
    hhandle _, fun j => ?_⟩
  · rw [← hd, directoryMessage, Message.serialize, Message.serialize, Body.serialize_directory,
      Body.serialize_directory]
    simp [addrs, List.flatMap_map, Message.kind, Body.kind, received, Address.serialize]
  · rw [List.map_map, lookup_mergeAddrs, Peers.lookup_controller]
    by_cases hj : 0 < j
    · have hmerged : (0 < j ∧ j < n) = (j < n) := by simp [hj]
      simp only [hmerged, if_neg hj.ne', Function.comp_apply, received_entry hj]
    · obtain rfl : j = 0 := by omega
      simp [hpos, entry]

end Eau2.Registration

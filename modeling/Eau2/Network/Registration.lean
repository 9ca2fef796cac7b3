import Eau2.Network.Message
import Mathlib.Data.List.AList
import Mathlib.Data.Finset.Interval
import Mathlib.Order.Interval.Finset.Nat

/-!
# Registration at the controller

The controller accepts connections until `peer_addresses_` has `total_nodes_`
entries (`processRegistrations`): each brings a `REGISTER` message, whose address
is stored under the node number that the message gives (`handleRegister`). Then a
`Directory` is made of the map (`Directory.ofAddrs`), with `operator[]`, which
adds a null pointer where there is no entry.

Main result: `registrations_sound_iff`, when the map has exactly the entries of
the nodes once the loop is left. The loop counts the entries, whatever their
numbers.
-/

namespace Eau2.Wire

/-- `peer_addresses_`, an `unordered_map<size_t, Address*>`. -/
abbrev Peers := AList fun _ : Nat => Option Address

namespace Peers

/-- The keys of the map. -/
def numbers (p : Peers) : Finset Nat := p.keys.toFinset

/-- `size`. -/
def size (p : Peers) : Nat := p.keys.length

/-- `peer_addresses_` as constructed: the address of the controller. -/
def controller (addr : Address) : Peers := AList.singleton 0 (some addr)

theorem mem_numbers {p : Peers} {i : Nat} : i ∈ p.numbers ↔ i ∈ p := List.mem_toFinset

theorem card_numbers (p : Peers) : p.numbers.card = p.size :=
  List.toFinset_card_of_nodup p.keys_nodup

theorem numbers_insert (p : Peers) (i : Nat) (a : Option Address) :
    numbers (p.insert i a) = insert i p.numbers := by
  ext j
  rw [mem_numbers, AList.mem_insert, Finset.mem_insert, mem_numbers]

@[simp] theorem numbers_controller (addr : Address) : (controller addr).numbers = {0} := rfl

theorem lookup_controller (addr : Address) (i : Nat) :
    (controller addr).lookup i = if i = 0 then some (some addr) else none := by
  split_ifs with h
  · rw [h]
    rfl
  · rw [AList.lookup_eq_none, ← mem_numbers, numbers_controller, Finset.mem_singleton]
    exact h

/-- The greatest key. -/
def last (p : Peers) : Nat := p.keys.foldr max 0

theorem le_last {p : Peers} {i : Nat} (hi : i ∈ p) : i ≤ p.last := by
  have hle (l : List Nat) : i ∈ l → i ≤ l.foldr max 0 := by
    intro hl
    induction l with
    | nil => cases hl
    | cons j l ih =>
      rcases List.mem_cons.1 hl with rfl | hl
      · exact Nat.le_max_left _ _
      · exact (ih hl).trans (Nat.le_max_right _ _)
  exact hle p.keys (AList.mem_keys.1 hi)

/-- An index below the size that is no key is below some key. -/
theorem lt_last {p : Peers} {i : Nat} (hi : i < p.size) (hp : p.lookup i = none) : i < p.last := by
  by_contra! hle
  have hsub : p.numbers ⊆ Finset.range i := by
    intro j hj
    have hmem := mem_numbers.1 hj
    have hne : j ≠ i := by
      rintro rfl
      exact AList.lookup_eq_none.1 hp hmem
    exact Finset.mem_range.2 (lt_of_le_of_ne ((le_last hmem).trans hle) hne)
  have hcard := Finset.card_le_card hsub
  rw [card_numbers, Finset.card_range] at hcard
  omega

theorem last_insert {p : Peers} {i : Nat} (a : Option Address) (hp : p.lookup i = none) :
    last (p.insert i a) = max i p.last := by
  have hnot : i ∉ p.keys := fun hmem => AList.lookup_eq_none.1 hp (AList.mem_keys.2 hmem)
  rw [last, AList.keys_insert, List.erase_of_not_mem hnot, List.foldr_cons, last]

end Peers

/-- The loop of the constructor of `Directory`, from the index `i`: the map that
    `operator[]` leaves, and the pointers. -/
def Directory.collect (addrs : Peers) (i : Nat) : Peers × List (Option Address) :=
  if _hi : i < addrs.size then
    match _hp : addrs.lookup i with
    | some a =>
      let (addrs', as) := collect addrs (i + 1)
      (addrs', a :: as)
    | none =>
      let (addrs', as) := collect (addrs.insert i none) (i + 1)
      (addrs', none :: as)
  else (addrs, [])
termination_by addrs.last + 1 - i
decreasing_by
  · have hle := Peers.le_last (AList.lookup_isSome.1 (by rw [_hp]; rfl) : i ∈ addrs)
    omega
  · have hlt := Peers.lt_last _hi _hp
    rw [Peers.last_insert none _hp, Nat.max_eq_right hlt.le]
    omega

/-- `Directory(std::unordered_map<size_t, Address*>& addrs)`. -/
def Directory.ofAddrs (addrs : Peers) : Message :=
  ⟨⟨0, 0, 0⟩, .directory (collect addrs 0).2⟩

/-- A `Register` message. -/
structure Register where
  header : Header
  nodeNum : Nat
  clientAddr : Address
  deriving DecidableEq

namespace Register

def message (r : Register) : Message := ⟨r.header, .register r.nodeNum r.clientAddr⟩

/-- The numbers are `size_t`, and the address has the text of its bytes. -/
structure Storable (inetNtop : BitVec 32 → Bytes) (r : Register) : Prop where
  header : r.header.Storable
  nodeNum_lt : r.nodeNum < 2 ^ 64
  clientAddr : r.clientAddr.Canonical inetNtop

end Register

section
variable (inetNtop : BitVec 32 → Bytes)

/-- `handle_register_message_`: the node number of the message, and the map with
    its address. -/
def handleRegister (peers : Peers) (d : Bytes) : Option (Nat × Peers) := do
  let (t, rest) ← getMsgType.run d
  guard (t = some .register)
  match (← (Register.deserialize inetNtop).run rest).1.body with
  | .register nodeNum clientAddr => some (nodeNum, peers.insert nodeNum (some clientAddr))
  | _ => none

/-- The loop of `process_client_registrations_` on the messages that arrive: the
    map when the loop is left. It may also wait for another message, or fail an
    assertion. -/
def processRegistrations (totalNodes : Nat) (peers : Peers) : List Bytes → Option Peers
  | [] => if peers.size = totalNodes then some peers else none
  | d :: ds =>
    if peers.size = totalNodes then some peers
    else do
      let (_, peers') ← handleRegister inetNtop peers d
      processRegistrations totalNodes peers' ds

end

variable {inetNtop : BitVec 32 → Bytes}

/-- The encoding of a `REGISTER` message, and what the controller makes of it. -/
theorem handleRegister_eq {r : Register} (h : r.Storable inetNtop) :
    ∃ d, r.message.serialize = some d ∧
      ∀ peers, handleRegister inetNtop peers d =
        some (r.nodeNum, peers.insert r.nodeNum (some r.clientAddr)) := by
  have hs : r.message.Storable inetNtop := ⟨h.header, h.nodeNum_lt, h.clientAddr⟩
  obtain ⟨w, hw, hdec⟩ := Message.decodes_ofKind hs
  refine ⟨addMsgType .register ++ (r.header.serialize ++ w), ?_, fun peers => ?_⟩
  · rw [Message.serialize, hw]
    exact congrArg some (List.append_assoc _ _ _)
  · have hkind := decodes_msgType .register (r.header.serialize ++ w)
    have hreg : (Register.deserialize inetNtop).run (r.header.serialize ++ w) =
        some (r.message, []) :=
      hdec.run_eq
    rw [handleRegister, hkind]
    simp only [Option.bind_eq_bind, Option.bind_some, guard_true, pure, hreg, Register.message]

/-! ## What the loop comes to -/

/-- The map after the registrations `regs`. -/
def Peers.register (p : Peers) (regs : List Register) : Peers :=
  regs.foldl (fun p r => p.insert r.nodeNum (some r.clientAddr)) p

namespace Peers

variable {p : Peers} {own : Address} {regs : List Register}

theorem numbers_register : (p.register regs).numbers = p.numbers ∪
    (regs.map Register.nodeNum).toFinset := by
  induction regs generalizing p with
  | nil => exact (Finset.union_empty _).symm
  | cons r regs ih =>
    rw [register, List.foldl_cons, ← register, ih, numbers_insert, List.map_cons,
      List.toFinset_cons, Finset.insert_union, Finset.union_insert]

/-- An entry is that of the last registration with its number. -/
theorem lookup_register (i : Nat) :
    (p.register regs).lookup i =
      ((regs.reverse.find? (·.nodeNum = i)).map fun r => some r.clientAddr).or (p.lookup i) := by
  induction regs generalizing p with
  | nil => rfl
  | cons r regs ih =>
    rw [register, List.foldl_cons, ← register, ih, List.reverse_cons, List.find?_append,
      Option.map_or, Option.or_assoc]
    congr 1
    by_cases h : r.nodeNum = i
    · subst h
      simp [AList.lookup_insert]
    · simp [h, AList.lookup_insert_ne (Ne.symm h)]

/-- After registrations from the initial map, no entry is null. -/
theorem exists_lookup_register {i : Nat} (hi : i ∈ ((controller own).register regs).numbers) :
    ∃ addr, ((controller own).register regs).lookup i = some (some addr) := by
  obtain ⟨a, ha⟩ := Option.isSome_iff_exists.1 (AList.lookup_isSome.2 (mem_numbers.1 hi))
  rw [lookup_register, Option.or_eq_some_iff] at ha
  rw [lookup_register]
  rcases ha with ha | ⟨hnone, ha⟩
  · obtain ⟨r, hr, rfl⟩ := Option.map_eq_some_iff.1 ha
    exact ⟨r.clientAddr, by rw [hr]; rfl⟩
  · refine ⟨own, ?_⟩
    rw [lookup_controller, Option.ite_none_right_eq_some] at ha
    rw [hnone, Option.none_or, lookup_controller, if_pos ha.1]

end Peers

/-- The registrations up to the first that brings the size of the map to `n`. -/
structure Peers.Filled (p : Peers) (n : Nat) (l : List Register) : Prop where
  size : (p.register l).size = n
  first : ∀ l', l' <+: l → l' ≠ l → (p.register l').size ≠ n

theorem Peers.Filled.eq_nil {n : Nat} {p : Peers} {l : List Register} (h : p.Filled n l)
    (hsize : p.size = n) :
    l = [] := by
  by_contra hne
  exact h.first [] List.nil_prefix (Ne.symm hne) hsize

/-- After one more registration. -/
theorem Peers.filled_cons {n : Nat} {p : Peers} {r : Register} {l : List Register}
    (hsize : p.size ≠ n) :
    p.Filled n (r :: l) ↔ Peers.Filled (p.insert r.nodeNum (some r.clientAddr)) n l := by
  constructor
  · intro h
    refine ⟨h.size, fun l' hl' hne => ?_⟩
    exact h.first (r :: l') (List.prefix_cons_iff.2 (Or.inr ⟨l', rfl, hl'⟩)) fun heq =>
      hne (List.cons.inj heq).2
  · intro h
    refine ⟨h.size, fun l' hl' hne => ?_⟩
    rcases List.prefix_cons_iff.1 hl' with rfl | ⟨t, rfl, ht⟩
    · exact hsize
    · exact h.first t ht fun heq => hne (congrArg (r :: ·) heq)

/-- The loop leaves with the registrations that fill the map. -/
theorem processRegistrations_eq_some_iff {n : Nat} {p q : Peers} {regs : List Register}
    {ds : List Bytes}
    (hr : ∀ r ∈ regs, r.Storable inetNtop)
    (hds : regs.mapM (fun r => r.message.serialize) = some ds) :
    processRegistrations inetNtop n p ds = some q ↔ ∃ l, l <+: regs ∧ p.Filled n l ∧
    q = p.register l := by
  induction regs generalizing p ds with
  | nil =>
    obtain rfl : ds = [] := (Option.some.inj hds).symm
    rw [processRegistrations]
    simp only [List.prefix_nil, exists_eq_left, Option.ite_none_right_eq_some, Option.some.injEq]
    constructor
    · rintro ⟨hsize, rfl⟩
      exact ⟨⟨hsize, fun l' hl' hne => absurd (List.prefix_nil.1 hl') hne⟩, rfl⟩
    · rintro ⟨h, rfl⟩
      exact ⟨h.size, rfl⟩
  | cons r regs ih =>
    rw [List.forall_mem_cons] at hr
    obtain ⟨d, hd, hhandle⟩ := handleRegister_eq hr.1
    rw [List.mapM_cons, hd, Option.bind_eq_bind, Option.bind_some] at hds
    obtain ⟨ds', hds', hcons⟩ := Option.bind_eq_some_iff.1 hds
    obtain rfl : d :: ds' = ds := Option.some.inj hcons
    rw [processRegistrations]
    split_ifs with hsize
    · -- The map has its `n` entries, so that the loop is left at once.
      constructor
      · intro hq
        cases hq
        exact ⟨[], List.nil_prefix, ⟨hsize, fun l' hl' hne => absurd (List.prefix_nil.1 hl') hne⟩,
          rfl⟩
      · rintro ⟨l, -, hl, rfl⟩
        rw [hl.eq_nil hsize]
        rfl
    · rw [hhandle, Option.bind_eq_bind, Option.bind_some, ih hr.2 hds']
      constructor
      · rintro ⟨l, hl, hfill, rfl⟩
        exact ⟨r :: l, List.prefix_cons_iff.2 (Or.inr ⟨l, rfl, hl⟩),
          (Peers.filled_cons hsize).2 hfill, rfl⟩
      · rintro ⟨l, hl, hfill, rfl⟩
        rcases List.prefix_cons_iff.1 hl with rfl | ⟨t, rfl, ht⟩
        · exact absurd hfill.size hsize
        · exact ⟨t, ht, (Peers.filled_cons hsize).1 hfill, rfl⟩

/-! ## When the map is right -/

/-- The number of entries after the registrations `regs`: of the node numbers that
    they give, and 0. -/
def distinct (regs : List Register) : Nat := (insert 0 (regs.map Register.nodeNum).toFinset).card

/-- The loop for `n` nodes stops after the registrations `regs`, and not before. -/
def Fills (n : Nat) (regs : List Register) : Prop :=
  distinct regs = n ∧ ∀ l, l <+: regs → l ≠ regs → distinct l ≠ n

theorem size_register (own : Address) (regs : List Register) :
    ((Peers.controller own).register regs).size = distinct regs := by
  rw [← Peers.card_numbers, Peers.numbers_register, Peers.numbers_controller,
    Finset.singleton_union, distinct]

theorem filled_controller_iff {own : Address} {n : Nat} {regs : List Register} :
    (Peers.controller own).Filled n regs ↔ Fills n regs := by
  constructor
  · intro h
    exact ⟨size_register own regs ▸ h.size, fun l hl hne => size_register own l ▸ h.first l hl hne⟩
  · intro h
    exact ⟨(size_register own regs).trans h.1, fun l hl hne => (size_register own l).trans_ne
      (h.2 l hl hne)⟩

/-- The map has exactly the keys of the `n` nodes, with the controller's own address
    at 0; the directory made of it lists `n` addresses, none of them null, and can be
    serialized. -/
structure Peers.Sound (own : Address) (n : Nat) (p : Peers) : Prop where
  numbers : p.numbers = Finset.range n
  own : p.lookup 0 = some (some own)
  directory : ∃ addrs : List Address, (Directory.ofAddrs p).body = .directory (addrs.map some) ∧
    addrs.length = n ∧ ∃ w, (Directory.ofAddrs p).serialize = some w

/-- The loop of the constructor, on a map with exactly the keys of the nodes. -/
theorem Directory.collect_eq {n : Nat} {p : Peers} {addr : Nat → Address}
    (hp : ∀ j, p.lookup j = if j < n then some (some (addr j)) else none)
    (hsize : p.size = n) (i : Nat) :
    collect p i = (p, (List.range' i (n - i)).map fun j => some (addr j)) := by
  rw [collect]
  split_ifs with hi
  · rw [hsize] at hi
    have hlen : n - i = (n - (i + 1)) + 1 := by omega
    rw [collect_eq hp hsize (i + 1), hlen, List.range'_succ, List.map_cons]
    split
    · next a ha =>
      rw [hp, if_pos hi, Option.some.injEq] at ha
      rw [ha]
    · next ha =>
      rw [hp, if_pos hi] at ha
      cases ha
  · rw [hsize] at hi
    rw [show n - i = 0 by omega]
    rfl
termination_by n - i

/-- The directory made of a map with exactly the keys of the nodes. -/
theorem Directory.ofAddrs_body {n : Nat} {p : Peers} {addr : Nat → Address}
    (hp : ∀ j, p.lookup j = if j < n then some (some (addr j)) else none) (hsize : p.size = n) :
    (ofAddrs p).body = .directory (((List.range n).map addr).map some) := by
  rw [ofAddrs, collect_eq hp hsize, Nat.sub_zero, ← List.range_eq_range', List.map_map]
  rfl

/-- A map whose keys are those of the nodes has an address for each. -/
theorem Peers.exists_lookup {own : Address} {n : Nat} {regs : List Register}
    (h : ((controller own).register regs).numbers = Finset.range n) :
    ∃ addr : Nat → Address, ∀ j, ((controller own).register regs).lookup j =
      if j < n then some (some (addr j)) else none := by
  have hall (j : Nat) : ∃ addr, ((controller own).register regs).lookup j =
      if j < n then some (some addr) else none := by
    split_ifs with hj
    · exact exists_lookup_register (h ▸ Finset.mem_range.2 hj)
    · refine ⟨own, AList.lookup_eq_none.2 fun hmem => hj ?_⟩
      rw [← mem_numbers, h, Finset.mem_range] at hmem
      exact hmem
  exact ⟨fun j => (hall j).choose, fun j => (hall j).choose_spec⟩

theorem Peers.sound_register_iff {own : Address} {n : Nat} {regs : List Register}
    (h : Fills n regs) :
    ((controller own).register regs).Sound own n ↔
      (∀ r ∈ regs, r.nodeNum < n) ∧
        ∀ r, regs.reverse.find? (·.nodeNum = 0) = some r → r.clientAddr = own := by
  have hnum : ((controller own).register regs).numbers = insert 0
      (regs.map Register.nodeNum).toFinset := by
    rw [numbers_register, numbers_controller, Finset.singleton_union]
  have hcard : (insert 0 (regs.map Register.nodeNum).toFinset).card = n := h.1
  constructor
  · intro hs
    refine ⟨fun r hr => ?_, fun r hr => ?_⟩
    · rw [← Finset.mem_range, ← hs.numbers, hnum]
      exact Finset.mem_insert_of_mem (List.mem_toFinset.2 (List.mem_map_of_mem hr))
    · have hown := hs.own
      rw [lookup_register, hr] at hown
      exact Option.some.inj (Option.some.inj hown)
  · rintro ⟨hlt, hzero⟩
    have hpos : 0 < n := hcard ▸ Finset.card_pos.2 ⟨0, Finset.mem_insert_self _ _⟩
    -- `n` numbers below `n` are all the numbers below `n`
    have hsub : insert 0 (regs.map Register.nodeNum).toFinset ⊆ Finset.range n := by
      intro i hi
      rcases Finset.mem_insert.1 hi with rfl | hi
      · exact Finset.mem_range.2 hpos
      · obtain ⟨r, hr, rfl⟩ := List.mem_map.1 (List.mem_toFinset.1 hi)
        exact Finset.mem_range.2 (hlt r hr)
    have hrange : ((controller own).register regs).numbers = Finset.range n :=
      hnum.trans (Finset.eq_of_subset_of_card_le hsub (by rw [hcard, Finset.card_range]))
    obtain ⟨addr, haddr⟩ := exists_lookup hrange
    have hbody := Directory.ofAddrs_body haddr ((size_register own regs).trans h.1)
    refine ⟨hrange, ?_, (List.range n).map addr, hbody, by simp, ?_⟩
    · rw [lookup_register]
      cases hfind : regs.reverse.find? (·.nodeNum = 0) with
      | none => rfl
      | some r => exact congrArg (some ∘ some) (hzero r hfind)
    · rw [Message.serialize, hbody, Body.serialize_directory]
      exact ⟨_, rfl⟩

/-- For `n` nodes, and whatever `REGISTER` messages arrive: the loop leaves the map as
    it should be exactly if every node number that fills the map is below `n`, and the
    last registration for 0, if there is one, has the controller's own address. -/
theorem registrations_sound_iff (own : Address) (n : Nat) {regs : List Register} {ds : List Bytes}
    (hr : ∀ r ∈ regs, r.Storable inetNtop)
    (hds : regs.mapM (fun r => r.message.serialize) = some ds) :
    (∀ p, processRegistrations inetNtop n (Peers.controller own) ds = some p → p.Sound own n) ↔
      ∀ l, l <+: regs → Fills n l → (∀ r ∈ l, r.nodeNum < n) ∧
        ∀ r, l.reverse.find? (·.nodeNum = 0) = some r → r.clientAddr = own := by
  constructor
  · intro h l hl hfill
    refine (Peers.sound_register_iff hfill).1 (h _ ?_)
    exact (processRegistrations_eq_some_iff hr hds).2 ⟨l, hl, filled_controller_iff.2 hfill, rfl⟩
  · intro h p hp
    obtain ⟨l, hl, hfill, rfl⟩ := (processRegistrations_eq_some_iff hr hds).1 hp
    have hfill := filled_controller_iff.1 hfill
    exact (Peers.sound_register_iff hfill).2 (h l hl hfill)

/-- The address `127.0.0.1`, with a port. -/
def localhost (port : BitVec 16) : Address := ⟨lit "127.0.0.1", 0x0100007f, port⟩

/-- The registration of a node at `127.0.0.1`. -/
def registerAt (nodeNum : Nat) : Register := ⟨⟨0, 0, 0⟩, nodeNum, localhost 5556⟩

theorem storable_registerAt {nodeNum : Nat} (h : nodeNum < 2 ^ 64) :
    (registerAt nodeNum).Storable Message.dottedDecimal :=
  ⟨(⟨by decide, by decide, by decide⟩ : (⟨0, 0, 0⟩ : Header).Storable), h,
    (by decide : (localhost 5556).Canonical Message.dottedDecimal)⟩

theorem fills_registerAt {nodeNum : Nat} (h : nodeNum ≠ 0) : Fills 2 [registerAt nodeNum] := by
  constructor
  · simp [distinct, registerAt, Ne.symm h]
  · intro l hl hne
    rcases List.prefix_cons_iff.1 hl with rfl | ⟨t, rfl, ht⟩
    · decide
    · exact absurd (congrArg (registerAt nodeNum :: ·) (List.prefix_nil.1 ht)) hne

/-- Three nodes: the client 2 comes first, and once more, and one gives the number and the address
    of the controller. -/
def repeated : List Register :=
  [registerAt 2, ⟨⟨0, 0, 0⟩, 0, localhost 5555⟩, registerAt 2, registerAt 1]

theorem fills_repeated : Fills 3 repeated := by
  refine ⟨by decide, fun l hl hne => ?_⟩
  have hall : ∀ l ∈ repeated.inits, l ≠ repeated → distinct l ≠ 3 := by decide
  exact hall l ((List.mem_inits l repeated).2 hl) hne

theorem registrations_sound_repeated :
    ∃ ds p, repeated.mapM (fun r => r.message.serialize) = some ds ∧
      processRegistrations Message.dottedDecimal 3 (Peers.controller (localhost 5555)) ds = some p ∧
      p.Sound (localhost 5555) 3 := by
  have hr : ∀ r ∈ repeated, r.Storable Message.dottedDecimal := by
    intro r hr
    rcases List.mem_cons.1 hr with rfl | hr
    · exact storable_registerAt (by decide)
    · rcases List.mem_cons.1 hr with rfl | hr
      · exact ⟨⟨by decide, by decide, by decide⟩, by decide, by decide⟩
      · rcases List.mem_pair.1 hr with rfl | rfl <;> exact storable_registerAt (by decide)
  obtain ⟨ds, hds⟩ : ∃ ds, repeated.mapM (fun r => r.message.serialize) = some ds := ⟨_, rfl⟩
  have hfilled : (Peers.controller (localhost 5555)).Filled 3 repeated :=
    filled_controller_iff.2 fills_repeated
  have hleft := (processRegistrations_eq_some_iff hr hds).2 ⟨_, List.prefix_refl _, hfilled, rfl⟩
  refine ⟨ds, _, hds, hleft, (registrations_sound_iff _ 3 hr hds).2 (fun l hl _ => ?_) _ hleft⟩
  have hall : ∀ r ∈ repeated, r.nodeNum < 3 ∧ (r.nodeNum = 0 → r.clientAddr = localhost 5555) := by
    decide
  refine ⟨fun r hmem => (hall r (hl.subset hmem)).1, fun r hfind => ?_⟩
  have hmem := List.mem_reverse.1 (List.mem_of_find?_eq_some hfind)
  exact (hall r (hl.subset hmem)).2 (by simpa using List.find?_some hfind)

/-- Two nodes, and a client that gives the number 5: the map has two entries. -/
theorem registrations_sound_fails :
    ¬ ∀ (own : Address) (n : Nat) (regs : List Register) (ds : List Bytes),
      (∀ r ∈ regs, r.Storable Message.dottedDecimal) →
      regs.mapM (fun r => r.message.serialize) = some ds →
        ∀ p, processRegistrations Message.dottedDecimal n (Peers.controller own) ds = some p →
        p.Sound own n := by
  intro h
  have hr : ∀ r ∈ [registerAt 5], r.Storable Message.dottedDecimal :=
    List.forall_mem_singleton.2 (storable_registerAt (by decide))
  obtain ⟨d, hd, -⟩ := handleRegister_eq (hr _ List.mem_cons_self)
  have hds : [registerAt 5].mapM (fun r => r.message.serialize) = some [d] := by
    rw [List.mapM_cons, hd]
    rfl
  have hfill : Fills 2 [registerAt 5] := fills_registerAt (by decide)
  have hfilled : (Peers.controller (localhost 5555)).Filled 2 [registerAt 5] :=
    filled_controller_iff.2 hfill
  have hleft := (processRegistrations_eq_some_iff hr hds).2 ⟨_, List.prefix_refl _, hfilled, rfl⟩
  have hlt := ((Peers.sound_register_iff hfill).1 (h _ _ _ _ hr hds _ hleft)).1
  exact absurd (hlt _ List.mem_cons_self) (by decide)

end Eau2.Wire

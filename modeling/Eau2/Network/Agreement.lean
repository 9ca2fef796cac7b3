import Eau2.Network.Directory

/-!
# Agreement on the directory

Every client goes through the same stages (`Stage`), and every move of the
registration phase takes one client to its next stage, if any. A stage determines
all that the state holds of the client (`Shows`), and the controller's map is
determined by who is registered (`Inv`).

Main results: `inv_of_run`, the invariant holds along every run, so no assertion
fails; `Inv.progress`, some node can move as long as not all are done.
-/

namespace Eau2.Registration

open Wire Trace

/-- The stages of a client. -/
inductive Stage
  | start
  /-- Connected, and waiting to be accepted; its message may be sent. -/
  | queued (sent : Bool)
  /-- The controller waits for its message. -/
  | accepted (sent : Bool)
  | registered
  /-- The directory is sent to it. -/
  | answered
  | done
  deriving DecidableEq

namespace Stage

/-- The controller waits on its connection. -/
def receiving : Stage → Bool
  | accepted _ => true
  | _ => false

/-- The controller has its address. -/
def isRegistered : Stage → Bool
  | registered | answered | done => true
  | _ => false

/-- The directory is yet to be sent to it. -/
def pending : Stage → Bool
  | answered | done => false
  | _ => true

end Stage

/-- The directory is yet to be sent to the node `i`. -/
def State.Pending (s : State) (i : Nat) : Prop :=
  match s.controller with
  | .start | .accepting | .receiving _ => True
  | .broadcasting _ left => i ∈ left
  | .ending | .done | .failed => False

section
variable {inetNtop : BitVec 32 → Bytes} {n : Nat} {addr : Nat → Address}
  (enc : Encodings inetNtop n addr)
include enc

/-- The client `i` at a stage. -/
def Stage.client (i : Nat) : Stage → Client
  | start => ⟨.start, Peers.controller (addr 0), false, [], []⟩
  | queued sent => ⟨if sent then .waiting else .connected, Peers.controller (addr 0), true,
      if sent then [enc.register i] else [], []⟩
  | accepted sent => ⟨if sent then .waiting else .connected, Peers.controller (addr 0), false,
      if sent then [enc.register i] else [], []⟩
  | registered => ⟨.waiting, Peers.controller (addr 0), false, [], []⟩
  | answered => ⟨.waiting, Peers.controller (addr 0), false, [], [enc.directory]⟩
  | done => ⟨.done, enc.merged, false, [], []⟩

/-- What the state holds of the client `i`, at a stage. -/
structure Shows (s : State) (i : Nat) (st : Stage) : Prop where
  client : s.client i = st.client enc i
  receiving : s.controller = .receiving i ↔ st.receiving = true
  registered : i ∈ s.connections ↔ st.isRegistered = true
  pending : s.Pending i ↔ st.pending = true

/-- The invariant. -/
structure Inv (s : State) : Prop where
  shows : ∀ i, 0 < i → i < n → ∃ st, Shows enc s i st
  idle : ∀ i, ¬ (0 < i ∧ i < n) → s.client i = Stage.start.client enc i
  peers : ∀ j, s.peers.lookup j =
    if j = 0 ∨ j ∈ s.connections then some (some (entry inetNtop addr j)) else none
  connections : ∀ j c, s.connections.lookup j = some c → c = j ∧ 0 < j ∧ j < n
  receiving : ∀ c, s.controller = .receiving c → 0 < c ∧ c < n
  broadcasting : ∀ d left, s.controller = .broadcasting d left →
    d = enc.directory ∧ left.Nodup ∧ ∀ i ∈ left, i ∈ s.connections
  ne_failed : s.controller ≠ .failed

variable {enc} {s : State} {i : Nat} {st : Stage}

theorem Inv.stage (h : Inv enc s) (hi : s.client i ≠ Stage.start.client enc i) :
    0 < i ∧ i < n ∧ ∃ st, Shows enc s i st := by
  by_cases hrange : 0 < i ∧ i < n
  · exact ⟨hrange.1, hrange.2, h.shows i hrange.1 hrange.2⟩
  · exact absurd (h.idle i hrange) hi

/-- The client `i` goes to another stage, and what the controller holds of the others
    is as before. -/
theorem Inv.update (h : Inv enc s) (hs : Shows enc s i st) (st' : Stage) {t : State}
    (hi : 0 < i ∧ i < n)
    (hclient : t.client = Function.update s.client i (st'.client enc i))
    (hshows : (t.controller = .receiving i ↔ st'.receiving = true) ∧
      (i ∈ t.connections ↔ st'.isRegistered = true) ∧ (t.Pending i ↔ st'.pending = true))
    (hother : ∀ j, 0 < j → j < n → j ≠ i →
      (t.controller = .receiving j ↔ s.controller = .receiving j) ∧
      (j ∈ t.connections ↔ j ∈ s.connections) ∧ (t.Pending j ↔ s.Pending j)) :
    (∀ j, 0 < j → j < n → ∃ st, Shows enc t j st) ∧
      ∀ j, ¬ (0 < j ∧ j < n) → t.client j = Stage.start.client enc j := by
  constructor
  · intro j hj hjn
    by_cases hij : j = i
    · subst hij
      exact ⟨st', by rw [hclient, Function.update_self], hshows.1, hshows.2.1, hshows.2.2⟩
    · obtain ⟨stj, hsj⟩ := h.shows j hj hjn
      obtain ⟨hr, hreg, hp⟩ := hother j hj hjn hij
      refine ⟨stj, ?_, hr.trans hsj.receiving, hreg.trans hsj.registered, hp.trans hsj.pending⟩
      rw [hclient, Function.update_of_ne hij]
      exact hsj.client
  · intro j hj
    rw [hclient, Function.update_of_ne]
    · exact h.idle j hj
    · rintro rfl
      exact hj hi

/-- A client that moves by itself: the controller stays as it is. -/
theorem Inv.setClient (h : Inv enc s) (hs : Shows enc s i st) (st' : Stage) (hi : 0 < i ∧ i < n)
    (hr : st'.receiving = st.receiving) (hreg : st'.isRegistered = st.isRegistered)
    (hp : st'.pending = st.pending) : Inv enc (s.setClient i (st'.client enc i)) := by
  obtain ⟨hshows, hidle⟩ := h.update (t := s.setClient i (st'.client enc i)) hs st' hi rfl
    ⟨hr ▸ hs.receiving, hreg ▸ hs.registered, hp ▸ hs.pending⟩ fun _ _ _ _ => ⟨.rfl, .rfl, .rfl⟩
  exact ⟨hshows, hidle, h.peers, h.connections, h.receiving, h.broadcasting, h.ne_failed⟩

theorem Inv.connect {s' : State} (h : Inv enc s) (hs : connect n i s = some s') : Inv enc s' := by
  unfold Registration.connect at hs
  split_ifs at hs with hc
  cases hs
  obtain ⟨hpos, hlt, hphase⟩ := hc
  obtain ⟨st, hst⟩ := h.shows i hpos hlt
  rw [hst.client] at hphase ⊢
  cases st with
  | start => exact h.setClient hst (.queued false) ⟨hpos, hlt⟩ rfl rfl rfl
  | queued sent | accepted sent => cases sent <;> cases hphase
  | registered | answered | done => cases hphase

theorem Inv.register {s' : State} (h : Inv enc s) (hs : register addr i s = some s') :
    Inv enc s' := by
  unfold Registration.register at hs
  split_ifs at hs with hphase
  obtain ⟨hpos, hlt, st, hst⟩ := h.stage (i := i) (by rintro heq; rw [heq] at hphase; cases hphase)
  rw [enc.serialize_register i hlt] at hs
  cases hs
  rw [hst.client] at hphase ⊢
  cases st with
  | queued sent =>
    cases sent with
    | false => exact h.setClient hst (.queued true) ⟨hpos, hlt⟩ rfl rfl rfl
    | true => cases hphase
  | accepted sent =>
    cases sent with
    | false => exact h.setClient hst (.accepted true) ⟨hpos, hlt⟩ rfl rfl rfl
    | true => cases hphase
  | start | registered | answered | done => cases hphase

theorem Inv.directory {s' : State} (h : Inv enc s) (hs : directory inetNtop n i s = some s') :
    Inv enc s' := by
  have hne : s.client i ≠ Stage.start.client enc i := by
    rintro heq
    simp [Registration.directory, heq, Stage.client] at hs
  obtain ⟨hpos, hlt, st, hst⟩ := h.stage hne
  rw [Registration.directory] at hs
  simp only [hst.client] at hs
  cases st with
  | answered =>
    simp only [Stage.client, enc.handleDirectory_eq, enc.merged_agrees.size, if_true,
      Option.some.injEq] at hs
    rw [← hs]
    exact h.setClient hst .done ⟨hpos, hlt⟩ rfl rfl rfl
  | queued sent | accepted sent => cases sent <;> cases hs
  | start | registered | done => cases hs

theorem Inv.accept {t : State} (h : Inv enc s) (hs : accept n i s = some t) : Inv enc t := by
  unfold Registration.accept at hs
  split_ifs at hs with hc
  obtain ⟨hctl, -, hqueued⟩ := hc
  obtain ⟨hpos, hlt, st, hst⟩ :=
    h.stage (i := i) (by rintro heq; rw [heq] at hqueued; cases hqueued)
  rw [hst.client] at hs hqueued
  cases st with
  | queued sent =>
    -- the client is the one the controller receives from now on
    have ht : t = (s.setClient i ((Stage.accepted sent).client enc i)).setController
        (.receiving i) :=
      (Option.some.inj hs).symm
    have hctl' : t.controller = .receiving i := by rw [ht]; rfl
    have hconn : t.connections = s.connections := by rw [ht]; rfl
    obtain ⟨hshows, hidle⟩ := h.update (t := t) hst (.accepted sent) ⟨hpos, hlt⟩ (by rw [ht]; rfl)
      ⟨by simp [hctl', Stage.receiving], hconn ▸ hst.registered,
        by simp [State.Pending, hctl', Stage.pending]⟩ (by
        intro j _ _ hj
        simp [State.Pending, hctl, hctl', hconn, Ne.symm hj])
    refine ⟨hshows, hidle, by rw [ht]; exact h.peers, hconn ▸ h.connections, ?_, ?_,
      by simp [hctl']⟩
    · intro c hc
      obtain rfl : i = c := Controller.receiving.inj (hctl'.symm.trans hc)
      exact ⟨hpos, hlt⟩
    · intro d left hb
      rw [hctl'] at hb
      cases hb
  | start | registered | answered | done | accepted sent => cases hqueued

/-- A registered client to which the directory is yet to be sent. -/
theorem Shows.eq_registered (h : Shows enc s i st) (hr : i ∈ s.connections) (hp : s.Pending i) :
    st = .registered := by
  have hr := h.registered.1 hr
  have hp := h.pending.1 hp
  cases st with
  | registered => rfl
  | start | queued _ | accepted _ => cases hr
  | answered | done => cases hp

theorem Inv.broadcast {t : State} (h : Inv enc s) (hs : broadcast i s = some t) : Inv enc t := by
  unfold Registration.broadcast at hs
  split at hs
  · next d left c hctl hlookup =>
    split_ifs at hs with hleft
    obtain ⟨rfl, hpos, hlt⟩ := h.connections i c hlookup
    obtain ⟨rfl, hnodup, hsub⟩ := h.broadcasting d left hctl
    obtain ⟨st, hst⟩ := h.shows c hpos hlt
    have hpending (j : Nat) : s.Pending j ↔ j ∈ left := by rw [State.Pending, hctl]
    -- the clients left to answer are registered, and have not been answered
    obtain rfl := hst.eq_registered (hsub c hleft) ((hpending c).2 hleft)
    rw [hst.client] at hs
    have ht : t = (s.setClient c (Stage.answered.client enc c)).setController
        (.broadcasting enc.directory (left.erase c)) := (Option.some.inj hs).symm
    have hctl' : t.controller = .broadcasting enc.directory (left.erase c) := by rw [ht]; rfl
    have hconn : t.connections = s.connections := by rw [ht]; rfl
    have hpending' (j : Nat) : t.Pending j ↔ j ∈ left.erase c := by rw [State.Pending, hctl']
    obtain ⟨hshows, hidle⟩ := h.update (t := t) hst .answered ⟨hpos, hlt⟩ (by rw [ht]; rfl)
      ⟨by simp [hctl', Stage.receiving], hconn ▸ hst.registered, by
        simp [hpending', Stage.pending, hnodup.not_mem_erase]⟩ (by
        intro j _ _ hj
        rw [hpending, hpending', List.mem_erase_of_ne hj, hconn]
        simp [hctl, hctl'])
    refine ⟨hshows, hidle, by rw [ht]; exact h.peers, hconn ▸ h.connections, ?_, ?_,
      by simp [hctl']⟩
    · intro c hc
      rw [hctl'] at hc
      cases hc
    · intro d left' hb
      obtain ⟨rfl, rfl⟩ := Controller.broadcasting.inj (hctl'.symm.trans hb)
      exact ⟨rfl, hnodup.erase c, fun j hj => hconn ▸ hsub j (List.mem_of_mem_erase hj)⟩
  · cases hs

/-- When the controller has `n` entries, all the clients are registered. -/
theorem Inv.registered (h : Inv enc s) (hsize : s.peers.size = n) (hpos : 0 < i) (hlt : i < n) :
    i ∈ s.connections := by
  have hsub : s.peers.numbers ⊆ Finset.range n := by
    intro j hj
    rw [Peers.mem_numbers, ← AList.lookup_isSome, h.peers] at hj
    rw [Finset.mem_range]
    split_ifs at hj with hor
    · rcases hor with rfl | hmem
      · exact hpos.trans hlt
      · obtain ⟨c, hc⟩ := Option.isSome_iff_exists.1 (AList.lookup_isSome.2 hmem)
        exact (h.connections j c hc).2.2
    · cases hj
  have heq := Finset.eq_of_subset_of_card_le hsub
    (by rw [Peers.card_numbers, hsize, Finset.card_range])
  have hi : i ∈ s.peers.numbers := heq ▸ Finset.mem_range.2 hlt
  rw [Peers.mem_numbers, ← AList.lookup_isSome, h.peers] at hi
  split_ifs at hi with hor
  · exact hor.resolve_left hpos.ne'
  · cases hi

/-- When all the clients are registered, the controller's map is right. -/
theorem Inv.agrees (h : Inv enc s) (hn : 0 < n) (hall : ∀ i, 0 < i → i < n → i ∈ s.connections) :
    Agrees inetNtop n addr s.peers := by
  intro j
  rw [h.peers]
  congr 1
  rw [eq_iff_iff]
  constructor
  · rintro (rfl | hmem)
    · exact hn
    · obtain ⟨c, hc⟩ := Option.isSome_iff_exists.1 (AList.lookup_isSome.2 hmem)
      exact (h.connections j c hc).2.2
  · intro hj
    rcases Nat.eq_zero_or_pos j with rfl | hpos
    · exact Or.inl rfl
    · exact Or.inr (hall j hpos hj)

/-- Nothing is left to be sent when the broadcast is over: all are registered. -/
theorem Inv.agrees_of_not_pending (h : Inv enc s) (hn : 0 < n) (hp : ∀ i, ¬ s.Pending i) :
    Agrees inetNtop n addr s.peers := by
  refine h.agrees hn fun i hpos hlt => ?_
  obtain ⟨st, hst⟩ := h.shows i hpos hlt
  have hpending : st.pending ≠ true := fun hp' => hp i (hst.pending.2 hp')
  rw [hst.registered]
  cases st with
  | answered | done => rfl
  | start | queued _ | accepted _ | registered => exact absurd rfl hpending

/-- A move that changes nothing for the clients, the map and the connections. -/
theorem Inv.setController (h : Inv enc s) {c : Controller} (hr : ∀ i, c ≠ .receiving i)
    (hs : ∀ i, s.controller ≠ .receiving i) (hp : ∀ i, 0 < i → i < n →
      ((s.setController c).Pending i ↔ s.Pending i))
    (hb : ∀ d left, c = .broadcasting d left → d = enc.directory ∧ left.Nodup ∧
      ∀ i ∈ left, i ∈ s.connections)
    (hc : c ≠ .failed) : Inv enc (s.setController c) where
  shows i hpos hlt := by
    obtain ⟨st, hst⟩ := h.shows i hpos hlt
    refine ⟨st, hst.client, ?_, hst.registered, (hp i hpos hlt).trans hst.pending⟩
    rw [← hst.receiving]
    exact iff_of_false (hr i) (hs i)
  idle := h.idle
  peers := h.peers
  connections := h.connections
  receiving i hi := absurd hi (hr i)
  broadcasting := hb
  ne_failed := hc

/-- The directory is made when the map is right, and it is not changed by that. -/
theorem Inv.makeDirectory (h : Inv enc s) (hn : 0 < n) (hctl : s.controller = .accepting)
    (hsize : s.peers.size = n) :
    makeDirectory s = (s.setController (.broadcasting enc.directory s.connections.keys),
        [.directory (directoryMessage inetNtop n addr)]) ∧
      Inv enc (s.setController (.broadcasting enc.directory s.connections.keys)) := by
  have hall (i : Nat) (hpos : 0 < i) (hlt : i < n) : i ∈ s.connections :=
    h.registered hsize hpos hlt
  have hagrees := h.agrees hn hall
  have hmsg : Directory.ofAddrs s.peers = directoryMessage inetNtop n addr := by
    rw [directoryMessage, ← Directory.ofAddrs_body hagrees hsize]
    rfl
  constructor
  · rw [Registration.makeDirectory, hmsg, enc.serialize_directory,
      Directory.collect_eq hagrees hsize]
  · refine h.setController (by simp) (by simp [hctl]) (fun i hpos hlt => ?_) ?_ (by simp)
    · simp only [State.Pending, State.setController_controller, hctl, iff_true]
      exact AList.mem_keys.1 (hall i hpos hlt)
    · rintro d left ⟨⟩
      exact ⟨rfl, s.connections.keys_nodup, fun i hi => AList.mem_keys.2 hi⟩

/-- The message of the client `c` is handled. -/
theorem Inv.receive {t : State} {c : Nat} (h : Inv enc s) (hst : Shows enc s c (.accepted true))
    (hc : 0 < c ∧ c < n) (hctl : s.controller = .receiving c)
    (ht : t = { s.setClient c (Stage.registered.client enc c) with
      controller := .accepting
      peers := s.peers.insert c (some (entry inetNtop addr c))
      connections := s.connections.insert c c }) : Inv enc t := by
  have hctl' : t.controller = .accepting := by rw [ht]
  have hmem (j : Nat) : j ∈ t.connections ↔ j = c ∨ j ∈ s.connections := by
    rw [ht, AList.mem_insert]
  obtain ⟨hshows, hidle⟩ := h.update (t := t) hst .registered hc (by rw [ht]; rfl)
    ⟨by simp [hctl', Stage.receiving], by simp [hmem, Stage.isRegistered],
      by simp [State.Pending, hctl', Stage.pending]⟩ (by
      intro j _ _ hj
      simp [State.Pending, hctl, hctl', hmem, hj, Ne.symm hj])
  refine ⟨hshows, hidle, fun j => ?_, fun j c' hj => ?_, by simp [hctl'], by simp [hctl'],
    by simp [hctl']⟩
  · by_cases hj : j = c
    · subst hj
      rw [if_pos (Or.inr ((hmem j).2 (Or.inl rfl))), ht, AList.lookup_insert]
    · simp only [hmem, hj, false_or]
      rw [ht, AList.lookup_insert_ne hj, h.peers]
  · rw [ht] at hj
    by_cases hjc : j = c
    · subst hjc
      rw [AList.lookup_insert] at hj
      cases hj
      exact ⟨rfl, hc⟩
    · rw [AList.lookup_insert_ne hjc] at hj
      exact h.connections j c' hj

theorem Inv.controllerStep {t : State} {ev : List Event} (h : Inv enc s) (hn : 0 < n)
    (hs : controllerStep inetNtop n s = some (t, ev)) :
    Inv enc t ∧ ∀ e ∈ ev, e = .directory (directoryMessage inetNtop n addr) := by
  unfold Registration.controllerStep at hs
  split at hs
  · next hctl =>
    cases hs
    refine ⟨?_, nofun⟩
    split_ifs with hone
    · exact h.setController nofun (by simp [hctl]) (by simp [State.Pending, hctl]) nofun nofun
    · exact h.setController nofun (by simp [hctl]) (fun i hpos hlt => by omega) nofun nofun
  · next hctl =>
    split_ifs at hs with hsize
    -- all the clients are registered: the directory is made
    obtain ⟨hmake, hinv⟩ := h.makeDirectory hn hctl hsize
    rw [hmake] at hs
    cases hs
    exact ⟨hinv, by simp⟩
  · next c hctl =>
    obtain ⟨hpos, hlt⟩ := h.receiving c hctl
    obtain ⟨st, hst⟩ := h.shows c hpos hlt
    have hr := hst.receiving.1 hctl
    rw [hst.client] at hs
    cases st with
    | accepted sent =>
      cases sent with
      | true =>
        simp only [Stage.client, if_true, enc.handleRegister_eq c hlt hpos, Option.some.injEq,
          Prod.mk.injEq] at hs
        exact ⟨h.receive hst ⟨hpos, hlt⟩ hctl hs.1.symm, hs.2 ▸ nofun⟩
      | false => cases hs
    | start | queued _ | registered | answered | done => cases hr
  · next d hctl =>
    cases hs
    refine ⟨h.setController nofun (by simp [hctl])
      (by simp [State.Pending, hctl]) nofun nofun, nofun⟩
  · cases hs
  · next hctl =>
    cases hs
    refine ⟨?_, nofun⟩
    -- nobody is left to send the directory to
    have hp (i : Nat) : ¬ s.Pending i := by simp [State.Pending, hctl]
    rw [if_pos (h.agrees_of_not_pending hn hp).size]
    exact h.setController nofun (by simp [hctl]) (by simp [State.Pending, hctl]) nofun nofun
  · cases hs
  · cases hs

theorem Inv.step {t : State} {ev : List Event} (h : Inv enc s) (hn : 0 < n) {a : Action}
    (hs : step inetNtop n addr a s = some (t, ev)) :
    Inv enc t ∧ ∀ e ∈ ev, e = .directory (directoryMessage inetNtop n addr) := by
  have hmap {o : Option State} (ho : o.map (·, ([] : List Event)) = some (t, ev)) :
      o = some t ∧ ∀ e ∈ ev, e = .directory (directoryMessage inetNtop n addr) := by
    obtain ⟨t', ht, heq⟩ := Option.map_eq_some_iff.1 ho
    cases heq
    exact ⟨ht, nofun⟩
  cases a with
  | connect i => exact ⟨h.connect (hmap hs).1, (hmap hs).2⟩
  | register i => exact ⟨h.register (hmap hs).1, (hmap hs).2⟩
  | directory i => exact ⟨h.directory (hmap hs).1, (hmap hs).2⟩
  | controller => exact h.controllerStep hn hs
  | accept i => exact ⟨h.accept (hmap hs).1, (hmap hs).2⟩
  | broadcast i => exact ⟨h.broadcast (hmap hs).1, (hmap hs).2⟩

/-- Whoever is not done, some node can move. -/
theorem Inv.progress (h : Inv enc s) (hn : 0 < n) :
    (∃ a, (Registration.step inetNtop n addr a s).isSome) ∨
      s.controller = .done ∧ ∀ i, 0 < i → i < n → (s.client i).phase = .done := by
  cases hctl : s.controller with
  | start =>
    exact Or.inl ⟨.controller, by simp [Registration.step, Registration.controllerStep, hctl]⟩
  | accepting =>
    refine Or.inl ?_
    by_cases hsize : s.peers.size = n
    · exact ⟨.controller, by simp [Registration.step, Registration.controllerStep, hctl, hsize]⟩
    · -- An entry is missing, so that a client is not registered: it connects, or is accepted.
      have hex : ∃ i, 0 < i ∧ i < n ∧ i ∉ s.connections := by
        by_contra! hall
        exact hsize (h.agrees hn hall).size
      obtain ⟨i, hpos, hlt, hi⟩ := hex
      obtain ⟨st, hst⟩ := h.shows i hpos hlt
      cases st with
      | start =>
        exact ⟨.connect i, by simp [Registration.step, Registration.connect, hst.client,
          Stage.client, hpos, hlt]⟩
      | queued sent =>
        exact ⟨.accept i, by simp [Registration.step, Registration.accept,
          hst.client, Stage.client, hctl, hsize]⟩
      | accepted sent => exact absurd (hctl.symm.trans (hst.receiving.2 rfl)) nofun
      | registered | answered | done => exact absurd (hst.registered.2 rfl) hi
  | receiving c =>
    obtain ⟨hpos, hlt⟩ := h.receiving c hctl
    obtain ⟨st, hst⟩ := h.shows c hpos hlt
    have hr := hst.receiving.1 hctl
    refine Or.inl ?_
    cases st with
    | accepted sent =>
      cases sent with
      | false =>
        refine ⟨.register c, ?_⟩
        simp [Registration.step, Registration.register, hst.client, Stage.client,
          enc.serialize_register c hlt]
      | true =>
        refine ⟨.controller, ?_⟩
        simp [Registration.step, Registration.controllerStep, hctl, hst.client, Stage.client,
          enc.handleRegister_eq c hlt hpos]
    | start | queued _ | registered | answered | done => cases hr
  | broadcasting d left =>
    refine Or.inl ?_
    obtain ⟨-, -, hsub⟩ := h.broadcasting d left hctl
    cases left with
    | nil => exact ⟨.controller, by simp [Registration.step, Registration.controllerStep, hctl]⟩
    | cons i left =>
      -- the controller has a connection with every client left to answer
      obtain ⟨c, hc⟩ := Option.isSome_iff_exists.1
        (AList.lookup_isSome.2 (hsub i List.mem_cons_self))
      exact ⟨.broadcast i, by simp [Registration.step, Registration.broadcast, hctl, hc]⟩
  | ending =>
    exact Or.inl ⟨.controller, by simp [Registration.step, Registration.controllerStep, hctl]⟩
  | done =>
    by_cases hall : ∀ i, 0 < i → i < n → (s.client i).phase = .done
    · exact Or.inr ⟨rfl, hall⟩
    · push Not at hall
      obtain ⟨i, hpos, hlt, hi⟩ := hall
      obtain ⟨st, hst⟩ := h.shows i hpos hlt
      -- the directory has been sent to all, so that this one has it
      have hp : st.pending ≠ true := fun hp => by simpa [State.Pending, hctl] using hst.pending.2 hp
      rw [hst.client] at hi
      refine Or.inl ⟨.directory i, ?_⟩
      cases st with
      | answered =>
        simp [Registration.step, Registration.directory, hst.client, Stage.client,
          enc.handleDirectory_eq]
      | done => exact absurd rfl hi
      | start | queued _ | accepted _ | registered => exact absurd rfl hp
  | failed => exact absurd hctl h.ne_failed

end

variable {inetNtop : BitVec 32 → Bytes} {n : Nat} {addr : Nat → Address} {s : State}
  {l : List Event}

theorem inv_init (enc : Encodings inetNtop n addr) : Inv enc (init addr) where
  shows i _ _ := ⟨.start, rfl, by simp [init, Stage.receiving],
    by simp [init, Stage.isRegistered], by
    simp [init, State.Pending, Stage.pending]⟩
  idle _ _ := rfl
  peers j := by
    have hnone : j ∉ (∅ : AList fun _ : Nat => Nat) := AList.notMem_empty j
    simp only [init, Peers.lookup_controller, hnone, or_false]
    split_ifs with hj
    · rw [hj, entry, if_pos rfl]
    · rfl
  connections j c h := by simp [init] at h
  receiving c h := by simp [init] at h
  broadcasting d left h := by simp [init] at h
  ne_failed := by simp [init]

/-- Every state reached satisfies the invariant, and every directory made is the right one. -/
theorem inv_of_run (enc : Encodings inetNtop n addr) (hn : 0 < n)
    (h : Run (Registration.step inetNtop n addr) (fun _ _ => True) (init addr) l s) :
    Inv enc s ∧ ∀ e ∈ l, e = .directory (directoryMessage inetNtop n addr) := by
  refine h.invariant (fun l s => Inv enc s ∧ ∀ e ∈ l, e = .directory
    (directoryMessage inetNtop n addr))
    ⟨inv_init enc, nofun⟩ fun hP _ hs => ?_
  obtain ⟨hinv, hev⟩ := hP.1.step hn hs
  refine ⟨hinv, fun e he => ?_⟩
  rcases List.mem_append.1 he with he | he
  · exact hP.2 e he
  · exact hev e he

end Eau2.Registration

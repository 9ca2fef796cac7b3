import Eau2.Network.Agreement
import Mathlib.Algebra.Order.BigOperators.Group.Finset
import Mathlib.Algebra.BigOperators.Group.Finset.Piecewise

/-!
# The registration phase ends

Every move brings the phase nearer to its end (`weight`): a client has fewer stages
before it, or the controller has. As some node can move as long as not all are
done, every run can be continued to the end.

Main result: `agreement`, when the nodes are done they hold the same address for
every node.
-/

namespace Eau2.Registration

open Wire Trace

def Phase.weight : Phase → Nat
  | start => 6
  | connected => 3
  | waiting => 1
  | done | failed => 0

/-- What a client has before it, and what is to be read of its connection. -/
def Client.weight (c : Client) : Nat :=
  c.phase.weight + (if c.queued then 2 else 0) + c.toController.length + c.toClient.length

/-- What the controller of `n` nodes has before it. -/
def Controller.weight (n : Nat) : Controller → Nat
  | start => 2 * n + 5
  | accepting => 2 * n + 3
  | receiving _ => 2 * n + 4
  | broadcasting _ left => 2 * left.length + 2
  | ending => 1
  | done | failed => 0

def State.weight (n : Nat) (s : State) : Nat :=
  s.controller.weight n + ∑ i ∈ Finset.range n, (s.client i).weight

variable {inetNtop : BitVec 32 → Bytes} {n : Nat} {addr : Nat → Address}
  {enc : Encodings inetNtop n addr}
  {s t : State} {i : Nat}

/-- A client and the controller go on, the other clients staying as they are. -/
theorem weight_lt {c : Client} (hi : i < n) (ht : t.client = Function.update s.client i c)
    (hlt : t.controller.weight n + c.weight < s.controller.weight n + (s.client i).weight) :
    t.weight n < s.weight n := by
  have hmem : i ∈ Finset.range n := Finset.mem_range.2 hi
  have hsum (f : Nat → Client) : ∑ j ∈ Finset.range n, (f j).weight =
      (f i).weight + ∑ j ∈ Finset.range n \ {i}, (f j).weight := by
    rw [Finset.sum_eq_add_sum_sdiff_singleton_of_mem hmem]
  have hrest : ∑ j ∈ Finset.range n \ {i}, (t.client j).weight =
      ∑ j ∈ Finset.range n \ {i}, (s.client j).weight := by
    refine Finset.sum_congr rfl fun j hj => ?_
    rw [ht, Function.update_of_ne (by simpa using (Finset.mem_sdiff.1 hj).2)]
  have hself : (t.client i).weight = c.weight := by rw [ht, Function.update_self]
  rw [State.weight, State.weight, hsum t.client, hsum s.client, hrest, hself]
  omega

/-- The controller goes on by itself. -/
theorem weight_lt_of_controller (ht : t.client = s.client)
    (hlt : t.controller.weight n < s.controller.weight n) : t.weight n < s.weight n := by
  rw [State.weight, State.weight, ht]
  omega

theorem connect_weight (hs : connect n i s = some t) : t.weight n < s.weight n := by
  unfold connect at hs
  split_ifs at hs with hc
  cases hs
  obtain ⟨-, hlt, hphase⟩ := hc
  refine weight_lt hlt rfl ?_
  simp only [State.setClient_controller, Client.weight, hphase, Phase.weight]
  split_ifs <;> omega

theorem Inv.register_weight (h : Inv enc s) (hs : Registration.register addr i s = some t) :
    t.weight n < s.weight n := by
  unfold Registration.register at hs
  split_ifs at hs with hphase
  obtain ⟨-, hlt, -⟩ := h.stage (i := i) (by rintro heq; rw [heq] at hphase; cases hphase)
  split at hs
  · cases hs
    refine weight_lt hlt rfl ?_
    simp only [State.setClient_controller, Client.weight, hphase, Phase.weight, List.length_append,
      List.length_singleton]
    omega
  · cases hs
    refine weight_lt hlt rfl ?_
    simp only [State.setClient_controller, Client.weight, hphase, Phase.weight]
    omega

theorem Inv.directory_weight (h : Inv enc s) (hs : Registration.directory inetNtop n i s = some t) :
    t.weight n < s.weight n := by
  have hlt : i < n := by
    by_contra hn
    have hidle := h.idle i fun hr => hn hr.2
    simp [Registration.directory, hidle, Stage.client] at hs
  unfold Registration.directory at hs
  split at hs
  · next d rest hphase hclient =>
    split at hs
    · cases hs
      refine weight_lt hlt rfl ?_
      have hdone (p : Peers) : (if p.size = n then Phase.done else .failed).weight = 0 := by
        split_ifs <;> rfl
      simp only [State.setClient_controller, Client.weight, hphase, hclient, hdone,
        List.length_cons]
      simp only [Phase.weight]
      omega
    · cases hs
      refine weight_lt hlt rfl ?_
      simp only [State.setClient_controller, Client.weight, hphase, hclient, Phase.weight]
      omega
  · cases hs

theorem Inv.accept_weight (h : Inv enc s) (hs : Registration.accept n i s = some t) :
    t.weight n < s.weight n := by
  unfold Registration.accept at hs
  split_ifs at hs with hc
  obtain ⟨hctl, -, hqueued⟩ := hc
  obtain ⟨-, hlt, -⟩ := h.stage (i := i) (by rintro heq; rw [heq] at hqueued; cases hqueued)
  cases hs
  refine weight_lt hlt rfl ?_
  simp only [State.setController_controller, Client.weight, hctl, hqueued,
    Controller.weight, if_true]
  simp only [Bool.false_eq_true, if_false]
  omega

theorem Inv.broadcast_weight (h : Inv enc s) (hs : Registration.broadcast i s = some t) :
    t.weight n < s.weight n := by
  unfold Registration.broadcast at hs
  split at hs
  · next d left c hctl hlookup =>
    split_ifs at hs with hleft
    obtain ⟨rfl, -, hlt⟩ := h.connections i c hlookup
    cases hs
    refine weight_lt hlt rfl ?_
    have hlen := List.length_erase_of_mem hleft
    have hpos := List.length_pos_of_mem hleft
    simp only [State.setController_controller, Client.weight, hctl, Controller.weight,
      List.length_append, List.length_singleton, hlen]
    omega
  · cases hs

/-- The directory is sent to less than `n` nodes. -/
theorem Inv.length_keys_le (h : Inv enc s) : s.connections.keys.length ≤ n := by
  have hsub : s.connections.keys ⊆ List.range n := by
    intro j hj
    obtain ⟨c, hc⟩ := Option.isSome_iff_exists.1 (AList.lookup_isSome.2 (AList.mem_keys.2 hj))
    exact List.mem_range.2 (h.connections j c hc).2.2
  have hperm := List.subperm_of_subset s.connections.keys_nodup hsub
  exact hperm.length_le.trans_eq List.length_range

theorem Inv.controllerStep_weight {ev : List Event} (h : Inv enc s) (hn : 0 < n)
    (hs : Registration.controllerStep inetNtop n s = some (t, ev)) : t.weight n < s.weight n := by
  unfold Registration.controllerStep at hs
  split at hs
  · next hctl =>
    cases hs
    refine weight_lt_of_controller rfl ?_
    rw [State.setController_controller, hctl]
    split_ifs <;> simp only [Controller.weight] <;> omega
  · next hctl =>
    split_ifs at hs with hsize
    rw [(h.makeDirectory hn hctl hsize).1] at hs
    cases hs
    -- at most `n` clients are to be answered, which the weight has provided for
    have hlen := h.length_keys_le
    refine weight_lt_of_controller rfl ?_
    simp only [State.setController_controller, hctl, Controller.weight]
    omega
  · next c hctl =>
    have hlt := (h.receiving c hctl).2
    split at hs
    · cases hs
    · next d rest hclient =>
      split at hs
      · cases hs
        refine weight_lt hlt rfl ?_
        simp only [Client.weight, hctl, hclient, Controller.weight, List.length_cons]
        omega
      · cases hs
        refine weight_lt_of_controller rfl ?_
        simp only [State.setController_controller, hctl, Controller.weight]
        omega
  · next d hctl =>
    cases hs
    refine weight_lt_of_controller rfl ?_
    simp only [State.setController_controller, hctl, Controller.weight]
    omega
  · cases hs
  · next hctl =>
    cases hs
    refine weight_lt_of_controller rfl ?_
    rw [State.setController_controller, hctl]
    split_ifs <;> simp only [Controller.weight] <;> omega
  · cases hs
  · cases hs

/-- Every move brings the phase nearer to its end. -/
theorem Inv.weight_lt {ev : List Event} (h : Inv enc s) (hn : 0 < n) {a : Action}
    (hs : Registration.step inetNtop n addr a s = some (t, ev)) : t.weight n < s.weight n := by
  have hmap {o : Option State} (ho : o.map (·, ([] : List Event)) = some (t, ev)) : o = some t := by
    obtain ⟨t', ht, heq⟩ := Option.map_eq_some_iff.1 ho
    cases heq
    exact ht
  cases a with
  | connect i => exact connect_weight (hmap hs)
  | register i => exact h.register_weight (hmap hs)
  | directory i => exact h.directory_weight (hmap hs)
  | controller => exact h.controllerStep_weight hn hs
  | accept i => exact h.accept_weight (hmap hs)
  | broadcast i => exact h.broadcast_weight (hmap hs)

/-- Every run can be continued until all nodes are done. -/
theorem exists_run_done (hpos : 0 < n) (hn : n < 2 ^ 64) {l : List Event}
    (h : Run (step inetNtop n addr) (fun _ _ => True) (init addr) l s) :
    ∃ l' t, Run (step inetNtop n addr) (fun _ _ => True) (init addr) (l ++ l') t ∧
      t.controller = .done ∧ ∀ i, 0 < i → i < n → (t.client i).phase = .done := by
  obtain ⟨enc⟩ : Nonempty (Encodings inetNtop n addr) := exists_encodings hpos hn
  induction hw : s.weight n using Nat.strong_induction_on generalizing s l with
  | h w ih =>
    obtain ⟨hinv, -⟩ := inv_of_run enc hpos h
    rcases hinv.progress hpos with ⟨a, ha⟩ | hdone
    · obtain ⟨⟨t, ev⟩, hs⟩ := Option.isSome_iff_exists.1 ha
      have hrun := Run.move h trivial hs
      obtain ⟨l', t', hrun', hdone⟩ := ih (t.weight n) (hw ▸ hinv.weight_lt hpos hs) hrun rfl
      refine ⟨ev ++ l', t', ?_, hdone⟩
      rw [← List.append_assoc]
      exact hrun'
    · exact ⟨[], s, (List.append_nil l).symm ▸ h, hdone⟩

/-- In every run, whatever the order in which the clients connect and send their
    messages: no assertion fails; the directory lists the addresses in node order; a node
    that is done has exactly the entries of the `n` nodes, each the address of the node;
    and the run can be continued until all are done. -/
theorem agreement {l : List Event} (hn : 1 ≤ n) (hn' : n < 2 ^ 64)
    (h : Run (step inetNtop n addr) (fun _ _ => True) (init addr) l s) :
    ∃ entry : Nat → Address,
      (∀ i, (entry i).ipBytes = (addr i).ipBytes ∧ (entry i).port = (addr i).port) ∧
      (s.controller ≠ .failed ∧ ∀ i, (s.client i).phase ≠ .failed) ∧
      (∀ m, .directory m ∈ l → m.body = .directory ((List.range n).map fun i => some (entry i))) ∧
      (s.controller = .done → s.peers.numbers = Finset.range n ∧ s.peers.size = n ∧
        ∀ i < n, s.peers.lookup i = some (some (entry i))) ∧
      (∀ j, 0 < j → j < n → (s.client j).phase = .done → (s.client j).peers.numbers =
        Finset.range n ∧
        (s.client j).peers.size = n ∧ ∀ i < n, (s.client j).peers.lookup i =
          some (some (entry i))) ∧
      ∃ l' t, Run (step inetNtop n addr) (fun _ _ => True) (init addr) (l ++ l') t ∧
        t.controller = .done ∧ ∀ i, 0 < i → i < n → (t.client i).phase = .done := by
  obtain ⟨enc⟩ : Nonempty (Encodings inetNtop n addr) := exists_encodings hn hn'
  obtain ⟨hinv, hdir⟩ := inv_of_run enc hn h
  have hagreed {p : Peers} (hp : Agrees inetNtop n addr p) :
    p.numbers = Finset.range n ∧ p.size = n ∧
      ∀ i < n, p.lookup i = some (some (entry inetNtop addr i)) :=
    ⟨hp.numbers, hp.size, fun i hi => (hp i).trans (if_pos hi)⟩
  refine ⟨entry inetNtop addr, entry_eq, ⟨hinv.ne_failed, fun i => ?_⟩, fun m hm => ?_,
    fun hdone => ?_, fun j hpos hlt hdone => ?_, exists_run_done hn hn' h⟩
  · -- A client shows a stage, and none of them is a failure.
    by_cases hi : s.client i = Stage.start.client enc i
    · rw [hi]
      nofun
    · obtain ⟨-, -, st, hst⟩ := hinv.stage hi
      rw [hst.client]
      cases st with
      | queued sent | accepted sent => cases sent <;> nofun
      | start | registered | answered | done => nofun
  · cases hdir _ hm
    rw [directoryMessage, List.map_map]
    rfl
  · exact hagreed (hinv.agrees_of_not_pending hn fun i => by simp [State.Pending, hdone])
  · obtain ⟨st, hst⟩ := hinv.shows j hpos hlt
    rw [hst.client] at hdone ⊢
    cases st with
    | done => exact hagreed enc.merged_agrees
    | queued sent | accepted sent => cases sent <;> cases hdone
    | start | registered | answered => cases hdone

/-- Three nodes at `127.0.0.1`: the client 2 is registered before the client 1 has connected, and
    in the end all have the same map. -/
theorem agreement_outOfOrder : ∃ l s t,
    Run (step Message.dottedDecimal 3 fun i => localhost (5555 + i)) (fun _ _ => True)
      (init fun i => localhost (5555 + i)) [] s ∧
    s.peers.lookup 2 = some (some (localhost 5557)) ∧ s.peers.lookup 1 = none ∧
    Run (step Message.dottedDecimal 3 fun i => localhost (5555 + i)) (fun _ _ => True)
      (init fun i => localhost (5555 + i)) l t ∧
    ∀ i < 3, t.peers.lookup i = (t.client 1).peers.lookup i ∧
      t.peers.lookup i = (t.client 2).peers.lookup i ∧ ∃ a, t.peers.lookup i = some (some a) := by
  obtain ⟨s, hexec, htwo, hone⟩ : ∃ s, exec
      (step Message.dottedDecimal 3 fun i => localhost (5555 + i))
      [.controller, .connect 2, .register 2, .accept 2, .controller]
      (init fun i => localhost (5555 + i)) = some (s, []) ∧
      s.peers.lookup 2 = some (some (localhost 5557)) ∧ s.peers.lookup 1 = none :=
      ⟨_, rfl, rfl, rfl⟩
  have hrun := Run.of_exec hexec fun _ _ _ => trivial
  obtain ⟨l, t, hrun', hdone, hclient⟩ := exists_run_done (by decide) (by decide) hrun
  obtain ⟨entry, -, -, -, hctl, hcl, -⟩ := agreement (by decide) (by decide) hrun'
  obtain ⟨-, -, hpeers⟩ := hctl hdone
  obtain ⟨-, -, hpeers₁⟩ := hcl 1 (by decide) (by decide) (hclient 1 (by decide) (by decide))
  obtain ⟨-, -, hpeers₂⟩ := hcl 2 (by decide) (by decide) (hclient 2 (by decide) (by decide))
  refine ⟨_, s, t, hrun, htwo, hone, hrun', fun i hi => ?_⟩
  exact ⟨(hpeers i hi).trans (hpeers₁ i hi).symm, (hpeers i hi).trans (hpeers₂ i hi).symm,
    entry i, hpeers i hi⟩

end Eau2.Registration

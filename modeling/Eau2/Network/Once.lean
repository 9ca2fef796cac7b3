import Eau2.Lib.Slots
import Eau2.Network.Clone
import Eau2.Network.Withheld

/-!
# Keys written once

If no two puts of a run are called with equal keys, the one map that the nodes are
(`MapSpec`) is a single-assignment store: a put that is applied finds nothing at its key,
and all reads of a key return the same value, whenever they are made and wherever.

Whether the keys differ is a matter of the programs of the nodes: if each of them numbers
its keys (`Prog.Numbered`), then so does the run, the slots of a node being its own
(`written_of_run`).
-/

namespace Eau2.Network

open Function Slots Trace

variable {n : Nat} {s s' : State} {a : Action} {ev l : List Event}

/-- The key of a put that is called. -/
def Event.issuedKey : Event → Option Key
  | issue _ k _ => some k
  | _ => none

/-- The keys of the puts called, in order. -/
def issuedKeys (l : List Event) : List Key := l.filterMap Event.issuedKey

/-- No two puts are called with keys that are equal under `operator==`. -/
def PutOnce (l : List Event) : Prop := (issuedKeys l).Pairwise fun k k' => k.equals k' = false

/-! ## The keys that a run puts -/

/-- What a move makes of the programs: one goes on after a put, whose key is issued, or no
    put is called, and a program may go on after a read. -/
theorem Move.issues (h : Move n s a s' ev) :
    (∃ i k v, a = .app i ∧ s.prog i = .put k v (s'.prog i) ∧ issuedKeys ev = [k] ∧
      ∀ j ≠ i, s'.prog j = s.prog j) ∨
    issuedKeys ev = [] ∧ ∀ i, s'.prog i = s.prog i ∨ ∃ op v, currentOp (s.prog i) = some op ∧
      op.isRead = true ∧ s'.prog i = resume (s.prog i) (some v) := by
  have self {i : Nat} {p : Prog Key Value Unit} : update s.prog i p i = p := update_self ..
  have of_read {i : Nat} {op : Op} {v : Value} (hop : currentOp (s.prog i) = some op)
      (hr : op.isRead = true) (j : Nat) :
      update s.prog i (resume (s.prog i) (some v)) j = s.prog j ∨
        ∃ op v', currentOp (s.prog j) = some op ∧ op.isRead = true ∧
          update s.prog i (resume (s.prog i) (some v)) j = resume (s.prog j) (some v') := by
    by_cases hij : j = i
    · subst hij
      exact .inr ⟨op, v, hop, hr, self⟩
    · exact .inl (update_of_ne hij _ _)
  cases h with
  | @putLocal i k v next hprog | @sendPut i k v next c hprog =>
    exact .inl ⟨i, k, v, rfl, hprog.trans (congrArg _ self.symm), rfl,
      fun j hj => update_of_ne hj _ _⟩
  | readLocal hop _ _ hr | returned hop _ hr => exact .inr ⟨rfl, of_read hop hr⟩
  | deletedLocal hop _ _ hf => exact .inr ⟨rfl, of_read hop hf.isRead⟩
  | _ => exact .inr ⟨rfl, fun _ => .inl rfl⟩

theorem lt_of_step_app {i : Nat} (h : step n (.app i) s = some (s', ev)) : i < n := by
  rw [step] at h
  exact (Option.ite_none_right_eq_some.1 h).1.1

/-- The application of a node moves, whatever it clones. -/
theorem lt_of_step_app_or {i : Nat} (ha : a = .app i ∨ ∃ w, a = .appDeleted i w)
    (h : step n a s = some (s', ev)) : i < n := by
  rcases ha with rfl | ⟨w, rfl⟩
  · exact lt_of_step_app h
  · rw [step] at h
    exact (Option.ite_none_right_eq_some.1 h).1.1

section

variable {ι : Type} [DecidableEq ι] {names : ι → Nat → Key → Prop} {g : ι → Nat}

theorem numbered_resume {p : Prog Key Value Unit} {op : Op} {v : Value}
    (hop : currentOp p = some op) (hr : op.isRead = true)
    (h : p.Numbered names (fun _ _ => True) g) :
    (resume p (some v)).Numbered names (fun _ _ => True) g := by
  cases p with
  | ret | fail => cases hop
  | put => cases hop; cases hr
  | get k next | waitAndGet k next => exact h v

/-- If the programs number their keys, so does the run, and what is left of the programs
    numbers the rest. -/
theorem written_of_run {names : Nat → ι → Nat → Key → Prop} {ok : Action → State → Prop}
    {progs : Nat → Prog Key Value Unit}
    (hp : ∀ i < n, (progs i).Numbered (names i) (fun _ _ => True) fun _ => 0)
    (h : Trace.Run (step n) ok (init n progs) l s) :
    ∃ g : Nat × ι → Nat, Written (fun t j k => t.1 < n ∧ names t.1 t.2 j k) (issuedKeys l) g ∧
      ∀ i < n, (s.prog i).Numbered (names i) (fun _ _ => True) fun t => g (i, t) := by
  refine h.invariant_of (Q := fun _ s => WF n s) wf_of_run
    (fun l s => ∃ g : Nat × ι → Nat,
      Written (fun t j k => t.1 < n ∧ names t.1 t.2 j k) (issuedKeys l) g ∧
      ∀ i < n, (s.prog i).Numbered (names i) (fun _ _ => True) fun t => g (i, t)) ⟨_, .nil, hp⟩ ?_
  rintro l s a s' ev wf ⟨g, hwritten, hprogs⟩ - hs
  rcases (step_move wf hs).issues with ⟨i, k, v, rfl, hput, hissued, hsame⟩ | ⟨hissued, hread⟩
  · have hi : i < n := lt_of_step_app hs
    have hnumbered := hprogs i hi
    rw [hput] at hnumbered
    obtain ⟨t, hname, hnext⟩ := hnumbered
    refine ⟨bump g (i, t), ?_, fun j hj => ?_⟩
    · rw [issuedKeys, List.filterMap_append, ← issuedKeys, ← issuedKeys, hissued]
      exact hwritten.snoc ⟨hi, hname⟩
    · -- The program of `i` goes on with one more number of this slot, the others as before.
      by_cases hij : j = i
      · subst hij
        have hbump : (fun t' => bump g (j, t) (j, t')) = bump (fun t => g (j, t)) t := by
          funext t'
          by_cases ht : t' = t
          · rw [ht, bump_self, bump_self]
          · rw [bump_of_ne _ ht, bump_of_ne _ fun heq => ht (Prod.mk.inj heq).2]
        rwa [hbump]
      · have hbump : (fun t' => bump g (i, t) (j, t')) = fun t' => g (j, t') := by
          funext t'
          exact bump_of_ne _ fun heq => hij (Prod.mk.inj heq).1
        rw [hbump, hsame j hij]
        exact hprogs j hj
  · refine ⟨g, ?_, fun i hi => ?_⟩
    · rwa [issuedKeys, List.filterMap_append, ← issuedKeys, ← issuedKeys, hissued, List.append_nil]
    · -- A program that goes on after a read numbers the rest whatever is returned.
      rcases hread i with heq | ⟨op, v, hop, hr, heq⟩
      · exact heq ▸ hprogs i hi
      · exact heq ▸ numbered_resume hop hr (hprogs i hi)

end

/-! ## A single-assignment store -/

section

variable {m : MapSpec} {i i' j j' : Nat} {k k' : Key} {v v' : Value} {op op' : Op}

/-- What is in the map has been applied. -/
theorem exists_apply_of_contents (h : contents l k = some v) : ∃ i j, .apply i j k v ∈ l := by
  induction l using List.reverseRecOn with
  | nil => cases h
  | append_singleton l e ih =>
    have hmem (h : contents l k = some v) : ∃ i j, .apply i j k v ∈ l ++ [e] := by
      obtain ⟨i, j, h⟩ := ih h
      exact ⟨i, j, List.mem_append_left _ h⟩
    rw [contents, applied_append, ← contents] at h
    cases e with
    | apply i j k' v' =>
      have h : update (contents l) k' (some v') k = some v := h
      by_cases hk : k = k'
      · subst hk
        rw [update_self] at h
        obtain rfl := Option.some.inj h
        exact ⟨i, j, List.mem_append_right _ (List.mem_singleton.2 rfl)⟩
      · rw [update_of_ne hk] at h
        exact hmem h
    | _ => exact hmem h

/-- Every put applied has been called. -/
theorem issue_mem_of_apply (hm : MapSpec.Allows l m) (h : .apply i j k v ∈ l) :
    .issue i k v ∈ l := by
  obtain rfl := hm.apply_node h
  refine List.count_pos_iff.1 ?_
  rw [hm.pending]
  exact Nat.add_pos_right _ (List.count_pos_iff.2 h)

/-- A value that is returned, and not that of a deleted `Value`, has been applied. -/
theorem exists_apply_of_return (hm : MapSpec.Allows l m)
    (hdel : ∀ i op v, .deleted i op v ∉ l) (h : .return i op v ∈ l) :
    ∃ i j, .apply i j op.key v ∈ l := by
  obtain ⟨l₁, l₂, rfl⟩ := List.append_of_mem h
  obtain ⟨l₁', l₂', l₃', rfl, -, -, hv⟩ := hm.return_answered.served fun hmem =>
    hdel i op v (List.mem_append_left _ hmem)
  obtain ⟨i', j', hmem⟩ := exists_apply_of_contents hv
  exact ⟨i', j', by simp only [List.mem_append, List.mem_cons] at hmem ⊢; tauto⟩

/-- Puts are one and the same if their keys are not told apart by what tells apart all of them. -/
theorem issue_eq_of_pairwise {r : Key → Key → Prop} (hsymm : ∀ {k k'}, r k k' → r k' k)
    (hl : (issuedKeys l).Pairwise r) (h : .issue i k v ∈ l) (h' : .issue i' k' v' ∈ l)
    (hk : ¬r k k') : i = i' ∧ k = k' ∧ v = v' := by
  have hpair := List.pairwise_filterMap.1 hl
  have : Std.Symm fun e e' : Event => ∀ k, e.issuedKey = some k →
      ∀ k', e'.issuedKey = some k' → r k k' :=
    ⟨fun e e' h k hk k' hk' => hsymm (h k' hk' k hk)⟩
  by_contra hne
  exact hk (hpair.forall h h' (fun heq => hne (by simpa using heq)) k rfl k' rfl)

theorem count_issue_le (hl : (issuedKeys l).Nodup) (i : Nat) (k : Key) (v : Value) :
    l.count (.issue i k v) ≤ 1 := by
  by_contra hlt
  have hsub := List.replicate_sublist_iff.2 (Nat.succ_le_of_lt (Nat.lt_of_not_le hlt))
  have hnodup : [k, k].Nodup := hl.sublist (hsub.filterMap Event.issuedKey)
  exact (List.nodup_cons.1 hnodup).1 List.mem_cons_self

theorem PutOnce.nodup (hl : PutOnce l) : (issuedKeys l).Nodup :=
  List.nodup_iff_pairwise_ne.2 (hl.imp fun {k k'} h (heq : k = k') =>
    Bool.false_ne_true (h.symm.trans (Key.equals_iff.2 (congrArg Key.k heq))))

variable (hl : PutOnce l)

include hl

/-- Puts with equal keys are one and the same. -/
theorem PutOnce.eq_of_mem (h : .issue i k v ∈ l) (h' : .issue i' k' v' ∈ l)
    (hk : k.equals k' = true) : i = i' ∧ k = k' ∧ v = v' := by
  refine issue_eq_of_pairwise (fun {k k'} h => ?_) hl h h' (by simp [hk])
  rw [← h, Bool.eq_iff_iff, Key.equals_iff, Key.equals_iff, eq_comm]

/-- A put that is applied finds nothing at its key. -/
theorem PutOnce.contents_eq_none (hm : MapSpec.Allows l m) {l₁ l₂ : List Event}
    (heq : l = l₁ ++ .apply i j k v :: l₂) (hk : k.equals k' = true) : contents l₁ k' = none := by
  by_contra hne
  obtain ⟨w, hw⟩ := Option.ne_none_iff_exists'.1 hne
  obtain ⟨i', j', hmem⟩ := exists_apply_of_contents hw
  have happly : .apply i j k v ∈ l := heq ▸ List.mem_append_right _ List.mem_cons_self
  have happly' : .apply i' j' k' w ∈ l := heq ▸ List.mem_append_left _ hmem
  obtain ⟨rfl, rfl, rfl⟩ :=
    hl.eq_of_mem (issue_mem_of_apply hm happly) (issue_mem_of_apply hm happly') hk
  obtain rfl := hm.apply_node happly
  obtain rfl := hm.apply_node happly'
  -- so the one put has been applied twice
  have hcount : 2 ≤ l.count (.apply i k.node k v) := by
    rw [heq, List.count_append, List.count_cons_self]
    have := List.count_pos_iff.2 hmem
    omega
  have hone := count_issue_le hl.nodup i k v
  rw [hm.pending] at hone
  omega

/-- The values returned for equal keys are the same. -/
theorem PutOnce.return_eq (hm : MapSpec.Allows l m) (hdel : ∀ i op v, .deleted i op v ∉ l)
    (h : .return i op v ∈ l)
    (h' : .return i' op' v' ∈ l) (hk : op.key.equals op'.key = true) : v = v' := by
  obtain ⟨_, _, happly⟩ := exists_apply_of_return hm hdel h
  obtain ⟨_, _, happly'⟩ := exists_apply_of_return hm hdel h'
  exact (hl.eq_of_mem (issue_mem_of_apply hm happly) (issue_mem_of_apply hm happly') hk).2.2

end

theorem issuedKeys_append (l l' : List Event) :
    issuedKeys (l ++ l') = issuedKeys l ++ issuedKeys l' :=
  List.filterMap_append

/-- Where no key is put twice, no put is applied at a key that is there. -/
theorem intact_of_step {m : MapSpec} (wf : WF n s) (hm : MapSpec.Allows l m) (hR : Refines m s)
    (hl : (issuedKeys (l ++ ev)).Nodup) (hstep : step n a s = some (s', ev)) :
    Intact Set.univ a s := by
  intro i k _ hputs hheld
  -- the key has been put
  have hpresent : (s.lookup k.node k).isSome := by
    rcases hheld with ⟨rfl, op, t, hop, rfl, hph⟩ | ⟨e, op, rest, t, hown, -, hh, hin, rfl⟩
    · exact (wf.found hop hph).lookup
    · obtain ⟨op', rest', hin', hph⟩ := wf.serving e _ hh
      obtain rfl := Op.message_inj (List.cons.inj (hin.symm.trans hin')).1
      exact hown ▸ (hph.resolve_left Phase.noConfusion).2.lookup
  obtain ⟨w, hw⟩ := Option.isSome_iff_exists.1 hpresent
  rw [← hR.map, hm.map] at hw
  obtain ⟨i', j', happly⟩ := exists_apply_of_contents hw
  have hissue := issue_mem_of_apply hm happly
  rw [issuedKeys_append] at hl
  obtain ⟨hl, -, hdisjoint⟩ := List.nodup_append.1 hl
  cases a with
  | app j =>
    obtain ⟨hj, hph, v, next, hp⟩ := hputs
    have hmem := issue_mem_of_puts hj hph hp hstep
    exact hdisjoint k (List.mem_filterMap.2 ⟨_, hissue, rfl⟩) k
      (List.mem_filterMap.2 ⟨_, hmem, rfl⟩) rfl
  | handler e =>
    obtain ⟨-, v, rest, hin⟩ := hputs
    have hput : .put k v ∈ s.inbox e := by rw [hin]; exact List.mem_cons_self
    have hflight := inFlight_pos wf hput
    have hcount := hm.pending (s.owner e.peer) k v
    rw [hR.pending] at hcount
    have hissue' : Event.issue (s.owner e.peer) k v ∈ l := List.count_pos_iff.1 (by omega)
    -- it is the put that has been applied
    obtain ⟨rfl, -, rfl⟩ := issue_eq_of_pairwise (r := (· ≠ ·)) Ne.symm
      (List.nodup_iff_pairwise_ne.1 hl) hissue hissue' fun h => h rfl
    obtain rfl := hm.apply_node happly
    have hpos := List.count_pos_iff.2 happly
    have hone := count_issue_le hl (s.owner e.peer) k w
    omega
  | _ => exact hputs

theorem intact_of_nodup {ok : Action → State → Prop} {progs : Nat → Prog Key Value Unit}
    (h : Trace.Run (step n) ok (init n progs) l s) (hl : (issuedKeys l).Nodup) :
    Trace.Run (step n) (fun a s => ok a s ∧ Intact Set.univ a s) (init n progs) l s := by
  refine h.invariant_of (Q := fun l s => WF n s ∧ ∃ m, MapSpec.Allows l m ∧ Refines m s)
    (fun h => ⟨wf_of_run h, refines_of_run h⟩)
    (fun l s => (issuedKeys l).Nodup →
      Trace.Run (step n) (fun a s => ok a s ∧ Intact Set.univ a s) (init n progs) l s)
    (fun _ => .refl) ?_ hl
  intro l s a s' ev ⟨wf, m, hm, hR⟩ ih hok hstep hl
  have hl' : (issuedKeys l).Nodup := (List.nodup_append.1 (issuedKeys_append l ev ▸ hl)).1
  exact (ih hl').move ⟨hok, intact_of_step wf hm hR hl hstep⟩ hstep

/-- Where no key is put twice, no deleted `Value` is read. -/
theorem not_deleted_of_nodup {ok : Action → State → Prop} {progs : Nat → Prog Key Value Unit}
    (h : Trace.Run (step n) ok (init n progs) l s) (hl : (issuedKeys l).Nodup) (i : Nat) (op : Op)
    (v : Value) : .deleted i op v ∉ l :=
  not_deleted_of_run ((intact_of_nodup h hl).mono fun _ _ => And.right) (Set.mem_univ (i, op.key)) v

end Eau2.Network

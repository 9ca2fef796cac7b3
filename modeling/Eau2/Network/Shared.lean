import Eau2.Lib.Pool
import Eau2.Network.Once

/-!
# The store as one that is shared

The nodes call their puts one moment, and these are applied at another, somewhere else. If
the programs put no key twice, and at each the value `spec` foretells, they cannot tell that
from a store that they share, where a put takes effect when it is called: every run of the
nodes is a run of the pool of their programs (`pool_run`). The one thing that is different is
that a `get` of a key whose put has been called may still fail.
-/

namespace Eau2.Network

open Function Trace

variable {n : Nat} {s s' : State} {a : Action} {ev l : List Event} {spec : Key → Value}
  {progs : Nat → Prog Key Value Unit}

/-- The key and the value of a put that is called. -/
def Event.issued : Event → Option (Key × Value)
  | issue _ k v => some (k, v)
  | _ => none

/-- The puts called, in order. -/
def issuedPuts (l : List Event) : List (Key × Value) := l.filterMap Event.issued

theorem issuedPuts_append (l l' : List Event) :
    issuedPuts (l ++ l') = issuedPuts l ++ issuedPuts l' := List.filterMap_append

theorem issuedKeys_eq (l : List Event) : issuedKeys l = (issuedPuts l).map Prod.fst := by
  rw [issuedPuts, List.map_filterMap, issuedKeys]
  refine List.filterMap_congr fun e _ => ?_
  cases e <;> rfl

theorem mem_issuedPuts {i : Nat} {k : Key} {v : Value} (h : .issue i k v ∈ l) :
    (k, v) ∈ issuedPuts l :=
  List.mem_filterMap.2 ⟨_, h, rfl⟩

/-- The pool of the programs left to the nodes, on a store in which the puts called so far have
    taken effect. -/
def pool (n : Nat) (l : List Event) (s : State) : Pool (Fin n) Key Value Unit :=
  ⟨fun i => s.prog i, Prog.writeAll (issuedPuts l) fun _ => none⟩

/-- What a move makes of the programs: one goes on after a put that is called, or after a read
    that returns, or all stay as they are. -/
theorem Move.calls (h : Move n s a s' ev) :
    (∃ i k v next, a = .app i ∧ s.prog i = .put k v next ∧ s'.prog = update s.prog i next ∧
      issuedPuts ev = [(k, v)]) ∨
    (∃ i op v, (a = .app i ∨ ∃ w, a = .appDeleted i w) ∧ currentOp (s.prog i) = some op ∧
      op.isRead = true ∧ .return i op v ∈ ev ∧
      s'.prog = update s.prog i (resume (s.prog i) (some v)) ∧ issuedPuts ev = []) ∨
    s'.prog = s.prog ∧ issuedPuts ev = [] := by
  cases h with
  | @putLocal i k v next hprog | @sendPut i k v next c hprog =>
    exact .inl ⟨i, k, v, next, rfl, hprog, rfl, rfl⟩
  | @readLocal i op v hop _ _ hr | @returned i op _ v hop _ hr =>
    exact .inr (.inl ⟨i, op, v, .inl rfl, hop, hr, by simp, rfl, rfl⟩)
  | @deletedLocal i op t v hop _ _ hf =>
    exact .inr (.inl ⟨i, op, v, .inr ⟨_, rfl⟩, hop, hf.isRead, by simp, rfl, rfl⟩)
  | _ => exact .inr (.inr ⟨rfl, rfl⟩)

/-- The access of a call. -/
def Op.access : Op → Prog.Access Key
  | put k _ => .put k
  | get k => .get k
  | waitAndGet k => .wait k

theorem does_put {k : Key} {v : Value} {next : Prog Key Value Unit} {as : List (Prog.Access Key)}
    {r : Unit} (h : (Prog.put k v next).Does spec as r) :
    v = spec k ∧ ∃ as', as = .put k :: as' ∧ next.Does spec as' r := by
  cases h with
  | put h => exact ⟨rfl, _, rfl, h⟩

/-- A program goes on with the value of the key it has read. -/
theorem does_resume {p : Prog Key Value Unit} {op : Op} {as : List (Prog.Access Key)} {r : Unit}
    (hop : currentOp p = some op) (hr : op.isRead = true) (h : p.Does spec as r) :
    ∃ as', as = op.access :: as' ∧ (resume p (some (spec op.key))).Does spec as' r := by
  cases h with
  | ret => cases hop
  | put => cases hop; cases hr
  | get h | wait h =>
    cases hop
    exact ⟨_, rfl, h⟩

/-- The puts called are of the programs that make the accesses `as`, and of the values that
    `spec` foretells. -/
def Foretold (spec : Key → Value) (as : Fin n → List (Prog.Access Key)) (l : List Event) : Prop :=
  ∀ kv ∈ issuedPuts l, kv.2 = spec kv.1 ∧ ∃ i, .put kv.1 ∈ as i

variable {as : Fin n → List (Prog.Access Key)}

theorem Foretold.of_apply {m : MapSpec} (hm : MapSpec.Allows l m)
    (h : Foretold spec as l) {i j : Nat} {k : Key} {v : Value} (happly : .apply i j k v ∈ l) :
    v = spec k ∧ (∃ i, .put k ∈ as i) ∧ (pool n l s).store k = some v := by
  have hmem := mem_issuedPuts (issue_mem_of_apply hm happly)
  have hagree : ∀ kv ∈ issuedPuts l, ∀ kv' ∈ issuedPuts l, kv.1 = kv'.1 → kv = kv' :=
    fun kv hkv kv' hkv' hkey =>
      Prod.ext hkey ((h kv hkv).1.trans ((congrArg spec hkey).trans (h kv' hkv').1.symm))
  exact ⟨(h _ hmem).1, (h _ hmem).2, Prog.holds_writeAll hagree _ _ hmem⟩

/-- A value that is returned is that of its key, and in the store of the pool. -/
theorem Foretold.of_return {m : MapSpec} (hm : MapSpec.Allows l m)
    (hdel : ∀ i op v, .deleted i op v ∉ l) (h : Foretold spec as l) {i : Nat}
    {op : Op} {v : Value} (hret : .return i op v ∈ l) :
    v = spec op.key ∧ (pool n l s).store op.key = some v := by
  obtain ⟨_, _, happly⟩ := exists_apply_of_return hm hdel hret
  have hkey := h.of_apply (s := s) hm happly
  exact ⟨hkey.1, hkey.2.2⟩

/-- A read of the pool. -/
theorem pool_step_read {t : Pool (Fin n) Key Value Unit} {i : Fin n} {op : Op} {v : Value}
    (hop : currentOp (t.prog i) = some op) (hr : op.isRead = true) (hv : t.store op.key = some v) :
    Pool.step i t = some (⟨update t.prog i (resume (t.prog i) (some v)), t.store⟩, []) := by
  cases hp : t.prog i with
  | ret | fail => rw [hp] at hop; cases hop
  | put => rw [hp] at hop; cases hop; cases hr
  | get k next =>
    rw [hp] at hop
    cases hop
    exact Pool.step_get hp hv
  | waitAndGet k next =>
    rw [hp] at hop
    cases hop
    exact Pool.step_waitAndGet hp hv

/-- The program of a node goes on. -/
theorem pool_update {i : Fin n} {p : Prog Key Value Unit} (hprog : s'.prog = update s.prog i p) :
    (pool n l s').prog = update (pool n l s).prog i p := by
  have hupdate := update_comp_eq_of_injective' s.prog Fin.val_injective i p
  rwa [← hprog] at hupdate

/-- What is left to the nodes of the programs that make the accesses `as`; what they are still
    to put has not been put. -/
def Left (spec : Key → Value) (as : Fin n → List (Prog.Access Key)) (l : List Event) (s : State) :
    Prop :=
  ∀ i : Fin n, ∃ rest, rest <:+ as i ∧ (s.prog i).Does spec rest () ∧
    ∀ k, .put k ∈ rest → k ∉ issuedKeys l

theorem Left.ne_fail (h : Left spec as l s) {i : Nat} (hi : i < n) : s.prog i ≠ .fail := by
  obtain ⟨rest, -, hp, -⟩ := h ⟨i, hi⟩
  intro hfail
  rw [show s.prog (⟨i, hi⟩ : Fin n) = _ from hfail] at hp
  cases hp

/-- The program of a node goes on after the access `a`. -/
theorem Left.update (h : Left spec as l s) {i : Fin n}
    {a : Prog.Access Key} {rest : List (Prog.Access Key)} (hrest : a :: rest <:+ as i)
    {p : Prog Key Value Unit} (hp : p.Does spec rest ()) (hprog : s'.prog = update s.prog i p)
    (hfresh : ∀ k, .put k ∈ rest → k ∉ issuedKeys (l ++ ev))
    (hother : ∀ j ≠ i, ∀ k, .put k ∈ as j → k ∉ issuedKeys ev) : Left spec as (l ++ ev) s' := by
  intro j
  rw [hprog]
  by_cases hj : j = i
  · subst hj
    rw [update_self]
    exact ⟨rest, (List.suffix_cons a rest).trans hrest, hp, hfresh⟩
  · rw [update_of_ne (Fin.val_ne_of_ne hj)]
    obtain ⟨rest', hrest', hp', hfresh'⟩ := h j
    refine ⟨rest', hrest', hp', fun k hk => ?_⟩
    rw [issuedKeys_append, List.mem_append, not_or]
    exact ⟨hfresh' k hk, hother j hj k (hrest'.subset hk)⟩

/-- The keys still to be put, when `k` has just been put by the node `i`. -/
theorem fresh_of_once (honce : Pool.Once as) {i : Fin n} {k : Key} {rest : List (Prog.Access Key)}
    (hrest : .put k :: rest <:+ as i) (hfresh : ∀ k', .put k' ∈ rest → k' ∉ issuedKeys l)
    (hissued : issuedKeys ev = [k]) :
    (∀ k', .put k' ∈ rest → k' ∉ issuedKeys (l ++ ev)) ∧
      ∀ j ≠ i, ∀ k', .put k' ∈ as j → k' ∉ issuedKeys ev := by
  have hnodup : (k :: Pool.putKeys rest).Nodup :=
    (honce.nodup i).sublist (hrest.sublist.filterMap Prog.Access.putKey)
  rw [issuedKeys_append, hissued]
  constructor
  · intro k' hk'
    rw [List.mem_append, List.mem_singleton, not_or]
    refine ⟨hfresh k' hk', ?_⟩
    rintro rfl
    exact (List.nodup_cons.1 hnodup).1 (Pool.mem_putKeys.2 hk')
  · intro j hj k' hk' hmem
    obtain rfl := List.mem_singleton.1 hmem
    exact hj (honce.eq_of_mem j i k' hk' (hrest.subset List.mem_cons_self))

/-- A move of a node is one of its program in the pool, or the pool stays as it is. -/
theorem Move.pool {m : MapSpec} (h : Move n s a s' ev)
    (hlt : ∀ i, (a = .app i ∨ ∃ w, a = .appDeleted i w) → i < n) (hm : MapSpec.Allows (l ++ ev) m)
    (honce : Pool.Once as) (hput : (issuedKeys l).Nodup)
    (hdel : (issuedKeys (l ++ ev)).Nodup → ∀ i op v, .deleted i op v ∉ l ++ ev)
    (hl : Foretold spec as l) (hleft : Left spec as l s) :
    (issuedKeys (l ++ ev)).Nodup ∧ Foretold spec as (l ++ ev) ∧ Left spec as (l ++ ev) s' ∧
      ((∃ i, Pool.step i (pool n l s) = some (pool n (l ++ ev) s', [])) ∨
        pool n (l ++ ev) s' = pool n l s) := by
  have store (hissued : issuedPuts ev = []) :
      (Network.pool n (l ++ ev) s').store = (Network.pool n l s).store := by
    simp only [Network.pool, issuedPuts_append, hissued, List.append_nil]
  have keys (hissued : issuedPuts ev = []) : issuedKeys (l ++ ev) = issuedKeys l := by
    rw [issuedKeys_append, issuedKeys_eq ev, hissued, List.map_nil, List.append_nil]
  rcases h.calls with ⟨i, k, v, next, rfl, hnext, hprog, hissued⟩ |
    ⟨i, op, v, ha, hop, hr, hret, hprog, hissued⟩ | ⟨hprog, hissued⟩
  · -- A put takes effect in the pool when it is called.
    let i : Fin n := ⟨i, hlt i (.inl rfl)⟩
    obtain ⟨rest, hrest, hp, hfresh⟩ := hleft i
    rw [show s.prog i = _ from hnext] at hp
    obtain ⟨hv, rest', rfl, hdoes⟩ := does_put hp
    have hkeys : issuedKeys ev = [k] := by rw [issuedKeys_eq, hissued, List.map_singleton]
    obtain ⟨hself, hother⟩ := fresh_of_once honce hrest
      (fun k' hk' => hfresh k' (List.mem_cons_of_mem _ hk')) hkeys
    refine ⟨?_, ?_, hleft.update (i := i) hrest hdoes hprog hself hother, .inl ⟨i, ?_⟩⟩
    · rw [issuedKeys_append, hkeys]
      exact List.nodup_append_comm.1 (List.nodup_cons.2
        ⟨hfresh k List.mem_cons_self, hput⟩)
    · rw [Foretold, issuedPuts_append, hissued]
      exact List.forall_mem_append.2 ⟨hl, List.forall_mem_singleton.2
        ⟨hv, i, hrest.subset List.mem_cons_self⟩⟩
    · have hstore : (Network.pool n (l ++ ev) s').store =
          Function.update (Network.pool n l s).store k (some v) := by
        rw [Network.pool, issuedPuts_append, hissued]
        exact Prog.writeAll_concat _ _ _
      rw [Pool.step_put (show (Network.pool n l s).prog i = _ from hnext), ← hstore,
        ← pool_update (i := i) hprog]
      rfl
  · -- A read returns what is in the store of the pool.
    let i : Fin n := ⟨i, hlt i ha⟩
    have hput' : (issuedKeys (l ++ ev)).Nodup := by rwa [keys hissued]
    have hl' : Foretold spec as (l ++ ev) := by
      rwa [Foretold, issuedPuts_append, hissued, List.append_nil]
    obtain ⟨hv, hstore⟩ :=
      hl'.of_return (n := n) (s := s') hm (hdel hput') (List.mem_append_right _ hret)
    obtain ⟨rest, hrest, hp, hfresh⟩ := hleft i
    obtain ⟨rest', rfl, hnext⟩ := does_resume hop hr hp
    rw [← hv] at hnext
    refine ⟨hput', hl', hleft.update (i := i) hrest hnext hprog (fun k hk => ?_) fun j _ k _ => ?_,
      .inl ⟨i, ?_⟩⟩
    · rw [keys hissued]
      exact hfresh k (List.mem_cons_of_mem _ hk)
    · rw [issuedKeys_eq, hissued]
      exact List.not_mem_nil
    · rw [store hissued] at hstore
      rw [pool_step_read (show currentOp ((Network.pool n l s).prog i) = _ from hop) hr hstore,
        ← store hissued, show Function.update (Network.pool n l s).prog i
          (resume ((Network.pool n l s).prog i) (some v)) = _ from (pool_update hprog).symm]
      rfl
  · refine ⟨by rwa [keys hissued], ?_, fun i => by rw [hprog, keys hissued]; exact hleft i,
      .inr ?_⟩
    · rwa [Foretold, issuedPuts_append, hissued, List.append_nil]
    · rw [Network.pool, Network.pool, hprog, issuedPuts_append, hissued, List.append_nil]

/-- Every run of the nodes on programs that put no key twice, and at each the value that
    `spec` foretells, is a run of the pool of their programs. -/
theorem pool_run {ok : Action → State → Prop} (hprogs : ∀ i : Fin n, (progs i).Does spec (as i) ())
    (honce : Pool.Once as) (h : Trace.Run (step n) ok (init n progs) l s) :
    (issuedKeys l).Nodup ∧ Foretold spec as l ∧ Left spec as l s ∧
      Pool.Run (.init fun i : Fin n => progs i) (pool n l s) := by
  refine h.invariant_of (Q := fun l s => Trace.Run (step n) ok (init n progs) l s) id
    (fun l s => (issuedKeys l).Nodup ∧ Foretold spec as l ∧ Left spec as l s ∧
      Pool.Run (.init fun i : Fin n => progs i) (pool n l s))
    ⟨.nil, List.forall_mem_nil _, fun i => ⟨as i, List.suffix_rfl, hprogs i, fun _ _ =>
      List.not_mem_nil⟩, .refl⟩ ?_
  rintro l s a s' ev hrun ⟨hput, hl, hleft, hpool⟩ hok hs
  obtain ⟨m, hm, -⟩ := refines_of_run (hrun.move hok hs)
  obtain ⟨hput', hl', hleft', ⟨i, hstep⟩ | heq⟩ :=
    (step_move (wf_of_run hrun) hs).pool (fun i ha => lt_of_step_app_or ha hs) hm honce hput
      (not_deleted_of_nodup (hrun.move hok hs)) hl hleft
  · exact ⟨hput', hl', hleft', hpool.move trivial hstep⟩
  · exact ⟨hput', hl', hleft', heq ▸ hpool⟩

/-! ## Assertions -/

/-- An access that the network carries: the node of the key is there, and neither the name of
    the key nor the value is empty. -/
def Carried (n : Nat) (spec : Key → Value) : Prog.Access Key → Prop
  | .put k => k.node < n ∧ k.k ≠ [] ∧ spec k ≠ []
  | .get k | .wait k => k.node < n ∧ k.k ≠ []

theorem Carried.sendable {p : Prog Key Value Unit} {op : Op} (hop : currentOp p = some op)
    {rest : List (Prog.Access Key)} (hp : p.Does spec rest ()) (h : ∀ a ∈ rest, Carried n spec a) :
    op.key.node < n ∧ op.message.Sendable := by
  cases hp with
  | ret => cases hop
  | put => cases hop; exact h _ List.mem_cons_self
  | get | wait => cases hop; exact h _ List.mem_cons_self

/-- What a handler sends back it has found in the store. -/
theorem Move.replying_of_current (wf : WF n s) (hcur : Current Set.univ s) (h : Move n s a s' ev)
    {e : EndId} {v : Value} (hv : s'.handler e = .replying v) :
    s.handler e = .replying v ∨ ∃ k, s.lookup k.node k = some v := by
  refine (h.replying hv).imp_right fun ⟨_, op, rest, hin, _, hval⟩ => ⟨op.key, ?_⟩
  rw [wf.inbox e op (hin ▸ List.mem_cons_self)]
  refine hval.resolve_right ?_
  rintro ⟨t, hh, ht⟩
  exact ht (hcur.handler e op rest t (Set.mem_univ _) hh hin)

section

variable (hprogs : ∀ i : Fin n, (progs i).Does spec (as i) ()) (honce : Pool.Once as)
  (hcarried : ∀ i, ∀ a ∈ as i, Carried n spec a) {ok : Action → State → Prop}
  (h : Trace.Run (step n) ok (init n progs) l s)
include hprogs honce hcarried h

/-- No value in a store is empty. -/
theorem ne_nil_of_lookup {k : Key} {v : Value} (hv : s.lookup k.node k = some v) : v ≠ [] := by
  obtain ⟨m, hm, hR⟩ := refines_of_run h
  rw [← hR.map, hm.map] at hv
  obtain ⟨_, _, happly⟩ := exists_apply_of_contents hv
  obtain ⟨rfl, ⟨i, hput⟩, -⟩ := (pool_run hprogs honce h).2.1.of_apply (s := s) hm happly
  exact (hcarried i _ hput).2.2

/-- No value sent back is empty. -/
theorem ne_nil_of_replying {e : EndId} {v : Value} (hv : s.handler e = .replying v) : v ≠ [] := by
  refine h.invariant_of (Q := fun l s => Trace.Run (step n) ok (init n progs) l s) id
    (fun _ s => ∀ e v, s.handler e = .replying v → v ≠ []) (fun _ _ h => by cases h) ?_ e v hv
  rintro l s a s' ev hrun ih - hs e v hv
  have hcur := current_of_run ((intact_of_nodup hrun (pool_run hprogs honce hrun).1).mono fun _ _ =>
    And.right)
  have wf := wf_of_run hrun
  rcases (step_move wf hs).replying_of_current wf hcur hv with hv | ⟨k, hk⟩
  · exact ih e v hv
  · exact ne_nil_of_lookup hprogs honce hcarried hrun hk

end

theorem kvStep_crashed {who i : Nat} {op : Op} {ph : Phase} {t : State} {o : Outcome}
    (h : kvStep n who i op s ph = some (t, o, ev)) : t.crashed = s.crashed := by
  cases ph with
  | entry =>
    rw [kvStep] at h
    split_ifs at h with hnode
    · rcases localOp_cases hnode h with ⟨k, v, -, rfl, -, -⟩ | ⟨-, rfl, -, -⟩ |
        ⟨k, -, -, rfl, -, -⟩ <;> rfl
    · cases hc : s.connections i op.key.node with
      | some c =>
        simp only [connectToNode, hc] at h
        cases h
        rfl
      | none =>
        simp only [connectToNode, hc] at h
        split_ifs at h <;> cases h <;> rfl
  | found u =>
    obtain ⟨v, -, -, rfl, -⟩ := cloneOp_cases h
    rfl
  | opened c =>
    cases h
    rfl
  | connected =>
    rw [kvStep] at h
    split at h <;> cases h <;> rfl
  | holding c =>
    cases op <;> simp only [kvStep, sendOp] at h <;> split_ifs at h <;> cases h <;> rfl
  | awaiting c =>
    obtain ⟨⟨t', o'⟩, hreply, heq⟩ := Option.map_eq_some_iff.1 h
    cases heq
    rw [processReply] at hreply
    split at hreply <;> cases hreply <;> rfl

/-- The calls of an application that the network carries fail only when a key is missing. -/
theorem kvStep_fail {i : Nat} {op : Op} {t : State} (wf : WF n s) (hsync : Sync s)
    (hop : currentOp (s.prog i) = some op) (hnode : op.key.node < n) (hsend : op.message.Sendable)
    (h : kvStep n i i op s (s.phase i) = some (t, .fail, ev)) : ∃ k, ev = [.missing i i k] := by
  cases hph : s.phase i with
  | entry =>
    rw [hph, kvStep] at h
    split_ifs at h with hi
    · rcases localOp_cases hi h with ⟨_, _, -, -, ho, -⟩ | ⟨-, -, ho, -⟩ | ⟨k, -, -, -, -, hev⟩
      · cases ho
      · cases ho
      · exact ⟨k, hev⟩
    · cases hc : s.connections i op.key.node <;> simp [connectToNode, hc, hnode] at h
  | found u =>
    obtain ⟨_, -, -, -, ho, -⟩ := cloneOp_cases (hph ▸ h)
    cases ho
  | opened c =>
    rw [hph] at h
    cases h
  | connected =>
    obtain ⟨op', hop', hok⟩ := wf.phase i (by simp [hph])
    obtain rfl := Option.some.inj (hop.symm.trans hop')
    rw [hph] at hok h
    obtain ⟨c, hc⟩ := hok
    simp [kvStep, hc] at h
  | holding c =>
    -- nothing is outstanding on the end that the application sends on
    have howner : s.owner c = i := (wf.holding hop (.inl hph)).1.owner
    have hreplies := (hsync.of_not_awaiting (e := c) (by simp [howner, hph])).2.2.2
    cases op <;> simp [hph, kvStep, sendOp, hsend, hreplies] at h
  | awaiting c =>
    have howner := wf.owner_of_awaiting hph
    have hcount := hsync.count c
    rw [howner, hph, if_pos rfl, State.outstanding] at hcount
    obtain ⟨⟨t', o'⟩, hreply, heq⟩ := Option.map_eq_some_iff.1 (hph ▸ h)
    cases heq
    rcases hrep : s.replies c with _ | ⟨v, _ | ⟨v', vs⟩⟩
    · simp [processReply, hrep] at hreply
    · simp [processReply, hrep] at hreply
    · simp [hrep] at hcount
      omega

/-- Where the `Value`s found are those of the last puts, no deleted one is read. -/
theorem Current.deletedOp_eq_none {who i : Nat} {op : Op} {w : Option Value} {ph : Phase}
    (hcur : ∀ t, ph = .found t → s.version i op.key.k = t) : deletedOp who i op w s ph = none := by
  cases ph with
  | found t => exact if_pos (hcur t rfl)
  | _ => rfl

/-- An application stops its node in a move only if a key is missing there. -/
theorem appStep_crashed (wf : WF n s) (hsync : Sync s) {i : Nat} (hfail : s.prog i ≠ .fail)
    (hops : ∀ op, currentOp (s.prog i) = some op → op.key.node < n ∧ op.message.Sendable)
    (h : appStep n i s = some (s', ev)) : s'.crashed = s.crashed ∨
      ∃ i j k, .missing i j k ∈ ev ∧ s'.crashed = update s.crashed j true := by
  cases hop : currentOp (s.prog i) with
  | none =>
    rw [appStep] at h
    split at h
    · cases h
    · next hp => exact absurd hp hfail
    · simp [hop] at h
  | some op =>
    obtain ⟨⟨t, o, ev'⟩, hk, rfl, rfl⟩ := appStep_of_currentOp hop h
    have hcrashed := kvStep_crashed hk
    cases o with
    | go ph => exact .inl hcrashed
    | done r => exact .inl hcrashed
    | fail =>
      obtain ⟨hnode, hsend⟩ := hops op hop
      obtain ⟨k, rfl⟩ := kvStep_fail wf hsync hop hnode hsend hk
      exact .inr ⟨i, i, k, List.mem_singleton.2 rfl, by rw [← hcrashed]; rfl⟩

/-- A handler stops its node in a move only if a key is missing there. -/
theorem handlerStep_crashed (wf : WF n s) {e : EndId}
    (hreply : ∀ v, s.handler e = .replying v → v ≠ []) (h : handlerStep n e s = some (s', ev)) :
    s'.crashed = s.crashed ∨
      ∃ i j k, .missing i j k ∈ ev ∧ s'.crashed = update s.crashed j true := by
  cases hh : s.handler e with
  | idle =>
    rw [handlerStep, hh] at h
    dsimp only at h
    split at h <;> cases h <;> exact .inl rfl
  | serving ph =>
    obtain ⟨op, rest, hin, hph⟩ := wf.serving e ph hh
    have hnode : op.key.node = s.owner e := wf.inbox e op (by rw [hin]; exact List.mem_cons_self)
    rw [handlerStep, hh] at h
    simp only [hin, List.head?_cons, Option.bind_eq_bind, Option.bind_some, Op.message_op?,
      Option.bind_eq_some_iff] at h
    obtain ⟨⟨t, o, ev'⟩, hk, h⟩ := h
    rcases hph with rfl | ⟨⟨u, rfl⟩, -⟩
    · rw [kvStep, if_pos hnode] at hk
      rcases localOp_cases hnode hk with ⟨k, v, -, rfl, rfl, rfl⟩ | ⟨-, rfl, rfl, rfl⟩ |
        ⟨k, -, -, rfl, rfl, rfl⟩ <;> cases h
      · exact .inl rfl
      · exact .inl rfl
      · exact .inr ⟨_, _, _, List.mem_singleton.2 rfl, rfl⟩
    · obtain ⟨v, -, -, rfl, rfl, -⟩ := cloneOp_cases hk
      cases h
      exact .inl rfl
  | replying v =>
    rw [handlerStep, hh] at h
    simp only [show (Message.reply v).Sendable from hreply v hh, if_true] at h
    cases h
    exact .inl rfl

/-- No node stops in a move, unless a key is missing. -/
theorem step_crashed (wf : WF n s) (hsync : Sync s) (hcur : Current Set.univ s)
    (hfail : ∀ i < n, s.prog i ≠ .fail)
    (hops : ∀ i < n, ∀ op, currentOp (s.prog i) = some op → op.key.node < n ∧ op.message.Sendable)
    (hreply : ∀ e v, s.handler e = .replying v → v ≠ []) (h : step n a s = some (s', ev)) :
    s'.crashed = s.crashed ∨ ∃ i j k, .missing i j k ∈ ev ∧ s'.crashed =
      update s.crashed j true := by
  cases a with
  | app i =>
    rw [step] at h
    obtain ⟨⟨hi, -⟩, h⟩ := Option.ite_none_right_eq_some.1 h
    exact appStep_crashed wf hsync (hfail i hi) (hops i hi) h
  | handler e =>
    rw [step] at h
    exact handlerStep_crashed wf (hreply e) (Option.ite_none_right_eq_some.1 h).2
  | accept i =>
    rw [step] at h
    obtain ⟨-, h⟩ := Option.ite_none_right_eq_some.1 h
    rw [acceptStep] at h
    split at h
    · cases h
      exact .inl rfl
    · split at h <;> cases h
      exact .inl rfl
  | appDeleted i w =>
    rw [step] at h
    obtain ⟨op, hop, h⟩ := Option.bind_eq_some_iff.1 (Option.ite_none_right_eq_some.1 h).2
    have hnone : deletedOp i i op w s (s.phase i) = none :=
      Current.deletedOp_eq_none fun t ht => hcur.app i op t (Set.mem_univ _) hop ht
    rw [hnone] at h
    cases h
  | handlerDeleted e w =>
    rw [step] at h
    obtain ⟨-, h⟩ := Option.ite_none_right_eq_some.1 h
    rw [handlerDeletedStep] at h
    split at h
    · next ph hh =>
      obtain ⟨op, rest, hin, -⟩ := wf.serving e ph hh
      have hnone : deletedOp (s.owner e.peer) (s.owner e) op w s ph = none :=
        Current.deletedOp_eq_none fun t ht =>
          hcur.handler e op rest t (Set.mem_univ _) (ht ▸ hh) hin
      simp only [hin, List.head?_cons, Option.bind_eq_bind, Option.bind_some, Op.message_op?,
        hnone, Option.bind_none, reduceCtorEq] at h
    · cases h

section

variable (hprogs : ∀ i : Fin n, (progs i).Does spec (as i) ()) (honce : Pool.Once as)
  (hcarried : ∀ i, ∀ a ∈ as i, Carried n spec a) {ok : Action → State → Prop}
  (h : Trace.Run (step n) ok (init n progs) l s)
include hprogs honce hcarried h

/-- A node has only stopped if a key was missing. -/
theorem missing_of_crashed {j : Nat} (hj : s.crashed j = true) : ∃ i k, .missing i j k ∈ l := by
  refine h.invariant_of (Q := fun l s => Trace.Run (step n) ok (init n progs) l s) id
    (fun l s => ∀ j, s.crashed j = true → ∃ i k, .missing i j k ∈ l) (fun _ h => by cases h) ?_ j hj
  rintro l s a s' ev hrun ih - hs j hj
  obtain ⟨hput, -, hleft, -⟩ := pool_run hprogs honce hrun
  have hops : ∀ i < n, ∀ op, currentOp (s.prog i) = some op →
      op.key.node < n ∧ op.message.Sendable := by
    intro i hi op hop
    obtain ⟨rest, hrest, hp, -⟩ := hleft ⟨i, hi⟩
    exact Carried.sendable hop hp fun a ha => hcarried _ a (hrest.subset ha)
  have old (hj : s.crashed j = true) : ∃ i k, .missing i j k ∈ l ++ ev := by
    obtain ⟨i, k, hmem⟩ := ih j hj
    exact ⟨i, k, List.mem_append_left _ hmem⟩
  rcases step_crashed (wf_of_run hrun) (sync_of_run hrun)
    (current_of_run ((intact_of_nodup hrun hput).mono fun _ _ => And.right))
      (fun i => hleft.ne_fail) hops
    (fun e v hv => ne_nil_of_replying hprogs honce hcarried hrun hv) hs with heq |
      ⟨i, j', k, hmem, heq⟩
  · exact old (heq ▸ hj)
  · by_cases hjj : j = j'
    · exact ⟨i, k, List.mem_append_right _ (hjj ▸ hmem)⟩
    · rw [heq, update_of_ne hjj] at hj
      exact old hj

end

/-- On programs that put no key twice, and at each the value that `spec` foretells, the nodes
    cannot be told from a pool that shares a store: in every run, whatever the order in which
    their threads move, the programs stand where they do in a run of the pool; what is returned
    is the value of the key; no program fails; and a node only stops when a `get` does not
    find its key. -/
theorem shares_store (hprogs : ∀ i : Fin n, (progs i).Does spec (as i) ()) (honce : Pool.Once as)
    (hcarried : ∀ i, ∀ a ∈ as i, Carried n spec a) (h : Run n progs l s) :
    Pool.Run (.init fun i : Fin n => progs i) (pool n l s) ∧
      (∀ i op v, .return i op v ∈ l → v = spec op.key) ∧ (∀ i < n, s.prog i ≠ .fail) ∧
      ∀ j, s.crashed j = true → ∃ i k, .missing i j k ∈ l := by
  obtain ⟨hput, hl, hleft, hpool⟩ := pool_run hprogs honce h
  obtain ⟨m, hm, -⟩ := refines_of_run h
  have hdel := not_deleted_of_nodup h hput
  exact ⟨hpool, fun i op v hret => (hl.of_return (n := n) (s := s) hm hdel hret).1,
    fun i => hleft.ne_fail, fun j => missing_of_crashed hprogs honce hcarried h⟩

theorem shares_store_writeThenRead :
    ∃ s, Run 2 (writeThenRead ⟨lit "a", 0⟩ [7])
        [.issue 1 ⟨lit "a", 0⟩ [7], .apply 1 0 ⟨lit "a", 0⟩ [7], .request 1 (.get ⟨lit "a", 0⟩),
          .serve 1 (.get ⟨lit "a", 0⟩) [7], .return 1 (.get ⟨lit "a", 0⟩) [7]] s ∧
      Pool.Run (.init fun i : Fin 2 => writeThenRead ⟨lit "a", 0⟩ [7] i)
        (pool 2 [.issue 1 ⟨lit "a", 0⟩ [7], .apply 1 0 ⟨lit "a", 0⟩ [7],
          .request 1 (.get ⟨lit "a", 0⟩),
          .serve 1 (.get ⟨lit "a", 0⟩) [7], .return 1 (.get ⟨lit "a", 0⟩) [7]] s) ∧
      ∀ j, s.crashed j = false := by
  let as (i : Fin 2) : List (Prog.Access Key) :=
    if i.val = 1 then [.put ⟨lit "a", 0⟩, .get ⟨lit "a", 0⟩] else []
  have hprogs (i : Fin 2) : (writeThenRead ⟨lit "a", 0⟩ [7] i).Does (fun _ => [7]) (as i) () := by
    by_cases hi : i.val = 1
    · simp only [writeThenRead, as, hi, if_true]
      exact .put (.get (.ret ()))
    · simp only [writeThenRead, as, hi, if_false]
      exact .ret ()
  have hcarried (i : Fin 2) : ∀ a ∈ as i, Carried 2 (fun _ => [7]) a := by
    by_cases hi : i.val = 1
    · simp only [as, hi, if_true, List.forall_mem_cons]
      have hname : lit "a" ≠ [] := by decide
      exact ⟨⟨Nat.two_pos, hname, List.cons_ne_nil _ _⟩, ⟨Nat.two_pos, hname⟩,
        List.forall_mem_nil _⟩
    · simp only [as, hi, if_false]
      exact List.forall_mem_nil _
  have honce : Pool.Once as := by
    refine ⟨fun i => ?_, fun i j k hi hj => ?_⟩
    · by_cases hi : i.val = 1 <;> simp only [as, hi, if_true, if_false]
      · exact List.nodup_singleton _
      · exact List.nodup_nil
    · by_cases hi' : i.val = 1 <;> by_cases hj' : j.val = 1 <;>
        simp only [as, hi', hj', if_true, if_false, List.not_mem_nil] at hi hj
      exact Fin.ext (hi'.trans hj'.symm)
  obtain ⟨s, h⟩ := exists_run_writeThenRead
  obtain ⟨hpool, -, -, hcrashed⟩ := shares_store hprogs honce hcarried h
  refine ⟨s, h, hpool, fun j => Bool.eq_false_iff.2 fun hj => ?_⟩
  obtain ⟨i, k, hmem⟩ := hcrashed j hj
  simp at hmem

end Eau2.Network

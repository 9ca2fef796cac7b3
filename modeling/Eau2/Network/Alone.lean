import Eau2.Lib.Parts
import Eau2.Network.Once

/-!
# A node on keys of its own

A program whose accesses are all to keys of the node that runs it, and that reads nothing which
is not there, needs no other thread to move: the application gets done with it by itself
(`run_of_does`), and puts what the program puts.
-/

namespace Eau2.Network

open Prog (Access)

variable {n i : Nat} {s : State} {p : Prog Key Value Unit} {op : Op} {k : Key} {v : Value}

/-- A move of an application in a call. -/
theorem appStep_eq (hop : currentOp (s.prog i) = some op) :
    appStep n i s = (kvStep n i i op s (s.phase i)).map (appAfter i op s) := by
  obtain ⟨hfail, hret⟩ := currentOp_ne_fail hop
  rw [appStep]
  split
  · exact absurd ‹_› (hret _)
  · exact absurd ‹_› hfail
  · rw [hop, Option.bind_eq_bind, Option.bind_some]
    cases kvStep n i i op s (s.phase i) <;> rfl

/-- The application of the node `i` is at the head of the program, in a process that has not
    ended. -/
structure State.Ready (s : State) (i : Nat) (p : Prog Key Value Unit) : Prop where
  prog : s.prog i = p
  phase : s.phase i = .entry
  crashed : s.crashed i = false

namespace State.Ready

theorem currentOp_eq (h : s.Ready i p) (hop : currentOp p = some op) :
    currentOp (s.prog i) = some op := (congrArg currentOp h.prog).trans hop

theorem finish (h : s.crashed i = false) (p : Prog Key Value Unit) : (s.finish i p).Ready i p :=
  ⟨Function.update_self .., Function.update_self .., h⟩

/-- A put of a key of the node. -/
theorem put (h : s.Ready i (.put k v p)) (hi : i < n) (hk : k.node = i) :
    step n (.app i) s = some ((s.putItem i k v).finish i p, [.issue i k v, .apply i i k v]) := by
  rw [step, if_pos ⟨hi, h.crashed⟩, appStep_eq (h.currentOp_eq rfl), h.phase, kvStep,
    Op.key, if_pos hk, localOp, Option.map_some, appAfter, h.prog]
  rfl

/-- A read of a key of the node that is there: it is looked up, and then cloned. -/
theorem read (h : s.Ready i p) (hi : i < n) (hop : currentOp p = some op)
    (hread : op.isRead = true) (hk : op.key.node = i) (hv : s.lookup i op.key = some v) :
    ∃ s', Trace.Run (step n) (fun _ _ => True) s [.request i op, .serve i op v, .return i op v] s' ∧
      s'.Ready i (resume p (some v)) ∧ s'.lookup = s.lookup := by
  let t := s.setPhase i (.found (s.version i op.key.k))
  have hfound : localOp i i op s = some (s, .go (.found (s.version i op.key.k)), []) := by
    cases op with
    | get k | waitAndGet k =>
      have hv : s.lookup i k = some v := hv
      rw [localOp, hv]
      rfl
    | put => cases hread
  have hclone : cloneOp i i op (s.version i op.key.k) t =
      some (t, .done (some v), [.serve i op v]) := by
    have hv : t.lookup i op.key = some v := hv
    have hversion : t.version i op.key.k = s.version i op.key.k := rfl
    rw [cloneOp, if_pos hversion, hv]
    rfl
  have hfind : step n (.app i) s = some (t, []) := by
    rw [step, if_pos ⟨hi, h.crashed⟩, appStep_eq (h.currentOp_eq hop), h.phase, kvStep, if_pos hk,
      hfound]
    rfl
  have hphase : t.phase i = .found (s.version i op.key.k) := Function.update_self ..
  have hprog : t.prog i = p := h.prog
  have hreturn : step n (.app i) t = some (t.finish i (resume p (some v)),
      [.request i op, .serve i op v, .return i op v]) := by
    have hop' : currentOp (t.prog i) = some op := (congrArg currentOp hprog).trans hop
    rw [step, if_pos ⟨hi, h.crashed⟩, appStep_eq hop', hphase, kvStep, hclone, Option.map_some,
      appAfter, hprog, hphase]
    rfl
  exact ⟨_, .move (.move .refl trivial hfind) trivial hreturn, finish (s := t) h.crashed _, rfl⟩

end State.Ready

/-- The application makes the accesses of a program to keys of its node, in a store that has what
    is to be there under the keys `present`. -/
theorem run_of_does {α : Type} {spec : Key → Value} {q : Prog Key Value α}
    {f : α → Prog Key Value Unit} {as : List (Access Key)} {a : α} (hd : q.Does spec as a)
    (hi : i < n) (hhome : ∀ b ∈ as, b.key.node = i) {present : Set Key}
    (hpresent : ∀ k ∈ present, s.lookup k.node k = some (spec k))
    (havail : Pool.Available present as) (h : s.Ready i (q >>= f)) :
    ∃ l s', Trace.Run (step n) (fun _ _ => True) s l s' ∧ s'.Ready i (f a) ∧
      issuedKeys l = Pool.putKeys as := by
  induction hd generalizing s present with
  | ret a => exact ⟨[], s, .refl, h, rfl⟩
  | @put k next as a hd ih =>
    rw [List.forall_mem_cons] at hhome
    obtain ⟨hk : k.node = i, hhome⟩ := hhome
    have hput := State.Ready.put (p := next >>= f) h hi hk
    have hpresent' : ∀ k' ∈ insert k present,
        ((s.putItem i k (spec k)).finish i (next >>= f)).lookup k'.node k' = some (spec k') := by
      intro k' hk'
      refine (lookup_putItem hk k' (spec k)).trans ?_
      by_cases heq : k' = k
      · rw [heq, Function.update_self]
      · rw [Function.update_of_ne heq]
        exact hpresent k' (hk'.resolve_left heq)
    obtain ⟨l, s', hrun, hready, hissued⟩ :=
      ih hhome hpresent' havail (State.Ready.finish (s := s.putItem i k (spec k)) h.crashed _)
    exact ⟨_, s', .trans (.move .refl trivial hput) hrun, hready,
      (issuedKeys_append _ l).trans (congrArg (k :: ·) hissued)⟩
  | @get k next as a hd ih =>
    rw [List.forall_mem_cons] at hhome
    obtain ⟨hk : k.node = i, hhome⟩ := hhome
    obtain ⟨t, hread, hready, hlookup⟩ := h.read hi rfl rfl hk (hk ▸ hpresent k havail.1)
    obtain ⟨l, s', hrun, hready, hissued⟩ := ih hhome (hlookup ▸ hpresent) havail.2 hready
    exact ⟨_, s', hread.trans hrun, hready, (issuedKeys_append _ l).trans hissued⟩
  | @wait k next as a hd ih =>
    rw [List.forall_mem_cons] at hhome
    obtain ⟨hk : k.node = i, hhome⟩ := hhome
    obtain ⟨t, hread, hready, hlookup⟩ := h.read hi rfl rfl hk (hk ▸ hpresent k havail.1)
    obtain ⟨l, s', hrun, hready, hissued⟩ := ih hhome (hlookup ▸ hpresent) havail.2 hready
    exact ⟨_, s', hread.trans hrun, hready, (issuedKeys_append _ l).trans hissued⟩

end Eau2.Network

import Eau2.Network.Hub
import Eau2.Network.Progress
import Mathlib.Algebra.BigOperators.Group.Finset.Piecewise

/-!
# Nodes that finish

Programs that could make their accesses on a store that they share (`Pool.Published`) can make
them around the controller (`Near`): no node stops (`crashed_of_run`), there is no deadlock
(`not_deadlock_of_hub`), and every move brings the nodes nearer to their end
(`Move.weight_lt`). So whatever the order in which the threads move, they come to a state in
which none can, and all programs are done (`Completes`).
-/

namespace Eau2.Network

open Function Trace
open Prog (Access)
open Pool (Supplied)

variable {n : Nat} {s s' : State} {a : Action} {ev l : List Event} {spec : Key → Value}
  {rank : Key → Nat} {parts : Key → Set Key} {as : Fin n → List (Access Key)}
  {progs : Nat → Prog Key Value Unit}

/-! ## Deadlocks -/

theorem Move.issuedPuts (h : Move n s a s' ev) {kv : Key × Value} (hkv : kv ∈ issuedPuts ev) :
    s'.Issued kv.1 := by
  cases h with
  | @putLocal i k v next hprog hph hk =>
    obtain rfl : kv = (k, v) := List.mem_singleton.1 hkv
    exact .inl ((Causal.present_putItem hk v).2 (.inl rfl))
  | @sendPut i k v next c =>
    obtain rfl : kv = (k, v) := List.mem_singleton.1 hkv
    exact .inr ⟨c.peer, v, by simp⟩
  | _ => cases hkv

/-- The puts called have been applied or are in the channels. -/
theorem issued_of_run {ok : Action → State → Prop} (h : Trace.Run (step n) ok (init n progs) l s) :
    ∀ kv ∈ issuedPuts l, s.Issued kv.1 := by
  refine h.invariant_of (Q := fun _ s => WF n s) wf_of_run
    (fun l s => ∀ kv ∈ issuedPuts l, s.Issued kv.1) (List.forall_mem_nil _) ?_
  intro l s a s' ev wf ih _ hs kv hkv
  rw [issuedPuts_append] at hkv
  rcases List.mem_append.1 hkv with hkv | hkv
  · exact (step_move wf hs).issued (ih kv hkv)
  · exact (step_move wf hs).issuedPuts hkv

/-- In a deadlock around the controller, whoever has not finished waits for a key that is not
    there. -/
theorem Deadlock.waits_hub (h : Deadlock n s) (wf : WF n s) (hsync : Sync s) (ha : Accepted s)
    (hcalls : Calls n s) {i : Nat} (hi : i < n) (hne : s.prog i ≠ .ret ()) :
    ∃ k, currentOp (s.prog i) = some (.waitAndGet k) ∧ ¬s.Present k := by
  obtain ⟨op, hop, ⟨k, rfl, hk⟩ | ⟨c, hph, hrep⟩⟩ := (h.app wf hi).resolve_left hne
  · exact ⟨k, hop, hk⟩
  · -- the request is in the channel towards the controller
    have hend := wf.isEnd_hub hcalls hph
    have howner : s.owner c = i := wf.owner_of_awaiting hph
    have hin : s.inbox c = [] := by
      obtain ⟨-, hnil | ⟨-, k, rest, hin, -⟩⟩ := h.handler wf ha (e := c) hend.conn
      · exact hnil
      · -- the controller asks nobody
        have hm : Op.message (.waitAndGet k) ∈ s.inbox c.peer.peer := by simp [hin, Op.message]
        have hend' := wf.isEnd_hub hcalls (hsync.awaiting_of_mem rfl hm)
        have hdistinct := wf.distinct c hend.conn
        rw [EndId.peer_peer] at hend'
        exact absurd (hend'.owner.trans hend.owner.symm) hdistinct
    obtain ⟨hvalues, hserving⟩ := h.handler wf ha (e := c.peer) hend.conn
    have hcount := hsync.count c
    rw [howner, hph, if_pos rfl, State.outstanding, hvalues, hin, hrep] at hcount
    rcases hserving with hnil | ⟨-, k, rest, hin', hk⟩
    · rw [hnil] at hcount
      cases hcount
    · have hreq := hsync.request c (.waitAndGet k) rfl (by rw [hin']; exact List.mem_cons_self)
      exact ⟨k, howner ▸ hreq, hk⟩

section

variable (hp : Pool.Published spec rank parts (fun i : Fin n => progs i) as fun _ => ())
  (honce : Pool.Once as) (hcarried : ∀ i, ∀ a ∈ as i, Carried n spec a)
    (hnear : ∀ i : Fin n, ∀ a ∈ as i, Near i a)
  (h : Run n progs l s)
include hp honce hcarried hnear h

/-- No node stops. -/
theorem crashed_of_run (j : Nat) : s.crashed j = false := by
  refine Bool.eq_false_iff.2 fun hj => ?_
  obtain ⟨i, k, hmem⟩ := missing_of_crashed hp.does honce hcarried h hj
  exact (causal_of_run hp.does honce hp.supplied hcarried hnear h).2.2 i j k hmem

/-- There is no deadlock. -/
theorem not_deadlock_of_hub : ¬Deadlock n s := by
  intro hd
  have wf := wf_of_run h
  obtain ⟨-, -, hleft, hrun⟩ := pool_run hp.does honce h
  obtain ⟨rest, hfollows, -⟩ := hp.follows hrun
  -- somebody could move in the pool, but waits for a key whose put has not been called
  obtain ⟨i, hi, hne⟩ := hd.unfinished
  have hrest : rest ⟨i, hi⟩ ≠ [] := by
    intro hnil
    have hdoes := hfollows.does ⟨i, hi⟩
    rw [hnil] at hdoes
    generalize hprog : (pool n l s).prog ⟨i, hi⟩ = p at hdoes
    cases hdoes
    exact hne hprog
  obtain ⟨j, t, hstep⟩ := hfollows.exists_step hp hrest
  have hunfinished : s.prog j ≠ .ret () := by
    intro hret
    rw [Pool.step, show (pool n l s).prog j = _ from hret] at hstep
    cases hstep
  obtain ⟨k, hop, hk⟩ := hd.waits_hub wf (sync_of_run h) (accepted_of_run h)
    (hleft.calls hcarried hnear)
    j.isLt hunfinished
  have hnone : (pool n l s).store k = none := by
    refine Option.eq_none_iff_forall_ne_some.2 fun v hv => ?_
    rcases issued_of_run h _ ((Prog.mem_of_writeAll hv).resolve_right (by simp)) with hpresent |
      ⟨c, w, hm⟩
    · exact hk hpresent
    · exact hd.no_put wf (accepted_of_run h) (putsFirst_of_run h) c w hm
  cases hprog : s.prog j with
  | waitAndGet k' next =>
    rw [hprog] at hop
    cases hop
    rw [Pool.step, show (pool n l s).prog j = _ from hprog] at hstep
    simp only [hnone] at hstep
    cases hstep
  | _ => rw [hprog] at hop; cases hop

end

/-! ## Termination -/

/-- What a message has before it: it is received, served, and answered. -/
def Message.weight : Message → Nat
  | put _ _ => 2
  | get _ | waitAndGet _ => 5
  | reply _ => 1

/-- What a handler has before it. -/
def Handler.weight : Handler → Nat
  | serving .entry => 1
  | serving _ => 0
  | idle => 2
  | replying _ => 4

/-- What an application has before it until it waits for the reply. -/
def Phase.weight : Phase → Nat
  | entry => 8
  | opened _ | connected => 7
  | holding _ => 6
  | found _ | awaiting _ => 0

/-- What the nodes have before them, if their programs are to make the accesses `rest`. -/
def weight (rest : Fin n → List (Access Key)) (s : State) : Nat :=
  9 * ∑ i, (rest i).length + ∑ i ∈ Finset.range n, (s.phase i).weight +
    ∑ e ∈ ends (n - 1), ((s.inbox e).map Message.weight).sum +
      ∑ e ∈ ends (n - 1), (s.handler e).weight

theorem Op.weight_message {op : Op} (h : op.isRead = true) : op.message.weight = 5 := by
  cases op <;> first | rfl | cases h

/-- A sum of which one term changes. -/
theorem sum_update {ι β : Type} [DecidableEq ι] {S : Finset ι} (w : β → Nat) (f : ι → β) {i : ι}
    (hi : i ∈ S) (x : β) : ∑ j ∈ S, w (update f i x j) + w (f i) = ∑ j ∈ S, w (f j) + w x := by
  have hupdate : (fun j => w (update f i x j)) = update (fun j => w (f j)) i (w x) :=
    funext fun j => apply_update (fun _ => w) f i x j
  rw [hupdate, Finset.sum_update_of_mem hi,
    Finset.sum_eq_add_sum_sdiff_singleton_of_mem hi fun j => w (f j)]
  omega

/-- The programs are to make the accesses `rest`. -/
def Remaining (spec : Key → Value) (rest : Fin n → List (Access Key)) (s : State) : Prop :=
  ∀ i : Fin n, (s.prog i).Does spec (rest i) ()

section

variable {rest rest' : Fin n → List (Access Key)} {i : Nat} {e : EndId}

/-- A program that goes on has one access less to make. -/
theorem Remaining.update (h : Remaining spec rest s) (hi : i < n) {p : Prog Key Value Unit}
    {acc : Access Key} {accs : List (Access Key)} (hrest : rest ⟨i, hi⟩ = acc :: accs)
    (hdoes : p.Does spec accs ()) : ∃ rest' : Fin n → List (Access Key),
      (∀ s' : State, s'.prog = Function.update s.prog i p → Remaining spec rest' s') ∧
      ∑ j, (rest' j).length + 1 = ∑ j, (rest j).length := by
  refine ⟨Function.update rest ⟨i, hi⟩ accs, fun s' hprog j => ?_, ?_⟩
  · by_cases hj : j = ⟨i, hi⟩
    · rw [hprog, hj, update_self, update_self]
      exact hdoes
    · rw [hprog, update_of_ne (fun heq => hj (Fin.ext heq)), update_of_ne hj]
      exact h j
  · have hsum := sum_update List.length rest (Finset.mem_univ ⟨i, hi⟩) accs
    rw [hrest, List.length_cons] at hsum
    omega

theorem Remaining.put (h : Remaining spec rest s) (hi : i < n) {k : Key} {v : Value}
    {next : Prog Key Value Unit} (hput : s.prog i = .put k v next) :
    ∃ rest' : Fin n → List (Access Key),
      (∀ s' : State, s'.prog = Function.update s.prog i next → Remaining spec rest' s') ∧
      ∑ j, (rest' j).length + 1 = ∑ j, (rest j).length := by
  have hdoes := h ⟨i, hi⟩
  rw [show s.prog (⟨i, hi⟩ : Fin n) = _ from hput] at hdoes
  obtain ⟨-, accs, hrest, hnext⟩ := does_put hdoes
  exact h.update hi hrest hnext

theorem Remaining.read (h : Remaining spec rest s) (hi : i < n) {op : Op} {v : Value}
    (hop : currentOp (s.prog i) = some op) (hr : op.isRead = true) (hv : v = spec op.key) :
    ∃ rest' : Fin n → List (Access Key),
      (∀ s' : State, s'.prog = Function.update s.prog i (resume (s.prog i) (some v)) →
        Remaining spec rest' s') ∧
      ∑ j, (rest' j).length + 1 = ∑ j, (rest j).length := by
  obtain ⟨accs, hrest, hnext⟩ := does_resume hop hr (h ⟨i, hi⟩)
  exact h.update hi hrest (hv ▸ hnext)

theorem sum_phase (s : State) (hi : i < n) (ph : Phase) :
    ∑ j ∈ Finset.range n, (update s.phase i ph j).weight + (s.phase i).weight =
      ∑ j ∈ Finset.range n, (s.phase j).weight + ph.weight :=
  sum_update Phase.weight s.phase (Finset.mem_range.2 hi) ph

variable (hs : Static n s) (he : e.conn < s.nextConn)
include hs he

theorem Static.sum_inbox (msgs : List Message) :
    ∑ e' ∈ ends (n - 1), ((update s.inbox e msgs e').map Message.weight).sum +
        ((s.inbox e).map Message.weight).sum =
      ∑ e' ∈ ends (n - 1), ((s.inbox e').map Message.weight).sum +
        (msgs.map Message.weight).sum :=
  sum_update (fun msgs => (msgs.map Message.weight).sum) s.inbox
    (mem_ends.2 (hs.nextConn ▸ he)) msgs

theorem Static.sum_handler (hd : Handler) :
    ∑ e' ∈ ends (n - 1), (update s.handler e hd e').weight + (s.handler e).weight =
      ∑ e' ∈ ends (n - 1), (s.handler e').weight + hd.weight :=
  sum_update Handler.weight s.handler (mem_ends.2 (hs.nextConn ▸ he)) hd

/-- An application sends a message, and has `r` accesses less to make. -/
theorem Static.weight_lt_send {c : EndId} (hc : c.peer = e) {m : Message} {r : Nat} {ph : Phase}
    (hi : i < n) (hrest : ∑ j, (rest' j).length + r = ∑ j, (rest j).length)
    (hphase : s'.phase = update s.phase i ph) (hinbox : s'.inbox = (s.send c m).inbox)
    (hhandler : s'.handler = s.handler) (hlt : ph.weight + m.weight < 9 * r + (s.phase i).weight) :
    weight rest' s' < weight rest s := by
  have hp := sum_phase s hi ph
  have hm := hs.sum_inbox he (s.inbox e ++ [m])
  rw [List.map_append, List.sum_append, List.map_singleton, List.sum_singleton] at hm
  rw [weight, weight, hphase, hinbox, State.send_inbox, hc, hhandler]
  omega

/-- The handler of `e` moves, or one that has a message on a channel towards `d`. -/
theorem Static.weight_lt_handler {d : EndId} (hd' : d.conn < s.nextConn) {msgs : List Message}
    {hd : Handler} (hphase : s'.phase = s.phase) (hinbox : s'.inbox = update s.inbox d msgs)
    (hhandler : s'.handler = update s.handler e hd)
    (hlt : (msgs.map Message.weight).sum + hd.weight <
      ((s.inbox d).map Message.weight).sum + (s.handler e).weight) :
    weight rest s' < weight rest s := by
  have hm := hs.sum_inbox hd' msgs
  have hh := hs.sum_handler he hd
  rw [weight, weight, hphase, hinbox, hhandler]
  omega

omit hs he

/-- An application moves on its own, and has `r` accesses less to make. -/
theorem weight_lt_phase {r : Nat} {ph : Phase} (hi : i < n)
    (hrest : ∑ j, (rest' j).length + r = ∑ j, (rest j).length)
    (hphase : s'.phase = update s.phase i ph) (hinbox : s'.inbox = s.inbox)
    (hhandler : s'.handler = s.handler) (hlt : ph.weight < 9 * r + (s.phase i).weight) :
    weight rest' s' < weight rest s := by
  have hp := sum_phase s hi ph
  rw [weight, weight, hphase, hinbox, hhandler]
  omega

end

section

variable (wf : WF n s) (hs : Static n s) {rest : Fin n → List (Access Key)} {i : Nat} {e : EndId}
include wf hs

/-- A move of an application brings it nearer to its end. -/
theorem Move.weight_lt_app (hs' : Static n s') (h : Move n s a s' ev)
    (ha : a = .app i ∨ ∃ w, a = .appDeleted i w) (hi : i < n) (hcrashed : ∀ j, s'.crashed j = false)
    (hp : Remaining spec rest s) (hret : ∀ i op v, .return i op v ∈ ev → v = spec op.key) :
    ∃ rest' : Fin n → List (Access Key), Remaining spec rest' s' ∧
      weight rest' s' < weight rest s := by
  have hcrash {j : Nat} (hj : s'.crashed j = true) : False :=
    Bool.false_ne_true ((hcrashed j).symm.trans hj)
  cases h with
  | @putLocal i' k v next hput hph =>
    obtain rfl : i' = i := by simpa using ha
    obtain ⟨rest', hp', hlen⟩ := hp.put hi hput
    exact ⟨rest', hp' _ rfl, weight_lt_phase hi hlen rfl rfl rfl (by simp [hph, Phase.weight])⟩
  | @findLocal i' op hop hph hf =>
    obtain rfl : i' = i := by simpa using ha
    exact ⟨rest, hp, weight_lt_phase hi (Nat.add_zero _) rfl rfl rfl (by simp [hph, Phase.weight])⟩
  | @readLocal i' op v hop hph hk hr =>
    obtain rfl : i' = i := by simpa using ha
    obtain ⟨rest', hp', hlen⟩ := hp.read hi hop hr (hret i' op v (by simp))
    exact ⟨rest', hp' _ rfl, weight_lt_phase hi hlen rfl rfl rfl (by simp [hph, Phase.weight])⟩
  | @deletedLocal i' op t v hop hph ht hf =>
    obtain rfl : i' = i := by simpa using ha
    obtain ⟨rest', hp', hlen⟩ := hp.read hi hop hf.isRead (hret i' op v (by simp))
    exact ⟨rest', hp' _ rfl, weight_lt_phase hi hlen rfl rfl rfl (by simp [hph, Phase.weight])⟩
  | @connected i' op c hop hph =>
    obtain rfl : i' = i := by simpa using ha
    exact ⟨rest, hp, weight_lt_phase hi (Nat.add_zero _) rfl rfl rfl (by simp [hph, Phase.weight])⟩
  | @hold i' op c hop hph =>
    obtain rfl : i' = i := by simpa using ha
    exact ⟨rest, hp, weight_lt_phase hi (Nat.add_zero _) rfl rfl rfl (by simp [hph, Phase.weight])⟩
  | @sendPut i' k v next c hput hph =>
    obtain rfl : i' = i := by simpa using ha
    obtain ⟨rest', hp', hlen⟩ := hp.put hi hput
    have hend := (wf.holding (show _ = some (Op.put k v) by rw [hput]; rfl) (.inl hph)).1
    exact ⟨rest', hp' _ rfl, hs.weight_lt_send (e := c.peer) hend.conn rfl hi hlen rfl rfl rfl
      (by simp [hph, Phase.weight, Message.weight])⟩
  | @sendRead i' op c hop hph hr =>
    obtain rfl : i' = i := by simpa using ha
    have hend := (wf.holding hop (.inl hph)).1
    exact ⟨rest, hp, hs.weight_lt_send (e := c.peer) hend.conn rfl hi (Nat.add_zero _) rfl rfl rfl
      (by simp [hph, Phase.weight, Op.weight_message hr])⟩
  | @returned i' op c v hop hph hr =>
    obtain rfl : i' = i := by simpa using ha
    obtain ⟨rest', hp', hlen⟩ := hp.read hi hop hr (hret i' op v (by simp))
    exact ⟨rest', hp' _ rfl, weight_lt_phase hi hlen rfl rfl rfl (by simp [hph, Phase.weight])⟩
  -- no node stops, and no connection is opened
  | @crash _ j | @missingLocal j => exact (hcrash (j := j) (by simp)).elim
  | «open» =>
    have hnext : s.nextConn + 1 = n - 1 := hs'.nextConn
    have hconn := hs.nextConn
    omega
  | store _ hph => exact absurd hph (hs.phase _ _)
  | _ => simp at ha

/-- A move of a handler, or of an accept loop, brings the nodes nearer to their end. -/
theorem Move.weight_lt_handler (h : Move n s a s' ev)
    (ha : ∀ i, a ≠ .app i ∧ ∀ w, a ≠ .appDeleted i w) (hcrashed : ∀ j, s'.crashed j = false) :
    s'.prog = s.prog ∧ weight rest s' < weight rest s := by
  have hcrash {j : Nat} (hj : s'.crashed j = true) : False :=
    Bool.false_ne_true ((hcrashed j).symm.trans hj)
  have conn {c : EndId} {m : Message} {msgs : List Message} (hin : s.inbox c = m :: msgs) :
      c.conn < s.nextConn := wf.conn_of_inbox (by rw [hin]; exact List.cons_ne_nil _ _)
  cases h with
  | @recvReply c v msgs hh hin =>
    refine ⟨rfl, hs.weight_lt_handler (conn hin) (conn hin) rfl rfl (update_eq_self _ _).symm ?_⟩
    simp [hin, Message.weight]
  | @recv c op msgs hh hin =>
    refine ⟨rfl, hs.weight_lt_handler (conn hin) (conn hin) rfl (update_eq_self _ _).symm rfl ?_⟩
    simp [hh, Handler.weight]
  | @servePut c k v msgs hh hin =>
    refine ⟨rfl, hs.weight_lt_handler (conn hin) (conn hin) rfl rfl rfl ?_⟩
    simp only [hin, List.map_cons, List.sum_cons, Message.weight, hh, Handler.weight]
    omega
  | @find c op msgs hh hin hf =>
    refine ⟨rfl, hs.weight_lt_handler (conn hin) (conn hin) rfl (update_eq_self _ _).symm rfl ?_⟩
    simp [hh, Handler.weight]
  | @serveRead c op v msgs hh hin hr =>
    refine ⟨rfl, hs.weight_lt_handler (conn hin) (conn hin) rfl rfl rfl ?_⟩
    simp only [hin, List.map_cons, List.sum_cons, Op.weight_message hr, hh, Handler.weight]
    omega
  | @serveDeleted c op t v msgs hh hin ht hf =>
    refine ⟨rfl, hs.weight_lt_handler (conn hin) (conn hin) rfl rfl rfl ?_⟩
    simp only [hin, List.map_cons, List.sum_cons, Op.weight_message hf.isRead, hh, Handler.weight]
    omega
  | @reply c v hh =>
    have hconn := wf.conn_of_handler (e := c) (by rw [hh]; simp)
    refine ⟨rfl, hs.weight_lt_handler (d := c.peer) hconn hconn rfl rfl rfl ?_⟩
    simp [hh, Handler.weight, Message.weight]
  -- no node stops, and no connection is accepted
  | @crash _ j => exact (hcrash (j := j) (by simp)).elim
  | @missing c => exact (hcrash (j := s.owner c) (by simp)).elim
  | accept _ hback => cases (hs.backlog _).symm.trans hback
  | acceptStore hacc => cases (hs.accepting _).symm.trans hacc
  | _ => simp at ha

/-- Every move brings the nodes nearer to their end. -/
theorem Move.weight_lt (hs' : Static n s') (h : Move n s a s' ev)
    (hlt : ∀ i, (a = .app i ∨ ∃ w, a = .appDeleted i w) → i < n)
    (hcrashed : ∀ j, s'.crashed j = false) (hp : Remaining spec rest s)
    (hret : ∀ i op v, .return i op v ∈ ev → v = spec op.key) :
    ∃ rest' : Fin n → List (Access Key), Remaining spec rest' s' ∧
      weight rest' s' < weight rest s := by
  by_cases ha : ∃ i, a = .app i ∨ ∃ w, a = .appDeleted i w
  · obtain ⟨i, ha⟩ := ha
    exact h.weight_lt_app wf hs hs' ha (hlt i ha) hcrashed hp hret
  · push Not at ha
    obtain ⟨hprog, hweight⟩ := h.weight_lt_handler wf hs ha hcrashed
    exact ⟨rest, fun i => by rw [hprog]; exact hp i, hweight⟩

end

/-- Whatever the order in which the threads move, no node stops, they cannot move for ever, and
    when none can move all programs are done. -/
structure Completes (n : Nat) (progs : Nat → Prog Key Value Unit) : Prop where
  running : ∀ {l s}, Run n progs l s → ∀ j, s.crashed j = false
  bounded : ∃ w, ∀ acts s l, exec (step n) acts (init n progs) = some (s, l) → acts.length ≤ w
  done : ∀ {l s}, Run n progs l s → (∀ a, step n a s = none) → ∀ i < n, s.prog i = .ret ()

section

variable (hp : Pool.Published spec rank parts (fun i : Fin n => progs i) as fun _ => ())
  (honce : Pool.Once as) (hcarried : ∀ i, ∀ a ∈ as i, Carried n spec a)
    (hnear : ∀ i : Fin n, ∀ a ∈ as i, Near i a)
include hp honce hcarried hnear

/-- There are only so many moves. -/
theorem length_le_of_hub {acts : List Action} (h : exec (step n) acts (init n progs) =
    some (s, l)) :
    acts.length ≤ weight as (init n progs) := by
  refine length_le_of_exec (fun l s w => Run n progs l s ∧ ∃ rest : Fin n → List (Access Key),
    Remaining spec rest s ∧ weight rest s = w) ?_
    ⟨.refl, as, hp.does, rfl⟩ h
  rintro l s a s' ev w ⟨h, rest, hrest, rfl⟩ hs
  have h' := h.move trivial hs
  have hstatic {l s} (h : Run n progs l s) : Static n s :=
    (causal_of_run hp.does honce hp.supplied hcarried hnear h).1
  obtain ⟨m, hm, -⟩ := refines_of_run h'
  obtain ⟨hput', hl', -⟩ := pool_run hp.does honce h'
  have hret (i : Nat) (op : Op) (v : Value) (hv : .return i op v ∈ ev) : v = spec op.key :=
    (hl'.of_return (n := n) (s := s') hm (not_deleted_of_nodup h' hput')
      (List.mem_append_right _ hv)).1
  obtain ⟨rest', hrest', hlt⟩ := Move.weight_lt (wf_of_run h) (hstatic h) (hstatic h')
    (step_move (wf_of_run h) hs) (fun i ha => lt_of_step_app_or ha hs)
    (crashed_of_run hp honce hcarried hnear h') hrest hret
  exact ⟨_, hlt, h', rest', hrest', rfl⟩

/-- Programs that could make their accesses on a shared store complete around the controller. -/
theorem completes_of_published : Completes n progs where
  running := crashed_of_run hp honce hcarried hnear
  bounded := ⟨_, fun _ _ _ h => length_le_of_hub hp honce hcarried hnear h⟩
  done h hstuck i hi := by
    by_contra hne
    exact not_deadlock_of_hub hp honce hcarried hnear h
      ⟨hstuck, crashed_of_run hp honce hcarried hnear h, i, hi, hne⟩

end

end Eau2.Network

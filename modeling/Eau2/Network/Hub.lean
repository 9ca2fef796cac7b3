import Eau2.Network.Shared

/-!
# Nodes around the controller

Programs that read only keys of their own node and of the controller, and put only there
unless they are that of the controller (`Near`), only use the connections of the registration
phase (`Static`): what they send goes from the controller to the other nodes, or back, in one
channel each. So the put of a key comes to a node before whatever has been sent there by
somebody who knows of the put: when a value is published at the controller after its parts have
been put (`Pool.Supplied`), whoever gets the value finds those of its parts that it may read.

`Causal` is the invariant, and `not_missing_of_run` what comes of it: no `get` fails.
-/

namespace Eau2.Network

open Function Trace
open Prog (Access)
open Pool (Supplied)

variable {n : Nat} {s s' : State} {a : Action} {ev l : List Event} {spec : Key → Value}
  {parts : Key → Set Key} {as : Fin n → List (Access Key)} {progs : Nat → Prog Key Value Unit}

/-- The accesses of the program of the node `i` are to keys of this node and of the controller,
    or puts of the controller. -/
def Near (i : Nat) : Access Key → Prop
  | .put k => i = 0 ∨ k.node = 0 ∨ k.node = i
  | .get k | .wait k => k.node = 0 ∨ k.node = i

/-! ## The connections -/

/-- The connections are those of the registration phase. -/
structure Static (n : Nat) (s : State) : Prop where
  nextConn : s.nextConn = n - 1
  owner : ∀ e, s.owner e = if e.side then 0 else e.conn + 1
  connections : ∀ i j, i < n → j < n → i ≠ j → i = 0 ∨ j = 0 → ∃ c, s.connections i j = some c
  backlog : ∀ i, s.backlog i = []
  accepting : ∀ i, s.accepting i = none
  phase : ∀ i c, s.phase i ≠ .opened c

theorem init_static (n : Nat) (progs : Nat → Prog Key Value Unit) : Static n (init n progs) where
  nextConn := rfl
  owner _ := rfl
  connections i j hi hj hne h := by
    rcases h with rfl | rfl
    · exact ⟨_, if_pos ⟨rfl, Nat.pos_of_ne_zero hne.symm, hj⟩⟩
    · have hpos := Nat.pos_of_ne_zero hne
      exact ⟨_, (if_neg fun h => hne h.1).trans (if_pos ⟨rfl, hpos, hi⟩)⟩
  backlog _ := rfl
  accepting _ := rfl
  phase _ _ h := by cases h

/-- The calls that the applications are in. -/
def Calls (n : Nat) (s : State) : Prop :=
  ∀ i < n, ∀ op, currentOp (s.prog i) = some op → op.key.node < n ∧ Near i op.access

theorem Move.static (h : Move n s a s' ev) (hlt : ∀ i, a = .app i → i < n) (hcalls : Calls n s)
    (hs : Static n s) : Static n s' := by
  have phase {i : Nat} {ph : Phase} (hph : ∀ c, ph ≠ .opened c) (j : Nat) (c : EndId) :
      update s.phase i ph j ≠ .opened c := by
    by_cases hj : j = i
    · rw [hj, update_self]
      exact hph c
    · rw [update_of_ne hj]
      exact hs.phase j c
  cases h with
  | @«open» i op hop hph hne hnone =>
    -- every node has a connection with the controller
    have hi := hlt i rfl
    obtain ⟨hnode, hnear⟩ := hcalls i hi op hop
    have hhub : i = 0 ∨ op.key.node = 0 := by
      cases op with
      | put => exact hnear.imp_right fun h => h.resolve_right hne
      | get | waitAndGet => exact .inr (hnear.resolve_right hne)
    obtain ⟨c, hc⟩ := hs.connections i op.key.node hi hnode hne.symm hhub
    cases hc.symm.trans hnone
  | store _ hph => exact absurd hph (hs.phase _ _)
  | accept _ hback => cases (hs.backlog _).symm.trans hback
  | acceptStore hacc => cases (hs.accepting _).symm.trans hacc
  | putLocal | findLocal | readLocal | deletedLocal | connected | hold | sendPut | sendRead
  | returned => exact ⟨hs.1, hs.2, hs.3, hs.4, hs.5, phase (by simp)⟩
  | _ => exact ⟨hs.1, hs.2, hs.3, hs.4, hs.5, hs.6⟩

/-- The channel from the controller to the node `j`. -/
def toNode (j : Nat) : EndId := ⟨j - 1, false⟩

/-- The channel from the node `i` to the controller. -/
def toHub (i : Nat) : EndId := ⟨i - 1, true⟩

/-- What a node sends comes in where it does from every node but the controller. -/
theorem Static.isEnd (hs : Static n s) {c : EndId} {i j : Nat} (h : s.IsEnd c i j) :
    (i ≠ 0 ∧ j = 0 ∧ c.peer = toHub i) ∨ (i = 0 ∧ j ≠ 0 ∧ c.peer = toNode j) := by
  obtain ⟨conn, side⟩ := c
  have hi := h.owner
  have hj := h.peer
  rw [hs.owner] at hi hj
  cases side with
  | false =>
    obtain rfl : conn + 1 = i := hi
    exact .inl ⟨Nat.succ_ne_zero _, hj.symm, rfl⟩
  | true =>
    obtain rfl : conn + 1 = j := hj
    exact .inr ⟨hi.symm, Nat.succ_ne_zero _, rfl⟩

/-! ## What is known -/

/-- The put of `k` is in the channel towards the end `e`. -/
def State.Comes (s : State) (e : EndId) (k : Key) : Prop := ∃ v, .put k v ∈ s.inbox e

/-- To whoever is at the node `q` and has the messages `l` before it, the put of `k` is done:
    the key is in the store, or the put is in `l`, or on its way from the controller to another
    node. -/
def State.Ahead (s : State) (q : Nat) (l : List Message) (k : Key) : Prop :=
  s.Present k ∨ (k.node = q ∧ ∃ v, .put k v ∈ l) ∨
    (k.node ≠ q ∧ k.node ≠ 0 ∧ s.Comes (toNode k.node) k)

/-- The application of the node `i` may go by the put of `k`. -/
def State.Visible (s : State) (i : Nat) (k : Key) : Prop :=
  s.Ahead i [] k ∨ (i ≠ 0 ∧ k.node = 0 ∧ s.Comes (toHub i) k)

/-- The reply that comes to the end `e` is that of a key, which it brings with its parts. -/
def State.brings (parts : Key → Set Key) (s : State) (e : EndId) : Set Key :=
  {k' | s.phase (s.owner e) = .awaiting e ∧
    ∃ k, currentOp (s.prog (s.owner e)) = some (.waitAndGet k) ∧ (k' = k ∨ k' ∈ parts k)}

/-- The keys whose puts a message goes by. -/
def State.needs (parts : Key → Set Key) (s : State) (e : EndId) : Message → Set Key
  | .put k _ => parts k
  | .get k => {k}
  | .waitAndGet _ => ∅
  | .reply _ => s.brings parts e

theorem State.Ahead.visible {i : Nat} {k : Key} (h : s.Ahead i [] k) : s.Visible i k := .inl h

theorem State.Visible.ahead_hub {k : Key} (h : s.Visible 0 k) : s.Ahead 0 [] k :=
  h.resolve_right fun h => h.1 rfl

/-- At the home of the key, it is in the store. -/
theorem State.Ahead.present {k : Key} (h : s.Ahead k.node [] k) : s.Present k := by
  rcases h with h | ⟨-, v, hv⟩ | ⟨hne, -⟩
  · exact h
  · cases hv
  · exact absurd rfl hne

theorem State.Visible.present {k : Key} (h : s.Visible k.node k) : s.Present k :=
  h.elim State.Ahead.present fun ⟨hi, hnode, _⟩ => absurd hnode hi

/-- A put in a channel stays there until it is applied. -/
theorem Move.comes (h : Move n s a s' ev) {e : EndId} {k : Key} (hk : s.Comes e k) :
    s'.Comes e k ∨ s'.Present k := by
  obtain ⟨v, hm⟩ := hk
  cases h with
  | recvReply _ hin => exact .inl ⟨v, mem_inbox_pop hin (by simp) hm⟩
  | serveRead _ hin hr => exact .inl ⟨v, mem_inbox_pop hin (Op.message_ne_put hr k v).symm hm⟩
  | serveDeleted _ hin _ hf =>
    exact .inl ⟨v, mem_inbox_pop hin (Op.message_ne_put hf.isRead k v).symm hm⟩
  | @servePut c k' v' rest hh hin hk' =>
    by_cases hne : Message.put k' v' = .put k v
    · obtain ⟨rfl, rfl⟩ := Message.put.inj hne
      have hlookup := lookup_putItem (s := s) hk' k' v'
      rw [update_self] at hlookup
      exact .inr (Option.isSome_iff_exists.2 ⟨v', hlookup⟩)
    · exact .inl ⟨v, mem_inbox_pop hin (Ne.symm hne) hm⟩
  | sendPut | sendRead | reply => exact .inl ⟨v, mem_inbox_send hm⟩
  | _ => exact .inl ⟨v, hm⟩

theorem Move.ahead (h : Move n s a s' ev) {q : Nat} {msgs msgs' : List Message} {k : Key}
    (hsub : ∀ v, .put k v ∈ msgs → .put k v ∈ msgs' ∨ s'.Present k) (hk : s.Ahead q msgs k) :
    s'.Ahead q msgs' k := by
  rcases hk with hk | ⟨hnode, v, hv⟩ | ⟨hne, hhub, hcomes⟩
  · exact .inl (h.present hk)
  · exact (hsub v hv).elim (fun hv => .inr (.inl ⟨hnode, v, hv⟩)) .inl
  · exact (h.comes hcomes).elim (fun hc => .inr (.inr ⟨hne, hhub, hc⟩)) .inl

theorem Move.visible (h : Move n s a s' ev) {i : Nat} {k : Key} (hk : s.Visible i k) :
    s'.Visible i k := by
  rcases hk with hk | ⟨hi, hnode, hcomes⟩
  · exact .inl (h.ahead (fun v hv => .inl hv) hk)
  · exact (h.comes hcomes).elim (fun hc => .inr ⟨hi, hnode, hc⟩) fun hp => .inl (.inl hp)

/-- What an application goes by is ahead of the message that it sends. -/
theorem Static.ahead_of_visible (hs : Static n s) {c : EndId} {i j : Nat}
    (hc : s.IsEnd c i j) {k : Key} (hk : s.Visible i k) : s.Ahead j (s.inbox c.peer) k := by
  rcases hk with (hk | ⟨-, v, hv⟩ | ⟨hne, hhub, hcomes⟩) | ⟨hi, hnode, hcomes⟩
  · exact .inl hk
  · cases hv
  · by_cases hj : k.node = j
    · -- the message and the put are in the channel from the controller
      rcases hs.isEnd hc with ⟨-, rfl, -⟩ | ⟨-, -, hpeer⟩
      · exact absurd hj hhub
      · rw [hj, ← hpeer] at hcomes
        exact .inr (.inl ⟨hj, hcomes⟩)
    · exact .inr (.inr ⟨hj, hhub, hcomes⟩)
  · rcases hs.isEnd hc with ⟨-, rfl, hpeer⟩ | ⟨rfl, -⟩
    · rw [← hpeer] at hcomes
      exact .inr (.inl ⟨hnode, hcomes⟩)
    · exact absurd rfl hi

/-- Replies come from the controller. -/
theorem WF.isEnd_hub (wf : WF n s) (hcalls : Calls n s) {i : Nat} {e : EndId}
    (hph : s.phase i = .awaiting e) :
    s.IsEnd e.peer 0 i := by
  obtain ⟨op, hop, hend, hr⟩ := wf.phase_awaiting hph
  have hi : i < n := hend.owner ▸ wf.bound e hend.conn
  have hne : op.key.node ≠ i := fun heq =>
    wf.distinct e hend.conn (hend.owner.trans (heq.symm.trans hend.peer.symm))
  have hnode : op.key.node = 0 := by
    have hnear := (hcalls i hi op hop).2
    cases op with
    | put => cases hr
    | get | waitAndGet => exact hnear.resolve_right hne
  exact ⟨hend.conn, hend.peer.trans hnode, e.peer_peer.symm ▸ hend.owner⟩

/-! ## The invariant -/

/-- Whoever goes by a put, finds it done. -/
structure Causal (spec : Key → Value) (parts : Key → Set Key) (as : Fin n → List (Access Key))
    (s : State) :
    Prop where
  /-- What an application is to read is there, or will be when it does. -/
  progs : ∀ i : Fin n, ∃ rest, rest <:+ as i ∧ (s.prog i).Does spec rest () ∧
    Supplied parts {k | s.Visible i k} rest
  store : ∀ k, s.Present k → ∀ k' ∈ parts k, s.Visible k.node k'
  inbox : ∀ e, Always (fun l m => ∀ k ∈ s.needs parts e m, s.Ahead (s.owner e) l k) (s.inbox e)
  handler : ∀ e v, s.handler e = .replying v → ∀ k ∈ s.brings parts e.peer, s.Ahead (s.owner e) [] k
  replies : ∀ e, s.replies e ≠ [] → ∀ k ∈ s.brings parts e, s.Ahead (s.owner e) [] k

/-- The replies to come bring what they did, if the application that they come to is where it
    was or waits for nothing. -/
theorem State.brings_subset {e : EndId} (howner : s'.owner = s.owner)
    (hs : (s'.phase (s.owner e) = s.phase (s.owner e) ∧ s'.prog (s.owner e) = s.prog (s.owner e)) ∨
      s'.phase (s.owner e) ≠ .awaiting e) : s'.brings parts e ⊆ s.brings parts e := by
  rintro k' ⟨hph, k, hop, hk⟩
  rw [howner] at hph hop
  rcases hs with ⟨hphase, hprog⟩ | hne
  · exact ⟨hphase ▸ hph, k, hprog ▸ hop, hk⟩
  · exact absurd hph hne

/-- A reply that comes brings what it did before the move. -/
theorem Move.brings (h : Move n s a s' ev) (hsync' : Sync s')
    (howner : s'.owner = s.owner) {e : EndId}
    {v : Value} (hv : s'.Coming e v) : s'.brings parts e ⊆ s.brings parts e := by
  refine State.brings_subset howner ?_
  -- the application that moves does not wait for a reply on `e`
  have app {i : Nat} {ph : Phase} {p : Nat → Prog Key Value Unit} (hne : ph ≠ .awaiting e)
      (hp : ∀ j ≠ i, p j = s.prog j) :
      (update s.phase i ph (s.owner e) = s.phase (s.owner e) ∧ p (s.owner e) = s.prog (s.owner e)) ∨
        update s.phase i ph (s.owner e) ≠ .awaiting e := by
    by_cases hi : s.owner e = i
    · rw [hi, update_self]
      exact .inr hne
    · exact .inl ⟨update_of_ne hi _ _, hp _ hi⟩
  cases h with
  | putLocal | readLocal | deletedLocal | sendPut | returned =>
    exact app (by simp) fun j hj => update_of_ne hj _ _
  | findLocal | connected | «open» | store | hold => exact app (by simp) fun _ _ => rfl
  | @sendRead i op c hop hph hr =>
    refine app (fun heq => ?_) fun _ _ => rfl
    obtain rfl : c = e := Phase.awaiting.inj heq
    exact hsync'.not_coming hr (by simp) hv
  | _ => exact .inl ⟨rfl, rfl⟩

theorem Move.needs (h : Move n s a s' ev) (hsync' : Sync s')
    (howner : s'.owner = s.owner) {e : EndId}
    {m : Message} (hm : m ∈ s'.inbox e) : s'.needs parts e m ⊆ s.needs parts e m := by
  cases m with
  | put | get | waitAndGet => exact subset_rfl
  | reply v => exact h.brings hsync' howner (.inr (.inl hm))

namespace Causal

theorem present_putItem {i : Nat} {k k' : Key} (hk : k.node = i) (v : Value) :
    (s.putItem i k v).Present k' ↔ k' = k ∨ s.Present k' := by
  rw [State.Present, lookup_putItem hk]
  by_cases heq : k' = k
  · simp [heq]
  · rw [update_of_ne heq]
    exact (or_iff_right heq).symm

variable (h : Move n s a s' ev)
  (hc : Causal spec parts as s)

section

include h hc

/-- What the applications are to read. -/
theorem move_progs (wf : WF n s) (hs : Static n s) (hret : ∀ i op v, .return i op v ∈ ev →
    v = spec op.key) (i : Fin n) : ∃ rest, rest <:+ as i ∧ (s'.prog i).Does spec rest () ∧
    Supplied parts {k | s'.Visible i k} rest := by
  have same (hprog : s'.prog i = s.prog i) : ∃ rest, rest <:+ as i ∧ (s'.prog i).Does spec rest () ∧
      Supplied parts {k | s'.Visible i k} rest := by
    obtain ⟨rest, hrest, hp, hsup⟩ := hc.progs i
    exact ⟨rest, hrest, hprog ▸ hp, hsup.mono fun k hk => h.visible hk⟩
  -- the program that goes on, after the access `acc`
  have goes {j : Nat} {p : Prog Key Value Unit} (hprog : s'.prog = update s.prog j p)
      (hgo : j = i → ∃ acc rest, acc :: rest <:+ as i ∧ p.Does spec rest () ∧
        Supplied parts {k | s'.Visible i k} rest) : ∃ rest, rest <:+ as i ∧
          (s'.prog i).Does spec rest () ∧ Supplied parts {k | s'.Visible i k} rest := by
    by_cases hj : j = i
    · obtain ⟨acc, rest, hrest, hp, hsup⟩ := hgo hj
      refine ⟨rest, (List.suffix_cons acc rest).trans hrest, ?_, hsup⟩
      rwa [hprog, hj, update_self]
    · exact same (by rw [hprog, update_of_ne (Ne.symm hj)])
  have put {j : Nat} {k : Key} {v : Value} {next : Prog Key Value Unit}
      (hput : s.prog j = .put k v next)
      (hk : s'.Visible j k) (hj : j = i) : ∃ acc rest, acc :: rest <:+ as i ∧
        next.Does spec rest () ∧
        Supplied parts {k | s'.Visible i k} rest := by
    obtain ⟨rest, hrest, hp, hsup⟩ := hc.progs i
    rw [← hj, hput] at hp
    obtain ⟨-, rest', rfl, hnext⟩ := does_put hp
    refine ⟨_, rest', hrest, hnext, hsup.2.mono ?_⟩
    rintro k' (rfl | hk')
    · exact hj ▸ hk
    · exact h.visible hk'
  have read {j : Nat} {op : Op} {v : Value} (hop : currentOp (s.prog j) = some op)
      (hr : op.isRead = true)
      (hv : v = spec op.key) (hwait : ∀ k, op = .waitAndGet k → s'.Visible j k ∧
        ∀ k' ∈ parts k, s'.Visible j k')
      (hj : j = i) : ∃ acc rest, acc :: rest <:+ as i ∧
        (resume (s.prog j) (some v)).Does spec rest () ∧
        Supplied parts {k | s'.Visible i k} rest := by
    obtain ⟨rest, hrest, hp, hsup⟩ := hc.progs i
    rw [← hj] at hp
    obtain ⟨rest', rfl, hnext⟩ := does_resume hop hr hp
    rw [← hv] at hnext
    refine ⟨_, rest', hrest, hnext, ?_⟩
    cases op with
    | put => cases hr
    | get k => exact hsup.2.mono fun k' hk' => h.visible hk'
    | waitAndGet k =>
      obtain ⟨hk, hparts⟩ := hwait k rfl
      refine Supplied.mono hsup ?_
      rintro k' ((rfl | hk') | hk')
      · exact hj ▸ hk
      · exact h.visible hk'
      · exact hj ▸ hparts k' hk'
  -- a key of the node that is read there goes by its parts
  have home {j : Nat} {k : Key} (hk : k.node = j) (hpresent : s.Present k) :
      s'.Visible j k ∧ ∀ k' ∈ parts k, s'.Visible j k' :=
    ⟨h.visible (.inl (.inl hpresent)), fun k' hk' => h.visible (hk ▸ hc.store k hpresent k' hk')⟩
  cases h with
  | @putLocal j k v next hput hph hk =>
    exact goes rfl (put hput (.inl (.inl ((present_putItem hk v).2 (.inl rfl)))))
  | @sendPut j k v next c hput hph =>
    refine goes rfl (put hput ?_)
    -- the put is in the channel to the controller, or from it
    have hend := (wf.holding (show _ = some (Op.put k v) by rw [hput]; rfl) (.inl hph)).1
    have hcomes : ((s.send c (.put k v)).finish j next).Comes c.peer k := ⟨v, by simp⟩
    rcases hs.isEnd hend with ⟨hj, hnode, hpeer⟩ | ⟨rfl, hnode, hpeer⟩
    · rw [hpeer] at hcomes
      exact .inr ⟨hj, hnode, hcomes⟩
    · rw [hpeer] at hcomes
      exact .inl (.inr (.inr ⟨hnode, hnode, hcomes⟩))
  | @readLocal j op v hop hph hk hr hv =>
    refine goes rfl (read hop hr (hret j op v (by simp)) fun k heq => ?_)
    subst heq
    obtain rfl : k.node = j := hk
    exact home rfl (Option.isSome_iff_exists.2 ⟨v, hv⟩)
  | @deletedLocal j op t v hop hph ht hf =>
    refine goes rfl (read hop hf.isRead (hret j op v (by simp)) fun k heq => ?_)
    subst heq
    obtain rfl : k.node = j := hf.node
    exact home rfl hf.lookup
  | @returned j op c v hop hph hr hrep =>
    refine goes rfl (read hop hr (hret j op v (by simp)) fun k heq => ?_)
    subst heq
    have howner := wf.owner_of_awaiting hph
    have hbrings := hc.replies c (by simp [hrep])
    rw [howner] at hbrings
    have hmem {k' : Key} (hk' : k' = k ∨ k' ∈ parts k) : k' ∈ s.brings parts c :=
      ⟨by rw [howner, hph], k, by rw [howner, hop], hk'⟩
    exact ⟨.inl (hbrings k (hmem (.inl rfl))), fun k' hk' => .inl (hbrings k' (hmem (.inr hk')))⟩
  | _ => exact same rfl

/-- The parts of the keys in the store. -/
theorem move_store (hlt : ∀ i, a = .app i → i < n) :
    ∀ k, s'.Present k → ∀ k' ∈ parts k, s'.Visible k.node k' := by
  have old {k : Key} (hk : s.Present k) : ∀ k' ∈ parts k, s'.Visible k.node k' :=
    fun k' hk' => h.visible (hc.store k hk k' hk')
  -- a key that is put finds its parts
  have put {i : Nat} {k₀ : Key} {v : Value} (hk₀ : k₀.node = i)
      (hparts : ∀ k' ∈ parts k₀, s.Visible i k')
      (k : Key) (hk : (s.putItem i k₀ v).Present k) : ∀ k' ∈ parts k, s'.Visible k.node k' := by
    rcases (present_putItem hk₀ v).1 hk with rfl | hk
    · exact fun k' hk' => h.visible (hk₀ ▸ hparts k' hk')
    · exact old hk
  cases h with
  | @putLocal i k v next hput hph hk =>
    obtain ⟨rest, -, hp, hsup⟩ := hc.progs ⟨i, hlt i rfl⟩
    rw [show s.prog (⟨i, hlt i rfl⟩ : Fin n) = _ from hput] at hp
    obtain ⟨-, rest', rfl, -⟩ := does_put hp
    exact put hk hsup.1
  | @servePut c k v rest hh hin hk =>
    have hinbox := hc.inbox c
    rw [hin, always_cons] at hinbox
    exact put hk fun k' hk' => .inl (hinbox.1 k' hk')
  | _ => exact fun k => old

/-- What the messages in the channels go by. -/
theorem move_inbox (wf : WF n s) (hs : Static n s) (hcalls : Calls n s) (hsync' : Sync s')
    (howner : s'.owner = s.owner) (hlt : ∀ i, a = .app i → i < n) (e : EndId) :
    Always (fun l m => ∀ k ∈ s'.needs parts e m, s'.Ahead (s'.owner e) l k) (s'.inbox e) := by
  have needs (e : EndId) (m : Message) (hm : m ∈ s'.inbox e) :
      s'.needs parts e m ⊆ s.needs parts e m :=
    h.needs hsync' howner hm
  have mono {msgs : List Message} (hsub : ∀ m ∈ msgs, m ∈ s'.inbox e)
      (hmsgs : Always (fun l m => ∀ k ∈ s.needs parts e m, s.Ahead (s.owner e) l k) msgs) :
      Always (fun l m => ∀ k ∈ s'.needs parts e m, s'.Ahead (s'.owner e) l k) msgs := by
    intro l₁ m l₂ heq k hk
    have hm : m ∈ msgs := heq ▸ List.mem_append_right _ List.mem_cons_self
    rw [howner]
    exact h.ahead (fun v hv => .inl hv) (hmsgs l₁ m l₂ heq k (needs e m (hsub m hm) hk))
  have same (hinbox : s'.inbox e = s.inbox e) :
      Always (fun l m => ∀ k ∈ s'.needs parts e m, s'.Ahead (s'.owner e) l k) (s'.inbox e) := by
    rw [hinbox]
    exact mono (fun m hm => hinbox ▸ hm) (hc.inbox e)
  -- a message is handled, a put by being applied
  have pop {c : EndId} {m : Message} {rest : List Message} (hin : s.inbox c = m :: rest)
      (hinbox : s'.inbox = update s.inbox c rest) (hm : ∀ k v, m = .put k v → s'.Present k) :
      Always (fun l m => ∀ k ∈ s'.needs parts e m, s'.Ahead (s'.owner e) l k) (s'.inbox e) := by
    by_cases he : e = c
    · subst he
      have hrest : s'.inbox e = rest := by rw [hinbox, update_self]
      have hold := hc.inbox e
      rw [hin, always_cons] at hold
      rw [hrest, howner]
      intro l₁ m' l₂ heq k hk
      have hm' : m' ∈ s'.inbox e := by
        rw [hrest, heq]; exact List.mem_append_right _ List.mem_cons_self
      refine h.ahead (fun v hv => ?_) (hold.2 l₁ m' l₂ heq k (needs e m' hm' hk))
      exact (List.mem_cons.1 hv).elim (fun hv => .inr (hm k v hv.symm)) .inl
    · exact same (by rw [hinbox, update_of_ne he])
  have push {c : EndId} {m : Message} (hinbox : s'.inbox = (s.send c m).inbox)
      (hm : ∀ k ∈ s'.needs parts c.peer m, s.Ahead (s.owner c.peer) (s.inbox c.peer) k) :
      Always (fun l m => ∀ k ∈ s'.needs parts e m, s'.Ahead (s'.owner e) l k) (s'.inbox e) := by
    by_cases he : e = c.peer
    · subst he
      have happend : s'.inbox c.peer = s.inbox c.peer ++ [m] := by
        rw [hinbox, State.send_inbox, update_self]
      rw [happend]
      refine (mono (fun m' hm' => happend ▸ List.mem_append_left _ hm') (hc.inbox _)).append
        (always_cons.2 ⟨fun k hk => ?_, always_nil⟩)
      rw [List.append_nil, howner]
      exact h.ahead (fun v hv => .inl hv) (hm k hk)
    · exact same (by rw [hinbox, State.send_inbox, update_of_ne he])
  cases h with
  | @sendPut i k v next c hput hph =>
    have hend := (wf.holding (show _ = some (Op.put k v) by rw [hput]; rfl) (.inl hph)).1
    obtain ⟨rest, -, hp, hsup⟩ := hc.progs ⟨i, hlt i rfl⟩
    rw [show s.prog (⟨i, hlt i rfl⟩ : Fin n) = _ from hput] at hp
    obtain ⟨-, rest', rfl, -⟩ := does_put hp
    refine push rfl fun k' hk' => ?_
    rw [hend.peer]
    exact hs.ahead_of_visible hend (hsup.1 hk')
  | @sendRead i op c hop hph hr =>
    have hend := (wf.holding hop (.inl hph)).1
    obtain ⟨rest, -, hp, hsup⟩ := hc.progs ⟨i, hlt i rfl⟩
    obtain ⟨rest', rfl, -⟩ := does_resume hop hr hp
    refine push rfl fun k' hk' => ?_
    cases op with
    | put => cases hr
    | get k =>
      obtain rfl : k' = k := hk'
      rw [hend.peer]
      exact hs.ahead_of_visible hend hsup.1
    | waitAndGet k => exact hk'.elim
  | @reply c v hh =>
    refine push rfl fun k hk => ?_
    have hbrings := needs c.peer (.reply v) (by simp) hk
    have hend := wf.isEnd_hub hcalls hbrings.1
    rw [EndId.peer_peer] at hend
    refine hs.ahead_of_visible hend (.inl ?_)
    rw [← hend.owner]
    exact hc.handler c v hh k hbrings
  | recvReply _ hin => exact pop hin rfl (by simp)
  | serveRead _ hin hr => exact pop hin rfl fun k v hm => absurd hm (Op.message_ne_put hr k v)
  | serveDeleted _ hin _ hf =>
    exact pop hin rfl fun k v hm => absurd hm (Op.message_ne_put hf.isRead k v)
  | @servePut c k v rest hh hin hk =>
    refine pop hin rfl fun k' v' hm => ?_
    obtain ⟨rfl, rfl⟩ := Message.put.inj hm
    exact (present_putItem hk v).2 (.inl rfl)
  | _ => exact same rfl

/-- What the replies go by that the handlers are to send. -/
theorem move_handler (wf : WF n s) (hsync : Sync s) (hcalls : Calls n s) (hsync' : Sync s')
    (howner : s'.owner = s.owner) (e : EndId) (v : Value) (hv : s'.handler e = .replying v) :
    ∀ k ∈ s'.brings parts e.peer, s'.Ahead (s'.owner e) [] k := by
  have ahead {q : Nat} {k : Key} (hk : s.Ahead q [] k) : s'.Ahead q [] k :=
    h.ahead (fun v hv => .inl hv) hk
  have hbrings : s'.brings parts e.peer ⊆ s.brings parts e.peer :=
    h.brings hsync' howner (.inl (e.peer_peer.symm ▸ hv))
  have old (hv : s.handler e = .replying v) :
      ∀ k ∈ s'.brings parts e.peer, s'.Ahead (s'.owner e) [] k := by
    intro k hk
    rw [howner]
    exact ahead (hc.handler e v hv k (hbrings hk))
  have other {c : EndId} {hd : Handler} (hhd : hd ≠ .replying v)
      (hv : update s.handler c hd e = .replying v) : s.handler e = .replying v := by
    by_cases he : e = c
    · subst he
      rw [update_self] at hv
      exact absurd hv hhd
    · rwa [update_of_ne he] at hv
  -- a key in the store of the controller goes by its parts
  have served {op : Op} {rest : List Message} (hin : s.inbox e = op.message :: rest)
      (hf : s.Found (s.owner e) op) : ∀ k ∈ s'.brings parts e.peer, s'.Ahead (s'.owner e) [] k := by
    intro k' hk'
    obtain ⟨hph, k, hop, hmem⟩ := hbrings hk'
    have hreq := hsync.request e.peer op hf.isRead
      (by rw [EndId.peer_peer, hin]; exact List.mem_cons_self)
    obtain rfl := Option.some.inj (hreq.symm.trans hop)
    have hend := wf.isEnd_hub hcalls hph
    rw [EndId.peer_peer] at hend
    have hnode : k.node = 0 := hf.node.trans hend.owner
    have hpresent : s.Present k := by
      have hlookup := hf.lookup
      rwa [← hf.node] at hlookup
    have hvisible : ∀ k' ∈ parts k, s.Ahead 0 [] k' := fun k' hk' =>
      (hnode ▸ hc.store k hpresent k' hk' : s.Visible 0 k').ahead_hub
    rw [howner, hend.owner]
    refine ahead ?_
    rcases hmem with rfl | hmem
    · exact .inl hpresent
    · exact hvisible k' hmem
  cases h with
  | recv | find | servePut | reply => exact old (other (by simp) hv)
  | @serveRead c op w rest hh hin hr hk hw =>
    by_cases he : e = c
    · subst he
      exact served hin ⟨hr, hk, by rw [hw]; rfl⟩
    · exact old ((update_of_ne he _ _).symm.trans hv)
  | @serveDeleted c op t w rest hh hin ht hf =>
    by_cases he : e = c
    · subst he
      exact served hin hf
    · exact old ((update_of_ne he _ _).symm.trans hv)
  | _ => exact old hv

/-- What the replies go by that have come. -/
theorem move_replies (hsync' : Sync s') (howner : s'.owner = s.owner) (e : EndId)
    (hne : s'.replies e ≠ []) :
    ∀ k ∈ s'.brings parts e, s'.Ahead (s'.owner e) [] k := by
  have ahead {k : Key} (hk : s.Ahead (s.owner e) [] k) : s'.Ahead (s.owner e) [] k :=
    h.ahead (fun v hv => .inl hv) hk
  obtain ⟨v, hv⟩ := List.exists_mem_of_ne_nil _ hne
  have hbrings : s'.brings parts e ⊆ s.brings parts e := h.brings hsync' howner (.inr (.inr hv))
  have old (hne : s.replies e ≠ []) : ∀ k ∈ s'.brings parts e, s'.Ahead (s'.owner e) [] k := by
    intro k hk
    rw [howner]
    exact ahead (hc.replies e hne k (hbrings hk))
  cases h with
  | @recvReply c w rest hh hin =>
    by_cases he : e = c
    · subst he
      have hinbox := hc.inbox e
      rw [hin, always_cons] at hinbox
      intro k hk
      rw [howner]
      exact ahead (hinbox.1 k (hbrings hk))
    · exact old ((update_of_ne he _ _).symm.trans_ne hne)
  | @returned i op c w hop hph hr hrep =>
    by_cases he : e = c
    · subst he
      exact absurd (update_self ..) hne
    · exact old ((update_of_ne he _ _).symm.trans_ne hne)
  | _ => exact old hne

end

/-- No `get` fails. -/
theorem not_missing (h : Move n s a s' ev) (hlt : ∀ i, a = .app i → i < n)
    (hc : Causal spec parts as s) (i j : Nat) (k : Key) : .missing i j k ∉ ev := by
  intro hmem
  have absent {j : Nat} {k : Key} (hk : k.node = j) (hnone : s.lookup j k = none)
  (hp : s.Present k) : False := by
    rw [State.Present, hk, hnone] at hp
    cases hp
  cases h with
  | @missingLocal i k hop hph hk hnone =>
    obtain ⟨rest, -, hp, hsup⟩ := hc.progs ⟨i, hlt i rfl⟩
    obtain ⟨rest', rfl, -⟩ := does_resume hop rfl hp
    exact absent hk hnone (hk ▸ hsup.1 : s.Visible k.node k).present
  | @missing e k rest hh hin hk hnone =>
    have hinbox := hc.inbox e
    rw [hin, always_cons] at hinbox
    exact absent hk hnone (hk ▸ hinbox.1 k rfl : s.Ahead k.node [] k).present
  | _ => simp at hmem

end Causal

theorem init_causal (hprogs : ∀ i : Fin n, (progs i).Does spec (as i) ())
    (hsupplied : ∀ i, Supplied parts ∅ (as i)) : Causal spec parts as (init n progs) where
  progs i := ⟨as i, List.suffix_rfl, hprogs i, (hsupplied i).mono (Set.empty_subset _)⟩
  store k hk := by cases hk
  inbox _ := always_nil
  handler _ _ h := by cases h
  replies _ h := absurd rfl h

section

variable (hprogs : ∀ i : Fin n, (progs i).Does spec (as i) ()) (honce : Pool.Once as)
  (hsupplied : ∀ i, Supplied parts ∅ (as i)) (hcarried : ∀ i, ∀ a ∈ as i, Carried n spec a)
    (hnear : ∀ i : Fin n, ∀ a ∈ as i, Near i a)
include hcarried hnear

theorem Left.calls (h : Left spec as l s) : Calls n s := by
  intro i hi op hop
  obtain ⟨rest, hrest, hp, -⟩ := h ⟨i, hi⟩
  have hmem : op.access ∈ as ⟨i, hi⟩ := by
    cases hr : op.isRead with
    | true =>
      obtain ⟨rest', rfl, -⟩ := does_resume hop hr hp
      exact hrest.subset List.mem_cons_self
    | false =>
      cases op with
      | put k v =>
        obtain ⟨next, hput⟩ := currentOp_put hop
        rw [show s.prog (⟨i, hi⟩ : Fin n) = _ from hput] at hp
        obtain ⟨-, rest', rfl, -⟩ := does_put hp
        exact hrest.subset List.mem_cons_self
      | get | waitAndGet => cases hr
  refine ⟨?_, hnear _ _ hmem⟩
  have hc := hcarried _ _ hmem
  cases op <;> exact hc.1

include hprogs honce hsupplied

/-- In every run the nodes use the connections of the registration phase, whoever goes by a put
    finds it done, and no `get` fails. -/
theorem causal_of_run (h : Run n progs l s) :
    Static n s ∧ Causal spec parts as s ∧ ∀ i j k, .missing i j k ∉ l := by
  refine h.invariant_of (Q := fun l s => Run n progs l s) id
    (fun l s => Static n s ∧ Causal spec parts as s ∧ ∀ i j k, .missing i j k ∉ l)
    ⟨init_static n progs, init_causal hprogs hsupplied, by simp⟩ ?_
  rintro l s a s' ev hrun ⟨hs, hc, hmissing⟩ hok hstep
  have hrun' := hrun.move hok hstep
  have wf := wf_of_run hrun
  have hsync' := sync_of_run hrun'
  have hmove := step_move wf hstep
  have hlt : ∀ i, a = .app i → i < n := fun i ha => lt_of_step_app (ha ▸ hstep)
  have hcalls := (pool_run hprogs honce hrun).2.2.1.calls hcarried hnear
  have hs' := hmove.static hlt hcalls hs
  have howner : s'.owner = s.owner := funext fun e => (hs'.owner e).trans (hs.owner e).symm
  obtain ⟨m, hm, -⟩ := refines_of_run hrun'
  obtain ⟨hput', hl', -⟩ := pool_run hprogs honce hrun'
  have hret (i : Nat) (op : Op) (v : Value) (hv : .return i op v ∈ ev) : v = spec op.key :=
    (hl'.of_return (n := n) (s := s') hm (not_deleted_of_nodup hrun' hput')
      (List.mem_append_right _ hv)).1
  refine ⟨hs', ⟨Causal.move_progs hmove hc wf hs hret, Causal.move_store hmove hc hlt,
    Causal.move_inbox hmove hc wf hs hcalls hsync' howner hlt,
    Causal.move_handler hmove hc wf (sync_of_run hrun) hcalls hsync' howner,
    Causal.move_replies hmove hc hsync' howner⟩, fun i j k hmem => ?_⟩
  rcases List.mem_append.1 hmem with hmem | hmem
  · exact hmissing i j k hmem
  · exact Causal.not_missing hmove hlt hc i j k hmem

end

end Eau2.Network

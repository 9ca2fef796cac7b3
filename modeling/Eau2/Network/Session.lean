import Eau2.Network.Clone

/-!
# Reading one's own writes

A put is over for the application as soon as its message is in a channel, and a
later read of the same key overtakes it if it goes through another channel. A
node sends everything to another node through the connection it has in
`connections_`; but the accept loop replaces this connection when the other
node has opened one too. So the order of a put and a later read is kept as long
as the accept loop replaces no connection whose channel may hold the put
(`Undisturbed`), and lost otherwise.

The invariant (`Session`): the puts of `k` by the node `A` that have not been
applied are all in one channel, that of the connection which the application of
`A` uses for its next message to the home of `k`, and ahead of a request it
waits for.
-/

namespace Eau2.Network

open Function Trace

variable {n : Nat} {s s' : State} {a : Action} {ev l : List Event} {A : Nat} {k : Key}

/-! ## The puts of one node at one key -/

/-- The values that the application of `A` has put at `k`, in order. -/
def issuedBy (A : Nat) (k : Key) (l : List Event) : List Value :=
  l.filterMap fun
    | .issue i k' v => if i = A ∧ k' = k then some v else none
    | _ => none

/-- The values put at `k` by `A` that have been applied, in order. -/
def appliedBy (A : Nat) (k : Key) (l : List Event) : List Value :=
  l.filterMap fun
    | .apply i _ k' v => if i = A ∧ k' = k then some v else none
    | _ => none

/-- The values put at `k` by the messages `l`. -/
def putsOf (k : Key) (l : List Message) : List Value :=
  l.filterMap fun
    | .put k' v => if k' = k then some v else none
    | _ => none

theorem issuedBy_append (l l' : List Event) :
    issuedBy A k (l ++ l') = issuedBy A k l ++ issuedBy A k l' := List.filterMap_append

theorem appliedBy_append (l l' : List Event) :
    appliedBy A k (l ++ l') = appliedBy A k l ++ appliedBy A k l' := List.filterMap_append

theorem putsOf_append (l l' : List Message) : putsOf k (l ++ l') = putsOf k l ++ putsOf k l' :=
  List.filterMap_append

theorem putsOf_put_self (v : Value) (l : List Message) : putsOf k (.put k v :: l) =
    v :: putsOf k l := by
  simp [putsOf]

theorem putsOf_cons_of_ne {m : Message} {l : List Message} (h : ∀ v, m ≠ .put k v) :
    putsOf k (m :: l) = putsOf k l := by
  cases m with
  | put k' v =>
    have : k' ≠ k := fun hk => h v (by rw [hk])
    simp [putsOf, this]
  | _ => rfl

/-- The values put at `k` in the channel from the end `e`. -/
def State.puts (s : State) (k : Key) (e : EndId) : List Value := putsOf k (s.inbox e.peer)

/-- The request for the call `op` is among the messages from the end `c`, with no
    put of `k` behind it. -/
def State.Behind (s : State) (k : Key) (c : EndId) (op : Op) : Prop :=
  ∃ l₁ l₂, s.inbox c.peer = l₁ ++ op.message :: l₂ ∧ putsOf k l₂ = []

/-! ## The invariant -/

/-- All the puts of `k` by `A` have been applied. -/
structure Drained (A : Nat) (k : Key) (l : List Event) (s : State) : Prop where
  log : issuedBy A k l = appliedBy A k l
  puts : ∀ e, s.owner e = A → s.puts k e = []

/-- The puts of `k` by `A` that have not been applied are in the channel from the
    end `c`, and so is, or will be, a request behind them. -/
structure OnEnd (A : Nat) (k : Key) (l : List Event) (s : State) (c : EndId) : Prop where
  isEnd : s.IsEnd c A k.node
  log : issuedBy A k l = appliedBy A k l ++ s.puts k c
  others : ∀ e, e ≠ c → s.owner e = A → s.puts k e = []
  current : s.connections A k.node = some c ∨ s.phase A = .awaiting c
  opened : ∀ op e, currentOp (s.prog A) = some op → op.key.node = k.node → s.phase A ≠ .opened e
  holding : ∀ op e, currentOp (s.prog A) = some op → op.key.node = k.node →
    s.phase A = .holding e → e = c
  awaiting : ∀ op e, currentOp (s.prog A) = some op → op.key.node = k.node →
    s.phase A = .awaiting e → e = c ∧ s.Behind k c op

/-- The session of the node `A` with the home of `k`. -/
structure Session (A : Nat) (k : Key) (l : List Event) (s : State) : Prop where
  holding : ∀ v next e, s.prog A = .put k v next → s.phase A = .holding e →
    s.connections A k.node = some e
  puts : Drained A k l s ∨ ∃ c, OnEnd A k l s c

/-- The accept loop of `A` does not replace a connection to the home of `k` that
    has a put of `k` in its channel, or on which one is about to be sent, unless
    the application waits for a reply on this connection. -/
def Undisturbed (A : Nat) (k : Key) (a : Action) (s : State) : Prop :=
  a = .accept A → ∀ c c₀, s.accepting A = some (c, k.node) → s.connections A k.node = some c₀ →
    s.phase A = .awaiting c₀ ∨
      s.puts k c₀ = [] ∧ ∀ v next, s.prog A = .put k v next → s.phase A ≠ .holding c₀

/-! ## Its preservation -/

theorem puts_send_self (c : EndId) (m : Message) :
    (s.send c m).puts k c = s.puts k c ++ putsOf k [m] := by
  simp [State.puts, putsOf_append]

theorem puts_send_of_ne {c e : EndId} (m : Message) (h : e ≠ c) :
    (s.send c m).puts k e = s.puts k e := by
  simp [State.puts, h]

theorem puts_send {c : EndId} {m : Message} (hm : ∀ v, m ≠ .put k v) (e : EndId) :
    (s.send c m).puts k e = s.puts k e := by
  by_cases he : e = c
  · rw [he, puts_send_self, putsOf_cons_of_ne hm]
    exact List.append_nil _
  · exact puts_send_of_ne m he

theorem puts_pop {c : EndId} {m : Message} {rest : List Message} (hin : s.inbox c = m :: rest)
    (hm : ∀ v, m ≠ .put k v) (e : EndId) : (s.setInbox c rest).puts k e = s.puts k e := by
  by_cases he : e.peer = c
  · simp [State.puts, he, hin, putsOf_cons_of_ne hm]
  · simp [State.puts, he]

theorem puts_pop_of_ne {c e : EndId} (rest : List Message) (h : e.peer ≠ c) :
    (s.setInbox c rest).puts k e = s.puts k e := by
  simp [State.puts, h]

theorem WF.puts_fresh (wf : WF n s) {e : EndId} (he : s.nextConn ≤ e.conn) : s.puts k e = [] := by
  rw [State.puts, (wf.fresh e.peer he).1]
  rfl

theorem State.Behind.send {c c' : EndId} {op : Op} {m : Message} (h : s.Behind k c op)
    (hm : c ≠ c' ∨ ∀ v, m ≠ .put k v) : (s.send c' m).Behind k c op := by
  obtain ⟨l₁, l₂, hin, hl₂⟩ := h
  by_cases hc : c = c'
  · subst hc
    refine ⟨l₁, l₂ ++ [m], by simp [hin], ?_⟩
    rw [putsOf_append, hl₂, putsOf_cons_of_ne (hm.resolve_left (· rfl))]
    rfl
  · exact ⟨l₁, l₂, by simpa [hc] using hin, hl₂⟩

theorem State.Behind.pop {c e : EndId} {op : Op} {m : Message} {rest : List Message}
    (h : s.Behind k c op) (hin' : s.inbox e = m :: rest) (hm : e ≠ c.peer ∨ m ≠ op.message) :
    (s.setInbox e rest).Behind k c op := by
  obtain ⟨l₁, l₂, hin, hl₂⟩ := h
  by_cases he : c.peer = e
  · subst he
    cases l₁ with
    | nil =>
      rw [hin'] at hin
      exact absurd (List.cons.inj hin).1 (hm.resolve_left (· rfl))
    | cons m' l₁ =>
      rw [hin'] at hin
      exact ⟨l₁, l₂, by simp [(List.cons.inj hin).2], hl₂⟩
  · exact ⟨l₁, l₂, by simpa [he] using hin, hl₂⟩

section Frame

variable (hg : Grows s s') (hi : issuedBy A k ev = []) (ha : appliedBy A k ev = [])
  (hputs : ∀ e, (e.conn < s.nextConn → s.owner e = A) → s'.puts k e = s.puts k e)
include hg hi ha hputs

theorem Drained.frame (wf : WF n s) (h : Drained A k l s) : Drained A k (l ++ ev) s' where
  log := by rw [issuedBy_append, appliedBy_append, hi, ha, h.log]
  puts e he := by
    by_cases hc : e.conn < s.nextConn
    · have he' : s.owner e = A := (hg.owner e hc).symm.trans he
      rw [hputs e fun _ => he', h.puts e he']
    · rw [hputs e fun h => absurd h hc, wf.puts_fresh (not_lt.1 hc)]

theorem OnEnd.frame {c : EndId} (wf : WF n s) (h : OnEnd A k l s c)
    (current : s'.connections A k.node = some c ∨ s'.phase A = .awaiting c)
    (opened : ∀ op e, currentOp (s'.prog A) = some op → op.key.node = k.node →
      s'.phase A ≠ .opened e)
    (holding : ∀ op e, currentOp (s'.prog A) = some op → op.key.node = k.node →
      s'.phase A = .holding e → e = c)
    (awaiting : ∀ op e, currentOp (s'.prog A) = some op → op.key.node = k.node →
      s'.phase A = .awaiting e → e = c ∧ s'.Behind k c op) : OnEnd A k (l ++ ev) s' c where
  isEnd := hg.isEnd h.isEnd
  log := by rw [issuedBy_append, appliedBy_append, hi, ha, hputs c fun _ => h.isEnd.owner, h.log,
    List.append_nil, List.append_nil]
  others e hne he := by
    by_cases hc : e.conn < s.nextConn
    · have he' : s.owner e = A := (hg.owner e hc).symm.trans he
      rw [hputs e fun _ => he', h.others e hne he']
    · rw [hputs e fun h => absurd h hc, wf.puts_fresh (not_lt.1 hc)]
  current := current
  opened := opened
  holding := holding
  awaiting := awaiting

/-- A move of another thread that leaves the puts of `A` and its connections alone. -/
theorem Session.frame (wf : WF n s) (h : Session A k l s) (hphase : s'.phase A = s.phase A)
    (hprog : s'.prog A = s.prog A) (hconn : s'.connections A k.node = s.connections A k.node)
    (hbehind : ∀ c op, currentOp (s.prog A) = some op → op.key.node = k.node →
      s.phase A = .awaiting c → s.Behind k c op → s'.Behind k c op) : Session A k (l ++ ev) s' where
  holding v next e hp hph := by
    rw [hprog] at hp
    rw [hphase] at hph
    rw [hconn]
    exact h.holding v next e hp hph
  puts := by
    refine h.puts.imp (·.frame hg hi ha hputs wf) fun ⟨c, hc⟩ => ⟨c, ?_⟩
    refine hc.frame hg hi ha hputs wf ?_ ?_ ?_ ?_ <;> try rw [hprog, hphase]
    · rw [hconn, hphase]
      exact hc.current
    · exact hc.opened
    · exact hc.holding
    · intro op e hop hk he
      obtain ⟨rfl, hb⟩ := hc.awaiting op e hop hk he
      exact ⟨rfl, hbehind e op hop hk he hb⟩

/-- A move of the application of `A` that puts nothing at `k` and does not enter
    the phases in which it counts which connection is used. -/
theorem Session.frame_app (wf : WF n s) (h : Session A k l s) (hwas : ∀ e, s.phase A ≠ .awaiting e)
    (hphase : s'.phase A = .entry ∨ s'.phase A = .connected ∨ ∃ t, s'.phase A = .found t)
    (hconn : ∀ c, s.connections A k.node = some c → s'.connections A k.node = some c) :
    Session A k (l ++ ev) s' where
  holding v next e _ hph := by rcases hphase with h | h | ⟨t, h⟩ <;> rw [h] at hph <;> cases hph
  puts := by
    refine h.puts.imp (·.frame hg hi ha hputs wf) fun ⟨c, hc⟩ => ⟨c, ?_⟩
    refine hc.frame hg hi ha hputs wf (.inl (hconn c ?_)) (fun _ e _ _ h => ?_)
      (fun _ e _ _ h => ?_)
      fun _ e _ _ h => ?_
    · exact hc.current.resolve_right (hwas c)
    all_goals rcases hphase with h' | h' | ⟨t, h'⟩ <;> rw [h'] at h <;> cases h

end Frame

/-- The connection an application uses for a key is one with the home of the key. -/
theorem Session.holding_puts (h : Session A k l s) {op : Op} {c : EndId}
    (hop : currentOp (s.prog A) = some op) (hk : op.key.node = k.node)
    (hph : s.phase A = .holding c) :
    ∀ e, e ≠ c → s.owner e = A → s.puts k e = [] := by
  rcases h.puts with hd | ⟨c', hc⟩
  · exact fun e _ => hd.puts e
  · obtain rfl := hc.holding op c hop hk hph
    exact hc.others

/-- The log and the channel of the connection an application is about to use. -/
theorem Session.log_holding (wf : WF n s) (h : Session A k l s) {op : Op} {c : EndId}
    (hop : currentOp (s.prog A) = some op) (hk : op.key.node = k.node)
    (hph : s.phase A = .holding c) :
    issuedBy A k l = appliedBy A k l ++ s.puts k c := by
  have hend := (wf.holding hop (.inl hph)).1
  rcases h.puts with hd | ⟨c', hc⟩
  · rw [hd.log, hd.puts c hend.owner, List.append_nil]
  · obtain rfl := hc.holding op c hop hk hph
    exact hc.log

/-- The put at `k` is sent on the connection that the application has read. -/
theorem Session.sendPut (wf : WF n s) (h : Session A k l s) {v : Value} {next : Prog Key Value Unit}
    {c : EndId} (hp : s.prog A = .put k v next) (hph : s.phase A = .holding c) :
    Session A k (l ++ [.issue A k v]) ((s.send c (.put k v)).finish A next) := by
  have hop : currentOp (s.prog A) = some (.put k v) := by rw [hp]; rfl
  have hend := (wf.holding hop (.inl hph)).1
  refine ⟨fun _ _ _ _ hph => by simp at hph, .inr ⟨c, ?_⟩⟩
  exact
    { isEnd := ⟨hend.conn, hend.owner, hend.peer⟩
      log := by
        have hputs : ((s.send c (.put k v)).finish A next).puts k c = s.puts k c ++ [v] :=
          (puts_send_self c _).trans (by rw [putsOf_put_self]; rfl)
        rw [issuedBy_append, appliedBy_append, hputs, h.log_holding wf hop rfl hph]
        simp [issuedBy, appliedBy]
      others := fun e hne he =>
        (puts_send_of_ne _ hne).trans (h.holding_puts hop rfl hph e hne he)
      current := .inl (h.holding v next c hp hph)
      opened := fun _ _ _ _ h => by simp at h
      holding := fun _ _ _ _ h => by simp at h
      awaiting := fun _ _ _ _ h => by simp at h }

/-- A request to the home of `k` is sent behind the puts of `k`. -/
theorem Session.sendRead (wf : WF n s) (h : Session A k l s) {op : Op} {c : EndId}
    (hop : currentOp (s.prog A) = some op) (hr : op.isRead = true) (hph : s.phase A = .holding c) :
    Session A k (l ++ [.request A op]) ((s.send c op.message).setPhase A (.awaiting c)) := by
  have hend := (wf.holding hop (.inl hph)).1
  have hne : ∀ v, op.message ≠ .put k v := Op.message_ne_put hr k
  have hputs : ∀ e, ((s.send c op.message).setPhase A (.awaiting c)).puts k e = s.puts k e :=
    puts_send hne
  refine ⟨fun _ _ _ _ hph => by simp at hph, ?_⟩
  by_cases hk : op.key.node = k.node
  · right
    -- the request is the last message of the channel on which the puts are
    have hb : ((s.send c op.message).setPhase A (.awaiting c)).Behind k c op :=
      ⟨s.inbox c.peer, [], by simp, rfl⟩
    refine ⟨c, ⟨⟨hend.conn, hend.owner, hk ▸ hend.peer⟩, ?_, fun e hec he => ?_, .inr (by simp),
      fun _ _ _ _ h => by simp at h, fun _ _ _ _ h => by simp at h, fun op' e hop' _ he => ?_⟩⟩
    · rw [issuedBy_append, appliedBy_append, hputs, h.log_holding wf hop hk hph]
      simp [issuedBy, appliedBy]
    · rw [hputs]
      exact h.holding_puts hop hk hph e hec he
    · obtain rfl : op = op' := Option.some.inj (hop.symm.trans hop')
      have : c = e := by simpa using he
      exact ⟨this.symm, hb⟩
  · have hg : Grows s ((s.send c op.message).setPhase A (.awaiting c)) :=
      ⟨le_rfl, fun _ _ => rfl, fun _ h => h, fun _ _ c h => ⟨c, h⟩, fun _ _ h => h⟩
    refine h.puts.imp (·.frame hg rfl rfl (fun e _ => hputs e) wf) fun ⟨c', hc⟩ => ⟨c', ?_⟩
    refine hc.frame hg rfl rfl (fun e _ => hputs e) wf (.inl ?_) (fun _ _ _ _ h => by simp at h)
      (fun _ _ _ _ h => by simp at h) fun op' e hop' hk' _ => ?_
    · exact hc.current.resolve_right fun h => by rw [h] at hph; cases hph
    · obtain rfl : op = op' := Option.some.inj (hop.symm.trans hop')
      exact absurd hk' hk

/-- A put of `A` at `k` is applied: it is the first of those in the channel. -/
theorem Session.servePut {c : EndId} (wf : WF n s) (h : Session (s.owner c.peer) k l s) {v : Value}
    {rest : List Message} {i : Nat} {hd : Handler}
    (hg : Grows s (((s.putItem i k v).setInbox c rest).setHandler c hd))
    (hin : s.inbox c = .put k v :: rest) :
    Session (s.owner c.peer) k (l ++ [.apply (s.owner c.peer) (s.owner c) k v])
      (((s.putItem i k v).setInbox c rest).setHandler c hd) := by
  have hputs : s.puts k c.peer = v :: putsOf k rest := by
    rw [State.puts, EndId.peer_peer, hin, putsOf_put_self]
  refine ⟨h.holding, .inr ⟨c.peer, ?_⟩⟩
  -- a put is left in a channel, so that this channel is the one of the puts that are left
  obtain ⟨c', hc⟩ : ∃ c', OnEnd (s.owner c.peer) k l s c' := h.puts.resolve_left fun hd => by
    have := hd.puts c.peer rfl
    rw [hputs] at this
    cases this
  obtain rfl : c.peer = c' := by
    by_contra hne
    have := hc.others c.peer hne rfl
    rw [hputs] at this
    cases this
  exact
    { isEnd := hg.isEnd hc.isEnd
      log := by
        have hputs' : (((s.putItem i k v).setInbox c rest).setHandler c hd).puts k c.peer =
            putsOf k rest := by simp [State.puts]
        rw [issuedBy_append, appliedBy_append, hc.log, hputs, hputs']
        simp [issuedBy, appliedBy]
      others := fun e hne he => (puts_pop_of_ne rest fun h =>
        hne (by rw [← h, EndId.peer_peer])).trans
        (hc.others e hne he)
      current := hc.current
      opened := hc.opened
      holding := hc.holding
      awaiting := fun op e hop hk he => by
        obtain ⟨rfl, hb⟩ := hc.awaiting op e hop hk he
        exact ⟨rfl, hb.pop hin (.inr (Op.message_ne_put (wf.isRead_of_awaiting hop he) _ _).symm)⟩ }

/-- Once a request of `A` to the home of `k` is served, the puts of `A` have been applied. -/
theorem Session.drained_of_head (h : Session A k l s) (hsync : Sync s) {c : EndId} {op : Op}
    {rest : List Message} (hA : s.owner c.peer = A) (hk : op.key.node = k.node)
    (hr : op.isRead = true) (hin : s.inbox c = op.message :: rest) : Drained A k l s := by
  refine h.puts.elim id fun ⟨c', hc⟩ => ?_
  have hm : op.message ∈ s.inbox c.peer.peer := by simp [hin]
  have hph := hsync.awaiting_of_mem hr hm
  have hop := hsync.request _ op hr hm
  rw [hA] at hph hop
  obtain ⟨rfl, l₁, l₂, hin', hl₂⟩ := hc.awaiting op _ hop hk hph
  rw [EndId.peer_peer, hin] at hin'
  have hrest : putsOf k rest = [] := by
    cases l₁ with
    | nil => rw [(List.cons.inj hin').2, hl₂]
    | cons m l₁ =>
      -- it would be twice in the channel
      have hcount : s.outstanding c.peer ≤ 1 := by
        rw [hsync.count]
        split_ifs <;> omega
      rw [State.outstanding, EndId.peer_peer, hin, (List.cons.inj hin').2] at hcount
      have : op.message.isRead = true := by rw [Op.message_isRead, hr]
      simp [this] at hcount
      omega
  have hputs : s.puts k c.peer = [] := by
    rw [State.puts, EndId.peer_peer, hin, putsOf_cons_of_ne (Op.message_ne_put hr k), hrest]
  refine ⟨by rw [hc.log, hputs, List.append_nil], fun e he => ?_⟩
  by_cases hec : e = c.peer
  · rw [hec, hputs]
  · exact hc.others e hec he

/-- The connection used for `k` is the one of `connections_`, while `A` does not wait on it. -/
theorem OnEnd.stored {c : EndId} (h : OnEnd A k l s c) (hwas : ∀ e, s.phase A ≠ .awaiting e) :
    s.connections A k.node = some c :=
  h.current.resolve_right (hwas c)

/-- Opening a connection: there is none to the home of `k` if one is opened to it. -/
theorem Session.open (wf : WF n s) (h : Session A k l s) {op : Op}
    (hg : Grows s ((s.openConn A op.key.node).setPhase A (.opened s.nextEnd)))
    (hop : currentOp (s.prog A) = some op) (hph : s.phase A = .entry)
    (hc : s.connections A op.key.node = none) :
    Session A k (l ++ []) ((s.openConn A op.key.node).setPhase A (.opened s.nextEnd)) := by
  refine ⟨fun _ _ _ _ h => by simp at h, ?_⟩
  refine h.puts.imp (·.frame hg rfl rfl (fun _ _ => rfl) wf) fun ⟨c', hc'⟩ => ⟨c', ?_⟩
  have hcur := hc'.stored (by simp [hph])
  refine hc'.frame hg rfl rfl (fun _ _ => rfl) wf (.inl hcur) (fun op' e hop' hk' _ => ?_)
    (fun _ _ _ _ h => by simp at h) fun _ _ _ _ h => by simp at h
  obtain rfl : op = op' := Option.some.inj (hop.symm.trans hop')
  rw [hk', hcur] at hc
  cases hc

/-- Storing the connection opened, which is to another node than the home of `k` when one is
    used for `k` already. -/
theorem Session.store (wf : WF n s) (h : Session A k l s) {op : Op} {c : EndId}
    (hg : Grows s ((s.setConnection A op.key.node c).setPhase A .connected))
    (hop : currentOp (s.prog A) = some op) (hph : s.phase A = .opened c) :
    Session A k (l ++ []) ((s.setConnection A op.key.node c).setPhase A .connected) := by
  refine ⟨fun _ _ _ _ h => by simp at h, ?_⟩
  refine h.puts.imp (·.frame hg rfl rfl (fun _ _ => rfl) wf) fun ⟨c', hc'⟩ => ⟨c', ?_⟩
  have hcur := hc'.stored (by simp [hph])
  have hne : k.node ≠ op.key.node := fun hk => hc'.opened op c hop hk.symm hph
  exact hc'.frame hg rfl rfl (fun _ _ => rfl) wf (.inl (by simp [hne, hcur]))
    (fun _ _ _ _ h => by simp at h) (fun _ _ _ _ h => by simp at h) fun _ _ _ _ h => by simp at h

/-- Reading the connection to use from `connections_`. -/
theorem Session.hold (wf : WF n s) (h : Session A k l s) {op : Op} {c : EndId}
    (hg : Grows s (s.setPhase A (.holding c))) (hop : currentOp (s.prog A) = some op)
    (hph : s.phase A = .connected) (hc : s.connections A op.key.node = some c) :
    Session A k (l ++ []) (s.setPhase A (.holding c)) := by
  refine ⟨fun v next e hp he => ?_, ?_⟩
  · have hp : s.prog A = .put k v next := hp
    obtain rfl : c = e := by simpa using he
    rw [hp] at hop
    cases hop
    exact hc
  · refine h.puts.imp (·.frame hg rfl rfl (fun _ _ => rfl) wf) fun ⟨c', hc'⟩ => ⟨c', ?_⟩
    have hcur := hc'.stored (by simp [hph])
    refine hc'.frame hg rfl rfl (fun _ _ => rfl) wf (.inl hcur) (fun _ _ _ _ h => by simp at h)
      (fun op' e hop' hk' he => ?_) fun _ _ _ _ h => by simp at h
    obtain rfl : op = op' := Option.some.inj (hop.symm.trans hop')
    obtain rfl : c = e := by simpa using he
    rw [hk', hcur] at hc
    exact (Option.some.inj hc).symm

/-- Taking a reply: the request has left the channel, so nothing is kept of the connection it
    was made on. -/
theorem Session.returned (wf : WF n s) (hsync : Sync s) (h : Session A k l s) {op : Op} {c : EndId}
    {v : Value} (hg : Grows s ((s.setReplies c []).finish A (resume (s.prog A) (some v))))
    (hop : currentOp (s.prog A) = some op) (hph : s.phase A = .awaiting c) (hr : op.isRead = true)
    (hrep : s.replies c = [v]) : Session A k (l ++ [.return A op v])
      ((s.setReplies c []).finish A (resume (s.prog A) (some v))) := by
  refine ⟨fun _ _ _ _ h => by simp at h, ?_⟩
  refine h.puts.imp (·.frame hg rfl rfl (fun _ _ => rfl) wf) fun ⟨c', hc'⟩ => ⟨c', ?_⟩
  refine hc'.frame hg rfl rfl (fun _ _ => rfl) wf (.inl ?_)
    (fun _ _ _ _ h => by simp at h) (fun _ _ _ _ h => by simp at h) fun _ _ _ _ h => by simp at h
  refine hc'.current.resolve_right fun h => ?_
  obtain rfl : c = c' := by simpa using hph.symm.trans h
  have hk : op.key.node = k.node :=
    (wf.holding hop (.inr (.inl hph))).1.peer.symm.trans hc'.isEnd.peer
  obtain ⟨-, l₁, l₂, hin, -⟩ := hc'.awaiting op c hop hk hph
  exact hsync.not_coming hr (by simp [hin]) (.inr (.inr (hrep ▸ List.mem_singleton_self v)))

/-- Storing a connection accepted from the home of `k`: by `Undisturbed`, either `A` waits on the
    one used, or all its puts at `k` have been applied. -/
theorem Session.acceptStore (wf : WF n s) (h : Session A k l s)
    (hok : Undisturbed A k (.accept A) s) {c : EndId} (hacc : s.accepting A = some (c, k.node))
    (hg : Grows s ((s.setConnection A k.node c).setAccepting A none)) :
    Session A k (l ++ []) ((s.setConnection A k.node c).setAccepting A none) := by
  have hok := hok rfl c
  refine ⟨fun v next e hp he => ?_, ?_⟩
  · have hp : s.prog A = .put k v next := hp
    have he : s.phase A = .holding e := he
    rcases hok e hacc (h.holding v next e hp he) with hw | hw
    · rw [he] at hw
      cases hw
    · exact absurd he (hw.2 v next hp)
  · rcases h.puts with hd | ⟨c', hc'⟩
    · exact .inl (hd.frame hg rfl rfl (fun _ _ => rfl) wf)
    · -- The connection used before is given up: nothing may be left on it but what `A` waits
      -- behind.
      have hcase : s.phase A = .awaiting c' ∨ s.puts k c' = [] :=
        hc'.current.elim (fun h => (hok c' hacc h).imp id And.left) .inl
      rcases hcase with hw | hw
      · exact .inr ⟨c', hc'.frame hg rfl rfl (fun _ _ => rfl) wf (.inr hw) hc'.opened hc'.holding
          hc'.awaiting⟩
      · refine .inl ((Drained.mk ?_ fun e he => ?_).frame hg rfl rfl (fun _ _ => rfl) wf)
        · rw [hc'.log, hw, List.append_nil]
        · by_cases hec : e = c'
          · rw [hec, hw]
          · exact hc'.others e hec he

/-- The moves of the application of `A`. -/
theorem Move.session_app (wf : WF n s) (hsync : Sync s) (hA : A ≠ k.node) (hs : Session A k l s)
    (h : Move n s (.app A) s' ev) : Session A k (l ++ ev) s' := by
  have hg := h.grows
  cases h with
  | @putLocal _ k' v next hp hph hk =>
    -- the key `k` is not of the node `A`
    have hk' : k' ≠ k := fun h => hA (by rw [← hk, h])
    exact hs.frame_app hg (by simp [issuedBy, hk']) (by simp [appliedBy, hk']) (fun _ _ => rfl) wf
      (by simp [hph]) (.inl (by simp)) fun _ h => h
  | readLocal hop hph =>
    exact hs.frame_app hg rfl rfl (fun _ _ => rfl) wf (by simp [hph]) (.inl (by simp)) fun _ h => h
  | crash | missingLocal =>
    exact hs.frame hg rfl rfl (fun _ _ => rfl) wf rfl rfl rfl fun _ _ _ _ _ h => h
  | findLocal hop hph =>
    exact hs.frame_app hg rfl rfl (fun _ _ => rfl) wf (by simp [hph]) (.inr (.inr (by simp)))
      fun _ h => h
  | connected hop hph =>
    exact hs.frame_app hg rfl rfl (fun _ _ => rfl) wf (by simp [hph]) (.inr (.inl (by simp)))
      fun _ h => h
  | «open» hop hph _ hc => exact hs.open wf hg hop hph hc
  | store hop hph => exact hs.store wf hg hop hph
  | hold hop hph hc => exact hs.hold wf hg hop hph hc
  | @sendPut _ k' v next c hp hph =>
    by_cases hk' : k' = k
    · subst hk'
      exact hs.sendPut wf hp hph
    · exact hs.frame_app hg (by simp [issuedBy, hk']) rfl
        (fun e _ => puts_send (fun v h => hk' (Message.put.inj h).1) e) wf (by simp [hph])
        (.inl (by simp)) fun _ h => h
  | sendRead hop hph hr => exact hs.sendRead wf hop hr hph
  | returned hop hph hr hrep => exact hs.returned wf hsync hg hop hph hr hrep

/-- The moves of the application of another node: the program and the phase of `A` stay as they
    are, and what is sent is sent on other ends. -/
theorem Move.session_other (wf : WF n s) (hs : Session A k l s) {i : Nat} (hi : i ≠ A)
    (h : Move n s (.app i) s' ev) : Session A k (l ++ ev) s' := by
  have hg := h.grows
  have hA {α : Type} (f : Nat → α) (x : α) : Function.update f i x A = f A :=
    update_of_ne (Ne.symm hi) _ _
  cases h with
  | putLocal =>
    exact hs.frame hg (by simp [issuedBy, hi]) (by simp [appliedBy, hi]) (fun _ _ => rfl) wf
      (hA ..) (hA ..) rfl fun _ _ _ _ _ h => h
  | readLocal | returned =>
    exact hs.frame hg rfl rfl (fun _ _ => rfl) wf (hA ..) (hA ..) rfl fun _ _ _ _ _ h => h
  | crash | missingLocal =>
    exact hs.frame hg rfl rfl (fun _ _ => rfl) wf rfl rfl rfl fun _ _ _ _ _ h => h
  | connected | «open» | hold | findLocal =>
    exact hs.frame hg rfl rfl (fun _ _ => rfl) wf (hA ..) rfl rfl fun _ _ _ _ _ h => h
  | store =>
    exact hs.frame hg rfl rfl (fun _ _ => rfl) wf (hA ..) rfl (congrFun (hA ..) _)
      fun _ _ _ _ _ h => h
  | @sendPut _ k' v next c hp hph =>
    have hend := (wf.holding (show _ = some (Op.put k' v) by rw [hp]; rfl) (.inl hph)).1
    -- the end is of the node `i`
    have hne : ∀ e, s.owner e = A → e ≠ c := fun e he h => hi (by rw [← hend.owner, ← h, he])
    refine hs.frame hg (by simp [issuedBy, hi]) rfl (fun e he => puts_send_of_ne _ ?_) wf
      (hA ..) (hA ..) rfl fun c' op' _ _ hw hb => ?_
    · rintro rfl
      exact hne e (he hend.conn) rfl
    · exact hb.send (.inl (hne c' (wf.owner_of_awaiting hw)))
  | @sendRead _ op c hop hph hr =>
    have hm : ∀ v, op.message ≠ .put k v := Op.message_ne_put hr k
    exact hs.frame hg rfl rfl (fun e _ => puts_send hm e) wf (hA ..) rfl rfl
      fun _ _ _ _ _ hb => hb.send (.inr hm)

/-- A request is answered: if it is one of `A` to the home of `k`, the puts of `A` have been
    applied. -/
theorem Session.serve (wf : WF n s) (hsync : Sync s) (hs : Session A k l s) {c : EndId} {op : Op}
    {v : Value} {rest : List Message}
    (hg : Grows s ((s.setInbox c rest).setHandler c (.replying v)))
    (hi : issuedBy A k ev = []) (ha : appliedBy A k ev = [])
    (hin : s.inbox c = op.message :: rest) (hr : op.isRead = true) :
    Session A k (l ++ ev) ((s.setInbox c rest).setHandler c (.replying v)) := by
  have hm : ∀ v, op.message ≠ .put k v := Op.message_ne_put hr k
  by_cases hi' : s.owner c.peer = A
  · by_cases hk : op.key.node = k.node
    · have hd := hs.drained_of_head hsync hi' hk hr hin
      exact ⟨hs.holding, .inl (hd.frame hg hi ha (fun e _ => puts_pop hin hm e) wf)⟩
    · refine hs.frame hg hi ha (fun e _ => puts_pop hin hm e) wf rfl rfl rfl
        fun e op' hop' hk' _ _ => ?_
      -- the application of `A` is in another call
      have := hsync.request c.peer op hr (by simp [hin])
      rw [hi', hop'] at this
      exact absurd (Option.some.inj this ▸ hk') hk
  · refine hs.frame hg hi ha (fun e _ => puts_pop hin hm e) wf rfl rfl rfl
      fun e op' _ _ hw hb => hb.pop hin (.inl fun h => hi' ?_)
    rw [h, EndId.peer_peer]
    exact wf.owner_of_awaiting hw

/-- The moves of the handlers: serving a put of `A` at `k` takes the first from the channel, and
    a request of `A` is only served once they have all been taken. -/
theorem Move.session_handler (wf : WF n s) (hsync : Sync s) (hs : Session A k l s) {c : EndId}
    (h : Move n s (.handler c) s' ev) : Session A k (l ++ ev) s' := by
  have hg := h.grows
  cases h with
  | crash | missing | recv | find =>
    exact hs.frame hg rfl rfl (fun _ _ => rfl) wf rfl rfl rfl fun _ _ _ _ _ h => h
  | @recvReply _ v rest hh hin =>
    exact hs.frame hg rfl rfl (fun e _ => puts_pop hin (by simp) e) wf rfl rfl rfl
      fun _ op _ _ _ hb => hb.pop hin (.inr (op.message_ne_reply v).symm)
  | @servePut _ k' v rest hh hin hk =>
    by_cases hk' : k' = k
    · subst hk'
      by_cases hi : s.owner c.peer = A
      · subst hi
        exact hs.servePut wf hg hin
      · -- the put of another node at `k`
        have hne : ∀ e, (e.conn < s.nextConn → s.owner e = A) → e.peer ≠ c := by
          rintro e he rfl
          rw [EndId.peer_peer] at hi
          exact hi (he (wf.conn_of_inbox (e := e.peer) (by simp [hin])))
        exact hs.frame hg rfl (by simp [appliedBy, hi])
          (fun e he => puts_pop_of_ne rest (hne e he)) wf
          rfl rfl rfl fun e op _ _ hw hb => hb.pop hin (.inl fun h => hne e
            (fun _ => wf.owner_of_awaiting hw) h.symm)
    · exact hs.frame hg rfl (by simp [appliedBy, hk'])
        (fun e _ => puts_pop hin (fun v h => hk' (Message.put.inj h).1) e) wf rfl rfl rfl
        fun _ op hop _ hw hb =>
          hb.pop hin (.inr (Op.message_ne_put (wf.isRead_of_awaiting hop hw) _ _).symm)
  | serveRead hh hin hr => exact hs.serve wf hsync hg rfl rfl hin hr
  | reply =>
    exact hs.frame hg rfl rfl (fun e _ => puts_send (by simp) e) wf rfl rfl rfl
      fun _ _ _ _ _ hb => hb.send (.inr (by simp))

/-- The moves that clone a deleted `Value`. -/
theorem Move.session_appDeleted (wf : WF n s) (hs : Session A k l s) {i : Nat} {w : Option Value}
    (h : Move n s (.appDeleted i w) s' ev) : Session A k (l ++ ev) s' := by
  have hg := h.grows
  cases h with
  | crash => exact hs.frame hg rfl rfl (fun _ _ => rfl) wf rfl rfl rfl fun _ _ _ _ _ h => h
  | deletedLocal hop hph =>
    by_cases hi : i = A
    · subst hi
      exact hs.frame_app hg rfl rfl (fun _ _ => rfl) wf (by simp [hph])
        (.inl (by simp)) fun _ h => h
    · exact hs.frame hg rfl rfl (fun _ _ => rfl) wf (update_of_ne (Ne.symm hi) _ _)
        (update_of_ne (Ne.symm hi) _ _) rfl fun _ _ _ _ _ h => h

theorem Move.session_handlerDeleted (wf : WF n s) (hsync : Sync s) (hs : Session A k l s)
    {c : EndId} {w : Option Value} (h : Move n s (.handlerDeleted c w) s' ev) :
    Session A k (l ++ ev) s' := by
  have hg := h.grows
  cases h with
  | crash => exact hs.frame hg rfl rfl (fun _ _ => rfl) wf rfl rfl rfl fun _ _ _ _ _ h => h
  | serveDeleted hh hin _ hf => exact hs.serve wf hsync hg rfl rfl hin hf.isRead

/-- The moves of the accept loops. -/
theorem Move.session_accept (wf : WF n s) {i : Nat} (hok : Undisturbed A k (.accept i) s)
    (hs : Session A k l s) (h : Move n s (.accept i) s' ev) : Session A k (l ++ ev) s' := by
  have hg := h.grows
  cases h with
  | crash | accept => exact hs.frame hg rfl rfl (fun _ _ => rfl) wf rfl rfl rfl fun _ _ _ _ _ h => h
  | @acceptStore _ c p hacc =>
    by_cases hi : i = A ∧ p = k.node
    · obtain ⟨rfl, rfl⟩ := hi
      exact hs.acceptStore wf hok hacc hg
    · refine hs.frame hg rfl rfl (fun _ _ => rfl) wf rfl rfl ?_ fun _ _ _ _ _ h => h
      by_cases hi' : A = i
      · have hp : k.node ≠ p := fun h => hi ⟨hi'.symm, h.symm⟩
        simp [hi', hp]
      · simp [hi']

theorem Move.session (wf : WF n s) (hsync : Sync s) (hok : Undisturbed A k a s) (hA : A ≠ k.node)
    (hs : Session A k l s) (h : Move n s a s' ev) : Session A k (l ++ ev) s' := by
  cases a with
  | app i =>
    by_cases hi : i = A
    · subst hi
      exact h.session_app wf hsync hA hs
    · exact h.session_other wf hs hi
  | handler c => exact h.session_handler wf hsync hs
  | accept i => exact h.session_accept wf hok hs
  | appDeleted i w => exact h.session_appDeleted wf hs
  | handlerDeleted c w => exact h.session_handlerDeleted wf hsync hs

theorem init_session (n : Nat) (progs : Nat → Prog Key Value Unit) (A : Nat) (k : Key) :
    Session A k [] (init n progs) where
  holding _ _ _ _ h := by cases h
  puts := .inl ⟨rfl, fun _ _ => rfl⟩

theorem session_of_run {progs : Nat → Prog Key Value Unit} (hA : A ≠ k.node)
    (h : Trace.Run (step n) (Undisturbed A k) (init n progs) l s) : Session A k l s :=
  h.invariant_of (Q := fun _ s => WF n s ∧ Sync s) (fun h => ⟨wf_of_run h, sync_of_run h⟩)
    (Session A k) (init_session n progs A k)
    fun ⟨wf, hsync⟩ hs hok hstep => (step_move wf hstep).session wf hsync hok hA hs

/-! ## What the node reads -/

/-- Nobody but the node `A` puts anything at `k`. -/
def OnlyWriter (A : Nat) (k : Key) (l : List Event) : Prop := ∀ i v, .issue i k v ∈ l → i = A

/-- The event, if it serves or fails to serve a read of `A` at `k`, comes after all
    the puts that `A` has called in the history `l` have been applied, and serves
    the last of them. -/
structure ServesLast (A : Nat) (k : Key) (l : List Event) (e : Event) : Prop where
  serve : ∀ op v, e = .serve A op v → op.key = k →
    issuedBy A k l = appliedBy A k l ∧ (issuedBy A k l).getLast? = some v
  missing : ∀ j, e = .missing A j k → issuedBy A k l = []

/-- The node `A` reads its own writes at `k`: a read is served after its puts
    have been applied, it returns the last of them, and it does not fail. -/
def ReadsOwnWrites (A : Nat) (k : Key) (l : List Event) : Prop :=
  Always (ServesLast A k) l ∧
    Always (fun l e => ∀ op v, e = .return A op v → op.key = k →
      (issuedBy A k l).getLast? = some v) l

/-- The map has the last of the puts applied. -/
theorem contents_eq_getLast (h : ∀ i j v, .apply i j k v ∈ l → i = A) :
    contents l k = (appliedBy A k l).getLast? := by
  induction l using List.reverseRecOn with
  | nil => rfl
  | append_singleton l e ih =>
    have ih := ih fun i j v hm => h i j v (List.mem_append_left _ hm)
    rw [contents, applied_append, appliedBy_append]
    cases e with
    | apply i j k' v =>
      by_cases hk : k' = k
      · obtain rfl : i = A := h i j v (by simp [hk])
        subst hk
        simp [applied, appliedBy]
      · have hnil : appliedBy A k [.apply i j k' v] = [] := by simp [appliedBy, hk]
        rw [hnil, List.append_nil, ← ih]
        exact update_of_ne (Ne.symm hk) _ _
    | _ => exact ih.trans (congrArg _ (List.append_nil _).symm)

theorem OnlyWriter.of_append {l' : List Event} (h : OnlyWriter A k (l ++ l')) : OnlyWriter A k l :=
  fun i v hm => h i v (List.mem_append_left _ hm)

/-- Once the puts of `A` have been applied, the home of `k` has the last of them. -/
theorem Drained.lookup {m : MapSpec} (h : Drained A k l s) (hm : MapSpec.Allows l m)
    (hR : Refines m s)
    (only : OnlyWriter A k l) : s.lookup k.node k = (issuedBy A k l).getLast? := by
  rw [h.log, ← hR.map, hm.map]
  refine contents_eq_getLast fun i j v hmem => ?_
  obtain rfl := hm.apply_node hmem
  have hcount := hm.pending i k v
  have hpos := List.count_pos_iff.2 hmem
  exact only i v (List.count_pos_iff.1 (by omega))

/-- What a move serves, or fails to serve, to `A` from the home of `k`. -/
theorem Move.servesLast {m : MapSpec} (hsync : Sync s) (hA : A ≠ k.node) (hs : Session A k l s)
    (hm : MapSpec.Allows l m) (hR : Refines m s) (only : OnlyWriter A k l) (h : Move n s a s' ev) :
    Always (fun l₁ => ServesLast A k (l ++ l₁)) ev := by
  have other {l : List Event} {e : Event} (hserve : ∀ op v, e ≠ .serve A op v)
      (hmissing : ∀ j, e ≠ .missing A j k) : ServesLast A k l e :=
    ⟨fun op v h => absurd h (hserve op v), fun j h => absurd h (hmissing j)⟩
  cases h with
  | @readLocal i op v hop hph hk =>
    refine always_cons.2 ⟨other (by simp) (by simp),
      always_cons.2 ⟨⟨fun op' v' h hk' => ?_, by simp⟩,
      always_cons.2 ⟨other (by simp) (by simp), always_nil⟩⟩⟩
    -- what `A` reads at home is not `k`
    obtain ⟨rfl, rfl, rfl⟩ := Event.serve.inj h
    exact absurd (hk' ▸ hk.symm) hA
  | @missingLocal i k' hop hph hk =>
    refine always_cons.2 ⟨⟨by simp, fun j h => ?_⟩, always_nil⟩
    obtain ⟨rfl, rfl, rfl⟩ := Event.missing.inj h
    exact absurd hk.symm hA
  | @serveRead c op v rest hh hin hr hk hv =>
    refine always_cons.2 ⟨⟨fun op' v' h hk' => ?_, by simp⟩, always_nil⟩
    obtain ⟨hi, rfl, rfl⟩ := Event.serve.inj h
    subst hk'
    -- the puts of `A` are ahead of its request, which is at the head
    have hd := hs.drained_of_head hsync hi rfl hr hin
    rw [List.append_nil]
    exact ⟨hd.log, by rw [← hd.lookup hm hR only, hk, hv]⟩
  | @missing c k' rest hh hin hk hv =>
    refine always_cons.2 ⟨⟨by simp, fun j h => ?_⟩, always_nil⟩
    obtain ⟨hi, -, rfl⟩ := Event.missing.inj h
    have hd := hs.drained_of_head hsync hi rfl rfl
      (show s.inbox c = (Op.get k').message :: rest from hin)
    have := hd.lookup hm hR only
    rw [hk, hv] at this
    rw [List.append_nil]
    exact List.getLast?_eq_none_iff.1 this.symm
  | putLocal =>
    exact always_cons.2 ⟨other (by simp) (by simp), always_cons.2
      ⟨other (by simp) (by simp), always_nil⟩⟩
  | deletedLocal =>
    exact always_cons.2 ⟨other (by simp) (by simp), always_cons.2
      ⟨other (by simp) (by simp), always_cons.2 ⟨other (by simp) (by simp), always_nil⟩⟩⟩
  | sendPut | sendRead | returned | servePut | serveDeleted =>
    exact always_cons.2 ⟨other (by simp) (by simp), always_nil⟩
  | _ => exact always_nil

theorem servesLast_of_run {progs : Nat → Prog Key Value Unit} (hA : A ≠ k.node)
    (h : Trace.Run (step n) (Undisturbed A k) (init n progs) l s) :
    Always (fun l e => OnlyWriter A k l → ServesLast A k l e) l := by
  refine h.always fun hr _ hstep => ?_
  obtain ⟨m, hm, hR⟩ := refines_of_run hr
  exact fun l₁ e l₂ heq only => (step_move (wf_of_run hr) hstep).servesLast (sync_of_run hr) hA
    (session_of_run hA hr) hm hR only.of_append l₁ e l₂ heq

/-- While the home of `k` holds its `Value` for a read of `A`, no put of `k` is applied. -/
theorem Session.intact {m : MapSpec} (wf : WF n s) (hsync : Sync s) (hA : A ≠ k.node)
    (hs : Session A k l s) (hm : MapSpec.Allows l m) (hR : Refines m s)
    (only : OnlyWriter A k (l ++ ev)) (hstep : step n a s = some (s', ev)) :
    Intact {(A, k)} a s := by
  intro i k' hF hputs hheld
  obtain ⟨rfl, rfl⟩ := Prod.mk.inj (Set.mem_singleton_iff.1 hF)
  obtain ⟨c, op, rest, t, -, hi, hh, hin, rfl⟩ := hheld.resolve_left fun h => hA h.1
  have hr : op.isRead = true := by
    obtain ⟨op', rest', hin', hph⟩ := wf.serving c _ hh
    rw [Op.message_inj (List.cons.inj (hin.symm.trans hin')).1]
    exact (hph.resolve_left Phase.noConfusion).2.isRead
  have hd := hs.drained_of_head hsync hi rfl hr hin
  cases a with
  | app j =>
    obtain ⟨hj, hph, v, next, hp⟩ := hputs
    have hmem := issue_mem_of_puts hj hph hp hstep
    exact hA ((only j v (List.mem_append_right _ hmem)).symm.trans hj.symm)
  | handler e =>
    obtain ⟨-, v, rest', hin'⟩ := hputs
    -- the put is one of `A`, which is not in its channel any more
    have hput : .put op.key v ∈ s.inbox e := by rw [hin']; exact List.mem_cons_self
    have hflight := inFlight_pos wf hput
    have hissue : .issue (s.owner e.peer) op.key v ∈ l := by
      have hcount := hm.pending (s.owner e.peer) op.key v
      rw [hR.pending] at hcount
      exact List.count_pos_iff.1 (by omega)
    have hnil := hd.puts e.peer (only _ v (List.mem_append_left _ hissue))
    rw [State.puts, EndId.peer_peer, hin', putsOf_put_self] at hnil
    cases hnil
  | _ => exact hputs

/-- What `A` reads at `k` is never read from a deleted `Value`. -/
theorem intact_of_run {progs : Nat → Prog Key Value Unit} (hA : A ≠ k.node)
    (h : Trace.Run (step n) (Undisturbed A k) (init n progs) l s) (only : OnlyWriter A k l) :
    Trace.Run (step n) (Intact {(A, k)}) (init n progs) l s := by
  refine h.invariant_of
    (Q := fun l s => (WF n s ∧ Sync s) ∧ Session A k l s ∧ ∃ m, MapSpec.Allows l m ∧ Refines m s)
    (fun h => ⟨⟨wf_of_run h, sync_of_run h⟩, session_of_run hA h, refines_of_run h⟩)
    (fun l s => OnlyWriter A k l → Trace.Run (step n) (Intact {(A, k)}) (init n progs) l s)
    (fun _ => .refl) ?_ only
  intro l s a s' ev ⟨⟨wf, hsync⟩, hs, m, hm, hR⟩ ih _ hstep only
  exact (ih only.of_append).move (hs.intact wf hsync hA hm hR only hstep) hstep

/-- A node does nothing else while it waits for the value of a read. -/
theorem issuedBy_eq_nil {l : List Event} (h : ∀ e ∈ l, ¬e.IsCallOf A) : issuedBy A k l = [] := by
  refine List.filterMap_eq_nil_iff.2 fun e he => ?_
  cases e with
  | issue i k' v =>
    have hi : i ≠ A := h _ he
    simp [hi]
  | _ => rfl

/-- The answer to a read of `k` by `A`, which is not read from a deleted `Value`, is the last of
    its puts. -/
theorem getLast_of_answered {l' : List Event} {op : Op} {v : Value}
    (hserve : Always (ServesLast A k) (l ++ l')) (hdel : .deleted A op v ∉ l) (hk : op.key = k)
    (hans : AnsweredFrom l A op v) : (issuedBy A k l).getLast? = some v := by
  obtain ⟨l₁, l₂, l₃, rfl, -, h₃, -⟩ := hans.served hdel
  have hs := (hserve (l₁ ++ .request A op :: l₂) (.serve A op v) (l₃ ++ l') (by simp)).serve op v
    rfl hk
  have hissued : issuedBy A k (l₁ ++ .request A op :: (l₂ ++ .serve A op v :: l₃)) =
      issuedBy A k (l₁ ++ .request A op :: l₂) := by
    have hnil : issuedBy A k (.serve A op v :: l₃) = [] :=
      (issuedBy_eq_nil h₃ : issuedBy A k l₃ = [])
    rw [← List.cons_append, ← List.append_assoc, issuedBy_append, hnil, List.append_nil]
  rw [hissued, hs.2]

/-- In a run in which the accept loop of `A` replaces no connection that has a
    put of `k` in its channel, the node reads its own writes at `k`. -/
theorem readsOwnWrites_of_run {progs : Nat → Prog Key Value Unit} (hA : A ≠ k.node)
    (h : Trace.Run (step n) (Undisturbed A k) (init n progs) l s) (only : OnlyWriter A k l) :
    ReadsOwnWrites A k l := by
  have hserve : Always (ServesLast A k) l := fun l₁ e l₂ heq =>
    servesLast_of_run hA h l₁ e l₂ heq (heq ▸ only).of_append
  refine ⟨hserve, ?_⟩
  rintro l₁ e l₂ heq op v rfl hk
  obtain ⟨m, hm, -⟩ := refines_of_run h
  have hmem : (A, op.key) ∈ ({(A, k)} : Set (Nat × Key)) := by
    rw [hk]
    rfl
  have hdel := not_deleted_of_run (intact_of_run hA h only) hmem v
  exact getLast_of_answered (heq ▸ hserve)
    (fun hmem => hdel (heq ▸ List.mem_append_left _ hmem)) hk (heq ▸ hm).return_answered

/-- The nodes 1 and 2 open a connection to each other: the node 1 to put `k`, which
    it reads back, the node 2 to put another key. -/
def mutualConnect (k : Key) : Nat → Prog Key Value Unit
  | 1 => .put k [1] (.get k fun _ => .ret ())
  | 2 => .put ⟨lit "j", 1⟩ [1] (.ret ())
  | _ => .ret ()

end Eau2.Network

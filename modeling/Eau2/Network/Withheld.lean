import Eau2.Network.Refinement

/-!
# Withheld replies

One handler thread for each end of a connection both serves the requests of the
peer and delivers its replies. While it is blocked in `KVStore::waitAndGet`,
serving the peer, it delivers nothing; so if the application of its node is
itself waiting for a reply on this connection, and the key is one that nobody
else will put, neither ever moves again (`Withheld`, `withheld_forever`).

That takes a request of the application and a `WAITANDGET` of the peer crossing
each other. It does not happen as long as the key is `Certain` to come whenever
two such requests cross (`NoCrossing`).
-/

namespace Eau2.Network

open Function Trace

variable {n : Nat} {s s' : State} {a : Action} {ev l : List Event} {B : Nat} {e : EndId} {k : Key}

/-- The application of `B` waits for a reply on the end `e` of its node, whose
    handler is blocked in `waitAndGet` on a key that nobody but the application
    is going to put. -/
structure Withheld (s : State) (B : Nat) (e : EndId) (k : Key) : Prop where
  waiting : s.phase B = .awaiting e
  replies : s.replies e = []
  serving : s.handler e = .serving .entry
  head : (s.inbox e).head? = some (.waitAndGet k)
  absent : s.lookup B k = none
  programs : ∀ i, i ≠ B → ¬(s.prog i).MayPut k
  channels : ∀ c v, .put k v ∉ s.inbox c

/-! ## The programs -/

/-- A put of `k` is on its way, or has been applied. -/
def State.Issued (s : State) (k : Key) : Prop := s.Present k ∨ ∃ c v, .put k v ∈ s.inbox c

theorem Move.issued (h : Move n s a s' ev) (hk : s.Issued k) : s'.Issued k := by
  rcases hk with hk | ⟨c, v, hm⟩
  · exact .inl (h.present hk)
  · -- the put stays in the channel, or it is applied
    have pop {c' : EndId} {m : Message} {rest : List Message} (hin : s.inbox c' = m :: rest)
        (hne : m ≠ .put k v) : .put k v ∈ update s.inbox c' rest c :=
      mem_inbox_pop hin hne.symm hm
    cases h with
    | recvReply _ hin => exact .inr ⟨c, v, pop hin (by simp)⟩
    | serveRead _ hin hr => exact .inr ⟨c, v, pop hin (Op.message_ne_put hr k v)⟩
    | serveDeleted _ hin _ hf => exact .inr ⟨c, v, pop hin (Op.message_ne_put hf.isRead k v)⟩
    | @servePut c' k' v' rest hh hin hk' =>
      by_cases hne : Message.put k' v' = .put k v
      · obtain ⟨rfl, rfl⟩ := Message.put.inj hne
        left
        have := lookup_putItem (s := s) hk' k' v'
        rw [update_self] at this
        exact Option.isSome_iff_exists.2 ⟨v', this⟩
      · exact .inr ⟨c, v, pop hin hne⟩
    | sendPut | sendRead | reply => exact .inr ⟨c, v, mem_inbox_send hm⟩
    | _ => exact .inr ⟨c, v, hm⟩

/-- What a move makes of the program of a node: the program stays as it is, or goes on after
    a put, which is then issued, or after a read. -/
theorem Move.prog (h : Move n s a s' ev) (i : Nat) : s'.prog i = s.prog i ∨
    (∃ k v, s.prog i = .put k v (s'.prog i) ∧ s'.Issued k) ∨
    ∃ op v, currentOp (s.prog i) = some op ∧ op.isRead = true ∧
      s'.prog i = resume (s.prog i) (some v) := by
  have same {j : Nat} {p : Prog Key Value Unit} (hij : i ≠ j) : update s.prog j p i = s.prog i :=
    update_of_ne hij _ _
  have self {p : Prog Key Value Unit} : update s.prog i p i = p := update_self ..
  cases h with
  | @putLocal j k v next hprog hph hk =>
    by_cases hij : i = j
    · subst hij
      -- the put is applied at once
      have hlookup := lookup_putItem (s := s) hk k v
      rw [update_self] at hlookup
      exact .inr (.inl ⟨k, v, hprog.trans (congrArg _ self.symm),
        .inl (Option.isSome_iff_exists.2 ⟨v, hlookup⟩)⟩)
    · exact .inl (same hij)
  | @sendPut j k v next c hprog hph =>
    by_cases hij : i = j
    · subst hij
      -- the put is in the channel
      exact .inr (.inl ⟨k, v, hprog.trans (congrArg _ self.symm), .inr ⟨c.peer, v, by simp⟩⟩)
    · exact .inl (same hij)
  | @readLocal j op v hop _ _ hr | @returned j op _ v hop _ hr =>
    by_cases hij : i = j
    · subst hij
      exact .inr (.inr ⟨op, v, hop, hr, self⟩)
    · exact .inl (same hij)
  | @deletedLocal j op _ v hop _ _ hf =>
    by_cases hij : i = j
    · subst hij
      exact .inr (.inr ⟨op, v, hop, hf.isRead, self⟩)
    · exact .inl (same hij)
  | _ => exact .inl rfl

/-! ## For ever -/

theorem mayPut_resume {p : Prog Key Value Unit} {r : Option Value} (h : (resume p r).MayPut k) :
    p.MayPut k := by
  cases p with
  | put k' v next => exact .inr (by cases r <;> exact h)
  | get k' next | waitAndGet k' next =>
    cases r with
    | none => exact h
    | some v => exact ⟨v, h⟩
  | _ => cases r <;> exact h

/-- What an application may still put it could put before. -/
theorem Move.mayPut (h : Move n s a s' ev) {i : Nat} (hp : (s'.prog i).MayPut k) :
    (s.prog i).MayPut k := by
  rcases h.prog i with heq | ⟨k', v, hput, -⟩ | ⟨op, v, -, -, heq⟩
  · exact heq ▸ hp
  · exact hput ▸ .inr hp
  · exact mayPut_resume (heq ▸ hp)

theorem notMayPut_of_run {ok : Action → State → Prop} {progs : Nat → Prog Key Value Unit} {i : Nat}
    (h : Trace.Run (step n) ok (init n progs) l s) (hk : ¬(progs i).MayPut k) :
    ¬(s.prog i).MayPut k :=
  h.invariant_of (Q := fun _ s => WF n s) wf_of_run (fun _ s => ¬(s.prog i).MayPut k) hk
    fun wf hk _ hs hp => hk ((step_move wf hs).mayPut hp)

/-- The messages of a channel stay at its head. -/
theorem head_send {m m' : Message} {c : EndId} (h : (s.inbox e).head? = some m) :
    ((s.send c m').inbox e).head? = some m := by
  by_cases he : e = c.peer
  · subst he
    cases hin : s.inbox c.peer with
    | nil => simp [hin] at h
    | cons m₀ rest => simpa [hin] using h
  · simpa [he] using h

/-- The key of a withheld reply is one of `B`. -/
theorem Withheld.node (wf : WF n s) (h : Withheld s B e k) : k.node = B := by
  rw [← wf.owner_of_awaiting h.waiting]
  exact wf.inbox e (.waitAndGet k) (List.mem_of_mem_head? h.head)

/-- A move that leaves the threads of `B` and `e` where they are. -/
theorem Withheld.frame (h : Withheld s B e k) (hmay : ∀ i, i ≠ B → ¬(s'.prog i).MayPut k)
    (hphase : s'.phase B = s.phase B) (hreplies : s'.replies e = s.replies e)
    (hhandler : s'.handler e = s.handler e) (hhead : (s'.inbox e).head? = some (.waitAndGet k))
    (habsent : s'.lookup B k = s.lookup B k)
    (hchannels : ∀ c v, .put k v ∈ s'.inbox c → .put k v ∈ s.inbox c) : Withheld s' B e k where
  waiting := hphase.trans h.waiting
  replies := hreplies.trans h.replies
  serving := hhandler.trans h.serving
  head := hhead
  absent := habsent.trans h.absent
  programs := hmay
  channels c v hm := h.channels c v (hchannels c v hm)

/-- A reply that is withheld stays so, whatever moves. -/
theorem Move.withheld (wf : WF n s) (h : Move n s a s' ev) (hw : Withheld s B e k) :
    Withheld s' B e k := by
  have hmay : ∀ i, i ≠ B → ¬(s'.prog i).MayPut k := fun i hi hp => hw.programs i hi (h.mayPut hp)
  -- the application that moves is not that of `B`, the handler is not that of `e`
  have hB {i : Nat} {ph : Phase} (hph : s.phase i = ph) (hne : ph ≠ .awaiting e) : B ≠ i := by
    rintro rfl
    exact hne (hph.symm.trans hw.waiting)
  have hE {c : EndId} {hd : Handler} (hh : s.handler c = hd) (hne : hd ≠ .serving .entry) :
      e ≠ c := by
    rintro rfl
    exact hne (hh.symm.trans hw.serving)
  have hH {c : EndId} {m : Message} {rest : List Message} (hin : s.inbox c = m :: rest)
      (hne : m ≠ .waitAndGet k) : e ≠ c := by
    rintro rfl
    have := hw.head
    rw [hin] at this
    exact hne (Option.some.inj this)
  have push {c : EndId} {m : Message} (hm : ∀ v, m ≠ .put k v) (c' : EndId) (v : Value)
      (hmem : .put k v ∈ (s.send c m).inbox c') : .put k v ∈ s.inbox c' :=
    (mem_inbox_of_send hmem).resolve_right fun h => hm v h.2.symm
  have put {i : Nat} {k' : Key} (v : Value) (hi : k'.node = i) (hk : k' ≠ k) :
      (s.putItem i k' v).lookup B k = s.lookup B k := by
    have := lookup_putItem (s := s) hi k v
    rwa [update_of_ne hk.symm, hw.node wf] at this
  cases h with
  | @putLocal i k' v next hp hph hk =>
    have hi : B ≠ i := hB hph (by simp)
    have hk' : k' ≠ k := fun h => hw.programs i hi.symm (hp ▸ .inl h)
    exact hw.frame hmay (update_of_ne hi _ _) rfl rfl hw.head (put v hk hk') fun _ _ h => h
  | findLocal _ hph | readLocal _ hph | deletedLocal _ hph =>
    exact hw.frame hmay (update_of_ne (hB hph (by simp)) _ _) rfl rfl hw.head rfl fun _ _ h => h
  | crash | missingLocal | missing | accept | acceptStore =>
    exact hw.frame hmay rfl rfl rfl hw.head rfl fun _ _ h => h
  | connected _ hph | «open» _ hph | store _ hph | hold _ hph =>
    exact hw.frame hmay (update_of_ne (hB hph (by simp)) _ _) rfl rfl hw.head rfl fun _ _ h => h
  | @sendPut i k' v next c hp hph =>
    have hi : B ≠ i := hB hph (by simp)
    have hk' : k' ≠ k := fun h => hw.programs i hi.symm (hp ▸ .inl h)
    exact hw.frame hmay (update_of_ne hi _ _) rfl rfl (head_send hw.head) rfl
      (push fun v h => hk' (Message.put.inj h).1)
  | sendRead _ hph hr =>
    exact hw.frame hmay (update_of_ne (hB hph (by simp)) _ _) rfl rfl (head_send hw.head) rfl
      (push (Op.message_ne_put hr k))
  | @returned i op c v hop hph hr hrep =>
    have hc : e ≠ c := by
      rintro rfl
      exact absurd (hw.replies.symm.trans hrep) (by simp)
    have hi : B ≠ i := hB hph fun h => hc (Phase.awaiting.inj h).symm
    exact hw.frame hmay (update_of_ne hi _ _) (update_of_ne hc _ _) rfl hw.head rfl fun _ _ h => h
  | @recvReply c v rest hh hin =>
    have hc : e ≠ c := hE hh (by simp)
    exact hw.frame hmay rfl (update_of_ne hc _ _) rfl
      ((congrArg List.head? (update_of_ne hc _ _)).trans hw.head) rfl fun _ _ =>
        mem_inbox_of_pop hin
  | @recv c op rest hh hin =>
    exact hw.frame hmay rfl rfl (update_of_ne (hE hh (by simp)) _ _) hw.head rfl fun _ _ h => h
  | @servePut c k' v rest hh hin hk =>
    have hc : e ≠ c := hH hin (by simp)
    have hk' : k' ≠ k := by
      rintro rfl
      exact hw.channels c v (by simp [hin])
    exact hw.frame hmay rfl rfl (update_of_ne hc _ _)
      ((congrArg List.head? (update_of_ne hc _ _)).trans hw.head) (put v hk hk') fun _ _ =>
        mem_inbox_of_pop hin
  | @find c op rest hh hin hf =>
    have hc : e ≠ c := by
      rintro rfl
      -- the key that is waited for is not there
      have hm := hw.head
      rw [hin] at hm
      obtain rfl : op = .waitAndGet k := Op.message_inj (Option.some.inj hm)
      have hsome := hf.lookup
      rw [wf.owner_of_awaiting hw.waiting, Op.key, hw.absent] at hsome
      cases hsome
    exact hw.frame hmay rfl rfl (update_of_ne hc _ _) hw.head rfl fun _ _ h => h
  | serveRead hh hin | serveDeleted hh hin =>
    have hc := hE hh (by simp)
    exact hw.frame hmay rfl rfl (update_of_ne hc _ _)
      ((congrArg List.head? (update_of_ne hc _ _)).trans hw.head) rfl fun _ _ =>
        mem_inbox_of_pop hin
  | @reply c v hh =>
    exact hw.frame hmay rfl rfl (update_of_ne (hE hh (by simp)) _ _) (head_send hw.head) rfl
      (push (by simp))

/-- A withheld reply is a deadlock: it is withheld in every state the nodes can
    come to, whoever moves. -/
theorem withheld_forever {as : List Action} (wf : WF n s) (hw : Withheld s B e k)
    (h : Trace.exec (step n) as s = some (s', l)) : Withheld s' B e k := by
  have hrun : Trace.Run (step n) (fun _ _ => True) s l s' := .of_exec h fun _ _ _ => trivial
  refine (hrun.invariant (fun _ s => WF n s ∧ Withheld s B e k) ⟨wf, hw⟩ ?_).2
  exact fun ⟨wf, hw⟩ _ hs => ⟨(step_move wf hs).wf wf, (step_move wf hs).withheld wf hw⟩

/-! ## When it does not happen -/

/-- The key is in the store of its home, or a put of it is in a channel, or a node
    other than `B` puts it whatever the values it reads. -/
def Certain (s : State) (B : Nat) (k : Key) : Prop :=
  s.Present k ∨ (∃ c v, .put k v ∈ s.inbox c) ∨ ∃ i, i ≠ B ∧ (s.prog i).MustPut k

/-- The request for the call `op` is in the channel towards `e`, and no reply
    comes before it. -/
def State.Queued (s : State) (e : EndId) (op : Op) : Prop :=
  s.replies e = [] ∧ ∃ l₁ l₂, s.inbox e = l₁ ++ op.message :: l₂ ∧ l₁.countP Message.isReply = 0

/-- A request for `waitAndGet(k)` is in the channel towards `e`, and no reply
    comes before it. -/
def State.Blocks (s : State) (e : EndId) (k : Key) : Prop := s.Queued e (.waitAndGet k)

/-- No two requests cross on a connection, when one of them is for a key that is
    not certain to come: an application that sends a request finds no such
    `waitAndGet` of the peer in the channel towards it, and sends no such
    `waitAndGet` to a node waiting for its reply on the same connection. -/
def NoCrossing (a : Action) (s : State) : Prop :=
  ∀ i op c, a = .app i → currentOp (s.prog i) = some op → op.isRead = true →
    s.phase i = .holding c →
    (∀ k, .waitAndGet k ∈ s.inbox c → Certain s i k) ∧
    ∀ k, op = .waitAndGet k → s.phase (s.owner c.peer) = .awaiting c.peer →
      (s.inbox c.peer).countP Message.isReply = 0 → s.replies c.peer = [] →
      Certain s (s.owner c.peer) k

/-- No requests cross on a connection that an application is about to send on while it is not
    in use by the other node. -/
def isQuiet : Action → State → Bool
  | .app i, s =>
    match s.phase i with
    | .holding c => s.inbox c = [] && s.phase (s.owner c.peer) = .entry
    | _ => true
  | _, _ => true

theorem noCrossing_of_isQuiet (h : isQuiet a s = true) : NoCrossing a s := by
  rintro i op c rfl - - hph
  rw [isQuiet, hph, Bool.and_eq_true, decide_eq_true_iff, decide_eq_true_iff] at h
  refine ⟨fun k hk => ?_, fun k _ hphase => ?_⟩
  · rw [h.1] at hk
    cases hk
  · rw [h.2] at hphase
    cases hphase

theorem mustPut_resume {p : Prog Key Value Unit} {op : Op} {v : Value} (hop : currentOp p = some op)
    (hr : op.isRead = true) (h : p.MustPut k) : (resume p (some v)).MustPut k := by
  cases p with
  | put => cases hop; cases hr
  | get k' next | waitAndGet k' next => exact h v
  | _ => cases hop

/-- What is certain to come stays so, until it has come. -/
theorem Move.certain (h : Move n s a s' ev) (hk : Certain s B k) : Certain s' B k := by
  have issued (hk : s'.Issued k) : Certain s' B k := (or_assoc ..).1 (.inl hk)
  rcases (or_assoc ..).2 hk with hk | ⟨i, hi, hp⟩
  · exact issued (h.issued hk)
  · -- the node still has to put it, unless it has just done so
    rcases h.prog i with heq | ⟨k', v, hput, hk'⟩ | ⟨op, v, hop, hr, heq⟩
    · exact .inr (.inr ⟨i, hi, heq ▸ hp⟩)
    · rw [hput] at hp
      rcases hp with rfl | hp
      · exact issued hk'
      · exact .inr (.inr ⟨i, hi, hp⟩)
    · exact .inr (.inr ⟨i, hi, heq ▸ mustPut_resume hop hr hp⟩)

/-- Where a request for `waitAndGet` comes before the reply an application waits
    for, the key is certain to come. -/
def Unblocked (s : State) : Prop :=
  ∀ B e k, s.phase B = .awaiting e → s.Blocks e k → Certain s B k

/-- A message that enters a channel is ahead of no reply there, unless it is a request
    with no reply before it. -/
theorem State.Queued.of_send {c : EndId} {m : Message} {op : Op} (h : (s.send c m).Queued e op) :
    s.Queued e op ∨ e = c.peer ∧ m = op.message ∧ (s.inbox e).countP Message.isReply = 0 ∧
      s.replies e = [] := by
  obtain ⟨hrep, l₁, l₂, hin, hl₁⟩ := h
  by_cases he : e = c.peer
  · subst he
    rw [State.send_inbox, update_self] at hin
    cases l₂ using List.reverseRecOn with
    | nil =>
      obtain ⟨rfl, hm⟩ := List.append_inj' hin rfl
      exact .inr ⟨rfl, (List.cons.inj hm).1, hl₁, hrep⟩
    | append_singleton l₂ m' =>
      rw [← List.cons_append, ← List.append_assoc] at hin
      exact .inl ⟨hrep, l₁, l₂, List.append_inj_left' hin rfl, hl₁⟩
  · rw [State.send_inbox, update_of_ne he] at hin
    exact .inl ⟨hrep, l₁, l₂, hin, hl₁⟩

theorem State.Queued.of_pop {c : EndId} {m : Message} {rest : List Message} {op : Op}
    (h : (s.setInbox c rest).Queued e op) (hin' : s.inbox c = m :: rest) (hm : m.isReply = false) :
    s.Queued e op := by
  obtain ⟨hrep, l₁, l₂, hin, hl₁⟩ := h
  by_cases he : e = c
  · subst he
    rw [State.setInbox_inbox, update_self] at hin
    exact ⟨hrep, m :: l₁, l₂, by rw [hin', hin]; rfl, by simp [hm, hl₁]⟩
  · rw [State.setInbox_inbox, update_of_ne he] at hin
    exact ⟨hrep, l₁, l₂, hin, hl₁⟩

/-- Where a request comes from that is ahead of the reply an application waits for: it was there
    before, or the application has just sent its own request, or the peer has just sent this one. -/
theorem Move.queued (wf : WF n s) (h : Move n s a s' ev) {op : Op} (hread : op.isRead = true)
    (hw : s'.phase B = .awaiting e) (hb : s'.Queued e op) :
    (s.phase B = .awaiting e ∧ s.Queued e op ∧ s'.prog B = s.prog B) ∨
    (a = .app B ∧ s.phase B = .holding e ∧ op.message ∈ s.inbox e ∧ ∃ op',
      currentOp (s.prog B) = some op' ∧ op'.isRead = true ∧ s'.prog B = s.prog B) ∨
    ∃ i, i ≠ B ∧ a = .app i ∧ currentOp (s.prog i) = some op ∧
      s.phase i = .holding e.peer ∧ s.phase B = .awaiting e ∧ s'.prog B = s.prog B ∧
      (s.inbox e).countP Message.isReply = 0 ∧ s.replies e = [] := by
  -- a node that waits after an application has moved to another phase waited before
  have before {i : Nat} {ph : Phase} (hph : ph ≠ .awaiting e)
      (hw : update s.phase i ph B = .awaiting e) : B ≠ i ∧ s.phase B = .awaiting e := by
    by_cases hi : B = i
    · subst hi
      rw [update_self] at hw
      exact absurd hw hph
    · exact ⟨hi, by rwa [update_of_ne hi] at hw⟩
  cases h with
  | putLocal | readLocal | deletedLocal =>
    obtain ⟨hi, hw⟩ := before (by simp) hw
    exact .inl ⟨hw, hb, update_of_ne hi _ _⟩
  | crash | missingLocal | missing | recv | find | accept | acceptStore => exact .inl ⟨hw, hb, rfl⟩
  | connected | «open» | store | hold | findLocal =>
    exact .inl ⟨(before (by simp) hw).2, hb, rfl⟩
  | @sendPut i k' v next c =>
    have hb : (s.send c (.put k' v)).Queued e op := hb
    obtain ⟨hi, hw⟩ := before (by simp) hw
    exact .inl ⟨hw, hb.of_send.resolve_right fun h => Op.message_ne_put hread k' v h.2.1.symm,
      update_of_ne hi _ _⟩
  | @sendRead i op' c hop hph hr =>
    have hb : (s.send c op'.message).Queued e op := hb
    by_cases hi : B = i
    · subst hi
      obtain rfl : c = e := by simpa using hw
      obtain ⟨-, l₁, l₂, hin, -⟩ := hb
      have : s.inbox c = l₁ ++ op.message :: l₂ := by simpa using hin
      exact .inr (.inl ⟨rfl, hph, by simp [this], op', hop, hr, rfl⟩)
    · have hw' : s.phase B = .awaiting e := (update_of_ne hi _ _).symm.trans hw
      rcases hb.of_send with hb | ⟨rfl, hm, hreply, hrep⟩
      · exact .inl ⟨hw', hb, rfl⟩
      · obtain rfl := Op.message_inj hm
        exact .inr (.inr ⟨i, Ne.symm hi, rfl, hop, by rwa [EndId.peer_peer], hw', rfl,
          hreply, hrep⟩)
  | @returned i op' c v hop hph hr hrep =>
    obtain ⟨hi, hw'⟩ := before (by simp) hw
    have hc : e ≠ c := by
      rintro rfl
      exact hi ((wf.owner_of_awaiting hw').symm.trans (wf.owner_of_awaiting hph))
    obtain ⟨hrep', l₁, l₂, hin, hl₁⟩ := hb
    exact .inl ⟨hw', ⟨(update_of_ne hc _ _).symm.trans hrep', l₁, l₂, hin, hl₁⟩,
      update_of_ne hi _ _⟩
  | @recvReply c v rest hh hin =>
    have hc : e ≠ c := by
      rintro rfl
      simpa using hb.1
    obtain ⟨hrep, l₁, l₂, hin', hl₁⟩ := hb
    exact .inl ⟨hw, ⟨(update_of_ne hc _ _).symm.trans hrep, l₁, l₂,
      (update_of_ne hc _ _).symm.trans hin', hl₁⟩, rfl⟩
  | servePut _ hin => exact .inl ⟨hw, State.Queued.of_pop hb hin rfl, rfl⟩
  | serveRead _ hin | serveDeleted _ hin =>
    exact .inl ⟨hw, State.Queued.of_pop hb hin (Op.message_isReply _), rfl⟩
  | @reply c v =>
    have hb : (s.send c (.reply v)).Queued e op := hb
    exact .inl ⟨hw, hb.of_send.resolve_right fun h => op.message_ne_reply v h.2.1.symm, rfl⟩

theorem Move.unblocked (wf : WF n s) (h : Move n s a s' ev) (hok : NoCrossing a s)
    (hs : Unblocked s) :
    Unblocked s' := by
  intro B e k hw hb
  refine h.certain ?_
  rcases h.queued wf rfl hw hb with ⟨hw, hb, -⟩ | ⟨rfl, hph, hm, op, hop, hr, -⟩ |
    ⟨i, -, rfl, hop, hph, hw, -, hreply, hrep⟩
  · exact hs B e k hw hb
  · exact (hok B op e rfl hop hr hph).1 k hm
  · have hB : s.owner e = B := wf.owner_of_awaiting hw
    have hput := (hok i _ e.peer rfl hop rfl hph).2 k rfl
    rw [EndId.peer_peer, hB] at hput
    exact hput hw hreply hrep

theorem unblocked_of_run {progs : Nat → Prog Key Value Unit}
    (h : Trace.Run (step n) NoCrossing (init n progs) l s) : Unblocked s :=
  h.invariant_of (Q := fun _ s => WF n s) wf_of_run (fun _ => Unblocked)
    (fun _ _ _ hw => by simp [init] at hw) fun wf hs hok hstep =>
      (step_move wf hstep).unblocked wf hok hs

theorem Withheld.blocks (h : Withheld s B e k) : s.Blocks e k := by
  obtain ⟨rest, hin⟩ := List.head?_eq_some_iff.1 h.head
  exact ⟨h.replies, [], rest, hin, rfl⟩

/-- In a run without crossing requests no reply is ever withheld. -/
theorem not_withheld_of_run {progs : Nat → Prog Key Value Unit}
    (h : Trace.Run (step n) NoCrossing (init n progs) l s) : ¬Withheld s B e k := by
  intro hw
  rcases unblocked_of_run h B e k hw.waiting hw.blocks with hk | ⟨c, v, hm⟩ | ⟨i, hi, hp⟩
  · rw [State.Present, hw.node (wf_of_run h), hw.absent] at hk
    cases hk
  · exact hw.channels c v hm
  · exact hw.programs i hi hp.mayPut

/-- Each of two nodes asks the other for a key, the node 1 with `waitAndGet`; the node
    0 puts the key it is asked for afterwards. -/
def crossing : Nat → Prog Key Value Unit
  | 0 => .get ⟨lit "b", 1⟩ fun _ => .put ⟨lit "a", 0⟩ [1] (.ret ())
  | 1 => .put ⟨lit "b", 1⟩ [1] (.waitAndGet ⟨lit "a", 0⟩ fun _ => .ret ())
  | _ => .ret ()

end Eau2.Network

import Eau2.Network.Refinement

/-!
# The values read are those of the map

`KVStore::get` and `waitAndGet` clone the `Value` they have found once they have
released the lock of the store, and `put` deletes the `Value` it replaces. So a
value is read from the map as long as no put of the key comes in between
(`Intact`): then every thread that has found a `Value` has the one of the last
put (`Current`), and no deleted `Value` is read.

Main result: `store_refines_map`.
-/

namespace Eau2.Network

open Function Trace

variable {n : Nat} {F : Set (Nat × Key)} {s s' : State} {a : Action} {ev : List Event}

/-- A thread of the home of `k` has found `k` for a read of the node `i`, and has not
    cloned its `Value` yet. -/
def State.Held (s : State) (i : Nat) (k : Key) : Prop :=
  (i = k.node ∧ ∃ op t, currentOp (s.prog i) = some op ∧ op.key = k ∧ s.phase i = .found t) ∨
    ∃ (e : EndId) (op : Op) (rest : List Message) (t : Nat), s.owner e = k.node ∧
      s.owner e.peer = i ∧ s.handler e = .serving (.found t) ∧
      s.inbox e = op.message :: rest ∧ op.key = k

/-- The thread that moves is about to apply a put of `k` at the home of `k`. -/
def Action.Puts (k : Key) (s : State) : Action → Prop
  | app i => k.node = i ∧ s.phase i = .entry ∧ ∃ v next, s.prog i = .put k v next
  | handler e => s.handler e = .serving .entry ∧ ∃ v rest, s.inbox e = .put k v :: rest
  | accept _ | appDeleted _ _ | handlerDeleted _ _ => False

/-- No put of a key is applied between the moment its home finds the `Value` for a
    reader and the moment it clones it, the readers and the keys being those of `F`. -/
def Intact (F : Set (Nat × Key)) (a : Action) (s : State) : Prop :=
  ∀ i k, (i, k) ∈ F → a.Puts k s → ¬s.Held i k

/-- The threads that have found a `Value`, for a reader and a key of `F`, have that of
    the last put. -/
structure Current (F : Set (Nat × Key)) (s : State) : Prop where
  app : ∀ i op t, (i, op.key) ∈ F → currentOp (s.prog i) = some op → s.phase i = .found t →
    s.version i op.key.k = t
  handler : ∀ e (op : Op) rest t, (s.owner e.peer, op.key) ∈ F → s.handler e = .serving (.found t) →
    s.inbox e = op.message :: rest → s.version (s.owner e) op.key.k = t

/-- The put of a key of the node that makes it is called in the move that applies it. -/
theorem issue_mem_of_puts {i : Nat} {k : Key} {v : Value} {next : Prog Key Value Unit}
    (hk : k.node = i) (hph : s.phase i = .entry) (hp : s.prog i = .put k v next)
    (hs : step n (.app i) s = some (s', ev)) : .issue i k v ∈ ev := by
  rw [step] at hs
  have hstep := (Option.ite_none_right_eq_some.1 hs).2
  simp only [appStep, hp, currentOp, hph, kvStep, Op.key, hk, if_true, localOp, Option.bind_eq_bind,
    Option.bind_some, Option.pure_def, Option.some.injEq, appAfter, appEvents,
    Prod.mk.injEq] at hstep
  rw [← hstep.2]
  exact List.mem_cons_self

theorem version_putItem (s : State) (i : Nat) (k : Key) (v : Value) {i' : Nat} {name : Bytes}
    (h : ¬(i' = i ∧ name = k.k)) : (s.putItem i k v).version i' name = s.version i' name := by
  by_cases hi : i' = i
  · subst hi
    have hname : name ≠ k.k := fun hname => h ⟨rfl, hname⟩
    simp [hname]
  · simp [hi]

theorem Move.current_app (wf : WF n s) (hc : Current F s) (hok : Intact F a s)
    (h : Move n s a s' ev) : ∀ i op t, (i, op.key) ∈ F → currentOp (s'.prog i) = some op →
      s'.phase i = .found t → s'.version i op.key.k = t := by
  -- an application that enters the phase `ph` of its current call, or ends the call
  have enter {i : Nat} {ph : Phase}
      (hph : ∀ op t, (i, op.key) ∈ F → currentOp (s.prog i) = some op → ph = .found t →
        s.version i op.key.k = t) :
      ∀ i' op t, (i', op.key) ∈ F → currentOp (s.prog i') = some op →
        update s.phase i ph i' = .found t → s.version i' op.key.k = t := by
    intro i' op t hF hop ht
    by_cases hi : i' = i
    · subst hi
      exact hph op t hF hop (by rwa [update_self] at ht)
    · rw [update_of_ne hi] at ht
      exact hc.app i' op t hF hop ht
  have ended {i : Nat} {p : Prog Key Value Unit} : ∀ i' op t, (i', op.key) ∈ F →
      currentOp (update s.prog i p i') = some op → update s.phase i .entry i' = .found t →
        i' ≠ i ∧ s.version i' op.key.k = t := by
    intro i' op t hF hop ht
    by_cases hi : i' = i
    · simp [hi] at ht
    · rw [update_of_ne hi] at hop ht
      exact ⟨hi, hc.app i' op t hF hop ht⟩
  cases h with
  | @putLocal i k v next hp hph hk =>
    intro i' op t hF hop ht
    obtain ⟨hi, hv⟩ := ended i' op t hF hop ht
    exact (version_putItem s i k v fun heq => hi heq.1).trans hv
  | readLocal | deletedLocal | sendPut | returned =>
    exact fun i' op t hF hop ht => (ended i' op t hF hop ht).2
  | findLocal hop =>
    refine enter fun op' t _ hop' ht => ?_
    rw [← Option.some.inj (hop.symm.trans hop')]
    exact Phase.found.inj ht
  | connected | «open» | store | hold | sendRead =>
    exact enter fun _ _ _ _ ht => Phase.noConfusion ht
  | @servePut c k v rest hh hin hk =>
    intro i' op t hF hop ht
    refine (version_putItem s _ k v ?_).trans (hc.app i' op t hF hop ht)
    rintro ⟨rfl, hname⟩
    -- the application of this node has found the key that is put
    have hkey : op.key = k := Key.ext hname ((wf.found hop ht).node.trans hk.symm)
    exact hok _ k (hkey ▸ hF) ⟨hh, v, rest, hin⟩ (.inl ⟨hk.symm, op, t, hop, hkey, ht⟩)
  | _ => exact hc.app

/-- A message sent on a channel does not come before the one that is served. -/
theorem Current.handler_send (wf : WF n s) (hc : Current F s) {c e : EndId} {m : Message} {op : Op}
    {rest : List Message} {t : Nat} (hF : (s.owner e.peer, op.key) ∈ F)
    (he : s.handler e = .serving (.found t)) (hin : (s.send c m).inbox e = op.message :: rest) :
    s.version (s.owner e) op.key.k = t := by
  obtain ⟨op', rest', hin', -⟩ := wf.serving e _ he
  have hhead : op'.message = op.message := by
    by_cases hec : e = c.peer
    · subst hec
      simp only [State.send_inbox, update_self, hin', List.cons_append, List.cons.injEq] at hin
      exact hin.1
    · rw [State.send_inbox, update_of_ne hec, hin', List.cons.injEq] at hin
      exact hin.1
  rw [← Op.message_inj hhead]
  exact hc.handler e op' rest' t (Op.message_inj hhead ▸ hF) he hin'

/-- When the handler of `c` moves, the others have found what they had. -/
theorem Current.handler_other (hc : Current F s) {c e : EndId} {hd : Handler} {op : Op}
    {rest : List Message} {t : Nat} (hd' : ∀ t, hd ≠ .serving (.found t))
    (hF : (s.owner e.peer, op.key) ∈ F) (he : update s.handler c hd e = .serving (.found t))
    (hin : e ≠ c → s.inbox e = op.message :: rest) : s.version (s.owner e) op.key.k = t := by
  by_cases hec : e = c
  · subst hec
    exact absurd (by rwa [update_self] at he) (hd' t)
  · rw [update_of_ne hec] at he
    exact hc.handler e op rest t hF he (hin hec)

/-- A put that leaves the reads of `F` intact is of another key than a handler has found. -/
theorem Current.handler_put (wf : WF n s) (hc : Current F s) (hok : Intact F a s) {i : Nat}
    {k : Key} {v : Value} (hk : k.node = i) (hputs : a.Puts k s) {e : EndId} {op : Op}
    {rest : List Message} {t : Nat} (hF : (s.owner e.peer, op.key) ∈ F)
    (he : s.handler e = .serving (.found t)) (hin : s.inbox e = op.message :: rest) :
    (s.putItem i k v).version (s.owner e) op.key.k = t := by
  refine (version_putItem s i k v ?_).trans (hc.handler e op rest t hF he hin)
  rintro ⟨hi, hname⟩
  have hnode := wf.inbox e op (by rw [hin]; exact List.mem_cons_self)
  have hkey : op.key = k := Key.ext hname (hnode.trans (hi.trans hk.symm))
  exact hok _ k (hkey ▸ hF) hputs (.inr ⟨e, op, rest, t, hi.trans hk.symm, rfl, he, hin, hkey⟩)

theorem Move.current_handler (wf : WF n s) (hc : Current F s) (hok : Intact F a s)
    (h : Move n s a s' ev) : ∀ e (op : Op) rest t, (s'.owner e.peer, op.key) ∈ F → s'.handler e =
      .serving (.found t) →
      s'.inbox e = op.message :: rest → s'.version (s'.owner e) op.key.k = t := by
  cases h with
  | @putLocal i k v next hp hph hk =>
    intro e op rest t hF he hin
    exact hc.handler_put (v := v) wf hok hk ⟨hk, hph, v, next, hp⟩ hF he hin
  | @«open» i op =>
    intro e op' rest t hF he hin
    have hconn := wf.serving_conn he
    have hown := owner_openConn s i op.key.node hconn
    have hpeer := owner_openConn s i op.key.node (e := e.peer) hconn
    rw [State.setPhase_owner, hpeer] at hF
    exact (congrArg (s.version · op'.key.k) hown).trans (hc.handler e op' rest t hF he hin)
  | sendPut | sendRead => exact fun _ _ _ _ => hc.handler_send wf
  | @recvReply c v rest hh hin =>
    intro e op rest' t hF he hin'
    have hec : e ≠ c := by
      rintro rfl
      exact absurd (hh.symm.trans he) Handler.noConfusion
    simp only [State.setReplies_inbox, State.setInbox_inbox, update_of_ne hec] at hin'
    exact hc.handler e op rest' t hF he hin'
  | @recv c op rest hh hin =>
    intro e op' rest' t hF he hin'
    exact hc.handler_other (fun t => by simp) hF he fun _ => hin'
  | @servePut c k v rest hh hin hk =>
    intro e op rest' t hF he hin'
    have hec : e ≠ c := by
      rintro rfl
      simp at he
    simp only [State.setHandler_handler, State.setHandler_inbox, State.setInbox_inbox,
      update_of_ne hec] at he hin'
    exact hc.handler_put (v := v) wf hok hk ⟨hh, v, rest, hin⟩ hF he hin'
  | @find c op rest hh hin hf =>
    intro e op' rest' t hF he hin'
    by_cases hec : e = c
    · subst hec
      obtain rfl : op = op' := Op.message_inj (List.cons.inj (hin.symm.trans hin')).1
      simpa using he
    · simp only [State.setHandler_handler, update_of_ne hec] at he
      exact hc.handler e op' rest' t hF he hin'
  | serveRead | serveDeleted =>
    intro e op rest t hF he hin
    exact hc.handler_other (fun _ => Handler.noConfusion) hF he fun hec =>
      (update_of_ne hec _ _).symm.trans hin
  | @reply c v hh =>
    intro e op rest t hF he hin
    have hec : e ≠ c := by
      rintro rfl
      simp at he
    simp only [State.setHandler_handler, update_of_ne hec] at he
    exact hc.handler_send wf hF he hin
  | _ => exact hc.handler

theorem Move.current (wf : WF n s) (hc : Current F s) (hok : Intact F a s) (h : Move n s a s' ev) :
    Current F s' :=
  ⟨h.current_app wf hc hok, h.current_handler wf hc hok⟩

/-- A handler that is about to send back a value was so before the move, or has just looked the
    value up. -/
theorem Move.replying {e : EndId} {v : Value} (h : Move n s a s' ev)
    (hv : s'.handler e = .replying v) :
    s.handler e = .replying v ∨ s'.phase = s.phase ∧ ∃ (op : Op) (rest : _),
      s.inbox e = op.message :: rest ∧ op.isRead = true ∧
      (s.lookup (s.owner e) op.key = some v ∨
        ∃ t, s.handler e = .serving (.found t) ∧ s.version (s.owner e) op.key.k ≠ t) := by
  have other {c : EndId} {hd : Handler} (hd' : hd ≠ .replying v)
      (hv : update s.handler c hd e = .replying v) : s.handler e = .replying v := by
    by_cases hc : e = c
    · subst hc
      rw [update_self] at hv
      exact absurd hv hd'
    · rwa [update_of_ne hc] at hv
  cases h with
  | recv | find | servePut | reply => exact .inl (other (by simp) hv)
  | @serveRead c op w rest hh hin hr hk hl =>
    by_cases hc : e = c
    · subst hc
      obtain rfl : w = v := by simpa using hv
      exact .inr ⟨rfl, op, rest, hin, hr, .inl hl⟩
    · exact .inl ((update_of_ne hc _ _).symm.trans hv)
  | @serveDeleted c op t w rest hh hin ht hf =>
    by_cases hc : e = c
    · subst hc
      exact .inr ⟨rfl, op, rest, hin, hf.isRead, .inr ⟨t, hh, ht⟩⟩
    · exact .inl ((update_of_ne hc _ _).symm.trans hv)
  | _ => exact .inl hv

/-- No deleted `Value` is read by a reader at a key of `F`. -/
theorem Move.not_deleted (hc : Current F s) (h : Move n s a s' ev) {i : Nat} {op : Op}
    (hF : (i, op.key) ∈ F) (v : Value) : .deleted i op v ∉ ev := by
  cases h with
  | deletedLocal hop hph ht =>
    intro hmem
    simp only [List.mem_cons, reduceCtorEq, Event.deleted.injEq, List.not_mem_nil, or_false,
      false_or] at hmem
    obtain ⟨rfl, rfl, -⟩ := hmem
    exact ht (hc.app _ _ _ hF hop hph)
  | serveDeleted hh hin ht =>
    intro hmem
    obtain ⟨rfl, rfl, -⟩ := Event.deleted.inj (List.mem_singleton.1 hmem)
    exact ht (hc.handler _ _ _ _ hF hh hin)
  | _ => simp

theorem init_current (n : Nat) (progs : Nat → Prog Key Value Unit) : Current F (init n progs) where
  app _ _ _ _ _ h := Phase.noConfusion h
  handler _ _ _ _ _ h := Handler.noConfusion h

section

variable {progs : Nat → Prog Key Value Unit} {l : List Event}

/-- In a run whose steps leave the reads of `F` intact, they have found the last `Value`. -/
theorem current_of_run (h : Trace.Run (step n) (Intact F) (init n progs) l s) : Current F s :=
  h.invariant_of (Q := fun _ s => WF n s) wf_of_run (fun _ s => Current F s) (init_current n progs)
    fun wf hc hok hs => (step_move wf hs).current wf hc hok

/-- None of them reads a deleted `Value`. -/
theorem not_deleted_of_run (h : Trace.Run (step n) (Intact F) (init n progs) l s)
    {i : Nat} {op : Op} (hF : (i, op.key) ∈ F) (v : Value) : .deleted i op v ∉ l := by
  refine h.invariant_of (Q := fun l s => Trace.Run (step n) (Intact F) (init n progs) l s) id
    (fun l _ => .deleted i op v ∉ l) List.not_mem_nil ?_
  rintro l s a s' ev hrun hl - hs
  exact List.mem_append.not.2 (not_or.2
    ⟨hl, (step_move (wf_of_run hrun) hs).not_deleted (current_of_run hrun) hF v⟩)

end

/-- Along every run in which no put of a key is applied between the lookup of the
    key at its home and the clone of its `Value`: the entries of a store are
    those of its node; the messages in the channels are addressed to the home of
    their keys; a put called is either in one channel or has been applied, once,
    at the home of its key; the stores hold what the puts applied made of one
    map, in which keys with the same name and different nodes are different keys;
    and a value returned is the one that map had when the read was served. -/
theorem store_refines_map {progs : Nat → Prog Key Value Unit} {l : List Event}
    (h : Trace.Run (step n) (Intact Set.univ) (init n progs) l s) :
    (∀ i name it, s.items i name = some it → it.key = ⟨name, i⟩) ∧
    (∀ e (op : Op), op.message ∈ s.inbox e → op.key.node = s.owner e) ∧
    (∀ i k v, l.count (.issue i k v) = s.inFlight i k v + l.count (.apply i k.node k v)) ∧
    (∀ i j k v, .apply i j k v ∈ l → j = k.node) ∧
    (∀ k, s.lookup k.node k = contents l k) ∧
    (∀ l₁ l₂ i op v, l = l₁ ++ .return i op v :: l₂ → ServedFrom l₁ i op v) := by
  obtain ⟨hitems, hinbox, hputs, happly, hmap⟩ := one_map_of_run h
  refine ⟨hitems, hinbox, hputs, happly, hmap, fun l₁ l₂ i op v hl => ?_⟩
  subst hl
  obtain ⟨m, hm, -⟩ := refines_of_run h
  have hdel := not_deleted_of_run h (Set.mem_univ (i, op.key)) v
  exact hm.return_answered.served fun hmem => hdel (List.mem_append_left _ hmem)

/-- A thread has found a `Value` and has not cloned it yet. -/
def Phase.isFound : Phase → Bool
  | found _ => true
  | _ => false

/-- The phase of a handler in its call. -/
def Handler.isFound : Handler → Bool
  | serving ph => ph.isFound
  | _ => false

/-- Neither the application of the node `i` nor a handler holds a `Value`. -/
def State.noneFound (s : State) (i : Nat) : Bool :=
  !(s.phase i).isFound && (List.range s.nextConn).all fun c =>
    !(s.handler ⟨c, false⟩).isFound && !(s.handler ⟨c, true⟩).isFound

theorem not_held_of_noneFound (wf : WF n s) {i : Nat} {k : Key}
    (h : s.noneFound k.node = true) : ¬s.Held i k := by
  simp only [State.noneFound, Bool.and_eq_true, List.all_eq_true, List.mem_range,
    Bool.not_eq_true'] at h
  rintro (⟨rfl, op, t, -, -, hph⟩ | ⟨⟨c, side⟩, op, rest, t, -, -, hh, -⟩)
  · simp [hph, Phase.isFound] at h
  · have := h.2 c (wf.serving_conn hh)
    cases side <;> simp [hh, Handler.isFound, Phase.isFound] at this

/-- A put is only applied where no `Value` is held. -/
def isCalm (a : Action) (s : State) : Bool :=
  match a with
  | .app i =>
    match s.prog i with
    | .put _ _ _ => s.noneFound i
    | _ => true
  | .handler e =>
    match s.inbox e with
    | .put _ _ :: _ => s.noneFound (s.owner e)
    | _ => true
  | _ => true

theorem intact_of_isCalm (wf : WF n s) (h : isCalm a s = true) : Intact F a s := by
  intro i k _ hk
  refine not_held_of_noneFound wf ?_
  cases a with
  | app i =>
    obtain ⟨hnode, -, v, next, hp⟩ := hk
    simpa [isCalm, hp, hnode] using h
  | handler e =>
    obtain ⟨-, v, rest, hin⟩ := hk
    have hnode := wf.inbox e (.put k v) (by rw [hin]; exact List.mem_cons_self)
    rw [show k.node = s.owner e from hnode]
    simpa [isCalm, hin] using h
  | _ => exact hk.elim

/-- A client that writes a key of the controller, reads it back and writes it
    again, beside a key of its own with the same name; the controller reads the
    key too. -/
def rewriting (name : Bytes) : Nat → Prog Key Value Unit
  | 0 => .waitAndGet ⟨name, 0⟩ fun _ => .ret ()
  | 1 =>
    .put ⟨name, 1⟩ [1] <| .put ⟨name, 0⟩ [7] <| .get ⟨name, 0⟩ fun _ =>
      .put ⟨name, 0⟩ [8] <| .get ⟨name, 0⟩ fun _ => .ret ()
  | _ => .ret ()

/-- The history of `rewriting` up to the return of the last value. -/
def rewritten (name : Bytes) : List Event :=
  [.issue 1 ⟨name, 1⟩ [1], .apply 1 1 ⟨name, 1⟩ [1], .issue 1 ⟨name, 0⟩ [7],
    .apply 1 0 ⟨name, 0⟩ [7], .request 0 (.waitAndGet ⟨name, 0⟩),
    .serve 0 (.waitAndGet ⟨name, 0⟩) [7], .return 0 (.waitAndGet ⟨name, 0⟩) [7],
    .request 1 (.get ⟨name, 0⟩), .serve 1 (.get ⟨name, 0⟩) [7], .return 1 (.get ⟨name, 0⟩) [7],
    .issue 1 ⟨name, 0⟩ [8], .request 1 (.get ⟨name, 0⟩), .apply 1 0 ⟨name, 0⟩ [8],
    .serve 1 (.get ⟨name, 0⟩) [8]]

theorem store_refines_map_rewriting :
    ∃ s, Trace.Run (step 2) (Intact Set.univ) (init 2 (rewriting (lit "a")))
        (rewritten (lit "a") ++ [.return 1 (.get ⟨lit "a", 0⟩) [8]]) s ∧
      s.lookup 0 ⟨lit "a", 0⟩ = some [8] ∧ s.lookup 1 ⟨lit "a", 1⟩ = some [1] ∧
      ServedFrom (rewritten (lit "a")) 1 (.get ⟨lit "a", 0⟩) [8] := by
  obtain ⟨⟨s, l⟩, hs, hl⟩ := Option.map_eq_some_iff.1
    (show (Trace.exec (fun a s => if isCalm a s = true then step 2 a s else none)
        [.app 1, .app 1, .app 1, .app 1, .handler ⟨0, true⟩, .handler ⟨0, true⟩, .app 0, .app 0,
          .app 1, .app 1, .app 1, .handler ⟨0, true⟩, .handler ⟨0, true⟩, .handler ⟨0, true⟩,
          .handler ⟨0, true⟩, .handler ⟨0, false⟩, .app 1, .app 1, .app 1, .app 1, .app 1, .app 1,
          .app 1, .handler ⟨0, true⟩, .handler ⟨0, true⟩, .handler ⟨0, true⟩, .handler ⟨0, true⟩,
          .handler ⟨0, true⟩, .handler ⟨0, true⟩, .handler ⟨0, false⟩, .app 1]
        (init 2 (rewriting (lit "a")))).map Prod.snd =
      some (rewritten (lit "a") ++ [.return 1 (.get ⟨lit "a", 0⟩) [8]]) by decide)
  obtain rfl : l = _ := hl
  have hcalm : Trace.Run (step 2) (fun a s => isCalm a s = true) (init 2 (rewriting (lit "a"))) _
      s := .of_exec_checked hs
  have hrun : Trace.Run (step 2) (Intact Set.univ) (init 2 (rewriting (lit "a"))) _ s :=
    hcalm.mono_of wf_of_run fun _ _ _ wf => intact_of_isCalm wf
  obtain ⟨-, -, -, -, hmap, hret⟩ := store_refines_map hrun
  exact ⟨s, hrun, (hmap ⟨lit "a", 0⟩).trans (by decide), (hmap ⟨lit "a", 1⟩).trans (by decide),
    hret _ [] _ _ _ rfl⟩

/-- Two nodes put a key, and its home reads it in between. -/
def putTwice (k : Key) : Nat → Prog Key Value Unit
  | 0 => .put k [7] <| .waitAndGet k fun _ => .ret ()
  | 1 => .put k [8] <| .ret ()
  | _ => .ret ()

/-- The home of a key finds its `Value`, a second put deletes it, and the clone
    returns what nobody has put. -/
theorem read_of_deleted :
    ∃ l s, Run 2 (putTwice ⟨lit "a", 0⟩) (l ++ [.return 0 (.waitAndGet ⟨lit "a", 0⟩) [9]]) s ∧
      ¬ServedFrom l 0 (.waitAndGet ⟨lit "a", 0⟩) [9] := by
  have hexec : (Trace.exec (step 2)
      [.app 0, .app 0, .app 1, .app 1, .app 1, .handler ⟨0, true⟩, .handler ⟨0, true⟩,
        .appDeleted 0 (some [9])] (init 2 (putTwice ⟨lit "a", 0⟩))).map Prod.snd =
      some [.issue 0 ⟨lit "a", 0⟩ [7], .apply 0 0 ⟨lit "a", 0⟩ [7], .issue 1 ⟨lit "a", 0⟩ [8],
        .apply 1 0 ⟨lit "a", 0⟩ [8], .request 0 (.waitAndGet ⟨lit "a", 0⟩),
        .deleted 0 (.waitAndGet ⟨lit "a", 0⟩) [9], .return 0 (.waitAndGet ⟨lit "a", 0⟩) [9]] := by
    decide
  obtain ⟨s, hrun⟩ := run_of_exec (fun _ _ => True) 2 _ _ _ hexec fun _ _ _ => trivial
  refine ⟨[.issue 0 ⟨lit "a", 0⟩ [7], .apply 0 0 ⟨lit "a", 0⟩ [7], .issue 1 ⟨lit "a", 0⟩ [8],
    .apply 1 0 ⟨lit "a", 0⟩ [8], .request 0 (.waitAndGet ⟨lit "a", 0⟩),
    .deleted 0 (.waitAndGet ⟨lit "a", 0⟩) [9]], s, hrun, ?_⟩
  rintro ⟨l₁, l₂, l₃, hl, -⟩
  have hmem : Event.serve 0 (.waitAndGet ⟨lit "a", 0⟩) [9] ∈ l₁ ++
      .request 0 (.waitAndGet ⟨lit "a", 0⟩) ::
        (l₂ ++ .serve 0 (.waitAndGet ⟨lit "a", 0⟩) [9] :: l₃) := by simp
  rw [← hl] at hmem
  simp at hmem

end Eau2.Network

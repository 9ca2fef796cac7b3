import Eau2.Network.Clone

/-!
# Publication

A value may name other keys, as a data frame names the segments of its columns,
and be published by a put under a key of its own. Those who read the key go on
to read the keys it names. The puts of these are called before, but they travel
in other channels, and nobody waits for them to be applied.

The section is about a set `F` of keys under which such values are published and
the keys `segs v` that a value `v` names. As long as a value is only put when
every key it names is in the store of its home, or is put by a message ahead in
the same channel (`SegmentsFirst`), whoever reads a key of `F` finds the keys
named (`Published`), unless what is read has been deleted meanwhile (`Intact`).
-/

namespace Eau2.Network

open Function Trace

variable {n : Nat} {s s' : State} {a : Action} {ev l : List Event}

section Publication

variable (F : Set Key) (segs : Value → List Key)

/-- Behind the messages `l`, the put by the message `m` of a value at a key of `F`
    finds the keys it names in the store, or put by a message of `l`. -/
def State.FindsSegments (s : State) (l : List Message) (m : Message) : Prop :=
  ∀ k v, m = .put k v → k ∈ F → ∀ sk ∈ segs v, s.Present sk ∨ ∃ w, .put sk w ∈ l

/-- A value is put at a key of `F` only when the keys it names are in the store,
    or are put by messages ahead in the channel. -/
def SegmentsFirst (a : Action) (s : State) : Prop :=
  ∀ i k v next, a = .app i → s.prog i = .put k v next → k ∈ F →
    (s.phase i = .entry → k.node = i → ∀ sk ∈ segs v, s.Present sk) ∧
    ∀ c, s.phase i = .holding c → ∀ sk ∈ segs v, s.Present sk ∨ ∃ w, .put sk w ∈ s.inbox c.peer

/-- The keys named by the values at the keys of `F` are in the store, and will be
    when the puts in the channels are applied. -/
structure Published (s : State) : Prop where
  store : ∀ k v, k ∈ F → s.lookup k.node k = some v → ∀ sk ∈ segs v, s.Present sk
  inbox : ∀ c, Always (s.FindsSegments F segs) (s.inbox c)

variable {F segs}

theorem State.FindsSegments.mono {l l' : List Message} {m : Message}
    (h : s.FindsSegments F segs l m)
    (hpresent : ∀ k, s.Present k → s'.Present k) (hsub : ∀ m ∈ l, m ∈ l') :
    s'.FindsSegments F segs l' m :=
  fun k v hm hk sk hsk => (h k v hm hk sk hsk).imp (hpresent sk) fun ⟨w, hw⟩ => ⟨w, hsub _ hw⟩

theorem Published.always_mono {msgs : List Message} (h : Always (s.FindsSegments F segs) msgs)
    (hpresent : ∀ k, s.Present k → s'.Present k) : Always (s'.FindsSegments F segs) msgs :=
  fun l₁ m l₂ heq => (h l₁ m l₂ heq).mono hpresent fun _ h => h

/-- A message that leaves the channel does so by being handled. -/
theorem Published.pop (h : Published F segs s) (hpresent : ∀ k, s.Present k → s'.Present k)
    {c : EndId} {m : Message} {rest : List Message} (hin : s.inbox c = m :: rest)
    (hm : ∀ k v, m = .put k v → s'.Present k) (e : EndId) :
    Always (s'.FindsSegments F segs) (update s.inbox c rest e) := by
  by_cases he : e = c
  · subst he
    rw [update_self]
    have htail := (always_cons.1 (hin ▸ h.inbox e)).2
    intro l₁ m' l₂ heq k v hput hk sk hsk
    rcases htail l₁ m' l₂ heq k v hput hk sk hsk with hp | ⟨w, hw⟩
    · exact .inl (hpresent sk hp)
    · rcases List.mem_cons.1 hw with hw | hw
      · exact .inl (hm sk w hw.symm)
      · exact .inr ⟨w, hw⟩
  · rw [update_of_ne he]
    exact Published.always_mono (h.inbox e) hpresent

/-- A message that enters a channel. -/
theorem Published.push (h : Published F segs s) (hpresent : ∀ k, s.Present k → s'.Present k)
    {c : EndId} {m : Message} (hm : s.FindsSegments F segs (s.inbox c.peer) m) (e : EndId) :
    Always (s'.FindsSegments F segs) ((s.send c m).inbox e) := by
  by_cases he : e = c.peer
  · subst he
    rw [State.send_inbox, update_self]
    refine (Published.always_mono (h.inbox _) hpresent).append (always_cons.2 ⟨?_, always_nil⟩)
    exact hm.mono hpresent fun _ h => by simpa using h
  · rw [State.send_inbox, update_of_ne he]
    exact Published.always_mono (h.inbox e) hpresent

/-- A put applied leaves the keys named in place, if it finds them. -/
theorem Published.store_put (h : Published F segs s) {k : Key} {v : Value}
    (hlookup : ∀ k', s'.lookup k'.node k' = update (fun k => s.lookup k.node k) k (some v) k')
    (hpresent : ∀ k, s.Present k → s'.Present k) (hv : k ∈ F → ∀ sk ∈ segs v, s.Present sk) :
    ∀ k' v', k' ∈ F → s'.lookup k'.node k' = some v' → ∀ sk ∈ segs v', s'.Present sk := by
  intro k' v' hF hl sk hsk
  rw [hlookup] at hl
  by_cases hk : k' = k
  · subst hk
    rw [update_self, Option.some.injEq] at hl
    subst hl
    exact hpresent sk (hv hF sk hsk)
  · rw [update_of_ne hk] at hl
    exact hpresent sk (h.store k' v' hF hl sk hsk)

theorem Move.published (h : Move n s a s' ev) (hok : SegmentsFirst F segs a s)
    (hp : Published F segs s) : Published F segs s' := by
  have hpresent : ∀ k, s.Present k → s'.Present k := fun k => h.present
  -- a message other than the put of a value at a key of `F` finds what it names
  have other {l : List Message} {m : Message} (hm : ∀ k v, m ≠ .put k v) :
      s.FindsSegments F segs l m := fun k v h => absurd h (hm k v)
  have hlookup := h.lookup
  cases h with
  | @putLocal i k v next hprog hph hk =>
    exact ⟨hp.store_put hlookup hpresent fun hF => (hok i k v next rfl hprog hF).1 hph hk,
      fun c => Published.always_mono (hp.inbox c) hpresent⟩
  | @sendPut i k v next c hprog hph =>
    refine ⟨fun k' v' hF hl sk hsk => hpresent sk (hp.store k' v' hF hl sk hsk), fun e =>
      hp.push hpresent (fun k' v' hm hF sk hsk => ?_) e⟩
    obtain ⟨rfl, rfl⟩ := Message.put.inj hm
    exact (hok i k v next rfl hprog hF).2 c hph sk hsk
  | @servePut c k v rest hh hin hk =>
    have hfind := (always_cons.1 (hin ▸ hp.inbox c)).1
    refine ⟨hp.store_put hlookup hpresent fun hF sk hsk => ?_, fun e =>
      hp.pop hpresent hin (fun k' v' hm => ?_) e⟩
    · exact (hfind k v rfl hF sk hsk).resolve_right fun ⟨w, hw⟩ => by cases hw
    · obtain ⟨rfl, rfl⟩ := Message.put.inj hm
      rw [State.Present, hlookup]
      simp [applied]
  | sendRead _ _ hr =>
    exact ⟨fun k v hF hl sk hsk => hpresent sk (hp.store k v hF hl sk hsk), fun e =>
      hp.push hpresent (other (Op.message_ne_put hr)) e⟩
  | reply =>
    exact ⟨fun k v hF hl sk hsk => hpresent sk (hp.store k v hF hl sk hsk), fun e =>
      hp.push hpresent (other (by simp)) e⟩
  | recvReply _ hin =>
    exact ⟨fun k v hF hl sk hsk => hpresent sk (hp.store k v hF hl sk hsk), fun e =>
      hp.pop hpresent hin (by simp) e⟩
  | serveDeleted _ hin _ hf =>
    exact ⟨fun k v hF hl sk hsk => hpresent sk (hp.store k v hF hl sk hsk), fun e =>
      hp.pop hpresent hin (fun k v hm => absurd hm (Op.message_ne_put hf.isRead k v)) e⟩
  | serveRead _ hin hr =>
    exact ⟨fun k v hF hl sk hsk => hpresent sk (hp.store k v hF hl sk hsk), fun e =>
      hp.pop hpresent hin (fun k v hm => absurd hm (Op.message_ne_put hr k v)) e⟩
  | _ =>
    exact ⟨fun k v hF hl sk hsk => hpresent sk (hp.store k v hF hl sk hsk), fun e =>
      Published.always_mono (hp.inbox e) hpresent⟩

theorem init_published (n : Nat) (progs : Nat → Prog Key Value Unit) :
    Published F segs (init n progs) where
  store _ _ _ h := by cases h
  inbox _ := always_nil

theorem published_of_run {progs : Nat → Prog Key Value Unit}
    (h : Trace.Run (step n) (SegmentsFirst F segs) (init n progs) l s) : Published F segs s :=
  h.invariant_of (Q := fun _ s => WF n s) wf_of_run (fun _ => Published F segs)
    (init_published n progs)
    fun wf hp hok hstep => (step_move wf hstep).published hok hp

/-! ## What the readers find -/

/-- The keys named by the values at the keys of `F` are in the store, in terms of
    the history. -/
theorem isSome_contents_of_run {progs : Nat → Prog Key Value Unit}
    (h : Trace.Run (step n) (SegmentsFirst F segs) (init n progs) l s) {k : Key} {v : Value}
    (hF : k ∈ F) (hk : s.lookup k.node k = some v) {sk : Key} (hsk : sk ∈ segs v) :
    (contents l sk).isSome := by
  obtain ⟨m, hm, hR⟩ := refines_of_run h
  rw [← hm.map, hR.map]
  exact (published_of_run h).store k v hF hk sk hsk

/-- When a value of a key of `F` is served, the keys it names are in the store. -/
theorem serve_finds_of_run {progs : Nat → Prog Key Value Unit}
    (h : Trace.Run (step n) (SegmentsFirst F segs) (init n progs) l s) :
    Always (fun l e => ∀ i op v, e = .serve i op v → op.key ∈ F → ∀ sk ∈ segs v,
      (contents l sk).isSome) l := by
  refine h.always fun {l s a s' ev} hr _ hstep => ?_
  cases step_move (wf_of_run hr) hstep with
  | @readLocal i op v hop hph hk hread hv =>
    refine always_cons.2 ⟨by simp, always_cons.2 ⟨fun i' op' v' he hF sk hsk => ?_,
      always_cons.2 ⟨by simp, always_nil⟩⟩⟩
    obtain ⟨rfl, rfl, rfl⟩ := Event.serve.inj he
    rw [contents, applied_append]
    exact isSome_applied (isSome_contents_of_run hr hF (hk ▸ hv) hsk) _
  | @serveRead c op v rest hh hin hread hk hv =>
    refine always_cons.2 ⟨fun i' op' v' he hF sk hsk => ?_, always_nil⟩
    obtain ⟨rfl, rfl, rfl⟩ := Event.serve.inj he
    rw [List.append_nil]
    exact isSome_contents_of_run hr hF (hk ▸ hv) hsk
  | putLocal => exact always_cons.2 ⟨by simp, always_cons.2 ⟨by simp, always_nil⟩⟩
  | deletedLocal =>
    exact always_cons.2 ⟨by simp, always_cons.2 ⟨by simp, always_cons.2 ⟨by simp, always_nil⟩⟩⟩
  | sendPut | sendRead | returned | servePut | serveDeleted | missingLocal | missing =>
    exact always_cons.2 ⟨by simp, always_nil⟩
  | _ => exact always_nil

/-- Once a read of a key of `F` has returned, the keys named by the value are in
    the store and no `get` of them fails. -/
theorem readable_of_run {progs : Nat → Prog Key Value Unit}
    (h : Trace.Run (step n) (fun a s => SegmentsFirst F segs a s ∧ Intact {p | p.2 ∈ F} a s)
      (init n progs) l s)
    {l₁ l₂ : List Event} {i : Nat} {op : Op} {v : Value} (hl : l = l₁ ++ .return i op v :: l₂)
    (hF : op.key ∈ F) {sk : Key} (hsk : sk ∈ segs v) :
    s.Present sk ∧ ∀ j j', .missing j j' sk ∉ l₂ := by
  obtain ⟨m, hm, hR⟩ := refines_of_run h
  subst hl
  have hfirst : Trace.Run (step n) (SegmentsFirst F segs) (init n progs) _ s :=
    h.mono fun _ _ => And.left
  have hmem : (i, op.key) ∈ {p : Nat × Key | p.2 ∈ F} := hF
  have hdel := not_deleted_of_run (h.mono fun _ _ => And.right) hmem v
  obtain ⟨l₃, l₄, l₅, rfl, -, -, -⟩ :=
    hm.return_answered.served fun hmem => hdel (List.mem_append_left _ hmem)
  have hserved := serve_finds_of_run hfirst (l₃ ++ .request i op :: l₄) (.serve i op v)
    (l₅ ++ .return i op v :: l₂) (by simp) i op v rfl hF sk hsk
  -- from the moment the value is served on, the key is in the map
  have hlater (l' : List Event) :
      (contents (l₃ ++ .request i op :: l₄ ++ .serve i op v :: l') sk).isSome := by
    rw [contents, applied_append]
    exact isSome_applied hserved _
  refine ⟨?_, fun j j' hmem => ?_⟩
  · have := hlater (l₅ ++ .return i op v :: l₂)
    rw [State.Present, ← hR.map, hm.map]
    simpa using this
  · obtain ⟨l₆, l₇, rfl⟩ := List.mem_iff_append.1 hmem
    have hnone := MapSpec.Allows.contents_of_missing (m := m) (k := sk) (i := j) (j := j')
      (l := l₃ ++ .request i op :: l₄ ++ .serve i op v :: (l₅ ++ .return i op v :: l₆))
      (by simpa using hm)
    have := hlater (l₅ ++ .return i op v :: l₆)
    rw [hnone] at this
    cases this

end Publication

end Eau2.Network

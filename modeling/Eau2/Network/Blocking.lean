import Eau2.Network.Duplex

/-!
# When two senders block each other

While a thread sends, it has the lock that the handler of its side needs to read.
So when both sides send, nobody reads, and what is left to write on either side has
to fit into the room of the socket. Nor does a handler read while it waits for a key,
and what comes to its side waits with it.

* `stuck_of_not_live`: the threads wait for ever only if both sides are in the middle of
  sending, and no room is left in either direction, or if something is on its way to a
  handler that waits in vain;
* `Stuck.move`, `Unheard.move`: neither can be undone.
-/

namespace Eau2.Duplex

open Trace

variable {σ π : Type} {cap : Bool → ℕ+} {node : Bool → Node σ π} {s t : State σ π} {a : Action}

/-- What the side `b` is sending fits into the room. -/
def Fits (cap : Bool → ℕ+) (s : State σ π) (b : Bool) : Prop :=
  (s.side b).lock.left.length ≤ s.room cap b

/-- A thread of the side `b` takes the lock to send the message `m` only if it fits, or
    what the other side is sending does. -/
def MaySend (cap : Bool → ℕ+) (s : State σ π) (b : Bool) (m : Packet) : Prop :=
  m.framed.length ≤ s.room cap b ∨ Fits cap s (!b)

/-- The store after what an application does. -/
def Task.store (nd : Node σ π) (st : σ) : Task π → σ
  | send _ => st
  | put p => nd.put p st

/-- The store once the application has made all its puts. -/
def Side.settled (nd : Node σ π) (d : Side σ π) : σ := d.tasks.foldl (Task.store nd) d.store

/-- The handler reads no more: it waits for what its application does not put, or its
    loop has ended. -/
def Deaf (node : Bool → Node σ π) (s : State σ π) (b : Bool) : Prop :=
  (s.side b).handler = .ended ∨ ∃ w, (s.side b).handler = .handling w ∧
    (node b).handle ((s.side b).settled (node b)) w = .wait

/-- The condition on a move. -/
def Careful (cap : Bool → ℕ+) (node : Bool → Node σ π) : Action → State σ π → Prop
  | .send b, s => ∀ m rest, (s.side b).tasks = .send m :: rest → MaySend cap s b m
  | .reply b, s => ∀ m, (s.side b).handler = .replying m → MaySend cap s b m
  | .write b _, s => ¬ Deaf node s (!b)
  -- the handler has the message `acc'`, and there is more to read
  | .read b k, s => ∀ acc acc', (s.side b).lock = .receiving acc →
    acc' = acc ++ (s.channel (!b)).take k → Complete acc' → k < (s.channel (!b)).length →
      (node b).handle ((s.side b).settled (node b)) (acc'.drop 8) ≠ .wait
  | .handle b, s => ∀ w, (s.side b).handler = .handling w →
    (node b).handle (s.side b).store w = .ends → s.channel (!b) = []
  | .receive _, _ | .put _, _ => True

instance (o : Outcome σ) : Decidable (o = .wait) :=
  match o with
  | .wait => isTrue rfl
  | .done _ _ | .ends => isFalse nofun

instance (o : Outcome σ) : Decidable (o = .ends) :=
  match o with
  | .ends => isTrue rfl
  | .done _ _ | .wait => isFalse nofun

/-- The side whose thread moves. -/
def Action.side : Action → Bool
  | send b | reply b | receive b | write b _ | read b _ | put b | handle b => b

/-- What a move does. -/
inductive Move (cap : Bool → ℕ+) (node : Bool → Node σ π) (s : State σ π) :
    Action → State σ π → Prop
  | send {b : Bool} {m : Packet} {rest : List (Task π)} : (s.side b).lock = .free →
      (s.side b).tasks = .send m :: rest → Move cap node s (.send b) (s.setSide b
        { s.side b with tasks := rest, lock := .sending .application m.framed })
  | reply {b : Bool} {m : Packet} : (s.side b).lock = .free → (s.side b).handler = .replying m →
      Move cap node s (.reply b) (s.setSide b
        { s.side b with handler := .idle, lock := .sending .handler m.framed })
  | receive {b : Bool} : (s.side b).lock = .free → (s.side b).handler = .idle →
      s.channel (!b) ≠ [] → Move cap node s (.receive b) (s.setSide b
        { s.side b with lock := .receiving [] })
  | write {b : Bool} {k : Nat} {who : Thread} {w : Bytes} {lock : Lock} :
      (s.side b).lock = .sending who w → 0 < k → k ≤ w.length → k ≤ s.room cap b →
      lock = (if w.drop k = [] then .free else .sending who (w.drop k)) →
      Move cap node s (.write b k) ((s.setChannel b (s.channel b ++ w.take k)).setSide b
        { s.side b with lock := lock })
  | read {b : Bool} {k : Nat} {acc : Bytes} : (s.side b).lock = .receiving acc → 0 < k →
      k ≤ wanted acc → k ≤ (s.channel (!b)).length →
      ¬ Complete (acc ++ (s.channel (!b)).take k) →
      Move cap node s (.read b k) ((s.setChannel (!b) ((s.channel (!b)).drop k)).setSide b
        { s.side b with lock := .receiving (acc ++ (s.channel (!b)).take k) })
  | message {b : Bool} {k : Nat} {acc acc' : Bytes} : (s.side b).lock = .receiving acc → 0 < k →
      k ≤ wanted acc → k ≤ (s.channel (!b)).length → acc' = acc ++ (s.channel (!b)).take k →
      Complete acc' →
      Move cap node s (.read b k) ((s.setChannel (!b) ((s.channel (!b)).drop k)).setSide b
        { s.side b with handler := .handling (acc'.drop 8), lock := .free })
  | put {b : Bool} {p : π} {rest : List (Task π)} : (s.side b).tasks = .put p :: rest →
      (s.side b).lock.sender ≠ some .application → Move cap node s (.put b) (s.setSide b
        { s.side b with tasks := rest, store := (node b).put p (s.side b).store })
  | handle {b : Bool} {w : Bytes} {st : σ} {reply : Option Packet} :
      (s.side b).handler = .handling w → (node b).handle (s.side b).store w = .done st reply →
      Move cap node s (.handle b) (s.setSide b
        { s.side b with store := st, handler := reply.elim .idle .replying })
  | ends {b : Bool} {w : Bytes} : (s.side b).handler = .handling w →
      (node b).handle (s.side b).store w = .ends →
      Move cap node s (.handle b) (s.setSide b { s.side b with handler := .ended })

theorem move_of_step (h : step cap node a s = some t) : Move cap node s a t := by
  cases a with
  | send b =>
    simp only [step] at h
    split at h
    · next m rest hlock htasks =>
      cases h
      exact .send hlock htasks
    · cases h
  | reply b =>
    simp only [step] at h
    split at h
    · next m hlock hreply =>
      cases h
      exact .reply hlock hreply
    · cases h
  | receive b =>
    simp only [step] at h
    split at h
    · next hlock hidle =>
      obtain ⟨hne, h⟩ := Option.ite_none_left_eq_some.1 h
      cases h
      exact .receive hlock hidle hne
    · cases h
  | write b k =>
    simp only [step] at h
    split at h
    · next who w hlock =>
      obtain ⟨⟨hpos, hk, hroom⟩, h⟩ := Option.ite_none_right_eq_some.1 h
      cases h
      exact .write hlock hpos hk hroom rfl
    · cases h
  | read b k =>
    simp only [step] at h
    split at h
    · next acc hlock =>
      obtain ⟨⟨hpos, hk, hk'⟩, h⟩ := Option.ite_none_right_eq_some.1 h
      cases h
      split_ifs with hc
      · exact .message hlock hpos hk hk' rfl hc
      · exact .read hlock hpos hk hk' hc
    · cases h
  | put b =>
    simp only [step] at h
    split at h
    · next p rest htasks =>
      obtain ⟨hsender, h⟩ := Option.ite_none_left_eq_some.1 h
      cases h
      exact .put htasks hsender
    · cases h
  | handle b =>
    simp only [step] at h
    split at h
    · next w hhandler =>
      split at h
      · cases h
      · next st reply hdone =>
        cases h
        exact .handle hhandler hdone
      · next hends =>
        cases h
        exact .ends hhandler hends
    · cases h

/-- The other side stays as it is, and what is on its way from this one is still on its
    way. -/
theorem Move.other (h : Move cap node s a t) :
    t.side (!a.side) = s.side (!a.side) ∧ s.channel a.side <+: t.channel a.side := by
  cases h with
  | @write b k who w lock _ _ _ _ _ =>
    simp [Action.side]
  | @read b k _ _ _ _ _ _ | @message b k _ _ _ _ _ _ _ _ =>
    simp [Action.side, (Bool.not_ne_self b).symm]
  | send _ _ | reply _ _ | receive _ _ _ | put _ _ | handle _ _ | ends _ _ =>
    simp [Action.side]

/-! ## The stream in each direction -/

/-- The bytes between the two sides are whole messages, the lock is not kept when all is
    written, and the handler that receives is at no message. -/
structure Inv (s : State σ π) : Prop where
  flow : ∀ b, Flow (s.side (!b)).lock.acc (s.channel b) (s.side b).lock.left
  sending : ∀ b who w, (s.side b).lock = .sending who w → w ≠ []
  receiving : ∀ b w, (s.side b).lock = .receiving w → (s.side b).handler = .idle

theorem inv_init (tasks : Bool → List (Task π)) (store : Bool → σ) : Inv (init tasks store) :=
  ⟨fun _ => .nil, nofun, nofun⟩

/-- The other side, and the direction from it. -/
theorem eq_or_eq_not (b c : Bool) : c = b ∨ c = !b := by
  cases b <;> cases c <;> simp

/-- The lock after a `write`. -/
theorem lock_write {who : Thread} {w : Bytes} {k : Nat} {lock : Lock}
    (h : lock = if w.drop k = [] then .free else .sending who (w.drop k)) :
    lock.left = w.drop k ∧ lock.acc = none := by
  split_ifs at h with hnil
  · rw [h, hnil]
    exact ⟨rfl, rfl⟩
  · rw [h]
    exact ⟨rfl, rfl⟩

/-- The two directions, when the lock of the side `b` is known. -/
theorem Inv.flows (h : Inv s) {b : Bool} {lock : Lock} (hlock : (s.side b).lock = lock) :
    Flow (s.side (!b)).lock.acc (s.channel b) lock.left ∧
      Flow lock.acc (s.channel (!b)) (s.side (!b)).lock.left := by
  have hflow := h.flow (!b)
  rw [Bool.not_not] at hflow
  exact hlock ▸ ⟨h.flow b, hflow⟩

/-- What is to be checked when the side `b` moves. -/
theorem Inv.of_side (h : Inv s) (b : Bool) (hother : t.side (!b) = s.side (!b))
    (hflow : Flow (s.side (!b)).lock.acc (t.channel b) (t.side b).lock.left)
    (hflow' : Flow (t.side b).lock.acc (t.channel (!b)) (s.side (!b)).lock.left)
    (hsending : ∀ who w, (t.side b).lock = .sending who w → w ≠ [])
    (hreceiving : ∀ w, (t.side b).lock = .receiving w → (t.side b).handler = .idle) : Inv t := by
  constructor
  · intro c
    rcases eq_or_eq_not b c with rfl | rfl
    · rwa [hother]
    · rwa [hother, Bool.not_not]
  · intro c who w hw
    rcases eq_or_eq_not b c with rfl | rfl
    · exact hsending who w hw
    · rw [hother] at hw
      exact h.sending _ who w hw
  · intro c w hw
    rcases eq_or_eq_not b c with rfl | rfl
    · exact hreceiving w hw
    · rw [hother] at hw ⊢
      exact h.receiving _ w hw

/-- The lock and the channels stay as they are. -/
theorem Inv.of_lock {b : Bool} {d : Side σ π} (h : Inv s) (hlock : d.lock = (s.side b).lock)
    (hidle : ∀ w, d.lock = .receiving w → d.handler = .idle) : Inv (s.setSide b d) := by
  have hne : (!b) ≠ b := Bool.not_ne_self b
  obtain ⟨hflow, hflow'⟩ := h.flows hlock.symm
  refine h.of_side b (by simp [hne]) (by simpa using hflow) (by simpa using hflow')
    (fun who w hw => ?_) (fun w hw => ?_)
  · simp only [State.setSide_side, Function.update_self, hlock] at hw
    exact h.sending b who w hw
  · simp only [State.setSide_side, Function.update_self] at hw ⊢
    exact hidle w hw

/-- A thread takes the lock to send. -/
theorem Inv.begin {b : Bool} {d : Side σ π} {who : Thread} {m : Packet} (h : Inv s)
    (hlock : (s.side b).lock = .free) (hd : d.lock = .sending who m.framed) :
    Inv (s.setSide b d) := by
  have hne : (!b) ≠ b := Bool.not_ne_self b
  obtain ⟨hflow, hflow'⟩ := h.flows hlock
  refine h.of_side b (by simp [hne]) (by simpa [hd] using hflow.send m)
    (by simpa [hd] using hflow') (fun who' w hw => ?_) (fun w hw => ?_)
  · simp only [State.setSide_side, Function.update_self, hd, Lock.sending.injEq] at hw
    exact hw.2 ▸ m.framed_ne_nil
  · simp [hd] at hw

theorem Inv.move (h : Inv s) (hm : Move cap node s a t) : Inv t := by
  cases hm with
  | send hlock htasks => exact h.begin hlock rfl
  | reply hlock hreply => exact h.begin hlock rfl
  | @receive b hlock hidle hchan =>
    have hne : (!b) ≠ b := Bool.not_ne_self b
    obtain ⟨hflow, hflow'⟩ := h.flows hlock
    refine h.of_side b (by simp [hne]) (by simpa using hflow) (by simpa using hflow'.receive hchan)
      (fun who w hw => ?_) (fun w hw => ?_)
    · simp at hw
    · simpa using hidle
  | @write b k who w lock hlock hpos hk hroom hd =>
    have hne : (!b) ≠ b := Bool.not_ne_self b
    obtain ⟨hflow, hflow'⟩ := h.flows hlock
    obtain ⟨hleft, hacc⟩ := lock_write hd
    refine h.of_side b (by simp [hne]) (by simpa [hleft] using hflow.write k)
      (by simpa [hne, hacc] using hflow') (fun who' w' hw => ?_) (fun w' hw => ?_)
    · simp only [State.setSide_side, Function.update_self, hd] at hw
      split_ifs at hw with hnil
      cases hw
      exact hnil
    · simp only [State.setSide_side, Function.update_self, hd] at hw
      split_ifs at hw
  | @read b k acc hlock hpos hk hk' hc =>
    have hne : (!b) ≠ b := Bool.not_ne_self b
    obtain ⟨hflow, hflow'⟩ := h.flows hlock
    -- what is read of a message is no longer in the channel, and is kept until it is complete
    have hread := hflow'.read hk hk'
    rw [if_neg hc] at hread
    refine h.of_side b (by simp [hne]) (by simpa [hne.symm] using hflow) (by simpa using hread)
      (fun who w hw => ?_) (fun w hw => ?_)
    · simp at hw
    · simpa using h.receiving b acc hlock
  | @message b k acc acc' hlock hpos hk hk' hacc hc =>
    have hne : (!b) ≠ b := Bool.not_ne_self b
    obtain ⟨hflow, hflow'⟩ := h.flows hlock
    have hread := hflow'.read hk hk'
    rw [if_pos (hacc ▸ hc)] at hread
    refine h.of_side b (by simp [hne]) (by simpa [hne.symm] using hflow) (by simpa using hread)
      (fun who w hw => ?_) (fun w hw => ?_)
    · simp at hw
    · simp at hw
  | @put b p rest htasks hsender => exact h.of_lock rfl (h.receiving b)
  | @handle b w st reply hhandler hdone =>
    refine h.of_lock rfl fun w' hw => ?_
    rw [h.receiving b w' hw] at hhandler
    cases hhandler
  | @ends b w hhandler hends =>
    refine h.of_lock rfl fun w' hw => ?_
    rw [h.receiving b w' hw] at hhandler
    cases hhandler

/-- The stream is as it should be in every state reached. -/
theorem inv_of_run {ok : Action → State σ π → Prop} {l : List Empty} (h : Inv s)
    (hrun : Run (moves cap node) ok s l t) : Inv t := by
  refine hrun.invariant (fun _ s => Inv s) h fun hinv _ hs => ?_
  obtain ⟨t, ht, heq⟩ := Option.map_eq_some_iff.1 hs
  cases heq
  exact hinv.move (move_of_step ht)

/-! ## Who waits -/

/-- When the application has nothing left to do, its puts are made. -/
theorem settled_nil (nd : Node σ π) {d : Side σ π} (h : d.tasks = []) : d.settled nd = d.store := by
  rw [Side.settled, h, List.foldl_nil]

/-- What is waited for in the end is waited for before. -/
theorem wait_of_settled {nd : Node σ π} {d : Side σ π} {w : Bytes}
    (h : nd.handle (d.settled nd) w = .wait) : nd.handle d.store w = .wait := by
  obtain ⟨tasks, store, handler, lock⟩ := d
  rw [Side.settled] at h
  dsimp only at h ⊢
  induction tasks generalizing store with
  | nil => exact h
  | cons task tasks ih =>
    cases task with
    | send m => exact ih store h
    | put p => exact nd.lasting (ih _ h)

section

variable {b : Bool} (hnone : ∀ a, step cap node a s = none)
include hnone

/-- Nobody holds the lock: the application has nothing left to do, and the handler reads no
    more or waits for a message. -/
theorem waiting_of_free (hlock : (s.side b).lock = .free) :
    (s.side b).tasks = [] ∧ (∀ m, (s.side b).handler ≠ .replying m) ∧
      (Deaf node s b ∨ s.channel (!b) = []) := by
  have htasks : (s.side b).tasks = [] := by
    have hsend := hnone (.send b)
    have hput := hnone (.put b)
    simp only [step, hlock] at hsend hput
    cases htasks : (s.side b).tasks with
    | nil => rfl
    | cons task rest => cases task <;> simp [htasks, Lock.sender] at hsend hput
  have hreply (m : Packet) : (s.side b).handler ≠ .replying m := by
    intro hreply
    have hnoreply := hnone (.reply b)
    simp [step, hlock, hreply] at hnoreply
  refine ⟨htasks, hreply, ?_⟩
  cases hhandler : (s.side b).handler with
  | idle =>
    have hreceive := hnone (.receive b)
    simp only [step, hlock, hhandler] at hreceive
    exact Or.inr (by simpa using hreceive)
  | replying m => exact absurd hhandler (hreply m)
  | ended => exact Or.inl (Or.inl hhandler)
  | handling w =>
    -- no put is left that could end the wait
    refine Or.inl (Or.inr ⟨w, hhandler, ?_⟩)
    rw [settled_nil _ htasks]
    have hhandle := hnone (.handle b)
    simp only [step, hhandler] at hhandle
    split at hhandle
    · assumption
    · cases hhandle
    · cases hhandle

/-- Something is left to write, which one byte of room would let it. -/
theorem room_of_sending {who : Thread} {w : Bytes} (hlock : (s.side b).lock = .sending who w)
    (hw : w ≠ []) : s.room cap b = 0 := by
  by_contra hroom
  have hwrite := hnone (.write b 1)
  simp only [step, hlock] at hwrite
  rw [if_pos ⟨Nat.one_pos, List.length_pos_of_ne_nil hw, by omega⟩] at hwrite
  cases hwrite

/-- A message that is being received is not complete, so that a byte would be read. -/
theorem channel_of_receiving {w : Bytes} (hlock : (s.side b).lock = .receiving w)
    (hw : 0 < wanted w) : s.channel (!b) = [] := by
  by_contra hne
  have hread := hnone (.read b 1)
  simp only [step, hlock] at hread
  rw [if_pos ⟨Nat.one_pos, hw, List.length_pos_of_ne_nil hne⟩] at hread
  cases hread

end

/-- A side none of whose threads can move: it has nothing to do, or its handler reads no
    more, or it waits for room, or for bytes. -/
theorem waiting_of_not_live (h : Inv s) (hstuck : ¬ Live cap node s) (b : Bool) :
    ((s.side b).lock = .free ∧ (s.side b).tasks = [] ∧ (∀ m, (s.side b).handler ≠ .replying m) ∧
      (Deaf node s b ∨ s.channel (!b) = [])) ∨
    (∃ who w, (s.side b).lock = .sending who w ∧ s.room cap b = 0) ∨
    (∃ w, (s.side b).lock = .receiving w ∧ s.channel (!b) = []) := by
  have hnone (a : Action) : step cap node a s = none := by
    by_contra hsome
    exact hstuck ⟨a, Option.isSome_iff_ne_none.2 hsome⟩
  cases hlock : (s.side b).lock with
  | free => exact Or.inl ⟨rfl, waiting_of_free hnone hlock⟩
  | sending who w =>
    have hw := h.sending b who w hlock
    exact Or.inr (Or.inl ⟨who, w, rfl, room_of_sending hnone hlock hw⟩)
  | receiving w =>
    have hw := (h.flows hlock).2.wanted_pos
    exact Or.inr (Or.inr ⟨w, rfl, channel_of_receiving hnone hlock hw⟩)

/-- No room is left in a direction only if there is something to read in it. -/
theorem channel_ne_nil {b : Bool} (h : s.room cap b = 0) : s.channel b ≠ [] := by
  intro hnil
  have hpos := (cap b).pos
  rw [State.room, hnil, List.length_nil] at h
  omega

/-- Both sides are sending, and there is no room in either direction. -/
def Stuck (cap : Bool → ℕ+) (s : State σ π) : Prop :=
  ∀ b, ∃ who w, (s.side b).lock = .sending who w ∧ s.room cap b = 0

/-- Something is on its way to a handler that reads no more. -/
def Unheard (node : Bool → Node σ π) (s : State σ π) (b : Bool) : Prop :=
  Deaf node s b ∧ s.channel (!b) ≠ []

/-- When nobody moves and something is pending, both sides are sending without room, or
    something is on its way to a handler that reads no more: were a side idle, or
    receiving, the other side would have put something in the channel. -/
theorem stuck_of_not_live (h : Inv s) (hp : s.Pending) (hstuck : ¬ Live cap node s)
    (hheard : ∀ b, ¬ Unheard node s b) : Stuck cap s := by
  intro b
  have hempty {c : Bool} (hc : Deaf node s c ∨ s.channel (!c) = []) : s.channel (!c) = [] := by
    by_contra hne
    exact hheard c ⟨hc.resolve_right hne, hne⟩
  have hb := waiting_of_not_live h hstuck b
  have hb' := waiting_of_not_live h hstuck (!b)
  have hempty' := hempty (c := !b)
  rw [Bool.not_not] at hb' hempty'
  have hflow := h.flow b
  have hflow' := h.flow (!b)
  rw [Bool.not_not] at hflow'
  rcases hb with ⟨hlock, htasks, hreply, hchan⟩ | hsending | ⟨w, hlock, hchan⟩
  · rcases hb' with ⟨hlock', htasks', hreply', hchan'⟩ | ⟨who, w, hlock', hroom⟩ |
      ⟨w, hlock', hchan'⟩
    · obtain ⟨c, hc⟩ := hp
      rcases eq_or_eq_not b c with rfl | rfl
      · simp [hlock, htasks, hreply, hempty' hchan'] at hc
      · simp [hlock', htasks', hreply', hempty hchan] at hc
    · exact absurd (hempty hchan) (channel_ne_nil hroom)
    · -- The other side is in the middle of a message of which nothing is on its way.
      rw [hlock, hlock'] at hflow
      exact absurd (by rw [hchan']; rfl) hflow.ne_nil
  · exact hsending
  · rcases hb' with ⟨hlock', -, -, -⟩ | ⟨who, w', hlock', hroom⟩ | ⟨w', hlock', -⟩
    · rw [hlock, hlock'] at hflow'
      exact absurd (by rw [hchan]; rfl) hflow'.ne_nil
    · exact absurd hchan (channel_ne_nil hroom)
    · rw [hlock, hlock'] at hflow'
      exact absurd (by rw [hchan]; rfl) hflow'.ne_nil

/-! ## What cannot be undone -/

theorem Stuck.of_lock {b : Bool} {d : Side σ π} (h : Stuck cap s)
    (hlock : d.lock = (s.side b).lock) : Stuck cap (s.setSide b d) := by
  intro c
  obtain ⟨who, w, hsending, hroom⟩ := h c
  refine ⟨who, w, ?_, hroom⟩
  rcases eq_or_eq_not b c with rfl | rfl
  · simpa [hlock] using hsending
  · simpa [Bool.not_ne_self] using hsending

/-- Sides that are sending without room stay so, whatever else moves. -/
theorem Stuck.move (h : Stuck cap s) (hm : Move cap node s a t) :
    Stuck cap t ∧ ∀ b, a ≠ .receive b ∧ ∀ k, a ≠ .read b k := by
  have hsending {b : Bool} {lock : Lock} (hlock : (s.side b).lock = lock)
      (hne : ∀ who w, lock ≠ .sending who w) : False := by
    obtain ⟨who, w, hw, -⟩ := h b
    exact hne who w (hlock.symm.trans hw)
  cases hm with
  | put _ _ | handle _ _ | ends _ _ => exact ⟨h.of_lock rfl, fun _ => ⟨nofun, nofun⟩⟩
  | send hlock _ | reply hlock _ | receive hlock _ _ | read hlock _ _ _ _
  | message hlock _ _ _ _ _ => exact (hsending hlock nofun).elim
  | @write b k who w lock _ hpos _ hle _ =>
    obtain ⟨-, -, -, hroom⟩ := h b
    omega

/-- The puts that are left are those that were left, and the one that is made. -/
theorem deaf_congr {b : Bool} (hhandler : (t.side b).handler = (s.side b).handler)
    (hsettled : (t.side b).settled (node b) = (s.side b).settled (node b)) :
    Deaf node t b ↔ Deaf node s b := by
  rw [Deaf, Deaf, hhandler, hsettled]

/-- What its own side does to a handler that reads no more: nothing, unless the handler
    moves, which it does not. -/
theorem Deaf.move (h : Deaf node s a.side) (hinv : Inv s) (hm : Move cap node s a t) :
    Deaf node t a.side ∧ t.channel (!a.side) = s.channel (!a.side) ∧
      ∀ b, b = a.side → a ≠ .receive b ∧ ∀ k, a ≠ .read b k := by
  have hbusy : (s.side a.side).handler ≠ .idle := by
    rintro hidle
    rcases h with hended | ⟨w, hhandling, -⟩
    · cases hidle.symm.trans hended
    · cases hidle.symm.trans hhandling
  cases hm with
  | @send b m rest hlock htasks =>
    refine ⟨(deaf_congr ?_ ?_).2 h, rfl, fun _ _ => ⟨nofun, nofun⟩⟩
    · simp [Action.side]
    · simp [Side.settled, htasks, Task.store, Action.side]
  | @put b p rest htasks hsender =>
    refine ⟨(deaf_congr ?_ ?_).2 h, rfl, fun _ _ => ⟨nofun, nofun⟩⟩
    · simp [Action.side]
    · simp [Side.settled, htasks, Task.store, Action.side]
  | @write b k who w lock hlock hpos hk hroom hd =>
    refine ⟨(deaf_congr ?_ ?_).2 h, ?_, fun _ _ => ⟨nofun, nofun⟩⟩
    · simp [Action.side]
    · simp [Side.settled, Action.side]
    · simp [Action.side]
  | @reply b m hlock hreply =>
    rcases h with hended | ⟨w, hhandling, -⟩
    · cases hreply.symm.trans hended
    · cases hreply.symm.trans hhandling
  | @handle b w st reply hhandler hdone =>
    rcases h with hended | ⟨w', hhandling, hwait⟩
    · cases hhandler.symm.trans hended
    · cases hhandler.symm.trans hhandling
      cases hdone.symm.trans (wait_of_settled hwait)
  | @ends b w hhandler hends =>
    rcases h with hended | ⟨w', hhandling, hwait⟩
    · cases hhandler.symm.trans hended
    · cases hhandler.symm.trans hhandling
      cases hends.symm.trans (wait_of_settled hwait)
  | @receive b hlock hidle hchan => exact absurd hidle hbusy
  | @read b k acc hlock _ _ _ _ => exact absurd (hinv.receiving b acc hlock) hbusy
  | @message b k acc acc' hlock _ _ _ _ _ => exact absurd (hinv.receiving b acc hlock) hbusy

theorem Unheard.move {b : Bool} (h : Unheard node s b) (hinv : Inv s) (hm : Move cap node s a t) :
    Unheard node t b ∧ a ≠ .receive b ∧ ∀ k, a ≠ .read b k := by
  obtain ⟨hdeaf, hne⟩ := h
  rcases eq_or_eq_not a.side b with hb | hb
  · obtain ⟨hdeaf', hchan, hmoves⟩ := (hb ▸ hdeaf : Deaf node s a.side).move hinv hm
    exact ⟨⟨hb ▸ hdeaf', by rwa [hb, hchan, ← hb]⟩, hmoves b hb⟩
  · obtain ⟨hside, hchan⟩ := hm.other
    refine ⟨⟨(deaf_congr (hb ▸ congrArg Side.handler hside)
      (hb ▸ congrArg (Side.settled _) hside)).2 hdeaf, ?_⟩, ?_, fun k => ?_⟩
    · rw [hb, Bool.not_not] at hne ⊢
      exact hchan.ne_nil hne
    · rintro rfl
      simp [Action.side] at hb
    · rintro rfl
      simp [Action.side] at hb

end Eau2.Duplex

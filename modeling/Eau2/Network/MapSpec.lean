import Eau2.Network.System

/-!
# One map

What the nodes together are meant to be: one map from keys to values, the name
and the node of a key counting both. A put takes effect at some point after it
is called; a node that reads asks for a value, is served the value the map has
at that point, and gets it back, and does nothing else in the meantime. Where the
home of the key clones a deleted `Value`, the specification knows that the map
had something at the key, and nothing of the value.

`MapSpec` is the state of this specification and `MapSpec.next` what each event
does to it, or `none` where the event is not allowed. What the specification
says of a history is read off in terms of the history itself: `contents`, the
puts applied, and `ServedFrom` and `DeletedFrom`, where a value returned comes
from.
-/

namespace Eau2.Network

open Function Trace

/-- Where a node stands in a read. -/
inductive Reading
  | idle
  | requested (op : Op)
  | served (op : Op) (v : Value)
  deriving DecidableEq

/-- One map, with the puts that have been called and have not taken effect, and
    the reads of the nodes. -/
structure MapSpec where
  map : Key → Option Value
  pending : Nat → Key → Value → Nat
  reading : Nat → Reading

namespace MapSpec

/-- The empty map. -/
def init : MapSpec where
  map _ := none
  pending _ _ _ := 0
  reading _ := .idle

/-- The number of pending puts of `v` at `k` by `i` becomes `c`. -/
def setPending (m : MapSpec) (i : Nat) (k : Key) (v : Value) (c : Nat) : MapSpec :=
  { m with pending := update m.pending i (update (m.pending i) k (update (m.pending i k) v c)) }

@[simp] theorem setPending_self (m : MapSpec) (i : Nat) (k : Key) (v : Value) (c : Nat) :
    (m.setPending i k v c).pending i k v = c := by
  simp [setPending]

theorem setPending_of_ne (m : MapSpec) {i i' : Nat} {k k' : Key} {v v' : Value} (c : Nat)
    (h : ¬(i = i' ∧ k = k' ∧ v = v')) :
    (m.setPending i k v c).pending i' k' v' = m.pending i' k' v' := by
  by_cases hi : i' = i
  · by_cases hk : k' = k
    · have hv : v' ≠ v := fun hv => h ⟨hi.symm, hk.symm, hv.symm⟩
      simp [setPending, hi, hk, hv]
    · simp [setPending, hi, hk]
  · simp [setPending, hi]

/-- The map has `v` at `k`. -/
def setMap (m : MapSpec) (k : Key) (v : Value) : MapSpec :=
  { m with map := update m.map k (some v) }

@[simp] theorem setMap_pending (m : MapSpec) (k : Key) (v : Value) :
    (m.setMap k v).pending = m.pending := rfl

/-- The node `i` goes to the state `r` of a read. -/
def setReading (m : MapSpec) (i : Nat) (r : Reading) : MapSpec :=
  { m with reading := update m.reading i r }

/-- What an event does to the map, if it is allowed. -/
def next (m : MapSpec) : Event → Option MapSpec
  | .issue i k v =>
    if m.reading i = .idle then some (m.setPending i k v (m.pending i k v + 1)) else none
  | .apply i j k v =>
    if j = k.node ∧ 0 < m.pending i k v then
      some ((m.setPending i k v (m.pending i k v - 1)).setMap k v)
    else none
  | .request i op => if m.reading i = .idle then some (m.setReading i (.requested op)) else none
  | .serve i op v =>
    if m.reading i = .requested op ∧ m.map op.key = some v then
      some (m.setReading i (.served op v))
    else none
  | .deleted i op v =>
    if m.reading i = .requested op ∧ (m.map op.key).isSome then
      some (m.setReading i (.served op v))
    else none
  | .return i op v =>
    if m.reading i = .served op v then some (m.setReading i .idle) else none
  | .missing _ j k => if j = k.node ∧ m.map k = none then some m else none

end MapSpec

/-! ## Histories -/

/-- What the puts applied in `l` make of the map `m`. -/
def applied (m : Key → Option Value) (l : List Event) : Key → Option Value :=
  l.foldl (fun m e => match e with
    | .apply _ _ k v => update m k (some v)
    | _ => m) m

/-- The map that the puts applied in a history make. -/
def contents (l : List Event) : Key → Option Value := applied (fun _ => none) l

/-- The event belongs to a put of the node `i`, or to a read of it which has not failed. -/
def Event.IsCallOf (i : Nat) : Event → Prop
  | issue j _ _ | request j _ | serve j _ _ | deleted j _ _ | .return j _ _ => j = i
  | apply _ _ _ _ | missing _ _ _ => False

/-- The last call of the node `i` in the history `l` is the read `op`, and it has
    been served the value `v` that the puts applied by then had given to the key. -/
def ServedFrom (l : List Event) (i : Nat) (op : Op) (v : Value) : Prop :=
  ∃ l₁ l₂ l₃, l = l₁ ++ .request i op :: (l₂ ++ .serve i op v :: l₃) ∧
    (∀ e ∈ l₂, ¬e.IsCallOf i) ∧ (∀ e ∈ l₃, ¬e.IsCallOf i) ∧
    contents (l₁ ++ .request i op :: l₂) op.key = some v

/-- The last call of the node `i` in the history `l` is the read `op`, and it has
    been given the value `v` of a `Value` deleted by then, when the puts applied
    had given the key some value. -/
def DeletedFrom (l : List Event) (i : Nat) (op : Op) (v : Value) : Prop :=
  ∃ l₁ l₂ l₃, l = l₁ ++ .request i op :: (l₂ ++ .deleted i op v :: l₃) ∧
    (∀ e ∈ l₂, ¬e.IsCallOf i) ∧ (∀ e ∈ l₃, ¬e.IsCallOf i) ∧
    (contents (l₁ ++ .request i op :: l₂) op.key).isSome

/-- The last call of the node `i` in the history `l` is the read `op`, and its
    answer is `v`. -/
def AnsweredFrom (l : List Event) (i : Nat) (op : Op) (v : Value) : Prop :=
  ServedFrom l i op v ∨ DeletedFrom l i op v

theorem applied_append (m : Key → Option Value) (l l' : List Event) :
    applied m (l ++ l') = applied (applied m l) l' := by
  rw [applied, applied, applied, List.foldl_append]

/-- Puts never remove a key. -/
theorem isSome_applied {m : Key → Option Value} {k : Key} (h : (m k).isSome) (l : List Event) :
    (applied m l k).isSome := by
  induction l using List.reverseRecOn with
  | nil => exact h
  | append_singleton l e ih =>
    rw [applied_append]
    cases e with
    | apply i j k' v =>
      by_cases hk : k = k'
      · simp [applied, hk]
      · have : applied (applied m l) [.apply i j k' v] k = applied m l k := update_of_ne hk _ _
        rwa [this]
    | _ => exact ih

/-- An event that does not belong to a call of `i` leaves its read where it was. -/
theorem ServedFrom.append {l : List Event} {i : Nat} {op : Op} {v : Value} {e : Event}
    (h : ServedFrom l i op v) (he : ¬e.IsCallOf i) : ServedFrom (l ++ [e]) i op v := by
  obtain ⟨l₁, l₂, l₃, rfl, h₂, h₃, hc⟩ := h
  refine ⟨l₁, l₂, l₃ ++ [e], by simp, h₂, fun e' he' => ?_, hc⟩
  rcases List.mem_append.1 he' with he' | he'
  · exact h₃ e' he'
  · rwa [List.mem_singleton.1 he']

theorem DeletedFrom.append {l : List Event} {i : Nat} {op : Op} {v : Value} {e : Event}
    (h : DeletedFrom l i op v) (he : ¬e.IsCallOf i) : DeletedFrom (l ++ [e]) i op v := by
  obtain ⟨l₁, l₂, l₃, rfl, h₂, h₃, hc⟩ := h
  refine ⟨l₁, l₂, l₃ ++ [e], by simp, h₂, fun e' he' => ?_, hc⟩
  rcases List.mem_append.1 he' with he' | he'
  · exact h₃ e' he'
  · rwa [List.mem_singleton.1 he']

theorem AnsweredFrom.append {l : List Event} {i : Nat} {op : Op} {v : Value} {e : Event}
    (h : AnsweredFrom l i op v) (he : ¬e.IsCallOf i) : AnsweredFrom (l ++ [e]) i op v :=
  h.imp (·.append he) (·.append he)

/-- Where no deleted `Value` is read, a read is answered with the value of the map. -/
theorem AnsweredFrom.served {l : List Event} {i : Nat} {op : Op} {v : Value}
    (h : AnsweredFrom l i op v) (hdel : .deleted i op v ∉ l) : ServedFrom l i op v := by
  refine h.resolve_right ?_
  rintro ⟨l₁, l₂, l₃, rfl, -⟩
  simp at hdel

/-- The last call of the node `i` in the history `l` is the read `op`, which has
    not been answered. -/
def RequestedIn (l : List Event) (i : Nat) (op : Op) : Prop :=
  ∃ l₁ l₂, l = l₁ ++ .request i op :: l₂ ∧ ∀ e ∈ l₂, ¬e.IsCallOf i

theorem RequestedIn.append {l : List Event} {i : Nat} {op : Op} {e : Event}
    (h : RequestedIn l i op) (he : ¬e.IsCallOf i) : RequestedIn (l ++ [e]) i op := by
  obtain ⟨l₁, l₂, rfl, h₂⟩ := h
  refine ⟨l₁, l₂ ++ [e], by simp, fun e' he' => ?_⟩
  rcases List.mem_append.1 he' with he' | he'
  · exact h₂ e' he'
  · rwa [List.mem_singleton.1 he']

namespace MapSpec

variable {m m' : MapSpec} {l : List Event}

/-- The map after a history that the specification allows. -/
theorem map_of_observe (h : observe next m l = some m') : m'.map = applied m.map l := by
  refine observe_invariant (fun l (u : MapSpec) => u.map = applied m.map l) rfl ?_ h
  intro l u e u' ih he
  rw [applied_append, ← ih]
  cases e <;> simp only [next, Option.ite_none_right_eq_some, Option.some.injEq] at he <;>
    obtain ⟨_, rfl⟩ := he <;> rfl

/-- The puts pending after a history that the specification allows. -/
theorem pending_of_observe (h : observe next m l = some m') (i : Nat) (k : Key) (v : Value) :
    m'.pending i k v + l.count (.apply i k.node k v) = m.pending i k v + l.count
    (.issue i k v) := by
  refine observe_invariant (fun l (u : MapSpec) => u.pending i k v + l.count (.apply i k.node k v) =
    m.pending i k v + l.count (.issue i k v)) rfl ?_ h
  intro l u e u' ih he
  rw [List.count_append, List.count_append, ← Nat.add_assoc (m.pending i k v), ← ih]
  cases e with
  | issue i' k' v' =>
    simp only [next, Option.ite_none_right_eq_some, Option.some.injEq] at he
    obtain ⟨_, rfl⟩ := he
    -- one more of this put, or a put of something else
    by_cases hc : i' = i ∧ k' = k ∧ v' = v
    · obtain ⟨rfl, rfl, rfl⟩ := hc
      simp
      omega
    · simp [setPending_of_ne u _ hc, hc]
  | apply i' j' k' v' =>
    simp only [next, Option.ite_none_right_eq_some, Option.some.injEq] at he
    obtain ⟨⟨rfl, hpos⟩, rfl⟩ := he
    by_cases hc : i' = i ∧ k' = k ∧ v' = v
    · obtain ⟨rfl, rfl, rfl⟩ := hc
      simp
      omega
    · have : ¬(i' = i ∧ k'.node = k.node ∧ k' = k ∧ v' = v) := fun h => hc ⟨h.1, h.2.2⟩
      simp [setPending_of_ne u _ hc, this]
  | request | serve | deleted | «return» | missing =>
    simp only [next, Option.ite_none_right_eq_some, Option.some.injEq] at he
    obtain ⟨_, rfl⟩ := he
    simp [setReading]

/-- A put that takes effect at once is allowed. -/
theorem observe_put {i : Nat} (hi : m.reading i = .idle) {k : Key} (hk : k.node = i) (v : Value) :
    ∃ m', observe next m [.issue i k v, .apply i i k v] = some m' ∧ m'.reading = m.reading := by
  refine ⟨((m.setPending i k v (m.pending i k v + 1)).setPending i k v
    (m.pending i k v)).setMap k v, ?_, rfl⟩
  simp [next, hk, hi, setPending]

/-- A pending put may take effect. -/
theorem observe_apply {i j : Nat} {k : Key} {v : Value} (hk : k.node = j)
    (hpos : 0 < m.pending i k v) :
    ∃ m', observe next m [.apply i j k v] = some m' ∧ m'.reading = m.reading := by
  refine ⟨(m.setPending i k v (m.pending i k v - 1)).setMap k v, ?_, rfl⟩
  simp [next, hk, hpos]

/-- A read of a node that is not in a read is allowed, if it returns the value of the map. -/
theorem observe_read {i : Nat} {op : Op} {v : Value} (hi : m.reading i = .idle)
    (hv : m.map op.key = some v) :
    ∃ m', observe next m [.request i op, .serve i op v, .return i op v] = some m' ∧
      m'.reading = m.reading := by
  refine ⟨((m.setReading i (.requested op)).setReading i (.served op v)).setReading i .idle, ?_, ?_⟩
  · simp [next, setReading, hi, hv]
  · simp [setReading, ← hi]

/-- A read of a node that is not in a read may give anything, if the map has something. -/
theorem observe_deleted {i : Nat} {op : Op} (hi : m.reading i = .idle)
    (hv : (m.map op.key).isSome) (v : Value) :
    ∃ m', observe next m [.request i op, .deleted i op v, .return i op v] = some m' ∧
      m'.reading = m.reading := by
  refine ⟨((m.setReading i (.requested op)).setReading i (.served op v)).setReading i .idle, ?_, ?_⟩
  · simp [next, setReading, hi, hv]
  · simp [setReading, ← hi]

/-- A history that the specification allows from the empty map. -/
def Allows (l : List Event) (m : MapSpec) : Prop := observe next init l = some m

/-- The map holds the puts applied. -/
theorem Allows.map (h : Allows l m) : m.map = contents l := map_of_observe h

/-- The puts called have been applied, at the home of their keys, or are pending. -/
theorem Allows.pending (h : Allows l m) (i : Nat) (k : Key) (v : Value) :
    l.count (.issue i k v) = m.pending i k v + l.count (.apply i k.node k v) := by
  rw [pending_of_observe h, init, Nat.zero_add]

theorem Allows.apply_node (h : Allows l m) {i j : Nat} {k : Key} {v : Value}
    (hmem : .apply i j k v ∈ l) : j = k.node := by
  refine observe_invariant (fun l (_ : MapSpec) => .apply i j k v ∈ l → j = k.node) (by simp)
    ?_ h hmem
  intro l m e m' ih he hmem
  rcases List.mem_append.1 hmem with hmem | hmem
  · exact ih hmem
  · rw [← List.mem_singleton.1 hmem] at he
    simp only [next, Option.ite_none_right_eq_some] at he
    exact he.1.1

/-- The reads of the nodes, in the history. -/
theorem Allows.reading (h : Allows l m) (i : Nat) :
    (∀ op, m.reading i = .requested op → RequestedIn l i op) ∧
      ∀ op v, m.reading i = .served op v → AnsweredFrom l i op v := by
  refine observe_invariant (fun l (m : MapSpec) => Allows l m ∧
    (∀ op, m.reading i = .requested op → RequestedIn l i op) ∧
      ∀ op v, m.reading i = .served op v → AnsweredFrom l i op v) (by simp [Allows, init]) ?_ h |>.2
  intro l m e m' ⟨hal, ihr, ihs⟩ he
  have hal' : Allows (l ++ [e]) m' := by
    rw [Allows, observe_append, hal]
    simpa using he
  refine ⟨hal', ?_⟩
  by_cases hi : e.IsCallOf i
  · cases e with
    | apply | missing => exact hi.elim
    | issue j =>
      obtain rfl : j = i := hi
      simp only [next, Option.ite_none_right_eq_some, Option.some.injEq] at he
      obtain ⟨hidle, rfl⟩ := he
      simp [setPending, hidle]
    | request j op' =>
      obtain rfl : j = i := hi
      simp only [next, Option.ite_none_right_eq_some, Option.some.injEq] at he
      obtain ⟨_, rfl⟩ := he
      simp only [setReading, update_self, Reading.requested.injEq, reduceCtorEq, false_implies,
        implies_true, and_true]
      rintro op rfl
      exact ⟨l, [], rfl, by simp⟩
    | serve j op' v' =>
      obtain rfl : j = i := hi
      simp only [next, Option.ite_none_right_eq_some, Option.some.injEq] at he
      obtain ⟨⟨hreq, hmap⟩, rfl⟩ := he
      simp only [setReading, update_self, Reading.served.injEq, reduceCtorEq, false_implies,
        implies_true, true_and]
      rintro op v ⟨rfl, rfl⟩
      obtain ⟨l₁, l₂, rfl, h₂⟩ := ihr _ hreq
      exact .inl ⟨l₁, l₂, [], by simp, h₂, by simp, by rw [← hal.map, hmap]⟩
    | deleted j op' v' =>
      obtain rfl : j = i := hi
      simp only [next, Option.ite_none_right_eq_some, Option.some.injEq] at he
      obtain ⟨⟨hreq, hmap⟩, rfl⟩ := he
      simp only [setReading, update_self, Reading.served.injEq, reduceCtorEq, false_implies,
        implies_true, true_and]
      rintro op v ⟨rfl, rfl⟩
      obtain ⟨l₁, l₂, rfl, h₂⟩ := ihr _ hreq
      exact .inr ⟨l₁, l₂, [], by simp, h₂, by simp, by rwa [← hal.map]⟩
    | «return» j op' v' =>
      obtain rfl : j = i := hi
      simp only [next, Option.ite_none_right_eq_some, Option.some.injEq] at he
      obtain ⟨_, rfl⟩ := he
      simp [setReading]
  · -- an event of another node leaves the read of `i` alone
    have hread : m'.reading i = m.reading i := by
      cases e <;> simp only [next, Option.ite_none_right_eq_some, Option.some.injEq] at he <;>
        obtain ⟨_, rfl⟩ := he
      case issue | apply | missing => rfl
      all_goals exact update_of_ne (Ne.symm hi) _ _
    rw [hread]
    exact ⟨fun op h => (ihr op h).append hi, fun op v h => (ihs op v h).append hi⟩

/-- The values returned are the answers to the reads. -/
theorem Allows.return_answered {l₁ l₂ : List Event} {i : Nat} {op : Op} {v : Value}
    (h : Allows (l₁ ++ .return i op v :: l₂) m) : AnsweredFrom l₁ i op v := by
  obtain ⟨m₁, h₁, h₂⟩ := observe_prefix h
  simp only [observe_cons, Option.bind_eq_some_iff] at h₂
  obtain ⟨m₂, h₂, _⟩ := h₂
  simp only [next, Option.ite_none_right_eq_some] at h₂
  exact (Allows.reading h₁ i).2 op v h₂.1

/-- A `get` fails only when the map has nothing at the key. -/
theorem Allows.contents_of_missing {l' : List Event} {i j : Nat} {k : Key}
    (h : Allows (l ++ .missing i j k :: l') m) : contents l k = none := by
  obtain ⟨m₁, h₁, h₂⟩ := observe_prefix h
  simp only [observe_cons, Option.bind_eq_some_iff] at h₂
  obtain ⟨m₂, h₂, _⟩ := h₂
  simp only [next, Option.ite_none_right_eq_some] at h₂
  rw [← Allows.map h₁, h₂.1.2]

end MapSpec

end Eau2.Network

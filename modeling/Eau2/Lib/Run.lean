import Mathlib.Data.Option.Basic
import Mathlib.Data.List.Induction

/-!
# Runs of a transition function

A system with interleaved threads is a partial function: an *action* says which
thread moves, and the move is possible only when the thread is not blocked. A
move also emits *events*, which say what happened for those who reason about
the history of a run rather than about its states.

A run (`Run`) is a finite sequence of moves, observed through the list of the
events emitted and the state reached. It may be restricted to the moves that
satisfy a condition on the state they start from (`ok`): a statement about such
runs says what happens as long as the condition is respected.

* `Run.invariant`: the induction principle, for a property of the events and the
  state together;
* `Run.mono`, `Run.mono_of`: a run restricted more is a run restricted less;
* `Run.refines`: the rule of forward simulation, the specification being an
  *observer*, a partial function on its states that reads the events one by one
  and is stuck on an event it forbids;
* `exec`: the run of a given list of actions, which computes;
* `length_le_of_exec`: a bound on the number of moves.
-/

namespace Trace

variable {α σ ε : Type*} (step : α → σ → Option (σ × List ε)) (ok : α → σ → Prop)

/-- The runs from `s₀` all of whose moves satisfy `ok`: the events emitted, and
    the state reached. -/
inductive Run (s₀ : σ) : List ε → σ → Prop
  | refl : Run s₀ [] s₀
  | move {l : List ε} {s s' : σ} {a : α} {ev : List ε} :
      Run s₀ l s → ok a s → step a s = some (s', ev) → Run s₀ (l ++ ev) s'

variable {step ok}

/-- A property of the history and the state that every move preserves holds
    along every run. -/
theorem Run.invariant {s₀ : σ} (P : List ε → σ → Prop) (init : P [] s₀)
    (move : ∀ {l s a s' ev}, P l s → ok a s → step a s = some (s', ev) → P (l ++ ev) s')
    {l : List ε} {s : σ} (h : Run step ok s₀ l s) : P l s := by
  induction h with
  | refl => exact init
  | move _ hok hs ih => exact move ih hok hs

/-- An invariant may be proved along the runs, using what is already known of
    the states they reach. -/
theorem Run.invariant_of {s₀ : σ} {Q : List ε → σ → Prop}
    (known : ∀ {l s}, Run step ok s₀ l s → Q l s) (P : List ε → σ → Prop) (init : P [] s₀)
    (move : ∀ {l s a s' ev}, Q l s → P l s → ok a s → step a s = some (s', ev) → P (l ++ ev) s')
    {l : List ε} {s : σ} (h : Run step ok s₀ l s) : P l s := by
  induction h with
  | refl => exact init
  | move hr hok hs ih => exact move (known hr) ih hok hs

/-- Restricting the moves less gives more runs. -/
theorem Run.mono {ok' : α → σ → Prop} (hok : ∀ a s, ok a s → ok' a s) {s₀ : σ} {l : List ε} {s : σ}
    (h : Run step ok s₀ l s) : Run step ok' s₀ l s := by
  induction h with
  | refl => exact .refl
  | move _ ha hs ih => exact .move ih (hok _ _ ha) hs

/-- The same, using what is known of the states the run reaches. -/
theorem Run.mono_of {ok' : α → σ → Prop} {s₀ : σ} {Q : List ε → σ → Prop}
    (known : ∀ {l s}, Run step ok s₀ l s → Q l s) (hok : ∀ l a s, Q l s → ok a s → ok' a s)
    {l : List ε} {s : σ} (h : Run step ok s₀ l s) : Run step ok' s₀ l s := by
  induction h with
  | refl => exact .refl
  | move hr ha hs ih => exact .move ih (hok _ _ _ (known hr) ha) hs

/-- Runs compose. -/
theorem Run.trans {s₀ s₁ s₂ : σ} {l₁ l₂ : List ε} (h₁ : Run step ok s₀ l₁ s₁)
    (h₂ : Run step ok s₁ l₂ s₂) : Run step ok s₀ (l₁ ++ l₂) s₂ := by
  induction h₂ with
  | refl => rwa [List.append_nil]
  | move _ ha hs ih => exact List.append_assoc _ _ _ ▸ .move ih ha hs

/-! ## Observers -/

/-- The state of an observer that has read the events `l` from the state `t`, if
    it allows them. -/
def observe {τ : Type*} (next : τ → ε → Option τ) (t : τ) (l : List ε) : Option τ :=
  l.foldlM next t

section Observe

variable {τ : Type*} {next : τ → ε → Option τ} {t u : τ}

@[simp] theorem observe_nil : observe next t [] = some t := rfl

@[simp] theorem observe_cons (e : ε) (l : List ε) :
    observe next t (e :: l) = (next t e).bind fun t' => observe next t' l := by
  simp [observe]

theorem observe_append (l l' : List ε) :
    observe next t (l ++ l') = (observe next t l).bind fun t' => observe next t' l' := by
  simp [observe, List.foldlM_append]

/-- A property of what an observer has read and of its state holds whenever the
    observer is not stuck, if every event it allows preserves it. -/
theorem observe_invariant (P : List ε → τ → Prop) (init : P [] t)
    (event : ∀ {l u e u'}, P l u → next u e = some u' → P (l ++ [e]) u') {l : List ε}
    (h : observe next t l = some u) : P l u := by
  induction l using List.reverseRecOn generalizing u with
  | nil =>
    obtain rfl : t = u := Option.some.inj h
    exact init
  | append_singleton l e ih =>
    simp only [observe_append, observe_cons, observe_nil,
      Option.bind_eq_some_iff] at h
    obtain ⟨u', hu', v, hv, h⟩ := h
    obtain rfl : v = u := Option.some.inj h
    exact event (ih hu') hv

/-- What an observer has not forbidden after `l` it has not forbidden in `l`. -/
theorem observe_prefix {l l' : List ε} (h : observe next t (l ++ l') = some u) :
    ∃ u', observe next t l = some u' ∧ observe next u' l' = some u := by
  rwa [observe_append, Option.bind_eq_some_iff] at h

/-- Forward simulation: if every move from related states emits events that the
    observer allows, and leads to related states, then the observer allows the
    events of every run. -/
theorem Run.refines {s₀ : σ} {Q : List ε → σ → Prop} (known : ∀ {l s}, Run step ok s₀ l s → Q l s)
    (R : τ → σ → Prop) (init : R t s₀)
    (move : ∀ {u l s a s' ev}, Q l s → R u s → ok a s → step a s = some (s', ev) →
      ∃ u', observe next u ev = some u' ∧ R u' s')
    {l : List ε} {s : σ} (h : Run step ok s₀ l s) : ∃ u, observe next t l = some u ∧ R u s := by
  induction h with
  | refl => exact ⟨t, rfl, init⟩
  | move hr hok hs ih =>
    obtain ⟨u, hu, hR⟩ := ih
    obtain ⟨u', hu', hR'⟩ := move (known hr) hR hok hs
    exact ⟨u', by rw [observe_append, hu, Option.bind_some, hu'], hR'⟩

end Observe

/-! ## Histories -/

/-- Every event of a history satisfies `P` together with what was emitted before it. -/
def Always (P : List ε → ε → Prop) (l : List ε) : Prop :=
  ∀ l₁ e l₂, l = l₁ ++ e :: l₂ → P l₁ e

theorem Always.append {P : List ε → ε → Prop} {l l' : List ε} (h : Always P l)
    (h' : Always (fun l₁ => P (l ++ l₁)) l') : Always P (l ++ l') := by
  intro l₁ e l₂ heq
  rcases List.append_eq_append_iff.1 heq with ⟨t, rfl, ht⟩ | ⟨t, rfl, ht⟩
  · exact h' t e l₂ ht
  · cases t with
    | nil => simpa using h' [] e l₂ (by simpa using ht.symm)
    | cons e' t =>
      obtain ⟨rfl, rfl⟩ := List.cons.inj ht
      exact h l₁ e t rfl

@[simp] theorem always_nil {P : List ε → ε → Prop} : Always P [] := by
  intro l₁ e l₂ h
  simp at h

@[simp] theorem always_cons {P : List ε → ε → Prop} {e : ε} {l : List ε} :
    Always P (e :: l) ↔ P [] e ∧ Always (fun l₁ => P (e :: l₁)) l := by
  constructor
  · exact fun h => ⟨h [] e l rfl, fun l₁ e' l₂ hl => h (e :: l₁) e' l₂ (by rw [hl]; rfl)⟩
  · rintro ⟨he, h⟩ l₁ e' l₂ heq
    cases l₁ with
    | nil =>
      obtain ⟨rfl, rfl⟩ := List.cons.inj heq
      exact he
    | cons e'' l₁ =>
      obtain ⟨rfl, hl⟩ := List.cons.inj heq
      exact h l₁ e' l₂ hl

/-- A property of the events of a run, if every move emits events that satisfy
    it together with the history. -/
theorem Run.always {s₀ : σ} {P : List ε → ε → Prop}
    (move : ∀ {l s a s' ev}, Run step ok s₀ l s → ok a s → step a s = some (s', ev) →
      Always (fun l₁ => P (l ++ l₁)) ev) {l : List ε} {s : σ} (h : Run step ok s₀ l s) :
    Always P l := by
  induction h with
  | refl => exact always_nil
  | move hr hok hs ih => exact ih.append (move hr hok hs)

variable (step) in
/-- The run of the actions `as`, if none of them is blocked. -/
def exec : List α → σ → Option (σ × List ε)
  | [], s => some (s, [])
  | a :: as, s => do
    let (s', ev) ← step a s
    let (s'', ev') ← exec as s'
    return (s'', ev ++ ev')

theorem exec_cons (a : α) (as : List α) (s : σ) :
    exec step (a :: as) s = (step a s).bind fun p =>
      (exec step as p.1).bind fun q => some (q.1, p.2 ++ q.2) := rfl

/-- What executes is a run, restricted to the moves `ok` if all the actions are. -/
theorem Run.of_exec {as : List α} {s s' : σ} {l : List ε} (h : exec step as s = some (s', l))
    (hok : ∀ a ∈ as, ∀ s, ok a s) : Run step ok s l s' := by
  induction as generalizing s l with
  | nil =>
    simp only [exec, Option.some.injEq, Prod.mk.injEq] at h
    obtain ⟨rfl, rfl⟩ := h
    exact .refl
  | cons a as ih =>
    simp only [exec_cons, Option.bind_eq_some_iff, Option.some.injEq, Prod.mk.injEq] at h
    obtain ⟨⟨t, ev⟩, ht, ⟨u, ev'⟩, hu, rfl, rfl⟩ := h
    have first : Run step ok s ([] ++ ev) t := .move .refl (hok a List.mem_cons_self s) ht
    exact .trans first (ih hu fun a ha => hok a (List.mem_cons_of_mem _ ha))

/-- If every move makes less of a measure, there are no more moves than that. -/
theorem length_le_of_exec (P : List ε → σ → Nat → Prop)
    (move : ∀ {l s a s' ev w}, P l s w → step a s = some (s', ev) → ∃ w' < w, P (l ++ ev) s' w')
    {as : List α} {s s' : σ} {l l' : List ε} {w : Nat} (hP : P l s w)
    (h : exec step as s = some (s', l')) : as.length ≤ w := by
  induction as generalizing l s l' w with
  | nil => exact Nat.zero_le w
  | cons a as ih =>
    simp only [exec_cons, Option.bind_eq_some_iff, Option.some.injEq, Prod.mk.injEq] at h
    obtain ⟨⟨t, ev⟩, ht, ⟨u, ev'⟩, hu, rfl, rfl⟩ := h
    obtain ⟨w', hlt, hP'⟩ := move hP ht
    exact Nat.lt_of_le_of_lt (ih hP' hu) hlt

/-- What executes with every move checked is a run restricted to the moves checked for. -/
theorem Run.of_exec_checked [∀ a s, Decidable (ok a s)] {as : List α} {s s' : σ} {l : List ε}
    (h : exec (fun a s => if ok a s then step a s else none) as s = some (s', l)) :
    Run step ok s l s' := by
  have hrun : Run (fun a s => if ok a s then step a s else none) (fun _ _ => True) s l s' :=
    .of_exec h fun _ _ _ => trivial
  clear h
  induction hrun with
  | refl => exact .refl
  | move _ _ hs ih =>
    obtain ⟨hok, hs⟩ := Option.ite_none_right_eq_some.1 hs
    exact .move ih hok hs

end Trace

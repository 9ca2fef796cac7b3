import Eau2.Lib.Prog

/-!
# What programs wait for and what they owe

Programs of several nodes share a store and wait for what the others put. Whether one of
them can be left waiting depends on two things that can be read off their text: the keys
a program may wait for (`Prog.MayWait`), and the keys it is certain to put unless it
fails, together with the keys it may have to wait for until it does (`Prog.Owes`).

Both go through a sequence of programs, as does what a program may put. For the parts
of a program that only put (`Prog.Puts`) there is a rule with a postcondition, as the keys
depend on the values that are handed on.
-/

namespace Prog

variable {κ ν α β γ : Type} {k : κ} {p : Prog κ ν α} {f : α → Prog κ ν β}

/-- Some branch of the program waits for `k`. -/
def MayWait (k : κ) : Prog κ ν α → Prop
  | ret _ | fail => False
  | put _ _ next => next.MayWait k
  | get _ next => ∃ v, (next v).MayWait k
  | waitAndGet k' next => k' = k ∨ ∃ v, (next v).MayWait k

/-- Every branch of the program that does not fail puts `k`, and before that it only waits
    for keys of a lower rank. -/
def Owes (rank : κ → Nat) (k : κ) : Prog κ ν α → Prop
  | ret _ => False
  | fail => True
  | put k' _ next => k' = k ∨ next.Owes rank k
  | get _ next => ∀ v, (next v).Owes rank k
  | waitAndGet k' next => rank k' < rank k ∧ ∀ v, (next v).Owes rank k

theorem MayWait.of_bind (h : (p >>= f).MayWait k) : p.MayWait k ∨ ∃ a, (f a).MayWait k := by
  induction p with
  | ret a => exact .inr ⟨a, h⟩
  | fail => exact h.elim
  | put k' v next ih => exact ih h
  | get k' next ih =>
    obtain ⟨v, h⟩ := h
    exact (ih v h).imp_left fun h => ⟨v, h⟩
  | waitAndGet k' next ih =>
    rcases h with h | ⟨v, h⟩
    · exact .inl (.inl h)
    · exact (ih v h).imp_left fun h => .inr ⟨v, h⟩

theorem MayPut.of_bind (h : (p >>= f).MayPut k) : p.MayPut k ∨ ∃ a, (f a).MayPut k := by
  induction p with
  | ret a => exact .inr ⟨a, h⟩
  | fail => exact h.elim
  | put k' v next ih =>
    rcases h with h | h
    · exact .inl (.inl h)
    · exact (ih h).imp_left .inr
  | get k' next ih | waitAndGet k' next ih =>
    obtain ⟨v, h⟩ := h
    exact (ih v h).imp_left fun h => ⟨v, h⟩

/-- What a loop over a list waits for is waited for in one of its turns. -/
theorem MayWait.of_foldlM {f : β → γ → Prog κ ν β} {xs : List γ} {b : β}
    (h : (xs.foldlM f b).MayWait k) : ∃ x ∈ xs, ∃ b, (f b x).MayWait k := by
  induction xs generalizing b with
  | nil => exact h.elim
  | cons x xs ih =>
    rw [List.foldlM_cons] at h
    rcases h.of_bind with h | ⟨b', h⟩
    · exact ⟨x, List.mem_cons_self, b, h⟩
    · obtain ⟨x', hx, h⟩ := ih h
      exact ⟨x', List.mem_cons_of_mem _ hx, h⟩

section Owes

variable {rank : κ → Nat}

/-- What a program owes it still owes when more is to be run after it. -/
theorem Owes.bind (h : p.Owes rank k) (f : α → Prog κ ν β) : (p >>= f).Owes rank k := by
  induction p with
  | ret a => exact h.elim
  | fail => trivial
  | put k' v next ih => exact h.imp_right ih
  | get k' next ih => exact fun v => ih v (h v)
  | waitAndGet k' next ih => exact ⟨h.1, fun v => ih v (h.2 v)⟩

/-- What is owed after a program is owed before it, if this waits for keys of a lower rank
    only. -/
theorem Owes.after (hp : ∀ k', p.MayWait k' → rank k' < rank k) (h : ∀ a, (f a).Owes rank k) :
    (p >>= f).Owes rank k := by
  induction p with
  | ret a => exact h a
  | fail => trivial
  | put k' v next ih => exact .inr (ih hp)
  | get k' next ih => exact fun v => ih v fun k'' hk => hp k'' ⟨v, hk⟩
  | waitAndGet k' next ih =>
    exact ⟨hp k' (.inl rfl), fun v => ih v fun k'' hk => hp k'' (.inr ⟨v, hk⟩)⟩

end Owes

/-! ## Programs that only put -/

/-- The only operations of the program are puts of keys of `S`, and what it returns
    satisfies `Q`. -/
def Puts (S : Set κ) (Q : α → Prop) : Prog κ ν α → Prop
  | ret a => Q a
  | fail => True
  | put k _ next => k ∈ S ∧ next.Puts S Q
  | get _ _ | waitAndGet _ _ => False

section Puts

variable {S : Set κ} {Q : α → Prop} {R : β → Prop}

theorem Puts.bind (hp : p.Puts S Q) (hf : ∀ a, Q a → (f a).Puts S R) : (p >>= f).Puts S R := by
  induction p with
  | ret a => exact hf a hp
  | fail => trivial
  | put k v next ih => exact ⟨hp.1, ih hp.2⟩
  | get _ _ _ | waitAndGet _ _ _ => exact hp.elim

theorem Puts.mono {S' : Set κ} (hsub : S ⊆ S') (hp : p.Puts S Q) : p.Puts S' Q := by
  induction p with
  | ret a => exact hp
  | fail => trivial
  | put k v next ih => exact ⟨hsub hp.1, ih hp.2⟩
  | get _ _ _ | waitAndGet _ _ _ => exact hp.elim

theorem puts_ofOption {o : Option α} (h : ∀ a, o = some a → Q a) :
    (ofOption o : Prog κ ν α).Puts S Q := by
  cases o with
  | none => trivial
  | some a => exact h a rfl

theorem puts_assert (c : Prop) [Decidable c] : (assert c : Prog κ ν Unit).Puts S fun _ => c := by
  by_cases h : c
  · rw [assert_true h]
    exact h
  · rw [assert_false h]
    trivial

/-- A loop over a list keeps what every turn keeps. -/
theorem Puts.foldlM {f : β → γ → Prog κ ν β} {xs : List γ} {b : β} (hb : R b)
    (h : ∀ x ∈ xs, ∀ b, R b → (f b x).Puts S R) : (xs.foldlM f b).Puts S R := by
  induction xs generalizing b with
  | nil => exact hb
  | cons x xs ih =>
    rw [List.forall_mem_cons] at h
    rw [List.foldlM_cons]
    exact (h.1 b hb).bind fun b' hb' => ih hb' h.2

theorem Puts.mapM {f : γ → Prog κ ν β} {xs : List γ} (h : ∀ x ∈ xs, (f x).Puts S R) :
    (xs.mapM f).Puts S fun ys => ∀ y ∈ ys, R y := by
  induction xs with
  | nil => exact List.forall_mem_nil R
  | cons x xs ih =>
    rw [List.forall_mem_cons] at h
    rw [List.mapM_cons]
    exact h.1.bind fun y hy => (ih h.2).bind fun ys hys => List.forall_mem_cons.2 ⟨hy, hys⟩

theorem Puts.not_mayWait (hp : p.Puts S Q) (k : κ) : ¬p.MayWait k := by
  intro h
  induction p with
  | ret a => exact h
  | fail => exact h
  | put k' v next ih => exact ih hp.2 h
  | get _ _ _ | waitAndGet _ _ _ => exact hp.elim

theorem Puts.mem (hp : p.Puts S Q) (h : p.MayPut k) : k ∈ S := by
  induction p with
  | ret a => exact h.elim
  | fail => exact h.elim
  | put k' v next ih =>
    rcases h with rfl | h
    · exact hp.1
    · exact ih hp.2 h
  | get _ _ _ | waitAndGet _ _ _ => exact hp.elim

end Puts

/-! ## Programs that only read -/

theorem Gets.foldlM {S : Set κ} {f : β → γ → Prog κ ν β} {xs : List γ} {b : β}
    (h : ∀ x ∈ xs, ∀ b, (f b x).Gets S) : (xs.foldlM f b).Gets S := by
  induction xs generalizing b with
  | nil => trivial
  | cons x xs ih =>
    rw [List.forall_mem_cons] at h
    rw [List.foldlM_cons]
    exact (h.1 b).bind fun b' => ih h.2

theorem Gets.not_mayWait {S : Set κ} (hp : p.Gets S) (k : κ) : ¬p.MayWait k := by
  intro h
  induction p with
  | ret a => exact h
  | fail => exact h
  | get k' next ih =>
    obtain ⟨v, h⟩ := h
    exact ih v (hp.2 v) h
  | put _ _ _ _ | waitAndGet _ _ _ => exact hp.elim

theorem Gets.not_mayPut {S : Set κ} (hp : p.Gets S) (k : κ) : ¬p.MayPut k := by
  intro h
  induction p with
  | ret a => exact h
  | fail => exact h
  | get k' next ih =>
    obtain ⟨v, h⟩ := h
    exact ih v (hp.2 v) h
  | put _ _ _ _ | waitAndGet _ _ _ => exact hp.elim

/-- The only operations of the program are gets of keys of `S`, and what it returns
    satisfies `Q`. -/
def Fetches (S : Set κ) (Q : α → Prop) : Prog κ ν α → Prop
  | ret a => Q a
  | fail => True
  | get k next => k ∈ S ∧ ∀ v, (next v).Fetches S Q
  | put _ _ _ | waitAndGet _ _ => False

section Fetches

variable {S : Set κ} {Q : α → Prop} {R : β → Prop}

theorem Fetches.bind (hp : p.Fetches S Q) (hf : ∀ a, Q a → (f a).Fetches S R) :
    (p >>= f).Fetches S R := by
  induction p with
  | ret a => exact hf a hp
  | fail => trivial
  | get k next ih => exact ⟨hp.1, fun v => ih v (hp.2 v)⟩
  | put _ _ _ _ | waitAndGet _ _ _ => exact hp.elim

theorem fetches_ofOption {o : Option α} (h : ∀ a, o = some a → Q a) :
    (ofOption o : Prog κ ν α).Fetches S Q := by
  cases o with
  | none => trivial
  | some a => exact h a rfl

theorem fetches_assert (c : Prop) [Decidable c] :
    (assert c : Prog κ ν Unit).Fetches S fun _ => c := by
  by_cases h : c
  · rw [assert_true h]
    exact h
  · rw [assert_false h]
    trivial

/-- A loop over a list keeps what every turn keeps. -/
theorem Fetches.foldlM {f : β → γ → Prog κ ν β} {xs : List γ} {b : β} (hb : R b)
    (h : ∀ x ∈ xs, ∀ b, R b → (f b x).Fetches S R) : (xs.foldlM f b).Fetches S R := by
  induction xs generalizing b with
  | nil => exact hb
  | cons x xs ih =>
    rw [List.forall_mem_cons] at h
    rw [List.foldlM_cons]
    exact (h.1 b hb).bind fun b' hb' => ih hb' h.2

theorem Fetches.gets (hp : p.Fetches S Q) : p.Gets S := by
  induction p with
  | ret _ | fail => trivial
  | get k next ih => exact ⟨hp.1, fun v => ih v (hp.2 v)⟩
  | put _ _ _ _ | waitAndGet _ _ _ => exact hp.elim

/-- What the program returns when it is run alone. -/
theorem Fetches.of_run [DecidableEq κ] (hp : p.Fetches S Q) {m m' : κ → Option ν} {a : α}
    (hrun : p.run m = some (a, m')) : Q a := by
  induction p with
  | ret b =>
    cases hrun
    exact hp
  | fail => cases hrun
  | get k next ih =>
    cases hm : m k with
    | none =>
      rw [run, hm] at hrun
      cases hrun
    | some v =>
      rw [run_get hm] at hrun
      exact ih v (hp.2 v) hrun
  | put _ _ _ _ | waitAndGet _ _ _ => exact hp.elim

end Fetches

end Prog

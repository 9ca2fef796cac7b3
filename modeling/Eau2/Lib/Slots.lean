import Eau2.Lib.Duty

/-!
# Numbered keys

Programs that never write a key twice often make their keys of counters: there are
*slots*, and what is written in a slot is written at its first key, then at its second, and
so on. `names s j k` says that `k` is the key number `j` of the slot `s`; how many have
been written so far is a function of the slots.

* `Prog.Numbered names Q p g`: from the counts `g` on, the program writes the next keys
  of slots, and what it returns and the counts then satisfy `Q`. There is a rule for each
  way of composing programs.
* `Slots.Written names ks g`: the keys `ks`, written by whoever it was, are numbered, and
  `g` is the count of each slot. If keys of different slots or numbers differ, no two of
  them are the same (`Written.pairwise`).
-/

namespace Slots

variable {ι κ : Type} [DecidableEq ι]

/-- The counts after a write in the slot `s`. -/
def bump (g : ι → Nat) (s : ι) : ι → Nat := Function.update g s (g s + 1)

@[simp] theorem bump_self (g : ι → Nat) (s : ι) : bump g s s = g s + 1 := Function.update_self ..

theorem bump_of_ne (g : ι → Nat) {s s' : ι} (h : s' ≠ s) : bump g s s' = g s' :=
  Function.update_of_ne h ..

theorem le_bump (g : ι → Nat) (s s' : ι) : g s' ≤ bump g s s' := by
  by_cases h : s' = s
  · rw [h, bump_self]
    exact Nat.le_succ _
  · rw [bump_of_ne g h]

/-- The keys `ks` are numbered, the slots having the counts `g` in the end. -/
inductive Written (names : ι → Nat → κ → Prop) : List κ → (ι → Nat) → Prop
  | nil : Written names [] fun _ => 0
  | snoc {ks : List κ} {g : ι → Nat} {s : ι} {k : κ} (h : Written names ks g)
      (hk : names s (g s) k) : Written names (ks ++ [k]) (bump g s)

namespace Written

variable {names : ι → Nat → κ → Prop} {ks : List κ} {g : ι → Nat}

/-- Every key has a slot and a number below the count. -/
theorem exists_slot (h : Written names ks g) {k : κ} (hk : k ∈ ks) :
    ∃ s j, j < g s ∧ names s j k := by
  induction h with
  | nil => cases hk
  | @snoc ks g s k' h hname ih =>
    rcases List.mem_append.1 hk with hk | hk
    · obtain ⟨s', j, hlt, hj⟩ := ih hk
      exact ⟨s', j, hlt.trans_le (le_bump g s s'), hj⟩
    · obtain rfl := List.mem_singleton.1 hk
      exact ⟨s, g s, by rw [bump_self]; exact Nat.lt_succ_self _, hname⟩

/-- Whatever tells apart the keys of different slots or numbers tells apart the keys
    written. -/
theorem pairwise {r : κ → κ → Prop} (h : Written names ks g)
    (hr : ∀ s j k s' j' k', j < g s → j' < g s' → names s j k → names s' j' k' →
      (s, j) ≠ (s', j') → r k k') : ks.Pairwise r := by
  induction h with
  | nil => exact .nil
  | @snoc ks g s k h hname ih =>
    have hlt {s' : ι} {j : Nat} (hj : j < g s') : j < bump g s s' := hj.trans_le (le_bump g s s')
    refine List.pairwise_append.2 ⟨ih fun s₁ j₁ k₁ s₂ j₂ k₂ h₁ h₂ => ?_,
      List.pairwise_singleton _ _, fun k₁ hk₁ k₂ hk₂ => ?_⟩
    · exact hr s₁ j₁ k₁ s₂ j₂ k₂ (hlt h₁) (hlt h₂)
    · obtain rfl := List.mem_singleton.1 hk₂
      obtain ⟨s₁, j₁, hj₁, hname₁⟩ := h.exists_slot hk₁
      refine hr s₁ j₁ k₁ s (g s) k₂ (hlt hj₁) (by rw [bump_self]; exact Nat.lt_succ_self _) hname₁
        hname fun heq => ?_
      -- the number written last is above those written before in its slot
      obtain ⟨rfl, rfl⟩ := Prod.mk.inj heq
      exact lt_irrefl _ hj₁

/-- The count of a slot is at most the number of keys that look like keys of the slot. -/
theorem le_countP (h : Written names ks g) (s : ι) {p : κ → Bool}
    (hp : ∀ j k, names s j k → p k = true) : g s ≤ ks.countP p := by
  induction h with
  | nil => exact Nat.zero_le _
  | @snoc ks g s' k h hname ih =>
    rw [List.countP_append]
    by_cases hs : s = s'
    · subst hs
      rw [bump_self, List.countP_singleton, if_pos (hp _ _ hname)]
      exact Nat.succ_le_succ ih
    · rw [bump_of_ne g hs]
      exact ih.trans (Nat.le_add_right _ _)

end Written

end Slots

namespace Prog

open Slots

variable {κ ν α β γ ι : Type} [DecidableEq ι]

/-- What the program writes, the counts of the slots being `g`, are the next keys of slots;
    what it returns and the counts in the end satisfy `Q`. -/
def Numbered (names : ι → Nat → κ → Prop) (Q : α → (ι → Nat) → Prop) :
    Prog κ ν α → (ι → Nat) → Prop
  | ret a, g => Q a g
  | fail, _ => True
  | put k _ next, g => ∃ s, names s (g s) k ∧ next.Numbered names Q (bump g s)
  | get _ next, g | waitAndGet _ next, g => ∀ v, (next v).Numbered names Q g

variable {names : ι → Nat → κ → Prop} {Q : α → (ι → Nat) → Prop} {R : β → (ι → Nat) → Prop}
  {g : ι → Nat} {p : Prog κ ν α} {f : α → Prog κ ν β}

theorem Numbered.bind (hp : p.Numbered names Q g)
    (hf : ∀ a g', Q a g' → (f a).Numbered names R g') :
    (p >>= f).Numbered names R g := by
  induction p generalizing g with
  | ret a => exact hf a g hp
  | fail => trivial
  | put k v next ih =>
    obtain ⟨s, hname, hnext⟩ := hp
    exact ⟨s, hname, ih hnext⟩
  | get k next ih | waitAndGet k next ih => exact fun v => ih v (hp v)

theorem Numbered.imp {Q' : α → (ι → Nat) → Prop} (hp : p.Numbered names Q g)
    (h : ∀ a g', Q a g' → Q' a g') : p.Numbered names Q' g := by
  have := hp.bind (f := .ret) h
  rwa [bind_ret] at this

theorem numbered_put {k : κ} {v : ν} {s : ι} (hname : names s (g s) k) (hQ : R b (bump g s)) :
    (put k v (ret b)).Numbered names R g := ⟨s, hname, hQ⟩

theorem numbered_ofOption_bind {o : Option α} (h : ∀ a, o = some a → (f a).Numbered names R g) :
    (ofOption o >>= f).Numbered names R g := by
  cases o with
  | none => trivial
  | some a => exact h a rfl

theorem numbered_assert_bind {c : Prop} [Decidable c] {f : Unit → Prog κ ν β}
    (h : c → (f ()).Numbered names R g) : (assert c >>= f).Numbered names R g := by
  by_cases hc : c
  · rw [assert_true hc]
    exact h hc
  · rw [assert_false hc]
    trivial

/-- What a program that only writes has written, after the keys `ks`. -/
theorem Numbered.written_of_writes {ks : List κ} (hks : Written names ks g)
    (hp : p.Numbered names Q g) {ps : List (κ × ν)} {a : α} (hw : p.writes = some (ps, a)) :
    ∃ g', Written names (ks ++ ps.map Prod.fst) g' ∧ Q a g' := by
  induction p generalizing ks g ps with
  | ret b =>
    cases hw
    exact ⟨g, by rwa [List.map_nil, List.append_nil], hp⟩
  | fail | get _ _ _ | waitAndGet _ _ _ => cases hw
  | put k v next ih =>
    obtain ⟨s, hname, hnext⟩ := hp
    obtain ⟨⟨ps', b⟩, hw', heq⟩ := Option.map_eq_some_iff.1 hw
    cases heq
    obtain ⟨g', hks', hQ⟩ := ih (hks.snoc hname) hnext hw'
    exact ⟨g', by rwa [List.append_assoc] at hks', hQ⟩

/-- What only reads writes nothing. -/
theorem Gets.numbered {S : Set κ} (hp : p.Gets S) (h : ∀ a, Q a g) : p.Numbered names Q g := by
  induction p with
  | ret a => exact h a
  | fail => trivial
  | get k next ih => exact fun v => ih v (hp.2 v)
  | put _ _ _ _ | waitAndGet _ _ _ => exact hp.elim

/-- A loop over a list keeps what every turn keeps. -/
theorem Numbered.foldlM {f : β → γ → Prog κ ν β} {xs : List γ} {b : β} (hb : R b g)
    (h : ∀ x ∈ xs, ∀ b g, R b g → (f b x).Numbered names R g) :
    (xs.foldlM f b).Numbered names R g := by
  induction xs generalizing b g with
  | nil => exact hb
  | cons x xs ih =>
    rw [List.forall_mem_cons] at h
    rw [List.foldlM_cons]
    exact (h.1 b g hb).bind fun b' g' hb' => ih hb' h.2

end Prog

import Mathlib.Data.Finset.Basic
import Mathlib.Data.Finset.Lattice.Lemmas

/-!
# Semi-naive evaluation

Two sets are computed from each other, round after round: the elements of `β` that
those of `α` lead to (`f`), and the elements of `α` that these lead to (`g`), starting
with some elements `seed` of `α` which do not count as found. The naive way applies `f`
and `g` to all that has been found (`naive`). The semi-naive way (`rounds`) applies
them to what is new, and only keeps of the results what is not there already.

* `rounds_eq_naive`: both find the same, as long as `f` and `g` preserve unions;
* `naive_union_eq_iff`: what is found whatever `f` and `g` are applied to changes
  nothing, in any number of rounds, if and only if the first round finds it anyway.
-/

namespace SemiNaive

variable {α β : Type*} [DecidableEq α] [DecidableEq β]

/-- What has been found in some rounds, and what of it is from the last. -/
structure Round (α β : Type*) where
  fst : Finset α
  snd : Finset β
  fresh : Finset α

section

variable (f : Finset α → Finset β) (g : Finset β → Finset α) (seed : Finset α)

/-- The elements of `β` that are new in the round after `r`. -/
def Round.new (r : Round α β) : Finset β := f r.fresh \ r.snd

/-- The round after `r`. -/
def Round.next (r : Round α β) : Round α β where
  fst := r.fst ∪ (g (r.new f) \ r.fst)
  snd := r.snd ∪ r.new f
  fresh := g (r.new f) \ r.fst

/-- The rounds of semi-naive evaluation. -/
def rounds : Nat → Round α β
  | 0 => ⟨∅, ∅, seed⟩
  | k + 1 => (rounds k).next f g

/-- The rounds of naive evaluation. -/
def naive : Nat → Finset α × Finset β
  | 0 => (∅, ∅)
  | k + 1 => (g (f (seed ∪ (naive k).1)), f (seed ∪ (naive k).1))

end

variable {f : Finset α → Finset β} {g : Finset β → Finset α} (hf : ∀ a b, f (a ∪ b) = f a ∪ f b)
  (hg : ∀ a b, g (a ∪ b) = g a ∪ g b) (seed : Finset α)
include hf hg

/-- After a round, everything has been found that one application of `f` and `g` finds
    from what had been found before; what is new is what was not found before. -/
theorem rounds_succ (k : Nat) :
    (rounds f g seed (k + 1)).snd = f (seed ∪ (rounds f g seed k).fst) ∧
      (rounds f g seed (k + 1)).fst = g (rounds f g seed (k + 1)).snd ∧
      (rounds f g seed (k + 1)).fst =
        (rounds f g seed k).fst ∪ (rounds f g seed (k + 1)).fresh := by
  induction k with
  | zero =>
    refine ⟨?_, ?_, rfl⟩
    · simp [rounds, Round.next, Round.new]
    · simp [rounds, Round.next, Round.new]
  | succ k ih =>
    obtain ⟨hsnd, hfst, hfresh⟩ := ih
    generalize hr : rounds f g seed (k + 1) = r at hsnd hfst hfresh ⊢
    have hnext : rounds f g seed (k + 1 + 1) = r.next f g := by rw [rounds, hr]
    -- `f` has been applied to all but the new elements, by induction
    have hall : r.snd ∪ r.new f = f (seed ∪ r.fst) := by
      rw [Round.new, Finset.union_sdiff_self_eq_union, hsnd, ← hf, Finset.union_assoc, ← hfresh]
    rw [hnext]
    refine ⟨hall, ?_, rfl⟩
    rw [Round.next, Finset.union_sdiff_self_eq_union, hfst, ← hg]

/-- Semi-naive evaluation finds in every round what naive evaluation finds. -/
theorem rounds_eq_naive (k : Nat) :
    ((rounds f g seed k).fst, (rounds f g seed k).snd) = naive f g seed k := by
  induction k with
  | zero => rfl
  | succ k ih =>
    obtain ⟨hsnd, hfst, -⟩ := rounds_succ hf hg seed k
    rw [naive, ← ih, hfst, hsnd]

/-- Elements `b₀` and `a₀` that `f` and `g` find whatever they are applied to. -/
theorem naive_union_eq_iff (a₀ : Finset α) (b₀ : Finset β) :
    (∀ k, naive (fun a => f a ∪ b₀) (fun b => g b ∪ a₀) seed k = naive f g seed k) ↔
      b₀ ⊆ f seed ∧ a₀ ⊆ g (f seed) := by
  constructor
  · intro h
    have hone : (g (f seed ∪ b₀) ∪ a₀, f seed ∪ b₀) = (g (f seed), f seed) := by
      simpa only [naive, Finset.union_empty] using h 1
    obtain ⟨hfst, hsnd⟩ := Prod.mk.inj hone
    rw [hsnd] at hfst
    exact ⟨Finset.union_eq_left.1 hsnd, Finset.union_eq_left.1 hfst⟩
  · rintro ⟨hb, ha⟩ k
    induction k with
    | zero => rfl
    | succ k ih =>
      -- the first round finds them, and no later one loses anything
      have hsub : f seed ⊆ f (seed ∪ (naive f g seed k).1) := by
        rw [hf]
        exact Finset.subset_union_left
      have hsub' : g (f seed) ⊆ g (f (seed ∪ (naive f g seed k).1)) := by
        rw [hf, hg]
        exact Finset.subset_union_left
      rw [naive, naive, ih, Finset.union_eq_left.2 (hb.trans hsub),
        Finset.union_eq_left.2 (ha.trans hsub')]

end SemiNaive

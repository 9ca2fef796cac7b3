import Mathlib.Data.List.Perm.Basic
import Mathlib.Tactic.Ring

/-!
# Lists cut into chunks

A list is cut into chunks of `c` elements, the last of which may be shorter and
is not empty unless the list is. The list of no elements has one chunk.

* `numChunks c n`: the number of chunks of a list of `n` elements;
* `chunk c xs j`: the `j`-th of them.

The element `i` of the list is the element `i % c` of the chunk `i / c`
(`getElem?_chunk`), and the chunks, one after the other, are the list
(`flatMap_chunk`). A list dealt out by a key is a permutation of its parts
(`flatMap_ite_perm`), for one if its chunks are dealt out in turn (`perm_dealt`).
-/

namespace List

variable {α : Type*}

/-- The number of chunks of `c` elements of a list of `n` elements. -/
def numChunks (c n : Nat) : Nat := (n - 1) / c + 1

/-- The `j`-th chunk of `c` elements. -/
def chunk (c : Nat) (xs : List α) (j : Nat) : List α := (xs.drop (j * c)).take c

theorem numChunks_pos (c n : Nat) : 0 < numChunks c n := Nat.succ_pos _

theorem numChunks_eq {c : Nat} (hc : 0 < c) (n : Nat) :
    numChunks c n = max 1 ((n + c - 1) / c) := by
  rcases Nat.eq_zero_or_pos n with rfl | hn
  · rw [numChunks, Nat.zero_add, Nat.div_eq_of_lt (show c - 1 < c by omega)]
    simp
  · have h : (n + c - 1) / c = (n - 1) / c + 1 := by
      rw [show n + c - 1 = n - 1 + c by omega, Nat.add_div_right _ hc]
    rw [numChunks, h, max_eq_right (Nat.le_add_left 1 _)]

theorem le_numChunks_mul {c : Nat} (hc : 0 < c) (n : Nat) : n ≤ numChunks c n * c := by
  have := Nat.lt_div_mul_add hc (a := n - 1)
  rw [numChunks, Nat.add_mul, Nat.one_mul]
  omega

theorem pred_numChunks_mul_le (c n : Nat) : (numChunks c n - 1) * c ≤ n := by
  have := Nat.div_mul_le_self (n - 1) c
  rw [numChunks, Nat.add_sub_cancel]
  omega

theorem numChunks_le_iff {c n k : Nat} (hc : 0 < c) (hk : 0 < k) :
    numChunks c n ≤ k ↔ n ≤ c * k := by
  have hpos : 0 < c * k := Nat.mul_pos hc hk
  rw [numChunks, Nat.succ_le_iff, Nat.div_lt_iff_lt_mul hc, Nat.mul_comm k c]
  omega

theorem div_lt_numChunks {c n i : Nat} (h : i < n) : i / c < numChunks c n :=
  Nat.lt_succ_of_le (Nat.div_le_div_right (by omega))

/-- A chunk that starts before the end is one of the chunks. -/
theorem add_le_numChunks_mul {c n k : Nat} (hdvd : c ∣ k) (hlt : k < n) :
    k + c ≤ numChunks c n * c := by
  obtain ⟨q, rfl⟩ := hdvd
  rcases Nat.eq_zero_or_pos c with rfl | hc
  · simp
  · have hq : q ≤ (n - 1) / c := (Nat.le_div_iff_mul_le hc).2 (by rw [Nat.mul_comm]; omega)
    rw [numChunks, Nat.add_mul, Nat.one_mul, Nat.mul_comm c q]
    exact Nat.add_le_add_right (Nat.mul_le_mul_right c hq) c

/-- No chunk starts after the end. -/
theorem numChunks_mul_le {c n k : Nat} (hdvd : c ∣ k) (hn : 0 < n) (hle : n ≤ k) :
    numChunks c n * c ≤ k := by
  obtain ⟨q, rfl⟩ := hdvd
  have hq : (n - 1) / c < q := Nat.div_lt_of_lt_mul (by omega)
  rw [Nat.mul_comm c q]
  exact Nat.mul_le_mul_right c hq

/-- One more element starts a chunk exactly when the chunks are full. -/
theorem numChunks_succ {c : Nat} (hc : 0 < c) (n : Nat) :
    numChunks c (n + 1) = numChunks c n + if n = numChunks c n * c then 1 else 0 := by
  have h₁ := le_numChunks_mul hc n
  have h₂ := pred_numChunks_mul_le c n
  have hpos := numChunks_pos c n
  have hdiv : numChunks c (n + 1) = n / c + 1 := rfl
  generalize numChunks c n = k at *
  obtain ⟨k, rfl⟩ : ∃ k', k = k' + 1 := ⟨k - 1, by omega⟩
  rw [Nat.add_sub_cancel] at h₂
  rw [hdiv]
  split_ifs with h
  · rw [h, Nat.mul_div_cancel _ hc]
  · rw [(Nat.div_eq_iff hc).2]
    constructor
    · exact h₂
    · rw [Nat.add_mul, Nat.one_mul] at h h₁
      omega

theorem length_chunk (c : Nat) (xs : List α) (j : Nat) :
    (chunk c xs j).length = min c (xs.length - j * c) := by
  rw [chunk, length_take, length_drop]

/-- The chunks but the last are full. -/
theorem length_chunk_of_lt {c : Nat} {xs : List α} {j : Nat} (h : j < numChunks c xs.length - 1) :
    (chunk c xs j).length = c := by
  have h₁ := pred_numChunks_mul_le c xs.length
  have h₂ : (j + 1) * c ≤ (numChunks c xs.length - 1) * c := Nat.mul_le_mul_right c h
  rw [Nat.add_mul, Nat.one_mul] at h₂
  rw [length_chunk]
  omega

/-- The full chunks and the last. -/
theorem take_append_chunk {c : Nat} (hc : 0 < c) (xs : List α) :
    xs.take ((numChunks c xs.length - 1) * c) ++ chunk c xs (numChunks c xs.length - 1) = xs := by
  have hle := le_numChunks_mul hc xs.length
  obtain ⟨k, hk⟩ : ∃ k, numChunks c xs.length = k + 1 := ⟨_, rfl⟩
  rw [hk, Nat.add_mul, Nat.one_mul] at hle
  have hlast : (xs.drop (k * c)).length ≤ c := by
    rw [length_drop]
    omega
  rw [hk, Nat.add_sub_cancel, chunk, take_of_length_le hlast, take_append_drop]

theorem getElem?_chunk {c : Nat} (hc : 0 < c) (xs : List α) (i : Nat) :
    (chunk c xs (i / c))[i % c]? = xs[i]? := by
  rw [chunk, getElem?_take_of_lt (Nat.mod_lt i hc), getElem?_drop, Nat.div_add_mod']

/-- An element that goes to the last chunk. -/
theorem chunk_append {c : Nat} {xs : List α} {j : Nat} (hj : j * c ≤ xs.length)
    (hlt : xs.length < (j + 1) * c) (x : α) : chunk c (xs ++ [x]) j = chunk c xs j ++ [x] := by
  rw [Nat.add_mul, Nat.one_mul] at hlt
  rw [chunk, chunk, drop_append_of_le_length hj, take_of_length_le, take_of_length_le]
  · rw [length_drop]
    omega
  · simp only [length_append, length_drop, length_singleton]
    omega

/-- The chunks that are full stay as they are. -/
theorem chunk_append_of_le {c : Nat} {xs : List α} {j : Nat} (h : (j + 1) * c ≤ xs.length)
    (ys : List α) : chunk c (xs ++ ys) j = chunk c xs j := by
  rw [Nat.add_mul, Nat.one_mul] at h
  rw [chunk, chunk, drop_append_of_le_length (by omega), take_append_of_le_length]
  rw [length_drop]
  omega

/-- The indices of `k` full chunks. -/
theorem flatMap_range' (k c : Nat) :
    ((range k).flatMap fun i => range' (i * c) c) = range (k * c) := by
  induction k with
  | zero => rw [Nat.zero_mul, range_zero, flatMap_nil]
  | succ k ih =>
    rw [range_succ, flatMap_append, ih, flatMap_singleton, range_eq_range', range_eq_range',
      Nat.add_mul, Nat.one_mul, ← range'_append_1, Nat.zero_add]

/-- The elements at `k` indices from `i` on. -/
theorem filterMap_getElem?_range' (xs : List α) (i k : Nat) :
    (range' i k).filterMap (xs[·]?) = (xs.drop i).take k := by
  induction k generalizing i with
  | zero => rw [range'_zero, filterMap_nil, take_zero]
  | succ k ih =>
    rw [range'_succ]
    rcases Nat.lt_or_ge i xs.length with hi | hi
    · rw [filterMap_cons_some (getElem?_eq_getElem hi), ih, drop_eq_getElem_cons hi, take_succ_cons]
    · rw [filterMap_cons_none (getElem?_eq_none hi), ih, drop_of_length_le hi,
        drop_of_length_le (hi.trans i.le_succ), take_nil, take_nil]

theorem filterMap_getElem?_range (xs : List α) : (range xs.length).filterMap (xs[·]?) = xs := by
  rw [range_eq_range', filterMap_getElem?_range', drop_zero, take_length]

/-- The chunks, one after the other. -/
theorem flatMap_chunk {c : Nat} (hc : 0 < c) (xs : List α) :
    (range (numChunks c xs.length)).flatMap (chunk c xs) = xs := by
  have hfull (k : Nat) (hk : k ≤ numChunks c xs.length - 1) :
      (range k).flatMap (chunk c xs) = xs.take (k * c) := by
    induction k with
    | zero => simp
    | succ k ih =>
      rw [range_succ, flatMap_append, ih (Nat.le_of_succ_le hk), flatMap_singleton, chunk,
        Nat.add_mul, Nat.one_mul, ← take_add]
  obtain ⟨k, hk⟩ : ∃ k, numChunks c xs.length = k + 1 := ⟨_, rfl⟩
  have hlast := take_append_chunk hc xs
  rw [hk, Nat.add_sub_cancel] at hfull hlast
  rw [hk, range_succ, flatMap_append, hfull k le_rfl, flatMap_singleton, hlast]

/-! ## Lists dealt out -/

variable {β κ : Type*} [DecidableEq κ] {keys : List κ}

theorem flatMap_ite_eq {k : κ} (hnodup : keys.Nodup) (hk : k ∈ keys) (l : List β) :
    (keys.flatMap fun k' => if k = k' then l else []) = l := by
  induction keys with
  | nil => cases hk
  | cons k' keys ih =>
    rw [nodup_cons] at hnodup
    rw [flatMap_cons]
    by_cases heq : k = k'
    · have hnil : (keys.flatMap fun k'' => if k = k'' then l else []) = [] := by
        refine flatMap_eq_nil_iff.2 fun k'' hk'' => if_neg ?_
        rintro rfl
        exact hnodup.1 (heq ▸ hk'')
      rw [if_pos heq, hnil, append_nil]
    · rw [if_neg heq, nil_append]
      exact ih hnodup.2 ((mem_cons.1 hk).resolve_left heq)

/-- The parts of a list dealt out to the keys make the list. -/
theorem flatMap_ite_perm {xs : List α} (g : α → κ) (f : α → List β) (hnodup : keys.Nodup)
    (hg : ∀ x ∈ xs, g x ∈ keys) :
    (keys.flatMap fun k => xs.flatMap fun x => if g x = k then f x else []).Perm
    (xs.flatMap f) := by
  induction xs with
  | nil =>
    rw [flatMap_nil, flatMap_eq_nil_iff.2 fun k _ => flatMap_nil]
  | cons x xs ih =>
    rw [forall_mem_cons] at hg
    simp only [flatMap_cons]
    refine (flatMap_append_perm keys _ _).symm.trans (Perm.append ?_ (ih hg.2))
    rw [flatMap_ite_eq hnodup hg.1]

/-- The chunks that are dealt to `node`, of `n`: every `n`-th one. -/
def dealt (n c : Nat) (xs : List α) (node : Nat) : List α :=
  (range (numChunks c xs.length)).flatMap fun i => if i % n = node then chunk c xs i else []

theorem chunk_map (f : α → β) (c : Nat) (xs : List α) (j : Nat) :
    chunk c (xs.map f) j = (chunk c xs j).map f := by
  rw [chunk, chunk, ← map_drop, ← map_take]

theorem dealt_map (f : α → β) (n c : Nat) (xs : List α) (node : Nat) :
    dealt n c (xs.map f) node = (dealt n c xs node).map f := by
  rw [dealt, dealt, map_flatMap, length_map]
  refine flatMap_congr fun i _ => ?_
  split_ifs
  · exact chunk_map f c xs i
  · rfl

theorem perm_dealt {n c : Nat} (hn : 0 < n) (hc : 0 < c) (xs : List α) :
    ((range n).flatMap (dealt n c xs)).Perm xs := by
  have hperm := flatMap_ite_perm (· % n) (chunk c xs) nodup_range
    fun i (_ : i ∈ range (numChunks c xs.length)) => mem_range.2 (Nat.mod_lt i hn)
  rwa [flatMap_chunk hc] at hperm

/-- Every element is dealt to some node. -/
theorem mem_iff_dealt {n c : Nat} (hn : 0 < n) (hc : 0 < c) {xs : List α} {x : α} :
    x ∈ xs ↔ ∃ node < n, x ∈ dealt n c xs node := by
  rw [← (perm_dealt hn hc xs).mem_iff, mem_flatMap]
  simp only [mem_range]

end List

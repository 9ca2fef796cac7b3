import Eau2.Linus.Step
import Mathlib.Data.Set.List

/-!
# The nodes together

The nodes run their programs on the store they share, in any interleaving (`Pool.Run`).
The data frames have an order in which they come about (`Frame.rank`), and every node
waits for a frame before it puts a later one, so the nodes never wait for each other in
a circle (`exists_schedulable`): in every interleaving all of them can get done, and
when they are, all hold the sets of `Input.rounds` (`run_finishes`).
-/

namespace Eau2.Linus

open Prog (Access)

variable {n i degrees : Nat} {f f' : Frame} {as bs : List (Access Frame)}

/-- The place of a data frame in the order in which they come about. -/
def Frame.rank : Frame → Nat
  | projs | usrs | comts => 0
  | projects stage node => 4 * stage + if node = 0 then 2 else 1
  | users stage node => if node = 0 then 4 * stage else 4 * stage - 1

/-- What is put after a frame has been waited for comes after it. -/
def Ordered (a b : Access Frame) : Prop := ∀ f f', a = .wait f → b = .put f' → f.rank < f'.rank

theorem ordered_append (m : Nat) (ha : as.Pairwise Ordered) (hb : bs.Pairwise Ordered)
    (hwait : ∀ f, .wait f ∈ as → f.rank < m) (hput : ∀ f, .put f ∈ bs → m ≤ f.rank) :
    (as ++ bs).Pairwise Ordered :=
  List.pairwise_append.2 ⟨ha, hb, fun _ hmem _ hmem' f f' heq heq' =>
    (hwait f (heq ▸ hmem)).trans_le (hput f' (heq' ▸ hmem'))⟩

/-! ## Merging -/

section Merge

variable {key : Nat → Frame}

theorem put_mem_mergeAccesses : .put f ∈ mergeAccesses n i key ↔ f = key i := by
  rw [mergeAccesses]
  split_ifs with h <;> simp [h]

/-- The node 0 waits for the frames of the others, and these for its own. -/
theorem wait_mem_mergeAccesses : .wait f ∈ mergeAccesses n i key ↔
    ∃ j, f = key j ∧ if i = 0 then 0 < j ∧ j < n else j = 0 := by
  rw [mergeAccesses]
  split_ifs with h
  · simp only [List.mem_append, List.mem_map, List.mem_singleton, List.mem_range'_1]
    constructor
    · rintro (⟨j, hj, heq⟩ | heq)
      · exact ⟨j, (Access.wait.inj heq).symm, by omega⟩
      · cases heq
    · rintro ⟨j, rfl, hj⟩
      exact .inl ⟨j, by omega, rfl⟩
  · simp

theorem get_notMem_mergeAccesses : .get f ∉ mergeAccesses n i key := by
  rw [mergeAccesses]
  split_ifs <;> simp

theorem ordered_mergeAccesses (h : ∀ j, 0 < j → (key j).rank < (key 0).rank) :
    (mergeAccesses n i key).Pairwise Ordered := by
  rw [mergeAccesses]
  split_ifs
  · refine ordered_append (key 0).rank (List.pairwise_map.2 ?_) (List.pairwise_singleton _ _) ?_ ?_
    · exact List.pairwise_of_forall fun j j' f f' _ hput => by cases hput
    · intro f hf
      obtain ⟨j, hj, heq⟩ := List.mem_map.1 hf
      rw [← Access.wait.inj heq]
      exact h j (List.mem_range'_1.1 hj).1
    · intro f hf
      rw [Access.put.inj (List.mem_singleton.1 hf)]
  · exact List.pairwise_pair.2 fun f f' hwait => by cases hwait

end Merge

/-! ## The steps -/

theorem put_mem_stepAccesses {stage : Nat} : .put f ∈ stepAccesses n i stage ↔
    f = .projects stage i ∨ f = .users (stage + 1) i := by
  simp [stepAccesses, put_mem_mergeAccesses]

theorem wait_mem_stepAccesses {stage : Nat} (h : .wait f ∈ stepAccesses n i stage) :
    f = .users stage 0 ∨ ∃ j, (f = .projects stage j ∨ f = .users (stage + 1) j) ∧
      if i = 0 then 0 < j ∧ j < n else j = 0 := by
  rw [stepAccesses, List.mem_append, List.mem_append, List.mem_singleton, wait_mem_mergeAccesses,
    wait_mem_mergeAccesses] at h
  rcases h with heq | ⟨j, rfl, hj⟩ | ⟨j, rfl, hj⟩
  · exact .inl (Access.wait.inj heq)
  · exact .inr ⟨j, .inl rfl, hj⟩
  · exact .inr ⟨j, .inr rfl, hj⟩

theorem get_notMem_stepAccesses {stage : Nat} : .get f ∉ stepAccesses n i stage := by
  simp [stepAccesses, get_notMem_mergeAccesses]

theorem rank_of_wait_mem {stage : Nat} (h : .wait f ∈ stepAccesses n i stage) :
    f.rank < 4 * (stage + 1) + 1 := by
  obtain rfl | ⟨j, rfl | rfl, -⟩ := wait_mem_stepAccesses h
  · simp only [Frame.rank, if_true]
    omega
  · simp only [Frame.rank]
    split_ifs <;> omega
  · simp only [Frame.rank]
    split_ifs <;> omega

theorem rank_of_put_mem {stage : Nat} (h : .put f ∈ stepAccesses n i stage) :
    4 * stage + 1 ≤ f.rank := by
  obtain rfl | rfl := put_mem_stepAccesses.1 h
  · simp only [Frame.rank]
    split_ifs <;> omega
  · simp only [Frame.rank]
    split_ifs <;> omega

theorem ordered_stepAccesses (stage : Nat) : (stepAccesses n i stage).Pairwise Ordered := by
  refine ordered_append (4 * stage + 1) (List.pairwise_singleton _ _)
    (ordered_append (4 * stage + 3) (ordered_mergeAccesses ?_)
      (ordered_mergeAccesses ?_) ?_ ?_) ?_ ?_
  · intro j hj
    simp [Frame.rank, hj.ne']
  · intro j hj
    simp only [Frame.rank, if_neg hj.ne', if_true]
    omega
  · intro f hf
    obtain ⟨j, rfl, -⟩ := wait_mem_mergeAccesses.1 hf
    simp only [Frame.rank]
    split_ifs <;> omega
  · intro f hf
    rw [put_mem_mergeAccesses.1 hf]
    simp only [Frame.rank]
    split_ifs <;> omega
  · intro f hf
    rw [Access.wait.inj (List.mem_singleton.1 hf)]
    simp [Frame.rank]
  · intro f hf
    exact rank_of_put_mem (n := n) (i := i) (List.mem_append_right _ hf)

/-! ## The runs -/

theorem ordered_runAccesses (degrees : Nat) : (runAccesses n degrees i).Pairwise Ordered := by
  refine ordered_append 1 ?_ (List.pairwise_flatMap.2
    ⟨fun stage _ => ordered_stepAccesses stage, ?_⟩)
    ?_ ?_
  · rw [readAccesses]
    split_ifs <;> simp [Ordered]
  · refine (List.pairwise_lt_range).imp fun {stage stage'} hlt a ha b hb f f' heq heq' => ?_
    subst heq heq'
    have hwait := rank_of_wait_mem ha
    have hput := rank_of_put_mem hb
    omega
  · intro f hf
    rw [readAccesses] at hf
    split_ifs at hf <;> simp at hf
    obtain rfl | rfl | rfl := hf <;> exact Nat.one_pos
  · intro f hf
    obtain ⟨stage, -, hmem⟩ := List.mem_flatMap.1 hf
    exact (Nat.le_add_left 1 _).trans (rank_of_put_mem hmem)

theorem put_mem_runAccesses {stage : Nat} (hstage : stage < degrees)
    (h : f = .projects stage i ∨ f = .users (stage + 1) i) : .put f ∈ runAccesses n degrees i :=
  List.mem_append_right _
    (List.mem_flatMap.2 ⟨stage, List.mem_range.2 hstage, put_mem_stepAccesses.2 h⟩)

/-- Every data frame that a node waits for is put by one. -/
theorem provided_runAccesses (hi : i < n) (h : .wait f ∈ runAccesses n degrees i) :
    ∃ j < n, .put f ∈ runAccesses n degrees j := by
  have hn : 0 < n := Nat.zero_lt_of_lt hi
  rcases List.mem_append.1 h with hread | hstep
  · -- the tables
    have hput : .put f ∈ readAccesses 0 := by
      rw [readAccesses] at hread
      split_ifs at hread <;> simp at hread
      obtain rfl | rfl | rfl := hread <;> simp [readAccesses]
    exact ⟨0, hn, List.mem_append_left _ hput⟩
  · obtain ⟨stage, hmem, hwait⟩ := List.mem_flatMap.1 hstep
    have hstage := List.mem_range.1 hmem
    obtain rfl | ⟨j, hf, hj⟩ := wait_mem_stepAccesses hwait
    · -- the users of the last step
      cases stage with
      | zero => exact ⟨0, hn, List.mem_append_left _ (by simp [readAccesses])⟩
      | succ stage => exact ⟨0, hn, put_mem_runAccesses (Nat.lt_of_succ_lt hstage) (.inr rfl)⟩
    · refine ⟨j, ?_, put_mem_runAccesses hstage hf⟩
      split_ifs at hj
      · exact hj.2
      · exact hj ▸ hn

theorem get_notMem_runAccesses : .get f ∉ runAccesses n degrees i := by
  intro h
  rcases List.mem_append.1 h with hread | hstep
  · rw [readAccesses] at hread
    split_ifs at hread <;> simp at hread
  · obtain ⟨stage, -, hget⟩ := List.mem_flatMap.1 hstep
    exact get_notMem_stepAccesses hget

/-- The pool of the nodes. -/
abbrev nodes (n degrees : Nat) (input : Input) (localRows : Nat → List Row → Option (List Row)) :
    Pool (Fin n) Bytes (List Row) Fields :=
  .init fun i => run n degrees input localRows i

variable {input : Input} {localRows : Nat → List Row → Option (List Row)}

theorem Commit.row_injective : Function.Injective Commit.row := by
  rintro ⟨pid, author, committer⟩ ⟨pid', author', committer'⟩ h
  simpa [Commit.row] using h

/-- The nodes share out the rows of the commits: `local_map` fails on none of them, and visits
    each row on one. -/
def SharesOut (n : Nat) (input : Input) (localRows : Nat → List Row → Option (List Row)) : Prop :=
  ∃ parts : Nat → List Row, (∀ i < n, localRows i (input.commits.map Commit.row) = some (parts i)) ∧
    ((List.range n).flatMap parts).Perm (input.commits.map Commit.row)

/-- The commits that are local to the nodes. -/
theorem SharesOut.exists_commits (h : SharesOut n input localRows) : ∃ cs : Nat → List Commit,
    (∀ c, c ∈ input.commits ↔ ∃ i < n, c ∈ cs i) ∧
      ∀ i < n, localRows i (input.commits.map Commit.row) = some ((cs i).map Commit.row) := by
  obtain ⟨parts, hparts, hperm⟩ := h
  have hlocal (i : Nat) : ∃ cs : List Commit, i < n → parts i = cs.map Commit.row := by
    by_cases hi : i < n
    · have hrows : parts i ∈ Set.range (List.map Commit.row) := by
        rw [Set.range_list_map]
        intro r hr
        obtain ⟨c, -, rfl⟩ := List.mem_map.1
          (hperm.mem_iff.1 (List.mem_flatMap.2 ⟨i, List.mem_range.2 hi, hr⟩))
        exact ⟨c, rfl⟩
      obtain ⟨cs, hcs⟩ := hrows
      exact ⟨cs, fun _ => hcs.symm⟩
    · exact ⟨[], fun hlt => absurd hlt hi⟩
  choose cs hcs using hlocal
  refine ⟨cs, fun c => ?_, fun i hi => by rw [hparts i hi, hcs i hi]⟩
  rw [← List.mem_map_of_injective Commit.row_injective, ← hperm.mem_iff, List.mem_flatMap]
  refine exists_congr fun i => ?_
  rw [List.mem_range]
  refine and_congr_right fun hi => ?_
  rw [hcs i hi, List.mem_map_of_injective Commit.row_injective]

/-- In every interleaving, all nodes can get done, none fails an assertion, and a node that is
    done holds the sets of the rounds. -/
theorem run_finishes (h : SharesOut n input localRows) (degrees : Nat)
    {s : Pool (Fin n) Bytes (List Row) Fields}
    (hrun : Pool.Run (nodes n degrees input localRows) s) :
    (∀ i, s.prog i ≠ .fail) ∧ (∀ i l, s.prog i = .ret l → l = input.fields degrees) ∧
      ∃ s', Pool.Run s s' ∧ ∀ i, s'.prog i = .ret (input.fields degrees) := by
  obtain ⟨cs, hcs, hlocal⟩ := h.exists_commits
  obtain ⟨spec, rank, hsched⟩ : ∃ spec rank, Pool.Schedulable spec rank
      (fun i : Fin n => run n degrees input localRows i)
      (fun i => (runAccesses n degrees i).map (.map Frame.name)) fun _ => input.fields degrees := by
    refine Pool.Schedulable.of_names Frame.name_injective (input.rows cs) Frame.rank
      (fun spec hspec i => run_does hcs hlocal hspec i.isLt degrees) (fun i f hf => ?_)
      (fun i => ordered_runAccesses degrees) fun i f => get_notMem_runAccesses
    obtain ⟨j, hj, hput⟩ := provided_runAccesses i.isLt hf
    exact ⟨⟨j, hj⟩, hput⟩
  obtain ⟨rest, hfollows⟩ := hsched.follows hrun
  exact ⟨fun i => hfollows.ne_fail, fun i l => hfollows.eq_of_ret, hfollows.exists_run hsched⟩

end Eau2.Linus

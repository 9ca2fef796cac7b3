import Eau2.Linus.Frames
import Eau2.Network.Frames

/-!
# The application on the network

All that a node reads of another one, apart from its own segments, is on the controller if the
projects and the users fit in one segment: the sets that the nodes merge, and the keys of
the tables, whose commits may be many segments. So the application completes on the network
(`KD.steps_complete`), whatever the order in which the threads of the nodes move, and every
node has the sets of `Input.rounds` in the end.
-/

namespace Eau2.Linus

open Prog (Access)

variable {n degrees i : Nat} {f : Frame}

/-- What a node puts is made in the run, and is a set unless the node is the controller. -/
theorem made_of_put (hi : i < n) (h : .put f ∈ runAccesses n degrees i) :
    f.Made n degrees ∧ (i ≠ 0 → f.IsSet) := by
  rcases List.mem_append.1 h with hread | hstep
  · rw [readAccesses] at hread
    split_ifs at hread with hzero
    · refine ⟨?_, absurd hzero⟩
      simp only [List.mem_cons, Access.put.injEq, List.not_mem_nil, or_false] at hread
      rcases hread with rfl | rfl | rfl | rfl
      · trivial
      · trivial
      · trivial
      · exact ⟨Nat.zero_le _, hzero ▸ hi, fun _ => rfl⟩
    · simp at hread
  · obtain ⟨stage, hmem, hput⟩ := List.mem_flatMap.1 hstep
    have hstage := List.mem_range.1 hmem
    rcases put_mem_stepAccesses.1 hput with rfl | rfl
    · exact ⟨⟨hstage, hi⟩, fun _ => trivial⟩
    · exact ⟨⟨hstage, hi, fun heq => absurd heq (Nat.succ_ne_zero stage)⟩, fun _ => trivial⟩

/-- What a node puts is its own. -/
theorem node_of_put (h : .put f ∈ runAccesses n degrees i) : f.node = i := by
  rcases List.mem_append.1 h with hread | hstep
  · rw [readAccesses] at hread
    split_ifs at hread with hzero
    · simp only [List.mem_cons, Access.put.injEq, List.not_mem_nil, or_false] at hread
      rcases hread with rfl | rfl | rfl | rfl <;> exact hzero.symm
    · simp at hread
  · obtain ⟨stage, -, hput⟩ := List.mem_flatMap.1 hstep
    rcases put_mem_stepAccesses.1 hput with rfl | rfl <;> rfl

theorem putKeys_mergeAccesses (n i : Nat) (key : Nat → Frame) :
    Pool.putKeys (mergeAccesses n i key) = [key i] := by
  rw [mergeAccesses]
  split_ifs with hzero
  · have hwaits : Pool.putKeys ((List.range' 1 (n - 1)).map fun j => Access.wait (key j)) = [] := by
      simp [Pool.putKeys, List.filterMap_eq_nil_iff, Access.putKey]
    rw [Pool.putKeys_append, hwaits, hzero]
    rfl
  · rfl

theorem putKeys_stepAccesses (n i stage : Nat) :
    Pool.putKeys (stepAccesses n i stage) = [.projects stage i, .users (stage + 1) i] := by
  rw [stepAccesses, Pool.putKeys_append, Pool.putKeys_append, putKeys_mergeAccesses,
    putKeys_mergeAccesses]
  rfl

/-- No data frame is put twice. -/
theorem once_runAccesses (n degrees : Nat) :
    Pool.Once fun i : Fin n => runAccesses n degrees i where
  nodup i := by
    have hsteps : Pool.putKeys ((List.range degrees).flatMap (stepAccesses n i)) =
        (List.range degrees).flatMap fun stage => [.projects stage i, .users (stage + 1) i] := by
      rw [Pool.putKeys, List.filterMap_flatMap]
      exact List.flatMap_congr fun stage _ => putKeys_stepAccesses n i stage
    rw [runAccesses, Pool.putKeys_append, hsteps, List.nodup_append, List.nodup_flatMap]
    refine ⟨?_, ⟨fun stage _ => by simp, ?_⟩, ?_⟩
    · rw [readAccesses]
      split_ifs <;> decide
    · -- two steps have different stages
      refine List.pairwise_lt_range.imp fun {stage stage'} hlt => ?_
      simp [Function.onFun, hlt.ne']
    · intro f hf f' hf' heq
      rw [Pool.mem_putKeys, readAccesses] at hf
      subst heq
      split_ifs at hf <;> simp at hf hf'
      obtain rfl | rfl | rfl | rfl := hf <;> simp at hf'
  eq_of_mem i j f hi hj := Fin.ext ((node_of_put hi).symm.trans (node_of_put hj))

theorem Frame.name_ne_nil (f : Frame) : f.name ≠ [] := by
  have hdash {w w' : Bytes} : w ++ lit "-" ++ w' ≠ [] :=
    List.append_ne_nil_of_left_ne_nil
      (List.append_ne_nil_of_right_ne_nil _ (List.cons_ne_nil _ _)) _
  cases f with
  | projs | usrs | comts => exact List.cons_ne_nil _ _
  | projects | users => exact hdash

namespace KD

variable {files : Files} {draws : Draws} {input : Input} {cs : Nat → List Commit}

/-- A set of projects or users has as many rows at most. -/
theorem length_rows_le (hprojects : input.projects.length ≤ defaultSegmentCapacity)
    (husers : input.users.length ≤ defaultSegmentCapacity) (hf : f.IsSet) :
    ((catalog n degrees files draws input cs).rows f).length ≤
      (catalog n degrees files draws input cs).cap f := by
  have hlen (set : Set) : (frame set).length ≤ set.size := by
    rw [frame, List.length_map, Set.elems]
    exact (List.length_filter_le _ _).trans_eq List.length_range
  cases f with
  | projs | usrs | comts => exact hf.elim
  | projects stage node => exact (hlen _).trans hprojects
  | users stage node =>
    cases stage with
    | zero => exact le_rfl
    | succ stage => exact (hlen _).trans husers

/-- What a node runs, and the check that it has tagged the users and projects of the rounds. -/
def checked (n degrees : Nat) (files : Files) (draws : Draws) (input : Input) (i : Nat) :
    Prog Key Value Unit := do
  let l ← run n files draws i degrees
  Prog.assert (l.uSet.vals = (input.rounds degrees).fst ∧ l.pSet.vals = (input.rounds degrees).snd)

/-- On the network, in every order in which the threads of the nodes move, no node stops, and all
    make their steps and have the sets of the rounds in the end. -/
theorem steps_complete (n degrees : Nat) (files : Files) (draws : Draws) (input : Input)
    (hfiles : files.Has n draws input) (hprojects : input.projects.length ≤ defaultSegmentCapacity)
    (husers : input.users.length ≤ defaultSegmentCapacity)
    (hrows : input.commits.length ≤ defaultSegmentCapacity * 1000)
    (hids : DistinctIds n degrees files draws)
    (hne : ∀ f c, IsColumn n degrees files f c → colId (draws f c) ≠ [])
    (hcommits : input.commits ≠ []) (hdegrees : degrees < 2 ^ 31) :
    Network.Completes n (checked n degrees files draws input) := by
  have hfits : Fits input := by
    have hle : defaultSegmentCapacity ≤ defaultSegmentCapacity * 1000 := by decide
    simp only [Fits, List.forall_mem_cons, List.not_mem_nil, false_implies, implies_true, and_true]
    exact ⟨hprojects.trans hle, husers.trans hle, hrows⟩
  obtain ⟨L, e, hkept⟩ := exists_kept hids hne hfiles hfits
    (input.commits.dealt n defaultSegmentCapacity)
  have hsets (f : Frame) (hmade : f.Made n degrees) (hf : f.IsSet) (kv : Key × Value)
      (hkv : kv ∈ (e f).puts) : kv.1.node = 0 := by
    refine Entry.node_of_mem ?_ hkv
    rw [hkept.rows hmade, (hkept.produces f hmade).cap]
    exact length_rows_le hprojects husers hf
  have hsched : L.Scheduled (fun i : Fin n => Catalog.around i) Frame.rank
      (fun i : Fin n => run n files draws i degrees) (fun i => runAccesses n degrees i)
      fun _ => Fields.Is input e degrees :=
    scheduled hkept hcommits (hdegrees.trans (by norm_num))
      (fun _ _ => .inr) fun _ f hmade hf kv hkv => .inl (hsets f hmade hf kv hkv)
  have hchecked : L.Scheduled (fun i : Fin n => Catalog.around i) Frame.rank
      (fun i : Fin n => checked n degrees files draws input i) (fun i => runAccesses n degrees i)
      fun _ _ => True := by
    refine ⟨fun i => (hsched.makes i).assert fun l hl => ?_, hsched.provided, hsched.ordered⟩
    obtain ⟨hfst, hsnd⟩ := rounds_lt input degrees
    rw [hl.uSet, hl.pSet]
    exact ⟨Finset.filter_true_of_mem hfst, Finset.filter_true_of_mem hsnd⟩
  exact hkept.completes (fun f => ⟨rfl, f.printed.name_ne_nil⟩) hchecked
    (once_runAccesses n degrees) (fun i f hf => (made_of_put i.isLt hf).1)
    fun i f hi hf => length_rows_le hprojects husers ((made_of_put i.isLt hf).2 hi)

/-- The project 2 is tagged, and both users. -/
theorem steps_complete_fewRows :
    (twoCommits.rounds 1).fst = {1, 2} ∧ (twoCommits.rounds 1).snd = {2} ∧
    Network.Completes 2 (checked 2 1 fewRows lettered twoCommits) :=
  ⟨by decide, by decide,
    steps_complete 2 1 fewRows lettered twoCommits (has_fewRows goodIds_lettered) (by decide)
      (by decide) (by decide) distinctIds_lettered (fun _ _ => colId_lettered_ne)
        (by decide) (by decide)⟩

end KD

end Eau2.Linus

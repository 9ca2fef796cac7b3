import Eau2.DataFrame.Effects
import Eau2.Linus.Step
import Eau2.Network.Progress

/-!
# Merging over the network

`merge` again, now as a program over the store of the node (`KD.merge`): the data frame of a
set is put segment by segment, and to go over a data frame is to get its segments from
their homes. So the node 0, going over what a worker has found, sends `GET`s to the node
of the worker, which asks it for the merged data frame with a `WAITANDGET` on the same
connection; if the two cross, the reply is withheld, and both nodes wait for ever.

As long as no requests cross so, no reply is withheld, and the nodes do not come to a
deadlock in `merge`, however many segments there are (`no_reply_withheld`).
-/

namespace Eau2.Linus

open Network

variable {n i stage : Nat} {name : Bytes} {k : Key}

namespace KD

/-- `Key(str->c_str())`, of the name made of `name`, `stage`, `-` and `node`. -/
def key (name : Bytes) (stage node : Nat) : Key := .ofCStr (frameKey name stage node) 0

/-- `fromVisitor(&k, &kd_, "I", writer)`, for the writer of the set. There is at most one
    visit for each index. -/
def fromVisitor (n : Nat) (draws : Nat → Fin 10 → Fin 53) (k : Key) (set : Set) :
    Prog Key Value DataFrame :=
  DataFrame.fromVisitor n k (lit "I") draws (setWriter set) 0 (set.size + 1)

/-- A data frame is waited for, and its rows are added to the set. -/
def update (set : Set) (k : Key) : Prog Key Value Set := do
  let delta ← KDStore.waitAndGet k
  let r ← delta.map setUpdater set
  return r.1

/-- `merge`, of `n` nodes, the columns of this node having drawn `draws`: the set after it. -/
def merge (n thisNode : Nat) (draws : Nat → Fin 10 → Fin 53) (set : Set) (name : Bytes)
    (stage : Nat) : Prog Key Value Set := do
  if thisNode = 0 then
    let set ← (List.range' 1 (n - 1)).foldlM (fun set i => update set (key name stage i)) set
    let _ ← fromVisitor n draws (key name stage 0) set
    return set
  else
    let _ ← fromVisitor n draws (key name stage thisNode) set
    update set (key name stage 0)

end KD

/-- The names that `step` has sets merged under. -/
def mergeNames : List Bytes := [lit "projects-", lit "users-"]

/-- The programs of the nodes, each merging a set of its own. -/
def mergers (n : Nat) (draws : Nat → Nat → Fin 10 → Fin 53) (sets : Nat → Set) (name : Bytes)
    (stage i : Nat) : Prog Key Value Unit := do
  let _ ← KD.merge n i (draws i) (sets i) name stage
  return ()

/-! ## The keys -/

theorem frameKey_not_mem {c : UInt8} (hname : c ∉ name) (hdash : c ≠ 45)
    (hdigit : ∀ d < 10, digit d ≠ c) (stage node : Nat) : c ∉ frameKey name stage node := by
  have hlit : c ∉ lit "-" := fun h => hdash (List.mem_singleton.1 h)
  simp only [frameKey, List.mem_append, not_or]
  exact ⟨⟨⟨hname, not_mem_decimal hdigit stage⟩, hlit⟩, not_mem_decimal hdigit node⟩

theorem not_mem_mergeNames {c : UInt8} (hc : c = 0 ∨ c = 95) (h : name ∈ mergeNames) :
    c ∉ name := by
  rw [mergeNames, List.mem_pair] at h
  rcases h with rfl | rfl <;> rcases hc with rfl | rfl <;> decide

theorem KD.key_k (h : name ∈ mergeNames) (stage node : Nat) :
    (key name stage node).k = frameKey name stage node :=
  cString_of_not_mem (frameKey_not_mem (not_mem_mergeNames (.inl rfl) h) (by decide)
    (fun d hd => by interval_cases d <;> decide) stage node)

theorem KD.key_inj (h : name ∈ mergeNames) {node node' : Nat}
    (heq : key name stage node = key name stage node') : node = node' := by
  have hk := congrArg Key.k heq
  rw [key_k h, key_k h] at hk
  exact (frameKey_inj hk).2

/-- The data frames are not put under the keys of segments. -/
theorem KD.key_not_mem_segmentKeys (h : name ∈ mergeNames) (stage node : Nat) :
    key name stage node ∉ segmentKeys := by
  intro hmem
  have hmem : 95 ∈ (key name stage node).k := hmem
  rw [key_k h] at hmem
  exact frameKey_not_mem (not_mem_mergeNames (.inr rfl) h) (by decide)
    (fun d hd => by interval_cases d <;> decide) stage node hmem

/-! ## What the nodes wait for and put -/

/-- Going over a data frame that has been waited for. -/
theorem KD.ofValue_gets (set : Set) (v : Value) : (KDStore.ofValue v >>= fun delta =>
    delta.map setUpdater set >>= fun r => pure r.1).Gets Set.univ :=
  (Prog.gets_ofOption _).bind fun delta => (delta.map_gets setUpdater set).bind fun _ => trivial

theorem KD.eq_of_mayWait_update {set : Set} {k k' : Key} (h : (update set k).MayWait k') :
    k' = k := by
  rcases h with rfl | ⟨v, h⟩
  · rfl
  · exact absurd h ((ofValue_gets set v).not_mayWait k')

theorem KD.not_mayPut_update {set : Set} {k k' : Key} : ¬(update set k).MayPut k' := by
  rintro ⟨v, h⟩
  exact (ofValue_gets set v).not_mayPut k' h

section

variable {draws : Nat → Nat → Fin 10 → Fin 53} {sets : Nat → Set}

theorem mergers_zero : mergers n draws sets name stage 0 =
    (List.range' 1 (n - 1)).foldlM (fun set i => KD.update set (KD.key name stage i)) (sets 0) >>=
      fun set => KD.fromVisitor n (draws 0) (KD.key name stage 0) set >>= fun _ => pure () := by
  simp only [mergers, KD.merge, if_true, bind_assoc, pure_bind]

theorem mergers_of_ne (hi : i ≠ 0) : mergers n draws sets name stage i =
    KD.fromVisitor n (draws i) (KD.key name stage i) (sets i) >>= fun _ =>
      KD.update (sets i) (KD.key name stage 0) >>= fun _ => pure () := by
  simp only [mergers, KD.merge, if_neg hi, bind_assoc]

theorem KD.fromVisitor_puts (draws : Nat → Fin 10 → Fin 53) (k : Key) (set : Set) :
    (fromVisitor n draws k set).Puts (insert k segmentKeys) fun _ => True :=
  DataFrame.fromVisitor_puts ..

/-- The node 0 waits for the frames of the others. -/
theorem mayWait_mergers_zero (h : (mergers n draws sets name stage 0).MayWait k) :
    ∃ j, 0 < j ∧ j < n ∧ k = KD.key name stage j := by
  rw [mergers_zero] at h
  rcases h.of_bind with h | ⟨set, h⟩
  · obtain ⟨j, hj, set, h⟩ := h.of_foldlM
    obtain ⟨hpos, hlt⟩ := List.mem_range'_1.1 hj
    exact ⟨j, hpos, by omega, KD.eq_of_mayWait_update h⟩
  · rcases h.of_bind with h | ⟨_, h⟩
    · exact absurd h ((KD.fromVisitor_puts ..).not_mayWait k)
    · exact h.elim

/-- The other nodes wait for the merged frame. -/
theorem mayWait_mergers_of_ne (hi : i ≠ 0) (h : (mergers n draws sets name stage i).MayWait k) :
    k = KD.key name stage 0 := by
  rw [mergers_of_ne hi] at h
  rcases h.of_bind with h | ⟨_, h⟩
  · exact absurd h ((KD.fromVisitor_puts ..).not_mayWait k)
  · rcases h.of_bind with h | ⟨_, h⟩
    · exact KD.eq_of_mayWait_update h
    · exact h.elim

/-- The other nodes put segments, and frames of their own. -/
theorem mayPut_mergers_of_ne (hi : i ≠ 0) (h : (mergers n draws sets name stage i).MayPut k) :
    k = KD.key name stage i ∨ k ∈ segmentKeys := by
  rw [mergers_of_ne hi] at h
  rcases h.of_bind with h | ⟨_, h⟩
  · exact (KD.fromVisitor_puts ..).mem h
  · rcases h.of_bind with h | ⟨_, h⟩
    · exact absurd h KD.not_mayPut_update
    · exact h.elim

/-- The node 0 owes the merged frame, once it has got those of the others; these owe their
    frames before they wait for anything. -/
theorem owes_mergers {rank : Key → Nat}
    (hrank : ∀ j, 0 < j → j < n → rank (KD.key name stage j) < rank (KD.key name stage 0))
    (i : Nat) :
    (mergers n draws sets name stage i).Owes rank (KD.key name stage i) := by
  by_cases hi : i = 0
  · subst hi
    rw [mergers_zero]
    refine Prog.Owes.after (fun k' h => ?_) fun set => .bind (DataFrame.fromVisitor_owes ..) _
    obtain ⟨j, hj, set, h⟩ := h.of_foldlM
    obtain ⟨hpos, hlt⟩ := List.mem_range'_1.1 hj
    rw [KD.eq_of_mayWait_update h]
    exact hrank j hpos (by omega)
  · rw [mergers_of_ne hi]
    exact .bind (DataFrame.fromVisitor_owes ..) _

/-- The merged frame, the only one waited for on another node, is put by the node 0 only. -/
theorem putAtHome_mergers (hname : name ∈ mergeNames) :
    PutAtHome (mergers n draws sets name stage) := by
  intro i k hwait hnode j hj hput
  have hi : i ≠ 0 := by
    rintro rfl
    obtain ⟨j, -, -, rfl⟩ := mayWait_mergers_zero hwait
    exact hnode rfl
  obtain rfl := mayWait_mergers_of_ne hi hwait
  rcases mayPut_mergers_of_ne hj hput with heq | hseg
  · exact hj (KD.key_inj hname heq).symm
  · exact KD.key_not_mem_segmentKeys hname stage 0 hseg

end

end Eau2.Linus

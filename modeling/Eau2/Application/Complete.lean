import Eau2.Application.Demo
import Eau2.Application.WordCount
import Eau2.Network.Frames

/-!
# The applications of the tests on the network

What the nodes read of each other is on the controller, if the sums and the values of the demo,
and the counts of the words, fit in one segment. So both complete on the network, whatever the
order in which the threads of the nodes move: `Demo.demo_completes`, in which no assertion fails,
and `WordCount.counting_completes`, in which the node 0 has how often every word is in the file. The
file of which the words are counted may be many segments.
-/

namespace Eau2

open Prog (Access)

namespace Demo

variable {arith : Arith} {n sz : Nat} {draws : Draws}

theorem length_rows_le (hsz : sz ≤ defaultSegmentCapacity) (f : Frame) :
    ((catalog arith n sz draws).rows f).length ≤ (catalog arith n sz draws).cap f := by
  have hlen : (column arith sz .main).length = sz := by
    rw [column, vals, List.length_map, List.length_range]
  cases f with
  | main => exact (List.length_map _).trans_le (hlen.trans_le hsz)
  | verify | check => exact le_rfl

/-- No data frame is put twice. -/
theorem once_runAccesses (n : Nat) : Pool.Once fun i : Fin n => runAccesses i where
  nodup i := by
    generalize i.val = j
    rcases j with _ | _ | _ | j
    · decide
    · decide
    · decide
    · exact List.nodup_nil
  eq_of_mem := by
    -- what puts a frame is told by the frame
    have hnode {i : Nat} {f : Frame} (h : .put f ∈ runAccesses i) :
        i = if f = .verify then 1 else 0 := by
      rcases i with _ | _ | _ | i <;> simp [runAccesses] at h
      · obtain rfl | rfl := h <;> rfl
      · rw [h, if_pos rfl]
    exact fun i j f hi hj => Fin.ext ((hnode hi).trans (hnode hj).symm)

/-- On the network, in every order in which the threads of the nodes move, the assertion of the
    summarizer holds, no node stops, and all get done. -/
theorem demo_completes (arith : Arith) (n sz : Nat) (hsz : sz ≤ defaultSegmentCapacity)
    (draws : Draws)
    (hne : ∀ f, colId (draws f) ≠ []) (hids : Function.Injective fun f => colId (draws f))
    (heq : arith.eq (sum arith sz) (sum arith sz)) :
    Network.Completes n (run arith n sz draws) := by
  have hsz' : sz ≤ defaultSegmentCapacity * 1000 :=
    hsz.trans (Nat.le_mul_of_pos_right _ (by norm_num))
  obtain ⟨L, e, hkept⟩ : ∃ L e, (catalog arith n sz draws).Kept (n := n) L e :=
    exists_kept hsz' hne hids
  have hnear (f : Frame) (kv : Key × Value) (hkv : kv ∈ (e f).puts) : kv.1.node = 0 := by
    refine Entry.node_of_mem ?_ hkv
    rw [hkept.rows trivial, (hkept.produces f trivial).cap]
    exact length_rows_le hsz f
  have hsched : L.Scheduled (fun i : Fin n => Catalog.around i) Frame.rank
      (fun i : Fin n => run arith n sz draws i) (fun i => runAccesses i) fun _ _ => True :=
    scheduled hkept heq fun _ f kv hkv => .inl (hnear f kv hkv)
  refine hkept.completes (fun f => ?_) hsched (once_runAccesses n) (fun _ _ _ => trivial)
    fun _ f _ _ => length_rows_le hsz f
  cases f <;> exact ⟨rfl, List.cons_ne_nil _ _⟩

theorem demo_completes_whole : Network.Completes 3 (run wholeArith 3 (10 * 1000) lettered) :=
  demo_completes wholeArith 3 (10 * 1000) (by decide) lettered (fun f => by cases f <;> decide)
    (fun f f' h => by cases f <;> cases f' <;> first | rfl | exact absurd h (by decide))
      (beq_self_eq_true _)

end Demo

namespace WordCount

open FileReader (bufsize)

variable {n i : Nat} {draws : Draws} {iter : Nat → Counts → List Entry}

/-- What a node puts is made in the run, and are counts unless the node is the controller. -/
theorem made_of_put (hi : i < n) {f : Frame} (h : .put f ∈ runAccesses n i) :
    f.Made n ∧ (i ≠ 0 → f = .counts i) := by
  rw [runAccesses] at h
  split_ifs at h with hzero
  · simp only [List.mem_cons, List.mem_map, Access.put.injEq, reduceCtorEq, and_false,
      exists_false, or_false, false_or] at h
    rcases h with rfl | rfl
    · exact ⟨trivial, absurd hzero⟩
    · exact ⟨hzero ▸ hi, absurd hzero⟩
  · simp only [List.mem_cons, Access.put.injEq, reduceCtorEq, List.not_mem_nil, or_false,
      false_or] at h
    subst h
    exact ⟨hi, fun _ => rfl⟩

/-- No data frame is put twice. -/
theorem once_runAccesses (n : Nat) : Pool.Once fun i : Fin n => runAccesses n i where
  nodup i := by
    rw [runAccesses]
    split_ifs
    · have hwaits : Pool.putKeys ((List.range' 1 (n - 1)).map fun i => Access.wait
        (Frame.counts i)) =
          [] := by
        simp [Pool.putKeys, List.filterMap_eq_nil_iff, Access.putKey]
      have hputs : Pool.putKeys (.put Frame.data :: .wait .data :: .put (.counts 0) ::
          (List.range' 1 (n - 1)).map fun i => Access.wait (Frame.counts i)) =
            [.data, .counts 0] := congrArg (Frame.data :: Frame.counts 0 :: ·) hwaits
      rw [hputs]
      decide
    · exact List.nodup_singleton _
  eq_of_mem := by
    have hnode {i : Nat} {f : Frame} (h : .put f ∈ runAccesses n i) :
        f = .data ∧ i = 0 ∨ f = .counts i := by
      rw [runAccesses] at h
      split_ifs at h with hzero <;> simp at h
      · exact h.imp (⟨·, hzero⟩) fun heq => heq.trans (congrArg _ hzero.symm)
      · exact .inr h
    intro i j f hi hj
    obtain ⟨rfl, hzero⟩ | rfl := hnode hi <;> obtain ⟨heq, hzero'⟩ | heq := hnode hj
    · exact Fin.ext (hzero.trans hzero'.symm)
    · cases heq
    · cases heq
    · exact Fin.ext (Frame.counts.inj heq)

/-- What a node runs, and the check that the node 0 has how often every word is in the file. -/
def checked (n : Nat) (draws : Draws) (iter : Nat → Counts → List Entry) (i : Nat)
    (buf file : Bytes) :
    Prog Key Value Unit := do
  let result ← run n draws iter i buf file
  Prog.assert (i = 0 → (∀ w ∈ file.words isSpace, result.lookup w =
    some ((file.words isSpace).count w : Int)) ∧
    ∀ w ∈ result.keys, w ∈ file.words isSpace)

/-- On the network, in every order in which the threads of the nodes move, no node stops, all get
    done, and the node 0 has how often every word is in the file. -/
theorem counting_completes (n : Nat) (file : Bytes) (h : Readable file)
    (hone : (file.words isSpace).dedup.length ≤ defaultSegmentCapacity) (draws : Draws)
    (hids : DistinctIds n draws) (hne : ∀ f c, f.Made n → c < width f → colId (draws f c) ≠ [])
    (iter : Nat → Counts → List Entry) (hiter : ∀ i map, (iter i map).Perm map.entries)
    (buf : Nat → Bytes) (hbuf : ∀ i, (buf i).length = bufsize + 1)
    (hfirst : ∀ i, ∀ c ∈ (buf i)[bufsize]?, isSpace c = false) :
    Network.Completes n fun i => checked n draws iter i (buf i) file := by
  obtain ⟨fr, maps, L, e, hfr, hmaps, hkept⟩ := exists_kept h hiter hbuf hfirst hids hne
  have hcounts {i : Nat} (hi : i < n) :
    ((catalog n draws iter file fr maps).rows (.counts i)).length ≤
      defaultSegmentCapacity :=
    (List.length_map _).trans_le ((length_counts_le hiter
      (fun i hi => (hmaps i hi).2) hi).trans hone)
  have hnear {i : Nat} (hi : i < n) (kv : Key × Value) (hkv : kv ∈ (e (.counts i)).puts) :
      kv.1.node = 0 := by
    refine Entry.node_of_mem ?_ hkv
    rw [hkept.rows (f := Frame.counts i) hi, (hkept.produces (.counts i) hi).cap]
    exact hcounts hi
  have hsched : L.Scheduled (fun i : Fin n => Catalog.around i) Frame.rank
      (fun i : Fin n => run n draws iter i (buf i) file) (fun i => runAccesses n i)
      fun i map => i.val = 0 → map.Tallies ↑(file.words isSpace) :=
    scheduled h hiter hbuf hfirst hkept hfr hmaps (fun _ _ => .inr) fun _ j hj kv hkv =>
      .inl (hnear hj kv hkv)
  have hchecked : L.Scheduled (fun i : Fin n => Catalog.around i) Frame.rank
      (fun i : Fin n => checked n draws iter i (buf i) file)
        (fun i => runAccesses n i) fun _ _ => True := by
    refine ⟨fun i => (hsched.makes i).assert fun result hresult hzero =>
      ⟨fun w hw => ?_, fun w hw => ?_⟩, hsched.provided, hsched.ordered⟩
    · rw [lookup_of_tallies (hresult hzero), if_pos hw]
    · have hsome := AList.lookup_isSome.2 (AList.mem_keys.2 hw)
      rw [lookup_of_tallies (hresult hzero)] at hsome
      by_contra hmem
      rw [if_neg hmem] at hsome
      cases hsome
  refine hkept.completes (fun f => ?_) hchecked (once_runAccesses n)
    (fun i f hf => (made_of_put i.isLt hf).1) fun i f hi hf => ?_
  · cases f with
    | data => exact ⟨rfl, List.cons_ne_nil _ _⟩
    | counts i => exact ⟨rfl, (mkKey_k i).trans_ne (decimal_ne_nil i)⟩
  · obtain rfl := (made_of_put i.isLt hf).2 hi
    exact hcounts i.isLt

theorem counting_completes_threeWords : Network.Completes 2 fun i =>
    checked 2 lettered (fun _ map => map.entries) i
    (List.replicate (bufsize + 1) 0) threeWords := by
  have hfirst (c : UInt8) (hc : c ∈ (List.replicate (bufsize + 1) (0 : UInt8))[bufsize]?) :
      isSpace c = false := by
    rw [List.getElem?_replicate_of_lt (Nat.lt_succ_self _)] at hc
    cases hc
    rfl
  have hne (f : Frame) (c : Nat) (hf : f.Made 2) (hc : c < width f) :
      colId (lettered f c) ≠ [] := by
    rw [colId_lettered hf hc]
    exact List.cons_ne_nil _ _
  exact counting_completes 2 threeWords readable_threeWords
    (by decide) lettered distinctIds_lettered hne
    (fun _ map => map.entries) (fun _ _ => .refl _) (fun _ => List.replicate (bufsize + 1) 0)
    (fun _ => List.length_replicate) fun _ => hfirst

end WordCount

end Eau2

import Eau2.DataFrame.Catalog
import Eau2.Network.Finish

/-!
# Data frames on the network

An application that could run on a store which the nodes share (`Layout.Scheduled`) runs on the
network: the keys of its data frames are those of the controller, and if the nodes other than
the controller put data frames of one segment only, and read those that fit in one segment, or
the segments that they have, then all accesses are around the controller.

Main result: `Catalog.Kept.completes`.
-/

namespace Eau2

open Prog (Access)

variable {n : Nat} {t : ColType}

theorem Serializer.addSizeT_append_ne_nil (m : Nat) (w : Bytes) : addSizeT m ++ w ≠ [] :=
  List.append_ne_nil_of_left_ne_nil
    (List.ne_nil_of_length_pos (LittleEndian.length_encode 8 m ▸ by decide)) w

namespace Entry

variable (e : Entry n)

theorem value_ne_nil : e.value ≠ [] := by
  obtain ⟨cols, -, hret⟩ := Option.bind_eq_some_iff.1 e.serialize
  have hvalue := Option.some.inj hret
  rw [← hvalue, Schema.serialize, List.append_assoc, List.append_assoc]
  exact Serializer.addSizeT_append_ne_nil _ _

variable {e}

/-- The network carries the puts of the segments. -/
theorem carried_of_mem (hn : 0 < n) {kv : Key × Value} (h : kv ∈ e.puts) :
    kv.1.node < n ∧ kv.1.k ≠ [] ∧ kv.2 ≠ [] := by
  obtain ⟨i, q, j, -, -, -, rfl, hk⟩ := e.exists_of_mem h
  refine ⟨Nat.mod_lt j hn, ?_, Serializer.addSizeT_append_ne_nil _ _⟩
  rw [hk]
  exact Column.segName_ne_nil _ j

/-- Rows that fit in one segment are on the controller. -/
theorem node_of_mem (hone : e.rows.length ≤ e.cap) {kv : Key × Value} (h : kv ∈ e.puts) :
    kv.1.node = 0 := by
  obtain ⟨i, q, j, hq, hj, rfl⟩ := Table.mem_segPuts.1 ((e.mem_puts kv).1 h)
  rw [e.hasRows.length q (List.mem_of_getElem? hq)] at hj
  have hle : List.numChunks e.cap e.rows.length ≤ 1 := by
    rwa [List.numChunks_le_iff e.cap_pos Nat.one_pos, Nat.mul_one]
  obtain rfl : j = 0 := Nat.lt_one_iff.1 (hj.trans_le hle)
  exact Nat.zero_mod n

end Entry

namespace Catalog

variable {F : Type} {C : Catalog F} {L : Layout F Key Value} {e : F → Entry n}
  {bs : Fin n → List (Access F)}

/-- The keys on the controller and on the node `i`. -/
def around (i : Nat) : Set Key := {k | k.node = 0 ∨ k.node = i}

namespace Kept

variable (h : C.Kept L e) (hkey : ∀ f, (C.key f).node = 0 ∧ (C.key f).k ≠ [])
include h hkey

theorem carried_of_writes (hn : 0 < n) {f : F} (hf : f ∈ C.made) {kv : Key × Value}
    (hkv : kv ∈ L.writes f) :
    kv.1.node < n ∧ kv.1.k ≠ [] ∧ L.spec kv.1 ≠ [] := by
  rw [L.spec_of_mem hkv]
  rcases List.mem_append.1 hkv with hseg | hname
  · rw [h.segs f hf] at hseg
    exact Entry.carried_of_mem hn hseg
  · rw [List.mem_singleton.1 hname, h.name, h.value f hf]
    exact ⟨(hkey f).1 ▸ hn, (hkey f).2, (e f).value_ne_nil⟩

theorem node_of_writes {f : F} (hf : f ∈ C.made) (hone : (C.rows f).length ≤ C.cap f)
    {kv : Key × Value} (hkv : kv ∈ L.writes f) : kv.1.node = 0 := by
  rcases List.mem_append.1 hkv with hseg | hname
  · rw [h.segs f hf] at hseg
    refine Entry.node_of_mem ?_ hseg
    rwa [h.rows hf, (h.produces f hf).cap]
  · rw [List.mem_singleton.1 hname, h.name]
    exact (hkey f).1

omit hkey in
/-- No key is put twice for a data frame. -/
theorem nodup_writes {f : F} (hf : f ∈ C.made) : ((L.writes f).map Prod.fst).Nodup := by
  rw [Layout.writes, Layout.pairs, List.map_append, h.segs f hf]
  refine List.nodup_append.2 ⟨(e f).nodup_puts, List.nodup_singleton _, ?_⟩
  rintro k hk _ hname rfl
  obtain ⟨kv, hkv, rfl⟩ := List.mem_map.1 hk
  exact L.name_ne f kv (h.segs f hf ▸ hkv) (List.mem_singleton.1 hname)

/-- Applications that could make their accesses on a shared store, and put no data frame twice,
    complete on the network, if the nodes other than the controller put data frames of one
    segment. -/
theorem completes {rank : F → Nat} {progs : Nat → Prog Key Value Unit} {Q : Fin n → Unit → Prop}
    (hsched : L.Scheduled (fun i : Fin n => around i) rank (fun i : Fin n => progs i) bs Q)
    (honce : Pool.Once bs) (hmade : ∀ i f, .put f ∈ bs i → f ∈ C.made)
    (hone : ∀ i f, i.val ≠ 0 → .put f ∈ bs i → (C.rows f).length ≤ C.cap f) :
    Network.Completes n progs := by
  have hput (i : Fin n) (f : F) (hf : .wait f ∈ bs i) : f ∈ C.made := by
    obtain ⟨j, hj⟩ := hsched.provided i f hf
    exact hmade j f hj
  obtain ⟨as, r, hpub, -, hacc, has⟩ := hsched.exists_published
  have honce' : Pool.Once as := has honce fun i f hf => h.nodup_writes (hmade i f hf)
  refine Network.completes_of_published hpub honce' (fun i a ha => ?_) fun i a ha => ?_
  · have hn : 0 < n := i.pos
    cases a with
    | put k =>
      obtain ⟨f, hf, kv, hkv, rfl⟩ := hacc i _ ha
      exact h.carried_of_writes hkey hn (hmade i f hf) hkv
    | get k =>
      obtain ⟨-, f, hf, kv, hkv, rfl⟩ := hacc i _ ha
      have hcarried := h.carried_of_writes hkey hn (hf.elim (hmade i f) (hput i f)) hkv
      exact ⟨hcarried.1, hcarried.2.1⟩
    | wait k =>
      obtain ⟨f, -, rfl⟩ := hacc i _ ha
      rw [h.name]
      exact ⟨(hkey f).1 ▸ hn, (hkey f).2⟩
  · cases a with
    | put k =>
      obtain ⟨f, hf, kv, hkv, rfl⟩ := hacc i _ ha
      rcases Nat.eq_zero_or_pos i.val with hzero | hpos
      · exact .inl hzero
      · exact .inr (.inl (h.node_of_writes hkey (hmade i f hf) (hone i f hpos.ne' hf) hkv))
    | get k => exact (hacc i _ ha).1
    | wait k =>
      obtain ⟨f, -, rfl⟩ := hacc i _ ha
      rw [h.name]
      exact .inl (hkey f).1

end Kept

end Catalog

end Eau2

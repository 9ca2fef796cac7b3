import Eau2.Linus.Complete
import Eau2.Network.Alone

/-!
# More steps than stages

The stage of a step is an `int`. If it wraps, the users of the step `2 ^ 32` are merged under the
stage 0, and the key `users-0-0`, which `readInput` has put, is put again (`written_once_fails`): a
node alone gets there, with pairwise distinct ids and one segment in each column.
-/

namespace Eau2.Linus

open Network
open Prog (Access)

namespace KD

variable {files : Files} {draws : Draws} {m : Nat}

/-! ## The program -/

/-- A node alone merges its set with no others. -/
theorem merge_alone (d : Nat → Fin 10 → Fin 53) (set : Set) (name : Bytes) (stage : Nat) :
    merge 1 0 d set name stage = fromVisitor 1 d (key name stage 0) set >>= fun _ => pure set := by
  rw [merge, if_pos rfl]
  rfl

/-- The program of a node alone, up to the merging of the users in the step `m`. -/
def front (files : Files) (draws : Draws) (m : Nat) : Prog Key Value (Fields × Set) := do
  let l ← run 1 files draws 0 m
  tagUsers 1 draws 0 l m

/-- In the step `2 ^ 32 - 1`, the users are merged under the stage 0. -/
theorem app_eq (hm : m + 1 = 2 ^ 32) : app 1 files draws 0 (m + 1) =
    front files draws m >>= fun r =>
      fromVisitor 1 (draws (.users (m + 1) 0)) (Frame.users 0 0).key r.2 >>= fun _ => pure () := by
  have hstage : sizeT (BitVec.ofNat 32 m + 1) = 0 := by
    have hzero : BitVec.ofNat 32 m + 1 = 0 := by
      have hadd : BitVec.ofNat 32 m + 1 = BitVec.ofNat 32 (m + 1) := (BitVec.ofNat_add m 1).symm
      rw [hadd, hm]
      rfl
    rw [hzero]
    rfl
  have hkey : (Frame.users 0 0).key = key (lit "users-") 0 0 := key_users (by norm_num) 0
  have hone (l : Fields) : [m].foldlM (step 1 draws 0) l = step 1 draws 0 l m := bind_pure _
  simp only [app, run, front, List.range_succ, List.foldlM_append, hone, step_eq, hstage,
    merge_alone, hkey, bind_assoc, pure_bind]

/-! ## The accesses -/

/-- The data frames that are put and waited for up to there. -/
def frontAccesses (m : Nat) : List (Access Frame) :=
  runAccesses 1 m 0 ++ ([.wait (.users m 0)] ++ mergeAccesses 1 0 (.projects m))

theorem runAccesses_succ (m : Nat) :
    runAccesses 1 (m + 1) 0 = frontAccesses m ++ [.put (.users (m + 1) 0)] := by
  rw [runAccesses, List.range_succ, List.flatMap_append, List.flatMap_singleton, frontAccesses,
    runAccesses, stepAccesses]
  simp [mergeAccesses]

/-- A node alone waits for nothing that it has not put. -/
theorem available_runAccesses (m : Nat) : Pool.Available ∅ (runAccesses 1 m 0) ∧
    .users m 0 ∈ Pool.putKeys (runAccesses 1 m 0) := by
  induction m with
  | zero =>
    have hread : runAccesses 1 0 0 = [.put .projs, .put .usrs, .put .comts, .put (.users 0 0)] :=
      rfl
    rw [hread]
    exact ⟨trivial, by decide⟩
  | succ m ih =>
    rw [runAccesses_succ, Pool.putKeys_append]
    refine ⟨?_, List.mem_append_right _ List.mem_cons_self⟩
    rw [frontAccesses, Pool.available_append, Pool.available_append]
    exact ⟨⟨ih.1, .inr ih.2, trivial⟩, trivial⟩

theorem available_frontAccesses (m : Nat) : Pool.Available ∅ (frontAccesses m) := by
  have h := (available_runAccesses (m + 1)).1
  rw [runAccesses_succ, Pool.available_append] at h
  exact h.1

/-- No data frame is put twice, neither up to there nor next. -/
theorem nodup_frontAccesses (m : Nat) : (Pool.putKeys (frontAccesses m)).Nodup ∧
    .users (m + 1) 0 ∉ Pool.putKeys (frontAccesses m) := by
  have h := (once_runAccesses 1 (m + 1)).nodup 0
  have hacc : runAccesses 1 (m + 1) (0 : Fin 1) = _ := runAccesses_succ m
  rw [hacc, Pool.putKeys_append, List.nodup_append] at h
  exact ⟨h.1, fun hmem => h.2.2 _ hmem _ List.mem_cons_self rfl⟩

/-- What is put up to there is made, and is not the frame that is put next. -/
theorem made_of_put_front {f : Frame} (h : .put f ∈ frontAccesses m) :
    f.Made 1 (m + 1) ∧ f ≠ .users (m + 1) 0 := by
  have hmem : .put f ∈ runAccesses 1 (m + 1) 0 := by
    rw [runAccesses_succ]
    exact List.mem_append_left _ h
  refine ⟨(made_of_put Nat.one_pos hmem).1, ?_⟩
  rintro rfl
  exact (nodup_frontAccesses m).2 (Pool.mem_putKeys.2 h)

theorem made_of_mem_seen {f : Frame} (h : f ∈ Layout.seen (frontAccesses m)) :
    f.Made 1 (m + 1) := by
  rcases h with h | h
  · exact (made_of_put_front h).1
  · have hmem : .wait f ∈ runAccesses 1 (m + 1) 0 := by
      rw [runAccesses_succ]
      exact List.mem_append_left _ h
    obtain ⟨j, hj, hput⟩ := provided_runAccesses Nat.one_pos hmem
    exact (made_of_put hj hput).1

/-! ## The segments -/

/-- Of different keys, at most 1000 are those of segments of one column, if the numbers of all the
    segments have three digits. -/
theorem countP_segments_le {ks : List Key} (hks : ks.Nodup)
    (h : ∀ k ∈ ks, 95 ∉ k.k ∨ ∃ d j, j < 1000 ∧ k = Column.segKey 1 (colId d) j)
    (d : Fin 10 → Fin 53) :
    (ks.countP fun k => (colId d ++ lit "_").isPrefixOf k.k) ≤ 1000 := by
  have hsub : (ks.filter fun k => (colId d ++ lit "_").isPrefixOf k.k) ⊆
      (List.range 1000).map (Column.segKey 1 (colId d)) := by
    intro k hk
    obtain ⟨hmem, hpre⟩ := List.mem_filter.1 hk
    obtain ⟨w, hw⟩ := List.isPrefixOf_iff_prefix.1 hpre
    rcases h k hmem with hplain | ⟨d', j, hj, rfl⟩
    · refine absurd ?_ hplain
      rw [← hw]
      simp [lit]
    · -- the id is what is before the underscore
      rw [Column.segKey_k, Column.segName_colId d' hj, List.append_assoc, List.append_assoc] at hw
      have hdigits : 95 ∉ decimal j :=
        not_mem_decimal (fun d hd => by interval_cases d <;> decide) j
      have hid := ((List.append_cons_inj_of_notMem (not_mem_colId d') hdigits).1 hw.symm).1
      exact List.mem_map.2 ⟨j, List.mem_range.2 hj, by rw [hid]⟩
  rw [List.countP_eq_length_filter]
  have hle := ((hks.filter _).subperm hsub).length_le
  rwa [List.length_map, List.length_range] at hle

/-- A key without an underscore is of no segment. -/
theorem countP_plain (d : Fin 10 → Fin 53) {k : Key} (hk : 95 ∉ k.k) :
    [k].countP (fun k => (colId d ++ lit "_").isPrefixOf k.k) = 0 := by
  refine List.countP_eq_zero.2 fun k' hk' hpre => ?_
  obtain rfl := List.mem_singleton.1 hk'
  obtain ⟨w, hw⟩ := List.isPrefixOf_iff_prefix.1 hpre
  refine hk ?_
  rw [← hw]
  simp [lit]

/-! ## The run -/

section Run

variable {input : Input} {L : Layout Frame Key Value} {e : Frame → Entry 1} {as : List (Access Key)}
  {k : Key}

/-- The keys put for a data frame are different. -/
theorem nodup_keys {e : Entry 1} (hk : k ∉ segmentKeys) :
    ((e.puts ++ [(k, e.value)]).map Prod.fst).Nodup := by
  rw [List.map_append]
  refine List.nodup_append.2 ⟨e.nodup_puts, List.nodup_singleton _, ?_⟩
  rintro k' hseg _ hname rfl
  obtain ⟨kv, hkv, rfl⟩ := List.mem_map.1 hseg
  obtain rfl : kv.1 = k := List.mem_singleton.1 hname
  exact hk (Entry.mem_segmentKeys hkv)

/-- What makes a data frame puts it, in a store of its own. -/
theorem exists_does {p : Prog Key Value DataFrame} {d : Nat → Fin 10 → Fin 53} {cap : Nat}
    {ts : List ColType} {rows : List Row} {e : Entry 1} (h : Produces k p d cap ts rows e)
    (hk : k ∉ segmentKeys) :
    ∃ spec, p.Does spec ((e.puts ++ [(k, e.value)]).map fun kv => .put kv.1) e.frame := by
  refine ⟨fun k' => ((e.puts ++ [(k, e.value)]).lookup k').getD [], .of_writes h.writes ?_⟩
  intro kv hkv
  have hlookup : (e.puts ++ [(k, e.value)]).lookup kv.1 = some kv.2 :=
    Prog.holds_lookup (nodup_keys hk) kv hkv
  rw [hlookup, Option.getD_some]

/-- The keys of the segments of a data frame with one column. -/
theorem exists_of_mem_puts {p : Prog Key Value DataFrame} {d : Nat → Fin 10 → Fin 53} {cap : Nat}
    {t : ColType} {rows : List Row} {e : Entry 1} (h : Produces k p d cap [t] rows e) {k' : Key}
    (hk' : k' ∈ e.puts.map Prod.fst) : ∃ j < 1000, k' = Column.segKey 1 (colId (d 0)) j := by
  obtain ⟨kv, hkv, rfl⟩ := List.mem_map.1 hk'
  obtain ⟨c, q, j, -, hc, hj, rfl, -⟩ := e.exists_of_mem hkv
  rw [← List.length_map (f := Sigma.fst), h.types] at hc
  obtain rfl : c = 0 := Nat.lt_one_iff.1 hc
  rw [h.draws]
  exact ⟨j, hj, rfl⟩

section

variable (h : (catalog 1 (m + 1) files draws input
  (input.commits.dealt 1 defaultSegmentCapacity)).Kept L e)
include h

/-- The keys of a data frame are of the node. -/
theorem node_of_writes {f : Frame} (hf : f.Made 1 (m + 1)) {kv : Key × Value}
    (hkv : kv ∈ L.writes f) : kv.1.node = 0 :=
  Nat.lt_one_iff.1
    (h.carried_of_writes (fun f => ⟨rfl, f.printed.name_ne_nil⟩) Nat.one_pos hf hkv).1

theorem front_makes (hcommits : input.commits ≠ []) (hm : m < 2 ^ 32) :
    L.Makes Set.univ ∅ (front files draws m) (frontAccesses m)
      (Fields.Tagged input (input.commits.dealt 1 defaultSegmentCapacity) e m 0) := by
  have hcs (c : Commit) : c ∈ input.commits ↔
      ∃ i < 1, c ∈ input.commits.dealt 1 defaultSegmentCapacity i :=
    List.mem_iff_dealt Nat.one_pos (by decide)
  have hlocal (i : Nat) (_ : i < 1) :
      (input.commits.map Commit.row).dealt 1 defaultSegmentCapacity i =
        (input.commits.dealt 1 defaultSegmentCapacity i).map Commit.row := List.dealt_map ..
  have hpos := List.length_pos_of_ne_nil hcommits
  have hcomts : .comts ∈ Layout.seen (runAccesses 1 m 0) :=
    .inl (List.mem_append_left _ (by simp [readAccesses]))
  refine (run_makes h hcs hlocal hpos (Set.subset_univ _) (fun _ _ _ _ _ => trivial)
    (Nat.le_succ m) hm Nat.one_pos).bind fun l hl => ?_
  exact tagUsers_makes h hcs hlocal hpos (Set.subset_univ _) (fun _ _ _ _ _ => trivial)
    (Nat.lt_succ_self m) hm Nat.one_pos (.inr hcomts) hl

variable (has : L.Expands ∅ (frontAccesses m) as)
include has

/-- The accesses are to keys of the node. -/
theorem node_of_access {b : Access Key} (hb : b ∈ as) : b.key.node = 0 := by
  obtain ⟨f, hf, kv, hkv, hk⟩ : ∃ f ∈ Layout.seen (frontAccesses m), ∃ kv ∈ L.writes f,
      kv.1 = b.key := by
    cases b with
    | put k =>
      obtain ⟨f, hf, hkv⟩ := has.mem_put hb
      exact ⟨f, .inl hf, hkv⟩
    | get k =>
      obtain ⟨f, hf, hkv⟩ := has.mem_get hb
      exact ⟨f, hf.resolve_left id, hkv⟩
    | wait k =>
      obtain ⟨f, hf, rfl⟩ := has.mem_wait hb
      exact ⟨f, .inr hf, (L.name f, L.value f), List.mem_append_right _ List.mem_cons_self, rfl⟩
  rw [← hk]
  exact node_of_writes h (made_of_mem_seen hf) hkv

/-- What is put is a data frame or a segment of one. -/
theorem exists_of_put (hk : .put k ∈ as) : 95 ∉ k.k ∨ ∃ f c j, IsColumn 1 (m + 1) files f c ∧
    f ≠ .users (m + 1) 0 ∧ j < 1000 ∧ k = Column.segKey 1 (colId (draws f c)) j := by
  obtain ⟨f, hf, kv, hkv, rfl⟩ := has.mem_put hk
  obtain ⟨hmade, hne⟩ := made_of_put_front hf
  rcases List.mem_append.1 hkv with hseg | hname
  · rw [h.segs f hmade] at hseg
    obtain ⟨c, q, j, -, hc, hj, rfl, -⟩ := (e f).exists_of_mem hseg
    have hp := h.produces f hmade
    have hc' : c < width files f := by
      rw [← length_ts f, ← hp.types, List.length_map]
      exact hc
    refine .inr ⟨f, c, j, ⟨hmade, hc'⟩, hne, hj, ?_⟩
    rw [hp.draws]
    rfl
  · rw [List.mem_singleton.1 hname, h.name]
    exact .inl f.not_mem_key

/-- The key of the first users is put. -/
theorem scalar_mem : (Frame.users 0 0).key ∈ Pool.putKeys as := by
  have hput : .put (Frame.users 0 0) ∈ frontAccesses m :=
    List.mem_append_left _ (List.mem_append_left _ (by simp [readAccesses]))
  have hname : L.name (.users 0 0) = (Frame.users 0 0).key := congrFun h.name _
  exact Pool.mem_putKeys.2 (hname ▸ has.put_name_mem hput)

variable {p : Prog Key Value DataFrame} {cap : Nat} {t : ColType} {rows : List Row} {e' : Entry 1}
  (he' : Produces k p (draws (.users (m + 1) 0)) cap [t] rows e')
include he'

/-- With the segments of the last users, the keys put are pairwise different. -/
theorem nodup_putKeys (hids : DistinctIds 1 (m + 1) files draws) :
    (Pool.putKeys as ++ e'.puts.map Prod.fst).Nodup := by
  have hlast : IsColumn 1 (m + 1) files (.users (m + 1) 0) 0 :=
    ⟨⟨le_rfl, Nat.one_pos, fun _ => rfl⟩, Nat.one_pos⟩
  refine List.nodup_append.2 ⟨?_, e'.nodup_puts, ?_⟩
  · exact has.nodup (nodup_frontAccesses m).1 fun f hf => h.nodup_writes (made_of_put_front hf).1
  · rintro k hk _ hk' rfl
    obtain ⟨j, hj, rfl⟩ := exists_of_mem_puts he' hk'
    rcases exists_of_put h has (Pool.mem_putKeys.1 hk) with hplain |
      ⟨f, c, j', hcol, hf, hj', heq⟩
    · exact hplain (mem_segmentKeys (Column.length_colId_le _) j (j % 1))
    · have hname := congrArg Key.k heq
      rw [Column.segKey_k, Column.segKey_k] at hname
      exact hf (hids _ _ _ _ hlast hcol (Column.segName_colId_inj hj hj' hname).1).1.symm

/-- All of them are without an underscore, or of a segment. -/
theorem segment_of_mem {k' : Key} (hk' : k' ∈ Pool.putKeys as ++ e'.puts.map Prod.fst) :
    95 ∉ k'.k ∨ ∃ d j, j < 1000 ∧ k' = Column.segKey 1 (colId d) j := by
  rcases List.mem_append.1 hk' with hk | hk
  · refine (exists_of_put h has (Pool.mem_putKeys.1 hk)).imp_right ?_
    rintro ⟨f, c, j, -, -, hj, rfl⟩
    exact ⟨_, j, hj, rfl⟩
  · obtain ⟨j, hj, rfl⟩ := exists_of_mem_puts he' hk
    exact .inr ⟨_, j, hj, rfl⟩

end

/-- In `2 ^ 32` steps a node alone puts a key a second time, and no column has more than 1000
    segments. -/
theorem exists_run_putTwice {degrees : Nat} (hdegrees : degrees = 2 ^ 32)
    (hfiles : files.Has 1 draws input) (hfits : Fits input)
    (hids : DistinctIds 1 degrees files draws)
    (hne : ∀ f c, IsColumn 1 degrees files f c → colId (draws f c) ≠ [])
    (hcommits : input.commits ≠ []) :
    ∃ l s, Network.Run 1 (fun i => app 1 files draws i degrees) l s ∧
      (∀ f c, IsColumn 1 degrees files f c → segmentsPut (colId (draws f c)) l ≤ 1000) ∧
      ¬PutOnce l := by
  obtain ⟨m, rfl⟩ : ∃ m, degrees = m + 1 := ⟨degrees - 1, by omega⟩
  obtain ⟨L, e, h⟩ := exists_kept hids hne hfiles hfits
    (input.commits.dealt 1 defaultSegmentCapacity)
  obtain ⟨as, r, hdoes, has, -, hr⟩ := front_makes h hcommits (by omega)
  -- the users of the last step, under the key of the first
  let last : Frame := .users (m + 1) 0
  let scalar : Key := (Frame.users 0 0).key
  have hlast : IsColumn 1 (m + 1) files last 0 :=
    ⟨⟨le_rfl, Nat.one_pos, fun _ => rfl⟩, Nat.one_pos⟩
  have hsize : r.2.size ≤ defaultSegmentCapacity * 1000 := by
    rw [hr.newUsers]
    exact hfits _ (by simp)
  obtain ⟨e', he'⟩ := fromVisitor_produces 1 scalar r.2 (hne last 0 hlast) hsize
  obtain ⟨spec', hdoes'⟩ := exists_does he' (Frame.users 0 0).not_mem_key
  have hhome' : ∀ b ∈ (e'.puts ++ [(scalar, e'.value)]).map fun kv => Access.put kv.1,
      b.key.node = 0 := by
    intro b hb
    obtain ⟨kv, hkv, rfl⟩ := List.mem_map.1 hb
    rcases List.mem_append.1 hkv with hkv | hkv
    · exact Nat.lt_one_iff.1 (Entry.carried_of_mem Nat.one_pos hkv).1
    · rw [List.mem_singleton.1 hkv]
      rfl
  -- the run
  have hready : (init 1 fun i => app 1 files draws i (m + 1)).Ready 0 (front files draws m >>=
      fun r => fromVisitor 1 (draws last) scalar r.2 >>= fun _ => pure ()) :=
        ⟨app_eq hdegrees, rfl, rfl⟩
  obtain ⟨l, s, hrun, hready, hissued⟩ := run_of_does hdoes Nat.one_pos
    (fun b hb => node_of_access h has hb) (fun k hk => absurd hk (Set.notMem_empty k))
    (has.available (available_frontAccesses m) fun f hf => absurd hf (Set.notMem_empty f)) hready
  obtain ⟨l', s', hrun', -, hissued'⟩ := run_of_does hdoes' Nat.one_pos hhome'
    (fun k hk => absurd hk (Set.notMem_empty k))
    (Pool.available_of_puts fun b hb => (List.mem_map.1 hb).elim fun kv hkv => ⟨_, hkv.2.symm⟩)
    hready
  have hkeys : issuedKeys (l ++ l') = (Pool.putKeys as ++ e'.puts.map Prod.fst) ++ [scalar] := by
    rw [issuedKeys_append, hissued, hissued', Pool.putKeys_puts, List.map_append, List.append_assoc]
    rfl
  refine ⟨l ++ l', s', hrun.trans hrun', fun f c _ => ?_, fun honce => ?_⟩
  · -- only the last key is put a second time, and it is of no segment
    rw [segmentsPut, hkeys, List.countP_append,
      countP_plain (draws f c) (Frame.users 0 0).not_mem_key, Nat.add_zero]
    exact countP_segments_le (nodup_putKeys h has he' hids)
      (fun _ hk => segment_of_mem h has he' hk) (draws f c)
  · rw [PutOnce, hkeys, List.pairwise_append] at honce
    have hne := honce.2.2 scalar (List.mem_append_left _ (scalar_mem h has)) scalar
      List.mem_cons_self
    rw [← Bool.not_eq_true, Key.equals_iff] at hne
    exact hne rfl

end Run

end KD

/-! ## Ids of ten letters -/

/-- The letters of an id are the digits of a number, of the frame and the column. -/
def digits : KD.Draws := fun f c i =>
  ⟨(3 * f.time + c) / 52 ^ i.val % 52, (Nat.mod_lt _ (by decide)).trans (by decide)⟩

theorem eq_of_digits {x y : Nat} {k : Nat} (h : ∀ i < k, x / 52 ^ i % 52 = y / 52 ^ i % 52) :
    x % 52 ^ k = y % 52 ^ k := by
  induction k with
  | zero => rw [pow_zero, Nat.mod_one, Nat.mod_one]
  | succ k ih =>
    rw [Nat.mod_pow_succ, Nat.mod_pow_succ, ih fun i hi => h i (Nat.lt_succ_of_lt hi),
      h k (Nat.lt_succ_self k)]

/-- An id drawn without the NUL has the letters that are drawn. -/
theorem colId_eq_map {d : Fin 10 → Fin 53} (h : ∀ i, (d i).val < 52) :
    colId d = List.ofFn fun i => alpha.getD (d i) 0 := by
  have hone : ∀ i : Fin 53, i.val < 52 → cString [alpha.getD i 0] = [alpha.getD i 0] := by decide
  have hflat : colId d = (List.ofFn d).flatMap fun i : Fin 53 => [alpha.getD i 0] := by
    refine List.flatMap_congr fun i hi => ?_
    obtain ⟨j, rfl⟩ := List.mem_ofFn.1 hi
    exact hone _ (h j)
  rw [hflat, ← List.map_eq_flatMap, List.map_ofFn]
  rfl

theorem colId_digits (f : Frame) (c : Nat) :
    colId (digits f c) = List.ofFn fun i => alpha.getD (digits f c i) 0 :=
  colId_eq_map fun _ => Nat.mod_lt _ (by decide)

theorem distinctIds_digits : KD.DistinctIds 1 (2 ^ 32) fewRows digits := by
  have halpha : ∀ a b : Fin 53, alpha.getD a 0 = alpha.getD b 0 → a = b := by
    decide +kernel
  have htime {f : Frame} (h : f.Made 1 (2 ^ 32)) : f.time < 2 ^ 34 := by
    cases f <;> simp only [Frame.time, Frame.Made] at h ⊢ <;> omega
  have htime_inj {f f' : Frame} (h : f.Made 1 (2 ^ 32)) (h' : f'.Made 1 (2 ^ 32))
      (heq : f.time = f'.time) : f = f' := by
    cases f <;> cases f' <;> simp only [Frame.time, Frame.Made, Frame.projects.injEq,
      Frame.users.injEq, reduceCtorEq] at h h' heq ⊢ <;> omega
  intro f c f' c' h h' heq
  have hc : c < 3 := h.2.trans_le (width_fewRows_le f)
  have hc' : c' < 3 := h'.2.trans_le (width_fewRows_le f')
  have hlt := htime h.1
  have hlt' := htime h'.1
  rw [colId_digits, colId_digits] at heq
  have hdigits : ∀ i < 10, (3 * f.time + c) / 52 ^ i % 52 = (3 * f'.time + c') / 52 ^ i % 52 :=
    fun i hi => congrArg Fin.val (halpha _ _ (congrFun (List.ofFn_injective heq) ⟨i, hi⟩))
  have hmod := eq_of_digits hdigits
  rw [Nat.mod_eq_of_lt (by omega), Nat.mod_eq_of_lt (by omega)] at hmod
  exact ⟨htime_inj h.1 h'.1 (by omega), by omega⟩

/-- In `2 ^ 32` steps on one node, with distinct ids and no column of more than 1000 segments, a
    key is put twice. -/
theorem written_once_fails : KD.DistinctIds 1 (2 ^ 32) fewRows digits ∧
    ∃ l s, Run 1 (fun i => KD.app 1 fewRows digits i (2 ^ 32)) l s ∧
      (∀ f c, KD.IsColumn 1 (2 ^ 32) fewRows f c → KD.segmentsPut (colId (digits f c)) l ≤ 1000) ∧
      ¬PutOnce l := by
  have hne (f : Frame) (c : Nat) : colId (digits f c) ≠ [] := by
    rw [colId_digits]
    exact List.ofFn_eq_nil_iff.not.2 (by decide)
  have hgood (f : Frame) (hf : f.Made 1 (2 ^ 32)) : GoodIds (digits f) (KD.width fewRows f) :=
    KD.goodIds distinctIds_digits (fun f c _ => hne f c) hf
  have hfits : KD.Fits KD.twoCommits :=
    show ∀ m ∈ [3, 3, 2], m ≤ defaultSegmentCapacity * 1000 by decide
  exact ⟨distinctIds_digits, KD.exists_run_putTwice rfl (KD.has_fewRows hgood) hfits
    distinctIds_digits (fun f c _ => hne f c) (by decide)⟩

end Eau2.Linus

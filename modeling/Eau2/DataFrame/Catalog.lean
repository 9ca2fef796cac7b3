import Eau2.DataFrame.Locality
import Eau2.DataFrame.Produce
import Eau2.Lib.Parts

/-!
# Programs that share data frames

The data frames of an application, each of which is put once (`Catalog`). If they are put under
keys without `_`, in columns whose ids are all distinct, the store can be laid out for them
(`exists_kept`): the parts of a data frame are its segments. The rules of `Layout.Makes` for data
frames: what produces one puts it (`Kept.put`), one that is waited for or got has its rows
(`Kept.wait_bind`, `Kept.get`), and so it has when they are read (`Kept.map`, `Kept.localMap`,
`Kept.getAs`).
-/

namespace Eau2

open Prog (Access)

/-- The data frames of an application. -/
structure Catalog (F : Type) where
  key : F → Key
  /-- Those that are made. -/
  made : Set F
  /-- The program that makes a data frame and puts it. -/
  prog : F → Prog Key Value DataFrame
  draws : F → Nat → Fin 10 → Fin 53
  /-- The capacity of its segments. -/
  cap : F → Nat
  /-- The types of its columns. -/
  ts : F → List ColType
  rows : F → List Row

variable {F : Type} {C : Catalog F} {n : Nat} {L : Layout F Key Value} {f : F} {e : F → Entry n}

/-- Keys of segments have an underscore. -/
theorem Entry.mem_segmentKeys {e : Entry n} {kv : Key × Value} (h : kv ∈ e.puts) :
    kv.1 ∈ segmentKeys := by
  obtain ⟨i, q, j, -, -, -, rfl, -⟩ := e.exists_of_mem h
  exact Eau2.mem_segmentKeys (Column.length_colId_le _) j (j % n)

/-- The rows that are listed for a node are those of its segments. -/
theorem Column.Placed.of_mem_localIndices {t : ColType} {col : Column t} (h : col.Placed n)
    {node idx : Nat}
    {indices : List Nat} (hindices : col.localIndices node = some indices) (hidx : idx ∈ indices) :
    idx / col.segmentCapacity % n = node := by
  rw [h.localIndices_eq, Option.some.injEq] at hindices
  subst hindices
  obtain ⟨j, -, hmem⟩ := List.mem_flatMap.1 hidx
  split_ifs at hmem with hnode
  · have hmod := Nat.mod_lt col.size h.capacity_pos
    rw [segIndices, List.mem_range'_1] at hmem
    have hdiv : idx / col.segmentCapacity = j := by
      rw [Nat.div_eq_iff h.capacity_pos]
      split_ifs at hmem <;> constructor <;> omega
    rw [hdiv, hnode]
  · cases hmem

/-- A data frame whose segments go round the nodes, in which some may have been read. -/
theorem Entry.Is.dealt {e : Entry n} {df : DataFrame} (h : e.Is df)
    (hcap : e.cap = defaultSegmentCapacity) :
    df.HasTable (fun _ _ col => Column.Dealt n col) e.table := by
  obtain ⟨base, hbase, hc⟩ := h
  refine ⟨hbase.columns.trans_left hc.columns fun p q p' hp hp' => ?_, ?_, ?_⟩
  · cases hp with
    | mk hcol =>
      cases hp' with
      | mk hcached =>
        refine .mk ⟨hcached.segmentCapacity.trans ((hcol.capacity hcap).trans hcap), ?_⟩
        rw [hcached.segments]
        exact hcol.placed.node
  · rw [hc.schema]
    exact hbase.colTypes
  · rw [hc.schema]
    exact hbase.length

/-- What `local_map` reads of it on a node is in segments of that node. -/
theorem Entry.Is.localMap_gets {e : Entry n} {df : DataFrame} (h : e.Is df)
    (hcap : e.cap = defaultSegmentCapacity) {σ : Type} (node : Nat) (v : Reader σ) (s : σ) :
    (df.localMap node v s).Gets {k | k.node = node} := by
  refine (Prog.gets_ofOption _).bind fun row => ?_
  cases hindices : df.localIndices node with
  | none => trivial
  | some indices =>
    refine ((h.dealt hcap).visitRows_fetches_of id Column.Dealt.of_same v
      (fun idx hidx => ?_) s row).gets
    obtain ⟨base, hbase, hc⟩ := h
    rw [hc.localIndices_eq] at hindices
    obtain ⟨p, hp, hlist⟩ := Option.bind_eq_some_iff.1 hindices
    obtain ⟨q, -, hlift⟩ := List.Forall₂.exists_mem hbase.columns (List.mem_of_head? hp)
    cases hlift with
    | mk hcol =>
      rw [← (hcol.capacity hcap).trans hcap]
      exact hcol.placed.of_mem_localIndices hlist hidx

namespace Catalog

/-- The store is laid out for the data frames, which are the entries. -/
structure Kept (C : Catalog F) (L : Layout F Key Value) (e : F → Entry n) : Prop where
  name : L.name = C.key
  segs : ∀ f ∈ C.made, L.segs f = (e f).puts
  value : ∀ f ∈ C.made, L.value f = (e f).value
  produces : ∀ f ∈ C.made, Produces (C.key f) (C.prog f) (C.draws f) (C.cap f) (C.ts f)
    (C.rows f) (e f)

/-- Data frames that are told apart by their keys and by the ids of their columns. -/
theorem exists_kept (hne : C.made.Nonempty) (hkey : Function.Injective C.key)
    (hplain : ∀ f, C.key f ∉ segmentKeys)
    (hmade : ∀ f ∈ C.made, ∃ e : Entry n,
      Produces (C.key f) (C.prog f) (C.draws f) (C.cap f) (C.ts f) (C.rows f) e)
    (hids : ∀ f ∈ C.made, ∀ f' ∈ C.made, ∀ i < (C.ts f).length, ∀ i' < (C.ts f').length,
      colId (C.draws f i) = colId (C.draws f' i') → f = f') :
    ∃ (L : Layout F Key Value) (e : F → Entry n), C.Kept L e := by
  classical
  obtain ⟨f₀, hf₀⟩ := hne
  obtain ⟨e₀, -⟩ := hmade f₀ hf₀
  have hnonempty : Nonempty F := ⟨f₀⟩
  have hentry : Nonempty (Entry n) := ⟨e₀⟩
  choose! e he using hmade
  have hwidth {f : F} (hf : f ∈ C.made) : (e f).table.length = (C.ts f).length := by
    rw [← (he f hf).types, List.length_map]
  let segs : F → List (Key × Value) := fun f => if f ∈ C.made then (e f).puts else []
  have hsegs {f : F} {kv : Key × Value} (h : kv ∈ segs f) : f ∈ C.made ∧ kv ∈ (e f).puts := by
    by_cases hf : f ∈ C.made
    · exact ⟨hf, by rwa [show segs f = (e f).puts from if_pos hf] at h⟩
    · rw [show segs f = [] from if_neg hf] at h
      cases h
  have hne (f : F) (kv : Key × Value) (h : kv ∈ segs f) (f' : F) : kv.1 ≠ C.key f' := fun heq =>
    hplain f' (heq ▸ Entry.mem_segmentKeys (hsegs h).2)
  let value : F → Value := fun f => (e f).value
  have hinj (f f' : F) : ∀ kv ∈ Layout.pairs C.key value segs f,
      ∀ kv' ∈ Layout.pairs C.key value segs f', kv.1 = kv'.1 → f = f' ∧ kv = kv' := by
    intro kv hkv kv' hkv' heq
    rcases List.mem_append.1 hkv with h | h <;> rcases List.mem_append.1 hkv' with h' | h'
    · -- Two segments.
      obtain ⟨hf, hmem⟩ := hsegs h
      obtain ⟨hf', hmem'⟩ := hsegs h'
      obtain ⟨i, q, j, -, hi, hj, -, hk⟩ := (e f).exists_of_mem hmem
      obtain ⟨i', q', j', -, hi', hj', -, hk'⟩ := (e f').exists_of_mem hmem'
      have hname := hk.symm.trans ((congrArg Key.k heq).trans hk')
      rw [(he f hf).draws, (he f' hf').draws] at hname
      obtain rfl := hids f hf f' hf' i (hwidth hf ▸ hi) i' (hwidth hf' ▸ hi')
        (Column.segName_colId_inj hj hj' hname).1
      exact ⟨rfl, (e f).eq_of_mem hmem hmem' (congrArg Key.k heq)⟩
    · rw [List.mem_singleton.1 h'] at heq
      exact absurd heq (hne f kv h f')
    · rw [List.mem_singleton.1 h] at heq
      exact absurd heq.symm (hne f' kv' h' f)
    · rw [List.mem_singleton.1 h, List.mem_singleton.1 h'] at heq ⊢
      obtain rfl := hkey heq
      exact ⟨rfl, rfl⟩
  obtain ⟨L, hname, hvalue, hL⟩ := Layout.exists_of_pairs hinj fun f kv h => hne f kv h f
  refine ⟨L, e, hname, fun f hf => ?_, fun f _ => congrFun hvalue f, he⟩
  rw [hL]
  exact if_pos hf

namespace Kept

variable {α σ : Type} {bs : List (Access F)} {Q : α → Prop} {v : Reader σ} {s s' : σ}
  {df : DataFrame}
  {known : Set F} {near : Set Key}

theorem mem_near (hnear : ∀ kv ∈ (e f).puts, kv.1 ∈ near) (k : Key) (hk : ((e f).store k).isSome) :
    k ∈ near := by
  obtain ⟨v, hv⟩ := Option.isSome_iff_exists.1 hk
  exact hnear _ (Entry.mem_of_store _ hv)

section

variable (h : C.Kept L e) (hf : f ∈ C.made)
include h hf

theorem rows : (e f).rows = C.rows f := (h.produces f hf).rows

/-- The program that makes a data frame puts it. -/
theorem put : L.Makes near known (C.prog f) [.put f] (e f).Is := by
  refine .put (a := (e f).frame) ?_ (e f).is_frame
  rw [Layout.writes, Layout.pairs, h.segs f hf, h.value f hf, h.name]
  exact (h.produces f hf).writes

theorem put_bind {next : DataFrame → Prog Key Value α}
    (hnext : ∀ df, (e f).Is df → L.Makes near (insert f known) (next df) bs Q) :
    L.Makes near known (C.prog f >>= next) (.put f :: bs) Q := by
  refine (h.put hf).bind fun df hdf => (hnext df hdf).mono ?_
  rintro f' (rfl | hf')
  · exact .inr (.inl List.mem_cons_self)
  · exact .inl hf'

/-- A data frame is waited for. -/
theorem wait_bind {next : DataFrame → Prog Key Value α}
    (hnext : ∀ df, (e f).Is df → L.Makes near (insert f known) (next df) bs Q) :
    L.Makes near known (KDStore.waitAndGet (C.key f) >>= next) (.wait f :: bs) Q := by
  obtain ⟨df, hdf, his⟩ := (e f).ofValue_is
  rw [← h.name]
  refine .wait ?_
  rw [h.value f hf, hdf]
  exact hnext df his

variable (hknown : f ∈ known)
include hknown

/-- A data frame that is there is got. -/
theorem get (hnear : C.key f ∈ near) : L.Makes near known (KDStore.get (C.key f)) [] (e f).Is := by
  obtain ⟨df, hdf, his⟩ := (e f).ofValue_is
  rw [← h.name]
  refine .get_value hknown (h.name.symm ▸ hnear) ?_
  rw [h.value f hf, hdf]
  exact .ret his

theorem mem_writes (k : Key) (v : Value) (hk : (e f).store k = some v) :
    ∃ f ∈ known, (k, v) ∈ L.writes f :=
  ⟨f, hknown, List.mem_append_left _ (h.segs f hf ▸ Entry.mem_of_store _ hk)⟩

variable (hdf : (e f).Is df)
include hdf

/-- A reader goes over the rows of a data frame that is there. -/
theorem map (hnear : ∀ kv ∈ (e f).puts, kv.1 ∈ near)
    (hfold : (C.rows f).foldlM v.visit s = some s') :
    L.Makes near known (df.map v s) [] fun r => r.1 = s' ∧ (e f).Is r.2 := by
  rw [← h.rows hf] at hfold
  obtain ⟨df', hdf', hrun⟩ := hdf.map hfold
  exact .get (DataFrame.map_gets v s df) hrun (h.mem_writes hf hknown) (fun k _ => mem_near hnear k)
    ⟨rfl, hdf'⟩

/-- A reader goes over those of the node. -/
theorem localMap (hcap : C.cap f = defaultSegmentCapacity) (hpos : 0 < (C.rows f).length)
    {node : Nat}
    (hnear : {k | k.node = node} ⊆ near)
    (hfold : ((C.rows f).dealt n defaultSegmentCapacity node).foldlM v.visit s = some s') :
    L.Makes near known (df.localMap node v s) [] fun r => r.1 = s' ∧ (e f).Is r.2 := by
  have hcap := (h.produces f hf).cap.trans hcap
  rw [← hcap, ← h.rows hf] at hfold
  obtain ⟨df', hdf', hrun⟩ := hdf.localMap hcap (h.rows hf ▸ hpos) hfold
  exact .get (hdf.localMap_gets hcap node v s) hrun (h.mem_writes hf hknown)
    (fun k hk _ => hnear hk) ⟨rfl, hdf'⟩

/-- An element of the only column of a data frame that is there is got. -/
theorem getAs {t : ColType} {xs : List t.Elem} (hts : C.ts f = [t])
    (hrows : C.rows f = xs.map Row.single)
    (hnear : ∀ kv ∈ (e f).puts, kv.1 ∈ near) {i : Nat} {x : t.Elem} (hx : xs[i]? = some x) :
    L.Makes near known (df.getAs t 0 i) [] fun r => r.1 = x ∧ (e f).Is r.2 := by
  have hp := h.produces f hf
  rw [hts, hrows] at hp
  obtain ⟨hi, rfl⟩ := List.getElem?_eq_some_iff.1 hx
  obtain ⟨df', hdf', hrun⟩ := hdf.getAs (by rw [hp.table_single, List.getElem?_cons_zero]) hi
  exact .get (DataFrame.getAs_gets df t 0 i) hrun (h.mem_writes hf hknown)
    (fun k _ => mem_near hnear k)
    ⟨rfl, hdf'⟩

end

end Kept

end Catalog

end Eau2

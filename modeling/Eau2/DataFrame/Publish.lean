import Eau2.DataFrame.RoundTrip
import Eau2.Network.Once
import Eau2.Network.Publication

/-!
# Publishing a data frame

A data frame is published by putting its serialization under a key. Those who
get it from there read its cells with `get`, which fails if the segment is not
in the store of its home.

The keys a data frame names are those of the segments of its columns
(`frameSegments`), and its getters read no other (`DataFrame.getCell_gets`).
So a data frame can be read by whoever gets it, as long as it is only put when
its segments are in place or ahead in the same channel (`segments_present`), as they are between
the controller and another node (`segments_present_ints`).
Nothing in `fromArray` sees to that: the put of a segment and that of the data
frame travel to different nodes (`segments_present_fails`).
-/

namespace Eau2

open Network

/-- The keys of the segments of a data frame. -/
def DataFrame.segments (df : DataFrame) : List Key := df.columns.flatMap fun p => p.2.segments

/-- The keys that a value names, if it is that of a data frame. -/
def frameSegments (v : Value) : List Key :=
  ((DataFrame.deserialize.run v).map fun r => r.1.segments).getD []

theorem Column.get_gets {t : ColType} (col : Column t) (idx : Nat) :
    (col.get idx).Gets {k | k ∈ col.segments} := by
  refine (Prog.gets_assert _).bind fun _ => (Prog.gets_assert _).bind fun _ => ?_
  cases hk : col.segments[idx / col.segmentCapacity]? with
  | none => trivial
  | some k =>
    have hfetch : (col.fetch k).Gets {k | k ∈ col.segments} := by
      rw [Column.fetch]
      split_ifs
      · trivial
      · exact ⟨List.mem_of_getElem? hk, fun v => Prog.Gets.bind
          (Prog.gets_ofOption _) fun _ => trivial⟩
    exact hfetch.bind fun col' => Prog.Gets.bind (Prog.gets_ofOption _) fun _ => trivial

/-- The getters of a data frame read its segments. -/
theorem DataFrame.getAs_gets (df : DataFrame) (t : ColType) (col row : Nat) :
    (df.getAs t col row).Gets {k | k ∈ df.segments} := by
  refine (Prog.gets_assert _).bind fun _ => (Prog.gets_assert _).bind fun _ => ?_
  cases hc : df.columns[col]?.bind (ColumnPtr.asType t) with
  | none => trivial
  | some c =>
    obtain ⟨p, hp, htype⟩ := Option.bind_eq_some_iff.1 hc
    obtain rfl := ColumnPtr.eq_of_asType htype
    have hsub : {k | k ∈ c.segments} ⊆ {k | k ∈ df.segments} := fun k hk =>
      List.mem_flatMap.2 ⟨_, List.mem_of_getElem? hp, hk⟩
    exact ((c.get_gets row).mono hsub).bind fun _ => trivial

theorem DataFrame.getCell_gets (df : DataFrame) (col row : Nat) :
    (df.getCell col row).Gets {k | k ∈ df.segments} := by
  refine (Prog.gets_ofOption _).bind fun t => ?_
  cases t
  · exact (df.getAs_gets .string col row).bind fun _ => trivial
  · exact (df.getAs_gets .int col row).bind fun _ => trivial
  · exact (df.getAs_gets .double col row).bind fun _ => trivial
  · exact (df.getAs_gets .bool col row).bind fun _ => trivial

/-- The serialization of a data frame of one column. -/
def frameValue (t : ColType) (n : Nat) (id : Bytes) (c size : Nat) : Value :=
  (Schema.mk [t.getType] size).serialize ++ Column.encode n id c size

/-- What `fromArray` puts: the segments, and the data frame. -/
theorem DataFrame.fromArray_eq {t : ColType} (n : Nat) (k : Key) (draws : Fin 10 → Fin 53)
    {vals : List t.Elem}
    (hid : colId draws ≠ []) (hs : ∀ x ∈ vals, t.Storable x) (hlen : vals.length < 2 ^ 64) :
    fromArray n k t draws vals =
      Prog.putAll (Column.segPuts t n (colId draws) defaultSegmentCapacity vals
          (List.numChunks defaultSegmentCapacity vals.length) ++
        [(k, frameValue t n (colId draws) defaultSegmentCapacity vals.length)])
        (.ret ⟨[⟨t, Column.filled t n (colId draws) defaultSegmentCapacity vals⟩],
          ⟨[t.getType], vals.length⟩⟩) := by
  have hser : DataFrame.serialize
      ⟨[⟨t, Column.filled t n (colId draws) defaultSegmentCapacity vals⟩],
      ⟨[t.getType], vals.length⟩⟩ = some
      (frameValue t n (colId draws) defaultSegmentCapacity vals.length) := by
    simp [serialize, Column.serialize_filled hid hlen, frameValue]
  rw [fromArray, Column.foldlM_pushBack (by decide) draws hs, Prog.putAll_bind, Prog.ret_bind,
    ofColumn_filling hs,
    Prog.putAll_bind, Prog.ret_bind, KDStore.put, hser, Column.segPuts_numChunks,
    Prog.putAll_append, Prog.putAll_append]
  rfl

/-- What is put for a row more than a segment. -/
theorem fromArray_two {vals : List (BitVec 32)} (hlen : vals.length = 10485761)
    (n : Nat) (k : Key) :
    ∃ b₀ bs₀ b₁ bs₁,
      (DataFrame.fromArray n k .int (fun _ => 0) vals >>= fun _ => pure ()) =
        Prog.putAll [(Column.segKey n (colId fun _ => 0) 0, b₀ :: bs₀),
          (Column.segKey n (colId fun _ => 0) 1, b₁ :: bs₁),
          (k, frameValue .int n (colId fun _ => 0) defaultSegmentCapacity 10485761)] (.ret ()) := by
  have hcons (xs : List (BitVec 32)) : ∃ b bs, ColType.int.encodeArray xs = b :: bs := ⟨_, _, rfl⟩
  obtain ⟨b₀, bs₀, h₀⟩ := hcons (vals.chunk defaultSegmentCapacity 0)
  obtain ⟨b₁, bs₁, h₁⟩ := hcons (vals.chunk defaultSegmentCapacity 1)
  refine ⟨b₀, bs₀, b₁, bs₁, ?_⟩
  have heq := DataFrame.fromArray_eq (t := .int) n k (fun _ => 0)
    (by decide) (fun _ _ => trivial) (show vals.length < 2 ^ 64 by omega)
  have htwo : List.numChunks defaultSegmentCapacity 10485761 = 2 := by decide
  rw [heq, Prog.putAll_bind, ← h₀, ← h₁, hlen, htwo]
  rfl

/-- Once a data frame published at a key of `F` has been got, and none has replaced it there
    while it was cloned, its segments are in the stores of their homes, and no `get` of
    them fails. -/
theorem segments_present (n : Nat) (progs : Nat → Prog Key Value Unit) (F : Set Key)
    (l l₁ l₂ : List Event) (s : State) (i : Nat) (op : Op) (v : Value) (df : DataFrame)
    (h : Trace.Run (step n)
      (fun a s => SegmentsFirst F frameSegments a s ∧ Intact {p | p.2 ∈ F} a s) (init n progs) l s)
    (hl : l = l₁ ++ .return i op v :: l₂) (hF : op.key ∈ F) (hdf : KDStore.ofValue v = .ret df) :
    ∀ sk ∈ df.segments, s.Present sk ∧ ∀ j j', .missing j j' sk ∉ l₂ := by
  intro sk hsk
  refine readable_of_run h hl hF ?_
  rw [KDStore.ofValue] at hdf
  rw [frameSegments]
  cases hrun : DataFrame.deserialize.run v with
  | none =>
    rw [hrun] at hdf
    cases hdf
  | some r =>
    rw [hrun] at hdf
    cases hdf
    exact hsk

/-- The node 0 makes a data frame of integers, published at the node 1, which gets it from there
    and reads the row 0. -/
def publishNear (vals : List (BitVec 32)) : Nat → Prog Key Value Unit
  | 0 => do
    let _ ← DataFrame.fromArray 2 ⟨lit "f", 1⟩ .int (fun _ => 0) vals
    return ()
  | 1 => do
    let df ← KDStore.waitAndGet ⟨lit "f", 1⟩
    let _ ← df.getInt 0 0
    return ()
  | _ => .ret ()

/-- The message is a put at the key. -/
def isPutOf (sk : Key) : Message → Bool
  | .put k _ => k = sk
  | _ => false

/-- A check for `SegmentsFirst`, of the data frames published at `f`. -/
def putsFirst (f : Key) : Action → State → Bool
  | .app i, s =>
    match s.prog i with
    | .put k v _ =>
      k ≠ f ||
        match s.phase i with
        | .entry => k.node ≠ i || (frameSegments v).all fun sk => (s.lookup sk.node sk).isSome
        | .holding c => (frameSegments v).all fun sk =>
          (s.lookup sk.node sk).isSome || (s.inbox c.peer).any (isPutOf sk)
        | _ => true
    | _ => true
  | _, _ => true

theorem segmentsFirst_of_putsFirst {f : Key} {a : Action} {s : State} (h : putsFirst f a s = true) :
    SegmentsFirst {f} frameSegments a s := by
  rintro i k v next rfl hprog rfl
  rw [putsFirst, hprog] at h
  simp only [ne_eq, not_true_eq_false, decide_false, Bool.false_or] at h
  refine ⟨fun hphase hk sk hsk => ?_, fun c hphase sk hsk => ?_⟩
  · rw [hphase] at h
    simp only [hk, not_true_eq_false, decide_false, Bool.false_or, List.all_eq_true] at h
    exact h sk hsk
  · rw [hphase] at h
    simp only [List.all_eq_true, Bool.or_eq_true] at h
    refine (h sk hsk).imp_right fun hany => ?_
    obtain ⟨m, hm, hput⟩ := List.any_eq_true.1 hany
    cases m with
    | put k' w =>
      obtain rfl := of_decide_eq_true hput
      exact ⟨w, hm⟩
    | get | waitAndGet | reply => cases hput

/-- What the programs come to for a row more than a segment: the second segment is put at the
    node 1. -/
def nearPair (v₀ v₁ : Value) : Nat → Prog Key Value Unit
  | 0 => Prog.putAll [(Column.segKey 2 (colId fun _ => 0) 0, v₀),
      (Column.segKey 2 (colId fun _ => 0) 1, v₁),
      (⟨lit "f", 1⟩, frameValue .int 2 (colId fun _ => 0) defaultSegmentCapacity 10485761)]
      (.ret ())
  | i => publishNear [] i

theorem publishNear_eq {vals : List (BitVec 32)} (hlen : vals.length = 10485761) :
    ∃ b₀ bs₀ b₁ bs₁, publishNear vals = nearPair (b₀ :: bs₀) (b₁ :: bs₁) := by
  obtain ⟨b₀, bs₀, b₁, bs₁, heq⟩ := fromArray_two hlen 2 ⟨lit "f", 1⟩
  refine ⟨b₀, bs₀, b₁, bs₁, funext fun i => ?_⟩
  match i with
  | 0 => exact heq
  | 1 => rfl
  | i + 2 => rfl

set_option maxRecDepth 4000 in
/-- The put of the second segment is ahead of that of the data frame in the channel, and the first
    segment is on the controller, which the other node gets it from. -/
theorem exec_nearPair (b₀ b₁ : UInt8) (bs₀ bs₁ : Bytes) :
    (Trace.exec (fun a s => if putsFirst ⟨lit "f", 1⟩ a s then step 2 a s else none)
      [.app 0, .app 0, .app 0, .app 0, .app 0, .app 0, .app 0, .handler ⟨0, false⟩,
        .handler ⟨0, false⟩, .handler ⟨0, false⟩, .handler ⟨0, false⟩, .app 1, .app 1,
        .app 1, .app 1,
        .app 1, .handler ⟨0, true⟩, .handler ⟨0, true⟩, .handler ⟨0, true⟩, .handler ⟨0, true⟩,
        .handler ⟨0, false⟩, .app 1] (init 2 (nearPair (b₀ :: bs₀) (b₁ :: bs₁)))).map Prod.snd =
      some ([.issue 0 (Column.segKey 2 (colId fun _ => 0) 0) (b₀ :: bs₀),
        .apply 0 0 (Column.segKey 2 (colId fun _ => 0) 0) (b₀ :: bs₀),
        .issue 0 (Column.segKey 2 (colId fun _ => 0) 1) (b₁ :: bs₁),
        .issue 0 ⟨lit "f", 1⟩ (frameValue .int 2
          (colId fun _ => 0) defaultSegmentCapacity 10485761),
        .apply 0 1 (Column.segKey 2 (colId fun _ => 0) 1) (b₁ :: bs₁),
        .apply 0 1 ⟨lit "f", 1⟩ (frameValue .int 2
          (colId fun _ => 0) defaultSegmentCapacity 10485761),
        .request 1 (.waitAndGet ⟨lit "f", 1⟩),
        .serve 1 (.waitAndGet ⟨lit "f", 1⟩)
          (frameValue .int 2 (colId fun _ => 0) defaultSegmentCapacity 10485761)] ++
        .return 1 (.waitAndGet ⟨lit "f", 1⟩)
          (frameValue .int 2 (colId fun _ => 0) defaultSegmentCapacity 10485761) ::
        [.request 1 (.get (Column.segKey 2 (colId fun _ => 0) 0)),
          .serve 1 (.get (Column.segKey 2 (colId fun _ => 0) 0)) (b₀ :: bs₀),
          .return 1 (.get (Column.segKey 2 (colId fun _ => 0) 0)) (b₀ :: bs₀)]) := by
  rfl

set_option maxRecDepth 4000 in
/-- A data frame of two segments, one of which is got after it. -/
theorem segments_present_near : ∃ l₁ l₂ v df s w,
    Run 2 (publishNear (List.replicate 10485761 0))
      (l₁ ++ .return 1 (.waitAndGet ⟨lit "f", 1⟩) v :: l₂) s ∧
    KDStore.ofValue v = .ret df ∧ df.segments.length = 2 ∧
    .return 1 (.get (Column.segKey 2 (colId fun _ => 0) 0)) w ∈ l₂ ∧
    ∀ sk ∈ df.segments, s.Present sk ∧ ∀ j j', .missing j j' sk ∉ l₂ := by
  obtain ⟨b₀, bs₀, b₁, bs₁, heq⟩ := publishNear_eq (List.length_replicate (a := 0))
  obtain ⟨⟨s, l⟩, hs, hl⟩ := Option.map_eq_some_iff.1 (exec_nearPair b₀ b₁ bs₀ bs₁)
  subst hl
  have hfirst := (Trace.Run.of_exec_checked hs).mono fun _ _ => segmentsFirst_of_putsFirst
  let F : Set Key := {⟨lit "f", 1⟩}
  -- nothing is put twice
  have hnodup : [Column.segKey 2 (colId fun _ => 0) 0, Column.segKey 2 (colId fun _ => 0) 1,
      ⟨lit "f", 1⟩].Nodup := by decide
  have hrun : Trace.Run (step 2) (fun a s => SegmentsFirst F frameSegments a s ∧
      Intact {p | p.2 ∈ F} a s) _ _ s :=
    (intact_of_nodup hfirst hnodup).mono fun a s h => ⟨h.1, fun i k _ => h.2 i k trivial⟩
  have hdf : KDStore.ofValue (frameValue .int 2 (colId fun _ => 0) defaultSegmentCapacity
    10485761) = .ret _ := rfl
  rw [← heq] at hrun
  exact ⟨_, _, _, _, s, b₀ :: bs₀, hrun.mono fun _ _ _ => trivial, hdf, rfl,
    List.mem_cons_of_mem _ (List.mem_cons_of_mem _ List.mem_cons_self),
    segments_present 2 _ _ _ _ _ s 1 _ _ _ hrun rfl rfl hdf⟩

/-! ## A race -/

/-- The node 0 makes a data frame of integers, published at the node 2, which gets
    it from there and reads the row `10485760`, the first of the second segment. -/
def publishInts (vals : List (BitVec 32)) : Nat → Prog Key Value Unit
  | 0 => do
    let _ ← DataFrame.fromArray 3 ⟨lit "f", 2⟩ .int (fun _ => 0) vals
    return ()
  | 2 => do
    let df ← KDStore.waitAndGet ⟨lit "f", 2⟩
    let _ ← df.getInt 0 10485760
    return ()
  | _ => .ret ()

/-- What the programs come to for a row more than a segment: the second segment is
    put at the node 1. -/
def publishPair (v₀ v₁ : Value) : Nat → Prog Key Value Unit
  | 0 => Prog.putAll [(Column.segKey 3 (colId fun _ => 0) 0, v₀),
        (Column.segKey 3 (colId fun _ => 0) 1, v₁),
      (⟨lit "f", 2⟩, frameValue .int 3 (colId fun _ => 0) defaultSegmentCapacity 10485761)]
      (.ret ())
  | i => publishInts [] i

theorem publishInts_eq {vals : List (BitVec 32)} (hlen : vals.length = 10485761) :
    ∃ b₀ bs₀ b₁ bs₁, publishInts vals = publishPair (b₀ :: bs₀) (b₁ :: bs₁) := by
  obtain ⟨b₀, bs₀, b₁, bs₁, heq⟩ := fromArray_two hlen 3 ⟨lit "f", 2⟩
  refine ⟨b₀, bs₀, b₁, bs₁, funext fun i => ?_⟩
  match i with
  | 0 => exact heq
  | 1 => rfl
  | 2 => rfl
  | i + 3 => rfl

set_option maxRecDepth 4000 in
/-- The node 2 opens a connection to the node 1 to get the second segment, and its
    `get` arrives before the put of the node 0. -/
theorem exec_publishPair (b₀ b₁ : UInt8) (bs₀ bs₁ : Bytes) :
    (Trace.exec (step 3) [.app 0, .app 0, .app 0, .app 0, .app 0, .app 0, .app 0,
      .handler ⟨1, false⟩,
        .handler ⟨1, false⟩, .app 2, .app 2, .app 2, .app 2, .app 2, .app 2, .accept 1,
        .handler ⟨2, true⟩,
        .handler ⟨2, true⟩] (init 3 (publishPair (b₀ :: bs₀) (b₁ :: bs₁)))).map Prod.snd =
      some ([.issue 0 (Column.segKey 3 (colId fun _ => 0) 0) (b₀ :: bs₀),
        .apply 0 0 (Column.segKey 3 (colId fun _ => 0) 0) (b₀ :: bs₀),
        .issue 0 (Column.segKey 3 (colId fun _ => 0) 1) (b₁ :: bs₁),
        .issue 0 ⟨lit "f", 2⟩ (frameValue .int 3
          (colId fun _ => 0) defaultSegmentCapacity 10485761),
        .apply 0 2 ⟨lit "f", 2⟩ (frameValue .int 3
          (colId fun _ => 0) defaultSegmentCapacity 10485761),
        .request 2 (.waitAndGet ⟨lit "f", 2⟩),
        .serve 2 (.waitAndGet ⟨lit "f", 2⟩)
          (frameValue .int 3 (colId fun _ => 0) defaultSegmentCapacity 10485761)] ++
        .return 2 (.waitAndGet ⟨lit "f", 2⟩)
          (frameValue .int 3 (colId fun _ => 0) defaultSegmentCapacity 10485761) ::
        [.request 2 (.get (Column.segKey 3 (colId fun _ => 0) 1)),
          .missing 2 1 (Column.segKey 3 (colId fun _ => 0) 1)]) := by
  rfl

set_option maxRecDepth 4000 in
theorem exists_run_publishInts {vals : List (BitVec 32)} (hlen : vals.length = 10485761) :
    ∃ l₁ l₂ v df s sk,
      Run 3 (publishInts vals) (l₁ ++ .return 2 (.waitAndGet ⟨lit "f", 2⟩) v :: l₂) s ∧
      KDStore.ofValue v = .ret df ∧ sk ∈ df.segments ∧ .missing 2 1 sk ∈ l₂ := by
  obtain ⟨b₀, bs₀, b₁, bs₁, heq⟩ := publishInts_eq hlen
  obtain ⟨s, hrun⟩ := run_of_exec (fun _ _ => True) 3 _ _ _ (exec_publishPair b₀ b₁ bs₀ bs₁)
    fun _ _ _ => trivial
  rw [← heq] at hrun
  have hdf : KDStore.ofValue (frameValue .int 3 (colId fun _ => 0) defaultSegmentCapacity
    10485761) = .ret _ := rfl
  exact ⟨_, _, _, _, s, Column.segKey 3 (colId fun _ => 0) 1, hrun, hdf, by decide, by simp⟩

/-- A data frame of `10485761` integers, got before its second segment is in
    place: reading it ends the node 1. -/
theorem segments_present_fails : ∃ l₁ l₂ v df s sk,
    Run 3 (publishInts (List.replicate 10485761 0))
    (l₁ ++ .return 2 (.waitAndGet ⟨lit "f", 2⟩) v :: l₂) s ∧
      KDStore.ofValue v = .ret df ∧ sk ∈ df.segments ∧ .missing 2 1 sk ∈ l₂ :=
  exists_run_publishInts List.length_replicate

end Eau2

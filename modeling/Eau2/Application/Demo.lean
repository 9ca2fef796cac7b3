import Eau2.DataFrame.Catalog

/-!
# The demo

An application of three nodes: the producer puts an array of numbers and their sum, the
counter adds the numbers up again, cell by cell, and the summarizer asserts that the two sums
are the same.

Nothing is assumed of the addition of doubles, which is neither associative nor has to be
exact: both sums are made in the same order. In every interleaving no node fails, and all can
get done (`assertion_holds`), unless the sum is not equal to itself, as that of a NaN.
-/

namespace Eau2.Demo

open Prog (Access)

/-- The arithmetic of `double`. -/
structure Arith where
  /-- The conversion of a `size_t`. -/
  ofNat : Nat → BitVec 64
  add : BitVec 64 → BitVec 64 → BitVec 64
  /-- `==`. -/
  eq : BitVec 64 → BitVec 64 → Bool

/-- The data frames, by their keys. -/
inductive Frame
  | main
  | verify
  | check
  deriving DecidableEq

/-- The keys. -/
def Frame.key : Frame → Key
  | main => .ofCStr (lit "main") 0
  | verify => .ofCStr (lit "verif") 0
  | check => .ofCStr (lit "ck") 0

/-- What the columns of the data frames draw for their names. -/
abbrev Draws := Frame → Fin 10 → Fin 53

variable (arith : Arith) (n sz : Nat) (draws : Draws)

/-- The array of the producer. -/
def vals : List (BitVec 64) := (List.range sz).map arith.ofNat

/-- The sum of the producer. -/
def sum : BitVec 64 := (vals arith sz).foldl arith.add (arith.ofNat 0)

/-- `producer`. -/
def producer : Prog Key Value Unit := do
  let _ ← DataFrame.fromArray n Frame.main.key .double (draws .main) (vals arith sz)
  let _ ← DataFrame.fromScalar n Frame.check.key .double (draws .check) (sum arith sz)
  return ()

/-- The loop of `counter`. -/
def count (v : DataFrame) : Prog Key Value (BitVec 64 × DataFrame) :=
  (List.range sz).foldlM (fun (acc : BitVec 64 × DataFrame) i => do
    let (x, v) ← acc.2.getDouble 0 i
    return (arith.add acc.1 x, v)) (arith.ofNat 0, v)

/-- `counter`. -/
def counter : Prog Key Value Unit := do
  let v ← KDStore.waitAndGet Frame.main.key
  let (sum, _) ← count arith sz v
  let _ ← DataFrame.fromScalar n Frame.verify.key .double (draws .verify) sum
  return ()

/-- `summarizer`. -/
def summarizer : Prog Key Value Unit := do
  let result ← KDStore.waitAndGet Frame.verify.key
  let expected ← KDStore.waitAndGet Frame.check.key
  let (x, _) ← expected.getDouble 0 0
  let (y, _) ← result.getDouble 0 0
  Prog.assert (arith.eq x y)

/-- `run`. -/
def run (thisNode : Nat) : Prog Key Value Unit :=
  match thisNode with
  | 0 => producer arith n sz draws
  | 1 => counter arith n sz draws
  | 2 => summarizer arith
  | _ => return ()

/-! ## The accesses -/

/-- The accesses of a node to the data frames. -/
def runAccesses : Nat → List (Access Frame)
  | 0 => [.put .main, .put .check]
  | 1 => [.wait .main, .put .verify]
  | 2 => [.wait .verify, .wait .check]
  | _ => []

/-- The order in which the data frames come about. -/
def Frame.rank : Frame → Nat
  | main | check => 0
  | verify => 1

theorem Frame.key_injective : Function.Injective Frame.key := by
  intro f f' h
  cases f <;> cases f' <;> first | rfl | exact absurd h (by decide)

theorem Frame.key_not_mem (f : Frame) : f.key ∉ segmentKeys := by
  cases f <;> exact show 95 ∉ Key.k _ by decide

/-- Whoever waits for a data frame comes after the node that puts it. -/
theorem provided_runAccesses {i : Nat} {f : Frame} (h : .wait f ∈ runAccesses i) :
    ∃ j < i, .put f ∈ runAccesses j := by
  rcases i with _ | _ | _ | i
  · simp [runAccesses] at h
  · obtain rfl : f = .main := by simpa [runAccesses] using h
    exact ⟨0, Nat.one_pos, by simp [runAccesses]⟩
  · have hf : f = .verify ∨ f = .check := by simpa [runAccesses] using h
    rcases hf with rfl | rfl
    · exact ⟨1, Nat.one_lt_two, by simp [runAccesses]⟩
    · exact ⟨0, Nat.two_pos, by simp [runAccesses]⟩
  · simp [runAccesses] at h

theorem ordered_runAccesses (i : Nat) : (runAccesses i).Pairwise fun a b =>
    ∀ f f', a = .wait f → b = .put f' → f.rank < f'.rank := by
  rcases i with _ | _ | _ | i <;> simp [runAccesses, Frame.rank]

/-! ## The runs -/

/-- The elements of the column of a data frame. -/
def column : Frame → List (BitVec 64)
  | .main => vals arith sz
  | .verify | .check => [sum arith sz]

/-- The data frames. -/
def catalog : Catalog Frame where
  key := Frame.key
  made := Set.univ
  prog f := match f with
    | .main => DataFrame.fromArray n f.key .double (draws f) (vals arith sz)
    | .verify | .check => DataFrame.fromScalar n f.key .double (draws f) (sum arith sz)
  draws f _ := draws f
  cap f := match f with
    | .main => defaultSegmentCapacity
    | .verify | .check => 1
  ts _ := [.double]
  rows f := (column arith sz f).map (Row.single (t := .double))

variable {arith n sz draws}

theorem exists_entry (hsz : sz ≤ defaultSegmentCapacity * 1000) {f : Frame}
    (hid : colId (draws f) ≠ []) :
    let C := catalog arith n sz draws
    ∃ e : Entry n, Produces (C.key f) (C.prog f) (C.draws f) (C.cap f) (C.ts f) (C.rows f) e := by
  have hs (xs : List ColType.double.Elem) : ∀ x ∈ xs, ColType.double.Storable x :=
    fun _ _ => trivial
  have hscalar (f : Frame) (hid : colId (draws f) ≠ []) :=
    @fromScalar_produces (fun _ => draws f) n f.key .double _ hid
      (hs [sum arith sz] _ List.mem_cons_self)
  cases f with
  | main =>
    have hfew : List.numChunks defaultSegmentCapacity (vals arith sz).length ≤ 1000 := by
      rw [vals, List.length_map, List.length_range]
      exact (List.numChunks_le_iff (by decide) (by norm_num)).2 hsz
    exact @fromArray_produces (fun _ => draws .main) n Frame.main.key _ _ hid
      (hs (vals arith sz)) hfew
  | verify => exact hscalar .verify hid
  | check => exact hscalar .check hid

section

variable {L : Layout Frame Key Value} {e : Frame → Entry n}
  (h : (catalog arith n sz draws).Kept L e)
  {near : Set Key} (hnear : ∀ f, ∀ kv ∈ (e f).puts, kv.1 ∈ near)
include h hnear

/-- `get_double` of a data frame that is there. -/
theorem getDouble_makes {known} {f : Frame} (hf : f ∈ known) {df : DataFrame} (hdf : (e f).Is df)
    {i : Nat} {x : BitVec 64} (hx : (column arith sz f)[i]? = some x) :
    L.Makes near known (df.getDouble 0 i) [] fun r => r.1 = x ∧ (e f).Is r.2 :=
  h.getAs (f := f) trivial hf hdf rfl rfl (hnear f) hx

/-- The counter adds up what the producer has added up. -/
theorem count_makes {known} (hf : .main ∈ known) {v : DataFrame} (hv : (e .main).Is v) :
    L.Makes near known (count arith sz v) [] fun r => r.1 = sum arith sz := by
  have hlen : (vals arith sz).length = sz := by rw [vals, List.length_map, List.length_range]
  have hloop (m : Nat) (hm : m ≤ sz) : L.Makes near known ((List.range m).foldlM
      (fun (acc : BitVec 64 × DataFrame) i => do
        let (x, v) ← acc.2.getDouble 0 i
        return (arith.add acc.1 x, v)) (arith.ofNat 0, v)) [] fun r =>
      r.1 = ((vals arith sz).take m).foldl arith.add (arith.ofNat 0) ∧ (e .main).Is r.2 := by
    induction m with
    | zero => exact .ret ⟨rfl, hv⟩
    | succ m ih =>
      have hlt : m < (vals arith sz).length := hm.trans_eq hlen.symm
      have hget : (column arith sz .main)[m]? = some (vals arith sz)[m] :=
        List.getElem?_eq_getElem hlt
      rw [List.range_succ, List.foldlM_append]
      refine (ih (Nat.le_of_succ_le hm)).bind_nil fun r hr => ?_
      rw [List.foldlM_cons]
      refine Layout.Makes.bind_nil ?_ fun r hr => .ret hr
      refine (getDouble_makes h hnear hf hr.2 hget).bind_nil fun x hx => .ret ⟨?_, hx.2⟩
      rw [hx.1, hr.1, List.take_add_one, List.getElem?_eq_getElem hlt, Option.toList_some,
        List.foldl_concat]
  refine (hloop sz le_rfl).imp fun r hr => ?_
  rw [hr.1, List.take_of_length_le hlen.le, sum]

/-- What a node does. -/
theorem run_makes (heq : arith.eq (sum arith sz) (sum arith sz)) (i : Nat) :
    L.Makes near ∅ (run arith n sz draws i) (runAccesses i) fun _ => True := by
  rcases i with _ | _ | _ | i
  · -- The producer.
    refine h.put_bind (f := .main) trivial fun _ _ => ?_
    refine h.put_bind (f := .check) trivial fun _ _ => ?_
    exact .ret trivial
  · -- The counter.
    refine h.wait_bind (f := .main) trivial fun v hv =>
      (count_makes h hnear (.inl rfl) hv).bind_nil ?_
    rintro ⟨_, v'⟩ rfl
    refine h.put_bind (f := .verify) trivial fun _ _ => ?_
    exact .ret trivial
  · -- The summarizer.
    refine h.wait_bind (f := .verify) trivial fun result hresult => ?_
    refine h.wait_bind (f := .check) trivial fun expected hexpected => ?_
    refine (getDouble_makes h hnear (.inl rfl) hexpected (i := 0) rfl).bind_nil ?_
    rintro ⟨_, expected'⟩ ⟨rfl, -⟩
    refine (getDouble_makes h hnear (.inr (.inl rfl)) hresult (i := 0) rfl).bind_nil ?_
    rintro ⟨_, result'⟩ ⟨rfl, -⟩
    show L.Makes near _ (Prog.assert _) [] _
    rw [Prog.assert_true heq]
    exact .ret trivial
  · exact .ret trivial

end

/-- The store is laid out for the data frames. -/
theorem exists_kept (hsz : sz ≤ defaultSegmentCapacity * 1000) (hne : ∀ f, colId (draws f) ≠ [])
    (hids : Function.Injective fun f => colId (draws f)) :
    ∃ L e, (catalog arith n sz draws).Kept (n := n) L e :=
  (catalog arith n sz draws).exists_kept ⟨.main, trivial⟩ Frame.key_injective Frame.key_not_mem
    (fun f _ => exists_entry hsz (hne f)) fun _ _ _ _ _ _ _ _ heq => hids heq

/-- The programs of the nodes can make their accesses in any order. -/
theorem scheduled {L : Layout Frame Key Value} {e : Frame → Entry n}
    (h : (catalog arith n sz draws).Kept L e) (heq : arith.eq (sum arith sz) (sum arith sz))
    {near : Fin n → Set Key} (hnear : ∀ i, ∀ f, ∀ kv ∈ (e f).puts, kv.1 ∈ near i) :
    L.Scheduled near Frame.rank (fun i : Fin n => run arith n sz draws i)
      (fun i => runAccesses i) fun _ _ => True := by
  refine ⟨fun i => run_makes h (hnear i) heq i, fun i f hf => ?_, fun i => ordered_runAccesses i⟩
  obtain ⟨j, hj, hput⟩ := provided_runAccesses hf
  exact ⟨⟨j, hj.trans i.isLt⟩, hput⟩

/-- In every interleaving of the accesses to the store, the assertion of the summarizer holds and
    no node fails, and all can get done. -/
theorem assertion_holds (arith : Arith) (n sz : Nat) (hsz : sz ≤ defaultSegmentCapacity * 1000)
    (draws : Draws) (hne : ∀ f, colId (draws f) ≠ [])
    (hids : Function.Injective fun f => colId (draws f))
    (heq : arith.eq (sum arith sz) (sum arith sz)) {s : Pool (Fin n) Key Value Unit}
    (hrun : Pool.Run (.init fun i : Fin n => run arith n sz draws i) s) :
    (∀ i, s.prog i ≠ .fail) ∧ ∃ s', Pool.Run s s' ∧ ∀ i, s'.prog i = .ret () := by
  obtain ⟨L, e, hkept⟩ := exists_kept hsz hne hids
  have hsched : L.Scheduled (fun _ => .univ) Frame.rank (fun i : Fin n => run arith n sz draws i)
      (fun i => runAccesses i) fun _ _ => True := scheduled hkept heq fun _ _ _ _ => trivial
  obtain ⟨hfail, -, s', hrun', hdone⟩ := hsched.finishes hrun
  refine ⟨hfail, s', hrun', fun i => ?_⟩
  obtain ⟨⟨⟩, hret, -⟩ := hdone i
  exact hret

/-- The arithmetic of the doubles that are whole numbers below `2 ^ 53`. -/
def wholeArith : Arith where
  ofNat := ofNat
  add x y := ofNat (toNat x + toNat y)
  eq x y := x == y
where
  /-- The exponent, and what the leading bit is followed by. -/
  ofNat (m : Nat) : BitVec 64 :=
    if m = 0 then 0 else .ofNat 64 ((1023 + m.log2) * 2 ^ 52 + (m - 2 ^ m.log2) * 2 ^ (52 - m.log2))
  toNat (x : BitVec 64) : Nat :=
    if x = 0 then 0 else (2 ^ 52 + x.toNat % 2 ^ 52) / 2 ^ (52 - (x.toNat / 2 ^ 52 - 1023))

/-- Every data frame draws a letter of its own. -/
def lettered : Draws := fun f _ => ⟨f.key.k.length, by cases f <;> decide⟩

theorem assertion_holds_whole :
    ∃ s', Pool.Run (.init fun i : Fin 3 => run wholeArith 3 (10 * 1000) lettered i) s' ∧
      ∀ i, s'.prog i = .ret () :=
  (assertion_holds wholeArith 3 (10 * 1000) (by decide) lettered (fun f => by cases f <;> decide)
    (fun f f' h => by cases f <;> cases f' <;> first | rfl | exact absurd h (by decide))
    (beq_self_eq_true _) .refl).2

end Eau2.Demo

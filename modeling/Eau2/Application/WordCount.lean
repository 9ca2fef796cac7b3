import Eau2.Application.FileReader
import Eau2.DataFrame.Catalog
import Eau2.Lib.Tally

/-!
# Word count

An application that counts the words of a file: the node 0 puts them in a data frame, every
node counts those in its segments (`localCount`) and puts the counts in a data frame of its
own, and the node 0 adds these up (`reduce`).

The counts are kept in an `unordered_map`, whose order is not specified: the order in which a
node writes its entries is a parameter. In every interleaving no node fails, all can get done,
and the node 0 ends with how often every word is in the file (`run_counts`).
-/

namespace Eau2.WordCount

open Prog (Access)
open FileReader (bufsize wordRow)

/-- `std::unordered_map<std::string, int>`. -/
abbrev Counts := AList fun _ : Bytes => Int

/-- An entry of such a map. -/
abbrev Entry := Sigma fun _ : Bytes => Int

/-- The sum of two `int`, which is not defined if it is not an `int`. -/
def addInt (x y : Int) : Option Int :=
  if -2 ^ 31 ≤ x + y ∧ x + y < 2 ^ 31 then some (x + y) else none

/-- What a count is added to, if there is anything. -/
def addCount (map : Counts) (w : Bytes) (c : Int) : Option Counts :=
  match map.lookup w with
  | none => some (map.insert w c)
  | some x => (addInt x c).map fun y => map.insert w y

/-- `Adder`. -/
def adder : Reader Counts where
  visit map row := do
    let w ← row.getString 0
    addCount map (cString w.chars) 1

/-- `Merger`. -/
def merger : Reader Counts where
  visit map row := do
    let w ← row.getString 0
    let c ← row.getInt 1
    addCount map (cString w.chars) c.toInt

/-- `Summer`, its state being the entries that its iterator has not passed. -/
def summer : Writer (List Entry) where
  done entries := entries.isEmpty
  visit entries _ := do
    let e ← entries.head?
    let key ← toStr (cString e.1)
    return ([(0, .string (some key)), (1, .int (BitVec.ofInt 32 e.2))], entries.tail)

/-- The data frames: the words, and the counts of the nodes. -/
inductive Frame
  | data
  | counts (node : Nat)
  deriving DecidableEq

/-- `in`. -/
def inKey : Key := .ofCStr (lit "data") 0

/-- `mk_key`. -/
def mkKey (idx : Nat) : Key := .ofCStr (decimal idx) 0

/-- What the columns of the data frames draw for their names. -/
abbrev Draws := Frame → Nat → Fin 10 → Fin 53

variable (n : Nat) (draws : Draws) (iter : Nat → Counts → List Entry) (thisNode : Nat)

/-- `local_count`. The map is gone through in the order `iter thisNode`. -/
def localCount : Prog Key Value Unit := do
  let words ← KDStore.waitAndGet inKey
  let (map, _) ← words.localMap thisNode adder ∅
  let entries := iter thisNode map
  let _ ← DataFrame.fromVisitor n (mkKey thisNode) (lit "SI")
    (draws (.counts thisNode)) summer entries
    (entries.length + 1)
  return ()

/-- `merge`. -/
def merge (df : DataFrame) (map : Counts) : Prog Key Value Counts := do
  let (map, _) ← df.map merger map
  return map

/-- `reduce`. -/
def reduce : Prog Key Value Counts := do
  let own ← KDStore.get (mkKey 0)
  let map ← merge own ∅
  (List.range' 1 (n - 1)).foldlM (fun map i => do
    let df ← KDStore.waitAndGet (mkKey i)
    merge df map) map

/-- The constructor and `run`: what ends in `result`. The buffer of the `FileReader` has `buf`
    at first, and there is at most one visit for each character of the file. -/
def run (buf file : Bytes) : Prog Key Value Counts := do
  let fr ← Prog.ofOption (FileReader.new buf file)
  if thisNode = 0 then
    let _ ← DataFrame.fromVisitor n inKey (lit "S") (draws .data) FileReader.writer fr
      (file.length + 1)
    localCount n draws iter thisNode
    reduce n
  else
    localCount n draws iter thisNode
    return ∅

/-! ## Counting -/

variable {map : Counts} {s : Multiset Bytes} {w : Bytes}

theorem addCount_tallies (h : map.Tallies s) {c : Nat} (hc : 0 < c) (hlt : s.count w + c < 2 ^ 31) :
    ∃ map', addCount map w c = some map' ∧ map'.Tallies (s + Multiset.replicate c w) := by
  have hinsert := h.insert w hc
  rw [addCount]
  cases hw : map.lookup w with
  | none =>
    rw [hw, Option.getD_none, zero_add] at hinsert
    exact ⟨_, rfl, hinsert⟩
  | some x =>
    have hx : x = s.count w := by
      have hlookup := h w
      rw [hw] at hlookup
      split_ifs at hlookup
      exact Option.some.inj hlookup
    rw [hw, Option.getD_some] at hinsert
    refine ⟨_, ?_, hinsert⟩
    show (addInt x c).map _ = _
    rw [addInt, if_pos (by omega)]
    rfl

/-- A word that can be put in a data frame, and comes back as it is. -/
structure Plain (w : Bytes) : Prop where
  ne_nil : w ≠ []
  zero_not_mem : 0 ∉ w
  length_lt : w.length < 2 ^ 64

theorem Plain.toStr_eq (h : Plain w) : toStr w = some ⟨w, h.length_lt⟩ := dif_pos h.length_lt

theorem Plain.full (h : Plain w) : (wordRow w).Full := by
  rw [wordRow, h.toStr_eq]
  exact List.forall_mem_singleton.2 rfl

theorem Plain.storable (h : Plain w) : (wordRow w).Storable := by
  rw [wordRow, h.toStr_eq]
  refine List.forall_mem_singleton.2 fun t x hx => ?_
  cases t with
  | string =>
    cases hx
    exact h.ne_nil
  | int | double | bool => cases hx

/-- The adder counts words. -/
theorem foldlM_adder {ws : List Bytes} (h : map.Tallies s) (hws : ∀ w ∈ ws, Plain w)
    (hlt : ∀ w, (s + ↑ws).count w < 2 ^ 31) :
    ∃ map', (ws.map wordRow).foldlM adder.visit map = some map' ∧ map'.Tallies (s + ↑ws) := by
  induction ws generalizing map s with
  | nil => exact ⟨map, rfl, by simpa using h⟩
  | cons w ws ih =>
    rw [List.forall_mem_cons] at hws
    have hsum : s + Multiset.replicate 1 w + ↑ws = s + ↑(w :: ws) := by
      rw [Multiset.replicate_one, add_assoc, Multiset.singleton_add, Multiset.cons_coe]
    have hlt' := hlt w
    rw [← hsum, Multiset.count_add, Multiset.count_add, Multiset.count_replicate_self] at hlt'
    obtain ⟨map₁, hvisit, h₁⟩ := addCount_tallies h Nat.one_pos
      (Nat.lt_of_le_of_lt (Nat.le_add_right _ _) hlt')
    obtain ⟨map₂, hfold, h₂⟩ := ih h₁ hws.2 (hsum ▸ hlt)
    refine ⟨map₂, ?_, hsum ▸ h₂⟩
    have hrow : adder.visit map (wordRow w) = some map₁ := by
      rw [wordRow, hws.1.toStr_eq]
      show addCount map (cString w) 1 = _
      rw [cString_of_not_mem hws.1.zero_not_mem]
      exact hvisit
    rw [List.map_cons, List.foldlM_cons, hrow]
    exact hfold

/-- The row that the summer makes of an entry. -/
def entryRow (e : Entry) : Row := ⟨[.string (toStr (cString e.1)), .int (BitVec.ofInt 32 e.2)]⟩

/-- The entry has the count of a plain word of the multiset. -/
structure Counted (t : Multiset Bytes) (e : Entry) : Prop where
  plain : Plain e.1
  mem : e.1 ∈ t
  eq : e.2 = t.count e.1
  lt : t.count e.1 < 2 ^ 31

theorem Counted.entryRow_eq {t : Multiset Bytes} {e : Entry} (h : Counted t e) :
    entryRow e = ⟨[.string (some ⟨e.1, h.plain.length_lt⟩), .int (BitVec.ofInt 32 e.2)]⟩ := by
  rw [entryRow, cString_of_not_mem h.plain.zero_not_mem, h.plain.toStr_eq]

theorem counted_of_mem {t : Multiset Bytes} (h : map.Tallies t) {es : List Entry}
    (hperm : es.Perm map.entries) (hplain : ∀ w ∈ t, Plain w)
    (hlt : ∀ w, t.count w < 2 ^ 31) {e : Entry} (he : e ∈ es) : Counted t e :=
  have hof := h.of_mem (hperm.mem_iff.1 he)
  ⟨hplain _ hof.1, hof.1, hof.2, hlt _⟩

theorem nodup_keys {es : List Entry} (hperm : es.Perm map.entries) : (es.map Sigma.fst).Nodup :=
  (hperm.map Sigma.fst).nodup_iff.2 map.keys_nodup

theorem Counted.full {t : Multiset Bytes} {e : Entry} (h : Counted t e) : (entryRow e).Full := by
  rw [h.entryRow_eq]
  exact List.forall_mem_cons.2 ⟨rfl, List.forall_mem_singleton.2 rfl⟩

theorem Counted.storable {t : Multiset Bytes} {e : Entry} (h : Counted t e) :
    (entryRow e).Storable := by
  rw [h.entryRow_eq]
  refine List.forall_mem_cons.2 ⟨fun t x hx => ?_, List.forall_mem_singleton.2 fun t x hx => ?_⟩
  · cases t with
    | string =>
      cases hx
      exact h.plain.ne_nil
    | int | double | bool => cases hx
  · cases t with
    | int => trivial
    | string | double | bool => cases hx

/-- The merger adds the counts of entries. -/
theorem foldlM_merger {t : Multiset Bytes} {es : List Entry} (h : map.Tallies s)
    (hes : ∀ e ∈ es, Counted t e) (hkeys : (es.map Sigma.fst).Nodup)
    (hlt : ∀ w, (s + t.filter (· ∈ es.map Sigma.fst)).count w < 2 ^ 31) :
    ∃ map', (es.map entryRow).foldlM merger.visit map = some map' ∧
      map'.Tallies (s + t.filter (· ∈ es.map Sigma.fst)) := by
  induction es generalizing map s with
  | nil => exact ⟨map, rfl, by simpa using h⟩
  | cons e es ih =>
    rw [List.forall_mem_cons] at hes
    rw [List.map_cons, List.nodup_cons] at hkeys
    have hsum : s + t.filter (· ∈ (e :: es).map Sigma.fst) =
        s + Multiset.replicate (t.count e.1) e.1 + t.filter (· ∈ es.map Sigma.fst) := by
      rw [List.map_cons, Multiset.filter_mem_cons hkeys.1, add_assoc]
    rw [hsum] at hlt ⊢
    have hcount := hlt e.1
    rw [Multiset.count_add, Multiset.count_add, Multiset.count_replicate_self] at hcount
    obtain ⟨map₁, hvisit, h₁⟩ := addCount_tallies h (Multiset.count_pos.2 hes.1.mem)
      (Nat.lt_of_le_of_lt (Nat.le_add_right _ _) hcount)
    obtain ⟨map₂, hfold, h₂⟩ := ih h₁ hes.2 hkeys.2 hlt
    refine ⟨map₂, ?_, h₂⟩
    have hint : (BitVec.ofInt 32 e.2).toInt = t.count e.1 := by
      have hlt := hes.1.lt
      rw [hes.1.eq]
      exact BitVec.toInt_ofInt_eq_self (by decide) (by omega) (by omega)
    have hrow : merger.visit map (entryRow e) = some map₁ := by
      rw [hes.1.entryRow_eq]
      show addCount map (cString e.1) (BitVec.ofInt 32 e.2).toInt = _
      rw [cString_of_not_mem hes.1.plain.zero_not_mem, hint]
      exact hvisit
    rw [List.map_cons, List.foldlM_cons, hrow]
    exact hfold

/-- The merger adds the counts of a map, whatever the order of its entries. -/
theorem foldlM_merger_tallies {t : Multiset Bytes} {map' : Counts} {es : List Entry}
    (h : map.Tallies s)
    (h' : map'.Tallies t) (hperm : es.Perm map'.entries) (hplain : ∀ w ∈ t, Plain w)
    (hlt : ∀ w, (s + t).count w < 2 ^ 31) :
    ∃ map'', (es.map entryRow).foldlM merger.visit map = some map'' ∧ map''.Tallies (s + t) := by
  have hcount (w : Bytes) : t.count w < 2 ^ 31 := by
    have hw := hlt w
    rw [Multiset.count_add] at hw
    exact Nat.lt_of_le_of_lt (Nat.le_add_left _ _) hw
  have hall : t.filter (· ∈ es.map Sigma.fst) = t := by
    refine Multiset.filter_eq_self.2 fun w hw => ?_
    obtain ⟨e, he, rfl⟩ := h'.exists_entry hw
    exact List.mem_map_of_mem (hperm.mem_iff.2 he)
  have hmerge := foldlM_merger h (fun e => counted_of_mem h' hperm hplain hcount) (nodup_keys hperm)
  rw [hall] at hmerge
  exact hmerge hlt

/-! ## The data frames -/

/-- The rows that the summer writes. -/
theorem rows_summer {es : List Entry} {row : Row} (hes : ∀ e ∈ es, e.1.length < 2 ^ 64)
    (hrow : row.values.map Data.type = [.string, .int]) :
    summer.rows (es.length + 1) es row = some (es.map entryRow) := by
  induction es generalizing row with
  | nil => rfl
  | cons e es ih =>
    rw [List.forall_mem_cons] at hes
    have hstr : toStr (cString e.1) =
        some ⟨cString e.1, (List.takeWhile_sublist _).length_le.trans_lt hes.1⟩ :=
      dif_pos _
    have hvisit : summer.visitRow (e :: es) row = some (entryRow e, es) := by
      obtain ⟨values⟩ := row
      obtain ⟨d, values, rfl, hd, hrow⟩ := List.map_eq_cons_iff.1 hrow
      obtain ⟨d', rfl, hd'⟩ := List.map_eq_singleton_iff.1 hrow
      cases d <;> cases hd
      cases d' <;> cases hd'
      rw [entryRow, hstr, Writer.visitRow, summer]
      simp only [List.head?_cons, Option.bind_eq_bind, Option.bind_some, hstr]
      rfl
    have hrest : summer.rows (es.length + 1) es (entryRow e) = some (es.map entryRow) :=
      ih hes.2 rfl
    rw [Writer.rows, if_neg (by simp [summer]), hvisit, Option.bind_eq_bind, Option.bind_some]
    dsimp only
    rw [List.length_cons, hrest]
    rfl

/-- The accesses of a node to the data frames. -/
def runAccesses : List (Access Frame) :=
  if thisNode = 0 then
    .put .data :: .wait .data :: .put (.counts 0) :: (List.range' 1 (n - 1)).map fun i =>
      .wait (.counts i)
  else [.wait .data, .put (.counts thisNode)]

/-- The order in which the data frames come about. -/
def Frame.rank : Frame → Nat
  | data => 0
  | counts _ => 1

/-- The keys. -/
def Frame.key : Frame → Key
  | data => inKey
  | counts node => mkKey node

theorem mkKey_k (idx : Nat) : (mkKey idx).k = decimal idx :=
  cString_of_not_mem (zero_not_mem_decimal idx)

theorem Frame.key_injective : Function.Injective Frame.key := by
  have hne (i : Nat) : inKey ≠ mkKey i := by
    intro heq
    have hk := (congrArg Key.k heq).trans (mkKey_k i)
    exact not_mem_decimal (c := 100) (fun d hd => by interval_cases d <;> decide) i (hk ▸ by decide)
  intro f f' h
  cases f with
  | data =>
    cases f' with
    | data => rfl
    | counts i => exact absurd h (hne i)
  | counts i =>
    cases f' with
    | data => exact absurd h.symm (hne i)
    | counts i' =>
      have hk := congrArg Key.k h
      rw [Frame.key, Frame.key, mkKey_k, mkKey_k] at hk
      rw [decimal_injective hk]

theorem Frame.key_not_mem (f : Frame) : f.key ∉ segmentKeys := by
  cases f with
  | data => exact show 95 ∉ Key.k _ by decide
  | counts i =>
    show 95 ∉ (mkKey i).k
    rw [mkKey_k]
    exact not_mem_decimal (fun d hd => by interval_cases d <;> decide) i

variable {n draws iter thisNode}

theorem provided_runAccesses (hi : thisNode < n) {f : Frame}
    (h : .wait f ∈ runAccesses n thisNode) :
    ∃ j < n, .put f ∈ runAccesses n j := by
  have hn : 0 < n := Nat.zero_lt_of_lt hi
  have hdata : ∃ j < n, .put Frame.data ∈ runAccesses n j := ⟨0, hn, by simp [runAccesses]⟩
  rw [runAccesses] at h
  split_ifs at h
  · simp only [List.mem_cons, List.mem_map, List.mem_range'_1, Access.wait.injEq, reduceCtorEq,
      false_or] at h
    rcases h with rfl | ⟨i, hi, rfl⟩
    · exact hdata
    · exact ⟨i, by omega, by rw [runAccesses, if_neg (by omega)]; simp⟩
  · obtain rfl : f = .data := by simpa using h
    exact hdata

theorem ordered_runAccesses : (runAccesses n thisNode).Pairwise fun a b =>
    ∀ f f', a = .wait f → b = .put f' → f.rank < f'.rank := by
  rw [runAccesses]
  split_ifs
  · refine List.pairwise_cons.2 ⟨by simp, List.pairwise_cons.2
      ⟨?_, List.pairwise_cons.2 ⟨by simp, ?_⟩⟩⟩
    · rintro a ha f f' heq rfl
      obtain rfl : f = .data := by simpa [eq_comm] using heq
      obtain rfl : f' = .counts 0 := by simpa using ha
      exact Nat.one_pos
    · exact List.pairwise_map.2 (List.pairwise_of_forall fun _ _ _ _ _ heq => by cases heq)
  · simp [Frame.rank]

/-- What a file has to be like for its words to be counted. -/
structure Readable (file : Bytes) : Prop where
  /-- There is a word: with no row at all, `local_map` fails. -/
  ne_nil : file.words isSpace ≠ []
  /-- There is a space after the last word. -/
  last : ∀ c ∈ file.getLast?, isSpace c
  /-- No word is too long for the buffer of the `FileReader`. -/
  length_le : ∀ w ∈ file.words isSpace, w.length ≤ bufsize / 2
  /-- No word is cut off. -/
  zero_not_mem : 0 ∉ file
  /-- The counts are of type `int`. -/
  count_lt : ∀ w, (file.words isSpace : Multiset Bytes).count w < 2 ^ 31
  /-- The numbers of the segments have three digits. -/
  few : (file.words isSpace).length ≤ defaultSegmentCapacity * 1000

theorem Readable.plain {file : Bytes} (h : Readable file) {w : Bytes}
    (hw : w ∈ file.words isSpace) :
    Plain w :=
  ⟨List.ne_nil_of_mem_words hw, fun hmem => h.zero_not_mem (List.subset_of_mem_words hw hmem),
    (h.length_le w hw).trans_lt (by decide)⟩

/-- The words in the segments of a node. -/
def localWords (n : Nat) (file : Bytes) (node : Nat) : List Bytes :=
  (file.words isSpace).dealt n defaultSegmentCapacity node

/-- The number of columns of a data frame. -/
def width : Frame → Nat
  | .data => 1
  | .counts _ => 2

/-- The data frames that are made. -/
def Frame.Made (n : Nat) : Frame → Prop
  | data => True
  | counts node => node < n

/-- The data frames, when the nodes have the counts `maps` and the node 0 has the reader `fr`. -/
def catalog (n : Nat) (draws : Draws) (iter : Nat → Counts → List Entry) (file : Bytes)
    (fr : FileReader) (maps : Nat → Counts) : Catalog Frame where
  key := Frame.key
  made := {f | f.Made n}
  prog f := match f with
    | .data =>
      DataFrame.fromVisitor n inKey (lit "S") (draws .data) FileReader.writer fr (file.length + 1)
    | .counts node =>
      DataFrame.fromVisitor n (mkKey node) (lit "SI") (draws (.counts node)) summer
        (iter node (maps node))
        ((iter node (maps node)).length + 1)
  draws := draws
  cap _ := defaultSegmentCapacity
  ts f := match f with
    | .data => [.string]
    | .counts _ => [.string, .int]
  rows f := match f with
    | .data => (file.words isSpace).map wordRow
    | .counts node => (iter node (maps node)).map entryRow

section

variable {file : Bytes} {fr : FileReader} {maps : Nat → Counts}

/-- The words of a node are words of the file, all of which are those of a node. -/
theorem perm_localWords (hn : 0 < n) (file : Bytes) :
    ((List.range n).flatMap (localWords n file)).Perm (file.words isSpace) :=
  List.perm_dealt hn (by decide) _

theorem mem_of_mem_localWords {i : Nat} (hi : i < n) {w : Bytes} (hw : w ∈ localWords n file i) :
    w ∈ file.words isSpace :=
  (perm_localWords (Nat.zero_lt_of_lt hi) file).mem_iff.1
    (List.mem_flatMap.2 ⟨i, List.mem_range.2 hi, hw⟩)

variable (file) in
/-- The words of some of the nodes. -/
theorem flatMap_localWords_le {m : Nat} (hm : m ≤ n) (hn : 0 < n) :
    ((List.range m).flatMap (localWords n file) : Multiset Bytes) ≤ file.words isSpace := by
  have hsub : ((List.range m).flatMap (localWords n file)).Sublist
      ((List.range n).flatMap (localWords n file)) := by
    rw [← Nat.add_sub_cancel' hm, List.range_add, List.flatMap_append]
    exact List.sublist_append_left _ _
  exact Multiset.coe_le.2 (hsub.subperm.trans (perm_localWords hn file).subperm)

theorem localWords_le {i : Nat} (hi : i < n) :
    (localWords n file i : Multiset Bytes) ≤ file.words isSpace := by
  have hle := flatMap_localWords_le file (Nat.succ_le_of_lt hi) (Nat.zero_lt_of_lt hi)
  rw [List.range_succ, List.flatMap_append, List.flatMap_singleton, ← Multiset.coe_add] at hle
  exact (Multiset.le_add_left _ _).trans hle

theorem exists_maps (h : Readable file) : ∃ maps : Nat → Counts, ∀ i < n,
    ((localWords n file i).map wordRow).foldlM adder.visit ∅ = some (maps i) ∧
      (maps i).Tallies ↑(localWords n file i) := by
  have hnode (i : Nat) : ∃ map : Counts, i < n →
      ((localWords n file i).map wordRow).foldlM adder.visit ∅ = some map ∧
        map.Tallies ↑(localWords n file i) := by
    by_cases hi : i < n
    · have hlt (w : Bytes) : (0 + (localWords n file i : Multiset Bytes)).count w < 2 ^ 31 := by
        rw [zero_add]
        exact (Multiset.count_le_of_le w (localWords_le hi)).trans_lt (h.count_lt w)
      obtain ⟨map, hfold, htallies⟩ := foldlM_adder AList.tallies_empty
        (fun w hw => h.plain (mem_of_mem_localWords hi hw)) hlt
      exact ⟨map, fun _ => ⟨hfold, by rwa [zero_add] at htallies⟩⟩
    · exact ⟨∅, fun hlt => absurd hlt hi⟩
  choose maps hmaps using hnode
  exact ⟨maps, hmaps⟩

/-- A node has a count for every one of its words, and no other. -/
theorem length_counts_le (hiter : ∀ i map, (iter i map).Perm map.entries)
    (hmaps : ∀ i < n, (maps i).Tallies ↑(localWords n file i)) {i : Nat} (hi : i < n) :
    (iter i (maps i)).length ≤ (file.words isSpace).dedup.length := by
  have hperm := hiter i (maps i)
  have hsub : (iter i (maps i)).map Sigma.fst ⊆ (file.words isSpace).dedup := by
    intro w hw
    obtain ⟨e, he, rfl⟩ := List.mem_map.1 hw
    have hmem := (hmaps i hi).of_mem (hperm.mem_iff.1 he)
    exact List.mem_dedup.2 (mem_of_mem_localWords hi (Multiset.mem_coe.1 hmem.1))
  simpa using ((nodup_keys hperm).subperm hsub).length_le

/-- The ids of the columns are pairwise distinct. -/
def DistinctIds (n : Nat) (draws : Draws) : Prop :=
  ∀ f c f' c', f.Made n → c < width f → f'.Made n → c' < width f' →
    colId (draws f c) = colId (draws f' c') → f = f' ∧ c = c'

/-- The data frames can be made. -/
theorem exists_entry (h : Readable file) (hids : DistinctIds n draws)
    (hne : ∀ f c, f.Made n → c < width f → colId (draws f c) ≠ [])
    (hiter : ∀ i map, (iter i map).Perm map.entries) {buf : Bytes} (hbuf : buf.length = bufsize + 1)
    (hfirst : ∀ c ∈ buf[bufsize]?, isSpace c = false) (hnew : FileReader.new buf file = some fr)
    (hmaps : ∀ i < n, (maps i).Tallies ↑(localWords n file i)) {f : Frame} (hf : f.Made n) :
    let C := catalog n draws iter file fr maps
    ∃ e : Eau2.Entry n, Produces (C.key f) (C.prog f) (C.draws f) (C.cap f) (C.ts f)
      (C.rows f) e := by
  have hgood : GoodIds (draws f) (width f) :=
    ⟨fun c hc => hne f c hf hc, fun c hc c' hc' heq => (hids f c f c' hf hc hf hc' heq).2⟩
  cases f with
  | data =>
    have hfuel : (file.words isSpace).length < file.length + 1 :=
      Nat.lt_succ_of_le (List.length_words_le file)
    obtain ⟨fr', hnew', hrows⟩ := FileReader.rows_writer hbuf hfirst h.last h.length_le hfuel
      (show ∃ w, Row.ofTypes [.string] = ⟨[.string w]⟩ from ⟨none, rfl⟩)
    obtain rfl : fr' = fr := Option.some.inj (hnew'.symm.trans hnew)
    have hfew : List.numChunks defaultSegmentCapacity
        ((file.words isSpace).map wordRow).length ≤ 1000 := by
      rw [List.length_map]
      exact (List.numChunks_le_iff (by decide) (by norm_num)).2 h.few
    refine fromVisitor_produces n inKey rfl hrows (List.cons_ne_nil _ _) hgood ?_ ?_ ?_ hfew
    all_goals
      intro r hr
      obtain ⟨w, hw, rfl⟩ := List.mem_map.1 hr
    · rfl
    · exact (h.plain hw).full
    · exact (h.plain hw).storable
  | counts i =>
    have hi : i < n := hf
    have hperm := hiter i (maps i)
    have hcounted (e : Entry) (he : e ∈ iter i (maps i)) : Counted ↑(localWords n file i) e :=
      counted_of_mem (hmaps i hi) hperm (fun w hw => h.plain (mem_of_mem_localWords hi hw))
        (fun w => (Multiset.count_le_of_le w (localWords_le hi)).trans_lt (h.count_lt w)) he
    have hfew : List.numChunks defaultSegmentCapacity
        ((iter i (maps i)).map entryRow).length ≤ 1000 := by
      have hle := (length_counts_le hiter hmaps hi).trans (List.dedup_sublist _).length_le
      rw [List.length_map]
      exact (List.numChunks_le_iff (by decide) (by norm_num)).2 (hle.trans h.few)
    refine fromVisitor_produces n (mkKey i) rfl
      (rows_summer (fun e he => (hcounted e he).plain.length_lt) rfl)
      (List.cons_ne_nil _ _) hgood ?_ ?_ ?_ hfew
    all_goals
      intro r hr
      obtain ⟨e, he, rfl⟩ := List.mem_map.1 hr
    · rfl
    · exact (hcounted e he).full
    · exact (hcounted e he).storable

/-! ## The programs -/

section Programs

variable {L : Layout Frame Key Value} {e : Frame → Eau2.Entry n}
  (hkept : (catalog n draws iter file fr maps).Kept L e) {near : Set Key}
include hkept

/-- A node counts its words. -/
theorem localCount_makes {known} (h : Readable file) {i : Nat} (hi : i < n)
    (hown : {k | k.node = i} ⊆ near)
    (hfold : ((localWords n file i).map wordRow).foldlM adder.visit ∅ = some (maps i)) :
    L.Makes near known (localCount n draws iter i)
    [.wait .data, .put (.counts i)] fun _ => True := by
  have hlen : 0 < ((file.words isSpace).map wordRow).length := by
    rw [List.length_map]
    exact List.length_pos_of_ne_nil h.ne_nil
  rw [localWords, ← List.dealt_map] at hfold
  refine hkept.wait_bind (f := Frame.data) trivial fun words hwords => ?_
  refine (hkept.localMap (f := Frame.data) trivial
    (.inl rfl) hwords rfl hlen hown hfold).bind_nil ?_
  rintro ⟨_, words'⟩ ⟨rfl, -⟩
  refine hkept.put_bind (f := Frame.counts i) hi fun _ _ => ?_
  exact .ret trivial

/-- The counts of a node are added to those there are. -/
theorem merge_makes {known} {i : Nat} (hi : i < n) (hknown : Frame.counts i ∈ known)
    {df : DataFrame}
    (hdf : (e (.counts i)).Is df) (hnear : ∀ kv ∈ (e (.counts i)).puts, kv.1 ∈ near)
    (h : Readable file) (hiter : ∀ i map, (iter i map).Perm map.entries)
    (hmaps : (maps i).Tallies ↑(localWords n file i)) (hmap : map.Tallies s)
    (hle : s + localWords n file i ≤ file.words isSpace) :
    L.Makes near known (merge df map) [] fun map' => map'.Tallies (s + ↑(localWords n file i)) := by
  obtain ⟨map', hfold, hmap'⟩ := foldlM_merger_tallies hmap hmaps (hiter i (maps i))
    (fun w hw => h.plain (mem_of_mem_localWords hi hw))
    fun w => (Multiset.count_le_of_le w hle).trans_lt (h.count_lt w)
  refine (hkept.map (f := Frame.counts i) hi hknown hdf hnear hfold).bind_nil fun r hr => ?_
  exact .ret (hr.1 ▸ hmap')

/-- The node 0 adds up the counts of all. -/
theorem reduce_makes {known} (hn : 0 < n) (hknown : Frame.counts 0 ∈ known) (hkey : mkKey 0 ∈ near)
    (hnear : ∀ i < n, ∀ kv ∈ (e (.counts i)).puts, kv.1 ∈ near) (h : Readable file)
    (hiter : ∀ i map, (iter i map).Perm map.entries)
    (hmaps : ∀ i < n, (maps i).Tallies ↑(localWords n file i)) :
    L.Makes near known (reduce n) ((List.range' 1 (n - 1)).map fun i => .wait (.counts i))
      fun map => map.Tallies ↑(file.words isSpace) := by
  -- the words of the nodes up to one, and those of the next
  have hsum (m : Nat) : ((List.range m).flatMap (localWords n file) : Multiset Bytes) +
      ↑(localWords n file m) = ↑((List.range (m + 1)).flatMap (localWords n file)) := by
    rw [Multiset.coe_add, List.range_succ, List.flatMap_append, List.flatMap_singleton]
  have hle {m : Nat} (hm : m < n) : ((List.range m).flatMap (localWords n file) : Multiset Bytes) +
      localWords n file m ≤ file.words isSpace := by
    rw [hsum]
    exact flatMap_localWords_le file hm hn
  have hloop (m : Nat) (hm : m < n) {map : Counts}
      (hmap : map.Tallies ↑((List.range 1).flatMap (localWords n file))) :
      L.Makes near known ((List.range' 1 m).foldlM (fun map i => do
        let df ← KDStore.waitAndGet (mkKey i)
        merge df map) map) ((List.range' 1 m).map fun i => .wait (.counts i))
        fun map => map.Tallies ↑((List.range (m + 1)).flatMap (localWords n file)) := by
    induction m with
    | zero => exact .ret hmap
    | succ m ih =>
      rw [List.range'_1_concat, List.foldlM_append, List.map_append]
      refine (ih (Nat.lt_of_succ_lt hm)).bind fun map hmap => ?_
      have hone : [1 + m].foldlM (fun map i => do
          let df ← KDStore.waitAndGet (mkKey i)
          merge df map) map = KDStore.waitAndGet (mkKey (m + 1)) >>= fun df => merge df map := by
        rw [Nat.add_comm 1 m]
        exact bind_pure _
      rw [hone, List.map_singleton, Nat.add_comm 1 m]
      refine hkept.wait_bind (f := Frame.counts (m + 1)) hm fun df hdf => ?_
      refine (merge_makes hkept hm (.inl rfl) hdf (hnear (m + 1) hm) h hiter (hmaps (m + 1) hm) hmap
        (hle hm)).imp ?_
      intro map hmap
      rwa [hsum] at hmap
  rw [reduce]
  refine (hkept.get (f := Frame.counts 0) hn hknown hkey).bind_nil fun own hown => ?_
  refine (merge_makes hkept hn hknown hown (hnear 0 hn) h hiter (hmaps 0 hn) AList.tallies_empty
    (hle hn)).bind_nil
    fun map hmap => ?_
  refine (hloop (n - 1) (Nat.sub_lt hn Nat.one_pos) (hsum 0 ▸ hmap)).imp fun map hmap => ?_
  rwa [Nat.sub_add_cancel hn, Multiset.coe_eq_coe.2 (perm_localWords hn file)] at hmap

/-- What a node does, and what the node 0 ends with. -/
theorem run_makes (h : Readable file) {i : Nat} (hi : i < n) {buf : Nat → Bytes}
    (hnew : FileReader.new (buf 0) file = some fr)
    (hnew' : ∃ fr, FileReader.new (buf i) file = some fr)
    (hiter : ∀ i map, (iter i map).Perm map.entries)
    (hmaps : ∀ i < n, ((localWords n file i).map wordRow).foldlM adder.visit ∅ = some (maps i) ∧
      (maps i).Tallies ↑(localWords n file i))
    (hown : {k | k.node = i} ⊆ near) (hnear : ∀ i < n, ∀ kv ∈ (e (.counts i)).puts, kv.1 ∈ near) :
    L.Makes near ∅ (run n draws iter i (buf i) file) (runAccesses n i)
      fun map => i = 0 → map.Tallies ↑(file.words isSpace) := by
  have hlocal {known : Set Frame} : L.Makes near known (localCount n draws iter i)
      [.wait .data, .put (.counts i)] fun _ => True := localCount_makes hkept h hi hown
        (hmaps i hi).1
  obtain ⟨fr', hfr'⟩ := hnew'
  rw [run, runAccesses, hfr', Prog.ofOption_some, Prog.ret_bind]
  split_ifs with hzero
  · subst hzero
    obtain rfl : fr' = fr := Option.some.inj (hfr'.symm.trans hnew)
    refine hkept.put_bind (f := Frame.data) trivial fun _ _ => ?_
    show L.Makes near _ _ ([.wait .data, .put (.counts 0)] ++ (List.range' 1 (n - 1)).map fun i =>
      .wait (.counts i)) _
    refine hlocal.bind fun _ _ => ?_
    exact (reduce_makes hkept hi (.inr (.inl (by simp))) (hown rfl) hnear h hiter fun i hi =>
      (hmaps i hi).2).imp
      fun map hmap _ => hmap
  · rw [← List.append_nil [Access.wait Frame.data, Access.put (Frame.counts i)]]
    exact hlocal.bind fun _ _ => .ret fun heq => absurd heq hzero

end Programs

end

/-! ## The runs -/

section Runs

variable {file : Bytes} (h : Readable file) (hiter : ∀ i map, (iter i map).Perm map.entries)
  {buf : Nat → Bytes} (hbuf : ∀ i, (buf i).length = bufsize + 1)
  (hfirst : ∀ i, ∀ c ∈ (buf i)[bufsize]?, isSpace c = false)
include h hiter hbuf hfirst

/-- The store is laid out for the data frames of a run. -/
theorem exists_kept (hids : DistinctIds n draws)
    (hne : ∀ f c, f.Made n → c < width f → colId (draws f c) ≠ []) :
    ∃ fr maps L e, FileReader.new (buf 0) file = some fr ∧
      (∀ i < n, ((localWords n file i).map wordRow).foldlM adder.visit ∅ = some (maps i) ∧
        (maps i).Tallies ↑(localWords n file i)) ∧
      (catalog n draws iter file fr maps).Kept (n := n) L e := by
  obtain ⟨maps, hmaps⟩ := exists_maps (n := n) h
  obtain ⟨fr, hfr, -⟩ := FileReader.new_ready (hbuf 0) (hfirst 0)
  have hwidth (f : Frame) : ((catalog n draws iter file fr maps).ts f).length = width f := by
    cases f <;> rfl
  obtain ⟨L, e, hkept⟩ := (catalog n draws iter file fr maps).exists_kept (n := n) ⟨.data, trivial⟩
    Frame.key_injective Frame.key_not_mem
    (fun f hf => exists_entry h hids hne hiter (hbuf 0) (hfirst 0) hfr
      (fun i hi => (hmaps i hi).2) hf)
    fun f hf f' hf' c hc c' hc' heq =>
      (hids f c f' c' hf (hwidth f ▸ hc) hf' (hwidth f' ▸ hc') heq).1
  exact ⟨fr, maps, L, e, hfr, hmaps, hkept⟩

/-- The programs of the nodes can make their accesses in any order. -/
theorem scheduled {fr : FileReader} {maps : Nat → Counts} {L : Layout Frame Key Value}
    {e : Frame → Eau2.Entry n} (hkept : (catalog n draws iter file fr maps).Kept L e)
    (hfr : FileReader.new (buf 0) file = some fr)
    (hmaps : ∀ i < n, ((localWords n file i).map wordRow).foldlM adder.visit ∅ = some (maps i) ∧
      (maps i).Tallies ↑(localWords n file i)) {near : Fin n → Set Key}
    (hown : ∀ i : Fin n, {k | k.node = i.val} ⊆ near i)
    (hnear : ∀ i, ∀ j < n, ∀ kv ∈ (e (.counts j)).puts, kv.1 ∈ near i) :
    L.Scheduled near Frame.rank (fun i : Fin n => run n draws iter i (buf i) file)
      (fun i => runAccesses n i) fun i map => i.val = 0 → map.Tallies ↑(file.words isSpace) := by
  have hnew (i : Nat) : ∃ fr, FileReader.new (buf i) file = some fr :=
    (FileReader.new_ready (hbuf i) (hfirst i)).imp fun _ => And.left
  refine ⟨fun i => run_makes hkept h i.isLt hfr (hnew i) hiter hmaps (hown i) (hnear i),
    fun i f hf => ?_, fun i => ordered_runAccesses⟩
  obtain ⟨j, hj, hput⟩ := provided_runAccesses i.isLt hf
  exact ⟨⟨j, hj⟩, hput⟩

end Runs

/-- How often a word is in the file. -/
theorem lookup_of_tallies {file : Bytes} {result : Counts}
    (hresult : result.Tallies ↑(file.words isSpace)) (w : Bytes) : result.lookup w =
      if w ∈ file.words isSpace then some ((file.words isSpace).count w : Int) else none := by
  have hcount : (file.words isSpace : Multiset Bytes).count w = (file.words isSpace).count w := by
    rw [Multiset.coe_count]
    congr!
  rw [hresult w, hcount]
  simp only [Multiset.mem_coe]

/-- In every interleaving of the accesses to the store, no node fails, the node 0 ends with how
    often every word is in the file, and all can get done. -/
theorem run_counts (n : Nat) (file : Bytes) (h : Readable file) (draws : Draws)
    (hids : DistinctIds n draws) (hne : ∀ f c, f.Made n → c < width f → colId (draws f c) ≠ [])
    (iter : Nat → Counts → List Entry) (hiter : ∀ i map, (iter i map).Perm map.entries)
    (buf : Nat → Bytes) (hbuf : ∀ i, (buf i).length = bufsize + 1)
    (hfirst : ∀ i, ∀ c ∈ (buf i)[bufsize]?, isSpace c = false) {s : Pool (Fin n) Key Value Counts}
    (hrun : Pool.Run (.init fun i : Fin n => run n draws iter i (buf i) file) s) :
    (∀ i, s.prog i ≠ .fail) ∧
      (∀ (i : Fin n) result, s.prog i = .ret result → i.val = 0 → ∀ w, result.lookup w =
        if w ∈ file.words isSpace then some ((file.words isSpace).count w : Int) else none) ∧
      ∃ s', Pool.Run s s' ∧ ∀ i, ∃ result, s'.prog i = .ret result := by
  obtain ⟨fr, maps, L, e, hfr, hmaps, hkept⟩ := exists_kept h hiter hbuf hfirst hids hne
  have hsched : L.Scheduled (fun _ => .univ) Frame.rank
      (fun i : Fin n => run n draws iter i (buf i) file)
      (fun i => runAccesses n i) fun i map => i.val = 0 → map.Tallies ↑(file.words isSpace) :=
    scheduled h hiter hbuf hfirst hkept hfr hmaps (fun _ _ _ => trivial) fun _ _ _ _ _ => trivial
  obtain ⟨hfail, hret, s', hrun', hdone⟩ := hsched.finishes hrun
  refine ⟨hfail, fun i result hresult hzero => ?_, s', hrun', fun i =>
    (hdone i).imp fun _ => And.left⟩
  exact lookup_of_tallies (hret i result hresult hzero)

/-- A file of three words. -/
def threeWords : Bytes := lit "b a b "

theorem readable_threeWords : Readable threeWords where
  ne_nil := by decide
  last c hc := by
    obtain rfl : 32 = c := Option.some.inj hc
    rfl
  length_le := by decide
  zero_not_mem := by decide
  count_lt w := (Multiset.count_le_card w _).trans_lt (show 3 < 2 ^ 31 by decide)
  few := by decide

/-- A number for every data frame, from which on its columns are numbered. -/
def Frame.code : Frame → Nat
  | data => 0
  | counts node => 2 * node + 1

/-- Every column draws the letter of its number. -/
def lettered : Draws := fun f c _ => ⟨(f.code + c) % 53, Nat.mod_lt _ (Nat.succ_pos 52)⟩

/-- With two nodes, there are no more than five columns. -/
theorem code_lt {f : Frame} {c : Nat} (hf : f.Made 2) (hc : c < width f) : f.code + c < 5 := by
  cases f <;> simp only [Frame.Made, width, Frame.code] at hf hc ⊢ <;> omega

theorem colId_lettered {f : Frame} {c : Nat} (hf : f.Made 2) (hc : c < width f) :
    colId (lettered f c) = List.replicate 10 (alpha.getD (f.code + c) 0) := by
  have hid : ∀ a < 5, colId (fun _ => ⟨a % 53, Nat.mod_lt _ (Nat.succ_pos 52)⟩) =
      List.replicate 10 (alpha.getD a 0) := by decide
  exact hid _ (code_lt hf hc)

theorem distinctIds_lettered : DistinctIds 2 lettered := by
  have halpha : ∀ a < 5, ∀ b < 5, alpha.getD a 0 = alpha.getD b 0 → a = b := by decide
  intro f c f' c' hf hc hf' hc' heq
  rw [colId_lettered hf hc, colId_lettered hf' hc', List.replicate_right_inj (by decide)] at heq
  have hcode := halpha _ (code_lt hf hc) _ (code_lt hf' hc') heq
  cases f <;> cases f' <;> simp only [Frame.Made, width, Frame.code, Frame.counts.injEq,
    reduceCtorEq, true_and, false_and] at * <;> omega

theorem run_counts_threeWords :
    ∃ s', Pool.Run (.init fun i : Fin 2 => run 2 lettered (fun _ map => map.entries) i
        (List.replicate (bufsize + 1) 0) threeWords) s' ∧
      ∃ result, s'.prog ⟨0, Nat.two_pos⟩ = .ret result ∧ result.lookup (lit "b") = some 2 := by
  have hfirst (c : UInt8) (hc : c ∈ (List.replicate (bufsize + 1) (0 : UInt8))[bufsize]?) :
      isSpace c = false := by
    rw [List.getElem?_replicate_of_lt (Nat.lt_succ_self _)] at hc
    cases hc
    rfl
  have hne (f : Frame) (c : Nat) (hf : f.Made 2) (hc : c < width f) :
      colId (lettered f c) ≠ [] := by
    rw [colId_lettered hf hc]
    exact List.cons_ne_nil _ _
  have hall {s : Pool (Fin 2) Key Value Counts} (h : Pool.Run (.init fun i : Fin 2 => run 2 lettered
      (fun _ map => map.entries) i (List.replicate (bufsize + 1) 0) threeWords) s) :=
    run_counts 2 threeWords readable_threeWords lettered distinctIds_lettered hne
      (fun _ map => map.entries)
      (fun _ _ => .refl _) (fun _ => List.replicate (bufsize + 1) 0)
        (fun _ => List.length_replicate)
      (fun _ => hfirst) h
  obtain ⟨-, -, s', hrun, hdone⟩ := hall .refl
  obtain ⟨-, hret, -⟩ := hall hrun
  obtain ⟨result, hresult⟩ := hdone ⟨0, Nat.two_pos⟩
  exact ⟨s', hrun, result, hresult, hret _ _ hresult rfl _⟩

end Eau2.WordCount

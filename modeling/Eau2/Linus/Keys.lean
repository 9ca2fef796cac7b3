import Eau2.DataFrame.Names
import Eau2.DataFrame.Numbered
import Eau2.Linus.Nodes
import Eau2.Network.Once

/-!
# The keys of a run

Everything that the nodes put goes into one namespace: the data frames, under names made of a
word, a stage and a node, and the segments of their columns, under names made of the ids drawn
for the columns. Each node makes the frames of its own one after the other (`Frame.time`),
and puts the segments of each in order, so its keys are numbered, a slot being a
frame or a column (`KD.app_numbered`). The names of different slots differ: those of
frames have no `_`, and the ids are distinct.

Main result: `written_once`, in a run no two puts have equal keys, so that nothing in the
store is ever replaced, and whoever reads a key gets the same value.
-/

namespace Eau2.Linus

open Network Slots

deriving instance DecidableEq for Frame

/-- The node that makes a frame. -/
def Frame.node : Frame → Nat
  | projs | usrs | comts => 0
  | projects _ node | users _ node => node

/-- When a frame is made, among those of its node. -/
def Frame.time : Frame → Nat
  | projs => 0
  | usrs => 1
  | comts => 2
  | users stage _ => 2 * stage + 3
  | projects stage _ => 2 * stage + 4

/-- The frames of a run of `n` nodes. The users of the stage 0 are those of the node 0. -/
def Frame.Made (n degrees : Nat) : Frame → Prop
  | projs | usrs | comts => True
  | projects stage node => stage < degrees ∧ node < n
  | users stage node => stage ≤ degrees ∧ node < n ∧ (stage = 0 → node = 0)

/-- The number that is printed for the stage of a step: that of an `int`, as a `size_t`. No
    steps print those of the stages from `2 ^ 32` on. -/
def printedStage (stage : Nat) : Nat :=
  if stage < 2 ^ 32 then sizeT (.ofNat 32 stage) else 2 ^ 64 + stage

theorem printedStage_of_lt {stage : Nat} (h : stage < 2 ^ 32) :
    printedStage stage = sizeT (.ofNat 32 stage) := if_pos h

theorem printedStage_succ {stage : Nat} (h : stage + 1 < 2 ^ 32) :
    printedStage (stage + 1) = sizeT (BitVec.ofNat 32 stage + 1) := by
  rw [printedStage_of_lt h, BitVec.ofNat_add]
  rfl

theorem printedStage_injective : Function.Injective printedStage := by
  intro stage stage' h
  have hlt (v : BitVec 32) : sizeT v < 2 ^ 64 := BitVec.isLt _
  rw [printedStage, printedStage] at h
  split_ifs at h with hs hs' hs'
  · have heq := congrArg BitVec.toNat (sizeT_injective h)
    rwa [BitVec.toNat_ofNat, BitVec.toNat_ofNat, Nat.mod_eq_of_lt hs, Nat.mod_eq_of_lt hs'] at heq
  · exact absurd (hlt (.ofNat 32 stage)) (by omega)
  · exact absurd (hlt (.ofNat 32 stage')) (by omega)
  · omega

/-- The frame of the stage that is printed. -/
def Frame.printed : Frame → Frame
  | projs => projs
  | usrs => usrs
  | comts => comts
  | projects stage node => projects (printedStage stage) node
  | users stage node => users (printedStage stage) node

/-- The key of a data frame. -/
def Frame.key (f : Frame) : Key := ⟨f.printed.name, 0⟩

theorem Frame.eq_of_key {f f' : Frame} (h : f.key.k = f'.key.k) : f = f' := by
  have hprinted : f.printed = f'.printed := Frame.name_injective h
  cases f <;> cases f' <;>
    simp_all only [Frame.printed, reduceCtorEq, projects.injEq, users.injEq,
      printedStage_injective.eq_iff]

theorem Frame.key_injective : Function.Injective Frame.key := fun _ _ h =>
  Frame.eq_of_key (congrArg Key.k h)

namespace KD

/-- The number of columns of a frame. -/
def width (files : Files) : Frame → Nat
  | .projs => SorParser.width (SorParser.sample files.projects)
  | .usrs => SorParser.width (SorParser.sample files.users)
  | .comts => SorParser.width (SorParser.sample files.commits)
  | .projects _ _ | .users _ _ => 1

/-- The frame `f` of a run has a column `c`. -/
def IsColumn (n degrees : Nat) (files : Files) (f : Frame) (c : Nat) : Prop :=
  f.Made n degrees ∧ c < width files f

/-- The ids of the columns of a run are pairwise distinct. -/
def DistinctIds (n degrees : Nat) (files : Files) (draws : Draws) : Prop :=
  ∀ f c f' c', IsColumn n degrees files f c → IsColumn n degrees files f' c' →
    colId (draws f c) = colId (draws f' c') → f = f' ∧ c = c'

/-- The puts of segments of the column with the id. -/
def segmentsPut (id : Bytes) (l : List Event) : Nat :=
  (issuedKeys l).countP fun k => (id ++ lit "_").isPrefixOf k.k

end KD

/-! ## Slots -/

/-- What keys are put for: a frame, once, or a column, for each of its segments. -/
inductive Slot
  | frame (f : Frame)
  | column (f : Frame) (c : Nat)
  deriving DecidableEq

namespace Slot

/-- The frame that a slot belongs to. -/
def of : Slot → Frame
  | frame f | column f _ => f

/-- The keys of a slot, by their numbers. -/
def Names (n degrees : Nat) (files : KD.Files) (draws : KD.Draws) : Slot → Nat → Key → Prop
  | frame f, j, k => f.Made n degrees ∧ j = 0 ∧ k.k = f.key.k
  | column f c, j, k => KD.IsColumn n degrees files f c ∧ k.k = segName (colId (draws f c)) j

/-- Nothing has been put for the frames made at the time `t` or later. -/
def Before (t : Nat) (g : Slot → Nat) : Prop := ∀ s : Slot, t ≤ s.of.time → g s = 0

theorem Before.mono {t t' : Nat} {g : Slot → Nat} (h : Before t g) (hle : t ≤ t') : Before t' g :=
  fun s hs => h s (hle.trans hs)

theorem column_injective (f : Frame) : Function.Injective (column f) :=
  fun _ _ h => (column.inj h).2

end Slot

/-- The names of frames have no `_`. -/
theorem Frame.not_mem_name (f : Frame) : 95 ∉ f.name := by
  have hkey {name : Bytes} (h : 95 ∉ name) (stage node : Nat) : 95 ∉ frameKey name stage node :=
    frameKey_not_mem h (by decide) (fun d hd => by interval_cases d <;> decide) stage node
  cases f with
  | projs | usrs | comts => decide
  | projects stage node | users stage node => exact hkey (by decide) stage node

theorem Frame.not_mem_key (f : Frame) : 95 ∉ f.key.k := f.printed.not_mem_name

section Distinct

variable {n degrees : Nat} {files : KD.Files} {draws : KD.Draws}

/-- Names of different slots or numbers are different, as long as the numbers have three
    digits. -/
theorem Slot.eq_of_names (hids : KD.DistinctIds n degrees files draws) {s s' : Slot} {j j' : Nat}
    {k k' : Key} (h : s.Names n degrees files draws j k) (h' : s'.Names n degrees files draws j' k')
    (hj : ∀ f c, s = column f c → j < 1000) (hj' : ∀ f c, s' = column f c → j' < 1000)
    (hk : k.k = k'.k) : s = s' ∧ j = j' := by
  -- the name of a segment has an underscore, that of a data frame has none
  have hseg (f : Frame) (c j : Nat) : 95 ∈ segName (colId (draws f c)) j :=
    Column.segKey_k 0 (colId (draws f c)) j ▸ mem_segmentKeys (Column.length_colId_le _) j 0
  cases s with
  | frame f =>
    obtain ⟨-, rfl, hname⟩ := h
    cases s' with
    | frame f' =>
      obtain ⟨-, rfl, hname'⟩ := h'
      exact ⟨congrArg frame (Frame.eq_of_key (hname.symm.trans (hk.trans hname'))), rfl⟩
    | column f' c' =>
      have heq : f.key.k = _ := hname.symm.trans (hk.trans h'.2)
      exact absurd (heq ▸ hseg f' c' j') f.not_mem_key
  | column f c =>
    cases s' with
    | frame f' =>
      obtain ⟨-, rfl, hname'⟩ := h'
      have heq : _ = f'.key.k := h.2.symm.trans (hk.trans hname')
      exact absurd (heq ▸ hseg f c j) f'.not_mem_key
    | column f' c' =>
      obtain ⟨hid, rfl⟩ := Column.segName_colId_inj (hj f c rfl) (hj' f' c' rfl)
        (h.2.symm.trans (hk.trans h'.2))
      obtain ⟨rfl, rfl⟩ := hids f c f' c' h.1 h'.1 hid
      exact ⟨rfl, rfl⟩

end Distinct

/-! ## The keys that a node puts -/

section Program

variable {n degrees i : Nat} {files : KD.Files} {draws : KD.Draws} {f : Frame}
  {g : Slot → Nat} {k : Key}

/-- The keys of the node `i`. -/
def Slot.NamesOf (n degrees : Nat) (files : KD.Files) (draws : KD.Draws) (i : Nat)
    (s : Slot) (j : Nat) (k : Key) : Prop := s.of.node = i ∧ s.Names n degrees files draws j k

theorem names_column (hf : f.Made n degrees) (hi : f.node = i) : ∀ c < KD.width files f, ∀ j node,
    (Slot.column f c).NamesOf n degrees files draws i j
      (Key.ofCStr (segName (colId (draws f c)) j) node) :=
  fun _ hc j node => ⟨hi, ⟨hf, hc⟩, Column.segKey_k node _ j⟩

/-- A frame is put when its segments have been. -/
theorem numbered_put_frame (hf : f.Made n degrees) (hi : f.node = i) (hk : k.k = f.key.k)
    (hg : Slot.Before f.time g) {mk : Prog Key Value DataFrame}
    (hmk : mk.Numbered (Slot.NamesOf n degrees files draws i)
      (fun df g' => DataFrame.Counted (Slot.column f) df.columns g' ∧
        Set.EqOn g' g (DataFrame.offColumns (Slot.column f) 0)) g) :
    (mk >>= fun df => KDStore.put k df >>= fun _ => pure df).Numbered
      (Slot.NamesOf n degrees files draws i) (fun _ => Slot.Before (f.time + 1)) g := by
  refine hmk.bind fun df g₁ h₁ => ?_
  have heq := h₁.2
  have hframe : g₁ (.frame f) = 0 := by
    rw [heq fun c _ h => Slot.noConfusion h]
    exact hg (.frame f) le_rfl
  have hname : (Slot.frame f).NamesOf n degrees files draws i (g₁ (.frame f)) k :=
    ⟨hi, hf, hframe, hk⟩
  rw [KDStore.put, bind_assoc]
  refine Prog.numbered_ofOption_bind fun v _ => ⟨.frame f, hname, fun s hs => ?_⟩
  -- the slots of later frames are those of other frames
  have hne : s.of ≠ f := by
    rintro rfl
    exact Nat.not_succ_le_self _ hs
  have hoff : s ∈ DataFrame.offColumns (Slot.column f) 0 := fun c _ h => hne (by rw [h, Slot.of])
  rw [bump_of_ne _ fun h => hne (by rw [h, Slot.of]), heq hoff]
  exact hg s ((Nat.le_succ _).trans hs)

/-- Nothing has been put for the columns of a frame that is still to be made. -/
theorem Slot.Before.column (hg : Before f.time g) : ∀ c < KD.width files f, g (.column f c) = 0 :=
  fun c _ => hg (.column f c) le_rfl

theorem fromSorFile_numbered (hf : f.Made n degrees) (hi : f.node = i) (hk : k.k = f.key.k)
    (hg : Slot.Before f.time g) {file : Bytes}
    (hw : SorParser.width (SorParser.sample file) = KD.width files f)
    (toDouble : Bytes → BitVec 64) :
    (DataFrame.fromSorFile n k (draws f) toDouble file).Numbered
      (Slot.NamesOf n degrees files draws i) (fun _ => Slot.Before (f.time + 1)) g :=
  numbered_put_frame hf hi hk hg
    (DataFrame.ofSorFile_numbered (Slot.column_injective f)
      (names_column hf hi) hg.column hw toDouble)

theorem fromScalar_numbered (hf : f.Made n degrees) (hi : f.node = i) (hk : k.k = f.key.k)
    (hg : Slot.Before f.time g) (hw : 0 < KD.width files f) (t : ColType) (val : t.Elem) :
    (DataFrame.fromScalar n k t (draws f 0) val).Numbered
      (Slot.NamesOf n degrees files draws i) (fun _ => Slot.Before (f.time + 1)) g := by
  have hnames : ∀ c < KD.width files f, ∀ j node, (Slot.column f c).NamesOf n degrees
      files draws i j (Key.ofCStr (segName (colId (draws f c)) j) node) := names_column hf hi
  have hmade := numbered_put_frame hf hi hk hg
    (DataFrame.pushed_numbered (Slot.column_injective f) hnames hg.column hw t n 1 [val])
  rwa [List.foldlM_cons, bind_assoc, bind_assoc] at hmade

theorem KD.fromVisitor_numbered (hf : f.Made n degrees) (hi : f.node = i) (hk : k.k = f.key.k)
    (hg : Slot.Before f.time g) (hw : KD.width files f = 1) (set : Set) :
    (KD.fromVisitor n (draws f) k set).Numbered
      (Slot.NamesOf n degrees files draws i) (fun _ => Slot.Before (f.time + 1)) g := by
  have hlen : (cString (lit "I")).length = KD.width files f := hw.symm
  rw [KD.fromVisitor, DataFrame.fromVisitor_eq]
  exact numbered_put_frame hf hi hk hg (DataFrame.made_numbered (Slot.column_injective f)
    (names_column hf hi) hg.column hlen (setWriter set) 0 (set.size + 1))

/-- Nothing is put to go over a frame that is waited for. -/
theorem KD.update_numbered {t : Nat} (hg : Slot.Before t g) (set : Set) (k : Key) :
    (KD.update set k).Numbered (Slot.NamesOf n degrees files draws i) (fun _ => Slot.Before t) g :=
  fun v => (KD.ofValue_gets set v).numbered fun _ => hg

theorem KD.merge_numbered (hf : f.Made n degrees) (hi : f.node = i) {name : Bytes}
    (hname : name ∈ mergeNames) {stage : Nat} (hk : frameKey name stage i = f.key.k)
    (hg : Slot.Before f.time g) (hw : KD.width files f = 1) (set : Set) :
    (KD.merge n i (draws f) set name stage).Numbered
      (Slot.NamesOf n degrees files draws i) (fun _ => Slot.Before (f.time + 1)) g := by
  have hkey : (KD.key name stage i).k = f.key.k := (KD.key_k hname stage i).trans hk
  rw [KD.merge]
  split_ifs with hzero
  · subst hzero
    refine (Prog.Numbered.foldlM (R := fun _ => Slot.Before f.time) hg
      fun j _ set g hg => KD.update_numbered hg set _).bind ?_
    exact fun set g hg => (KD.fromVisitor_numbered hf hi hkey hg hw set).bind fun _ _ h => h
  · refine (KD.fromVisitor_numbered hf hi hkey hg hw set).bind fun _ _ h => ?_
    exact KD.update_numbered h set _

/-- What is waited for is not put. -/
theorem waitAndGet_numbered_bind {α : Type} {next : DataFrame → Prog Key Value α}
    {Q : α → (Slot → Nat) → Prop}
    (h : ∀ df, (next df).Numbered (Slot.NamesOf n degrees files draws i) Q g) :
    (KDStore.waitAndGet k >>= next).Numbered (Slot.NamesOf n degrees files draws i) Q g :=
  fun _ => Prog.numbered_ofOption_bind fun df _ => h df

/-- The frames of `readInput`. -/
theorem KD.readInput_numbered (hi : i < n) (hg : ∀ s, g s = 0) :
    (KD.readInput n files draws i).Numbered (Slot.NamesOf n degrees files draws i)
      (fun _ => Slot.Before 4) g := by
  rw [KD.readInput]
  split_ifs with hzero
  · subst hzero
    have husers : (Frame.users 0 0).Made n degrees := ⟨Nat.zero_le _, hi, fun _ => rfl⟩
    have hprojs : Slot.Before (Frame.time .projs) g := fun s _ => hg s
    refine (fromSorFile_numbered (f := .projs) trivial rfl rfl hprojs rfl _).bind
      fun projects _ hg => ?_
    refine (fromSorFile_numbered (f := .usrs) trivial rfl rfl hg rfl _).bind fun users _ hg => ?_
    refine (fromSorFile_numbered (f := .comts) trivial rfl rfl hg rfl _).bind fun commits _ hg => ?_
    exact (fromScalar_numbered (f := .users 0 0) husers rfl rfl hg Nat.one_pos _ _).bind
      fun _ _ hg => hg
  · refine waitAndGet_numbered_bind fun projects => ?_
    refine waitAndGet_numbered_bind fun users => ?_
    exact waitAndGet_numbered_bind fun commits s _ => hg s

/-- The frames of a step. -/
theorem KD.step_numbered (hi : i < n) {stage : Nat} (hstage : stage < degrees)
    (hdegrees : degrees < 2 ^ 32) (hg : Slot.Before (2 * stage + 4) g) (l : KD.Fields) :
    (KD.step n draws i l stage).Numbered (Slot.NamesOf n degrees files draws i)
      (fun _ => Slot.Before (2 * (stage + 1) + 4)) g := by
  have hprojects : (Frame.projects stage i).Made n degrees := ⟨hstage, hi⟩
  have husers : (Frame.users (stage + 1) i).Made n degrees :=
    ⟨hstage, hi, fun h => absurd h (Nat.succ_ne_zero stage)⟩
  have hlt : stage + 1 < 2 ^ 32 := lt_of_le_of_lt hstage hdegrees
  have hkProjects : frameKey (lit "projects-") (sizeT (.ofNat 32 stage)) i =
      (Frame.projects stage i).key.k := by
    rw [← printedStage_of_lt (Nat.lt_of_succ_lt hlt)]
    rfl
  have hkUsers : frameKey (lit "users-") (sizeT (.ofNat 32 stage + 1)) i =
      (Frame.users (stage + 1) i).key.k := by
    rw [← printedStage_succ hlt]
    rfl
  refine (KD.update_numbered hg _ _).bind fun delta g hg => ?_
  refine ((DataFrame.localMap_gets _ i _ _).numbered fun _ => hg).bind fun r g hg => ?_
  refine (KD.merge_numbered hprojects rfl (by decide) hkProjects hg rfl _).bind
    fun newProjects g hg => ?_
  refine ((DataFrame.localMap_gets _ i _ _).numbered fun _ => hg).bind fun r g hg => ?_
  exact (KD.merge_numbered husers rfl (by decide) hkUsers hg rfl _).bind fun _ _ hg => hg

theorem KD.steps_numbered (hi : i < n) {m : Nat} (hm : m ≤ degrees) (hdegrees : degrees < 2 ^ 32)
    (hg : Slot.Before 4 g) (l : KD.Fields) :
    ((List.range m).foldlM (KD.step n draws i) l).Numbered (Slot.NamesOf n degrees files draws i)
      (fun _ => Slot.Before (2 * m + 4)) g := by
  induction m with
  | zero => exact hg
  | succ m ih =>
    rw [List.range_succ, List.foldlM_append]
    refine (ih (Nat.le_of_succ_le hm)).bind fun l g hg => ?_
    rw [List.foldlM_cons]
    exact (KD.step_numbered hi hm hdegrees hg l).bind fun _ _ hg => hg

/-- A node numbers its keys. -/
theorem KD.app_numbered (hi : i < n) (hdegrees : degrees < 2 ^ 32) :
    (KD.app n files draws i degrees).Numbered (Slot.NamesOf n degrees files draws i)
      (fun _ _ => True) fun _ => 0 := by
  have hrun : (KD.run n files draws i degrees).Numbered (Slot.NamesOf n degrees files draws i)
      (fun _ => Slot.Before (2 * degrees + 4)) fun _ => 0 :=
    (KD.readInput_numbered hi fun _ => rfl).bind fun l _ hg =>
      KD.steps_numbered hi le_rfl hdegrees hg l
  exact hrun.bind fun _ _ _ => trivial

end Program

/-! ## The run -/

section Run

variable {n degrees : Nat} {files : KD.Files} {draws : KD.Draws} {l : List Event} {s : State}

/-- No two keys put are of the same slot and number, so they have different names. -/
theorem putOnce_of_run (h : Run n (fun i => KD.app n files draws i degrees) l s)
    (hdegrees : degrees < 2 ^ 32) (hids : KD.DistinctIds n degrees files draws)
    (hsegs : ∀ f c, KD.IsColumn n degrees files f c → KD.segmentsPut (colId (draws f c)) l ≤ 1000) :
    PutOnce l := by
  obtain ⟨g, hwritten, -⟩ := written_of_run (fun i hi => KD.app_numbered hi hdegrees) h
  -- the numbers of segments have three digits
  have hbound {t : Nat × Slot} {j : Nat} {k : Key} (hj : j < g t)
      (hname : t.2.NamesOf n degrees files draws t.1 j k) (f : Frame) (c : Nat)
      (ht : t.2 = .column f c) : j < 1000 := by
    obtain ⟨i, t⟩ := t
    obtain rfl : t = .column f c := ht
    have hcol : KD.IsColumn n degrees files f c := hname.2.1
    refine hj.trans_le ((hwritten.le_countP (i, .column f c) fun j k hname => ?_).trans
      (hsegs f c hcol))
    rw [hname.2.2.2]
    exact Column.isPrefixOf_segName (draws f c) j
  refine hwritten.pairwise fun t j k t' j' k' hj hj' hname hname' hne => ?_
  rw [← Bool.not_eq_true, Key.equals_iff]
  intro hk
  obtain ⟨ht, rfl⟩ := Slot.eq_of_names hids hname.2.2 hname'.2.2 (hbound hj hname.2)
    (hbound hj' hname'.2) hk
  refine hne (Prod.ext (Prod.ext ?_ ht) rfl)
  -- a slot is of one node
  rw [← hname.2.1, ht, hname'.2.1]

/-- In a run of the application, with fewer steps than there are stages of type `int`, distinct
    ids of columns and at most 1000 segments in each, no two puts have equal keys; so a put
    that is applied finds nothing at its key, and the values got for equal keys are the
    same, by whomever and whenever. -/
theorem written_once (h : Run n (fun i => KD.app n files draws i degrees) l s)
    (hdegrees : degrees < 2 ^ 31) (hids : KD.DistinctIds n degrees files draws)
    (hsegs : ∀ f c, KD.IsColumn n degrees files f c → KD.segmentsPut (colId (draws f c)) l ≤ 1000) :
    PutOnce l ∧
    (∀ l₁ l₂ i j k k' v, l = l₁ ++ .apply i j k v :: l₂ → k.equals k' = true →
      contents l₁ k' = none) ∧
    ∀ i op v i' op' v', .return i op v ∈ l → .return i' op' v' ∈ l →
      op.key.equals op'.key = true → v = v' := by
  have hl := putOnce_of_run h (hdegrees.trans (by norm_num)) hids hsegs
  obtain ⟨m, hm, -⟩ := refines_of_run h
  exact ⟨hl, fun _ _ _ _ _ _ _ heq hk => hl.contents_eq_none hm heq hk,
    fun _ _ _ _ _ _ hret hret' hk => hl.return_eq hm
    (not_deleted_of_nodup h hl.nodup) hret hret' hk⟩

end Run

/-- Three projects, three users, and a commit of each of the users 2 and 1 to the project 2;
    `LINUS` is the user 2. -/
def fewRows : KD.Files :=
  ⟨lit "<1>\n<1>\n<1>\n", lit "<1>\n<1>\n<1>\n", lit "<2><2><2>\n<2><1><2>\n", 2, fun _ => 0⟩

theorem width_fewRows_le (f : Frame) : KD.width fewRows f ≤ 3 := by
  cases f with
  | projs | usrs | comts => decide
  | projects | users => exact Nat.le_add_left 1 2

/-- A number for each of the frames of two nodes and one step. -/
def Frame.code : Frame → Nat
  | projs => 0
  | usrs => 1
  | comts => 2
  | projects _ node => 3 + node
  | users stage node => 5 + 2 * stage + node

/-- The first letter of an id is that of the frame, the others are that of the column. -/
def lettered : KD.Draws := fun f c i =>
  ⟨(if i.val = 0 then f.code else c) % 53, Nat.mod_lt _ (Nat.succ_pos 52)⟩

theorem distinctIds_lettered : KD.DistinctIds 2 1 fewRows lettered := by
  have hcode {f : Frame} (h : f.Made 2 1) : f.code < 9 := by
    cases f <;> simp only [Frame.code, Frame.Made] at h ⊢ <;> omega
  have hcode_inj {f f' : Frame} (h : f.Made 2 1) (h' : f'.Made 2 1) (heq : f.code = f'.code) :
      f = f' := by
    cases f <;> cases f' <;> simp only [Frame.code, Frame.Made, Frame.projects.injEq,
      Frame.users.injEq, reduceCtorEq] at h h' heq ⊢ <;> omega
  have hid : ∀ a < 9, ∀ c < 3,
      colId (fun i => ⟨(if i.val = 0 then a else c) % 53, Nat.mod_lt _ (Nat.succ_pos 52)⟩) =
        alpha.getD a 0 :: List.replicate 9 (alpha.getD c 0) := by decide
  have hlettered (f : Frame) (c : Nat) : lettered f c = fun i =>
    ⟨(if i.val = 0 then f.code else c) % 53, Nat.mod_lt _ (Nat.succ_pos 52)⟩ := rfl
  have halpha : ∀ a < 9, ∀ b < 9, alpha.getD a 0 = alpha.getD b 0 → a = b := by decide
  intro f c f' c' h h' heq
  have hc : c < 3 := h.2.trans_le (width_fewRows_le f)
  have hc' : c' < 3 := h'.2.trans_le (width_fewRows_le f')
  rw [hlettered, hlettered, hid _ (hcode h.1) c hc, hid _ (hcode h'.1) c' hc'] at heq
  obtain ⟨hfirst, hrest⟩ := List.cons.inj heq
  refine ⟨hcode_inj h.1 h'.1 (halpha _ (hcode h.1) _ (hcode h'.1) hfirst), ?_⟩
  exact halpha c (by omega) c' (by omega) (List.cons.inj hrest).1

/-- The node 0 puts the projects, and the other node gets them. -/
theorem written_once_two : ∃ l s v, Run 2 (fun i => KD.app 2 fewRows lettered i 1) l s ∧
    (issuedKeys l).map Key.k = [lit "AAAAAAAAAA_0", lit "projs"] ∧
    .return 1 (.waitAndGet ⟨lit "projs", 0⟩) v ∈ l ∧ PutOnce l := by
  obtain ⟨⟨s, l⟩, hs⟩ : ∃ r, Trace.exec (Network.step 2)
      [.app 0, .app 0, .app 1, .app 1, .app 1, .handler ⟨0, true⟩, .handler ⟨0, true⟩,
        .handler ⟨0, true⟩, .handler ⟨0, true⟩, .handler ⟨0, false⟩, .app 1]
      (init 2 fun i => KD.app 2 fewRows lettered i 1) = some r := ⟨_, rfl⟩
  have hrun : Run 2 (fun i => KD.app 2 fewRows lettered i 1) l s := .of_exec hs fun _ _ _ => trivial
  have hkeys : (issuedKeys l).map Key.k = [lit "AAAAAAAAAA_0", lit "projs"] := by
    cases hs
    rfl
  have hret : ∃ v, l.getLast? = some (.return 1 (.waitAndGet ⟨lit "projs", 0⟩) v) := by
    cases hs
    exact ⟨_, rfl⟩
  have hlen : (issuedKeys l).length = 2 := by
    rw [← List.length_map (f := Key.k), hkeys]
    rfl
  obtain ⟨v, hret⟩ := hret
  refine ⟨l, s, v, hrun, hkeys, List.mem_of_getLast? hret,
    (written_once hrun (by norm_num) distinctIds_lettered fun f c _ => ?_).1⟩
  exact List.countP_le_length.trans (hlen.trans_le (by norm_num))

end Eau2.Linus

import Eau2.DataFrame.Catalog
import Eau2.Linus.Keys
import Eau2.Linus.Search

/-!
# The application over its data frames

The programs that the nodes run (`KD.run`), on the store that they share: every data frame of a
run is put segment by segment, and read segment by segment by those who have waited for it. The
accesses to data frames are those of the abstract programs (`runAccesses`), and so is what a
node holds after each step (`KD.step_makes`).

Main result: `KD.run_rounds`, in every interleaving of the accesses to the store, the nodes can
all make their steps, none fails an assertion, and one that has made them holds the
sets of `Input.rounds`, the input being what the parser makes of the files; these are what
breadth-first search finds, if no commit mentions an unknown project or user.
-/

namespace Eau2.Linus

open Prog (Access)

/-- The data frame holds a set. -/
def Frame.IsSet : Frame → Prop
  | projects _ _ | users _ _ => True
  | projs | usrs | comts => False

theorem KD.key_eq {name : Bytes} (h : name ∈ mergeNames) (stage node : Nat) :
    KD.key name stage node = ⟨frameKey name stage node, 0⟩ :=
  Key.ext (KD.key_k h stage node) rfl

namespace KD

variable {n degrees i size : Nat} {files : Files} {draws : Draws} {input : Input}
  {cs : Nat → List Commit} {L : Layout Frame Key Value} {f : Frame}

theorem key_projects {stage : Nat} (h : stage < 2 ^ 32) (node : Nat) :
    (Frame.projects stage node).key = key (lit "projects-") (sizeT (.ofNat 32 stage)) node := by
  rw [key_eq (by decide), ← printedStage_of_lt h]
  rfl

theorem key_users {stage : Nat} (h : stage < 2 ^ 32) (node : Nat) :
    (Frame.users stage node).key = key (lit "users-") (sizeT (.ofNat 32 stage)) node := by
  rw [key_eq (by decide), ← printedStage_of_lt h]
  rfl

theorem key_users_succ {stage : Nat} (h : stage + 1 < 2 ^ 32) (node : Nat) :
    (Frame.users (stage + 1) node).key =
      key (lit "users-") (sizeT (BitVec.ofNat 32 stage + 1)) node := by
  rw [key_eq (by decide), ← printedStage_succ h]
  rfl

/-! ## The data frames of a run -/

/-- The numbers of rows of the tables are such that the segments have three digits. -/
def Fits (input : Input) : Prop :=
  ∀ m ∈ [input.projects.length, input.users.length, input.commits.length],
    m ≤ defaultSegmentCapacity * 1000

/-- The files have the tables of the input. -/
structure Files.Has (n : Nat) (draws : Draws) (files : Files) (input : Input) : Prop where
  projects : Parses n (draws .projs) files.toDouble files.projects input.projects
  users : Parses n (draws .usrs) files.toDouble files.users input.users
  commits : Parses n (draws .comts) files.toDouble files.commits (input.commits.map Commit.row)
  linus : files.linus = input.linus

/-- The set that a node merges, when the commits `cs i` are local to the node `i`. -/
def setOf (input : Input) (cs : Nat → List Commit) : Frame → Set
  | .projects stage node => .of input.projects.length <|
    if node = 0 then input.newProjects stage
    else input.projectsOf (cs node) (input.rounds stage).fresh \ (input.rounds stage).snd
  | .users (stage + 1) node => .of input.users.length <|
    if node = 0 then (input.rounds (stage + 1)).fresh
    else input.usersOf (cs node) (input.newProjects stage) \ (input.rounds stage).fst
  | _ => .new 0

/-- The types that the parser guesses. -/
def guessedTypes (file : Bytes) : List ColType := (SorParser.guessed file).map Sigma.fst

/-- The data frames of a run. -/
def catalog (n degrees : Nat) (files : Files) (draws : Draws) (input : Input)
    (cs : Nat → List Commit) :
    Catalog Frame where
  key := Frame.key
  made := {f | f.Made n degrees}
  prog f := match f with
    | .projs => DataFrame.fromSorFile n f.key (draws f) files.toDouble files.projects
    | .usrs => DataFrame.fromSorFile n f.key (draws f) files.toDouble files.users
    | .comts => DataFrame.fromSorFile n f.key (draws f) files.toDouble files.commits
    | .users 0 _ => DataFrame.fromScalar n f.key .int (draws f 0) files.linus
    | .projects _ _ | .users (_ + 1) _ => fromVisitor n (draws f) f.key (setOf input cs f)
  draws := draws
  cap f := match f with
    | .users 0 _ => 1
    | _ => defaultSegmentCapacity
  ts f := match f with
    | .projs => guessedTypes files.projects
    | .usrs => guessedTypes files.users
    | .comts => guessedTypes files.commits
    | .projects _ _ | .users _ _ => [.int]
  rows := input.rows cs

theorem length_ts (f : Frame) :
    ((catalog n degrees files draws input cs).ts f).length = width files f := by
  have hguessed (file : Bytes) :
      (guessedTypes file).length = SorParser.width (SorParser.sample file) := by
    rw [guessedTypes, List.length_map, SorParser.length_guessed]
  cases f with
  | projs | usrs | comts => exact hguessed _
  | projects | users => rfl

/-- The rows of a set are put as a data frame. -/
theorem fromVisitor_produces (n : Nat) {d : Nat → Fin 10 → Fin 53} (k : Key) (set : Set)
    (hid : colId (d 0) ≠ []) (hsize : set.size ≤ defaultSegmentCapacity * 1000) :
    ∃ e : Entry n,
      Produces k (fromVisitor n d k set) d defaultSegmentCapacity [.int] (frame set) e := by
  have hids : GoodIds d [ColType.int].length := by
    refine ⟨fun i hi => ?_, fun i hi j hj _ => ?_⟩
    · rwa [Nat.lt_one_iff.1 hi]
    · rw [Nat.lt_one_iff.1 hi, Nat.lt_one_iff.1 hj]
  have hrow {r : Row} (hr : r ∈ frame set) : ∃ i, r = intRow i := by
    obtain ⟨i, -, rfl⟩ := List.mem_map.1 hr
    exact ⟨i, rfl⟩
  have hlen : (frame set).length ≤ set.size := by
    rw [frame, List.length_map, Set.elems]
    exact (List.length_filter_le _ _).trans_eq List.length_range
  have hts : (Schema.ofTypes (lit "I")).colTypes.mapM ColType.ofChar? = some [.int] := rfl
  refine Eau2.fromVisitor_produces n k hts (visited_eq set) (List.cons_ne_nil _ _) hids
    (fun r hr => ?_) (fun r hr => ?_) (fun r hr => ?_) ?_
  · obtain ⟨i, rfl⟩ := hrow hr
    rfl
  · obtain ⟨i, rfl⟩ := hrow hr
    exact List.forall_mem_singleton.2 rfl
  · obtain ⟨i, rfl⟩ := hrow hr
    refine List.forall_mem_singleton.2 fun t x hx => ?_
    cases t with
    | int => trivial
    | string | double | bool => cases hx
  · exact (List.numChunks_le_iff (by decide) (by norm_num)).2 (hlen.trans hsize)

section

variable (hfiles : files.Has n draws input) (hfits : Fits input)
  (hids : DistinctIds n degrees files draws)
  (hne : ∀ f c, IsColumn n degrees files f c → colId (draws f c) ≠ [])
include hids hne

theorem goodIds (hf : f.Made n degrees) : GoodIds (draws f) (width files f) :=
  ⟨fun c hc => hne f c ⟨hf, hc⟩, fun c hc c' hc' heq => (hids f c f c' ⟨hf, hc⟩ ⟨hf, hc'⟩ heq).2⟩

include hfiles hfits

/-- Every data frame of a run is an entry. -/
theorem exists_entry (cs : Nat → List Commit) (hf : f.Made n degrees) :
    let C := catalog n degrees files draws input cs
    ∃ e : Entry n, Produces (C.key f) (C.prog f) (C.draws f) (C.cap f) (C.ts f) (C.rows f) e := by
  have hgood := goodIds hids hne hf
  have hfew {m : Nat} (hm : m ∈ [input.projects.length, input.users.length, input.commits.length]) :
      List.numChunks defaultSegmentCapacity m ≤ 1000 :=
    (List.numChunks_le_iff (by decide) (by norm_num)).2 (hfits m hm)
  cases f with
  | projs =>
    exact fromSorFile_produces (Frame.key .projs) hfiles.projects hgood
      (hfew (m := input.projects.length) (by simp))
  | usrs =>
    exact fromSorFile_produces (Frame.key .usrs) hfiles.users hgood
      (hfew (m := input.users.length) (by simp))
  | comts =>
    have hcommits : List.numChunks defaultSegmentCapacity
        (input.commits.map Commit.row).length ≤ 1000 := by
      rw [List.length_map]
      exact hfew (by simp)
    exact fromSorFile_produces (Frame.key .comts) hfiles.commits hgood hcommits
  | projects stage node =>
    exact fromVisitor_produces n (Frame.key (.projects stage node))
      (setOf input cs (.projects stage node))
      (hgood.ne_nil 0 Nat.one_pos) (hfits _ (by simp [setOf]))
  | users stage node =>
    cases stage with
    | zero =>
      have hscalar := fromScalar_produces n (Frame.key (.users 0 node)) (hgood.ne_nil 0 Nat.one_pos)
        (show ColType.int.Storable files.linus from trivial)
      have hrows : input.rows cs (.users 0 node) = [Row.single (t := .int) files.linus] := by
        rw [hfiles.linus]
        rfl
      rw [← hrows] at hscalar
      exact hscalar
    | succ stage =>
      exact fromVisitor_produces n (Frame.key (.users (stage + 1) node))
        (setOf input cs (.users (stage + 1) node)) (hgood.ne_nil 0 Nat.one_pos)
          (hfits _ (by simp [setOf]))

end

/-! ## Merging -/

section Merge

variable {C : Catalog Frame} {e : Frame → Entry n} {fr : Nat → Frame}
  {vals : Finset Nat} {name : Bytes} {stage : Nat} {d : Nat → Fin 10 → Fin 53}

/-- A data frame is waited for and added to a set. -/
theorem update_makes {near known} (h : C.Kept L e) (hf : f ∈ C.made)
    (hnear : ∀ kv ∈ (e f).puts, kv.1 ∈ near) {set set' : Set}
    (hset : map setUpdater set (C.rows f) = some set') :
    L.Makes near known (update set (C.key f)) [.wait f] (· = set') := by
  refine h.wait_bind hf fun df hdf => ?_
  exact (h.map hf (.inl rfl) hdf hnear hset).bind_nil fun r hr => .ret hr.1

theorem update_frame_makes {near known} (h : C.Kept L e) (hf : f ∈ C.made)
    (hnear : ∀ kv ∈ (e f).puts, kv.1 ∈ near) (hrows : C.rows f = frame (.of size vals))
    (hints : IntVals vals) (set : Set) :
    L.Makes near known (update set (C.key f)) [.wait f] (· = set.union (.of size vals)) :=
  update_makes h hf hnear (hrows ▸ map_setUpdater_frame (hints.elems size) set)

/-- The merging of the sets `parts` of the nodes: the node 0 gathers them, and all have
    `total` in the end. -/
theorem merge_makes {near known} (h : C.Kept L e) (parts : Nat → Finset Nat) (total : Finset Nat)
    (hname : ∀ j, C.key (fr j) = key name stage j) (hmade : ∀ j < n, fr j ∈ C.made)
    (hnear : ∀ j < n, ∀ kv ∈ (e (fr j)).puts, kv.1 ∈ near)
    (hrows : ∀ j < n, C.rows (fr j) = frame (.of size (if j = 0 then total else parts j)))
    (hprog : C.prog (fr i) = fromVisitor n d (key name stage i)
      (.of size (if i = 0 then total else parts i)))
    (hmem : ∀ v, v ∈ total ↔ ∃ j < n, v ∈ parts j) (hints : IntVals total) (hi : i < n) :
    L.Makes near known (merge n i d (.of size (parts i)) name stage) (mergeAccesses n i fr)
      (· = .of size total) := by
  have hputs {known} : L.Makes near known (C.prog (fr i)) [.put (fr i)] (e (fr i)).Is :=
    h.put (hmade i hi)
  rw [merge, mergeAccesses]
  split_ifs with hzero
  · -- The node 0 waits for the sets of the others, and then puts what it has.
    subst hzero
    have hloop : L.Makes near known ((List.range' 1 (n - 1)).foldlM
        (fun set j => update set (key name stage j)) (.of size (parts 0)))
        ((List.range' 1 (n - 1)).flatMap fun j => [.wait (fr j)])
        (· = (List.range' 1 (n - 1)).foldl (fun (s : Set) j => s.union (.of size (parts j)))
          (.of size (parts 0))) := by
      refine .foldlM (fun j hj s => ?_) _
      obtain ⟨hpos, hlt⟩ := List.mem_range'_1.1 hj
      have hjn : j < n := by omega
      have hpart := hrows j hjn
      rw [if_neg (Nat.ne_of_gt hpos)] at hpart
      rw [← hname j]
      exact update_frame_makes h (hmade j hjn) (hnear j hjn) hpart
        (fun v hv => hints v ((hmem v).2 ⟨j, hjn, hv⟩)) s
    rw [foldl_parts_eq hmem hi, ← List.map_eq_flatMap] at hloop
    refine hloop.bind fun set hset => ?_
    rw [hprog, if_pos rfl] at hputs
    rw [hset, ← List.append_nil [Access.put (fr 0)]]
    exact hputs.bind fun _ _ => .ret rfl
  · -- Another node puts its set, and then adds all that the node 0 has put.
    have hsub : parts i ∪ total = total :=
      Finset.union_eq_right.2 fun v hv => (hmem v).2 ⟨i, hi, hv⟩
    have hn : 0 < n := Nat.zero_lt_of_lt hi
    have htotal := hrows 0 hn
    rw [if_pos rfl] at htotal
    rw [hprog, if_neg hzero] at hputs
    show L.Makes near known _ ([.put (fr i)] ++ [.wait (fr 0)]) _
    refine hputs.bind fun _ _ => ?_
    rw [← hname 0]
    refine (update_frame_makes h (hmade 0 hn) (hnear 0 hn) htotal hints _).imp fun set hset => ?_
    rw [hset, Set.union_of, hsub]

end Merge

/-! ## The steps -/

/-- What a node holds after `stage` steps. -/
structure Fields.Is (input : Input) (e : Frame → Entry n) (stage : Nat) (l : Fields) : Prop where
  projects : l.projects.nrows = input.projects.length
  users : l.users.nrows = input.users.length
  commits : (e .comts).Is l.commits
  uSet : l.uSet = (input.fields stage).uSet
  pSet : l.pSet = (input.fields stage).pSet

/-- `step` up to the merging of the users: what the node holds then, and its new users. -/
def tagUsers (n : Nat) (draws : Draws) (thisNode : Nat) (l : Fields) (i : Nat) :
    Prog Key Value (Fields × Set) := do
  let stage : BitVec 32 := .ofNat 32 i
  let delta ← update (.new l.users.nrows) (key (lit "users-") (sizeT stage) 0)
  let ((pSet, newProjects), commits) ←
    l.commits.localMap thisNode (projectsTagger delta) (l.pSet, .new l.projects.nrows)
  let newProjects ← merge n thisNode (draws (.projects i thisNode)) newProjects
    (lit "projects-") (sizeT stage)
  let ((uSet, newUsers), commits) ←
    commits.localMap thisNode (usersTagger newProjects) (l.uSet, .new l.users.nrows)
  return ({ l with commits := commits, uSet := uSet, pSet := pSet.union newProjects }, newUsers)

theorem step_eq (l : Fields) (stage : Nat) :
    step n draws i l stage = tagUsers n draws i l stage >>= fun (l, newUsers) =>
      merge n i (draws (.users (stage + 1) i)) newUsers (lit "users-")
        (sizeT (BitVec.ofNat 32 stage + 1)) >>= fun newUsers =>
          pure { l with uSet := l.uSet.union newUsers } := by
  simp only [step, tagUsers, bind_assoc, pure_bind]

/-- What the node `i` holds in a step, and its new users, once it has tagged them: what all the
    nodes have tagged makes the users of the next step. -/
structure Fields.Tagged (input : Input) (cs : Nat → List Commit) (e : Frame → Entry n)
    (stage i : Nat) (r : Fields × Set) : Prop where
  projects : r.1.projects.nrows = input.projects.length
  users : r.1.users.nrows = input.users.length
  commits : (e .comts).Is r.1.commits
  pSet : r.1.pSet = (input.fields (stage + 1)).pSet
  newUsers : r.2 = .of input.users.length
    (input.usersOf (cs i) (input.newProjects stage) \ (input.rounds stage).fst)
  uSet : r.1.uSet.union (.of input.users.length (input.rounds (stage + 1)).fresh) =
    (input.fields (stage + 1)).uSet

section Steps

variable {e : Frame → Entry n} (h : (catalog n degrees files draws input cs).Kept L e)
include h

variable (hcs : ∀ c, c ∈ input.commits ↔ ∃ i < n, c ∈ cs i)
  (hlocal : ∀ i < n, (input.commits.map Commit.row).dealt n defaultSegmentCapacity i =
    (cs i).map Commit.row)
  (hpos : 0 < input.commits.length) {near} (hown : {k | k.node = i} ⊆ near)
  (hsets : ∀ f : Frame, f.Made n degrees → f.IsSet → ∀ kv ∈ (e f).puts, kv.1 ∈ near)
include hcs hlocal hpos hown hsets

/-- The sets of projects are merged, and the users tagged. -/
theorem tagUsers_makes {known} {stage : Nat} (hstage : stage < degrees) (hlt : stage < 2 ^ 32)
    (hi : i < n) (hcomts : .comts ∈ known) {l : Fields} (hl : l.Is input e stage) :
    L.Makes near known (tagUsers n draws i l stage)
      ([.wait (.users stage 0)] ++ mergeAccesses n i (.projects stage))
      (Fields.Tagged input cs e stage i) := by
  let newProjects (j : Nat) : Finset Nat :=
    input.projectsOf (cs j) (input.rounds stage).fresh \ (input.rounds stage).snd
  let newUsers (j : Nat) : Finset Nat :=
    input.usersOf (cs j) (input.newProjects stage) \ (input.rounds stage).fst
  have hmemProjects (v : Nat) : v ∈ input.newProjects stage ↔ ∃ j < n, v ∈ newProjects j :=
    mem_tags_parts hcs
  have hmemUsers (v : Nat) : v ∈ (input.rounds (stage + 1)).fresh ↔ ∃ j < n, v ∈ newUsers j :=
    mem_tags_parts hcs
  -- the tagging, on this node
  obtain ⟨pSet, hprojects, hpSet⟩ := map_tagger_of 1 0 Commit.author Commit.pid (fun _ => rfl)
    (fun _ => rfl) input.users.length input.projects.length (input.rounds stage).fresh
    (input.rounds stage).snd (cs i)
  obtain ⟨uSet, husers, huSet⟩ := map_tagger_of 0 1 Commit.pid Commit.author (fun _ => rfl)
    (fun _ => rfl) input.projects.length input.users.length (input.newProjects stage)
    (input.rounds stage).fst (cs i)
  have hmade (j : Nat) (hj : j < n) : (Frame.projects stage j).Made n degrees := ⟨hstage, hj⟩
  have hmadeUsers : (Frame.users stage 0).Made n degrees :=
    ⟨hstage.le, Nat.zero_lt_of_lt hi, fun _ => rfl⟩
  have hlen : 0 < (input.commits.map Commit.row).length := (List.length_map _).symm ▸ hpos
  -- the merging
  have hmerge {known} : L.Makes near known (merge n i (draws (.projects stage i))
      (.of input.projects.length (newProjects i)) (lit "projects-") (sizeT (.ofNat 32 stage)))
      (mergeAccesses n i (.projects stage))
      (· = .of input.projects.length (input.newProjects stage)) := by
    refine merge_makes h newProjects (input.newProjects stage) (key_projects hlt) hmade
      (fun j hj => hsets _ (hmade j hj) trivial) (fun j hj => rfl) ?_ hmemProjects intVals_tags hi
    rw [← key_projects hlt]
    rfl
  -- the users of the last step
  have hdelta : L.Makes near known
      (update (.new l.users.nrows) (key (lit "users-") (sizeT (.ofNat 32 stage)) 0))
      [.wait (.users stage 0)] (· = .of input.users.length (input.rounds stage).fresh) := by
    rw [← key_users hlt, hl.users]
    exact update_makes h hmadeUsers (hsets _ hmadeUsers trivial) (map_newUsers input cs stage)
  have hvisit : ((input.commits.map Commit.row).dealt n defaultSegmentCapacity i).foldlM
      (projectsTagger (.of input.users.length (input.rounds stage).fresh)).visit
      (l.pSet, .new l.projects.nrows) = some (pSet, .of input.projects.length (newProjects i)) := by
    rw [hlocal i hi, hl.pSet, hl.projects]
    exact hprojects
  have hvisit' : ((input.commits.map Commit.row).dealt n defaultSegmentCapacity i).foldlM
      (usersTagger (.of input.projects.length (input.newProjects stage))).visit
      (l.uSet, .new l.users.nrows) = some (uSet, .of input.users.length (newUsers i)) := by
    rw [hlocal i hi, hl.uSet, hl.users]
    exact husers
  rw [tagUsers]
  refine hdelta.bind fun delta hdelta => ?_
  subst hdelta
  refine (h.localMap (f := Frame.comts) trivial (.inl hcomts) hl.commits rfl hlen hown
    hvisit).bind_nil ?_
  rintro ⟨⟨pSet', newProjects'⟩, commits⟩ ⟨heq, hcommits⟩
  cases heq
  rw [← List.append_nil (mergeAccesses n i _)]
  refine hmerge.bind fun merged hmerged => ?_
  subst hmerged
  refine (h.localMap (f := Frame.comts) trivial (.inl (.inl hcomts)) hcommits rfl hlen hown
    hvisit').bind_nil ?_
  rintro ⟨⟨uSet', newUsers'⟩, commits'⟩ ⟨heq, hcommits'⟩
  cases heq
  exact .ret ⟨hl.projects, hl.users, hcommits', hpSet _ fun v hv => (hmemProjects v).2 ⟨i, hi, hv⟩,
    rfl, huSet _ fun v hv => (hmemUsers v).2 ⟨i, hi, hv⟩⟩

/-- A step on any node leads from what all hold to what all hold after it. -/
theorem step_makes {known} {stage : Nat} (hstage : stage < degrees) (hlt : stage + 1 < 2 ^ 32)
    (hi : i < n) (hcomts : .comts ∈ known) {l : Fields} (hl : l.Is input e stage) :
    L.Makes near known (step n draws i l stage) (stepAccesses n i stage)
      (Fields.Is input e (stage + 1)) := by
  let newUsers (j : Nat) : Finset Nat :=
    input.usersOf (cs j) (input.newProjects stage) \ (input.rounds stage).fst
  have hmem (v : Nat) : v ∈ (input.rounds (stage + 1)).fresh ↔ ∃ j < n, v ∈ newUsers j :=
    mem_tags_parts hcs
  have hmade (j : Nat) (hj : j < n) : (Frame.users (stage + 1) j).Made n degrees :=
    ⟨hstage, hj, fun heq => absurd heq (Nat.succ_ne_zero stage)⟩
  have hmerge {known} : L.Makes near known (merge n i (draws (.users (stage + 1) i))
      (.of input.users.length (newUsers i)) (lit "users-") (sizeT (BitVec.ofNat 32 stage + 1)))
      (mergeAccesses n i (.users (stage + 1)))
      (· = .of input.users.length (input.rounds (stage + 1)).fresh) := by
    refine merge_makes h newUsers (input.rounds (stage + 1)).fresh (key_users_succ hlt) hmade
      (fun j hj => hsets _ (hmade j hj) trivial) (fun j hj => rfl) ?_ hmem intVals_tags hi
    rw [← key_users_succ hlt]
    rfl
  have htag := tagUsers_makes h hcs hlocal hpos hown hsets hstage
    (Nat.lt_of_succ_lt hlt) hi hcomts hl
  rw [step_eq, stepAccesses, ← List.append_assoc]
  refine htag.bind fun r hr => ?_
  obtain ⟨l, newUsers⟩ := r
  obtain rfl := hr.newUsers
  rw [← List.append_nil (mergeAccesses n i (.users (stage + 1)))]
  refine hmerge.bind fun merged hmerged => .ret ?_
  subst hmerged
  exact ⟨hr.projects, hr.users, hr.commits, hr.uSet, hr.pSet⟩

omit hcs hlocal hpos hown hsets in
/-- Once the tables have been read, all nodes hold the same. -/
theorem readInput_makes (hi : i < n) :
    L.Makes near ∅ (readInput n files draws i) (readAccesses i) (Fields.Is input e 0) := by
  have hfields {projects users commits : DataFrame} (hprojects : (e .projs).Is projects)
      (husers : (e .usrs).Is users) (hcommits : (e .comts).Is commits) : Fields.Is input e 0
        ⟨projects, users, commits, .new users.nrows, .new projects.nrows⟩ := by
    have hnprojects : projects.nrows = input.projects.length :=
      hprojects.nrows.trans (congrArg _ (h.rows (f := Frame.projs) trivial))
    have hnusers : users.nrows = input.users.length :=
      husers.nrows.trans (congrArg _ (h.rows (f := Frame.usrs) trivial))
    refine ⟨hnprojects, hnusers, hcommits, ?_, ?_⟩
    · rw [hnusers]
      exact (Set.of_empty _).symm
    · rw [hnprojects]
      exact (Set.of_empty _).symm
  rw [readInput, readAccesses]
  split_ifs with hzero
  · refine h.put_bind (f := Frame.projs) trivial fun projects hprojects => ?_
    refine h.put_bind (f := Frame.usrs) trivial fun users husers => ?_
    refine h.put_bind (f := Frame.comts) trivial fun commits hcommits => ?_
    exact h.put_bind (f := Frame.users 0 0) ⟨Nat.zero_le _, hzero ▸ hi, fun _ => rfl⟩ fun _ _ =>
      .ret (hfields hprojects husers hcommits)
  · refine h.wait_bind (f := Frame.projs) trivial fun projects hprojects => ?_
    refine h.wait_bind (f := Frame.usrs) trivial fun users husers => ?_
    refine h.wait_bind (f := Frame.comts) trivial fun commits hcommits => ?_
    exact .ret (hfields hprojects husers hcommits)

theorem run_makes {m : Nat} (hm : m ≤ degrees) (hlt : m < 2 ^ 32) (hi : i < n) :
    L.Makes near ∅ (run n files draws i m) (runAccesses n m i) (Fields.Is input e m) := by
  rw [run, runAccesses]
  refine (readInput_makes h hi).bind fun l hl => ?_
  have hcomts : .put .comts ∈ readAccesses i ∨ .wait .comts ∈ readAccesses i := by
    rw [readAccesses]
    split_ifs <;> simp
  induction m with
  | zero => exact .ret hl
  | succ m ih =>
    rw [List.range_succ, List.foldlM_append, List.flatMap_append, List.flatMap_singleton]
    refine (ih (Nat.le_of_succ_le hm) (Nat.lt_of_succ_lt hlt)).bind fun l hl => ?_
    have hone : [m].foldlM (step n draws i) l = step n draws i l m := bind_pure _
    rw [hone]
    exact step_makes h hcs hlocal hpos hown hsets hm hlt hi (.inl (.inr hcomts)) hl

end Steps

/-! ## The runs -/

section Runs

variable (hids : DistinctIds n degrees files draws)
  (hne : ∀ f c, IsColumn n degrees files f c → colId (draws f c) ≠ [])
include hids hne

/-- The store is laid out for the data frames of a run. -/
theorem exists_kept (hfiles : files.Has n draws input) (hfits : Fits input)
    (cs : Nat → List Commit) :
    ∃ L e, (catalog n degrees files draws input cs).Kept (n := n) L e :=
  (catalog n degrees files draws input cs).exists_kept ⟨.projs, trivial⟩ Frame.key_injective
    Frame.not_mem_key (fun _ hf => exists_entry hfiles hfits hids hne cs hf)
    fun f hf f' hf' c hc c' hc' heq =>
      (hids f c f' c' ⟨hf, length_ts f ▸ hc⟩ ⟨hf', length_ts f' ▸ hc'⟩ heq).1

end Runs

/-- The programs of the nodes can make their accesses in any order. -/
theorem scheduled {e : Frame → Entry n}
    (h : (catalog n degrees files draws input
      (input.commits.dealt n defaultSegmentCapacity)).Kept L e)
    (hcommits : input.commits ≠ []) (hdegrees : degrees < 2 ^ 32) {near}
    (hown : ∀ i : Fin n, {k | k.node = i.val} ⊆ near i)
    (hsets : ∀ i, ∀ f : Frame, f.Made n degrees → f.IsSet → ∀ kv ∈ (e f).puts, kv.1 ∈ near i) :
    L.Scheduled near Frame.rank (fun i : Fin n => run n files draws i degrees)
      (fun i => runAccesses n degrees i) fun _ => Fields.Is input e degrees := by
  refine ⟨fun i => run_makes h (fun c => List.mem_iff_dealt i.pos (by decide))
    (fun i _ => List.dealt_map ..)
    (List.length_pos_of_ne_nil hcommits) (hown i) (hsets i) le_rfl hdegrees i.isLt,
      fun i f hf => ?_,
    fun i => ordered_runAccesses degrees⟩
  obtain ⟨j, hj, hput⟩ := provided_runAccesses i.isLt hf
  exact ⟨⟨j, hj⟩, hput⟩

/-- The rows that `local_map` visits on a node; without rows it fails on the node 0. -/
def dealtRows (n i : Nat) (rows : List Row) : Option (List Row) :=
  if i = 0 ∧ rows = [] then none else some (rows.dealt n defaultSegmentCapacity i)

theorem sharesOut_dealtRows (hn : 0 < n) (hcommits : input.commits ≠ []) :
    SharesOut n input (dealtRows n) := by
  refine ⟨(input.commits.map Commit.row).dealt n defaultSegmentCapacity, fun i _ => ?_,
    List.perm_dealt hn (by decide) _⟩
  exact if_neg fun h => hcommits (List.map_eq_nil_iff.1 h.2)

/-- A node holds data frames with the rows that are held, and the same sets. -/
structure Fields.Holds (l : Fields) (l' : Linus.Fields) : Prop where
  projects : l.projects.nrows = l'.projects.length
  users : l.users.nrows = l'.users.length
  commits : l.commits.nrows = l'.commits.length
  uSet : l.uSet = l'.uSet
  pSet : l.pSet = l'.pSet

section Refinement

variable (hfiles : files.Has n draws input) (hfits : Fits input)
  (hids : DistinctIds n degrees files draws)
  (hne : ∀ f c, IsColumn n degrees files f c → colId (draws f c) ≠ [])
  (hcommits : input.commits ≠ []) (hdegrees : degrees < 2 ^ 31)
  {s : Pool (Fin n) Key Value Fields}
  (hrun : Pool.Run (.init fun i : Fin n => run n files draws i degrees) s)
include hfiles hfits hids hne hcommits hdegrees hrun

/-- No node fails, one that is done holds what it is to hold, and all can get done. -/
theorem run_holds : (∀ i, s.prog i ≠ .fail) ∧
    (∀ i l, s.prog i = .ret l → l.Holds (input.fields degrees)) ∧
      ∃ s', Pool.Run s s' ∧ ∀ i, ∃ l, s'.prog i = .ret l := by
  obtain ⟨L, e, hkept⟩ :=
    exists_kept hids hne hfiles hfits (input.commits.dealt n defaultSegmentCapacity)
  have hsched : L.Scheduled (fun _ => .univ) Frame.rank
      (fun i : Fin n => run n files draws i degrees)
      (fun i => runAccesses n degrees i) fun _ => Fields.Is input e degrees :=
    scheduled hkept hcommits (hdegrees.trans (by norm_num)) (fun _ _ _ => trivial)
      fun _ _ _ _ _ _ => trivial
  obtain ⟨hfail, hret, s', hrun', hdone⟩ := hsched.finishes hrun
  refine ⟨hfail, fun i l hl => ?_, s', hrun', fun i => (hdone i).imp fun l hl => hl.1⟩
  have hl := hret i l hl
  exact ⟨hl.projects, hl.users,
    hl.commits.nrows.trans (congrArg _ (hkept.rows (f := Frame.comts) trivial)), hl.uSet, hl.pSet⟩

/-- What a node holds that is done in some interleaving of the accesses to segments and data
    frames, it holds in some interleaving of the accesses of `Linus.run`. -/
theorem run_refines : ∃ t, Pool.Run (nodes n degrees input (dealtRows n)) t ∧
    ∀ i l, s.prog i = .ret l → ∃ l', t.prog i = .ret l' ∧ l.Holds l' := by
  obtain ⟨-, hret, -⟩ := run_holds hfiles hfits hids hne hcommits hdegrees hrun
  rcases Nat.eq_zero_or_pos n with rfl | hn
  · exact ⟨_, .refl, fun i => i.elim0⟩
  · obtain ⟨-, -, t, ht, hdone⟩ := run_finishes (sharesOut_dealtRows hn hcommits) degrees .refl
    exact ⟨t, ht, fun i l hl => ⟨_, hdone i, hret i l hl⟩⟩

end Refinement

/-- In every interleaving of the accesses to the store, no node fails, one that has made its
    steps holds the sets of the rounds, which are those of breadth-first search if all projects
    and users are known, and all can make their steps. -/
theorem run_rounds (n degrees : Nat) (files : Files) (draws : Draws) (input : Input)
    (hfiles : files.Has n draws input) (hfits : Fits input)
    (hids : DistinctIds n degrees files draws)
    (hne : ∀ f c, IsColumn n degrees files f c → colId (draws f c) ≠ [])
    (hcommits : input.commits ≠ []) (hdegrees : degrees < 2 ^ 31)
    {s : Pool (Fin n) Key Value Fields}
    (hrun : Pool.Run (.init fun i : Fin n => run n files draws i degrees) s) :
    (∀ i, s.prog i ≠ .fail) ∧
      (∀ i l, s.prog i = .ret l → l.uSet = .of input.users.length (input.rounds degrees).fst ∧
        l.pSet = .of input.projects.length (input.rounds degrees).snd ∧
        ((∀ c ∈ input.commits, input.Known c) →
          (l.pSet.vals, l.uSet.vals) = breadthFirst input.commits input.linus degrees)) ∧
      ∃ s', Pool.Run s s' ∧ ∀ i, ∃ l, s'.prog i = .ret l := by
  obtain ⟨hfail, hret, hdone⟩ := run_holds hfiles hfits hids hne hcommits hdegrees hrun
  refine ⟨hfail, fun i l hl => ?_, hdone⟩
  have hl := hret i l hl
  refine ⟨hl.uSet, hl.pSet, fun hknown => ?_⟩
  have hvals := (vals_fields input degrees).trans (naive_of_known hknown degrees)
  rw [hl.uSet, hl.pSet, ← Prod.swap_swap (breadthFirst _ _ _), ← hvals]
  rfl

/-- The input of the few rows. -/
def twoCommits : Input where
  projects := [⟨[.bool true]⟩, ⟨[.bool true]⟩, ⟨[.bool true]⟩]
  users := [⟨[.bool true]⟩, ⟨[.bool true]⟩, ⟨[.bool true]⟩]
  commits := [⟨2, 2, 2⟩, ⟨2, 1, 2⟩]
  linus := 2

theorem colId_lettered_ne {f : Frame} {c : Nat} (h : IsColumn 2 1 fewRows f c) :
    colId (lettered f c) ≠ [] := by
  have hcode : f.code < 9 := by
    have hmade := h.1
    cases f <;> simp only [Frame.code, Frame.Made] at hmade ⊢ <;> omega
  have hid : ∀ a < 9, ∀ c < 3, colId (fun i => ⟨(if i.val = 0 then a else c) % 53,
      Nat.mod_lt _ (Nat.succ_pos 52)⟩) ≠ [] := by decide
  exact hid f.code hcode c (h.2.trans_le (width_fewRows_le f))

theorem goodIds_lettered (f : Frame) (hf : f.Made 2 1) : GoodIds (lettered f) (width fewRows f) :=
  goodIds distinctIds_lettered (fun _ _ => colId_lettered_ne) hf

theorem rendersFile_twoCommits :
    RendersFile (twoCommits.commits.map Commit.row) fewRows.commits := by
  have hone {ds : List Data} {line : Bytes} (h : Renders ds line) :
      Renders (.int 1 :: ds) ([] ++ 60 :: (lit "1" ++ 62 :: line)) :=
    .cons (by decide) (.mk (@Data.Content.int 1 (lit "1")
      ⟨by decide, List.all_eq_true.1 (by decide)⟩ (by decide)) 0 0) h
  have htwo {ds : List Data} {line : Bytes} (h : Renders ds line) :
      Renders (.int 2 :: ds) ([] ++ 60 :: (lit "2" ++ 62 :: line)) :=
    .cons (by decide) (.mk (@Data.Content.int 2 (lit "2")
      ⟨by decide, List.all_eq_true.1 (by decide)⟩ (by decide)) 0 0) h
  exact .cons (htwo (htwo (htwo (.nil (by decide)))))
    (.cons (htwo (hone (htwo (.nil (by decide))))) .nil)

theorem has_fewRows (hids : ∀ f : Frame, f.Made n degrees → GoodIds (draws f) (width fewRows f)) :
    fewRows.Has n draws twoCommits := by
  have hbool : RendersFile [⟨[.bool true]⟩, ⟨[.bool true]⟩, ⟨[.bool true]⟩]
      (lit "<1>\n<1>\n<1>\n") := rendersFile_bools [true, true, true]
  refine ⟨?_, ?_, ?_, rfl⟩
  · exact parses_of_renders hbool (show ∀ r ∈ _, _ = [ColType.bool] by decide)
      (List.cons_ne_nil _ _) rfl (hids .projs trivial) (by decide)
  · exact parses_of_renders hbool (show ∀ r ∈ _, _ = [ColType.bool] by decide)
      (List.cons_ne_nil _ _) rfl (hids .usrs trivial) (by decide)
  · exact parses_of_renders rendersFile_twoCommits
      (show ∀ r ∈ _, _ = [ColType.int, .int, .int] by decide) (List.cons_ne_nil _ _) rfl
      (hids .comts trivial) (by decide)

/-- The project 2 is tagged, and both users. -/
theorem run_rounds_fewRows : ∃ s',
    Pool.Run (.init fun i : Fin 2 => run 2 fewRows lettered i 1) s' ∧ ∀ i, ∃ l, s'.prog i = .ret l ∧
      l.uSet = .of 3 {1, 2} ∧ l.pSet = .of 3 {2} ∧
      (l.pSet.vals, l.uSet.vals) = breadthFirst twoCommits.commits 2 1 := by
  have hrounds : (twoCommits.rounds 1).fst = {1, 2} ∧ (twoCommits.rounds 1).snd = {2} := by decide
  have hfits : Fits twoCommits :=
    show ∀ m ∈ [3, 3, 2], m ≤ defaultSegmentCapacity * 1000 by decide
  have hall {s : Pool (Fin 2) Key Value Fields}
      (h : Pool.Run (.init fun i : Fin 2 => run 2 fewRows lettered i 1) s) :=
    run_rounds 2 1 fewRows lettered twoCommits (has_fewRows goodIds_lettered) hfits
      distinctIds_lettered (fun _ _ => colId_lettered_ne) (by decide) (by decide) h
  obtain ⟨-, -, s', hrun, hdone⟩ := hall .refl
  obtain ⟨-, hret, -⟩ := hall hrun
  refine ⟨s', hrun, fun i => ?_⟩
  obtain ⟨l, hl⟩ := hdone i
  obtain ⟨huSet, hpSet, hfind⟩ := hret i l hl
  rw [hrounds.1] at huSet
  rw [hrounds.2] at hpSet
  exact ⟨l, hl, huSet, hpSet, hfind (by decide)⟩

end KD

end Eau2.Linus

import Eau2.Lib.Pool
import Eau2.Lib.SemiNaive
import Eau2.Linus.Sets

/-!
# The steps of the application

The programs of the nodes (`run`): the tables are published by the node 0 and waited for
by the others (`readInput`), and in each step (`step`) every node goes over the commits
that are local to it, once to tag projects and once to tag users, and merges what it
has newly tagged with what the other nodes have (`merge`).

They are programs over a store of data frames: `kd_.waitAndGet` returns the frame put
under the key, `map` visits its rows, and `local_map` those that are local to the node
(`localRows`), which for the commits are a partition of the rows; `local_map` may also fail,
as it does on the node 0 for a data frame without rows. The keys are the names made by
`StrBuff`, all of the node 0.

All nodes hold the same sets after a step (`run_does`): those of the semi-naive
evaluation (`SemiNaive.rounds`) of what the commits lead to.
-/

namespace Eau2.Linus

open Prog (Access)

/-- A row of the table of commits. -/
structure Commit where
  pid : BitVec 32
  author : BitVec 32
  committer : BitVec 32
  deriving DecidableEq

def Commit.row (c : Commit) : Row := ⟨[.int c.pid, .int c.author, .int c.committer]⟩

/-- The input: the tables, and `LINUS`. -/
structure Input where
  projects : List Row
  users : List Row
  commits : List Commit
  linus : BitVec 32

/-- What a `Linus` object holds after `readInput`. -/
@[ext]
structure Fields where
  projects : List Row
  users : List Row
  commits : List Row
  uSet : Set
  pSet : Set

/-- A program over a store of data frames. -/
abbrev Program := Prog Bytes (List Row)

/-- The names of the form `name`, `stage`, `-`, `node`. -/
def frameKey (name : Bytes) (stage node : Nat) : Bytes :=
  name ++ decimal stage ++ lit "-" ++ decimal node

/-- `fromVisitor(&k, &kd_, "I", writer)`, for the writer of the set. -/
def fromVisitor (k : Bytes) (set : Set) : Program Unit := do
  let rows ← Prog.ofOption (visited set)
  Prog.put k rows (pure ())

/-- `kd_.waitAndGet`. -/
def waitAndGet (k : Bytes) : Program (List Row) := Prog.waitAndGet k pure

/-- `readInput`, on the node `thisNode`. -/
def readInput (input : Input) (thisNode : Nat) : Program Fields := do
  if thisNode = 0 then
    Prog.put (lit "projs") input.projects (pure ())
    Prog.put (lit "usrs") input.users (pure ())
    Prog.put (lit "comts") (input.commits.map Commit.row) (pure ())
    Prog.put (lit "users-0-0") [⟨[.int input.linus]⟩] (pure ())
    return ⟨input.projects, input.users, input.commits.map Commit.row,
      .new input.users.length, .new input.projects.length⟩
  else
    let projects ← waitAndGet (lit "projs")
    let users ← waitAndGet (lit "usrs")
    let commits ← waitAndGet (lit "comts")
    return ⟨projects, users, commits, .new users.length, .new projects.length⟩

/-- `merge`, of `n` nodes: the set after it. -/
def merge (n thisNode : Nat) (set : Set) (name : Bytes) (stage : Nat) : Program Set := do
  if thisNode = 0 then
    let set ← (List.range' 1 (n - 1)).foldlM (fun set i => do
      let delta ← waitAndGet (frameKey name stage i)
      Prog.ofOption (map setUpdater set delta)) set
    fromVisitor (frameKey name stage 0) set
    return set
  else
    fromVisitor (frameKey name stage thisNode) set
    let merged ← waitAndGet (frameKey name stage 0)
    Prog.ofOption (map setUpdater set merged)

/-- `step`, on a node where `local_map` visits the rows `localRows` of a data frame, or fails. -/
def step (n thisNode : Nat) (localRows : List Row → Option (List Row)) (l : Fields) (stage : Nat) :
    Program Fields := do
  let newUsers ← waitAndGet (frameKey (lit "users-") stage 0)
  let delta ← Prog.ofOption (map setUpdater (.new l.users.length) newUsers)
  let (pSet, newProjects) ← Prog.ofOption
    ((localRows l.commits).bind (map (projectsTagger delta) (l.pSet, .new l.projects.length)))
  let newProjects ← merge n thisNode newProjects (lit "projects-") stage
  let pSet := pSet.union newProjects
  let (uSet, newUsers) ← Prog.ofOption
    ((localRows l.commits).bind (map (usersTagger newProjects) (l.uSet, .new l.users.length)))
  let newUsers ← merge n thisNode newUsers (lit "users-") (stage + 1)
  let uSet := uSet.union newUsers
  return { l with uSet := uSet, pSet := pSet }

/-- `run`, on the node `thisNode`. -/
def run (n degrees : Nat) (input : Input) (localRows : Nat → List Row → Option (List Row))
    (thisNode : Nat) : Program Fields := do
  let l ← readInput input thisNode
  (List.range degrees).foldlM (step n thisNode (localRows thisNode)) l

/-! ## The keys -/

/-- The data frames that the nodes put: the tables, and those of `merge`, with the stage and
    the node. -/
inductive Frame
  | projs
  | usrs
  | comts
  | projects (stage node : Nat)
  | users (stage node : Nat)
  deriving Inhabited

/-- The name of the key of a data frame. -/
def Frame.name : Frame → Bytes
  | projs => lit "projs"
  | usrs => lit "usrs"
  | comts => lit "comts"
  | projects stage node => frameKey (lit "projects-") stage node
  | users stage node => frameKey (lit "users-") stage node

/-- A stage and a node can be read back from a name. -/
theorem frameKey_inj {name : Bytes} {stage stage' node node' : Nat}
    (h : frameKey name stage node = frameKey name stage' node') :
    stage = stage' ∧ node = node' := by
  have hdash (n : Nat) : (45 : UInt8) ∉ decimal n :=
    not_mem_decimal (fun d h => by interval_cases d <;> decide) n
  have hname (stage node : Nat) :
      frameKey name stage node = name ++ (decimal stage ++ 45 :: decimal node) := by
    rw [frameKey, List.append_assoc, List.append_assoc]
    rfl
  rw [hname, hname, List.append_right_inj,
    List.append_cons_inj_of_notMem (hdash stage) (hdash node)] at h
  exact ⟨decimal_injective h.1, decimal_injective h.2.2⟩

/-- The start of the name of a frame. -/
def Frame.kind : Frame → Bytes
  | projs => lit "projs"
  | usrs => lit "usrs"
  | comts => lit "comts"
  | projects _ _ => lit "proje"
  | users _ _ => lit "users"

theorem Frame.take_name (f : Frame) : f.name.take 5 = f.kind := by
  cases f <;> rfl

/-- No two data frames have the same key. -/
theorem Frame.name_injective : Function.Injective Frame.name := by
  intro f f' h
  have hkind := congrArg (List.take 5) h
  rw [Frame.take_name, Frame.take_name] at hkind
  cases f <;> cases f' <;> first
    | rfl
    | exact absurd hkind (of_decide_eq_false rfl)
    | (obtain ⟨rfl, rfl⟩ := frameKey_inj h; rfl)

/-! ## Sets of finite sets -/

/-- The set with the elements of `vals` within its bound. -/
def Set.of (size : Nat) (vals : Finset Nat) : Set :=
  ⟨size, vals.filter (· < size), fun _ h => (Finset.mem_filter.1 h).2⟩

@[simp] theorem Set.of_size (size : Nat) (vals : Finset Nat) : (Set.of size vals).size = size := rfl

@[simp] theorem Set.mem_of {size i : Nat} {vals : Finset Nat} :
    i ∈ (Set.of size vals).vals ↔ i ∈ vals ∧ i < size := Finset.mem_filter

theorem Set.eq_of {size : Nat} {vals : Finset Nat} {s : Set} (hsize : s.size = size)
    (h : ∀ i < size, i ∈ s.vals ↔ i ∈ vals) : s = .of size vals := by
  refine Set.ext hsize (Finset.ext fun i => ?_)
  rw [mem_of]
  exact ⟨fun hi => ⟨(h i (hsize ▸ s.lt_size i hi)).1 hi, hsize ▸ s.lt_size i hi⟩,
    fun hi => (h i hi.2).2 hi.1⟩

theorem Set.of_empty (size : Nat) : Set.of size ∅ = Set.new size := by
  refine (Set.eq_of (Set.new_size size) fun i _ => ?_).symm
  simp

theorem Set.union_of (size : Nat) (vals vals' : Finset Nat) :
    (Set.of size vals).union (.of size vals') = .of size (vals ∪ vals') := by
  refine Set.eq_of union_size fun i hi => ?_
  have hle : (Set.of size vals').size ≤ (Set.of size vals).size := Nat.le_refl size
  rw [union_vals hle, Finset.mem_union, mem_of, mem_of, Finset.mem_union]
  grind

theorem Set.foldl_union_of {ι : Type} (size : Nat) (parts : ι → Finset Nat) (l : List ι)
    (vals : Finset Nat) : l.foldl (fun s j => s.union (.of size (parts j))) (Set.of size vals) =
      .of size (l.foldl (fun vals j => vals ∪ parts j) vals) := by
  induction l generalizing vals with
  | nil => rfl
  | cons j l ih => rw [List.foldl_cons, union_of, ih, List.foldl_cons]

theorem mem_foldl_union {ι : Type} {parts : ι → Finset Nat} {l : List ι} {vals : Finset Nat}
    {v : Nat} : v ∈ l.foldl (fun vals j => vals ∪ parts j) vals ↔
      v ∈ vals ∨ ∃ j ∈ l, v ∈ parts j := by
  induction l generalizing vals with
  | nil => simp
  | cons j l ih => simp [ih, or_assoc]

/-- Values of type `int` in a finite set. -/
def IntVals (vals : Finset Nat) : Prop := ∀ i ∈ vals, sizeT (BitVec.ofNat 32 i) = i

theorem IntVals.elems {vals : Finset Nat} (h : IntVals vals) (size : Nat) :
    Ints (Set.of size vals).elems :=
  fun i hi => h i (Set.mem_of.1 (Set.mem_elems.1 hi)).1

/-- What is tagged in a table of `size` rows, from the rows of the commits `cs`, when `tagged`
    is tagged already: it is new what is not, and when all that is new anywhere is added,
    it is of no matter what was found here. -/
theorem map_tagger_of (src dst : Nat) (f g : Commit → BitVec 32)
    (hf : ∀ c, c.row.getInt src = some (f c)) (hg : ∀ c, c.row.getInt dst = some (g c))
    (bound size : Nat) (vals tagged : Finset Nat) (cs : List Commit) :
    ∃ s, map (tagger src dst (.of bound vals)) (.of size tagged, .new size) (cs.map Commit.row) =
        some (s, .of size (tags (sizeT ∘ f) (sizeT ∘ g) bound size cs vals \ tagged)) ∧
      ∀ total, tags (sizeT ∘ f) (sizeT ∘ g) bound size cs vals \ tagged ⊆ total →
        s.union (.of size total) = .of size (tagged ∪ total) := by
  obtain ⟨⟨s, fresh⟩, hmap, htagged⟩ :=
    map_tagger hf hg (.of bound vals) cs (.of size tagged, .new size) rfl
  have hfound : tags (sizeT ∘ f) (sizeT ∘ g) bound size cs (Set.of bound vals).vals =
      tags (sizeT ∘ f) (sizeT ∘ g) bound size cs vals := by
    ext i
    simp only [mem_tags, Set.mem_of]
    grind
  rw [Set.of_size, Set.of_size, hfound] at htagged
  have hfresh : fresh = .of size (tags (sizeT ∘ f) (sizeT ∘ g) bound size cs vals \ tagged) := by
    refine Set.eq_of htagged.size_snd fun i hi => ?_
    rw [htagged.snd]
    simp [hi]
  subst hfresh
  refine ⟨s, hmap, fun total hsub => Set.eq_of ?_ fun i hi => ?_⟩
  · rw [Set.union_size, htagged.size_fst, Set.of_size]
  · -- An element is tagged already, or is new here, or is only new elsewhere.
    have hsub' := @hsub i
    rw [Finset.mem_sdiff] at hsub'
    have hle : (Set.of size total).size ≤ s.size := htagged.size_fst.symm.le
    have hfst : s.vals = _ := htagged.fst
    rw [Set.union_vals hle, hfst, Finset.mem_union, Finset.mem_union, Finset.mem_union, Set.mem_of,
      Set.mem_of]
    grind

/-! ## Merging -/

section Merge

variable {spec : Bytes → List Row} {n i : Nat} {size : Nat} {name : Bytes} {stage : Nat}

/-- The accesses of `merge` on the node `i`, for the frames `key`. -/
def mergeAccesses (n i : Nat) (key : Nat → Frame) : List (Access Frame) :=
  if i = 0 then (List.range' 1 (n - 1)).map (fun j => .wait (key j)) ++ [.put (key 0)]
  else [.put (key i), .wait (key 0)]

/-- A set is put as the data frame that is to be there. -/
theorem fromVisitor_does {k : Bytes} {s : Set} (h : spec k = frame s) :
    (fromVisitor k s).Does spec [.put k] () := by
  rw [fromVisitor, visited_eq, Prog.ofOption_some, Prog.ret_bind, ← h]
  exact .put (.ret ())

/-- A data frame is waited for and added to a set. -/
theorem update_does {k : Bytes} {vals : Finset Nat} (h : spec k = frame (.of size vals))
    (hints : IntVals vals) (s : Set) :
    ((waitAndGet k >>= fun rows => Prog.ofOption (map setUpdater s rows)) : Program Set).Does spec
      [.wait k] (s.union (.of size vals)) := by
  refine .wait ?_
  show (Prog.ofOption (map setUpdater s (spec k)) : Program Set).Does spec [] _
  rw [h, map_setUpdater_frame (hints.elems size)]
  exact .ret _

/-- The sets of the nodes, one after the other added to that of the node 0. -/
theorem foldl_parts_eq {parts : Nat → Finset Nat} {total : Finset Nat}
    (hmem : ∀ v, v ∈ total ↔ ∃ j < n, v ∈ parts j) (hn : 0 < n) :
    (List.range' 1 (n - 1)).foldl (fun (s : Set) j => s.union (.of size (parts j)))
      (.of size (parts 0)) = .of size total := by
  rw [Set.foldl_union_of]
  congr 1
  ext v
  rw [mem_foldl_union, hmem]
  constructor
  · rintro (hv | ⟨j, hj, hv⟩)
    · exact ⟨0, hn, hv⟩
    · obtain ⟨hpos, hlt⟩ := List.mem_range'_1.1 hj
      exact ⟨j, by omega, hv⟩
  · rintro ⟨j, hj, hv⟩
    cases j with
    | zero => exact .inl hv
    | succ j => exact .inr ⟨j + 1, List.mem_range'_1.2 (by omega), hv⟩

/-- The merging of the sets `parts` of the nodes: the node 0 gathers them, and all have
    `total` in the end. -/
theorem merge_does (parts : Nat → Finset Nat) (total : Finset Nat) (key : Nat → Frame)
    (hkey : ∀ j, (key j).name = frameKey name stage j)
    (hparts : ∀ j, 0 < j → j < n → spec (frameKey name stage j) = frame (.of size (parts j)))
    (htotal : spec (frameKey name stage 0) = frame (.of size total))
    (hmem : ∀ v, v ∈ total ↔ ∃ j < n, v ∈ parts j) (hints : IntVals total) (hi : i < n) :
    (merge n i (.of size (parts i)) name stage).Does spec
      ((mergeAccesses n i key).map (.map Frame.name)) (.of size total) := by
  rw [merge, mergeAccesses]
  split_ifs with hzero
  · -- The node 0 waits for the sets of the others, and then puts what it has.
    subst hzero
    have hloop : ((List.range' 1 (n - 1)).foldlM (fun set j => do
        let delta ← waitAndGet (frameKey name stage j)
        Prog.ofOption (map setUpdater set delta)) (.of size (parts 0)) : Program Set).Does spec
        ((List.range' 1 (n - 1)).flatMap fun j => [.wait (frameKey name stage j)])
        ((List.range' 1 (n - 1)).foldl (fun (s : Set) j => s.union (.of size (parts j)))
          (.of size (parts 0))) := by
      refine Prog.Does.foldlM (fun j hj s => ?_) _
      obtain ⟨hpos, hlt⟩ := List.mem_range'_1.1 hj
      have hjn : j < n := by omega
      exact update_does (hparts j hpos hjn) (fun v hv => hints v ((hmem v).2 ⟨j, hjn, hv⟩)) s
    rw [foldl_parts_eq hmem hi] at hloop
    have haccesses : ((List.range' 1 (n - 1)).map (fun j => Access.wait (key j)) ++
        [Access.put (key 0)]).map (Access.map Frame.name) =
        ((List.range' 1 (n - 1)).flatMap fun j => [Access.wait (frameKey name stage j)]) ++
          ([Access.put (frameKey name stage 0)] ++ []) := by
      rw [List.map_append, List.map_map, ← List.map_eq_flatMap, List.append_nil]
      simp [Access.map, hkey, Function.comp_def]
    rw [haccesses]
    exact hloop.bind ((fromVisitor_does htotal).bind (.ret _))
  · -- Another node puts its set, and then adds all that the node 0 has put.
    have hpart := hparts i (Nat.pos_of_ne_zero hzero) hi
    have hsub : parts i ∪ total = total :=
      Finset.union_eq_right.2 fun v hv => (hmem v).2 ⟨i, hi, hv⟩
    have hmerged := update_does htotal hints (.of size (parts i))
    rw [Set.union_of, hsub] at hmerged
    have haccesses : [Access.put (key i), .wait (key 0)].map (Access.map Frame.name) =
        [Access.put (frameKey name stage i)] ++ [.wait (frameKey name stage 0)] := by
      simp [Access.map, hkey]
    rw [haccesses]
    exact (fromVisitor_does hpart).bind hmerged

end Merge

/-! ## The rounds -/

namespace Input

variable (input : Input)

/-- The projects that the commits `cs` of some users are to. -/
def projectsOf (cs : List Commit) : Finset Nat → Finset Nat :=
  tags (sizeT ∘ Commit.author) (sizeT ∘ Commit.pid) input.users.length input.projects.length cs

/-- The users who have authored the commits `cs` to some projects. -/
def usersOf (cs : List Commit) : Finset Nat → Finset Nat :=
  tags (sizeT ∘ Commit.pid) (sizeT ∘ Commit.author) input.projects.length input.users.length cs

/-- The sets of the application after a number of steps: `uSet`, `pSet`, and the users that
    are new. -/
def rounds : Nat → SemiNaive.Round Nat Nat :=
  SemiNaive.rounds (input.projectsOf input.commits) (input.usersOf input.commits)
    {sizeT input.linus}

/-- The projects that are newly tagged in the step `stage`. -/
def newProjects (stage : Nat) : Finset Nat :=
  (input.rounds stage).new (input.projectsOf input.commits)

/-- What a node holds after `stage` steps. -/
def fields (stage : Nat) : Fields :=
  ⟨input.projects, input.users, input.commits.map Commit.row,
    .of input.users.length (input.rounds stage).fst,
    .of input.projects.length (input.rounds stage).snd⟩

/-- The rows of the data frames, when the commits `cs i` are local to the node `i`. -/
def rows (cs : Nat → List Commit) : Frame → List Row
  | .projs => input.projects
  | .usrs => input.users
  | .comts => input.commits.map Commit.row
  | .projects stage node => frame <| .of input.projects.length <|
    if node = 0 then input.newProjects stage
    else input.projectsOf (cs node) (input.rounds stage).fresh \ (input.rounds stage).snd
  | .users 0 _ => [⟨[.int input.linus]⟩]
  | .users (stage + 1) node => frame <| .of input.users.length <|
    if node = 0 then (input.rounds (stage + 1)).fresh
    else input.usersOf (cs node) (input.newProjects stage) \ (input.rounds stage).fst

end Input

section Step

variable {input : Input} {n : Nat} {localRows : Nat → List Row → Option (List Row)}
  {cs : Nat → List Commit} {spec : Bytes → List Row}

/-- What the commits of all lead to is what the commits of each lead to. -/
theorem mem_tags_parts (hcs : ∀ c, c ∈ input.commits ↔ ∃ i < n, c ∈ cs i) {src dst : Commit → Nat}
    {bound size v : Nat} {vals tagged : Finset Nat} :
    v ∈ tags src dst bound size input.commits vals \ tagged ↔
      ∃ i < n, v ∈ tags src dst bound size (cs i) vals \ tagged := by
  simp only [Finset.mem_sdiff, mem_tags, hcs]
  constructor
  · rintro ⟨⟨hv, c, ⟨i, hi, hc⟩, hfrom, hto⟩, hnot⟩
    exact ⟨i, hi, ⟨hv, c, hc, hfrom, hto⟩, hnot⟩
  · rintro ⟨i, hi, ⟨hv, c, hc, hfrom, hto⟩, hnot⟩
    exact ⟨⟨hv, c, ⟨i, hi, hc⟩, hfrom, hto⟩, hnot⟩

/-- Projects and users have numbers of type `int`. -/
theorem intVals_tags {src : Commit → Nat} {g : Commit → BitVec 32} {bound size : Nat}
    {cs : List Commit} {vals tagged : Finset Nat} :
    IntVals (tags src (sizeT ∘ g) bound size cs vals \ tagged) := by
  intro i hi
  obtain ⟨-, c, -, -, rfl⟩ := mem_tags.1 (Finset.mem_sdiff.1 hi).1
  exact congrArg sizeT (ofNat_sizeT (g c))

/-- The users of the last round, as they are read by a node. -/
theorem map_newUsers (input : Input) (cs : Nat → List Commit) (stage : Nat) :
    map setUpdater (.new input.users.length) (input.rows cs (.users stage 0)) =
      some (.of input.users.length (input.rounds stage).fresh) := by
  cases stage with
  | zero =>
    have hlinus : input.rows cs (.users 0 0) = [sizeT input.linus].map intRow := by
      rw [List.map_singleton, intRow, ofNat_sizeT]
      rfl
    rw [hlinus, map_setUpdater (by simp [Ints, ofNat_sizeT])]
    refine congrArg some (Set.eq_of (Set.foldl_set_size _ _) fun i hi => ?_)
    rw [Set.mem_foldl_set]
    simp [Input.rounds, SemiNaive.rounds, hi]
  | succ stage =>
    have hints : IntVals (input.rounds (stage + 1)).fresh := intVals_tags
    show map setUpdater _ (frame (.of _ (input.rounds (stage + 1)).fresh)) = _
    rw [map_setUpdater_frame (hints.elems _)]
    refine congrArg some (Set.eq_of Set.union_size fun i hi => ?_)
    have hle : (Set.of input.users.length (input.rounds (stage + 1)).fresh).size ≤
        (Set.new input.users.length).size := Nat.le_refl _
    rw [Set.union_vals hle]
    simp [hi]

/-- The accesses of `step`. -/
def stepAccesses (n i stage : Nat) : List (Access Frame) :=
  [.wait (.users stage 0)] ++
    (mergeAccesses n i (.projects stage) ++ mergeAccesses n i (.users (stage + 1)))

variable (hcs : ∀ c, c ∈ input.commits ↔ ∃ i < n, c ∈ cs i)
  (hlocal : ∀ i < n, localRows i (input.commits.map Commit.row) = some ((cs i).map Commit.row))
  (hspec : ∀ f : Frame, spec f.name = input.rows cs f)
include hcs hlocal hspec

/-- A step on any node leads from what all hold to what all hold after it. -/
theorem step_does {i : Nat} (hi : i < n) (stage : Nat) :
    (step n i (localRows i) (input.fields stage) stage).Does spec
      ((stepAccesses n i stage).map (.map Frame.name)) (input.fields (stage + 1)) := by
  let newProjects (j : Nat) : Finset Nat :=
    input.projectsOf (cs j) (input.rounds stage).fresh \ (input.rounds stage).snd
  let newUsers (j : Nat) : Finset Nat :=
    input.usersOf (cs j) (input.newProjects stage) \ (input.rounds stage).fst
  have hmemProjects (v : Nat) : v ∈ input.newProjects stage ↔ ∃ j < n, v ∈ newProjects j :=
    mem_tags_parts hcs
  have hmemUsers (v : Nat) : v ∈ (input.rounds (stage + 1)).fresh ↔ ∃ j < n, v ∈ newUsers j :=
    mem_tags_parts hcs
  -- the tagging, on this node
  obtain ⟨pSet, hprojects, hpSet⟩ := map_tagger_of 1 0 Commit.author Commit.pid (fun _ => rfl)
    (fun _ => rfl) input.users.length input.projects.length (input.rounds stage).fresh
    (input.rounds stage).snd (cs i)
  obtain ⟨uSet, husers, huSet⟩ := map_tagger_of 0 1 Commit.pid Commit.author (fun _ => rfl)
    (fun _ => rfl) input.projects.length input.users.length (input.newProjects stage)
    (input.rounds stage).fst (cs i)
  -- the merging
  have hmergeProjects := merge_does newProjects (input.newProjects stage) (.projects stage)
    (fun _ => rfl)
    (fun j hj _ => (hspec (.projects stage j)).trans (by rw [Input.rows, if_neg hj.ne']))
    (hspec (.projects stage 0)) hmemProjects intVals_tags hi
  have hmergeUsers := merge_does newUsers (input.rounds (stage + 1)).fresh (.users (stage + 1))
    (fun _ => rfl)
    (fun j hj _ => (hspec (.users (stage + 1) j)).trans (by rw [Input.rows, if_neg hj.ne']))
    (hspec (.users (stage + 1) 0)) hmemUsers intVals_tags hi
  have hdelta : map setUpdater (.new (input.fields stage).users.length)
      (spec (frameKey (lit "users-") stage 0)) =
        some (.of input.users.length (input.rounds stage).fresh) :=
    (congrArg _ (hspec (.users stage 0))).trans (map_newUsers input cs stage)
  have hrows : localRows i (input.fields stage).commits = some ((cs i).map Commit.row) :=
    hlocal i hi
  have hlast : input.fields (stage + 1) = { input.fields stage with
      uSet := uSet.union (.of input.users.length (input.rounds (stage + 1)).fresh)
      pSet := pSet.union (.of input.projects.length (input.newProjects stage)) } := by
    rw [hpSet _ fun v hv => (hmemProjects v).2 ⟨i, hi, hv⟩,
      huSet _ fun v hv => (hmemUsers v).2 ⟨i, hi, hv⟩]
    rfl
  have hvisit : map (projectsTagger (.of input.users.length (input.rounds stage).fresh))
      ((input.fields stage).pSet, .new (input.fields stage).projects.length)
      ((cs i).map Commit.row) = some (pSet, .of input.projects.length (newProjects i)) := hprojects
  have hvisit' : map (usersTagger (.of input.projects.length (input.newProjects stage)))
      ((input.fields stage).uSet, .new (input.fields stage).users.length)
      ((cs i).map Commit.row) = some (uSet, .of input.users.length (newUsers i)) := husers
  rw [stepAccesses, List.map_append, List.map_append, step]
  refine .bind (.wait (.ret _)) ?_
  rw [hdelta, Prog.ofOption_some, Prog.ret_bind, hrows, Option.bind_some, hvisit,
    Prog.ofOption_some, Prog.ret_bind]
  refine hmergeProjects.bind ?_
  rw [Option.bind_some, hvisit', Prog.ofOption_some, Prog.ret_bind, ← List.append_nil
    (List.map _ _), hlast]
  exact hmergeUsers.bind (.ret _)

/-- The accesses of `readInput`. -/
def readAccesses (i : Nat) : List (Access Frame) :=
  if i = 0 then [.put .projs, .put .usrs, .put .comts, .put (.users 0 0)]
  else [.wait .projs, .wait .usrs, .wait .comts]

omit hcs hlocal in
theorem readInput_does (i : Nat) :
    (readInput input i).Does spec ((readAccesses i).map (.map Frame.name)) (input.fields 0) := by
  have hfields : input.fields 0 = ⟨input.projects, input.users, input.commits.map Commit.row,
      .new input.users.length, .new input.projects.length⟩ := by
    rw [← Set.of_empty, ← Set.of_empty]
    rfl
  have hprojs : spec (lit "projs") = input.projects := hspec .projs
  have husrs : spec (lit "usrs") = input.users := hspec .usrs
  have hcomts : spec (lit "comts") = input.commits.map Commit.row := hspec .comts
  have hlinus : spec (lit "users-0-0") = [⟨[.int input.linus]⟩] := hspec (.users 0 0)
  rw [readInput, readAccesses, hfields]
  split_ifs
  · rw [← hlinus, ← hprojs, ← husrs, ← hcomts]
    exact .put (.put (.put (.put (.ret _))))
  · rw [← hprojs, ← husrs, ← hcomts]
    exact .wait (.wait (.wait (.ret _)))

/-- The accesses of `run`. -/
def runAccesses (n degrees i : Nat) : List (Access Frame) :=
  readAccesses i ++ (List.range degrees).flatMap (stepAccesses n i)

/-- What a node does in `run`, and what it holds in the end: what all the others hold. -/
theorem run_does {i : Nat} (hi : i < n) (degrees : Nat) :
    (run n degrees input localRows i).Does spec
      ((runAccesses n degrees i).map (.map Frame.name)) (input.fields degrees) := by
  rw [run, runAccesses, List.map_append]
  refine (readInput_does hspec i).bind ?_
  induction degrees with
  | zero => exact .ret _
  | succ degrees ih =>
    rw [List.range_succ, List.foldlM_append, List.flatMap_append, List.map_append,
      List.flatMap_singleton]
    have hone : [degrees].foldlM (step n i (localRows i)) (input.fields degrees) =
        step n i (localRows i) (input.fields degrees) degrees := bind_pure _
    exact ih.bind (hone ▸ step_does hcs hlocal hspec hi degrees)

end Step

end Eau2.Linus

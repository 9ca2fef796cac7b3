import Eau2.Linus.Merge
import Eau2.Sorer.Parser

/-!
# The nodes of the application

`run` again, as the program over the store that a node runs (`KD.run`): the tables are
parsed from the files and put segment by segment by the node 0, the others get them with
`waitAndGet`, and each step goes over the commits with `local_map`, whose rows come out of
the segments in the store of the node.
-/

namespace Eau2.Linus.KD

/-- The files that `readInput` reads, and `LINUS`; `toDouble` is the `atof` of the C library. -/
structure Files where
  projects : Bytes
  users : Bytes
  commits : Bytes
  linus : BitVec 32
  toDouble : Bytes → BitVec 64

/-- What a `Linus` object holds after `readInput`. -/
structure Fields where
  projects : DataFrame
  users : DataFrame
  commits : DataFrame
  uSet : Set
  pSet : Set

/-- What the columns of the data frames draw for their names: a frame is made once, by one
    node. -/
abbrev Draws := Frame → Nat → Fin 10 → Fin 53

variable (n : Nat) (files : Files) (draws : Draws) (thisNode : Nat)

/-- `readInput`. -/
def readInput : Prog Key Value Fields := do
  let pK := Key.ofCStr (lit "projs") 0
  let uK := Key.ofCStr (lit "usrs") 0
  let cK := Key.ofCStr (lit "comts") 0
  if thisNode = 0 then
    let projects ← DataFrame.fromSorFile n pK (draws .projs) files.toDouble files.projects
    let users ← DataFrame.fromSorFile n uK (draws .usrs) files.toDouble files.users
    let commits ← DataFrame.fromSorFile n cK (draws .comts) files.toDouble files.commits
    let scalar := Key.ofCStr (lit "users-0-0") 0
    let _ ← DataFrame.fromScalar n scalar .int (draws (.users 0 0) 0) files.linus
    return ⟨projects, users, commits, .new users.nrows, .new projects.nrows⟩
  else
    let projects ← KDStore.waitAndGet pK
    let users ← KDStore.waitAndGet uK
    let commits ← KDStore.waitAndGet cK
    return ⟨projects, users, commits, .new users.nrows, .new projects.nrows⟩

/-- `step(i)`. The stage is the `int` that `i` is converted to, and a `size_t` where it is
    printed. Past the largest `int`, what `stage + 1` is is not defined; here it wraps. -/
def step (l : Fields) (i : Nat) : Prog Key Value Fields := do
  let stage : BitVec 32 := .ofNat 32 i
  let delta ← update (.new l.users.nrows) (key (lit "users-") (sizeT stage) 0)
  let ((pSet, newProjects), commits) ←
    l.commits.localMap thisNode (projectsTagger delta) (l.pSet, .new l.projects.nrows)
  let newProjects ← merge n thisNode (draws (.projects i thisNode)) newProjects
    (lit "projects-") (sizeT stage)
  let pSet := pSet.union newProjects
  let ((uSet, newUsers), commits) ←
    commits.localMap thisNode (usersTagger newProjects) (l.uSet, .new l.users.nrows)
  let newUsers ← merge n thisNode (draws (.users (i + 1) thisNode)) newUsers
    (lit "users-") (sizeT (stage + 1))
  return { l with commits := commits, uSet := uSet.union newUsers, pSet := pSet }

/-- `run`, of `degrees` steps. -/
def run (degrees : Nat) : Prog Key Value Fields := do
  let l ← readInput n files draws thisNode
  (List.range degrees).foldlM (step n draws thisNode) l

/-- The application of a node. -/
def app (degrees : Nat) : Prog Key Value Unit := do
  let _ ← run n files draws thisNode degrees
  return ()

end Eau2.Linus.KD

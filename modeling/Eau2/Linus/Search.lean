import Eau2.Linus.Schedule

/-!
# What the application finds

After `degrees` steps every node holds what a naive breadth-first search from `LINUS`
finds in as many rounds (`breadthFirst`), if the commits mention known projects and
users only (`run_breadthFirst`).

Commits that mention others are not ignored. A commit by an unknown user tags its
project, and the author of a commit to an unknown project is tagged, both in the first
step, as `Set::test` says `true` out of bounds. They make no difference, in any number
of steps, if and only if the first step tags these projects and users anyway
(`ignores_iff`).
-/

namespace Eau2.Linus

open SemiNaive (naive)

variable {n degrees : Nat} {input : Input} {localRows : Nat → List Row → Option (List Row)}

/-- The projects with a commit authored by one of the users. -/
def committedTo (commits : List Commit) (users : Finset Nat) : Finset Nat :=
  ((commits.filter fun c => sizeT c.author ∈ users).map fun c => sizeT c.pid).toFinset

/-- The users who authored a commit to one of the projects. -/
def authorsOf (commits : List Commit) (projects : Finset Nat) : Finset Nat :=
  ((commits.filter fun c => sizeT c.pid ∈ projects).map fun c => sizeT c.author).toFinset

/-- The projects and users found in some rounds: those with a commit by `linus` or a user
    found in the rounds before, and those who authored a commit to one of them. -/
def breadthFirst (commits : List Commit) (linus : BitVec 32) : Nat → Finset Nat × Finset Nat
  | 0 => (∅, ∅)
  | k + 1 =>
    let projects := committedTo commits ({sizeT linus} ∪ (breadthFirst commits linus k).2)
    (projects, authorsOf commits projects)

/-- The number of a row of a table. -/
def IsRow (v : BitVec 32) (table : List Row) : Prop := 0 ≤ v.toInt ∧ v.toInt < table.length

instance (v : BitVec 32) (table : List Row) : Decidable (IsRow v table) :=
  inferInstanceAs (Decidable (_ ∧ _))

/-- A commit that mentions a project and an author of the tables. -/
def Input.Known (input : Input) (c : Commit) : Prop :=
  IsRow c.pid input.projects ∧ IsRow c.author input.users

instance (input : Input) : DecidablePred input.Known :=
  fun _ => inferInstanceAs (Decidable (_ ∧ _))

/-- The input without the commits that mention unknown projects or users. -/
def Input.known (input : Input) : Input :=
  { input with commits := input.commits.filter input.Known }

/-! ## The rounds -/

theorem IsRow.sizeT_lt {v : BitVec 32} {table : List Row} (h : IsRow v table) :
    sizeT v < table.length := by
  obtain ⟨hpos, hlt⟩ := h
  rw [BitVec.toInt_eq_msb_cond] at hpos hlt
  rw [sizeT_eq]
  have := v.isLt
  split at hpos <;> simp_all
  omega

theorem Input.projectsOf_union (cs : List Commit) (users users' : Finset Nat) :
    input.projectsOf cs (users ∪ users') = input.projectsOf cs users ∪ input.projectsOf cs users' :=
  tags_union users users'

theorem Input.usersOf_union (cs : List Commit) (projects projects' : Finset Nat) :
    input.usersOf cs (projects ∪ projects') =
      input.usersOf cs projects ∪ input.usersOf cs projects' :=
  tags_union projects projects'

/-- All that is tagged is in the tables. -/
theorem rounds_lt (input : Input) (k : Nat) :
    (∀ i ∈ (input.rounds k).fst, i < input.users.length) ∧
      ∀ i ∈ (input.rounds k).snd, i < input.projects.length := by
  cases k with
  | zero =>
    exact ⟨fun i hi => absurd hi (Finset.notMem_empty i), fun i hi =>
      absurd hi (Finset.notMem_empty i)⟩
  | succ k =>
    obtain ⟨hsnd, hfst, -⟩ := SemiNaive.rounds_succ (input.projectsOf_union input.commits)
      (input.usersOf_union input.commits) {sizeT input.linus} k
    rw [Input.rounds, hfst, hsnd]
    exact ⟨fun i hi => (mem_tags.1 hi).1, fun i hi => (mem_tags.1 hi).1⟩

/-- The sets that a node holds are those of naive evaluation. -/
theorem vals_fields (input : Input) (k : Nat) :
    ((input.fields k).uSet.vals, (input.fields k).pSet.vals) =
      naive (input.projectsOf input.commits) (input.usersOf input.commits)
      {sizeT input.linus} k := by
  rw [← SemiNaive.rounds_eq_naive (input.projectsOf_union input.commits)
    (input.usersOf_union input.commits)]
  obtain ⟨hfst, hsnd⟩ := rounds_lt input k
  exact Prod.ext (Finset.filter_true_of_mem hfst) (Finset.filter_true_of_mem hsnd)

/-! ## Known projects and users -/

theorem projectsOf_of_known (h : ∀ c ∈ input.commits, input.Known c) (users : Finset Nat) :
    input.projectsOf input.commits users = committedTo input.commits users := by
  ext i
  simp only [Input.projectsOf, mem_tags, committedTo, List.mem_toFinset, List.mem_map,
    List.mem_filter, decide_eq_true_iff, Function.comp_apply]
  constructor
  · rintro ⟨-, c, hc, hauthor, rfl⟩
    exact ⟨c, ⟨hc, hauthor.resolve_right (not_le.2 (h c hc).2.sizeT_lt)⟩, rfl⟩
  · rintro ⟨c, ⟨hc, hauthor⟩, rfl⟩
    exact ⟨(h c hc).1.sizeT_lt, c, hc, .inl hauthor, rfl⟩

theorem usersOf_of_known (h : ∀ c ∈ input.commits, input.Known c) (projects : Finset Nat) :
    input.usersOf input.commits projects = authorsOf input.commits projects := by
  ext i
  simp only [Input.usersOf, mem_tags, authorsOf, List.mem_toFinset, List.mem_map,
    List.mem_filter, decide_eq_true_iff, Function.comp_apply]
  constructor
  · rintro ⟨-, c, hc, hpid, rfl⟩
    exact ⟨c, ⟨hc, hpid.resolve_right (not_le.2 (h c hc).1.sizeT_lt)⟩, rfl⟩
  · rintro ⟨c, ⟨hc, hpid⟩, rfl⟩
    exact ⟨(h c hc).2.sizeT_lt, c, hc, .inl hpid, rfl⟩

theorem naive_of_known (h : ∀ c ∈ input.commits, input.Known c) (k : Nat) :
    naive (input.projectsOf input.commits) (input.usersOf input.commits) {sizeT input.linus} k =
      (breadthFirst input.commits input.linus k).swap := by
  induction k with
  | zero => rfl
  | succ k ih =>
    rw [naive, ih, projectsOf_of_known h, usersOf_of_known h]
    rfl

/-- In every interleaving, a node that has made its steps holds what breadth-first search
    finds in as many rounds; none fails an assertion, and all can make their steps. -/
theorem run_breadthFirst (n degrees : Nat) (input : Input)
    (localRows : Nat → List Row → Option (List Row)) (hshare : SharesOut n input localRows)
    (hknown : ∀ c ∈ input.commits, input.Known c) {s : Pool (Fin n) Bytes (List Row) Fields}
    (hrun : Pool.Run (nodes n degrees input localRows) s) :
    (∀ i, s.prog i ≠ .fail) ∧
      (∀ i l, s.prog i = .ret l →
        (l.pSet.vals, l.uSet.vals) = breadthFirst input.commits input.linus degrees) ∧
      ∃ s', Pool.Run s s' ∧ ∀ i, ∃ l, s'.prog i = .ret l := by
  obtain ⟨hfail, hret, s', hrun', hdone⟩ := run_finishes hshare degrees hrun
  refine ⟨hfail, fun i l hl => ?_, s', hrun', fun i => ⟨_, hdone i⟩⟩
  have hvals := (vals_fields input degrees).trans (naive_of_known hknown degrees)
  rw [hret i l hl, ← Prod.swap_swap (breadthFirst _ _ _), ← hvals]
  rfl

/-- Two projects, three users and a commit by each of the users 0 and 1 to the project 0,
    and by the users 1 and 2 to the project 1; `LINUS` is the user 0. -/
def fourCommits : Input where
  projects := [⟨[]⟩, ⟨[]⟩]
  users := [⟨[]⟩, ⟨[]⟩, ⟨[]⟩]
  commits := [⟨0, 0, 0⟩, ⟨0, 1, 0⟩, ⟨1, 1, 0⟩, ⟨1, 2, 0⟩]
  linus := 0

/-- The first half of the rows on the node 0, the others on the node 1. -/
def halves : Nat → List Row → Option (List Row)
  | 0, rows => if rows = [] then none else some (rows.take (rows.length / 2))
  | 1, rows => some (rows.drop (rows.length / 2))
  | _, _ => some []

theorem sharesOut_halves {input : Input} (h : input.commits ≠ []) : SharesOut 2 input halves := by
  let rows := input.commits.map Commit.row
  refine ⟨fun i => if i = 0 then rows.take (rows.length / 2) else rows.drop (rows.length / 2),
    fun i hi => ?_, ?_⟩
  · interval_cases i
    · exact if_neg fun hnil => h (List.map_eq_nil_iff.1 hnil)
    · rfl
  · show (rows.take (rows.length / 2) ++ (rows.drop (rows.length / 2) ++ [])).Perm rows
    rw [List.append_nil, List.take_append_drop]

theorem run_breadthFirst_fourCommits :
    ∃ s', Pool.Run (nodes 2 2 fourCommits halves) s' ∧ ∀ i, ∃ l, s'.prog i = .ret l ∧
      l.pSet.vals = {0, 1} ∧ l.uSet.vals = {0, 1, 2} := by
  have hfind : breadthFirst fourCommits.commits fourCommits.linus 2 = ({0, 1}, {0, 1, 2}) := by
    decide
  have hshare : SharesOut 2 fourCommits halves := sharesOut_halves (List.cons_ne_nil _ _)
  obtain ⟨-, -, s', hrun, hdone⟩ := run_breadthFirst 2 2 fourCommits halves hshare (by decide) .refl
  obtain ⟨-, hvals, -⟩ := run_breadthFirst 2 2 fourCommits halves hshare (by decide) hrun
  refine ⟨s', hrun, fun i => ?_⟩
  obtain ⟨l, hl⟩ := hdone i
  exact ⟨l, hl, Prod.mk.inj ((hvals i l hl).trans hfind)⟩

/-! ## Unknown projects and users -/

/-- In any number of steps, and however the rows are shared out, the nodes find the same
    without the commits that mention unknown projects or users. On the node 0, `local_map`
    fails for a table without rows. -/
def Ignores (n : Nat) (input : Input) (localRows : Nat → List Row → Option (List Row)) : Prop :=
  ∀ (degrees : Nat) (localRows' : Nat → List Row → Option (List Row)),
    localRows' 0 [] = none → SharesOut n input.known localRows' →
    ∀ s s', Pool.Run (nodes n degrees input localRows) s →
      Pool.Run (nodes n degrees input.known localRows') s' →
      ∀ i l l', s.prog i = .ret l → s'.prog i = .ret l' →
        l.pSet.vals = l'.pSet.vals ∧ l.uSet.vals = l'.uSet.vals

/-- All the rows may be on the node 0. -/
theorem exists_sharesOut (hn : 0 < n) (hne : input.commits ≠ []) :
    ∃ localRows, localRows 0 [] = none ∧ SharesOut n input localRows := by
  obtain ⟨n, rfl⟩ := Nat.exists_eq_succ_of_ne_zero hn.ne'
  let localRows (i : Nat) (rows : List Row) : Option (List Row) :=
    if i = 0 then if rows = [] then none else some rows else some []
  refine ⟨localRows, rfl, fun i => if i = 0 then input.commits.map Commit.row else [],
    fun i _ => ?_, ?_⟩
  · cases i with
    | zero => exact if_neg fun hnil => hne (List.map_eq_nil_iff.1 hnil)
    | succ i => rfl
  · rw [List.range_succ_eq_map, List.flatMap_cons, if_pos rfl, List.flatMap_map,
      List.flatMap_eq_nil_iff.2 fun i _ => if_neg i.succ_ne_zero, List.append_nil]

theorem isRow_iff {v : BitVec 32} {table : List Row} (h : table.length < 2 ^ 63) :
    IsRow v table ↔ sizeT v < table.length := (sizeT_lt_iff h).symm

section Unknown

variable (hprojects : input.projects.length < 2 ^ 63) (husers : input.users.length < 2 ^ 63)
include hprojects husers

/-- The unknown users and the projects tagged on their account. -/
theorem projectsOf_eq_union (users : Finset Nat) : input.projectsOf input.commits users =
    input.known.projectsOf input.known.commits users ∪ input.projectsOf input.commits ∅ := by
  ext i
  simp only [Finset.mem_union, Input.projectsOf, mem_tags, Input.known, List.mem_filter,
    decide_eq_true_iff, Input.Known, isRow_iff hprojects, isRow_iff husers, Function.comp_apply]
  constructor
  · rintro ⟨hi, c, hc, hauthor, rfl⟩
    by_cases hlt : sizeT c.author < input.users.length
    · exact .inl ⟨hi, c, ⟨hc, hi, hlt⟩, hauthor, rfl⟩
    · exact .inr ⟨hi, c, hc, .inr (not_lt.1 hlt), rfl⟩
  · rintro (⟨hi, c, ⟨hc, -⟩, hauthor, rfl⟩ | ⟨hi, c, hc, hauthor, rfl⟩)
    · exact ⟨hi, c, hc, hauthor, rfl⟩
    · exact ⟨hi, c, hc, hauthor.imp_left fun h => absurd h (Finset.notMem_empty _), rfl⟩

theorem usersOf_eq_union (projects : Finset Nat) : input.usersOf input.commits projects =
    input.known.usersOf input.known.commits projects ∪ input.usersOf input.commits ∅ := by
  ext i
  simp only [Finset.mem_union, Input.usersOf, mem_tags, Input.known, List.mem_filter,
    decide_eq_true_iff, Input.Known, isRow_iff hprojects, isRow_iff husers, Function.comp_apply]
  constructor
  · rintro ⟨hi, c, hc, hpid, rfl⟩
    by_cases hlt : sizeT c.pid < input.projects.length
    · exact .inl ⟨hi, c, ⟨hc, hlt, hi⟩, hpid, rfl⟩
    · exact .inr ⟨hi, c, hc, .inr (not_lt.1 hlt), rfl⟩
  · rintro (⟨hi, c, ⟨hc, -⟩, hpid, rfl⟩ | ⟨hi, c, hc, hpid, rfl⟩)
    · exact ⟨hi, c, hc, hpid, rfl⟩
    · exact ⟨hi, c, hc, hpid.imp_left fun h => absurd h (Finset.notMem_empty _), rfl⟩

/-- Unknown projects and users make no difference if and only if what is tagged on their
    account in the first step is tagged anyway. -/
theorem ignores_iff_subset (hn : 0 < n) (hne : input.known.commits ≠ [])
    (hshare : SharesOut n input localRows) :
    Ignores n input localRows ↔
      input.projectsOf input.commits ∅ ⊆
          committedTo input.known.commits {sizeT input.linus} ∧
        input.usersOf input.commits ∅ ⊆
          authorsOf input.known.commits (committedTo input.known.commits {sizeT input.linus}) := by
  have hknown : ∀ c ∈ input.known.commits, input.known.Known c :=
    fun c hc => of_decide_eq_true (List.mem_filter.1 hc).2
  have hiff := SemiNaive.naive_union_eq_iff (input.known.projectsOf_union input.known.commits)
    (input.known.usersOf_union input.known.commits) {sizeT input.linus}
    (input.usersOf input.commits ∅) (input.projectsOf input.commits ∅)
  rw [← funext (projectsOf_eq_union hprojects husers), ← funext (usersOf_eq_union hprojects husers),
    projectsOf_of_known hknown, usersOf_of_known hknown] at hiff
  rw [← hiff]
  constructor
  · intro h k
    -- the rows can be shared out, so that there are runs to compare
    obtain ⟨localRows', hfails, hshare'⟩ := exists_sharesOut hn hne
    obtain ⟨-, -, s, hrun, hs⟩ := run_finishes hshare k .refl
    obtain ⟨-, -, s', hrun', hs'⟩ := run_finishes hshare' k .refl
    obtain ⟨hpSet, huSet⟩ :=
      h k localRows' hfails hshare' s s' hrun hrun' ⟨0, hn⟩ _ _ (hs _) (hs' _)
    rw [← vals_fields, hpSet, huSet]
    exact vals_fields input.known k
  · intro h k localRows' _ hshare' s s' hrun hrun' i l l' hl hl'
    obtain ⟨-, hret, -⟩ := run_finishes hshare k hrun
    obtain ⟨-, hret', -⟩ := run_finishes hshare' k hrun'
    rw [hret i l hl, hret' i l' hl']
    have hvals := (vals_fields input k).trans ((h k).trans (vals_fields input.known k).symm)
    exact ⟨(Prod.mk.inj hvals).2, (Prod.mk.inj hvals).1⟩

end Unknown

theorem mem_authorsOf_known {projects : Finset Nat} {i : Nat} :
    i ∈ authorsOf input.known.commits projects ↔
      ∃ c ∈ input.commits, input.Known c ∧ sizeT c.pid ∈ projects ∧ sizeT c.author = i := by
  simp only [authorsOf, Input.known, List.mem_toFinset, List.mem_map, List.mem_filter,
    decide_eq_true_iff, and_assoc]

/-- The projects that known commits by `LINUS` are to. -/
theorem mem_committedTo_linus {i : Nat} : i ∈ committedTo input.known.commits {sizeT input.linus} ↔
    ∃ c ∈ input.commits, input.Known c ∧ sizeT c.pid = i ∧ c.author = input.linus := by
  simp only [committedTo, Input.known, List.mem_toFinset, List.mem_map, List.mem_filter,
    decide_eq_true_iff, Finset.mem_singleton, sizeT_injective.eq_iff]
  exact ⟨fun ⟨c, ⟨⟨hc, hknown⟩, hauthor⟩, hi⟩ => ⟨c, hc, hknown, hi, hauthor⟩,
    fun ⟨c, hc, hknown, hi, hauthor⟩ => ⟨c, ⟨⟨hc, hknown⟩, hauthor⟩, hi⟩⟩

/-- Commits that mention unknown projects or users are ignored, in any number of steps, if
    and only if every project with a commit by an unknown user also has one by `LINUS`,
    and every user who authored a commit to an unknown project also authored one to a
    project with a commit by `LINUS`. Some commit is of a known project and a known user,
    so that the table without the others has rows. -/
theorem ignores_iff (n : Nat) (input : Input) (localRows : Nat → List Row → Option (List Row))
    (hn : 0 < n) (hprojects : input.projects.length < 2 ^ 63)
    (husers : input.users.length < 2 ^ 63) (hne : ∃ c ∈ input.commits, input.Known c)
    (hshare : SharesOut n input localRows) : Ignores n input localRows ↔
      (∀ c ∈ input.commits, IsRow c.pid input.projects → ¬IsRow c.author input.users →
        ∃ c' ∈ input.commits, input.Known c' ∧ c'.pid = c.pid ∧ c'.author = input.linus) ∧
      ∀ c ∈ input.commits, IsRow c.author input.users → ¬IsRow c.pid input.projects →
        ∃ c' ∈ input.commits, input.Known c' ∧ c'.author = c.author ∧
          ∃ c'' ∈ input.commits, input.Known c'' ∧ c''.pid = c'.pid ∧ c''.author = input.linus := by
  have hne' : input.known.commits ≠ [] := by
    obtain ⟨c, hc, hknown⟩ := hne
    exact List.ne_nil_of_mem (List.mem_filter.2 ⟨hc, decide_eq_true hknown⟩)
  rw [ignores_iff_subset hprojects husers hn hne' hshare]
  refine and_congr ?_ ?_
  · constructor
    · -- The project of a commit by an unknown user is tagged in the first step.
      intro hsub c hc hpid hauthor
      rw [isRow_iff husers, not_lt] at hauthor
      have hmem : sizeT c.pid ∈ input.projectsOf input.commits ∅ :=
        mem_tags.2 ⟨hpid.sizeT_lt, c, hc, .inr hauthor, rfl⟩
      obtain ⟨c', hc', hknown, heq, hlinus⟩ := mem_committedTo_linus.1 (hsub hmem)
      exact ⟨c', hc', hknown, sizeT_injective heq, hlinus⟩
    · intro h i hi
      obtain ⟨hlt, c, hc, hfrom, rfl⟩ := mem_tags.1 hi
      have hauthor : ¬IsRow c.author input.users := by
        rw [isRow_iff husers, not_lt]
        exact hfrom.resolve_left (Finset.notMem_empty _)
      obtain ⟨c', hc', hknown, heq, hlinus⟩ := h c hc ((isRow_iff hprojects).2 hlt) hauthor
      exact mem_committedTo_linus.2 ⟨c', hc', hknown, congrArg sizeT heq, hlinus⟩
  · constructor
    · -- The author of a commit to an unknown project is tagged in the first step.
      intro hsub c hc hauthor hpid
      rw [isRow_iff hprojects, not_lt] at hpid
      have hmem : sizeT c.author ∈ input.usersOf input.commits ∅ :=
        mem_tags.2 ⟨hauthor.sizeT_lt, c, hc, .inr hpid, rfl⟩
      obtain ⟨c', hc', hknown, hproject, heq⟩ := mem_authorsOf_known.1 (hsub hmem)
      obtain ⟨c'', hc'', hknown', heq', hlinus⟩ := mem_committedTo_linus.1 hproject
      exact ⟨c', hc', hknown, sizeT_injective heq, c'', hc'', hknown', sizeT_injective heq', hlinus⟩
    · intro h i hi
      obtain ⟨hlt, c, hc, hfrom, rfl⟩ := mem_tags.1 hi
      have hpid : ¬IsRow c.pid input.projects := by
        rw [isRow_iff hprojects, not_lt]
        exact hfrom.resolve_left (Finset.notMem_empty _)
      obtain ⟨c', hc', hknown, heq, c'', hc'', hknown', heq', hlinus⟩ :=
        h c hc ((isRow_iff husers).2 hlt) hpid
      exact mem_authorsOf_known.2 ⟨c', hc', hknown,
        mem_committedTo_linus.2 ⟨c'', hc'', hknown', congrArg sizeT heq', hlinus⟩,
        congrArg sizeT heq⟩

/-- Four projects, five users and commits of the users 2, 3 and 4 to the projects 2 and 3, and
    two of an unknown user and to an unknown project that make no difference. -/
def sixCommits : Input where
  projects := [⟨[]⟩, ⟨[]⟩, ⟨[]⟩, ⟨[]⟩]
  users := [⟨[]⟩, ⟨[]⟩, ⟨[]⟩, ⟨[]⟩, ⟨[]⟩]
  commits := [⟨2, 2, 2⟩, ⟨2, 3, 2⟩, ⟨3, 3, 2⟩, ⟨3, 4, 2⟩, ⟨2, 9, 2⟩, ⟨-1, 3, 2⟩]
  linus := 2

theorem ignores_iff_sixCommits : Ignores 2 sixCommits halves := by
  have hshare : SharesOut 2 sixCommits halves := sharesOut_halves (List.cons_ne_nil _ _)
  exact (ignores_iff 2 sixCommits halves (by decide) (by decide) (by decide) (by decide) hshare).2
    (by decide)

/-- A commit by an unknown user, and a commit that `LINUS` has nothing to do with. -/
def strayCommit : Input where
  projects := [⟨[]⟩, ⟨[]⟩, ⟨[]⟩, ⟨[]⟩]
  users := [⟨[]⟩, ⟨[]⟩, ⟨[]⟩, ⟨[]⟩]
  commits := [⟨2, 5, 2⟩, ⟨3, 2, 2⟩]
  linus := 3

/-- The project of the unknown user is tagged. -/
theorem ignores_fails : (∃ c ∈ strayCommit.commits, strayCommit.Known c) ∧
    SharesOut 2 strayCommit halves ∧ ¬Ignores 2 strayCommit halves := by
  have hknown : ∃ c ∈ strayCommit.commits, strayCommit.Known c := by decide
  have hshare : SharesOut 2 strayCommit halves := sharesOut_halves (List.cons_ne_nil _ _)
  refine ⟨hknown, hshare, fun h => ?_⟩
  have hsub := ((ignores_iff_subset (by decide) (by decide) Nat.two_pos (by decide) hshare).1 h).1
  have hnot : ¬strayCommit.projectsOf strayCommit.commits ∅ ⊆
      committedTo strayCommit.known.commits {sizeT strayCommit.linus} := by decide
  exact hnot hsub

end Eau2.Linus

import Mathlib.Logic.Function.Basic
import Mathlib.Data.List.Induction
import Mathlib.Control.Basic
import Mathlib.Data.Set.Basic

/-!
# Programs over a keyed store

A program (`Prog κ ν α`) computes a value of `α` with a store mapping the keys
`κ` to values of `ν`, through three operations: `put`, `get`, which takes the
presence of its key for granted, and `waitAndGet`, which blocks until its key is
there. A program is a tree branching on the values read; it is the code of a
thread, to be interpreted by whatever provides the store.

* `Prog.run`: a program alone, on a map;
* `Prog.putAll`: the programs that only write, with the writes they issue;
* `Prog.MayPut`, `Prog.MustPut`: whether some branch, or every branch, writes a
  key;
* `Prog.Does spec p as a`: the rule for threads that share a store in which every
  key is written with the one value `spec` foretells: the accesses they make,
  one after the other, and what they return.
-/

/-- A program over a store: a value, a failed assertion, or an operation and
    what comes after it. -/
inductive Prog (κ ν α : Type) where
  | ret (a : α)
  | fail
  | put (k : κ) (v : ν) (next : Prog κ ν α)
  | get (k : κ) (next : ν → Prog κ ν α)
  | waitAndGet (k : κ) (next : ν → Prog κ ν α)

namespace Prog

variable {κ ν α β γ : Type}

/-- Sequencing: the program `f a` where `p` returns `a`. -/
def bind : Prog κ ν α → (α → Prog κ ν β) → Prog κ ν β
  | ret a, f => f a
  | fail, _ => fail
  | put k v next, f => put k v (next.bind f)
  | get k next, f => get k fun v => (next v).bind f
  | waitAndGet k next, f => waitAndGet k fun v => (next v).bind f

instance : Monad (Prog κ ν) where
  pure := ret
  bind := bind

@[simp] theorem pure_eq (a : α) : (pure a : Prog κ ν α) = ret a := rfl
@[simp] theorem ret_bind (a : α) (f : α → Prog κ ν β) : (ret a >>= f) = f a := rfl
@[simp] theorem fail_bind (f : α → Prog κ ν β) : ((fail : Prog κ ν α) >>= f) = fail := rfl
@[simp] theorem put_bind (k : κ) (v : ν) (p : Prog κ ν α) (f : α → Prog κ ν β) :
    (put k v p >>= f) = put k v (p >>= f) := rfl
@[simp] theorem get_bind (k : κ) (next : ν → Prog κ ν α) (f : α → Prog κ ν β) :
    (get k next >>= f) = get k fun v => next v >>= f := rfl
@[simp] theorem waitAndGet_bind (k : κ) (next : ν → Prog κ ν α) (f : α → Prog κ ν β) :
    (waitAndGet k next >>= f) = waitAndGet k fun v => next v >>= f := rfl

theorem bind_ret (p : Prog κ ν α) : (p >>= ret) = p := by
  induction p with
  | ret a => rfl
  | fail => rfl
  | put k v next ih => rw [put_bind, ih]
  | get k next ih => rw [get_bind, funext ih]
  | waitAndGet k next ih => rw [waitAndGet_bind, funext ih]

theorem bind_assoc (p : Prog κ ν α) (f : α → Prog κ ν β) (g : β → Prog κ ν γ) :
    ((p >>= f) >>= g) = (p >>= fun a => f a >>= g) := by
  induction p with
  | ret a => rfl
  | fail => rfl
  | put k v next ih => rw [put_bind, put_bind, put_bind, ih]
  | get k next ih => rw [get_bind, get_bind, get_bind, funext ih]
  | waitAndGet k next ih => rw [waitAndGet_bind, waitAndGet_bind, waitAndGet_bind, funext ih]

instance : LawfulMonad (Prog κ ν) :=
  LawfulMonad.mk' _ bind_ret (fun _ _ => rfl) bind_assoc

/-- The value of a computation that may fail an assertion. -/
def ofOption : Option α → Prog κ ν α
  | some a => ret a
  | none => fail

@[simp] theorem ofOption_some (a : α) : (ofOption (some a) : Prog κ ν α) = ret a := rfl
@[simp] theorem ofOption_none : (ofOption none : Prog κ ν α) = fail := rfl

instance : MonadLift Option (Prog κ ν) := ⟨ofOption⟩

instance : LawfulMonadLift Option (Prog κ ν) where
  monadLift_pure _ := rfl
  monadLift_bind x _ := by cases x <;> rfl

/-- An assertion. -/
def assert (c : Prop) [Decidable c] : Prog κ ν Unit :=
  if c then ret () else fail

theorem assert_true {c : Prop} [Decidable c] (h : c) :
    (assert c : Prog κ ν Unit) = ret () := if_pos h
theorem assert_false {c : Prop} [Decidable c] (h : ¬c) :
    (assert c : Prog κ ν Unit) = fail := if_neg h

/-! ## A program alone -/

/-- The run of a program on the map `m`: the value it returns and the map it
    leaves. Reading an absent key fails, as nobody else will write it. -/
def run [DecidableEq κ] : Prog κ ν α → (κ → Option ν) → Option (α × (κ → Option ν))
  | ret a, m => some (a, m)
  | fail, _ => none
  | put k v next, m => next.run (Function.update m k (some v))
  | get k next, m | waitAndGet k next, m =>
    match m k with
    | some v => (next v).run m
    | none => none

section Run

variable [DecidableEq κ]

@[simp] theorem run_ret (a : α) (m : κ → Option ν) : (ret a).run m = some (a, m) := rfl
@[simp] theorem run_fail (m : κ → Option ν) : (fail : Prog κ ν α).run m = none := rfl

theorem run_get {k : κ} {v : ν} {next : ν → Prog κ ν α} {m : κ → Option ν} (h : m k = some v) :
    (get k next).run m = (next v).run m := by
  rw [run, h]

theorem run_bind (p : Prog κ ν α) (f : α → Prog κ ν β) (m : κ → Option ν) :
    (p >>= f).run m = (p.run m).bind fun r => (f r.1).run r.2 := by
  induction p generalizing m with
  | ret a => rfl
  | fail => rfl
  | put k v next ih => exact ih _
  | get k next ih | waitAndGet k next ih =>
    simp only [get_bind, waitAndGet_bind, run]
    cases m k with
    | none => rfl
    | some v => exact ih v m

end Run

/-! ## Programs that only write -/

/-- Writing the pairs `ps`, in order, and then going on as `p`. -/
def putAll (ps : List (κ × ν)) (p : Prog κ ν α) : Prog κ ν α :=
  ps.foldr (fun kv next => put kv.1 kv.2 next) p

@[simp] theorem putAll_nil (p : Prog κ ν α) : putAll [] p = p := rfl

@[simp] theorem putAll_cons (kv : κ × ν) (ps : List (κ × ν)) (p : Prog κ ν α) :
    putAll (kv :: ps) p = put kv.1 kv.2 (putAll ps p) := rfl

theorem putAll_append (ps qs : List (κ × ν)) (p : Prog κ ν α) :
    putAll (ps ++ qs) p = putAll ps (putAll qs p) := by
  rw [putAll, putAll, putAll, List.foldr_append]

theorem putAll_bind (ps : List (κ × ν)) (p : Prog κ ν α) (f : α → Prog κ ν β) :
    (putAll ps p >>= f) = putAll ps (p >>= f) := by
  induction ps with
  | nil => rfl
  | cons kv ps ih => rw [putAll_cons, put_bind, ih, putAll_cons]

/-- What a program that only writes has written and returns. -/
def writes : Prog κ ν α → Option (List (κ × ν) × α)
  | ret a => some ([], a)
  | put k v next => next.writes.map fun r => ((k, v) :: r.1, r.2)
  | fail | get _ _ | waitAndGet _ _ => none

@[simp] theorem writes_putAll (ps : List (κ × ν)) (a : α) : (putAll ps (ret a)).writes =
    some (ps, a) := by
  induction ps with
  | nil => rfl
  | cons kv ps ih => rw [putAll_cons, writes, ih, Option.map_some]

/-- What a sequence of programs that only write has written. -/
theorem writes_bind (p : Prog κ ν α) (f : α → Prog κ ν β) :
    (p >>= f).writes = p.writes.bind fun r => (f r.2).writes.map fun r' => (r.1 ++ r'.1, r'.2) := by
  induction p with
  | ret a =>
    rw [ret_bind, writes, Option.bind_some]
    cases (f a).writes <;> rfl
  | fail | get _ _ _ | waitAndGet _ _ _ => rfl
  | put k v next ih =>
    rw [put_bind, writes, ih, writes]
    cases next.writes with
    | none => rfl
    | some r => simp only [Option.bind_some, Option.map_some, Option.map_map]; rfl

theorem writes_bind_eq_some {p : Prog κ ν α} {f : α → Prog κ ν β} {ps : List (κ × ν)} {b : β} :
    (p >>= f).writes = some (ps, b) ↔ ∃ ps₁ a ps₂, p.writes = some (ps₁, a) ∧
      (f a).writes = some (ps₂, b) ∧ ps = ps₁ ++ ps₂ := by
  rw [writes_bind]
  constructor
  · intro h
    obtain ⟨⟨ps₁, a⟩, hp, h⟩ := Option.bind_eq_some_iff.1 h
    obtain ⟨⟨ps₂, b'⟩, hf, heq⟩ := Option.map_eq_some_iff.1 h
    cases heq
    exact ⟨ps₁, a, ps₂, hp, hf, rfl⟩
  · rintro ⟨ps₁, a, ps₂, hp, hf, rfl⟩
    rw [hp, Option.bind_some, hf, Option.map_some]

theorem writes_ofOption {o : Option α} {ps : List (κ × ν)} {a : α} :
    (ofOption o).writes = some (ps, a) ↔ o = some a ∧ ps = [] := by
  cases o with
  | none => simp [writes]
  | some a' => simp [writes, and_comm, eq_comm]

theorem writes_assert {c : Prop} [Decidable c] {ps : List (κ × ν)} {u : Unit} :
    (assert c : Prog κ ν Unit).writes = some (ps, u) ↔ c ∧ ps = [] := by
  by_cases h : c
  · rw [assert_true h]
    simp [writes, h, eq_comm]
  · rw [assert_false h]
    simp [writes, h]

/-- What a loop over a list returns comes from its turns. -/
theorem exists_of_writes_mapM {f : γ → Prog κ ν β} {xs : List γ} {ps : List (κ × ν)} {ys : List β}
    (hw : (xs.mapM f).writes = some (ps, ys)) {y : β} (hy : y ∈ ys) :
    ∃ x ∈ xs, ∃ qs, (f x).writes = some (qs, y) := by
  induction xs generalizing ps ys with
  | nil =>
    cases hw
    cases hy
  | cons x xs ih =>
    rw [List.mapM_cons] at hw
    obtain ⟨qs, y', _, hx, hrest, -⟩ := writes_bind_eq_some.1 hw
    obtain ⟨_, ys', _, hxs, hret, -⟩ := writes_bind_eq_some.1 hrest
    cases hret
    rcases List.mem_cons.1 hy with rfl | hmem
    · exact ⟨x, List.mem_cons_self, qs, hx⟩
    · obtain ⟨x', hx', h⟩ := ih hxs hmem
      exact ⟨x', List.mem_cons_of_mem _ hx', h⟩

/-- The map left by writing the pairs `ps`, in order, on the map `m`. -/
def writeAll [DecidableEq κ] (ps : List (κ × ν)) (m : κ → Option ν) : κ → Option ν :=
  ps.foldl (fun m kv => Function.update m kv.1 (some kv.2)) m

theorem writeAll_concat [DecidableEq κ] (ps : List (κ × ν)) (kv : κ × ν) (m : κ → Option ν) :
    writeAll (ps ++ [kv]) m = Function.update (writeAll ps m) kv.1 (some kv.2) := by
  rw [writeAll, List.foldl_append]
  rfl

theorem run_putAll [DecidableEq κ] (ps : List (κ × ν)) (a : α) (m : κ → Option ν) :
    (putAll ps (ret a)).run m = some (a, writeAll ps m) := by
  induction ps generalizing m with
  | nil => rfl
  | cons kv ps ih => exact ih _

/-- What is written at a key is what was written there last. -/
theorem writeAll_map [DecidableEq κ] (f : Nat → κ × ν) (m : κ → Option ν) {j k : Nat} (hj : j < k) :
    ∃ i, j ≤ i ∧ i < k ∧ (f i).1 = (f j).1 ∧
      writeAll ((List.range k).map f) m (f j).1 = some (f i).2 := by
  induction k with
  | zero => exact absurd hj (Nat.not_lt_zero j)
  | succ k ih =>
    have hsucc : writeAll ((List.range (k + 1)).map f) m =
        Function.update (writeAll ((List.range k).map f) m) (f k).1 (some (f k).2) := by
      rw [List.range_succ, List.map_append, List.map_singleton, writeAll_concat]
    rw [hsucc]
    by_cases hkey : (f k).1 = (f j).1
    · exact ⟨k, Nat.le_of_lt_succ hj, k.lt_succ_self, hkey, by rw [hkey, Function.update_self]⟩
    · obtain ⟨i, hji, hik, heq, hw⟩ := ih (Nat.lt_of_le_of_ne (Nat.le_of_lt_succ hj) fun h =>
        hkey (h ▸ rfl))
      exact ⟨i, hji, hik.trans k.lt_succ_self, heq,
        by rw [Function.update_of_ne (Ne.symm hkey), hw]⟩

/-- The map has the pairs `ps`. -/
def Holds (ps : List (κ × ν)) (m : κ → Option ν) : Prop := ∀ kv ∈ ps, m kv.1 = some kv.2

/-- Pairs that agree where their keys do are all there once they have been written. -/
theorem holds_writeAll [DecidableEq κ] {ps : List (κ × ν)}
    (h : ∀ kv ∈ ps, ∀ kv' ∈ ps, kv.1 = kv'.1 → kv = kv') (m : κ → Option ν) :
    Holds ps (writeAll ps m) := by
  induction ps using List.reverseRecOn with
  | nil => exact List.forall_mem_nil _
  | append_singleton ps last ih =>
    intro kv hkv
    rw [writeAll_concat]
    by_cases hkey : kv.1 = last.1
    · rw [h kv hkv last (List.mem_append_right _ List.mem_cons_self) hkey, Function.update_self]
    · rw [Function.update_of_ne hkey]
      refine ih (fun kv₁ h₁ kv₂ h₂ => ?_) kv ?_
      · exact h kv₁ (List.mem_append_left _ h₁) kv₂ (List.mem_append_left _ h₂)
      · refine (List.mem_append.1 hkv).resolve_right fun hlast => hkey ?_
        rw [List.mem_singleton.1 hlast]

/-- What is in the map has been written, or was there before. -/
theorem mem_of_writeAll [DecidableEq κ] {ps : List (κ × ν)} {m : κ → Option ν} {k : κ} {v : ν}
    (h : writeAll ps m k = some v) : (k, v) ∈ ps ∨ m k = some v := by
  induction ps generalizing m with
  | nil => exact .inr h
  | cons kv ps ih =>
    rcases ih h with hmem | hold
    · exact .inl (List.mem_cons_of_mem _ hmem)
    · have hupdate : Function.update m kv.1 (some kv.2) k = some v := hold
      by_cases hk : k = kv.1
      · subst hk
        rw [Function.update_self, Option.some.injEq] at hupdate
        subst hupdate
        exact .inl List.mem_cons_self
      · rw [Function.update_of_ne hk] at hupdate
        exact .inr hupdate

/-- Pairs with distinct keys are all in the map they make. -/
theorem holds_lookup [DecidableEq κ] {ps : List (κ × ν)} (h : (ps.map Prod.fst).Nodup) :
    Holds ps fun k => ps.lookup k := by
  intro kv hkv
  induction ps with
  | nil => cases hkv
  | cons kv' ps ih =>
    rw [List.map_cons, List.nodup_cons] at h
    rcases List.mem_cons.1 hkv with rfl | hmem
    · exact List.lookup_cons_self
    · have hne : kv.1 ≠ kv'.1 := fun heq => h.1 (heq ▸ List.mem_map_of_mem hmem)
      show (kv' :: ps).lookup kv.1 = some kv.2
      rw [List.lookup_cons, beq_false_of_ne hne]
      exact ih h.2 hmem

/-! ## What a program writes -/

/-- Some branch of the program writes `k`. -/
def MayPut (k : κ) : Prog κ ν α → Prop
  | ret _ | fail => False
  | put k' _ next => k' = k ∨ next.MayPut k
  | get _ next | waitAndGet _ next => ∃ v, (next v).MayPut k

/-- Every branch of the program writes `k`. -/
def MustPut (k : κ) : Prog κ ν α → Prop
  | ret _ | fail => False
  | put k' _ next => k' = k ∨ next.MustPut k
  | get _ next | waitAndGet _ next => ∀ v, (next v).MustPut k

/-- What every branch writes, some branch does. -/
theorem MustPut.mayPut [Nonempty ν] {k : κ} {p : Prog κ ν α} (h : p.MustPut k) : p.MayPut k := by
  induction p with
  | ret a => exact h.elim
  | fail => exact h.elim
  | put k' v next ih => exact h.imp id ih
  | get k' next ih | waitAndGet k' next ih =>
    obtain ⟨v⟩ := ‹Nonempty ν›
    exact ⟨v, ih v (h v)⟩

/-! ## Programs that only read -/

/-- The only operations of the program are `get`s of keys of `S`. -/
def Gets (S : Set κ) : Prog κ ν α → Prop
  | ret _ | fail => True
  | get k next => k ∈ S ∧ ∀ v, (next v).Gets S
  | put _ _ _ | waitAndGet _ _ => False

variable {S : Set κ}

theorem Gets.bind {p : Prog κ ν α} {f : α → Prog κ ν β} (hp : p.Gets S) (hf : ∀ a, (f a).Gets S) :
    (p >>= f).Gets S := by
  induction p with
  | ret a => exact hf a
  | fail => trivial
  | get k next ih => exact ⟨hp.1, fun v => ih v (hp.2 v)⟩
  | put _ _ _ _ | waitAndGet _ _ _ => exact hp.elim

theorem Gets.mono {S' : Set κ} (hsub : S ⊆ S') {p : Prog κ ν α} (hp : p.Gets S) : p.Gets S' := by
  induction p with
  | ret _ | fail => trivial
  | get k next ih => exact ⟨hsub hp.1, fun v => ih v (hp.2 v)⟩
  | put _ _ _ _ | waitAndGet _ _ _ => exact hp.elim

theorem gets_ofOption (o : Option α) : (ofOption o : Prog κ ν α).Gets S := by
  cases o <;> trivial

theorem gets_assert (c : Prop) [Decidable c] : (assert c : Prog κ ν Unit).Gets S := by
  rw [assert]
  split_ifs <;> trivial

/-! ## Programs of a single-assignment store -/

/-- An access of a program to the store. -/
inductive Access (κ : Type)
  | put (k : κ)
  | get (k : κ)
  | wait (k : κ)

/-- The key of an access. -/
def Access.key : Access κ → κ
  | put k | get k | wait k => k

/-- Against a store that holds the value `spec` at every key that has been
    written, the program makes the accesses listed, writes values of `spec`, and
    returns `a`. -/
inductive Does (spec : κ → ν) : Prog κ ν α → List (Access κ) → α → Prop
  | ret (a : α) : Does spec (ret a) [] a
  | put {k : κ} {next : Prog κ ν α} {as : List (Access κ)} {a : α} (h : Does spec next as a) :
      Does spec (put k (spec k) next) (.put k :: as) a
  | get {k : κ} {next : ν → Prog κ ν α} {as : List (Access κ)} {a : α}
      (h : Does spec (next (spec k)) as a) : Does spec (get k next) (.get k :: as) a
  | wait {k : κ} {next : ν → Prog κ ν α} {as : List (Access κ)} {a : α}
      (h : Does spec (next (spec k)) as a) : Does spec (waitAndGet k next) (.wait k :: as) a

namespace Does

variable {spec : κ → ν}

theorem bind {p : Prog κ ν α} {f : α → Prog κ ν β} {as bs : List (Access κ)} {a : α} {b : β}
    (hp : p.Does spec as a) (hf : (f a).Does spec bs b) : (p >>= f).Does spec (as ++ bs) b := by
  induction hp with
  | ret a => exact hf
  | put _ ih => exact .put (ih hf)
  | get _ ih => exact .get (ih hf)
  | wait _ ih => exact .wait (ih hf)

/-- A program that only writes, and writes values of `spec`. -/
theorem of_writes {p : Prog κ ν α} {ps : List (κ × ν)} {a : α} (hw : p.writes = some (ps, a))
    (hspec : ∀ kv ∈ ps, spec kv.1 = kv.2) : p.Does spec (ps.map fun kv => .put kv.1) a := by
  induction p generalizing ps with
  | ret _ =>
    cases hw
    exact .ret _
  | fail | get _ _ _ | waitAndGet _ _ _ => cases hw
  | put k v next ih =>
    obtain ⟨⟨ps', a'⟩, hnext, heq⟩ := Option.map_eq_some_iff.1 hw
    cases heq
    rw [List.forall_mem_cons] at hspec
    have hv : v = spec k := hspec.1.symm
    rw [hv]
    exact .put (ih hnext hspec.2)

/-- A program that only reads, run on a map with values of `spec`. -/
theorem of_run [DecidableEq κ] {p : Prog κ ν α} {m m' : κ → Option ν} {a : α} {S : Set κ}
    (hp : p.Gets S) (hrun : p.run m = some (a, m')) (hm : ∀ k v, m k = some v → spec k = v) :
    ∃ ks : List κ, (∀ k ∈ ks, k ∈ S ∧ (m k).isSome) ∧ p.Does spec (ks.map .get) a := by
  induction p with
  | ret _ =>
    cases hrun
    exact ⟨[], List.forall_mem_nil _, .ret _⟩
  | fail => cases hrun
  | put _ _ _ _ | waitAndGet _ _ _ => exact hp.elim
  | get k next ih =>
    rw [run] at hrun
    cases hk : m k with
    | none =>
      rw [hk] at hrun
      cases hrun
    | some v =>
      rw [hk] at hrun
      obtain ⟨ks, hks, hdoes⟩ := ih v (hp.2 v) hrun
      refine ⟨k :: ks, List.forall_mem_cons.2 ⟨⟨hp.1, by rw [hk]; rfl⟩, hks⟩, .get ?_⟩
      rwa [hm k v hk]

/-- A loop over a list, when every turn makes its accesses. -/
theorem foldlM {γ : Type} {f : β → γ → Prog κ ν β} {g : β → γ → β} {as : γ → List (Access κ)}
    {xs : List γ}
    (h : ∀ x ∈ xs, ∀ b, (f b x).Does spec (as x) (g b x)) (b : β) :
    (xs.foldlM f b).Does spec (xs.flatMap as) (xs.foldl g b) := by
  induction xs generalizing b with
  | nil => exact .ret b
  | cons x xs ih =>
    rw [List.forall_mem_cons] at h
    rw [List.foldlM_cons, List.flatMap_cons, List.foldl_cons]
    exact (h.1 b).bind (ih h.2 (g b x))

end Does

end Prog

import Mathlib.Algebra.BigOperators.Group.Finset.Basic
import Mathlib.Algebra.Order.BigOperators.Group.Finset
import Eau2.Lib.Prog
import Eau2.Lib.Run

/-!
# Programs that share a store

A pool of programs runs on one store, one operation of one program at a time, in any
order. A program waiting for an absent key is blocked.

Programs communicate by writing each key with the one value `spec` foretells, and by
waiting for keys. Whether that works in every interleaving is a matter of what each
program accesses, alone, against the store `spec` (`Prog.Does`): all that is
waited for has to be written by some program, and the keys have to be ordered in such
a way that a program waits for a key before it writes a later one. What is read without
waiting has to be there: a key may have parts, other keys that are always written before
it, so whoever has waited for the key may read them (`Supplied`). Such programs are
`Published`; those that wait for all they read are `Schedulable`. Then, in whatever order
the programs run:

* `Follows.eq_of_ret`: a program that is done returns what it returns against `spec`;
* `Follows.ne_fail`: none fails;
* `Follows.exists_step`: as long as one is not done, some program can move;
* `Follows.exists_done`: all of them can get done.
-/

open Function Prog

/-- The access to the key that `f` gives. -/
def Prog.Access.map {κ κ' : Type} (f : κ → κ') : Access κ → Access κ'
  | .put k => .put (f k)
  | .get k => .get (f k)
  | .wait k => .wait (f k)

theorem Prog.Access.map_eq_wait {κ κ' : Type} {f : κ → κ'} {a : Access κ} {k' : κ'} :
    a.map f = .wait k' ↔ ∃ k, a = .wait k ∧ f k = k' := by
  cases a <;> simp [Access.map]

theorem Prog.Access.map_eq_put {κ κ' : Type} {f : κ → κ'} {a : Access κ} {k' : κ'} :
    a.map f = .put k' ↔ ∃ k, a = .put k ∧ f k = k' := by
  cases a <;> simp [Access.map]

theorem Prog.Access.map_eq_get {κ κ' : Type} {f : κ → κ'} {a : Access κ} {k' : κ'} :
    a.map f = .get k' ↔ ∃ k, a = .get k ∧ f k = k' := by
  cases a <;> simp [Access.map]

/-- The key of a put. -/
def Prog.Access.putKey {κ : Type} : Access κ → Option κ
  | .put k => some k
  | _ => none

theorem Prog.Access.putKey_eq_some {κ : Type} {a : Access κ} {k : κ} :
    a.putKey = some k ↔ a = .put k := by
  cases a <;> simp [Access.putKey]

/-- The programs of a pool, and the store they share. -/
structure Pool (ι κ ν α : Type) where
  prog : ι → Prog κ ν α
  store : κ → Option ν

namespace Pool

variable {ι κ ν α : Type}

/-- The pool at the start, with nothing in the store. -/
def init (progs : ι → Prog κ ν α) : Pool ι κ ν α := ⟨progs, fun _ => none⟩

/-- With the keys `present` in the store, all is there that the accesses get: it has been put
    or waited for, or is a part of what has been waited for. A key is put after its parts. -/
def Supplied (parts : κ → Set κ) : Set κ → List (Access κ) → Prop
  | _, [] => True
  | present, .put k :: as => parts k ⊆ present ∧ Supplied parts (insert k present) as
  | present, .get k :: as => k ∈ present ∧ Supplied parts present as
  | present, .wait k :: as => Supplied parts (insert k present ∪ parts k) as

theorem Supplied.mono {parts : κ → Set κ} {present present' : Set κ} {as : List (Access κ)}
    (h : Supplied parts present as) (hsub : present ⊆ present') : Supplied parts present' as := by
  induction as generalizing present present' with
  | nil => trivial
  | cons a as ih =>
    cases a with
    | put k => exact ⟨h.1.trans hsub, ih h.2 (Set.insert_subset_insert hsub)⟩
    | get k => exact ⟨hsub h.1, ih h.2 hsub⟩
    | wait k => exact ih h (Set.union_subset_union_left _ (Set.insert_subset_insert hsub))

/-- Nothing is missing where nothing is got. -/
theorem supplied_of_not_get {present : Set κ} {as : List (Access κ)} (h : ∀ k, .get k ∉ as) :
    Supplied (fun _ => ∅) present as := by
  induction as generalizing present with
  | nil => trivial
  | cons a as ih =>
    have htail : ∀ k, .get k ∉ as := fun k hk => h k (List.mem_cons_of_mem a hk)
    cases a with
    | put k => exact ⟨Set.empty_subset _, ih htail⟩
    | get k => exact absurd List.mem_cons_self (h k)
    | wait k => exact ih htail

/-- The keys put, in order. -/
def putKeys (as : List (Access κ)) : List κ := as.filterMap Access.putKey

theorem mem_putKeys {as : List (Access κ)} {k : κ} : k ∈ putKeys as ↔ .put k ∈ as := by
  rw [putKeys, List.mem_filterMap]
  refine ⟨?_, fun h => ⟨_, h, rfl⟩⟩
  rintro ⟨a, ha, hk⟩
  rwa [← Access.putKey_eq_some.1 hk]

theorem putKeys_append (as bs : List (Access κ)) : putKeys (as ++ bs) = putKeys as ++ putKeys bs :=
  List.filterMap_append

theorem putKeys_puts (ps : List (κ × ν)) :
    putKeys (ps.map fun kv => .put kv.1) = ps.map Prod.fst := by
  rw [putKeys, List.filterMap_map]
  exact List.filterMap_eq_map_iff_forall_eq_some.2 fun kv _ => rfl

/-- A program that makes the accesses alone, with the keys `present` in the store, reads
    nothing that is not there: it is present, or has been put before. -/
def Available : Set κ → List (Access κ) → Prop
  | _, [] => True
  | present, .put k :: as => Available (insert k present) as
  | present, .get k :: as => k ∈ present ∧ Available present as
  | present, .wait k :: as => k ∈ present ∧ Available present as

theorem available_append {present : Set κ} {as bs : List (Access κ)} :
    Available present (as ++ bs) ↔
      Available present as ∧ Available (present ∪ {k | k ∈ putKeys as}) bs := by
  induction as generalizing present with
  | nil =>
    have hnone : present ∪ {k | k ∈ putKeys ([] : List (Access κ))} = present := by
      simp [putKeys]
    rw [hnone]
    exact (and_iff_right trivial).symm
  | cons a as ih =>
    cases a with
    | put k =>
      have hputs : present ∪ {k' | k' ∈ putKeys (.put k :: as)} =
          insert k present ∪ {k' | k' ∈ putKeys as} := by
        ext k'
        simp [mem_putKeys, or_left_comm, or_assoc]
      rw [hputs]
      exact ih
    | get k | wait k =>
      have hputs : putKeys (.get k :: as) = putKeys as ∧ putKeys (.wait k :: as) = putKeys as :=
        ⟨rfl, rfl⟩
      simp only [List.cons_append, Available, hputs.1, hputs.2, ih, and_assoc]

theorem available_of_puts {present : Set κ} {as : List (Access κ)}
    (h : ∀ a ∈ as, ∃ k, a = .put k) : Available present as := by
  induction as generalizing present with
  | nil => trivial
  | cons a as ih =>
    rw [List.forall_mem_cons] at h
    obtain ⟨⟨k, rfl⟩, h⟩ := h
    exact ih h

/-- No key is put twice, by one program or by two. -/
structure Once (as : ι → List (Access κ)) : Prop where
  nodup : ∀ i, (putKeys (as i)).Nodup
  eq_of_mem : ∀ i j k, .put k ∈ as i → .put k ∈ as j → i = j

/-- Programs that make the accesses `as` and return `r`, in such a way that they can make
    them in any interleaving, a key being written after its `parts`. -/
structure Published (spec : κ → ν) (rank : κ → Nat) (parts : κ → Set κ) (progs : ι → Prog κ ν α)
    (as : ι → List (Access κ)) (r : ι → α) : Prop where
  does : ∀ i, (progs i).Does spec (as i) (r i)
  /-- What a program waits for, some program writes. -/
  provided : ∀ i k, .wait k ∈ as i → ∃ j, .put k ∈ as j
  /-- What a program writes after it has waited for a key comes after this key. -/
  ordered : ∀ i, (as i).Pairwise fun a b => ∀ k k', a = .wait k → b = .put k' → rank k < rank k'
  /-- What a program reads is there when it does. -/
  supplied : ∀ i, Supplied parts ∅ (as i)

/-- Programs that make the accesses `as` and return `r`, in such a way that they can make
    them in any interleaving. -/
structure Schedulable (spec : κ → ν) (rank : κ → Nat) (progs : ι → Prog κ ν α)
    (as : ι → List (Access κ)) (r : ι → α) : Prop where
  does : ∀ i, (progs i).Does spec (as i) (r i)
  /-- What a program waits for, some program writes. -/
  provided : ∀ i k, .wait k ∈ as i → ∃ j, .put k ∈ as j
  /-- What a program writes after it has waited for a key comes after this key. -/
  ordered : ∀ i, (as i).Pairwise fun a b => ∀ k k', a = .wait k → b = .put k' → rank k < rank k'
  /-- Programs wait for what they read. -/
  not_get : ∀ i k, .get k ∉ as i

theorem Schedulable.published {spec : κ → ν} {rank : κ → Nat} {progs : ι → Prog κ ν α}
    {as : ι → List (Access κ)} {r : ι → α} (h : Schedulable spec rank progs as r) :
    Published spec rank (fun _ => ∅) progs as r :=
  ⟨h.does, h.provided, h.ordered, fun i => supplied_of_not_get (h.not_get i)⟩

/-- The keys may be the names of those that the accesses are listed by. -/
theorem Schedulable.of_names {κ' : Type} [Nonempty κ'] {name : κ' → κ}
    (hname : Injective name) (value : κ' → ν) (rank : κ' → Nat) {progs : ι → Prog κ ν α}
    {as : ι → List (Access κ')} {r : ι → α}
    (does : ∀ spec, (∀ k, spec (name k) = value k) →
      ∀ i, (progs i).Does spec ((as i).map (.map name)) (r i))
    (provided : ∀ i k, .wait k ∈ as i → ∃ j, .put k ∈ as j)
    (ordered : ∀ i, (as i).Pairwise fun a b =>
      ∀ k k', a = .wait k → b = .put k' → rank k < rank k')
    (not_get : ∀ i k, .get k ∉ as i) :
    ∃ spec rank, Schedulable spec rank progs (fun i => (as i).map (.map name)) r := by
  have hinv := leftInverse_invFun hname
  refine ⟨value ∘ invFun name, rank ∘ invFun name, does _ fun k => congrArg value
    (hinv k), ?_, ?_, ?_⟩
  · intro i k hk
    obtain ⟨a, ha, heq⟩ := List.mem_map.1 hk
    obtain ⟨k', rfl, rfl⟩ := Access.map_eq_wait.1 heq
    obtain ⟨j, hj⟩ := provided i k' ha
    exact ⟨j, List.mem_map_of_mem hj⟩
  · intro i
    refine List.pairwise_map.2 ((ordered i).imp fun {a b} h k k' ha hb => ?_)
    obtain ⟨κ, rfl, rfl⟩ := Access.map_eq_wait.1 ha
    obtain ⟨κ', rfl, rfl⟩ := Access.map_eq_put.1 hb
    rw [comp_apply, comp_apply, hinv, hinv]
    exact h κ κ' rfl rfl
  · intro i k hk
    obtain ⟨a, ha, heq⟩ := List.mem_map.1 hk
    obtain ⟨k', rfl, rfl⟩ := Access.map_eq_get.1 heq
    exact not_get i k' ha

/-- The programs are to make the accesses `rest`, and have made the others. -/
structure Follows (spec : κ → ν) (as : ι → List (Access κ)) (r : ι → α) (rest : ι → List (Access κ))
    (s : Pool ι κ ν α) : Prop where
  does : ∀ i, (s.prog i).Does spec (rest i) (r i)
  suffix : ∀ i, rest i <:+ as i
  store : ∀ k v, s.store k = some v → v = spec k
  present : ∀ i k, .put k ∈ as i → .put k ∈ rest i ∨ (s.store k).isSome

/-- What the programs are to get is there, or will be when they do. -/
structure Stocked (parts : κ → Set κ) (rest : ι → List (Access κ)) (s : Pool ι κ ν α) : Prop where
  supplied : ∀ i, Supplied parts {k | (s.store k).isSome} (rest i)
  parts : ∀ k, (s.store k).isSome → ∀ k' ∈ parts k, (s.store k').isSome

variable {spec : κ → ν} {rank : κ → Nat} {parts : κ → Set κ} {progs : ι → Prog κ ν α}
  {as rest : ι → List (Access κ)} {r : ι → α} {s s' : Pool ι κ ν α} {i : ι}

theorem Published.stocked_init (hs : Published spec rank parts progs as r) :
    Stocked parts as (init progs) where
  supplied i := (hs.supplied i).mono (Set.empty_subset _)
  parts _ h := by cases h

theorem Published.follows_init (hs : Published spec rank parts progs as r) :
    Follows spec as r as (init progs) where
  does := hs.does
  suffix _ := List.suffix_rfl
  store _ _ h := by cases h
  present _ _ h := .inl h

/-- What a program returns is what it returns alone. -/
theorem Follows.eq_of_ret (h : Follows spec as r rest s) {a : α} (hret : s.prog i = .ret a) :
    a = r i := by
  have hdoes := h.does i
  rw [hret] at hdoes
  generalize rest i = acc at hdoes
  generalize r i = b at hdoes
  cases hdoes
  rfl

theorem Follows.ne_fail (h : Follows spec as r rest s) : s.prog i ≠ .fail := by
  intro hfail
  have hdoes := h.does i
  rw [hfail] at hdoes
  cases hdoes

/-- Programs that wait for what they read have nothing missing. -/
theorem Follows.stocked (h : Follows spec as r rest s) (hs : Schedulable spec rank progs as r) :
    Stocked (fun _ => ∅) rest s where
  supplied i := supplied_of_not_get fun k hk => hs.not_get i k ((h.suffix i).subset hk)
  parts _ _ _ h := h.elim

/-! ## Moves -/

variable [DecidableEq ι]

/-- The program `i` has made the first of its accesses. -/
theorem Follows.advance (h : Follows spec as r rest s) {a : Access κ} {l : List (Access κ)}
    (hrest : rest i = a :: l) {p : Prog κ ν α} (hp : p.Does spec l (r i)) {store : κ → Option ν}
    (hstore : ∀ k v, store k = some v → v = spec k) (hmono : ∀ k, (s.store k).isSome →
      (store k).isSome)
    (hput : ∀ k, a = .put k → (store k).isSome) :
    Follows spec as r (update rest i l) ⟨update s.prog i p, store⟩ where
  does j := by
    change (update s.prog i p j).Does spec (update rest i l j) (r j)
    by_cases hj : j = i
    · subst hj
      rwa [update_self, update_self]
    · rw [update_of_ne hj, update_of_ne hj]
      exact h.does j
  suffix j := by
    by_cases hj : j = i
    · subst hj
      rw [update_self]
      exact (List.suffix_cons a l).trans (hrest ▸ h.suffix j)
    · rw [update_of_ne hj]
      exact h.suffix j
  store := hstore
  present j k hk := by
    refine (h.present j k hk).elim (fun hmem => ?_) fun hsome => .inr (hmono k hsome)
    by_cases hj : j = i
    · -- The key of the access made is in the store, the others are still to come.
      subst hj
      rw [hrest] at hmem
      rw [update_self]
      exact (List.mem_cons.1 hmem).elim (fun heq => .inr (hput k heq.symm)) .inl
    · rw [update_of_ne hj]
      exact .inl hmem

theorem Stocked.advance (h : Stocked parts rest s) {l : List (Access κ)} {p : Prog κ ν α}
    {store : κ → Option ν} (hmono : ∀ k, (s.store k).isSome → (store k).isSome)
    (hl : Supplied parts {k | (store k).isSome} l)
    (hparts : ∀ k, (store k).isSome → ∀ k' ∈ parts k, (store k').isSome) :
    Stocked parts (update rest i l) ⟨update s.prog i p, store⟩ where
  supplied j := by
    by_cases hj : j = i
    · subst hj
      rwa [update_self]
    · rw [update_of_ne hj]
      exact (h.supplied j).mono hmono
  parts := hparts

variable [DecidableEq κ]

/-- A move of the program `i`: its next operation. -/
def step (i : ι) (s : Pool ι κ ν α) : Option (Pool ι κ ν α × List Empty) :=
  match s.prog i with
  | .ret _ | .fail => none
  | .put k v next => some (⟨update s.prog i next, update s.store k (some v)⟩, [])
  | .get k next =>
    some (⟨update s.prog i ((s.store k).elim .fail next), s.store⟩, [])
  | .waitAndGet k next => (s.store k).map fun v => (⟨update s.prog i (next v), s.store⟩, [])

/-- The states that the pool `s₀` can reach. -/
abbrev Run (s₀ s : Pool ι κ ν α) : Prop := Trace.Run step (fun _ _ => True) s₀ [] s

theorem step_put {k : κ} {v : ν} {next : Prog κ ν α} (h : s.prog i = .put k v next) :
    step i s = some (⟨update s.prog i next, update s.store k (some v)⟩, []) := by
  rw [step, h]

theorem step_get {k : κ} {v : ν} {next : ν → Prog κ ν α} (h : s.prog i = .get k next)
    (hk : s.store k = some v) : step i s = some (⟨update s.prog i (next v), s.store⟩, []) := by
  rw [step, h]
  simp only [hk, Option.elim_some]

theorem step_waitAndGet {k : κ} {v : ν} {next : ν → Prog κ ν α} (h : s.prog i = .waitAndGet k next)
    (hk : s.store k = some v) : step i s = some (⟨update s.prog i (next v), s.store⟩, []) := by
  rw [step, h]
  simp only [hk, Option.map_some]

/-- A move makes the next access of its program. -/
theorem Follows.step {ev : List Empty} (h : Follows spec as r rest s) (hst : Stocked parts rest s)
    (hstep : step i s = some (s', ev)) :
    ∃ a l, rest i = a :: l ∧ Follows spec as r (update rest i l) s' ∧
      Stocked parts (update rest i l) s' := by
  have hdoes := h.does i
  have hsupplied := hst.supplied i
  rw [Pool.step] at hstep
  generalize hprog : s.prog i = p at hdoes hstep
  generalize hrest : rest i = acc at hdoes hsupplied
  cases hdoes with
  | ret => cases hstep
  | @put k next l _ hnext =>
    cases hstep
    have hmono (k' : κ) (hk' : (s.store k').isSome) :
        (update s.store k (some (spec k)) k').isSome := by
      by_cases hk : k' = k
      · rw [hk, update_self]
        rfl
      · rwa [update_of_ne hk]
    -- a value put is that of its key, and no key is removed
    refine ⟨_, _, rfl, h.advance hrest hnext (fun k' v hv => ?_) hmono (fun k' heq => ?_),
      hst.advance hmono (hsupplied.2.mono fun k' hk' => ?_) fun k' hk' k'' hk'' => ?_⟩
    · by_cases hk : k' = k
      · subst hk
        rw [update_self] at hv
        exact (Option.some.inj hv).symm
      · rw [update_of_ne hk] at hv
        exact h.store k' v hv
    · cases heq
      rw [update_self]
      rfl
    · rcases hk' with rfl | hk'
      · show (update s.store k' (some (spec k')) k').isSome
        rw [update_self]
        rfl
      · exact hmono k' hk'
    · by_cases hk : k' = k
      · subst hk
        exact hmono k'' (hsupplied.1 hk'')
      · rw [update_of_ne hk] at hk'
        exact hmono k'' (hst.parts k' hk' k'' hk'')
  | @get k next l _ hnext =>
    cases hstep
    obtain ⟨v, hv⟩ := Option.isSome_iff_exists.1 hsupplied.1
    rw [hv, h.store k v hv]
    exact ⟨_, _, rfl, h.advance hrest hnext h.store (fun _ hk => hk) (fun _ heq => by cases heq),
      hst.advance (fun _ hk => hk) hsupplied.2 hst.parts⟩
  | @wait k next l _ hnext =>
    obtain ⟨v, hv, heq⟩ := Option.map_eq_some_iff.1 hstep
    cases heq
    rw [h.store k v hv]
    have hk : (s.store k).isSome := by
      rw [hv]
      rfl
    have hl : Supplied parts (insert k {k | (s.store k).isSome} ∪ parts k) l := hsupplied
    refine ⟨_, _, rfl, h.advance hrest hnext h.store (fun _ hk => hk) (fun _ heq => by cases heq),
      hst.advance (fun _ hk => hk) (hl.mono ?_) hst.parts⟩
    rintro k' ((rfl | hk') | hk')
    · exact hk
    · exact hk'
    · exact hst.parts k hk k' hk'

/-- In every run, what each program has made is the beginning of its accesses. -/
theorem Published.follows (hs : Published spec rank parts progs as r) (h : Run (init progs) s) :
    ∃ rest, Follows spec as r rest s ∧ Stocked parts rest s := by
  refine h.invariant (fun _ s => ∃ rest, Follows spec as r rest s ∧ Stocked parts rest s)
    ⟨as, hs.follows_init, hs.stocked_init⟩ ?_
  rintro l s i s' ev ⟨rest, h, hst⟩ - hstep
  obtain ⟨a, l', -, h', hst'⟩ := h.step hst hstep
  exact ⟨_, h', hst'⟩

theorem Schedulable.follows (hs : Schedulable spec rank progs as r) (h : Run (init progs) s) :
    ∃ rest, Follows spec as r rest s :=
  (hs.published.follows h).imp fun _ h => h.1

/-- A program that is not done can move, or waits for a key. -/
theorem Follows.step_or_wait (h : Follows spec as r rest s) (hne : rest i ≠ []) :
    (∃ s', Pool.step i s = some (s', [])) ∨ ∃ k l, rest i = .wait k :: l ∧ s.store k = none := by
  have hdoes := h.does i
  rw [Pool.step]
  generalize hprog : s.prog i = p at hdoes
  generalize hrest : rest i = acc at hdoes hne
  cases hdoes with
  | ret => exact absurd rfl hne
  | put => exact .inl ⟨_, rfl⟩
  | get => exact .inl ⟨_, rfl⟩
  | @wait k next l _ hnext =>
    cases hk : s.store k with
    | none => exact .inr ⟨k, l, rfl, hk⟩
    | some v => exact .inl ⟨_, congrArg (Option.map _) hk⟩

/-- Somebody can move: whoever writes the key that a program waits for, or, if this one waits
    as well, it is for an earlier key. -/
theorem Follows.exists_step (h : Follows spec as r rest s)
    (hs : Published spec rank parts progs as r) (hne : rest i ≠ []) :
    ∃ j s', Pool.step j s = some (s', []) := by
  -- by induction on the rank of the key that is waited for
  have hwait (m : Nat) : ∀ i k l, rest i = .wait k :: l → s.store k = none → rank k = m →
      ∃ j s', Pool.step j s = some (s', []) := by
    induction m using Nat.strong_induction_on with
    | _ m ih =>
      intro i k l hrest hnone hrank
      obtain ⟨j, hj⟩ := hs.provided i k ((h.suffix i).subset (hrest ▸ List.mem_cons_self))
      have hput : .put k ∈ rest j := (h.present j k hj).resolve_right (by simp [hnone])
      rcases h.step_or_wait (List.ne_nil_of_mem hput) with ⟨s', hs'⟩ | ⟨k', l', hrest', hnone'⟩
      · exact ⟨j, s', hs'⟩
      · have hord := (hs.ordered j).sublist (h.suffix j).sublist
        rw [hrest', List.pairwise_cons] at hord
        rw [hrest'] at hput
        have hmem : .put k ∈ l' := (List.mem_cons.1 hput).resolve_left (by simp)
        exact ih (rank k') (hrank ▸ hord.1 _ hmem k' k rfl rfl) j k' l' hrest' hnone' rfl
  rcases h.step_or_wait hne with ⟨s', hs'⟩ | ⟨k, l, hrest, hnone⟩
  · exact ⟨i, s', hs'⟩
  · exact hwait _ i k l hrest hnone rfl

/-- All the programs can get done. -/
theorem Follows.exists_done [Fintype ι] (h : Follows spec as r rest s) (hst : Stocked parts rest s)
    (hs : Published spec rank parts progs as r) :
    ∃ s', Run s s' ∧ ∀ i, s'.prog i = .ret (r i) := by
  -- by induction on the number of accesses left
  have hsum (m : Nat) : ∀ rest s, Follows spec as r rest s → Stocked parts rest s →
      ∑ i, (rest i).length = m → ∃ s', Run s s' ∧ ∀ i, s'.prog i = .ret (r i) := by
    induction m using Nat.strong_induction_on with
    | _ m ih =>
      intro rest s h hst hm
      by_cases hdone : ∀ i, rest i = []
      · refine ⟨s, .refl, fun i => ?_⟩
        have hdoes := h.does i
        rw [hdone i] at hdoes
        generalize s.prog i = p at hdoes
        generalize r i = b at hdoes
        cases hdoes
        rfl
      · push Not at hdone
        obtain ⟨i, hi⟩ := hdone
        obtain ⟨j, t, ht⟩ := h.exists_step hs hi
        obtain ⟨a, l, hrest, h', hst'⟩ := h.step hst ht
        have hlt : ∑ i, (update rest j l i).length < m := by
          rw [← hm]
          refine Finset.sum_lt_sum (fun k _ => ?_) ⟨j, Finset.mem_univ j, ?_⟩
          · by_cases hk : k = j
            · subst hk
              rw [update_self, hrest]
              exact Nat.le_succ _
            · rw [update_of_ne hk]
          · rw [update_self, hrest]
            exact Nat.lt_succ_self _
        obtain ⟨s', hrun, hret⟩ := ih _ hlt _ t h' hst' rfl
        exact ⟨s', (Trace.Run.move .refl trivial ht).trans hrun, hret⟩
  exact hsum _ rest s h hst rfl

theorem Follows.exists_run [Fintype ι] (h : Follows spec as r rest s)
    (hs : Schedulable spec rank progs as r) :
    ∃ s', Run s s' ∧ ∀ i, s'.prog i = .ret (r i) :=
  h.exists_done (h.stocked hs) hs.published

/-- In every run no program fails, one that is done returns what it is to return, and all of
    them can get done. -/
theorem Published.finishes [Fintype ι] (hs : Published spec rank parts progs as r)
    (h : Run (init progs) s) :
    (∀ i, s.prog i ≠ .fail) ∧ (∀ i a, s.prog i = .ret a → a = r i) ∧
      ∃ s', Run s s' ∧ ∀ i, s'.prog i = .ret (r i) := by
  obtain ⟨rest, hfollows, hst⟩ := hs.follows h
  exact ⟨fun _ => hfollows.ne_fail, fun _ _ => hfollows.eq_of_ret, hfollows.exists_done hst hs⟩

end Pool

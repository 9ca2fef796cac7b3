import Mathlib.Logic.Basic
import Eau2.Lib.Pool

/-!
# Values kept in parts

Programs that share values too large for one key: a value has a key of its own, and parts
under other keys (`Layout`). To put a value is to put its parts and then the value, so whoever
has waited for it may get its parts. What a program does is then a list of accesses to values,
each of which makes several to the store (`Expands`).

* `Layout.Makes`: the rule for such a program, in terms of values; it is composed by
  `Makes.bind`, from programs that put a value (`Makes.put`), wait for one (`Makes.wait`) and
  go over those there are (`Makes.get`);
* `Layout.Scheduled.finishes`: in any interleaving, programs that put all the values they
  wait for, in order, get done without failing.
-/

open Prog
open Pool (Supplied)

/-- Values `F` that are kept in a store, with the pairs of keys and values for their parts. -/
structure Layout (F κ ν : Type) where
  name : F → κ
  value : F → ν
  segs : F → List (κ × ν)
  /-- What a key belongs to. -/
  owner : κ → F
  /-- What is kept under a key. -/
  spec : κ → ν
  owner_name : ∀ f, owner (name f) = f
  owner_seg : ∀ f, ∀ kv ∈ segs f, owner kv.1 = f
  spec_name : ∀ f, spec (name f) = value f
  spec_seg : ∀ f, ∀ kv ∈ segs f, spec kv.1 = kv.2
  name_ne : ∀ f, ∀ kv ∈ segs f, kv.1 ≠ name f

namespace Layout

variable {F κ ν α β ι : Type}

/-- What is written to put a value, in order. -/
def pairs (name : F → κ) (value : F → ν) (segs : F → List (κ × ν)) (f : F) : List (κ × ν) :=
  segs f ++ [(name f, value f)]

/-- Keys that are never written for two reasons make a layout. -/
theorem exists_of_pairs [Nonempty F] [Nonempty ν] {name : F → κ} {value : F → ν}
    {segs : F → List (κ × ν)}
    (hinj : ∀ f f', ∀ kv ∈ pairs name value segs f, ∀ kv' ∈ pairs name value segs f', kv.1 = kv'.1 →
      f = f' ∧ kv = kv')
    (hne : ∀ f, ∀ kv ∈ segs f, kv.1 ≠ name f) :
    ∃ L : Layout F κ ν, L.name = name ∧ L.value = value ∧ L.segs = segs := by
  classical
  -- the value and the pair that a key is of, if there is one
  have hkey (k : κ) : ∃ fv : F × ν, ∀ f, ∀ kv ∈ pairs name value segs f, kv.1 = k →
      fv = (f, kv.2) := by
    by_cases h : ∃ f, ∃ kv ∈ pairs name value segs f, kv.1 = k
    · obtain ⟨f, kv, hkv, hk⟩ := h
      refine ⟨(f, kv.2), fun f' kv' hkv' hk' => ?_⟩
      obtain ⟨rfl, rfl⟩ := hinj f f' kv hkv kv' hkv' (hk.trans hk'.symm)
      rfl
    · obtain ⟨f⟩ := ‹Nonempty F›
      obtain ⟨v⟩ := ‹Nonempty ν›
      exact ⟨(f, v), fun f kv hkv hk => absurd ⟨f, kv, hkv, hk⟩ h⟩
  choose g hg using hkey
  have hname (f : F) : g (name f) = (f, value f) :=
    hg (name f) f _ (List.mem_append_right _ List.mem_cons_self) rfl
  have hseg (f : F) (kv : κ × ν) (hkv : kv ∈ segs f) : g kv.1 = (f, kv.2) :=
    hg kv.1 f kv (List.mem_append_left _ hkv) rfl
  refine ⟨⟨name, value, segs, fun k => (g k).1, fun k => (g k).2, fun f => ?_, fun f kv hkv => ?_,
    fun f => ?_, fun f kv hkv => ?_, hne⟩, rfl, rfl, rfl⟩
  · rw [hname]
  · rw [hseg f kv hkv]
  · rw [hname]
  · rw [hseg f kv hkv]

variable (L : Layout F κ ν)

/-- What is written to put the value `f`, in order. -/
def writes (f : F) : List (κ × ν) := pairs L.name L.value L.segs f

variable {L}

theorem owner_of_mem {f : F} {kv : κ × ν} (h : kv ∈ L.writes f) : L.owner kv.1 = f := by
  rcases List.mem_append.1 h with h | h
  · exact L.owner_seg f kv h
  · rw [List.mem_singleton.1 h]
    exact L.owner_name f

theorem spec_of_mem {f : F} {kv : κ × ν} (h : kv ∈ L.writes f) : L.spec kv.1 = kv.2 := by
  rcases List.mem_append.1 h with h | h
  · exact L.spec_seg f kv h
  · rw [List.mem_singleton.1 h]
    exact L.spec_name f

variable (L)

/-- The parts of the key of a value. -/
def parts (k : κ) : Set κ := {k' | k = L.name (L.owner k) ∧ k' ∈ (L.segs (L.owner k)).map Prod.fst}

/-- The accesses `as` are those to the values `bs`: a value is put after its parts, and of the
    values that are there, the `known`, any keys may be got. -/
inductive Expands : Set F → List (Access F) → List (Access κ) → Prop
  | nil {known : Set F} : Expands known [] []
  | put {known : Set F} {f : F} {bs : List (Access F)} {as : List (Access κ)}
      (h : Expands (insert f known) bs as) :
      Expands known (.put f :: bs) ((L.writes f).map (fun kv => .put kv.1) ++ as)
  | wait {known : Set F} {f : F} {bs : List (Access F)} {as : List (Access κ)}
      (h : Expands (insert f known) bs as) : Expands known (.wait f :: bs) (.wait (L.name f) :: as)
  | get {known : Set F} {f : F} {k : κ} {bs : List (Access F)} {as : List (Access κ)}
      (hf : f ∈ known)
      (hk : k ∈ (L.writes f).map Prod.fst) (h : Expands known bs as) : Expands known bs
        (.get k :: as)

/-- The values that are there after the accesses. -/
def seen (bs : List (Access F)) : Set F := {f | .put f ∈ bs ∨ .wait f ∈ bs}

variable {L} {known known' : Set F} {bs bs' : List (Access F)} {as as' : List (Access κ)}
  {f : F} {k : κ}

theorem parts_name (f : F) : L.parts (L.name f) = {k | k ∈ (L.segs f).map Prod.fst} := by
  ext k
  show L.name f = L.name (L.owner (L.name f)) ∧ k ∈ (L.segs (L.owner (L.name f))).map Prod.fst ↔ _
  rw [L.owner_name]
  exact and_iff_right rfl

/-- A part has no parts. -/
theorem parts_seg {kv : κ × ν} (h : kv ∈ L.segs f) : L.parts kv.1 = ∅ := by
  refine Set.eq_empty_of_forall_notMem fun k hk => L.name_ne f kv h ?_
  rw [hk.1, L.owner_seg f kv h]

/-- Keys without parts may be put in any order. -/
theorem supplied_puts {parts : κ → Set κ} {present : Set κ} {ps : List (κ × ν)}
    (hps : ∀ kv ∈ ps, parts kv.1 = ∅)
    (h : Supplied parts (present ∪ {k | k ∈ ps.map Prod.fst}) as) :
    Supplied parts present (ps.map (fun kv => .put kv.1) ++ as) := by
  induction ps generalizing present with
  | nil => exact h.mono (Set.union_subset subset_rfl fun k hk => by simp at hk)
  | cons kv ps ih =>
    rw [List.forall_mem_cons] at hps
    refine ⟨by rw [hps.1]; exact Set.empty_subset _, ih hps.2 (h.mono ?_)⟩
    rintro k (hk | hk)
    · exact .inl (.inr hk)
    · exact (List.mem_cons.1 hk).elim (fun heq => .inl (.inl heq)) .inr

namespace Expands

theorem mono (h : L.Expands known bs as) (hsub : known ⊆ known') : L.Expands known' bs as := by
  induction h generalizing known' with
  | nil => exact .nil
  | put _ ih => exact .put (ih (Set.insert_subset_insert hsub))
  | wait _ ih => exact .wait (ih (Set.insert_subset_insert hsub))
  | get hf hk _ ih => exact .get (hsub hf) hk (ih hsub)

theorem append (h : L.Expands known bs as) (h' : L.Expands (known ∪ seen bs) bs' as') :
    L.Expands known (bs ++ bs') (as ++ as') := by
  induction h with
  | nil => exact h'.mono (Set.union_subset subset_rfl fun f hf => by simp [seen] at hf)
  | @put known f bs as _ ih =>
    rw [List.append_assoc, List.cons_append]
    refine .put (ih (h'.mono ?_))
    rintro g (hg | hg | hg)
    · exact .inl (.inr hg)
    · rcases List.mem_cons.1 hg with heq | hg
      · exact .inl (.inl (Access.put.inj heq))
      · exact .inr (.inl hg)
    · exact .inr (.inr ((List.mem_cons.1 hg).resolve_left (by simp)))
  | @wait known f bs as _ ih =>
    rw [List.cons_append, List.cons_append]
    refine .wait (ih (h'.mono ?_))
    rintro g (hg | hg | hg)
    · exact .inl (.inr hg)
    · exact .inr (.inl ((List.mem_cons.1 hg).resolve_left (by simp)))
    · rcases List.mem_cons.1 hg with heq | hg
      · exact .inl (.inl (Access.wait.inj heq))
      · exact .inr (.inr hg)
  | get hf hk _ ih => exact .get hf hk (ih h')

/-- Only keys of values are waited for. -/
theorem mem_wait (h : L.Expands known bs as) (hk : .wait k ∈ as) :
    ∃ f, .wait f ∈ bs ∧ k = L.name f := by
  induction h with
  | nil => cases hk
  | @put known f bs as _ ih =>
    rcases List.mem_append.1 hk with hk | hk
    · obtain ⟨kv, -, heq⟩ := List.mem_map.1 hk
      cases heq
    · exact (ih hk).imp fun _ hf => ⟨List.mem_cons_of_mem _ hf.1, hf.2⟩
  | @wait known f bs as _ ih =>
    rcases List.mem_cons.1 hk with heq | hk
    · exact ⟨f, List.mem_cons_self, Access.wait.inj heq⟩
    · exact (ih hk).imp fun _ hf => ⟨List.mem_cons_of_mem _ hf.1, hf.2⟩
  | get _ _ _ ih => exact ih ((List.mem_cons.1 hk).resolve_left (by simp))

/-- What is put is written for a value that is put. -/
theorem mem_put (h : L.Expands known bs as) (hk : .put k ∈ as) :
    ∃ f, .put f ∈ bs ∧ ∃ kv ∈ L.writes f, kv.1 = k := by
  induction h with
  | nil => cases hk
  | @put known f bs as _ ih =>
    rcases List.mem_append.1 hk with hk | hk
    · obtain ⟨kv, hkv, heq⟩ := List.mem_map.1 hk
      exact ⟨f, List.mem_cons_self, kv, hkv, Access.put.inj heq⟩
    · exact (ih hk).imp fun _ hf => ⟨List.mem_cons_of_mem _ hf.1, hf.2⟩
  | wait _ ih =>
    exact (ih ((List.mem_cons.1 hk).resolve_left (by simp))).imp fun _ hf =>
      ⟨List.mem_cons_of_mem _ hf.1, hf.2⟩
  | get _ _ _ ih => exact ih ((List.mem_cons.1 hk).resolve_left (by simp))

/-- What is got is written for a value that is there. -/
theorem mem_get (h : L.Expands known bs as) (hk : .get k ∈ as) :
    ∃ f, (f ∈ known ∨ f ∈ seen bs) ∧ ∃ kv ∈ L.writes f, kv.1 = k := by
  have later {known : Set F} {b : Access F} {bs : List (Access F)} {f g : F}
      (hb : b = .put g ∨ b = .wait g)
      (h : f ∈ insert g known ∨ f ∈ seen bs) : f ∈ known ∨ f ∈ seen (b :: bs) := by
    rcases h with (rfl | h) | h
    · refine .inr (hb.imp ?_ ?_) <;> rintro rfl <;> exact List.mem_cons_self
    · exact .inl h
    · exact .inr (h.imp (List.mem_cons_of_mem _) (List.mem_cons_of_mem _))
  induction h with
  | nil => cases hk
  | @put known g bs as _ ih =>
    rcases List.mem_append.1 hk with hk | hk
    · obtain ⟨kv, -, heq⟩ := List.mem_map.1 hk
      cases heq
    · exact (ih hk).imp fun f hf => ⟨later (.inl rfl) hf.1, hf.2⟩
  | @wait known g bs as _ ih =>
    exact (ih ((List.mem_cons.1 hk).resolve_left (by simp))).imp fun f hf =>
      ⟨later (.inr rfl) hf.1, hf.2⟩
  | @get known f k' bs as hf hmem _ ih =>
    rcases List.mem_cons.1 hk with heq | hk
    · obtain rfl := Access.get.inj heq
      exact ⟨f, .inl hf, List.mem_map.1 hmem⟩
    · exact ih hk

/-- What is put belongs to a value that is put. -/
theorem put_owner_mem (h : L.Expands known bs as) (hk : .put k ∈ as) : .put (L.owner k) ∈ bs := by
  obtain ⟨f, hf, kv, hkv, rfl⟩ := h.mem_put hk
  rwa [L.owner_of_mem hkv]

/-- The key of a value that is put is. -/
theorem put_name_mem (h : L.Expands known bs as) (hf : .put f ∈ bs) : .put (L.name f) ∈ as := by
  induction h with
  | nil => cases hf
  | @put known f' bs as _ ih =>
    rcases List.mem_cons.1 hf with heq | hf
    · rw [← Access.put.inj heq]
      refine List.mem_append_left _ (List.mem_map.2 ⟨(L.name f, L.value f), ?_, rfl⟩)
      exact List.mem_append_right _ List.mem_cons_self
    · exact List.mem_append_right _ (ih hf)
  | wait _ ih => exact List.mem_cons_of_mem _ (ih ((List.mem_cons.1 hf).resolve_left (by simp)))
  | get _ _ _ ih => exact List.mem_cons_of_mem _ (ih hf)

/-- If no value is put twice, and no part of one is, no key is put twice. -/
theorem nodup (h : L.Expands known bs as) (hbs : (Pool.putKeys bs).Nodup)
    (hw : ∀ f, .put f ∈ bs → ((L.writes f).map Prod.fst).Nodup) : (Pool.putKeys as).Nodup := by
  induction h with
  | nil => exact List.nodup_nil
  | @put known f bs as h ih =>
    obtain ⟨hf, hbs⟩ := List.nodup_cons.1 hbs
    rw [Pool.putKeys_append, Pool.putKeys_puts]
    refine List.nodup_append.2 ⟨hw f List.mem_cons_self,
      ih hbs fun f' hf' => hw f' (List.mem_cons_of_mem _ hf'), ?_⟩
    -- what is put later belongs to another value
    rintro k hk _ hk' rfl
    obtain ⟨kv, hkv, rfl⟩ := List.mem_map.1 hk
    have hmem := h.put_owner_mem (Pool.mem_putKeys.1 hk')
    rw [L.owner_of_mem hkv] at hmem
    exact hf (Pool.mem_putKeys.2 hmem)
  | wait _ ih => exact ih hbs fun f hf => hw f (List.mem_cons_of_mem _ hf)
  | get _ _ _ ih => exact ih hbs hw

/-- If the values are put after those waited for, so are their parts. -/
theorem ordered {rank : F → Nat} (h : L.Expands known bs as)
    (hord : bs.Pairwise fun a b => ∀ f f', a = .wait f → b = .put f' → rank f < rank f') :
    as.Pairwise fun a b => ∀ k k', a = .wait k → b = .put k' → rank (L.owner k) < rank
    (L.owner k') := by
  induction h with
  | nil => exact .nil
  | put _ ih =>
    refine List.pairwise_append.2 ⟨List.pairwise_map.2 (List.pairwise_of_forall ?_),
      ih (List.pairwise_cons.1 hord).2, fun a ha b _ k k' heq => ?_⟩
    · exact fun _ _ _ _ heq => by cases heq
    · obtain ⟨kv, -, rfl⟩ := List.mem_map.1 ha
      cases heq
  | @wait known f bs as h ih =>
    rw [List.pairwise_cons] at hord
    refine List.pairwise_cons.2 ⟨fun b hb k k' heq heq' => ?_, ih hord.2⟩
    rw [← Access.wait.inj heq, L.owner_name]
    exact hord.1 _ (h.put_owner_mem (heq' ▸ hb)) f _ rfl rfl
  | get _ _ _ ih =>
    refine List.pairwise_cons.2 ⟨fun b _ k k' heq => ?_, ih hord⟩
    cases heq

/-- The parts of a value that is there are there. -/
theorem supplied (h : L.Expands known bs as) {present : Set κ}
    (hknown : ∀ f ∈ known, ∀ kv ∈ L.writes f, kv.1 ∈ present) : Supplied L.parts present as := by
  induction h generalizing present with
  | nil => trivial
  | @put known f bs as _ ih =>
    rw [writes, pairs, List.map_append, List.append_assoc]
    refine supplied_puts (fun kv hkv => L.parts_seg hkv)
      ⟨fun k hk => .inr ?_, ih fun g hg kv hkv => ?_⟩
    · rwa [L.parts_name] at hk
    · rcases hg with rfl | hg
      · rcases List.mem_append.1 hkv with hkv | hkv
        · exact .inr (.inr (List.mem_map_of_mem hkv))
        · rw [List.mem_singleton.1 hkv]
          exact .inl rfl
      · exact .inr (.inl (hknown g hg kv hkv))
  | @wait known f bs as _ ih =>
    refine ih fun g hg kv hkv => ?_
    rcases hg with rfl | hg
    · rcases List.mem_append.1 hkv with hkv | hkv
      · refine .inr ?_
        rw [L.parts_name]
        exact List.mem_map_of_mem hkv
      · rw [List.mem_singleton.1 hkv]
        exact .inl (.inl rfl)
    · exact .inl (.inr (hknown g hg kv hkv))
  | @get known f k bs as hf hk _ ih =>
    obtain ⟨kv, hkv, rfl⟩ := List.mem_map.1 hk
    exact ⟨hknown f hf kv hkv, ih hknown⟩

/-- What is read of values that are there, is there. -/
theorem available (h : L.Expands known bs as) (hbs : Pool.Available known bs) {present : Set κ}
    (hknown : ∀ f ∈ known, ∀ kv ∈ L.writes f, kv.1 ∈ present) : Pool.Available present as := by
  induction h generalizing present with
  | nil => trivial
  | @put known f bs as _ ih =>
    rw [Pool.available_append, Pool.putKeys_puts]
    refine ⟨Pool.available_of_puts fun a ha => ?_, ih hbs fun g hg kv hkv => ?_⟩
    · obtain ⟨kv, -, rfl⟩ := List.mem_map.1 ha
      exact ⟨_, rfl⟩
    · rcases hg with rfl | hg
      · exact .inr (List.mem_map_of_mem hkv)
      · exact .inl (hknown g hg kv hkv)
  | @wait known f bs as _ ih =>
    have hname : (L.name f, L.value f) ∈ L.writes f :=
      List.mem_append_right _ List.mem_cons_self
    refine ⟨hknown f hbs.1 _ hname, ih ?_ fun g hg kv hkv => ?_⟩
    · rw [Set.insert_eq_of_mem hbs.1]
      exact hbs.2
    · rcases hg with rfl | hg
      · exact hknown g hbs.1 kv hkv
      · exact hknown g hg kv hkv
  | @get known f k bs as hf hk _ ih =>
    obtain ⟨kv, hkv, rfl⟩ := List.mem_map.1 hk
    exact ⟨hknown f hf kv hkv, ih hbs hknown⟩

end Expands

/-! ## Programs -/

variable (L) in
/-- When the values `known` are there, the program makes the accesses `bs` to values, gets no keys
    but the `near`, and returns something with the property `Q`. -/
def Makes (near : Set κ) (known : Set F) (p : Prog κ ν α) (bs : List (Access F)) (Q : α → Prop) :
    Prop :=
  ∃ as a, p.Does L.spec as a ∧ L.Expands known bs as ∧ (∀ k, .get k ∈ as → k ∈ near) ∧ Q a

namespace Makes

variable {p : Prog κ ν α} {Q : α → Prop} {R : β → Prop} {near : Set κ}

theorem ret {a : α} (h : Q a) : L.Makes near known (ret a) [] Q :=
  ⟨[], a, .ret a, .nil, fun _ hk => absurd hk List.not_mem_nil, h⟩

theorem mono (h : L.Makes near known p bs Q) (hsub : known ⊆ known') :
    L.Makes near known' p bs Q := by
  obtain ⟨as, a, hdoes, has, hnear, ha⟩ := h
  exact ⟨as, a, hdoes, has.mono hsub, hnear, ha⟩

theorem imp {Q' : α → Prop} (h : L.Makes near known p bs Q) (himp : ∀ a, Q a → Q' a) :
    L.Makes near known p bs Q' := by
  obtain ⟨as, a, hdoes, has, hnear, ha⟩ := h
  exact ⟨as, a, hdoes, has, hnear, himp a ha⟩

theorem bind (h : L.Makes near known p bs Q) {next : α → Prog κ ν β}
    (hnext : ∀ a, Q a → L.Makes near (known ∪ seen bs) (next a) bs' R) :
    L.Makes near known (p >>= next) (bs ++ bs') R := by
  obtain ⟨as, a, hdoes, has, hnear, ha⟩ := h
  obtain ⟨as', b, hdoes', has', hnear', hb⟩ := hnext a ha
  exact ⟨as ++ as', b, hdoes.bind hdoes', has.append has',
    fun k hk => (List.mem_append.1 hk).elim (hnear k) (hnear' k), hb⟩

/-- What a program makes of no value has been seen by it. -/
theorem bind_nil (h : L.Makes near known p [] Q) {next : α → Prog κ ν β}
    (hnext : ∀ a, Q a → L.Makes near known (next a) bs R) : L.Makes near known (p >>= next) bs R :=
  h.bind fun a ha => (hnext a ha).mono Set.subset_union_left

/-- A value is put. -/
theorem put {a : α} (hw : p.writes = some (L.writes f, a)) (h : Q a) :
    L.Makes near known p [.put f] Q := by
  refine ⟨_, a, .of_writes hw fun kv hkv => L.spec_of_mem hkv, ?_, fun k hk => ?_, h⟩
  · rw [← List.append_nil (List.map _ _)]
    exact .put .nil
  · obtain ⟨_, -, heq⟩ := List.mem_map.1 hk
    cases heq

/-- A value is waited for. -/
theorem wait {next : ν → Prog κ ν α} (h : L.Makes near (insert f known) (next (L.value f)) bs Q) :
    L.Makes near known (waitAndGet (L.name f) next) (.wait f :: bs) Q := by
  obtain ⟨as, a, hdoes, has, hnear, ha⟩ := h
  refine ⟨_, a, .wait ?_, .wait has, fun k hk => ?_, ha⟩
  · rwa [L.spec_name]
  · exact hnear k ((List.mem_cons.1 hk).resolve_left (by simp))

/-- A value that is there is got. -/
theorem get_value {next : ν → Prog κ ν α} (hf : f ∈ known) (hname : L.name f ∈ near)
    (h : L.Makes near known (next (L.value f)) bs Q) :
    L.Makes near known (.get (L.name f) next) bs Q := by
  obtain ⟨as, a, hdoes, has, hnear, ha⟩ := h
  refine ⟨_, a, .get ?_, .get hf ?_ has, fun k hk => ?_, ha⟩
  · rwa [L.spec_name]
  · exact List.mem_map_of_mem (List.mem_append_right _ List.mem_cons_self)
  · rcases List.mem_cons.1 hk with heq | hk
    · exact Access.get.inj heq ▸ hname
    · exact hnear k hk

/-- A program that only reads goes over values that are there. -/
theorem get [DecidableEq κ] {S : Set κ} (hp : p.Gets S) {m m' : κ → Option ν} {a : α}
    (hrun : p.run m = some (a, m')) (hm : ∀ k v, m k = some v → ∃ f ∈ known, (k, v) ∈ L.writes f)
    (hnear : ∀ k ∈ S, (m k).isSome → k ∈ near) (h : Q a) : L.Makes near known p [] Q := by
  obtain ⟨ks, hks, hdoes⟩ := Does.of_run hp hrun fun k v hk => by
    obtain ⟨f, -, hkv⟩ := hm k v hk
    exact L.spec_of_mem hkv
  refine ⟨_, a, hdoes, ?_, fun k hk => ?_, h⟩
  · clear hdoes
    induction ks with
    | nil => exact .nil
    | cons k ks ih =>
      rw [List.forall_mem_cons] at hks
      obtain ⟨v, hv⟩ := Option.isSome_iff_exists.1 hks.1.2
      obtain ⟨f, hf, hkv⟩ := hm k v hv
      exact .get hf (List.mem_map.2 ⟨_, hkv, rfl⟩) (ih hks.2)
  · obtain ⟨k', hk', heq⟩ := List.mem_map.1 hk
    cases heq
    exact hnear k (hks k hk').1 (hks k hk').2

/-- What the program returns is checked in the end. -/
theorem assert {c : α → Prop} [DecidablePred c] (h : L.Makes near known p bs Q)
    (hc : ∀ a, Q a → c a) :
    L.Makes near known (p >>= fun a => Prog.assert (c a)) bs fun _ => True := by
  rw [← List.append_nil bs]
  refine h.bind fun a ha => ?_
  rw [assert_true (hc a ha)]
  exact ret trivial

/-- A loop over a list. -/
theorem foldlM {γ : Type} {step : β → γ → Prog κ ν β} {g : β → γ → β} {cs : γ → List (Access F)}
    {xs : List γ} (h : ∀ x ∈ xs, ∀ b, L.Makes near known (step b x) (cs x) (· = g b x)) (b : β) :
    L.Makes near known (xs.foldlM step b) (xs.flatMap cs) (· = xs.foldl g b) := by
  induction xs generalizing b known with
  | nil => exact ret rfl
  | cons x xs ih =>
    rw [List.forall_mem_cons] at h
    rw [List.foldlM_cons, List.flatMap_cons, List.foldl_cons]
    refine (h.1 b).bind fun b' hb' => ?_
    rw [hb']
    exact ih (fun y hy b => (h.2 y hy b).mono Set.subset_union_left) _

end Makes

variable (L) in
/-- Programs that make the accesses `bs` to values, get no keys but the `near`, and return what `Q`
    says, in such a way that they can make them in any interleaving. -/
structure Scheduled (near : ι → Set κ) (rank : F → Nat) (progs : ι → Prog κ ν α)
    (bs : ι → List (Access F)) (Q : ι → α → Prop) : Prop where
  makes : ∀ i, L.Makes (near i) ∅ (progs i) (bs i) (Q i)
  /-- What a program waits for, some program puts. -/
  provided : ∀ i f, .wait f ∈ bs i → ∃ j, .put f ∈ bs j
  /-- What a program puts after it has waited for a value comes after this value. -/
  ordered : ∀ i, (bs i).Pairwise fun a b => ∀ f f', a = .wait f → b = .put f' → rank f < rank f'

variable (L) in
/-- The accesses to the store that a program with the accesses `bs` to values may make. -/
def Accesses (near : Set κ) (bs : List (Access F)) : Access κ → Prop
  | .put k => ∃ f, .put f ∈ bs ∧ ∃ kv ∈ L.writes f, kv.1 = k
  | .get k => k ∈ near ∧ ∃ f ∈ seen bs, ∃ kv ∈ L.writes f, kv.1 = k
  | .wait k => ∃ f, .wait f ∈ bs ∧ k = L.name f

variable {near : ι → Set κ} {rank : F → Nat} {progs : ι → Prog κ ν α} {cs : ι → List (Access F)}
  {Q : ι → α → Prop}

/-- The accesses to the store of scheduled programs are published, and no key is put twice if no
    value is. -/
theorem Scheduled.exists_published (h : L.Scheduled near rank progs cs Q) :
    ∃ as r, Pool.Published L.spec (rank ∘ L.owner) L.parts progs as r ∧ (∀ i, Q i (r i)) ∧
      (∀ i, ∀ a ∈ as i, L.Accesses (near i) (cs i) a) ∧
      (Pool.Once cs → (∀ i f, .put f ∈ cs i → ((L.writes f).map Prod.fst).Nodup) →
        Pool.Once as) := by
  choose as r hdoes has hnear hr using h.makes
  refine ⟨as, r, ⟨hdoes, fun i k hk => ?_, fun i => (has i).ordered (h.ordered i), fun i => ?_⟩, hr,
    fun i a ha => ?_, fun honce hw => ⟨fun i => (has i).nodup (honce.nodup i) (hw i),
      fun i j k hi hj => honce.eq_of_mem i j _ ((has i).put_owner_mem hi)
      ((has j).put_owner_mem hj)⟩⟩
  · obtain ⟨f, hf, rfl⟩ := (has i).mem_wait hk
    exact (h.provided i f hf).imp fun j hj => (has j).put_name_mem hj
  · exact (has i).supplied fun f hf => hf.elim
  · cases a with
    | put k => exact (has i).mem_put ha
    | get k =>
      obtain ⟨f, hf, hkv⟩ := (has i).mem_get ha
      exact ⟨hnear i k ha, f, hf.resolve_left id, hkv⟩
    | wait k => exact (has i).mem_wait ha

/-- In every run no program fails, one that is done returns what it is to return, and all of
    them can get done. -/
theorem Scheduled.finishes [Fintype ι] [DecidableEq ι] [DecidableEq κ]
    (h : L.Scheduled near rank progs cs Q) {s : Pool ι κ ν α} (hrun : Pool.Run (.init progs) s) :
    (∀ i, s.prog i ≠ .fail) ∧ (∀ i a, s.prog i = .ret a → Q i a) ∧
      ∃ s', Pool.Run s s' ∧ ∀ i, ∃ a, s'.prog i = .ret a ∧ Q i a := by
  obtain ⟨as, r, hpub, hr, -⟩ := h.exists_published
  obtain ⟨hfail, hret, s', hrun', hdone⟩ := hpub.finishes hrun
  exact ⟨hfail, fun i a ha => hret i a ha ▸ hr i, s', hrun', fun i => ⟨r i, hdone i, hr i⟩⟩

end Layout

import Mathlib.Control.Monad.Basic
import Mathlib.Data.List.Basic
import Mathlib.Tactic.Ring

/-!
# Decoders

A decoder (`Decoder τ α`) reads a value of `α` off the front of a list of
symbols, leaving the rest, or fails. `Decodes d w x` says that `w` is an
encoding of `x` for the decoder `d`: on any input that starts with `w` it reads
`x` and leaves what follows. The encoding of a sequence of values is the
concatenation of theirs (`Decodes.bind`, `Decodes.times`), so that a decoder is
shown to invert an encoder part by part.

`LittleEndian` is the encoding of a natural number in a fixed number of bytes.
-/

/-- A function that reads a value off the front of the input. -/
abbrev Decoder (τ : Type) := StateT (List τ) Option

namespace Decoder

variable {τ α : Type}

/-- The next `n` symbols. -/
def take (n : Nat) : Decoder τ (List τ) := fun w =>
  if n ≤ w.length then some (w.splitAt n) else none

/-- `n` values, one after the other. -/
def times (d : Decoder τ α) : Nat → Decoder τ (List α)
  | 0 => pure []
  | n + 1 => do
    let x ← d
    let xs ← times d n
    return x :: xs

/-- An assertion. -/
def assert (c : Prop) [Decidable c] : Decoder τ Unit := fun w =>
  if c then some ((), w) else none

/-- The value of a computation that may fail. -/
def ofOption : Option α → Decoder τ α
  | some a => pure a
  | none => failure

end Decoder

/-- On an input that starts with `w`, the decoder reads `x` and leaves the rest. -/
def Decodes {τ α : Type} (d : Decoder τ α) (w : List τ) (x : α) : Prop :=
  ∀ rest, d.run (w ++ rest) = some (x, rest)

namespace Decodes

variable {τ α β : Type} {d : Decoder τ α} {f : α → Decoder τ β} {w w' : List τ} {x : α} {y : β}

theorem pure (x : α) : Decodes (Pure.pure x : Decoder τ α) [] x := fun _ => rfl

theorem bind (h : Decodes d w x) (h' : Decodes (f x) w' y) : Decodes (d >>= f) (w ++ w') y := by
  intro rest
  rw [StateT.run_bind, List.append_assoc, h]
  exact h' rest

theorem map (h : Decodes d w x) (g : α → β) : Decodes (g <$> d) w (g x) := by
  intro rest
  rw [StateT.run_map, h]
  rfl

/-- Reading a value, and returning what is made of it. -/
theorem read (h : Decodes d w x) (g : α → β) :
    Decodes (d >>= fun x => Pure.pure (g x)) w (g x) := by
  have := h.bind (f := fun x => Pure.pure (g x)) (Decodes.pure (g x))
  rwa [List.append_nil] at this

/-- The encoding, as a whole input. -/
theorem run_eq (h : Decodes d w x) : d.run w = some (x, []) := by
  simpa using h []

theorem take (w : List τ) : Decodes (Decoder.take w.length) w w := by
  intro rest
  simp [Decoder.take, StateT.run, List.splitAt_eq]

theorem assert {c : Prop} [Decidable c] (hc : c) :
    Decodes (Decoder.assert c : Decoder τ Unit) [] () := by
  intro rest
  simp [Decoder.assert, StateT.run, hc]

/-- No encoding is a proper prefix of another: what follows it would be left. -/
theorem eq_of_isPrefix (h : Decodes d w x) {x' : α} (h' : Decodes d w' x') (hp : w <+: w') :
    w = w' ∧ x = x' := by
  obtain ⟨t, rfl⟩ := hp
  have heq := (h t).symm.trans h'.run_eq
  rw [Option.some.injEq, Prod.mk.injEq] at heq
  obtain ⟨rfl, rfl⟩ := heq
  exact ⟨(List.append_nil w).symm, rfl⟩

/-- A sequence of values of the same kind. -/
theorem times {enc : α → List τ} {xs : List α} (h : ∀ x ∈ xs, Decodes d (enc x) x) :
    Decodes (d.times xs.length) (xs.flatMap enc) xs := by
  induction xs with
  | nil => exact pure []
  | cons x xs ih =>
    rw [List.forall_mem_cons] at h
    exact h.1.bind ((ih h.2).read fun xs => x :: xs)

end Decodes

/-- Encoding a sequence of values, none of which fails. -/
theorem List.mapM_eq_some_map {α β : Type} {f : α → Option β} {g : α → β} {xs : List α}
    (h : ∀ x ∈ xs, f x = some (g x)) : xs.mapM f = some (xs.map g) := by
  induction xs with
  | nil => rfl
  | cons x xs ih =>
    rw [List.forall_mem_cons] at h
    rw [List.mapM_cons, h.1, ih h.2]
    rfl

theorem List.mapM_congr_mem {α β : Type} {f g : α → Option β} {xs : List α}
    (h : ∀ x ∈ xs, f x = g x) :
    xs.mapM f = xs.mapM g := by
  induction xs with
  | nil => rfl
  | cons x xs ih =>
    rw [List.forall_mem_cons] at h
    rw [List.mapM_cons, List.mapM_cons, h.1, ih h.2]

/-- A sequence of values is encoded only if none of them fails. -/
theorem List.exists_of_mapM_eq_some {α β : Type} {f : α → Option β} {xs : List α} {ys : List β}
    (h : xs.mapM f = some ys) {x : α} (hx : x ∈ xs) : ∃ y, f x = some y := by
  induction xs generalizing ys with
  | nil => cases hx
  | cons x' xs ih =>
    rw [List.mapM_cons] at h
    obtain ⟨y, hy, hrest⟩ := Option.bind_eq_some_iff.1 h
    obtain ⟨ys', hys', -⟩ := Option.bind_eq_some_iff.1 hrest
    rcases List.mem_cons.1 hx with rfl | hmem
    · exact ⟨y, hy⟩
    · exact ih hys' hmem

theorem List.getElem?_of_mapM_eq_some {α β : Type} {f : α → Option β} {xs : List α} {ys : List β}
    (h : xs.mapM f = some ys) (i : Nat) : ys[i]? = xs[i]?.bind f := by
  induction xs generalizing ys i with
  | nil =>
    cases h
    rfl
  | cons x xs ih =>
    rw [List.mapM_cons] at h
    obtain ⟨y, hy, hrest⟩ := Option.bind_eq_some_iff.1 h
    obtain ⟨ys', hys', heq⟩ := Option.bind_eq_some_iff.1 hrest
    cases heq
    cases i with
    | zero => exact hy.symm
    | succ i => exact ih hys' i

theorem List.length_of_mapM_eq_some {α β : Type} {f : α → Option β} {xs : List α} {ys : List β}
    (h : xs.mapM f = some ys) : ys.length = xs.length := by
  induction xs generalizing ys with
  | nil =>
    cases h
    rfl
  | cons x xs ih =>
    rw [List.mapM_cons] at h
    obtain ⟨y, -, hrest⟩ := Option.bind_eq_some_iff.1 h
    obtain ⟨ys', hys', heq⟩ := Option.bind_eq_some_iff.1 hrest
    cases heq
    rw [List.length_cons, List.length_cons, ih hys']

/-! ## Numbers -/

namespace LittleEndian

/-- The `w` bytes of the number `n`, modulo `256 ^ w`, the low byte first. -/
def encode : Nat → Nat → List UInt8
  | 0, _ => []
  | w + 1, n => n.toUInt8 :: encode w (n / 256)

/-- The number that the bytes make. -/
def decode : List UInt8 → Nat
  | [] => 0
  | b :: bs => b.toNat + 256 * decode bs

@[simp] theorem length_encode (w n : Nat) : (encode w n).length = w := by
  induction w generalizing n with
  | zero => rfl
  | succ w ih => rw [encode, List.length_cons, ih]

theorem decode_encode (w n : Nat) : decode (encode w n) = n % 256 ^ w := by
  induction w generalizing n with
  | zero => simp [encode, decode, Nat.mod_one]
  | succ w ih =>
    rw [encode, decode, ih, pow_succ, Nat.mul_comm (256 ^ w), Nat.mod_mul]
    rfl

theorem decode_encode_of_lt {w n : Nat} (h : n < 256 ^ w) : decode (encode w n) = n := by
  rw [decode_encode, Nat.mod_eq_of_lt h]

/-- The low bytes of a number. -/
theorem take_encode {w d : Nat} (h : d ≤ w) (n : Nat) : (encode w n).take d = encode d n := by
  induction d generalizing w n with
  | zero => rfl
  | succ d ih =>
    obtain ⟨w, rfl⟩ : ∃ w', w = w' + 1 := ⟨w - 1, by omega⟩
    rw [encode, encode, List.take_succ_cons, ih (Nat.le_of_succ_le_succ h)]

/-- Reading `w` bytes as a number. -/
theorem decodes {w n : Nat} (h : n < 256 ^ w) :
    Decodes (decode <$> Decoder.take w) (encode w n) n := by
  have := (Decodes.take (encode w n)).map decode
  rwa [length_encode, decode_encode_of_lt h] at this

end LittleEndian

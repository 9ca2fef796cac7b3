import Eau2.Network.Message
import Eau2.Util.Array

/-!
# The buffers of a `Serializer` and a `Deserializer`

The other modules say what a `Serializer` is made to hold, the encodings of the
values added, and what a `Deserializer` makes of the bytes that are left
(`Decoder`). Here are the two as they are: an array that is replaced by a larger
one when there is no room in it, and a cursor in an array. Sizes are `size_t`:
they wrap around at `2 ^ 64`. An access out of the bounds of an array, a failed
assertion and a loop that does not end are `none`. Memory is not exhausted.

Main result: `deserialize_serialize`, whatever the values added, the array has the
concatenation of their encodings, and the `Deserializer` of these bytes reads the
values back. On the way, `Serializer.Holds` says what the array has, and
`Simulates` that the cursor does what a `Decoder` does.
-/

namespace Eau2.Buffer

open Wire (MsgType)

/-- `new char[n]`: the bytes are not initialized. -/
structure NewArray where
  bytes : Nat → Bytes
  length_bytes : ∀ n, (bytes n).length = n

/-- `p[i] = b`. -/
def setByte (p : Bytes) (i : Nat) (b : UInt8) : Option Bytes :=
  if i < p.length then some (p.set i b) else none

/-- A value, or the bytes of a buffer, stored at `p + offset`. -/
def store (p : Bytes) (offset : Nat) (val : Bytes) : Option Bytes :=
  if offset + val.length ≤ p.length then
    some (p.take offset ++ val ++ p.drop (offset + val.length))
  else none

/-- The `n` bytes at `p + offset`. -/
def load (p : Bytes) (offset n : Nat) : Option Bytes :=
  if offset + n ≤ p.length then some ((p.drop offset).take n) else none

/-! ## Writing -/

/-- A `Serializer`. -/
structure Serializer where
  bytes : Bytes
  size : Nat
  capacity : Nat

namespace Serializer

variable (alloc : NewArray)

/-- `Serializer()`. -/
def new : Serializer := ⟨alloc.bytes 8, 0, 8⟩

/-- The loop of `expand_`, from `factor` on: the factor at which it returns. A
    `size_t` has no more than `2 ^ 64` values, so that a loop that takes more
    rounds than that does not end. -/
def findFactor (minCapacity capacity : Nat) : Nat → Nat → Option Nat
  | 0, _ => none
  | rounds + 1, factor =>
    if minCapacity < capacity * factor % 2 ^ 64 then some factor
    else findFactor minCapacity capacity rounds ((factor + 1) % 2 ^ 64)

/-- The loop that copies the items over. -/
def copyItems (newBytes bytes : Bytes) (size : Nat) : Option Bytes :=
  (List.range size).foldlM (fun p i => do setByte p i (← bytes[i]?)) newBytes

/-- `expand_`. -/
def expand (s : Serializer) (minCapacity : Nat) : Option Serializer := do
  let factor ← findFactor minCapacity s.capacity (2 ^ 64) 2
  let newCapacity := s.capacity * factor % 2 ^ 64
  let newBytes ← copyItems (alloc.bytes newCapacity) s.bytes s.size
  return ⟨newBytes, s.size, newCapacity⟩

/-- What the `add_` functions do with a value: there is made room for its bytes,
    and they are stored after the ones there are. -/
def add (s : Serializer) (val : Bytes) : Option Serializer := do
  let newSize := (s.size + val.length) % 2 ^ 64
  let s ← if newSize > s.capacity then s.expand alloc newSize else some s
  let bytes ← store s.bytes s.size val
  return { s with bytes, size := newSize }

def addInt (s : Serializer) (val : BitVec 32) : Option Serializer :=
  s.add alloc (Eau2.Serializer.addInt val)

def addDouble (s : Serializer) (val : BitVec 64) : Option Serializer :=
  s.add alloc (Eau2.Serializer.addDouble val)

def addBool (s : Serializer) (val : Bool) : Option Serializer :=
  s.add alloc (Eau2.Serializer.addBool val)

def addUint16 (s : Serializer) (val : BitVec 16) : Option Serializer :=
  s.add alloc (Eau2.Serializer.addUint16 val)

def addUint32 (s : Serializer) (val : BitVec 32) : Option Serializer :=
  s.add alloc (Eau2.Serializer.addUint32 val)

def addSizeT (s : Serializer) (val : Nat) : Option Serializer :=
  s.add alloc (Eau2.Serializer.addSizeT val)

def addMsgType (s : Serializer) (val : MsgType) : Option Serializer :=
  s.add alloc (Wire.addMsgType val)

def addBuffer (s : Serializer) (buf : Bytes) : Option Serializer := do
  guard (0 < buf.length)
  s.add alloc buf

def addString (s : Serializer) (str : Str) : Option Serializer := do
  let s ← s.addSizeT alloc str.chars.length
  s.addBuffer alloc str.chars

end Serializer

/-! ### Growing -/

/-- The array has the bytes `w`, and perhaps room for more. -/
structure Serializer.Holds (s : Serializer) (w : Bytes) : Prop where
  length_bytes : s.bytes.length = s.capacity
  capacity_pos : 0 < s.capacity
  size_eq : s.size = w.length
  size_le : s.size ≤ s.capacity
  take_bytes : s.bytes.take s.size = w

/-- If the array, which has the bytes `w`, has to grow for `val`, then `expand_`
    returns with a capacity above the one asked for, and the array has `w` still. -/
def Serializer.Grows (alloc : NewArray) (s : Serializer) (w val : Bytes) : Prop :=
  let newSize := (s.size + val.length) % 2 ^ 64
  newSize > s.capacity →
    ∃ s', s.expand alloc newSize = some s' ∧ newSize < s'.capacity ∧ s'.Holds w

namespace Serializer

/-- The loop of `expand_` ends: no product up to the first that is large enough
    wraps around. -/
theorem findFactor_eq {minCapacity capacity : Nat} (hpos : 0 < capacity)
    (hle : capacity ≤ minCapacity) (hlt : minCapacity < 2 ^ 63) {rounds factor : Nat}
    (hf : factor ≤ minCapacity / capacity + 1)
    (hr : minCapacity / capacity + 1 < factor + rounds) :
    findFactor minCapacity capacity rounds factor = some (minCapacity / capacity + 1) := by
  induction rounds generalizing factor with
  | zero => omega
  | succ rounds ih =>
    have hdiv : minCapacity / capacity ≤ minCapacity := Nat.div_le_self _ _
    have hmul : capacity * (minCapacity / capacity) ≤ minCapacity := Nat.mul_div_le _ _
    have hprod : capacity * factor ≤ capacity * (minCapacity / capacity) + capacity := by
      rw [← Nat.mul_succ]
      exact Nat.mul_le_mul_left _ hf
    rw [findFactor, Nat.mod_eq_of_lt (by omega)]
    split_ifs with htest
    · -- The quotient is the last factor whose product is not above the minimum.
      have hlt' : minCapacity / capacity < factor := by
        rw [Nat.div_lt_iff_lt_mul hpos, Nat.mul_comm]
        exact htest
      rw [Nat.le_antisymm hf hlt']
    · have hne : factor ≠ minCapacity / capacity + 1 := by
        rintro rfl
        have := Nat.lt_mul_div_succ minCapacity hpos
        omega
      rw [Nat.mod_eq_of_lt (by omega)]
      exact ih (by omega) (by omega)

theorem setByte_eq {p : Bytes} {i : Nat} (h : i < p.length) (b : UInt8) :
    setByte p i b = some (p.set i b) := if_pos h

/-- The loop copies the items, and leaves the rest of the new array. -/
theorem copyItems_eq {newBytes bytes : Bytes} {size : Nat} (hs : size ≤ bytes.length)
    (hn : size ≤ newBytes.length) :
    copyItems newBytes bytes size = some (bytes.take size ++ newBytes.drop size) := by
  induction size with
  | zero => rfl
  | succ size ih =>
    have hih := ih (by omega) (by omega)
    rw [copyItems] at hih ⊢
    have hlen : (bytes.take size).length = size := List.length_take_of_le (by omega)
    rw [List.range_succ, List.foldlM_append, hih, Option.bind_eq_bind, Option.bind_some,
      List.foldlM_cons, List.getElem?_eq_getElem (by omega), Option.bind_eq_bind,
      Option.bind_eq_bind,
      Option.bind_some, setByte_eq (by simp; omega), Option.bind_some, List.foldlM_nil,
      List.set_append_right _ _ (by omega), hlen, Nat.sub_self,
      List.drop_eq_getElem_cons (by omega : size < newBytes.length), List.set_cons_zero,
      List.take_succ_eq_append_getElem (by omega), List.append_assoc]
    rfl

/-- The loop of `expand_` ends at a factor that makes room enough. -/
theorem exists_factor {minCapacity capacity : Nat} (hpos : 0 < capacity)
    (hle : capacity ≤ minCapacity) (hlt : minCapacity < 2 ^ 63) :
    ∃ factor, findFactor minCapacity capacity (2 ^ 64) 2 = some factor ∧
      minCapacity < capacity * factor ∧ capacity * factor < 2 ^ 64 := by
  have hone : 1 ≤ minCapacity / capacity := (Nat.one_le_div_iff hpos).2 hle
  have hdiv : minCapacity / capacity ≤ minCapacity := Nat.div_le_self _ _
  have hmul : capacity * (minCapacity / capacity) ≤ minCapacity := Nat.mul_div_le _ _
  refine ⟨minCapacity / capacity + 1, findFactor_eq hpos hle hlt (by omega) (by omega),
    Nat.lt_mul_div_succ minCapacity hpos, ?_⟩
  rw [Nat.mul_succ]
  omega

theorem holds_append {w rest : Bytes} {capacity : Nat} (hlen : (w ++ rest).length = capacity)
    (hpos : 0 < capacity) : Holds ⟨w ++ rest, w.length, capacity⟩ w where
  length_bytes := hlen
  capacity_pos := hpos
  size_eq := rfl
  size_le := by
    rw [← hlen, List.length_append]
    exact Nat.le_add_right _ _
  take_bytes := List.take_left

theorem holds_new (alloc : NewArray) : (new alloc).Holds [] :=
  holds_append (w := []) (alloc.length_bytes 8) (by norm_num)

variable {alloc : NewArray} {s : Serializer} {w : Bytes}

/-- `expand_` returns, with a capacity above the one asked for, and loses nothing. -/
theorem Holds.expand (alloc : NewArray) (hs : s.Holds w) {minCapacity : Nat}
    (hle : s.capacity ≤ minCapacity) (hlt : minCapacity < 2 ^ 63) :
    ∃ s', s.expand alloc minCapacity = some s' ∧ minCapacity < s'.capacity ∧ s'.Holds w := by
  obtain ⟨factor, hfactor, hmin, hcap⟩ := exists_factor hs.capacity_pos hle hlt
  have hnew := alloc.length_bytes (s.capacity * factor)
  have hsize := hs.size_le
  have hcopy := copyItems_eq (hsize.trans_eq hs.length_bytes.symm)
    (show s.size ≤ (alloc.bytes (s.capacity * factor)).length by omega)
  rw [hs.take_bytes, hs.size_eq] at hcopy
  refine ⟨⟨w ++ (alloc.bytes (s.capacity * factor)).drop w.length, w.length, s.capacity * factor⟩,
    ?_, hmin, holds_append ?_ (by omega)⟩
  · refine Option.bind_eq_some_iff.2 ⟨factor, hfactor, ?_⟩
    rw [Nat.mod_eq_of_lt hcap, hs.size_eq]
    exact Option.bind_eq_some_iff.2 ⟨_, hcopy, rfl⟩
  · rw [List.length_append, List.length_drop, hnew]
    have := hs.size_eq
    omega

/-- A store where there is room. -/
theorem Holds.store (hs : s.Holds w) (val : Bytes) (h : s.size + val.length ≤ s.capacity) :
    ∃ bytes, Buffer.store s.bytes s.size val = some bytes ∧
      Holds ⟨bytes, s.size + val.length, s.capacity⟩ (w ++ val) := by
  have hlen := hs.length_bytes
  refine ⟨_, if_pos (by omega), ?_⟩
  rw [hs.take_bytes, hs.size_eq, ← List.length_append]
  refine holds_append ?_ hs.capacity_pos
  have := hs.size_eq
  rw [List.length_append, List.length_append, List.length_drop]
  omega

/-- What the `add_` functions do, whether the array grows or not. -/
theorem Holds.add (alloc : NewArray) (hs : s.Holds w) (val : Bytes)
    (hlt : (w ++ val).length < 2 ^ 63) :
    ∃ s', s.add alloc val = some s' ∧ s'.Holds (w ++ val) := by
  have hsize := hs.size_eq
  rw [List.length_append] at hlt
  rw [Serializer.add, Nat.mod_eq_of_lt (by omega)]
  by_cases hroom : s.size + val.length > s.capacity
  · obtain ⟨s₁, hexpand, hcap, hs₁⟩ := hs.expand alloc hroom.le (by omega)
    have hsize₁ : s₁.size = s.size := hs₁.size_eq.trans hsize.symm
    obtain ⟨bytes, hstore, hs'⟩ := hs₁.store val (by omega)
    rw [if_pos hroom, ← hsize₁]
    rw [← hsize₁] at hexpand
    refine ⟨_, Option.bind_eq_some_iff.2 ⟨s₁, hexpand, ?_⟩, hs'⟩
    exact Option.bind_eq_some_iff.2 ⟨bytes, hstore, rfl⟩
  · obtain ⟨bytes, hstore, hs'⟩ := hs.store val (by omega)
    rw [if_neg hroom]
    refine ⟨_, Option.bind_eq_some_iff.2 ⟨s, rfl, ?_⟩, hs'⟩
    exact Option.bind_eq_some_iff.2 ⟨bytes, hstore, rfl⟩

/-- Stores one after the other. -/
theorem Holds.foldlM_add (alloc : NewArray) (vals : List Bytes) (hs : s.Holds w)
    (hlt : (w ++ vals.flatten).length < 2 ^ 63) :
    ∃ s', vals.foldlM (Serializer.add alloc) s = some s' ∧ s'.Holds (w ++ vals.flatten) := by
  induction vals generalizing s w with
  | nil => exact ⟨s, rfl, by rwa [List.flatten_nil, List.append_nil]⟩
  | cons val vals ih =>
    rw [List.flatten_cons, ← List.append_assoc] at hlt ⊢
    obtain ⟨s₁, hadd, hs₁⟩ := hs.add alloc val
      ((List.length_append ▸ Nat.le_add_right _ _).trans_lt hlt)
    obtain ⟨s', hrun, hs'⟩ := ih hs₁ hlt
    exact ⟨s', by rw [List.foldlM_cons, hadd]; exact hrun, hs'⟩

end Serializer

/-! ## Reading -/

/-- A `Deserializer`: `current_` is the offset in the array. -/
structure Deserializer where
  bytes : Bytes
  current : Nat
  bytesRemaining : Nat

/-- What the functions of a `Deserializer` are. -/
abbrev Getter := StateT Deserializer Option

namespace Deserializer

/-- `Deserializer(const char* buf, size_t num_bytes)`. -/
def new (buf : Bytes) (numBytes : Nat) : Option Deserializer := do
  let bytes ← load buf 0 numBytes
  return ⟨bytes, 0, numBytes⟩

/-- What the `get_` functions share: the next `n` bytes. -/
def get (n : Nat) : Getter Bytes := fun d => do
  guard (n ≤ d.bytesRemaining)
  let result ← load d.bytes d.current n
  return (result, { d with current := d.current + n, bytesRemaining := d.bytesRemaining - n })

def getInt : Getter (BitVec 32) := BitVec.ofNat 32 <$> LittleEndian.decode <$> get 4

def getDouble : Getter (BitVec 64) := BitVec.ofNat 64 <$> LittleEndian.decode <$> get 8

def getBool : Getter Bool := (fun n => n != 0) <$> LittleEndian.decode <$> get 1

def getUint16 : Getter (BitVec 16) := BitVec.ofNat 16 <$> LittleEndian.decode <$> get 2

def getUint32 : Getter (BitVec 32) := BitVec.ofNat 32 <$> LittleEndian.decode <$> get 4

def getSizeT : Getter Nat := LittleEndian.decode <$> get 8

/-- An `int` that is no enumerator is `none`. -/
def getMsgType : Getter (Option MsgType) := MsgType.ofInt <$> getInt

def getBuffer (numBytes : Nat) : Getter Bytes := do
  guard (0 < numBytes)
  get numBytes

def getString : Getter Str := do
  let len ← getSizeT
  let chars ← getBuffer len
  if h : chars.length < 2 ^ 64 then pure ⟨chars, h⟩ else failure

end Deserializer

/-! ### The cursor -/

/-- The bytes `rest` are left. -/
structure Deserializer.Left (d : Deserializer) (rest : Bytes) : Prop where
  add_eq : d.current + rest.length = d.bytes.length
  drop_eq : d.bytes.drop d.current = rest
  bytesRemaining_eq : d.bytesRemaining = rest.length

/-- The function does with the array what the decoder does with what is left of
    it: the two fail together, or return the same and leave the same. -/
def Simulates {α : Type} (g : Getter α) (dec : Decoder UInt8 α) : Prop :=
  ∀ ⦃d rest⦄, d.Left rest →
    Option.Rel (fun p q => p.1 = q.1 ∧ p.2.Left q.2) (g.run d) (dec.run rest)

namespace Simulates

variable {α β : Type} {g : Getter α} {dec : Decoder UInt8 α} {f : α → Getter β}
  {f' : α → Decoder UInt8 β}

theorem pure (x : α) : Simulates (Pure.pure x) (Pure.pure x) := fun _ _ h => .some ⟨rfl, h⟩

theorem fail : Simulates (failure : Getter α) failure := fun _ _ _ => .none

theorem bind (h : Simulates g dec) (hf : ∀ x, Simulates (f x) (f' x)) :
    Simulates (g >>= f) (dec >>= f') := by
  intro d rest hd
  rw [StateT.run_bind, StateT.run_bind]
  generalize hp : g.run d = p
  generalize hq : dec.run rest = q
  have hpq := h hd
  rw [hp, hq] at hpq
  cases hpq with
  | none => exact .none
  | some heq =>
    obtain ⟨hx, hleft⟩ := heq
    rw [Option.bind_eq_bind, Option.bind_eq_bind, Option.bind_some, Option.bind_some, hx]
    exact hf _ hleft

theorem map (h : Simulates g dec) (g' : α → β) : Simulates (g' <$> g) (g' <$> dec) := by
  rw [map_eq_pure_bind, map_eq_pure_bind]
  exact h.bind fun x => pure _

theorem assert (c : Prop) [Decidable c] : Simulates (guard c) (Decoder.assert c) := by
  intro d rest hd
  by_cases hc : c
  · rw [guard, if_pos hc, StateT.run, StateT.run, Decoder.assert, if_pos hc]
    exact .some ⟨rfl, hd⟩
  · rw [guard, if_neg hc, StateT.run, StateT.run, Decoder.assert, if_neg hc]
    exact .none

/-- The next `n` bytes. -/
theorem get (n : Nat) : Simulates (Deserializer.get n) (Decoder.take n) := by
  intro d rest hd
  have hadd := hd.add_eq
  have hrem := hd.bytesRemaining_eq
  simp only [Deserializer.get, Decoder.take, StateT.run, List.splitAt_eq]
  by_cases hn : n ≤ rest.length
  · rw [if_pos hn, guard, if_pos (hrem ▸ hn), load, if_pos (by omega), hd.drop_eq]
    refine .some ⟨rfl, ?_⟩
    exact {
      add_eq := by
        rw [List.length_drop]
        change d.current + n + _ = d.bytes.length
        omega
      drop_eq := by
        rw [← hd.drop_eq, List.drop_drop]
      bytesRemaining_eq := by rw [List.length_drop, hrem] }
  · rw [if_neg hn, guard, if_neg (hrem ▸ hn)]
    exact .none

theorem getInt : Simulates Deserializer.getInt Eau2.Deserializer.getInt := ((get 4).map _).map _

theorem getDouble : Simulates Deserializer.getDouble Eau2.Deserializer.getDouble :=
  ((get 8).map _).map _

theorem getBool : Simulates Deserializer.getBool Eau2.Deserializer.getBool := ((get 1).map _).map _

theorem getUint16 : Simulates Deserializer.getUint16 Eau2.Deserializer.getUint16 :=
  ((get 2).map _).map _

theorem getUint32 : Simulates Deserializer.getUint32 Eau2.Deserializer.getUint32 :=
  ((get 4).map _).map _

theorem getSizeT : Simulates Deserializer.getSizeT Eau2.Deserializer.getSizeT := (get 8).map _

theorem getMsgType : Simulates Deserializer.getMsgType Wire.getMsgType := getInt.map _

theorem getBuffer (n : Nat) : Simulates (Deserializer.getBuffer n)
    (Eau2.Deserializer.getBuffer n) :=
  (assert (0 < n)).bind fun _ => get n

theorem getString : Simulates Deserializer.getString getStr := by
  have hstr : ∀ chars : Bytes, Simulates
      (if h : chars.length < 2 ^ 64 then Pure.pure ⟨chars, h⟩ else failure : Getter Str)
      (if h : chars.length < 2 ^ 64 then Pure.pure ⟨chars, h⟩ else failure) := by
    intro chars
    by_cases hlt : chars.length < 2 ^ 64
    · rw [dif_pos hlt, dif_pos hlt]
      exact pure _
    · rw [dif_neg hlt, dif_neg hlt]
      exact fail
  unfold getStr Eau2.Deserializer.getString
  rw [bind_assoc]
  exact getSizeT.bind fun len => (getBuffer len).bind hstr

end Simulates

/-- From an array where `w` is left, and what follows it, the function returns `x`
    and leaves what follows. -/
def Reads {α : Type} (g : Getter α) (w : Bytes) (x : α) : Prop :=
  ∀ ⦃d rest⦄, d.Left (w ++ rest) → ∃ d', g.run d = some (x, d') ∧ d'.Left rest

theorem Simulates.reads {α : Type} {g : Getter α} {dec : Decoder UInt8 α} {w : Bytes} {x : α}
    (h : Simulates g dec) (hdec : Decodes dec w x) : Reads g w x := by
  intro d rest hd
  have hrel := h hd
  rw [hdec rest] at hrel
  generalize hp : g.run d = p at hrel
  cases hrel with
  | some heq =>
    obtain ⟨hx, hleft⟩ := heq
    exact ⟨_, congrArg some (Prod.ext hx rfl), hleft⟩

namespace Reads

variable {α β : Type} {g : Getter α} {f : α → Getter β} {w w' : Bytes} {x : α} {y : β}

theorem pure (x : α) : Reads (Pure.pure x) [] x := fun d _ hd => ⟨d, rfl, hd⟩

theorem bind (h : Reads g w x) (h' : Reads (f x) w' y) : Reads (g >>= f) (w ++ w') y := by
  intro d rest hd
  rw [List.append_assoc] at hd
  obtain ⟨d₁, hrun, hd₁⟩ := h hd
  rw [StateT.run_bind, hrun]
  exact h' hd₁

theorem read (h : Reads g w x) (h' : Reads (f x) [] y) : Reads (g >>= f) w y :=
  List.append_nil w ▸ h.bind h'

theorem map (h : Reads g w x) (g' : α → β) : Reads (g' <$> g) w (g' x) := by
  rw [map_eq_pure_bind]
  exact h.read (pure _)

end Reads

/-! ## Sequences of operations -/

/-- A value that is added. -/
inductive Item
  | int (val : BitVec 32)
  | double (val : BitVec 64)
  | bool (val : Bool)
  | uint16 (val : BitVec 16)
  | uint32 (val : BitVec 32)
  | sizeT (val : BitVec 64)
  | msgType (val : MsgType)
  | buffer (buf : Bytes)
  | string (str : Str)
  deriving DecidableEq

/-- The operation that reads a value: that of a buffer is given its length. -/
inductive Op
  | int
  | double
  | bool
  | uint16
  | uint32
  | sizeT
  | msgType
  | buffer (numBytes : Nat)
  | string

namespace Item

/-- The operation that adds the value. -/
def add (alloc : NewArray) (s : Serializer) : Item → Option Serializer
  | int val => s.addInt alloc val
  | double val => s.addDouble alloc val
  | bool val => s.addBool alloc val
  | uint16 val => s.addUint16 alloc val
  | uint32 val => s.addUint32 alloc val
  | sizeT val => s.addSizeT alloc val.toNat
  | msgType val => s.addMsgType alloc val
  | buffer buf => s.addBuffer alloc buf
  | string str => s.addString alloc str

/-- The operation that reads it. -/
def op : Item → Op
  | int _ => .int
  | double _ => .double
  | bool _ => .bool
  | uint16 _ => .uint16
  | uint32 _ => .uint32
  | sizeT _ => .sizeT
  | msgType _ => .msgType
  | buffer buf => .buffer buf.length
  | string _ => .string

/-- What the operation stores, one after the other. -/
def stores : Item → List Bytes
  | int val => [Eau2.Serializer.addInt val]
  | double val => [Eau2.Serializer.addDouble val]
  | bool val => [Eau2.Serializer.addBool val]
  | uint16 val => [Eau2.Serializer.addUint16 val]
  | uint32 val => [Eau2.Serializer.addUint32 val]
  | sizeT val => [Eau2.Serializer.addSizeT val.toNat]
  | msgType val => [Wire.addMsgType val]
  | buffer buf => [buf]
  | string str => [Eau2.Serializer.addSizeT str.chars.length, str.chars]

/-- The encoding of the value. -/
def encode (x : Item) : Bytes := x.stores.flatten

/-- Buffers and strings have something in them. -/
def Nonempty : Item → Prop
  | buffer buf => buf ≠ []
  | string str => str.chars ≠ []
  | _ => True

end Item

/-- The value that the operation reads. -/
def Op.get : Op → Getter Item
  | int => .int <$> Deserializer.getInt
  | double => .double <$> Deserializer.getDouble
  | bool => .bool <$> Deserializer.getBool
  | uint16 => .uint16 <$> Deserializer.getUint16
  | uint32 => .uint32 <$> Deserializer.getUint32
  | sizeT => (fun n => .sizeT (BitVec.ofNat 64 n)) <$> Deserializer.getSizeT
  | msgType => do
    match ← Deserializer.getMsgType with
    | some t => return .msgType t
    | none => failure
  | buffer numBytes => .buffer <$> Deserializer.getBuffer numBytes
  | string => .string <$> Deserializer.getString

/-! ### Both ways -/

namespace Item

/-- Adding a value is a sequence of stores. -/
theorem add_eq {x : Item} (h : x.Nonempty) (alloc : NewArray) (s : Serializer) :
    x.add alloc s = x.stores.foldlM (Serializer.add alloc) s := by
  cases x with
  | buffer buf =>
    have hlen : 0 < buf.length := List.length_pos_of_ne_nil h
    rw [add, Serializer.addBuffer, guard, if_pos hlen, stores, List.foldlM_cons]
    simp
  | string str =>
    have hlen : 0 < str.chars.length := List.length_pos_of_ne_nil h
    simp [add, Serializer.addString, Serializer.addBuffer, Serializer.addSizeT, stores, guard, hlen]
  | _ =>
    simp [add, stores, Serializer.addInt, Serializer.addDouble, Serializer.addBool,
      Serializer.addUint16, Serializer.addUint32, Serializer.addSizeT, Serializer.addMsgType]

theorem foldlM_add {items : List Item} (h : ∀ x ∈ items, x.Nonempty) (alloc : NewArray)
    (s : Serializer) : items.foldlM (Item.add alloc) s =
      (items.flatMap Item.stores).foldlM (Serializer.add alloc) s := by
  induction items generalizing s with
  | nil => rfl
  | cons x items ih =>
    rw [List.forall_mem_cons] at h
    rw [List.foldlM_cons, List.flatMap_cons, List.foldlM_append, add_eq h.1]
    exact congrArg _ (funext fun s => ih h.2 s)

/-- The operation that reads a value reads it from its encoding. -/
theorem reads {x : Item} (h : x.Nonempty) : Reads x.op.get x.encode x := by
  cases x with
  | int val => exact (Simulates.getInt.reads (decodes_int val)).map Item.int
  | double val => exact (Simulates.getDouble.reads (decodes_double val)).map Item.double
  | bool val => exact (Simulates.getBool.reads (decodes_bool val)).map Item.bool
  | uint16 val => exact (Simulates.getUint16.reads (decodes_uint16 val)).map Item.uint16
  | uint32 val => exact (Simulates.getUint32.reads (decodes_uint32 val)).map Item.uint32
  | sizeT val =>
    have hread := (Simulates.getSizeT.reads (decodes_sizeT val.isLt)).map
      fun n => Item.sizeT (BitVec.ofNat 64 n)
    rwa [BitVec.ofNat_toNat, BitVec.setWidth_eq] at hread
  | msgType val => exact (Simulates.getMsgType.reads (Wire.decodes_msgType val)).read (.pure _)
  | buffer buf =>
    have hread := ((Simulates.getBuffer _).reads (decodes_buffer h)).map Item.buffer
    rwa [encode, stores, List.flatten_singleton]
  | string str =>
    have hread := (Simulates.getString.reads (decodes_str h)).map Item.string
    rwa [encode, stores, List.flatten_cons, List.flatten_singleton]

end Item

/-- The values of a sequence are read in turn. -/
theorem reads_mapM {items : List Item} (h : ∀ x ∈ items, x.Nonempty) :
    Reads (items.mapM fun x => x.op.get) (items.flatMap Item.encode) items := by
  induction items with
  | nil => exact .pure []
  | cons x items ih =>
    rw [List.forall_mem_cons] at h
    rw [List.mapM_cons, List.flatMap_cons]
    exact (x.reads h.1).bind ((ih h.2).read (.pure _))

/-- The bytes that a `Serializer` has, all of which are left. -/
theorem Serializer.Holds.exists_deserializer {s : Serializer} {w : Bytes} (hs : s.Holds w) :
    ∃ d, Deserializer.new s.bytes s.size = some d ∧ d.Left w := by
  have hload : load s.bytes 0 s.size = some w := by
    rw [load, if_pos (by rw [hs.length_bytes, Nat.zero_add]; exact hs.size_le), List.drop_zero,
      hs.take_bytes]
  refine ⟨⟨w, 0, s.size⟩, Option.bind_eq_some_iff.2 ⟨w, hload, rfl⟩, ?_⟩
  exact {
    add_eq := Nat.zero_add _
    drop_eq := List.drop_zero
    bytesRemaining_eq := hs.size_eq }

/-- The values added, whatever they are, are the values read back. At every store
    on the way the array has what was stored before, and if it grows, it grows
    enough and loses nothing. -/
theorem deserialize_serialize (alloc : NewArray) {items : List Item}
    (hne : ∀ x ∈ items, x.Nonempty) (hlt : (items.flatMap Item.encode).length < 2 ^ 63) :
    (∀ before val after, items.flatMap Item.stores = before ++ val :: after →
      ∃ s, before.foldlM (Serializer.add alloc) (.new alloc) = some s ∧ s.Holds before.flatten ∧
        s.Grows alloc before.flatten val) ∧
    ∃ s, items.foldlM (Item.add alloc) (.new alloc) = some s ∧
      (items.flatMap Item.stores).foldlM (Serializer.add alloc) (.new alloc) = some s ∧
      s.Holds (items.flatMap Item.encode) ∧
      ∃ d d', Deserializer.new s.bytes s.size = some d ∧
        (items.mapM fun x : Item => x.op.get).run d = some (items, d') ∧ d'.bytesRemaining = 0 := by
  have hflat : (items.flatMap Item.stores).flatten = items.flatMap Item.encode := by
    rw [← List.flatMap_id, List.flatMap_assoc]
    exact List.flatMap_congr fun x _ => List.flatMap_id
  refine ⟨?_, ?_⟩
  · -- Before each store, what has been stored is less than 2 ^ 63 bytes with the value.
    intro before val after heq
    rw [← hflat, heq, List.flatten_append, List.flatten_cons, List.length_append,
      List.length_append] at hlt
    obtain ⟨s, hrun, hs⟩ := (Serializer.holds_new alloc).foldlM_add alloc before
      (by rw [List.nil_append]; omega)
    refine ⟨s, hrun, hs, fun hroom => hs.expand alloc hroom.le ?_⟩
    have := hs.size_eq
    rw [List.nil_append] at this
    rw [Nat.mod_eq_of_lt (by omega)]
    omega
  · obtain ⟨s, hrun, hs⟩ := (Serializer.holds_new alloc).foldlM_add alloc
      (items.flatMap Item.stores) (by rwa [List.nil_append, hflat])
    rw [List.nil_append, hflat] at hs
    obtain ⟨d, hd, hleft⟩ := hs.exists_deserializer
    -- nothing is left behind the values
    rw [← List.append_nil (items.flatMap Item.encode)] at hleft
    obtain ⟨d', hread, hleft'⟩ := reads_mapM hne hleft
    refine ⟨s, ?_, hrun, hs, d, d', hd, hread, hleft'.bytesRemaining_eq⟩
    rw [← hrun, Item.foldlM_add hne]

/-- A number, a string with a NUL in it, a buffer and a kind of message: the array
    grows from 8 bytes to 32. -/
theorem deserialize_serialize_mixed :
    ∃ s, [.int (-12345), .string ⟨[104, 0, 105], by decide⟩, .buffer [1, 2, 3],
      .msgType .reply].foldlM
        (Item.add ⟨fun n => List.replicate n 205, fun _ => List.length_replicate⟩)
        (.new ⟨fun n => List.replicate n 205, fun _ => List.length_replicate⟩) = some s ∧
      ∃ d d', Deserializer.new s.bytes s.size = some d ∧
        ([Op.int, .string, .buffer 3, .msgType].mapM Op.get).run d =
          some ([.int (-12345), .string ⟨[104, 0, 105], by decide⟩, .buffer [1, 2, 3],
            .msgType .reply], d') ∧ d'.bytesRemaining = 0 := by
  have hne : ∀ x ∈ [Item.int (-12345), .string ⟨[104, 0, 105], by decide⟩, .buffer [1, 2, 3],
      .msgType .reply], x.Nonempty := by simp [Item.Nonempty]
  obtain ⟨-, s, hrun, -, -, d, d', hd, hread, hrem⟩ := deserialize_serialize
    ⟨fun n => List.replicate n 205, fun _ => List.length_replicate⟩ hne (by decide)
  exact ⟨s, hrun, d, d', hd, hread, hrem⟩

end Eau2.Buffer

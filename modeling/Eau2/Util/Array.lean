import Eau2.Util.Serial

/-!
# Arrays

The four classes of arrays differ in the type of their elements and in how an
element is serialized. What they share is `BaseArray`, the class `Array`: a
sequence of elements and a capacity it does not outgrow.

An array is serialized as its size and its elements; the array read back has the
same elements, and no room for more.
-/

namespace Eau2

/-- The class `Array`: `items_` up to `size_`, and `capacity_`. -/
structure BaseArray (α : Type) where
  items : List α
  capacity : Nat
  deriving DecidableEq

namespace BaseArray

variable {α : Type}

/-- `Array(size_t max_size)`. -/
def ofCapacity (maxSize : Nat) : BaseArray α := ⟨[], maxSize⟩

/-- `size()`. -/
def size (a : BaseArray α) : Nat := a.items.length

/-- `push_back`. -/
def pushBack (a : BaseArray α) (d : α) : Option (BaseArray α) :=
  if a.size < a.capacity then some { a with items := a.items ++ [d] } else none

/-- `get`. -/
def get (a : BaseArray α) (i : Nat) : Option α := a.items[i]?

/-- The methods `serialize`, given that of the elements. -/
def serialize (add : α → Option Bytes) (a : BaseArray α) : Option Bytes := do
  let elems ← a.items.mapM add
  return Serializer.addSizeT a.size ++ elems.flatten

/-- The constructors from a `Deserializer`, given that of the elements: the array
    is created with the capacity read, and filled by `push_back`. -/
def deserialize (get : Deserializer α) : Deserializer (BaseArray α) := do
  let maxSize ← Deserializer.getSizeT
  let elems ← get.times maxSize
  Decoder.ofOption (elems.foldlM pushBack (ofCapacity maxSize))

theorem pushBack_eq {a : BaseArray α} (h : a.size < a.capacity) (d : α) :
    a.pushBack d = some ⟨a.items ++ [d], a.capacity⟩ := if_pos h

theorem foldlM_pushBack (xs : List α) (a : BaseArray α) (h : a.size + xs.length ≤ a.capacity) :
    xs.foldlM pushBack a = some ⟨a.items ++ xs, a.capacity⟩ := by
  induction xs generalizing a with
  | nil => simp
  | cons x xs ih =>
    rw [List.length_cons] at h
    rw [List.foldlM_cons, pushBack_eq (by omega), Option.bind_eq_bind, Option.bind_some, ih]
    · simp
    · simp only [size, List.length_append, List.length_singleton] at h ⊢
      omega

/-- How the elements of an array are serialized, when they are. -/
theorem serialize_eq {add : α → Option Bytes} {enc : α → Bytes} {a : BaseArray α}
    (h : ∀ x ∈ a.items, add x = some (enc x)) :
    a.serialize add = some (Serializer.addSizeT a.size ++ a.items.flatMap enc) := by
  rw [serialize, List.mapM_eq_some_map h]
  rfl

/-- An array read back has the elements it had. -/
theorem decodes {get : Deserializer α} {enc : α → Bytes} {a : BaseArray α} (hsize : a.size < 2 ^ 64)
    (h : ∀ x ∈ a.items, Decodes get (enc x) x) :
    Decodes (deserialize get) (Serializer.addSizeT a.size ++ a.items.flatMap enc)
    ⟨a.items, a.size⟩ := by
  refine (decodes_sizeT hsize).bind ?_
  have hfold : a.items.foldlM pushBack (ofCapacity a.size) = some ⟨a.items, a.size⟩ :=
    foldlM_pushBack a.items (ofCapacity a.size) (by simp [ofCapacity, size])
  have := (Decodes.times h).bind (f := fun elems =>
    Decoder.ofOption (elems.foldlM pushBack (ofCapacity a.size))) (y := ⟨a.items, a.size⟩)
    (by rw [hfold]; exact Decodes.pure _)
  rwa [List.append_nil] at this

end BaseArray

abbrev IntArray := BaseArray (BitVec 32)
abbrev DoubleArray := BaseArray (BitVec 64)
abbrev BoolArray := BaseArray Bool
abbrev StringArray := BaseArray Str

def IntArray.serialize : IntArray → Option Bytes :=
  BaseArray.serialize fun i => some (Serializer.addInt i)

def DoubleArray.serialize : DoubleArray → Option Bytes :=
  BaseArray.serialize fun v => some (Serializer.addDouble v)

def BoolArray.serialize : BoolArray → Option Bytes :=
  BaseArray.serialize fun b => some (Serializer.addBool b)

def StringArray.serialize : StringArray → Option Bytes :=
  BaseArray.serialize fun s => Serializer.addString s.chars

def IntArray.deserialize : Deserializer IntArray := BaseArray.deserialize Deserializer.getInt

def DoubleArray.deserialize : Deserializer DoubleArray :=
  BaseArray.deserialize Deserializer.getDouble

def BoolArray.deserialize : Deserializer BoolArray := BaseArray.deserialize Deserializer.getBool

/-- The string read by `get_string`, as a `String`: its length is a `size_t`. -/
def getStr : Deserializer Str := do
  let s ← Deserializer.getString
  if h : s.length < 2 ^ 64 then pure ⟨s, h⟩ else failure

def StringArray.deserialize : Deserializer StringArray := BaseArray.deserialize getStr

theorem decodes_str {s : Str} (h : s.chars ≠ []) :
    Decodes getStr (Serializer.addSizeT s.chars.length ++ s.chars) s := by
  have := (decodes_string h s.size_lt).bind
    (f := fun s => if h : s.length < 2 ^ 64 then pure ⟨s, h⟩ else failure) (y := s)
    (by rw [dif_pos s.size_lt]; exact Decodes.pure _)
  rwa [List.append_nil] at this

end Eau2

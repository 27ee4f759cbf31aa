import Mathlib.Algebra.Group.Nat.Defs
import Mathlib.Data.List.Basic

/-!
# Keys

`masstree_key.h`: a byte string cut into slices of eight bytes, big-endian and padded
with zero bytes, with the number of bytes in the last slice. A slice is its value as a
number. The cursor is the layer that an operation has reached.
-/

namespace Cassa.Masstree

structure SliceWithSize where
  slice : Nat
  size : Nat
  deriving DecidableEq

structure Key where
  slices : List Nat
  lastSliceSize : Nat
  cursor : Nat
  deriving DecidableEq

namespace Key

def hasNext (k : Key) : Bool := k.slices.length != k.cursor + 1

def remainLength (k : Key) (start : Nat) : Nat := (k.slices.length - start - 1) * 8 + k.lastSliceSize

def getCurrentSliceSize (k : Key) : Nat := if k.hasNext then 8 else k.lastSliceSize

def getCurrentSlice (k : Key) : SliceWithSize := ⟨k.slices.getD k.cursor 0, k.getCurrentSliceSize⟩

def next (k : Key) : Key := { k with cursor := k.cursor + 1 }

def back (k : Key) : Key := { k with cursor := k.cursor - 1 }

def reset (k : Key) : Key := { k with cursor := 0 }

/-- One turn of the outer loop of `string_to_uint64t`: up to eight bytes shifted in, and
the rest of the slice filled with zeros. -/
def packSlice (bytes : List UInt8) : Nat :=
  bytes.foldl (fun slice b => slice * 2 ^ 8 + b.toNat) 0 * 2 ^ ((8 - bytes.length) * 8)

/-- The bytes in groups of eight. -/
def groups : Nat → List UInt8 → List (List UInt8)
  | 0, _ => []
  | _ + 1, [] => []
  | n + 1, b :: bytes => (b :: bytes).take 8 :: groups n ((b :: bytes).drop 8)

def string_to_uint64t (key : List UInt8) : List Nat × Nat :=
  let gs := groups key.length key
  (gs.map packSlice, (gs.getLast?.map List.length).getD 0)

def ofString (key : List UInt8) : Key :=
  ⟨(string_to_uint64t key).1, (string_to_uint64t key).2, 0⟩

/-- What the constructors assert of a key, with the cursor on one of its slices. -/
structure Wf (k : Key) : Prop where
  cursor : k.cursor < k.slices.length
  size : 1 ≤ k.lastSliceSize ∧ k.lastSliceSize ≤ 8
  slices : ∀ s ∈ k.slices, s < 2 ^ 64

end Key

end Cassa.Masstree

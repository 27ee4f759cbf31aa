import Cassa.Masstree.Key

/-!
# Nodes

`masstree_node.h`, `masstree_version.h` and `permutation.h`, for operations that run one
after another: a section between `lock` and `unlock` is one step, so of the version word
only the flags and the split counter are kept. An address is a number and memory a
function from addresses to nodes. The four arrays of a border node are one array of
slots, and a permutation is the list of slot numbers that it packs into a word. `ORDER`
is 16: a node has up to 15 keys.
-/

namespace Cassa.Masstree

variable {V : Type}

abbrev Ptr := Nat

inductive Status where
  | OK | WARN_ALREADY_EXISTS | WARN_NOT_FOUND | ERROR_CONCURRENT_WRITE_OR_DELETE
  | RETRY_FROM_UPPER_LAYER
  deriving DecidableEq, Repr

inductive LinkOrValue (V : Type) where
  | null
  | link (next_layer : Ptr)
  | value (value : V)
  deriving DecidableEq, Repr

/-- `lv.next_layer == p`; the address of a value is never that of a node. -/
def LinkOrValue.isLink (p : Ptr) : LinkOrValue V → Bool
  | .link q => q == p
  | _ => false

/-- `lv.value` where the slot holds a value. -/
def LinkOrValue.value? : LinkOrValue V → Option V
  | .value v => some v
  | _ => none

structure BigSuffix where
  slices : List Nat
  lastSliceSize : Nat
  deriving DecidableEq, Repr

namespace BigSuffix

def hasNext (s : BigSuffix) : Bool := 2 ≤ s.slices.length

def getCurrentSlice (s : BigSuffix) : SliceWithSize :=
  ⟨s.slices.headD 0, if s.hasNext then 8 else s.lastSliceSize⟩

def remainLength (s : BigSuffix) : Nat := (s.slices.length - 1) * 8 + s.lastSliceSize

def next (s : BigSuffix) : BigSuffix := { s with slices := s.slices.tail }

def insertTop (s : BigSuffix) (slice : Nat) : BigSuffix := { s with slices := slice :: s.slices }

def isSame (s : BigSuffix) (key : Key) (start : Nat) : Bool :=
  key.remainLength start == s.remainLength &&
    (List.range s.slices.length).all fun i => key.slices.getD (i + start) 0 == s.slices.getD i 0

/-- `BigSuffix::from` -/
def from_ (key : Key) (start : Nat) : BigSuffix := ⟨key.slices.drop start, key.lastSliceSize⟩

end BigSuffix

def key_len_layer : Nat := 255

def key_len_unstable : Nat := 254

def key_len_has_suffix : Nat := 9

/-- One entry of the arrays of a border node. -/
structure Slot (V : Type) where
  key_len : Nat
  key_slice : Nat
  lv : LinkOrValue V
  suffix : Option BigSuffix
  deriving DecidableEq, Repr

def Slot.empty : Slot V := ⟨0, 0, .null, none⟩

/-- The fields of `Node`, then those of `BorderNode`, then those of `InteriorNode`. -/
structure Node (V : Type) where
  is_border : Bool
  is_root : Bool
  deleted : Bool
  v_split : Nat
  parent : Option Ptr
  upperLayer : Option Ptr
  slot : Nat → Slot V
  permutation : List Nat
  next : Option Ptr
  prev : Option Ptr
  n_keys : Nat
  key_slice : Nat → Nat
  child : Nat → Option Ptr

namespace Node

/-- `new BorderNode`, with `Permutation::sizeOne()`. -/
def newBorder : Node V where
  is_border := true
  is_root := false
  deleted := false
  v_split := 0
  parent := none
  upperLayer := none
  slot := fun _ => .empty
  permutation := [0]
  next := none
  prev := none
  n_keys := 0
  key_slice := fun _ => 0
  child := fun _ => none

/-- `new InteriorNode` -/
def newInterior : Node V := { (newBorder : Node V) with is_border := false, permutation := [] }

def setSlot (n : Node V) (i : Nat) (s : Slot V) : Node V := { n with slot := Function.update n.slot i s }

def setLV (n : Node V) (i : Nat) (lv : LinkOrValue V) : Node V := n.setSlot i { n.slot i with lv := lv }

def setKeyLen (n : Node V) (i : Nat) (len : Nat) : Node V :=
  n.setSlot i { n.slot i with key_len := len }

/-- `unlock` at the end of a section with `splitting`; the counter has eight bits. -/
def unlockSplit (n : Node V) : Node V := { n with v_split := (n.v_split + 1) % 2 ^ 8 }

/-- `setVersion` with the version of another node. -/
def copyVersion (n m : Node V) : Node V :=
  { n with is_border := m.is_border, is_root := m.is_root, deleted := m.deleted, v_split := m.v_split }

/-- `Version::splitHappened` on the split counters before and after. -/
def splitHappened (before after : Nat) : Bool := before != after

/-- The loop of `findChild` from index `i` on, with `fuel` keys to go. -/
def findChildFrom (n : Node V) (slice : Nat) : Nat → Nat → Option Ptr
  | 0, i => n.child i
  | fuel + 1, i => if slice < n.key_slice i then n.child i else findChildFrom n slice fuel (i + 1)

def findChild (n : Node V) (slice : Nat) : Option Ptr := n.findChildFrom slice n.n_keys 0

def isNotFull (n : Node V) : Bool := n.n_keys != 15

/-- `findChildIndex` with its assertion. -/
def findChildIndex (n : Node V) (c : Ptr) : Option Nat :=
  (List.range (n.n_keys + 1)).find? fun i => n.child i = some c

inductive SearchResult where
  | NOTFOUND | VALUE | LAYER | UNSTABLE
  deriving DecidableEq, Repr

/-- The search for the last slice of a key. -/
def searchValue (n : Node V) (current : SliceWithSize) : List Nat → SearchResult × LinkOrValue V × Nat
  | [] => (.NOTFOUND, .null, 0)
  | i :: rest =>
    if (n.slot i).key_slice = current.slice ∧ (n.slot i).key_len = current.size then
      (.VALUE, (n.slot i).lv, i)
    else searchValue n current rest

/-- The search for a slice with others after it. -/
def searchLink (n : Node V) (key : Key) : List Nat → SearchResult × LinkOrValue V × Nat
  | [] => (.NOTFOUND, .null, 0)
  | i :: rest =>
    if (n.slot i).key_slice = key.getCurrentSlice.slice then
      if (n.slot i).key_len = key_len_has_suffix ∧
          (n.slot i).suffix.any (·.isSame key (key.cursor + 1)) then
        (.VALUE, (n.slot i).lv, i)
      else if (n.slot i).key_len = key_len_layer then (.LAYER, (n.slot i).lv, i)
      else if (n.slot i).key_len = key_len_unstable then (.UNSTABLE, .null, 0)
      else searchLink n key rest
    else searchLink n key rest

def searchLinkOrValueWithIndex (n : Node V) (key : Key) : SearchResult × LinkOrValue V × Nat :=
  if key.hasNext then searchLink n key n.permutation
  else searchValue n key.getCurrentSlice n.permutation

def lowestKey (n : Node V) : Nat := (n.slot (n.permutation.headD 0)).key_slice

/-- The first slot that is free, or whose key was removed. -/
def insertPoint (n : Node V) : Option Nat :=
  (List.range 15).find? fun i =>
    (n.slot i).key_len = 0 ∨ 10 ≤ (n.slot i).key_len ∧ (n.slot i).key_len ≤ 18

/-- `sort` of a full node. -/
def sort (n : Node V) : Node V :=
  { n with
    slot := fun i => if i < 15 then n.slot (n.permutation.getD i 0) else n.slot i
    permutation := List.range 15 }

/-- `markKeyRemoved` with its assertion. -/
def markKeyRemoved (n : Node V) (i : Nat) : Option (Node V) :=
  if 1 ≤ (n.slot i).key_len ∧ (n.slot i).key_len ≤ key_len_has_suffix then
    some (n.setKeyLen i ((n.slot i).key_len + 9))
  else none

def isKeyRemoved (n : Node V) (i : Nat) : Bool := 10 ≤ (n.slot i).key_len && (n.slot i).key_len ≤ 18

/-- `findNextLayerIndex` with its assertion. -/
def findNextLayerIndex (n : Node V) (next_layer : Ptr) : Option Nat :=
  (List.range 15).find? fun i => (n.slot i).lv.isLink next_layer

end Node

structure Heap (V : Type) where
  mem : Ptr → Node V
  /-- the next address that `new` returns -/
  fresh : Nat

namespace Heap

def empty : Heap V := ⟨fun _ => .newBorder, 0⟩

def set (h : Heap V) (p : Ptr) (n : Node V) : Heap V := { h with mem := Function.update h.mem p n }

def modify (h : Heap V) (p : Ptr) (f : Node V → Node V) : Heap V := h.set p (f (h.mem p))

/-- A store through a pointer that may be null. -/
def modify? (h : Heap V) (p : Option Ptr) (f : Node V → Node V) : Heap V :=
  match p with
  | some p => h.modify p f
  | none => h

def alloc (h : Heap V) (n : Node V) : Ptr × Heap V :=
  (h.fresh, { mem := Function.update h.mem h.fresh n, fresh := h.fresh + 1 })

@[simp] theorem mem_set_self (h : Heap V) (p : Ptr) (n : Node V) : (h.set p n).mem p = n := by
  simp [set]

@[simp] theorem mem_set_of_ne (h : Heap V) {p q : Ptr} (n : Node V) (hne : q ≠ p) :
    (h.set p n).mem q = h.mem q := by
  simp [set, hne]

@[simp] theorem fresh_set (h : Heap V) (p : Ptr) (n : Node V) : (h.set p n).fresh = h.fresh := rfl

@[simp] theorem mem_modify_self (h : Heap V) (p : Ptr) (f : Node V → Node V) :
    (h.modify p f).mem p = f (h.mem p) := by
  simp [modify]

@[simp] theorem mem_modify_of_ne (h : Heap V) {p q : Ptr} (f : Node V → Node V) (hne : q ≠ p) :
    (h.modify p f).mem q = h.mem q := by
  simp [modify, hne]

@[simp] theorem fresh_modify (h : Heap V) (p : Ptr) (f : Node V → Node V) :
    (h.modify p f).fresh = h.fresh := rfl

end Heap

/-- From a node to the root above it; no more steps than there are nodes. -/
def climb (h : Heap V) : Nat → Ptr → Option Ptr
  | 0, _ => none
  | fuel + 1, p => if (h.mem p).is_root then some p else (h.mem p).parent.bind (climb h fuel)

def descend (h : Heap V) (slice : Nat) : Nat → Ptr → Option Ptr
  | 0, _ => none
  | fuel + 1, p =>
    if (h.mem p).is_border then some p
    else ((h.mem p).findChild slice).bind (descend h slice fuel)

/-- `findBorder`. With no other thread a walk of more steps than there are nodes goes in
a circle and never ends. -/
def findBorder (h : Heap V) (root : Ptr) (key : Key) : Option Ptr :=
  (climb h (h.fresh + 1) root).bind (descend h key.getCurrentSlice.slice (h.fresh + 1))

end Cassa.Masstree

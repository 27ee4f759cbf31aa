import Mathlib.Data.Option.Basic
import Cassa.Masstree.Node

/-!
# Insertion

`masstree_insert.cpp`. The result `none` stands for a failed assertion, for a null
pointer that is followed, or for a loop that does not end.
-/

namespace Cassa.Masstree

variable {V : Type}

/-- The slot for a key. `longSlice` is the slice that is stored when the key has others
after it, and `start` where the suffix then begins. -/
def newSlot (key : Key) (value : V) (longSlice start : Nat) : Slot V :=
  let cursor := key.getCurrentSlice
  if 1 ≤ cursor.size ∧ cursor.size ≤ 7 then ⟨cursor.size, cursor.slice, .value value, none⟩
  else if key.hasNext then
    ⟨key_len_has_suffix, longSlice, .value value, some (.from_ key start)⟩
  else ⟨8, cursor.slice, .value value, none⟩

def start_new_tree (key : Key) (value : V) : Node V :=
  { (Node.newBorder : Node V).setSlot 0 (newSlot key value key.getCurrentSlice.slice 1) with
    is_root := true }

/-- The slot that a key with further slices collides with. -/
def check_break_invariant (n : Node V) (key : Key) : Option Nat :=
  if key.hasNext then
    n.permutation.find? fun i =>
      ((n.slot i).key_len = key_len_has_suffix ∨ (n.slot i).key_len = key_len_layer) ∧
        (n.slot i).key_slice = key.getCurrentSlice.slice
  else none

/-- The root of the layer for the key of a slot with a suffix. -/
def layerFor (node : Ptr) (s : Slot V) (suffix : BigSuffix) : Node V :=
  let slot : Slot V :=
    if suffix.hasNext then ⟨key_len_has_suffix, suffix.getCurrentSlice.slice, s.lv, some suffix.next⟩
    else ⟨suffix.getCurrentSlice.size, suffix.getCurrentSlice.slice, s.lv, none⟩
  { (Node.newBorder : Node V).setSlot 0 slot with is_root := true, upperLayer := some node }

def handle_break_invariant (h : Heap V) (node : Ptr) (old_index : Nat) : Option (Heap V) :=
  let s := (h.mem node).slot old_index
  if s.key_len = key_len_has_suffix then
    match s.suffix with
    | none => none
    | some suffix =>
      let (n1, h) := h.alloc (layerFor node s suffix)
      some (h.modify node (·.setSlot old_index ⟨key_len_layer, s.key_slice, .link n1, none⟩))
  else if s.key_len = key_len_layer then some h
  else none

/-- Where a slice goes in the order of the permutation: before the first one that is not
smaller. -/
def insertionPoint (n : Node V) (slice : Nat) : Nat :=
  (n.permutation.takeWhile fun i => (n.slot i).key_slice < slice).length

def insert_to_border (n : Node V) (key : Key) (value : V) : Option (Node V) :=
  if n.permutation.length = 15 then none
  else match n.insertPoint with
    | none => none
    | some i =>
      let n' := n.setSlot i (newSlot key value key.getCurrentSlice.slice (key.cursor + 1))
      some { n' with
        permutation := n.permutation.insertIdx (insertionPoint n key.getCurrentSlice.slice) i }

/-- The copy into a temporary array that leaves out the place `i`, and the store there. -/
def openGap {α : Type} (a : Nat → α) (i : Nat) (x : α) (j : Nat) : α :=
  if j < i then a j else if j = i then x else a (j - 1)

/-- `for (i = n; i > stop; i--) a[i + 1] = a[i]` -/
def shiftRight {α : Type} (stop : Nat) : Nat → (Nat → α) → (Nat → α)
  | 0, a => a
  | n + 1, a => if n + 1 > stop then shiftRight stop n (Function.update a (n + 2) (a (n + 1))) else a

/-- `for (i = n; i > stop; i--) a[i] = a[i - 1]` -/
def shiftRight' {α : Type} (stop : Nat) : Nat → (Nat → α) → (Nat → α)
  | 0, a => a
  | n + 1, a => if n + 1 > stop then shiftRight' stop n (Function.update a (n + 1) (a n)) else a

/-- What `split_keys_among` leaves of a full interior node, what it puts into the new one,
and the separator between them. -/
structure InteriorSplit where
  keys : Nat → Nat
  children : Nat → Option Ptr
  keys1 : Nat → Nat
  children1 : Nat → Option Ptr
  k_prime : Nat

def splitInterior (n : Node V) (slice : Nat) (node1 : Ptr) (node_index : Nat) : InteriorSplit :=
  let temp_child := openGap n.child (node_index + 1) (some node1)
  let temp_key_slice := openGap n.key_slice node_index slice
  { keys := fun i => if i < 7 then temp_key_slice i else 0
    children := fun i => if i < 8 then temp_child i else none
    keys1 := fun i => if i < 8 then temp_key_slice (i + 8) else 0
    children1 := fun i => if i < 9 then temp_child (i + 8) else none
    k_prime := temp_key_slice 7 }

/-- `setParent` on the first `n` of the children. -/
def setParents (h : Heap V) (parent : Ptr) (children : Nat → Option Ptr) (n : Nat) : Heap V :=
  (List.range n).foldl (fun h i => h.modify? (children i) ({ · with parent := some parent })) h

def split_keys_amongInterior (h : Heap V) (parent parent1 : Ptr) (slice : Nat) (node1 : Ptr)
    (node_index : Nat) : Nat × Heap V :=
  let s := splitInterior (h.mem parent) slice node1 node_index
  let h := h.modify parent fun n => { n with n_keys := 7, key_slice := s.keys, child := s.children }
  let h := h.modify parent1 fun n => { n with n_keys := 8, key_slice := s.keys1, child := s.children1 }
  (s.k_prime, setParents (setParents h parent s.children 8) parent1 s.children1 9)

/-- The slices of a full sorted node, each with its first index. -/
def create_slice_table (n : Node V) : List (Nat × Nat) × List Nat :=
  (List.range 15).foldl (fun (table, found) i =>
    if (n.slot i).key_slice ∈ found then (table, found)
    else (table ++ [((n.slot i).key_slice, i)], found ++ [(n.slot i).key_slice])) ([], [])

def split_point (new_slice : Nat) (table : List (Nat × Nat)) (found : List Nat) : Option Nat :=
  match found.min?, found.max? with
  | some min_slice, some max_slice =>
    if new_slice < min_slice then some 1
    else if new_slice = min_slice then (table[1]?).map fun e => e.2 + 1
    else if min_slice < new_slice ∧ new_slice < max_slice then
      if new_slice ∈ found then (table.find? fun e => e.1 = new_slice).map fun e => e.2
      else (table.find? fun e => e.1 > new_slice).map fun e => e.2 + 1
    else if new_slice = max_slice then (table.find? fun e => e.1 = new_slice).map fun e => e.2
    else some 15
  | _, _ => none

/-- `setUpperLayer` for the layers that slots link to. -/
def setUpperLayers (h : Heap V) (node : Ptr) (slots : Nat → Slot V) (n : Nat) : Heap V :=
  (List.range n).foldl (fun h i =>
    match (slots i).key_len, (slots i).lv with
    | 255, .link next_layer => h.modify next_layer ({ · with upperLayer := some node })
    | _, _ => h) h

/-- The 16 slots of a full node and a new key, in order. For a key with further slices
the size of the slice is stored in the place of the slice. -/
def tempSlots (n : Node V) (key : Key) (value : V) : Nat → Slot V :=
  let cursor := key.getCurrentSlice
  let insertion_index := ((List.range 15).takeWhile fun i => (n.slot i).key_slice < cursor.slice).length
  openGap n.slot insertion_index (newSlot key value cursor.size (key.cursor + 1))

/-- With a cut at 0 all the 16 entries are for `node1`, and `fromSorted` fails an assertion. -/
def split_keys_amongBorder (h : Heap V) (node node1 : Ptr) (key : Key) (value : V) : Option (Heap V) :=
  let n := (h.mem node).sort
  let temp := tempSlots n key value
  let (table, found) := create_slice_table n
  match split_point key.getCurrentSlice.slice table found with
  | none => none
  | some 0 => none
  | some split =>
    let left : Nat → Slot V := fun i => if i < split then temp i else .empty
    let right : Nat → Slot V := fun j => if j < 16 - split then temp (split + j) else .empty
    let h := h.set node { n with slot := left, permutation := List.range split }
    let h := setUpperLayers h node left split
    let h := h.modify node1 fun n => { n with slot := right, permutation := List.range (16 - split) }
    let h := setUpperLayers h node1 right (16 - split)
    let next := (h.mem node).next
    let h := h.modify node1 fun n => { n with next := next, prev := some node }
    let h := h.modify node fun n => { n with next := some node1 }
    some (h.modify? next fun n => { n with prev := some node1 })

def create_root_with_children (h : Heap V) (left : Ptr) (slice : Nat) (right : Ptr) :
    Option (Ptr × Heap V) := do
  guard (h.mem left).is_root
  guard ((h.mem left).parent = none)
  guard ((h.mem right).parent = none)
  let upper := (h.mem left).upperLayer
  let (root, h) := h.alloc { (Node.newInterior : Node V) with
    is_root := true
    upperLayer := upper
    n_keys := 1
    key_slice := Function.update (fun _ => 0) 0 slice
    child := Function.update (Function.update (fun _ => none) 0 (some left)) 1 (some right) }
  let h ← match upper with
    | none => some h
    | some upper => do
      let left_index ← (h.mem upper).findNextLayerIndex left
      some (h.modify upper (·.setLV left_index (.link root)))
  let h := h.modify left fun n => { n with parent := some root, upperLayer := none, is_root := false }
  let h := h.modify right fun n => { n with parent := some root, is_root := false }
  some (root, h)

def insert_into_parent (h : Heap V) (parent node1 : Ptr) (slice node_index : Nat) : Heap V :=
  let h := h.modify parent fun n =>
    { n with
      child := Function.update (shiftRight node_index n.n_keys n.child) (node_index + 1) (some node1)
      key_slice := Function.update (shiftRight' node_index n.n_keys n.key_slice) node_index slice
      n_keys := n.n_keys + 1 }
  h.modify node1 fun n => { n with parent := some parent }

def unlockBoth (h : Heap V) (node node1 : Ptr) : Heap V :=
  (h.modify node Node.unlockSplit).modify node1 Node.unlockSplit

/-- From `ASCEND` on: the new root, if there is one. -/
def ascend : Nat → Heap V → Ptr → Ptr → Option Nat → Option (Option Ptr × Heap V)
  | 0, _, _, _, _ => none
  | fuel + 1, h, node, node1, pull_up =>
    let up := pull_up.getD ((h.mem node1).slot 0).key_slice
    match (h.mem node).parent with
    | none => do
      let (root, h) ← create_root_with_children h node up node1
      some (some root, unlockBoth h node node1)
    | some parent => do
      let node_index ← (h.mem parent).findChildIndex node
      if (h.mem parent).isNotFull then
        some (none, unlockBoth (insert_into_parent h parent node1 up node_index) node node1)
      else
        let h := h.modify node Node.unlockSplit
        let (parent1, h) := h.alloc ((Node.newInterior : Node V).copyVersion (h.mem parent))
        let (k_prime, h) := split_keys_amongInterior h parent parent1 up node1 node_index
        let h := h.modify node1 Node.unlockSplit
        ascend fuel h parent parent1 (some k_prime)

def split (h : Heap V) (node : Ptr) (key : Key) (value : V) : Option (Option Ptr × Heap V) := do
  let (node1, h) := h.alloc ((Node.newBorder : Node V).copyVersion (h.mem node))
  let h ← split_keys_amongBorder h node node1 key value
  ascend (h.fresh + 1) h node node1 none

/-- The loop that follows `next` while the slice is not below the lowest key there. -/
def moveRight (h : Heap V) (slice : Nat) : Nat → Ptr → Ptr
  | 0, node => node
  | fuel + 1, node =>
    match (h.mem node).next with
    | none => node
    | some next =>
      if (h.mem node).deleted = false ∧ (h.mem next).lowestKey ≤ slice then
        moveRight h slice fuel next
      else node

/-- From `FORWARD` on, with the node locked. `again` is `goto RETRY` at the layer of `key`,
and `below` the call for the next layer. The version is read again after `lock`, so
`splitHappened` compares it with itself. -/
def insertForward (again : Heap V → Key → Option (Status × Option Ptr × Heap V))
    (below : Heap V → Ptr → Key → Option (Status × Option Ptr × Heap V)) (root : Ptr) (key : Key)
    (value : V) : Nat → Heap V → Ptr → Option (Status × Option Ptr × Heap V)
  | 0, _, _ => none
  | fuel + 1, h, node =>
    let version := h.mem node
    if version.deleted then
      if version.is_root then some (.RETRY_FROM_UPPER_LAYER, none, h) else again h key
    else
      let (result, lv, _) := version.searchLinkOrValueWithIndex key
      if Node.splitHappened version.v_split (h.mem node).v_split then
        insertForward again below root key value fuel h
          (moveRight h key.getCurrentSlice.slice h.fresh node)
      else match result, lv with
        | .NOTFOUND, _ =>
          match check_break_invariant version key with
          | some old_index => do
            let h ← handle_break_invariant h node old_index
            match ((h.mem node).slot old_index).lv with
            | .link next_layer => do
              let (status, _, h) ← below h next_layer key.next
              if status = .RETRY_FROM_UPPER_LAYER then again h key else some (.OK, some root, h)
            | _ => none
          | none =>
            if version.permutation.length ≠ 15 then do
              let n ← insert_to_border version key value
              some (.OK, some root, h.set node n)
            else do
              let (may_new_root, h) ← split h node key value
              match may_new_root with
              | some r => some (.OK, some r, h)
              | none => some (.OK, some root, h)
        | .VALUE, _ => some (.WARN_ALREADY_EXISTS, some root, h)
        | .LAYER, .link next_layer => do
          let (status, _, h) ← below h next_layer key.next
          if status = .RETRY_FROM_UPPER_LAYER then again h key else some (.OK, some root, h)
        | _, _ => none

/-- `masstree_insert` below a root that is there. Every turn of `RETRY` and every call for
a lower layer takes one unit of fuel. -/
def masstree_insert (value : V) : Nat → Heap V → Ptr → Key → Option (Status × Option Ptr × Heap V)
  | 0, _, _, _ => none
  | fuel + 1, h, root, key => do
    let node ← findBorder h root key
    insertForward (fun h key => masstree_insert value fuel h root key)
      (fun h root key => masstree_insert value fuel h root key) root key value 2 h node

/-- The record in the slot that `insert_to_border` takes, if `remove` has emptied the slot: it is handed
to the collector. -/
def reusedAt (below : Heap V → Ptr → Key → Option V) (h : Heap V) (node : Ptr) (key : Key) : Option V :=
  let n := h.mem node
  match n.searchLinkOrValueWithIndex key with
  | (.LAYER, .link next_layer, _) => below h next_layer key.next
  | (.NOTFOUND, _, _) =>
    match check_break_invariant n key with
    | some old_index => do
      let h ← handle_break_invariant h node old_index
      match ((h.mem node).slot old_index).lv with
      | .link next_layer => below h next_layer key.next
      | _ => none
    | none =>
      if n.permutation.length = 15 then none
      else do
        let i ← n.insertPoint
        if 10 ≤ (n.slot i).key_len ∧ (n.slot i).key_len ≤ 18 then (n.slot i).lv.value? else none
  | _ => none

/-- The same from the root on, down the layers that the key goes through. -/
def reusedFrom : Nat → Heap V → Ptr → Key → Option V
  | 0, _, _, _ => none
  | fuel + 1, h, root, key => do
    let node ← findBorder h root key
    reusedAt (reusedFrom fuel) h node key

end Cassa.Masstree

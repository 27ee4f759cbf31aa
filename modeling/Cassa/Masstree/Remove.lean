import Cassa.Masstree.Insert

/-!
# Removal, lookup and the operations of the tree

`masstree_remove.cpp`, `masstree_get.cpp` and `masstree.cpp`.
-/

set_option linter.dupNamespace false

namespace Cassa.Masstree

variable {V : Type}

inductive RootChange where
  | NotChange | NewRoot | LayerDeleted | DataNotFound
  deriving DecidableEq, Repr

/-- The single key of a layer, as the suffix of the slot that links to the layer. -/
def suffixFor (s : Slot V) : Option BigSuffix :=
  if s.key_len = key_len_has_suffix then s.suffix.map (·.insertTop s.key_slice)
  else if 1 ≤ s.key_len ∧ s.key_len ≤ 8 then some ⟨[s.key_slice], s.key_len⟩
  else none

def handle_delete_layer_in_remove (h : Heap V) (borderNode : Ptr) : Option (Heap V) := do
  let n := h.mem borderNode
  guard (n.parent = none)
  guard (n.permutation.length = 1)
  guard n.is_root
  let upper ← n.upperLayer
  let i := n.permutation.headD 0
  let upper_suffix ← suffixFor (n.slot i)
  let nextLayerIndex ← (h.mem upper).findNextLayerIndex borderNode
  guard (((h.mem upper).slot nextLayerIndex).suffix = none)
  let h := h.modify upper fun u => u.setSlot nextLayerIndex
    ⟨key_len_has_suffix, (u.slot nextLayerIndex).key_slice, (n.slot i).lv, some upper_suffix⟩
  some (h.modify borderNode fun n =>
    { n.setSlot i { n.slot i with lv := .null, suffix := none } with deleted := true })

/-- `connectPrevAndNext`, for the pointers of a node that is taken out of the list. The neighbours have
not been deleted: every node leaves the list before it is marked, and no other thread is active. So the
retry on a deleted `prev` and the failure of the assertion on `next` do not occur; see
`LayerOk.neighbour_alive`. -/
def connectPrevAndNext (h : Heap V) (borderNode : Ptr) : Heap V :=
  let prev := (h.mem borderNode).prev
  let next := (h.mem borderNode).next
  let h := h.modify? prev fun n => { n with next := next }
  h.modify? next fun n => { n with prev := prev }

/-- `for (i = start; i <= last; i++) a[i] = a[i + 1]`, with `n` turns to go. -/
def shiftLeft {α : Type} : Nat → Nat → (Nat → α) → (Nat → α)
  | _, 0, a => a
  | i, n + 1, a => shiftLeft (i + 1) n (Function.update a i (a (i + 1)))

/-- The left shift that takes the child at `index` out of an interior node. -/
def removeChild (n : Node V) (index : Nat) : Node V :=
  let startKeyIndex := if index = 0 then 0 else index - 1
  let startChildIndex := if index = 0 then 0 else index
  { n with
    key_slice := shiftLeft startKeyIndex (14 - startKeyIndex) n.key_slice
    child := shiftLeft startChildIndex (15 - startChildIndex) n.child
    n_keys := n.n_keys - 1 }

def setDeleted (h : Heap V) (p : Ptr) : Heap V := h.modify p fun n => { n with deleted := true }

def delete_borderNode_in_remove (h : Heap V) (borderNode : Ptr) :
    Option (RootChange × Option Ptr × Heap V) := do
  guard ((h.mem borderNode).permutation = [])
  if (h.mem borderNode).is_root then
    guard ((h.mem borderNode).parent = none)
    guard ((h.mem borderNode).upperLayer = none)
    some (.LayerDeleted, none, setDeleted h borderNode)
  else
    let parent ← (h.mem borderNode).parent
    let nextLayerIndex ← (h.mem parent).findChildIndex borderNode
    if (h.mem parent).n_keys ≥ 2 then
      let h := h.modify parent (removeChild · nextLayerIndex)
      some (.NotChange, none, setDeleted (connectPrevAndNext h borderNode) borderNode)
    else
      guard ((h.mem parent).n_keys = 1)
      let pull_up_index := if nextLayerIndex = 1 then 0 else 1
      let pull_up_node ← (h.mem parent).child pull_up_index
      if (h.mem parent).is_root then
        guard ((h.mem parent).parent = none)
        match (h.mem parent).upperLayer with
        | none =>
          let h := h.modify pull_up_node fun n =>
            { n with is_root := true, parent := none, upperLayer := none }
          let h := setDeleted (connectPrevAndNext h borderNode) borderNode
          some (.NewRoot, some pull_up_node, setDeleted h parent)
        | some upper =>
          -- `upperLayer` of `pull_up_node` stays as it is
          let parentIndex ← (h.mem upper).findNextLayerIndex parent
          let h := h.modify pull_up_node fun n => { n with is_root := true, parent := none }
          let h := h.modify upper (·.setLV parentIndex (.link pull_up_node))
          let h := setDeleted (connectPrevAndNext h borderNode) borderNode
          some (.NewRoot, some pull_up_node, setDeleted h parent)
      else
        let parentOfParent ← (h.mem parent).parent
        let parentIndex ← (h.mem parentOfParent).findChildIndex parent
        let h := h.modify parentOfParent fun n =>
          { n with child := Function.update n.child parentIndex (some pull_up_node) }
        let h := h.modify pull_up_node fun n => { n with parent := some parentOfParent }
        let h := setDeleted (connectPrevAndNext h borderNode) borderNode
        some (.NotChange, none, setDeleted h parent)

/-- From `FORWARD` on, with the node locked; see `insertForward`. -/
def removeForward (again : Heap V → Key → Option (RootChange × Option Ptr × Heap V))
    (below : Heap V → Ptr → Key → Option (RootChange × Option Ptr × Heap V)) (root : Ptr) (key : Key) :
    Nat → Heap V → Ptr → Option (RootChange × Option Ptr × Heap V)
  | 0, _, _ => none
  | fuel + 1, h, borderNode =>
    let version := h.mem borderNode
    if version.deleted then
      if version.is_root then some (.NotChange, some root, h) else again h key
    else
      let (result, lv, index) := version.searchLinkOrValueWithIndex key
      if Node.splitHappened version.v_split (h.mem borderNode).v_split then
        removeForward again below root key fuel h
          (moveRight h key.getCurrentSlice.slice h.fresh borderNode)
      else match result, lv with
        | .NOTFOUND, _ => some (.DataNotFound, some root, h)
        | .VALUE, _ =>
          if version.is_root ∧ version.permutation.length = 1 ∧ key.cursor ≠ 0 then do
            let h ← handle_delete_layer_in_remove h borderNode
            some (.LayerDeleted, none, h)
          else do
            let n ← version.markKeyRemoved index
            let permutation := n.permutation.erase index
            let h := h.set borderNode { n with permutation := permutation }
            if permutation = [] then
              let (change, r, h) ← delete_borderNode_in_remove h borderNode
              if change ≠ .NotChange then some (change, r, h) else some (.NotChange, some root, h)
            else some (.NotChange, some root, h)
        | .LAYER, .link next_layer => do
          let (change, _, h) ← below h next_layer key.next
          if change = .LayerDeleted then again h key else some (.NotChange, some root, h)
        | _, _ => none

/-- `remove` below a root that is there. -/
def remove : Nat → Heap V → Ptr → Key → Option (RootChange × Option Ptr × Heap V)
  | 0, _, _, _ => none
  | fuel + 1, h, root, key => do
    let borderNode ← findBorder h root key
    removeForward (fun h key => remove fuel h root key) (fun h root key => remove fuel h root key)
      root key 2 h borderNode

/-- `masstree_get` below a root that is there. With no other thread the version that is
compared at the end is the one that was read. -/
def masstree_get (h : Heap V) : Nat → Ptr → Key → Option (Option V)
  | 0, _, _ => none
  | fuel + 1, root, key => do
    let node ← findBorder h root key
    if (h.mem node).deleted then
      if (h.mem node).is_root then some none else masstree_get h fuel root key
    else
      match (h.mem node).searchLinkOrValueWithIndex key with
      | (.NOTFOUND, _, _) => some none
      | (.VALUE, lv, _) => some lv.value?
      | (.LAYER, .link next_layer, _) => masstree_get h fuel next_layer key.next
      | _ => none

structure Masstree (V : Type) where
  heap : Heap V
  root : Option Ptr

namespace Masstree

def new : Masstree V := ⟨.empty, none⟩

/-- Enough turns for an operation: one for each layer of the key on the way down and one
on the way back. -/
def turns (key : Key) : Nat := 2 * key.slices.length + 2

/-- With no other thread the `compare_exchange` on `root` succeeds, and a `goto RETRY` from
layer 0 repeats itself for ever. -/
def insert_value (m : Masstree V) (key : Key) (value : V) : Option (Status × Masstree V) :=
  match m.root with
  | none =>
    let (root, h) := m.heap.alloc (start_new_tree key value)
    some (.OK, ⟨h, some root⟩)
  | some old_root =>
    match masstree_insert value (turns key) m.heap old_root key with
    | none => none
    | some (.RETRY_FROM_UPPER_LAYER, _, _) => none
    | some (.WARN_ALREADY_EXISTS, _, h) => some (.WARN_ALREADY_EXISTS, ⟨h, some old_root⟩)
    | some (_, new_root, h) => some (.OK, ⟨h, new_root⟩)

/-- What `insert_value` hands to the collector. -/
def reused (m : Masstree V) (key : Key) : Option V := do
  let root ← m.root
  reusedFrom (turns key) m.heap root key

def remove_value (m : Masstree V) (key : Key) : Option (Status × Masstree V) :=
  match m.root with
  | none => some (.WARN_NOT_FOUND, m)
  | some old_root =>
    match remove (turns key) m.heap old_root key with
    | none => none
    | some (.DataNotFound, _, h) => some (.WARN_NOT_FOUND, ⟨h, some old_root⟩)
    | some (_, new_root, h) => some (.OK, ⟨h, new_root⟩)

/-- The outer `none` is a lookup that does not return. -/
def get_value (m : Masstree V) (key : Key) : Option (Option V) :=
  match m.root with
  | none => some none
  | some root => masstree_get m.heap (turns key) root key

end Masstree

end Cassa.Masstree

import Cassa.Masstree.Remove

/-!
# New addresses

Memory only grows: an operation never lowers the next address, and the root that a split
makes has an address that was not in use before.
-/

namespace Cassa.Masstree

variable {V : Type} {h h' : Heap V}

@[simp] theorem fresh_modify? (h : Heap V) (p : Option Ptr) (f : Node V → Node V) :
    (h.modify? p f).fresh = h.fresh := by
  cases p with
  | none => rfl
  | some p => rfl

@[simp] theorem Heap.fresh_alloc (h : Heap V) (n : Node V) : (h.alloc n).2.fresh = h.fresh + 1 := rfl

/-- A loop of stores. -/
theorem fresh_foldl {f : Heap V → Nat → Heap V} (hf : ∀ h i, (f h i).fresh = h.fresh) (l : List Nat) :
    (l.foldl f h).fresh = h.fresh := by
  induction l generalizing h with
  | nil => rfl
  | cons i l ih => rw [List.foldl_cons, ih, hf]

@[simp] theorem fresh_setParents (parent : Ptr) (children : Nat → Option Ptr) (n : Nat) :
    (setParents h parent children n).fresh = h.fresh :=
  fresh_foldl (fun h _ => fresh_modify? h _ _) _

@[simp] theorem fresh_setUpperLayers (node : Ptr) (slots : Nat → Slot V) (n : Nat) :
    (setUpperLayers h node slots n).fresh = h.fresh := by
  refine fresh_foldl ?_ _
  intro h i
  split
  · rfl
  · rfl

theorem fresh_handle_break_invariant {node : Ptr} {i : Nat} (hres : handle_break_invariant h node i = some h') :
    h.fresh ≤ h'.fresh := by
  unfold handle_break_invariant at hres
  dsimp only at hres
  split at hres
  · split at hres
    · cases hres
    · cases hres
      simp
  · split at hres
    · cases hres
      exact Nat.le_refl _
    · cases hres

theorem fresh_split_keys_amongBorder {node node1 : Ptr} {key : Key} {value : V}
    (hres : split_keys_amongBorder h node node1 key value = some h') : h'.fresh = h.fresh := by
  unfold split_keys_amongBorder at hres
  dsimp only at hres
  split at hres
  · cases hres
  · cases hres
  · cases hres
    simp

@[simp] theorem fresh_split_keys_amongInterior (h : Heap V) (parent parent1 : Ptr) (slice : Nat) (node1 : Ptr)
    (node_index : Nat) : (split_keys_amongInterior h parent parent1 slice node1 node_index).2.fresh = h.fresh := by
  simp [split_keys_amongInterior]

@[simp] theorem fresh_unlockBoth (h : Heap V) (node node1 : Ptr) : (unlockBoth h node node1).fresh = h.fresh := rfl

theorem create_root_fresh {left right root : Ptr} {slice : Nat}
    (hres : create_root_with_children h left slice right = some (root, h')) :
    root = h.fresh ∧ h'.fresh = h.fresh + 1 := by
  unfold create_root_with_children at hres
  simp only [Option.bind_eq_bind, Option.bind_eq_some_iff] at hres
  obtain ⟨-, -, -, -, -, -, hres⟩ := hres
  split at hres
  · cases hres
    exact ⟨rfl, rfl⟩
  · simp only [Option.bind_eq_some_iff] at hres
    obtain ⟨i, -, h₁, hh₁, hres⟩ := hres
    cases hh₁
    cases hres
    exact ⟨rfl, rfl⟩

/-- The way up: every new node, and with it a new root, has a new address. -/
theorem ascend_fresh : ∀ {fuel : Nat} {h : Heap V} {node node1 : Ptr} {up : Option Nat} {r : Option Ptr},
    ascend fuel h node node1 up = some (r, h') → h.fresh ≤ h'.fresh ∧ ∀ q ∈ r, h.fresh ≤ q := by
  intro fuel
  induction fuel with
  | zero => exact nofun
  | succ fuel ih =>
    intro h node node1 up r hres
    unfold ascend at hres
    dsimp only at hres
    split at hres
    · simp only [Option.bind_eq_bind, Option.bind_eq_some_iff] at hres
      obtain ⟨⟨root, h₁⟩, hroot, hres⟩ := hres
      obtain ⟨rfl, hfresh⟩ := create_root_fresh hroot
      cases hres
      refine ⟨by simp [hfresh], ?_⟩
      intro q hq
      exact Nat.le_of_eq (Option.some.inj hq)
    · simp only [Option.bind_eq_bind, Option.bind_eq_some_iff] at hres
      obtain ⟨i, -, hres⟩ := hres
      split at hres
      · cases hres
        exact ⟨by simp [insert_into_parent], nofun⟩
      · obtain ⟨hle, hq⟩ := ih hres
        simp only [Heap.fresh_modify, fresh_split_keys_amongInterior, Heap.fresh_alloc] at hle hq
        refine ⟨by omega, ?_⟩
        intro q hr
        have := hq q hr
        omega

theorem split_fresh {node : Ptr} {key : Key} {value : V} {r : Option Ptr}
    (hres : split h node key value = some (r, h')) : h.fresh ≤ h'.fresh ∧ ∀ q ∈ r, h.fresh ≤ q := by
  unfold split at hres
  simp only [Option.bind_eq_bind, Option.bind_eq_some_iff] at hres
  obtain ⟨h₁, hborder, hres⟩ := hres
  have hfresh := fresh_split_keys_amongBorder hborder
  rw [Heap.fresh_alloc] at hfresh
  obtain ⟨hle, hq⟩ := ascend_fresh hres
  refine ⟨by omega, ?_⟩
  intro q hr
  have := hq q hr
  omega

theorem insertForward_fresh {again : Heap V → Key → Option (Status × Option Ptr × Heap V)}
    {below : Heap V → Ptr → Key → Option (Status × Option Ptr × Heap V)} {root : Ptr} {key : Key} {value : V}
    (hagain : ∀ {h h' : Heap V} {key : Key} {status r}, again h key = some (status, r, h') → h.fresh ≤ h'.fresh)
    (hbelow : ∀ {h h' : Heap V} {p : Ptr} {key : Key} {status r}, below h p key = some (status, r, h') →
      h.fresh ≤ h'.fresh) : ∀ {fuel : Nat} {h h' : Heap V} {node : Ptr} {status : Status} {r : Option Ptr},
    insertForward again below root key value fuel h node = some (status, r, h') → h.fresh ≤ h'.fresh := by
  have hkept : ∀ {h h' : Heap V} {status₁ status : Status} {r : Option Ptr},
      (if status₁ = .RETRY_FROM_UPPER_LAYER then again h key else some (.OK, some root, h)) = some (status, r, h') →
      h.fresh ≤ h'.fresh := by
    intro h h' status₁ status r hres
    split at hres
    · exact hagain hres
    · cases hres
      exact Nat.le_refl _
  intro fuel
  induction fuel with
  | zero => exact nofun
  | succ fuel ih =>
    intro h h' node status r hres
    unfold insertForward at hres
    dsimp only at hres
    split at hres
    · split at hres
      · cases hres
        exact Nat.le_refl _
      · exact hagain hres
    split at hres
    · exact ih hres
    split at hres
    · split at hres
      · simp only [Option.bind_eq_bind, Option.bind_eq_some_iff] at hres
        obtain ⟨h₁, hbreak, hres⟩ := hres
        have hle := fresh_handle_break_invariant hbreak
        split at hres
        · simp only [Option.bind_eq_some_iff] at hres
          obtain ⟨⟨status₁, r₁, h₂⟩, hb, hres⟩ := hres
          exact Nat.le_trans (Nat.le_trans hle (hbelow hb)) (hkept hres)
        · cases hres
      · split at hres
        · simp only [Option.bind_eq_bind, Option.bind_eq_some_iff] at hres
          obtain ⟨n, -, hres⟩ := hres
          cases hres
          exact Nat.le_refl _
        · simp only [Option.bind_eq_bind, Option.bind_eq_some_iff] at hres
          obtain ⟨⟨r₁, h₁⟩, hsplit, hres⟩ := hres
          have hle := (split_fresh hsplit).1
          split at hres
          · cases hres
            exact hle
          · cases hres
            exact hle
    · cases hres
      exact Nat.le_refl _
    · simp only [Option.bind_eq_bind, Option.bind_eq_some_iff] at hres
      obtain ⟨⟨status₁, r₁, h₁⟩, hb, hres⟩ := hres
      exact Nat.le_trans (hbelow hb) (hkept hres)
    · cases hres

theorem masstree_insert_fresh {value : V} : ∀ {fuel : Nat} {h h' : Heap V} {root : Ptr} {key : Key} {status : Status}
    {r : Option Ptr}, masstree_insert value fuel h root key = some (status, r, h') → h.fresh ≤ h'.fresh := by
  intro fuel
  induction fuel with
  | zero => exact nofun
  | succ fuel ih =>
    intro h h' root key status r hres
    unfold masstree_insert at hres
    simp only [Option.bind_eq_bind, Option.bind_eq_some_iff] at hres
    obtain ⟨node, -, hres⟩ := hres
    exact insertForward_fresh ih ih hres

theorem fresh_handle_delete_layer {p : Ptr} (hres : handle_delete_layer_in_remove h p = some h') :
    h'.fresh = h.fresh := by
  unfold handle_delete_layer_in_remove at hres
  simp only [Option.bind_eq_bind, Option.bind_eq_some_iff] at hres
  obtain ⟨-, -, -, -, -, -, upper, -, suffix, -, i, -, -, -, hres⟩ := hres
  cases hres
  rfl

@[simp] theorem fresh_connectPrevAndNext (h : Heap V) (p : Ptr) : (connectPrevAndNext h p).fresh = h.fresh := by
  simp [connectPrevAndNext]

@[simp] theorem fresh_setDeleted (h : Heap V) (p : Ptr) : (setDeleted h p).fresh = h.fresh := rfl

theorem fresh_delete_borderNode {p : Ptr} {change : RootChange} {r : Option Ptr}
    (hres : delete_borderNode_in_remove h p = some (change, r, h')) : h'.fresh = h.fresh := by
  unfold delete_borderNode_in_remove at hres
  obtain ⟨-, -, hres⟩ := Option.bind_eq_some_iff.mp hres
  split at hres
  · obtain ⟨-, -, hres⟩ := Option.bind_eq_some_iff.mp hres
    obtain ⟨-, -, hres⟩ := Option.bind_eq_some_iff.mp hres
    cases hres
    rfl
  obtain ⟨parent, -, hres⟩ := Option.bind_eq_some_iff.mp hres
  obtain ⟨i, -, hres⟩ := Option.bind_eq_some_iff.mp hres
  split at hres
  · cases hres
    simp
  obtain ⟨-, -, hres⟩ := Option.bind_eq_some_iff.mp hres
  obtain ⟨pull_up_node, -, hres⟩ := Option.bind_eq_some_iff.mp hres
  split at hres
  · obtain ⟨-, -, hres⟩ := Option.bind_eq_some_iff.mp hres
    split at hres
    · cases hres
      simp
    · obtain ⟨j, -, hres⟩ := Option.bind_eq_some_iff.mp hres
      cases hres
      simp
  · obtain ⟨q, -, hres⟩ := Option.bind_eq_some_iff.mp hres
    obtain ⟨j, -, hres⟩ := Option.bind_eq_some_iff.mp hres
    cases hres
    simp

theorem removeForward_fresh {again : Heap V → Key → Option (RootChange × Option Ptr × Heap V)}
    {below : Heap V → Ptr → Key → Option (RootChange × Option Ptr × Heap V)} {root : Ptr} {key : Key}
    (hagain : ∀ {h h' : Heap V} {key : Key} {change r}, again h key = some (change, r, h') → h'.fresh = h.fresh)
    (hbelow : ∀ {h h' : Heap V} {p : Ptr} {key : Key} {change r}, below h p key = some (change, r, h') →
      h'.fresh = h.fresh) : ∀ {fuel : Nat} {h h' : Heap V} {node : Ptr} {change : RootChange} {r : Option Ptr},
    removeForward again below root key fuel h node = some (change, r, h') → h'.fresh = h.fresh := by
  intro fuel
  induction fuel with
  | zero => exact nofun
  | succ fuel ih =>
    intro h h' node change r hres
    unfold removeForward at hres
    dsimp only at hres
    split at hres
    · split at hres
      · cases hres
        rfl
      · exact hagain hres
    split at hres
    · exact ih hres
    split at hres
    · cases hres
      rfl
    · split at hres
      · simp only [Option.bind_eq_bind, Option.bind_eq_some_iff] at hres
        obtain ⟨h₁, hdel, hres⟩ := hres
        cases hres
        exact fresh_handle_delete_layer hdel
      · simp only [Option.bind_eq_bind, Option.bind_eq_some_iff] at hres
        obtain ⟨n, -, hres⟩ := hres
        split at hres
        · simp only [Option.bind_eq_some_iff] at hres
          obtain ⟨⟨change₁, r₁, h₁⟩, hdel, hres⟩ := hres
          have hfresh := fresh_delete_borderNode hdel
          split at hres
          · cases hres
            exact hfresh
          · cases hres
            exact hfresh
        · cases hres
          rfl
    · simp only [Option.bind_eq_bind, Option.bind_eq_some_iff] at hres
      obtain ⟨⟨change₁, r₁, h₁⟩, hb, hres⟩ := hres
      split at hres
      · exact (hagain hres).trans (hbelow hb)
      · cases hres
        exact hbelow hb
    · cases hres

theorem remove_fresh : ∀ {fuel : Nat} {h h' : Heap V} {root : Ptr} {key : Key} {change : RootChange}
    {r : Option Ptr}, remove fuel h root key = some (change, r, h') → h'.fresh = h.fresh := by
  intro fuel
  induction fuel with
  | zero => exact nofun
  | succ fuel ih =>
    intro h h' root key change r hres
    unfold remove at hres
    simp only [Option.bind_eq_bind, Option.bind_eq_some_iff] at hres
    obtain ⟨node, -, hres⟩ := hres
    exact removeForward_fresh ih ih hres

theorem insert_value_fresh {m m' : Masstree V} {key : Key} {value : V} {status : Status}
    (hres : m.insert_value key value = some (status, m')) : m.heap.fresh ≤ m'.heap.fresh := by
  unfold Masstree.insert_value at hres
  split at hres
  · cases hres
    simp
  · split at hres
    · cases hres
    · cases hres
    · rename_i hins
      cases hres
      exact masstree_insert_fresh hins
    · rename_i hins
      cases hres
      exact masstree_insert_fresh hins

theorem remove_value_fresh {m m' : Masstree V} {key : Key} {status : Status}
    (hres : m.remove_value key = some (status, m')) : m.heap.fresh ≤ m'.heap.fresh := by
  unfold Masstree.remove_value at hres
  split at hres
  · cases hres
    exact Nat.le_refl _
  · split at hres
    · cases hres
    · rename_i hrem
      cases hres
      exact Nat.le_of_eq (remove_fresh hrem).symm
    · rename_i hrem
      cases hres
      exact Nat.le_of_eq (remove_fresh hrem).symm

end Cassa.Masstree

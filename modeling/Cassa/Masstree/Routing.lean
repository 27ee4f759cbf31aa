import Cassa.Masstree.Ascend

/-!
# Routing in an interior node

`findChild` cuts the slices into one interval for each child. What a new child, a split and the
loss of a child do to the intervals is said here for one node alone, with any children.
-/

namespace Cassa.Masstree

variable {V : Type} {n m : Node V} {i j x : Nat}

/-- The separators increase strictly. -/
def Node.Ascending (n : Node V) : Prop := ∀ i j, i < j → j < n.n_keys → n.key_slice i < n.key_slice j

/-- The slice `x` is in the interval of child `i`. -/
def Node.Covers (n : Node V) (i x : Nat) : Prop :=
  i ≤ n.n_keys ∧ (i = 0 ∨ n.key_slice (i - 1) ≤ x) ∧ (i = n.n_keys ∨ x < n.key_slice i)

instance (n : Node V) (i x : Nat) : Decidable (n.Covers i x) := inferInstanceAs (Decidable (_ ∧ _ ∧ _))

/-- The slice `s` is strictly inside the interval of child `i`. -/
def Node.Inside (n : Node V) (i s : Nat) : Prop :=
  i ≤ n.n_keys ∧ (i = 0 ∨ n.key_slice (i - 1) < s) ∧ (i = n.n_keys ∨ s < n.key_slice i)

theorem Node.exists_covers (n : Node V) (x : Nat) : ∃ i, n.Covers i x := by
  have hstop : ∃ i, i = n.n_keys ∨ x < n.key_slice i := ⟨n.n_keys, Or.inl rfl⟩
  refine ⟨Nat.find hstop, Nat.find_min' hstop (Or.inl rfl), ?_, Nat.find_spec hstop⟩
  by_cases hzero : Nat.find hstop = 0
  · exact Or.inl hzero
  · have hbefore := Nat.find_min hstop (m := Nat.find hstop - 1) (by omega)
    rw [not_or, not_lt] at hbefore
    exact Or.inr hbefore.2

namespace Node.Ascending

theorem le_of_covers (hn : n.Ascending) (hi : n.Covers i x) (hj : j < i) : n.key_slice j ≤ x := by
  obtain ⟨hle, hlow, -⟩ := hi
  have hlast : n.key_slice (i - 1) ≤ x := by
    rcases hlow with hzero | hlow
    · omega
    · exact hlow
  rcases Nat.eq_or_lt_of_le (Nat.le_sub_one_of_lt hj) with rfl | hlt
  · exact hlast
  · have := hn j (i - 1) hlt (by omega)
    omega

theorem findChild (hn : n.Ascending) (hi : n.Covers i x) : n.findChild x = n.child i :=
  findChildFrom_eq hi.2.2 hi.1 i 0 (Nat.zero_add i) fun _ _ hj => hn.le_of_covers hi hj

/-- The intervals are disjoint. -/
theorem covers_unique (hn : n.Ascending) (hi : n.Covers i x) (hj : n.Covers j x) : i = j := by
  have hle : ∀ {a b}, n.Covers a x → n.Covers b x → b ≤ a := by
    intro a b ha hb
    by_contra hlt
    have hbelow := hn.le_of_covers hb (by omega : a < b)
    have habove := ha.2.2
    have := hb.1
    omega
  exact Nat.le_antisymm (hle hj hi) (hle hi hj)

theorem congr (hn : n.Ascending) (hkeys : m.n_keys = n.n_keys)
    (hkey : ∀ i < n.n_keys, m.key_slice i = n.key_slice i) : m.Ascending := by
  intro i j hij hj
  rw [hkeys] at hj
  rw [hkey i (by omega), hkey j hj]
  exact hn i j hij hj

/-- The search reads the separators and the children of the node only. -/
theorem findChild_congr (hn : n.Ascending) (hkeys : m.n_keys = n.n_keys)
    (hkey : ∀ i < n.n_keys, m.key_slice i = n.key_slice i) (hchild : ∀ i ≤ n.n_keys, m.child i = n.child i) (x : Nat) :
    m.findChild x = n.findChild x := by
  obtain ⟨i, hi⟩ := n.exists_covers x
  obtain ⟨hle, hlow, hhigh⟩ := hi
  have hm : m.Covers i x := by
    rw [Node.Covers, hkeys]
    refine ⟨hle, ?_, ?_⟩
    · by_cases hzero : i = 0
      · exact Or.inl hzero
      · rw [hkey _ (by omega)]
        exact hlow
    · by_cases hlast : i = n.n_keys
      · exact Or.inl hlast
      · rw [hkey _ (by omega)]
        exact hhigh
  rw [hn.findChild ⟨hle, hlow, hhigh⟩, (hn.congr hkeys hkey).findChild hm, hchild i hle]

end Node.Ascending

/-- The node with one more child than there may be room for. -/
def Node.withChild (n : Node V) (i s : Nat) (node1 : Ptr) : Node V :=
  { n with
    n_keys := n.n_keys + 1
    key_slice := openGap n.key_slice i s
    child := openGap n.child (i + 1) (some node1) }

theorem openGap_of_lt {α : Type} (a : Nat → α) (x : α) (h : j < i) : openGap a i x j = a j := if_pos h

theorem openGap_self {α : Type} (a : Nat → α) (x : α) : openGap a i x i = x := by
  rw [openGap, if_neg (Nat.lt_irrefl i), if_pos rfl]

theorem openGap_of_gt {α : Type} (a : Nat → α) (x : α) (h : i < j) : openGap a i x j = a (j - 1) := by
  rw [openGap, if_neg (by omega), if_neg (by omega)]

section

variable {s : Nat} {node1 : Ptr}

theorem Node.Ascending.withChild (hn : n.Ascending) (hs : n.Inside i s) : (n.withChild i s node1).Ascending := by
  obtain ⟨hle, hlow, hhigh⟩ := hs
  have hbelow : ∀ j < i, n.key_slice j < s := by
    intro j hj
    rcases Nat.eq_or_lt_of_le (Nat.le_sub_one_of_lt hj) with rfl | hlt
    · omega
    · have := hn j (i - 1) hlt (by omega)
      omega
  have habove : ∀ j, i ≤ j → j < n.n_keys → s < n.key_slice j := by
    intro j hj hlt
    rcases Nat.eq_or_lt_of_le hj with rfl | hij
    · omega
    · have := hn i j hij hlt
      omega
  intro a b hab hb
  change b < n.n_keys + 1 at hb
  change openGap n.key_slice i s a < openGap n.key_slice i s b
  rcases Nat.lt_trichotomy a i with ha | rfl | ha
  · rw [openGap_of_lt _ _ ha]
    rcases Nat.lt_trichotomy b i with hbi | rfl | hbi
    · rw [openGap_of_lt _ _ hbi]
      exact hn a b hab (by omega)
    · rw [openGap_self]
      exact hbelow a ha
    · rw [openGap_of_gt _ _ hbi]
      exact hn a (b - 1) (by omega) (by omega)
  · rw [openGap_self, openGap_of_gt _ _ hab]
    exact habove (b - 1) (by omega) (by omega)
  · rw [openGap_of_gt _ _ ha, openGap_of_gt _ _ (by omega)]
    exact hn (a - 1) (b - 1) (by omega) (by omega)

/-- Only the slices of child `i` from the new separator on go another way. -/
theorem Node.Ascending.findChild_withChild (hn : n.Ascending) (hs : n.Inside i s) (x : Nat) :
    (n.withChild i s node1).findChild x = if n.Covers i x ∧ s ≤ x then some node1 else n.findChild x := by
  have hn' : (n.withChild i s node1).Ascending := hn.withChild hs
  obtain ⟨hile, hslow, hshigh⟩ := hs
  obtain ⟨k, hk⟩ := n.exists_covers x
  rw [hn.findChild hk]
  obtain ⟨hle, hlow, hhigh⟩ := hk
  rcases Nat.lt_trichotomy k i with hki | rfl | hki
  · have hnot : ¬ n.Covers i x := fun hi => Nat.ne_of_lt hki (hn.covers_unique ⟨hle, hlow, hhigh⟩ hi)
    have hk' : (n.withChild i s node1).Covers k x := by
      refine ⟨Nat.le_succ_of_le hle, ?_, Or.inr ?_⟩
      · change k = 0 ∨ openGap n.key_slice i s (k - 1) ≤ x
        rw [openGap_of_lt _ _ (by omega)]
        exact hlow
      · change x < openGap n.key_slice i s k
        rw [openGap_of_lt _ _ hki]
        exact hhigh.resolve_left (by omega)
    rw [if_neg fun h => hnot h.1, hn'.findChild hk']
    exact openGap_of_lt _ _ (by omega)
  · by_cases hsx : s ≤ x
    · have hk' : (n.withChild k s node1).Covers (k + 1) x := by
        refine ⟨Nat.succ_le_succ hle, Or.inr ?_, ?_⟩
        · change openGap n.key_slice k s k ≤ x
          rw [openGap_self]
          exact hsx
        · change k + 1 = n.n_keys + 1 ∨ x < openGap n.key_slice k s (k + 1)
          rw [openGap_of_gt _ _ (Nat.lt_add_one k), Nat.add_sub_cancel]
          exact hhigh.imp_left (congrArg (· + 1))
      rw [if_pos ⟨⟨hle, hlow, hhigh⟩, hsx⟩, hn'.findChild hk']
      exact openGap_self _ _
    · have hk' : (n.withChild k s node1).Covers k x := by
        refine ⟨Nat.le_succ_of_le hle, ?_, Or.inr ?_⟩
        · by_cases hzero : k = 0
          · exact Or.inl hzero
          · change k = 0 ∨ openGap n.key_slice k s (k - 1) ≤ x
            rw [openGap_of_lt _ _ (by omega)]
            exact hlow
        · change x < openGap n.key_slice k s k
          rw [openGap_self]
          exact not_le.mp hsx
      rw [if_neg fun h => hsx h.2, hn'.findChild hk']
      exact openGap_of_lt _ _ (Nat.lt_succ_self k)
  · have hnot : ¬ n.Covers i x := fun hi => Nat.ne_of_gt hki (hn.covers_unique ⟨hle, hlow, hhigh⟩ hi)
    have hlow' : n.key_slice (k - 1) ≤ x := hlow.resolve_left (by omega)
    have hk' : (n.withChild i s node1).Covers (k + 1) x := by
      refine ⟨Nat.succ_le_succ hle, Or.inr ?_, ?_⟩
      · change openGap n.key_slice i s k ≤ x
        rw [openGap_of_gt _ _ hki]
        exact hlow'
      · change k + 1 = n.n_keys + 1 ∨ x < openGap n.key_slice i s (k + 1)
        rw [openGap_of_gt _ _ (by omega), Nat.add_sub_cancel]
        exact hhigh.imp_left (congrArg (· + 1))
    rw [if_neg fun h => hnot h.1, hn'.findChild hk']
    exact openGap_of_gt _ _ (Nat.succ_lt_succ hki)

end

/-- A node of 16 separators, cut at the one in the middle. -/
theorem Node.Ascending.findChild_halves {l r : Node V} (hn : n.Ascending) (hkeys : n.n_keys = 16)
    (hl : l.n_keys = 7) (hlkey : ∀ i < 7, l.key_slice i = n.key_slice i) (hlchild : ∀ i < 8, l.child i = n.child i)
    (hr : r.n_keys = 8) (hrkey : ∀ i < 8, r.key_slice i = n.key_slice (i + 8))
    (hrchild : ∀ i < 9, r.child i = n.child (i + 8)) (x : Nat) :
    (if x < n.key_slice 7 then l else r).findChild x = n.findChild x := by
  obtain ⟨k, hk⟩ := n.exists_covers x
  have hbelow : ∀ j < k, n.key_slice j ≤ x := fun _ hj => hn.le_of_covers hk hj
  rw [hn.findChild hk]
  obtain ⟨hle, hlow, hhigh⟩ := hk
  rw [hkeys] at hle hhigh
  split
  · rename_i hx
    have hk7 : k ≤ 7 := by
      by_contra hgt
      have := hbelow 7 (by omega)
      omega
    have hlinc : l.Ascending := by
      intro a b hab hb
      rw [hl] at hb
      rw [hlkey a (by omega), hlkey b hb]
      exact hn a b hab (by omega)
    have hk' : l.Covers k x := by
      rw [Node.Covers, hl]
      refine ⟨hk7, ?_, ?_⟩
      · by_cases hzero : k = 0
        · exact Or.inl hzero
        · rw [hlkey _ (by omega)]
          exact hlow
      · by_cases hlast : k = 7
        · exact Or.inl hlast
        · rw [hlkey _ (by omega)]
          exact Or.inr (hhigh.resolve_left (by omega))
    rw [hlinc.findChild hk', hlchild k (by omega)]
  · rename_i hx
    have hk8 : 8 ≤ k := by
      by_contra hlt
      have hkx : x < n.key_slice k := hhigh.resolve_left (by omega)
      by_cases hk7 : k = 7
      · exact hx (hk7 ▸ hkx)
      · have := hn k 7 (by omega) (by omega)
        omega
    obtain ⟨d, rfl⟩ : ∃ d, k = d + 8 := ⟨k - 8, by omega⟩
    have hrinc : r.Ascending := by
      intro a b hab hb
      rw [hr] at hb
      rw [hrkey a (by omega), hrkey b hb]
      exact hn (a + 8) (b + 8) (by omega) (by omega)
    have hk' : r.Covers d x := by
      rw [Node.Covers, hr]
      refine ⟨by omega, ?_, ?_⟩
      · by_cases hzero : d = 0
        · exact Or.inl hzero
        · rw [hrkey _ (by omega), show d - 1 + 8 = d + 8 - 1 by omega]
          exact Or.inr (hlow.resolve_left (by omega))
      · by_cases hlast : d = 8
        · exact Or.inl hlast
        · rw [hrkey _ (by omega)]
          exact Or.inr (hhigh.resolve_left (by omega))
    rw [hrinc.findChild hk', hrchild d (by omega)]

theorem removeChild_key_slice (n : Node V) (i : Nat) (hj : j < 14) :
    (removeChild n i).key_slice j = if i - 1 ≤ j then n.key_slice (j + 1) else n.key_slice j := by
  have hstart : (if i = 0 then 0 else i - 1) = i - 1 := by
    split <;> omega
  dsimp only [removeChild]
  rw [hstart, shiftLeft_apply]
  by_cases hij : i - 1 ≤ j
  · rw [if_pos ⟨hij, by omega⟩, if_pos hij]
  · rw [if_neg fun h => hij h.1, if_neg hij]

theorem removeChild_child (n : Node V) (i : Nat) (hj : j < 15) :
    (removeChild n i).child j = if i ≤ j then n.child (j + 1) else n.child j := by
  have hstart : (if i = 0 then 0 else i) = i := by
    split <;> omega
  dsimp only [removeChild]
  rw [hstart, shiftLeft_apply]
  by_cases hij : i ≤ j
  · rw [if_pos ⟨hij, by omega⟩, if_pos hij]
  · rw [if_neg fun h => hij h.1, if_neg hij]

theorem Node.Ascending.removeChild (hn : n.Ascending) (hcap : n.n_keys ≤ 15) (i : Nat) :
    (removeChild n i).Ascending := by
  intro a b hab hb
  change b < n.n_keys - 1 at hb
  rw [removeChild_key_slice n i (by omega), removeChild_key_slice n i (by omega)]
  split_ifs
  · exact hn (a + 1) (b + 1) (by omega) (by omega)
  · omega
  · exact hn a (b + 1) (by omega) (by omega)
  · exact hn a b hab (by omega)

/-- The slices of a child that is taken out go to the child on its left, those of the first one to
the second. -/
theorem Node.Ascending.findChild_removeChild (hn : n.Ascending) (hone : 1 ≤ n.n_keys) (hcap : n.n_keys ≤ 15)
    (hi : i ≤ n.n_keys) (x : Nat) : (Masstree.removeChild n i).findChild x =
      if n.Covers i x then n.child (if i = 0 then 1 else i - 1) else n.findChild x := by
  have hn' := hn.removeChild hcap i
  obtain ⟨k, hk⟩ := n.exists_covers x
  have hif : n.Covers i x ↔ k = i := ⟨fun hi => hn.covers_unique hk hi, fun he => he ▸ hk⟩
  rw [hn.findChild hk]
  simp only [hif]
  obtain ⟨hle, hlow, hhigh⟩ := hk
  by_cases hbehind : i < k ∨ k = i ∧ i ≠ 0
  · have hk' : (Masstree.removeChild n i).Covers (k - 1) x := by
      refine ⟨Nat.sub_le_sub_right hle 1, ?_, ?_⟩
      · by_cases hzero : k - 1 = 0
        · exact Or.inl hzero
        · right
          have hx : n.key_slice (k - 1) ≤ x := hlow.resolve_left (by omega)
          rw [removeChild_key_slice n i (by omega)]
          split
          · rw [show k - 1 - 1 + 1 = k - 1 by omega]
            exact hx
          · exact Nat.le_of_lt (Nat.lt_of_lt_of_le (hn _ _ (by omega) (by omega)) hx)
      · by_cases hlast : k = n.n_keys
        · exact Or.inl (congrArg (· - 1) hlast)
        · right
          rw [removeChild_key_slice n i (by omega), if_pos (by omega), show k - 1 + 1 = k by omega]
          exact hhigh.resolve_left hlast
    rw [hn'.findChild hk', removeChild_child n i (by omega)]
    by_cases hki : k = i
    · rw [if_neg (by omega), if_pos hki, if_neg (by omega), hki]
    · rw [if_pos (by omega), if_neg hki, show k - 1 + 1 = k by omega]
  · have hk' : (Masstree.removeChild n i).Covers k x := by
      have hkeys : k ≤ n.n_keys - 1 := by omega
      refine ⟨hkeys, ?_, ?_⟩
      · by_cases hzero : k = 0
        · exact Or.inl hzero
        · rw [removeChild_key_slice n i (by omega), if_neg (by omega)]
          exact hlow
      · by_cases hlast : k = n.n_keys - 1
        · exact Or.inl hlast
        · right
          have hx : x < n.key_slice k := hhigh.resolve_left (by omega)
          rw [removeChild_key_slice n i (by omega)]
          split
          · exact Nat.lt_trans hx (hn k (k + 1) (Nat.lt_succ_self k) (by omega))
          · exact hx
    rw [hn'.findChild hk', removeChild_child n i (by omega)]
    by_cases hki : k = i
    · rw [if_pos (by omega), if_pos hki, if_pos (by omega)]
      congr 1
      omega
    · rw [if_neg (by omega), if_neg hki]

variable {h h' : Heap V} {parent parent1 node1 : Ptr} {s k_prime : Nat}

/-- `node1` behind child `i` of the parent. -/
structure ChildAdded (h h' : Heap V) (parent node1 : Ptr) (s i : Nat) : Prop where
  routes : ∀ x, (h'.mem parent).findChild x =
    if (h.mem parent).Covers i x ∧ s ≤ x then some node1 else (h.mem parent).findChild x
  children : cells (h'.mem parent).child ((h'.mem parent).n_keys + 1) =
    (cells (h.mem parent).child ((h.mem parent).n_keys + 1)).insertIdx (i + 1) (some node1)
  parent : (h'.mem node1).parent = some parent

/-- `node1` behind child `i`, and the parent cut in two at `k_prime`. -/
structure ParentCut (h h' : Heap V) (parent parent1 node1 : Ptr) (s i k_prime : Nat) : Prop where
  routes : ∀ x, (h'.mem (if x < k_prime then parent else parent1)).findChild x =
    if (h.mem parent).Covers i x ∧ s ≤ x then some node1 else (h.mem parent).findChild x
  children : cells (h'.mem parent).child ((h'.mem parent).n_keys + 1) ++
      cells (h'.mem parent1).child ((h'.mem parent1).n_keys + 1) =
    (cells (h.mem parent).child ((h.mem parent).n_keys + 1)).insertIdx (i + 1) (some node1)
  parents : (some node1 :: cells (h.mem parent).child ((h.mem parent).n_keys + 1)).Nodup →
    ∀ p, p = parent ∨ p = parent1 → ∀ q, some q ∈ cells (h'.mem p).child ((h'.mem p).n_keys + 1) →
      (h'.mem q).parent = some p

/-- Child `i` is gone from the parent. -/
def ChildGone (h h' : Heap V) (parent : Ptr) (i : Nat) : Prop := ∀ x, (h'.mem parent).findChild x =
  if (h.mem parent).Covers i x then (h.mem parent).child (if i = 0 then 1 else i - 1)
  else (h.mem parent).findChild x

theorem childAdded_insert_into_parent (hn : (h.mem parent).Ascending) (hs : (h.mem parent).Inside i s) :
    ChildAdded h (insert_into_parent h parent node1 s i) parent node1 s i := by
  have hi := hs.1
  set n := h.mem parent with hdef
  set m := (insert_into_parent h parent node1 s i).mem parent with hm
  have hfields : m.n_keys = n.n_keys + 1 ∧
      m.key_slice = Function.update (shiftRight' i n.n_keys n.key_slice) i s ∧
      m.child = Function.update (shiftRight i n.n_keys n.child) (i + 1) (some node1) := by
    rw [hm, insert_into_parent, mem_modify]
    split
    · rw [Heap.mem_modify_self]
      exact ⟨rfl, rfl, rfl⟩
    · rw [Heap.mem_modify_self]
      exact ⟨rfl, rfl, rfl⟩
  obtain ⟨hkeys, hkey, hchild⟩ := hfields
  refine ⟨?_, ?_, ?_⟩
  · intro x
    rw [← hn.findChild_withChild hs x]
    refine (hn.withChild hs).findChild_congr hkeys ?_ ?_ x
    · intro j hj
      rw [hkey]
      change j < n.n_keys + 1 at hj
      change _ = openGap n.key_slice i s j
      by_cases hji : j = i
      · rw [hji, Function.update_self, openGap_self]
      · rw [Function.update_of_ne hji, shiftRight'_apply, openGap]
        split_ifs <;> first | rfl | omega
    · intro j hj
      rw [hchild]
      change j ≤ n.n_keys + 1 at hj
      change _ = openGap n.child (i + 1) (some node1) j
      by_cases hji : j = i + 1
      · rw [hji, Function.update_self, openGap_self]
      · rw [Function.update_of_ne hji, shiftRight_apply, openGap]
        split_ifs <;> first | rfl | omega
  · rw [← hm, hkeys, hchild]
    exact cells_shiftRight n.child (some node1) hi
  · rw [insert_into_parent, Heap.mem_modify_self]

/-- The children of the two halves. -/
theorem cells_splitInterior (n : Node V) (s : Nat) (node1 : Ptr) (hi : i ≤ n.n_keys) (hfull : n.n_keys = 15) :
    cells (splitInterior n s node1 i).children 8 ++ cells (splitInterior n s node1 i).children1 9 =
      (cells n.child (n.n_keys + 1)).insertIdx (i + 1) (some node1) := by
  rw [← cells_openGap n.child (some node1) (by omega), hfull]
  have hl : cells (splitInterior n s node1 i).children 8 =
      (cells (openGap n.child (i + 1) (some node1)) 17).take 8 := by
    rw [← cells_take _ (by decide)]
    exact cells_congr fun j hj => if_pos hj
  have hr : cells (splitInterior n s node1 i).children1 9 =
      (cells (openGap n.child (i + 1) (some node1)) 17).drop 8 := by
    rw [← cells_drop _ (by decide)]
    refine cells_congr fun j hj => ?_
    rw [Nat.add_comm 8 j]
    exact if_pos hj
  rw [hl, hr, List.take_append_drop]

theorem parentCut_split_keys_among (hn : (h.mem parent).Ascending) (hfull : (h.mem parent).n_keys = 15)
    (hs : (h.mem parent).Inside i s) (hne : parent1 ≠ parent) :
    ParentCut h (split_keys_amongInterior h parent parent1 s node1 i).2 parent parent1 node1 s i
      (split_keys_amongInterior h parent parent1 s node1 i).1 := by
  have hi := hs.1
  have hcells := cells_splitInterior (h.mem parent) s node1 hi hfull
  set c := splitInterior (h.mem parent) s node1 i with hc
  set h₁ := (h.modify parent fun n => { n with n_keys := 7, key_slice := c.keys, child := c.children }).modify parent1
    fun n => { n with n_keys := 8, key_slice := c.keys1, child := c.children1 } with hh₁
  have hsplit : split_keys_amongInterior h parent parent1 s node1 i =
      (c.k_prime, setParents (setParents h₁ parent c.children 8) parent1 c.children1 9) := rfl
  rw [hsplit]
  dsimp only
  set h' := setParents (setParents h₁ parent c.children 8) parent1 c.children1 9 with hh'
  have hmem : ∀ q, h'.mem q = if some q ∈ cells c.children1 9 then
      { (setParents h₁ parent c.children 8).mem q with parent := some parent1 }
      else (setParents h₁ parent c.children 8).mem q := fun q => setParents_mem ..
  have hmem₁ : ∀ q, (setParents h₁ parent c.children 8).mem q = if some q ∈ cells c.children 8 then
      { h₁.mem q with parent := some parent } else h₁.mem q := fun q => setParents_mem ..
  have hleft : (h'.mem parent).n_keys = 7 ∧ (h'.mem parent).key_slice = c.keys ∧
      (h'.mem parent).child = c.children := by
    have h₁mem : h₁.mem parent = { h.mem parent with n_keys := 7, key_slice := c.keys, child := c.children } := by
      rw [hh₁, Heap.mem_modify_of_ne _ _ (Ne.symm hne), Heap.mem_modify_self]
    rw [hmem, hmem₁, h₁mem]
    split_ifs <;> exact ⟨rfl, rfl, rfl⟩
  have hright : (h'.mem parent1).n_keys = 8 ∧ (h'.mem parent1).key_slice = c.keys1 ∧
      (h'.mem parent1).child = c.children1 := by
    have h₁mem : h₁.mem parent1 = { h.mem parent1 with n_keys := 8, key_slice := c.keys1, child := c.children1 } := by
      rw [hh₁, Heap.mem_modify_self, Heap.mem_modify_of_ne _ _ hne]
    rw [hmem, hmem₁, h₁mem]
    split_ifs <;> exact ⟨rfl, rfl, rfl⟩
  obtain ⟨hlkeys, hlkey, hlchild⟩ := hleft
  obtain ⟨hrkeys, hrkey, hrchild⟩ := hright
  refine ⟨?_, ?_, ?_⟩
  · intro x
    have hw : ((h.mem parent).withChild i s node1).Ascending := hn.withChild hs
    have hhalves := hw.findChild_halves (l := h'.mem parent) (r := h'.mem parent1)
      (congrArg (· + 1) hfull) hlkeys (fun j hj => by rw [hlkey]; exact if_pos hj)
      (fun j hj => by rw [hlchild]; exact if_pos hj) hrkeys (fun j hj => by rw [hrkey]; exact if_pos hj)
      (fun j hj => by rw [hrchild]; exact if_pos hj) x
    rw [← hn.findChild_withChild hs x, ← hhalves]
    change (h'.mem (if x < c.k_prime then parent else parent1)).findChild x =
      (if x < c.k_prime then h'.mem parent else h'.mem parent1).findChild x
    split <;> rfl
  · rw [hlkeys, hrkeys, hlchild, hrchild]
    exact hcells
  · intro hnodup p hp q hq
    rcases hp with rfl | rfl
    · rw [hlkeys, hlchild] at hq
      have hboth : (cells c.children 8 ++ cells c.children1 9).Nodup := by
        rw [hcells]
        exact (List.perm_insertIdx _ _ (by simp; omega)).nodup_iff.mpr hnodup
      have hnot : some q ∉ cells c.children1 9 := fun hq' => (List.nodup_append.mp hboth).2.2 _ hq _ hq' rfl
      rw [hmem, if_neg hnot, hmem₁, if_pos hq]
    · rw [hrkeys, hrchild] at hq
      rw [hmem, if_pos hq]

/-- The node that is taken out of the list leaves the interior nodes alone. -/
theorem unlink_fields (h : Heap V) (p q : Ptr) :
    ((setDeleted (connectPrevAndNext h p) p).mem q).n_keys = (h.mem q).n_keys ∧
      ((setDeleted (connectPrevAndNext h p) p).mem q).key_slice = (h.mem q).key_slice ∧
      ((setDeleted (connectPrevAndNext h p) p).mem q).child = (h.mem q).child := by
  rw [setDeleted, connectPrevAndNext, mem_modify, mem_modify?, mem_modify?]
  split_ifs <;> exact ⟨rfl, rfl, rfl⟩

theorem childGone_delete_borderNode {p : Ptr} {change : RootChange} {r : Option Ptr}
    (hn : (h.mem parent).Ascending) (htwo : 2 ≤ (h.mem parent).n_keys) (hcap : (h.mem parent).n_keys ≤ 15)
    (hroot : (h.mem p).is_root = false) (hparent : (h.mem p).parent = some parent)
    (hi : (h.mem parent).findChildIndex p = some i)
    (hres : delete_borderNode_in_remove h p = some (change, r, h')) : ChildGone h h' parent i := by
  unfold delete_borderNode_in_remove at hres
  obtain ⟨-, -, hres⟩ := Option.bind_eq_some_iff.mp hres
  rw [hroot, if_neg Bool.false_ne_true, hparent] at hres
  change ((h.mem parent).findChildIndex p).bind _ = _ at hres
  rw [hi, Option.bind_some, if_pos htwo] at hres
  cases hres
  intro x
  have hle : i ≤ (h.mem parent).n_keys := by
    have hmem := List.mem_of_find?_eq_some hi
    rw [List.mem_range] at hmem
    omega
  rw [← hn.findChild_removeChild (by omega) hcap hle x]
  obtain ⟨hkeys, hkey, hchild⟩ := unlink_fields (h.modify parent (removeChild · i)) p parent
  rw [Heap.mem_modify_self] at hkeys hkey hchild
  exact (hn.removeChild hcap i).findChild_congr hkeys (fun j _ => congrFun hkey j) (fun j _ => congrFun hchild j) x

/-- An insertion, a split and a deletion below an interior node. -/
theorem interior_routing (hn : (h.mem parent).Ascending) :
    (∀ node1 s i, (h.mem parent).isNotFull = true → (h.mem parent).Inside i s →
      ChildAdded h (insert_into_parent h parent node1 s i) parent node1 s i) ∧
    (∀ parent1 node1 s i, parent1 ≠ parent → (h.mem parent).isNotFull = false → (h.mem parent).Inside i s →
      ParentCut h (split_keys_amongInterior h parent parent1 s node1 i).2 parent parent1 node1 s i
        (split_keys_amongInterior h parent parent1 s node1 i).1) ∧
    ∀ p i change r h', 2 ≤ (h.mem parent).n_keys → (h.mem parent).n_keys ≤ 15 → (h.mem p).is_root = false →
      (h.mem p).parent = some parent → (h.mem parent).findChildIndex p = some i →
      delete_borderNode_in_remove h p = some (change, r, h') → ChildGone h h' parent i := by
  refine ⟨?_, ?_, ?_⟩
  · exact fun _ _ _ _ hs => childAdded_insert_into_parent hn hs
  · intro parent1 node1 s i hne hfull hs
    exact parentCut_split_keys_among hn (by simpa [Node.isNotFull] using hfull) hs hne
  · exact fun _ _ _ _ _ htwo hcap hroot hparent hi hres =>
      childGone_delete_borderNode hn htwo hcap hroot hparent hi hres

/-- An interior node at the address 0 with `k` separators 10, 20, … and empty children behind it. -/
def interiorHeap (k : Nat) : Heap Nat where
  mem p := if p = 0 then
      { (Node.newInterior : Node Nat) with n_keys := k, key_slice := fun i => 10 * (i + 1), child := fun i => some (i + 1) }
    else { (Node.newBorder : Node Nat) with permutation := [], parent := some 0 }
  fresh := 20

theorem ascending_interiorHeap (k : Nat) : ((interiorHeap k).mem 0).Ascending := by
  intro i j hij _
  change 10 * (i + 1) < 10 * (j + 1)
  omega

theorem interior_routing_heap :
    ChildAdded (interiorHeap 3) (insert_into_parent (interiorHeap 3) 0 18 15 1) 0 18 15 1 ∧
      ParentCut (interiorHeap 15) (split_keys_amongInterior (interiorHeap 15) 0 19 75 18 7).2 0 19 18 75 7 75 ∧
      ∃ change r h', delete_borderNode_in_remove (interiorHeap 3) 1 = some (change, r, h') ∧
        ChildGone (interiorHeap 3) h' 0 0 := by
  have hinside : ((interiorHeap 3).mem 0).Inside 1 15 ∧ ((interiorHeap 15).mem 0).Inside 7 75 := by
    unfold Node.Inside
    decide
  refine ⟨?_, ?_, _, _, _, rfl, ?_⟩
  · exact (interior_routing (ascending_interiorHeap 3)).1 18 15 1 rfl hinside.1
  · exact (interior_routing (ascending_interiorHeap 15)).2.1 19 18 75 7 (by decide) rfl hinside.2
  · exact (interior_routing (ascending_interiorHeap 3)).2.2 1 0 _ _ _ (by decide) (by decide) rfl rfl rfl rfl

end Cassa.Masstree

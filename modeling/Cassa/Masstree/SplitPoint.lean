import Cassa.Masstree.Arrays

/-!
# Where a border node is split

`create_slice_table` lists the slices of a full sorted node with their first indices, and
`split_point` reads off the table where the 16 entries of the node and a new key are cut:
never between two equal slices, and never so that a half is empty.
-/

namespace Cassa.Masstree

variable {V : Type}

section

variable {f : Nat → Nat}

/-- The first index of its slice. -/
def firstAt (f : Nat → Nat) (i : Nat) : Bool := decide (∀ j < i, f j ≠ f i)

/-- The table for the first `k` slices. -/
def sliceTable (f : Nat → Nat) (k : Nat) : List (Nat × Nat) :=
  ((List.range k).filter (firstAt f)).map fun i => (f i, i)

theorem mem_sliceTable {k v i : Nat} : (v, i) ∈ sliceTable f k ↔ i < k ∧ firstAt f i ∧ f i = v := by
  simp only [sliceTable, List.mem_map, List.mem_filter, List.mem_range, Prod.mk.injEq]
  constructor
  · rintro ⟨j, ⟨hj, hfirst⟩, rfl, rfl⟩
    exact ⟨hj, hfirst, rfl⟩
  · rintro ⟨hi, hfirst, rfl⟩
    exact ⟨i, ⟨hi, hfirst⟩, rfl, rfl⟩

/-- Every slice is in the table. -/
theorem exists_first (f : Nat → Nat) (i : Nat) : ∃ j ≤ i, firstAt f j ∧ f j = f i := by
  induction i using Nat.strongRecOn with
  | ind i ih =>
    by_cases hi : firstAt f i
    · exact ⟨i, Nat.le_refl _, hi, rfl⟩
    · simp only [firstAt, decide_eq_true_eq] at hi
      push Not at hi
      obtain ⟨j, hj, he⟩ := hi
      obtain ⟨m, hm, hfirst, hfm⟩ := ih j hj
      exact ⟨m, by omega, hfirst, hfm.trans he⟩

theorem mem_found {k v : Nat} : v ∈ (sliceTable f k).map Prod.fst ↔ ∃ i < k, f i = v := by
  rw [List.mem_map]
  constructor
  · rintro ⟨⟨v', i⟩, hmem, rfl⟩
    obtain ⟨hi, -, he⟩ := mem_sliceTable.mp hmem
    exact ⟨i, hi, he⟩
  · rintro ⟨i, hi, rfl⟩
    obtain ⟨j, hj, hfirst, he⟩ := exists_first f i
    exact ⟨(f i, j), mem_sliceTable.mpr ⟨by omega, hfirst, he⟩, rfl⟩

theorem sliceTable_succ (f : Nat → Nat) (k : Nat) : sliceTable f (k + 1) =
    if f k ∈ (sliceTable f k).map Prod.fst then sliceTable f k else sliceTable f k ++ [(f k, k)] := by
  have hiff : firstAt f k = true ↔ f k ∉ (sliceTable f k).map Prod.fst := by
    rw [mem_found]
    simp [firstAt]
  rw [sliceTable, List.range_succ, List.filter_append, List.map_append]
  split
  · rename_i h
    have : firstAt f k = false := by
      rw [← Bool.not_eq_true, hiff]
      exact not_not.mpr h
    simp [this, sliceTable]
  · rename_i h
    simp [hiff.mpr h, sliceTable]

theorem create_slice_table_eq (n : Node V) : create_slice_table n =
    (sliceTable (fun i => (n.slot i).key_slice) 15,
      (sliceTable (fun i => (n.slot i).key_slice) 15).map Prod.fst) := by
  unfold create_slice_table
  generalize 15 = k
  induction k with
  | zero => rfl
  | succ k ih =>
    rw [List.range_succ, List.foldl_append, ih, sliceTable_succ]
    simp only [List.foldl_cons, List.foldl_nil]
    split <;> simp

/-- `find?` on the table is `find?` on the indices. -/
theorem find?_sliceTable {k m : Nat} {P : Nat × Nat → Bool} (hm : m < k) (hfirst : firstAt f m)
    (hP : P (f m, m)) (hmin : ∀ i < m, firstAt f i → P (f i, i) = false) :
    (sliceTable f k).find? P = some (f m, m) := by
  rw [sliceTable, List.find?_map, List.find?_filter]
  have hfind : (List.range k).find?
      (fun i => decide (firstAt f i = true ∧ (P ∘ fun i => (f i, i)) i = true)) = some m := by
    rw [List.find?_range_eq_some]
    refine ⟨by simp [hfirst, hP], List.mem_range.mpr hm, ?_⟩
    intro i hi
    cases h : firstAt f i with
    | false => simp
    | true => simp [hmin i hi h]
  rw [hfind]
  rfl

/-- The sorted slices of a full node that has at least two of them. -/
structure SortedSlices (f : Nat → Nat) : Prop where
  mono : ∀ i j, i ≤ j → j < 15 → f i ≤ f j
  two : f 0 < f 14

theorem sortedSlices_of_ne (hmono : ∀ i j, i ≤ j → j < 15 → f i ≤ f j)
    (htwo : ∃ i < 15, ∃ j < 15, f i ≠ f j) : SortedSlices f := by
  obtain ⟨i, hi, j, hj, hne⟩ := htwo
  refine ⟨hmono, ?_⟩
  by_contra hone
  have hi0 := hmono 0 i (Nat.zero_le _) hi
  have hi14 := hmono i 14 (by omega) (by decide)
  have hj0 := hmono 0 j (Nat.zero_le _) hj
  have hj14 := hmono j 14 (by omega) (by decide)
  omega

/-- The place of `x`: before the first slice that is not smaller. -/
structure IsPlace (f : Nat → Nat) (x m : Nat) : Prop where
  le : m ≤ 15
  below : ∀ i < m, f i < x
  above : ∀ i, m ≤ i → i < 15 → x ≤ f i

/-- Where the loop on `insertion_index` stops. -/
theorem isPlace_takeWhile (hmono : ∀ i j, i ≤ j → j < 15 → f i ≤ f j) (x : Nat) :
    IsPlace f x ((List.range 15).takeWhile fun i => decide (f i < x)).length := by
  have happ := List.takeWhile_append_dropWhile (p := fun i => decide (f i < x)) (l := List.range 15)
  have hle := (List.takeWhile_sublist (fun i => decide (f i < x)) (l := List.range 15)).length_le
  rw [List.length_range] at hle
  refine ⟨hle, ?_, ?_⟩
  · intro i hi
    have hget : (List.range 15)[i]? = some i := List.getElem?_range (by omega)
    rw [← happ, List.getElem?_append_left hi] at hget
    have hbelow := List.mem_takeWhile_imp (List.mem_of_getElem? hget)
    exact of_decide_eq_true hbelow
  · intro i hi hlt
    have hget : (List.range 15)[i]? = some i := List.getElem?_range hlt
    rw [← happ, List.getElem?_append_right hi] at hget
    cases hrest : (List.range 15).dropWhile fun i => decide (f i < x) with
    | nil =>
      rw [hrest] at hget
      cases hget
    | cons k rest =>
      have hstop : ¬ f k < x := by
        have := List.head?_dropWhile_not (fun i => decide (f i < x)) (List.range 15)
        rw [hrest] at this
        simpa using this
      have hki : k ≤ i := by
        have hsorted : ((List.range 15).dropWhile fun i => decide (f i < x)).Pairwise (· < ·) :=
          (List.pairwise_lt_range (n := 15)).sublist (List.dropWhile_sublist _)
        rw [hrest] at hget hsorted
        rcases List.mem_cons.mp (List.mem_of_getElem? hget) with rfl | hmem
        · exact Nat.le_refl _
        · exact Nat.le_of_lt ((List.pairwise_cons.mp hsorted).1 i hmem)
      have := hmono k i hki hlt
      omega

theorem second_first (h : SortedSlices f) : ∃ i, 0 < i ∧ i < 15 ∧ (sliceTable f 15)[1]? = some (f i, i) ∧
    (∀ j < i, f j = f 0) ∧ f 0 < f i := by
  have hzero : firstAt f 0 = true := by simp [firstAt]
  have hex : ∃ i, 1 ≤ i ∧ i < 15 ∧ firstAt f i ∧ ∀ j, 1 ≤ j → j < i → firstAt f j = false := by
    obtain ⟨j, hj, hfirst, he⟩ := exists_first f 14
    have hj1 : 1 ≤ j := by
      by_contra hlt
      obtain rfl : j = 0 := by omega
      have := h.two
      omega
    have hP : ∃ i, 1 ≤ i ∧ firstAt f i := ⟨j, hj1, hfirst⟩
    refine ⟨Nat.find hP, (Nat.find_spec hP).1, ?_, (Nat.find_spec hP).2, ?_⟩
    · have := Nat.find_min' hP ⟨hj1, hfirst⟩
      omega
    · intro m hm hlt
      have := Nat.find_min hP hlt
      simpa [hm] using this
  obtain ⟨i, hi, hlt, hfirst, hmin⟩ := hex
  have hcopy : ∀ j < i, f j = f 0 := by
    intro j
    induction j using Nat.strongRecOn with
    | ind j ih =>
      intro hj
      rcases Nat.eq_zero_or_pos j with rfl | hpos
      · rfl
      · have := hmin j hpos hj
        simp only [firstAt, decide_eq_false_iff_not] at this
        push Not at this
        obtain ⟨m, hm, he⟩ := this
        rw [← he]
        exact ih m hm (by omega)
  refine ⟨i, hi, hlt, ?_, hcopy, ?_⟩
  · have hrange : List.range 15 = 0 :: List.range' 1 14 := by decide
    have hfind : (List.range' 1 14).find? (firstAt f) = some i := by
      rw [List.find?_range'_eq_some]
      refine ⟨hfirst, ?_, ?_⟩
      · rw [List.mem_range'_1]
        omega
      · intro j hj hji
        simp [hmin j hj hji]
    rw [sliceTable, hrange, List.filter_cons_of_pos hzero, List.map_cons]
    rw [List.getElem?_cons_succ, List.getElem?_map, ← List.head?_eq_getElem?, List.head?_filter, hfind]
    rfl
  · have hne := (by simpa [firstAt] using hfirst : ∀ j < i, f j ≠ f i) 0 (by omega)
    have := h.mono 0 i (by omega) hlt
    omega

theorem min?_found (h : SortedSlices f) : ((sliceTable f 15).map Prod.fst).min? = some (f 0) := by
  rw [List.min?_eq_some_iff]
  refine ⟨mem_found.mpr ⟨0, by decide, rfl⟩, ?_⟩
  intro v hv
  obtain ⟨i, hi, rfl⟩ := mem_found.mp hv
  exact h.mono 0 i (Nat.zero_le _) hi

theorem max?_found (h : SortedSlices f) : ((sliceTable f 15).map Prod.fst).max? = some (f 14) := by
  rw [List.max?_eq_some_iff]
  refine ⟨mem_found.mpr ⟨14, by decide, rfl⟩, ?_⟩
  intro v hv
  obtain ⟨i, hi, rfl⟩ := mem_found.mp hv
  exact h.mono i 14 (by omega) (by decide)

/-- The cut: right behind the new slice, right before it, or before the second slice when
the new one is a copy of the first. -/
theorem split_point_cases (h : SortedSlices f) {x m : Nat} (hm : IsPlace f x m) :
    ∃ p, split_point x (sliceTable f 15) ((sliceTable f 15).map Prod.fst) = some p ∧
      (p = m + 1 ∧ m < 15 ∧ x < f m ∨ p = m ∧ 0 < m ∧ (m < 15 ∧ f m = x ∨ m = 15) ∨
        m = 0 ∧ x = f 0 ∧ 1 < p ∧ p ≤ 15 ∧ (∀ j < p - 1, f j = f 0) ∧ f 0 < f (p - 1)) := by
  have hbelow := hm.below
  have habove := hm.above
  have hle := hm.le
  have hfirst : m < 15 → firstAt f m = true := by
    intro hlt
    have := habove m (Nat.le_refl _) hlt
    simp only [firstAt, decide_eq_true_eq]
    intro j hj
    have := hbelow j hj
    omega
  unfold split_point
  rw [min?_found h, max?_found h]
  dsimp only
  by_cases hlt : x < f 0
  · have hm0 : m = 0 := by
      by_contra hne
      have := hbelow 0 (by omega)
      omega
    rw [if_pos hlt]
    exact ⟨1, rfl, Or.inl ⟨by omega, by omega, by rw [hm0]; exact hlt⟩⟩
  rw [if_neg hlt]
  by_cases heq : x = f 0
  · have hm0 : m = 0 := by
      by_contra hne
      have := hbelow 0 (by omega)
      omega
    obtain ⟨i, hi, hi15, htable, hcopy, hnext⟩ := second_first h
    rw [if_pos heq, htable]
    exact ⟨i + 1, rfl, Or.inr (Or.inr ⟨hm0, heq, by omega, by omega, hcopy, hnext⟩)⟩
  rw [if_neg heq]
  have hpos : 0 < m := by
    by_contra hzero
    have := habove 0 (by omega) (by decide)
    omega
  have hequal : ∀ hlt : m < 15, f m = x →
      (sliceTable f 15).find? (fun e => decide (e.1 = x)) = some (f m, m) := by
    intro hlt he
    refine find?_sliceTable hlt (hfirst hlt) (by simpa using he) ?_
    intro i hi _
    have := hbelow i hi
    simp only [decide_eq_false_iff_not]
    omega
  have hplace : x ∈ (sliceTable f 15).map Prod.fst → m < 15 ∧ f m = x := by
    intro hmem
    obtain ⟨i, hi, he⟩ := mem_found.mp hmem
    have hmi : m ≤ i := by
      by_contra hgt
      have := hbelow i (by omega)
      omega
    have := habove m (Nat.le_refl _) (by omega)
    have := h.mono m i hmi hi
    exact ⟨by omega, by omega⟩
  by_cases hmid : f 0 < x ∧ x < f 14
  · rw [if_pos hmid]
    by_cases hmem : x ∈ (sliceTable f 15).map Prod.fst
    · obtain ⟨hlt15, he⟩ := hplace hmem
      rw [if_pos hmem, hequal hlt15 he]
      exact ⟨m, rfl, Or.inr (Or.inl ⟨rfl, hpos, Or.inl ⟨hlt15, he⟩⟩)⟩
    · rw [if_neg hmem]
      have hlt15 : m < 15 := by
        by_contra hge
        have := hbelow 14 (by omega)
        omega
      have hgt : x < f m := by
        have := habove m (Nat.le_refl _) hlt15
        have hne : f m ≠ x := fun he => hmem (mem_found.mpr ⟨m, hlt15, he⟩)
        omega
      have hfind : (sliceTable f 15).find? (fun e => decide (e.1 > x)) = some (f m, m) := by
        refine find?_sliceTable hlt15 (hfirst hlt15) (by simpa using hgt) ?_
        intro i hi _
        have := hbelow i hi
        simp only [decide_eq_false_iff_not]
        omega
      rw [hfind]
      exact ⟨m + 1, rfl, Or.inl ⟨rfl, hlt15, hgt⟩⟩
  rw [if_neg hmid]
  by_cases hmax : x = f 14
  · obtain ⟨hlt15, he⟩ := hplace (mem_found.mpr ⟨14, by decide, hmax.symm⟩)
    rw [if_pos hmax, hequal hlt15 he]
    exact ⟨m, rfl, Or.inr (Or.inl ⟨rfl, hpos, Or.inl ⟨hlt15, he⟩⟩)⟩
  · rw [if_neg hmax]
    have h15 : m = 15 := by
      by_contra hne
      have := habove 14 (by omega) (by decide)
      omega
    exact ⟨15, rfl, Or.inr (Or.inl ⟨h15.symm, hpos, Or.inr h15⟩)⟩

/-- The 16 slices, cut at the split point. -/
theorem split_point_spec (h : SortedSlices f) {x m : Nat} (hm : IsPlace f x m) :
    ∃ p, split_point x (sliceTable f 15) ((sliceTable f 15).map Prod.fst) = some p ∧ 1 ≤ p ∧ p ≤ 15 ∧
      ∀ i j, i < p → p ≤ j → j < 16 → openGap f m x i < openGap f m x j := by
  obtain ⟨p, hp, hcases⟩ := split_point_cases h hm
  have hle := hm.le
  refine ⟨p, hp, by omega, by omega, ?_⟩
  intro i j hi hj hj16
  have hbelow : i < m → f i < x := hm.below i
  have habove : m < j → x ≤ f (j - 1) := fun hlt => hm.above (j - 1) (by omega) (by omega)
  unfold openGap
  rcases hcases with ⟨rfl, hm15, hx⟩ | ⟨rfl, hpos, hx⟩ | ⟨rfl, rfl, hp1, hp15, hcopy, hnext⟩
  · have hj' : f m ≤ f (j - 1) := h.mono m (j - 1) (by omega) (by omega)
    rw [if_neg (by omega : ¬ j < m), if_neg (by omega : ¬ j = m)]
    by_cases him : i < m
    · rw [if_pos him]
      have := hbelow him
      omega
    · rw [if_neg him, if_pos (by omega)]
      omega
  · rw [if_pos hi, if_neg (by omega : ¬ j < p)]
    have := hbelow hi
    by_cases hjm : j = p
    · rw [if_pos hjm]
      exact this
    · rw [if_neg hjm]
      have := habove (by omega)
      omega
  · have hj' : f (p - 1) ≤ f (j - 1) := h.mono (p - 1) (j - 1) (by omega) (by omega)
    rw [if_neg (by omega : ¬ j < 0), if_neg (by omega : ¬ j = 0), if_neg (by omega : ¬ i < 0)]
    by_cases hi0 : i = 0
    · rw [if_pos hi0]
      omega
    · rw [if_neg hi0, hcopy (i - 1) (by omega)]
      omega

/-- For any sorted slices of a node with two different ones, and any new slice at its place. -/
theorem split_point_separates {n : Node V}
    (hmono : ∀ i j, i ≤ j → j < 15 → (n.slot i).key_slice ≤ (n.slot j).key_slice)
    (htwo : ∃ i < 15, ∃ j < 15, (n.slot i).key_slice ≠ (n.slot j).key_slice) (x : Nat) :
    ∃ p, split_point x (create_slice_table n).1 (create_slice_table n).2 = some p ∧ 1 ≤ p ∧ p ≤ 15 ∧
      let insertion_index := ((List.range 15).takeWhile fun i => decide ((n.slot i).key_slice < x)).length
      let temp_key_slice := openGap (fun i => (n.slot i).key_slice) insertion_index x
      ∀ i j, i < p → p ≤ j → j < 16 → temp_key_slice i < temp_key_slice j := by
  rw [create_slice_table_eq]
  exact split_point_spec (sortedSlices_of_ne hmono htwo) (isPlace_takeWhile hmono x)

/-- Thirteen equal slices between a smaller and a larger one, and one more of them. -/
theorem split_point_separates_run :
    let n : Node Nat := { (Node.newBorder : Node Nat) with
      slot := fun i => { (Slot.empty : Slot Nat) with key_slice := if i = 0 then 3 else if i = 14 then 9 else 5 } }
    ∃ p, split_point 5 (create_slice_table n).1 (create_slice_table n).2 = some p ∧ 1 ≤ p ∧ p ≤ 15 ∧
      let insertion_index := ((List.range 15).takeWhile fun i => decide ((n.slot i).key_slice < 5)).length
      let temp_key_slice := openGap (fun i => (n.slot i).key_slice) insertion_index 5
      ∀ i j, i < p → p ≤ j → j < 16 → temp_key_slice i < temp_key_slice j := by
  refine split_point_separates ?_ ⟨0, by decide, 1, by decide, by decide⟩ 5
  intro i j hij hj
  dsimp only
  split_ifs <;> omega

end

namespace Node

variable {n : Node V}

theorem cells_sort (hfull : n.permutation.length = 15) : cells n.sort.slot 15 = n.entries := by
  apply List.ext_getElem?
  intro i
  rw [getElem?_cells, entries, List.getElem?_map]
  by_cases hi : i < 15
  · rw [if_pos hi, List.getElem?_eq_getElem (by omega), Option.map_some]
    simp only [sort, if_pos hi]
    rw [List.getD_eq_getElem _ _ (by omega)]
  · rw [if_neg hi, List.getElem?_eq_none (by omega), Option.map_none]

theorem sort_slot_mem (hfull : n.permutation.length = 15) {i : Nat} (hi : i < 15) :
    n.sort.slot i ∈ n.entries := by
  rw [← cells_sort hfull]
  exact mem_cells.mpr ⟨i, hi, rfl⟩

theorem sortedSlices (hok : n.SlotsOk) (hfull : n.permutation.length = 15)
    (hsort : SortedSlots n.entries) : SortedSlices fun i => (n.sort.slot i).key_slice := by
  have hmono : ∀ i j, i ≤ j → j < 15 → (n.sort.slot i).key_slice ≤ (n.sort.slot j).key_slice := by
    intro i j hij hj
    rcases Nat.eq_or_lt_of_le hij with rfl | hlt
    · exact Nat.le_refl _
    · rw [← cells_sort hfull, SortedSlots, List.pairwise_iff_getElem] at hsort
      have := hsort i j (by simp; omega) (by simpa using hj) hlt
      simpa [cells] using this
  refine ⟨hmono, ?_⟩
  by_contra hone
  have heq : ∀ e ∈ n.entries, e.key_slice = (n.sort.slot 0).key_slice := by
    intro e he
    rw [← cells_sort hfull] at he
    obtain ⟨i, hi, rfl⟩ := mem_cells.mp he
    have := hmono 0 i (Nat.zero_le _) hi
    have := hmono i 14 (by omega) (by decide)
    omega
  have hsub : n.permutation.map (fun i => (n.slot i).id) ⊆
      (List.range' 1 9).map fun c => ((n.sort.slot 0).key_slice, c) := by
    intro x hx
    obtain ⟨i, hi, rfl⟩ := List.mem_map.mp hx
    have hle := (hok.live i hi).id_le
    refine List.mem_map.mpr ⟨(n.slot i).id.2, List.mem_range'_1.mpr (by omega), ?_⟩
    rw [← heq _ (List.mem_map_of_mem hi)]
    rfl
  have := (List.subperm_of_subset hok.ids hsub).length_le
  simp only [List.length_map, List.length_range', hfull] at this
  omega

theorem takeWhile_sort (hfull : n.permutation.length = 15) (x : Nat) :
    ((List.range 15).takeWhile fun i => decide ((n.sort.slot i).key_slice < x)).length =
      (n.entries.takeWhile fun e => e.key_slice < x).length := by
  rw [← cells_sort hfull, cells, List.takeWhile_map, List.length_map]
  rfl

theorem isPlace (hok : n.SlotsOk) (hfull : n.permutation.length = 15) (hsort : SortedSlots n.entries) (x : Nat) :
    IsPlace (fun i => (n.sort.slot i).key_slice) x (n.entries.takeWhile fun e => e.key_slice < x).length := by
  rw [← takeWhile_sort hfull]
  exact isPlace_takeWhile (sortedSlices hok hfull hsort).mono x

/-- The temporary arrays hold the sorted list with the new slot in it. -/
theorem cells_openGap_sort (hfull : n.permutation.length = 15) (s : Slot V) :
    cells (openGap n.sort.slot
      (((List.range 15).takeWhile fun i => (n.sort.slot i).key_slice < s.key_slice).length) s) 16 =
      insertSlot s n.entries := by
  have hle := (List.takeWhile_sublist (fun e : Slot V => decide (e.key_slice < s.key_slice))
    (l := n.entries)).length_le
  have hlen : n.entries.length = 15 := by simp [entries, hfull]
  rw [takeWhile_sort hfull, cells_openGap _ _ (by omega), cells_sort hfull]
  exact insertIdx_takeWhile _ s _

theorem split_point_entries (hok : n.SlotsOk) (hfull : n.permutation.length = 15)
    (hsort : SortedSlots n.entries) (s : Slot V) :
    ∃ p, split_point s.key_slice (create_slice_table n.sort).1 (create_slice_table n.sort).2 = some p ∧
      1 ≤ p ∧ p ≤ 15 ∧ ∀ a ∈ (insertSlot s n.entries).take p, ∀ b ∈ (insertSlot s n.entries).drop p,
        a.key_slice < b.key_slice := by
  obtain ⟨p, hp, h1, h15, hcut⟩ :=
    split_point_spec (sortedSlices hok hfull hsort) (isPlace hok hfull hsort s.key_slice)
  refine ⟨p, by rw [create_slice_table_eq]; exact hp, h1, h15, ?_⟩
  have hcells : (insertSlot s n.entries).map Slot.key_slice =
      cells (openGap (fun i => (n.sort.slot i).key_slice)
        (n.entries.takeWhile fun e => e.key_slice < s.key_slice).length s.key_slice) 16 := by
    have hle := (isPlace hok hfull hsort s.key_slice).le
    rw [cells_openGap _ _ hle, insertSlot, ← insertIdx_takeWhile, List.map_insertIdx, ← cells_sort hfull,
      cells, List.map_map]
    rfl
  intro a ha b hb
  have ha' : a.key_slice ∈ ((insertSlot s n.entries).map Slot.key_slice).take p := by
    rw [← List.map_take]
    exact List.mem_map_of_mem ha
  have hb' : b.key_slice ∈ ((insertSlot s n.entries).map Slot.key_slice).drop p := by
    rw [← List.map_drop]
    exact List.mem_map_of_mem hb
  rw [hcells, ← cells_take _ (by omega)] at ha'
  rw [hcells, ← cells_drop _ (by omega)] at hb'
  obtain ⟨i, hi, hai⟩ := mem_cells.mp ha'
  obtain ⟨j, hj, hbj⟩ := mem_cells.mp hb'
  rw [← hai, ← hbj]
  exact hcut i (p + j) hi (by omega) (by omega)

end Node

end Cassa.Masstree

import Cassa.Masstree.Border

/-!
# Arrays as lists

The first `n` cells of an array, and what the loops of the source do to them.
-/

namespace Cassa.Masstree

variable {α : Type}

def cells (a : Nat → α) (n : Nat) : List α := (List.range n).map a

@[simp] theorem length_cells (a : Nat → α) (n : Nat) : (cells a n).length = n := by
  simp [cells]

theorem getElem?_cells (a : Nat → α) (n i : Nat) : (cells a n)[i]? = if i < n then some (a i) else none := by
  unfold cells
  rw [List.getElem?_map]
  split
  · rename_i h
    rw [List.getElem?_range h]
    rfl
  · rename_i h
    rw [List.getElem?_eq_none (by simpa using h)]
    rfl

theorem mem_cells {a : Nat → α} {n : Nat} {x : α} : x ∈ cells a n ↔ ∃ i < n, a i = x := by
  simp [cells]

theorem cells_congr {a b : Nat → α} {n : Nat} (h : ∀ i < n, a i = b i) : cells a n = cells b n :=
  List.map_congr_left fun i hi => h i (List.mem_range.mp hi)

theorem cells_openGap (a : Nat → α) (x : α) {n i : Nat} (hi : i ≤ n) :
    cells (openGap a i x) (n + 1) = (cells a n).insertIdx i x := by
  apply List.ext_getElem?
  intro j
  rw [List.getElem?_insertIdx, getElem?_cells]
  unfold openGap
  rcases Nat.lt_trichotomy j i with hj | rfl | hj
  · rw [if_pos hj, if_pos hj, if_pos (by omega), getElem?_cells, if_pos (by omega)]
  · simp only [Nat.lt_irrefl, if_false, if_true, length_cells, hi, Nat.lt_succ_of_le hi]
  · simp only [getElem?_cells]
    split_ifs <;> first | rfl | omega

theorem cells_take (a : Nat → α) {n p : Nat} (hp : p ≤ n) : cells a p = (cells a n).take p := by
  apply List.ext_getElem?
  intro j
  rw [List.getElem?_take, getElem?_cells, getElem?_cells]
  split
  · rw [if_pos (by omega)]
  · rfl

theorem cells_drop (a : Nat → α) {n p : Nat} (hp : p ≤ n) :
    cells (fun j => a (p + j)) (n - p) = (cells a n).drop p := by
  apply List.ext_getElem?
  intro j
  rw [List.getElem?_drop, getElem?_cells, getElem?_cells]
  by_cases hj : p + j < n
  · rw [if_pos hj, if_pos (by omega)]
  · rw [if_neg hj, if_neg (by omega)]

theorem shiftRight_apply (stop : Nat) : ∀ (n : Nat) (a : Nat → α) (j : Nat), shiftRight stop n a j =
    if stop + 1 < j ∧ j ≤ n + 1 then a (j - 1) else a j := by
  intro n
  induction n with
  | zero =>
    intro a j
    rw [shiftRight, if_neg (by omega)]
  | succ n ih =>
    intro a j
    rw [shiftRight]
    by_cases hstop : n + 1 > stop
    · rw [if_pos hstop, ih]
      by_cases hj : stop + 1 < j ∧ j ≤ n + 1
      · rw [if_pos hj, if_pos ⟨hj.1, by omega⟩, Function.update_of_ne (by omega)]
      · rw [if_neg hj]
        by_cases hlast : j = n + 2
        · subst hlast
          rw [Function.update_self, if_pos ⟨by omega, by omega⟩]
          rfl
        · rw [Function.update_of_ne hlast, if_neg (by omega)]
    · rw [if_neg hstop, if_neg (by omega)]

theorem shiftRight'_apply (stop : Nat) : ∀ (n : Nat) (a : Nat → α) (j : Nat), shiftRight' stop n a j =
    if stop < j ∧ j ≤ n then a (j - 1) else a j := by
  intro n
  induction n with
  | zero =>
    intro a j
    rw [shiftRight', if_neg (by omega)]
  | succ n ih =>
    intro a j
    rw [shiftRight']
    by_cases hstop : n + 1 > stop
    · rw [if_pos hstop, ih]
      by_cases hj : stop < j ∧ j ≤ n
      · rw [if_pos hj, if_pos ⟨hj.1, by omega⟩, Function.update_of_ne (by omega)]
      · rw [if_neg hj]
        by_cases hlast : j = n + 1
        · subst hlast
          rw [Function.update_self, if_pos ⟨by omega, by omega⟩]
          rfl
        · rw [Function.update_of_ne hlast, if_neg (by omega)]
    · rw [if_neg hstop, if_neg (by omega)]

theorem shiftLeft_apply : ∀ (n i : Nat) (a : Nat → α) (j : Nat), shiftLeft i n a j =
    if i ≤ j ∧ j < i + n then a (j + 1) else a j := by
  intro n
  induction n with
  | zero =>
    intro i a j
    rw [shiftLeft, if_neg (by omega)]
  | succ n ih =>
    intro i a j
    rw [shiftLeft, ih]
    by_cases hj : i + 1 ≤ j ∧ j < i + 1 + n
    · rw [if_pos hj, if_pos ⟨by omega, by omega⟩, Function.update_of_ne (by omega)]
    · rw [if_neg hj]
      by_cases hfirst : j = i
      · subst hfirst
        rw [Function.update_self, if_pos ⟨Nat.le_refl _, by omega⟩]
      · rw [Function.update_of_ne hfirst, if_neg (by omega)]

theorem cells_shiftLeft (a : Nat → α) {n i k : Nat} (hi : i ≤ n) (hk : n ≤ i + k) :
    cells (shiftLeft i k a) n = (cells a (n + 1)).eraseIdx i := by
  apply List.ext_getElem?
  intro j
  rw [List.getElem?_eraseIdx, getElem?_cells, getElem?_cells, getElem?_cells, shiftLeft_apply]
  split_ifs <;> first | rfl | omega

/-- The loops of `insert_into_parent` on the children, with the store behind them. -/
theorem cells_shiftRight (a : Nat → α) (x : α) {n i : Nat} (hi : i ≤ n) :
    cells (Function.update (shiftRight i n a) (i + 1) x) (n + 2) = (cells a (n + 1)).insertIdx (i + 1) x := by
  rw [← cells_openGap a x (Nat.succ_le_succ hi)]
  apply cells_congr
  intro j hj
  unfold openGap
  by_cases hji : j = i + 1
  · subst hji
    rw [Function.update_self, if_neg (Nat.lt_irrefl _), if_pos rfl]
  · rw [Function.update_of_ne hji, shiftRight_apply]
    split_ifs <;> first | rfl | omega

/-- The same on the separators. -/
theorem cells_shiftRight' (a : Nat → α) (x : α) {n i : Nat} (hi : i ≤ n) :
    cells (Function.update (shiftRight' i n a) i x) (n + 1) = (cells a n).insertIdx i x := by
  rw [← cells_openGap a x hi]
  apply cells_congr
  intro j hj
  unfold openGap
  by_cases hji : j = i
  · subst hji
    rw [Function.update_self, if_neg (Nat.lt_irrefl _), if_pos rfl]
  · rw [Function.update_of_ne hji, shiftRight'_apply]
    split_ifs <;> first | rfl | omega

theorem insertIdx_length_append (l r : List α) (x : α) : (l ++ r).insertIdx l.length x = l ++ x :: r := by
  induction l with
  | nil => simp
  | cons a l ih => simp [ih]

end Cassa.Masstree

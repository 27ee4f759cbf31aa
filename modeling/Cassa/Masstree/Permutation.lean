import Cassa.Masstree.SlotStates

/-!
# The packed permutation

`permutation.h`. A border node keeps the order of its slots in one word: fifteen fields of four
bits for slot numbers from the top down, and their count in the lowest four bits. The model of a
node has a list in the place of the word; here the word is the list.
-/

namespace Cassa.Masstree

open Cassa.Lib.Runs

structure Permutation where
  body : BitVec 64
  deriving DecidableEq, Repr

namespace Permutation

def getNumKeys (p : Permutation) : Nat := (p.body &&& 0b1111#64).toNat

def setNumKeys (p : Permutation) (num : Nat) : Option Permutation :=
  if num ≤ 15 then
    let temp_num := p.body >>> 4
    let temp_num := temp_num <<< 4
    some ⟨temp_num ||| BitVec.ofNat 64 num⟩
  else none

def incrementNumKeys (p : Permutation) : Option Permutation :=
  if p.getNumKeys ≤ 14 then p.setNumKeys (p.getNumKeys + 1) else none

def decrementNumKeys (p : Permutation) : Option Permutation :=
  if 1 ≤ p.getNumKeys then p.setNumKeys (p.getNumKeys - 1) else none

/-- The four bits for a place of the permutation; the count is at the place 15. -/
def field (p : Permutation) (index : Nat) : Nat := (p.body >>> ((15 - index) * 4) &&& 0b1111#64).toNat

def getKeyIndex (p : Permutation) (index : Nat) : Option Nat :=
  if index < p.getNumKeys ∧ p.field index ≤ 14 then some (p.field index) else none

def setKeyIndex (p : Permutation) (permutationIndex trueIndex : Nat) : Option Permutation :=
  if permutationIndex ≤ 14 ∧ trueIndex ≤ 14 then
    let left := if permutationIndex = 0 then 0#64
      else (p.body >>> ((16 - permutationIndex) * 4)) <<< ((16 - permutationIndex) * 4)
    let right := p.body &&& ((1#64 <<< ((15 - permutationIndex) * 4)) - 1#64)
    let middle := BitVec.ofNat 64 trueIndex * (1#64 <<< ((15 - permutationIndex) * 4))
    let q : Permutation := ⟨left ||| middle ||| right⟩
    if q.field permutationIndex ≤ 14 then some q else none
  else none

/-- The search of `removeIndex` from place `i` on, with `fuel` places to go. At the end the place
is not set. -/
def findIndex (p : Permutation) (trueIndex : Nat) : Nat → Nat → Option Nat
  | 0, _ => none
  | fuel + 1, i => do
    let t ← p.getKeyIndex i
    if t = trueIndex then some i else findIndex p trueIndex fuel (i + 1)

/-- The shift of `removeIndex`. The bound is read from the word in every turn, and is an `int`. -/
def closeGap : Nat → Nat → Permutation → Option Permutation
  | 0, _, _ => none
  | fuel + 1, target, p =>
    if (target : Int) + 1 ≤ (p.getNumKeys : Int) - 1 then do
      let t ← p.getKeyIndex (target + 1)
      let p ← p.setKeyIndex target t
      closeGap fuel (target + 1) p
    else some p

def removeIndex (p : Permutation) (trueIndex : Nat) : Option Permutation := do
  let permutationIndex ← p.findIndex trueIndex p.getNumKeys 0
  let p ← closeGap 16 permutationIndex p
  p.decrementNumKeys

/-- The shift of `insert`, from place `i` down. -/
def makeGap (permutationIndex : Nat) : Nat → Permutation → Option Permutation
  | 0, p => some p
  | i + 1, p =>
    if i + 1 > permutationIndex then do
      let t ← p.getKeyIndex i
      let p ← p.setKeyIndex (i + 1) t
      makeGap permutationIndex i p
    else some p

def insert (p : Permutation) (permutationIndex trueIndex : Nat) : Option Permutation := do
  let p ← makeGap permutationIndex p.getNumKeys p
  let p ← p.setKeyIndex permutationIndex trueIndex
  p.incrementNumKeys

def sizeOne : Option Permutation := do
  let p : Permutation := ⟨0⟩
  let p ← p.setNumKeys 1
  p.setKeyIndex 0 0

/-- The loop of `from` from place `i` on. -/
def setAll : Nat → List Nat → Permutation → Option Permutation
  | _, [], p => some p
  | i, t :: vec, p => do
    let p ← p.setKeyIndex i t
    setAll (i + 1) vec p

/-- `Permutation::from` -/
def from_ (vec : List Nat) : Option Permutation := do
  let p ← setAll 0 vec ⟨0⟩
  p.setNumKeys vec.length

/-- The loop of `fromSorted` sets place `i` to `i`. -/
def fromSorted (n_keys : Nat) : Option Permutation := do
  let p ← setAll 0 (List.range n_keys) ⟨0⟩
  p.setNumKeys n_keys

variable {p q : Permutation}

theorem testBit_field (p : Permutation) (i k : Nat) :
    (p.field i).testBit k = (p.body.getLsbD ((15 - i) * 4 + k) && decide (k < 4)) := by
  have hmask : (0b1111#64).getLsbD k = decide (k < 4) := by
    rw [BitVec.getLsbD_ofNat, show (15 : Nat) = 2 ^ 4 - 1 by rfl, Nat.testBit_two_pow_sub_one]
    by_cases hk : k < 4
    · simp [hk]
      omega
    · simp [hk]
  rw [field, BitVec.testBit_toNat, BitVec.getLsbD_and, BitVec.getLsbD_ushiftRight, hmask]

theorem getNumKeys_eq (p : Permutation) : p.getNumKeys = p.field 15 := by
  rw [getNumKeys, field, Nat.sub_self, Nat.zero_mul, BitVec.ushiftRight_zero]

theorem field_lt (p : Permutation) (i : Nat) : p.field i < 16 := by
  apply Nat.lt_pow_two_of_testBit (n := 4)
  intro k hk
  rw [testBit_field, decide_eq_false (by omega), Bool.and_false]

theorem getNumKeys_le (p : Permutation) : p.getNumKeys ≤ 15 := by
  rw [getNumKeys_eq]
  exact Nat.le_of_lt_succ (p.field_lt 15)

theorem toNat_one_shift {b : Nat} (hb : b < 64) : (1#64 <<< b).toNat = 2 ^ b := by
  rw [BitVec.toNat_shiftLeft]
  change 1 <<< b % 2 ^ 64 = 2 ^ b
  rw [Nat.one_shiftLeft, Nat.mod_eq_of_lt (Nat.pow_lt_pow_right (by decide) hb)]

/-- The ones below bit `b`. -/
theorem getLsbD_mask {b : Nat} (hb : b < 64) (j : Nat) :
    ((1#64 <<< b) - 1#64).getLsbD j = decide (j < b) := by
  have hpos : 1 ≤ 2 ^ b := Nat.one_le_two_pow
  have hone := toNat_one_shift hb
  have hsub : ((1#64 <<< b) - 1#64).toNat = 2 ^ b - 1 := by
    rw [BitVec.toNat_sub_of_le, hone]
    · rfl
    · rw [BitVec.le_def, hone]
      exact hpos
  rw [← BitVec.testBit_toNat, hsub, Nat.testBit_two_pow_sub_one]

/-- A slot number multiplied to its place. -/
theorem getLsbD_middle {t b : Nat} (ht : t < 16) (hb : b ≤ 60) (j : Nat) :
    (BitVec.ofNat 64 t * (1#64 <<< b)).getLsbD j = (decide (b ≤ j) && t.testBit (j - b)) := by
  have hone := toNat_one_shift (b := b) (by omega)
  have hmul : t * 2 ^ b < 2 ^ 64 := by
    calc t * 2 ^ b < 2 ^ 4 * 2 ^ b := Nat.mul_lt_mul_of_pos_right ht (Nat.two_pow_pos b)
      _ = 2 ^ (4 + b) := (Nat.pow_add 2 4 b).symm
      _ ≤ 2 ^ 64 := Nat.pow_le_pow_right (by decide) (by omega)
  have hprod : (BitVec.ofNat 64 t * (1#64 <<< b)).toNat = t * 2 ^ b := by
    rw [BitVec.toNat_mul, hone, BitVec.toNat_ofNat, Nat.mod_eq_of_lt (by omega : t < 2 ^ 64), Nat.mod_eq_of_lt hmul]
  rw [← BitVec.testBit_toNat, hprod, Nat.testBit_mul_two_pow]

/-- The bits from bit `b` on. -/
theorem getLsbD_high (w : BitVec 64) (b j : Nat) :
    ((w >>> b) <<< b).getLsbD j = (decide (b ≤ j) && w.getLsbD j) := by
  rw [BitVec.getLsbD_shiftLeft, BitVec.getLsbD_ushiftRight]
  by_cases hj : b ≤ j
  · by_cases hw : j < 64
    · simp [hj, hw, Nat.not_lt.mpr hj]
    · simp [hw, BitVec.getLsbD_of_ge w j (by omega)]
  · simp [hj]

/-- What `setKeyIndex` leaves in the other places, and in the count. -/
theorem setKeyIndex_spec (p : Permutation) {i t : Nat} (hi : i ≤ 14) (ht : t ≤ 14) :
    ∃ q, p.setKeyIndex i t = some q ∧ ∀ j ≤ 15, q.field j = if j = i then t else p.field j := by
  set left := if i = 0 then 0#64 else (p.body >>> ((16 - i) * 4)) <<< ((16 - i) * 4) with hleft
  set right := p.body &&& ((1#64 <<< ((15 - i) * 4)) - 1#64) with hright
  set middle := BitVec.ofNat 64 t * (1#64 <<< ((15 - i) * 4)) with hmiddle
  set q : Permutation := ⟨left ||| middle ||| right⟩ with hq
  have hbit : ∀ j, q.body.getLsbD j = (left.getLsbD j || (decide ((15 - i) * 4 ≤ j) && t.testBit (j - (15 - i) * 4)) ||
      (p.body.getLsbD j && decide (j < (15 - i) * 4))) := by
    intro j
    rw [hq]
    dsimp only
    rw [BitVec.getLsbD_or, BitVec.getLsbD_or, hmiddle, getLsbD_middle (by omega) (by omega), hright, BitVec.getLsbD_and,
      getLsbD_mask (by omega)]
  have hfield : ∀ j ≤ 15, q.field j = if j = i then t else p.field j := by
    intro j hj
    apply Nat.eq_of_testBit_eq
    intro k
    rw [testBit_field, hbit]
    by_cases hk : k < 4
    swap
    · rw [decide_eq_false hk, Bool.and_false]
      split
      · exact (Nat.testBit_lt_two_pow (Nat.lt_of_lt_of_le (by omega : t < 2 ^ 4)
          (Nat.pow_le_pow_right (by decide) (by omega)))).symm
      · rw [testBit_field, decide_eq_false hk, Bool.and_false]
    have hshort : ∀ l, 4 ≤ l → t.testBit l = false := fun l hl =>
      Nat.testBit_lt_two_pow (Nat.lt_of_lt_of_le (by omega : t < 2 ^ 4) (Nat.pow_le_pow_right (by decide) hl))
    have hhigh : left.getLsbD ((15 - j) * 4 + k) = (decide (j < i) && p.body.getLsbD ((15 - j) * 4 + k)) := by
      rw [hleft]
      split
      · rw [decide_eq_false (by omega), Bool.false_and, BitVec.getLsbD_zero]
      · rw [getLsbD_high]
        congr 1
        rw [decide_eq_decide]
        omega
    rw [decide_eq_true hk, Bool.and_true, hhigh]
    rcases Nat.lt_trichotomy j i with hji | rfl | hji
    · rw [if_neg (by omega), testBit_field, decide_eq_true hk, decide_eq_true hji, hshort _ (by omega),
        decide_eq_false (by omega : ¬ (15 - j) * 4 + k < (15 - i) * 4)]
      simp
    · rw [if_pos rfl, decide_eq_false (Nat.lt_irrefl j), decide_eq_false (by omega : ¬ (15 - j) * 4 + k < (15 - j) * 4),
        decide_eq_true (by omega : (15 - j) * 4 ≤ (15 - j) * 4 + k), Nat.add_sub_cancel_left]
      simp
    · rw [if_neg (by omega), testBit_field, decide_eq_true hk, decide_eq_false (by omega : ¬ j < i),
        decide_eq_false (by omega : ¬ (15 - i) * 4 ≤ (15 - j) * 4 + k),
        decide_eq_true (by omega : (15 - j) * 4 + k < (15 - i) * 4)]
      simp
  refine ⟨q, ?_, hfield⟩
  rw [setKeyIndex, if_pos ⟨hi, ht⟩]
  refine if_pos ?_
  change q.field i ≤ 14
  rw [hfield i (by omega), if_pos rfl]
  exact ht

/-- `setNumKeys` keeps every place. -/
theorem setNumKeys_spec (p : Permutation) {num : Nat} (hnum : num ≤ 15) :
    ∃ q, p.setNumKeys num = some q ∧ q.getNumKeys = num ∧ ∀ j ≤ 14, q.field j = p.field j := by
  set q : Permutation := ⟨(p.body >>> 4) <<< 4 ||| BitVec.ofNat 64 num⟩ with hq
  have hbit : ∀ j, q.body.getLsbD j = ((decide (4 ≤ j) && p.body.getLsbD j) || (BitVec.ofNat 64 num).getLsbD j) := by
    intro j
    rw [hq]
    dsimp only
    rw [BitVec.getLsbD_or, getLsbD_high]
  have hnumbit : ∀ j, (BitVec.ofNat 64 num).getLsbD j = num.testBit j := by
    intro j
    rw [← BitVec.testBit_toNat, BitVec.toNat_ofNat, Nat.mod_eq_of_lt (by omega)]
  have hshort : ∀ l, 4 ≤ l → num.testBit l = false := fun l hl =>
    Nat.testBit_lt_two_pow (Nat.lt_of_lt_of_le (by omega : num < 2 ^ 4) (Nat.pow_le_pow_right (by decide) hl))
  refine ⟨q, if_pos hnum, ?_, ?_⟩
  · rw [getNumKeys_eq]
    apply Nat.eq_of_testBit_eq
    intro k
    rw [testBit_field, hbit, hnumbit, Nat.sub_self, Nat.zero_mul, Nat.zero_add]
    by_cases hk : k < 4
    · simp [hk]
    · simp [hk, hshort k (by omega)]
  · intro j hj
    apply Nat.eq_of_testBit_eq
    intro k
    rw [testBit_field, testBit_field, hbit, hnumbit, hshort _ (by omega), decide_eq_true (by omega), Bool.true_and,
      Bool.or_false]

/-- The places in use. -/
def toList (p : Permutation) : List Nat := cells p.field p.getNumKeys

/-- Different slot numbers. -/
structure Valid (p : Permutation) : Prop where
  nodup : p.toList.Nodup
  slot : ∀ t ∈ p.toList, t ≤ 14

@[simp] theorem length_toList (p : Permutation) : p.toList.length = p.getNumKeys := length_cells ..

theorem mem_toList {t : Nat} : t ∈ p.toList ↔ ∃ i < p.getNumKeys, p.field i = t := mem_cells

theorem getElem?_toList (p : Permutation) (i : Nat) :
    p.toList[i]? = if i < p.getNumKeys then some (p.field i) else none := getElem?_cells ..

/-- The numbers that are read are slots. -/
def SlotFields (p : Permutation) : Prop := ∀ i < p.getNumKeys, p.field i ≤ 14

theorem Valid.slotFields (hp : p.Valid) : p.SlotFields := fun i hi => hp.slot _ (mem_toList.mpr ⟨i, hi, rfl⟩)

theorem SlotFields.getKeyIndex (hp : p.SlotFields) {i : Nat} (hi : i < p.getNumKeys) :
    p.getKeyIndex i = some (p.field i) := if_pos ⟨hi, hp i hi⟩

/-- A store at a place below the count, or right behind the places in use. -/
theorem SlotFields.setKeyIndex (hp : p.SlotFields) {i t : Nat} (hi : i ≤ 14) (ht : t ≤ 14) :
    ∃ q, p.setKeyIndex i t = some q ∧ q.getNumKeys = p.getNumKeys ∧ q.SlotFields ∧
      ∀ j ≤ 14, q.field j = if j = i then t else p.field j := by
  obtain ⟨q, hq, hfield⟩ := p.setKeyIndex_spec hi ht
  have hkeys : q.getNumKeys = p.getNumKeys := by
    rw [getNumKeys_eq, getNumKeys_eq, hfield 15 (Nat.le_refl _), if_neg (by omega)]
  refine ⟨q, hq, hkeys, ?_, fun j hj => hfield j (by omega)⟩
  intro j hj
  rw [hkeys] at hj
  have := p.getNumKeys_le
  rw [hfield j (by omega)]
  split
  · exact ht
  · exact hp j hj

/-- The places from `k` on move one place up; the count stays. -/
theorem makeGap_spec {k : Nat} : ∀ {i : Nat} {p : Permutation}, p.SlotFields → p.getNumKeys ≤ 14 → i ≤ p.getNumKeys →
    ∃ q, makeGap k i p = some q ∧ q.getNumKeys = p.getNumKeys ∧ q.SlotFields ∧
      ∀ j ≤ 14, q.field j = if k < j ∧ j ≤ i then p.field (j - 1) else p.field j := by
  intro i
  induction i with
  | zero =>
    intro p hp _ _
    refine ⟨p, rfl, rfl, hp, ?_⟩
    intro j _
    rw [if_neg (by omega)]
  | succ i ih =>
    intro p hp hcap hi
    unfold makeGap
    by_cases hk : i + 1 > k
    · obtain ⟨q, hq, hkeys, hq', hfield⟩ := hp.setKeyIndex (by omega : i + 1 ≤ 14) (hp i hi)
      obtain ⟨r, hr, hkeys', hr', hfield'⟩ := ih hq' (hkeys ▸ hcap) (by omega)
      refine ⟨r, ?_, hkeys'.trans hkeys, hr', ?_⟩
      · rw [if_pos hk, hp.getKeyIndex hi]
        change (p.setKeyIndex (i + 1) (p.field i)).bind _ = _
        rw [hq]
        exact hr
      · intro j hj
        rw [hfield' j hj]
        by_cases hlast : j = i + 1
        · rw [if_neg (by omega), if_pos (by omega), hfield j hj, if_pos hlast, hlast, Nat.add_sub_cancel]
        · by_cases hshift : k < j ∧ j ≤ i
          · rw [if_pos hshift, if_pos (by omega), hfield (j - 1) (by omega), if_neg (by omega)]
          · rw [if_neg hshift, if_neg (by omega), hfield j hj, if_neg hlast]
    · rw [if_neg hk]
      refine ⟨p, rfl, rfl, hp, ?_⟩
      intro j _
      rw [if_neg (by omega)]

theorem insert_spec (hp : p.SlotFields) (hcap : p.getNumKeys ≤ 14) {k t : Nat} (hk : k ≤ p.getNumKeys) (ht : t ≤ 14) :
    ∃ q, p.insert k t = some q ∧ q.toList = p.toList.insertIdx k t := by
  obtain ⟨q, hq, hkeys, hq', hfield⟩ := makeGap_spec (k := k) hp hcap (Nat.le_refl _)
  obtain ⟨r, hr, hkeys', hr', hfield'⟩ := hq'.setKeyIndex (by omega : k ≤ 14) ht
  obtain ⟨w, hw, hnum, hfield''⟩ := r.setNumKeys_spec (by omega : p.getNumKeys + 1 ≤ 15)
  refine ⟨w, ?_, ?_⟩
  · unfold insert
    rw [hq]
    change (q.setKeyIndex k t).bind _ = _
    rw [hr]
    change r.incrementNumKeys = _
    rw [incrementNumKeys, hkeys', hkeys, if_pos hcap]
    exact hw
  · rw [toList, hnum, toList, ← cells_openGap p.field t hk]
    refine cells_congr fun j hj => ?_
    rw [hfield'' j (by omega), hfield' j (by omega), hfield j (by omega), openGap]
    split_ifs <;> first | rfl | omega

theorem findIndex_spec (hp : p.SlotFields) {t : Nat} : ∀ {fuel i k : Nat}, i + fuel = p.getNumKeys → i ≤ k →
    k < p.getNumKeys → p.field k = t → (∀ j, i ≤ j → j < k → p.field j ≠ t) → p.findIndex t fuel i = some k := by
  intro fuel
  induction fuel with
  | zero =>
    intro i k hi hik hk
    omega
  | succ fuel ih =>
    intro i k hi hik hk hfield hbefore
    unfold findIndex
    rw [hp.getKeyIndex (by omega)]
    change (if p.field i = t then some i else p.findIndex t fuel (i + 1)) = some k
    rcases Nat.eq_or_lt_of_le hik with rfl | hlt
    · rw [if_pos hfield]
    · rw [if_neg (hbefore i (Nat.le_refl _) hlt)]
      exact ih (by omega) hlt hk hfield fun j hj => hbefore j (by omega)

/-- The places behind `target` move one place down; the last one is there twice. -/
theorem closeGap_spec : ∀ {fuel target : Nat} {p : Permutation}, p.SlotFields → p.getNumKeys ≤ target + fuel →
    ∃ q, closeGap (fuel + 1) target p = some q ∧ q.getNumKeys = p.getNumKeys ∧
      ∀ j ≤ 14, q.field j = if target ≤ j ∧ j + 1 < p.getNumKeys then p.field (j + 1) else p.field j := by
  intro fuel
  induction fuel with
  | zero =>
    intro target p _ hle
    unfold closeGap
    rw [if_neg (by omega)]
    refine ⟨p, rfl, rfl, ?_⟩
    intro j _
    rw [if_neg (by omega)]
  | succ fuel ih =>
    intro target p hp hle
    have hcap := p.getNumKeys_le
    unfold closeGap
    by_cases hnext : (target : Int) + 1 ≤ (p.getNumKeys : Int) - 1
    · obtain ⟨q, hq, hkeys, hq', hfield⟩ := hp.setKeyIndex (by omega : target ≤ 14) (hp (target + 1) (by omega))
      obtain ⟨r, hr, hkeys', hfield'⟩ := ih hq' (by omega : q.getNumKeys ≤ target + 1 + fuel)
      refine ⟨r, ?_, hkeys'.trans hkeys, ?_⟩
      · rw [if_pos hnext, hp.getKeyIndex (by omega)]
        change (p.setKeyIndex target (p.field (target + 1))).bind _ = _
        rw [hq]
        exact hr
      · intro j hj
        rw [hfield' j hj, hkeys]
        by_cases hfirst : j = target
        · rw [if_neg (by omega), if_pos (by omega), hfield j hj, if_pos hfirst, hfirst]
        · by_cases hshift : target + 1 ≤ j ∧ j + 1 < p.getNumKeys
          · rw [if_pos hshift, if_pos (by omega), hfield (j + 1) (by omega), if_neg (by omega)]
          · rw [if_neg hshift, if_neg (by omega), hfield j hj, if_neg hfirst]
    · rw [if_neg hnext]
      refine ⟨p, rfl, rfl, ?_⟩
      intro j _
      rw [if_neg (by omega)]

theorem removeIndex_spec (hp : p.SlotFields) {t : Nat} (ht : t ∈ p.toList) :
    ∃ q, p.removeIndex t = some q ∧ q.toList = p.toList.erase t := by
  have hcap := p.getNumKeys_le
  set k := p.toList.idxOf t with hk
  have hlt : k < p.getNumKeys := by
    rw [← length_toList]
    exact List.idxOf_lt_length_of_mem ht
  have hget : ∀ j < p.getNumKeys, p.toList[j]? = some (p.field j) := by
    intro j hj
    rw [getElem?_toList, if_pos hj]
  have hfield : p.field k = t := by
    have := hget k hlt
    rw [List.getElem?_eq_getElem (by simpa using hlt), List.getElem_idxOf] at this
    exact (Option.some.inj this).symm
  have hbefore : ∀ j, 0 ≤ j → j < k → p.field j ≠ t := by
    intro j _ hj he
    have hjl : j < p.toList.length := by simp; omega
    have hne : (p.toList[j] == t) = false := List.not_of_lt_findIdx hj
    have := hget j (by omega)
    rw [List.getElem?_eq_getElem hjl, Option.some.injEq] at this
    rw [this, he, beq_self_eq_true] at hne
    cases hne
  obtain ⟨q, hq, hkeys, hfields⟩ := closeGap_spec hp (by omega : p.getNumKeys ≤ k + 15)
  obtain ⟨r, hr, hnum, hfields'⟩ := q.setNumKeys_spec (by omega : p.getNumKeys - 1 ≤ 15)
  refine ⟨r, ?_, ?_⟩
  · unfold removeIndex
    rw [findIndex_spec hp (Nat.zero_add _) (Nat.zero_le _) hlt hfield hbefore]
    change (closeGap 16 k p).bind _ = _
    rw [hq]
    change q.decrementNumKeys = _
    rw [decrementNumKeys, hkeys, if_pos (by omega)]
    exact hr
  · rw [← List.eraseIdx_idxOf_eq_erase, ← hk]
    apply List.ext_getElem?
    intro j
    rw [getElem?_toList, hnum, List.getElem?_eraseIdx, getElem?_toList, getElem?_toList]
    by_cases hj : j < p.getNumKeys - 1
    · rw [if_pos hj, hfields' j (by omega), hfields j (by omega)]
      by_cases hjk : j < k
      · rw [if_neg (by omega), if_pos hjk, if_pos (by omega)]
      · rw [if_pos (by omega), if_neg hjk, if_pos (by omega)]
    · rw [if_neg hj, if_neg (by omega), if_neg (by omega)]

theorem setAll_spec : ∀ {vec : List Nat} {i : Nat} {p : Permutation}, i + vec.length ≤ 15 → p.SlotFields →
    (∀ t ∈ vec, t ≤ 14) → ∃ q, setAll i vec p = some q ∧
      ∀ j ≤ 14, q.field j = if i ≤ j then vec.getD (j - i) (p.field j) else p.field j := by
  intro vec
  induction vec with
  | nil =>
    intro i p _ _ _
    refine ⟨p, rfl, ?_⟩
    intro j _
    simp
  | cons t vec ih =>
    intro i p hlen hp hslots
    rw [List.length_cons] at hlen
    obtain ⟨q, hq, -, hq', hfield⟩ := hp.setKeyIndex (by omega : i ≤ 14) (hslots t List.mem_cons_self)
    obtain ⟨r, hr, hfield'⟩ := ih (i := i + 1) (by omega) hq' fun t ht => hslots t (List.mem_cons_of_mem _ ht)
    refine ⟨r, ?_, ?_⟩
    · unfold setAll
      rw [hq]
      exact hr
    · intro j hj
      rw [hfield' j hj]
      rcases Nat.lt_trichotomy j i with hji | rfl | hji
      · rw [if_neg (by omega), if_neg (by omega), hfield j hj, if_neg (by omega)]
      · rw [if_neg (by omega), if_pos (Nat.le_refl _), hfield j hj, if_pos rfl, Nat.sub_self]
        rfl
      · rw [if_pos (by omega), if_pos (by omega), hfield j hj, if_neg (by omega),
          show j - i = j - (i + 1) + 1 by omega]
        rfl

/-- `from` stores a list of at most fifteen slots. -/
theorem from_spec {vec : List Nat} (hlen : vec.length ≤ 15) (hslots : ∀ t ∈ vec, t ≤ 14) :
    ∃ q, from_ vec = some q ∧ q.toList = vec := by
  have hzero : (⟨0⟩ : Permutation).SlotFields := by
    intro i hi
    exact absurd hi (Nat.not_lt_zero i)
  obtain ⟨q, hq, hfield⟩ := setAll_spec (i := 0) (by omega) hzero hslots
  obtain ⟨r, hr, hnum, hfield'⟩ := q.setNumKeys_spec hlen
  refine ⟨r, ?_, ?_⟩
  · unfold from_
    rw [hq]
    exact hr
  · apply List.ext_getElem?
    intro j
    rw [getElem?_toList, hnum]
    by_cases hj : j < vec.length
    · rw [if_pos hj, hfield' j (by omega), hfield j (by omega), if_pos (Nat.zero_le j), Nat.sub_zero,
        List.getElem?_eq_getElem hj, List.getD_eq_getElem _ _ hj]
    · rw [if_neg hj, List.getElem?_eq_none (by omega)]

example : from_ [2, 0, 1] = some ⟨0x2010000000000003⟩ := by decide

theorem fromSorted_spec {n : Nat} (hn : n ≤ 15) : ∃ q, fromSorted n = some q ∧ q.toList = List.range n := by
  have hfrom : fromSorted n = from_ (List.range n) := by
    rw [fromSorted, from_, List.length_range]
  rw [hfrom]
  refine from_spec (by rw [List.length_range]; exact hn) fun t ht => ?_
  have := List.mem_range.mp ht
  omega

theorem sizeOne_spec : ∃ q, sizeOne = some q ∧ q.toList = [0] := ⟨_, rfl, by decide +kernel⟩

/-- The operations that the tree uses. -/
inductive Op where
  | insert (permutationIndex trueIndex : Nat)
  | removeIndex (trueIndex : Nat)
  | fromSorted (n_keys : Nat)
  | sizeOne

def step (p : Permutation) : Op → Option Permutation
  | .insert permutationIndex trueIndex => p.insert permutationIndex trueIndex
  | .removeIndex trueIndex => p.removeIndex trueIndex
  | .fromSorted n_keys => Permutation.fromSorted n_keys
  | .sizeOne => Permutation.sizeOne

/-- The operation on the list. -/
def Op.onList (l : List Nat) : Op → List Nat
  | .insert permutationIndex trueIndex => l.insertIdx permutationIndex trueIndex
  | .removeIndex trueIndex => l.erase trueIndex
  | .fromSorted n_keys => List.range n_keys
  | .sizeOne => [0]

/-- A new slot goes into a list that is not full, and a slot that goes is there. -/
def Op.Fits (l : List Nat) : Op → Prop
  | .insert permutationIndex trueIndex =>
    permutationIndex ≤ l.length ∧ l.length ≤ 14 ∧ trueIndex ≤ 14 ∧ trueIndex ∉ l
  | .removeIndex trueIndex => trueIndex ∈ l
  | .fromSorted n_keys => n_keys ≤ 15
  | .sizeOne => True

/-- The word does what the list does. -/
theorem step_spec (hp : p.Valid) {op : Op} (hop : op.Fits p.toList) :
    ∃ q, p.step op = some q ∧ q.toList = op.onList p.toList := by
  cases op with
  | insert k t =>
    obtain ⟨hk, hlen, ht, -⟩ := hop
    rw [length_toList] at hk hlen
    exact insert_spec hp.slotFields hlen hk ht
  | removeIndex t => exact removeIndex_spec hp.slotFields hop
  | fromSorted n => exact fromSorted_spec hop
  | sizeOne => exact sizeOne_spec

theorem valid_onList (hp : p.Valid) {op : Op} (hop : op.Fits p.toList) (hq : q.toList = op.onList p.toList) :
    q.Valid := by
  constructor
  · rw [hq]
    cases op with
    | insert k t =>
      obtain ⟨hk, -, -, ht⟩ := hop
      exact (List.perm_insertIdx _ _ hk).nodup_iff.mpr (List.nodup_cons.mpr ⟨ht, hp.nodup⟩)
    | removeIndex t => exact hp.nodup.erase t
    | fromSorted n => exact List.nodup_range
    | sizeOne => exact List.nodup_singleton 0
  · rw [hq]
    intro s hs
    cases op with
    | insert k t =>
      obtain ⟨hk, -, ht, -⟩ := hop
      rcases List.mem_cons.mp ((List.perm_insertIdx _ _ hk).mem_iff.mp hs) with rfl | hs
      · exact ht
      · exact hp.slot s hs
    | removeIndex t => exact hp.slot s (List.mem_of_mem_erase hs)
    | fromSorted n =>
      have hlt := List.mem_range.mp hs
      change n ≤ 15 at hop
      omega
    | sizeOne =>
      rw [List.mem_singleton.mp hs]
      exact Nat.zero_le 14

theorem valid_reach (hreach : Reach step (fun p => sizeOne = some p) (fun p op => op.Fits p.toList) p) : p.Valid := by
  refine hreach.invariant ?_ ?_
  · intro p hp
    obtain ⟨q, hq, hlist⟩ := sizeOne_spec
    obtain rfl := Option.some.inj (hp.symm.trans hq)
    constructor
    · rw [hlist]
      exact List.nodup_singleton 0
    · rw [hlist]
      decide
  · intro p op p' hp hop hstep
    obtain ⟨q, hq, hlist⟩ := step_spec hp hop
    obtain rfl := Option.some.inj (hstep.symm.trans hq)
    exact valid_onList hp hop hlist

end Permutation

/-- A word for the list of the node, and what insertion and removal in the node make of it. -/
structure Node.Packed {V : Type} (n : Node V) (w : Permutation) : Prop where
  valid : w.Valid
  insert : ∀ key value n', insert_to_border n key value = some n' → ∃ k t w', (Permutation.Op.insert k t).Fits w.toList ∧
    w.insert k t = some w' ∧ w'.toList = n'.permutation
  remove : ∀ i n', i ∈ n.permutation → n.markKeyRemoved i = some n' →
    ∃ w', w.removeIndex i = some w' ∧ w'.toList = n'.permutation.erase i

theorem Node.Classified.packed {V : Type} {n : Node V} (hn : n.Classified) {w : Permutation}
    (hw : w.toList = n.permutation) : n.Packed w := by
  have hvalid : w.Valid := by
    refine ⟨hw ▸ hn.nodup, ?_⟩
    intro t ht
    rw [hw] at ht
    exact Nat.le_of_lt_succ (hn.lt t ht)
  refine ⟨hvalid, ?_, ?_⟩
  · intro key value n' hres
    unfold insert_to_border at hres
    split at hres
    · cases hres
    rename_i hfull
    have hlt := Nat.lt_of_le_of_ne hn.length_le hfull
    obtain ⟨i, hpoint, hi, hfree⟩ := hn.exists_free hlt
    rw [hpoint] at hres
    cases hres
    have hfits : (Permutation.Op.insert (insertionPoint n key.getCurrentSlice.slice) i).Fits w.toList := by
      rw [hw]
      exact ⟨Node.insertionPoint_le _, Nat.le_of_lt_succ hlt, Nat.le_of_lt_succ hi, hfree⟩
    obtain ⟨w', hstep, hlist⟩ := Permutation.step_spec hvalid hfits
    refine ⟨_, _, w', hfits, hstep, ?_⟩
    rw [hlist, hw]
    rfl
  · intro i n' hi hres
    have hperm : n'.permutation = n.permutation := by
      unfold Node.markKeyRemoved at hres
      split at hres
      · cases hres
        rfl
      · cases hres
    rw [← hw] at hi
    obtain ⟨w', hstep, hlist⟩ := Permutation.removeIndex_spec hvalid.slotFields hi
    refine ⟨w', hstep, ?_⟩
    rw [hlist, hw, hperm]

/-- The word is a list: every operation, the stores that the operations are made of, every run of
operations, and the operations of every tree that calls reach. -/
theorem packed_permutation :
    (∀ (p : Permutation) (op : Permutation.Op), p.Valid → op.Fits p.toList →
      ∃ q, p.step op = some q ∧ q.toList = op.onList p.toList) ∧
    (∀ (p : Permutation) (i t : Nat), i ≤ 14 → t ≤ 14 →
      ∃ q, p.setKeyIndex i t = some q ∧ ∀ j ≤ 15, q.field j = if j = i then t else p.field j) ∧
    (∀ (p : Permutation) (num : Nat), num ≤ 15 →
      ∃ q, p.setNumKeys num = some q ∧ q.getNumKeys = num ∧ ∀ j ≤ 14, q.field j = p.field j) ∧
    (∀ p, Reach Permutation.step (fun p => Permutation.sizeOne = some p) (fun p op => op.Fits p.toList) p →
      p.Valid ∧ p.toList.length ≤ 15) ∧
    ∀ (V : Type) (m : Masstree V), Reach Masstree.step (· = .new) anyStep m → ∀ p < m.heap.fresh,
      (m.heap.mem p).is_border = true → (m.heap.mem p).deleted = false →
      ∀ w : Permutation, w.toList = (m.heap.mem p).permutation → (m.heap.mem p).Packed w := by
  refine ⟨fun _ _ hp hop => Permutation.step_spec hp hop, fun p _ _ => p.setKeyIndex_spec, fun p _ => p.setNumKeys_spec, ?_, ?_⟩
  · intro p hreach
    refine ⟨Permutation.valid_reach hreach, ?_⟩
    rw [Permutation.length_toList]
    exact p.getNumKeys_le
  · intro V m hreach p hp hborder halive w hw
    exact ((inOrder_reach hreach).slots.border p hp nofun hborder halive).packed hw

end Cassa.Masstree

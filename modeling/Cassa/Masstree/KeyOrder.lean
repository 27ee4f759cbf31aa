import Mathlib.Data.List.Lex
import Mathlib.Tactic.Ring
import Cassa.Masstree.Key

/-!
# The order of keys

`Key::operator<` compares two keys slice by slice, then by the bytes in use of their last
slices, then by the number of slices. A slice is a number with the order of its bytes, so
the comparison is that of the strings until the slices of one key run out. There the
number of slices should decide: a key whose last slice has more bytes in use comes after
its own extensions.
-/

namespace Cassa.Masstree

namespace Key

/-- The loop over the common slices: the result where two of them differ. -/
def ltSlices : List Nat → List Nat → Option Bool
  | x :: xs, y :: ys => if x ≠ y then some (decide (x < y)) else ltSlices xs ys
  | _, _ => none

/-- `operator<` -/
def lt (left right : Key) : Bool :=
  match ltSlices left.slices right.slices with
  | some b => b
  | none =>
    if left.lastSliceSize ≠ right.lastSliceSize then decide (left.lastSliceSize < right.lastSliceSize)
    else decide (left.slices.length < right.slices.length)

def num : List UInt8 → Nat
  | [] => 0
  | x :: xs => x.toNat * 256 ^ xs.length + num xs

theorem num_lt (xs : List UInt8) : num xs < 256 ^ xs.length := by
  induction xs with
  | nil => simp [num]
  | cons x xs ih =>
    have hx := x.toNat_lt
    rw [num, List.length_cons, Nat.pow_succ]
    have : x.toNat * 256 ^ xs.length ≤ 255 * 256 ^ xs.length := Nat.mul_le_mul_right _ (by omega)
    omega

theorem foldl_eq_num (xs : List UInt8) (acc : Nat) :
    xs.foldl (fun slice b => slice * 2 ^ 8 + b.toNat) acc = acc * 256 ^ xs.length + num xs := by
  induction xs generalizing acc with
  | nil => simp [num]
  | cons x xs ih =>
    rw [List.foldl_cons, ih, num, List.length_cons, Nat.pow_succ]
    ring

/-- Numbers with as many digits compare as their digits do. -/
theorem num_lt_num_iff : ∀ {xs ys : List UInt8}, xs.length = ys.length → (num xs < num ys ↔ xs < ys)
  | [], [], _ => by simp [num]
  | x :: xs, y :: ys, hlen => by
    have hlen' : xs.length = ys.length := by simpa using hlen
    have ih := num_lt_num_iff hlen'
    have hx := num_lt xs
    have hy := num_lt ys
    rw [hlen'] at hx
    rw [List.cons_lt_cons_iff, ← ih, num, num, hlen', UInt8.lt_iff_toNat_lt]
    rcases Nat.lt_trichotomy x.toNat y.toNat with hxy | hxy | hxy
    · refine iff_of_true ?_ (Or.inl hxy)
      have := Nat.mul_le_mul_right (256 ^ ys.length) (Nat.succ_le_of_lt hxy)
      rw [Nat.succ_mul] at this
      omega
    · obtain rfl := UInt8.toNat_inj.mp hxy
      simp
    · refine iff_of_false ?_ ?_
      · have := Nat.mul_le_mul_right (256 ^ ys.length) (Nat.succ_le_of_lt hxy)
        rw [Nat.succ_mul] at this
        omega
      · rintro (h | ⟨rfl, -⟩) <;> omega

theorem num_inj : ∀ {xs ys : List UInt8}, xs.length = ys.length → num xs = num ys → xs = ys
  | [], [], _, _ => rfl
  | x :: xs, y :: ys, hlen, he => by
    have hlen' : xs.length = ys.length := by simpa using hlen
    have hlt := num_lt_num_iff hlen
    have hgt := num_lt_num_iff hlen.symm
    rcases Nat.lt_trichotomy x.toNat y.toNat with hxy | hxy | hxy
    · have := hlt.mpr (List.Lex.rel (UInt8.lt_iff_toNat_lt.mpr hxy))
      omega
    · obtain rfl := UInt8.toNat_inj.mp hxy
      rw [num, num, hlen'] at he
      rw [num_inj hlen' (by omega)]
    · have := hgt.mpr (List.Lex.rel (UInt8.lt_iff_toNat_lt.mpr hxy))
      omega

def pad (bytes : List UInt8) : List UInt8 := bytes ++ List.replicate (8 - bytes.length) 0

theorem length_pad {bytes : List UInt8} (h : bytes.length ≤ 8) : (pad bytes).length = 8 := by
  simp [pad]
  omega

theorem num_append_zeros (bytes : List UInt8) (n : Nat) :
    num (bytes ++ List.replicate n 0) = num bytes * 256 ^ n := by
  induction bytes with
  | nil =>
    induction n with
    | zero => simp [num]
    | succ n ih => simpa [List.replicate_succ, num] using ih
  | cons x xs ih =>
    simp only [List.cons_append, num, ih, List.length_append, List.length_replicate, Nat.pow_add]
    ring

theorem packSlice_eq (bytes : List UInt8) : packSlice bytes = num (pad bytes) := by
  rw [pad, num_append_zeros, packSlice, foldl_eq_num, Nat.mul_comm (8 - bytes.length) 8, Nat.pow_mul]
  simp

theorem not_lt_replicate_zero (xs : List UInt8) (n : Nat) (h : xs.length = n) :
    ¬ xs < List.replicate n 0 := by
  induction xs generalizing n with
  | nil => subst h; simp
  | cons x xs ih =>
    subst h
    rw [List.length_cons, List.replicate_succ, List.cons_lt_cons_iff]
    rintro (h | ⟨-, h⟩)
    · exact absurd h (by simp)
    · exact ih _ rfl h

/-- Zero bytes after the shorter string do not change how it compares. -/
theorem lt_of_padded_lt : ∀ {xs ys : List UInt8} {n m : Nat} {t u : List UInt8},
    xs.length + n = ys.length + m → (t = [] ∨ n = 0) →
    xs ++ List.replicate n 0 < ys ++ List.replicate m 0 → xs ++ t < ys ++ u
  | [], [], n, m, t, u, hlen, _, h => by
    have : n = m := by simpa using hlen
    subst this
    exact absurd h (not_lt_replicate_zero _ _ (by simp))
  | [], y :: ys, n, m, t, u, hlen, ht, _ => by
    have hn : n ≠ 0 := by simp at hlen; omega
    obtain rfl := ht.resolve_right hn
    exact List.nil_lt_cons _ _
  | x :: xs, [], n, m, t, u, hlen, _, h => by
    refine absurd h ?_
    rw [List.nil_append]
    exact not_lt_replicate_zero _ _ (by simp at hlen ⊢; omega)
  | x :: xs, y :: ys, n, m, t, u, hlen, ht, h => by
    rw [List.cons_append, List.cons_append, List.cons_lt_cons_iff] at h ⊢
    rcases h with h | ⟨rfl, h⟩
    · exact Or.inl h
    · exact Or.inr ⟨rfl, lt_of_padded_lt (by simp at hlen; omega) ht h⟩

theorem groups_fuel : ∀ {n m : Nat} (bytes : List UInt8), bytes.length ≤ n → bytes.length ≤ m →
    groups n bytes = groups m bytes
  | 0, 0, _, _, _ => rfl
  | 0, _ + 1, [], _, _ => rfl
  | _ + 1, 0, [], _, _ => rfl
  | _ + 1, _ + 1, [], _, _ => rfl
  | n + 1, m + 1, b :: bytes, hn, hm => by
    simp only [List.length_cons] at hn hm
    rw [groups, groups, groups_fuel]
    · simp only [List.length_drop, List.length_cons]
      omega
    · simp only [List.length_drop, List.length_cons]
      omega

/-- The bytes in use of a string's last slice. -/
def lastSize (bytes : List UInt8) : Nat := (bytes.length - 1) % 8 + 1

theorem groups_length_eq {bytes : List UInt8} (h : bytes ≠ []) :
    groups bytes.length bytes = bytes.take 8 :: groups (bytes.drop 8).length (bytes.drop 8) := by
  obtain ⟨b, rest, rfl⟩ := List.exists_cons_of_ne_nil h
  rw [List.length_cons, groups, groups_fuel ((b :: rest).drop 8)]
  · simp only [List.length_drop, List.length_cons]
    omega
  · exact Nat.le_refl _

theorem slices_ofString {bytes : List UInt8} (h : bytes ≠ []) :
    (ofString bytes).slices = packSlice (bytes.take 8) :: (ofString (bytes.drop 8)).slices := by
  rw [ofString, string_to_uint64t, groups_length_eq h]
  rfl

theorem slices_ofString_nil : (ofString []).slices = [] := rfl

theorem lastSliceSize_ofString (bytes : List UInt8) (h : bytes ≠ []) :
    (ofString bytes).lastSliceSize = lastSize bytes := by
  have hpos := List.length_pos_of_ne_nil h
  by_cases hd : bytes.drop 8 = []
  · have hle : bytes.length ≤ 8 := by simpa using hd
    rw [ofString, string_to_uint64t, groups_length_eq h, hd]
    simp only [List.length_nil, groups, List.getLast?_singleton, Option.map_some, Option.getD_some,
      List.length_take, lastSize]
    omega
  · have ih := lastSliceSize_ofString (bytes.drop 8) hd
    have hpos' := List.length_pos_of_ne_nil hd
    rw [ofString, string_to_uint64t, groups_length_eq hd] at ih
    rw [ofString, string_to_uint64t, groups_length_eq h, groups_length_eq hd]
    simp only [List.getLast?_cons_cons] at ih ⊢
    rw [ih, lastSize, lastSize, List.length_drop]
    rw [List.length_drop] at hpos'
    omega
  termination_by bytes.length
  decreasing_by
    rw [List.length_drop]
    omega

/-- The string with the zero bytes that fill its last slice. -/
def padded (bytes : List UInt8) : List UInt8 := bytes ++ List.replicate (8 - lastSize bytes) 0

/-- The slices of `a` are the first slices of `b`, and the last slice of `a` has more
bytes in use than the last slice of `b`. -/
def Overruns (a b : List UInt8) : Prop := padded a <+: b ∧ lastSize b < lastSize a

instance (a b : List UInt8) : Decidable (Overruns a b) := inferInstanceAs (Decidable (_ ∧ _))

theorem lastSize_short {a : List UInt8} (h : a ≠ []) (hd : a.drop 8 = []) : lastSize a = a.length := by
  have hpos := List.length_pos_of_ne_nil h
  have hle : a.length ≤ 8 := by simpa using hd
  rw [lastSize]
  omega

theorem lastSize_drop {a : List UInt8} (hd : a.drop 8 ≠ []) : lastSize (a.drop 8) = lastSize a := by
  have hpos := List.length_pos_of_ne_nil hd
  rw [List.length_drop] at hpos
  rw [lastSize, lastSize, List.length_drop]
  omega

theorem padded_short {a : List UInt8} (h : a ≠ []) (hd : a.drop 8 = []) : padded a = pad (a.take 8) := by
  have hle : a.length ≤ 8 := by simpa using hd
  rw [padded, pad, lastSize_short h hd, List.take_of_length_le hle]

theorem pad_take_long {a : List UInt8} (hd : a.drop 8 ≠ []) : pad (a.take 8) = a.take 8 := by
  have hpos := List.length_pos_of_ne_nil hd
  rw [List.length_drop] at hpos
  rw [pad, List.length_take, Nat.min_eq_left (by omega)]
  simp

theorem padded_long {a : List UInt8} (hd : a.drop 8 ≠ []) :
    padded a = pad (a.take 8) ++ padded (a.drop 8) := by
  rw [pad_take_long hd, padded, padded, lastSize_drop hd, ← List.append_assoc, List.take_append_drop]

theorem length_pad_take (a : List UInt8) : (pad (a.take 8)).length = 8 :=
  length_pad (by simp)

/-- Strings whose first slices differ compare as these slices. -/
theorem lt_iff_of_ne {a b : List UInt8} (hne : packSlice (a.take 8) ≠ packSlice (b.take 8)) :
    packSlice (a.take 8) < packSlice (b.take 8) ↔ a < b := by
  have hrest : ∀ c : List UInt8, c.drop 8 = [] ∨ 8 - (c.take 8).length = 0 := by
    intro c
    by_cases hd : c.drop 8 = []
    · exact Or.inl hd
    · rw [List.drop_eq_nil_iff] at hd
      rw [List.length_take]
      omega
  have key : ∀ c d : List UInt8, packSlice (c.take 8) < packSlice (d.take 8) → c < d := by
    intro c d h
    rw [packSlice_eq, packSlice_eq,
      num_lt_num_iff ((length_pad_take c).trans (length_pad_take d).symm)] at h
    have hlen := (length_pad_take c).trans (length_pad_take d).symm
    rw [pad, pad, List.length_append, List.length_append, List.length_replicate,
      List.length_replicate] at hlen
    have := lt_of_padded_lt (t := c.drop 8) (u := d.drop 8) hlen (hrest c) h
    rwa [List.take_append_drop, List.take_append_drop] at this
  refine ⟨key a b, fun hab => ?_⟩
  refine (Nat.lt_or_gt_of_ne hne).resolve_right fun hba => ?_
  exact List.lt_asymm hab (key b a hba)

theorem pad_eq_of_packSlice_eq {a b : List UInt8} (h : packSlice (a.take 8) = packSlice (b.take 8)) :
    pad (a.take 8) = pad (b.take 8) := by
  rw [packSlice_eq, packSlice_eq] at h
  exact num_inj ((length_pad_take a).trans (length_pad_take b).symm) h

theorem pad_of_padded {a b : List UInt8} (ha : a ≠ []) (h : padded a <+: b) :
    pad (a.take 8) = pad (b.take 8) := by
  have hpre : pad (a.take 8) <+: b := by
    by_cases hd : a.drop 8 = []
    · rwa [padded_short ha hd] at h
    · rw [padded_long hd] at h
      exact (List.prefix_append _ _).trans h
  have heq : pad (a.take 8) = b.take 8 := by
    have := List.prefix_iff_eq_take.mp hpre
    rwa [length_pad_take] at this
  have hlen := congrArg List.length heq
  rw [length_pad_take] at hlen
  rw [heq]
  simp [pad, ← hlen]

theorem packSlice_of_padded {a b : List UInt8} (ha : a ≠ []) (h : padded a <+: b) :
    packSlice (a.take 8) = packSlice (b.take 8) := by
  rw [packSlice_eq, packSlice_eq, pad_of_padded ha h]

theorem lt_of_slices_ne {l r : Key} {x y : Nat} {xs ys : List Nat} (hl : l.slices = x :: xs)
    (hr : r.slices = y :: ys) (hne : x ≠ y) : lt l r = decide (x < y) := by
  simp [lt, hl, hr, ltSlices, hne]

theorem lt_of_slices_eq {l r l' r' : Key} {x : Nat} (hl : l.slices = x :: l'.slices)
    (hr : r.slices = x :: r'.slices) (hsl : l.lastSliceSize = l'.lastSliceSize)
    (hsr : r.lastSliceSize = r'.lastSliceSize) : lt l r = lt l' r' := by
  simp [lt, hl, hr, hsl, hsr, ltSlices]

/-- The slices of one key are used up: the sizes of the last slices decide. -/
theorem lt_of_slices_end {l r : Key} {x : Nat} {xs ys : List Nat} (hl : l.slices = x :: xs)
    (hr : r.slices = x :: ys) (hend : xs = [] ∨ ys = []) :
    lt l r = true ↔ l.lastSliceSize < r.lastSliceSize ∨
      (l.lastSliceSize = r.lastSliceSize ∧ xs.length < ys.length) := by
  have hnone : ltSlices l.slices r.slices = none := by
    rw [hl, hr]
    rcases hend with rfl | rfl
    · simp [ltSlices]
    · cases xs <;> simp [ltSlices]
  rw [lt, hnone, hl, hr]
  by_cases hs : l.lastSliceSize = r.lastSliceSize
  · simp [hs]
  · simp [hs]

theorem append_lt_append_left (w a b : List UInt8) : w ++ a < w ++ b ↔ a < b := by
  induction w with
  | nil => rfl
  | cons x w ih => simpa [List.cons_lt_cons_iff] using ih

theorem lt_of_initial {a b : List UInt8} (h : a <+: b) (hlen : a.length < b.length) : a < b := by
  obtain ⟨t, rfl⟩ := h
  obtain ⟨x, t, rfl⟩ := List.exists_cons_of_length_pos (l := t) (by simpa using hlen)
  have := (append_lt_append_left a [] (x :: t)).mpr (List.nil_lt_cons x t)
  rwa [List.append_nil] at this

theorem take_prefix_pad (a : List UInt8) : a.take 8 <+: pad (a.take 8) := List.prefix_append _ _

theorem overruns_drop {a b : List UInt8} (ha : a.drop 8 ≠ []) (hb : b.drop 8 ≠ [])
    (h : a.take 8 = b.take 8) : Overruns a b ↔ Overruns (a.drop 8) (b.drop 8) := by
  rw [Overruns, Overruns, lastSize_drop ha, lastSize_drop hb, padded_long ha, pad_take_long ha]
  nth_rewrite 1 [← List.take_append_drop 8 b]
  rw [h, List.prefix_append_right_inj]

/-- Within one slice the shorter string comes first. -/
theorem lt_iff_short {a b : List UInt8} (ha : a.drop 8 = []) (hb : b.drop 8 = [])
    (h : pad (a.take 8) = pad (b.take 8)) : a < b ↔ a.length < b.length := by
  have htake : ∀ c : List UInt8, c.drop 8 = [] → c <+: pad (c.take 8) := by
    intro c hc
    have := take_prefix_pad c
    rwa [List.take_of_length_le (by simpa using hc)] at this ⊢
  have hpa := htake a ha
  have hpb := htake b hb
  rw [h] at hpa
  refine ⟨fun hlt => ?_, fun hlt => lt_of_initial (List.prefix_of_prefix_length_le hpa hpb hlt.le) hlt⟩
  by_contra hle
  rcases Nat.lt_or_eq_of_le (Nat.le_of_not_lt hle) with hlt' | heq
  · exact List.lt_asymm hlt (lt_of_initial (List.prefix_of_prefix_length_le hpb hpa hlt'.le) hlt')
  · have := (List.prefix_of_prefix_length_le hpb hpa heq.le).eq_of_length heq
    subst this
    exact List.lt_irrefl _ hlt

theorem not_overruns_short {a b : List UInt8} (hb : b ≠ []) (hdb : b.drop 8 = []) :
    ¬ Overruns a b := by
  rintro ⟨hpre, hlt⟩
  have hlen := hpre.length_le
  have hble : b.length ≤ 8 := by simpa using hdb
  have hsa : lastSize a ≤ 8 := by
    rw [lastSize]
    omega
  have hsl : lastSize a ≤ (padded a).length := by
    rw [padded, List.length_append, List.length_replicate]
    rcases Nat.eq_zero_or_pos a.length with h0 | hpos
    · rw [lastSize, h0]
      omega
    · rw [lastSize]
      omega
  rw [lastSize_short hb hdb] at hlt
  omega

/-- A string of one slice against one whose first slice it is. -/
theorem lt_of_first_slice {a b : List UInt8} (ha : a ≠ []) (hda : a.drop 8 = []) (hdb : b.drop 8 ≠ [])
    (h : pad (a.take 8) = pad (b.take 8)) :
    a < b ∧ (Overruns a b ↔ lastSize b < lastSize a) := by
  have hpre : padded a <+: b := by
    rw [padded_short ha hda, h, pad_take_long hdb]
    exact List.take_prefix 8 b
  have hble : 8 < b.length := by simpa using hdb
  have hale : a.length ≤ 8 := by simpa using hda
  refine ⟨lt_of_initial ((List.prefix_append _ _).trans hpre) (by omega), ?_⟩
  rw [Overruns]
  exact and_iff_right hpre

/-- The comparison of keys is that of strings, and the other way round where one string
overruns the other. -/
theorem lt_ofString (a b : List UInt8) (ha : a ≠ []) (hb : b ≠ []) :
    lt (ofString a) (ofString b) = true ↔ (a < b ∧ ¬ Overruns a b) ∨ Overruns b a := by
  have hsa := slices_ofString ha
  have hsb := slices_ofString hb
  have hla := lastSliceSize_ofString a ha
  have hlb := lastSliceSize_ofString b hb
  by_cases hp : packSlice (a.take 8) = packSlice (b.take 8)
  · have hpad := pad_eq_of_packSlice_eq hp
    rw [← hp] at hsb
    by_cases hda : a.drop 8 = []
    · rw [hda, slices_ofString_nil] at hsa
      rw [lt_of_slices_end hsa hsb (Or.inl rfl), hla, hlb]
      by_cases hdb : b.drop 8 = []
      · rw [hdb, slices_ofString_nil, lt_iff_short hda hdb hpad, lastSize_short ha hda,
          lastSize_short hb hdb]
        simp [not_overruns_short ha hda, not_overruns_short hb hdb]
      · obtain ⟨hlt, hover⟩ := lt_of_first_slice ha hda hdb hpad
        have hpos : 0 < (ofString (b.drop 8)).slices.length := by
          rw [slices_ofString hdb]
          simp
        simp only [hlt, hover, not_overruns_short ha hda, List.length_nil, hpos]
        simp only [true_and, and_true, or_false]
        omega
    · by_cases hdb : b.drop 8 = []
      · rw [hdb, slices_ofString_nil] at hsb
        obtain ⟨hlt, hover⟩ := lt_of_first_slice hb hdb hda hpad.symm
        rw [lt_of_slices_end hsa hsb (Or.inr rfl), hla, hlb, hover]
        simp [List.lt_asymm hlt]
      · have htake : a.take 8 = b.take 8 := by
          rwa [pad_take_long hda, pad_take_long hdb] at hpad
        have ih := lt_ofString (a.drop 8) (b.drop 8) hda hdb
        have hrec : lt (ofString a) (ofString b) = lt (ofString (a.drop 8)) (ofString (b.drop 8)) := by
          refine lt_of_slices_eq hsa hsb ?_ ?_
          · rw [hla, lastSliceSize_ofString _ hda, lastSize_drop hda]
          · rw [hlb, lastSliceSize_ofString _ hdb, lastSize_drop hdb]
        have hlt : a < b ↔ a.drop 8 < b.drop 8 := by
          have := append_lt_append_left (a.take 8) (a.drop 8) (b.drop 8)
          nth_rewrite 2 [htake] at this
          rwa [List.take_append_drop, List.take_append_drop] at this
        rw [hrec, ih, hlt, overruns_drop hda hdb htake, overruns_drop hdb hda htake.symm]
  · have hab : ¬ Overruns a b := fun h => hp (packSlice_of_padded ha h.1)
    have hba : ¬ Overruns b a := fun h => hp (packSlice_of_padded hb h.1).symm
    rw [lt_of_slices_ne hsa hsb hp, decide_eq_true_iff, lt_iff_of_ne hp]
    simp [hab, hba]
  termination_by a.length
  decreasing_by
    have := List.length_pos_of_ne_nil ha
    rw [List.length_drop]
    omega

/-- Neither string overruns the other. -/
def Ordered (a b : List UInt8) : Prop := ¬ Overruns a b ∧ ¬ Overruns b a

theorem Ordered.symm {a b : List UInt8} (h : Ordered a b) : Ordered b a := ⟨h.2, h.1⟩

theorem Overruns.asymm {a b : List UInt8} (h : Overruns a b) : ¬ Overruns b a :=
  fun h' => Nat.lt_asymm h.2 h'.2

theorem Overruns.lt {a b : List UInt8} (h : Overruns a b) : a < b := by
  have hpre : a <+: b := (List.prefix_append _ _).trans h.1
  refine lt_of_initial hpre (Nat.lt_of_le_of_ne hpre.length_le fun he => ?_)
  rw [hpre.eq_of_length he] at h
  exact Nat.lt_irrefl _ h.2

theorem Ordered.lt_iff {a b : List UInt8} (ha : a ≠ []) (hb : b ≠ []) (h : Ordered a b) :
    Key.lt (ofString a) (ofString b) = true ↔ a < b := by
  simp [lt_ofString a b ha hb, h.1, h.2]

theorem lt_iff_lex_iff {a b : List UInt8} (ha : a ≠ []) (hb : b ≠ []) :
    (Key.lt (ofString a) (ofString b) = true ↔ a < b) ↔ Ordered a b := by
  refine ⟨fun h => ⟨fun hab => ?_, fun hba => ?_⟩, Ordered.lt_iff ha hb⟩
  · rcases (lt_ofString a b ha hb).mp (h.mpr hab.lt) with ⟨-, hn⟩ | hba
    · exact hn hab
    · exact hab.asymm hba
  · exact List.lt_asymm hba.lt (h.mp ((lt_ofString a b ha hb).mpr (Or.inr hba)))

theorem lt_irrefl_ofString {a : List UInt8} (ha : a ≠ []) :
    Key.lt (ofString a) (ofString a) = false := by
  rw [← Bool.not_eq_true, lt_ofString a a ha ha]
  rintro (⟨h, -⟩ | h)
  · exact List.lt_irrefl _ h
  · exact h.asymm h

theorem lt_total_ofString {a b : List UInt8} (ha : a ≠ []) (hb : b ≠ []) (hne : a ≠ b) :
    Key.lt (ofString a) (ofString b) = true ∨ Key.lt (ofString b) (ofString a) = true := by
  rw [lt_ofString a b ha hb, lt_ofString b a hb ha]
  by_cases hab : Overruns a b
  · exact Or.inr (Or.inr hab)
  by_cases hba : Overruns b a
  · exact Or.inl (Or.inr hba)
  by_cases hlt : a < b
  · exact Or.inl (Or.inl ⟨hlt, hab⟩)
  · refine Or.inr (Or.inl ⟨?_, hba⟩)
    by_contra hgt
    exact hne (List.le_antisymm hgt hlt)

/-- `operator<` agrees with the order of the strings on exactly the pairs where neither
string overruns the other. It is irreflexive and total throughout, and transitive where
the pairs of a triple agree. -/
theorem operator_lt_lexicographic (a b c : List UInt8) (ha : a ≠ []) (hb : b ≠ []) (hc : c ≠ []) :
    ((Key.lt (ofString a) (ofString b) = true ↔ a < b) ↔ Ordered a b) ∧
    Key.lt (ofString a) (ofString a) = false ∧
    (a ≠ b → Key.lt (ofString a) (ofString b) = true ∨ Key.lt (ofString b) (ofString a) = true) ∧
    (Ordered a b → Ordered b c → Ordered a c → Key.lt (ofString a) (ofString b) = true →
      Key.lt (ofString b) (ofString c) = true → Key.lt (ofString a) (ofString c) = true) := by
  refine ⟨lt_iff_lex_iff ha hb, lt_irrefl_ofString ha, lt_total_ofString ha hb, ?_⟩
  intro hab hbc hac h₁ h₂
  rw [hab.lt_iff ha hb] at h₁
  rw [hbc.lt_iff hb hc] at h₂
  rw [hac.lt_iff ha hc]
  exact List.lt_trans h₁ h₂

theorem operator_lt_lexicographic_short :
    Key.lt (ofString [1]) (ofString [1, 2]) = true ∧ Key.lt (ofString [1]) (ofString [2]) = true := by
  have hab : Ordered [1] [1, 2] := by unfold Ordered; decide
  have hbc : Ordered [1, 2] [2] := by unfold Ordered; decide
  have hac : Ordered [1] [2] := by unfold Ordered; decide
  have h := operator_lt_lexicographic [1] [1, 2] [2] (by simp) (by simp) (by simp)
  have h₁ := (h.1.mpr hab).mpr (by decide)
  exact ⟨h₁, h.2.2.2 hab hbc hac h₁ (by decide)⟩

/-- Eight bytes precede their extension by one byte, and the comparison says the reverse;
with the extension by eight smaller bytes the three keys form a cycle. -/
theorem operator_lt_overrun :
    let a : List UInt8 := [1, 1, 1, 1, 1, 1, 1, 1]
    let b := a ++ [5]
    let c := a ++ a
    (a < b ∧ Key.lt (ofString a) (ofString b) = false ∧ Key.lt (ofString b) (ofString a) = true) ∧
    Key.lt (ofString a) (ofString c) = true ∧ Key.lt (ofString c) (ofString b) = true := by
  decide

end Key

end Cassa.Masstree

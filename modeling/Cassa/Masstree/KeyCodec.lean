import Cassa.Masstree.Operations

/-!
# Strings from keys

`uint64t_to_string` reads the bytes of a key back from its slices. It is the inverse of
`string_to_uint64t` on the non-empty strings on one side, and on the slices whose last one
is zero below its bytes in use on the other.
-/

namespace Cassa.Masstree.Key

/-- The first `size` bytes of a slice: `(slice >> ((7 - i) * 8)) & 0xFF` for `i < size`. -/
def unpackSlice (slice size : Nat) : List UInt8 :=
  (List.range size).map fun i => UInt8.ofNat ((slice >>> ((7 - i) * 8)) &&& 0xFF)

/-- For a list of slices that is not empty. -/
def uint64t_to_string (slices : List Nat) (lastSliceSize : Nat) : List UInt8 :=
  slices.dropLast.flatMap (unpackSlice · 8) ++ unpackSlice (slices.getLastD 0) lastSliceSize

/-- What `string_to_uint64t` makes of a string: slices of 64 bits, the last one with zeros behind
the bytes in use. -/
structure Encodes (slices : List Nat) (lastSliceSize : Nat) : Prop where
  ne : slices ≠ []
  size : 1 ≤ lastSliceSize ∧ lastSliceSize ≤ 8
  word : ∀ s ∈ slices, s < 2 ^ 64
  zeros : slices.getLastD 0 % 2 ^ ((8 - lastSliceSize) * 8) = 0

theorem unpackSlice_byte (slice i : Nat) :
    UInt8.ofNat ((slice >>> ((7 - i) * 8)) &&& 0xFF) = UInt8.ofNat (slice / 256 ^ (7 - i)) := by
  have hmask : (slice >>> ((7 - i) * 8)) &&& 0xFF = slice / 256 ^ (7 - i) % 256 := by
    rw [Nat.shiftRight_eq_div_pow, Nat.mul_comm, Nat.pow_mul]
    exact Nat.and_two_pow_sub_one_eq_mod _ 8
  rw [hmask]
  apply UInt8.toNat_inj.mp
  simp

theorem length_unpackSlice (slice size : Nat) : (unpackSlice slice size).length = size := by
  simp [unpackSlice]

theorem take_unpackSlice (slice : Nat) {size : Nat} (h : size ≤ 8) :
    (unpackSlice slice 8).take size = unpackSlice slice size := by
  rw [unpackSlice, unpackSlice, ← List.map_take, List.take_range, Nat.min_eq_left h]

theorem num_append_one (xs : List UInt8) (y : UInt8) : num (xs ++ [y]) = num xs * 256 + y.toNat := by
  induction xs with
  | nil => simp [num]
  | cons x xs ih =>
    rw [List.cons_append, num, num, ih, List.length_append, List.length_singleton, Nat.pow_succ]
    ring

/-- The digits of a number, the highest first. -/
theorem num_digits (n x : Nat) :
    num ((List.range n).map fun i => UInt8.ofNat (x / 256 ^ (n - 1 - i))) = x % 256 ^ n := by
  induction n generalizing x with
  | zero => simp [num, Nat.mod_one]
  | succ n ih =>
    have hdigits : (List.range n).map (fun i => UInt8.ofNat (x / 256 ^ (n + 1 - 1 - i))) =
        (List.range n).map fun i => UInt8.ofNat (x / 256 / 256 ^ (n - 1 - i)) := by
      refine List.map_congr_left ?_
      intro i hi
      have hi := List.mem_range.mp hi
      rw [Nat.div_div_eq_div_mul, ← Nat.pow_succ', show (n - 1 - i).succ = n + 1 - 1 - i by omega]
    rw [List.range_succ, List.map_append, List.map_singleton, num_append_one, hdigits, ih]
    have hlast : (UInt8.ofNat (x / 256 ^ (n + 1 - 1 - n))).toNat = x % 256 := by
      simp
    rw [hlast, Nat.pow_succ', Nat.mod_mul, Nat.mul_comm 256, Nat.add_comm]

theorem num_unpackSlice {slice : Nat} (h : slice < 2 ^ 64) : num (unpackSlice slice 8) = slice := by
  have hbytes : unpackSlice slice 8 = (List.range 8).map fun i => UInt8.ofNat (slice / 256 ^ (8 - 1 - i)) := by
    refine List.map_congr_left ?_
    intro i _
    exact unpackSlice_byte slice i
  rw [hbytes, num_digits]
  exact Nat.mod_eq_of_lt h

/-- A string of up to eight bytes comes back from its slice. -/
theorem unpackSlice_packSlice {bytes : List UInt8} (h : bytes.length ≤ 8) :
    unpackSlice (packSlice bytes) bytes.length = bytes := by
  have hlen := length_pad h
  have hpad : unpackSlice (packSlice bytes) 8 = pad bytes := by
    refine num_inj ((length_unpackSlice _ _).trans hlen.symm) ?_
    rw [num_unpackSlice (packSlice_lt h), packSlice_eq]
  rw [← take_unpackSlice _ h, hpad, pad, List.take_left]

/-- A slice that is zero behind its bytes in use comes back from these bytes. -/
theorem packSlice_unpackSlice {slice size : Nat} (hsize : size ≤ 8) (h : slice < 2 ^ 64)
    (hzeros : slice % 2 ^ ((8 - size) * 8) = 0) : packSlice (unpackSlice slice size) = slice := by
  have hpad : pad (unpackSlice slice size) = unpackSlice slice 8 := by
    rw [pad, length_unpackSlice, ← take_unpackSlice _ hsize]
    nth_rewrite 2 [← List.take_append_drop size (unpackSlice slice 8)]
    congr 1
    refine (List.eq_replicate_iff.mpr ⟨?_, ?_⟩).symm
    · rw [List.length_drop, length_unpackSlice]
    · intro b hb
      obtain ⟨i, hi, rfl⟩ := List.mem_iff_getElem.mp hb
      have hi' : i < 8 - size := by
        rw [List.length_drop, length_unpackSlice] at hi
        exact hi
      rw [List.getElem_drop]
      simp only [unpackSlice, List.getElem_map, List.getElem_range]
      rw [unpackSlice_byte]
      obtain ⟨q, rfl⟩ := Nat.dvd_of_mod_eq_zero hzeros
      have hpow : 2 ^ ((8 - size) * 8) = 256 ^ (7 - (size + i)) * (256 * 256 ^ i) := by
        rw [← Nat.pow_succ', ← Nat.pow_add, Nat.mul_comm, Nat.pow_mul]
        congr 1
        omega
      rw [hpow, Nat.mul_assoc, Nat.mul_div_cancel_left _ (Nat.pow_pos (by decide))]
      apply UInt8.toNat_inj.mp
      simp [Nat.mul_assoc]
  rw [packSlice_eq, hpad, num_unpackSlice h]

theorem uint64t_to_string_one (slice size : Nat) : uint64t_to_string [slice] size = unpackSlice slice size := by
  simp [uint64t_to_string]

theorem uint64t_to_string_cons (slice : Nat) {slices : List Nat} (h : slices ≠ []) (size : Nat) :
    uint64t_to_string (slice :: slices) size = unpackSlice slice 8 ++ uint64t_to_string slices size := by
  obtain ⟨x, rest, rfl⟩ := List.exists_cons_of_ne_nil h
  simp [uint64t_to_string]

theorem slices_ne_nil {bytes : List UInt8} (h : bytes ≠ []) : (ofString bytes).slices ≠ [] := by
  rw [slices_ofString h]
  exact List.cons_ne_nil _ _

/-- A string comes back from its slices and the size of the last one. -/
theorem uint64t_to_string_ofString (bytes : List UInt8) (h : bytes ≠ []) :
    uint64t_to_string (ofString bytes).slices (ofString bytes).lastSliceSize = bytes := by
  rw [slices_ofString h, lastSliceSize_ofString bytes h]
  by_cases hd : bytes.drop 8 = []
  · have hle : bytes.length ≤ 8 := by simpa using hd
    rw [hd, slices_ofString_nil, uint64t_to_string_one, lastSize_short h hd, List.take_of_length_le hle]
    exact unpackSlice_packSlice hle
  · have hlen : (bytes.take 8).length = 8 := by
      have := List.length_pos_of_ne_nil hd
      rw [List.length_drop] at this
      rw [List.length_take]
      omega
    have ih := uint64t_to_string_ofString (bytes.drop 8) hd
    have hfirst := unpackSlice_packSlice (Nat.le_of_eq hlen)
    rw [lastSliceSize_ofString _ hd, lastSize_drop hd] at ih
    rw [hlen] at hfirst
    rw [uint64t_to_string_cons _ (slices_ne_nil hd), ih, hfirst, List.take_append_drop]
  termination_by bytes.length
  decreasing_by
    have := List.length_pos_of_ne_nil h
    rw [List.length_drop]
    omega

theorem Encodes.tail {x y : Nat} {rest : List Nat} {size : Nat} (h : Encodes (x :: y :: rest) size) :
    Encodes (y :: rest) size where
  ne := List.cons_ne_nil _ _
  size := h.size
  word := fun s hs => h.word s (List.mem_cons_of_mem _ hs)
  zeros := h.zeros

/-- Slices and a size come back from their string, which is not empty. -/
theorem string_to_uint64t_decoded {slices : List Nat} {size : Nat} (h : Encodes slices size) :
    uint64t_to_string slices size ≠ [] ∧
      string_to_uint64t (uint64t_to_string slices size) = (slices, size) := by
  induction slices with
  | nil => exact absurd rfl h.ne
  | cons x slices ih =>
    have hx := h.word x List.mem_cons_self
    cases slices with
    | nil =>
      have hlen := length_unpackSlice x size
      have hne : unpackSlice x size ≠ [] := List.ne_nil_of_length_pos (by rw [hlen]; exact h.size.1)
      have hdrop : (unpackSlice x size).drop 8 = [] := by
        rw [List.drop_eq_nil_iff, hlen]
        exact h.size.2
      have htake : (unpackSlice x size).take 8 = unpackSlice x size :=
        List.take_of_length_le (by rw [hlen]; exact h.size.2)
      rw [uint64t_to_string_one]
      refine ⟨hne, Prod.ext ?_ ?_⟩
      · change (ofString _).slices = _
        rw [slices_ofString hne, hdrop, slices_ofString_nil, htake, packSlice_unpackSlice h.size.2 hx h.zeros]
      · change (ofString _).lastSliceSize = _
        rw [lastSliceSize_ofString _ hne, lastSize_short hne hdrop, hlen]
    | cons y rest =>
      obtain ⟨hne, heq⟩ := ih h.tail
      have hlen := length_unpackSlice x 8
      have hdrop : (unpackSlice x 8 ++ uint64t_to_string (y :: rest) size).drop 8 =
          uint64t_to_string (y :: rest) size := List.drop_left' hlen
      have htake : (unpackSlice x 8 ++ uint64t_to_string (y :: rest) size).take 8 = unpackSlice x 8 :=
        List.take_left' hlen
      have hne' : unpackSlice x 8 ++ uint64t_to_string (y :: rest) size ≠ [] := by
        simp [hne]
      rw [uint64t_to_string_cons _ (List.cons_ne_nil _ _)]
      refine ⟨hne', Prod.ext ?_ ?_⟩
      · change (ofString (unpackSlice x 8 ++ uint64t_to_string (y :: rest) size)).slices = x :: y :: rest
        rw [slices_ofString hne', hdrop, htake, packSlice_unpackSlice (Nat.le_refl 8) hx (Nat.mod_one x)]
        exact congrArg (x :: ·) (congrArg Prod.fst heq)
      · change (ofString (unpackSlice x 8 ++ uint64t_to_string (y :: rest) size)).lastSliceSize = size
        rw [lastSliceSize_ofString _ hne', ← lastSize_drop (by rw [hdrop]; exact hne), hdrop,
          ← lastSliceSize_ofString _ hne]
        exact congrArg Prod.snd heq

/-- The two functions are inverse to each other, so that the key of a string is its own. -/
theorem key_encoding_round_trip :
    (∀ bytes : List UInt8, bytes ≠ [] →
      uint64t_to_string (string_to_uint64t bytes).1 (string_to_uint64t bytes).2 = bytes) ∧
    (∀ slices lastSliceSize, Encodes slices lastSliceSize →
      string_to_uint64t (uint64t_to_string slices lastSliceSize) = (slices, lastSliceSize)) ∧
    ∀ a b : List UInt8, a ≠ [] → b ≠ [] → ofString a = ofString b → a = b := by
  refine ⟨uint64t_to_string_ofString, fun slices size h => (string_to_uint64t_decoded h).2, ?_⟩
  intro a b ha hb he
  rw [← uint64t_to_string_ofString a ha, he, uint64t_to_string_ofString b hb]

/-- Nine bytes, the last two of them zero, and back. -/
theorem key_encoding_round_trip_zero_bytes :
    uint64t_to_string (string_to_uint64t [1, 2, 3, 4, 5, 6, 7, 0, 0]).1
        (string_to_uint64t [1, 2, 3, 4, 5, 6, 7, 0, 0]).2 = [1, 2, 3, 4, 5, 6, 7, 0, 0] ∧
      string_to_uint64t (uint64t_to_string [72623859790382848, 0] 1) = ([72623859790382848, 0], 1) := by
  refine ⟨key_encoding_round_trip.1 _ (by decide), key_encoding_round_trip.2.1 _ _ ⟨by decide, by decide, ?_, by decide⟩⟩
  decide

end Cassa.Masstree.Key

import Cassa.SiloR.LogFile

/-!
# The set-up of recovery

The first loop of `execute_recovery` makes an archive of each hash slot of `pepoch.seal`.
The number of slots is computed in `size_t`: a file of eight bytes or more has as many
archives as complete slots, and a shorter one, such as the empty file of a server that has
not reached its first durable epoch, makes the subtraction wrap around.
-/

namespace Cassa.SiloR

/-- `(epoch_file_size - sizeof(uint64_t)) / SHA256_HEXSTR_LEN` -/
def hashSlots (epoch_file_size : UInt64) : UInt64 := (epoch_file_size - 8) / 64

/-- `std::isxdigit` -/
def isXDigit (ch : UInt8) : Bool :=
  48 ≤ ch && ch ≤ 57 || 65 ≤ ch && ch ≤ 70 || 97 ≤ ch && ch ≤ 102

def is_valid_hex_string (str : List UInt8) : Bool := !str.isEmpty && str.all isXDigit

/-- What the loop sets in a new archive. -/
structure ArchiveSlot where
  log_file_name_ : String
  last_log_hash_ : List UInt8
  is_last_log_hash_matched : Bool
  is_all_data_read_ : Bool

def archiveSlot (epoch_file : List UInt8) (i : Nat) : ArchiveSlot :=
  let last_log_hash := read_file epoch_file (8 + i * 64) 64
  { log_file_name_ := "log/log" ++ toString i ++ ".seal"
    last_log_hash_ := last_log_hash
    is_last_log_hash_matched := !is_valid_hex_string last_log_hash
    is_all_data_read_ := !is_valid_hex_string last_log_hash }

/-- The loop from `i` on, with as many turns to go. -/
def setUpFrom (epoch_file : List UInt8) : Nat → Nat → List ArchiveSlot
  | 0, _ => []
  | turns + 1, i => archiveSlot epoch_file i :: setUpFrom epoch_file turns (i + 1)

/-- `log_archives_` after the set-up. -/
def setUp (epoch_file : List UInt8) : List ArchiveSlot :=
  setUpFrom epoch_file (hashSlots (.ofNat epoch_file.length)).toNat 0

/-- One turn and one archive for each complete slot, which is the one it reads. -/
structure ArchivePerSlot (epoch_file : List UInt8) : Prop where
  turns : (hashSlots (.ofNat epoch_file.length)).toNat = (epoch_file.length - 8) / 64
  archives : (setUp epoch_file).length = (epoch_file.length - 8) / 64
  slots : ∀ i, i < (epoch_file.length - 8) / 64 → (setUp epoch_file)[i]? = some (archiveSlot epoch_file i) ∧
    (archiveSlot epoch_file i).last_log_hash_ = (epoch_file.drop (8 + i * 64)).take 64

theorem length_setUpFrom (epoch_file : List UInt8) (turns i : Nat) : (setUpFrom epoch_file turns i).length = turns := by
  induction turns generalizing i with
  | zero => rfl
  | succ turns ih => rw [setUpFrom, List.length_cons, ih]

theorem getElem?_setUpFrom (epoch_file : List UInt8) {turns i j : Nat} (hj : j < turns) :
    (setUpFrom epoch_file turns i)[j]? = some (archiveSlot epoch_file (i + j)) := by
  induction turns generalizing i j with
  | zero => omega
  | succ turns ih =>
    cases j with
    | zero => rfl
    | succ j =>
      rw [setUpFrom, List.getElem?_cons_succ, ih (by omega), Nat.add_assoc, Nat.add_comm 1]

/-- The subtraction wraps around below eight bytes. -/
theorem hashSlots_toNat {n : Nat} (hn : n < 2 ^ 64) :
    (hashSlots (.ofNat n)).toNat = if 8 ≤ n then (n - 8) / 64 else 2 ^ 58 - 1 := by
  have hsize : (UInt64.ofNat n).toNat = n := by
    rw [UInt64.toNat_ofNat']
    exact Nat.mod_eq_of_lt hn
  have hsub : (UInt64.ofNat n - 8).toNat = (2 ^ 64 - 8 + n) % 2 ^ 64 := by
    rw [UInt64.toNat_sub, hsize]
    rfl
  rw [hashSlots, UInt64.toNat_div, hsub]
  change _ / 64 = _
  split
  · omega
  · omega

theorem read_file_inside {file : List UInt8} {offset size : Nat} (h : offset + size ≤ file.length) :
    read_file file offset size = (file.drop offset).take size := by
  have hlen : ((file.drop offset).take size).length = size := by
    rw [List.length_take, List.length_drop]
    omega
  rw [read_file, List.rightpad, hlen, Nat.sub_self, List.replicate_zero, List.append_nil]

theorem archive_per_slot_iff {epoch_file : List UInt8} (hsize : epoch_file.length < 2 ^ 64) :
    ArchivePerSlot epoch_file ↔ 8 ≤ epoch_file.length := by
  have hturns := hashSlots_toNat hsize
  constructor
  · intro h
    by_contra hshort
    have hcount := h.turns
    rw [hturns, if_neg hshort] at hcount
    omega
  · intro hlong
    rw [if_pos hlong] at hturns
    refine ⟨hturns, ?_, ?_⟩
    · rw [setUp, length_setUpFrom, hturns]
    · intro i hi
      have hslot := getElem?_setUpFrom epoch_file (i := 0) (hturns ▸ hi)
      rw [Nat.zero_add] at hslot
      exact ⟨hslot, read_file_inside (by omega)⟩

/-- Two hash slots and some bytes of a third. -/
theorem archive_per_slot_two :
    ArchivePerSlot (List.replicate 150 0) ↔ 8 ≤ (List.replicate 150 (0 : UInt8)).length := by
  exact archive_per_slot_iff (by rw [List.length_replicate]; decide)

/-- The empty file of a new server. -/
theorem no_archive_per_slot :
    ¬ ∀ epoch_file : List UInt8, epoch_file.length < 2 ^ 64 → ArchivePerSlot epoch_file := by
  intro hall
  have hcount := (hall [] (by decide)).turns
  rw [hashSlots_toNat (by decide)] at hcount
  exact absurd hcount (by decide)

end Cassa.SiloR

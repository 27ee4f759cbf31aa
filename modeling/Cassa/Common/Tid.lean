import Mathlib.Algebra.Group.Nat.Defs
import Mathlib.Data.Nat.Basic
import Mathlib.Order.Basic

/-!
# The TID word

`TIDword` of `db_tid.h`: three flag bits, a 29-bit `TID` and a 32-bit `epoch`
packed into one 64-bit word `obj_`, low bit first. The order of the source is the
order of the packed words, so it compares the epoch first, then the TID, and the
flags last.
-/

namespace Cassa

structure TIDword where
  lock : Bool
  latest : Bool
  absent : Bool
  TID : BitVec 29
  epoch : BitVec 32
  deriving DecidableEq, Repr

namespace TIDword

/-- The default constructor. -/
def new : TIDword := ⟨false, true, false, 0, 0⟩

/-- `obj_ = 0`. -/
def zero : TIDword := ⟨false, false, false, 0, 0⟩

/-- The word of a freshly created record: absent and locked. -/
def init (t : TIDword) : TIDword := { t with absent := true, lock := true }

/-- The packed word. -/
def obj_ (t : TIDword) : Nat :=
  t.lock.toNat + 2 * t.latest.toNat + 4 * t.absent.toNat + 8 * t.TID.toNat + 2 ^ 32 * t.epoch.toNat

instance : LT TIDword := ⟨fun a b => a.obj_ < b.obj_⟩

instance (a b : TIDword) : Decidable (a < b) := inferInstanceAs (Decidable (a.obj_ < b.obj_))

/-- `std::max`: the first argument unless it is smaller. -/
def max (a b : TIDword) : TIDword := if a < b then b else a

/-- `TID++` on the bit field: it wraps at 29 bits and never carries into `epoch`. -/
def incTID (t : TIDword) : TIDword := { t with TID := t.TID + 1 }

/-- Epoch and TID as one number: the part of the word that validation compares. -/
def ver (t : TIDword) : Nat := 2 ^ 29 * t.epoch.toNat + t.TID.toNat

/-- The flag bits as the low part of the packed word. -/
def flags (t : TIDword) : Nat := t.lock.toNat + 2 * t.latest.toNat + 4 * t.absent.toNat

theorem obj_eq (t : TIDword) : t.obj_ = 8 * t.ver + t.flags := by
  simp only [obj_, ver, flags]
  omega

theorem flags_lt (t : TIDword) : t.flags < 8 := by
  rcases t with ⟨_ | _, _ | _, _ | _, _, _⟩ <;> simp [flags]

theorem obj_injective {a b : TIDword} (h : a.obj_ = b.obj_) : a = b := by
  rw [obj_eq, obj_eq] at h
  have ha := flags_lt a
  have hb := flags_lt b
  have hflags : a.flags = b.flags := by omega
  have hver : a.ver = b.ver := by omega
  have hT := a.TID.isLt
  have hT' := b.TID.isLt
  simp only [ver] at hver
  have hepoch : a.epoch = b.epoch := BitVec.eq_of_toNat_eq (by omega)
  have hTID : a.TID = b.TID := BitVec.eq_of_toNat_eq (by omega)
  rcases a with ⟨_ | _, _ | _, _ | _, _, _⟩ <;> rcases b with ⟨_ | _, _ | _, _ | _, _, _⟩ <;>
    simp_all [flags]

theorem lt_iff (a b : TIDword) : a < b ↔ a.obj_ < b.obj_ := Iff.rfl

theorem ver_le_of_not_lt {a b : TIDword} (h : ¬ a < b) : b.ver ≤ a.ver := by
  rw [lt_iff, obj_eq, obj_eq] at h
  have ha := flags_lt a
  omega

theorem ver_le_of_lt {a b : TIDword} (h : a < b) : a.ver ≤ b.ver := by
  rw [lt_iff, obj_eq, obj_eq] at h
  have hb := flags_lt b
  omega

theorem max_cases (a b : TIDword) : max a b = a ∧ ¬ a < b ∨ max a b = b ∧ a < b := by
  unfold max
  split
  · rename_i h
    exact Or.inr ⟨rfl, h⟩
  · rename_i h
    exact Or.inl ⟨rfl, h⟩

theorem ver_max (a b : TIDword) : (max a b).ver = Max.max a.ver b.ver := by
  unfold max
  split
  · rename_i h
    exact (Nat.max_eq_right (ver_le_of_lt h)).symm
  · rename_i h
    exact (Nat.max_eq_left (ver_le_of_not_lt h)).symm

theorem ver_eq_iff (a b : TIDword) : a.ver = b.ver ↔ a.epoch = b.epoch ∧ a.TID = b.TID := by
  have h1 := a.TID.isLt
  have h2 := b.TID.isLt
  constructor
  · intro h
    simp only [ver] at h
    constructor
    · apply BitVec.eq_of_toNat_eq; omega
    · apply BitVec.eq_of_toNat_eq; omega
  · rintro ⟨he, ht⟩
    simp [ver, he, ht]

theorem ver_incTID {t : TIDword} (h : t.TID.toNat ≠ 2 ^ 29 - 1) : t.incTID.ver = t.ver + 1 := by
  have hlt := t.TID.isLt
  simp only [ver, incTID, BitVec.toNat_add]
  have h1 : (1 : BitVec 29).toNat = 1 := rfl
  rw [h1, Nat.mod_eq_of_lt (by omega)]
  omega

@[simp] theorem epoch_incTID (t : TIDword) : t.incTID.epoch = t.epoch := rfl

theorem epoch_toNat (t : TIDword) : t.epoch.toNat = t.ver / 2 ^ 29 := by
  have h := t.TID.isLt
  simp only [ver]
  omega

theorem epoch_max (a b : TIDword) :
    (max a b).epoch.toNat = Max.max a.epoch.toNat b.epoch.toNat := by
  rw [epoch_toNat, epoch_toNat, epoch_toNat, ver_max]
  rcases le_total a.ver b.ver with h | h
  · have := Nat.div_le_div_right (c := 2 ^ 29) h
    rw [Nat.max_eq_right h, Nat.max_eq_right this]
  · have := Nat.div_le_div_right (c := 2 ^ 29) h
    rw [Nat.max_eq_left h, Nat.max_eq_left this]

theorem epoch_le_of_obj_le {a b : TIDword} (h : a.obj_ ≤ b.obj_) :
    a.epoch.toNat ≤ b.epoch.toNat := by
  rw [obj_eq, obj_eq] at h
  rw [epoch_toNat, epoch_toNat]
  have ha := flags_lt a
  have hb := flags_lt b
  omega

@[simp] theorem ver_lock (t : TIDword) (b : Bool) : ({ t with lock := b } : TIDword).ver = t.ver := rfl

@[simp] theorem ver_absent (t : TIDword) (b : Bool) :
    ({ t with absent := b } : TIDword).ver = t.ver := rfl

end TIDword

/-- The word whose only information is the worker's local epoch (`tid_c`); the
64-bit epoch is cut to the 32 bits of the field. -/
def epochWord (localEpoch : Nat) : TIDword := { TIDword.new with epoch := BitVec.ofNat 32 localEpoch }

/-- The commit TID of `writePhase`, before the flag bits are set per element: the
largest of (a) one more than everything read or written, (b) one more than the
worker's last TID and (c) the local epoch. -/
def commitTid (max_rset max_wset mrctid : TIDword) (localEpoch : Nat) : TIDword :=
  let tid_a := (TIDword.max max_rset max_wset).incTID
  let tid_b := mrctid.incTID
  let tid_c := epochWord localEpoch
  { TIDword.max (TIDword.max tid_a tid_b) tid_c with lock := false, latest := true }

@[simp] theorem commitTid_lock (r w m : TIDword) (e : Nat) : (commitTid r w m e).lock = false := rfl

theorem commitTid_ver (r w m : TIDword) (e : Nat) :
    (commitTid r w m e).ver =
      max (max (TIDword.max r w).incTID.ver m.incTID.ver) (epochWord e).ver := by
  change (TIDword.max (TIDword.max (TIDword.max r w).incTID m.incTID) (epochWord e)).ver = _
  rw [TIDword.ver_max, TIDword.ver_max]

/-- Unless the largest TID observed is the last of its 29 bits, the commit TID is
newer than everything the transaction read or wrote. -/
theorem ver_lt_commitTid {r w : TIDword} (m : TIDword) (e : Nat)
    (h : (TIDword.max r w).TID.toNat ≠ 2 ^ 29 - 1) :
    r.ver < (commitTid r w m e).ver ∧ w.ver < (commitTid r w m e).ver := by
  have hinc := TIDword.ver_incTID h
  rw [commitTid_ver, hinc, TIDword.ver_max]
  omega

theorem commitTid_epoch (r w m : TIDword) (e : Nat) :
    (commitTid r w m e).epoch.toNat =
      max (max (max r.epoch.toNat w.epoch.toNat) m.epoch.toNat) (e % 2 ^ 32) := by
  change (TIDword.max (TIDword.max (TIDword.max r w).incTID m.incTID) (epochWord e)).epoch.toNat = _
  rw [TIDword.epoch_max, TIDword.epoch_max, TIDword.epoch_incTID, TIDword.epoch_incTID,
    TIDword.epoch_max]
  simp [epochWord]

end Cassa

import Mathlib.Algebra.Group.Nat.Defs
import Cassa.Lib.Runs

/-!
# The version of a node

`masstree_version.h` and the setters of `Node`. `operator^` compares the 32 bits of `body`.
No bit-field crosses a boundary of its declared type, so `v_insert` fills the upper half of
`body` and `v_split` lies behind it: a section that only split a node leaves no trace that
`operator^` could see.
-/

namespace Cassa.Masstree

open Cassa.Lib.Runs

structure Version where
  locked : Bool
  inserting : Bool
  splitting : Bool
  deleted : Bool
  is_root : Bool
  is_border : Bool
  v_insert : UInt16
  v_split : UInt8
  deriving DecidableEq

/-- A bit-field: the bits of its declared type, its width, and its value. -/
structure BitField where
  type : Nat
  width : Nat
  value : Nat

/-- Where the next bit-field goes: it starts a new unit of its type if it would cross the boundary. -/
def BitField.place (f : BitField) (offset : Nat) : Nat :=
  if offset % f.type + f.width ≤ f.type then offset else (offset / f.type + 1) * f.type

/-- The bit-fields in memory, from an offset on. -/
def bitFields : Nat → List BitField → Nat
  | _, [] => 0
  | offset, f :: fs => f.value * 2 ^ f.place offset + bitFields (f.place offset + f.width) fs

namespace Version

/-- The struct of the union; `unused` is never set. -/
def fields (v : Version) : List BitField :=
  [⟨8, 1, v.locked.toNat⟩, ⟨8, 1, v.inserting.toNat⟩, ⟨8, 1, v.splitting.toNat⟩, ⟨8, 1, v.deleted.toNat⟩,
    ⟨8, 1, v.is_root.toNat⟩, ⟨8, 1, v.is_border.toNat⟩, ⟨16, 16, v.v_insert.toNat⟩, ⟨8, 8, v.v_split.toNat⟩, ⟨8, 2, 0⟩]

def body (v : Version) : UInt32 := .ofNat (bitFields 0 v.fields)

/-- `operator^` -/
def xor (left right : Version) : UInt32 := left.body ^^^ right.body

/-- All but the two counters. -/
structure Flags where
  locked : Bool
  inserting : Bool
  splitting : Bool
  deleted : Bool
  is_root : Bool
  is_border : Bool
  deriving DecidableEq

def flags (v : Version) : Flags := ⟨v.locked, v.inserting, v.splitting, v.deleted, v.is_root, v.is_border⟩

theorem body_toNat (v : Version) : v.body.toNat = v.locked.toNat + 2 * v.inserting.toNat + 4 * v.splitting.toNat +
    8 * v.deleted.toNat + 16 * v.is_root.toNat + 32 * v.is_border.toNat + 2 ^ 16 * v.v_insert.toNat := by
  have himage : bitFields 0 v.fields = v.locked.toNat + 2 * v.inserting.toNat + 4 * v.splitting.toNat +
      8 * v.deleted.toNat + 16 * v.is_root.toNat + 32 * v.is_border.toNat + 2 ^ 16 * v.v_insert.toNat +
      2 ^ 32 * v.v_split.toNat := by
    simp [bitFields, fields, BitField.place]
    omega
  have hins := v.v_insert.toNat_lt
  have h₁ := v.locked.toNat_le
  have h₂ := v.inserting.toNat_le
  have h₃ := v.splitting.toNat_le
  have h₄ := v.deleted.toNat_le
  have h₅ := v.is_root.toNat_le
  have h₆ := v.is_border.toNat_le
  rw [body, UInt32.toNat_ofNat', himage]
  omega

/-- The body is the flags and `v_insert`. -/
theorem body_eq_iff (v w : Version) : v.body = w.body ↔ v.flags = w.flags ∧ v.v_insert = w.v_insert := by
  constructor
  · intro h
    have hnat := congrArg UInt32.toNat h
    have bit : ∀ a b : Bool, a.toNat = b.toNat → a = b := by decide
    have le := fun b : Bool => b.toNat_le
    have h₁ := le v.locked
    have h₂ := le v.inserting
    have h₃ := le v.splitting
    have h₄ := le v.deleted
    have h₅ := le v.is_root
    have h₆ := le v.is_border
    have h₁' := le w.locked
    have h₂' := le w.inserting
    have h₃' := le w.splitting
    have h₄' := le w.deleted
    have h₅' := le w.is_root
    have h₆' := le w.is_border
    rw [body_toNat, body_toNat] at hnat
    constructor
    · rw [flags, flags, bit v.locked w.locked (by omega), bit v.inserting w.inserting (by omega),
        bit v.splitting w.splitting (by omega), bit v.deleted w.deleted (by omega),
        bit v.is_root w.is_root (by omega), bit v.is_border w.is_border (by omega)]
    · apply UInt16.toNat_inj.mp
      omega
  · rintro ⟨hflags, hins⟩
    apply UInt32.toNat_inj.mp
    obtain ⟨h₁, h₂, h₃, h₄, h₅, h₆⟩ : _ ∧ _ ∧ _ ∧ _ ∧ _ ∧ _ := by simpa [flags] using hflags
    rw [body_toNat, body_toNat, h₁, h₂, h₃, h₄, h₅, h₆, hins]

end Version

inductive VersionOp where
  | lock
  | setInserting (inserting : Bool)
  | setSplitting (splitting : Bool)
  | unlock
  | setDeleted (deleted : Bool)
  | setIsRoot (is_root : Bool)
  deriving DecidableEq

namespace Version

/-- `unlock` without its assertion. -/
def unlocked (v : Version) : Version :=
  { v with
    v_insert := if v.inserting then v.v_insert + 1 else v.v_insert
    v_split := if v.inserting then v.v_split else if v.splitting then v.v_split + 1 else v.v_split
    locked := false
    inserting := false
    splitting := false }

/-- `none` where `lock` waits for another thread, and where an assertion fails. -/
def step (v : Version) : VersionOp → Option Version
  | .lock => if v.locked then none else some { v with locked := true }
  | .setInserting inserting => if v.locked then some { v with inserting := inserting } else none
  | .setSplitting splitting => if v.locked then some { v with splitting := splitting } else none
  | .unlock => if v.locked && !(v.inserting && v.splitting) then some v.unlocked else none
  | .setDeleted deleted => if v.locked then some { v with deleted := deleted } else none
  | .setIsRoot is_root => some { v with is_root := is_root }

end Version

/-- The flags after a call. -/
def VersionOp.onFlags (f : Version.Flags) : VersionOp → Version.Flags
  | .lock => { f with locked := true }
  | .setInserting inserting => { f with inserting := inserting }
  | .setSplitting splitting => { f with splitting := splitting }
  | .unlock => { f with locked := false, inserting := false, splitting := false }
  | .setDeleted deleted => { f with deleted := deleted }
  | .setIsRoot is_root => { f with is_root := is_root }

/-- The flags after a sequence of calls: of `deleted` and `is_root`, for instance, the value that was
set last. -/
def flagsAfter (f : Version.Flags) (ops : List VersionOp) : Version.Flags := ops.foldl VersionOp.onFlags f

/-- How many calls of `unlock` end a section with `inserting`. -/
def insertingUnlocks (f : Version.Flags) : List VersionOp → Nat
  | [] => 0
  | op :: ops => (if op = .unlock ∧ f.inserting = true then 1 else 0) + insertingUnlocks (op.onFlags f) ops

/-- How many calls of `unlock` end a section with `splitting`. -/
def splittingUnlocks (f : Version.Flags) : List VersionOp → Nat
  | [] => 0
  | op :: ops => (if op = .unlock ∧ f.splitting = true then 1 else 0) + splittingUnlocks (op.onFlags f) ops

namespace Version

variable {v w : Version}

theorem step_flags {op : VersionOp} (h : v.step op = some w) : w.flags = op.onFlags v.flags := by
  cases op with
  | lock =>
    obtain ⟨-, rfl⟩ : _ ∧ _ := by simpa [step] using h
    rfl
  | setInserting inserting =>
    obtain ⟨-, rfl⟩ : _ ∧ _ := by simpa [step] using h
    rfl
  | setSplitting splitting =>
    obtain ⟨-, rfl⟩ : _ ∧ _ := by simpa [step] using h
    rfl
  | unlock =>
    obtain ⟨-, rfl⟩ : _ ∧ _ := by simpa [step] using h
    rfl
  | setDeleted deleted =>
    obtain ⟨-, rfl⟩ : _ ∧ _ := by simpa [step] using h
    rfl
  | setIsRoot is_root =>
    obtain rfl : _ = w := by simpa [step] using h
    rfl

theorem step_v_insert {op : VersionOp} (h : v.step op = some w) :
    w.v_insert = v.v_insert + .ofNat (if op = .unlock ∧ v.flags.inserting = true then 1 else 0) := by
  cases op with
  | lock =>
    obtain ⟨-, rfl⟩ : _ ∧ _ := by simpa [step] using h
    simp
  | setInserting inserting =>
    obtain ⟨-, rfl⟩ : _ ∧ _ := by simpa [step] using h
    simp
  | setSplitting splitting =>
    obtain ⟨-, rfl⟩ : _ ∧ _ := by simpa [step] using h
    simp
  | unlock =>
    obtain ⟨-, rfl⟩ : _ ∧ _ := by simpa [step] using h
    by_cases hins : v.inserting = true
    · simp [unlocked, flags, hins]
    · simp [unlocked, flags, hins]
  | setDeleted deleted =>
    obtain ⟨-, rfl⟩ : _ ∧ _ := by simpa [step] using h
    simp
  | setIsRoot is_root =>
    obtain rfl : _ = w := by simpa [step] using h
    simp

/-- The flags and `v_insert` after a run. -/
theorem exec_spec {ops : List VersionOp} (h : exec step v ops = some w) :
    w.flags = flagsAfter v.flags ops ∧ w.v_insert = v.v_insert + .ofNat (insertingUnlocks v.flags ops) := by
  induction ops generalizing v with
  | nil =>
    obtain rfl := Option.some.inj h
    simp [flagsAfter, insertingUnlocks]
  | cons op ops ih =>
    obtain ⟨u, hstep, hrest⟩ := Option.bind_eq_some_iff.mp h
    obtain ⟨hflags, hins⟩ := ih hrest
    rw [step_flags hstep] at hflags hins
    refine ⟨hflags, ?_⟩
    rw [hins, step_v_insert hstep, insertingUnlocks, UInt16.ofNat_add, UInt16.add_assoc]

/-- `operator^` tells the versions before and after apart. -/
def Noticed (v w : Version) : Prop := v.xor w ≠ 0

theorem change_noticed_iff {ops : List VersionOp} (hrun : exec step v ops = some w)
    (hinserting : insertingUnlocks v.flags ops < 2 ^ 16) :
    Noticed v w ↔ 0 < insertingUnlocks v.flags ops ∨ flagsAfter v.flags ops ≠ v.flags := by
  obtain ⟨hflags, hins⟩ := exec_spec hrun
  have hcount : w.v_insert = v.v_insert ↔ insertingUnlocks v.flags ops = 0 := by
    rw [hins]
    constructor
    · intro h
      have hnat := congrArg UInt16.toNat h
      have := v.v_insert.toNat_lt
      rw [UInt16.toNat_add, UInt16.toNat_ofNat', Nat.mod_eq_of_lt hinserting] at hnat
      omega
    · intro h
      rw [h]
      simp
  rw [Noticed, xor, ne_eq, UInt32.xor_eq_zero_iff, body_eq_iff, eq_comm (a := v.flags), eq_comm (a := v.v_insert),
    hcount, hflags, Nat.pos_iff_ne_zero, not_and_or, or_comm]

/-- A border node that is not locked. -/
def atRest : Version := ⟨false, false, false, false, true, true, 0, 0⟩

theorem change_noticed_insert :
    Noticed atRest ⟨false, false, false, false, true, true, 1, 0⟩ ↔
      0 < insertingUnlocks atRest.flags [.lock, .setInserting true, .unlock] ∨
        flagsAfter atRest.flags [.lock, .setInserting true, .unlock] ≠ atRest.flags := by
  exact change_noticed_iff (by decide) (by decide)

/-- A section that splits the node and nothing else. -/
theorem split_not_noticed :
    ¬ ∀ (v w : Version) (ops : List VersionOp), exec step v ops = some w → insertingUnlocks v.flags ops < 2 ^ 16 →
      splittingUnlocks v.flags ops < 2 ^ 8 → 0 < insertingUnlocks v.flags ops + splittingUnlocks v.flags ops →
      Noticed v w := by
  intro hall
  exact hall atRest ⟨false, false, false, false, true, true, 0, 1⟩ [.lock, .setSplitting true, .unlock]
    (by decide) (by decide) (by decide) (by decide) (by decide)

end Version

end Cassa.Masstree

import Cassa.SiloR.Recovery
import Cassa.Lib.SortedFold

/-!
# Replay in TID order

Replay treats each key on its own (`replayAll_ok_iff`), and repeating an operation at
once changes nothing. So of records that are sorted by TID only the list of each key
counts, and there only which records it has.
-/

namespace Cassa.SiloR

open Cassa.SiloCC Cassa.Lib.SortedFold

variable {K β D : Type}

def InTidOrder (rs : List (RecoveryLogRecord K β D)) : Prop :=
  rs.Pairwise fun a b => a.tid_.obj_ ≤ b.tid_.obj_

/-- What an operation does to the value under its key. -/
def applyOp (op : String) (value : β) (cur : Option β) : Except Stop (Option β) :=
  if op = "INSERT" then .ok (some (cur.getD value))
  else if op = "WRITE" then
    match cur with
    | some _ => .ok (some value)
    | none => .error .fault
  else if op = "DELETE" then .ok none
  else .error .minusOne

/-- The same, for the fields that a record has. -/
def applyFields (cur : Option β) (x : TIDword × String × K × β) : Except Stop (Option β) :=
  applyOp x.2.1 x.2.2.2 cur

theorem applyFields_idempotent : Idempotent (applyFields (K := K) (β := β)) := by
  intro cur x y hy
  unfold applyFields applyOp at hy ⊢
  by_cases hins : x.2.1 = "INSERT"
  · rw [if_pos hins] at hy ⊢
    obtain rfl := Except.ok.inj hy
    rfl
  rw [if_neg hins] at hy ⊢
  by_cases hwr : x.2.1 = "WRITE"
  · rw [if_pos hwr] at hy ⊢
    cases cur with
    | none => cases hy
    | some v =>
      obtain rfl := Except.ok.inj hy
      rfl
  rw [if_neg hwr] at hy ⊢
  by_cases hdel : x.2.1 = "DELETE"
  · rw [if_pos hdel] at hy ⊢
    exact hy
  · rw [if_neg hdel] at hy
    cases hy

section
variable [DecidableEq K]

theorem replayRecord_eq (m : K → Option β) (r : RecoveryLogRecord K β D) :
    replayRecord mapIndex m r = (applyFields (m r.key_) r.fields).map (Function.update m r.key_) := by
  unfold replayRecord applyFields applyOp RecoveryLogRecord.fields mapIndex
  dsimp only
  split
  · rfl
  split
  · cases hm : m r.key_ <;> rfl
  split <;> rfl

/-- The fields of the records of one key. -/
def fieldsOf (k : K) (rs : List (RecoveryLogRecord K β D)) : List (TIDword × String × K × β) :=
  (rs.filter fun r => r.key_ = k).map RecoveryLogRecord.fields

/-- Replay succeeds when it does for each key, and then leaves what it leaves for each. -/
theorem replayAll_ok_iff (rs : List (RecoveryLogRecord K β D)) (m m' : K → Option β) :
    replayAll mapIndex rs m = .ok m' ↔ ∀ k, (fieldsOf k rs).foldlM applyFields (m k) = .ok (m' k) := by
  induction rs generalizing m with
  | nil =>
    constructor
    · intro h k
      obtain rfl : m = m' := Except.ok.inj h
      rfl
    · intro h
      have : m = m' := funext fun k => Except.ok.inj (h k)
      rw [this]
      rfl
  | cons r rs ih =>
    have hother : ∀ k, k ≠ r.key_ → fieldsOf k (r :: rs) = fieldsOf k rs := by
      intro k hk
      unfold fieldsOf
      rw [List.filter_cons_of_neg (by simpa using hk.symm)]
    have hself : fieldsOf r.key_ (r :: rs) = r.fields :: fieldsOf r.key_ rs := by
      unfold fieldsOf
      rw [List.filter_cons_of_pos (by simp), List.map_cons]
    have hcons : replayAll mapIndex (r :: rs) m = (replayRecord mapIndex m r).bind (replayAll mapIndex rs) := rfl
    rw [hcons, replayRecord_eq]
    cases hr : applyFields (m r.key_) r.fields with
    | error e =>
      constructor
      · intro h
        cases h
      · intro h
        have := h r.key_
        rw [hself, List.foldlM_cons, hr] at this
        cases this
    | ok v =>
      change replayAll mapIndex rs (Function.update m r.key_ v) = _ ↔ _
      rw [ih]
      constructor
      · intro h k
        by_cases hk : k = r.key_
        · subst hk
          have := h r.key_
          rw [Function.update_self] at this
          rw [hself, List.foldlM_cons, hr]
          exact this
        · have := h k
          rw [Function.update_of_ne hk] at this
          rw [hother k hk]
          exact this
      · intro h k
        by_cases hk : k = r.key_
        · subst hk
          have := h r.key_
          rw [hself, List.foldlM_cons, hr] at this
          rw [Function.update_self]
          exact this
        · have := h k
          rw [hother k hk] at this
          rw [Function.update_of_ne hk]
          exact this

theorem mem_fieldsOf {k : K} {rs : List (RecoveryLogRecord K β D)} {x : TIDword × String × K × β} :
    x ∈ fieldsOf k rs ↔ ∃ r ∈ rs, r.key_ = k ∧ r.fields = x := by
  unfold fieldsOf
  simp only [List.mem_map, List.mem_filter, decide_eq_true_eq]
  constructor
  · rintro ⟨r, ⟨hr, hk⟩, hx⟩
    exact ⟨r, hr, hk, hx⟩
  · rintro ⟨r, hr, hk, hx⟩
    exact ⟨r, ⟨hr, hk⟩, hx⟩

theorem sortedBy_fieldsOf (k : K) {rs : List (RecoveryLogRecord K β D)} (h : InTidOrder rs) :
    SortedBy (fun x : TIDword × String × K × β => x.1.obj_) (fieldsOf k rs) := by
  unfold fieldsOf SortedBy
  rw [List.pairwise_map]
  exact List.Pairwise.filter _ h

end

end Cassa.SiloR

import Cassa.Lib.EarlyReplay
import Cassa.SiloR.Replay
import Mathlib.Data.List.Induction

/-!
# Sets that are replayed early

A pass replays the records of the sets behind a verified one too, and replays them again in the pass of
their own epoch. If in TID order every `INSERT` finds its key absent and, in the order of the replay, every
`WRITE` finds its key present, this leaves what the records leave in TID order.
-/

namespace Cassa.SiloR

open Cassa.SiloCC Cassa.Lib.EarlyReplay Cassa.Lib.SortedFold

variable {K β D : Type} [DecidableEq K]

/-- The operation of the last record on the key. -/
def lastOperation (k : K) (rs : List (RecoveryLogRecord K β D)) : Option String :=
  (rs.filter fun r => r.key_ = k).getLast?.map fun r => r.operation_type_

/-- The key is not there after these operations. -/
def Gone (k : K) (rs : List (RecoveryLogRecord K β D)) : Prop :=
  lastOperation k rs = none ∨ lastOperation k rs = some "DELETE"

instance (k : K) (rs : List (RecoveryLogRecord K β D)) : Decidable (Gone k rs) :=
  inferInstanceAs (Decidable (_ ∨ _))

/-- Every operation is one that recovery knows, and a `WRITE` finds its key. -/
def WritesFound (rs : List (RecoveryLogRecord K β D)) : Prop :=
  ∀ i, (hi : i < rs.length) → (rs[i]).operation_type_ = "INSERT" ∨ (rs[i]).operation_type_ = "DELETE" ∨
    (rs[i]).operation_type_ = "WRITE" ∧ ¬ Gone (rs[i]).key_ (rs.take i)

/-- An `INSERT` does not find its key. -/
def InsertsFresh (rs : List (RecoveryLogRecord K β D)) : Prop :=
  ∀ i, (hi : i < rs.length) → (rs[i]).operation_type_ = "INSERT" → Gone (rs[i]).key_ (rs.take i)

instance (rs : List (RecoveryLogRecord K β D)) : Decidable (WritesFound rs) :=
  inferInstanceAs (Decidable (∀ i, (hi : i < rs.length) → _))

instance (rs : List (RecoveryLogRecord K β D)) : Decidable (InsertsFresh rs) :=
  inferInstanceAs (Decidable (∀ i, (hi : i < rs.length) → _))

theorem lastOperation_concat (k : K) (rs : List (RecoveryLogRecord K β D)) (r : RecoveryLogRecord K β D) :
    lastOperation k (rs ++ [r]) = if r.key_ = k then some r.operation_type_ else lastOperation k rs := by
  unfold lastOperation
  rw [List.filter_append]
  by_cases hk : r.key_ = k
  · simp only [List.filter_singleton, hk, decide_true, cond_true, List.getLast?_append, List.getLast?_singleton,
      Option.some_or, Option.map_some, if_true]
  · simp only [List.filter_singleton, hk, decide_false, cond_false, List.append_nil, if_false]

theorem WritesFound.of_append {rs rs' : List (RecoveryLogRecord K β D)} (h : WritesFound (rs ++ rs')) :
    WritesFound rs := by
  intro i hi
  have hget := h i (by rw [List.length_append]; omega)
  rwa [List.getElem_append_left hi, List.take_append_of_le_length (Nat.le_of_lt hi)] at hget

/-- The record after `rs`. -/
theorem WritesFound.at {rs rs' : List (RecoveryLogRecord K β D)} {r : RecoveryLogRecord K β D}
    (h : WritesFound (rs ++ r :: rs')) : r.operation_type_ = "INSERT" ∨ r.operation_type_ = "DELETE" ∨
      r.operation_type_ = "WRITE" ∧ ¬ Gone r.key_ rs := by
  have hget := h rs.length (by simp)
  simpa using hget

theorem InsertsFresh.at {rs rs' : List (RecoveryLogRecord K β D)} {r : RecoveryLogRecord K β D}
    (h : InsertsFresh (rs ++ r :: rs')) (hop : r.operation_type_ = "INSERT") : Gone r.key_ rs := by
  have hget := h rs.length (by simp)
  simp only [List.getElem_append_right (Nat.le_refl _), Nat.sub_self, List.getElem_cons_zero, List.take_left] at hget
  exact hget hop

/-- Such records are replayed, and leave the keys that are not gone. -/
theorem WritesFound.replays {rs : List (RecoveryLogRecord K β D)} (h : WritesFound rs) :
    ∃ m, replayAll mapIndex rs (fun _ => none) = .ok m ∧ ∀ k, m k = none ↔ Gone k rs := by
  induction rs using List.reverseRecOn with
  | nil => exact ⟨fun _ => none, rfl, fun k => by simp [Gone, lastOperation]⟩
  | append_singleton rs r ih =>
    obtain ⟨m, hm, hgone⟩ := ih h.of_append
    obtain ⟨o, hstep, ho⟩ : ∃ o, replayRecord mapIndex m r = .ok (Function.update m r.key_ o) ∧
        (o = none ↔ r.operation_type_ = "DELETE") := by
      rcases h.at with hop | hop | ⟨hop, hfound⟩
      · exact ⟨some ((m r.key_).getD r.value_), by simp [replayRecord, hop, mapIndex, Index.orFault], by simp [hop]⟩
      · exact ⟨none, by simp [replayRecord, hop, mapIndex, Index.orFault], by simp [hop]⟩
      · obtain ⟨b, hb⟩ := Option.ne_none_iff_exists'.mp (mt (hgone r.key_).mp hfound)
        exact ⟨some r.value_, by simp [replayRecord, hop, mapIndex, Index.orFault, hb], by simp [hop]⟩
    refine ⟨Function.update m r.key_ o, ?_, ?_⟩
    · rw [replayAll_append, hm]
      change replayRecord mapIndex m r >>= replayAll mapIndex [] = _
      exact bind_eq_ok.mpr ⟨_, hstep, rfl⟩
    · intro k
      unfold Gone
      rw [lastOperation_concat]
      by_cases hk : r.key_ = k
      · subst hk
        rw [if_pos rfl, Function.update_self, ho]
        simp
      · rw [if_neg hk, Function.update_of_ne (Ne.symm hk)]
        exact hgone k

theorem fieldsOf_append (k : K) (rs rs' : List (RecoveryLogRecord K β D)) :
    fieldsOf k (rs ++ rs') = fieldsOf k rs ++ fieldsOf k rs' := by
  unfold fieldsOf
  rw [List.filter_append, List.map_append]

theorem fieldsOf_flatMap {ι : Type} (k : K) (rs : ι → List (RecoveryLogRecord K β D)) (is : List ι) :
    fieldsOf k (is.flatMap rs) = is.flatMap fun i => fieldsOf k (rs i) := by
  induction is with
  | nil => rfl
  | cons i is ih => rw [List.flatMap_cons, fieldsOf_append, ih, List.flatMap_cons]

theorem fieldsOf_split {k : K} {rs : List (RecoveryLogRecord K β D)} {pre post : List (TIDword × String × K × β)}
    {x : TIDword × String × K × β} (h : fieldsOf k rs = pre ++ x :: post) :
    ∃ rs₁ r rs₂, rs = rs₁ ++ r :: rs₂ ∧ r.key_ = k ∧ r.fields = x ∧ fieldsOf k rs₁ = pre := by
  unfold fieldsOf at h
  obtain ⟨l₁, l₂, hfilter, rfl, htail⟩ := List.map_eq_append_iff.mp h
  obtain ⟨r, l₃, rfl, rfl, rfl⟩ := List.map_eq_cons_iff.mp htail
  obtain ⟨rs₁, rs₂, rfl, hfirst, hsecond⟩ := List.filter_eq_append_iff.mp hfilter
  obtain ⟨rs₃, rs₄, rfl, hnone, hr, -⟩ := List.filter_eq_cons_iff.mp hsecond
  refine ⟨rs₁ ++ rs₃, r, rs₄, by simp, by simpa using hr, rfl, ?_⟩
  rw [fieldsOf, List.filter_append, hfirst, List.filter_eq_nil_iff.mpr hnone, List.append_nil]

/-- The records of one key, replayed again: an operation has the effect that it had, or it is an `INSERT`
that finds the key there. -/
theorem settles_fieldsOf (k : K) {rs : List (RecoveryLogRecord K β D)} (hwrites : WritesFound rs)
    (hinserts : InsertsFresh rs) : Settles applyFields none (fieldsOf k rs) := by
  intro pre x post s s' hsplit hstep
  obtain ⟨rs₁, r, rs₂, rfl, rfl, rfl, rfl⟩ := fieldsOf_split hsplit
  have hfound := hwrites.of_append
  obtain ⟨m, hm, hgone⟩ := hfound.replays
  have hpre : (fieldsOf r.key_ rs₁).foldlM applyFields none = .ok (m r.key_) :=
    (replayAll_ok_iff rs₁ _ m).mp hm r.key_
  rw [List.foldlM_append, hpre]
  change (applyFields (m r.key_) r.fields >>= fun s => pure s) = _ ∨ _
  rw [bind_pure]
  unfold applyFields applyOp RecoveryLogRecord.fields at hstep ⊢
  dsimp only at hstep ⊢
  rcases hwrites.at with hop | hop | ⟨hop, hpresent⟩
  · have hnone : m r.key_ = none := (hgone r.key_).mpr (hinserts.at hop)
    rw [if_pos hop] at hstep ⊢
    obtain rfl := Except.ok.inj hstep
    cases s with
    | none => exact Or.inl (by rw [hnone])
    | some b =>
      refine Or.inr ⟨rfl, ?_⟩
      rw [hnone]
      intro he
      cases he
  · rw [if_neg (by simp [hop]), if_neg (by simp [hop]), if_pos hop] at hstep ⊢
    exact Or.inl hstep
  · obtain ⟨b, hb⟩ := Option.ne_none_iff_exists'.mp (mt (hgone r.key_).mp hpresent)
    rw [if_neg (by simp [hop]), if_pos hop] at hstep ⊢
    rw [hb]
    cases s with
    | none => cases hstep
    | some b' => exact Or.inl hstep

/-- No two operations on one key carry one TID. -/
def Distinct (rs : List (RecoveryLogRecord K β D)) : Prop :=
  rs.Pairwise fun r r' => r.key_ = r'.key_ → r.tid_ ≠ r'.tid_

instance (rs : List (RecoveryLogRecord K β D)) : Decidable (Distinct rs) :=
  inferInstanceAs (Decidable (List.Pairwise _ _))

omit [DecidableEq K] in
theorem Distinct.perm {rs rs' : List (RecoveryLogRecord K β D)} (h : Distinct rs) (hp : rs.Perm rs') : Distinct rs' :=
  (hp.pairwise_iff fun hne hk heq => hne hk.symm heq.symm).mp h

theorem leveled_fieldsOf (k : K) {rs : List (RecoveryLogRecord K β D)} (hsorted : InTidOrder rs) (hd : Distinct rs) :
    Leveled (fun x : TIDword × String × K × β => x.1.obj_) (fun x => x.1.epoch.toNat) (fieldsOf k rs) where
  sorted := by
    unfold fieldsOf
    rw [List.pairwise_map]
    refine ((hsorted.and hd).filter _).imp_of_mem ?_
    rintro a b ha hb ⟨hle, hne⟩
    have hka : a.key_ = k := by simpa using (List.mem_filter.mp ha).2
    have hkb : b.key_ = k := by simpa using (List.mem_filter.mp hb).2
    exact Nat.lt_of_le_of_ne hle fun he => hne (hka.trans hkb.symm) (TIDword.obj_injective he)
  level _ _ _ _ hle := TIDword.epoch_le_of_obj_le hle

/-- The passes up to the epoch `n`, where `rs` is in TID order: the pass of an epoch replays the records of
that epoch, and may replay later ones. -/
theorem replayAll_eq_of_passes {rs : List (RecoveryLogRecord K β D)} {pass : Nat → List (RecoveryLogRecord K β D)}
    {n : Nat} (hsorted : InTidOrder rs) (hd : Distinct rs) (hwrites : WritesFound rs) (hinserts : InsertsFresh rs)
    (hpass : ∀ c < n, InTidOrder (pass c)) (hsource : ∀ c < n, ∀ r ∈ pass c, r ∈ rs ∧ c ≤ r.tid_.epoch.toNat)
    (hcomplete : ∀ r ∈ rs, r.tid_.epoch.toNat < n ∧ r ∈ pass r.tid_.epoch.toNat) {m : K → Option β}
    (hrun : replayAll mapIndex ((List.range n).flatMap pass) (fun _ => none) = .ok m) :
    replayAll mapIndex rs (fun _ => none) = .ok m := by
  rw [replayAll_ok_iff] at hrun ⊢
  intro k
  have hk := hrun k
  rw [fieldsOf_flatMap] at hk
  refine foldlM_eq_of_passes (leveled_fieldsOf k hsorted hd) (settles_fieldsOf k hwrites hinserts) ?_ ?_ hk
  · intro c hc
    refine ⟨sortedBy_fieldsOf k (hpass c hc), ?_, ?_⟩
    · intro x hx
      obtain ⟨r, hr, hkey, rfl⟩ := mem_fieldsOf.mp hx
      exact ⟨mem_fieldsOf.mpr ⟨r, (hsource c hc r hr).1, hkey, rfl⟩, (hsource c hc r hr).2⟩
    · rintro x hx rfl
      obtain ⟨r, hr, hkey, rfl⟩ := mem_fieldsOf.mp hx
      exact mem_fieldsOf.mpr ⟨r, (hcomplete r hr).2, hkey, rfl⟩
  · intro x hx
    obtain ⟨r, hr, -, rfl⟩ := mem_fieldsOf.mp hx
    exact (hcomplete r hr).1

end Cassa.SiloR

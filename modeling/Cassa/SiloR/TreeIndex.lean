import Cassa.Masstree.Reachable
import Cassa.SiloR.Replay

/-!
# Masstree as the index of recovery

Recovery allocates a `Value` for each `INSERT`, also where the key turns out to be there;
the constructor of `Key` fails on an empty key. As long as no call reaches one of the two
defects of the tree, what is rebuilt is the mapping that the records describe.
-/

namespace Cassa.SiloR

open Cassa.SiloCC Cassa.Masstree Cassa.Lib.Runs

variable {K β D : Type}

structure Store (β : Type) where
  masstree : Masstree ValuePtr
  body_ : ValuePtr → Option β
  /-- the next `Value` that `new` returns -/
  next : ValuePtr

/-- `Masstree`, with the strings that the keys are made of. -/
def treeIndex (bytes : K → List UInt8) : Index K β (Store β) where
  new := ⟨.new, fun _ => none, 0⟩
  insert_value s k value := (s.masstree.call (.insert_value (bytes k) s.next)).map fun r =>
    ⟨r.2, Function.update s.body_ s.next (some value), s.next + 1⟩
  get_value s k := if bytes k = [] then none
    else (s.masstree.get_value (.ofString (bytes k))).map fun found_value => found_value.bind s.body_
  assign s k value := if bytes k = [] then none
    else match s.masstree.get_value (.ofString (bytes k)) with
      | some (some found_value) => some { s with body_ := Function.update s.body_ found_value (some value) }
      | _ => none
  remove_value s k := (s.masstree.call (.remove_value (bytes k))).map fun r => { s with masstree := r.2 }

/-- The calls of `insert_value` and `remove_value` that a replay makes, the first new `Value`
being `next`. -/
def treeCalls (bytes : K → List UInt8) : ValuePtr → List (RecoveryLogRecord K β D) → List (Call ValuePtr)
  | _, [] => []
  | next, r :: rs =>
    if r.operation_type_ = "INSERT" then .insert_value (bytes r.key_) next :: treeCalls bytes (next + 1) rs
    else if r.operation_type_ = "DELETE" then .remove_value (bytes r.key_) :: treeCalls bytes next rs
    else treeCalls bytes next rs

/-- The tree and its records are the mapping. -/
structure Rebuilt (bytes : K → List UInt8) (s : Store β) (sh : Shape ValuePtr) (m : K → Option β) : Prop where
  tree : TreeOk s.masstree sh
  present : ∀ k v, Holds sh (Key.ofString (bytes k)).id v → v < s.next ∧ ∃ b, s.body_ v = some b ∧ m k = some b
  absent : ∀ k, (∀ v, ¬ Holds sh (Key.ofString (bytes k)).id v) → m k = none
  apart : ∀ k k' v, Holds sh (Key.ofString (bytes k)).id v → Holds sh (Key.ofString (bytes k')).id v → k = k'

theorem rebuilt_new (bytes : K → List UInt8) :
    Rebuilt bytes (treeIndex bytes : Index K β (Store β)).new (fun _ => none) fun _ => none := by
  have hnone : ∀ k v, ¬ Holds (fun _ => none : Shape ValuePtr) (Key.ofString (bytes k)).id v :=
    fun k v => (treeOk_new : TreeOk (.new : Masstree ValuePtr) _).ok.not_holds rfl
  exact ⟨treeOk_new, fun k v hv => absurd hv (hnone k v), fun _ _ => rfl, fun k _ v hv => absurd hv (hnone k v)⟩

section

variable {bytes : K → List UInt8} {s : Store β} {sh : Shape ValuePtr} {m m' : K → Option β} {k : K}

theorem Rebuilt.get_value (h : Rebuilt bytes s sh m) (hne : bytes k ≠ []) :
    (treeIndex bytes).get_value s k = some (m k) := by
  obtain ⟨o, hget, ho⟩ := h.tree.get_value (Key.at_ofString hne)
  simp only [treeIndex, if_neg hne, hget, Option.map_some, Option.some.injEq]
  cases o with
  | some v =>
    obtain ⟨-, b, hbody, hm⟩ := h.present k v ((ho v).mp rfl)
    rw [Option.bind_some, hbody, hm]
  | none =>
    refine (h.absent k fun v hv => ?_).symm
    cases (ho v).mpr hv

theorem Rebuilt.assign [DecidableEq K] (h : Rebuilt bytes s sh m) (hne : bytes k ≠ []) (value : β)
    (hok : mapIndex.assign m k value = some m') :
    ∃ s', (treeIndex bytes).assign s k value = some s' ∧ s'.masstree = s.masstree ∧ s'.next = s.next ∧
      Rebuilt bytes s' sh m' := by
  obtain ⟨b, hb, rfl⟩ := Option.map_eq_some_iff.mp hok
  obtain ⟨o, hget, ho⟩ := h.tree.get_value (Key.at_ofString hne)
  cases o with
  | none =>
    have hnone := h.absent k fun v hv => by cases (ho v).mpr hv
    rw [hnone] at hb
    cases hb
  | some v =>
    have hv := (ho v).mp rfl
    refine ⟨{ s with body_ := Function.update s.body_ v (some value) }, ?_, rfl, rfl, h.tree, ?_, ?_, h.apart⟩
    · simp only [treeIndex, if_neg hne, hget]
    · intro k' v' hv'
      obtain ⟨hlt, b', hbody, hm⟩ := h.present k' v' hv'
      refine ⟨hlt, ?_⟩
      by_cases hvv : v' = v
      · subst hvv
        obtain rfl := h.apart k k' v' hv hv'
        exact ⟨value, Function.update_self .., Function.update_self ..⟩
      · have hkk : k' ≠ k := by
          rintro rfl
          have hv'' := (ho v').mpr hv'
          exact hvv (Option.some.inj hv'').symm
        exact ⟨b', by rw [← hbody]; exact Function.update_of_ne hvv .., by rw [Function.update_of_ne hkk, hm]⟩
    · intro k' hk'
      have hkk : k' ≠ k := fun he => hk' v (he ▸ hv)
      rw [Function.update_of_ne hkk]
      exact h.absent k' hk'

theorem Rebuilt.insert_found (h : Rebuilt bytes s sh m) (body : Option β) :
    Rebuilt bytes ⟨s.masstree, Function.update s.body_ s.next body, s.next + 1⟩ sh m := by
  refine ⟨h.tree, fun k v hv => ?_, h.absent, h.apart⟩
  obtain ⟨hlt, b, hbody, hm⟩ := h.present k v hv
  exact ⟨Nat.lt_succ_of_lt hlt, b, (Function.update_of_ne (Nat.ne_of_lt hlt) ..).trans hbody, hm⟩

/-- Keys that differ have strings that differ. -/
theorem id_ne (hne : ∀ k, bytes k ≠ []) (hinj : Function.Injective bytes) {k k' : K} (h : k' ≠ k) :
    (Key.ofString (bytes k')).id ≠ (Key.ofString (bytes k)).id :=
  Key.id_ofString_ne (hne k) (hne k') (hinj.ne h)

variable [DecidableEq K] (hne : ∀ k, bytes k ≠ []) (hinj : Function.Injective bytes)

include hne hinj

theorem Rebuilt.insert_new (h : Rebuilt bytes s sh m) (hnot : ∀ v, ¬ Holds sh (Key.ofString (bytes k)).id v)
    {tree : Masstree ValuePtr} {sh' : Shape ValuePtr} (hok : TreeOk tree sh')
    (hkeys : ∀ K v, Holds sh' K v ↔ Holds sh K v ∨ K = (Key.ofString (bytes k)).id ∧ v = s.next) (value : β) :
    Rebuilt bytes ⟨tree, Function.update s.body_ s.next (some value), s.next + 1⟩ sh'
      (Function.update m k (some value)) := by
  have hold : ∀ k' v, Holds sh' (Key.ofString (bytes k')).id v →
      k' = k ∧ v = s.next ∨ k' ≠ k ∧ v < s.next ∧ Holds sh (Key.ofString (bytes k')).id v := by
    intro k' v hv
    by_cases hk : k' = k
    · subst hk
      rcases (hkeys _ _).mp hv with hv | ⟨-, hv⟩
      · exact absurd hv (hnot v)
      · exact Or.inl ⟨rfl, hv⟩
    · rcases (hkeys _ _).mp hv with hv | ⟨hid, -⟩
      · exact Or.inr ⟨hk, (h.present k' v hv).1, hv⟩
      · exact absurd hid (id_ne hne hinj hk)
  refine ⟨hok, ?_, ?_, ?_⟩
  · intro k' v hv
    rcases hold k' v hv with ⟨rfl, rfl⟩ | ⟨hk, hlt, hv⟩
    · exact ⟨Nat.lt_succ_self _, value, Function.update_self .., Function.update_self ..⟩
    · obtain ⟨-, b, hbody, hm⟩ := h.present k' v hv
      exact ⟨Nat.lt_succ_of_lt hlt, b, (Function.update_of_ne (Nat.ne_of_lt hlt) ..).trans hbody,
        (Function.update_of_ne hk ..).trans hm⟩
  · intro k' hk'
    have hk : k' ≠ k := fun he => hk' s.next ((hkeys _ _).mpr (Or.inr ⟨by rw [he], rfl⟩))
    rw [Function.update_of_ne hk]
    exact h.absent k' fun v hv => hk' v ((hkeys _ _).mpr (Or.inl hv))
  · intro k₁ k₂ v hv₁ hv₂
    rcases hold k₁ v hv₁ with ⟨rfl, rfl⟩ | ⟨-, hlt, hv₁⟩
    · rcases hold k₂ s.next hv₂ with ⟨rfl, -⟩ | ⟨-, hlt, -⟩
      · rfl
      · exact absurd hlt (Nat.lt_irrefl _)
    · rcases hold k₂ v hv₂ with ⟨rfl, rfl⟩ | ⟨-, -, hv₂⟩
      · exact absurd hlt (Nat.lt_irrefl _)
      · exact h.apart k₁ k₂ v hv₁ hv₂

theorem Rebuilt.insert_value (h : Rebuilt bytes s sh m) (value : β)
    (hspared : s.masstree.spared (.insert_value (bytes k) s.next) = true)
    (hok : mapIndex.insert_value m k value = some m') :
    ∃ s' sh', (treeIndex bytes).insert_value s k value = some s' ∧
      s.masstree.step (.insert_value (bytes k) s.next) = some s'.masstree ∧ s'.next = s.next + 1 ∧
      Rebuilt bytes s' sh' m' := by
  obtain rfl := Option.some.inj hok
  have hcall : s.masstree.call (.insert_value (bytes k) s.next) =
      s.masstree.insert_value (.ofString (bytes k)) s.next := if_neg (hne k)
  rcases h.tree.insert_value (Key.at_ofString (hne k)) s.next (by simpa [Masstree.spared] using hspared) with
    ⟨⟨v, hv⟩, hins⟩ | ⟨hnot, tree, sh', hins, htree, hkeys⟩
  · refine ⟨⟨s.masstree, Function.update s.body_ s.next (some value), s.next + 1⟩, sh, ?_, ?_, rfl, ?_⟩
    · simp only [treeIndex, hcall, hins, Option.map_some]
    · simp only [Masstree.step, hcall, hins, Option.map_some]
    · obtain ⟨-, b, -, hm⟩ := h.present k v hv
      have hsame : Function.update m k (some ((m k).getD value)) = m := by
        rw [hm, Option.getD_some, ← hm, Function.update_eq_self]
      rw [hsame]
      exact h.insert_found (some value)
  · refine ⟨⟨tree, Function.update s.body_ s.next (some value), s.next + 1⟩, sh', ?_, ?_, rfl, ?_⟩
    · simp only [treeIndex, hcall, hins, Option.map_some]
    · simp only [Masstree.step, hcall, hins, Option.map_some]
    · rw [h.absent k hnot, Option.getD_none]
      exact h.insert_new hne hinj hnot htree hkeys value

theorem Rebuilt.remove_value (h : Rebuilt bytes s sh m)
    (hspared : s.masstree.spared (.remove_value (bytes k)) = true)
    (hok : mapIndex.remove_value m k = some m') :
    ∃ s' sh', (treeIndex bytes).remove_value s k = some s' ∧
      s.masstree.step (.remove_value (bytes k)) = some s'.masstree ∧ s'.next = s.next ∧
      Rebuilt bytes s' sh' m' := by
  obtain rfl := Option.some.inj hok
  have hcall : s.masstree.call (.remove_value (bytes k)) = s.masstree.remove_value (.ofString (bytes k)) :=
    if_neg (hne k)
  rcases h.tree.remove_value (Key.at_ofString (hne k)) (by simpa [Masstree.spared] using hspared) with
    ⟨hnot, hrem⟩ | ⟨-, tree, sh', hrem, htree, hkeys⟩
  · refine ⟨s, sh, ?_, ?_, rfl, ?_⟩
    · simp only [treeIndex, hcall, hrem, Option.map_some]
    · simp only [Masstree.step, hcall, hrem, Option.map_some]
    · have hsame : Function.update m k none = m := by
        rw [← h.absent k hnot, Function.update_eq_self]
      rw [hsame]
      exact h
  · refine ⟨{ s with masstree := tree }, sh', ?_, ?_, rfl, htree, ?_, ?_, ?_⟩
    · simp only [treeIndex, hcall, hrem, Option.map_some]
    · simp only [Masstree.step, hcall, hrem, Option.map_some]
    · intro k' v hv
      obtain ⟨hv, hid⟩ := (hkeys _ _).mp hv
      have hk : k' ≠ k := fun he => hid (by rw [he])
      obtain ⟨hlt, b, hbody, hm⟩ := h.present k' v hv
      exact ⟨hlt, b, hbody, (Function.update_of_ne hk ..).trans hm⟩
    · intro k' hk'
      by_cases hk : k' = k
      · subst hk
        exact Function.update_self ..
      · rw [Function.update_of_ne hk]
        exact h.absent k' fun v hv => hk' v ((hkeys _ _).mpr ⟨hv, id_ne hne hinj hk⟩)
    · intro k₁ k₂ v hv₁ hv₂
      exact h.apart k₁ k₂ v ((hkeys _ _).mp hv₁).1 ((hkeys _ _).mp hv₂).1

/-- Step lemma: one record, and the calls that are left. -/
theorem Rebuilt.replayRecord (h : Rebuilt bytes s sh m) {r : RecoveryLogRecord K β D}
    {rs : List (RecoveryLogRecord K β D)}
    (hspared : Admits Masstree.step (fun t c => t.spared c = true) s.masstree (treeCalls bytes s.next (r :: rs)))
    (hok : replayRecord mapIndex m r = .ok m') :
    ∃ s' sh', replayRecord (treeIndex bytes) s r = .ok s' ∧ Rebuilt bytes s' sh' m' ∧
      Admits Masstree.step (fun t c => t.spared c = true) s'.masstree (treeCalls bytes s'.next rs) := by
  unfold SiloR.replayRecord at hok ⊢
  rw [treeCalls] at hspared
  split at hok
  · rename_i hop
    rw [if_pos hop] at hspared
    obtain ⟨s', sh', hins, hstep, hnext, h'⟩ :=
      h.insert_value hne hinj r.value_ hspared.1 (Index.orFault_eq_ok.mp hok)
    refine ⟨s', sh', by rw [if_pos hop, Index.orFault_eq_ok.mpr hins], h', ?_⟩
    rw [hnext]
    exact hspared.2 _ hstep
  split at hok
  · rename_i hins hop
    rw [if_neg hins, if_neg (by simp [hop])] at hspared
    obtain ⟨s', hwrite, htree, hnext, h'⟩ := h.assign (hne r.key_) r.value_ (Index.orFault_eq_ok.mp hok)
    refine ⟨s', sh, by rw [if_neg hins, if_pos hop, Index.orFault_eq_ok.mpr hwrite], h', ?_⟩
    rw [htree, hnext]
    exact hspared
  split at hok
  · rename_i hins hwrite hop
    rw [if_neg hins, if_pos hop] at hspared
    obtain ⟨s', sh', hrem, hstep, hnext, h'⟩ :=
      h.remove_value hne hinj hspared.1 (Index.orFault_eq_ok.mp hok)
    refine ⟨s', sh', by rw [if_neg hins, if_neg hwrite, if_pos hop, Index.orFault_eq_ok.mpr hrem], h', ?_⟩
    rw [hnext]
    exact hspared.2 _ hstep
  · cases hok

/-- Run lemma: a replay whose calls are spared does to the tree what it does to the mapping. -/
theorem Rebuilt.replayAll (h : Rebuilt bytes s sh m) {rs : List (RecoveryLogRecord K β D)}
    (hspared : Admits Masstree.step (fun t c => t.spared c = true) s.masstree (treeCalls bytes s.next rs))
    (hok : replayAll mapIndex rs m = .ok m') :
    ∃ s' sh', replayAll (treeIndex bytes) rs s = .ok s' ∧ Rebuilt bytes s' sh' m' := by
  induction rs generalizing s sh m with
  | nil =>
    obtain rfl : m = m' := Except.ok.inj hok
    exact ⟨s, sh, rfl, h⟩
  | cons r rs ih =>
    obtain ⟨m₁, hm₁, hrest⟩ := bind_eq_ok.mp hok
    obtain ⟨s₁, sh₁, hs₁, h₁, hspared₁⟩ := h.replayRecord hne hinj hspared hm₁
    obtain ⟨s', sh', hs', h'⟩ := ih h₁ hspared₁ hrest
    exact ⟨s', sh', bind_eq_ok.mpr ⟨s₁, hs₁, hs'⟩, h'⟩

end

end Cassa.SiloR

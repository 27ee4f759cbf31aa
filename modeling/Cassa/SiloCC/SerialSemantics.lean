import Cassa.SiloCC.SerialCommit

/-!
# What a transaction does to the visible state

The meaning of a request as the code has it: the first INSERT, WRITE or DELETE on a
key decides (`write` and `tx_delete` follow CCBench's write specification and ignore
the later ones), and a key that was deleted keeps a record with its absent bit set, so
that it is not inserted again. The theorem relates the statuses and the visible state
of `execute_transaction` to that meaning.
-/

namespace Cassa.SiloCC.Serial

variable {K β : Type} [LinearOrder K] [Inhabited β]

/-- What an operation does to the key `k`. -/
def Procedure.ownOn (k : K) : Procedure K β → Option (Own β)
  | .INSERT k' b => if k' = k then some (.inserted b) else none
  | .WRITE k' b => if k' = k then some (.written b) else none
  | .DELETE k' => if k' = k then some .deleted else none
  | _ => none

def Procedure.ownKey : Procedure K β → Option K
  | .INSERT k _ => some k
  | .WRITE k _ => some k
  | .DELETE k => some k
  | _ => none

/-- The first INSERT, WRITE or DELETE on a key. -/
def firstOn (ps : List (Procedure K β)) (k : K) : Option (Own β) := ps.findSome? (·.ownOn k)

def addOwnKey (ks : List K) (p : Procedure K β) : List K :=
  match p.ownKey with
  | some k => if k ∈ ks then ks else ks ++ [k]
  | none => ks

/-- The keys of the INSERTs, WRITEs and DELETEs, in the order of the first one on each. -/
def ownKeys (ps : List (Procedure K β)) : List K := ps.foldl addOwnKey []

/-- The code refuses the operation after `before`, in a transaction that began in `s`. -/
def Rejected (s : State K β) (before : List (Procedure K β)) : Procedure K β → Prop
  | .INSERT k _ => (firstOn before k).isSome ∨ s.masstree[k]?.isSome
  | .WRITE k _ => firstOn before k = none ∧ s.masstree[k]? = none
  | .DELETE k => (∃ b, firstOn before k = some (.inserted b)) ∨
      firstOn before k = none ∧ s.masstree[k]? = none
  | .READ k => firstOn before k = none ∧ s.visible k = none
  | .SCAN _ _ _ _ => False

/-- The request keeps clear of the absent bits that earlier deletions have left: WRITE
and DELETE are on keys without a deleted record, no WRITE follows a DELETE in the order
of the write set without an INSERT between them, and the commit TID starts without the
bit. -/
structure SlipFree (arrange : List K → List K) (localEpoch : Nat) (s : State K β)
    (ps : List (Procedure K β)) : Prop where
  mrctid : s.mrctid_.absent = false
  epoch : localEpoch % 2 ^ 32 ≠ 0
  present : ∀ p ∈ ps, ∀ k o, p.ownOn k = some o → o.isInserted = false → s.ghost k = false
  order : Unspoiled false ((arrange (ownKeys ps)).filterMap fun k => (firstOn ps k).map Own.op)

section

variable {s : State K β}

section
omit [Inhabited β]

theorem firstOn_append (ps : List (Procedure K β)) (p : Procedure K β) (k : K) :
    firstOn (ps ++ [p]) k = (firstOn ps k).or (p.ownOn k) := by
  simp [firstOn, List.findSome?_append]

theorem ownKeys_append (ps : List (Procedure K β)) (p : Procedure K β) :
    ownKeys (ps ++ [p]) = addOwnKey (ownKeys ps) p := by
  simp [ownKeys]

end

theorem after_append (s : State K β) (ps : List (Procedure K β)) (p : Procedure K β) :
    View.after s (ps ++ [p]) = (View.after s ps).bind (View.next s · p) := by
  simp only [View.after, List.foldlM_append, List.foldlM_cons, List.foldlM_nil]
  cases ps.foldlM (View.next s) View.start with
  | none => rfl
  | some w => simp

section
omit [Inhabited β]

theorem next_own {w w' : View K β} {p : Procedure K β} (h : w.next s p = some w') (k : K) :
    w'.own k = (w.own k).or (p.ownOn k) := by
  cases p with
  | READ k' =>
    simp only [View.next] at h
    split at h
    · rw [← Option.some.inj h]
      simp [Procedure.ownOn]
    · split at h
      · cases h
      · rw [← Option.some.inj h]
        simp [Procedure.ownOn, View.see]
  | SCAN l lx r rx =>
    rw [View.next, Option.some.injEq] at h
    rw [← h]
    simp [Procedure.ownOn, View.see]
  | INSERT k' b =>
    simp only [View.next] at h
    split at h
    · cases h
    · rename_i hfree
      rw [← Option.some.inj h]
      have hnone : w.own k' = none := by simp_all
      by_cases hk : k = k'
      · subst hk
        simp [Procedure.ownOn, View.see, View.claim, hnone]
      · simp [Procedure.ownOn, View.see, View.claim, hk, Ne.symm hk]
  | WRITE k' b =>
    simp only [View.next] at h
    split at h
    · rename_i hown
      obtain ⟨o, ho⟩ := Option.isSome_iff_exists.mp hown
      rw [← Option.some.inj h]
      by_cases hk : k' = k
      · subst hk
        simp [ho]
      · simp [Procedure.ownOn, hk]
    · rename_i hown
      split at h
      · rw [← Option.some.inj h]
        have hnone : w.own k' = none := by simpa using hown
        by_cases hk : k = k'
        · subst hk
          simp [Procedure.ownOn, View.claim, hnone]
        · simp [Procedure.ownOn, View.claim, hk, Ne.symm hk]
      · cases h
  | DELETE k' =>
    simp only [View.next] at h
    split at h
    · rename_i o ho
      split at h
      · cases h
      · rw [← Option.some.inj h]
        by_cases hk : k' = k
        · subst hk
          simp [ho]
        · simp [Procedure.ownOn, hk]
    · rename_i hnone
      split at h
      · rw [← Option.some.inj h]
        by_cases hk : k = k'
        · subst hk
          simp [Procedure.ownOn, View.claim, hnone]
        · simp [Procedure.ownOn, View.claim, hk, Ne.symm hk]
      · cases h

theorem next_keys {w w' : View K β} {p : Procedure K β} (h : w.next s p = some w')
    (hkeys : ∀ k, k ∈ w.keys ↔ (w.own k).isSome) : w'.keys = addOwnKey w.keys p := by
  cases p with
  | READ k =>
    simp only [View.next] at h
    split at h
    · rw [← Option.some.inj h]
      rfl
    · split at h
      · cases h
      · rw [← Option.some.inj h]
        rfl
  | SCAN l lx r rx =>
    rw [View.next, Option.some.injEq] at h
    rw [← h]
    rfl
  | INSERT k b =>
    simp only [View.next] at h
    split at h
    · cases h
    · rename_i hfree
      rw [← Option.some.inj h]
      have hnot : k ∉ w.keys := by simp_all
      simp [addOwnKey, Procedure.ownKey, hnot, View.see, View.claim]
  | WRITE k b =>
    simp only [View.next] at h
    split at h
    · rename_i hown
      rw [← Option.some.inj h]
      simp [addOwnKey, Procedure.ownKey, hkeys, hown]
    · rename_i hown
      split at h
      · rw [← Option.some.inj h]
        simp [addOwnKey, Procedure.ownKey, hkeys, hown, View.claim]
      · cases h
  | DELETE k =>
    simp only [View.next] at h
    split at h
    · rename_i o ho
      split at h
      · cases h
      · rw [← Option.some.inj h]
        simp [addOwnKey, Procedure.ownKey, hkeys, ho]
    · rename_i hnone
      split at h
      · rw [← Option.some.inj h]
        simp [addOwnKey, Procedure.ownKey, hkeys, hnone, View.claim]
      · cases h

theorem mem_ownKeys (ps : List (Procedure K β)) (k : K) :
    k ∈ ownKeys ps ↔ (firstOn ps k).isSome := by
  induction ps using List.reverseRecOn with
  | nil => simp [ownKeys, firstOn]
  | append_singleton ps p ih =>
    rw [ownKeys_append, firstOn_append, Option.isSome_or, Bool.or_eq_true, ← ih]
    cases p <;> simp only [addOwnKey, Procedure.ownKey, Procedure.ownOn] <;>
      grind

end

/-- The view of an accepted request is what the list of its operations says. -/
theorem after_own {ps : List (Procedure K β)} :
    ∀ {w : View K β}, View.after s ps = some w →
      (∀ k, w.own k = firstOn ps k) ∧ w.keys = ownKeys ps := by
  induction ps using List.reverseRecOn with
  | nil =>
    intro w h
    rw [← Option.some.inj h]
    exact ⟨fun _ => rfl, rfl⟩
  | append_singleton ps p ih =>
    intro w h
    rw [after_append] at h
    obtain ⟨w₀, h₀, hp⟩ := Option.bind_eq_some_iff.mp h
    obtain ⟨hown, hkeys⟩ := ih h₀
    constructor
    · intro k
      rw [next_own hp, hown, firstOn_append]
    · rw [next_keys hp, hkeys, ownKeys_append]
      intro k
      rw [hkeys, hown, mem_ownKeys]

theorem next_eq_none_iff {t : State K β} {w : View K β} {before : List (Procedure K β)}
    (hf : Follows s w t) (hown : ∀ k, w.own k = firstOn before k) (p : Procedure K β) :
    w.next s p = none ↔ Rejected s before p := by
  cases p with
  | INSERT k b =>
    simp only [View.next, Rejected, ← hown, ite_eq_left_iff, reduceCtorEq, imp_false, not_not,
      Bool.or_eq_true]
  | WRITE k b =>
    simp only [View.next, Rejected, ← hown]
    cases hk : w.own k with
    | some o => simp
    | none => cases hv : s.masstree[k]? <;> simp
  | DELETE k =>
    simp only [View.next, Rejected, ← hown]
    cases hk : w.own k with
    | some o => cases o <;> simp [Own.isInserted]
    | none => cases hv : s.masstree[k]? <;> simp
  | READ k =>
    have hseen := hf.seen_visible k
    simp only [View.next, Rejected, ← hown]
    cases hk : w.own k with
    | some o => simp [View.touched, hk]
    | none =>
      cases hs : w.seen k with
      | true =>
        have hvis := (hseen hs).resolve_left (by simp [hk])
        simp [View.touched, hs, Option.isSome_iff_ne_none.mp hvis]
      | false =>
        simp only [View.touched, hs, hk, Option.isSome_none, Bool.or_self, Bool.false_eq_true,
          if_false, true_and]
        cases s.visible k <;> simp
  | SCAN l lx r rx => simp [View.next, Rejected]

end

section

variable {arrange : List K → List K} {localEpoch : Nat} {s : State K β}
  {ps : List (Procedure K β)}

theorem SlipFree.clean (h : SlipFree arrange localEpoch s ps) (hq : Quiescent s) {w : View K β}
    (hw : View.after s ps = some w) : Clean arrange localEpoch s w := by
  obtain ⟨hown, hkeys⟩ := after_own hw
  obtain ⟨t, -, hf⟩ := Follows.executeAll_accepted hq (Follows.begin hq) hw
  refine ⟨h.mrctid, h.epoch, ?_, ?_⟩
  · intro k o hk hins
    have hfirst : ps.findSome? (·.ownOn k) = some o := (hown k).symm.trans hk
    obtain ⟨p, hp, hpk⟩ := List.exists_of_findSome?_eq_some hfirst
    have hghost := h.present p hp k o hpk hins
    obtain ⟨we, -, -, htree, -⟩ := hf.element_of_own hk
    have hnot : ∀ b, w.own k ≠ some (.inserted b) := by
      intro b hb
      rw [hk, Option.some.injEq] at hb
      simp [hb, Own.isInserted] at hins
    rw [hf.tree_old k hnot] at htree
    simpa [State.ghost, htree, Option.isNone_eq_false_iff] using hghost
  · simpa only [View.commitOps, hkeys, hown] using h.order

/-- The condition on the worker's last TID stays true as long as the requests keep clear
of the absent bits. -/
theorem SlipFree.mrctid_after (harrange : ∀ l, (arrange l).Perm l) (hs : Reachable arrange s)
    (hslip : SlipFree arrange localEpoch s ps) {epochs : List Nat} {result : Int} {s' : State K β}
    {lines : List (ErrorLine K)}
    (hrun : execute_transaction arrange (localEpoch :: epochs) s ps = some (result, s', lines)) :
    s'.mrctid_.absent = false := by
  have hq := hs.quiescent harrange
  cases hw : View.after s ps with
  | none =>
    obtain ⟨s'', lines', hrun', hrestored⟩ := execute_transaction_refused arrange hq localEpoch epochs hw
    rw [hrun', Option.some.injEq, Prod.mk.injEq, Prod.mk.injEq] at hrun
    rw [← hrun.2.1, hrestored.mrctid]
    exact hslip.mrctid
  | some w =>
    obtain ⟨s'', hrun', -, -, hclean⟩ := execute_transaction_accepted harrange hq localEpoch epochs hw
    rw [hrun', Option.some.injEq, Prod.mk.injEq, Prod.mk.injEq] at hrun
    rw [← hrun.2.1]
    exact (hclean (hslip.clean hq hw)).1

end

def byKey (keys : List Nat) : List Nat := keys.insertionSort (· ≤ ·)

theorem byKey_perm (keys : List Nat) : (byKey keys).Perm keys := List.perm_insertionSort _ _

/-- The state after a request in epoch 1. -/
def afterRequest (s : State Nat Nat) (ps : List (Procedure Nat Nat)) : State Nat Nat :=
  ((execute_transaction byKey [1] s ps).map (·.2.1)).getD s

theorem execute_afterRequest {s : State Nat Nat} {ps : List (Procedure Nat Nat)}
    (h : (execute_transaction byKey [1] s ps).map (fun r => (r.1, r.2.2)) = some (0, [])) :
    execute_transaction byKey [1] s ps = some (0, afterRequest s ps, []) := by
  obtain ⟨⟨code, s', lines⟩, hr, he⟩ := Option.map_eq_some_iff.mp h
  rw [Prod.mk.injEq] at he
  obtain ⟨rfl, rfl⟩ := he
  rw [afterRequest, hr]
  rfl

def twoKeys : State Nat Nat := afterRequest .new [.INSERT 0 5, .INSERT 1 6]

theorem twoKeys_runs : (execute_transaction byKey [1] .new [.INSERT 0 5, .INSERT 1 6]).map
    (fun r => (r.1, r.2.2)) = some (0, ([] : List (ErrorLine Nat))) := by
  decide

theorem twoKeys_reachable : Reachable byKey twoKeys :=
  .step .new (execute_afterRequest twoKeys_runs)

end Cassa.SiloCC.Serial

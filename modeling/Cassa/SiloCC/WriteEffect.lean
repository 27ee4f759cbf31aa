import Cassa.SiloCC.SerialSemantics

/-!
# What the write phase leaves of a transaction

`validationPhase` from any state, with any words in memory and any sets: it locks and
unlocks records of the write set and changes nothing else of them. `writePhase` then
stores one TID word over and over, changing only its absent bit: a DELETE sets the bit
for every element after it, an INSERT clears it, and a WRITE stores it as it is. At the
start the bit is the one of the largest candidate for the commit TID.
-/

namespace Cassa

/-- The largest candidate for the commit TID has the absent bit set: it is one more than
an observed word, or one more than the worker's last TID. -/
def CarriesAbsent (max_rset max_wset mrctid : TIDword) (localEpoch : Nat) : Prop :=
  let tid_a := (TIDword.max max_rset max_wset).incTID
  let tid_b := mrctid.incTID
  let tid_c := epochWord localEpoch
  (tid_a.absent = true ∧ ¬ tid_a < tid_b ∧ ¬ tid_a < tid_c) ∨
    (tid_b.absent = true ∧ tid_a < tid_b ∧ ¬ tid_b < tid_c)

instance (r w m : TIDword) (e : Nat) : Decidable (CarriesAbsent r w m e) :=
  inferInstanceAs (Decidable (_ ∨ _))

theorem commitTid_absent_iff (r w m : TIDword) (e : Nat) :
    (commitTid r w m e).absent = true ↔ CarriesAbsent r w m e := by
  have hc : (epochWord e).absent = false := rfl
  change (TIDword.max (TIDword.max (TIDword.max r w).incTID m.incTID) (epochWord e)).absent = true ↔ _
  unfold CarriesAbsent
  dsimp only
  generalize (TIDword.max r w).incTID = a
  generalize m.incTID = b
  generalize epochWord e = c at hc
  rcases TIDword.max_cases a b with ⟨hab, hlt⟩ | ⟨hab, hlt⟩
  · rw [hab]
    rcases TIDword.max_cases a c with ⟨hac, hlt'⟩ | ⟨hac, hlt'⟩
    · simp [hac, hlt, hlt']
    · simp [hac, hlt, hlt', hc]
  · rw [hab]
    rcases TIDword.max_cases b c with ⟨hbc, hlt'⟩ | ⟨hbc, hlt'⟩
    · simp [hbc, hlt, hlt']
    · simp [hbc, hlt, hlt', hc]

end Cassa

namespace Cassa.SiloCC.Serial

variable {K β : Type} [LinearOrder K] [Inhabited β]

/-- Some records of `ws` have got another lock bit. -/
structure Relocked (s s' : State K β) (ws : List (WriteElement K β)) : Prop where
  write_set : s'.write_set_ = s.write_set_
  read_set : s'.read_set_ = s.read_set_
  mrctid : s'.mrctid_ = s.mrctid_
  body : ∀ v, s'.body v = s.body v
  outside : ∀ v, v ∉ ws.map (·.value_) → s'.mem v = s.mem v

section
variable {s s₁ s' : State K β} {ws : List (WriteElement K β)}

section
omit [Inhabited β]

theorem Relocked.trans (h : Relocked s s₁ ws) (h' : Relocked s₁ s' ws) : Relocked s s' ws where
  write_set := h'.write_set.trans h.write_set
  read_set := h'.read_set.trans h.read_set
  mrctid := h'.mrctid.trans h.mrctid
  body v := (h'.body v).trans (h.body v)
  outside v hv := (h'.outside v hv).trans (h.outside v hv)

theorem relocked_setTid (s : State K β) {we : WriteElement K β} (hwe : we ∈ ws) (t : TIDword) :
    Relocked s (s.setTid we.value_ t) ws where
  write_set := rfl
  read_set := rfl
  mrctid := rfl
  body v := by
    by_cases hv : v = we.value_
    · simp [State.body, State.setTid, hv]
    · simp [State.body, State.setTid, hv]
  outside v hv := by
    have hne : v ≠ we.value_ := fun he => hv (he ▸ List.mem_map_of_mem hwe)
    simp [State.setTid, hne]

/-- The fields that the phase keeps for itself do not count. -/
theorem Relocked.of_fields (h : Relocked s s' ws) {t : State K β} (hmem : t.mem = s'.mem)
    (hw : t.write_set_ = s'.write_set_) (hr : t.read_set_ = s'.read_set_)
    (hm : t.mrctid_ = s'.mrctid_) : Relocked s t ws where
  write_set := hw.trans h.write_set
  read_set := hr.trans h.read_set
  mrctid := hm.trans h.mrctid
  body v := by rw [State.body, hmem]; exact h.body v
  outside v hv := by rw [hmem]; exact h.outside v hv

theorem relocked_refl (s : State K β) (ws : List (WriteElement K β)) : Relocked s s ws :=
  ⟨rfl, rfl, rfl, fun _ => rfl, fun _ _ => rfl⟩

end

section
omit [Inhabited β]

theorem relocked_unlockWriteSet {l : List (WriteElement K β)} (hl : ∀ we ∈ l, we ∈ ws) :
    ∀ s : State K β, Relocked s (unlockWriteSet s l) ws := by
  induction l with
  | nil => exact fun s => relocked_refl s ws
  | cons we l ih =>
    intro s
    have ih := ih fun x hx => hl x (List.mem_cons_of_mem _ hx)
    rw [unlockWriteSet, List.foldl_cons]
    split
    · exact ih s
    · exact (relocked_setTid s (hl we List.mem_cons_self) _).trans (ih _)

theorem relocked_lockWriteSet {l : List (WriteElement K β)} :
    ∀ (before : List (WriteElement K β)) (s : State K β), (∀ we ∈ before ++ l, we ∈ ws) →
      Relocked s (lockWriteSet s before l) ws := by
  induction l with
  | nil => exact fun _ s _ => relocked_refl s ws
  | cons we l ih =>
    intro before s hl
    have hnext : ∀ x ∈ (before ++ [we]) ++ l, x ∈ ws := by
      intro x hx
      rw [List.append_assoc] at hx
      exact hl x hx
    rw [lockWriteSet]
    split
    · exact ih _ s hnext
    dsimp only
    split
    · have := relocked_unlockWriteSet (fun x (hx : x ∈ before) => hl x (List.mem_append_left _ hx))
        { s with status_ := .Aborted }
      exact ⟨this.write_set, this.read_set, this.mrctid, this.body, this.outside⟩
    · refine Relocked.trans ?_ (ih _ _ hnext)
      exact (relocked_setTid s (hl we (by simp)) _).of_fields rfl rfl rfl rfl

theorem relocked_validateReadSet {rs : List (ReadElement K)} :
    ∀ s : State K β, (∀ we ∈ s.write_set_, we ∈ ws) → Relocked s (validateReadSet s rs).1 ws := by
  induction rs with
  | nil => exact fun s _ => (relocked_refl s ws).of_fields rfl rfl rfl rfl
  | cons re rs ih =>
    intro s hs
    simp only [validateReadSet]
    split
    · have := relocked_unlockWriteSet hs { s with status_ := .Aborted }
      exact ⟨this.write_set, this.read_set, this.mrctid, this.body, this.outside⟩
    · have := ih { s with max_rset_ := TIDword.max s.max_rset_ (s.tidword re.value_) } hs
      exact ⟨this.write_set, this.read_set, this.mrctid, this.body, this.outside⟩

end

end

omit [Inhabited β] in
theorem relocked_validationPhase (arrange : List K → List K) (t : State K β) :
    Relocked { t with write_set_ := sortWriteSet arrange t.write_set_ } (validationPhase arrange t).1
      (sortWriteSet arrange t.write_set_) := by
  rw [validationPhase]
  dsimp only
  have hlock := relocked_lockWriteSet (l := sortWriteSet arrange t.write_set_) []
    { t with write_set_ := sortWriteSet arrange t.write_set_ } fun _ hwe => hwe
  refine hlock.trans (relocked_validateReadSet _ ?_)
  rw [hlock.write_set]
  exact fun _ h => h

/-- The write set as `insert`, `write` and `tx_delete` leave it: one element for a key,
different records for different keys, and the body of an inserted record in place. -/
structure Prepared (t : State K β) : Prop where
  keys : (t.write_set_.map (·.key_)).Nodup
  records : ∀ we ∈ t.write_set_, ∀ we' ∈ t.write_set_, we.value_ = we'.value_ → we.key_ = we'.key_
  ops : ∀ we ∈ t.write_set_, we.op_ = .WRITE ∨ we.op_ = .INSERT ∨ we.op_ = .DELETE
  inserted : ∀ we ∈ t.write_set_, we.op_ = .INSERT → t.body we.value_ = we.new_value_body_

/-- A transaction that no other worker disturbs comes to its commit like this. -/
theorem Follows.prepared {s t : State K β} {w : View K β} (h : Follows s w t) : Prepared t where
  keys := h.write_keys_nodup
  records := by
    intro we hwe we' hwe' he
    have h₁ := (h.writes we hwe).1
    rw [he] at h₁
    exact h.inj _ _ _ h₁ (h.writes we' hwe').1
  ops := by
    intro we hwe
    obtain ⟨-, o, -, -, hop⟩ := h.writes we hwe
    cases o <;> simp [hop, Own.op]
  inserted := by
    intro we hwe hop
    obtain ⟨htree, o, ho, hbody, hop'⟩ := h.writes we hwe
    cases o with
    | inserted b =>
      obtain ⟨-, v, hv, -, hm⟩ := h.tree_new _ b ho
      obtain rfl : we.value_ = v := Option.some.inj (htree.symm.trans hv)
      rw [State.body, hm, hbody]
      rfl
    | written b => simp [hop, Own.op] at hop'
    | deleted => simp [hop, Own.op] at hop'

theorem Quiescent.prepared {s t : State K β} (hq : Quiescent s) {ps : List (Procedure K β)}
    {lines : List (ErrorLine K)} (hrun : executeAll s.begin ps = some (.OK, t, lines)) : Prepared t := by
  cases hw : View.after s ps with
  | some w =>
    obtain ⟨t', hrun', hf⟩ := Follows.executeAll_accepted hq (Follows.begin hq) hw
    rw [hrun, Option.some.injEq, Prod.mk.injEq, Prod.mk.injEq] at hrun'
    obtain ⟨-, rfl, -⟩ := hrun'
    exact hf.prepared
  | none =>
    obtain ⟨status, lines', t', w, hne, hrun', -⟩ := Follows.executeAll_refused hq (Follows.begin hq) hw
    rw [hrun, Option.some.injEq, Prod.mk.injEq] at hrun'
    exact absurd hrun'.1.symm hne

omit [Inhabited β] in
theorem Prepared.values_nodup {t : State K β} (h : Prepared t) :
    (t.write_set_.map (·.value_)).Nodup := by
  have hkeys := h.keys
  rw [List.nodup_iff_pairwise_ne, List.pairwise_map] at hkeys ⊢
  refine hkeys.imp_of_mem ?_
  intro we we' hwe hwe' hne he
  exact hne (h.records we hwe we' hwe' he)

/-- The records of the write set of `t` in a later state, under one commit TID. -/
structure WriteEffect (t s' : State K β) : Prop where
  unlocked : ∀ we ∈ t.write_set_, (s'.tidword we.value_).lock = false
  word : ∀ we ∈ t.write_set_, (s'.tidword we.value_).epoch = s'.mrctid_.epoch ∧
    (s'.tidword we.value_).TID = s'.mrctid_.TID
  absent : ∀ we ∈ t.write_set_, ((s'.tidword we.value_).absent = true ↔ we.op_ = .DELETE)
  body : ∀ we ∈ t.write_set_, we.op_ ≠ .DELETE → s'.body we.value_ = we.new_value_body_
  outside : ∀ v, (∀ we ∈ t.write_set_, we.value_ ≠ v) → s'.mem v = t.mem v

/-- In the order of the sorted write set, no WRITE comes after a DELETE without an INSERT
between them, nor before both when the commit TID starts out with the absent bit. -/
def KeepsPresent (s : State K β) (localEpoch : Nat) : Prop :=
  Unspoiled (decide (CarriesAbsent s.max_rset_ s.max_wset_ s.mrctid_ localEpoch))
    (s.write_set_.map (·.op_))

omit [Inhabited β] in
/-- `writePhase` after any `validationPhase` that let the transaction through: it ends, and
its effect is the intended one exactly when no WRITE meets the absent bit. -/
theorem writePhase_effect_iff {arrange : List K → List K} (harrange : ∀ l, (arrange l).Perm l)
    {t s : State K β} (ht : Prepared t) (hvalid : validationPhase arrange t = (s, true))
    (localEpoch : Nat) :
    ∃ s', writePhase s localEpoch = some s' ∧ (WriteEffect t s' ↔ KeepsPresent s localEpoch) := by
  have hlock := relocked_validationPhase arrange t
  rw [hvalid] at hlock
  have hws : s.write_set_ = sortWriteSet arrange t.write_set_ := hlock.write_set
  have hperm : s.write_set_.Perm t.write_set_ := hws ▸ sortWriteSet_perm harrange ht.keys
  have hmem : ∀ we, we ∈ s.write_set_ ↔ we ∈ t.write_set_ := fun we => hperm.mem_iff
  set maxtid := commitTid s.max_rset_ s.max_wset_ s.mrctid_ localEpoch with hmaxtid
  obtain ⟨mem, hloop, hother, hstored, hvers, hwrites⟩ :=
    writeLoop_eq s.write_set_ { s with mrctid_ := maxtid } maxtid
      ((hperm.map _).nodup_iff.mpr ht.values_nodup)
      (fun we hwe => ht.ops we ((hmem we).mp hwe)) rfl
  have habsent : decide (CarriesAbsent s.max_rset_ s.max_wset_ s.mrctid_ localEpoch) = maxtid.absent := by
    rw [Bool.eq_iff_iff, decide_eq_true_iff, hmaxtid, commitTid_absent_iff]
  set s' : State K β := { s with mrctid_ := maxtid, mem := mem } with hs'
  refine ⟨s', hloop, ?_⟩
  rw [KeepsPresent, habsent, hwrites]
  constructor
  · intro heffect we hwe hop
    have := heffect.absent we ((hmem we).mp hwe)
    rw [hop] at this
    change (s'.tidword we.value_).absent = false
    simpa using this
  · intro hpresent
    refine ⟨fun we hwe => ?_, fun we hwe => ?_, fun we hwe => ?_, fun we hwe hop => ?_, fun v hv => ?_⟩
    · exact (hstored we ((hmem we).mpr hwe)).unlocked
    · exact (TIDword.ver_eq_iff _ _).mp (hvers we ((hmem we).mpr hwe))
    · have hwe' := (hmem we).mpr hwe
      rcases ht.ops we hwe with hop | hop | hop
      · have : (s'.tidword we.value_).absent = false := hpresent we hwe' hop
        simp [this, hop]
      · have : (s'.tidword we.value_).absent = false := (hstored we hwe').inserted hop
        simp [this, hop]
      · have : (s'.tidword we.value_).absent = true := (hstored we hwe').deleted hop
        simp [this, hop]
    · have hbody := (hstored we ((hmem we).mpr hwe)).body
      change s'.body we.value_ = _ at hbody
      rw [hbody]
      split
      · rfl
      · have hins : we.op_ = .INSERT := by
          rcases ht.ops we hwe with h | h | h
          · contradiction
          · exact h
          · contradiction
        exact (hlock.body we.value_).trans (ht.inserted we hwe hins)
    · have hnot : v ∉ s.write_set_.map (·.value_) := by
        rw [List.mem_map]
        rintro ⟨we, hwe, he⟩
        exact hv we ((hmem we).mp hwe) he
      rw [hws] at hnot
      exact (hother v (hws ▸ hnot)).trans (hlock.outside v hnot)

/-- The operations of a request on `twoKeys`, up to its commit. -/
def beforeCommit (ps : List (Procedure Nat Nat)) : State Nat Nat :=
  ((executeAll twoKeys.begin ps).map (·.2.1)).getD twoKeys

theorem prepared_beforeCommit {ps : List (Procedure Nat Nat)}
    (h : (executeAll twoKeys.begin ps).map (·.1) = some .OK) : Prepared (beforeCommit ps) := by
  obtain ⟨⟨status, t, lines⟩, hrun, rfl⟩ := Option.map_eq_some_iff.mp h
  rw [beforeCommit, hrun]
  exact (Reachable.quiescent byKey_perm twoKeys_reachable).prepared hrun

theorem writePhase_effect_write_then_delete :
    Prepared (beforeCommit [.WRITE 0 7, .DELETE 1, .INSERT 2 9]) ∧
    ∃ s', writePhase (validationPhase byKey (beforeCommit [.WRITE 0 7, .DELETE 1, .INSERT 2 9])).1 1 =
        some s' ∧ WriteEffect (beforeCommit [.WRITE 0 7, .DELETE 1, .INSERT 2 9]) s' := by
  have ht : Prepared (beforeCommit [.WRITE 0 7, .DELETE 1, .INSERT 2 9]) :=
    prepared_beforeCommit (by decide)
  have hvalid : validationPhase byKey (beforeCommit [.WRITE 0 7, .DELETE 1, .INSERT 2 9]) =
      ((validationPhase byKey (beforeCommit [.WRITE 0 7, .DELETE 1, .INSERT 2 9])).1, true) :=
    Prod.ext rfl (by decide)
  obtain ⟨s', hs', heffect⟩ := writePhase_effect_iff byKey_perm ht hvalid 1
  refine ⟨ht, s', hs', heffect.mpr ?_⟩
  unfold KeepsPresent
  decide

theorem writePhase_effect_delete_then_write :
    Reachable byKey twoKeys ∧
    (executeAll twoKeys.begin [.DELETE 0, .WRITE 1 7]).map (·.1) = some .OK ∧
    (validationPhase byKey (beforeCommit [.DELETE 0, .WRITE 1 7])).2 = true ∧
    ∀ s', writePhase (validationPhase byKey (beforeCommit [.DELETE 0, .WRITE 1 7])).1 1 = some s' →
      ¬ WriteEffect (beforeCommit [.DELETE 0, .WRITE 1 7]) s' := by
  refine ⟨twoKeys_reachable, by decide, by decide, fun s' hs' heffect => ?_⟩
  have hmem : (⟨1, 1, 7, .WRITE⟩ : WriteElement Nat Nat) ∈ (beforeCommit [.DELETE 0, .WRITE 1 7]).write_set_ := by
    decide
  have hword := heffect.absent _ hmem
  have hbit : (writePhase (validationPhase byKey (beforeCommit [.DELETE 0, .WRITE 1 7])).1 1).map
      (fun s' => (s'.tidword 1).absent) = some true := by decide
  rw [hs', Option.map_some, Option.some.injEq] at hbit
  exact absurd (hword.mp hbit) (by decide)

end Cassa.SiloCC.Serial

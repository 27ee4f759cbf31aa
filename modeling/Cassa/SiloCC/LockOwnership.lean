import Cassa.SiloCC.Occ
import Cassa.Lib.Runs

/-!
# Who holds the lock bit of a record

`lockWriteSet` reports a conflict through `status_` alone, and `validationPhase`
never looks at it. As long as no element is found locked, the lock bits and the
control states of the workers agree: a bit is set exactly while one worker is
between its compare-and-swap (or its `insert`) and its own release.
-/

namespace Cassa.SiloCC.Occ

open Cassa.Lib.Runs

variable {W K β : Type} [DecidableEq W] [DecidableEq K] [DecidableEq β]

/-- What the sets of one worker mention: allocated addresses, each under its key,
and every key at most once in the write set. -/
structure TxWf (κ : ValuePtr → Option K) (n : ValuePtr) (t : TxExecutor K β) : Prop where
  rs : ∀ re ∈ t.read_set_, κ re.value_ = some re.key_ ∧ re.value_ < n
  ws : ∀ we ∈ t.write_set_, κ we.value_ = some we.key_ ∧ we.value_ < n
  nodup : (t.write_set_.map (·.key_)).Nodup
  spin : ∀ k v e, t.pc = .readSpin k v e → κ v = some k ∧ v < n
  body : ∀ k v e, t.pc = .readBody k v e → κ v = some k ∧ v < n

structure Wf (s : State W K β) (κ : ValuePtr → Option K) : Prop where
  tree : ∀ k v, s.tree k = some v → κ v = some k ∧ v < s.next
  tx : ∀ w, TxWf κ s.next (s.workers w)
  above : ∀ v, s.next ≤ v → (s.tidword v).lock = false

section
omit [DecidableEq K] [DecidableEq β]

theorem TxWf.value_nodup {κ : ValuePtr → Option K} {n : ValuePtr} {t : TxExecutor K β}
    (h : TxWf κ n t) : (t.write_set_.map (·.value_)).Nodup := by
  have hkey : (t.write_set_.map (·.key_)).map some = (t.write_set_.map (·.value_)).map κ := by
    rw [List.map_map, List.map_map]
    exact List.map_congr_left fun we hwe => ((h.ws we hwe).1).symm
  have hnd := h.nodup.map (fun _ _ => Option.some.inj)
  rw [hkey] at hnd
  exact List.Nodup.of_map κ hnd

/-- Two positions of a write set with the same address are the same position. -/
theorem TxWf.index_unique {κ : ValuePtr → Option K} {n : ValuePtr} {t : TxExecutor K β}
    (h : TxWf κ n t) {i j : Nat} {a b : WriteElement K β} (ha : t.write_set_[i]? = some a)
    (hb : t.write_set_[j]? = some b) (hv : a.value_ = b.value_) : i = j := by
  have hi : i < (t.write_set_.map (·.value_)).length := by
    rw [List.length_map]
    exact (List.getElem?_eq_some_iff.mp ha).1
  refine (List.getElem?_inj hi h.value_nodup).mp ?_
  rw [List.getElem?_map, List.getElem?_map, ha, hb, Option.map_some, Option.map_some, hv]

theorem TxWf.mono {κ κ' : ValuePtr → Option K} {n n' : ValuePtr} {t : TxExecutor K β}
    (h : TxWf κ n t) (hn : n ≤ n') (hκ : ∀ v, v < n → κ' v = κ v) : TxWf κ' n' t where
  rs re hre := ⟨(hκ _ (h.rs re hre).2).trans (h.rs re hre).1, (h.rs re hre).2.trans_le hn⟩
  ws we hwe := ⟨(hκ _ (h.ws we hwe).2).trans (h.ws we hwe).1, (h.ws we hwe).2.trans_le hn⟩
  nodup := h.nodup
  spin k v e hp := ⟨(hκ _ (h.spin k v e hp).2).trans (h.spin k v e hp).1, (h.spin k v e hp).2.trans_le hn⟩
  body k v e hp := ⟨(hκ _ (h.body k v e hp).2).trans (h.body k v e hp).1, (h.body k v e hp).2.trans_le hn⟩

/-- The sets are kept and the new control state reads nothing. -/
theorem TxWf.of_sets {κ : ValuePtr → Option K} {n : ValuePtr} {t t' : TxExecutor K β} (h : TxWf κ n t)
    (hr : t'.read_set_ = t.read_set_) (hw : t'.write_set_ = t.write_set_)
    (hs : ∀ k v e, t'.pc ≠ .readSpin k v e) (hb : ∀ k v e, t'.pc ≠ .readBody k v e) :
    TxWf κ n t' where
  rs := hr ▸ h.rs
  ws := hw ▸ h.ws
  nodup := hw ▸ h.nodup
  spin k v e hp := absurd hp (hs k v e)
  body k v e hp := absurd hp (hb k v e)

end

omit [DecidableEq β] in
/-- A key that is not in the write set yet may be appended to it. -/
theorem TxWf.append {κ : ValuePtr → Option K} {n : ValuePtr} {t : TxExecutor K β} (h : TxWf κ n t)
    (hpc : t.pc = .running) {e : WriteElement K β} (he : κ e.value_ = some e.key_ ∧ e.value_ < n)
    (hs : (searchWriteSet t.write_set_ e.key_).isSome = false) :
    TxWf κ n { t with write_set_ := t.write_set_ ++ [e] } where
  rs := h.rs
  ws := by
    intro x hx
    rcases List.mem_append.mp hx with hx | hx
    · exact h.ws x hx
    · rw [List.mem_singleton.mp hx]; exact he
  nodup := by
    rw [List.map_append]
    refine List.Nodup.append h.nodup (by simp) ?_
    intro k hk hk'
    simp only [List.map_cons, List.map_nil, List.mem_singleton] at hk'
    obtain ⟨x, hx, rfl⟩ := List.mem_map.mp hk
    have : (searchWriteSet t.write_set_ e.key_).isSome := searchWriteSet_isSome.mpr ⟨x, hx, hk'⟩
    rw [this] at hs
    cases hs
  spin k v e hp := by simp [hpc] at hp
  body k v e hp := by simp [hpc] at hp

omit [DecidableEq W] [DecidableEq β] in
/-- The address an operation finds for a key, in the read set or else in the tree. -/
theorem Wf.found {s : State W K β} {κ : ValuePtr → Option K} (h : Wf s κ) {w : W} {k : K} {v : ValuePtr}
    (hv : findValue s (s.workers w) k = some v) : κ v = some k ∧ v < s.next := by
  unfold findValue at hv
  cases hr : searchReadSet (s.workers w).read_set_ k with
  | none =>
    rw [hr] at hv
    exact h.tree k v hv
  | some re =>
    rw [hr] at hv
    have hmem := List.mem_of_find?_eq_some hr
    have hkey : re.key_ = k := by simpa using List.find?_some hr
    obtain ⟨h1, h2⟩ := (h.tx w).rs re hmem
    obtain rfl := Option.some.inj hv
    exact ⟨h1.trans (congrArg some hkey), h2⟩

/-- Whether the control state `pc` makes its worker the owner of the lock of the
`j`-th write-set element. The record of an `INSERT` is born locked; the others are
locked by `lockWriteSet` in order and released in order. -/
def heldAt (pc : Pc K) (op : OpType) (j : Nat) : Prop :=
  match pc with
  | .idle => False
  | .running => op = .INSERT
  | .readSpin _ _ _ => op = .INSERT
  | .readBody _ _ _ => op = .INSERT
  | .locking i _ => op = .INSERT ∨ j < i
  | .unlockPrefix i stop _ => op = .INSERT ∨ (i ≤ j ∧ j < stop)
  | .loadEpoch => True
  | .storeEpoch _ => True
  | .validating _ => True
  | .unlocking i _ => op = .INSERT ∨ i ≤ j
  | .aborting i => op = .INSERT ∧ i ≤ j
  | .writing i _ _ => i ≤ j

/-- The worker has taken the lock of `v` and has not released it. -/
def Holds (t : TxExecutor K β) (v : ValuePtr) : Prop :=
  ∃ j we, t.write_set_[j]? = some we ∧ we.value_ = v ∧ heldAt t.pc we.op_ j

section
omit [DecidableEq K] [DecidableEq β]

theorem holds_congr {t t' : TxExecutor K β} (hw : t'.write_set_ = t.write_set_)
    (hh : ∀ j we, t.write_set_[j]? = some we → (heldAt t'.pc we.op_ j ↔ heldAt t.pc we.op_ j))
    (v : ValuePtr) : Holds t' v ↔ Holds t v := by
  unfold Holds
  rw [hw]
  constructor
  · rintro ⟨j, we, hj, hv, hp⟩
    exact ⟨j, we, hj, hv, (hh j we hj).mp hp⟩
  · rintro ⟨j, we, hj, hv, hp⟩
    exact ⟨j, we, hj, hv, (hh j we hj).mpr hp⟩

/-- While only the records of its inserts are held, their positions do not matter. -/
theorem holds_running {t : TxExecutor K β} (hp : ∀ op j, heldAt t.pc op j ↔ op = .INSERT)
    (v : ValuePtr) : Holds t v ↔ ∃ we ∈ t.write_set_, we.value_ = v ∧ we.op_ = .INSERT := by
  constructor
  · rintro ⟨j, we, hj, hv, hh⟩
    exact ⟨we, List.mem_of_getElem? hj, hv, (hp _ _).mp hh⟩
  · rintro ⟨we, hmem, hv, hop⟩
    obtain ⟨j, hj⟩ := List.mem_iff_getElem?.mp hmem
    exact ⟨j, we, hj, hv, (hp _ _).mpr hop⟩

end

omit [DecidableEq K] in
theorem heldAt_running {pc : Pc K} (h : pc = .running) (op : OpType) (j : Nat) :
    heldAt pc op j ↔ op = .INSERT := by
  subst h; rfl

omit [DecidableEq K] [DecidableEq β] in
/-- Appending anything but an insert takes no lock. -/
theorem holds_append {t : TxExecutor K β} (hpc : t.pc = .running) {we : WriteElement K β}
    (hop : we.op_ ≠ .INSERT) (v : ValuePtr) :
    Holds { t with write_set_ := t.write_set_ ++ [we] } v ↔ Holds t v := by
  have hpc' : ({ t with write_set_ := t.write_set_ ++ [we] } : TxExecutor K β).pc = .running := hpc
  rw [holds_running (heldAt_running hpc') v, holds_running (heldAt_running hpc) v]
  constructor
  · rintro ⟨x, hx, hv, hi⟩
    rcases List.mem_append.mp hx with hx | hx
    · exact ⟨x, hx, hv, hi⟩
    · rw [List.mem_singleton.mp hx] at hi
      exact absurd hi hop
  · rintro ⟨x, hx, hv, hi⟩
    exact ⟨x, List.mem_append_left _ hx, hv, hi⟩

/-- The worker that set each lock bit, kept up to date by looking at the bits before
and after a step of worker `w`. -/
def holders (w : W) (s s' : State W K β) (H : ValuePtr → Option W) : ValuePtr → Option W := fun v =>
  if (s'.tidword v).lock = (s.tidword v).lock then H v
  else if (s'.tidword v).lock then some w else none

structure LockInv (s : State W K β) (H : ValuePtr → Option W) : Prop where
  bit : ∀ v, (s.tidword v).lock = (H v).isSome
  owner : ∀ w v, Holds (s.workers w) v → H v = some w
  only : ∀ w v, v ∉ s.freed → H v = some w → Holds (s.workers w) v
  freed : ∀ v ∈ s.freed, v < s.next
  through : ∀ w i stop e, (s.workers w).pc ≠ .unlockPrefix i stop e

/-- The next step finds an element of the write set locked in `lockWriteSet`. -/
def lockConflict (s : State W K β) : Action W K β → Bool
  | .work w .tick =>
    match (s.workers w).pc with
    | .locking _ (some e) => e.lock
    | _ => false
  | _ => false

def NoLockConflict (s : State W K β) (a : Action W K β) : Prop := lockConflict s a = false

instance (s : State W K β) (a : Action W K β) : Decidable (NoLockConflict s a) :=
  inferInstanceAs (Decidable (lockConflict s a = false))

section
omit [DecidableEq W] [DecidableEq K] [DecidableEq β]

theorem NoLockConflict.free {s : State W K β} {w : W} (h : NoLockConflict s (.work w .tick)) {i : Nat}
    {e : TIDword} (hpc : (s.workers w).pc = .locking i (some e)) : e.lock = false := by
  simpa [NoLockConflict, lockConflict, hpc] using h

theorem holders_same {w : W} {s s' : State W K β} (H : ValuePtr → Option W)
    (h : ∀ v, (s'.tidword v).lock = (s.tidword v).lock) : holders w s s' H = H := by
  funext v
  simp [holders, h v]

end

section
omit [DecidableEq K] [DecidableEq β]

/-- A step that touches no TID word and moves no lock from or to its worker. -/
theorem LockInv.of_local {s s' : State W K β} {H : ValuePtr → Option W} (h : LockInv s H) {w : W}
    (hmem : ∀ v, s'.tidword v = s.tidword v) (hfreed : s'.freed = s.freed)
    (hnext : s'.next = s.next) (hother : ∀ u, u ≠ w → s'.workers u = s.workers u)
    (hpc : ∀ i stop e, (s'.workers w).pc ≠ .unlockPrefix i stop e)
    (hheld : ∀ v, Holds (s'.workers w) v ↔ Holds (s.workers w) v) :
    LockInv s' (holders w s s' H) := by
  rw [holders_same H (fun v => by rw [hmem v])]
  have hiff : ∀ u v, Holds (s'.workers u) v ↔ Holds (s.workers u) v := by
    intro u v
    by_cases hu : u = w
    · subst hu; exact hheld v
    · rw [hother u hu]
  refine ⟨fun v => by rw [hmem v]; exact h.bit v, ?_, ?_, ?_, ?_⟩
  · intro u v hv
    exact h.owner u v ((hiff u v).mp hv)
  · intro u v hf hv
    exact (hiff u v).mpr (h.only u v (hfreed ▸ hf) hv)
  · intro v hv
    rw [hnext]
    exact h.freed v (hfreed ▸ hv)
  · intro u
    by_cases hu : u = w
    · subst hu; exact hpc
    · rw [hother u hu]; exact h.through u

/-- A worker sets the clear lock bit of `v` and holds it from then on. -/
theorem LockInv.of_acquire {s s' : State W K β} {H : ValuePtr → Option W} (h : LockInv s H) {w : W}
    {v : ValuePtr} (hclear : (s.tidword v).lock = false) (hset : (s'.tidword v).lock = true)
    (hmem : ∀ u, u ≠ v → s'.tidword u = s.tidword u) (hfreed : s'.freed = s.freed)
    (hnext : s.next ≤ s'.next) (hother : ∀ u, u ≠ w → s'.workers u = s.workers u)
    (hpc : ∀ i stop e, (s'.workers w).pc ≠ .unlockPrefix i stop e)
    (hheld : ∀ u, Holds (s'.workers w) u ↔ Holds (s.workers w) u ∨ u = v) :
    LockInv s' (holders w s s' H) := by
  have hnone : H v = none := by
    have := h.bit v
    rw [hclear] at this
    exact Option.isNone_iff_eq_none.mp (by simpa using this.symm)
  have hself : holders w s s' H v = some w := by simp [holders, hclear, hset]
  have hrest : ∀ u, u ≠ v → holders w s s' H u = H u := by
    intro u hu
    simp [holders, hmem u hu]
  refine ⟨?_, ?_, ?_, fun u hu => (h.freed u (hfreed ▸ hu)).trans_le hnext, ?_⟩
  · intro u
    by_cases hu : u = v
    · subst hu; rw [hself, hset]; rfl
    · rw [hrest u hu, hmem u hu]; exact h.bit u
  · intro x u hx
    by_cases hw : x = w
    · subst hw
      by_cases hu : u = v
      · subst hu; exact hself
      · rw [hrest u hu]
        exact h.owner x u (((hheld u).mp hx).resolve_right hu)
    · rw [hother x hw] at hx
      have ho := h.owner x u hx
      have hu : u ≠ v := by
        rintro rfl
        rw [hnone] at ho
        cases ho
      rw [hrest u hu]; exact ho
  · intro x u hf hx
    by_cases hu : u = v
    · subst hu
      rw [hself] at hx
      obtain rfl := Option.some.inj hx
      exact (hheld u).mpr (Or.inr rfl)
    · rw [hrest u hu] at hx
      have ho := h.only x u (hfreed ▸ hf) hx
      by_cases hw : x = w
      · subst hw; exact (hheld u).mpr (Or.inl ho)
      · rw [hother x hw]; exact ho
  · intro x
    by_cases hw : x = w
    · subst hw; exact hpc
    · rw [hother x hw]; exact h.through x

/-- A worker clears the lock bit of a record that it holds. -/
theorem LockInv.of_release {s s' : State W K β} {H : ValuePtr → Option W} (h : LockInv s H) {w : W}
    {v : ValuePtr} (hv : Holds (s.workers w) v) (hclear : (s'.tidword v).lock = false)
    (hmem : ∀ u, u ≠ v → s'.tidword u = s.tidword u) (hfreed : s'.freed = s.freed)
    (hnext : s'.next = s.next) (hother : ∀ u, u ≠ w → s'.workers u = s.workers u)
    (hpc : ∀ i stop e, (s'.workers w).pc ≠ .unlockPrefix i stop e)
    (hheld : ∀ u, Holds (s'.workers w) u ↔ Holds (s.workers w) u ∧ u ≠ v) :
    LockInv s' (holders w s s' H) := by
  have hw : H v = some w := h.owner w v hv
  have hlock : (s.tidword v).lock = true := by rw [h.bit v, hw]; rfl
  have hself : holders w s s' H v = none := by simp [holders, hclear, hlock]
  have hrest : ∀ u, u ≠ v → holders w s s' H u = H u := by
    intro u hu
    simp [holders, hmem u hu]
  refine ⟨?_, ?_, ?_, fun u hu => by rw [hnext]; exact h.freed u (hfreed ▸ hu), ?_⟩
  · intro u
    by_cases hu : u = v
    · subst hu; rw [hself, hclear]; rfl
    · rw [hrest u hu, hmem u hu]; exact h.bit u
  · intro x u hx
    by_cases hxw : x = w
    · subst hxw
      obtain ⟨ho, hu⟩ := (hheld u).mp hx
      rw [hrest u hu]
      exact h.owner x u ho
    · rw [hother x hxw] at hx
      have ho := h.owner x u hx
      have hu : u ≠ v := by
        rintro rfl
        exact hxw (Option.some.inj (ho.symm.trans hw))
      rw [hrest u hu]; exact ho
  · intro x u hf hx
    by_cases hu : u = v
    · subst hu; rw [hself] at hx; cases hx
    · rw [hrest u hu] at hx
      have ho := h.only x u (hfreed ▸ hf) hx
      by_cases hxw : x = w
      · subst hxw; exact (hheld u).mpr ⟨ho, hu⟩
      · rw [hother x hxw]; exact ho
  · intro x
    by_cases hxw : x = w
    · subst hxw; exact hpc
    · rw [hother x hxw]; exact h.through x

end

/-- Addresses stay under their keys and the lock bits have the owners that the
control states say. -/
def Owned (s : State W K β) (H : ValuePtr → Option W) : Prop := ∃ κ, Wf s κ ∧ LockInv s H

omit [DecidableEq K] [DecidableEq β] in
theorem Wf.of_tx {s s' : State W K β} {κ : ValuePtr → Option K} (h : Wf s κ) {w : W}
    (htree : ∀ k v, s'.tree k = some v → s.tree k = some v) (hnext : s'.next = s.next)
    (hother : ∀ u, u ≠ w → s'.workers u = s.workers u)
    (habove : ∀ v, s.next ≤ v → s'.tidword v = s.tidword v)
    (ht : TxWf κ s.next (s'.workers w)) : Wf s' κ where
  tree k v hk := hnext ▸ h.tree k v (htree k v hk)
  tx u := by
    rw [hnext]
    by_cases hu : u = w
    · subst hu; exact ht
    · rw [hother u hu]; exact h.tx u
  above v hv := by
    rw [hnext] at hv
    rw [habove v hv]
    exact h.above v hv

section
variable {s : State W K β} {H : ValuePtr → Option W} {w : W}

section
omit [DecidableEq K] [DecidableEq β]

/-- The step only replaces the worker's own state. -/
theorem owned_setWorker (h : Owned s H) {t' : TxExecutor K β}
    (ht : ∀ κ, Wf s κ → TxWf κ s.next t')
    (hpc : ∀ i stop e, t'.pc ≠ .unlockPrefix i stop e)
    (hheld : ∀ v, Holds t' v ↔ Holds (s.workers w) v) :
    Owned (s.setWorker w t') (holders w s (s.setWorker w t') H) := by
  obtain ⟨κ, hw, hl⟩ := h
  refine ⟨κ, ?_, ?_⟩
  · exact hw.of_tx (fun _ _ hk => hk) rfl (fun u hu => setWorker_other s t' hu) (fun _ _ => rfl)
      (by rw [setWorker_self]; exact ht κ hw)
  · exact hl.of_local (fun _ => rfl) rfl rfl (fun u hu => setWorker_other s t' hu)
      (by rw [setWorker_self]; exact hpc) (by rw [setWorker_self]; exact hheld)

/-- The step keeps the sets, goes to a control state that reads nothing and holds
the same locks there. -/
theorem owned_goto (h : Owned s H) {t' : TxExecutor K β}
    (hr : t'.read_set_ = (s.workers w).read_set_) (hws : t'.write_set_ = (s.workers w).write_set_)
    (hs : ∀ k v e, t'.pc ≠ .readSpin k v e) (hb : ∀ k v e, t'.pc ≠ .readBody k v e)
    (hpc : ∀ i stop e, t'.pc ≠ .unlockPrefix i stop e)
    (hh : ∀ j we, (s.workers w).write_set_[j]? = some we →
      (heldAt t'.pc we.op_ j ↔ heldAt (s.workers w).pc we.op_ j)) :
    Owned (s.setWorker w t') (holders w s (s.setWorker w t') H) :=
  owned_setWorker h (fun _ hw => (hw.tx w).of_sets hr hws hs hb) hpc (holds_congr hws hh)

theorem owned_refuse (h : Owned s H)
    (hpc : ∀ op j, heldAt (s.workers w).pc op j ↔ op = .INSERT) :
    Owned (s.setWorker w (s.workers w).refuse)
      (holders w s (s.setWorker w (s.workers w).refuse) H) := by
  refine owned_goto h rfl rfl ?_ ?_ ?_ ?_
  · simp [TxExecutor.refuse]
  · simp [TxExecutor.refuse]
  · simp [TxExecutor.refuse]
  · intro j we _
    rw [hpc]
    simp [TxExecutor.refuse, heldAt]

theorem owned_begin (h : Owned s H) (hpc : (s.workers w).pc = .idle) :
    Owned (s.setWorker w (s.workers w).begin)
      (holders w s (s.setWorker w (s.workers w).begin) H) := by
  refine owned_setWorker h ?_ (by simp [TxExecutor.begin]) ?_
  · intro κ _
    constructor <;> simp [TxExecutor.begin]
  · intro v
    simp [Holds, TxExecutor.begin, hpc, heldAt]

end

section
omit [DecidableEq β]

theorem owned_read (h : Owned s H) (hpc : (s.workers w).pc = .running) (k : K) :
    Owned (s.setWorker w (read s (s.workers w) k))
      (holders w s (s.setWorker w (read s (s.workers w) k)) H) := by
  have hrun := heldAt_running hpc
  unfold read
  split
  · exact owned_setWorker h (fun _ hw => hw.tx w) (by simp [hpc]) (fun _ => Iff.rfl)
  split
  · exact owned_setWorker h (fun _ hw => hw.tx w) (by simp [hpc]) (fun _ => Iff.rfl)
  split
  · exact owned_refuse h hrun
  · rename_i v htree
    refine owned_setWorker h ?_ (by simp) (holds_congr rfl ?_)
    · intro κ hw
      refine ⟨(hw.tx w).rs, (hw.tx w).ws, (hw.tx w).nodup, ?_, by simp⟩
      intro k' v' e' hp
      simp only [goto_pc, Pc.readSpin.injEq] at hp
      obtain ⟨rfl, rfl, _⟩ := hp
      exact hw.tree _ _ htree
    · intro j we _
      rw [hrun]
      simp [heldAt]

theorem owned_write (h : Owned s H) (hpc : (s.workers w).pc = .running) (k : K) (b : β) :
    Owned (s.setWorker w (write s (s.workers w) k b))
      (holders w s (s.setWorker w (write s (s.workers w) k b)) H) := by
  unfold write
  split
  · exact owned_setWorker h (fun _ hw => hw.tx w) (by simp [hpc]) (fun _ => Iff.rfl)
  rename_i hsearch
  split
  · exact owned_refuse h (heldAt_running hpc)
  · rename_i v hfound
    refine owned_setWorker h ?_ (by simp [hpc]) (holds_append hpc (by simp))
    intro κ hw
    exact (hw.tx w).append hpc (hw.found hfound) (by simpa using hsearch)

theorem owned_delete (h : Owned s H) (hpc : (s.workers w).pc = .running) (k : K) (b : β) :
    Owned (s.setWorker w (tx_delete s (s.workers w) k b))
      (holders w s (s.setWorker w (tx_delete s (s.workers w) k b)) H) := by
  unfold tx_delete
  split
  · split
    · exact owned_refuse h (heldAt_running hpc)
    · exact owned_setWorker h (fun _ hw => hw.tx w) (by simp [hpc]) (fun _ => Iff.rfl)
  · rename_i hsearch
    split
    · exact owned_refuse h (heldAt_running hpc)
    · rename_i v hfound
      refine owned_setWorker h ?_ (by simp [hpc]) (holds_append hpc (by simp))
      intro κ hw
      exact (hw.tx w).append hpc (hw.found hfound) (by simp [hsearch])

/-- The record of an insert is allocated locked, under a key of its own. -/
theorem owned_insert (h : Owned s H) (hpc : (s.workers w).pc = .running) (k : K) (b : β) :
    Owned (insert s w (s.workers w) k b) (holders w s (insert s w (s.workers w) k b) H) := by
  unfold insert
  split
  · exact owned_refuse h (heldAt_running hpc)
  rename_i hsearch
  split
  · exact owned_refuse h (heldAt_running hpc)
  rename_i htree
  obtain ⟨κ, hw, hl⟩ := h
  have hmem : ∀ u, u ≠ s.next → ∀ x, (Function.update s.mem s.next x) u = s.mem u :=
    fun u hu x => by simp [hu]
  refine ⟨Function.update κ s.next (some k), ?_, ?_⟩
  · have hκ : ∀ v, v < s.next → Function.update κ s.next (some k) v = κ v :=
      fun v hv => by simp [Nat.ne_of_lt hv]
    refine ⟨?_, ?_, ?_⟩
    · intro k' v hv
      by_cases hk : k' = k
      · subst hk
        simp only [Function.update_self, Option.some.injEq] at hv
        subst hv
        simp
      · simp only [ne_eq, hk, not_false_eq_true, Function.update_of_ne] at hv
        obtain ⟨h1, h2⟩ := hw.tree k' v hv
        exact ⟨(hκ v h2).trans h1, Nat.lt_succ_of_lt h2⟩
    · intro u
      by_cases hu : u = w
      · subst hu
        have hbase := ((hw.tx u).mono (Nat.le_succ s.next) hκ).append hpc
          (e := ⟨k, s.next, b, .INSERT⟩) ⟨by simp, Nat.lt_succ_self _⟩ (by simpa using hsearch)
        simp only [setWorker_self]
        refine ⟨?_, hbase.ws, hbase.nodup, by simp [hpc], by simp [hpc]⟩
        intro re hre
        rcases List.mem_append.mp hre with hre | hre
        · exact hbase.rs re hre
        · rw [List.mem_singleton.mp hre]; simp
      · simp only [setWorker_other s _ hu]
        exact (hw.tx u).mono (Nat.le_succ _) hκ
    · intro v hv
      have hne : v ≠ s.next := Nat.ne_of_gt hv
      simp only [State.tidword, hmem v hne]
      exact hw.above v (Nat.le_of_succ_le hv)
  · refine hl.of_acquire (v := s.next) (hw.above _ (Nat.le_refl _)) ?_ ?_ rfl (Nat.le_succ _)
      (fun u hu => setWorker_other s _ hu) ?_ ?_
    · simp [State.tidword, TIDword.init]
    · intro u hu
      simp only [State.tidword, hmem u hu]
    · simp [hpc]
    · intro u
      simp only [setWorker_self]
      have hpc' : ({ s.workers w with
          read_set_ := (s.workers w).read_set_ ++ [⟨⟨k, s.next, TIDword.new.init, .READ⟩, none⟩]
          write_set_ := (s.workers w).write_set_ ++ [⟨k, s.next, b, .INSERT⟩] } :
          TxExecutor K β).pc = .running := hpc
      rw [holds_running (heldAt_running hpc') u, holds_running (heldAt_running hpc) u]
      constructor
      · rintro ⟨x, hx, rfl, hi⟩
        rcases List.mem_append.mp hx with hx | hx
        · exact Or.inl ⟨x, hx, rfl, hi⟩
        · rw [List.mem_singleton.mp hx]; exact Or.inr rfl
      · rintro (⟨x, hx, hv, hi⟩ | rfl)
        · exact ⟨x, List.mem_append_left _ hx, hv, hi⟩
        · exact ⟨_, List.mem_append_right _ (List.mem_singleton.mpr rfl), rfl, rfl⟩

end

section
omit [DecidableEq K] [DecidableEq β]

/-- Sorting changes neither what is locked nor what is written. -/
theorem owned_validate (h : Owned s H) (hpc : (s.workers w).pc = .running)
    {order : List (WriteElement K β)} (hperm : order.Perm (s.workers w).write_set_) :
    Owned (s.setWorker w { s.workers w with write_set_ := order, pc := .locking 0 none })
      (holders w s (s.setWorker w { s.workers w with write_set_ := order, pc := .locking 0 none })
        H) := by
  refine owned_setWorker h ?_ (by simp) ?_
  · intro κ hw
    refine ⟨(hw.tx w).rs, ?_, ?_, by simp, by simp⟩
    · intro we hwe
      exact (hw.tx w).ws we (hperm.mem_iff.mp hwe)
    · exact (hperm.map _).nodup_iff.mpr (hw.tx w).nodup
  · intro v
    have hlock : ∀ op j, heldAt (Pc.locking 0 none : Pc K) op j ↔ op = .INSERT := by
      simp [heldAt]
    rw [holds_running (t := { s.workers w with write_set_ := order, pc := .locking 0 none }) hlock v,
      holds_running (heldAt_running hpc) v]
    constructor
    · rintro ⟨x, hx, hr⟩
      exact ⟨x, hperm.mem_iff.mp hx, hr⟩
    · rintro ⟨x, hx, hr⟩
      exact ⟨x, hperm.mem_iff.mpr hx, hr⟩

theorem owned_readSpin (h : Owned s H) {k : K} {v : ValuePtr} {e : TIDword}
    (hpc : (s.workers w).pc = .readSpin k v e) :
    Owned (s.setWorker w (stepReadSpin s (s.workers w) k v e))
      (holders w s (s.setWorker w (stepReadSpin s (s.workers w) k v e)) H) := by
  have hrun : ∀ op j, heldAt (s.workers w).pc op j ↔ op = .INSERT := by simp [hpc, heldAt]
  have hstay : ∀ pc' : Pc K, (∀ k' v' e', pc' = .readSpin k' v' e' → k' = k ∧ v' = v) →
      (∀ k' v' e', pc' = .readBody k' v' e' → k' = k ∧ v' = v) →
      (∀ i stop e', pc' ≠ .unlockPrefix i stop e') → (∀ op j, heldAt pc' op j ↔ op = .INSERT) →
      Owned (s.setWorker w ((s.workers w).goto pc'))
        (holders w s (s.setWorker w ((s.workers w).goto pc')) H) := by
    intro pc' hs hb hu hh
    refine owned_setWorker h ?_ hu (holds_congr rfl fun j we _ => by rw [hrun, goto_pc, hh])
    intro κ hw
    refine ⟨(hw.tx w).rs, (hw.tx w).ws, (hw.tx w).nodup, ?_, ?_⟩
    · intro k' v' e' hp
      obtain ⟨rfl, rfl⟩ := hs k' v' e' hp
      exact (hw.tx w).spin _ _ _ hpc
    · intro k' v' e' hp
      obtain ⟨rfl, rfl⟩ := hb k' v' e' hp
      exact (hw.tx w).spin _ _ _ hpc
  unfold stepReadSpin
  split
  · exact hstay _ (by simp) (by simp) (by simp) (by simp [heldAt])
  split
  · exact owned_refuse h hrun
  split
  · exact hstay _ (by simp) (by simp) (by simp) (by simp [heldAt])
  · exact hstay _ (by simp) (by simp) (by simp) (by simp [heldAt])

theorem owned_readBody (h : Owned s H) {k : K} {v : ValuePtr} {e : TIDword}
    (hpc : (s.workers w).pc = .readBody k v e) (b : Option β) :
    Owned (s.setWorker w { s.workers w with
        pc := .running, read_set_ := (s.workers w).read_set_ ++ [⟨⟨k, v, e, .READ⟩, b⟩] })
      (holders w s (s.setWorker w { s.workers w with
        pc := .running, read_set_ := (s.workers w).read_set_ ++ [⟨⟨k, v, e, .READ⟩, b⟩] }) H) := by
  refine owned_setWorker h ?_ (by simp) (holds_congr rfl ?_)
  · intro κ hw
    refine ⟨?_, (hw.tx w).ws, (hw.tx w).nodup, by simp, by simp⟩
    intro re hre
    rcases List.mem_append.mp hre with hre | hre
    · exact (hw.tx w).rs re hre
    · rw [List.mem_singleton.mp hre]
      exact (hw.tx w).body _ _ _ hpc
  · intro j we _
    simp [hpc, heldAt]

/-- The index is inside the write set. -/
theorem lt_of_getElem? {l : List (WriteElement K β)} {j : Nat} {x : WriteElement K β}
    (h : l[j]? = some x) : j < l.length :=
  (List.getElem?_eq_some_iff.mp h).1

end

omit [DecidableEq W] [DecidableEq K] [DecidableEq β] in
/-- Stepping over position `i` changes the ownership of `v` alone, where `v` is the
record at that position. -/
theorem holds_step (pc' : Pc K) {i : Nat} {we : WriteElement K β}
    (hwe : (s.workers w).write_set_[i]? = some we)
    (hh : ∀ op j, j ≠ i → (heldAt pc' op j ↔ heldAt (s.workers w).pc op j)) {u : ValuePtr}
    (hu : u ≠ we.value_) : Holds ((s.workers w).goto pc') u ↔ Holds (s.workers w) u := by
  have hne : ∀ j x, (s.workers w).write_set_[j]? = some x → x.value_ = u → j ≠ i := by
    rintro j x hx hv rfl
    rw [hwe] at hx
    obtain rfl := Option.some.inj hx
    exact hu hv.symm
  constructor
  · rintro ⟨j, x, hx, hv, hp⟩
    exact ⟨j, x, hx, hv, (hh _ j (hne j x hx hv)).mp hp⟩
  · rintro ⟨j, x, hx, hv, hp⟩
    exact ⟨j, x, hx, hv, (hh _ j (hne j x hx hv)).mpr hp⟩

section
omit [DecidableEq K] [DecidableEq β]

/-- The record at position `i` is held exactly if the control state says so. -/
theorem holds_at {κ : ValuePtr → Option K} {n : ValuePtr} {t : TxExecutor K β} (hw : TxWf κ n t) {i : Nat}
    {we : WriteElement K β} (hwe : t.write_set_[i]? = some we) :
    Holds t we.value_ ↔ heldAt t.pc we.op_ i := by
  constructor
  · rintro ⟨j, x, hx, hv, hp⟩
    obtain rfl := hw.index_unique hx hwe hv
    rw [hwe] at hx
    obtain rfl := Option.some.inj hx
    exact hp
  · intro hp
    exact ⟨i, we, hwe, rfl, hp⟩

theorem owned_locking (h : Owned s H) {i : Nat} {e : Option TIDword}
    (hpc : (s.workers w).pc = .locking i e) (hfree : ∀ x, e = some x → x.lock = false) :
    Owned (stepLocking s w (s.workers w) i e)
      (holders w s (stepLocking s w (s.workers w) i e) H) := by
  generalize hs : stepLocking s w (s.workers w) i e = s'
  cases lockings_of_stepLocking hs with
  | done hnone =>
    have hlen := List.getElem?_eq_none_iff.mp hnone
    refine owned_goto h rfl rfl (by simp) (by simp) (by simp) fun j we hj => ?_
    have := lt_of_getElem? hj
    simp only [goto_pc, hpc, heldAt, true_iff]
    exact Or.inr (by omega)
  | insert hwe hop =>
    refine owned_goto h rfl rfl (by simp) (by simp) (by simp) fun j x hj => ?_
    simp only [goto_pc, hpc, heldAt]
    by_cases hji : j = i
    · subst hji
      rw [hwe] at hj
      obtain rfl := Option.some.inj hj
      simp [hop]
    · constructor
      · rintro (ho | hlt)
        · exact Or.inl ho
        · exact Or.inr (by omega)
      · rintro (ho | hlt)
        · exact Or.inl ho
        · exact Or.inr (by omega)
  | load | reload =>
    refine owned_goto h rfl rfl (by simp) (by simp) (by simp) fun j x hj => ?_
    simp [hpc, heldAt]
  | @conflict we x hwe hop hl =>
    rw [hfree x rfl] at hl
    cases hl
  | @lock we x hwe hop hx hcas =>
    obtain ⟨κ, hw, hl⟩ := h
    have hclear : (s.tidword we.value_).lock = false := by rw [hcas, hx]
    refine ⟨κ, ?_, ?_⟩
    · refine hw.of_tx (w := w) (fun _ _ hk => hk) rfl (fun u hu => setWorker_other _ _ hu) ?_ ?_
      · intro v hv
        have hne : v ≠ we.value_ :=
          Nat.ne_of_gt (((hw.tx w).ws we (List.mem_of_getElem? hwe)).2.trans_le hv)
        rw [setWorker_tidword, setTid_tidword_other s _ hne]
      · rw [setWorker_self]
        exact (hw.tx w).of_sets rfl rfl (by simp) (by simp)
    · refine hl.of_acquire (v := we.value_) hclear (by simp) ?_ rfl (Nat.le_refl _)
        (fun u hu => setWorker_other _ _ hu) (by simp) ?_
      · intro u hu
        rw [setWorker_tidword, setTid_tidword_other s _ hu]
      · intro u
        rw [setWorker_self]
        by_cases hu : u = we.value_
        · subst hu
          refine iff_of_true ⟨i, we, hwe, rfl, Or.inr (Nat.lt_succ_self i)⟩ (Or.inr rfl)
        · have hstep := holds_step (.locking (i + 1) none) hwe
            (fun op j hj => by
              simp only [hpc, heldAt]
              constructor
              · rintro (ho | hlt)
                · exact Or.inl ho
                · exact Or.inr (by omega)
              · rintro (ho | hlt)
                · exact Or.inl ho
                · exact Or.inr (by omega)) hu
          rw [or_iff_left hu, ← hstep]
          rfl

/-- The store that clears the lock bit at position `i`. -/
theorem owned_release (h : Owned s H) {pc' : Pc K} {i : Nat} {we : WriteElement K β} {x : TIDword}
    (hwe : (s.workers w).write_set_[i]? = some we) (hx : x.lock = false)
    (hpc : ∀ k v e, pc' ≠ .readSpin k v e) (hpc₂ : ∀ k v e, pc' ≠ .readBody k v e)
    (hpc₃ : ∀ i stop e, pc' ≠ .unlockPrefix i stop e)
    (hold : heldAt (s.workers w).pc we.op_ i) (hnew : ¬ heldAt pc' we.op_ i)
    (hh : ∀ op j, j ≠ i → (heldAt pc' op j ↔ heldAt (s.workers w).pc op j)) :
    Owned ((s.setTid we.value_ x).setWorker w ((s.workers w).goto pc'))
      (holders w s ((s.setTid we.value_ x).setWorker w ((s.workers w).goto pc')) H) := by
  obtain ⟨κ, hw, hl⟩ := h
  have htx : TxWf κ s.next ((s.workers w).goto pc') := (hw.tx w).of_sets rfl rfl hpc hpc₂
  refine ⟨κ, ?_, ?_⟩
  · refine hw.of_tx (w := w) (fun _ _ hk => hk) rfl (fun u hu => setWorker_other _ _ hu) ?_
      (by rw [setWorker_self]; exact htx)
    intro v hv
    have hne : v ≠ we.value_ :=
      Nat.ne_of_gt (((hw.tx w).ws we (List.mem_of_getElem? hwe)).2.trans_le hv)
    rw [setWorker_tidword, setTid_tidword_other s _ hne]
  · refine hl.of_release (v := we.value_) ⟨i, we, hwe, rfl, hold⟩ (by simpa using hx) ?_ rfl rfl
      (fun u hu => setWorker_other _ _ hu) (by rw [setWorker_self]; exact hpc₃) ?_
    · intro u hu
      rw [setWorker_tidword, setTid_tidword_other s _ hu]
    · intro u
      rw [setWorker_self]
      by_cases hu : u = we.value_
      · subst hu
        refine iff_of_false ?_ (fun hc => hc.2 rfl)
        rw [holds_at htx hwe]
        exact hnew
      · rw [holds_step pc' hwe hh hu]
        exact (and_iff_left hu).symm

theorem owned_unlocking (h : Owned s H) {i : Nat} {e : Option TIDword}
    (hpc : (s.workers w).pc = .unlocking i e) :
    let s' := stepUnlock s w (s.workers w) i (s.workers w).write_set_.length e
      (fun j x => .unlocking j x) (.aborting 0)
    Owned s' (holders w s s' H) := by
  have hdone : (s.workers w).write_set_.length ≤ i →
      Owned (s.setWorker w ((s.workers w).goto (.aborting 0)))
        (holders w s (s.setWorker w ((s.workers w).goto (.aborting 0))) H) := by
    intro hlen
    refine owned_goto h rfl rfl (by simp) (by simp) (by simp) fun j x hj => ?_
    have := lt_of_getElem? hj
    simp only [goto_pc, hpc, heldAt, Nat.zero_le, and_true]
    constructor
    · exact Or.inl
    · rintro (ho | hle)
      · exact ho
      · omega
  have hnext : ∀ op j, j ≠ i →
      (heldAt (Pc.unlocking (i + 1) none : Pc K) op j ↔ heldAt (s.workers w).pc op j) := by
    intro op j hj
    simp only [hpc, heldAt]
    constructor
    · rintro (ho | hle)
      · exact Or.inl ho
      · exact Or.inr (by omega)
    · rintro (ho | hle)
      · exact Or.inl ho
      · exact Or.inr (by omega)
  dsimp only
  generalize hs : stepUnlock s w (s.workers w) i _ e _ _ = s'
  cases unlocks_of_stepUnlock hs with
  | done hend => exact hdone (hend.elim id List.getElem?_eq_none_iff.mp)
  | insert hlt hwe hop =>
    refine owned_goto h rfl rfl (by simp) (by simp) (by simp) fun j x hj => ?_
    by_cases hji : j = i
    · subst hji
      rw [hwe] at hj
      obtain rfl := Option.some.inj hj
      simp [hpc, heldAt, hop]
    · exact hnext _ j hji
  | load =>
    refine owned_goto h rfl rfl (by simp) (by simp) (by simp) fun j x hj => ?_
    simp [hpc, heldAt]
  | unlock hlt hwe hop =>
    refine owned_release h hwe rfl (by simp) (by simp) (by simp) ?_ ?_ hnext
    · simp [hpc, heldAt]
    · simp [heldAt, hop]

end

section
omit [DecidableEq β]

theorem owned_validating (h : Owned s H) {i : Nat} (hpc : (s.workers w).pc = .validating i) :
    Owned (stepValidating s w (s.workers w) i)
      (holders w s (stepValidating s w (s.workers w) i) H) := by
  unfold stepValidating
  split
  · obtain ⟨κ, hw, hl⟩ := owned_goto h
      (show (s.workers w).enterWritePhase.read_set_ = (s.workers w).read_set_ from rfl) rfl
      (by simp [TxExecutor.enterWritePhase]) (by simp [TxExecutor.enterWritePhase])
      (by simp [TxExecutor.enterWritePhase])
      (fun j x hj => by simp [TxExecutor.enterWritePhase, hpc, heldAt])
    exact ⟨κ, ⟨hw.tree, hw.tx, hw.above⟩, ⟨hl.bit, hl.owner, hl.only, hl.freed, hl.through⟩⟩
  dsimp only
  split
  · exact owned_goto h rfl rfl (by simp) (by simp) (by simp)
      (fun j x hj => by simp [hpc, heldAt])
  · exact owned_goto h rfl rfl (by simp) (by simp) (by simp)
      (fun j x hj => by simp [hpc, heldAt])

theorem owned_aborting (h : Owned s H) {i : Nat} (hpc : (s.workers w).pc = .aborting i) :
    Owned (stepAborting s w (s.workers w) i) (holders w s (stepAborting s w (s.workers w) i) H) := by
  unfold stepAborting
  split
  · rename_i hnone
    have hlen := List.getElem?_eq_none_iff.mp hnone
    refine owned_setWorker h ?_ (by simp) ?_
    · intro κ _
      constructor <;> simp
    · intro v
      refine iff_of_false ?_ ?_
      · rintro ⟨j, x, hx, _⟩
        simp at hx
      · rintro ⟨j, x, hx, _, hp⟩
        have := lt_of_getElem? hx
        simp only [hpc, heldAt] at hp
        omega
  rename_i we hwe
  have hstep : ∀ op j, j ≠ i →
      (heldAt (Pc.aborting (i + 1) : Pc K) op j ↔ heldAt (s.workers w).pc op j) := by
    intro op j hj
    simp only [hpc, heldAt]
    constructor
    · rintro ⟨ho, hle⟩
      exact ⟨ho, by omega⟩
    · rintro ⟨ho, hle⟩
      exact ⟨ho, by omega⟩
  split
  · rename_i hop
    obtain ⟨κ, hw, hl⟩ := h
    have htx : TxWf κ s.next ((s.workers w).goto (.aborting (i + 1))) :=
      (hw.tx w).of_sets rfl rfl (by simp) (by simp)
    have hmine : Holds (s.workers w) we.value_ :=
      (holds_at (hw.tx w) hwe).mpr (by simp [hpc, heldAt, hop])
    refine ⟨κ, ?_, ?_⟩
    · refine hw.of_tx (w := w) ?_ rfl (fun u hu => setWorker_other _ _ hu) (fun _ _ => rfl)
        (by simpa using htx)
      intro k v hk
      by_cases hkey : k = we.key_
      · subst hkey
        simp at hk
      · simpa [hkey] using hk
    · have hsame : ∀ s' : State W K β, (∀ v, s'.tidword v = s.tidword v) → holders w s s' H = H :=
        fun s' hs => holders_same H fun v => by rw [hs v]
      rw [hsame]
      swap
      · intro v
        rfl
      refine ⟨hl.bit, ?_, ?_, ?_, ?_⟩
      · intro u v hv
        by_cases hu : u = w
        · subst hu
          simp only [setWorker_self] at hv
          by_cases hvw : v = we.value_
          · subst hvw
            exact hl.owner u _ hmine
          · exact hl.owner u v ((holds_step _ hwe hstep hvw).mp hv)
        · simp only [setWorker_other s _ hu] at hv
          exact hl.owner u v hv
      · intro u v hf hv
        simp only [List.mem_cons, not_or] at hf
        have ho := hl.only u v hf.2 hv
        by_cases hu : u = w
        · subst hu
          simp only [setWorker_self]
          exact (holds_step _ hwe hstep hf.1).mpr ho
        · simp only [setWorker_other s _ hu]
          exact ho
      · intro v hv
        rcases List.mem_cons.mp hv with rfl | hv
        · exact ((hw.tx w).ws we (List.mem_of_getElem? hwe)).2
        · exact hl.freed v hv
      · intro u
        by_cases hu : u = w
        · subst hu; simp
        · simp only [setWorker_other s _ hu]
          exact hl.through u
  · rename_i hop
    refine owned_goto h rfl rfl (by simp) (by simp) (by simp) fun j x hj => ?_
    by_cases hji : j = i
    · subst hji
      rw [hwe] at hj
      obtain rfl := Option.some.inj hj
      simp [hpc, heldAt, hop]
    · exact hstep _ j hji

end

omit [DecidableEq K] [DecidableEq β] in
theorem owned_writing (h : Owned s H) {i : Nat} {m : TIDword} {b : Bool}
    (hpc : (s.workers w).pc = .writing i m b) (hm : m.lock = false) {s' : State W K β}
    (hs : stepWriting s w (s.workers w) i m b = some s') : Owned s' (holders w s s' H) := by
  have hrel : ∀ {we : WriteElement K β}, (s.workers w).write_set_[i]? = some we →
      ∀ x : TIDword, x.lock = false → ∀ m' : TIDword,
      Owned ((s.setTid we.value_ x).setWorker w ((s.workers w).goto (.writing (i + 1) m' false)))
        (holders w s
          ((s.setTid we.value_ x).setWorker w ((s.workers w).goto (.writing (i + 1) m' false))) H) := by
    intro we hwe x hx m'
    refine owned_release h hwe hx (by simp) (by simp) (by simp) ?_ ?_ ?_
    · simp [hpc, heldAt]
    · simp [heldAt]
    · intro op j hj
      simp only [hpc, heldAt]
      omega
  cases writings_of_stepWriting hs with
  | finish hnone =>
    have hlen := List.getElem?_eq_none_iff.mp hnone
    refine owned_goto h rfl rfl (by simp) (by simp) (by simp) fun j x hj => ?_
    have := lt_of_getElem? hj
    simp only [goto_pc, hpc, heldAt, false_iff]
    omega
  | body =>
    obtain ⟨κ, hw, hl⟩ := h
    have htx : TxWf κ s.next ((s.workers w).goto (.writing i m true)) :=
      (hw.tx w).of_sets rfl rfl (by simp) (by simp)
    refine ⟨κ, ?_, ?_⟩
    · exact hw.of_tx (w := w) (fun _ _ hk => hk) rfl (fun u hu => setWorker_other _ _ hu)
        (fun v _ => by simp) (by rw [setWorker_self]; exact htx)
    · refine hl.of_local (fun v => by simp) rfl rfl (fun u hu => setWorker_other _ _ hu)
        (by simp) ?_
      rw [setWorker_self]
      exact holds_congr rfl fun j x hj => by simp [hpc, heldAt]
  | write hwe => exact hrel hwe m hm m
  | insert hwe => exact hrel hwe { m with absent := false } hm _
  | delete hwe => exact hrel hwe { m with absent := true } hm _

end

/-- The words that `writePhase` is about to store have a clear lock bit. -/
def UnlockedTids (s : State W K β) : Prop :=
  ∀ w i m b, (s.workers w).pc = .writing i m b → m.lock = false

omit [DecidableEq K] [DecidableEq β] in
theorem unlockedTids_setWorker {s : State W K β} (h : UnlockedTids s) {s' : State W K β} {w : W}
    (hother : ∀ u, u ≠ w → s'.workers u = s.workers u)
    (hself : ∀ i m b, (s'.workers w).pc = .writing i m b → m.lock = false) : UnlockedTids s' := by
  intro u i m b hp
  by_cases hu : u = w
  · subst hu; exact hself i m b hp
  · rw [hother u hu] at hp
    exact h u i m b hp

/-- What is known of every state of a run without lock conflicts. -/
def Inv (s : State W K β) (H : ValuePtr → Option W) : Prop := Owned s H ∧ UnlockedTids s

section
variable [Inhabited β] {s s' : State W K β} {H : ValuePtr → Option W} {w : W}

section
omit [DecidableEq β] [Inhabited β]

theorem unlockedTids_tick (hu : UnlockedTids s) (hs : tick s w (s.workers w) = some s') :
    UnlockedTids s' := by
  refine unlockedTids_setWorker hu (fun u hx => tick_other hs hx) ?_
  cases ticks_of_tick hs with
  | readSpin =>
    intro i m b hp
    simp only [setWorker_self, stepReadSpin] at hp
    split_ifs at hp
    all_goals simp [TxExecutor.refuse] at hp
  | readBody | loadEpoch | storeEpoch => simp
  | @locking i e =>
    generalize hs' : stepLocking s w (s.workers w) i e = s'
    cases lockings_of_stepLocking hs'
    all_goals simp
  | unlockPrefix | unlocking =>
    generalize hs' : stepUnlock s w (s.workers w) _ _ _ _ _ = s'
    cases unlocks_of_stepUnlock hs'
    all_goals simp
  | validating =>
    unfold stepValidating
    split
    · intro i m b hp
      simp only [setWorker_self, TxExecutor.enterWritePhase, Pc.writing.injEq] at hp
      obtain ⟨_, rfl, _⟩ := hp
      rfl
    · dsimp only
      split <;> simp
  | aborting =>
    unfold stepAborting
    repeat' split
    all_goals simp
  | @writing i m b _ hpc hs =>
    have hm := hu w i m b hpc
    cases writings_of_stepWriting hs
    all_goals simp [hm]

theorem owned_tick (ho : Owned s H) (hu : UnlockedTids s) (hfree : NoLockConflict s (.work w .tick))
    (hs : tick s w (s.workers w) = some s') : Owned s' (holders w s s' H) := by
  cases ticks_of_tick hs with
  | readSpin hpc => exact owned_readSpin ho hpc
  | readBody hpc => exact owned_readBody ho hpc _
  | locking hpc =>
    refine owned_locking ho hpc ?_
    rintro x rfl
    exact hfree.free hpc
  | @unlockPrefix i stop e hpc =>
    obtain ⟨κ, _, hl⟩ := ho
    exact absurd hpc (hl.through w i stop e)
  | loadEpoch hpc | storeEpoch hpc =>
    exact owned_goto ho rfl rfl (by simp) (by simp) (by simp) fun j x _ => by simp [hpc, heldAt]
  | validating hpc => exact owned_validating ho hpc
  | unlocking hpc => exact owned_unlocking ho hpc
  | aborting hpc => exact owned_aborting ho hpc
  | @writing i m b _ hpc hs => exact owned_writing ho hpc (hu w i m b hpc) hs

end

theorem unlockedTids_work (hu : UnlockedTids s) {op : Op K β} (hs : work s w op = some s') :
    UnlockedTids s' := by
  refine unlockedTids_setWorker hu (fun u hx => work_other hs hx) ?_
  cases works_of_work hs with
  | tick hs => exact unlockedTids_tick hu hs w
  | begin | validate => simp [TxExecutor.begin]
  | read hpc =>
    rw [setWorker_self]
    unfold read
    repeat' split
    all_goals simp [hpc, TxExecutor.refuse]
  | write hpc =>
    rw [setWorker_self]
    unfold write
    repeat' split
    all_goals simp [hpc, TxExecutor.refuse]
  | insert hpc =>
    unfold insert
    repeat' split
    all_goals simp [hpc, TxExecutor.refuse]
  | delete hpc =>
    rw [setWorker_self]
    unfold tx_delete
    repeat' split
    all_goals simp [hpc, TxExecutor.refuse]

theorem owned_work (ho : Owned s H) (hu : UnlockedTids s) {op : Op K β}
    (hfree : NoLockConflict s (.work w op)) (hs : work s w op = some s') : Owned s' (holders w s s' H) := by
  cases works_of_work hs with
  | tick hs => exact owned_tick ho hu hfree hs
  | begin hpc => exact owned_begin ho hpc
  | read hpc => exact owned_read ho hpc _
  | write hpc => exact owned_write ho hpc _ _
  | insert hpc => exact owned_insert ho hpc _ _
  | delete hpc => exact owned_delete ho hpc _ _
  | validate hpc hperm => exact owned_validate ho hpc hperm

theorem inv_work (h : Inv s H) {op : Op K β} (hfree : NoLockConflict s (.work w op))
    (hs : work s w op = some s') : Inv s' (holders w s s' H) :=
  ⟨owned_work h.1 h.2 hfree hs, unlockedTids_work h.2 hs⟩

/-- A step of `w` clears no lock bit but those that `w` holds. -/
theorem clears_held (h : Inv s H) {op : Op K β} (hs : work s w op = some s') {v : ValuePtr}
    (h1 : (s.tidword v).lock = true) (h2 : (s'.tidword v).lock = false) :
    Holds (s.workers w) v := by
  obtain ⟨⟨κ, hw, hl⟩, _⟩ := h
  have hsame : s'.tidword v = s.tidword v → False := by
    intro ht
    rw [ht, h1] at h2
    cases h2
  cases works_of_work hs with
  | begin | read | write | delete | validate => exact (hsame rfl).elim
  | insert =>
    have hne : v ≠ s.next := by
      rintro rfl
      rw [hw.above _ (Nat.le_refl _)] at h1
      cases h1
    refine (hsame ?_).elim
    unfold insert
    repeat' split
    · rfl
    · rfl
    · simp [State.tidword, hne]
  | tick hs =>
    cases ticks_of_tick hs with
    | readSpin | readBody | loadEpoch | storeEpoch => exact (hsame rfl).elim
    | @locking i e =>
      generalize hs' : stepLocking s w (s.workers w) i e = s' at h2 hsame
      cases lockings_of_stepLocking hs' with
      | @lock we =>
        by_cases hv : v = we.value_
        · subst hv
          simp at h2
        · exact (hsame (setTid_tidword_other s _ hv)).elim
      | _ => exact (hsame rfl).elim
    | unlockPrefix hpc => exact absurd hpc (hl.through w _ _ _)
    | validating =>
      refine (hsame ?_).elim
      simp only [stepValidating]
      repeat' split
      all_goals rfl
    | @unlocking i e hpc =>
      generalize hs' : stepUnlock s w (s.workers w) i _ e _ _ = s' at h2 hsame
      cases unlocks_of_stepUnlock hs' with
      | @unlock we _ _ hwe =>
        by_cases hv : v = we.value_
        · subst hv
          exact ⟨i, we, hwe, rfl, by simp [hpc, heldAt]⟩
        · exact (hsame (setTid_tidword_other s _ hv)).elim
      | _ => exact (hsame rfl).elim
    | aborting =>
      refine (hsame ?_).elim
      unfold stepAborting
      repeat' split
      all_goals rfl
    | @writing i m b _ hpc hs =>
      cases writings_of_stepWriting hs with
      | finish | body => exact (hsame (by simp)).elim
      | @write we hwe | @insert _ we hwe | @delete _ we hwe =>
        by_cases hv : v = we.value_
        · subst hv
          exact ⟨i, we, hwe, rfl, by simp [hpc, heldAt]⟩
        · exact (hsame (by simp [setTid_tidword_other s _ hv])).elim

end

section
variable [Inhabited β]

/-- The machine with the record of who set each lock bit beside it. -/
def ownerStep (x : State W K β × (ValuePtr → Option W)) (a : Action W K β) :
    Option (State W K β × (ValuePtr → Option W)) :=
  (step x.1 a).map fun s' => (s', match a with
    | .work w _ => holders w x.1 s' x.2
    | .advanceEpoch => x.2)

def ownerInit (x : State W K β × (ValuePtr → Option W)) : Prop :=
  Init x.1 ∧ x.2 = fun _ => none

/-- A worker in `writePhase` has itself set, and not released, the lock bit of every
record it has yet to write, inserts apart; no two workers hold one lock; only the
worker that set a bit clears it; and, deleted records apart, a worker is on record
for exactly the locks it holds, so what it releases is what it took. -/
structure LockOwnership (x : State W K β × (ValuePtr → Option W)) : Prop where
  writePhase : ∀ w i m b, (x.1.workers w).pc = .writing i m b →
    ∀ j we, i ≤ j → (x.1.workers w).write_set_[j]? = some we → we.op_ ≠ .INSERT →
      (x.1.tidword we.value_).lock = true ∧ x.2 we.value_ = some w
  exclusive : ∀ w w' v, Holds (x.1.workers w) v → Holds (x.1.workers w') v → w = w'
  clears : ∀ a x', ownerStep x a = some x' →
    ∀ v, (x.1.tidword v).lock = true → (x'.1.tidword v).lock = false →
      ∃ w op, a = .work w op ∧ x.2 v = some w
  exact : ∀ w v, v ∉ x.1.freed → (x.2 v = some w ↔ Holds (x.1.workers w) v)

omit [DecidableEq W] [DecidableEq K] [DecidableEq β] [Inhabited β] in
theorem owned_init {s : State W K β} (h : Init s) : Inv s (fun _ => none : ValuePtr → Option W) := by
  classical
  have hnew : ∀ w v, ¬ Holds (s.workers w) v := by
    rintro w v ⟨j, we, hj, _⟩
    rw [h.workers w] at hj
    simp [TxExecutor.new] at hj
  refine ⟨?_, fun w i m b hp => by rw [h.workers w] at hp; simp [TxExecutor.new] at hp⟩
  let κ : ValuePtr → Option K := fun v => if hv : ∃ k, s.tree k = some v then some hv.choose else none
  have hκ : ∀ k v, s.tree k = some v → κ v = some k := by
    intro k v hk
    have hv : ∃ k, s.tree k = some v := ⟨k, hk⟩
    simp only [κ, hv, ↓reduceDIte]
    exact congrArg some (h.inj _ _ v hv.choose_spec hk)
  refine ⟨κ, ⟨fun k v hk => ⟨hκ k v hk, h.below k v hk⟩, ?_, fun v _ => h.unlocked v⟩, ?_⟩
  · intro w
    rw [h.workers w]
    constructor <;> simp [TxExecutor.new]
  · refine ⟨fun v => by simp [h.unlocked v], fun w v hv => absurd hv (hnew w v), by simp, ?_, ?_⟩
    · simp [h.freed]
    · intro w
      simp [h.workers w, TxExecutor.new]

theorem inv_step {x x' : State W K β × (ValuePtr → Option W)} {a : Action W K β}
    (h : Inv x.1 x.2) (hok : NoLockConflict x.1 a) (hs : ownerStep x a = some x') :
    Inv x'.1 x'.2 := by
  unfold ownerStep at hs
  cases a with
  | work w op =>
    cases hw : work x.1 w op with
    | none => simp [step, hw] at hs
    | some s' =>
      simp only [step, hw, Option.map_some, Option.some.injEq] at hs
      subst hs
      exact inv_work h hok hw
  | advanceEpoch =>
    simp only [step, Option.map_some, Option.some.injEq] at hs
    subst hs
    obtain ⟨⟨κ, hw, hl⟩, hu⟩ := h
    exact ⟨⟨κ, ⟨hw.tree, hw.tx, hw.above⟩, ⟨hl.bit, hl.owner, hl.only, hl.freed, hl.through⟩⟩, hu⟩

theorem inv_reach {x : State W K β × (ValuePtr → Option W)}
    (h : Reach ownerStep ownerInit (fun y => NoLockConflict y.1) x) : Inv x.1 x.2 := by
  refine Reach.invariant (I := fun y => Inv y.1 y.2) ?_ ?_ h
  · rintro y ⟨h0, hH⟩
    rw [hH]
    exact owned_init h0
  · intro y a y' hy hok hs
    exact inv_step hy hok hs

/-- In every run in which `lockWriteSet` never finds a lock bit set, the locks are
owned as the protocol intends, in every state reached. -/
theorem lock_ownership {x : State W K β × (ValuePtr → Option W)}
    (h : Reach ownerStep ownerInit (fun y => NoLockConflict y.1) x) : LockOwnership x := by
  have hinv := inv_reach h
  obtain ⟨⟨κ, hw, hl⟩, hu⟩ := id hinv
  refine ⟨?_, ?_, ?_, ?_⟩
  · intro w i m b hpc j we hij hwe _
    have hheld : Holds (x.1.workers w) we.value_ := ⟨j, we, hwe, rfl, by simpa [hpc, heldAt] using hij⟩
    have ho := hl.owner w _ hheld
    exact ⟨by rw [hl.bit, ho]; rfl, ho⟩
  · intro w w' v h1 h2
    exact Option.some.inj ((hl.owner w v h1).symm.trans (hl.owner w' v h2))
  · intro a x' hs v h1 h2
    cases a with
    | advanceEpoch =>
      simp only [ownerStep, step, Option.map_some, Option.some.injEq] at hs
      subst hs
      exact absurd (h1.symm.trans h2) (by simp)
    | work w op =>
      cases hstep : work x.1 w op with
      | none => simp [ownerStep, step, hstep] at hs
      | some s' =>
        simp only [ownerStep, step, hstep, Option.map_some, Option.some.injEq] at hs
        subst hs
        exact ⟨w, op, rfl, hl.owner w v (clears_held hinv hstep h1 h2)⟩
  · intro w v hf
    exact ⟨hl.only w v hf, hl.owner w v⟩

end

/-- One record under one key. -/
def oneRecord : State Bool Nat Nat where
  mem _ := ⟨.new, 0⟩
  tree k := if k = 0 then some 0 else none
  next := 1
  freed := []
  GlobalEpoch := 1
  workers _ := .new
  committed := []

theorem oneRecord_init : Init oneRecord where
  workers _ := rfl
  committed := rfl
  freed := rfl
  unlocked _ := rfl
  below k v h := by
    simp only [oneRecord] at h ⊢
    split at h
    · obtain rfl := Option.some.inj h
      decide
    · cases h
  inj k k' v h h' := by
    simp only [oneRecord] at h h'
    split at h <;> split at h' <;> simp_all

/-- Two workers write the same key; the second one meets the lock of the first. -/
def conflictSchedule : List (Action Bool Nat Nat) :=
  [.work false .begin, .work false (.write 0 10), .work false (.validate [⟨0, 0, 10, .WRITE⟩]),
   .work false .tick, .work false .tick,
   .work true .begin, .work true (.write 0 20), .work true (.validate [⟨0, 0, 20, .WRITE⟩]),
   .work true .tick, .work true .tick, .work true .tick, .work true .tick, .work true .tick,
   .work true .tick]

theorem conflictSchedule_runs :
    (exec ownerStep (oneRecord, fun _ => none) conflictSchedule).isSome := by decide

/-- The second worker reaches `writePhase` while the first one holds the lock. -/
theorem lock_ownership_conflict :
    ¬ ∀ x : State Bool Nat Nat × (ValuePtr → Option Bool),
      Reach ownerStep ownerInit anyStep x → LockOwnership x := by
  intro h
  have hown := h _ (reach_get ⟨oneRecord_init, rfl⟩ conflictSchedule_runs)
  have hpc : ((((exec ownerStep (oneRecord, fun _ => none) conflictSchedule).get
      conflictSchedule_runs).1).workers true).pc =
        .writing 0 (commitTid .zero .zero .new 1) false := by decide
  have hwrong := (hown.writePhase true 0 _ false hpc 0 ⟨0, 0, 20, .WRITE⟩ (Nat.le_refl 0) (by decide)
    (by decide)).2
  have hholder : ((exec ownerStep (oneRecord, fun _ => none) conflictSchedule).get
      conflictSchedule_runs).2 0 = some false := by decide
  rw [hholder] at hwrong
  cases hwrong

/-- One worker alone, up to `writePhase`. -/
def singleSchedule : List (Action Bool Nat Nat) :=
  [.work false .begin, .work false (.write 0 10), .work false (.validate [⟨0, 0, 10, .WRITE⟩]),
   .work false .tick, .work false .tick, .work false .tick, .work false .tick, .work false .tick,
   .work false .tick]

theorem singleSchedule_runs :
    (exec ownerStep (oneRecord, fun _ => none) singleSchedule).isSome := by decide

theorem singleSchedule_admits :
    Admits ownerStep (fun y => NoLockConflict y.1)
      (oneRecord, fun _ => (none : Option Bool)) singleSchedule := by decide

theorem lock_ownership_single :
    ((((exec ownerStep (oneRecord, fun _ => none) singleSchedule).get
        singleSchedule_runs).1).workers false).pc =
          .writing 0 (commitTid .zero .new .new 1) false ∧
      LockOwnership ((exec ownerStep (oneRecord, fun _ => none) singleSchedule).get
        singleSchedule_runs) :=
  ⟨by decide, lock_ownership
    (reach_get_of_admits ⟨oneRecord_init, rfl⟩ singleSchedule_admits singleSchedule_runs)⟩

end Cassa.SiloCC.Occ

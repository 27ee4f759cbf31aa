import Cassa.SiloCC.Versions

/-!
# The commit TID against everything observed

`lockWriteSet` and `validationPhase` fold the words they observe into `max_wset_` and
`max_rset_` by the order of the packed words, flags included, and `writePhase` takes the
largest of three incremented candidates. `observe` remembers the words themselves along
a run: those with which a lock was taken and those that validation let pass. The commit
TID has a larger version than each of them, whatever the other workers do meanwhile.

A store of a commit TID then raises the version of its record, and nothing else changes
the version of a record, as long as `lockWriteSet` finds no lock.
-/

namespace Cassa.SiloCC.Occ

open Cassa.Lib.Runs

variable {W K β : Type} [DecidableEq W] [DecidableEq K] [DecidableEq β]

/-- The words that each worker has observed in the validation phase it is in. -/
abbrev Observations (W : Type) := W → List (ValuePtr × TIDword)

/-- The word that the next step observes: the one that the compare-and-swap of
`lockWriteSet` replaces, or the one that `validationPhase` loads and lets pass. -/
def observation (s : State W K β) (w : W) : Option (ValuePtr × TIDword) :=
  let t := s.workers w
  match t.pc with
  | .locking i (some e) =>
    match t.write_set_[i]? with
    | some we =>
      if we.op_ ≠ .INSERT ∧ e.lock = false ∧ s.tidword we.value_ = e then some (we.value_, e) else none
    | none => none
  | .validating i =>
    match t.read_set_[i]? with
    | some re =>
      let check := s.tidword re.value_
      if validationFails t re check then none else some (re.value_, check)
    | none => none
  | _ => none

def observe (s : State W K β) (o : Observations W) : Action W K β → Observations W
  | .work w (.validate _) => Function.update o w []
  | .work w .tick => Function.update o w (o w ++ (observation s w).toList)
  | _ => o

section
variable [Inhabited β]

def observeStep (x : State W K β × Observations W) (a : Action W K β) :
    Option (State W K β × Observations W) :=
  (step x.1 a).map fun s' => (s', observe x.1 x.2 a)

end

def observeInit (x : State W K β × Observations W) : Prop := Init x.1 ∧ x.2 = fun _ => []

/-- The two maxima are observed words, and no observed word has a larger version. -/
structure Bounded (max_rset max_wset : TIDword) (o : List (ValuePtr × TIDword)) : Prop where
  rset : max_rset = .zero ∨ ∃ p ∈ o, p.2 = max_rset
  wset : max_wset = .zero ∨ ∃ p ∈ o, p.2 = max_wset
  le : ∀ p ∈ o, p.2.ver ≤ (TIDword.max max_rset max_wset).ver

theorem bounded_nil : Bounded .zero .zero [] := ⟨Or.inl rfl, Or.inl rfl, by simp⟩

section
variable {r m : TIDword} {o : List (ValuePtr × TIDword)}

theorem mem_or_zero_snoc {x y : TIDword} {p : ValuePtr × TIDword} (hp : p.2 = y)
    (h : x = .zero ∨ ∃ q ∈ o, q.2 = x) {z : TIDword} (hz : z = x ∨ z = y) :
    z = .zero ∨ ∃ q ∈ o ++ [p], q.2 = z := by
  rcases hz with rfl | rfl
  · rcases h with h | ⟨q, hq, hqx⟩
    · exact Or.inl h
    · exact Or.inr ⟨q, List.mem_append_left _ hq, hqx⟩
  · exact Or.inr ⟨p, by simp, hp⟩

theorem Bounded.check (h : Bounded r m o) (v : ValuePtr) (x : TIDword) :
    Bounded (TIDword.max r x) m (o ++ [(v, x)]) where
  rset := mem_or_zero_snoc rfl h.rset ((TIDword.max_cases r x).imp And.left And.left)
  wset := mem_or_zero_snoc (x := m) (y := x) rfl h.wset (Or.inl rfl)
  le := by
    intro p hp
    rw [TIDword.ver_max, TIDword.ver_max]
    rcases List.mem_append.mp hp with hp | hp
    · have := h.le p hp
      rw [TIDword.ver_max] at this
      omega
    · obtain rfl := List.mem_singleton.mp hp
      simp only
      omega

theorem Bounded.lock (h : Bounded r m o) (v : ValuePtr) (x : TIDword) :
    Bounded r (TIDword.max m x) (o ++ [(v, x)]) where
  rset := mem_or_zero_snoc (x := r) (y := x) rfl h.rset (Or.inl rfl)
  wset := mem_or_zero_snoc rfl h.wset ((TIDword.max_cases m x).imp And.left And.left)
  le := by
    intro p hp
    rw [TIDword.ver_max, TIDword.ver_max]
    rcases List.mem_append.mp hp with hp | hp
    · have := h.le p hp
      rw [TIDword.ver_max] at this
      omega
    · obtain rfl := List.mem_singleton.mp hp
      simp only
      omega

/-- The last TID of the 29 bits is not among the observed ones, so it is not the larger
maximum either. -/
theorem Bounded.tid_ne (h : Bounded r m o) (hTID : ∀ p ∈ o, p.2.TID.toNat ≠ 2 ^ 29 - 1) :
    (TIDword.max r m).TID.toNat ≠ 2 ^ 29 - 1 := by
  have hone : ∀ x : TIDword, (x = .zero ∨ ∃ p ∈ o, p.2 = x) → x.TID.toNat ≠ 2 ^ 29 - 1 := by
    rintro x (rfl | ⟨p, hp, rfl⟩)
    · simp [TIDword.zero]
    · exact hTID p hp
  rcases TIDword.max_cases r m with ⟨he, -⟩ | ⟨he, -⟩
  · rw [he]; exact hone r h.rset
  · rw [he]; exact hone m h.wset

end

/-- The first `n` elements of the write set have been observed, the inserted ones apart. -/
def LockedTo (t : TxExecutor K β) (o : List (ValuePtr × TIDword)) (n : Nat) : Prop :=
  ∀ j we, j < n → t.write_set_[j]? = some we → we.op_ ≠ .INSERT → ∃ x, (we.value_, x) ∈ o

/-- The first `n` elements of the read set have been observed at the version they have there. -/
def CheckedTo (t : TxExecutor K β) (o : List (ValuePtr × TIDword)) (n : Nat) : Prop :=
  ∀ j re, j < n → t.read_set_[j]? = some re → ∃ x, (re.value_, x) ∈ o ∧ x.ver = re.tidword_.ver

/-- A failed `lockWriteSet` leaves `status_` at `Aborted`, and the phase goes on. -/
def AllLocked (t : TxExecutor K β) (o : List (ValuePtr × TIDword)) : Prop :=
  t.status_ = .InFlight → LockedTo t o t.write_set_.length

def PhaseObserved (t : TxExecutor K β) (o : List (ValuePtr × TIDword)) : Prop :=
  match t.pc with
  | .running => t.status_ = .InFlight ∧ t.max_rset_ = .zero ∧ t.max_wset_ = .zero
  | .readSpin _ _ _ => t.status_ = .InFlight ∧ t.max_rset_ = .zero ∧ t.max_wset_ = .zero
  | .readBody _ _ _ => t.status_ = .InFlight ∧ t.max_rset_ = .zero ∧ t.max_wset_ = .zero
  | .locking i _ => Bounded t.max_rset_ t.max_wset_ o ∧ LockedTo t o i
  | .unlockPrefix _ _ _ => Bounded t.max_rset_ t.max_wset_ o ∧ t.status_ = .Aborted
  | .loadEpoch => Bounded t.max_rset_ t.max_wset_ o ∧ AllLocked t o
  | .storeEpoch _ => Bounded t.max_rset_ t.max_wset_ o ∧ AllLocked t o
  | .validating i => Bounded t.max_rset_ t.max_wset_ o ∧ AllLocked t o ∧ CheckedTo t o i
  | _ => True

/-- Every inserted record is in the read set too. -/
def InsertsRead (t : TxExecutor K β) : Prop :=
  ∀ we ∈ t.write_set_, we.op_ = .INSERT → ∃ re ∈ t.read_set_, re.value_ = we.value_

structure Observed (t : TxExecutor K β) (o : List (ValuePtr × TIDword)) : Prop where
  inserts : InsertsRead t
  phase : PhaseObserved t o

section
variable {t t' : TxExecutor K β} {o : List (ValuePtr × TIDword)}

section
omit [DecidableEq K] [DecidableEq β]

theorem LockedTo.mono {n : Nat} (h : LockedTo t o n) (p : List (ValuePtr × TIDword))
    (hw : t'.write_set_ = t.write_set_) : LockedTo t' (o ++ p) n := by
  intro j we hj hwe hop
  rw [hw] at hwe
  obtain ⟨x, hx⟩ := h j we hj hwe hop
  exact ⟨x, List.mem_append_left _ hx⟩

theorem CheckedTo.mono {n : Nat} (h : CheckedTo t o n) (p : List (ValuePtr × TIDword))
    (hr : t'.read_set_ = t.read_set_) : CheckedTo t' (o ++ p) n := by
  intro j re hj hre
  rw [hr] at hre
  obtain ⟨x, hx, hver⟩ := h j re hj hre
  exact ⟨x, List.mem_append_left _ hx, hver⟩

theorem InsertsRead.of_sets (h : InsertsRead t) (hr : t'.read_set_ = t.read_set_)
    (hw : t'.write_set_ = t.write_set_) : InsertsRead t' := by
  intro we hwe hop
  rw [hw] at hwe
  rw [hr]
  exact h we hwe hop

theorem InsertsRead.append (h : InsertsRead t) {we : WriteElement K β} (hop : we.op_ ≠ .INSERT) :
    InsertsRead { t with write_set_ := t.write_set_ ++ [we] } := by
  intro x hx hxop
  rcases List.mem_append.mp hx with hx | hx
  · exact h x hx hxop
  · rw [List.mem_singleton.mp hx] at hxop
    exact absurd hxop hop

end

section
omit [DecidableEq K] [DecidableEq β]

theorem observed_refuse (h : Observed t o) : Observed t.refuse o :=
  ⟨h.inserts.of_sets rfl rfl, trivial⟩

theorem observed_running (h : Observed t o) (hpc : t.pc = .running) :
    t.status_ = .InFlight ∧ t.max_rset_ = .zero ∧ t.max_wset_ = .zero := by
  have := h.phase
  simpa only [PhaseObserved, hpc] using this

end

end

section
variable {s : State W K β} {o : List (ValuePtr × TIDword)} {w : W}

omit [DecidableEq W] [DecidableEq β] in
theorem observed_read (h : Observed (s.workers w) o) (hpc : (s.workers w).pc = .running) (k : K) :
    Observed (read s (s.workers w) k) o := by
  unfold read
  split
  · exact h
  split
  · exact h
  split
  · exact observed_refuse h
  · have hphase := observed_running h hpc
    exact ⟨h.inserts.of_sets rfl rfl, hphase⟩

omit [DecidableEq W] [DecidableEq K] [DecidableEq β] in
/-- An element of another operation than INSERT is appended to the write set. -/
theorem observed_append (h : Observed (s.workers w) o) (hpc : (s.workers w).pc = .running)
    {we : WriteElement K β} (hop : we.op_ ≠ .INSERT) :
    Observed { s.workers w with write_set_ := (s.workers w).write_set_ ++ [we] } o := by
  refine ⟨h.inserts.append hop, ?_⟩
  have := observed_running h hpc
  simpa only [PhaseObserved, hpc] using this

section
omit [DecidableEq β]

section
omit [DecidableEq W]

theorem observed_write (h : Observed (s.workers w) o) (hpc : (s.workers w).pc = .running) (k : K)
    (b : β) : Observed (write s (s.workers w) k b) o := by
  unfold write
  split
  · exact h
  split
  · exact observed_refuse h
  · exact observed_append h hpc (by simp)

theorem observed_delete (h : Observed (s.workers w) o) (hpc : (s.workers w).pc = .running) (k : K)
    (b : β) : Observed (tx_delete s (s.workers w) k b) o := by
  unfold tx_delete
  split
  · split
    · exact observed_refuse h
    · exact h
  split
  · exact observed_refuse h
  · exact observed_append h hpc (by simp)

end

theorem observed_insert (h : Observed (s.workers w) o) (hpc : (s.workers w).pc = .running) (k : K)
    (b : β) : Observed ((insert s w (s.workers w) k b).workers w) o := by
  unfold insert
  split
  · rw [setWorker_self]
    exact observed_refuse h
  split
  · rw [setWorker_self]
    exact observed_refuse h
  · dsimp only
    rw [setWorker_self]
    constructor
    · intro we hwe hop
      rcases List.mem_append.mp hwe with hwe | hwe
      · obtain ⟨re, hre, hv⟩ := h.inserts we hwe hop
        exact ⟨re, List.mem_append_left _ hre, hv⟩
      · rw [List.mem_singleton.mp hwe]
        exact ⟨_, List.mem_append_right _ (List.mem_singleton_self _), rfl⟩
    · have := observed_running h hpc
      simpa only [PhaseObserved, hpc] using this

end

omit [DecidableEq W] [DecidableEq K] [DecidableEq β] in
theorem observed_readSpin (h : Observed (s.workers w) o) {k : K} {v : ValuePtr} {e : TIDword}
    (hpc : (s.workers w).pc = .readSpin k v e) :
    Observed (stepReadSpin s (s.workers w) k v e) o := by
  have hphase : (s.workers w).status_ = .InFlight ∧ (s.workers w).max_rset_ = .zero ∧
      (s.workers w).max_wset_ = .zero := by
    have := h.phase
    simpa only [PhaseObserved, hpc] using this
  have hgo : ∀ x, Observed ((s.workers w).goto (.readSpin k v x)) o := fun x =>
    ⟨h.inserts.of_sets rfl rfl, hphase⟩
  unfold stepReadSpin
  split
  · exact hgo _
  split
  · exact observed_refuse h
  split
  · exact ⟨h.inserts.of_sets rfl rfl, hphase⟩
  · exact hgo _

omit [DecidableEq β] in
/-- What `lockWriteSet` observes is the word that its compare-and-swap replaces. -/
theorem observed_locking (h : Observed (s.workers w) o) {i : Nat} {e : Option TIDword}
    (hpc : (s.workers w).pc = .locking i e) :
    Observed ((stepLocking s w (s.workers w) i e).workers w) (o ++ (observation s w).toList) := by
  obtain ⟨hbound, hlocked⟩ :
      Bounded (s.workers w).max_rset_ (s.workers w).max_wset_ o ∧ LockedTo (s.workers w) o i := by
    have := h.phase
    simpa only [PhaseObserved, hpc] using this
  have hstay : ∀ j x, observation s w = none → LockedTo (s.workers w) o j →
      Observed ((s.workers w).goto (.locking j x)) (o ++ (observation s w).toList) := by
    intro j x hnone hj
    rw [hnone, Option.toList_none, List.append_nil]
    exact ⟨h.inserts.of_sets rfl rfl, hbound, hj⟩
  generalize hs : stepLocking s w (s.workers w) i e = s'
  cases lockings_of_stepLocking hs with
  | done hend =>
    have hnone : observation s w = none := by cases e <;> simp [observation, hpc, hend]
    rw [setWorker_self, hnone, Option.toList_none, List.append_nil]
    refine ⟨h.inserts.of_sets rfl rfl, hbound, fun _ j we hj hwe hop => ?_⟩
    exact hlocked j we (hj.trans_le (List.getElem?_eq_none_iff.mp hend)) hwe hop
  | insert hwe hop =>
    have hnone : observation s w = none := by cases e <;> simp [observation, hpc, hwe, hop]
    rw [setWorker_self]
    refine hstay _ _ hnone fun j x hj hx hxop => ?_
    rcases Nat.lt_succ_iff_lt_or_eq.mp hj with hj | rfl
    · exact hlocked j x hj hx hxop
    · rw [hwe] at hx
      obtain rfl := Option.some.inj hx
      exact absurd hop hxop
  | load =>
    rw [setWorker_self]
    exact hstay _ _ (by simp [observation, hpc]) hlocked
  | conflict hwe hop hl =>
    have hnone : observation s w = none := by simp [observation, hpc, hwe, hl]
    rw [setWorker_self, hnone, Option.toList_none, List.append_nil]
    exact ⟨h.inserts.of_sets rfl rfl, hbound, rfl⟩
  | @lock we x hwe hop hl hcas =>
    have hsome : observation s w = some (we.value_, x) := by
      simp [observation, hpc, hwe, hop, hl, hcas]
    rw [setWorker_self, hsome, Option.toList_some]
    refine ⟨h.inserts.of_sets rfl rfl, hbound.lock _ _, fun j y hj hy hyop => ?_⟩
    rcases Nat.lt_succ_iff_lt_or_eq.mp hj with hj | rfl
    · exact hlocked.mono _ rfl j y hj hy hyop
    · have hy : (s.workers w).write_set_[j]? = some y := hy
      rw [hwe] at hy
      obtain rfl := Option.some.inj hy
      exact ⟨x, by simp⟩
  | reload hwe hop hl hcas =>
    rw [setWorker_self]
    exact hstay _ _ (by simp [observation, hpc, hwe, hcas]) hlocked

omit [DecidableEq K] [DecidableEq β] in
theorem observed_unlock (h : Observed (s.workers w) o) {i stop : Nat} {e : Option TIDword}
    {again : Nat → Option TIDword → Pc K} {done : Pc K}
    (hagain : ∀ j x, PhaseObserved ((s.workers w).goto (again j x)) o)
    (hdone : PhaseObserved ((s.workers w).goto done) o) :
    Observed ((stepUnlock s w (s.workers w) i stop e again done).workers w) o := by
  have hgo : ∀ pc', PhaseObserved ((s.workers w).goto pc') o → Observed ((s.workers w).goto pc') o :=
    fun _ hp => ⟨h.inserts.of_sets rfl rfl, hp⟩
  generalize hs : stepUnlock s w (s.workers w) i stop e again done = s'
  cases unlocks_of_stepUnlock hs with
  | done =>
    rw [setWorker_self]
    exact hgo _ hdone
  | insert | load | unlock =>
    rw [setWorker_self]
    exact hgo _ (hagain _ _)

omit [DecidableEq β] in
theorem observed_validating (h : Observed (s.workers w) o) {i : Nat}
    (hpc : (s.workers w).pc = .validating i) :
    Observed ((stepValidating s w (s.workers w) i).workers w) (o ++ (observation s w).toList) := by
  obtain ⟨hbound, hlocked, hchecked⟩ :
      Bounded (s.workers w).max_rset_ (s.workers w).max_wset_ o ∧ AllLocked (s.workers w) o ∧
        CheckedTo (s.workers w) o i := by
    have := h.phase
    simpa only [PhaseObserved, hpc] using this
  unfold stepValidating
  split
  · dsimp only
    rw [setWorker_self]
    exact ⟨h.inserts.of_sets rfl rfl, trivial⟩
  rename_i re hre
  dsimp only
  split
  · rw [setWorker_self]
    exact ⟨h.inserts.of_sets rfl rfl, trivial⟩
  · rename_i hpass
    have hsome : observation s w = some (re.value_, s.tidword re.value_) := by
      simp [observation, hpc, hre, hpass]
    rw [setWorker_self, hsome, Option.toList_some]
    refine ⟨h.inserts.of_sets rfl rfl, hbound.check _ _, fun hst => (hlocked hst).mono _ rfl, ?_⟩
    intro j x hj hx
    rcases Nat.lt_succ_iff_lt_or_eq.mp hj with hj | rfl
    · exact hchecked.mono _ rfl j x hj hx
    · have hx : (s.workers w).read_set_[j]? = some x := hx
      rw [hre] at hx
      obtain rfl := Option.some.inj hx
      refine ⟨_, List.mem_append_right _ (List.mem_singleton_self _), ?_⟩
      rw [TIDword.ver_eq_iff]
      rw [validationFails] at hpass
      push Not at hpass
      exact ⟨hpass.2.1.symm, hpass.2.2.1.symm⟩

end

section
variable [Inhabited β] {s s' : State W K β} {o : Observations W} {w : W}

omit [DecidableEq β] [Inhabited β] in
theorem observed_tick (h : Observed (s.workers w) (o w)) (hs : tick s w (s.workers w) = some s') :
    Observed (s'.workers w) (o w ++ (observation s w).toList) := by
  have hnone : (∀ i e, (s.workers w).pc ≠ .locking i e) → (∀ i, (s.workers w).pc ≠ .validating i) →
      o w ++ (observation s w).toList = o w := by
    intro h₁ h₂
    have : observation s w = none := by
      unfold observation
      dsimp only
      split
      · exact absurd ‹_› (h₁ _ _)
      · exact absurd ‹_› (h₂ _)
      · rfl
    rw [this, Option.toList_none, List.append_nil]
  cases ticks_of_tick hs with
  | readSpin hpc =>
    rw [setWorker_self, hnone (by simp [hpc]) (by simp [hpc])]
    exact observed_readSpin h hpc
  | readBody hpc =>
    rw [setWorker_self, hnone (by simp [hpc]) (by simp [hpc])]
    have hphase := h.phase
    simp only [PhaseObserved, hpc] at hphase
    refine ⟨fun we hwe hop => ?_, hphase⟩
    obtain ⟨re, hre, hv⟩ := h.inserts we hwe hop
    exact ⟨re, List.mem_append_left _ hre, hv⟩
  | locking hpc => exact observed_locking h hpc
  | unlockPrefix hpc =>
    rw [hnone (by simp [hpc]) (by simp [hpc])]
    have hphase := h.phase
    simp only [PhaseObserved, hpc] at hphase
    refine observed_unlock h (fun _ _ => hphase) ⟨hphase.1, fun hst => ?_⟩
    rw [show (s.workers w).status_ = .InFlight from hst] at hphase
    exact absurd hphase.2 (by simp)
  | loadEpoch hpc =>
    rw [setWorker_self, hnone (by simp [hpc]) (by simp [hpc])]
    have hphase := h.phase
    simp only [PhaseObserved, hpc] at hphase
    exact ⟨h.inserts.of_sets rfl rfl, hphase⟩
  | storeEpoch hpc =>
    rw [setWorker_self, hnone (by simp [hpc]) (by simp [hpc])]
    have hphase := h.phase
    simp only [PhaseObserved, hpc] at hphase
    refine ⟨h.inserts.of_sets rfl rfl, hphase.1, hphase.2, fun j re hj _ => ?_⟩
    omega
  | validating hpc => exact observed_validating h hpc
  | unlocking hpc =>
    rw [hnone (by simp [hpc]) (by simp [hpc])]
    exact observed_unlock h (fun _ _ => trivial) trivial
  | aborting hpc =>
    rw [hnone (by simp [hpc]) (by simp [hpc])]
    unfold stepAborting
    split
    · rw [setWorker_self]
      exact ⟨by simp [InsertsRead], trivial⟩
    split
    · dsimp only
      rw [setWorker_self]
      exact ⟨h.inserts.of_sets rfl rfl, trivial⟩
    · rw [setWorker_self]
      exact ⟨h.inserts.of_sets rfl rfl, trivial⟩
  | writing hpc hs =>
    rw [hnone (by simp [hpc]) (by simp [hpc])]
    cases writings_of_stepWriting hs
    all_goals
      rw [setWorker_self]
      exact ⟨h.inserts.of_sets rfl rfl, trivial⟩

theorem observed_work (h : Observed (s.workers w) (o w)) {op : Op K β} (hs : work s w op = some s') :
    Observed (s'.workers w) (observe s o (.work w op) w) := by
  cases works_of_work hs with
  | tick hs =>
    rw [observe, Function.update_self]
    exact observed_tick h hs
  | begin =>
    rw [setWorker_self]
    exact ⟨by simp [InsertsRead, TxExecutor.begin], rfl, rfl, rfl⟩
  | read hpc =>
    rw [setWorker_self]
    exact observed_read h hpc _
  | write hpc =>
    rw [setWorker_self]
    exact observed_write h hpc _ _
  | insert hpc => exact observed_insert h hpc _ _
  | delete hpc =>
    rw [setWorker_self]
    exact observed_delete h hpc _ _
  | validate hpc hperm =>
    rw [setWorker_self, observe, Function.update_self]
    obtain ⟨-, hr, hm⟩ := observed_running h hpc
    constructor
    · intro we hwe hop
      exact h.inserts we (hperm.mem_iff.mp hwe) hop
    · refine ⟨?_, fun j we hj _ => by omega⟩
      rw [hr, hm]
      exact bounded_nil

omit [DecidableEq β] [Inhabited β] in
theorem observe_other {op : Op K β} {u : W} (hu : u ≠ w) : observe s o (.work w op) u = o u := by
  cases op <;> simp [observe, hu]

theorem observed_reach {ok : State W K β × Observations W → Action W K β → Prop}
    {x : State W K β × Observations W} (h : Reach observeStep observeInit ok x) :
    ∀ w, Observed (x.1.workers w) (x.2 w) := by
  refine Reach.invariant (I := fun x => ∀ w, Observed (x.1.workers w) (x.2 w)) ?_ ?_ h
  · rintro ⟨s, o⟩ ⟨hinit, -⟩ w
    rw [hinit.workers w]
    exact ⟨by simp [InsertsRead, TxExecutor.new], trivial⟩
  · rintro ⟨s, o⟩ a x' hI - hs u
    cases a with
    | advanceEpoch =>
      simp only [observeStep, step, Option.map_some, Option.some.injEq] at hs
      subst hs
      exact hI u
    | work w op =>
      cases hstep : work s w op with
      | none => simp [observeStep, step, hstep] at hs
      | some s' =>
        simp only [observeStep, step, hstep, Option.map_some, Option.some.injEq] at hs
        subst hs
        by_cases hu : u = w
        · subst hu
          exact observed_work (hI u) hstep
        · show Observed (s'.workers u) (observe s o (.work w op) u)
          rw [work_other hstep hu, observe_other hu]
          exact hI u

end

/-- The commit TID of the transaction against the words observed for its records, the
worker's last commit TID and its local epoch. -/
structure CommitsAbove (t : TxExecutor K β) (o : List (ValuePtr × TIDword)) : Prop where
  reads : ∀ re ∈ t.read_set_, ∃ x, (re.value_, x) ∈ o ∧ x.ver = re.tidword_.ver
  writes : ∀ we ∈ t.write_set_, ∃ x, (we.value_, x) ∈ o
  above : ∀ p ∈ o, p.2.ver < t.enterWritePhase.mrctid_.ver
  previous : t.mrctid_.ver < t.enterWritePhase.mrctid_.ver
  epoch : t.localEpoch ≤ t.enterWritePhase.mrctid_.epoch.toNat

omit [DecidableEq K] [DecidableEq β] in
theorem Observed.commitsAbove {t : TxExecutor K β} {o : List (ValuePtr × TIDword)} (h : Observed t o)
    {i : Nat} (hpc : t.pc = .validating i) (hend : t.read_set_[i]? = none)
    (hst : t.status_ = .InFlight) (hTID : ∀ p ∈ o, p.2.TID.toNat ≠ 2 ^ 29 - 1)
    (hlast : t.mrctid_.TID.toNat ≠ 2 ^ 29 - 1) (hepoch : t.localEpoch < 2 ^ 32) : CommitsAbove t o := by
  obtain ⟨hbound, hlocked, hchecked⟩ :
      Bounded t.max_rset_ t.max_wset_ o ∧ AllLocked t o ∧ CheckedTo t o i := by
    have := h.phase
    simpa only [PhaseObserved, hpc] using this
  have hver : t.enterWritePhase.mrctid_.ver =
      max (max (TIDword.max t.max_rset_ t.max_wset_).incTID.ver t.mrctid_.incTID.ver)
        (epochWord t.localEpoch).ver :=
    commitTid_ver _ _ _ _
  rw [TIDword.ver_incTID (hbound.tid_ne hTID), TIDword.ver_incTID hlast] at hver
  have hreads : ∀ re ∈ t.read_set_, ∃ x, (re.value_, x) ∈ o ∧ x.ver = re.tidword_.ver := by
    intro re hre
    obtain ⟨j, hj⟩ := List.mem_iff_getElem?.mp hre
    have hlt : j < t.read_set_.length := (List.getElem?_eq_some_iff.mp hj).1
    exact hchecked j re (hlt.trans_le (List.getElem?_eq_none_iff.mp hend)) hj
  refine ⟨hreads, ?_, ?_, ?_, ?_⟩
  · intro we hwe
    by_cases hop : we.op_ = .INSERT
    · -- the inserted records are observed through the read set
      obtain ⟨re, hre, hv⟩ := h.inserts we hwe hop
      obtain ⟨x, hx, -⟩ := hreads re hre
      exact ⟨x, hv ▸ hx⟩
    · obtain ⟨j, hj⟩ := List.mem_iff_getElem?.mp hwe
      exact hlocked hst j we (List.getElem?_eq_some_iff.mp hj).1 hj hop
  · intro p hp
    have := hbound.le p hp
    omega
  · omega
  · have := commitTid_epoch t.max_rset_ t.max_wset_ t.mrctid_ t.localEpoch
    rw [Nat.mod_eq_of_lt hepoch] at this
    show t.localEpoch ≤ (commitTid t.max_rset_ t.max_wset_ t.mrctid_ t.localEpoch).epoch.toNat
    omega

/-- What the words of the records that a worker holds are bounded by. -/
def HeldBelow (s : State W K β) (t : TxExecutor K β) (we : WriteElement K β) : Prop :=
  match t.pc with
  | .writing _ m _ => s.ver we.value_ < m.ver
  | _ => if we.op_ = .INSERT then s.ver we.value_ = 0 else s.ver we.value_ ≤ t.max_wset_.ver

structure WordsOk (s : State W K β) (t : TxExecutor K β) : Prop where
  held : ∀ j we, t.write_set_[j]? = some we → heldAt t.pc we.op_ j → HeldBelow s t we
  /-- the word that `unlockWriteSet` stores back is the one it has loaded -/
  loaded : ∀ i e we, t.pc = .unlocking i (some e) → t.write_set_[i]? = some we → we.op_ ≠ .INSERT →
    e.ver = s.ver we.value_

section
variable {s s' : State W K β} {t : TxExecutor K β}

section
omit [DecidableEq W] [DecidableEq K] [DecidableEq β]

theorem heldBelow_iff {we : WriteElement K β} (hpc : ∀ i m b, t.pc ≠ .writing i m b) :
    HeldBelow s t we ↔
      if we.op_ = .INSERT then s.ver we.value_ = 0 else s.ver we.value_ ≤ t.max_wset_.ver := by
  unfold HeldBelow
  cases h : t.pc with
  | writing i m b => exact absurd h (hpc i m b)
  | _ => exact Iff.rfl

theorem HeldBelow.congr {we : WriteElement K β} (h : HeldBelow s t we)
    (hv : s'.ver we.value_ = s.ver we.value_) : HeldBelow s' t we := by
  unfold HeldBelow at h ⊢
  rwa [hv]

/-- Stores to other records than those the worker holds do not matter to it. -/
theorem WordsOk.frame (h : WordsOk s t) (hv : ∀ v, Holds t v → s'.ver v = s.ver v) : WordsOk s' t := by
  refine ⟨fun j we hj hheld => ?_, fun i e we hpc hj hop => ?_⟩
  · exact (h.held j we hj hheld).congr (hv _ ⟨j, we, hj, rfl, hheld⟩)
  · rw [h.loaded i e we hpc hj hop, hv]
    exact ⟨i, we, hj, rfl, by simp [hpc, heldAt]⟩

/-- The worker stays before its write phase and takes no lock. -/
theorem WordsOk.goto (h : WordsOk s t) {t' : TxExecutor K β} (hw : t'.write_set_ = t.write_set_)
    (hm : t'.max_wset_ = t.max_wset_) (hpc : ∀ i m b, t.pc ≠ .writing i m b)
    (hpc' : ∀ i m b, t'.pc ≠ .writing i m b)
    (hheld : ∀ j we, t.write_set_[j]? = some we → heldAt t'.pc we.op_ j → heldAt t.pc we.op_ j)
    (hloaded : ∀ i e, t'.pc ≠ .unlocking i (some e)) : WordsOk s t' := by
  refine ⟨fun j we hj hh => ?_, fun i e we hp => absurd hp (hloaded i e)⟩
  rw [hw] at hj
  rw [heldBelow_iff hpc', hm, ← heldBelow_iff hpc]
  exact h.held j we hj (hheld j we hj hh)

end

end

/-- The record to which the next step stores a commit TID. -/
def commitStore (s : State W K β) : Action W K β → Option ValuePtr
  | .work w .tick =>
    match (s.workers w).pc with
    | .writing i _ bodyStored =>
      match (s.workers w).write_set_[i]? with
      | some we => if we.op_ = .WRITE ∧ bodyStored = false then none else some we.value_
      | none => none
    | _ => none
  | _ => none

/-- How a step of `w` changes the versions. -/
structure VersionStep (s s' : State W K β) (w : W) (stored : Option ValuePtr) : Prop where
  others : ∀ u, u ≠ w → s'.workers u = s.workers u
  kept : ∀ v, v < s.next → stored ≠ some v → s'.ver v = s.ver v
  raised : ∀ v, stored = some v → s.ver v < s'.ver v ∧ Holds (s.workers w) v
  self : WordsOk s' (s'.workers w)

section
variable {s s' : State W K β} {w : W} {H : ValuePtr → Option W}

omit [DecidableEq W] [DecidableEq K] [DecidableEq β] in
theorem Inv.holds_lt (h : Inv s H) {u : W} {v : ValuePtr} (hv : Holds (s.workers u) v) : v < s.next := by
  obtain ⟨⟨κ, hw, -⟩, -⟩ := h
  obtain ⟨j, we, hj, rfl, -⟩ := hv
  exact ((hw.tx u).ws we (List.mem_of_getElem? hj)).2

section
omit [DecidableEq K] [DecidableEq β]

theorem VersionStep.wordsOk {stored : Option ValuePtr} (hi : Inv s H) (h : ∀ u, WordsOk s (s.workers u))
    (hstep : VersionStep s s' w stored) (u : W) : WordsOk s' (s'.workers u) := by
  by_cases hu : u = w
  · rw [hu]; exact hstep.self
  · rw [hstep.others u hu]
    refine (h u).frame fun v hv => hstep.kept v (hi.holds_lt hv) fun hst => hu ?_
    exact hi.exclusive hv (hstep.raised v hst).2

theorem versionStep_setWorker {t' : TxExecutor K β} (h : WordsOk s t') :
    VersionStep s (s.setWorker w t') w none :=
  ⟨fun _ hu => setWorker_other _ _ hu, fun _ _ _ => rfl, by simp, by
    rw [setWorker_self]
    exact ⟨h.held, h.loaded⟩⟩

/-- A step that stores back a word of the version that is there. -/
theorem versionStep_sameVer {v : ValuePtr} {x : TIDword} {t' : TxExecutor K β} (hx : x.ver = s.ver v)
    (h : WordsOk s t') : VersionStep s ((s.setTid v x).setWorker w t') w none := by
  have hver : ∀ u, ((s.setTid v x).setWorker w t').ver u = s.ver u := setTid_ver_same s hx
  refine ⟨fun _ hu => setWorker_other _ _ hu, fun u _ _ => hver u, by simp, ?_⟩
  rw [setWorker_self]
  exact h.frame fun u _ => hver u

end

end

section
variable {s s' : State W K β} {w : W} {H : ValuePtr → Option W}

section
omit [DecidableEq W] [DecidableEq K] [DecidableEq β]

theorem WordsOk.refuse {t : TxExecutor K β} (h : WordsOk s t) (hpc : ∀ i m b, t.pc ≠ .writing i m b)
    (hheld : ∀ op j, op = .INSERT → heldAt t.pc op j) : WordsOk s t.refuse :=
  h.goto rfl rfl hpc (by simp [TxExecutor.refuse])
    (fun j we _ hh => hheld _ _ (by simpa [TxExecutor.refuse, heldAt] using hh))
    (by simp [TxExecutor.refuse])

theorem WordsOk.append {t : TxExecutor K β} (h : WordsOk s t) (hpc : t.pc = .running)
    {e : WriteElement K β} (hop : e.op_ = .INSERT → s.ver e.value_ = 0) (r : List (ReadEntry K β)) :
    WordsOk s { t with read_set_ := r, write_set_ := t.write_set_ ++ [e] } := by
  refine ⟨fun j we hj hh => ?_, fun i x we hp => ?_⟩
  · rw [heldBelow_iff (by simp [hpc])]
    have hins : we.op_ = .INSERT := by simpa [hpc, heldAt] using hh
    rw [if_pos hins]
    rcases List.mem_append.mp (List.mem_of_getElem? hj) with hmem | hmem
    · obtain ⟨j', hj'⟩ := List.mem_iff_getElem?.mp hmem
      have := h.held j' we hj' (by simpa [hpc, heldAt] using hins)
      rwa [heldBelow_iff (by simp [hpc]), if_pos hins] at this
    · obtain rfl := List.mem_singleton.mp hmem
      exact hop hins
  · simp [hpc] at hp

end

section
omit [DecidableEq W] [DecidableEq β]

theorem wordsOk_read (h : WordsOk s (s.workers w)) (hpc : (s.workers w).pc = .running) (k : K) :
    WordsOk s (read s (s.workers w) k) := by
  unfold read
  split
  · exact h
  split
  · exact h
  split
  · exact h.refuse (by simp [hpc]) (by simp [hpc, heldAt])
  · exact h.goto rfl rfl (by simp [hpc]) (by simp) (by simp [hpc, heldAt]) (by simp)

theorem wordsOk_write (h : WordsOk s (s.workers w)) (hpc : (s.workers w).pc = .running) (k : K) (b : β) :
    WordsOk s (write s (s.workers w) k b) := by
  unfold write
  split
  · exact h
  split
  · exact h.refuse (by simp [hpc]) (by simp [hpc, heldAt])
  · exact h.append hpc (by simp) _

theorem wordsOk_delete (h : WordsOk s (s.workers w)) (hpc : (s.workers w).pc = .running) (k : K) (b : β) :
    WordsOk s (tx_delete s (s.workers w) k b) := by
  unfold tx_delete
  split
  · split
    · exact h.refuse (by simp [hpc]) (by simp [hpc, heldAt])
    · exact h
  split
  · exact h.refuse (by simp [hpc]) (by simp [hpc, heldAt])
  · exact h.append hpc (by simp) _

end

omit [DecidableEq β] in
theorem versionStep_insert (hi : Inv s H) (h : WordsOk s (s.workers w))
    (hpc : (s.workers w).pc = .running) (k : K) (b : β) :
    VersionStep s (insert s w (s.workers w) k b) w none := by
  have hrefuse : VersionStep s (s.setWorker w (s.workers w).refuse) w none :=
    versionStep_setWorker (h.refuse (by simp [hpc]) (by simp [hpc, heldAt]))
  unfold insert
  split
  · exact hrefuse
  split
  · exact hrefuse
  · dsimp only
    set s₁ : State W K β := { s with mem := Function.update s.mem s.next ⟨TIDword.new.init, b⟩ } with hs₁
    have hold : ∀ v, v < s.next → s₁.ver v = s.ver v := by
      intro v hv
      simp [hs₁, State.ver, State.tidword, Function.update_of_ne (Nat.ne_of_lt hv)]
    have hnew : s₁.ver s.next = 0 := by
      simp [hs₁, State.ver, State.tidword, TIDword.ver, TIDword.init, TIDword.new]
    refine ⟨fun u hu => setWorker_other _ _ hu, fun v hv _ => hold v hv, by simp, ?_⟩
    rw [setWorker_self]
    have hframe : WordsOk s₁ (s.workers w) := h.frame fun v hv => hold v (hi.holds_lt hv)
    have := hframe.append hpc (e := ⟨k, s.next, b, .INSERT⟩) (fun _ => hnew)
      ((s.workers w).read_set_ ++ [⟨⟨k, s.next, TIDword.new.init, .READ⟩, none⟩])
    exact ⟨this.held, this.loaded⟩

section
omit [DecidableEq W] [DecidableEq K] [DecidableEq β]

theorem wordsOk_validate (h : WordsOk s (s.workers w)) (hpc : (s.workers w).pc = .running)
    {order : List (WriteElement K β)} (hperm : order.Perm (s.workers w).write_set_) :
    WordsOk s { s.workers w with write_set_ := order, pc := .locking 0 none } := by
  refine ⟨fun j we hj hh => ?_, by simp⟩
  have hins : we.op_ = .INSERT := by simpa [heldAt] using hh
  obtain ⟨j', hj'⟩ := List.mem_iff_getElem?.mp (hperm.mem_iff.mp (List.mem_of_getElem? hj))
  have := h.held j' we hj' (by simpa [hpc, heldAt] using hins)
  rw [heldBelow_iff (by simp [hpc])] at this
  rwa [heldBelow_iff (by simp)]

theorem wordsOk_readSpin (h : WordsOk s (s.workers w)) {k : K} {v : ValuePtr} {e : TIDword}
    (hpc : (s.workers w).pc = .readSpin k v e) : WordsOk s (stepReadSpin s (s.workers w) k v e) := by
  have hgo : ∀ x, WordsOk s ((s.workers w).goto (.readSpin k v x)) := fun x =>
    h.goto rfl rfl (by simp [hpc]) (by simp) (by simp [hpc, heldAt]) (by simp)
  unfold stepReadSpin
  split
  · exact hgo _
  split
  · exact h.refuse (by simp [hpc]) (by simp [hpc, heldAt])
  split
  · exact h.goto rfl rfl (by simp [hpc]) (by simp) (by simp [hpc, heldAt]) (by simp)
  · exact hgo _

end

end

section
variable {s s' : State W K β} {w : W} {H : ValuePtr → Option W}

omit [DecidableEq K] [DecidableEq β] in
theorem versionStep_locking (h : WordsOk s (s.workers w)) {i : Nat} {e : Option TIDword}
    (hpc : (s.workers w).pc = .locking i e) (hfree : ∀ x, e = some x → x.lock = false) :
    VersionStep s (stepLocking s w (s.workers w) i e) w none := by
  have hnw : ∀ i m b, (s.workers w).pc ≠ .writing i m b := by simp [hpc]
  have hgo : ∀ x, VersionStep s (s.setWorker w ((s.workers w).goto (.locking i x))) w none := fun x =>
    versionStep_setWorker (h.goto rfl rfl hnw (by simp) (by simp [hpc, heldAt]) (by simp))
  generalize hs : stepLocking s w (s.workers w) i e = s'
  cases lockings_of_stepLocking hs with
  | done hend =>
    have hlen := List.getElem?_eq_none_iff.mp hend
    refine versionStep_setWorker (h.goto rfl rfl hnw (by simp) (fun j we hj _ => ?_) (by simp))
    have hjlt : j < (s.workers w).write_set_.length := (List.getElem?_eq_some_iff.mp hj).1
    rw [hpc]
    exact Or.inr (hjlt.trans_le hlen)
  | insert hwe hop =>
    refine versionStep_setWorker (h.goto rfl rfl hnw (by simp) (fun j x hj hh => ?_) (by simp))
    rw [hpc]
    rcases hh with hh | hh
    · exact Or.inl hh
    · rcases Nat.lt_succ_iff_lt_or_eq.mp hh with hh | rfl
      · exact Or.inr hh
      · rw [hwe] at hj
        obtain rfl := Option.some.inj hj
        exact Or.inl hop
  | load | reload => exact hgo _
  | @conflict we x hwe hop hl =>
    rw [hfree x rfl] at hl
    cases hl
  | @lock we x hwe hop hl hcas =>
    have hver : x.ver = s.ver we.value_ := by rw [State.ver, hcas]
    refine versionStep_sameVer hver ⟨fun j y hj hh => ?_, by simp⟩
    have hj : (s.workers w).write_set_[j]? = some y := hj
    rw [heldBelow_iff (by simp)]
    by_cases hy : heldAt (s.workers w).pc y.op_ j
    · have hold := h.held j y hj hy
      rw [heldBelow_iff hnw] at hold
      split at hold
      · rwa [if_pos ‹_›]
      · rw [if_neg ‹_›, TIDword.ver_max]
        omega
    · have hji : j = i := by
        rw [hpc] at hy
        have hy : ¬ (y.op_ = .INSERT ∨ j < i) := hy
        have hlt : j < i + 1 := hh.resolve_left fun hins => hy (Or.inl hins)
        have hge : ¬ j < i := fun hlt => hy (Or.inr hlt)
        omega
      subst hji
      rw [hwe] at hj
      obtain rfl := Option.some.inj hj
      rw [if_neg hop, TIDword.ver_max]
      omega

omit [DecidableEq β] in
theorem versionStep_validating (h : WordsOk s (s.workers w)) {i : Nat}
    (hpc : (s.workers w).pc = .validating i) (hover : tidOverflow s (.work w .tick) = false) :
    VersionStep s (stepValidating s w (s.workers w) i) w none := by
  have hnw : ∀ i m b, (s.workers w).pc ≠ .writing i m b := by simp [hpc]
  unfold stepValidating
  split
  · rename_i hend
    have hTID : (TIDword.max (s.workers w).max_rset_ (s.workers w).max_wset_).TID.toNat ≠ 2 ^ 29 - 1 := by
      simpa [tidOverflow, hpc, hend] using hover
    obtain ⟨hr, hm⟩ := ver_lt_commitTid (s.workers w).mrctid_ (s.workers w).localEpoch hTID
    have hwords : WordsOk s (s.workers w).enterWritePhase := by
      refine ⟨fun j we hj _ => ?_, by simp [TxExecutor.enterWritePhase]⟩
      have hold := h.held j we hj (by simp [hpc, heldAt])
      rw [heldBelow_iff hnw] at hold
      show s.ver we.value_ < (commitTid _ _ _ _).ver
      split at hold
      · omega
      · omega
    have := versionStep_setWorker (w := w) hwords
    exact ⟨this.others, this.kept, this.raised, ⟨this.self.held, this.self.loaded⟩⟩
  dsimp only
  split
  · exact versionStep_setWorker (h.goto rfl rfl hnw (by simp) (by simp [hpc, heldAt]) (by simp))
  · exact versionStep_setWorker (h.goto rfl rfl hnw (by simp) (by simp [hpc, heldAt]) (by simp))

omit [DecidableEq K] [DecidableEq β] in
theorem versionStep_unlocking (h : WordsOk s (s.workers w)) {i : Nat} {e : Option TIDword}
    (hpc : (s.workers w).pc = .unlocking i e) :
    VersionStep s (stepUnlock s w (s.workers w) i (s.workers w).write_set_.length e
      (fun j x => .unlocking j x) (.aborting 0)) w none := by
  have hnw : ∀ i m b, (s.workers w).pc ≠ .writing i m b := by simp [hpc]
  have hdone : WordsOk s ((s.workers w).goto (.aborting 0)) :=
    h.goto rfl rfl hnw (by simp) (fun j we _ hh => by rw [hpc]; exact Or.inl hh.1) (by simp)
  have hnext : WordsOk s ((s.workers w).goto (.unlocking (i + 1) none)) :=
    h.goto rfl rfl hnw (by simp) (fun j we _ hh => by
      rw [hpc]
      rcases hh with hh | hh
      · exact Or.inl hh
      · exact Or.inr (Nat.le_of_succ_le hh)) (by simp)
  generalize hs : stepUnlock s w (s.workers w) i _ e _ _ = s'
  cases unlocks_of_stepUnlock hs with
  | done => exact versionStep_setWorker hdone
  | insert => exact versionStep_setWorker hnext
  | load _ hwe =>
    refine versionStep_setWorker ⟨fun j x hj hh => ?_, fun j x y hp hj _ => ?_⟩
    · have := h.held j x hj (by rw [hpc]; exact hh)
      rw [heldBelow_iff hnw] at this
      rwa [heldBelow_iff (by simp)]
    · simp only [goto_pc, Pc.unlocking.injEq, Option.some.injEq] at hp
      obtain ⟨rfl, rfl⟩ := hp
      have hj : (s.workers w).write_set_[i]? = some y := hj
      rw [hwe] at hj
      obtain rfl := Option.some.inj hj
      rfl
  | @unlock we x _ hwe hop => exact versionStep_sameVer (h.loaded i x we hpc hwe hop) hnext

omit [DecidableEq β] in
theorem versionStep_aborting (h : WordsOk s (s.workers w)) {i : Nat}
    (hpc : (s.workers w).pc = .aborting i) : VersionStep s (stepAborting s w (s.workers w) i) w none := by
  have hnw : ∀ i m b, (s.workers w).pc ≠ .writing i m b := by simp [hpc]
  have hnext : VersionStep s (s.setWorker w ((s.workers w).goto (.aborting (i + 1)))) w none :=
    versionStep_setWorker (h.goto rfl rfl hnw (by simp) (fun j we _ hh => by
      rw [hpc]
      exact ⟨hh.1, Nat.le_of_succ_le hh.2⟩) (by simp))
  unfold stepAborting
  split
  · exact versionStep_setWorker ⟨by simp, by simp⟩
  split
  · exact ⟨hnext.others, hnext.kept, hnext.raised, ⟨hnext.self.held, hnext.self.loaded⟩⟩
  · exact hnext

end

section
variable {s s' : State W K β} {w : W} {H : ValuePtr → Option W}

section
omit [DecidableEq K] [DecidableEq β]

/-- The store of the commit TID to the element at hand. -/
theorem versionStep_store (hi : Inv s H) (h : WordsOk s (s.workers w)) {i : Nat} {m x : TIDword}
    {b : Bool} {we : WriteElement K β} (hpc : (s.workers w).pc = .writing i m b)
    (hwe : (s.workers w).write_set_[i]? = some we) (hx : x.ver = m.ver) :
    VersionStep s ((s.setTid we.value_ x).setWorker w ((s.workers w).goto (.writing (i + 1) x false))) w
      (some we.value_) := by
  have hat : ∀ j y, (s.workers w).write_set_[j]? = some y → i ≤ j → s.ver y.value_ < x.ver := by
    intro j y hj hij
    have := h.held j y hj (by rw [hpc]; exact hij)
    rw [hx]
    simpa only [HeldBelow, hpc] using this
  have hother : ∀ v, v ≠ we.value_ → (s.setTid we.value_ x).ver v = s.ver v :=
    fun v hv => setTid_ver_other s x hv
  refine ⟨fun u hu => setWorker_other _ _ hu, fun v _ hv => hother v fun he => hv (by rw [he]), ?_, ?_⟩
  · rintro v hv
    obtain rfl := Option.some.inj hv
    refine ⟨?_, i, we, hwe, rfl, by rw [hpc]; exact Nat.le_refl i⟩
    rw [setWorker_ver, setTid_ver_self]
    exact hat i we hwe (Nat.le_refl i)
  · rw [setWorker_self]
    refine ⟨fun j y hj hh => ?_, by simp⟩
    have hj : (s.workers w).write_set_[j]? = some y := hj
    have hij : i + 1 ≤ j := hh
    have hne : y.value_ ≠ we.value_ := by
      intro he
      have := hi.index_unique hj hwe he
      omega
    show (s.setTid we.value_ x).ver y.value_ < x.ver
    rw [hother _ hne]
    exact hat j y hj (Nat.le_of_succ_le hij)

theorem versionStep_writing (hi : Inv s H) (h : WordsOk s (s.workers w)) {i : Nat} {m : TIDword}
    {b : Bool} (hpc : (s.workers w).pc = .writing i m b)
    (hs : stepWriting s w (s.workers w) i m b = some s') :
    VersionStep s s' w (commitStore s (.work w .tick)) := by
  cases writings_of_stepWriting hs with
  | finish hend =>
    have hstore : commitStore s (.work w .tick) = none := by simp [commitStore, hpc, hend]
    rw [hstore]
    exact versionStep_setWorker ⟨fun j we _ hh => absurd hh (by simp [heldAt]), by simp⟩
  | @body we hwe hop =>
    have hstore : commitStore s (.work w .tick) = none := by
      simp [commitStore, hpc, hwe, hop]
    rw [hstore]
    refine ⟨fun u hu => setWorker_other _ _ hu, fun v _ _ => setBody_ver s _ v _, by simp, ?_⟩
    rw [setWorker_self]
    refine ⟨fun j y hj hh => ?_, by simp⟩
    have := h.held j y hj (by rw [hpc]; exact hh)
    simp only [HeldBelow, hpc] at this
    show (s.setBody we.value_ we.new_value_body_).ver y.value_ < m.ver
    rwa [setBody_ver]
  | @write we hwe =>
    have hstore : commitStore s (.work w .tick) = some we.value_ := by simp [commitStore, hpc, hwe]
    rw [hstore]
    exact versionStep_store hi h hpc hwe rfl
  | @insert _ we hwe hop | @delete _ we hwe hop =>
    have hstore : commitStore s (.work w .tick) = some we.value_ := by
      simp [commitStore, hpc, hwe, hop]
    rw [hstore]
    exact versionStep_store hi h hpc hwe rfl

end

omit [DecidableEq β] in
theorem versionStep_tick (hi : Inv s H) (h : WordsOk s (s.workers w))
    (hfree : NoLockConflict s (.work w .tick)) (hover : tidOverflow s (.work w .tick) = false)
    (hs : tick s w (s.workers w) = some s') :
    VersionStep s s' w (commitStore s (.work w .tick)) := by
  have hnone : (∀ i m b, (s.workers w).pc ≠ .writing i m b) → commitStore s (.work w .tick) = none := by
    intro hp
    cases hpc : (s.workers w).pc with
    | writing i m b => exact absurd hpc (hp i m b)
    | _ => simp [commitStore, hpc]
  cases ticks_of_tick hs with
  | readSpin hpc =>
    rw [hnone (by simp [hpc])]
    exact versionStep_setWorker (wordsOk_readSpin h hpc)
  | readBody hpc =>
    rw [hnone (by simp [hpc])]
    exact versionStep_setWorker (h.goto rfl rfl (by simp [hpc]) (by simp) (by simp [hpc, heldAt]) (by simp))
  | locking hpc =>
    rw [hnone (by simp [hpc])]
    exact versionStep_locking h hpc fun x hx => hfree.free (by rw [hpc, hx])
  | @unlockPrefix i stop e hpc =>
    obtain ⟨⟨κ, -, hl⟩, -⟩ := hi
    exact absurd hpc (hl.through w i stop e)
  | loadEpoch hpc =>
    rw [hnone (by simp [hpc])]
    exact versionStep_setWorker (h.goto rfl rfl (by simp [hpc]) (by simp) (by simp [hpc, heldAt]) (by simp))
  | storeEpoch hpc =>
    rw [hnone (by simp [hpc])]
    exact versionStep_setWorker (h.goto rfl rfl (by simp [hpc]) (by simp) (by simp [hpc, heldAt]) (by simp))
  | validating hpc =>
    rw [hnone (by simp [hpc])]
    exact versionStep_validating h hpc hover
  | unlocking hpc =>
    rw [hnone (by simp [hpc])]
    exact versionStep_unlocking h hpc
  | aborting hpc =>
    rw [hnone (by simp [hpc])]
    exact versionStep_aborting h hpc
  | writing hpc hs => exact versionStep_writing hi h hpc hs

variable [Inhabited β]

theorem versionStep_work (hi : Inv s H) (h : WordsOk s (s.workers w)) {op : Op K β}
    (hfree : NoLockConflict s (.work w op)) (hover : tidOverflow s (.work w op) = false)
    (hs : work s w op = some s') : VersionStep s s' w (commitStore s (.work w op)) := by
  cases works_of_work hs with
  | tick hs => exact versionStep_tick hi h hfree hover hs
  | begin => exact versionStep_setWorker ⟨by simp [TxExecutor.begin], by simp [TxExecutor.begin]⟩
  | read hpc => exact versionStep_setWorker (wordsOk_read h hpc _)
  | write hpc => exact versionStep_setWorker (wordsOk_write h hpc _ _)
  | insert hpc => exact versionStep_insert hi h hpc _ _
  | delete hpc => exact versionStep_setWorker (wordsOk_delete h hpc _ _)
  | validate hpc hperm => exact versionStep_setWorker (wordsOk_validate h hpc hperm)

end

/-- `lockWriteSet` does not find the word it loaded locked, and the commit TID is not
chosen by incrementing the last TID of the 29 bits. -/
def Orderly (s : State W K β) (a : Action W K β) : Prop := NoLockConflict s a ∧ tidOverflow s a = false

instance (s : State W K β) (a : Action W K β) : Decidable (Orderly s a) :=
  inferInstanceAs (Decidable (_ ∧ _))

section
variable [Inhabited β]

theorem wordsOk_reach {x : State W K β × Observations W}
    (h : Reach observeStep observeInit (fun y => Orderly y.1) x) :
    (∃ H : ValuePtr → Option W, Inv x.1 H) ∧ ∀ w, WordsOk x.1 (x.1.workers w) := by
  refine Reach.invariant (I := fun y => (∃ H : ValuePtr → Option W, Inv y.1 H) ∧
    ∀ w, WordsOk y.1 (y.1.workers w)) ?_ ?_ h
  · rintro ⟨s, o⟩ ⟨hinit, -⟩
    refine ⟨⟨_, owned_init hinit⟩, fun w => ?_⟩
    rw [hinit.workers w]
    exact ⟨by simp [TxExecutor.new], by simp [TxExecutor.new]⟩
  · rintro ⟨s, o⟩ a x' ⟨⟨H, hi⟩, hw⟩ ⟨hfree, hover⟩ hs
    cases a with
    | advanceEpoch =>
      simp only [observeStep, step, Option.map_some, Option.some.injEq] at hs
      subst hs
      obtain ⟨⟨κ, hwf, hl⟩, hu⟩ := hi
      exact ⟨⟨H, ⟨κ, ⟨hwf.tree, hwf.tx, hwf.above⟩, ⟨hl.bit, hl.owner, hl.only, hl.freed, hl.through⟩⟩, hu⟩,
        fun w => ⟨(hw w).held, (hw w).loaded⟩⟩
    | work w op =>
      cases hstep : work s w op with
      | none => simp [observeStep, step, hstep] at hs
      | some s' =>
        simp only [observeStep, step, hstep, Option.map_some, Option.some.injEq] at hs
        subst hs
        exact ⟨⟨_, inv_work hi hfree hstep⟩,
          (versionStep_work hi (hw w) hfree hover hstep).wordsOk hi hw⟩

/-- In every run, a transaction that passes validation with all its locks taken commits
above every word it observed, above the worker's last commit and not below its epoch. In
the runs where every lock is taken, a record changes its version only by the store of a
commit TID, and to a larger one. -/
theorem commit_tid_order {x : State W K β × Observations W}
    (h : Reach observeStep observeInit anyStep x) :
    (∀ w i, (x.1.workers w).pc = .validating i → (x.1.workers w).read_set_[i]? = none →
      (x.1.workers w).status_ = .InFlight → (∀ p ∈ x.2 w, p.2.TID.toNat ≠ 2 ^ 29 - 1) →
      (x.1.workers w).mrctid_.TID.toNat ≠ 2 ^ 29 - 1 → (x.1.workers w).localEpoch < 2 ^ 32 →
      CommitsAbove (x.1.workers w) (x.2 w)) ∧
    (Reach observeStep observeInit (fun y => Orderly y.1) x → ∀ a x', Orderly x.1 a →
      observeStep x a = some x' →
      (∀ v, v < x.1.next → commitStore x.1 a ≠ some v → x'.1.ver v = x.1.ver v) ∧
      (∀ v, commitStore x.1 a = some v → x.1.ver v < x'.1.ver v)) := by
  constructor
  · intro w i hpc hend hst hTID hlast hepoch
    exact (observed_reach h w).commitsAbove hpc hend hst hTID hlast hepoch
  · intro horderly a x' hok hs
    obtain ⟨⟨H, hi⟩, hw⟩ := wordsOk_reach horderly
    cases a with
    | advanceEpoch =>
      simp only [observeStep, step, Option.map_some, Option.some.injEq] at hs
      subst hs
      exact ⟨fun _ _ _ => rfl, fun v hv => by simp [commitStore] at hv⟩
    | work w op =>
      cases hstep : work x.1 w op with
      | none => simp [observeStep, step, hstep] at hs
      | some s' =>
        simp only [observeStep, step, hstep, Option.map_some, Option.some.injEq] at hs
        subst hs
        have hv := versionStep_work hi (hw w) hok.1 hok.2 hstep
        exact ⟨hv.kept, fun v he => (hv.raised v he).1⟩

end

/-- One worker reads and writes a record and inserts another one, up to its commit. -/
def insertWriteSchedule : List (Action Bool Nat Nat) :=
  [.work false .begin, .work false (.read 0), .work false .tick, .work false .tick,
   .work false (.write 0 10), .work false (.insert 1 20),
   .work false (.validate [⟨0, 0, 10, .WRITE⟩, ⟨1, 1, 20, .INSERT⟩]),
   .work false .tick, .work false .tick, .work false .tick, .work false .tick, .work false .tick,
   .work false .tick, .work false .tick, .work false .tick]

theorem insertWriteSchedule_runs :
    (exec observeStep (oneRecord, fun _ => []) insertWriteSchedule).isSome := by decide

theorem insertWriteSchedule_admits :
    Admits observeStep (fun y => Orderly y.1) (oneRecord, fun _ => []) insertWriteSchedule := by decide

theorem commit_tid_order_insert :
    let x := (exec observeStep (oneRecord, fun _ => []) insertWriteSchedule).get insertWriteSchedule_runs
    CommitsAbove (x.1.workers false) (x.2 false) ∧
      ∀ a x', Orderly x.1 a → observeStep x a = some x' →
        (∀ v, v < x.1.next → commitStore x.1 a ≠ some v → x'.1.ver v = x.1.ver v) ∧
        (∀ v, commitStore x.1 a = some v → x.1.ver v < x'.1.ver v) := by
  intro x
  have hreach : Reach observeStep observeInit anyStep x := reach_get ⟨oneRecord_init, rfl⟩ insertWriteSchedule_runs
  have horder := commit_tid_order hreach
  exact ⟨horder.1 false 2 (by decide) (by decide) (by decide) (by decide) (by decide) (by decide),
    horder.2 (reach_get_of_admits ⟨oneRecord_init, rfl⟩ insertWriteSchedule_admits insertWriteSchedule_runs)⟩

/-- A worker that has taken the locks of its write set, and has read nothing, stores its commit TID. -/
def LockingStore [Inhabited β] (x x' : State W K β × Observations W) (v : ValuePtr) : Prop :=
  ∃ w, observeStep x (.work w .tick) = some x' ∧ commitStore x.1 (.work w .tick) = some v ∧
    (x.1.workers w).read_set_ = [] ∧
      ∀ we ∈ (x.1.workers w).write_set_, we.op_ ≠ .INSERT → we.value_ ∈ (x.2 w).map Prod.fst

/-- The second worker meets the lock of the first, commits all the same and clears it; its next
transaction takes the lock and is about to store. -/
def overtakingSchedule : List (Action Bool Nat Nat) :=
  [.work false .begin, .work false (.write 0 10), .work false (.validate [⟨0, 0, 10, .WRITE⟩]),
   .work false .tick, .work false .tick,
   .work true .begin, .work true (.write 0 20), .work true (.validate [⟨0, 0, 20, .WRITE⟩]),
   .work true .tick, .work true .tick, .work true .tick, .work true .tick, .work true .tick,
   .work true .tick, .work true .tick, .work true .tick, .work true .tick,
   .work true .begin, .work true (.write 0 30), .work true (.validate [⟨0, 0, 30, .WRITE⟩]),
   .work true .tick, .work true .tick, .work true .tick, .work true .tick, .work true .tick,
   .work true .tick, .work true .tick]

/-- The first worker, up to its own store. -/
def overtakenSchedule : List (Action Bool Nat Nat) :=
  [.work false .tick, .work false .tick, .work false .tick, .work false .tick, .work false .tick]

theorem overtakingSchedule_runs :
    (exec observeStep (oneRecord, fun _ => []) overtakingSchedule).isSome := by decide

def overtaking : State Bool Nat Nat × Observations Bool :=
  (exec observeStep (oneRecord, fun _ => []) overtakingSchedule).get overtakingSchedule_runs

theorem overtaking_stores : (observeStep overtaking (.work true .tick)).isSome := by decide

theorem overtakenSchedule_runs :
    (exec observeStep ((observeStep overtaking (.work true .tick)).get overtaking_stores)
      overtakenSchedule).isSome := by decide

def overtaken : State Bool Nat Nat × Observations Bool :=
  (exec observeStep ((observeStep overtaking (.work true .tick)).get overtaking_stores) overtakenSchedule).get
    overtakenSchedule_runs

theorem overtaken_stores : (observeStep overtaken (.work false .tick)).isSome := by decide

/-- Both stores are of transactions that have taken their locks, and the second one is of a smaller TID. -/
theorem commit_tid_order_overtaken :
    ¬ ∀ (x x' y y' : State Bool Nat Nat × Observations Bool) (v : ValuePtr) (as : List (Action Bool Nat Nat)),
      Reach observeStep observeInit (fun z a => tidOverflow z.1 a = false) x → LockingStore x x' v →
      Admits observeStep (fun z a => tidOverflow z.1 a = false) x' as → exec observeStep x' as = some y →
      LockingStore y y' v → x'.1.ver v < y'.1.ver v := by
  intro hall
  have hadmits : Admits observeStep (fun z a => tidOverflow z.1 a = false) (oneRecord, fun _ => [])
      overtakingSchedule := by decide
  have hlt := hall overtaking _ overtaken _ 0 overtakenSchedule
    (reach_get_of_admits ⟨oneRecord_init, rfl⟩ hadmits overtakingSchedule_runs)
    ⟨true, (Option.some_get overtaking_stores).symm, by decide, by decide, by decide⟩ (by decide)
    (Option.some_get overtakenSchedule_runs).symm
    ⟨false, (Option.some_get overtaken_stores).symm, by decide, by decide, by decide⟩
  exact absurd hlt (by decide)

end Cassa.SiloCC.Occ

import Cassa.SiloCC.OneEpoch

/-!
# The gap between the global epoch and the local ones

Worker 0 advances `GlobalEpoch` when the timer has run out and every other worker is seen
at the current epoch. It looks at them one after the other, and each of them loads
`GlobalEpoch` and stores its local epoch in two steps; but a local epoch never falls, so
whoever was seen at the current epoch is still there when the epoch advances.

The leader does not look at its own local epoch. That is still 0 until it first comes to
the store behind `siloLeaderWork`.
-/

namespace Cassa.SiloCC.Durability

open Cassa.Lib.Runs

variable {K β D : Type}

/-- Where a worker is, as far as epochs go. -/
inductive Phase where
  | other
  /-- the loop of `chkEpochLoaded` at worker `i` -/
  | checking (nowepo i : Nat)
  | adding
  /-- after `siloLeaderWork` and before the load of `GlobalEpoch` -/
  | loading
  /-- with an epoch that is loaded and not stored yet, in `epochWork` or `validationPhase` -/
  | loaded (g : Nat)
  deriving DecidableEq

def Pc.phase : Pc → Phase
  | .chkEpochLoaded _ nowepo i => .checking nowepo i
  | .addGE _ => .adding
  | .loadCTIDW _ => .loading
  | .loadGE _ _ => .loading
  | .storeLocalEpoch _ _ g => .loaded g
  | .validationStore g => .loaded g
  | _ => .other

def Worker.phase (t : Worker K β) : Phase := t.pc.phase

/-- What one step of worker `w` can do to the epochs: `ge'` and `e'` are the global and
its local epoch afterwards and `p'` its phase; `leads` says that the timer has run out. -/
inductive Turn (c : Config) (s : State K β D) (w : Nat) (leads : Prop) : Nat → Nat → Phase → Prop
  | keep {p' : Phase} (h : (s.workers w).phase = .other) (hp : p' = .other ∨ p' = .loading) :
    Turn c s w leads s.GlobalEpoch (s.workers w).ThLocalEpoch p'
  | lead (hl : leads) (hw : w = 0) (h : (s.workers w).phase = .other) :
    Turn c s w leads s.GlobalEpoch (s.workers w).ThLocalEpoch (.checking s.GlobalEpoch 1)
  | seen {n i : Nat} (h : (s.workers w).phase = .checking n i)
    (hi : (s.workers i).ThLocalEpoch = n) :
    Turn c s w leads s.GlobalEpoch (s.workers w).ThLocalEpoch (.checking n (i + 1))
  | unseen {n i : Nat} (h : (s.workers w).phase = .checking n i) :
    Turn c s w leads s.GlobalEpoch (s.workers w).ThLocalEpoch .loading
  | all {n i : Nat} (h : (s.workers w).phase = .checking n i) (hi : c.num_worker_threads ≤ i) :
    Turn c s w leads s.GlobalEpoch (s.workers w).ThLocalEpoch .adding
  | add (h : (s.workers w).phase = .adding) :
    Turn c s w leads (s.GlobalEpoch + 1) (s.workers w).ThLocalEpoch .loading
  | reload (h : (s.workers w).phase = .loading) :
    Turn c s w leads s.GlobalEpoch (s.workers w).ThLocalEpoch .loading
  | load (h : (s.workers w).phase = .loading ∨ (s.workers w).phase = .other) :
    Turn c s w leads s.GlobalEpoch (s.workers w).ThLocalEpoch (.loaded s.GlobalEpoch)
  | store {g : Nat} (h : (s.workers w).phase = .loaded g) : Turn c s w leads s.GlobalEpoch g .other

/-- A step changes the epochs by a turn of its worker and leaves the other workers where
they are. -/
structure EpochStep (c : Config) (s s' : State K β D) (w : Nat) (leads : Prop) : Prop where
  turn : Turn c s w leads s'.GlobalEpoch (s'.workers w).ThLocalEpoch (s'.workers w).phase
  others : ∀ u, u ≠ w → (s'.workers u).ThLocalEpoch = (s.workers u).ThLocalEpoch ∧
    (s'.workers u).phase = (s.workers u).phase

section
variable {c : Config} {s s' : State K β D} {w : Nat} {leads : Prop}

theorem epochStep_of {t' : Worker K β} (hw : s'.workers = Function.update s.workers w t')
    (h : Turn c s w leads s'.GlobalEpoch t'.ThLocalEpoch t'.phase) : EpochStep c s s' w leads where
  turn := by rw [hw, Function.update_self]; exact h
  others u hu := by rw [hw, Function.update_of_ne hu]; exact ⟨rfl, rfl⟩

/-- The worker moves between states that have nothing to do with epochs. -/
theorem epochStep_keep {t' : Worker K β} (hw : s'.workers = Function.update s.workers w t')
    (hge : s'.GlobalEpoch = s.GlobalEpoch) (h : (s.workers w).phase = .other)
    (he : t'.ThLocalEpoch = (s.workers w).ThLocalEpoch) (hp : t'.phase = .other) :
    EpochStep c s s' w leads :=
  epochStep_of hw (hge ▸ he ▸ .keep h (Or.inl hp))

theorem epochStep_same (h : (s.workers w).phase = .other) (hw : s'.workers = s.workers)
    (hge : s'.GlobalEpoch = s.GlobalEpoch) : EpochStep c s s' w leads where
  turn := by rw [hw, hge]; exact .keep h (Or.inl h)
  others u _ := by rw [hw]; exact ⟨rfl, rfl⟩

theorem is_ready_epoch (t : Worker K β) : (is_ready t).1.ThLocalEpoch = t.ThLocalEpoch := by
  unfold is_ready
  split
  · rfl
  split <;> rfl

theorem epochStep_publish {b : LogBuffer K β} {pc' : Pc} (h : (s.workers w).phase = .other)
    (hp : pc'.phase = .other) : EpochStep c s (publish c s w (s.workers w) b pc') w leads := by
  unfold publish
  split
  · exact epochStep_keep rfl rfl h rfl hp
  · exact epochStep_keep rfl rfl h rfl hp

theorem epochReturn_phase (call : Call) : (epochReturn call).phase = .other := by
  cases call <;> rfl

theorem phase_of_pc {pc : Pc} {p : Phase} (h : (s.workers w).pc = pc) (hp : pc.phase = p) :
    (s.workers w).phase = p := by
  rw [Worker.phase, h, hp]

theorem epochStep_tickEpoch (hs : tickEpoch c s w (s.workers w) (s.workers w).pc = some s') :
    EpochStep c s s' w leads := by
  cases epochTicks_of_tickEpoch hs with
  | durableEpochWork hpc | localMoved hpc | localEmpty hpc | localKept hpc | notReady hpc
  | epochDiffers hpc => exact epochStep_keep rfl rfl (phase_of_pc hpc rfl) rfl rfl
  | epochWork hpc => exact epochStep_of rfl (.keep (phase_of_pc hpc rfl) (Or.inr rfl))
  | checkedAll hpc hall => exact epochStep_of rfl (.all (phase_of_pc hpc rfl) hall)
  | checkedBehind hpc => exact epochStep_of rfl (.unseen (phase_of_pc hpc rfl))
  | checkedOne hpc _ heq => exact epochStep_of rfl (.seen (phase_of_pc hpc rfl) heq)
  | addGE hpc => exact epochStep_of rfl (.add (phase_of_pc hpc rfl))
  | loadCTIDW hpc => exact epochStep_of rfl (.reload (phase_of_pc hpc rfl))
  | loadGE hpc => exact epochStep_of rfl (.load (Or.inl (phase_of_pc hpc rfl)))
  | storeLocalEpoch hpc => exact epochStep_of rfl (.store (phase_of_pc hpc rfl))
  | @epochAgrees call _ hpc | @storeCTIDW call _ hpc =>
    exact epochStep_keep rfl rfl (phase_of_pc hpc rfl) rfl (epochReturn_phase call)
  | publish hpc => exact epochStep_publish (phase_of_pc hpc rfl) rfl
  | noBuffer hpc =>
    rcases hpc with ⟨old, hpc, -⟩ | hpc
    · exact epochStep_same (phase_of_pc hpc rfl) rfl rfl
    · exact epochStep_same (phase_of_pc hpc rfl) rfl rfl
  | ready hpc =>
    split
    · exact epochStep_keep rfl rfl (phase_of_pc hpc rfl) (is_ready_epoch _) rfl
    · exact epochStep_keep rfl rfl (phase_of_pc hpc rfl) (is_ready_epoch _) rfl

theorem epochStep_tickCommit (hs : tickCommit c s w (s.workers w) (s.workers w).pc = some s') :
    EpochStep c s s' w leads := by
  cases commitTicks_of_tickCommit hs with
  | validationLoad hpc => exact epochStep_of rfl (.load (Or.inr (phase_of_pc hpc rfl)))
  | validationStore hpc => exact epochStep_of rfl (.store (phase_of_pc hpc rfl))
  | wal hpc | pushRoom hpc | walStore hpc | written hpc | writing hpc =>
    exact epochStep_keep rfl rfl (phase_of_pc hpc rfl) rfl rfl
  | noBuffer hpc | waiting hpc => exact epochStep_same (phase_of_pc hpc rfl) rfl rfl
  | pushFull hpc => exact epochStep_publish (phase_of_pc hpc rfl) rfl
  | @pushed tid new_epoch_begins b hpc =>
    refine epochStep_keep rfl rfl (phase_of_pc hpc rfl) (is_ready_epoch _) ?_
    cases new_epoch_begins <;> rfl

theorem epochStep_work {op : Op K β} (hs : work c s w op = some s') :
    EpochStep c s s' w (op = .lead) := by
  cases works_of_work hs with
  | tickEpoch hs => exact epochStep_tickEpoch hs
  | tickCommit hs => exact epochStep_tickCommit hs
  | lead hpc hw => exact epochStep_of rfl (.lead rfl hw (phase_of_pc hpc rfl))
  | observe hpc | write hpc => exact epochStep_keep rfl rfl (phase_of_pc hpc rfl) rfl (phase_of_pc hpc rfl)
  | noRequest hpc | request hpc | refuse hpc | validate hpc | pass hpc | fail hpc =>
    exact epochStep_keep rfl rfl (phase_of_pc hpc rfl) rfl rfl

/-- A logger has no part in the epochs: a returned buffer is all that a worker sees of it. -/
theorem log_epochs {hash : Hash K β D} {l : Nat} (hs : log c hash s l = some s') :
    s'.GlobalEpoch = s.GlobalEpoch ∧ ∀ u, (s'.workers u).ThLocalEpoch = (s.workers u).ThLocalEpoch ∧
      (s'.workers u).phase = (s.workers u).phase := by
  cases logs_of_log hs with
  | @returnBuffer _ b =>
    refine ⟨rfl, fun u => ?_⟩
    by_cases hu : u = b.pool_
    · subst hu
      simp [State.returnBuffer, Worker.phase]
    · rw [State.returnBuffer, setWorker_other _ _ _ hu]
      exact ⟨rfl, rfl⟩
  | _ => exact ⟨rfl, fun u => ⟨rfl, rfl⟩⟩

/-- The local epochs of all workers but the first `i` ones are open; those in between have
been seen at the global epoch. -/
def SeenTo (c : Config) (s : State K β D) (i : Nat) : Prop :=
  ∀ j, 1 ≤ j → j < i → j < c.num_worker_threads → (s.workers j).ThLocalEpoch = s.GlobalEpoch

/-- What the leader's phase says. Outside `epochWork` its local epoch is the global one,
unless it has not stored any yet. -/
def LeaderOk (c : Config) (s : State K β D) : Prop :=
  match (s.workers 0).phase with
  | .other => (s.workers 0).ThLocalEpoch = s.GlobalEpoch ∨
      (s.workers 0).ThLocalEpoch = 0 ∧ s.GlobalEpoch = 1
  | .checking n i => n = s.GlobalEpoch ∧ (s.workers 0).ThLocalEpoch = s.GlobalEpoch ∧ SeenTo c s i
  | .adding => (s.workers 0).ThLocalEpoch = s.GlobalEpoch ∧ SeenTo c s c.num_worker_threads
  | .loading => True
  | .loaded g => g = s.GlobalEpoch

structure GapInv (c : Config) (s : State K β D) : Prop where
  gap : ∀ w, w < c.num_worker_threads →
    (s.workers w).ThLocalEpoch ≤ s.GlobalEpoch ∧ s.GlobalEpoch ≤ (s.workers w).ThLocalEpoch + 1
  /-- an epoch that is about to be stored is not older than the one it replaces -/
  loaded : ∀ w g, (s.workers w).phase = .loaded g → (s.workers w).ThLocalEpoch ≤ g ∧ g ≤ s.GlobalEpoch
  follower : ∀ w, w ≠ 0 → (∀ n i, (s.workers w).phase ≠ .checking n i) ∧ (s.workers w).phase ≠ .adding
  leader : LeaderOk c s

/-- The epoch timer has not run out before worker 0 has stored its local epoch once. -/
def LeadsAfterStore (s : State K β D) : Action K β → Prop
  | .work w .lead => (s.workers w).ThLocalEpoch ≠ 0
  | _ => True

instance (s : State K β D) : (a : Action K β) → Decidable (LeadsAfterStore s a)
  | .work w .lead => inferInstanceAs (Decidable ((s.workers w).ThLocalEpoch ≠ 0))
  | .work _ .tick => isTrue trivial
  | .work _ .noRequest => isTrue trivial
  | .work _ .request => isTrue trivial
  | .work _ (.observe _) => isTrue trivial
  | .work _ (.write _) => isTrue trivial
  | .work _ .refuse => isTrue trivial
  | .work _ .validate => isTrue trivial
  | .work _ .pass => isTrue trivial
  | .work _ .fail => isTrue trivial
  | .log _ => isTrue trivial

theorem SeenTo.congr {i : Nat} (h : SeenTo c s i) (hge : s'.GlobalEpoch = s.GlobalEpoch)
    (hup : ∀ j, j < c.num_worker_threads → (s.workers j).ThLocalEpoch ≤ (s'.workers j).ThLocalEpoch ∧
      (s'.workers j).ThLocalEpoch ≤ s.GlobalEpoch) : SeenTo c s' i := by
  intro j h1 hi hj
  have := h j h1 hi hj
  have := hup j hj
  omega

/-- The leader stays where it is, and the others do not fall back. -/
theorem LeaderOk.congr (h : LeaderOk c s) (hge : s'.GlobalEpoch = s.GlobalEpoch)
    (he : (s'.workers 0).ThLocalEpoch = (s.workers 0).ThLocalEpoch)
    (hp : (s'.workers 0).phase = (s.workers 0).phase)
    (hup : ∀ j, j < c.num_worker_threads → (s.workers j).ThLocalEpoch ≤ (s'.workers j).ThLocalEpoch ∧
      (s'.workers j).ThLocalEpoch ≤ s.GlobalEpoch) : LeaderOk c s' := by
  unfold LeaderOk at h ⊢
  rw [hp]
  cases hphase : (s.workers 0).phase with
  | other => simp only [hphase] at h ⊢; rwa [he, hge]
  | checking n i =>
    simp only [hphase] at h ⊢
    obtain ⟨hn, h0, hseen⟩ := h
    exact ⟨hn.trans hge.symm, by rw [he, hge, h0], hseen.congr hge hup⟩
  | adding =>
    simp only [hphase] at h ⊢
    exact ⟨by rw [he, hge, h.1], h.2.congr hge hup⟩
  | loading => trivial
  | loaded g => simp only [hphase] at h ⊢; rwa [hge]

/-- No epoch changes: only the phase of `w` does. -/
theorem GapInv.of_phase (h : GapInv c s) (hge : s'.GlobalEpoch = s.GlobalEpoch)
    (he : ∀ u, (s'.workers u).ThLocalEpoch = (s.workers u).ThLocalEpoch)
    (hp : ∀ u, u ≠ w → (s'.workers u).phase = (s.workers u).phase)
    (hloaded : ∀ g, (s'.workers w).phase = .loaded g → (s.workers w).ThLocalEpoch ≤ g ∧ g ≤ s.GlobalEpoch)
    (hfollower : w ≠ 0 → (∀ n i, (s'.workers w).phase ≠ .checking n i) ∧ (s'.workers w).phase ≠ .adding)
    (hleader : w = 0 → LeaderOk c s') : GapInv c s' where
  gap u hu := by rw [he, hge]; exact h.gap u hu
  loaded u g hg := by
    rw [he, hge]
    by_cases hu : u = w
    · subst hu; exact hloaded g hg
    · rw [hp u hu] at hg; exact h.loaded u g hg
  follower u h0 := by
    by_cases hu : u = w
    · subst hu; exact hfollower h0
    · rw [hp u hu]; exact h.follower u h0
  leader := by
    by_cases hw : w = 0
    · exact hleader hw
    · refine h.leader.congr hge (he 0) (hp 0 fun h0 => hw h0.symm) fun j hj => ?_
      rw [he]
      exact ⟨Nat.le_refl _, (h.gap j hj).1⟩

theorem GapInv.checking (h : GapInv c s) {n i : Nat} (hp : (s.workers w).phase = .checking n i) :
    w = 0 ∧ n = s.GlobalEpoch ∧ (s.workers 0).ThLocalEpoch = s.GlobalEpoch ∧ SeenTo c s i := by
  have hw : w = 0 := by
    by_contra hw
    exact (h.follower w hw).1 n i hp
  subst hw
  have := h.leader
  simp only [LeaderOk, hp] at this
  exact ⟨rfl, this⟩

/-- The leader advances the global epoch. -/
theorem GapInv.add (h : GapInv c s) (hadd : (s.workers w).phase = .adding)
    (hge : s'.GlobalEpoch = s.GlobalEpoch + 1)
    (he : ∀ u, (s'.workers u).ThLocalEpoch = (s.workers u).ThLocalEpoch)
    (hp : ∀ u, u ≠ w → (s'.workers u).phase = (s.workers u).phase)
    (hphase : (s'.workers w).phase = .loading) : GapInv c s' := by
  have hw0 : w = 0 := by
    by_contra hw0
    exact (h.follower w hw0).2 hadd
  subst hw0
  have hleader := h.leader
  simp only [LeaderOk, hadd] at hleader
  obtain ⟨h0, hseen⟩ := hleader
  have hall : ∀ u, u < c.num_worker_threads → (s.workers u).ThLocalEpoch = s.GlobalEpoch := by
    intro u hu
    rcases Nat.eq_zero_or_pos u with rfl | hpos
    · exact h0
    · exact hseen u hpos hu hu
  constructor
  · intro u hu
    rw [he, hge, hall u hu]
    omega
  · intro u g hg
    by_cases hu : u = 0
    · subst hu
      rw [hphase] at hg
      cases hg
    · rw [hp u hu] at hg
      rw [he, hge]
      have := h.loaded u g hg
      omega
  · intro u hu
    rw [hp u hu]
    exact h.follower u hu
  · simp only [LeaderOk, hphase]

/-- A worker stores the global epoch that it has loaded. -/
theorem GapInv.store (h : GapInv c s) {g : Nat} (hload : (s.workers w).phase = .loaded g)
    (hge : s'.GlobalEpoch = s.GlobalEpoch) (hlocal : (s'.workers w).ThLocalEpoch = g)
    (hphase : (s'.workers w).phase = .other)
    (hothers : ∀ u, u ≠ w → (s'.workers u).ThLocalEpoch = (s.workers u).ThLocalEpoch ∧
      (s'.workers u).phase = (s.workers u).phase) : GapInv c s' := by
  have hbound := h.loaded w g hload
  have hup : ∀ u, (s.workers u).ThLocalEpoch ≤ (s'.workers u).ThLocalEpoch := by
    intro u
    by_cases hu : u = w
    · rw [hu, hlocal]
      exact hbound.1
    · rw [(hothers u hu).1]
  have htop : ∀ u, u < c.num_worker_threads → (s'.workers u).ThLocalEpoch ≤ s.GlobalEpoch := by
    intro u hu
    by_cases hu' : u = w
    · rw [hu', hlocal]
      exact hbound.2
    · rw [(hothers u hu').1]
      exact (h.gap u hu).1
  constructor
  · intro u hu
    have := h.gap u hu
    have := hup u
    have := htop u hu
    omega
  · intro u g' hg
    by_cases hu : u = w
    · rw [hu, hphase] at hg
      cases hg
    · rw [(hothers u hu).2] at hg
      rw [(hothers u hu).1, hge]
      exact h.loaded u g' hg
  · intro u hu
    by_cases hu' : u = w
    · rw [hu', hphase]
      simp
    · rw [(hothers u hu').2]
      exact h.follower u hu
  · by_cases hw0 : w = 0
    · subst hw0
      have hleader := h.leader
      simp only [LeaderOk, hload] at hleader
      simp only [LeaderOk, hphase]
      rw [hlocal, hge]
      exact Or.inl hleader
    · have h0 : 0 ≠ w := fun h0 => hw0 h0.symm
      exact h.leader.congr hge (hothers 0 h0).1 (hothers 0 h0).2 fun j hj => ⟨hup j, htop j hj⟩

theorem GapInv.step (h : GapInv c s) (hw : w < c.num_worker_threads) (hs : EpochStep c s s' w leads)
    (hlead : leads → (s.workers w).ThLocalEpoch ≠ 0) : GapInv c s' := by
  obtain ⟨hturn, hothers⟩ := hs
  have hp : ∀ u, u ≠ w → (s'.workers u).phase = (s.workers u).phase := fun u hu => (hothers u hu).2
  have he : (s'.workers w).ThLocalEpoch = (s.workers w).ThLocalEpoch →
      ∀ u, (s'.workers u).ThLocalEpoch = (s.workers u).ThLocalEpoch := by
    intro hself u
    by_cases hu : u = w
    · rw [hu]; exact hself
    · exact (hothers u hu).1
  have hgap := h.gap w hw
  generalize hge : s'.GlobalEpoch = ge' at hturn
  generalize hlocal : (s'.workers w).ThLocalEpoch = e' at hturn
  generalize hphase : (s'.workers w).phase = p' at hturn
  cases hturn with
  | keep hother hp' =>
    refine h.of_phase hge (he hlocal) hp ?_ ?_ ?_
    · intro g hg
      rcases hp' with rfl | rfl <;> rw [hphase] at hg <;> cases hg
    · intro _
      rcases hp' with rfl | rfl <;> simp [hphase]
    · rintro rfl
      have := h.leader
      simp only [LeaderOk, hother] at this
      rcases hp' with rfl | rfl
      · simp only [LeaderOk, hphase]
        rwa [hlocal, hge]
      · simp only [LeaderOk, hphase]
  | lead hl hw0 hother =>
    subst hw0
    have hne := hlead hl
    have := h.leader
    simp only [LeaderOk, hother] at this
    have heq : (s.workers 0).ThLocalEpoch = s.GlobalEpoch := by omega
    refine h.of_phase hge (he hlocal) hp (by simp [hphase]) (by simp) fun _ => ?_
    simp only [LeaderOk, hphase]
    refine ⟨hge.symm, by rw [hlocal, hge, heq], fun j h1 h2 => ?_⟩
    omega
  | @seen n i hchk hi =>
    obtain ⟨rfl, hn, h0, hseen⟩ := h.checking hchk
    refine h.of_phase hge (he hlocal) hp (by simp [hphase]) (by simp) fun _ => ?_
    simp only [LeaderOk, hphase]
    refine ⟨hn.trans hge.symm, by rw [hlocal, hge, h0], fun j h1 h2 h3 => ?_⟩
    rw [he hlocal, hge]
    rcases Nat.lt_succ_iff_lt_or_eq.mp h2 with h2 | rfl
    · exact hseen j h1 h2 h3
    · exact hi.trans hn
  | unseen hchk =>
    obtain ⟨rfl, -⟩ := h.checking hchk
    refine h.of_phase hge (he hlocal) hp (by simp [hphase]) (by simp) fun _ => ?_
    simp only [LeaderOk, hphase]
  | @all n i hchk hi =>
    obtain ⟨rfl, hn, h0, hseen⟩ := h.checking hchk
    refine h.of_phase hge (he hlocal) hp (by simp [hphase]) (by simp) fun _ => ?_
    simp only [LeaderOk, hphase]
    refine ⟨by rw [hlocal, hge, h0], fun j h1 h2 h3 => ?_⟩
    rw [he hlocal, hge]
    exact hseen j h1 (h2.trans_le hi) h3
  | add hadd => exact h.add hadd hge (he hlocal) hp hphase
  | reload hload =>
    refine h.of_phase hge (he hlocal) hp (by simp [hphase]) (by simp [hphase]) ?_
    rintro rfl
    simp only [LeaderOk, hphase]
  | load hload =>
    refine h.of_phase hge (he hlocal) hp ?_ (by simp [hphase]) ?_
    · intro g hg
      rw [hphase, Phase.loaded.injEq] at hg
      omega
    · rintro rfl
      simp only [LeaderOk, hphase]
      exact hge.symm
  | store hload => exact h.store hload hge hlocal hphase hothers

theorem gapInv_init {hash : Hash K β D} (h : Init hash s) : GapInv c s := by
  have hnew : ∀ w, (s.workers w).ThLocalEpoch = 0 ∧ (s.workers w).phase = .other := by
    intro w
    rw [h.workers w]
    exact ⟨rfl, rfl⟩
  refine ⟨fun w _ => ?_, fun w g hg => ?_, fun w _ => ?_, ?_⟩
  · rw [(hnew w).1, h.epoch]
    omega
  · rw [(hnew w).2] at hg
    cases hg
  · rw [(hnew w).2]
    simp
  · simp only [LeaderOk, (hnew 0).2]
    exact Or.inr ⟨(hnew 0).1, h.epoch⟩

theorem GapInv.log {hash : Hash K β D} {l : Nat} (h : GapInv c s) (hs : log c hash s l = some s') :
    GapInv c s' := by
  obtain ⟨hge, hsame⟩ := log_epochs hs
  have he := fun u => (hsame u).1
  have hp := fun u => (hsame u).2
  refine ⟨fun w hw => ?_, fun w g hg => ?_, fun w hw => ?_, ?_⟩
  · rw [he, hge]; exact h.gap w hw
  · rw [hp] at hg
    rw [he, hge]
    exact h.loaded w g hg
  · rw [hp]; exact h.follower w hw
  · exact h.leader.congr hge (he 0) (hp 0) fun j hj => by rw [he]; exact ⟨Nat.le_refl _, (h.gap j hj).1⟩

end

/-- Every local epoch is the global one or the one before it, in every state of every run
in which the leader does not advance the epoch before its own first store. -/
theorem epoch_gap {c : Config} {hash : Hash K β D} {s : State K β D}
    (h : Reach (step c hash) (Init hash) LeadsAfterStore s) :
    ∀ i, i < c.num_worker_threads →
      s.GlobalEpoch - 1 ≤ (s.workers i).ThLocalEpoch ∧ (s.workers i).ThLocalEpoch ≤ s.GlobalEpoch := by
  have hinv : GapInv c s := by
    refine Reach.invariant (I := GapInv c) (fun _ => gapInv_init) ?_ h
    intro s a s' hI hok hs
    cases steps_of_step hs with
    | work _ hw hs =>
      refine hI.step hw (epochStep_work hs) ?_
      rintro rfl
      exact hok
    | log _ _ hs => exact hI.log hs
  intro i hi
  have := hinv.gap i hi
  omega

/-- Worker 1 is at epoch 1; worker 0 finds the timer run out the first time it looks. -/
def earlyLeadSchedule : List (Action Nat Nat) :=
  ticks 1 5 ++ [.work 0 .tick, .work 0 .lead] ++ ticks 0 3

theorem earlyLeadSchedule_runs :
    (exec (step twoWorkers unitHash) started earlyLeadSchedule).isSome := by decide

/-- The global epoch is 2 and the local epoch of worker 0 is still 0. -/
theorem epoch_gap_early_lead :
    ¬ ∀ s : State Nat Nat Unit, Reach (step twoWorkers unitHash) (Init unitHash) anyStep s →
      ∀ i, i < twoWorkers.num_worker_threads →
        s.GlobalEpoch - 1 ≤ (s.workers i).ThLocalEpoch ∧ (s.workers i).ThLocalEpoch ≤ s.GlobalEpoch := by
  intro h
  have := (h _ (reach_get started_init earlyLeadSchedule_runs) 0 (by decide)).1
  revert this
  decide

/-- The same with worker 0 idle before. -/
def leadSchedule : List (Action Nat Nat) :=
  ticks 1 5 ++ ticks 0 9 ++ [.work 0 .noRequest, .work 0 .tick, .work 0 .lead] ++ ticks 0 3

theorem leadSchedule_runs : (exec (step twoWorkers unitHash) started leadSchedule).isSome := by decide

theorem leadSchedule_admits :
    Admits (step twoWorkers unitHash) LeadsAfterStore started leadSchedule := by decide

theorem epoch_gap_lead :
    ((exec (step twoWorkers unitHash) started leadSchedule).get leadSchedule_runs).GlobalEpoch = 2 ∧
    ∀ i, i < twoWorkers.num_worker_threads →
      2 - 1 ≤ ((((exec (step twoWorkers unitHash) started leadSchedule).get
        leadSchedule_runs).workers i).ThLocalEpoch) ∧
      ((((exec (step twoWorkers unitHash) started leadSchedule).get
        leadSchedule_runs).workers i).ThLocalEpoch) ≤ 2 :=
  ⟨by decide, epoch_gap (reach_get_of_admits started_init leadSchedule_admits leadSchedule_runs)⟩

end Cassa.SiloCC.Durability

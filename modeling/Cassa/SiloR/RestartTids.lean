import Cassa.SiloR.ReplayOnce
import Cassa.SiloCC.Occ
import Cassa.Lib.Runs

/-!
# Commit TIDs after a restart

Recovery rebuilds the records with fresh TID words, the workers start with fresh TIDs,
and the global epoch continues at the durable epoch. So the first commits after a restart
are numbered from the start of the durable epoch again, and stand behind the old ones
only if no record of that epoch (or of a later one) has been replayed.
-/

namespace Cassa.SiloCC.Occ

open Cassa.Lib.Runs

variable {W K β : Type} [DecidableEq W] [DecidableEq K] [DecidableEq β]

/-- A worker between its load of the global epoch and its commit has an epoch from `d`
to `g` in hand. -/
def EpochRead (d g : Nat) (t : TxExecutor K β) : Prop :=
  match t.pc with
  | .storeEpoch e => d ≤ e ∧ e ≤ g
  | .validating _ => d ≤ t.localEpoch ∧ t.localEpoch ≤ g
  | _ => True

structure EpochFloor (d : Nat) (s : State W K β) : Prop where
  global : d ≤ s.GlobalEpoch
  workers : ∀ w, EpochRead d s.GlobalEpoch (s.workers w)
  committed : s.GlobalEpoch < 2 ^ 32 → ∀ c ∈ s.committed, d ≤ c.tid.epoch.toNat

variable {d : Nat} {s s' : State W K β} {w : W}

section
omit [DecidableEq K] [DecidableEq β]

theorem EpochRead.mono {g g' : Nat} (hg : g ≤ g') {t : TxExecutor K β} (ht : EpochRead d g t) :
    EpochRead d g' t := by
  unfold EpochRead at ht ⊢
  split
  · rename_i hpc
    rw [hpc] at ht
    exact ⟨ht.1, ht.2.trans hg⟩
  · rename_i hpc
    rw [hpc] at ht
    exact ⟨ht.1, ht.2.trans hg⟩
  · trivial

/-- A step of one worker that commits nothing. -/
theorem EpochFloor.of_worker (h : EpochFloor d s) {t' : TxExecutor K β}
    (hworkers : s'.workers = Function.update s.workers w t') (hglobal : s'.GlobalEpoch = s.GlobalEpoch)
    (hcommitted : s'.committed = s.committed) (ht : EpochRead d s.GlobalEpoch t') : EpochFloor d s' where
  global := by rw [hglobal]; exact h.global
  workers u := by
    rw [hworkers, hglobal]
    by_cases hu : u = w
    · subst hu
      rwa [Function.update_self]
    · rw [Function.update_of_ne hu]
      exact h.workers u
  committed := by
    rw [hglobal, hcommitted]
    exact h.committed

theorem EpochFloor.setWorker (h : EpochFloor d s) {t' : TxExecutor K β}
    (ht : EpochRead d s.GlobalEpoch t') : EpochFloor d (s.setWorker w t') :=
  h.of_worker rfl rfl rfl ht

end

section
omit [DecidableEq β]

theorem epochFloor_read (h : EpochFloor d s) (hpc : (s.workers w).pc = .running) (k : K) :
    EpochFloor d (s.setWorker w (read s (s.workers w) k)) := by
  refine h.setWorker ?_
  unfold read
  repeat' split
  · simp [EpochRead, hpc]
  · simp [EpochRead, hpc]
  · trivial
  · trivial

theorem epochFloor_write (h : EpochFloor d s) (hpc : (s.workers w).pc = .running) (k : K) (b : β) :
    EpochFloor d (s.setWorker w (write s (s.workers w) k b)) := by
  refine h.setWorker ?_
  unfold write
  repeat' split
  · simp [EpochRead, hpc]
  · trivial
  · simp [EpochRead, hpc]

theorem epochFloor_delete (h : EpochFloor d s) (hpc : (s.workers w).pc = .running) (k : K) (b : β) :
    EpochFloor d (s.setWorker w (tx_delete s (s.workers w) k b)) := by
  refine h.setWorker ?_
  unfold tx_delete
  repeat' split
  · trivial
  · simp [EpochRead, hpc]
  · trivial
  · simp [EpochRead, hpc]

theorem epochFloor_insert (h : EpochFloor d s) (hpc : (s.workers w).pc = .running) (k : K) (b : β) :
    EpochFloor d (insert s w (s.workers w) k b) := by
  unfold insert
  repeat' split
  · exact h.setWorker trivial
  · exact h.setWorker trivial
  · refine h.of_worker rfl rfl rfl ?_
    simp [EpochRead, hpc]

end

section
omit [DecidableEq K] [DecidableEq β]

theorem epochFloor_locking (h : EpochFloor d s) (i : Nat) (e : Option TIDword) :
    EpochFloor d (stepLocking s w (s.workers w) i e) := by
  generalize hs : stepLocking s w (s.workers w) i e = s'
  cases lockings_of_stepLocking hs with
  | lock => exact h.of_worker rfl rfl rfl trivial
  | _ => exact h.setWorker trivial

theorem epochFloor_unlock (h : EpochFloor d s) (i stop : Nat) (e : Option TIDword)
    {again : Nat → Option TIDword → Pc K} {done : Pc K}
    (hagain : ∀ i e, EpochRead d s.GlobalEpoch ((s.workers w).goto (again i e)))
    (hdone : EpochRead d s.GlobalEpoch ((s.workers w).goto done)) :
    EpochFloor d (stepUnlock s w (s.workers w) i stop e again done) := by
  generalize hs : stepUnlock s w (s.workers w) i stop e again done = s'
  cases unlocks_of_stepUnlock hs with
  | done => exact h.setWorker hdone
  | insert | load => exact h.setWorker (hagain _ _)
  | unlock => exact h.of_worker rfl rfl rfl (hagain _ _)

end

omit [DecidableEq β] in
theorem epochFloor_aborting (h : EpochFloor d s) (i : Nat) :
    EpochFloor d (stepAborting s w (s.workers w) i) := by
  unfold stepAborting
  repeat' split
  · exact h.setWorker trivial
  · exact h.of_worker rfl rfl rfl trivial
  · exact h.setWorker trivial

omit [DecidableEq K] [DecidableEq β] in
theorem epochFloor_writing (h : EpochFloor d s) {i : Nat} {m : TIDword} {b : Bool}
    (hs : stepWriting s w (s.workers w) i m b = some s') : EpochFloor d s' := by
  cases writings_of_stepWriting hs
  all_goals exact h.of_worker rfl rfl rfl trivial

section
omit [DecidableEq β]

/-- The commit TID has at least the epoch that the worker has loaded. -/
theorem epochFloor_validating (h : EpochFloor d s) {i : Nat} (hpc : (s.workers w).pc = .validating i) :
    EpochFloor d (stepValidating s w (s.workers w) i) := by
  have hread := h.workers w
  unfold EpochRead at hread
  rw [hpc] at hread
  obtain ⟨hfrom, hto⟩ := hread
  unfold stepValidating
  split
  · have hset : EpochFloor d (s.setWorker w (s.workers w).enterWritePhase) := h.setWorker trivial
    refine ⟨h.global, hset.workers, ?_⟩
    intro hlt c hc
    rcases List.mem_append.mp hc with hc | hc
    · exact h.committed hlt c hc
    · rw [List.mem_singleton.mp hc]
      change d ≤ (commitTid _ _ _ (s.workers w).localEpoch).epoch.toNat
      have hmod : (s.workers w).localEpoch % 2 ^ 32 = (s.workers w).localEpoch :=
        Nat.mod_eq_of_lt (lt_of_le_of_lt hto hlt)
      rw [commitTid_epoch, hmod]
      omega
  · dsimp only
    split
    · exact h.setWorker trivial
    · exact h.setWorker ⟨hfrom, hto⟩

theorem epochFloor_tick (h : EpochFloor d s) (hs : tick s w (s.workers w) = some s') :
    EpochFloor d s' := by
  cases ticks_of_tick hs with
  | readSpin =>
    refine h.setWorker ?_
    unfold stepReadSpin
    repeat' split
    all_goals trivial
  | readBody => exact h.setWorker trivial
  | locking => exact epochFloor_locking h _ _
  | unlockPrefix | unlocking => exact epochFloor_unlock h _ _ _ (fun _ _ => trivial) trivial
  | loadEpoch => exact h.setWorker ⟨h.global, Nat.le_refl _⟩
  | storeEpoch hpc =>
    have hread := h.workers w
    unfold EpochRead at hread
    rw [hpc] at hread
    exact h.setWorker hread
  | validating hpc => exact epochFloor_validating h hpc
  | aborting => exact epochFloor_aborting h _
  | writing _ hs => exact epochFloor_writing h hs

end

variable [Inhabited β]

theorem epochFloor_step {a : Action W K β} (h : EpochFloor d s) (hs : step s a = some s') :
    EpochFloor d s' := by
  cases a with
  | advanceEpoch =>
    obtain rfl := Option.some.inj hs
    refine ⟨Nat.le_succ_of_le h.global, fun u => (h.workers u).mono (Nat.le_succ _), ?_⟩
    intro hlt
    exact h.committed (Nat.lt_of_succ_lt hlt)
  | work u op =>
    cases works_of_work hs with
    | begin | validate => exact h.setWorker trivial
    | read hpc => exact epochFloor_read h hpc _
    | write hpc => exact epochFloor_write h hpc _ _
    | insert hpc => exact epochFloor_insert h hpc _ _
    | delete hpc => exact epochFloor_delete h hpc _ default
    | tick hs => exact epochFloor_tick h hs

/-- Run lemma: as long as the epoch fits into its 32 bits, no commit falls behind the
epoch that the server started in. -/
theorem epochFloor_reach {s₀ : State W K β} (h₀ : Init s₀) (hr : Reach step (Eq s₀) anyStep s) :
    EpochFloor s₀.GlobalEpoch s := by
  refine hr.invariant ?_ (fun _ _ _ h _ hs => epochFloor_step h hs)
  rintro _ rfl
  refine ⟨Nat.le_refl _, ?_, ?_⟩
  · intro w
    rw [h₀.workers w]
    trivial
  · rw [h₀.committed]
    simp

/-- One `WRITE` of a record with a fresh TID word. -/
def writeSchedule (w : W) (k : K) (b : β) (v : ValuePtr) : List (Action W K β) :=
  [.work w .begin, .work w (.write k b), .work w (.validate [⟨k, v, b, .WRITE⟩]), .work w .tick,
    .work w .tick, .work w .tick, .work w .tick, .work w .tick, .work w .tick]

theorem writeSchedule_commits {k : K} {b : β} {v : ValuePtr} (hworker : s.workers w = .new)
    (htree : s.tree k = some v) (hword : (s.mem v).tidword_ = .new) (hnone : s.committed = []) :
    ∃ s', exec step s (writeSchedule w k b v) = some s' ∧ s'.GlobalEpoch = s.GlobalEpoch ∧
      s'.committed =
        [⟨w, [], [⟨k, v, b, .WRITE⟩], commitTid .zero .new .new s.GlobalEpoch⟩] := by
  have hmax : TIDword.max .zero .new = .new := by decide
  have hlock : TIDword.new.lock = false := rfl
  simp [writeSchedule, exec, step, work, tick, hworker, TxExecutor.new, TxExecutor.begin, write,
    searchWriteSet, findValue, searchReadSet, htree, stepLocking, hword, stepValidating,
    TxExecutor.enterWritePhase, TxExecutor.toCommitted, TxExecutor.goto, State.setWorker, hnone,
    State.setTid, hmax, hlock, State.tidword]

/-- One `INSERT` of a key that does not exist. -/
def insertSchedule (w : W) (k : K) (b : β) (v : ValuePtr) : List (Action W K β) :=
  [.work w .begin, .work w (.insert k b), .work w (.validate [⟨k, v, b, .INSERT⟩]), .work w .tick,
    .work w .tick, .work w .tick, .work w .tick, .work w .tick, .work w .tick]

theorem insertSchedule_commits {k : K} {b : β} (hworker : s.workers w = .new)
    (htree : s.tree k = none) (hnone : s.committed = []) :
    ∃ s', exec step s (insertSchedule w k b s.next) = some s' ∧ s'.GlobalEpoch = s.GlobalEpoch ∧
      s'.committed =
        [⟨w, [⟨⟨k, s.next, TIDword.new.init, .READ⟩, none⟩], [⟨k, s.next, b, .INSERT⟩],
          commitTid TIDword.new.init .zero .new s.GlobalEpoch⟩] := by
  have hmax : TIDword.max .zero TIDword.new.init = TIDword.new.init := by decide
  have hlock : TIDword.new.init.lock = true := rfl
  simp [insertSchedule, exec, step, work, tick, hworker, TxExecutor.new, TxExecutor.begin, insert,
    searchWriteSet, htree, stepLocking, stepValidating, validationFails,
    TxExecutor.enterWritePhase, TxExecutor.toCommitted, TxExecutor.goto, State.setWorker, hnone,
    hmax, hlock, State.tidword]

end Cassa.SiloCC.Occ

namespace Cassa.SiloR

open Cassa.SiloCC Cassa.SiloCC.Occ Cassa.Lib.Runs

variable {W K β D σ : Type} [DecidableEq W] [DecidableEq K] [DecidableEq β] [Inhabited β] [DecidableEq D]

/-- The server that starts on what recovery has left: a fresh record for every key, and
the durable epoch as the global one. -/
structure Restarted (durable_epoch : Nat) (masstree : K → Option β) (s : State W K β) : Prop where
  init : Init s
  epoch : s.GlobalEpoch = durable_epoch
  records : ∀ k, (s.tree k).map s.mem = (masstree k).map fun b => ⟨.new, b⟩

/-- No commit of the restarted server is numbered behind a replayed record, until the
epoch outgrows its 32 bits. -/
def TidsAdvance (s₀ : State W K β) (records : List (RecoveryLogRecord K β D)) : Prop :=
  ∀ s, Reach step (Eq s₀) anyStep s → s.GlobalEpoch < 2 ^ 32 → ∀ c ∈ s.committed, ∀ r ∈ records,
    r.tid_.ver < c.tid.ver

omit [DecidableEq D] in
theorem tidsAdvance_of_earlier {s₀ : State W K β} {records : List (RecoveryLogRecord K β D)}
    (h₀ : Init s₀) (hearlier : ∀ r ∈ records, r.tid_.epoch.toNat < s₀.GlobalEpoch) :
    TidsAdvance s₀ records := by
  intro s hr hlt c hc r hmem
  have hfloor := (epochFloor_reach h₀ hr).committed hlt c hc
  have hepoch := hearlier r hmem
  have hTID := r.tid_.TID.isLt
  unfold TIDword.ver
  omega

/-- The number of the first commit in a new epoch. -/
theorem ver_commitTid_first {r x : TIDword} {e : Nat} (hr : (TIDword.max r x).incTID.ver ≤ 1)
    (he : 0 < e) (hlt : e < 2 ^ 32) : (commitTid r x .new e).ver = 2 ^ 29 * e := by
  have hb : TIDword.new.incTID.ver = 1 := by decide
  have hepoch : (BitVec.ofNat 32 e).toNat = e := by
    rw [BitVec.toNat_ofNat, Nat.mod_eq_of_lt hlt]
  have hc : (epochWord e).ver = 2 ^ 29 * e := by
    change 2 ^ 29 * (BitVec.ofNat 32 e).toNat + 0 = _
    rw [hepoch, Nat.add_zero]
  rw [commitTid_ver, hb, hc]
  omega

/-- A write of one key is the first commit of the restarted server. -/
theorem Restarted.first_commit {durable : Nat} {m : K → Option β} {s₀ : State W K β}
    (h₀ : Restarted durable m s₀) (w : W) (k : K) (b : β) (hpos : 0 < durable)
    (hlt : durable < 2 ^ 32) :
    ∃ s, Reach step (Eq s₀) anyStep s ∧ s.GlobalEpoch = durable ∧
      ∃ c ∈ s.committed, c.tid.ver = 2 ^ 29 * durable ∧ ∃ we ∈ c.write_set_, we.key_ = k := by
  have hworker := h₀.init.workers w
  have hnone := h₀.init.committed
  rw [← h₀.epoch] at hpos hlt ⊢
  cases htree : s₀.tree k with
  | some v =>
    have hword : (s₀.mem v).tidword_ = .new := by
      have hrec := h₀.records k
      rw [htree, Option.map_some] at hrec
      obtain ⟨b', -, hb'⟩ := Option.map_eq_some_iff.mp hrec.symm
      rw [← hb']
    obtain ⟨s, hrun, hepoch, hcommitted⟩ := writeSchedule_commits (b := b) hworker htree hword hnone
    refine ⟨s, reach_of_exec rfl hrun, hepoch, _, by rw [hcommitted]; exact List.mem_cons_self, ?_, ?_⟩
    · exact ver_commitTid_first (by decide) hpos hlt
    · exact ⟨_, List.mem_cons_self, rfl⟩
  | none =>
    obtain ⟨s, hrun, hepoch, hcommitted⟩ := insertSchedule_commits (b := b) hworker htree hnone
    refine ⟨s, reach_of_exec rfl hrun, hepoch, _, by rw [hcommitted]; exact List.mem_cons_self, ?_, ?_⟩
    · exact ver_commitTid_first (by decide) hpos hlt
    · exact ⟨_, List.mem_cons_self, rfl⟩

variable {h : Hash K β D} {sort : TidSort K β D} {index : Index K β σ}

/-- On whatever records recovery has left, every commit is numbered behind every replayed
record if all of those are of epochs before the durable one; and, once anything is
durable, only then. -/
theorem tids_advance_iff {pepoch : EpochFile D} {files : Nat → List (LogFrame K β D)}
    {masstree : K → Option β} {s₀ : State W K β} (h₀ : Restarted pepoch.durable_epoch_ masstree s₀) (w : W) :
    let records := replayed h sort index (pepoch.durable_epoch_ + 1) (.start h index pepoch files)
    let earlier := ∀ r ∈ records, r.tid_.epoch.toNat < pepoch.durable_epoch_
    (earlier → TidsAdvance s₀ records) ∧
      (0 < pepoch.durable_epoch_ → (TidsAdvance s₀ records ↔ earlier)) := by
  intro records earlier
  have hsuff : earlier → TidsAdvance s₀ records := by
    intro hearlier
    refine tidsAdvance_of_earlier h₀.init ?_
    rw [h₀.epoch]
    exact hearlier
  refine ⟨hsuff, fun hpos => ⟨?_, hsuff⟩⟩
  intro hadvance r hr
  by_contra hge
  have hepoch := r.tid_.epoch.isLt
  obtain ⟨s₁, hreach, hglobal, c, hc, hver, -⟩ :=
    h₀.first_commit w r.key_ r.value_ hpos (by omega)
  have hlt := hadvance s₁ hreach (by omega) c hc r hr
  rw [hver] at hlt
  unfold TIDword.ver at hlt
  omega

/-- The server with the one record that `shortLog` leaves behind. -/
def restartedServer (durable_epoch : Nat) : State Bool Nat Nat where
  mem _ := ⟨.new, 10⟩
  tree := Function.update (fun _ => none) 1 (some 0)
  next := 1
  freed := []
  GlobalEpoch := durable_epoch
  workers _ := .new
  committed := []

theorem restartedServer_restarted (durable : Nat) :
    Restarted durable (Function.update (fun _ => none) 1 (some 10)) (restartedServer durable) where
  init :=
    { workers _ := rfl
      committed := rfl
      freed := rfl
      unlocked _ := rfl
      below := by
        intro k v hv
        by_cases hk : k = 1
        · have hzero : 0 = v := by simpa [restartedServer, hk] using hv
          rw [← hzero]
          exact Nat.zero_lt_one
        · simp [restartedServer, hk] at hv
      inj := by
        intro k k' v hv hv'
        by_cases hk : k = 1
        · by_cases hk' : k' = 1
          · rw [hk, hk']
          · simp [restartedServer, hk'] at hv'
        · simp [restartedServer, hk] at hv }
  epoch := rfl
  records := by
    intro k
    by_cases hk : k = 1
    · simp [restartedServer, hk]
    · simp [restartedServer, hk]

omit [DecidableEq K] [DecidableEq β] [Inhabited β] [DecidableEq D] in
theorem exists_of_map_masstree {x : Except Stop (RecoveryManager K β D σ)} {m : σ}
    (hx : x.map RecoveryManager.masstree = .ok m) : ∃ s, x = .ok s ∧ s.masstree = m := by
  cases x with
  | error e => cases hx
  | ok s => exact ⟨s, rfl, Except.ok.inj hx⟩

theorem shortLog_masstree :
    (execute_recovery digestHash insertionSort mapIndex shortSeal shortLog).map RecoveryManager.masstree =
      .ok (Function.update (fun _ => none) 1 (some 10)) := rfl

theorem shortLog_replayed :
    (replayed digestHash insertionSort mapIndex 2 (.start digestHash mapIndex shortSeal shortLog)).map
      (fun r => r.tid_.ver) = [2 ^ 29] := by decide

/-- The record of epoch 1 is replayed, and the next write of its key is numbered like it. -/
theorem tids_advance_same_epoch :
    ¬ ∀ (pepoch : EpochFile Digest) (files : Nat → List (LogFrame Nat Nat Digest))
      (s : RecoveryManager Nat Nat Digest (Nat → Option Nat)) (s₀ : State Bool Nat Nat),
      execute_recovery digestHash insertionSort mapIndex pepoch files = .ok s →
      Restarted pepoch.durable_epoch_ s.masstree s₀ →
      TidsAdvance s₀ (replayed digestHash insertionSort mapIndex (pepoch.durable_epoch_ + 1)
        (.start digestHash mapIndex pepoch files)) := by
  intro hadvance
  obtain ⟨s, hs, hm⟩ := exists_of_map_masstree shortLog_masstree
  have h₀ := restartedServer_restarted 1
  obtain ⟨s₁, hreach, hglobal, c, hc, hver, -⟩ :=
    h₀.first_commit false 1 20 (by decide) (by decide)
  rw [← hm] at h₀
  have hmem : 2 ^ 29 ∈ (replayed digestHash insertionSort mapIndex 2
      (.start digestHash mapIndex shortSeal shortLog)).map (fun r => r.tid_.ver) := by
    rw [shortLog_replayed]
    exact List.mem_cons_self
  obtain ⟨r, hr, hrver⟩ := List.mem_map.mp hmem
  have hlt := hadvance shortSeal shortLog s (restartedServer 1) hs h₀ s₁ hreach (by omega) c hc r hr
  omega

/-- The same log with a later durable epoch. -/
def laterSeal : EpochFile Digest := ⟨2, [some (currentEpochHash digestHash firstSet)]⟩

theorem laterSeal_replayed :
    (replayed digestHash insertionSort mapIndex 3 (.start digestHash mapIndex laterSeal shortLog)).all
      (fun r => decide (r.tid_.epoch.toNat < 2)) = true := by decide

/-- Then every commit is numbered behind it. -/
theorem tids_advance_later_epoch :
    TidsAdvance (restartedServer 2)
      (replayed digestHash insertionSort mapIndex 3 (.start digestHash mapIndex laterSeal shortLog)) := by
  refine (tids_advance_iff (restartedServer_restarted 2) false).1 ?_
  intro r hr
  exact of_decide_eq_true (List.all_eq_true.mp laterSeal_replayed r hr)

end Cassa.SiloR

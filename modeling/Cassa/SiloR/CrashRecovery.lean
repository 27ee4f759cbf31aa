import Cassa.SiloR.CrashFiles
import Cassa.SiloR.EarlySets
import Cassa.SiloR.TreeIndex

/-!
# Recovery after a crash

The files that a run of the server leaves behind, given to `execute_recovery`. The tail
hash follows the log file at once, the durable epoch only later: while a file holds a
set of a later epoch, its tail hash is never matched and recovery fails. And a set that
passes brings every set behind it into the replay. Where the sets of the files are those that
`pepoch.seal` vouches for and the sets that come early do no harm, what was logged is recovered.
-/

namespace Cassa.SiloR

open Cassa.SiloCC Cassa.SiloCC.Durability Cassa.Masstree Cassa.Lib.Runs

variable {K β D σ : Type}

/-- `pepoch.seal`; a durable epoch that was never written reads as 0. -/
def sealFile (c : Config) (s : State K β D) : EpochFile D where
  durable_epoch_ := s.pepoch.getD 0
  last_log_hashes := (List.range c.num_logger_threads).map fun l => (s.loggers l).tailLogHash

def logFiles (s : State K β D) : Nat → List (LogFrame K β D) := fun l =>
  (s.loggers l).logfile_.map .log

/-- The logged operations of the epochs up to `d`. -/
def loggedRecords (c : Config) (s : State K β D) (d : Nat) : List (RecoveryLogRecord K β D) :=
  (List.range c.num_logger_threads).flatMap fun l => (s.loggers l).logfile_.flatMap fun doc =>
    doc.log_set.filter fun r => r.tid_.epoch.toNat ≤ d

/-- Recovery returns 0 and leaves in Masstree what the logged operations leave in TID order. -/
def Recovers [DecidableEq K] [DecidableEq D] (bytes : K → List UInt8) (c : Config) (h : Hash K β D)
    (sort : TidSort K β D) (s : State K β D) : Prop :=
  ∀ d, s.pepoch = some d → ∃ t, execute_recovery h sort (treeIndex bytes) (sealFile c s) (logFiles s) = .ok t ∧
    ∃ m, replayAll mapIndex (sort.sort (loggedRecords c s d)) (fun _ => none) = .ok m ∧
      ∀ k, (treeIndex bytes).get_value t.masstree k = some (m k)

/-- The log files with their slots. -/
def logsOf (c : Config) (s : State K β D) : List (Option D × List (JsonLog K β D)) :=
  (List.range c.num_logger_threads).map fun l => ((s.loggers l).tailLogHash, (s.loggers l).logfile_)

/-- What the pass of an epoch replays of these files: for each set of the epoch, its records and those of
the sets behind it. -/
def passOrder (sort : TidSort K β D) (logs : List (Option D × List (JsonLog K β D))) (e : Nat) :
    List (RecoveryLogRecord K β D) :=
  sort.sort (logs.flatMap fun log => if log.1.isSome then leaked e log.2 else [])

/-- What the passes up to epoch `d` replay. -/
def replayOrder (sort : TidSort K β D) (logs : List (Option D × List (JsonLog K β D))) (d : Nat) :
    List (RecoveryLogRecord K β D) :=
  (List.range (d + 1)).flatMap (passOrder sort logs)

/-- What has to hold of the files when the process stops. -/
structure Restartable [DecidableEq K] (bytes : K → List UInt8) (c : Config) (sort : TidSort K β D)
    (s : State K β D) (d : Nat) : Prop where
  /-- a log file with a hash in its slot holds no set of a later epoch, one without holds no other -/
  covered : ∀ l < c.num_logger_threads, ∀ doc ∈ (s.loggers l).logfile_, ∀ r ∈ doc.log_set,
    (s.loggers l).tailLogHash.isSome ↔ r.tid_.epoch.toNat ≤ d
  /-- in TID order, every operation finds what it needs -/
  distinct : Distinct (loggedRecords c s d)
  inserts : InsertsFresh (sort.sort (loggedRecords c s d))
  writes : WritesFound (sort.sort (loggedRecords c s d))
  /-- so does every `WRITE` of a set that is replayed early -/
  early : WritesFound (replayOrder sort (logsOf c s) d)
  /-- the replay reaches no defect of the tree -/
  spared : Admits Masstree.step (fun t c => t.spared c = true) .new
    (treeCalls bytes 0 (replayOrder sort (logsOf c s) d))

section

variable {c : Config} {h : Hash K β D} {sort : TidSort K β D} {s : State K β D} {d : Nat}

theorem mem_loggedRecords {r : RecoveryLogRecord K β D} : r ∈ loggedRecords c s d ↔
    ∃ l < c.num_logger_threads, ∃ doc ∈ (s.loggers l).logfile_, r ∈ doc.log_set ∧ r.tid_.epoch.toNat ≤ d := by
  simp [loggedRecords]

theorem mem_passOrder {e : Nat} {r : RecoveryLogRecord K β D} : r ∈ passOrder sort (logsOf c s) e ↔
    ∃ l < c.num_logger_threads, (s.loggers l).tailLogHash.isSome = true ∧ r ∈ leaked e (s.loggers l).logfile_ := by
  rw [passOrder, (sort.perm _).mem_iff]
  simp only [logsOf, List.mem_flatMap, List.mem_map, List.mem_range]
  constructor
  · rintro ⟨_, ⟨l, hl, rfl⟩, hr⟩
    split at hr
    · rename_i hslot
      exact ⟨l, hl, hslot, hr⟩
    · cases hr
  · rintro ⟨l, hl, hslot, hr⟩
    exact ⟨_, ⟨l, hl, rfl⟩, by rwa [if_pos hslot]⟩

theorem OrderedLog.epoch_of_mem {docs : List (JsonLog K β D)} (hlog : OrderedLog h docs) {doc : JsonLog K β D}
    (hdoc : doc ∈ docs) {r : RecoveryLogRecord K β D} (hr : r ∈ doc.log_set) :
    r.tid_.epoch.toNat = (setOf doc).epoch_.toNat := by
  rw [hlog.uniform doc hdoc r hr]

/-- The replay of the passes leaves what the logged operations leave in TID order. -/
theorem Restartable.replays [DecidableEq K] {bytes : K → List UInt8} (hR : Restartable bytes c sort s d)
    (hlogs : ∀ l, OrderedLog h (s.loggers l).logfile_) :
    ∃ m, replayAll mapIndex (replayOrder sort (logsOf c s) d) (fun _ => none) = .ok m ∧
      replayAll mapIndex (sort.sort (loggedRecords c s d)) (fun _ => none) = .ok m := by
  obtain ⟨m, hm, -⟩ := hR.early.replays
  refine ⟨m, hm, ?_⟩
  refine replayAll_eq_of_passes (sort.sorted _) (hR.distinct.perm (sort.perm _).symm) hR.writes hR.inserts
    (fun e _ => sort.sorted _) ?_ ?_ hm
  · intro e _ r hr
    obtain ⟨l, hl, hslot, hleak⟩ := mem_passOrder.mp hr
    obtain ⟨doc, hdoc, hle, hmem⟩ := mem_of_mem_leaked hleak
    rw [(hlogs l).epoch_of_mem hdoc hmem]
    refine ⟨(sort.perm _).mem_iff.mpr (mem_loggedRecords.mpr ⟨l, hl, doc, hdoc, hmem, ?_⟩), hle⟩
    exact (hR.covered l hl doc hdoc r hmem).mp hslot
  · intro r hr
    obtain ⟨l, hl, doc, hdoc, hmem, hle⟩ := mem_loggedRecords.mp ((sort.perm _).mem_iff.mp hr)
    refine ⟨Nat.lt_succ_of_le hle, mem_passOrder.mpr ⟨l, hl, (hR.covered l hl doc hdoc r hmem).mpr hle, ?_⟩⟩
    rw [(hlogs l).epoch_of_mem hdoc hmem]
    exact mem_leaked hdoc hmem

end

section

variable [DecidableEq D] {h : Hash K β D} {sort : TidSort K β D} {index : Index K β σ}
  {logs : List (Option D × List (JsonLog K β D))} {as : List (RecoveryLogArchive K β D)}

/-- An archive before epoch `c`. Without a hash in its slot it is never read. -/
def ArchiveAt (h : Hash K β D) (c : Nat) (log : Option D × List (JsonLog K β D)) (a : RecoveryLogArchive K β D) :
    Prop :=
  match log.1 with
  | none => a = .new h none (log.2.map .log)
  | some last => InOrder h log.2 last c a

/-- One pass over one archive. -/
theorem ArchiveAt.step {c : Nat} {log : Option D × List (JsonLog K β D)} {a : RecoveryLogArchive K β D}
    (hlog : OrderedLog h log.2) (ha : ArchiveAt h c log a) :
    ∃ a₁ a', readAhead c a.unread a = .ok a₁ ∧
      (∀ rs, verify_epoch_level_integrity h (BitVec.ofNat 32 c) a₁ rs =
        .ok (a', rs ++ if log.1.isSome then leaked c log.2 else [])) ∧ ArchiveAt h (c + 1) log a' := by
  obtain ⟨slot, docs⟩ := log
  cases slot with
  | some last => exact InOrder.step hlog ha
  | none =>
    obtain rfl : a = .new h none (docs.map .log) := ha
    refine ⟨.new h none (docs.map .log), .new h none (docs.map .log), ?_, fun rs => ?_, rfl⟩
    · cases docs with
      | nil => rfl
      | cons doc docs => rfl
    · simp only [Option.isSome_none, Bool.false_eq_true, if_false, List.append_nil]
      rfl

/-- Step lemma: one pass over all archives. -/
theorem pass_ok {c : Nat} (hlogs : ∀ log ∈ logs, OrderedLog h log.2) (has : List.Forall₂ (ArchiveAt h c) logs as) :
    ∃ as₁ as', as.mapM (fun a => readAhead c a.unread a) = .ok as₁ ∧
      (∀ rs, verifyAll h (BitVec.ofNat 32 c) as₁ rs =
        .ok (as', rs ++ logs.flatMap fun log => if log.1.isSome then leaked c log.2 else [])) ∧
      List.Forall₂ (ArchiveAt h (c + 1)) logs as' := by
  induction has with
  | nil => exact ⟨[], [], rfl, fun rs => by simp [verifyAll], .nil⟩
  | @cons log a logs as ha _ ih =>
    obtain ⟨a₁, a', hread, hverify, ha'⟩ := ha.step (hlogs log List.mem_cons_self)
    obtain ⟨as₁, as', hreads, hverifies, has'⟩ := ih fun x hx => hlogs x (List.mem_cons_of_mem _ hx)
    refine ⟨a₁ :: as₁, a' :: as', ?_, fun rs => ?_, .cons ha' has'⟩
    · rw [List.mapM_cons, hread, hreads]
      rfl
    · rw [verifyAll, hverify, List.flatMap_cons, ← List.append_assoc]
      change (verifyAll h (BitVec.ofNat 32 c) as₁ _ >>= _) = _
      rw [hverifies]
      rfl

/-- Run lemma: the passes from epoch `c` on, as far as the records are replayed. -/
theorem recoverEpochs_ok (hlogs : ∀ log ∈ logs, OrderedLog h log.2) (n : Nat) {c : Nat} {m m' : σ}
    (has : List.Forall₂ (ArchiveAt h c) logs as)
    (hrun : replayAll index ((List.range' c n).flatMap (passOrder sort logs)) m = .ok m') :
    ∃ as', recoverEpochs h sort index n ⟨c, as, m⟩ = .ok ⟨c + n, as', m'⟩ ∧
      List.Forall₂ (ArchiveAt h (c + n)) logs as' := by
  induction n generalizing c as m with
  | zero =>
    obtain rfl : m = m' := Except.ok.inj hrun
    exact ⟨as, rfl, has⟩
  | succ n ih =>
    obtain ⟨as₁, as', hread, hverify, has'⟩ := pass_ok hlogs has
    rw [List.range'_succ, List.flatMap_cons, replayAll_append] at hrun
    obtain ⟨m₁, hm₁, hrest⟩ := bind_eq_ok.mp hrun
    obtain ⟨as'', hepochs, has''⟩ := ih has' hrest
    have hpass : recoverEpoch h sort index ⟨c, as, m⟩ = .ok ⟨c + 1, as', m₁⟩ := by
      refine bind_eq_ok.mpr ⟨as₁, hread, bind_eq_ok.mpr ⟨_, hverify [], bind_eq_ok.mpr ⟨m₁, hm₁, rfl⟩⟩⟩
    have hc : c + 1 + n = c + (n + 1) := by omega
    rw [hc] at hepochs has''
    exact ⟨as'', bind_eq_ok.mpr ⟨_, hpass, hepochs⟩, has''⟩

variable {c : Config} {s : State K β D} {d : Nat} {bytes : K → List UInt8}

omit [DecidableEq D] in
theorem archiveAt_start : List.Forall₂ (ArchiveAt h 0) (logsOf c s)
    (RecoveryManager.start h index (sealFile c s) (logFiles s)).log_archives_ := by
  rw [List.forall₂_iff_get]
  refine ⟨by simp [RecoveryManager.start, sealFile, logsOf], ?_⟩
  intro l hl hl'
  simp only [RecoveryManager.start, sealFile, logsOf, logFiles, List.get_eq_getElem, List.getElem_mapIdx,
    List.getElem_map, List.getElem_range, ArchiveAt]
  cases (s.loggers l).tailLogHash with
  | none => rfl
  | some last => exact .new _ last

omit [DecidableEq D] in
/-- After the durable epoch every archive has been matched. -/
theorem all_matched [DecidableEq K] (hi : LogInv c h s) (hR : Restartable bytes c sort s d)
    (has : List.Forall₂ (ArchiveAt h (d + 1)) (logsOf c s) as) :
    (as.all fun a => a.is_last_log_hash_matched) = true := by
  rw [List.all_eq_true]
  intro a ha
  obtain ⟨log, hlog, hat⟩ := exists_of_forall₂_right has ha
  obtain ⟨l, hl, rfl⟩ := List.mem_map.mp hlog
  rw [List.mem_range] at hl
  cases hslot : (s.loggers l).tailLogHash with
  | none =>
    simp only [ArchiveAt, hslot] at hat
    rw [hat]
    rfl
  | some last =>
    simp only [ArchiveAt, hslot] at hat
    obtain ⟨doc, hdoc, hhash⟩ := (hi.logs l).tail last hslot
    have hover : ∀ doc ∈ (s.loggers l).logfile_, (setOf doc).epoch_.toNat < d + 1 := by
      intro doc hdoc
      have hne := (hi.logs l).chained.log_set_ne hdoc
      have hle := (hR.covered l hl doc hdoc _ (List.getLast_mem hne)).mp (by rw [hslot]; rfl)
      rw [setOf, List.getLast?_eq_some_getLast hne]
      exact Nat.lt_succ_of_le hle
    exact (hat.drained (List.ne_nil_of_mem hdoc) hover).matched doc hdoc hhash

/-- In every run within 32 bits of epochs, a state whose files are restartable is recovered. -/
theorem crash_recovery [DecidableEq K] (hne : ∀ k, bytes k ≠ []) (hinj : Function.Injective bytes)
    (hc : OneWorkerEach c) (hr : Reach (step c h) (Init h) (fun s a => epochOverflow s a = false) s)
    (hok : ∀ d, s.pepoch = some d → Restartable bytes c sort s d) : Recovers bytes c h sort s := by
  intro d hd
  have hi := logInv_reach hr
  have hR := hok d hd
  obtain ⟨m, hm, hlogged⟩ := hR.replays fun l => hi.orderedLog hc l
  obtain ⟨store, sh, hstore, hrebuilt⟩ := (rebuilt_new bytes).replayAll hne hinj hR.spared hm
  have hlogs : ∀ log ∈ logsOf c s, OrderedLog h log.2 := by
    intro log hlog
    obtain ⟨l, -, rfl⟩ := List.mem_map.mp hlog
    exact hi.orderedLog hc l
  rw [replayOrder, List.range_eq_range'] at hstore
  have hstart : List.Forall₂ (ArchiveAt h 0) (logsOf c s)
      (RecoveryManager.start h (treeIndex bytes) (sealFile c s) (logFiles s)).log_archives_ := archiveAt_start
  obtain ⟨as, hepochs, has⟩ := recoverEpochs_ok hlogs (d + 1) hstart hstore
  rw [Nat.zero_add] at hepochs has
  have hdurable : (sealFile c s).durable_epoch_ = d := by simp [sealFile, hd]
  refine ⟨⟨d + 1, as, store⟩, ?_, m, hlogged, fun k => hrebuilt.get_value (hne k)⟩
  unfold execute_recovery
  rw [hdurable]
  refine bind_eq_ok.mpr ⟨_, hepochs, ?_⟩
  rw [if_pos (all_matched hi hR has)]
  rfl

end

/-- The keys of the samples as strings. -/
def unary (k : Nat) : List UInt8 := List.replicate (k + 1) 1

theorem unary_ne_nil (k : Nat) : unary k ≠ [] := by
  simp [unary]

theorem unary_injective : Function.Injective unary := by
  intro k k' he
  have hlen := congrArg List.length he
  simpa [unary] using hlen

def booted : State Nat Nat Digest where
  GlobalEpoch := 1
  DurableEpoch := 0
  tidword _ := .new
  workers w := .new w
  loggers _ := .new digestHash
  pepoch := none
  committed := []
  halted := false

theorem booted_init : Init digestHash booted :=
  ⟨rfl, rfl, fun _ => Nat.zero_le 1, fun _ => rfl, fun _ => rfl, rfl, rfl, rfl⟩

/-- The commit of epoch 1 is in its log file, and epoch 1 in `pepoch.seal`. -/
def durableSchedule : List (Durability.Action Nat Nat) := publishedSchedule ++ logs 0 1

/-- Worker 1 commits once more, in epoch 3; the epoch advances, and logger 1 has written
the set and its hash. -/
def aheadSchedule : List (Durability.Action Nat Nat) :=
  durableSchedule ++ ticks 1 1 ++ [.work 1 .request] ++ ticks 1 9 ++
    [.work 1 (.write ⟨1, 1, 20, .INSERT⟩), .work 1 .validate] ++ ticks 1 2 ++ [.work 1 .pass] ++
    ticks 1 5 ++ advance ++ ticks 1 9 ++ logs 1 8

/-- Epoch 3 is durable too. -/
def caughtUpSchedule : List (Durability.Action Nat Nat) :=
  aheadSchedule ++ ticks 1 1 ++ logs 1 14 ++ logs 0 16 ++ advance ++ [.work 1 .noRequest] ++ ticks 1 9 ++
    logs 1 14 ++ logs 0 14

theorem aheadSchedule_runs : (exec (step twoLoggers digestHash) booted aheadSchedule).isSome := by
  decide +kernel

def ahead : State Nat Nat Digest :=
  (exec (step twoLoggers digestHash) booted aheadSchedule).get aheadSchedule_runs

theorem ahead_fails : ahead.pepoch = some 1 ∧
    (execute_recovery digestHash insertionSort (treeIndex unary) (sealFile twoLoggers ahead)
      (logFiles ahead)).toOption.isSome = false := by
  decide +kernel

theorem crash_recovery_ahead :
    ¬ ∀ s : State Nat Nat Digest, Reach (step twoLoggers digestHash) (Init digestHash) anyStep s →
      Recovers unary twoLoggers digestHash insertionSort s := by
  intro h
  obtain ⟨hpe, hfail⟩ := ahead_fails
  obtain ⟨t, ht, -⟩ := h ahead (reach_get booted_init aheadSchedule_runs) 1 hpe
  rw [ht] at hfail
  cases hfail

theorem caughtUpSchedule_runs : (exec (step twoLoggers digestHash) booted caughtUpSchedule).isSome := by
  decide +kernel

theorem caughtUpSchedule_admits : Admits (step twoLoggers digestHash)
    (fun s a => epochOverflow s a = false) booted caughtUpSchedule := by
  decide +kernel

def caughtUp : State Nat Nat Digest :=
  (exec (step twoLoggers digestHash) booted caughtUpSchedule).get caughtUpSchedule_runs

theorem caughtUp_pepoch : caughtUp.pepoch = some 3 := by decide +kernel

theorem caughtUp_restartable : Restartable unary twoLoggers insertionSort caughtUp 3 where
  covered := by decide +kernel
  distinct := by decide +kernel
  inserts := by decide +kernel
  writes := by decide +kernel
  early := by decide +kernel
  spared := by decide +kernel

/-- The state whose log file holds the sets of epochs 1 and 3 is recovered. -/
theorem crash_recovery_caught_up :
    ((caughtUp.loggers 1).logfile_.map fun doc => doc.log_set.map fun r => r.tid_.epoch.toNat) = [[1], [3]] ∧
      caughtUp.pepoch = some 3 ∧ Recovers unary twoLoggers digestHash insertionSort caughtUp := by
  have hone : OneWorkerEach twoLoggers := by decide +kernel
  refine ⟨by decide +kernel, caughtUp_pepoch, crash_recovery unary_ne_nil unary_injective hone
    (reach_get_of_admits booted_init caughtUpSchedule_admits caughtUpSchedule_runs) ?_⟩
  intro d hd
  have hd : caughtUp.pepoch = some d := hd
  rw [caughtUp_pepoch] at hd
  obtain rfl := Option.some.inj hd
  exact caughtUp_restartable

end Cassa.SiloR

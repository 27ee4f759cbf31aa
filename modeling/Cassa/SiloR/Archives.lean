import Cassa.SiloR.Recovery

/-!
# One archive in a recovery

What reading and verifying preserve of each archive holds when recovery returns 0. An
archive without a hash in its slot reads nothing; one with a hash has then accepted a set.
-/

namespace Cassa.SiloR

open Cassa.SiloCC

variable {K β D σ : Type}

section
variable {α : Type} {R : α → RecoveryLogArchive K β D → Prop} {lasts : List α}
  {as as' : List (RecoveryLogArchive K β D)}

theorem exists_of_forall₂_left {α γ : Type} {R : α → γ → Prop} {xs : List α} {ys : List γ}
    (hall : List.Forall₂ R xs ys) {x : α} (hx : x ∈ xs) : ∃ y ∈ ys, R x y := by
  obtain ⟨i, hi, rfl⟩ := List.mem_iff_getElem.mp hx
  obtain ⟨hlen, hpair⟩ := List.forall₂_iff_get.mp hall
  have hi' : i < ys.length := hlen ▸ hi
  exact ⟨ys[i], List.getElem_mem hi', hpair i hi hi'⟩

theorem exists_of_forall₂_right {α γ : Type} {R : α → γ → Prop} {xs : List α} {ys : List γ}
    (hall : List.Forall₂ R xs ys) {y : γ} (hy : y ∈ ys) : ∃ x ∈ xs, R x y := by
  obtain ⟨i, hi, rfl⟩ := List.mem_iff_getElem.mp hy
  obtain ⟨hlen, hpair⟩ := List.forall₂_iff_get.mp hall
  have hi' : i < xs.length := hlen ▸ hi
  exact ⟨xs[i], List.getElem_mem hi', hpair i hi' hi⟩

theorem forall₂_readAhead {e : Nat}
    (hread : ∀ last fs a a', R last a → readAhead e fs a = .ok a' → R last a')
    (hR : List.Forall₂ R lasts as)
    (hok : as.mapM (fun a => readAhead e a.unread a) = Except.ok as') :
    List.Forall₂ R lasts as' := by
  induction hR generalizing as' with
  | nil =>
    obtain rfl : [] = as' := Except.ok.inj hok
    exact .nil
  | @cons last a lasts as hR _ ih =>
    rw [List.mapM_cons] at hok
    obtain ⟨a₁, ha, hok⟩ := bind_eq_ok.mp hok
    obtain ⟨as₁, has, hok⟩ := bind_eq_ok.mp hok
    obtain rfl := Except.ok.inj hok
    exact .cons (hread _ _ _ _ hR ha) (ih has)

variable [DecidableEq D] {h : Hash K β D}

theorem verifyAll_cons_ok {e : BitVec 32} {a : RecoveryLogArchive K β D} {rs : List (RecoveryLogRecord K β D)}
    {p : List (RecoveryLogArchive K β D) × List (RecoveryLogRecord K β D)}
    (hok : verifyAll h e (a :: as) rs = .ok p) :
    ∃ q q', verify_epoch_level_integrity h e a rs = .ok q ∧ verifyAll h e as q.2 = .ok q' ∧
      p = (q.1 :: q'.1, q'.2) := by
  obtain ⟨q, ha, hok⟩ := bind_eq_ok.mp hok
  obtain ⟨q', has, hok⟩ := bind_eq_ok.mp hok
  exact ⟨q, q', ha, has, (Except.ok.inj hok).symm⟩

theorem forall₂_verifyAll {e : BitVec 32} {rs : List (RecoveryLogRecord K β D)}
    {p : List (RecoveryLogArchive K β D) × List (RecoveryLogRecord K β D)}
    (hverify : ∀ last a rs p, R last a → verify_epoch_level_integrity h e a rs = .ok p → R last p.1)
    (hR : List.Forall₂ R lasts as) (hok : verifyAll h e as rs = .ok p) :
    List.Forall₂ R lasts p.1 := by
  induction hR generalizing rs p with
  | nil =>
    obtain rfl : ([], rs) = p := Except.ok.inj hok
    exact .nil
  | @cons last a lasts as hR _ ih =>
    obtain ⟨q, q', ha, has, rfl⟩ := verifyAll_cons_ok hok
    exact .cons (hverify _ _ _ _ hR ha) (ih has)

variable {sort : TidSort K β D} {index : Index K β σ} {s s' : RecoveryManager K β D σ}

/-- The three stages of an epoch that succeeds. -/
theorem recoverEpoch_ok (hok : recoverEpoch h sort index s = .ok s') :
    ∃ as p, s.log_archives_.mapM (fun a => readAhead s.current_epoch_ a.unread a) = .ok as ∧
      verifyAll h (BitVec.ofNat 32 s.current_epoch_) as [] = .ok p ∧
      replayAll index (sort.sort p.2) s.masstree = .ok s'.masstree ∧
      s'.current_epoch_ = s.current_epoch_ + 1 ∧ s'.log_archives_ = p.1 := by
  obtain ⟨as, has, hok⟩ := bind_eq_ok.mp hok
  obtain ⟨p, hv, hok⟩ := bind_eq_ok.mp hok
  obtain ⟨m, hm, hok⟩ := bind_eq_ok.mp hok
  obtain rfl := Except.ok.inj hok
  exact ⟨as, p, has, hv, hm, rfl, rfl⟩

theorem forall₂_recoverEpochs
    (hread : ∀ last e fs a a', R last a → readAhead e fs a = .ok a' → R last a')
    (hverify : ∀ last e a rs p, R last a → verify_epoch_level_integrity h e a rs = .ok p → R last p.1)
    (n : Nat) (hR : List.Forall₂ R lasts s.log_archives_) (hok : recoverEpochs h sort index n s = .ok s') :
    List.Forall₂ R lasts s'.log_archives_ := by
  induction n generalizing s with
  | zero =>
    obtain rfl : s = s' := Except.ok.inj hok
    exact hR
  | succ n ih =>
    obtain ⟨s₁, hs, hok⟩ := bind_eq_ok.mp hok
    obtain ⟨as, p, has, hv, -, -, harch⟩ := recoverEpoch_ok hs
    refine ih ?_ hok
    rw [harch]
    exact forall₂_verifyAll (fun last a rs p => hverify last _ a rs p)
      (forall₂_readAhead (fun last fs a a' => hread last _ fs a a') hR has) hv

theorem execute_recovery_ok {pepoch : EpochFile D} {files : Nat → List (LogFrame K β D)}
    (hs : execute_recovery h sort index pepoch files = .ok s) :
    recoverEpochs h sort index (pepoch.durable_epoch_ + 1) (.start h index pepoch files) = .ok s ∧
      ∀ a ∈ s.log_archives_, a.is_last_log_hash_matched = true := by
  obtain ⟨s₁, hrun, hs⟩ := bind_eq_ok.mp hs
  split at hs
  · rename_i hall
    obtain rfl := Except.ok.inj hs
    exact ⟨hrun, List.all_eq_true.mp hall⟩
  · cases hs

/-- Invariant rule: what reading and verifying preserve of each archive, together with
its slot, holds when recovery returns 0; and then every slot has been matched. -/
theorem forall₂_execute_recovery {R : Option D → RecoveryLogArchive K β D → Prop} {pepoch : EpochFile D} {files : Nat → List (LogFrame K β D)}
    (hnew : ∀ last file, R last (.new h last file))
    (hread : ∀ last e fs a a', R last a → readAhead e fs a = .ok a' → R last a')
    (hverify : ∀ last e a rs p, R last a → verify_epoch_level_integrity h e a rs = .ok p → R last p.1)
    (hs : execute_recovery h sort index pepoch files = .ok s) :
    List.Forall₂ R pepoch.last_log_hashes s.log_archives_ ∧
      ∀ a ∈ s.log_archives_, a.is_last_log_hash_matched = true := by
  have hstart : List.Forall₂ R pepoch.last_log_hashes
      (RecoveryManager.start h index pepoch files).log_archives_ := by
    rw [List.forall₂_iff_get]
    refine ⟨by simp [RecoveryManager.start], ?_⟩
    intro i h₁ h₂
    simp only [RecoveryManager.start, List.get_eq_getElem, List.getElem_mapIdx]
    exact hnew _ _
  obtain ⟨hrun, hmatched⟩ := execute_recovery_ok hs
  exact ⟨forall₂_recoverEpochs hread hverify _ hstart hrun, hmatched⟩

end

/-- An archive without a hash in its slot reads nothing; one with a hash has accepted a
set when it is matched. -/
structure Anchored (last : Option D) (a : RecoveryLogArchive K β D) : Prop where
  slot : a.last_log_hash_ = last
  idle : last = none → a.is_all_data_read_ = true ∧ a.buffered_log_records_ = [] ∧ a.accepted = []
  matched : last ≠ none → a.is_last_log_hash_matched = true → a.accepted ≠ []

theorem anchored_new (h : Hash K β D) (last : Option D) (file : List (LogFrame K β D)) :
    Anchored last (.new h last file) := by
  refine ⟨rfl, ?_, ?_⟩
  · rintro rfl
    exact ⟨rfl, rfl, rfl⟩
  · intro hne hm
    exact absurd (Option.isNone_iff_eq_none.mp hm) hne

theorem anchored_readAhead {last : Option D} {e : Nat} {fs : List (LogFrame K β D)}
    {a a' : RecoveryLogArchive K β D} (ha : Anchored last a) (hok : readAhead e fs a = .ok a') :
    Anchored last a' := by
  induction fs generalizing a with
  | nil =>
    obtain rfl := Except.ok.inj hok
    exact ⟨ha.slot, ha.idle, ha.matched⟩
  | cons f fs ih =>
    unfold readAhead at hok
    split at hok
    · obtain rfl := Except.ok.inj hok
      exact ⟨ha.slot, ha.idle, ha.matched⟩
    · rename_i hcond
      have hsome : last ≠ none := by
        intro hnone
        simp [(ha.idle hnone).1] at hcond
      split at hok
      · obtain rfl := Except.ok.inj hok
        exact ⟨ha.slot, fun hnone => absurd hnone hsome, ha.matched⟩
      · cases hok
      · split at hok
        · cases hok
        · split at hok
          · cases hok
          · refine ih ?_ hok
            exact ⟨ha.slot, fun hnone => absurd hnone hsome, ha.matched⟩

section
variable [DecidableEq D] (h : Hash K β D)

theorem anchored_verifyLoop {last : Option D} {e : BitVec 32}
    {skipped todo : List (RecoveryLogSet K β D)} {a : RecoveryLogArchive K β D}
    {rs : List (RecoveryLogRecord K β D)}
    {p : RecoveryLogArchive K β D × List (RecoveryLogRecord K β D)} (ha : Anchored last a)
    (hempty : last = none → skipped = [] ∧ todo = [])
    (hok : verifyLoop h e skipped todo a rs = .ok p) : Anchored last p.1 := by
  induction todo generalizing skipped a rs with
  | nil =>
    obtain rfl := Except.ok.inj hok
    refine ⟨ha.slot, ?_, ha.matched⟩
    intro hnone
    exact ⟨(ha.idle hnone).1, (hempty hnone).1, (ha.idle hnone).2.2⟩
  | cons set todo ih =>
    have hsome : last ≠ none := by
      intro hnone
      cases (hempty hnone).2
    unfold verifyLoop at hok
    repeat' split at hok
    · cases hok
    · cases hok
    · refine ih ?_ (fun hnone => absurd hnone hsome) hok
      refine ⟨ha.slot, fun hnone => absurd hnone hsome, ?_⟩
      intro _ _
      simp [RecoveryLogArchive.accept]
    · exact ih ha (fun hnone => absurd hnone hsome) hok

theorem anchored_verify (last : Option D) (e : BitVec 32) (a : RecoveryLogArchive K β D)
    (rs : List (RecoveryLogRecord K β D))
    (p : RecoveryLogArchive K β D × List (RecoveryLogRecord K β D)) (ha : Anchored last a)
    (hok : verify_epoch_level_integrity h e a rs = .ok p) : Anchored last p.1 :=
  anchored_verifyLoop h ha (fun hnone => ⟨rfl, (ha.idle hnone).2.1⟩) hok

end

/-- A hash without collisions: the value itself. -/
inductive Digest where
  | record (tid : TIDword) (op : String) (key value : Nat)
  | set (records : List (TIDword × String × Nat × Nat))
  | passphrase
  | emptyString
  deriving DecidableEq

def Digest.fields? : Digest → Option (TIDword × String × Nat × Nat)
  | .record tid op key value => some (tid, op, key, value)
  | _ => none

def digestHash : Hash Nat Nat Digest where
  record := .record
  set ds := .set (ds.filterMap Digest.fields?)
  passphrase := .passphrase
  emptyString := .emptyString

/-- The hash of a record determines its fields, and the hash of a set the fields of its
records; no set has the hash of the pass phrase. -/
structure CollisionFree (h : Hash K β D) : Prop where
  record : ∀ r r' : RecoveryLogRecord K β D, h.ofRecord r = h.ofRecord r' → r.fields = r'.fields
  set : ∀ rs rs' : List (RecoveryLogRecord K β D), h.ofSet rs = h.ofSet rs' →
    rs.map RecoveryLogRecord.fields = rs'.map RecoveryLogRecord.fields
  start : ∀ rs, h.ofSet rs ≠ h.passphrase

theorem digestHash_collisionFree : CollisionFree digestHash where
  record r r' h := by
    simpa [Hash.ofRecord, digestHash, RecoveryLogRecord.fields] using h
  set rs rs' h := by
    have hfields : ∀ rs : List (RecoveryLogRecord Nat Nat Digest),
        (rs.map digestHash.ofRecord).filterMap Digest.fields? = rs.map RecoveryLogRecord.fields := by
      intro rs
      rw [List.filterMap_map, ← List.filterMap_eq_map]
      rfl
    have h' := Digest.set.inj h
    rwa [hfields, hfields] at h'
  start rs h := by cases h

/-- Insertion sort, which is stable. -/
def insertionSort : TidSort K β D where
  sort := List.insertionSort fun a b => a.tid_.obj_ ≤ b.tid_.obj_
  perm := List.perm_insertionSort _
  sorted rs := by
    have : Std.Total fun a b : RecoveryLogRecord K β D => a.tid_.obj_ ≤ b.tid_.obj_ :=
      ⟨fun a b => le_total _ _⟩
    have : IsTrans (RecoveryLogRecord K β D) fun a b => a.tid_.obj_ ≤ b.tid_.obj_ :=
      ⟨fun a b c => le_trans⟩
    exact List.pairwise_insertionSort _ rs

/-- The sets that two transactions of epochs 1 and 2 leave behind. -/
def firstSet : List (LogRecord Nat Nat) := [⟨⟨false, true, false, 0, 1⟩, .INSERT, 1, 10⟩]

def secondSet : List (LogRecord Nat Nat) := [⟨⟨false, true, false, 0, 2⟩, .INSERT, 2, 20⟩]

def sealed : EpochFile Digest := ⟨2, [some (currentEpochHash digestHash secondSet)]⟩

/-- The log as it was written. -/
def honestLog : Nat → List (LogFrame Nat Nat Digest) := fun _ =>
  [.log (create_json_log digestHash digestHash.passphrase firstSet),
    .log (create_json_log digestHash (currentEpochHash digestHash firstSet) secondSet)]

end Cassa.SiloR

import Cassa.SiloR.HonestLog
import Cassa.SiloR.ReplayOnce
import Cassa.SiloR.TreeIndex

/-!
# What the log chain does not detect

The hash of a log set covers its records and nothing of its header: `prev_epoch_hash`
enters neither the next link nor the tail hash in `pepoch.seal`. A header that starts the
chain afresh hides every set before it, and one more set can be put before the first set of
any log: it is verified alone in the pass for epoch 0, and its records need not change
anything.
-/

namespace Cassa.SiloR

open Cassa.SiloCC

variable {K β D σ : Type}

/-- The records of the log sets that each archive has accepted, in order. -/
def RecoveryManager.acceptedLogs (s : RecoveryManager K β D σ) : List (List (List (RecoveryLogRecord K β D))) :=
  s.log_archives_.map fun a => a.accepted.map fun set => set.log_sets_

theorem frontIsLater_anti {c c' : Nat} (hle : c ≤ c') {sets : List (RecoveryLogSet K β D)}
    (h : frontIsLater c sets = false) : frontIsLater c' sets = false := by
  unfold frontIsLater at h ⊢
  split
  · rfl
  · rename_i r hr
    rw [hr] at h
    simp only [decide_eq_false_iff_not, not_lt] at h ⊢
    omega

/-- A later pass reads on where an earlier one has stopped. -/
theorem readAhead_readAhead {c c' : Nat} (hle : c ≤ c') {fs : List (LogFrame K β D)}
    {a a₁ : RecoveryLogArchive K β D} (h : readAhead c fs a = .ok a₁) :
    readAhead c' a₁.unread a₁ = readAhead c' fs a := by
  induction fs generalizing a with
  | nil =>
    obtain rfl := Except.ok.inj h
    rfl
  | cons f fs ih =>
    unfold readAhead at h
    split at h
    · obtain rfl := Except.ok.inj h
      exact readAhead_unread c' _ _ a
    rename_i hopen
    rw [Bool.not_eq_true, Bool.or_eq_false_iff] at hopen
    have hopen' : ¬ (a.is_all_data_read_ || frontIsLater c' a.buffered_log_records_) = true := by
      rw [hopen.1, frontIsLater_anti hle hopen.2]
      decide
    refine Eq.trans ?_ (if_neg hopen').symm
    cases f with
    | empty =>
      obtain rfl := Except.ok.inj h
      cases fs with
      | nil => rfl
      | cons f fs => rfl
    | malformed => cases h
    | log doc =>
      dsimp only at h ⊢
      split at h
      · cases h
      rename_i hmatched
      refine Eq.trans ?_ (if_neg hmatched).symm
      cases hset : deserialize_log_set doc with
      | none =>
        rw [hset] at h
        cases h
      | some set =>
        rw [hset] at h
        exact ih h

section
variable [DecidableEq D] (h : Hash K β D) (first : RecoveryLogSet K β D)

/-- Where the chain starts at the hash of the pass phrase, it starts at that of `first`. -/
def relink (d : D) : D := if d = h.passphrase then h.ofSet first.log_sets_ else d

def relinkSet (set : RecoveryLogSet K β D) : RecoveryLogSet K β D :=
  { set with prev_epoch_hash_ := relink h first set.prev_epoch_hash_ }

def relinkFrame : LogFrame K β D → LogFrame K β D
  | .empty => .empty
  | .malformed => .malformed
  | .log doc => .log { doc with prev_epoch_hash := relink h first doc.prev_epoch_hash }

/-- The archive that has accepted `first` before everything else. -/
def RecoveryLogArchive.behind (a : RecoveryLogArchive K β D) : RecoveryLogArchive K β D :=
  { a with
    unread := a.unread.map (relinkFrame h first)
    previous_epoch_hash_ := relink h first a.previous_epoch_hash_
    buffered_log_records_ := a.buffered_log_records_.map (relinkSet h first)
    accepted := first :: a.accepted.map (relinkSet h first) }

theorem deserialize_relink (doc : JsonLog K β D) :
    deserialize_log_set { doc with prev_epoch_hash := relink h first doc.prev_epoch_hash } =
      (deserialize_log_set doc).map (relinkSet h first) := by
  unfold deserialize_log_set
  dsimp only
  cases doc.log_set.getLast? <;> rfl

theorem frontIsLater_relink (c : Nat) (sets : List (RecoveryLogSet K β D)) :
    frontIsLater c (sets.map (relinkSet h first)) = frontIsLater c sets := by
  cases sets <;> rfl

theorem readAhead_behind (c : Nat) (fs : List (LogFrame K β D)) (a : RecoveryLogArchive K β D) :
    readAhead c (fs.map (relinkFrame h first)) (a.behind h first) =
      (readAhead c fs a).map (RecoveryLogArchive.behind h first) := by
  induction fs generalizing a with
  | nil => rfl
  | cons f fs ih =>
    have hcond : ((a.behind h first).is_all_data_read_ ||
        frontIsLater c (a.behind h first).buffered_log_records_) =
        (a.is_all_data_read_ || frontIsLater c a.buffered_log_records_) := by
      rw [RecoveryLogArchive.behind, frontIsLater_relink]
    rw [List.map_cons]
    unfold readAhead
    rw [hcond]
    split
    · rfl
    cases f with
    | empty => rfl
    | malformed => rfl
    | log doc =>
      change (if a.is_last_log_hash_matched then _ else _) = _
      dsimp only [relinkFrame]
      rw [deserialize_relink]
      split
      · rfl
      cases deserialize_log_set doc with
      | none => rfl
      | some set =>
        dsimp only [Option.map_some]
        rw [← ih]
        simp [RecoveryLogArchive.behind]

theorem allRecords_relink (sets : List (RecoveryLogSet K β D)) :
    allRecords (sets.map (relinkSet h first)) = allRecords sets := by
  unfold allRecords
  rw [List.flatMap_map]
  rfl

variable {h first}

theorem accept_behind (hstart : ∀ rs, h.ofSet rs ≠ h.passphrase) (a : RecoveryLogArchive K β D)
    (set : RecoveryLogSet K β D) :
    (a.behind h first).accept h (relinkSet h first set) = (a.accept h set).behind h first := by
  have hset : relink h first (h.ofSet set.log_sets_) = h.ofSet set.log_sets_ := if_neg (hstart _)
  unfold RecoveryLogArchive.accept RecoveryLogArchive.behind
  simp only [hset, List.map_append, List.map_singleton, List.cons_append]
  rfl

theorem verifyLoop_behind (hstart : ∀ rs, h.ofSet rs ≠ h.passphrase) {e : BitVec 32}
    {skipped todo : List (RecoveryLogSet K β D)} {a : RecoveryLogArchive K β D}
    {rs : List (RecoveryLogRecord K β D)} {p : RecoveryLogArchive K β D × List (RecoveryLogRecord K β D)}
    (hok : verifyLoop h e skipped todo a rs = .ok p) :
    verifyLoop h e (skipped.map (relinkSet h first)) (todo.map (relinkSet h first)) (a.behind h first) rs =
      .ok (p.1.behind h first, p.2) := by
  induction todo generalizing skipped a rs with
  | nil =>
    obtain rfl := Except.ok.inj hok
    rfl
  | cons set todo ih =>
    have hall : allRecords (skipped.map (relinkSet h first) ++ relinkSet h first set :: todo.map (relinkSet h first)) =
        allRecords (skipped ++ set :: todo) := by
      rw [← allRecords_relink h first (skipped ++ set :: todo), List.map_append, List.map_cons]
    rw [verifyLoop] at hok
    rw [List.map_cons, verifyLoop]
    by_cases hset : set.epoch_ = e
    · rw [if_pos hset] at hok
      rw [if_pos (show (relinkSet h first set).epoch_ = e from hset)]
      split at hok
      · cases hok
      split at hok
      · cases hok
      rename_i hprev hlevel
      have hprev' : (relinkSet h first set).prev_epoch_hash_ = (a.behind h first).previous_epoch_hash_ :=
        congrArg (relink h first) (not_not.mp hprev)
      have hlevel' : ¬ verify_log_level_integrity h (relinkSet h first set).log_sets_ = false := hlevel
      rw [if_neg (not_not.mpr hprev'), if_neg hlevel', hall, accept_behind hstart]
      exact ih hok
    · rw [if_neg hset] at hok
      rw [if_neg (show ¬ (relinkSet h first set).epoch_ = e from hset)]
      have hskip := ih hok
      rwa [List.map_append, List.map_singleton] at hskip

theorem verify_behind (hstart : ∀ rs, h.ofSet rs ≠ h.passphrase) {e : BitVec 32} {a : RecoveryLogArchive K β D}
    {rs : List (RecoveryLogRecord K β D)} {p : RecoveryLogArchive K β D × List (RecoveryLogRecord K β D)}
    (hok : verify_epoch_level_integrity h e a rs = .ok p) :
    verify_epoch_level_integrity h e (a.behind h first) rs = .ok (p.1.behind h first, p.2) :=
  verifyLoop_behind hstart hok

end

section
variable [DecidableEq D] {h : Hash K β D} {c : Nat}

/-- Before a pass the second archive is the first one, or will be behind it once both have read. -/
inductive Follows (h : Hash K β D) (c : Nat) (a : RecoveryLogArchive K β D) : RecoveryLogArchive K β D → Prop
  | same (hidle : Anchored none a) : Follows h c a a
  | behind (first : RecoveryLogSet K β D) (b : RecoveryLogArchive K β D)
      (hread : readAhead c a.unread a = readAhead c b.unread b)
      (hmatched : b.is_last_log_hash_matched = a.is_last_log_hash_matched)
      (haccepted : b.accepted = a.accepted) : Follows h c a (b.behind h first)

theorem Follows.matched {a a' : RecoveryLogArchive K β D} (hf : Follows h c a a')
    (hm : a.is_last_log_hash_matched = true) : a'.is_last_log_hash_matched = true := by
  cases hf with
  | same _ => exact hm
  | behind first b _ hmatched _ => exact hmatched.trans hm

theorem Follows.read {a a' a₁ : RecoveryLogArchive K β D} (hf : Follows h c a a')
    (hok : readAhead c a.unread a = .ok a₁) :
    ∃ a₁', readAhead c a'.unread a' = .ok a₁' ∧
      (a₁' = a₁ ∧ Anchored none a₁ ∨ ∃ first, a₁' = a₁.behind h first) := by
  cases hf with
  | same hidle => exact ⟨a₁, hok, Or.inl ⟨rfl, anchored_readAhead hidle hok⟩⟩
  | behind first b hread _ _ =>
    refine ⟨a₁.behind h first, ?_, Or.inr ⟨first, rfl⟩⟩
    have := readAhead_behind h first c b.unread b
    rw [← hread, hok] at this
    exact this

/-- Reading and verifying in step. -/
theorem follows_pass (hstart : ∀ rs, h.ofSet rs ≠ h.passphrase) {e : BitVec 32}
    {as as' as₁ : List (RecoveryLogArchive K β D)} {rs : List (RecoveryLogRecord K β D)}
    {p : List (RecoveryLogArchive K β D) × List (RecoveryLogRecord K β D)}
    (hall : List.Forall₂ (Follows h c) as as')
    (hread : as.mapM (fun a => readAhead c a.unread a) = Except.ok as₁) (hverify : verifyAll h e as₁ rs = .ok p) :
    ∃ as₁' p', as'.mapM (fun a => readAhead c a.unread a) = Except.ok as₁' ∧ verifyAll h e as₁' rs = .ok p' ∧
      p'.2 = p.2 ∧ List.Forall₂ (Follows h (c + 1)) p.1 p'.1 := by
  induction hall generalizing as₁ rs p with
  | nil =>
    obtain rfl : [] = as₁ := Except.ok.inj hread
    obtain rfl : ([], rs) = p := Except.ok.inj hverify
    exact ⟨[], ([], rs), rfl, rfl, rfl, .nil⟩
  | @cons a a' as as' hf _ ih =>
    rw [List.mapM_cons] at hread
    obtain ⟨a₁, ha, hread⟩ := bind_eq_ok.mp hread
    obtain ⟨as₂, has, hread⟩ := bind_eq_ok.mp hread
    obtain rfl := Except.ok.inj hread
    obtain ⟨q, q', hq, hq', rfl⟩ := verifyAll_cons_ok hverify
    obtain ⟨a₁', ha', hsame⟩ := hf.read ha
    obtain ⟨as₂', p', has', hp', hrecords, hrest⟩ := ih has hq'
    have hstep : ∃ a₂', verify_epoch_level_integrity h e a₁' rs = .ok (a₂', q.2) ∧ Follows h (c + 1) q.1 a₂' := by
      rcases hsame with ⟨rfl, hidle⟩ | ⟨first, rfl⟩
      · exact ⟨q.1, hq, .same (anchored_verify h none e a₁' rs q hidle hq)⟩
      · exact ⟨_, verify_behind hstart hq, .behind first q.1 rfl rfl rfl⟩
    obtain ⟨a₂', hverify', hf'⟩ := hstep
    refine ⟨a₁' :: as₂', (a₂' :: p'.1, p'.2), ?_, ?_, hrecords, .cons hf' hrest⟩
    · rw [List.mapM_cons, ha', has']
      rfl
    · rw [verifyAll, hverify']
      simp only [bind, Except.bind, hp']
      rfl

variable {sort : TidSort K β D} {index : Index K β σ} {s s' t : RecoveryManager K β D σ}

/-- Run lemma: the recovery goes on as before. -/
theorem follows_recoverEpochs (hstart : ∀ rs, h.ofSet rs ≠ h.passphrase) {n : Nat}
    (hok : recoverEpochs h sort index n s = .ok s') (hepoch : t.current_epoch_ = s.current_epoch_)
    (htree : t.masstree = s.masstree)
    (hall : List.Forall₂ (Follows h s.current_epoch_) s.log_archives_ t.log_archives_) :
    ∃ t', recoverEpochs h sort index n t = .ok t' ∧
      List.Forall₂ (Follows h s'.current_epoch_) s'.log_archives_ t'.log_archives_ := by
  induction n generalizing s t with
  | zero =>
    obtain rfl := Except.ok.inj hok
    exact ⟨t, rfl, hall⟩
  | succ n ih =>
    obtain ⟨s₁, hs, hrest⟩ := bind_eq_ok.mp hok
    obtain ⟨as, p, hread, hverify, hreplay, hepoch₁, harch⟩ := recoverEpoch_ok hs
    obtain ⟨as', p', hread', hverify', hrecords, hall'⟩ := follows_pass hstart hall hread hverify
    have ht : recoverEpoch h sort index t = .ok ⟨t.current_epoch_ + 1, p'.1, s₁.masstree⟩ := by
      unfold recoverEpoch
      rw [hepoch, hread']
      simp only [bind, Except.bind, hverify', hrecords, htree, hreplay]
      rfl
    obtain ⟨t', ht', hfinal⟩ := ih (t := ⟨t.current_epoch_ + 1, p'.1, s₁.masstree⟩) hrest
      (by rw [hepoch₁, ← hepoch]) rfl (by rw [hepoch₁, harch]; exact hall')
    exact ⟨t', bind_eq_ok.mpr ⟨_, ht, ht'⟩, hfinal⟩

end

section
variable [DecidableEq D] (h : Hash K β D) (k : K) (value : β)

/-- Deletes of one key. The set is of epoch 0, and its first record keeps the pass for epoch 0 from
reading on. -/
def deletes (n : Nat) : List (LogRecord K β) :=
  ⟨⟨false, true, true, 0, 1⟩, .DELETE, k, value⟩ :: List.replicate (n + 1) ⟨⟨false, true, true, 0, 0⟩, .DELETE, k, value⟩

/-- Of two such sets, one without the hash `d`. -/
def firstDoc (d : D) : JsonLog K β D :=
  create_json_log h h.passphrase (deletes k value (if currentEpochHash h (deletes k value 0) = d then 1 else 0))

/-- A log file with a hash in its slot gets the set. -/
def prepended (last_log_hash : Option D) (file : List (LogFrame K β D)) : List (LogFrame K β D) :=
  match last_log_hash with
  | none => file
  | some d => .log (firstDoc h k value d) :: file.map (relinkFrame h (setOf (firstDoc h k value d)))

theorem fields_firstDoc (d : D) : ∃ n, (firstDoc h k value d).log_set.map RecoveryLogRecord.fields =
    (deletes k value n).map LogRecord.fields :=
  ⟨_, fields_create_json_log h h.passphrase _⟩

variable {h k value}

theorem firstDoc_ne_nil (d : D) : (firstDoc h k value d).log_set ≠ [] :=
  log_set_ne_nil h h.passphrase (List.cons_ne_nil _ _)

theorem firstDoc_deletes (d : D) {r : RecoveryLogRecord K β D} (hr : r ∈ (firstDoc h k value d).log_set) :
    r.operation_type_ = "DELETE" ∧ r.key_ = k := by
  obtain ⟨n, hfields⟩ := fields_firstDoc h k value d
  have hmem := List.mem_map_of_mem (f := RecoveryLogRecord.fields) hr
  rw [hfields] at hmem
  obtain ⟨r', hr', heq⟩ := List.mem_map.mp hmem
  have hfour : r'.fields.2.1 = "DELETE" ∧ r'.fields.2.2.1 = k := by
    rcases List.mem_cons.mp hr' with rfl | hr'
    · exact ⟨rfl, rfl⟩
    · rw [List.eq_of_mem_replicate hr']
      exact ⟨rfl, rfl⟩
  rw [heq] at hfour
  exact hfour

theorem epoch_firstDoc (d : D) : (setOf (firstDoc h k value d)).epoch_ = 0 := by
  obtain ⟨n, hfields⟩ := fields_firstDoc h k value d
  have hlast := congrArg (fun fs => (fs.getLast?.map fun f => f.1.epoch).getD 0) hfields
  simp only [List.getLast?_map, Option.map_map] at hlast
  refine Eq.trans hlast ?_
  rw [deletes, List.replicate_succ', ← List.cons_append, List.getLast?_append]
  rfl

theorem frontIsLater_firstDoc (d : D) : frontIsLater 0 [setOf (firstDoc h k value d)] = true := by
  obtain ⟨n, hfields⟩ := fields_firstDoc h k value d
  have hhead := congrArg (fun fs => fs.head?.map fun f => f.1.epoch) hfields
  simp only [List.head?_map, Option.map_map] at hhead
  obtain ⟨r, hr, hepoch⟩ := Option.map_eq_some_iff.mp hhead
  have hfront : (some (setOf (firstDoc h k value d))).bind (fun set => set.log_sets_.head?) = some r := hr
  have hone : r.tid_.epoch = 1 := hepoch
  unfold frontIsLater
  rw [List.head?_cons, hfront]
  simp [hone]

theorem ofSet_firstDoc (hfree : CollisionFree h) (d : D) : h.ofSet (setOf (firstDoc h k value d)).log_sets_ ≠ d := by
  change h.ofSet (firstDoc h k value d).log_set ≠ d
  rw [firstDoc, ofSet_create_json_log]
  split
  · rename_i hzero
    rw [← hzero, ← ofSet_create_json_log h h.passphrase, ← ofSet_create_json_log h h.passphrase]
    intro heq
    have hfields := hfree.set _ _ heq
    rw [fields_create_json_log, fields_create_json_log] at hfields
    have hlen := congrArg List.length hfields
    simp [deletes] at hlen
  · assumption

variable {d : D} {file : List (LogFrame K β D)}

/-- The pass for epoch 0 reads the set and nothing else. -/
theorem readAhead_prepended :
    readAhead 0 (prepended h k value (some d) file) (.new h (some d) (prepended h k value (some d) file)) =
      .ok { RecoveryLogArchive.new h (some d) file with
        unread := file.map (relinkFrame h (setOf (firstDoc h k value d)))
        buffered_log_records_ := [setOf (firstDoc h k value d)] } := by
  rw [prepended, readAhead_log rfl rfl rfl (firstDoc_ne_nil d)]
  cases file with
  | nil => rfl
  | cons f file =>
    rw [List.map_cons]
    refine (readAhead_stop ?_).trans rfl
    change (_ || frontIsLater 0 [setOf (firstDoc h k value d)]) = true
    rw [frontIsLater_firstDoc, Bool.or_true]

theorem verify_prepended (hfree : CollisionFree h) (rs : List (RecoveryLogRecord K β D)) :
    verify_epoch_level_integrity h 0
        { RecoveryLogArchive.new h (some d) file with
          unread := file.map (relinkFrame h (setOf (firstDoc h k value d)))
          buffered_log_records_ := [setOf (firstDoc h k value d)] } rs =
      .ok ((RecoveryLogArchive.new h (some d) file).behind h (setOf (firstDoc h k value d)),
        rs ++ (firstDoc h k value d).log_set) := by
  have hlevel : ¬ verify_log_level_integrity h (setOf (firstDoc h k value d)).log_sets_ = false := by
    rw [Bool.not_eq_false]
    exact verify_log_level_create_json_log h h.passphrase _
  have hrecords : allRecords [setOf (firstDoc h k value d)] = (firstDoc h k value d).log_set :=
    List.append_nil _
  have hmatched : ¬ some (h.ofSet (setOf (firstDoc h k value d)).log_sets_) = some d := by
    rw [Option.some.injEq]
    exact ofSet_firstDoc hfree d
  have hrelink : relink h (setOf (firstDoc h k value d)) h.passphrase =
      h.ofSet (setOf (firstDoc h k value d)).log_sets_ := if_pos rfl
  have hprev : ¬ (setOf (firstDoc h k value d)).prev_epoch_hash_ ≠ h.passphrase := not_not.mpr rfl
  unfold verify_epoch_level_integrity
  dsimp only
  rw [verifyLoop, if_pos (epoch_firstDoc d)]
  refine Eq.trans (if_neg hprev) ?_
  rw [if_neg hlevel, verifyLoop, List.nil_append, hrecords]
  simp only [RecoveryLogArchive.accept, RecoveryLogArchive.behind, RecoveryLogArchive.new, hrelink]
  change Except.ok (RecoveryLogArchive.mk _ _ (_ || decide (some _ = some d)) _ _ _ _, _) = _
  rw [decide_eq_false hmatched]
  rfl

/-- The two recoveries before the first pass. -/
inductive Differs (h : Hash K β D) (k : K) (value : β) :
    RecoveryLogArchive K β D → RecoveryLogArchive K β D → Prop
  | none (file : List (LogFrame K β D)) : Differs h k value (.new h none file) (.new h none file)
  | some (d : D) (file : List (LogFrame K β D)) :
    Differs h k value (.new h (some d) file) (.new h (some d) (prepended h k value (some d) file))

omit [DecidableEq D] in
theorem matched_readAhead {c : Nat} {fs : List (LogFrame K β D)} {a a' : RecoveryLogArchive K β D}
    (hok : readAhead c fs a = .ok a') : a'.is_last_log_hash_matched = a.is_last_log_hash_matched := by
  induction fs generalizing a with
  | nil =>
    obtain rfl := Except.ok.inj hok
    rfl
  | cons f fs ih =>
    unfold readAhead at hok
    split at hok
    · obtain rfl := Except.ok.inj hok
      rfl
    cases f with
    | empty =>
      obtain rfl := Except.ok.inj hok
      rfl
    | malformed => cases hok
    | log doc =>
      dsimp only at hok
      split at hok
      · cases hok
      cases hset : deserialize_log_set doc with
      | none =>
        rw [hset] at hok
        cases hok
      | some set =>
        rw [hset] at hok
        dsimp only at hok
        exact (ih hok).trans rfl

/-- A pass that has accepted nothing has verified nothing. -/
theorem verify_of_not_mem {e : BitVec 32} {a : RecoveryLogArchive K β D} {rs : List (RecoveryLogRecord K β D)}
    {p : RecoveryLogArchive K β D × List (RecoveryLogRecord K β D)}
    (hok : verify_epoch_level_integrity h e a rs = .ok p) (hnot : ∀ set ∈ p.1.accepted, set.epoch_ ≠ e) :
    p = (a, rs) := by
  have hskip : ∀ set ∈ a.buffered_log_records_, set.epoch_ ≠ e := by
    intro set hset he
    obtain ⟨harch, -, -⟩ := verifyLoop_ok hok
    refine hnot set ?_ he
    rw [harch]
    change set ∈ ((ofEpoch e a.buffered_log_records_).foldl (RecoveryLogArchive.accept h) a).accepted
    rw [accepted_foldl_accept]
    exact List.mem_append_right _ (mem_ofEpoch.mpr ⟨hset, he⟩)
  have hall : verify_epoch_level_integrity h e a rs = .ok (a, rs) := verifyLoop_skip hskip a rs
  exact Except.ok.inj (hok.symm.trans hall)

/-- In the pass for epoch 0 one recovery verifies nothing and the other one the first sets. -/
theorem follows_first (hfree : CollisionFree h) {as as' as₁ : List (RecoveryLogArchive K β D)}
    {rs rs' : List (RecoveryLogRecord K β D)} {p : List (RecoveryLogArchive K β D) × List (RecoveryLogRecord K β D)}
    (hall : List.Forall₂ (Differs h k value) as as')
    (hread : as.mapM (fun a => readAhead 0 a.unread a) = Except.ok as₁) (hverify : verifyAll h 0 as₁ rs = .ok p)
    (hnot : ∀ a ∈ p.1, ∀ set ∈ a.accepted, set.epoch_ ≠ 0)
    (hrs' : ∀ r ∈ rs', r.operation_type_ = "DELETE" ∧ r.key_ = k) :
    p.2 = rs ∧ ∃ as₁' p', as'.mapM (fun a => readAhead 0 a.unread a) = Except.ok as₁' ∧
      verifyAll h 0 as₁' rs' = .ok p' ∧ (∀ r ∈ p'.2, r.operation_type_ = "DELETE" ∧ r.key_ = k) ∧
      List.Forall₂ (Follows h 1) p.1 p'.1 := by
  induction hall generalizing as₁ rs rs' p with
  | nil =>
    obtain rfl : [] = as₁ := Except.ok.inj hread
    obtain rfl : ([], rs) = p := Except.ok.inj hverify
    exact ⟨rfl, [], ([], rs'), rfl, rfl, hrs', .nil⟩
  | @cons a a' as as' hd _ ih =>
    rw [List.mapM_cons] at hread
    obtain ⟨a₁, ha, hread⟩ := bind_eq_ok.mp hread
    obtain ⟨as₂, has, hread⟩ := bind_eq_ok.mp hread
    obtain rfl := Except.ok.inj hread
    obtain ⟨q, q', hq, hq', rfl⟩ := verifyAll_cons_ok hverify
    obtain rfl := verify_of_not_mem hq fun set hset => hnot _ List.mem_cons_self set hset
    have hstep : ∃ a₁' q₁, readAhead 0 a'.unread a' = .ok a₁' ∧
        verify_epoch_level_integrity h 0 a₁' rs' = .ok q₁ ∧
        (∀ r ∈ q₁.2, r.operation_type_ = "DELETE" ∧ r.key_ = k) ∧ Follows h 1 a₁ q₁.1 := by
      cases hd with
      | none file =>
        have hidle := anchored_readAhead (anchored_new h none file) ha
        refine ⟨a₁, (a₁, rs'), ha, ?_, hrs', .same hidle⟩
        have hskip : ∀ set ∈ a₁.buffered_log_records_, set.epoch_ ≠ 0 := by
          simp [(hidle.idle rfl).2.1]
        exact verifyLoop_skip hskip a₁ rs'
      | some d file =>
        refine ⟨_, _, readAhead_prepended, verify_prepended hfree rs', ?_, ?_⟩
        · intro r hr
          rcases List.mem_append.mp hr with hr | hr
          · exact hrs' r hr
          · exact firstDoc_deletes d hr
        · refine .behind _ _ (readAhead_readAhead (Nat.zero_le 1) ha) (matched_readAhead ha).symm ?_
          exact (readAhead_ok ha).1.symm
    obtain ⟨a₁', q₁, ha', hq₁, hdel, hfollows⟩ := hstep
    obtain ⟨hrecords, as₂', p', has', hp', hdel', hrest⟩ :=
      ih has hq' (fun a ha => hnot a (List.mem_cons_of_mem _ ha)) hdel
    refine ⟨hrecords, a₁' :: as₂', (q₁.1 :: p'.1, p'.2), ?_, ?_, hdel', .cons hfollows hrest⟩
    · rw [List.mapM_cons, ha', has']
      rfl
    · rw [verifyAll, hq₁]
      simp only [bind, Except.bind, hp']
      rfl

end

/-- Deletes of a key leave an empty index alone. -/
theorem replayAll_deletes {index : Index K β σ} {k : K} (hremove : index.remove_value index.new k = some index.new)
    {rs : List (RecoveryLogRecord K β D)} (hrs : ∀ r ∈ rs, r.operation_type_ = "DELETE" ∧ r.key_ = k) :
    replayAll index rs index.new = .ok index.new := by
  induction rs with
  | nil => rfl
  | cons r rs ih =>
    obtain ⟨hop, hkey⟩ := hrs r List.mem_cons_self
    have hr : replayRecord index index.new r = .ok index.new := by
      unfold replayRecord
      rw [if_neg (by simp [hop]), if_neg (by simp [hop]), if_pos hop, hkey]
      exact Index.orFault_eq_ok.mpr hremove
    exact bind_eq_ok.mpr ⟨index.new, hr, ih fun x hx => hrs x (List.mem_cons_of_mem _ hx)⟩

section
variable [DecidableEq D] {h : Hash K β D} {sort : TidSort K β D} {index : Index K β σ}
  {pepoch : EpochFile D} {files : Nat → List (LogFrame K β D)} {s : RecoveryManager K β D σ}

theorem anchored_execute_recovery (hs : execute_recovery h sort index pepoch files = .ok s) :
    List.Forall₂ Anchored pepoch.last_log_hashes s.log_archives_ ∧
      ∀ a ∈ s.log_archives_, a.is_last_log_hash_matched = true :=
  forall₂_execute_recovery (anchored_new h) (fun _ _ _ _ _ ha hok => anchored_readAhead ha hok)
    (anchored_verify h) hs

theorem acceptedLogs_of_no_hash (hs : execute_recovery h sort index pepoch files = .ok s)
    (hnone : ∀ last ∈ pepoch.last_log_hashes, last = none) :
    s.acceptedLogs = pepoch.last_log_hashes.map fun _ => [] := by
  obtain ⟨hall, -⟩ := anchored_execute_recovery hs
  unfold RecoveryManager.acceptedLogs
  revert hnone hall
  generalize pepoch.last_log_hashes = lasts
  generalize s.log_archives_ = as
  intro hnone hall
  induction hall with
  | nil => rfl
  | @cons last a lasts as ha _ ih =>
    rw [List.map_cons, List.map_cons, (ha.idle (hnone last List.mem_cons_self)).2.2,
      ih fun last hl => hnone last (List.mem_cons_of_mem _ hl)]
    rfl

/-- What a pass accepts stays accepted. -/
theorem accepted_recoverEpochs {n : Nat} {s s' : RecoveryManager K β D σ}
    (hok : recoverEpochs h sort index n s = .ok s') {a : RecoveryLogArchive K β D} (ha : a ∈ s.log_archives_)
    {set : RecoveryLogSet K β D} (hset : set ∈ a.accepted) : ∃ a' ∈ s'.log_archives_, set ∈ a'.accepted := by
  have hself : List.Forall₂ (fun a a' : RecoveryLogArchive K β D => a.accepted ⊆ a'.accepted) s.log_archives_ s.log_archives_ :=
    List.forall₂_same.mpr fun a _ => List.Subset.refl _
  have hall := forall₂_recoverEpochs (R := fun a a' : RecoveryLogArchive K β D => a.accepted ⊆ a'.accepted)
    (fun a e fs a₁ a₂ hsub hread => by rwa [(readAhead_ok hread).1])
    (fun a e a₁ rs p hsub hverify => by
      rw [(verifyLoop_ok hverify).1]
      change a.accepted ⊆ ((ofEpoch e a₁.buffered_log_records_).foldl (RecoveryLogArchive.accept h) a₁).accepted
      rw [accepted_foldl_accept]
      exact List.subset_append_of_subset_left _ hsub)
    n hself hok
  obtain ⟨a', ha', hsub⟩ := exists_of_forall₂_left hall ha
  exact ⟨a', ha', hsub hset⟩

/-- A set can be put before the first one of every log that recovery reads. -/
theorem execute_recovery_prepended (hfree : CollisionFree h) {k : K} (value : β)
    (hremove : index.remove_value index.new k = some index.new)
    (hs : execute_recovery h sort index pepoch files = .ok s)
    (hepoch : ∀ sets ∈ s.acceptedSets, ∀ set ∈ sets, set.epoch_ ≠ 0) :
    ∃ s', execute_recovery h sort index pepoch (fun i =>
        prepended h k value (pepoch.last_log_hashes[i]?.getD none) (files i)) = .ok s' ∧
      List.Forall₂ (Follows h s.current_epoch_) s.log_archives_ s'.log_archives_ := by
  obtain ⟨hrun, hmatched⟩ := execute_recovery_ok hs
  obtain ⟨s₁, hfirst, hrest⟩ := bind_eq_ok.mp hrun
  obtain ⟨as, p, hread, hverify, hreplay, hcurrent, harch⟩ := recoverEpoch_ok hfirst
  have hnot : ∀ a ∈ p.1, ∀ set ∈ a.accepted, set.epoch_ ≠ 0 := by
    intro a ha set hset
    obtain ⟨a', ha', hset'⟩ := accepted_recoverEpochs hrest (harch ▸ ha) hset
    exact hepoch _ (List.mem_map_of_mem ha') set hset'
  have hstart : List.Forall₂ (Differs h k value) (RecoveryManager.start h index pepoch files).log_archives_
      (RecoveryManager.start h index pepoch fun i =>
        prepended h k value (pepoch.last_log_hashes[i]?.getD none) (files i)).log_archives_ := by
    rw [List.forall₂_iff_get]
    refine ⟨by simp [RecoveryManager.start], ?_⟩
    intro i h₁ h₂
    have hi : i < pepoch.last_log_hashes.length := by simpa [RecoveryManager.start] using h₁
    simp only [RecoveryManager.start, List.get_eq_getElem, List.getElem_mapIdx, List.getElem?_eq_getElem hi,
      Option.getD_some]
    cases pepoch.last_log_hashes[i] with
    | none => exact .none (files i)
    | some d => exact .some d (files i)
  have hnone : ∀ r ∈ ([] : List (RecoveryLogRecord K β D)), r.operation_type_ = "DELETE" ∧ r.key_ = k := by
    simp
  obtain ⟨hrecords, as', p', hread', hverify', hdeletes, hfollows⟩ :=
    follows_first hfree hstart hread hverify hnot hnone
  have htree : s₁.masstree = index.new := by
    have hempty : sort.sort ([] : List (RecoveryLogRecord K β D)) = [] :=
      List.Perm.eq_nil (sort.perm [])
    rw [hrecords, hempty] at hreplay
    exact (Except.ok.inj hreplay).symm
  have hnew := replayAll_deletes hremove fun r hr => hdeletes r ((sort.perm p'.2).mem_iff.mp hr)
  have hfirst' : recoverEpoch h sort index (.start h index pepoch fun i =>
      prepended h k value (pepoch.last_log_hashes[i]?.getD none) (files i)) = .ok ⟨1, p'.1, index.new⟩ := by
    unfold recoverEpoch
    refine bind_eq_ok.mpr ⟨as', hread', bind_eq_ok.mpr ⟨p', hverify', bind_eq_ok.mpr ⟨index.new, hnew, rfl⟩⟩⟩
  obtain ⟨s', hrest', hfinal⟩ := follows_recoverEpochs (t := ⟨1, p'.1, index.new⟩) hfree.start hrest
    hcurrent.symm htree.symm (by rw [hcurrent, harch]; exact hfollows)
  refine ⟨s', bind_eq_ok.mpr ⟨s', bind_eq_ok.mpr ⟨_, hfirst', hrest'⟩, ?_⟩, hfinal⟩
  have hall : (s'.log_archives_.all fun a => a.is_last_log_hash_matched) = true := by
    rw [List.all_eq_true]
    intro a' ha'
    obtain ⟨a, ha, hf⟩ := exists_of_forall₂_right hfinal ha'
    exact hf.matched (hmatched a ha)
  exact if_pos hall

/-- The sets of a log with a hash in its slot are one more. -/
theorem acceptedLogs_ne {s' : RecoveryManager K β D σ}
    (hall : List.Forall₂ Anchored pepoch.last_log_hashes s.log_archives_)
    (hfollows : List.Forall₂ (Follows h s.current_epoch_) s.log_archives_ s'.log_archives_) {d : D}
    (hd : some d ∈ pepoch.last_log_hashes) : s'.acceptedLogs ≠ s.acceptedLogs := by
  obtain ⟨i, hi, hget⟩ := List.mem_iff_getElem.mp hd
  obtain ⟨hlen, hpair⟩ := List.forall₂_iff_get.mp hall
  obtain ⟨hlen', hpair'⟩ := List.forall₂_iff_get.mp hfollows
  have hi' : i < s.log_archives_.length := hlen ▸ hi
  have hi'' : i < s'.log_archives_.length := hlen' ▸ hi'
  have ha := hpair i hi hi'
  have hf := hpair' i hi' hi''
  simp only [List.get_eq_getElem, hget] at ha hf
  intro heq
  have hlogs := congrArg (fun logs => (logs[i]?.getD []).length) heq
  simp only [RecoveryManager.acceptedLogs, List.getElem?_map, List.getElem?_eq_getElem hi',
    List.getElem?_eq_getElem hi'', Option.map_some, Option.getD_some, List.length_map] at hlogs
  generalize s.log_archives_[i] = a at ha hf hlogs
  generalize s'.log_archives_[i] = a' at hf hlogs
  cases hf with
  | same hidle =>
    have := ha.slot.symm.trans hidle.slot
    cases this
  | behind first b _ _ haccepted =>
    rw [← haccepted] at hlogs
    simp [RecoveryLogArchive.behind] at hlogs

variable {bytes : K → List UInt8}

theorem remove_value_new {k : K} (hk : bytes k ≠ []) :
    (treeIndex bytes : Index K β (Store β)).remove_value (treeIndex bytes : Index K β (Store β)).new k =
      some (treeIndex bytes : Index K β (Store β)).new := by
  change ((Masstree.Masstree.new.call (.remove_value (bytes k))).map _) = _
  rw [show Masstree.Masstree.new.call (.remove_value (bytes k)) = some (.WARN_NOT_FOUND, .new) from if_neg hk]
  rfl

/-- For a `pepoch.seal` and files that recovery accepts, with no set of epoch 0 among what it accepts,
`pepoch.seal` determines the records of the accepted log sets exactly when it holds no hash at all, so that
no log is read. -/
theorem accepted_sets_determined_iff (hfree : CollisionFree h) {k : K} (hk : bytes k ≠ []) (value : β)
    {s : RecoveryManager K β D (Store β)} (hs : execute_recovery h sort (treeIndex bytes) pepoch files = .ok s)
    (hepoch : ∀ sets ∈ s.acceptedSets, ∀ set ∈ sets, set.epoch_ ≠ 0) :
    (∀ files' s', execute_recovery h sort (treeIndex bytes) pepoch files' = .ok s' →
      s'.acceptedLogs = s.acceptedLogs) ↔ ∀ last ∈ pepoch.last_log_hashes, last = none := by
  constructor
  · intro hdet last hlast
    by_contra hne
    obtain ⟨d, rfl⟩ := Option.ne_none_iff_exists'.mp hne
    obtain ⟨s', hs', hfollows⟩ := execute_recovery_prepended hfree value (remove_value_new hk) hs hepoch
    exact acceptedLogs_ne (anchored_execute_recovery hs).1 hfollows hlast (hdet _ _ hs')
  · intro hnone files' s' hs'
    rw [acceptedLogs_of_no_hash hs hnone, acceptedLogs_of_no_hash hs' hnone]

end

/-- The log without its first set. -/
def croppedLog : Nat → List (LogFrame Nat Nat Digest) := fun _ =>
  [.log (create_json_log digestHash digestHash.passphrase secondSet)]

/-- The keys of the samples as strings of one byte. -/
def oneByte (k : Nat) : List UInt8 := [UInt8.ofNat k]

def acceptedEpochs (files : Nat → List (LogFrame Nat Nat Digest)) : Option (List (List (BitVec 32))) :=
  (execute_recovery digestHash insertionSort (treeIndex oneByte) sealed files).toOption.map fun s =>
    s.acceptedSets.map fun sets => sets.map fun set => set.epoch_

theorem acceptedEpochs_honestLog : acceptedEpochs honestLog = some [[1, 2]] := by decide +kernel

theorem acceptedEpochs_croppedLog : acceptedEpochs croppedLog = some [[2]] := by decide +kernel

theorem recovers_of_acceptedEpochs {files : Nat → List (LogFrame Nat Nat Digest)} {es : List (List (BitVec 32))}
    (h : acceptedEpochs files = some es) :
    ∃ s, execute_recovery digestHash insertionSort (treeIndex oneByte) sealed files = .ok s ∧
      s.acceptedSets.map (fun sets => sets.map fun set => set.epoch_) = es := by
  unfold acceptedEpochs at h
  cases hs : execute_recovery digestHash insertionSort (treeIndex oneByte) sealed files with
  | error e => simp [hs, Except.toOption] at h
  | ok s =>
    simp only [hs, Except.toOption, Option.map_some, Option.some.injEq] at h
    exact ⟨s, rfl, h⟩

theorem length_acceptedLogs {s : RecoveryManager K β D σ} {es : List (List (BitVec 32))}
    (h : s.acceptedSets.map (fun sets => sets.map fun set => set.epoch_) = es) :
    s.acceptedLogs.map List.length = es.map List.length := by
  rw [← h, RecoveryManager.acceptedSets, RecoveryManager.acceptedLogs]
  simp [Function.comp_def]

/-- Both logs are accepted under one `pepoch.seal`, with two sets and with one. -/
theorem accepted_sets_dropped :
    CollisionFree digestHash ∧
      ¬ ∀ (pepoch : EpochFile Digest) (files files' : Nat → List (LogFrame Nat Nat Digest))
        (s s' : RecoveryManager Nat Nat Digest (Store Nat)),
        execute_recovery digestHash insertionSort (treeIndex oneByte) pepoch files = .ok s →
        execute_recovery digestHash insertionSort (treeIndex oneByte) pepoch files' = .ok s' →
        s.acceptedLogs = s'.acceptedLogs := by
  refine ⟨digestHash_collisionFree, ?_⟩
  intro hdet
  obtain ⟨s, hs, hepochs⟩ := recovers_of_acceptedEpochs acceptedEpochs_honestLog
  obtain ⟨s', hs', hepochs'⟩ := recovers_of_acceptedEpochs acceptedEpochs_croppedLog
  have hlen := length_acceptedLogs hepochs
  rw [hdet sealed honestLog croppedLog s s' hs hs', length_acceptedLogs hepochs'] at hlen
  cases hlen

/-- The sealed log of two transactions does not determine its sets. -/
theorem accepted_sets_determined_sealed :
    ∃ s, execute_recovery digestHash insertionSort (treeIndex oneByte) sealed honestLog = .ok s ∧
      ((∀ files' s', execute_recovery digestHash insertionSort (treeIndex oneByte) sealed files' = .ok s' →
        s'.acceptedLogs = s.acceptedLogs) ↔ ∀ last ∈ sealed.last_log_hashes, last = none) := by
  obtain ⟨s, hs, hepochs⟩ := recovers_of_acceptedEpochs acceptedEpochs_honestLog
  refine ⟨s, hs, accepted_sets_determined_iff digestHash_collisionFree (List.cons_ne_nil (UInt8.ofNat 0) [])
    0 hs ?_⟩
  intro sets hsets set hset he
  have hmem : (0 : BitVec 32) ∈ (s.acceptedSets.map fun sets => sets.map fun set => set.epoch_).flatten :=
    List.mem_flatten.mpr ⟨_, List.mem_map_of_mem hsets, he ▸ List.mem_map_of_mem hset⟩
  rw [hepochs] at hmem
  revert hmem
  decide

end Cassa.SiloR

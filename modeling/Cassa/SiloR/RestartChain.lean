import Cassa.SiloR.OrderedLog

/-!
# The log after a restart

A logger starts its chain at the hash of the pass phrase, also when the server has been
restarted and the log file, which is opened for appending, already has sets in it. The
first set of the new run then carries the hash of the pass phrase where the verification
expects the hash of the last old set.
-/

namespace Cassa.SiloR

open Cassa.SiloCC

variable {K β D σ : Type}

section
variable [DecidableEq D]

/-- The passes over one log file, from epoch `c` on. -/
def archiveEpochs (h : Hash K β D) : Nat → Nat → RecoveryLogArchive K β D →
    Except Stop (RecoveryLogArchive K β D)
  | _, 0, a => .ok a
  | c, n + 1, a => do
    let a ← readAhead c a.unread a
    let (a, _) ← verify_epoch_level_integrity h (BitVec.ofNat 32 c) a []
    archiveEpochs h (c + 1) n a

variable {h : Hash K β D}

theorem archiveEpochs_succ {c n : Nat} {a a₁ : RecoveryLogArchive K β D}
    {p : RecoveryLogArchive K β D × List (RecoveryLogRecord K β D)}
    (hread : readAhead c a.unread a = .ok a₁)
    (hverify : verify_epoch_level_integrity h (BitVec.ofNat 32 c) a₁ [] = .ok p) :
    archiveEpochs h c (n + 1) a = archiveEpochs h (c + 1) n p.1 := by
  rw [archiveEpochs, hread]
  simp only [bind, Except.bind, hverify]

theorem archiveEpochs_ok {c n : Nat} {a a' : RecoveryLogArchive K β D}
    (hok : archiveEpochs h c (n + 1) a = .ok a') :
    ∃ a₁ p, readAhead c a.unread a = .ok a₁ ∧
      verify_epoch_level_integrity h (BitVec.ofNat 32 c) a₁ [] = .ok p ∧
      archiveEpochs h (c + 1) n p.1 = .ok a' := by
  obtain ⟨a₁, ha, hok⟩ := bind_eq_ok.mp hok
  obtain ⟨p, hp, hok⟩ := bind_eq_ok.mp hok
  exact ⟨a₁, p, ha, hp, hok⟩

/-- Invariant rule: what reading and verifying preserve holds after all passes. -/
theorem archiveEpochs_rule {R : RecoveryLogArchive K β D → Prop}
    (hread : ∀ c a a', R a → readAhead c a.unread a = .ok a' → R a')
    (hverify : ∀ e a p, R a → verify_epoch_level_integrity h e a [] = .ok p → R p.1)
    {c n : Nat} {a a' : RecoveryLogArchive K β D} (ha : R a)
    (hok : archiveEpochs h c n a = .ok a') : R a' := by
  induction n generalizing c a with
  | zero =>
    obtain rfl := Except.ok.inj hok
    exact ha
  | succ n ih =>
    obtain ⟨a₁, p, hr, hv, hrest⟩ := archiveEpochs_ok hok
    exact ih (hverify _ _ _ (hread _ _ _ ha hr) hv) hrest

/-- The records that are collected do not matter to the verification. -/
theorem verifyLoop_records (e : BitVec 32) (skipped todo : List (RecoveryLogSet K β D))
    (a : RecoveryLogArchive K β D) (rs rs' : List (RecoveryLogRecord K β D)) :
    (verifyLoop h e skipped todo a rs).map Prod.fst =
      (verifyLoop h e skipped todo a rs').map Prod.fst := by
  induction todo generalizing skipped a rs rs' with
  | nil => rfl
  | cons set todo ih =>
    unfold verifyLoop
    split
    · split
      · rfl
      split
      · rfl
      exact ih _ _ _ _
    · exact ih _ _ _ _

theorem verify_records {e : BitVec 32} {a : RecoveryLogArchive K β D}
    {rs : List (RecoveryLogRecord K β D)}
    {p : RecoveryLogArchive K β D × List (RecoveryLogRecord K β D)}
    (hok : verify_epoch_level_integrity h e a rs = .ok p) :
    ∃ q, verify_epoch_level_integrity h e a [] = .ok q ∧ q.1 = p.1 := by
  have heq := verifyLoop_records (h := h) e [] a.buffered_log_records_ a rs []
  unfold verify_epoch_level_integrity at hok ⊢
  rw [hok] at heq
  cases hq : verifyLoop h e [] a.buffered_log_records_ a [] with
  | error err =>
    rw [hq] at heq
    cases heq
  | ok q =>
    rw [hq] at heq
    exact ⟨q, rfl, (Except.ok.inj heq).symm⟩

/-- The first pass over all archives is the first pass over each. -/
theorem forall₂_pass {e : Nat} {as as₁ : List (RecoveryLogArchive K β D)}
    {rs : List (RecoveryLogRecord K β D)}
    {p : List (RecoveryLogArchive K β D) × List (RecoveryLogRecord K β D)}
    (hread : as.mapM (fun a => readAhead e a.unread a) = Except.ok as₁)
    (hverify : verifyAll h (BitVec.ofNat 32 e) as₁ rs = .ok p) :
    List.Forall₂ (fun a a' => ∃ a₁ q, readAhead e a.unread a = .ok a₁ ∧
      verify_epoch_level_integrity h (BitVec.ofNat 32 e) a₁ [] = .ok q ∧ q.1 = a') as p.1 := by
  induction as generalizing as₁ rs p with
  | nil =>
    obtain rfl : [] = as₁ := Except.ok.inj hread
    obtain rfl : ([], rs) = p := Except.ok.inj hverify
    exact .nil
  | cons a as ih =>
    rw [List.mapM_cons] at hread
    obtain ⟨a₁, ha, hread⟩ := bind_eq_ok.mp hread
    obtain ⟨as₂, has, hread⟩ := bind_eq_ok.mp hread
    obtain rfl := Except.ok.inj hread
    obtain ⟨q, q', hp, hps, rfl⟩ := verifyAll_cons_ok hverify
    obtain ⟨q₀, hq₀, heq⟩ := verify_records hp
    exact .cons ⟨a₁, q₀, ha, hq₀, heq⟩ (ih has hps)

variable {sort : TidSort K β D} {index : Index K β σ}

theorem forall₂_archiveEpochs {n : Nat} {s s' : RecoveryManager K β D σ}
    (hrun : recoverEpochs h sort index n s = .ok s') :
    List.Forall₂ (fun a a' => archiveEpochs h s.current_epoch_ n a = .ok a')
      s.log_archives_ s'.log_archives_ := by
  induction n generalizing s with
  | zero =>
    obtain rfl := Except.ok.inj hrun
    exact List.forall₂_same.mpr fun a _ => rfl
  | succ n ih =>
    obtain ⟨s₁, hs, hrun⟩ := bind_eq_ok.mp hrun
    obtain ⟨as, p, hread, hverify, -, hepoch, harch⟩ := recoverEpoch_ok hs
    have hpass := forall₂_pass hread hverify
    have hrest := ih hrun
    rw [harch, hepoch] at hrest
    generalize s'.log_archives_ = as' at hrest
    generalize p.1 = as₁ at hpass hrest
    generalize s.log_archives_ = as₀ at hpass
    clear hread
    induction hpass generalizing as' with
    | nil =>
      cases hrest
      exact .nil
    | cons ha _ ih' =>
      cases hrest with
      | cons ha' hrest =>
        obtain ⟨a₁, q, hr, hv, rfl⟩ := ha
        exact .cons ((archiveEpochs_succ hr hv).trans ha') (ih' _ hrest)

/-- What a recovery that returns 0 has done with one log file. -/
theorem archiveEpochs_of_execute_recovery {pepoch : EpochFile D}
    {files : Nat → List (LogFrame K β D)} {s : RecoveryManager K β D σ}
    (hs : execute_recovery h sort index pepoch files = .ok s) {i : Nat} {last : Option D}
    (hlast : pepoch.last_log_hashes[i]? = some last) :
    ∃ a, archiveEpochs h 0 (pepoch.durable_epoch_ + 1) (.new h last (files i)) = .ok a ∧
      a.is_last_log_hash_matched = true := by
  obtain ⟨hrun, hmatched⟩ := execute_recovery_ok hs
  obtain ⟨hlen, hpair⟩ := List.forall₂_iff_get.mp (forall₂_archiveEpochs hrun)
  obtain ⟨hi, hget⟩ := List.getElem?_eq_some_iff.mp hlast
  have hi₀ : i < (RecoveryManager.start h index pepoch files).log_archives_.length := by
    simpa [RecoveryManager.start] using hi
  have hi' : i < s.log_archives_.length := hlen ▸ hi₀
  have ha := hpair i hi₀ hi'
  simp only [RecoveryManager.start, List.get_eq_getElem, List.getElem_mapIdx, hget] at ha
  exact ⟨_, ha, hmatched _ (List.getElem_mem hi')⟩

end

section
variable [DecidableEq D] {h : Hash K β D}

/-- Nothing but the start of the chain follows the hash of the pass phrase. -/
theorem Passes.eq_nil {xs ys : List (RecoveryLogSet K β D)} {set : RecoveryLogSet K β D}
    (hpass : ∀ rs, h.ofSet rs ≠ h.passphrase) (hsets : Passes h h.passphrase (xs ++ set :: ys))
    (hprev : set.prev_epoch_hash_ = h.passphrase) : xs = [] := by
  obtain ⟨-, hset, -⟩ := passes_append.mp hsets
  rcases List.eq_nil_or_concat xs with rfl | ⟨xs, x, rfl⟩
  · rfl
  · rw [List.concat_eq_append, setsEnd_concat, hprev] at hset
    exact absurd hset.symm (hpass _)

theorem Passes.countP_le_one {sets : List (RecoveryLogSet K β D)}
    (hpass : ∀ rs, h.ofSet rs ≠ h.passphrase) (hsets : Passes h h.passphrase sets) :
    sets.countP (fun set => set.prev_epoch_hash_ = h.passphrase) ≤ 1 := by
  cases sets with
  | nil => simp
  | cons set sets =>
    have hrest : sets.countP (fun set => set.prev_epoch_hash_ = h.passphrase) = 0 := by
      rw [List.countP_eq_zero]
      intro x hx hprev
      obtain ⟨xs, ys, rfl⟩ := List.append_of_mem hx
      have hnil : set :: xs = [] := Passes.eq_nil hpass hsets (by simpa using hprev)
      cases hnil
    rw [List.countP_cons, hrest]
    split <;> omega

/-- An archive on its way through a recovery of the frames `file`. -/
structure Trail (h : Hash K β D) (file : List (LogFrame K β D)) (a : RecoveryLogArchive K β D) :
    Prop where
  passes : Passes h h.passphrase a.accepted
  prev : a.previous_epoch_hash_ = setsEnd h h.passphrase a.accepted
  sets : ∀ set, set ∈ a.accepted ∨ set ∈ a.buffered_log_records_ →
    ∃ doc, .log doc ∈ file ∧ deserialize_log_set doc = some set
  unread : ∀ f ∈ a.unread, f ∈ file

theorem Trail.new (last : Option D) (file : List (LogFrame K β D)) : Trail h file (.new h last file) :=
  ⟨trivial, rfl, by simp [RecoveryLogArchive.new], fun _ hf => hf⟩

theorem Trail.readAhead {file fs : List (LogFrame K β D)} {e : Nat}
    {a a' : RecoveryLogArchive K β D} (ha : Trail h file a) (hfs : ∀ f ∈ fs, f ∈ file)
    (hok : readAhead e fs a = .ok a') : Trail h file a' := by
  induction fs generalizing a with
  | nil =>
    obtain rfl := Except.ok.inj hok
    exact ⟨ha.passes, ha.prev, ha.sets, by simp⟩
  | cons f fs ih =>
    have hrest : ∀ f ∈ fs, f ∈ file := fun f hf => hfs f (List.mem_cons_of_mem _ hf)
    unfold SiloR.readAhead at hok
    split at hok
    · obtain rfl := Except.ok.inj hok
      exact ⟨ha.passes, ha.prev, ha.sets, hfs⟩
    cases f with
    | empty =>
      obtain rfl := Except.ok.inj hok
      exact ⟨ha.passes, ha.prev, ha.sets, hrest⟩
    | malformed => cases hok
    | log doc =>
      dsimp only at hok
      split at hok
      · cases hok
      cases hset : deserialize_log_set doc with
      | none =>
        rw [hset] at hok
        cases hok
      | some set =>
        rw [hset] at hok
        refine ih (a := { a with buffered_log_records_ := a.buffered_log_records_ ++ [set] })
          ⟨ha.passes, ha.prev, ?_, ha.unread⟩ hrest hok
        intro x hx
        dsimp only at hx
        rw [List.mem_append, List.mem_singleton] at hx
        rcases hx with hx | hx | rfl
        · exact ha.sets x (Or.inl hx)
        · exact ha.sets x (Or.inr hx)
        · exact ⟨doc, hfs _ List.mem_cons_self, hset⟩

theorem Trail.verify {file : List (LogFrame K β D)} {e : BitVec 32} {a : RecoveryLogArchive K β D}
    {rs : List (RecoveryLogRecord K β D)}
    {p : RecoveryLogArchive K β D × List (RecoveryLogRecord K β D)} (ha : Trail h file a)
    (hok : verify_epoch_level_integrity h e a rs = .ok p) : Trail h file p.1 := by
  obtain ⟨harch, -, hpass⟩ := verifyLoop_ok hok
  rw [ha.prev] at hpass
  rw [harch]
  refine ⟨?_, ?_, ?_, ?_⟩
  · dsimp only
    rw [accepted_foldl_accept]
    exact passes_append.mpr ⟨ha.passes, hpass⟩
  · dsimp only
    rw [accepted_foldl_accept, previous_foldl_accept, ha.prev, setsEnd_append]
  · intro set hset
    dsimp only at hset
    rw [accepted_foldl_accept, List.mem_append] at hset
    rcases hset with (hset | hset) | hset
    · exact ha.sets set (Or.inl hset)
    · exact ha.sets set (Or.inr (List.mem_of_mem_filter hset))
    · exact ha.sets set (Or.inr (List.mem_of_mem_filter hset))
  · dsimp only
    rw [unread_foldl_accept]
    exact ha.unread

theorem Trail.archiveEpochs {file : List (LogFrame K β D)} {c n : Nat}
    {a a' : RecoveryLogArchive K β D} (ha : Trail h file a)
    (hok : archiveEpochs h c n a = .ok a') : Trail h file a' :=
  archiveEpochs_rule (fun _ _ _ ha hr => ha.readAhead ha.unread hr)
    (fun _ _ _ ha hv => ha.verify hv) ha hok

end

/-- The sets of the log file pass, all of them, and the last one has the hash of the
slot. -/
def AcceptsFile [DecidableEq D] (h : Hash K β D) (durable_epoch : Nat) (last_log_hash : Option D)
    (file : List (LogFrame K β D)) : Prop :=
  ∃ (a : RecoveryLogArchive K β D) (docs : List (JsonLog K β D)),
    archiveEpochs h 0 (durable_epoch + 1) (.new h last_log_hash file) = .ok a ∧
    a.is_last_log_hash_matched = true ∧ file = docs.map .log ∧ a.accepted.Perm (docs.map setOf)

section
variable [DecidableEq D] {h : Hash K β D}

theorem InOrder.archiveEpochs {docs : List (JsonLog K β D)} (hlog : OrderedLog h docs) {last : D} {c : Nat}
    (n : Nat) {a : RecoveryLogArchive K β D} (ha : InOrder h docs last c a) :
    ∃ a', archiveEpochs h c n a = .ok a' ∧ InOrder h docs last (c + n) a' := by
  induction n generalizing c a with
  | zero => exact ⟨a, rfl, ha⟩
  | succ n ih =>
    obtain ⟨a₁, a₂, hread, hverify, ha₂⟩ := ha.step hlog
    obtain ⟨a', hok, ha'⟩ := ih ha₂
    refine ⟨a', by rw [archiveEpochs_succ hread (hverify []), hok], ?_⟩
    rwa [Nat.add_right_comm, Nat.add_assoc] at ha'

omit [DecidableEq D] in
theorem exists_chainEnd {docs : List (JsonLog K β D)} (hne : docs ≠ []) (prev : D) :
    ∃ doc ∈ docs, h.ofSet doc.log_set = chainEnd h prev docs := by
  obtain ⟨xs, x, rfl⟩ := List.eq_nil_or_concat docs |>.resolve_left hne
  exact ⟨x, by simp, by rw [List.concat_eq_append, chainEnd_append]⟩

/-- The passes over a log in order use it up once the durable epoch has reached it. -/
theorem OrderedLog.drained {docs : List (JsonLog K β D)} (hlog : OrderedLog h docs) (hne : docs ≠ []) {durable : Nat}
    (hdur : ∀ doc ∈ docs, (setOf doc).epoch_.toNat ≤ durable) :
    ∃ a, archiveEpochs h 0 (durable + 1) (.new h (some (chainEnd h h.passphrase docs)) (docs.map .log)) = .ok a ∧
      Draining h docs (chainEnd h h.passphrase docs) docs [] a ∧ a.is_last_log_hash_matched = true := by
  obtain ⟨a, hok, ha⟩ := (InOrder.new (h := h) docs (chainEnd h h.passphrase docs)).archiveEpochs hlog (durable + 1)
  have hd := ha.drained hne fun doc hdoc => by
    have := hdur doc hdoc
    omega
  obtain ⟨doc, hdoc, hlast⟩ := exists_chainEnd (h := h) hne h.passphrase
  exact ⟨a, hok, hd, hd.matched doc hdoc hlast⟩

/-- A log in order is accepted once the durable epoch has reached it. -/
theorem OrderedLog.acceptsFile {docs : List (JsonLog K β D)} (hlog : OrderedLog h docs) (hne : docs ≠ []) {durable : Nat}
    (hdur : ∀ doc ∈ docs, (setOf doc).epoch_.toNat ≤ durable) :
    AcceptsFile h durable (some (chainEnd h h.passphrase docs)) (docs.map .log) := by
  obtain ⟨a, hok, hd, hmatched⟩ := hlog.drained hne hdur
  exact ⟨a, docs, hok, hmatched, rfl, hd.accepted ▸ List.Perm.refl _⟩

/-- The sets of a recovery are accepted in the order of their epochs. -/
theorem accepted_ordered {c n : Nat} {a a' : RecoveryLogArchive K β D} (hlt : c + n ≤ 2 ^ 32)
    (hord : a.accepted.Pairwise fun set set' => set.epoch_.toNat ≤ set'.epoch_.toNat)
    (hbefore : ∀ set ∈ a.accepted, set.epoch_.toNat < c) (hok : archiveEpochs h c n a = .ok a') :
    a'.accepted.Pairwise fun set set' => set.epoch_.toNat ≤ set'.epoch_.toNat := by
  induction n generalizing c a with
  | zero =>
    obtain rfl := Except.ok.inj hok
    exact hord
  | succ n ih =>
    obtain ⟨a₁, p, hread, hverify, hrest⟩ := archiveEpochs_ok hok
    obtain ⟨harch, -, -⟩ := verifyLoop_ok hverify
    have hacc : p.1.accepted = a.accepted ++ ofEpoch (BitVec.ofNat 32 c) a₁.buffered_log_records_ := by
      rw [harch, ← (readAhead_ok hread).1]
      exact accepted_foldl_accept _ _
    have hnew : ∀ set ∈ ofEpoch (BitVec.ofNat 32 c) a₁.buffered_log_records_,
        set.epoch_.toNat = c := fun set hset =>
      (epoch_eq_iff (by omega) _).mp (mem_ofEpoch.mp hset).2
    refine ih (by omega) ?_ ?_ hrest
    · rw [hacc, List.pairwise_append]
      refine ⟨hord, ?_, ?_⟩
      · refine List.pairwise_of_forall_mem_list ?_
        intro x hx y hy
        rw [hnew x hx, hnew y hy]
      · intro x hx y hy
        rw [hnew y hy]
        exact (hbefore x hx).le
    · intro set hset
      rw [hacc, List.mem_append] at hset
      rcases hset with hset | hset
      · exact (hbefore set hset).trans (Nat.lt_succ_self c)
      · rw [hnew set hset]
        exact Nat.lt_succ_self c

end

/-- The documents that a logger appends for its buffers, one after the other, with the
chain at `prev_epoch_hash`. -/
def writeAll (h : Hash K β D) : D → List (List (LogRecord K β)) → List (JsonLog K β D)
  | _, [] => []
  | prev_epoch_hash, log_set_ :: buffers =>
    create_json_log h prev_epoch_hash log_set_ :: writeAll h (currentEpochHash h log_set_) buffers

/-- What `write_tail_log_hash` leaves in the slot of the logger. -/
def tailHash (h : Hash K β D) (buffers : List (List (LogRecord K β))) : Option D :=
  buffers.getLast?.map (currentEpochHash h)

section
variable {h : Hash K β D} {buffers : List (List (LogRecord K β))}

theorem chained_writeAll {prev : D} (hne : ∀ rs ∈ buffers, rs ≠ []) :
    Chained h prev (writeAll h prev buffers) := by
  induction buffers generalizing prev with
  | nil => trivial
  | cons rs buffers ih =>
    refine ⟨⟨rs, hne rs List.mem_cons_self, rfl⟩, ?_⟩
    rw [ofSet_create_json_log]
    exact ih fun x hx => hne x (List.mem_cons_of_mem _ hx)

theorem tailHash_eq (hne : buffers ≠ []) (prev : D) :
    tailHash h buffers = some (chainEnd h prev (writeAll h prev buffers)) := by
  induction buffers generalizing prev with
  | nil => exact absurd rfl hne
  | cons rs buffers ih =>
    rw [writeAll, chainEnd_cons, ofSet_create_json_log]
    cases buffers with
    | nil => rfl
    | cons rs' buffers =>
      rw [← ih (by simp) (currentEpochHash h rs)]
      unfold tailHash
      rw [List.getLast?_cons_cons]

/-- A buffer of one epoch makes a set of that epoch. -/
theorem epoch_create_json_log {rs : List (LogRecord K β)} {e : Nat} (prev : D) (hne : rs ≠ [])
    (hepoch : ∀ r ∈ rs, r.tid_.epoch.toNat = e) :
    (setOf (create_json_log h prev rs)).epoch_.toNat = e ∧
      ∀ r ∈ (create_json_log h prev rs).log_set, r.tid_.epoch.toNat = e := by
  have hall : ∀ r ∈ (create_json_log h prev rs).log_set, r.tid_.epoch.toNat = e := by
    intro r hr
    have hmem : r.fields ∈ rs.map LogRecord.fields := by
      rw [← fields_create_json_log h prev rs]
      exact List.mem_map_of_mem hr
    obtain ⟨x, hx, hfields⟩ := List.mem_map.mp hmem
    have htid : x.tid_ = r.tid_ := congrArg Prod.fst hfields
    rw [← htid]
    exact hepoch x hx
  refine ⟨?_, hall⟩
  unfold setOf
  cases hl : (create_json_log h prev rs).log_set.getLast? with
  | none => exact absurd (List.getLast?_eq_none_iff.mp hl) (log_set_ne_nil h prev hne)
  | some r => exact hall r (List.mem_of_getLast? hl)

end

section
variable {h : Hash K β D} {buffers : List (Nat × List (LogRecord K β))}

/-- The buffers with their epochs, and the sets that they make. -/
theorem forall₂_writeAll (prev : D)
    (hbuf : ∀ b ∈ buffers, b.2 ≠ [] ∧ ∀ r ∈ b.2, r.tid_.epoch.toNat = b.1) :
    List.Forall₂ (fun b doc => (setOf doc).epoch_.toNat = b.1 ∧
      h.ofSet doc.log_set = currentEpochHash h b.2 ∧ ∀ r ∈ doc.log_set, r.tid_.epoch.toNat = b.1) buffers
      (writeAll h prev (buffers.map Prod.snd)) := by
  induction buffers generalizing prev with
  | nil => exact .nil
  | cons b buffers ih =>
    obtain ⟨hne, hepoch⟩ := hbuf b List.mem_cons_self
    rw [List.map_cons, writeAll]
    obtain ⟨hset, hrecords⟩ := epoch_create_json_log prev hne hepoch
    exact .cons ⟨hset, ofSet_create_json_log h prev b.2, hrecords⟩
      (ih _ fun x hx => hbuf x (List.mem_cons_of_mem _ hx))

theorem mem_writeAll (prev : D)
    (hbuf : ∀ b ∈ buffers, b.2 ≠ [] ∧ ∀ r ∈ b.2, r.tid_.epoch.toNat = b.1) {doc : JsonLog K β D}
    (hdoc : doc ∈ writeAll h prev (buffers.map Prod.snd)) :
    ∃ b ∈ buffers, (setOf doc).epoch_.toNat = b.1 ∧
      h.ofSet doc.log_set = currentEpochHash h b.2 ∧ ∀ r ∈ doc.log_set, r.tid_.epoch.toNat = b.1 := by
  obtain ⟨k, hk, rfl⟩ := List.mem_iff_getElem.mp hdoc
  obtain ⟨hlen, hpair⟩ := List.forall₂_iff_get.mp (forall₂_writeAll (h := h) prev hbuf)
  have hk' : k < buffers.length := hlen ▸ hk
  exact ⟨buffers[k], List.getElem_mem hk', hpair k hk' hk⟩

/-- If buffers with one hash are of one epoch, so are the sets that they make. -/
theorem epoch_of_hash {prev : D}
    (hbuf : ∀ b ∈ buffers, b.2 ≠ [] ∧ ∀ r ∈ b.2, r.tid_.epoch.toNat = b.1)
    (hsep : ∀ b ∈ buffers, ∀ b' ∈ buffers,
      currentEpochHash h b.2 = currentEpochHash h b'.2 → b.1 = b'.1) :
    ∀ doc ∈ writeAll h prev (buffers.map Prod.snd), ∀ doc' ∈ writeAll h prev (buffers.map Prod.snd),
      h.ofSet doc.log_set = h.ofSet doc'.log_set → (setOf doc).epoch_ = (setOf doc').epoch_ := by
  intro doc hdoc doc' hdoc' heq
  obtain ⟨b, hb, hepoch, hhash, -⟩ := mem_writeAll prev hbuf hdoc
  obtain ⟨b', hb', hepoch', hhash', -⟩ := mem_writeAll prev hbuf hdoc'
  rw [hhash, hhash'] at heq
  exact BitVec.eq_of_toNat_eq (by rw [hepoch, hepoch', hsep b hb b' hb' heq])

theorem map_epoch_writeAll (prev : D)
    (hbuf : ∀ b ∈ buffers, b.2 ≠ [] ∧ ∀ r ∈ b.2, r.tid_.epoch.toNat = b.1) :
    (writeAll h prev (buffers.map Prod.snd)).map (fun doc => (setOf doc).epoch_.toNat) =
      buffers.map Prod.fst := by
  have hall := forall₂_writeAll (h := h) prev hbuf
  generalize writeAll h prev (buffers.map Prod.snd) = docs at hall ⊢
  clear hbuf
  induction hall with
  | nil => rfl
  | cons hb _ ih => rw [List.map_cons, List.map_cons, hb.1, ih]

theorem pairwise_writeAll (prev : D)
    (hbuf : ∀ b ∈ buffers, b.2 ≠ [] ∧ ∀ r ∈ b.2, r.tid_.epoch.toNat = b.1) :
    ((writeAll h prev (buffers.map Prod.snd)).Pairwise fun doc doc' =>
      (setOf doc).epoch_.toNat ≤ (setOf doc').epoch_.toNat) ↔
      buffers.Pairwise fun b b' => b.1 ≤ b'.1 := by
  rw [← List.pairwise_map (R := (· ≤ ·)) (f := fun doc => (setOf doc).epoch_.toNat),
    map_epoch_writeAll prev hbuf, List.pairwise_map]

theorem writeAll_ne_nil {prev : D} {buffers : List (List (LogRecord K β))} (hne : buffers ≠ []) :
    writeAll h prev buffers ≠ [] := by
  cases buffers with
  | nil => exact absurd rfl hne
  | cons rs buffers => exact List.cons_ne_nil _ _

/-- Buffers that come in the order of their epochs make a log in order. -/
theorem orderedLog_writeAll
    (hbuf : ∀ b ∈ buffers, b.2 ≠ [] ∧ ∀ r ∈ b.2, r.tid_.epoch.toNat = b.1)
    (hord : buffers.Pairwise fun b b' => b.1 ≤ b'.1) :
    OrderedLog h (writeAll h h.passphrase (buffers.map Prod.snd)) := by
  refine ⟨chained_writeAll ?_, ?_, (pairwise_writeAll h.passphrase hbuf).mpr hord⟩
  · intro rs hrs
    obtain ⟨b, hb, rfl⟩ := List.mem_map.mp hrs
    exact (hbuf b hb).1
  · intro doc hdoc r hr
    obtain ⟨b, -, hepoch, -, hrs⟩ := mem_writeAll h.passphrase hbuf hdoc
    exact BitVec.eq_of_toNat_eq ((hrs r hr).trans hepoch.symm)

theorem durable_writeAll
    (hbuf : ∀ b ∈ buffers, b.2 ≠ [] ∧ ∀ r ∈ b.2, r.tid_.epoch.toNat = b.1) {durable : Nat}
    (hdur : ∀ b ∈ buffers, b.1 ≤ durable) :
    ∀ doc ∈ writeAll h h.passphrase (buffers.map Prod.snd), (setOf doc).epoch_.toNat ≤ durable := by
  intro doc hdoc
  obtain ⟨b, hb, hepoch, -⟩ := mem_writeAll h.passphrase hbuf hdoc
  rw [hepoch]
  exact hdur b hb

end

theorem Chained.head_prev {h : Hash K β D} {prev : D} {doc : JsonLog K β D} {docs : List (JsonLog K β D)}
    (hdocs : Chained h prev (doc :: docs)) : (setOf doc).prev_epoch_hash_ = prev := by
  obtain ⟨⟨rs, -, hdoc⟩, -⟩ := hdocs
  rw [hdoc]
  rfl

theorem setOf_eq_of_deserialize {doc : JsonLog K β D} {set : RecoveryLogSet K β D}
    (hset : deserialize_log_set doc = some set) : setOf doc = set := by
  unfold deserialize_log_set at hset
  cases hl : doc.log_set.getLast? with
  | none =>
    rw [hl] at hset
    cases hset
  | some r =>
    rw [hl] at hset
    obtain rfl := Option.some.inj hset
    simp [setOf, hl]

theorem Chained.prev_getElem {h : Hash K β D} {prev : D} {docs : List (JsonLog K β D)}
    (hdocs : Chained h prev docs) {k : Nat} (hk : k + 1 < docs.length) :
    (setOf docs[k + 1]).prev_epoch_hash_ = h.ofSet docs[k].log_set := by
  induction docs generalizing prev k with
  | nil => simp at hk
  | cons doc docs ih =>
    cases k with
    | zero =>
      cases docs with
      | nil => simp at hk
      | cons doc' docs => exact hdocs.2.head_prev
    | succ k =>
      have hk' : k + 1 < docs.length := by simpa using hk
      exact ih hdocs.2 hk'

section
variable [DecidableEq D] {h : Hash K β D}

/-- An accepted file has but one set that starts a chain. -/
theorem countP_start_le_one {file : List (LogFrame K β D)} {durable : Nat} {last : Option D}
    (hpass : ∀ rs, h.ofSet rs ≠ h.passphrase) {a : RecoveryLogArchive K β D}
    {docs : List (JsonLog K β D)}
    (hok : archiveEpochs h 0 (durable + 1) (.new h last file) = .ok a)
    (hperm : a.accepted.Perm (docs.map setOf)) :
    (docs.map setOf).countP (fun set => set.prev_epoch_hash_ = h.passphrase) ≤ 1 := by
  have htrail := (Trail.new last file).archiveEpochs hok
  rw [← hperm.countP_eq]
  exact htrail.passes.countP_le_one hpass

theorem one_le_countP {sets : List (RecoveryLogSet K β D)} {set : RecoveryLogSet K β D}
    (hset : set ∈ sets) (hprev : set.prev_epoch_hash_ = h.passphrase) :
    1 ≤ sets.countP (fun set => set.prev_epoch_hash_ = h.passphrase) :=
  List.countP_pos_iff.mpr ⟨set, hset, by simpa using hprev⟩

/-- The buffers came in the order of their epochs. -/
theorem ordered_of_accepts {docs : List (JsonLog K β D)} {durable : Nat} {tail : Option D}
    (hpass : ∀ rs, h.ofSet rs ≠ h.passphrase)
    (hset : ∀ doc ∈ docs, ∀ doc' ∈ docs, h.ofSet doc.log_set = h.ofSet doc'.log_set →
      (setOf doc).epoch_ = (setOf doc').epoch_)
    (hchain : Chained h h.passphrase docs) (hlt : durable < 2 ^ 32)
    (haccept : AcceptsFile h durable tail (docs.map .log)) :
    docs.Pairwise fun doc doc' => (setOf doc).epoch_.toNat ≤ (setOf doc').epoch_.toNat := by
  obtain ⟨a, docs', hok, -, hfile, hperm⟩ := haccept
  have hinj : Function.Injective (LogFrame.log : JsonLog K β D → LogFrame K β D) :=
    fun _ _ heq => LogFrame.log.inj heq
  obtain rfl : docs = docs' := List.map_injective_iff.mpr hinj hfile
  have hpasses := ((Trail.new tail (docs.map .log)).archiveEpochs hok).passes
  have hord : a.accepted.Pairwise fun set set' => set.epoch_.toNat ≤ set'.epoch_.toNat :=
    accepted_ordered (by omega) (by simp [RecoveryLogArchive.new])
      (by simp [RecoveryLogArchive.new]) hok
  let R : JsonLog K β D → JsonLog K β D → Prop := fun doc doc' =>
    (setOf doc).epoch_.toNat ≤ (setOf doc').epoch_.toNat
  have : Trans R R R := ⟨fun hab hbc => Nat.le_trans hab hbc⟩
  change docs.Pairwise R
  rw [← List.isChain_iff_pairwise, List.isChain_iff_getElem]
  intro k hk
  have hprev := hchain.prev_getElem hk
  have hmem : setOf docs[k + 1] ∈ a.accepted :=
    hperm.mem_iff.mpr (List.mem_map_of_mem (List.getElem_mem hk))
  obtain ⟨xs, ys, hacc⟩ := List.append_of_mem hmem
  rw [hacc, passes_append] at hpasses
  have hlink := hpasses.2.1
  rw [hprev] at hlink
  rcases List.eq_nil_or_concat xs with rfl | ⟨xs, x, rfl⟩
  · exact absurd hlink (hpass _)
  rw [List.concat_eq_append] at hacc hlink
  rw [setsEnd_concat] at hlink
  have hx : x ∈ a.accepted := by
    rw [hacc]
    simp
  obtain ⟨doc, hdoc, rfl⟩ := List.mem_map.mp (hperm.mem_iff.mp hx)
  have hepoch : (setOf docs[k]).epoch_ = (setOf doc).epoch_ :=
    hset _ (List.getElem_mem _) _ hdoc hlink
  rw [hacc, List.append_assoc, List.pairwise_append] at hord
  change (setOf docs[k]).epoch_.toNat ≤ _
  rw [hepoch]
  exact (List.pairwise_cons.mp hord.2.1).1 _ List.mem_cons_self

variable {sort : TidSort K β D} {index : Index K β σ}

/-- A file with a hash in its slot has a set that starts a chain. -/
theorem exists_start {pepoch : EpochFile D} {files : Nat → List (LogFrame K β D)}
    {s : RecoveryManager K β D σ} (hs : execute_recovery h sort index pepoch files = .ok s) {i : Nat} {d : D}
    (hlast : pepoch.last_log_hashes[i]? = some (some d)) :
    ∃ doc, .log doc ∈ files i ∧ (setOf doc).prev_epoch_hash_ = h.passphrase := by
  obtain ⟨a, hok, hmatched⟩ := archiveEpochs_of_execute_recovery hs hlast
  have htrail := (Trail.new (some d) (files i)).archiveEpochs hok
  have hanchor : Anchored (some d) a :=
    archiveEpochs_rule (fun _ _ _ ha hr => anchored_readAhead ha hr)
      (fun e a p ha hv => anchored_verify h (some d) e a [] p ha hv)
      (anchored_new h (some d) (files i)) hok
  have hne : a.accepted ≠ [] := hanchor.matched (by simp) hmatched
  cases hacc : a.accepted with
  | nil => exact absurd hacc hne
  | cons set sets =>
    have hpasses := htrail.passes
    rw [hacc] at hpasses
    obtain ⟨doc, hdoc, hset⟩ := htrail.sets set (Or.inl (by rw [hacc]; exact List.mem_cons_self))
    refine ⟨doc, hdoc, ?_⟩
    rw [setOf_eq_of_deserialize hset]
    exact hpasses.1

/-- The old file had no set in it. -/
theorem slot_none_of_accepts {pepoch : EpochFile D} {files : Nat → List (LogFrame K β D)}
    {s : RecoveryManager K β D σ} (hpass : ∀ rs, h.ofSet rs ≠ h.passphrase)
    (hs : execute_recovery h sort index pepoch files = .ok s) {i : Nat} {last : Option D}
    (hlast : pepoch.last_log_hashes[i]? = some last) {buffers : List (List (LogRecord K β))}
    (hne : buffers ≠ []) (hbuf : ∀ rs ∈ buffers, rs ≠ []) {durable : Nat} {tail : Option D}
    (haccept : AcceptsFile h durable tail
      (files i ++ (writeAll h h.passphrase buffers).map .log)) : last = none := by
  cases last with
  | none => rfl
  | some d =>
    obtain ⟨a, docs, hok, -, hfile, hperm⟩ := haccept
    have hcount := countP_start_le_one hpass hok hperm
    obtain ⟨doc, hdoc, hstart⟩ := exists_start hs hlast
    obtain ⟨old, new, rfl, hold, hnew⟩ := List.map_eq_append_iff.mp hfile.symm
    have hinj : Function.Injective (LogFrame.log : JsonLog K β D → LogFrame K β D) :=
      fun _ _ heq => LogFrame.log.inj heq
    have hnew' : new = writeAll h h.passphrase buffers := List.map_injective_iff.mpr hinj hnew
    have hold' : doc ∈ old := by
      rw [← hold] at hdoc
      exact (List.mem_map_of_injective hinj).mp hdoc
    have hone := one_le_countP (List.mem_map_of_mem hold') hstart
    have hchain : Chained h h.passphrase (writeAll h h.passphrase buffers) := chained_writeAll hbuf
    rw [← hnew'] at hchain
    cases new with
    | nil =>
      cases buffers with
      | nil => exact absurd rfl hne
      | cons rs buffers => cases hnew'
    | cons doc' new =>
      have hmem : setOf doc' ∈ (doc' :: new).map setOf := List.mem_cons_self
      have hone' := one_le_countP hmem hchain.head_prev
      rw [List.map_append, List.countP_append] at hcount
      omega

/-- After a restart the logger appends its buffers to a log file that recovery has just
accepted. The next recovery never accepts the whole file if something had been logged in
it. If nothing had, it does, provided that the buffers come in the order of their epochs
(which they have to, as long as epochs fit into their 32 bits and no two buffers of
different epochs have one hash). -/
theorem restarted_log_accepted_iff {pepoch : EpochFile D} {files : Nat → List (LogFrame K β D)}
    {s : RecoveryManager K β D σ} (hpass : ∀ rs, h.ofSet rs ≠ h.passphrase)
    (hs : execute_recovery h sort index pepoch files = .ok s) {i : Nat} {last : Option D}
    (hlast : pepoch.last_log_hashes[i]? = some last) (hfile : last = none → files i = [])
    {buffers : List (Nat × List (LogRecord K β))} (hne : buffers ≠ [])
    (hbuf : ∀ b ∈ buffers, b.2 ≠ [] ∧ ∀ r ∈ b.2, r.tid_.epoch.toNat = b.1) {durable : Nat}
    (hdur : ∀ b ∈ buffers, b.1 ≤ durable) :
    let accepted := AcceptsFile h durable (tailHash h (buffers.map Prod.snd))
      (files i ++ (writeAll h h.passphrase (buffers.map Prod.snd)).map .log)
    let inOrder := buffers.Pairwise fun b b' => b.1 ≤ b'.1
    let separated := ∀ b ∈ buffers, ∀ b' ∈ buffers,
      currentEpochHash h b.2 = currentEpochHash h b'.2 → b.1 = b'.1
    (last ≠ none → ¬ accepted) ∧ (inOrder → (accepted ↔ last = none)) ∧
      (durable < 2 ^ 32 → separated → (accepted ↔ last = none ∧ inOrder)) := by
  intro accepted inOrder separated
  have hne' : buffers.map Prod.snd ≠ [] := by simpa using hne
  have hrecords : ∀ rs ∈ buffers.map Prod.snd, rs ≠ [] := by
    intro rs hrs
    obtain ⟨b, hb, rfl⟩ := List.mem_map.mp hrs
    exact (hbuf b hb).1
  have hchain : Chained h h.passphrase (writeAll h h.passphrase (buffers.map Prod.snd)) :=
    chained_writeAll hrecords
  have hnone : accepted → last = none := slot_none_of_accepts hpass hs hlast hne' hrecords
  have hordered : durable < 2 ^ 32 → separated → accepted → inOrder := by
    intro hlt hsep haccept
    have hfile' := hfile (hnone haccept)
    simp only [accepted, hfile', List.nil_append] at haccept
    exact (pairwise_writeAll h.passphrase hbuf).mp
      (ordered_of_accepts hpass (epoch_of_hash hbuf hsep) hchain hlt haccept)
  have haccepted : last = none → inOrder → accepted := by
    intro hnone hord
    simp only [accepted, hfile hnone, List.nil_append]
    rw [tailHash_eq hne' h.passphrase]
    exact (orderedLog_writeAll hbuf hord).acceptsFile (writeAll_ne_nil hne') (durable_writeAll hbuf hdur)
  refine ⟨fun hsome haccept => hsome (hnone haccept), ?_, ?_⟩
  · intro hord
    exact ⟨hnone, fun hnone => haccepted hnone hord⟩
  · intro hlt hsep
    exact ⟨fun haccept => ⟨hnone haccept, hordered hlt hsep haccept⟩,
      fun hcond => haccepted hcond.1 hcond.2⟩

end

def restartSeal : EpochFile Digest := ⟨2, [tailHash digestHash [secondSet]]⟩

def restartLog : Nat → List (LogFrame Nat Nat Digest) := fun i =>
  shortLog i ++ (writeAll digestHash digestHash.passphrase [secondSet]).map .log

theorem shortLog_recovers :
    (execute_recovery digestHash insertionSort mapIndex shortSeal shortLog).toOption.isSome = true := by decide

theorem restartLog_refused :
    (match execute_recovery digestHash insertionSort mapIndex restartSeal restartLog with
      | .error .minusOne => true
      | _ => false) = true := by decide

theorem archiveEpochs_restartLog :
    (archiveEpochs digestHash 0 3 (.new digestHash (tailHash digestHash [secondSet])
      (restartLog 0))).toOption.isNone = true := by decide

/-- The log of one set is recovered; with one more set from the restarted server, it is
refused. -/
theorem restarted_log_refused :
    (match execute_recovery digestHash insertionSort mapIndex restartSeal restartLog with
      | .error .minusOne => true
      | _ => false) = true ∧
    ¬ ∀ (pepoch : EpochFile Digest) (files : Nat → List (LogFrame Nat Nat Digest))
      (s : RecoveryManager Nat Nat Digest (Nat → Option Nat)) (i : Nat) (last : Option Digest)
      (buffers : List (Nat × List (LogRecord Nat Nat))) (durable : Nat),
      execute_recovery digestHash insertionSort mapIndex pepoch files = .ok s →
      pepoch.last_log_hashes[i]? = some last → (last = none → files i = []) → buffers ≠ [] →
      (∀ b ∈ buffers, b.2 ≠ [] ∧ ∀ r ∈ b.2, r.tid_.epoch.toNat = b.1) →
      (∀ b ∈ buffers, pepoch.durable_epoch_ ≤ b.1 ∧ b.1 ≤ durable) →
      AcceptsFile digestHash durable (tailHash digestHash (buffers.map Prod.snd))
        (files i ++ (writeAll digestHash digestHash.passphrase (buffers.map Prod.snd)).map .log) := by
  refine ⟨restartLog_refused, ?_⟩
  intro haccept
  cases hs : execute_recovery digestHash insertionSort mapIndex shortSeal shortLog with
  | error e =>
    have hsome := shortLog_recovers
    rw [hs] at hsome
    cases hsome
  | ok s =>
    obtain ⟨a, docs, hok, -, -, -⟩ := haccept shortSeal shortLog s 0 _ [(2, secondSet)] 2 hs rfl
      (fun hnone => nomatch hnone) (by simp) (by decide) (by decide)
    have hnone := archiveEpochs_restartLog
    change (archiveEpochs digestHash 0 3 (.new digestHash (tailHash digestHash [secondSet])
      (shortLog 0 ++ (writeAll digestHash digestHash.passphrase [secondSet]).map .log))
      ).toOption.isNone = true at hnone
    change archiveEpochs digestHash 0 3 (.new digestHash (tailHash digestHash [secondSet])
      (shortLog 0 ++ (writeAll digestHash digestHash.passphrase [secondSet]).map .log)) = _ at hok
    rw [hok] at hnone
    cases hnone

theorem emptyLog_recovers :
    (execute_recovery digestHash insertionSort mapIndex ⟨0, [none]⟩ fun _ => []).toOption.isSome = true := by
  decide

/-- A log that was empty takes the sets of the next run. -/
theorem restarted_log_accepted_fresh :
    ∃ s, execute_recovery digestHash insertionSort mapIndex ⟨0, [none]⟩ (fun _ => []) = .ok s ∧
      AcceptsFile digestHash 2 (tailHash digestHash [firstSet, secondSet])
        ((writeAll digestHash digestHash.passphrase [firstSet, secondSet]).map .log) := by
  cases hs : execute_recovery digestHash insertionSort mapIndex ⟨0, [none]⟩ fun _ => [] with
  | error e =>
    have hsome := emptyLog_recovers
    rw [hs] at hsome
    cases hsome
  | ok s =>
    refine ⟨s, rfl, ?_⟩
    have hlast : (EpochFile.mk 0 [none] : EpochFile Digest).last_log_hashes[0]? = some none := rfl
    have hbuf : ∀ b ∈ [(1, firstSet), (2, secondSet)],
        b.2 ≠ [] ∧ ∀ r ∈ b.2, r.tid_.epoch.toNat = b.1 := by decide
    have hdur : ∀ b ∈ [(1, firstSet), (2, secondSet)], b.1 ≤ 2 := by decide
    have hiff := restarted_log_accepted_iff digestHash_collisionFree.start hs hlast
      (fun _ => rfl) (by simp) hbuf hdur
    exact (hiff.2.1 (by decide)).mpr rfl

end Cassa.SiloR

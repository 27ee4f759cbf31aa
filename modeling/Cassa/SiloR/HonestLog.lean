import Cassa.SiloR.Recovery
import Mathlib.Data.List.Induction

/-!
# Reading back a log as it was written

A logger chains the documents of its file: each header carries the hash of the set
before it, and the entries of a set point at each other in a circle. Both integrity
checks succeed on such a file. Recovery reads its first set early, and the rest in the
epoch of that set.
-/

namespace Cassa.SiloR

open Cassa.SiloCC

variable {K β D : Type}

theorem ofRecord_setFrontHash (h : Hash K β D) (d : D) (rs : List (RecoveryLogRecord K β D)) :
    (setFrontHash d rs).map h.ofRecord = rs.map h.ofRecord := by
  cases rs <;> rfl

theorem ofSet_create_json_log (h : Hash K β D) (prev : D) (rs : List (LogRecord K β)) :
    h.ofSet (create_json_log h prev rs).log_set = currentEpochHash h rs := by
  have hmap : (create_json_log h prev rs).log_set.map h.ofRecord =
      ((create_json_log h prev rs).log_set.map RecoveryLogRecord.fields).map fun x =>
        h.record x.1 x.2.1 x.2.2.1 x.2.2.2 := by
    rw [List.map_map]
    rfl
  unfold Hash.ofSet currentEpochHash
  rw [hmap, fields_create_json_log, List.map_map]
  rfl

theorem log_set_ne_nil (h : Hash K β D) (prev : D) {rs : List (LogRecord K β)} (hne : rs ≠ []) :
    (create_json_log h prev rs).log_set ≠ [] := by
  intro hnil
  have hf := fields_create_json_log h prev rs
  rw [hnil] at hf
  exact hne (List.map_eq_nil_iff.mp hf.symm)

theorem getLast?_setFrontHash (h : Hash K β D) (d : D) (rs : List (RecoveryLogRecord K β D)) :
    (setFrontHash d rs).getLast?.map h.ofRecord = rs.getLast?.map h.ofRecord := by
  rw [← List.getLast?_map, ofRecord_setFrontHash, List.getLast?_map]

section
variable [DecidableEq D] (h : Hash K β D)

theorem prevHashesMatch_append (prev : D) (rs : List (RecoveryLogRecord K β D))
    (r : RecoveryLogRecord K β D) :
    prevHashesMatch h prev (rs ++ [r]) = true ↔ prevHashesMatch h prev rs = true ∧
      r.prev_hash_ = (rs.getLast?.map h.ofRecord).getD prev := by
  induction rs generalizing prev with
  | nil => simp [prevHashesMatch]
  | cons x rs ih =>
    have hlast : ((x :: rs).getLast?.map h.ofRecord).getD prev =
        (rs.getLast?.map h.ofRecord).getD (h.ofRecord x) := by
      cases rs with
      | nil => rfl
      | cons y rs =>
        rw [List.getLast?_cons_cons, List.getLast?_cons]
        rfl
    rw [List.cons_append, prevHashesMatch, Bool.and_eq_true, ih, prevHashesMatch, Bool.and_eq_true,
      hlast, and_assoc]

/-- Only the entry at the front looks at the hash that the loop starts with. -/
theorem prevHashesMatch_setFrontHash (prev : D) {d : D} {rs : List (RecoveryLogRecord K β D)}
    (hok : prevHashesMatch h prev rs = true) : prevHashesMatch h d (setFrontHash d rs) = true := by
  cases rs with
  | nil => rfl
  | cons r rs =>
    rw [prevHashesMatch, Bool.and_eq_true] at hok
    simp only [setFrontHash, prevHashesMatch, decide_true, Bool.true_and]
    exact hok.2

/-- The entries form a circle: each points at the one before it, the first at the last. -/
theorem prevHashesMatch_foldl_addRecord (rs : List (LogRecord K β)) (d : D)
    (hd : (rs.foldl (addRecord h) []).getLast?.map h.ofRecord = some d) :
    prevHashesMatch h d (rs.foldl (addRecord h) []) = true := by
  induction rs using List.reverseRecOn generalizing d with
  | nil => cases hd
  | append_singleton rs r ih =>
    rw [List.foldl_append, List.foldl_cons, List.foldl_nil] at hd ⊢
    generalize rs.foldl (addRecord h) [] = json_log_set at hd ih ⊢
    unfold addRecord at hd ⊢
    rw [getLast?_setFrontHash, List.getLast?_append] at hd
    obtain rfl : h.record r.tid_ (OpType_to_string r.op_type_) r.key_ r.value_ = d := by
      simpa [Hash.ofRecord] using hd
    dsimp only
    cases hlast : json_log_set.getLast? with
    | none =>
      obtain rfl := List.getLast?_eq_none_iff.mp hlast
      exact prevHashesMatch_setFrontHash h
        (h.record r.tid_ (OpType_to_string r.op_type_) r.key_ r.value_) (by simp [prevHashesMatch])
    | some last =>
      refine prevHashesMatch_setFrontHash h (h.ofRecord last) ?_
      rw [prevHashesMatch_append, hlast]
      refine ⟨ih (h.ofRecord last) ?_, rfl⟩
      rw [hlast]
      rfl

theorem verify_log_level_create_json_log (prev : D) (rs : List (LogRecord K β)) :
    verify_log_level_integrity h (create_json_log h prev rs).log_set = true := by
  have hcircle := prevHashesMatch_foldl_addRecord h rs
  change verify_log_level_integrity h (rs.foldl (addRecord h) []) = true
  unfold verify_log_level_integrity
  split
  · rename_i r hr
    have := hcircle (h.ofRecord r) (by rw [hr]; rfl)
    rw [hr] at this
    simpa [prevHashesMatch] using this
  · split
    · rfl
    · rename_i last hlast
      exact hcircle _ (by rw [hlast]; rfl)

end

/-- The documents of a log file as a logger writes them after the hash `prev`. -/
def Chained (h : Hash K β D) : D → List (JsonLog K β D) → Prop
  | _, [] => True
  | prev, doc :: docs => (∃ rs, rs ≠ [] ∧ doc = create_json_log h prev rs) ∧
      Chained h (h.ofSet doc.log_set) docs

/-- The hash that the next header has to carry. -/
def chainEnd (h : Hash K β D) (prev : D) (docs : List (JsonLog K β D)) : D :=
  (docs.getLast?.map fun doc => h.ofSet doc.log_set).getD prev

theorem chainEnd_cons (h : Hash K β D) (prev : D) (doc : JsonLog K β D) (docs : List (JsonLog K β D)) :
    chainEnd h prev (doc :: docs) = chainEnd h (h.ofSet doc.log_set) docs := by
  unfold chainEnd
  cases docs with
  | nil => rfl
  | cons doc' docs =>
    rw [List.getLast?_cons_cons, List.getLast?_cons]
    rfl

theorem chainEnd_append (h : Hash K β D) (prev : D) (docs : List (JsonLog K β D))
    (doc : JsonLog K β D) : chainEnd h prev (docs ++ [doc]) = h.ofSet doc.log_set := by
  simp [chainEnd]

theorem chained_append (h : Hash K β D) {prev : D} {docs : List (JsonLog K β D)}
    {rs : List (LogRecord K β)} (hdocs : Chained h prev docs) (hne : rs ≠ []) :
    Chained h prev (docs ++ [create_json_log h (chainEnd h prev docs) rs]) := by
  induction docs generalizing prev with
  | nil => exact ⟨⟨rs, hne, rfl⟩, trivial⟩
  | cons doc docs ih =>
    rw [List.cons_append, chainEnd_cons]
    exact ⟨hdocs.1, ih hdocs.2⟩

theorem Chained.log_set_ne {h : Hash K β D} {prev : D} {docs : List (JsonLog K β D)}
    (hdocs : Chained h prev docs) {doc : JsonLog K β D} (hdoc : doc ∈ docs) : doc.log_set ≠ [] := by
  induction docs generalizing prev with
  | nil => cases hdoc
  | cons d docs ih =>
    rcases List.mem_cons.mp hdoc with rfl | hdoc
    · obtain ⟨rs, hne, rfl⟩ := hdocs.1
      exact log_set_ne_nil h prev hne
    · exact ih hdocs.2 hdoc

/-- The log set of a document with records. -/
def setOf (doc : JsonLog K β D) : RecoveryLogSet K β D where
  epoch_ := (doc.log_set.getLast?.map fun r => r.tid_.epoch).getD 0
  log_record_num_ := doc.log_record_num
  prev_epoch_hash_ := doc.prev_epoch_hash
  log_sets_ := doc.log_set

theorem deserialize_eq_setOf {doc : JsonLog K β D} (hne : doc.log_set ≠ []) :
    deserialize_log_set doc = some (setOf doc) := by
  unfold deserialize_log_set setOf
  cases hl : doc.log_set.getLast? with
  | none => exact absurd (List.getLast?_eq_none_iff.mp hl) hne
  | some r => rfl

section
variable {h : Hash K β D} {docs : List (JsonLog K β D)} {last : D}

/-- Nothing verified yet: at most the first set has been read. -/
structure Waiting (h : Hash K β D) (docs : List (JsonLog K β D)) (last_log_hash : D)
    (a : RecoveryLogArchive K β D) : Prop where
  read : ∃ done rest, docs = done ++ rest ∧ done.length ≤ 1 ∧
    a.buffered_log_records_ = done.map setOf ∧ a.unread = rest.map .log
  open_ : a.is_all_data_read_ = false
  unmatched : a.is_last_log_hash_matched = false
  prev : a.previous_epoch_hash_ = h.passphrase
  last : a.last_log_hash_ = some last_log_hash

theorem readAhead_log {a : RecoveryLogArchive K β D} {c : Nat} {doc : JsonLog K β D}
    {fs : List (LogFrame K β D)} (hopen : a.is_all_data_read_ = false)
    (hfront : frontIsLater c a.buffered_log_records_ = false)
    (hun : a.is_last_log_hash_matched = false) (hne : doc.log_set ≠ []) :
    readAhead c (.log doc :: fs) a =
      readAhead c fs { a with buffered_log_records_ := a.buffered_log_records_ ++ [setOf doc] } := by
  have hcond : (a.is_all_data_read_ || frontIsLater c a.buffered_log_records_) = false := by
    rw [hopen, hfront]
    rfl
  have hskip : a.is_last_log_hash_matched ≠ true := by simp [hun]
  change (if _ then _ else _) = _
  rw [hcond, if_neg Bool.false_ne_true]
  dsimp only
  rw [if_neg hskip, deserialize_eq_setOf hne]

theorem readAhead_stop {a : RecoveryLogArchive K β D} {c : Nat} {f : LogFrame K β D}
    {fs : List (LogFrame K β D)}
    (hcond : (a.is_all_data_read_ || frontIsLater c a.buffered_log_records_) = true) :
    readAhead c (f :: fs) a = .ok { a with unread := f :: fs } := by
  change (if _ then _ else _) = _
  rw [if_pos hcond]

/-- From the epoch of its first set on, the whole file is read. -/
theorem readAhead_due {c : Nat} (hchain : Chained h h.passphrase docs)
    (hdue : ∀ doc ∈ docs.head?, ∀ sets, frontIsLater c (setOf doc :: sets) = false)
    {done rest : List (JsonLog K β D)} (hdocs : docs = done ++ rest) {a : RecoveryLogArchive K β D}
    (hbuf : a.buffered_log_records_ = done.map setOf) (hopen : a.is_all_data_read_ = false)
    (hun : a.is_last_log_hash_matched = false) :
    readAhead c (rest.map .log) a =
      .ok { a with unread := [], buffered_log_records_ := docs.map setOf } := by
  induction rest generalizing done a with
  | nil =>
    rw [List.append_nil] at hdocs
    subst hdocs
    rw [List.map_nil, SiloR.readAhead, ← hbuf]
  | cons doc rest ih =>
    have hmem : doc ∈ docs := by simp [hdocs]
    have hfront : frontIsLater c a.buffered_log_records_ = false := by
      rw [hbuf]
      cases done with
      | nil => rfl
      | cons d done => exact hdue d (by simp [hdocs]) _
    rw [List.map_cons, readAhead_log hopen hfront hun (hchain.log_set_ne hmem)]
    have hdocs' : docs = (done ++ [doc]) ++ rest := by simp [hdocs]
    exact ih hdocs'
      (a := { a with buffered_log_records_ := a.buffered_log_records_ ++ [setOf doc] })
      (by simp [hbuf]) hopen hun

/-- Before that epoch the file stays where it is, except for its first set. -/
theorem readAhead_early {c : Nat} (hchain : Chained h h.passphrase docs)
    (hearly : ∀ doc ∈ docs.head?, ∀ sets, frontIsLater c (setOf doc :: sets) = true)
    {a : RecoveryLogArchive K β D} (ha : Waiting h docs last a) :
    ∃ a', readAhead c a.unread a = .ok a' ∧ Waiting h docs last a' := by
  have hstop : ∀ (doc : JsonLog K β D) (rest : List (JsonLog K β D)) (a : RecoveryLogArchive K β D),
      docs = doc :: rest → a.buffered_log_records_ = [setOf doc] →
      a.is_all_data_read_ = false → a.is_last_log_hash_matched = false →
      a.previous_epoch_hash_ = h.passphrase →
      a.last_log_hash_ = some last →
      ∃ a', readAhead c (rest.map .log) a = .ok a' ∧ Waiting h docs last a' := by
    intro doc rest a hdocs hbuf hopen hun hprev hlast
    cases rest with
    | nil =>
      refine ⟨_, by rw [List.map_nil, SiloR.readAhead], ?_⟩
      exact ⟨⟨[doc], [], hdocs, by simp, hbuf, rfl⟩, hopen, hun, hprev, hlast⟩
    | cons doc' rest =>
      have hfront : frontIsLater c a.buffered_log_records_ = true := by
        rw [hbuf]
        exact hearly doc (by simp [hdocs]) _
      refine ⟨_, readAhead_stop (by simp [hfront]), ?_⟩
      exact ⟨⟨[doc], doc' :: rest, hdocs, by simp, hbuf, rfl⟩, hopen, hun, hprev, hlast⟩
  obtain ⟨done, rest, hdocs, hlen, hbuf, hunread⟩ := ha.read
  rw [hunread]
  cases done with
  | cons doc done =>
    obtain rfl : done = [] := List.eq_nil_of_length_eq_zero (by simpa using hlen)
    exact hstop doc rest a hdocs hbuf ha.open_ ha.unmatched ha.prev ha.last
  | nil =>
    cases rest with
    | nil =>
      refine ⟨_, by rw [List.map_nil, SiloR.readAhead], ?_⟩
      exact ⟨⟨[], [], hdocs, by simp, hbuf, rfl⟩, ha.open_, ha.unmatched, ha.prev, ha.last⟩
    | cons doc rest =>
      have hmem : doc ∈ docs := by simp [hdocs]
      obtain ⟨a', hok, ha'⟩ := hstop doc rest
        { a with buffered_log_records_ := a.buffered_log_records_ ++ [setOf doc] } hdocs
        (by simp [hbuf]) ha.open_ ha.unmatched ha.prev ha.last
      have hfront : frontIsLater c a.buffered_log_records_ = false := by
        rw [hbuf]
        rfl
      refine ⟨a', ?_, ha'⟩
      rw [List.map_cons, readAhead_log ha.open_ hfront ha.unmatched (hchain.log_set_ne hmem)]
      exact hok

variable [DecidableEq D]

/-- Sets of other epochs stay in the buffer. -/
theorem verifyLoop_skip {c : BitVec 32} {skipped todo : List (RecoveryLogSet K β D)}
    (hskip : ∀ set ∈ todo, set.epoch_ ≠ c) (a : RecoveryLogArchive K β D)
    (rs : List (RecoveryLogRecord K β D)) :
    verifyLoop h c skipped todo a rs =
      .ok ({ a with buffered_log_records_ := skipped ++ todo }, rs) := by
  induction todo generalizing skipped with
  | nil => rw [verifyLoop, List.append_nil]
  | cons set todo ih =>
    have hset : set.epoch_ ≠ c := hskip set List.mem_cons_self
    rw [verifyLoop, if_neg hset, ih fun s hs => hskip s (List.mem_cons_of_mem _ hs),
      List.append_assoc]
    rfl

end

end Cassa.SiloR

import Cassa.SiloCC.SerialSemantics
import Cassa.SiloR.Replay
import Cassa.Lib.Runs

/-!
# The log and the memory

The workers execute one request after another, and every commit pushes its write set
to the log under the commit TID. Memory keeps a deleted key as a record with the absent
bit; replay removes the key. The two readings of one list of operations agree for as
long as no request reaches a deleted record or its absent bit.
-/

namespace Cassa.SiloR.LogMemory

open Cassa.SiloCC Cassa.SiloCC.Serial Cassa.Lib.Runs Cassa.Lib.SortedFold

variable {K β W D : Type} [LinearOrder K] [Inhabited β] [DecidableEq W]

/-- The database, the last commit TID of each worker and the records pushed so far. -/
structure Server (K β W : Type) [LinearOrder K] where
  database : State K β
  mrctid_ : W → TIDword
  log : List (LogRecord K β)

def Server.new : Server K β W := ⟨.new, fun _ => .new, []⟩

/-- A request, the worker that takes it, and the epochs that its attempts find. -/
structure Request (K β W : Type) where
  worker : W
  localEpoch : Nat
  epochs : List Nat
  pro_set_ : List (Procedure K β)

/-- The state that the executor of a worker works on. -/
def Server.executor (s : Server K β W) (worker : W) : State K β :=
  { s.database with mrctid_ := s.mrctid_ worker }

/-- `wal`: the records of the write set, under the TID that `writePhase` has stored. -/
def pushed (s : State K β) : List (LogRecord K β) := LogBuffer.logRecords s.mrctid_ s.write_set_

def step (arrange : List K → List K) (s : Server K β W) (r : Request K β W) :
    Option (Server K β W) :=
  match execute_transaction arrange (r.localEpoch :: r.epochs) (s.executor r.worker) r.pro_set_ with
  | none => none
  | some (result, t, _) => some {
      database := t
      mrctid_ := Function.update s.mrctid_ r.worker t.mrctid_
      log := if result = 0 then s.log ++ pushed t else s.log }

/-- The request is committed. -/
def Commits (arrange : List K → List K) (s : Server K β W) (r : Request K β W) : Prop :=
  (execute_transaction arrange (r.localEpoch :: r.epochs) (s.executor r.worker) r.pro_set_).map
    (·.1) = some 0

instance (arrange : List K → List K) (s : Server K β W) (r : Request K β W) :
    Decidable (Commits arrange s r) :=
  inferInstanceAs (Decidable (_ = _))

/-- The request has no WRITE, or it keeps clear of the absent bits of earlier deletions;
and the 29 bits of no record's TID are used up. -/
structure Guarded (arrange : List K → List K) (s : Server K β W) (r : Request K β W) : Prop where
  writes : (∀ k b, Procedure.WRITE k b ∉ r.pro_set_) ∨
    SlipFree arrange r.localEpoch (s.executor r.worker) r.pro_set_
  tids : BelowLastTid s.database

/-- What the log says of one key. -/
def logged (k : K) (log : List (LogRecord K β)) : List (TIDword × String × K × β) :=
  (log.filter fun r => r.key_ = k).map LogRecord.fields

section
omit [Inhabited β]

theorem logged_append (k : K) (log log' : List (LogRecord K β)) :
    logged k (log ++ log') = logged k log ++ logged k log' := by
  simp [logged]

theorem logged_eq_nil {k : K} {log : List (LogRecord K β)} (h : ∀ r ∈ log, r.key_ ≠ k) :
    logged k log = [] := by
  unfold logged
  rw [List.filter_eq_nil_iff.mpr (by simpa using h), List.map_nil]

/-- A write set has one element for each key that it has. -/
theorem logged_logRecords {ws : List (WriteElement K β)} (hnodup : (ws.map (·.key_)).Nodup)
    (tid : TIDword) {we : WriteElement K β} (hwe : we ∈ ws) :
    logged we.key_ (LogBuffer.logRecords tid ws) =
      [(tid, OpType_to_string we.op_, we.key_, we.new_value_body_)] := by
  induction ws with
  | nil => cases hwe
  | cons x ws ih =>
    rw [List.map_cons, List.nodup_cons] at hnodup
    obtain ⟨hnew, hnodup⟩ := hnodup
    have hcons : LogBuffer.logRecords tid (x :: ws) =
        [⟨tid, x.op_, x.key_, x.new_value_body_⟩] ++ LogBuffer.logRecords tid ws := rfl
    rw [hcons, logged_append]
    rcases List.mem_cons.mp hwe with rfl | hwe
    · have hnil : logged we.key_ (LogBuffer.logRecords tid ws) = [] := by
        apply logged_eq_nil
        intro r hr he
        obtain ⟨we', hwe', rfl⟩ := List.mem_map.mp hr
        exact hnew (List.mem_map.mpr ⟨we', hwe', he⟩)
      rw [hnil]
      simp [logged, LogRecord.fields]
    · have hne : x.key_ ≠ we.key_ := fun he => hnew (List.mem_map.mpr ⟨we, hwe, he.symm⟩)
      have hnil : logged we.key_ [(⟨tid, x.op_, x.key_, x.new_value_body_⟩ : LogRecord K β)] = [] := by
        apply logged_eq_nil
        simpa using hne
      rw [hnil, List.nil_append]
      exact ih hnodup hwe

end

/-- Replay of the log in the order of the pushes leaves the visible state, and the
order of the pushes is, for each key, the order of the TIDs. -/
structure Agrees (s : Server K β W) : Prop where
  quiescent : Quiescent s.database
  listed : ∀ r ∈ s.log, ∃ v, s.database.masstree[r.key_]? = some v ∧
    r.tid_.ver ≤ (s.database.tidword v).ver
  order : s.log.Pairwise fun a b => a.key_ = b.key_ → a.tid_.ver < b.tid_.ver
  replay : ∀ k, (logged k s.log).foldlM applyFields none = .ok (s.database.visible k)

omit [DecidableEq W] in
theorem agrees_new : Agrees (Server.new : Server K β W) where
  quiescent := by constructor <;> simp [Server.new, State.new]
  listed := by simp [Server.new]
  order := List.Pairwise.nil
  replay := by
    intro k
    have hnone : (State.new : State K β).visible k = none := visible_of_tree_none (by simp [State.new])
    simp [Server.new, logged, hnone]
    rfl

omit [DecidableEq W] [Inhabited β] in
theorem quiescent_executor {s : Server K β W} (h : Quiescent s.database) (worker : W) :
    Quiescent (s.executor worker) := ⟨h.below, h.inj, h.unlocked⟩

/-- An operation on a key does in the log what it does in memory. -/
theorem applyOp_own {o : Own β} {before after : Option β} (hins : o.isInserted = true → before = none)
    (hwr : ∀ b, o = .written b → before.isSome ∧ after = some b)
    (hinserted : ∀ b, o = .inserted b → after = some b) (hdeleted : o = .deleted → after = none) :
    applyOp (OpType_to_string o.op) o.body before = .ok after := by
  cases o with
  | inserted b =>
    rw [hins rfl, hinserted b rfl]
    rfl
  | written b =>
    obtain ⟨hsome, rfl⟩ := hwr b rfl
    obtain ⟨v, rfl⟩ := Option.isSome_iff_exists.mp hsome
    rfl
  | deleted =>
    rw [hdeleted rfl]
    rfl

section

variable {arrange : List K → List K} {s : Server K β W} {worker : W} {w : View K β} {t : State K β}

section
omit [DecidableEq W]

theorem listed_pushed (hrec : Recorded (s.executor worker) w t)
    (hfin : Finished (s.executor worker) w t) {r : LogRecord K β} (hr : r ∈ pushed t) :
    (w.own r.key_).isSome ∧ r.tid_ = t.mrctid_ ∧ ∃ v, t.masstree[r.key_]? = some v ∧
      r.tid_.ver ≤ (t.tidword v).ver := by
  obtain ⟨we, hwe, rfl⟩ := List.mem_map.mp hr
  obtain ⟨o, ho, -⟩ := hrec.owned we hwe
  have hown : (w.own we.key_).isSome := by simp [ho]
  have htree : t.masstree[we.key_]?.isSome := by simp [hfin.record, hown]
  obtain ⟨v, hv⟩ := Option.isSome_iff_exists.mp htree
  exact ⟨hown, rfl, v, hv, Nat.le_of_eq (hrec.word _ v hown hv).symm⟩

/-- A record that is already in the log stays below the word of its key. -/
theorem listed_kept (h : Agrees s) (hrec : Recorded (s.executor worker) w t)
    (hfin : Finished (s.executor worker) w t) (htids : BelowLastTid s.database)
    {r : LogRecord K β} (hr : r ∈ s.log) :
    (∃ v, t.masstree[r.key_]? = some v ∧ r.tid_.ver ≤ (t.tidword v).ver) ∧
      ((w.own r.key_).isSome → r.tid_.ver < t.mrctid_.ver) := by
  obtain ⟨v, hv, hle⟩ := h.listed r hr
  cases hk : w.own r.key_ with
  | none =>
    obtain ⟨hv', hword⟩ := hrec.kept _ v hk hv
    exact ⟨⟨v, hv', by rw [hword]; exact hle⟩, fun hsome => absurd hsome (by simp)⟩
  | some o =>
    have hown : (w.own r.key_).isSome := by simp [hk]
    have hlt : r.tid_.ver < t.mrctid_.ver := Nat.lt_of_le_of_lt hle (hrec.newer htids _ v hown hv)
    have htree : t.masstree[r.key_]?.isSome := by simp [hfin.record, hown]
    obtain ⟨v', hv'⟩ := Option.isSome_iff_exists.mp htree
    exact ⟨⟨v', hv', by rw [hrec.word _ v' hown hv']; exact Nat.le_of_lt hlt⟩, fun _ => hlt⟩

/-- The operations of one commit on a key, in the log and in memory. -/
theorem replay_pushed (hrec : Recorded (s.executor worker) w t)
    (hfin : Finished (s.executor worker) w t)
    (hwr : ∀ k b, w.own k = some (.written b) →
      (s.database.visible k).isSome ∧ t.visible k = some b) (k : K) :
    (logged k (pushed t)).foldlM applyFields (s.database.visible k) = .ok (t.visible k) := by
  cases hk : w.own k with
  | none =>
    have hnil : logged k (pushed t) = [] := by
      apply logged_eq_nil
      rintro r hr rfl
      have hown := (listed_pushed hrec hfin hr).1
      simp [hk] at hown
    rw [hnil, hfin.untouched k hk]
    rfl
  | some o =>
    obtain ⟨we, hwe, rfl⟩ := hrec.complete k (by simp [hk])
    obtain ⟨o', ho', hbody, hop⟩ := hrec.owned we hwe
    obtain rfl : o = o' := Option.some.inj (hk.symm.trans ho')
    rw [pushed, logged_logRecords hrec.nodup _ hwe, hop, hbody]
    have happ : applyOp (OpType_to_string o.op) o.body (s.database.visible we.key_) =
        .ok (t.visible we.key_) := by
      apply applyOp_own
      · intro hins
        cases o with
        | inserted b => exact visible_of_tree_none (hrec.fresh _ b hk)
        | written b => cases hins
        | deleted => cases hins
      · rintro b rfl
        exact hwr _ b hk
      · rintro b rfl
        exact hfin.inserted _ b hk
      · rintro rfl
        exact hfin.deleted _ hk
    rw [List.foldlM_cons, applyFields, happ]
    rfl

theorem Agrees.commit (h : Agrees s) (hrec : Recorded (s.executor worker) w t)
    (hfin : Finished (s.executor worker) w t) (htids : BelowLastTid s.database)
    (hwr : ∀ k b, w.own k = some (.written b) →
      (s.database.visible k).isSome ∧ t.visible k = some b) (mrctid_ : W → TIDword) :
    Agrees (⟨t, mrctid_, s.log ++ pushed t⟩ : Server K β W) where
  quiescent := hfin.quiescent
  listed := by
    intro r hr
    rcases List.mem_append.mp hr with hr | hr
    · exact (listed_kept h hrec hfin htids hr).1
    · exact (listed_pushed hrec hfin hr).2.2
  order := by
    refine List.pairwise_append.mpr ⟨h.order, ?_, ?_⟩
    · -- one commit has one record for each key
      unfold pushed LogBuffer.logRecords
      rw [List.pairwise_map]
      have hnodup := hrec.nodup
      rw [List.nodup_iff_pairwise_ne, List.pairwise_map] at hnodup
      exact hnodup.imp fun hne he => absurd he hne
    · intro a ha b hb he
      obtain ⟨hown, htid, -⟩ := listed_pushed hrec hfin hb
      rw [htid]
      rw [← he] at hown
      exact (listed_kept h hrec hfin htids ha).2 hown
  replay := by
    intro k
    rw [logged_append, List.foldlM_append, h.replay k]
    exact replay_pushed hrec hfin hwr k

end

omit [DecidableEq W] [Inhabited β] in
theorem Agrees.refused (h : Agrees s) (hres : Restored (s.executor worker) t)
    (mrctid_ : W → TIDword) : Agrees (⟨t, mrctid_, s.log⟩ : Server K β W) where
  quiescent := hres.quiescent (quiescent_executor h.quiescent worker)
  listed := by
    intro r hr
    obtain ⟨v, hv, hle⟩ := h.listed r hr
    refine ⟨v, (hres.tree _).trans hv, ?_⟩
    rw [State.tidword, hres.mem v (h.quiescent.below _ v hv)]
    exact hle
  order := h.order
  replay := by
    intro k
    rw [h.replay k, hres.visible (quiescent_executor h.quiescent worker)]
    rfl

end

section

variable {arrange : List K → List K} {s s' : Server K β W} {r : Request K β W}

omit [Inhabited β] in
theorem firstOn_written {ps : List (Procedure K β)} {k : K} {b : β}
    (h : firstOn ps k = some (.written b)) : Procedure.WRITE k b ∈ ps := by
  obtain ⟨p, hp, hpk⟩ := List.exists_of_findSome?_eq_some h
  cases p <;> simp [Procedure.ownOn] at hpk
  obtain ⟨rfl, rfl⟩ := hpk
  exact hp

omit [DecidableEq W] in
/-- The WRITEs of an admitted request are on visible records, and stay visible. -/
theorem Guarded.written (hg : Guarded arrange s r) (hq : Quiescent (s.executor r.worker))
    {w : View K β} (hw : View.after (s.executor r.worker) r.pro_set_ = some w) {t : State K β}
    (hclean : Clean arrange r.localEpoch (s.executor r.worker) w → t.mrctid_.absent = false ∧
      ∀ k b, w.own k = some (.written b) → t.visible k = some b) (k : K) (b : β)
    (hk : w.own k = some (.written b)) :
    (s.database.visible k).isSome ∧ t.visible k = some b := by
  rcases hg.writes with hnone | hslip
  · rw [(after_own hw).1] at hk
    exact absurd (firstOn_written hk) (hnone k b)
  · have hc := hslip.clean hq hw
    exact ⟨hc.present k _ hk rfl, (hclean hc).2 k b hk⟩

theorem Agrees.step (harrange : ∀ l, (arrange l).Perm l) (h : Agrees s) (hg : Guarded arrange s r)
    (hstep : LogMemory.step arrange s r = some s') : Agrees s' := by
  have hq := quiescent_executor h.quiescent r.worker
  unfold LogMemory.step at hstep
  cases hw : View.after (s.executor r.worker) r.pro_set_ with
  | none =>
    obtain ⟨t, lines, hrun, hres⟩ := execute_transaction_refused arrange hq r.localEpoch r.epochs hw
    rw [hrun] at hstep
    obtain rfl := Option.some.inj hstep
    exact h.refused hres _
  | some w =>
    obtain ⟨t, hrun, hfin, hrec, hclean⟩ :=
      execute_transaction_accepted harrange hq r.localEpoch r.epochs hw
    rw [hrun] at hstep
    obtain rfl := Option.some.inj hstep
    exact h.commit hrec hfin hg.tids (hg.written hq hw hclean) _

theorem agrees_of_reach (harrange : ∀ l, (arrange l).Perm l)
    (hs : Reach (LogMemory.step arrange) (· = Server.new) (Guarded arrange) s) : Agrees s := by
  refine Reach.invariant ?_ ?_ hs
  · rintro _ rfl
    exact agrees_new
  · intro s r s' h hg hstep
    exact h.step harrange hg hstep

end

section

variable {s : Server K β W} {k : K}

omit [DecidableEq W] [Inhabited β] in
theorem sortedBy_logged (h : Agrees s) :
    (logged k s.log).Pairwise fun x y => x.1.ver < y.1.ver := by
  unfold logged
  rw [List.pairwise_map]
  refine (h.order.filter _).imp_of_mem ?_
  intro a b ha hb hlt
  have hka : a.key_ = k := by simpa using (List.mem_filter.mp ha).2
  have hkb : b.key_ = k := by simpa using (List.mem_filter.mp hb).2
  exact hlt (hka.trans hkb.symm)

theorem obj_lt_of_ver_lt {a b : TIDword} (h : a.ver < b.ver) : a.obj_ < b.obj_ := by
  rw [TIDword.obj_eq, TIDword.obj_eq]
  have ha := a.flags_lt
  omega

section
omit [DecidableEq W] [Inhabited β]

theorem separates_logged (h : Agrees s) :
    Separates (fun x : TIDword × String × K × β => x.1.obj_) (logged k s.log) := by
  have hnodup : ((logged k s.log).map fun x => x.1.obj_).Nodup := by
    rw [List.nodup_iff_pairwise_ne, List.pairwise_map]
    exact (sortedBy_logged h).imp fun hlt => Nat.ne_of_lt (obj_lt_of_ver_lt hlt)
  intro a ha b hb he
  exact List.inj_on_of_nodup_map hnodup ha hb he

/-- The records of one key, read from any listing of the log. -/
theorem mem_fieldsOf_iff {rs : List (RecoveryLogRecord K β D)}
    (hperm : (rs.map RecoveryLogRecord.fields).Perm (s.log.map LogRecord.fields))
    (x : TIDword × String × K × β) : x ∈ fieldsOf k rs ↔ x ∈ logged k s.log := by
  have hkey : ∀ y : TIDword × String × K × β, y ∈ fieldsOf k rs ↔
      y ∈ rs.map RecoveryLogRecord.fields ∧ y.2.2.1 = k := by
    intro y
    rw [mem_fieldsOf, List.mem_map]
    constructor
    · rintro ⟨r, hr, hk, rfl⟩
      exact ⟨⟨r, hr, rfl⟩, hk⟩
    · rintro ⟨⟨r, hr, rfl⟩, hk⟩
      exact ⟨r, hr, hk, rfl⟩
  rw [hkey, hperm.mem_iff]
  unfold logged
  simp only [List.mem_map, List.mem_filter, decide_eq_true_eq]
  constructor
  · rintro ⟨⟨r, hr, rfl⟩, hk⟩
    exact ⟨r, ⟨hr, hk⟩, rfl⟩
  · rintro ⟨r, ⟨hr, hk⟩, rfl⟩
    exact ⟨⟨r, hr, rfl⟩, hk⟩

end

end

/-- The log and the memory agree: after every run whose requests were all admitted,
replaying the records of the log on an empty map, in any listing by TID, meets no WRITE
of a missing key and leaves the visible state. -/
theorem replay_of_log_eq_visible {arrange : List K → List K} (harrange : ∀ l, (arrange l).Perm l)
    {s : Server K β W}
    (hs : Reach (step arrange) (· = Server.new) (Guarded arrange) s)
    {rs : List (RecoveryLogRecord K β D)}
    (hperm : (rs.map RecoveryLogRecord.fields).Perm (s.log.map LogRecord.fields))
    (horder : InTidOrder rs) : replayAll mapIndex rs (fun _ => none) = .ok s.database.visible := by
  have h := agrees_of_reach harrange hs
  rw [replayAll_ok_iff]
  intro k
  rw [← h.replay k]
  classical
  refine (foldlM_eq_of_mem_iff applyFields_idempotent ?_ (sortedBy_fieldsOf k horder)
    (separates_logged h) (fun x => (mem_fieldsOf_iff hperm x).symm) none).symm
  exact (sortedBy_logged h).imp fun hlt => Nat.le_of_lt (obj_lt_of_ver_lt hlt)

/-- The JSON entry of a record, but for the hash that replay does not read. -/
def entry (r : LogRecord K β) : RecoveryLogRecord K β Unit :=
  ⟨r.tid_, OpType_to_string r.op_type_, r.key_, r.value_, ()⟩

omit [LinearOrder K] [Inhabited β] in
theorem fields_entry (log : List (LogRecord K β)) :
    (log.map entry).map RecoveryLogRecord.fields = log.map LogRecord.fields := by
  rw [List.map_map]
  rfl

instance [DecidableEq D] (rs : List (RecoveryLogRecord K β D)) : Decidable (InTidOrder rs) :=
  inferInstanceAs (Decidable (List.Pairwise _ rs))

/-- A request of worker 0 in epoch 1. -/
def request (ps : List (Procedure Nat Nat)) : Request Nat Nat Nat := ⟨0, 1, [], ps⟩

/-- The key is deleted, and then written. -/
def writeDeleted : List (Request Nat Nat Nat) :=
  [request [.INSERT 0 5], request [.DELETE 0], request [.WRITE 0 9]]

def afterRun (rs : List (Request Nat Nat Nat)) : Server Nat Nat Nat :=
  (exec (step byKey) Server.new rs).getD Server.new

theorem writeDeleted_runs : (exec (step byKey) Server.new writeDeleted).isSome = true ∧
    Admits (step byKey) (Commits byKey) Server.new writeDeleted := by
  decide

theorem reach_afterRun {ok : Server Nat Nat Nat → Request Nat Nat Nat → Prop}
    {rs : List (Request Nat Nat Nat)} (hsome : (exec (step byKey) Server.new rs).isSome = true)
    (hadmits : Admits (step byKey) ok Server.new rs) :
    Reach (step byKey) (· = Server.new) ok (afterRun rs) := by
  obtain ⟨t, ht⟩ := Option.isSome_iff_exists.mp hsome
  rw [afterRun, ht]
  exact Reach.exec_of_admits (.start rfl) hadmits ht

theorem writeDeleted_log : (afterRun writeDeleted).log =
    [⟨⟨false, true, false, 0, 1⟩, .INSERT, 0, 5⟩, ⟨⟨false, true, false, 1, 1⟩, .DELETE, 0, 0⟩,
      ⟨⟨false, true, true, 2, 1⟩, .WRITE, 0, 9⟩] := by
  decide

/-- A WRITE on a deleted record is committed and logged, and its replay finds no key. -/
theorem replay_of_log_faults : ∃ (s : Server Nat Nat Nat) (rs : List (RecoveryLogRecord Nat Nat Unit)),
    Reach (step byKey) (· = Server.new) (Commits byKey) s ∧
      (rs.map RecoveryLogRecord.fields).Perm (s.log.map LogRecord.fields) ∧ InTidOrder rs ∧
      replayAll mapIndex rs (fun _ => none) = .error .fault := by
  refine ⟨afterRun writeDeleted, (afterRun writeDeleted).log.map entry,
    reach_afterRun writeDeleted_runs.1 writeDeleted_runs.2, ?_, ?_, ?_⟩
  · rw [fields_entry]
  · rw [writeDeleted_log]
    unfold InTidOrder
    decide
  · rw [writeDeleted_log]
    rfl

/-- Two keys; then one of them is deleted and the other one written. -/
def filled : Server Nat Nat Nat := afterRun [request [.INSERT 0 5, .INSERT 1 6]]

def updated : Server Nat Nat Nat :=
  afterRun [request [.INSERT 0 5, .INSERT 1 6], request [.DELETE 1, .WRITE 0 7]]

theorem filled_runs : (step byKey Server.new (request [.INSERT 0 5, .INSERT 1 6])).isSome = true ∧
    (step byKey filled (request [.DELETE 1, .WRITE 0 7])).isSome = true := by
  decide

theorem step_filled : step byKey Server.new (request [.INSERT 0 5, .INSERT 1 6]) = some filled := by
  obtain ⟨t, ht⟩ := Option.isSome_iff_exists.mp filled_runs.1
  rw [filled, afterRun, exec, ht]
  rfl

theorem step_updated : step byKey filled (request [.DELETE 1, .WRITE 0 7]) = some updated := by
  obtain ⟨t, ht⟩ := Option.isSome_iff_exists.mp filled_runs.2
  rw [updated, afterRun, exec, step_filled, Option.bind_some, exec, ht]
  rfl

theorem new_guarded : Guarded byKey (Server.new : Server Nat Nat Nat)
    (request [.INSERT 0 5, .INSERT 1 6]) where
  writes := Or.inl (by simp [request])
  tids := by
    intro k v hv
    simp [Server.new, State.new] at hv

theorem filled_guarded : Guarded byKey filled (request [.DELETE 1, .WRITE 0 7]) where
  writes := Or.inr {
    mrctid := by decide
    epoch := by decide
    present := by
      intro p hp k o hpk _
      simp only [request, List.mem_cons, List.not_mem_nil, or_false] at hp
      have hk : k = 0 ∨ k = 1 := by
        rcases hp with rfl | rfl <;> simp only [Procedure.ownOn] at hpk <;> split at hpk <;>
          simp_all
      rcases hk with rfl | rfl <;> decide
    order := by decide }
  tids := by
    intro k v hv
    have hq := (agrees_of_reach byKey_perm (.next (.start rfl) new_guarded step_filled)).quiescent
    have hlt : v < 2 := hq.below k v hv
    rcases Nat.le_one_iff_eq_zero_or_eq_one.mp (Nat.le_of_lt_succ hlt) with rfl | rfl <;> decide

theorem updated_reach : Reach (step byKey) (· = Server.new) (Guarded byKey) updated :=
  .next (.next (.start rfl) new_guarded step_filled) filled_guarded step_updated

theorem updated_log : updated.log =
    [⟨⟨false, true, false, 0, 1⟩, .INSERT, 0, 5⟩, ⟨⟨false, true, false, 0, 1⟩, .INSERT, 1, 6⟩,
      ⟨⟨false, true, false, 1, 1⟩, .WRITE, 0, 7⟩, ⟨⟨false, true, false, 1, 1⟩, .DELETE, 1, 0⟩] := by
  decide

theorem updated_inTidOrder : InTidOrder (updated.log.map entry) := by
  rw [updated_log]
  unfold InTidOrder
  decide

theorem replay_of_log_updated : updated.log.length = 4 ∧
    Reach (step byKey) (· = Server.new) (Guarded byKey) updated ∧ InTidOrder (updated.log.map entry) ∧
    replayAll mapIndex (updated.log.map entry) (fun _ => none) = .ok updated.database.visible := by
  refine ⟨by decide, updated_reach, updated_inTidOrder, ?_⟩
  refine replay_of_log_eq_visible byKey_perm updated_reach ?_ updated_inTidOrder
  rw [fields_entry]

end Cassa.SiloR.LogMemory

import Cassa.SiloCC.SerialCommit
import Cassa.Server.Sessions

/-!
# Requests that fail

`execute_transaction` as a whole, when no other worker is active: the conversion of the
request, the attempts, and the calls of `LogBufferPool::push` that `wal` makes. A request
is refused by the conversion, before the database is touched, or by one of its
operations; then the records inserted so far are taken out of the tree one by one.
-/

namespace Cassa.Server

open Cassa.SiloCC Cassa.SiloCC.Serial

variable {W S : Type} [DecidableEq W] [DecidableEq S]

structure NotificationId (S : Type) where
  session_id_ : S
  session_tx_id_ : Nat
  deriving DecidableEq

/-- The arguments of a call of `LogBufferPool::push`. -/
structure Push (S : Type) where
  tid : TIDword
  nid : NotificationId S
  write_set : List (WriteElement String String)
  deriving DecidableEq

/-- The `TxExecutor` of the worker, with the database it works on. -/
structure Executor (S : Type) where
  database : Serial.State String String
  session_id_ : S
  pro_set_ : List (Procedure String String)
  nid_ : NotificationId S
  nid_counter_ : Nat
  /-- the calls of `log_buffer_pool_.push`, the last one at the end -/
  pushed : List (Push S)

/-- The loop over the operations: the procedures up to one that is unknown, and whether
there was none. -/
def convertOperations : List Operation → List (Procedure String String) × Bool
  | [] => ([], true)
  | o :: os =>
    match o.toProcedure with
    | none => ([], false)
    | some p => (p :: (convertOperations os).1, (convertOperations os).2)

/-- The session is named before the timestamp is looked at; the procedures are cleared
after it. -/
def json_to_procedures (s : State W S) (x : Executor S) (r : Request S) :
    Int × State W S × Executor S :=
  let x := { x with session_id_ := r.client_sessionID }
  if compare_timestamps r.timestamp_sec r.timestamp_nsec (s.getTimestampSec r.client_sessionID)
      (s.getTimestampNsec r.client_sessionID) ≤ 0 then (-1, s, x)
  else
    let s := s.setTimestamp r.client_sessionID r.timestamp_sec r.timestamp_nsec
    match convertOperations r.transaction with
    | (procedures, true) => (0, s, { x with pro_set_ := procedures })
    | (procedures, false) => (-2, s, { x with pro_set_ := procedures })

def Executor.begin (x : Executor S) : Executor S :=
  { x with database := x.database.begin, nid_ := ⟨x.session_id_, x.nid_counter_⟩,
           nid_counter_ := x.nid_counter_ + 1 }

def Executor.wal (x : Executor S) (ctid : TIDword) : Executor S :=
  { x with pushed := x.pushed ++ [⟨ctid, x.nid_, x.database.write_set_⟩] }

/-- `writePhase`: the commit TID goes to the log before the records are written. -/
def Executor.writePhase (x : Executor S) (localEpoch : Nat) : Option (Executor S) :=
  let x := x.wal (commitTid x.database.max_rset_ x.database.max_wset_ x.database.mrctid_ localEpoch)
  (Serial.writePhase x.database localEpoch).map fun d => { x with database := d }

inductive Outcome (S : Type) where
  | committed (x : Executor S)
  | refused (x : Executor S) (error_message_content : List (ErrorLine String))
  | retry (x : Executor S)

/-- From `RETRY` to a `return` or to `goto RETRY`. -/
def Executor.attempt (arrange : List String → List String) (localEpoch : Nat) (x : Executor S) :
    Option (Outcome S) :=
  let x := x.begin
  match executeAll x.database x.pro_set_ with
  | none => none
  | some (.OK, d, _) =>
    match validationPhase arrange d with
    | (d', true) => (Executor.writePhase { x with database := d' } localEpoch).map .committed
    | (d', false) => some (.retry { x with database := abort d' })
  | some (_, d, lines) => some (.refused { x with database := abort d } (lines ++ [.aborted]))

def Executor.attempts (arrange : List String → List String) :
    List Nat → Executor S → Option (Int × Executor S × List (ErrorLine String))
  | [], _ => none
  | localEpoch :: epochs, x =>
    match x.attempt arrange localEpoch with
    | none => none
    | some (.committed x') => some (0, x', [])
    | some (.refused x' lines) => some (-2, x', lines)
    | some (.retry x') => Executor.attempts arrange epochs x'

def execute_transaction (arrange : List String → List String) (epochs : List Nat) (s : State W S)
    (x : Executor S) (r : Request S) : Option (Int × State W S × Executor S × String) :=
  match json_to_procedures s x r with
  | (0, s, x) =>
    (x.attempts arrange epochs).map fun (result, x, lines) =>
      (result, s, x, String.join (lines.map (ErrorLine.text id)))
  | (-1, s, x) => some (-1, s, x, "Error: Replay attack detected or old timestamp received.")
  | (-2, s, x) => some (-1, s, x, "Error: Unknown operation in transaction.")
  | (_, s, x) =>
    some (-1, s, x, "Error: Unexpected error occurred during transaction processing.")

/-- The tree and the records of `d` as they were in `d₀`. -/
structure SameDatabase (d₀ d : Serial.State String String) : Prop where
  keys : ∀ k : String, d.masstree[k]? = d₀.masstree[k]?
  records : ∀ (k : String) v, d₀.masstree[k]? = some v →
    d.tidword v = d₀.tidword v ∧ d.body v = d₀.body v

theorem sameDatabase_refl (d : Serial.State String String) : SameDatabase d d :=
  ⟨fun _ => rfl, fun _ _ _ => ⟨rfl, rfl⟩⟩

theorem sameDatabase_of_restored {d₀ d : Serial.State String String} (hq : Quiescent d₀)
    (h : Restored d₀ d) : SameDatabase d₀ d where
  keys := h.tree
  records k v hv := by
    have := h.mem v (hq.below k v hv)
    exact ⟨congrArg Value.tidword_ this, congrArg Value.body_ this⟩

section
omit [DecidableEq S]

/-- From a database without locks an attempt ends with a commit or with a refusal, never
with another turn. -/
theorem attempt_refused {arrange : List String → List String} (harrange : ∀ l, (arrange l).Perm l)
    {x : Executor S} (hq : Quiescent x.database) (localEpoch : Nat) {o : Outcome S}
    (h : x.attempt arrange localEpoch = some o) :
    match o with
    | .committed _ => True
    | .refused x' _ => SameDatabase x.database x'.database ∧ x'.pushed = x.pushed ∧
        x'.database.read_set_ = [] ∧ x'.database.write_set_ = []
    | .retry _ => False := by
  simp only [Executor.attempt] at h
  cases hw : View.after x.database x.pro_set_ with
  | some w =>
    obtain ⟨t, hexec, hf⟩ := Follows.executeAll_accepted hq (Follows.begin hq) hw
    obtain ⟨s₁, s', hvalid, -⟩ := hf.commits hq harrange localEpoch
    have hexec : executeAll x.begin.database x.begin.pro_set_ = some (.OK, t, []) := hexec
    rw [hexec] at h
    simp only [hvalid] at h
    obtain ⟨x', -, rfl⟩ := Option.map_eq_some_iff.mp h
    trivial
  | none =>
    obtain ⟨status, lines, t, w, hne, hexec, hf⟩ :=
      Follows.executeAll_refused hq (Follows.begin hq) hw
    have hexec : executeAll x.begin.database x.begin.pro_set_ = some (status, t, lines) := hexec
    rw [hexec] at h
    have hrefused : some (Outcome.refused { x.begin with database := abort t }
        (lines ++ [ErrorLine.aborted])) = some o := by
      cases status with
      | OK => exact absurd rfl hne
      | _ => exact h
    obtain rfl := Option.some.inj hrefused
    exact ⟨sameDatabase_of_restored hq hf.abort, rfl, rfl, rfl⟩

theorem attempts_refused {arrange : List String → List String} (harrange : ∀ l, (arrange l).Perm l)
    {x x' : Executor S} (hq : Quiescent x.database) {epochs : List Nat} {result : Int}
    {lines : List (ErrorLine String)} (h : x.attempts arrange epochs = some (result, x', lines))
    (hres : result ≠ 0) :
    result = -2 ∧ SameDatabase x.database x'.database ∧ x'.pushed = x.pushed ∧
      x'.database.read_set_ = [] ∧ x'.database.write_set_ = [] := by
  cases epochs with
  | nil => cases h
  | cons localEpoch epochs =>
    rw [Executor.attempts] at h
    cases hatt : x.attempt arrange localEpoch with
    | none => simp [hatt] at h
    | some o =>
      have hone := attempt_refused harrange hq localEpoch hatt
      rw [hatt] at h
      cases o with
      | committed y =>
        simp only [Option.some.injEq, Prod.mk.injEq] at h
        exact absurd h.1.symm hres
      | refused y ls =>
        simp only [Option.some.injEq, Prod.mk.injEq] at h
        obtain ⟨rfl, rfl, rfl⟩ := h
        exact ⟨rfl, hone⟩
      | retry y => exact hone.elim

end

section
omit [DecidableEq W]

theorem json_to_procedures_executor (s : State W S) (x : Executor S) (r : Request S) :
    (json_to_procedures s x r).2.2.database = x.database ∧
      (json_to_procedures s x r).2.2.pushed = x.pushed := by
  simp only [json_to_procedures]
  split
  · exact ⟨rfl, rfl⟩
  split <;> exact ⟨rfl, rfl⟩

/-- A request that returns -1 or -2 leaves the tree and every record as they were and
pushes nothing to the log; after -2 the sets of the worker are empty. -/
theorem failed_request_no_trace {arrange : List String → List String}
    (harrange : ∀ l, (arrange l).Perm l) {s s' : State W S} {x x' : Executor S} {r : Request S}
    (hq : Quiescent x.database) {epochs : List Nat} {result : Int} {error_message_content : String}
    (h : execute_transaction arrange epochs s x r = some (result, s', x', error_message_content))
    (hres : result = -1 ∨ result = -2) :
    SameDatabase x.database x'.database ∧ x'.pushed = x.pushed ∧
      (result = -2 → x'.database.read_set_ = [] ∧ x'.database.write_set_ = []) := by
  obtain ⟨hdb, hpushed⟩ := json_to_procedures_executor s x r
  have hconvert : ∀ message, some ((-1 : Int), (json_to_procedures s x r).2.1,
      (json_to_procedures s x r).2.2, message) = some (result, s', x', error_message_content) →
      SameDatabase x.database x'.database ∧ x'.pushed = x.pushed ∧
        (result = -2 → x'.database.read_set_ = [] ∧ x'.database.write_set_ = []) := by
    intro message he
    simp only [Option.some.injEq, Prod.mk.injEq] at he
    obtain ⟨rfl, -, rfl, -⟩ := he
    rw [hdb, hpushed]
    exact ⟨sameDatabase_refl _, rfl, by simp⟩
  unfold execute_transaction at h
  split at h
  · rename_i s₁ x₁ hj
    rw [hj] at hdb hpushed
    obtain ⟨⟨code, y, lines⟩, hrun, he⟩ := Option.map_eq_some_iff.mp h
    simp only [Prod.mk.injEq] at he
    obtain ⟨rfl, -, rfl, -⟩ := he
    have hne : code ≠ 0 := by
      rintro rfl
      simp at hres
    have hq₁ : Quiescent x₁.database := by
      rw [show x₁.database = x.database from hdb]
      exact hq
    obtain ⟨-, hsame, hpush, hsets⟩ := attempts_refused harrange hq₁ hrun hne
    rw [show x₁.database = x.database from hdb] at hsame
    exact ⟨hsame, hpush.trans hpushed, fun _ => hsets⟩
  · rename_i s₁ x₁ hj
    rw [hj] at hconvert
    exact hconvert _ h
  · rename_i s₁ x₁ hj
    rw [hj] at hconvert
    exact hconvert _ h
  · rename_i code s₁ x₁ _ _ _ hj
    rw [hj] at hconvert
    exact hconvert _ h

end

/-- One session, and a database without records. -/
def oneSession : State Unit Nat :=
  { State.new with ssl_sessions_ := fun id => if id = 0 then some .new else none }

def newExecutor : Executor Nat := ⟨.new, 0, [], ⟨0, 0⟩, 0, []⟩

/-- An INSERT that succeeds and a READ that does not. -/
def insertThenRead : Request Nat :=
  ⟨0, 1, 0, [⟨"INSERT", "a", some "x", "", false, "", false⟩, ⟨"READ", "b", none, "", false, "", false⟩]⟩

theorem insertThenRead_refused :
    (execute_transaction id [1] oneSession newExecutor insertThenRead).map (·.1) = some (-2) := by
  decide

theorem failed_request_no_trace_insert :
    ∃ s' x' message,
      execute_transaction id [1] oneSession newExecutor insertThenRead = some (-2, s', x', message) ∧
      SameDatabase newExecutor.database x'.database ∧ x'.pushed = [] ∧
      x'.database.read_set_ = [] ∧ x'.database.write_set_ = [] := by
  obtain ⟨⟨code, s', x', message⟩, hrun, hcode⟩ := Option.map_eq_some_iff.mp insertThenRead_refused
  obtain rfl : code = -2 := hcode
  have hq : Quiescent newExecutor.database := by
    constructor <;> simp [newExecutor, Serial.State.new]
  obtain ⟨hsame, hpush, hsets⟩ :=
    failed_request_no_trace (fun l => List.Perm.refl l) hq hrun (Or.inr rfl)
  exact ⟨s', x', message, hrun, hsame, hpush, hsets rfl⟩

end Cassa.Server

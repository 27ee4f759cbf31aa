import Cassa.Server.FailedRequests
import Cassa.SiloCC.OwnReads
import Cassa.SiloCC.WorkerLog
import Cassa.Masstree.Operations

/-!
# The assertions on the way of a request

`execute_transaction` with the assertions of `Key`, of `TxExecutor` and of the log buffer, for a
worker that is alone. `none` is an assertion that fails. The conversion hands on whatever string
the client has sent, and `Key` has no slice for an empty one.
-/

namespace Cassa.Server

open Cassa.SiloCC Cassa.SiloCC.Serial Cassa.SiloCC.WorkerLog

variable {W S : Type} [DecidableEq W] [DecidableEq S]

/-- The strings that an operation makes a `Key` of, before it does anything else. -/
def keyStrings : Procedure String String → List String
  | .READ k => [k]
  | .WRITE k _ => [k]
  | .INSERT k _ => [k]
  | .DELETE k => [k]
  | .SCAN l _ r _ => [l, r]

/-- The loop over `pro_set_`. -/
def executeChecked (s : Serial.State String String) :
    List (Procedure String String) → Option (Status × Serial.State String String × List (ErrorLine String))
  | [] => some (.OK, s, [])
  | p :: ps =>
    if (keyStrings p).all Masstree.Key.constructs then
      match execute s p with
      | none => none
      | some (.OK, s') => executeChecked s' ps
      | some (status, s') => some (status, s', refusal p status)
    else none

/-- The `TxExecutor` with its `LogBufferPool`. -/
structure Served (S : Type) where
  executor : Executor S
  log : LogState String String

namespace Served

/-- From `RETRY` on. `validationPhase` stores the epoch that `writePhase` commits in. -/
def attempt (arrange : List String → List String) (e : Surroundings) (x : Served S) :
    Option (Outcome S × LogState String String) :=
  match x.log.durableEpochWork e with
  | none => none
  | some log =>
    let t := x.executor.begin
    match executeChecked t.database t.pro_set_ with
    | none => none
    | some (.OK, d, _) =>
      let log := { log with ThLocalEpoch := e.validationEpoch }
      match validationPhase arrange d with
      | (d', true) =>
        let ctid := commitTid d'.max_rset_ d'.max_wset_ d'.mrctid_ e.validationEpoch
        match log.wal ctid d'.write_set_ e.returnedLater with
        | none => none
        | some log =>
          (Executor.writePhase { t with database := d' } e.validationEpoch).map fun t => (.committed t, log)
      | (d', false) => some (.retry { t with database := abort d' }, log)
    | some (_, d, lines) => some (.refused { t with database := abort d } (lines ++ [.aborted]), log)

def attempts (arrange : List String → List String) :
    List Surroundings → Served S → Option (Int × Served S × List (ErrorLine String))
  | [], _ => none
  | e :: es, x =>
    match x.attempt arrange e with
    | none => none
    | some (.committed t, log) => some (0, ⟨t, log⟩, [])
    | some (.refused t lines, log) => some (-2, ⟨t, log⟩, lines)
    | some (.retry t, log) => attempts arrange es ⟨t, log⟩

def execute_transaction (arrange : List String → List String) (es : List Surroundings) (s : State W S)
    (x : Served S) (r : Request S) : Option (Int × State W S × Served S × String) :=
  match json_to_procedures s x.executor r with
  | (0, s, t) =>
    (attempts arrange es { x with executor := t }).map fun (result, x, lines) =>
      (result, s, x, String.join (lines.map (ErrorLine.text id)))
  | (-1, s, t) =>
    some (-1, s, { x with executor := t }, "Error: Replay attack detected or old timestamp received.")
  | (-2, s, t) => some (-1, s, { x with executor := t }, "Error: Unknown operation in transaction.")
  | (_, s, t) =>
    some (-1, s, { x with executor := t },
      "Error: Unexpected error occurred during transaction processing.")

/-- The worker between two requests. It starts on a database without locks, empty or recovered,
and calls `durableEpochWork` as often as it looks for a request. -/
inductive Reachable (W : Type) [DecidableEq W] (arrange : List String → List String) : Served S → Prop
  | new {d : Serial.State String String} (session_id : S) (worker_thid : Nat) : Quiescent d →
    Reachable W arrange ⟨⟨d, session_id, [], ⟨session_id, 0⟩, 0, []⟩, .new worker_thid⟩
  | look {x : Served S} {e : Surroundings} {log : LogState String String} : Reachable W arrange x →
    x.log.durableEpochWork e = some log → Reachable W arrange { x with log := log }
  | request {x x' : Served S} {e : Surroundings} {es : List Surroundings} {s s' : State W S} {r : Request S}
      {result : Int} {error_message_content : String} : Reachable W arrange x →
    execute_transaction arrange (e :: es) s x r = some (result, s', x', error_message_content) →
    Reachable W arrange x'

end Served

/-- Every operation that is reached has a key, or bounds, that are not empty. -/
def KeysGiven (s : State W S) (x : Served S) (r : Request S) : Prop :=
  0 < compare_timestamps r.timestamp_sec r.timestamp_nsec (s.getTimestampSec r.client_sessionID)
      (s.getTimestampNsec r.client_sessionID) →
    ∀ procedures, r.procedures = some procedures →
      ∀ before p after, procedures = before ++ p :: after → Accepted x.executor.database before →
        ∀ k ∈ keyStrings p, k ≠ ""

/-- What `executeChecked` finds in the operations that it reaches after `w`. -/
def Constructed (d : Serial.State String String) (w : View String String)
    (ps : List (Procedure String String)) : Prop :=
  ∀ before p after, ps = before ++ p :: after → (before.foldlM (View.next d) w).isSome →
    (keyStrings p).all Masstree.Key.constructs = true

section

variable {d : Serial.State String String}

theorem constructed_cons {w : View String String} {p : Procedure String String}
    {ps : List (Procedure String String)} :
    Constructed d w (p :: ps) ↔ (keyStrings p).all Masstree.Key.constructs = true ∧
      ∀ w', w.next d p = some w' → Constructed d w' ps := by
  constructor
  · intro h
    refine ⟨h [] p ps rfl rfl, ?_⟩
    rintro w' hw' before q after rfl hsome
    refine h (p :: before) q after rfl ?_
    rw [List.foldlM_cons, hw']
    exact hsome
  · rintro ⟨hp, hps⟩ before q after heq hsome
    cases before with
    | nil =>
      obtain ⟨rfl, rfl⟩ := List.cons.inj heq
      exact hp
    | cons b before =>
      obtain ⟨rfl, rfl⟩ := List.cons.inj heq
      rw [List.foldlM_cons] at hsome
      cases hw' : w.next d p with
      | none => simp [hw'] at hsome
      | some w' =>
        rw [hw'] at hsome
        exact hps w' hw' before q after rfl hsome

/-- The checks let a list through if and only if every string that is reached has a key. -/
theorem executeChecked_eq (hq : Quiescent d) {ps : List (Procedure String String)} :
    ∀ {w : View String String} {t : Serial.State String String}, Follows d w t →
      (Constructed d w ps → executeChecked t ps = executeAll t ps) ∧
      (¬ Constructed d w ps → executeChecked t ps = none) := by
  induction ps with
  | nil =>
    intro w t _
    refine ⟨fun _ => rfl, fun h => absurd ?_ h⟩
    intro before p after heq
    simp at heq
  | cons p ps ih =>
    intro w t hf
    rw [constructed_cons, executeChecked, executeAll]
    by_cases hp : (keyStrings p).all Masstree.Key.constructs = true
    · rw [if_pos hp]
      cases hw : w.next d p with
      | none =>
        obtain ⟨status, hne, hexec⟩ := hf.execute_refused hq hw
        rw [hexec]
        refine ⟨fun _ => ?_, fun h => absurd ⟨hp, ?_⟩ h⟩
        · cases status with
          | OK => exact absurd rfl hne
          | _ => rfl
        · intro w' hw'
          cases hw'
      | some w' =>
        obtain ⟨t', report, hexec, hf', -⟩ := hf.execute_accepted hq hw
        rw [hexec]
        refine ⟨fun h => (ih hf').1 (h.2 w' rfl), fun h => (ih hf').2 ?_⟩
        intro hps
        refine h ⟨hp, ?_⟩
        rintro w'' hw''
        rw [← Option.some.inj hw'']
        exact hps
    · rw [if_neg hp]
      exact ⟨fun h => absurd h.1 hp, fun _ => rfl⟩

theorem constructed_start_iff (hq : Quiescent d) {ps : List (Procedure String String)} :
    Constructed d View.start ps ↔ ∀ before p after, ps = before ++ p :: after → Accepted d before →
      ∀ k ∈ keyStrings p, k ≠ "" := by
  have hkeys : ∀ p : Procedure String String, (keyStrings p).all Masstree.Key.constructs = true ↔
      ∀ k ∈ keyStrings p, k ≠ "" := by
    intro p
    rw [List.all_eq_true]
    exact forall₂_congr fun k _ => Masstree.Key.constructs_iff k
  refine forall₄_congr fun before p after _ => ?_
  rw [← after_isSome_iff hq, ← hkeys p]
  rfl

end

theorem convertOperations_eq (os : List Operation) :
    match os.mapM Operation.toProcedure with
    | some ps => convertOperations os = (ps, true)
    | none => (convertOperations os).2 = false := by
  induction os with
  | nil => rfl
  | cons o os ih =>
    rw [List.mapM_cons, convertOperations]
    cases hp : o.toProcedure with
    | none => rfl
    | some p =>
      cases hps : os.mapM Operation.toProcedure with
      | none =>
        rw [hps] at ih
        exact ih
      | some ps =>
        rw [hps] at ih
        simp only at ih
        simp only [Option.pure_def, Option.bind_eq_bind, Option.bind_some, ih]

theorem writeLoop_mrctid {ws : List (WriteElement String String)} :
    ∀ {d d' : Serial.State String String} {maxtid : TIDword}, writeLoop d maxtid ws = some d' →
      d'.mrctid_ = d.mrctid_ := by
  induction ws with
  | nil =>
    intro d d' maxtid h
    rw [← Option.some.inj h]
  | cons we ws ih =>
    intro d d' maxtid h
    unfold writeLoop at h
    split at h
    · exact (ih h).trans rfl
    · exact (ih h).trans rfl
    · exact (ih h).trans rfl
    · cases h

/-- What holds of the worker between two requests. -/
structure Served.Ok (x : Served S) : Prop where
  database : Quiescent x.executor.database
  log : LogOk x.log x.executor.database.mrctid_

namespace Served

variable {arrange : List String → List String} {x : Served S}

section
omit [DecidableEq S]

/-- An attempt that reaches an empty key stops there. -/
theorem attempt_unconstructed (hx : x.Ok) (e : Surroundings)
    (hkeys : ¬ Constructed x.executor.database View.start x.executor.pro_set_) :
    x.attempt arrange e = none := by
  obtain ⟨log, hdurable, -⟩ := hx.log.durableEpochWork e
  have hchecked : executeChecked x.executor.begin.database x.executor.begin.pro_set_ = none :=
    (executeChecked_eq hx.database (Follows.begin hx.database)).2 hkeys
  simp only [attempt, hdurable, hchecked]

/-- Any other one commits or is refused, and leaves the worker in order. -/
theorem attempt_constructed (harrange : ∀ l, (arrange l).Perm l) (hx : x.Ok) (e : Surroundings)
    (hkeys : Constructed x.executor.database View.start x.executor.pro_set_) :
    ∃ t log, (x.attempt arrange e = some (.committed t, log) ∨
        ∃ lines, x.attempt arrange e = some (.refused t lines, log)) ∧ Served.Ok ⟨t, log⟩ := by
  obtain ⟨log, hdurable, hlog⟩ := hx.log.durableEpochWork e
  have hq := hx.database
  have hchecked : executeChecked x.executor.begin.database x.executor.begin.pro_set_ =
      executeAll x.executor.begin.database x.executor.pro_set_ :=
    (executeChecked_eq hq (Follows.begin hq)).1 hkeys
  cases hw : View.after x.executor.database x.executor.pro_set_ with
  | some w =>
    obtain ⟨d, hexec, hf⟩ := Follows.executeAll_accepted hq (Follows.begin hq) hw
    have hexec : executeAll x.executor.begin.database x.executor.pro_set_ = some (.OK, d, []) := hexec
    obtain ⟨r, m, hvalid, -⟩ := hf.validationPhase_eq hq harrange
    obtain ⟨d₁, d', hvalid', hwrite, hfin, -⟩ := hf.commits hq harrange e.validationEpoch
    have hmrctid : d₁.mrctid_ = x.executor.database.mrctid_ := by
      rw [hvalid] at hvalid'
      rw [← (Prod.mk.inj hvalid').1]
      exact hf.mrctid
    set ctid := commitTid d₁.max_rset_ d₁.max_wset_ d₁.mrctid_ e.validationEpoch with hctid
    have hepoch := commitTid_epoch d₁.max_rset_ d₁.max_wset_ d₁.mrctid_ e.validationEpoch
    rw [← hctid, hmrctid] at hepoch
    obtain ⟨log', hwal, hlog'⟩ :=
      LogOk.wal hlog d₁.write_set_ e.returnedLater e.validationEpoch (show _ ≤ ctid.epoch.toNat by omega) (by omega)
    have hd' : d'.mrctid_ = ctid := writeLoop_mrctid hwrite
    have hphase : Executor.writePhase { x.executor.begin with database := d₁ } e.validationEpoch =
        some { Executor.wal { x.executor.begin with database := d₁ } ctid with database := d' } := by
      rw [Executor.writePhase]
      exact congrArg (Option.map _) hwrite
    refine ⟨{ Executor.wal { x.executor.begin with database := d₁ } ctid with database := d' }, log', Or.inl ?_,
      hfin.quiescent, ?_⟩
    · simp only [attempt, hdurable, hchecked, hexec, hvalid', ← hctid, hwal, hphase, Option.map_some]
    · exact hd'.symm ▸ hlog'
  | none =>
    obtain ⟨status, lines, d, w, hne, hexec, hf⟩ :=
      Follows.executeAll_refused hq (Follows.begin hq) hw
    have hexec : executeAll x.executor.begin.database x.executor.pro_set_ = some (status, d, lines) := hexec
    have hrestored := hf.abort
    refine ⟨{ x.executor.begin with database := abort d }, log, Or.inr ⟨lines ++ [.aborted], ?_⟩,
      hrestored.quiescent hq, ?_⟩
    · simp only [attempt, hdurable, hchecked, hexec]
    · exact hrestored.mrctid.symm ▸ hlog

theorem attempts_unconstructed (hx : x.Ok) (es : List Surroundings)
    (hkeys : ¬ Constructed x.executor.database View.start x.executor.pro_set_) :
    attempts arrange es x = none := by
  cases es with
  | nil => rfl
  | cons e es => rw [attempts, attempt_unconstructed hx e hkeys]

theorem attempts_constructed (harrange : ∀ l, (arrange l).Perm l) (hx : x.Ok) (e : Surroundings)
    (es : List Surroundings)
    (hkeys : Constructed x.executor.database View.start x.executor.pro_set_) :
    ∃ result x' lines, attempts arrange (e :: es) x = some (result, x', lines) ∧
      (result = 0 ∨ result = -2) ∧ x'.Ok := by
  obtain ⟨t, log, hatt | ⟨lines, hatt⟩, hok⟩ := attempt_constructed harrange hx e hkeys
  · exact ⟨0, ⟨t, log⟩, [], by rw [attempts, hatt], Or.inl rfl, hok⟩
  · exact ⟨-2, ⟨t, log⟩, lines, by rw [attempts, hatt], Or.inr rfl, hok⟩

end

end Served

omit [DecidableEq W] in
/-- The three ways out of the conversion. None of them touches the database. -/
theorem json_to_procedures_cases (s : State W S) (x : Executor S) (r : Request S) :
    (compare_timestamps r.timestamp_sec r.timestamp_nsec (s.getTimestampSec r.client_sessionID)
        (s.getTimestampNsec r.client_sessionID) ≤ 0 ∧
      json_to_procedures s x r = (-1, s, { x with session_id_ := r.client_sessionID })) ∨
    (0 < compare_timestamps r.timestamp_sec r.timestamp_nsec (s.getTimestampSec r.client_sessionID)
        (s.getTimestampNsec r.client_sessionID) ∧
      ((r.procedures = none ∧ ∃ s' ps, json_to_procedures s x r =
          (-2, s', { x with session_id_ := r.client_sessionID, pro_set_ := ps })) ∨
        ∃ s' ps, r.procedures = some ps ∧ json_to_procedures s x r =
          (0, s', { x with session_id_ := r.client_sessionID, pro_set_ := ps }))) := by
  have hconvert := convertOperations_eq r.transaction
  rw [json_to_procedures]
  split
  · rename_i hold
    exact Or.inl ⟨hold, rfl⟩
  · rename_i hnew
    refine Or.inr ⟨not_le.mp hnew, ?_⟩
    cases hps : r.procedures with
    | some ps =>
      rw [Request.procedures] at hps
      rw [hps] at hconvert
      exact Or.inr ⟨_, ps, rfl, by rw [hconvert]⟩
    | none =>
      rw [Request.procedures] at hps
      rw [hps] at hconvert
      cases hpair : convertOperations r.transaction with
      | mk ps known =>
        rw [hpair] at hconvert
        obtain rfl : known = false := hconvert
        exact Or.inl ⟨rfl, _, ps, rfl⟩

namespace Served

variable {arrange : List String → List String}

omit [DecidableEq W] in
/-- What a request does to a worker that is in order: nothing more where it reaches an empty key. -/
theorem execute_transaction_spec (harrange : ∀ l, (arrange l).Perm l) {x : Served S} (hx : x.Ok)
    (s : State W S) (r : Request S) (e : Surroundings) (es : List Surroundings) :
    (¬ KeysGiven s x r → execute_transaction arrange (e :: es) s x r = none) ∧
    (KeysGiven s x r → ∃ result s' x' message,
      execute_transaction arrange (e :: es) s x r = some (result, s', x', message) ∧
        (result = 0 ∨ result = -1 ∨ result = -2) ∧ x'.Ok) := by
  rcases json_to_procedures_cases s x.executor r with
    ⟨hold, hj⟩ | ⟨hnew, ⟨hnone, s₁, ps, hj⟩ | ⟨s₁, ps, hsome, hj⟩⟩
  · refine ⟨fun h => absurd (fun hnew => absurd hnew (not_lt.mpr hold)) h, fun _ => ?_⟩
    rw [execute_transaction, hj]
    exact ⟨_, _, _, _, rfl, Or.inr (Or.inl rfl), hx.database, hx.log⟩
  · refine ⟨fun h => absurd (fun _ ps hps => ?_) h, fun _ => ?_⟩
    · rw [hnone] at hps
      cases hps
    · rw [execute_transaction, hj]
      exact ⟨_, _, _, _, rfl, Or.inr (Or.inl rfl), hx.database, hx.log⟩
  · set x₁ : Served S :=
      { x with executor := { x.executor with session_id_ := r.client_sessionID, pro_set_ := ps } } with hx₁
    have hok : x₁.Ok := ⟨hx.database, hx.log⟩
    have hgiven : KeysGiven s x r ↔ Constructed x₁.executor.database View.start x₁.executor.pro_set_ := by
      rw [constructed_start_iff hok.database]
      refine ⟨fun h => h hnew ps hsome, fun h _ ps' hps' => ?_⟩
      rw [hsome] at hps'
      rw [← Option.some.inj hps']
      exact h
    rw [hgiven, execute_transaction, hj]
    refine ⟨fun h => ?_, fun h => ?_⟩
    · have hnone : attempts arrange (e :: es) x₁ = none := attempts_unconstructed hok (e :: es) h
      simp only [← hx₁, hnone, Option.map_none]
    · obtain ⟨result, x', lines, hrun, hres, hok'⟩ := attempts_constructed harrange hok e es h
      refine ⟨result, s₁, x', String.join (lines.map (ErrorLine.text id)), ?_, hres.imp_right Or.inr, hok'⟩
      simp only [← hx₁, hrun, Option.map_some]

theorem Reachable.ok (harrange : ∀ l, (arrange l).Perm l) {x : Served S} (hx : Reachable W arrange x) :
    x.Ok := by
  induction hx with
  | new session_id worker_thid hq => exact ⟨hq, logOk_new worker_thid _⟩
  | look _ hrun ih =>
    obtain ⟨log', hrun', hlog⟩ := ih.log.durableEpochWork _
    rw [hrun] at hrun'
    exact ⟨ih.database, Option.some.inj hrun' ▸ hlog⟩
  | @request x x' e es s s' r result message _ hrun ih =>
    obtain ⟨hbad, hgood⟩ := execute_transaction_spec harrange ih s r e es
    by_cases hkeys : KeysGiven s x r
    · obtain ⟨result', s'', x'', message', hrun', -, hok⟩ := hgood hkeys
      rw [hrun] at hrun'
      simp only [Option.some.injEq, Prod.mk.injEq] at hrun'
      exact hrun'.2.2.1 ▸ hok
    · rw [hbad hkeys] at hrun
      cases hrun

/-- A request is answered if and only if no operation that it reaches names an empty string. -/
theorem answered_iff_keys_given (harrange : ∀ l, (arrange l).Perm l) {x : Served S}
    (hx : Reachable W arrange x) (s : State W S) (r : Request S) (e : Surroundings)
    (es : List Surroundings) :
    (∃ result s' x' error_message_content, execute_transaction arrange (e :: es) s x r =
        some (result, s', x', error_message_content) ∧ (result = 0 ∨ result = -1 ∨ result = -2)) ↔
      KeysGiven s x r := by
  obtain ⟨hbad, hgood⟩ := execute_transaction_spec harrange (hx.ok harrange) s r e es
  constructor
  · rintro ⟨result, s', x', message, hrun, -⟩
    by_contra hkeys
    rw [hbad hkeys] at hrun
    cases hrun
  · intro hkeys
    obtain ⟨result, s', x', message, hrun, hres, -⟩ := hgood hkeys
    exact ⟨result, s', x', message, hrun, hres⟩

end Served

/-- Nothing happens while the request is served. -/
def quiet : Surroundings := ⟨1, [], 0, 1, 0⟩

def newServed : Served Nat := ⟨newExecutor, .new 0⟩

theorem newServed_reachable : Served.Reachable Unit id newServed := by
  refine .new 0 0 ?_
  constructor <;> simp [Serial.State.new]

/-- One READ of the empty key. -/
def readEmpty : Request Nat := ⟨0, 1, 0, [⟨"READ", "", none, "", false, "", false⟩]⟩

theorem readEmpty_stops :
    (Served.execute_transaction id [quiet] oneSession newServed readEmpty).isSome = false := by
  decide

theorem read_empty_key_not_answered :
    Served.Reachable Unit id newServed ∧ ¬ ∃ result s' x' error_message_content,
      Served.execute_transaction id [quiet] oneSession newServed readEmpty =
        some (result, s', x', error_message_content) ∧ (result = 0 ∨ result = -1 ∨ result = -2) := by
  refine ⟨newServed_reachable, ?_⟩
  rintro ⟨result, s', x', message, hrun, -⟩
  have hstops := readEmpty_stops
  rw [hrun] at hstops
  cases hstops

/-- An INSERT of an empty body, and a SCAN over its key. -/
def insertAndScan : Request Nat :=
  ⟨0, 1, 0, [⟨"INSERT", "a", some "", "", false, "", false⟩, ⟨"SCAN", "", none, "a", false, "b", true⟩]⟩

theorem insertAndScan_commits :
    (Served.execute_transaction id [quiet] oneSession newServed insertAndScan).map (·.1) = some 0 := by
  decide

theorem answered_iff_keys_given_insert :
    KeysGiven oneSession newServed insertAndScan ∧ ¬ KeysGiven oneSession newServed readEmpty := by
  have hiff : ∀ r : Request Nat, _ ↔ KeysGiven oneSession newServed r := fun r =>
    Served.answered_iff_keys_given (fun l => List.Perm.refl l) newServed_reachable oneSession r quiet []
  refine ⟨(hiff insertAndScan).mp ?_, fun hkeys => ?_⟩
  · obtain ⟨⟨result, s', x', message⟩, hrun, hres⟩ := Option.map_eq_some_iff.mp insertAndScan_commits
    exact ⟨result, s', x', message, hrun, Or.inl hres⟩
  · obtain ⟨result, s', x', message, hrun, -⟩ := (hiff readEmpty).mpr hkeys
    have hstops : (some (result, s', x', message)).isSome = false := hrun ▸ readEmpty_stops
    cases hstops

end Cassa.Server

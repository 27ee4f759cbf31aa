import Cassa.SiloCC.LogBuffer
import Mathlib.Logic.Function.Basic

/-!
# Workers, loggers and the durable epoch

Everything between a commit and `pepoch.seal`, one step per access to a shared
variable, per publish or dequeue and per file write: `durableEpochWork` and
`epochWork`, `validationPhase` as far as epochs go, `wal` and `LogBufferPool::push`
of `silo_transaction.cpp`; `find_min_epoch`, `logging` and `send_nid_to_notifier` of
`silo_logger.cpp`; `check_durable` of `silo_notifier.cpp`.

The records are present through their TID words only. Whether an operation is
refused and whether validation succeeds is left open: both may happen at any time.
The worker loop of the server never ends, so nothing below ever quits. A failed
assertion stops the process.
-/

namespace Cassa.SiloCC.Durability

variable {K β D : Type}

/-- Who logs for whom: `thid_vec_` of each logger and `logger_thid_` of each worker. -/
structure Config where
  num_worker_threads : Nat
  num_logger_threads : Nat
  thid_vec_ : Nat → List Nat
  logger_thid_ : Nat → Nat
  assigned : ∀ w, w < num_worker_threads → w ∈ thid_vec_ (logger_thid_ w)
  exclusive : ∀ l w, w ∈ thid_vec_ l → logger_thid_ w = l
  inRange : ∀ w, w < num_worker_threads → logger_thid_ w < num_logger_threads

/-- The call of `epochWork`: the one at the start of `durableEpochWork`, which
remembers the old local epoch, or one of those made while waiting for a buffer. -/
inductive Call where
  | first (old_thread_local_epoch : Nat)
  | waiting
  deriving DecidableEq

inductive Pc where
  | durableEpochWork
  /-- `epochWork`, before `siloLeaderWork` -/
  | epochWork (call : Call)
  | chkEpochLoaded (call : Call) (nowepo i : Nat)
  | addGE (call : Call)
  | loadCTIDW (call : Call)
  | loadGE (call : Call) (old_tid : TIDword)
  | storeLocalEpoch (call : Call) (old_tid : TIDword) (g : Nat)
  | compareEpoch (call : Call) (old_tid : TIDword)
  | storeCTIDW (call : Call) (new_epoch : Nat)
  /-- the comparison of the two local epochs in `durableEpochWork` -/
  | compareLocal (old_thread_local_epoch : Nat)
  | publish
  /-- `while (!log_buffer_pool_.is_ready())` -/
  | waitReady
  | idle
  | running
  | validationLoad
  | validationStore (g : Nat)
  | validationCheck
  | wal (tid : TIDword)
  | push (tid : TIDword) (new_epoch_begins : Bool)
  /-- inside `LogBufferPool::push`, waiting for a buffer -/
  | pushReady (tid : TIDword) (new_epoch_begins : Bool)
  | walStore (tid : TIDword)
  /-- `writePhase` at element `i`, after `wal` -/
  | writing (tid : TIDword) (i : Nat)
  deriving DecidableEq

structure Worker (K β : Type) where
  pc : Pc
  /-- inside `execute_transaction` -/
  inTx : Bool
  ThLocalEpoch : Nat
  CTIDW : TIDword
  /-- the maximum of the words read and locked, of which `max_rset_` and `max_wset_`
  are the two halves -/
  seen : TIDword
  mrctid_ : TIDword
  write_set_ : List (WriteElement K β)
  current_buffer_ : Option (LogBuffer K β)
  /-- the free buffers of `log_buffer_pool_` -/
  pool_ : List (LogBuffer K β)

def BUFFER_NUM : Nat := 2

def MAX_BUFFERED_LOG_ENTRIES : Nat := 1000

def Worker.new (w : Nat) : Worker K β where
  pc := .durableEpochWork
  inTx := false
  ThLocalEpoch := 0
  CTIDW := .zero
  seen := .zero
  mrctid_ := .new
  write_set_ := []
  current_buffer_ := some (.new w)
  pool_ := List.replicate (BUFFER_NUM - 1) (.new w)

inductive LPc (K β : Type) where
  /-- `queue_.wait_deq()` -/
  | waitDeq
  /-- the loop of `find_min_epoch` at element `i` of `thid_vec_`; the flag tells
  `logging` from `wait_deq` -/
  | findMin (logging : Bool) (i : Nat) (min_ctid : TIDword)
  | queueMin (logging : Bool) (min_ctid : TIDword)
  | deq (min_epoch : Nat)
  | writeLog (min_epoch : Nat) (rest : List (LogBuffer K β))
  | writeTail (min_epoch : Nat) (rest : List (LogBuffer K β))
  | returnBuffer (min_epoch : Nat) (rest : List (LogBuffer K β))
  | sendNid (min_epoch : Nat)
  /-- `check_durable`, before its first load -/
  | checkFirst (new_dl : Nat)
  /-- `check_durable` at logger `i` -/
  | checkDurable (new_dl i min_dl : Nat)
  | loadDurable (new_dl min_dl : Nat)
  | casDurable (new_dl min_dl dl : Nat)
  | writeEpoch (new_dl min_dl : Nat)
  | storeDurable (new_dl : Nat)
  deriving DecidableEq

structure Logger (K β D : Type) where
  pc : LPc K β
  /-- the buffers of `queue_`, in the order of its keys and, under one key, of arrival -/
  queue_ : List (LogBuffer K β)
  prev_epoch_hash_ : D
  ThLocalDurableEpoch : Nat
  /-- `log<i>.seal` -/
  logfile_ : List (JsonLog K β D)
  /-- the slot of `pepoch.seal` for the last log hash -/
  tailLogHash : Option D

def Logger.new (h : Hash K β D) : Logger K β D where
  pc := .waitDeq
  queue_ := []
  prev_epoch_hash_ := h.passphrase
  ThLocalDurableEpoch := 0
  logfile_ := []
  tailLogHash := none

/-- A transaction that has chosen its commit TID. -/
structure Commit (K β : Type) where
  worker : Nat
  tid : TIDword
  records : List (LogRecord K β)

structure State (K β D : Type) where
  GlobalEpoch : Nat
  DurableEpoch : Nat
  /-- the TID words of the records -/
  tidword : ValuePtr → TIDword
  workers : Nat → Worker K β
  loggers : Nat → Logger K β D
  /-- the durable epoch in `pepoch.seal` -/
  pepoch : Option Nat
  committed : List (Commit K β)
  /-- an assertion has failed -/
  halted : Bool

/-- What a worker does next where it has a choice; `tick` where it has none. -/
inductive Op (K β : Type) where
  | tick
  /-- the epoch timer has run out when worker 0 enters `epochWork` -/
  | lead
  /-- `getTransaction` returns nothing, or a request -/
  | noRequest
  | request
  /-- a record is read or locked -/
  | observe (v : ValuePtr)
  /-- `write`, `insert` or `tx_delete` adds an element to the write set -/
  | write (we : WriteElement K β)
  | refuse
  | validate
  | pass
  | fail

inductive Action (K β : Type) where
  | work (w : Nat) (op : Op K β)
  | log (l : Nat)

def State.setWorker (s : State K β D) (w : Nat) (t : Worker K β) : State K β D :=
  { s with workers := Function.update s.workers w t }

def State.setLogger (s : State K β D) (l : Nat) (g : Logger K β D) : State K β D :=
  { s with loggers := Function.update s.loggers l g }

def Worker.goto (t : Worker K β) (pc : Pc) : Worker K β := { t with pc := pc }

/-- `begin`: empty sets and no word observed yet. -/
def Worker.begin (t : Worker K β) : Worker K β :=
  { t with seen := .zero, write_set_ := [], pc := .running }

def Logger.goto (g : Logger K β D) (pc : LPc K β) : Logger K β D := { g with pc := pc }

/-- `queue_[x->min_epoch_].emplace_back(x)` -/
def enq (x : LogBuffer K β) : List (LogBuffer K β) → List (LogBuffer K β)
  | [] => [x]
  | y :: ys => if x.min_epoch_ < y.min_epoch_ then x :: y :: ys else y :: enq x ys

/-- `queue_.min_epoch()` -/
def queueMinEpoch : List (LogBuffer K β) → Nat
  | [] => LogBuffer.noEpoch
  | x :: _ => x.min_epoch_

/-- `is_ready()`: the worker afterwards, and what it returned. -/
def is_ready (t : Worker K β) : Worker K β × Bool :=
  match t.current_buffer_ with
  | some _ => (t, true)
  | none =>
    match t.pool_.getLast? with
    | some b => ({ t with current_buffer_ := some b, pool_ := t.pool_.dropLast }, true)
    | none => (t, false)

/-- `LogBufferPool::publish` with a buffer at hand. -/
def publish (c : Config) (s : State K β D) (w : Nat) (t : Worker K β) (b : LogBuffer K β) (pc : Pc) :
    State K β D :=
  if b.empty then s.setWorker w (t.goto pc)
  else
    let l := c.logger_thid_ w
    (s.setLogger l { s.loggers l with queue_ := enq b (s.loggers l).queue_ }).setWorker w
      { t with current_buffer_ := none, pc := pc }

def epochReturn : Call → Pc
  | .first old => .compareLocal old
  | .waiting => .waitReady

/-- The word that `epochWork` stores: the new epoch and nothing else. -/
def epochTid (new_epoch : Nat) : TIDword := epochWord new_epoch

/-- `durableEpochWork` and the `epochWork` inside it. -/
def tickEpoch (c : Config) (s : State K β D) (w : Nat) (t : Worker K β) : Pc → Option (State K β D)
  | .durableEpochWork => some (s.setWorker w (t.goto (.epochWork (.first t.ThLocalEpoch))))
  | .epochWork call => some (s.setWorker w (t.goto (.loadCTIDW call)))
  | .chkEpochLoaded call nowepo i =>
    if c.num_worker_threads ≤ i then some (s.setWorker w (t.goto (.addGE call)))
    else if (s.workers i).ThLocalEpoch ≠ nowepo then some (s.setWorker w (t.goto (.loadCTIDW call)))
    else some (s.setWorker w (t.goto (.chkEpochLoaded call nowepo (i + 1))))
  | .addGE call =>
    some { s.setWorker w (t.goto (.loadCTIDW call)) with GlobalEpoch := s.GlobalEpoch + 1 }
  | .loadCTIDW call => some (s.setWorker w (t.goto (.loadGE call t.CTIDW)))
  | .loadGE call old_tid => some (s.setWorker w (t.goto (.storeLocalEpoch call old_tid s.GlobalEpoch)))
  | .storeLocalEpoch call old_tid g =>
    some (s.setWorker w { t with ThLocalEpoch := g, pc := .compareEpoch call old_tid })
  | .compareEpoch call old_tid =>
    if old_tid.epoch.toNat ≠ t.ThLocalEpoch then
      some (s.setWorker w (t.goto (.storeCTIDW call t.ThLocalEpoch)))
    else some (s.setWorker w (t.goto (epochReturn call)))
  | .storeCTIDW call new_epoch =>
    some (s.setWorker w { t with CTIDW := epochTid new_epoch, pc := epochReturn call })
  | .compareLocal old =>
    if old ≠ t.ThLocalEpoch then
      match t.current_buffer_ with
      | none => some { s with halted := true }
      | some b =>
        if b.log_set_size_ ≠ 0 then some (s.setWorker w (t.goto .publish))
        else some (s.setWorker w (t.goto .waitReady))
    else some (s.setWorker w (t.goto .waitReady))
  | .publish =>
    match t.current_buffer_ with
    | none => some { s with halted := true }
    | some b => some (publish c s w t b .waitReady)
  | .waitReady =>
    if (is_ready t).2 then
      some (s.setWorker w (if t.inTx then (is_ready t).1.begin else (is_ready t).1.goto .idle))
    else some (s.setWorker w (t.goto (.epochWork .waiting)))
  | _ => none

/-- The word that `writePhase` stores for an operation; the change of `absent` stays
with `maxtid` for the elements that follow. -/
def storedWord (maxtid : TIDword) : OpType → TIDword
  | .INSERT => { maxtid with absent := false }
  | .DELETE => { maxtid with absent := true }
  | _ => maxtid

/-- The epoch accesses of `validationPhase`, then `wal` and the stores of `writePhase`. -/
def tickCommit (c : Config) (s : State K β D) (w : Nat) (t : Worker K β) : Pc → Option (State K β D)
  | .validationLoad => some (s.setWorker w (t.goto (.validationStore s.GlobalEpoch)))
  | .validationStore g => some (s.setWorker w { t with ThLocalEpoch := g, pc := .validationCheck })
  | .wal tid => some (s.setWorker w (t.goto (.push tid (t.CTIDW.epoch ≠ tid.epoch))))
  | .push tid new_epoch_begins =>
    match t.current_buffer_ with
    | none => some { s with halted := true }
    | some b =>
      if b.log_set_size_ > MAX_BUFFERED_LOG_ENTRIES ∨ new_epoch_begins = true then
        some (publish c s w t b (.pushReady tid new_epoch_begins))
      else some (s.setWorker w (t.goto (.pushReady tid new_epoch_begins)))
  | .pushReady tid new_epoch_begins =>
    match (is_ready t).1.current_buffer_ with
    | none => some s
    | some b =>
      let t' := { (is_ready t).1 with
        current_buffer_ := some (b.push tid t.write_set_)
        pc := if new_epoch_begins then .walStore tid else .writing tid 0 }
      some { s.setWorker w t' with halted := !b.pushAsserts tid t.write_set_ }
  | .walStore tid => some (s.setWorker w { t with CTIDW := tid, pc := .writing tid 0 })
  | .writing tid i =>
    match t.write_set_[i]? with
    | none => some (s.setWorker w { t with inTx := false, pc := .durableEpochWork })
    | some we =>
      some { s.setWorker w (t.goto (.writing (storedWord tid we.op_) (i + 1))) with
        tidword := Function.update s.tidword we.value_ (storedWord tid we.op_) }
  | _ => none

/-- The commit TID that `writePhase` chooses. -/
def Worker.commitTid (t : Worker K β) : TIDword :=
  Cassa.commitTid t.seen .zero t.mrctid_ t.ThLocalEpoch

def work (c : Config) (s : State K β D) (w : Nat) (op : Op K β) : Option (State K β D) :=
  let t := s.workers w
  match op with
  | .tick => (tickEpoch c s w t t.pc).or (tickCommit c s w t t.pc)
  | .lead =>
    match t.pc with
    | .epochWork call =>
      if w = 0 then some (s.setWorker w (t.goto (.chkEpochLoaded call s.GlobalEpoch 1))) else none
    | _ => none
  | .noRequest => if t.pc = .idle then some (s.setWorker w (t.goto .durableEpochWork)) else none
  | .request =>
    if t.pc = .idle then some (s.setWorker w { t with inTx := true, pc := .durableEpochWork })
    else none
  | .observe v =>
    if t.pc = .running then some (s.setWorker w { t with seen := TIDword.max t.seen (s.tidword v) })
    else none
  | .write we =>
    if t.pc = .running then some (s.setWorker w { t with write_set_ := t.write_set_ ++ [we] })
    else none
  | .refuse =>
    if t.pc = .running then
      some (s.setWorker w { t with inTx := false, write_set_ := [], pc := .durableEpochWork })
    else none
  | .validate => if t.pc = .running then some (s.setWorker w (t.goto .validationLoad)) else none
  | .pass =>
    if t.pc = .validationCheck then
      let tid := t.commitTid
      some { s.setWorker w { t with mrctid_ := tid, pc := .wal tid } with
        committed := s.committed ++ [⟨w, tid, LogBuffer.logRecords tid t.write_set_⟩] }
    else none
  | .fail =>
    if t.pc = .validationCheck then
      some (s.setWorker w { t with write_set_ := [], pc := .durableEpochWork })
    else none

/-- `~(uint64_t)0` as a TID word. -/
def ones : TIDword := ⟨true, true, true, BitVec.allOnes 29, BitVec.allOnes 32⟩

/-- One turn of the loop of `find_min_epoch`. -/
def minCtid (min_ctid ctid : TIDword) : TIDword :=
  if ctid.obj_ > 0 ∧ ctid.obj_ < min_ctid.obj_ then ctid else min_ctid

/-- The rest of `find_min_epoch`: 0 if no epoch was found. -/
def minEpoch (min_ctid : TIDword) (queue_epoch : Nat) : Nat :=
  if min_ctid.epoch = 0 ∨ min_ctid = ones then 0
  else if min_ctid.epoch.toNat > queue_epoch then queue_epoch else min_ctid.epoch.toNat

/-- `return_buffer` puts a buffer back into the pool of its worker. -/
def State.returnBuffer (s : State K β D) (b : LogBuffer K β) : State K β D :=
  s.setWorker b.pool_ { s.workers b.pool_ with pool_ := (s.workers b.pool_).pool_ ++ [b.recycled] }

def log (c : Config) (h : Hash K β D) (s : State K β D) (l : Nat) : Option (State K β D) :=
  let g := s.loggers l
  match g.pc with
  | .waitDeq => some (s.setLogger l (g.goto (.findMin (!g.queue_.isEmpty) 0 ones)))
  | .findMin logging i min_ctid =>
    match (c.thid_vec_ l)[i]? with
    | none => some (s.setLogger l (g.goto (.queueMin logging min_ctid)))
    | some w =>
      some (s.setLogger l (g.goto (.findMin logging (i + 1) (minCtid min_ctid (s.workers w).CTIDW))))
  | .queueMin logging min_ctid =>
    let min_epoch := minEpoch min_ctid (queueMinEpoch g.queue_)
    if logging then
      if min_epoch = 0 then some (s.setLogger l (g.goto .waitDeq))
      else some (s.setLogger l (g.goto (.deq min_epoch)))
    else some (s.setLogger l (g.goto (.sendNid min_epoch)))
  | .deq min_epoch =>
    some (s.setLogger l { g with queue_ := [], pc := .writeLog min_epoch g.queue_ })
  | .writeLog min_epoch rest =>
    match rest with
    | [] => some (s.setLogger l (g.goto (.sendNid min_epoch)))
    | b :: _ =>
      if b.log_set_size_ = 0 then
        some (s.setLogger l { g with
          prev_epoch_hash_ := h.emptyString, pc := .returnBuffer min_epoch rest })
      else
        some (s.setLogger l { g with
          logfile_ := g.logfile_ ++ [create_json_log h g.prev_epoch_hash_ b.log_set_]
          pc := .writeTail min_epoch rest })
  | .writeTail min_epoch rest =>
    match rest with
    | [] => none
    | b :: _ =>
      let current_epoch_hash := currentEpochHash h b.log_set_
      some (s.setLogger l { g with
        tailLogHash := some current_epoch_hash
        prev_epoch_hash_ := current_epoch_hash
        pc := .returnBuffer min_epoch rest })
  | .returnBuffer min_epoch rest =>
    match rest with
    | [] => none
    | b :: rest => some ((s.setLogger l (g.goto (.writeLog min_epoch rest))).returnBuffer b)
  | .sendNid min_epoch =>
    if min_epoch = 0 ∨ min_epoch = LogBuffer.noEpoch then some (s.setLogger l (g.goto .waitDeq))
    else if g.ThLocalDurableEpoch < min_epoch - 1 then
      some (s.setLogger l (g.goto (.checkFirst (min_epoch - 1))))
    else some (s.setLogger l (g.goto .waitDeq))
  | .checkFirst new_dl =>
    some (s.setLogger l (g.goto (.checkDurable new_dl 1 (s.loggers 0).ThLocalDurableEpoch)))
  | .checkDurable new_dl i min_dl =>
    if c.num_logger_threads ≤ i then some (s.setLogger l (g.goto (.loadDurable new_dl min_dl)))
    else
      let dl := (s.loggers i).ThLocalDurableEpoch
      some (s.setLogger l (g.goto (.checkDurable new_dl (i + 1) (if dl < min_dl then dl else min_dl))))
  | .loadDurable new_dl min_dl =>
    if s.DurableEpoch < min_dl then
      some (s.setLogger l (g.goto (.casDurable new_dl min_dl s.DurableEpoch)))
    else some (s.setLogger l (g.goto (.storeDurable new_dl)))
  | .casDurable new_dl min_dl dl =>
    if s.DurableEpoch = dl then
      some { s.setLogger l (g.goto (.writeEpoch new_dl min_dl)) with DurableEpoch := min_dl }
    else some (s.setLogger l (g.goto (.storeDurable new_dl)))
  | .writeEpoch new_dl min_dl =>
    some { s.setLogger l (g.goto (.storeDurable new_dl)) with pepoch := some min_dl }
  | .storeDurable new_dl =>
    some (s.setLogger l { g with ThLocalDurableEpoch := new_dl, pc := .waitDeq })

def step (c : Config) (h : Hash K β D) (s : State K β D) (a : Action K β) : Option (State K β D) :=
  if s.halted then none
  else match a with
    | .work w op => if w < c.num_worker_threads then work c s w op else none
    | .log l => if l < c.num_logger_threads then log c h s l else none

/-- A server that has just started: no record is from a later epoch than the first. -/
structure Init (h : Hash K β D) (s : State K β D) : Prop where
  epoch : s.GlobalEpoch = 1
  durable : s.DurableEpoch = 0
  words : ∀ v, (s.tidword v).epoch.toNat ≤ 1
  workers : ∀ w, s.workers w = .new w
  loggers : ∀ l, s.loggers l = .new h
  pepoch : s.pepoch = none
  committed : s.committed = []
  halted : s.halted = false

section
variable (s : State K β D) (w l : Nat) (t : Worker K β) (g : Logger K β D)

@[simp] theorem setWorker_self : (s.setWorker w t).workers w = t := by
  simp [State.setWorker]

theorem setWorker_other {u : Nat} (h : u ≠ w) : (s.setWorker w t).workers u = s.workers u := by
  simp [State.setWorker, h]

@[simp] theorem setWorker_loggers : (s.setWorker w t).loggers = s.loggers := rfl

@[simp] theorem setLogger_committed : (s.setLogger l g).committed = s.committed := by
  simp [State.setLogger]

@[simp] theorem setWorker_committed : (s.setWorker w t).committed = s.committed := by
  simp [State.setWorker]

@[simp] theorem setLogger_DurableEpoch : (s.setLogger l g).DurableEpoch = s.DurableEpoch := by
  simp [State.setLogger]

@[simp] theorem setLogger_workers : (s.setLogger l g).workers = s.workers := by
  simp [State.setLogger]

@[simp] theorem setLogger_self : (s.setLogger l g).loggers l = g := by
  simp [State.setLogger]

theorem setLogger_other {m : Nat} (h : m ≠ l) : (s.setLogger l g).loggers m = s.loggers m := by
  simp [State.setLogger, h]

end

theorem mem_enq {x y : LogBuffer K β} {q : List (LogBuffer K β)} : y ∈ enq x q ↔ y = x ∨ y ∈ q := by
  induction q with
  | nil => simp [enq]
  | cons z q ih =>
    unfold enq
    split
    · simp
    · simp only [List.mem_cons, ih]
      constructor
      · rintro (h | h | h)
        · exact Or.inr (Or.inl h)
        · exact Or.inl h
        · exact Or.inr (Or.inr h)
      · rintro (h | h | h)
        · exact Or.inr (Or.inl h)
        · exact Or.inl h
        · exact Or.inr (Or.inr h)

/-- The branches of `work`, with what each of them requires. -/
inductive Works (c : Config) (s : State K β D) (w : Nat) : Op K β → State K β D → Prop
  | tickEpoch {s' : State K β D} (hs : tickEpoch c s w (s.workers w) (s.workers w).pc = some s') :
    Works c s w .tick s'
  | tickCommit {s' : State K β D} (hs : tickCommit c s w (s.workers w) (s.workers w).pc = some s') :
    Works c s w .tick s'
  | lead {call : Call} (hpc : (s.workers w).pc = .epochWork call) (hw : w = 0) :
    Works c s w .lead (s.setWorker w ((s.workers w).goto (.chkEpochLoaded call s.GlobalEpoch 1)))
  | noRequest (hpc : (s.workers w).pc = .idle) :
    Works c s w .noRequest (s.setWorker w ((s.workers w).goto .durableEpochWork))
  | request (hpc : (s.workers w).pc = .idle) :
    Works c s w .request (s.setWorker w { s.workers w with inTx := true, pc := .durableEpochWork })
  | observe {v : ValuePtr} (hpc : (s.workers w).pc = .running) :
    Works c s w (.observe v)
      (s.setWorker w { s.workers w with seen := TIDword.max (s.workers w).seen (s.tidword v) })
  | write {we : WriteElement K β} (hpc : (s.workers w).pc = .running) :
    Works c s w (.write we)
      (s.setWorker w { s.workers w with write_set_ := (s.workers w).write_set_ ++ [we] })
  | refuse (hpc : (s.workers w).pc = .running) :
    Works c s w .refuse
      (s.setWorker w { s.workers w with inTx := false, write_set_ := [], pc := .durableEpochWork })
  | validate (hpc : (s.workers w).pc = .running) :
    Works c s w .validate (s.setWorker w ((s.workers w).goto .validationLoad))
  | pass (hpc : (s.workers w).pc = .validationCheck) :
    Works c s w .pass { s.setWorker w { s.workers w with
        mrctid_ := (s.workers w).commitTid, pc := .wal (s.workers w).commitTid } with
      committed := s.committed ++ [⟨w, (s.workers w).commitTid,
        LogBuffer.logRecords (s.workers w).commitTid (s.workers w).write_set_⟩] }
  | fail (hpc : (s.workers w).pc = .validationCheck) :
    Works c s w .fail (s.setWorker w { s.workers w with write_set_ := [], pc := .durableEpochWork })

theorem works_of_work {c : Config} {s s' : State K β D} {w : Nat} {op : Op K β} (hs : work c s w op = some s') :
    Works c s w op s' := by
  cases op with
  | tick =>
    rcases Option.or_eq_some_iff.mp hs with hs | ⟨-, hs⟩
    · exact .tickEpoch hs
    · exact .tickCommit hs
  | lead =>
    simp only [work] at hs
    split at hs
    · rename_i call hpc
      obtain ⟨hw, hs⟩ := Option.ite_none_right_eq_some.mp hs
      obtain rfl := Option.some.inj hs
      exact .lead hpc hw
    · cases hs
  | _ =>
    obtain ⟨hpc, hs⟩ := Option.ite_none_right_eq_some.mp hs
    obtain rfl := Option.some.inj hs
    constructor
    exact hpc

/-- The branches of `tickEpoch`, with what each of them requires. -/
inductive EpochTicks (c : Config) (s : State K β D) (w : Nat) : State K β D → Prop
  | durableEpochWork (hpc : (s.workers w).pc = .durableEpochWork) :
    EpochTicks c s w
      (s.setWorker w ((s.workers w).goto (.epochWork (.first (s.workers w).ThLocalEpoch))))
  | epochWork {call : Call} (hpc : (s.workers w).pc = .epochWork call) :
    EpochTicks c s w (s.setWorker w ((s.workers w).goto (.loadCTIDW call)))
  | checkedAll {call : Call} {nowepo i : Nat} (hpc : (s.workers w).pc = .chkEpochLoaded call nowepo i)
    (hall : c.num_worker_threads ≤ i) :
    EpochTicks c s w (s.setWorker w ((s.workers w).goto (.addGE call)))
  | checkedBehind {call : Call} {nowepo i : Nat} (hpc : (s.workers w).pc = .chkEpochLoaded call nowepo i)
    (hlt : i < c.num_worker_threads) (hne : (s.workers i).ThLocalEpoch ≠ nowepo) :
    EpochTicks c s w (s.setWorker w ((s.workers w).goto (.loadCTIDW call)))
  | checkedOne {call : Call} {nowepo i : Nat} (hpc : (s.workers w).pc = .chkEpochLoaded call nowepo i)
    (hlt : i < c.num_worker_threads) (heq : (s.workers i).ThLocalEpoch = nowepo) :
    EpochTicks c s w (s.setWorker w ((s.workers w).goto (.chkEpochLoaded call nowepo (i + 1))))
  | addGE {call : Call} (hpc : (s.workers w).pc = .addGE call) :
    EpochTicks c s w { s.setWorker w ((s.workers w).goto (.loadCTIDW call)) with
      GlobalEpoch := s.GlobalEpoch + 1 }
  | loadCTIDW {call : Call} (hpc : (s.workers w).pc = .loadCTIDW call) :
    EpochTicks c s w (s.setWorker w ((s.workers w).goto (.loadGE call (s.workers w).CTIDW)))
  | loadGE {call : Call} {old_tid : TIDword} (hpc : (s.workers w).pc = .loadGE call old_tid) :
    EpochTicks c s w
      (s.setWorker w ((s.workers w).goto (.storeLocalEpoch call old_tid s.GlobalEpoch)))
  | storeLocalEpoch {call : Call} {old_tid : TIDword} {g : Nat}
    (hpc : (s.workers w).pc = .storeLocalEpoch call old_tid g) :
    EpochTicks c s w
      (s.setWorker w { s.workers w with ThLocalEpoch := g, pc := .compareEpoch call old_tid })
  | epochDiffers {call : Call} {old_tid : TIDword} (hpc : (s.workers w).pc = .compareEpoch call old_tid)
    (hne : old_tid.epoch.toNat ≠ (s.workers w).ThLocalEpoch) :
    EpochTicks c s w
      (s.setWorker w ((s.workers w).goto (.storeCTIDW call (s.workers w).ThLocalEpoch)))
  | epochAgrees {call : Call} {old_tid : TIDword} (hpc : (s.workers w).pc = .compareEpoch call old_tid)
    (heq : old_tid.epoch.toNat = (s.workers w).ThLocalEpoch) :
    EpochTicks c s w (s.setWorker w ((s.workers w).goto (epochReturn call)))
  | storeCTIDW {call : Call} {new_epoch : Nat} (hpc : (s.workers w).pc = .storeCTIDW call new_epoch) :
    EpochTicks c s w
      (s.setWorker w { s.workers w with CTIDW := epochTid new_epoch, pc := epochReturn call })
  | localMoved {old : Nat} {b : LogBuffer K β} (hpc : (s.workers w).pc = .compareLocal old)
    (hne : old ≠ (s.workers w).ThLocalEpoch) (hb : (s.workers w).current_buffer_ = some b) (hfull : b.log_set_size_ ≠ 0) :
    EpochTicks c s w (s.setWorker w ((s.workers w).goto .publish))
  | localEmpty {old : Nat} {b : LogBuffer K β} (hpc : (s.workers w).pc = .compareLocal old)
    (hne : old ≠ (s.workers w).ThLocalEpoch) (hb : (s.workers w).current_buffer_ = some b) (hempty : b.log_set_size_ = 0) :
    EpochTicks c s w (s.setWorker w ((s.workers w).goto .waitReady))
  | localKept {old : Nat} (hpc : (s.workers w).pc = .compareLocal old)
    (heq : old = (s.workers w).ThLocalEpoch) :
    EpochTicks c s w (s.setWorker w ((s.workers w).goto .waitReady))
  | publish {b : LogBuffer K β} (hpc : (s.workers w).pc = .publish)
    (hb : (s.workers w).current_buffer_ = some b) :
    EpochTicks c s w (publish c s w (s.workers w) b .waitReady)
  /-- `assert(current_buffer_ != NULL)` at either of its places -/
  | noBuffer (hpc : (∃ old, (s.workers w).pc = .compareLocal old ∧ old ≠ (s.workers w).ThLocalEpoch) ∨
      (s.workers w).pc = .publish)
    (hn : (s.workers w).current_buffer_ = none) :
    EpochTicks c s w { s with halted := true }
  | ready (hpc : (s.workers w).pc = .waitReady) (hready : (is_ready (s.workers w)).2 = true) :
    EpochTicks c s w (s.setWorker w (if (s.workers w).inTx then (is_ready (s.workers w)).1.begin
      else (is_ready (s.workers w)).1.goto .idle))
  | notReady (hpc : (s.workers w).pc = .waitReady) (hready : (is_ready (s.workers w)).2 = false) :
    EpochTicks c s w (s.setWorker w ((s.workers w).goto (.epochWork .waiting)))

theorem epochTicks_of_tickEpoch {c : Config} {s s' : State K β D} {w : Nat}
    (hs : tickEpoch c s w (s.workers w) (s.workers w).pc = some s') : EpochTicks c s w s' := by
  cases hpc : (s.workers w).pc with
  | chkEpochLoaded call nowepo i =>
    simp only [hpc, tickEpoch] at hs
    split at hs
    · rename_i hall
      obtain rfl := Option.some.inj hs
      exact .checkedAll hpc hall
    rename_i hlt
    split at hs
    · rename_i hne
      obtain rfl := Option.some.inj hs
      exact .checkedBehind hpc (Nat.not_le.mp hlt) hne
    · rename_i heq
      obtain rfl := Option.some.inj hs
      exact .checkedOne hpc (Nat.not_le.mp hlt) (not_not.mp heq)
  | compareEpoch call old_tid =>
    simp only [hpc, tickEpoch] at hs
    split at hs
    · rename_i hne
      obtain rfl := Option.some.inj hs
      exact .epochDiffers hpc hne
    · rename_i heq
      obtain rfl := Option.some.inj hs
      exact .epochAgrees hpc (not_not.mp heq)
  | compareLocal old =>
    simp only [hpc, tickEpoch] at hs
    split at hs
    · rename_i hne
      split at hs
      · rename_i hn
        obtain rfl := Option.some.inj hs
        exact .noBuffer (Or.inl ⟨old, hpc, hne⟩) hn
      rename_i b hb
      split at hs
      · rename_i hfull
        obtain rfl := Option.some.inj hs
        exact .localMoved hpc hne hb hfull
      · rename_i hempty
        obtain rfl := Option.some.inj hs
        exact .localEmpty hpc hne hb (not_not.mp hempty)
    · rename_i heq
      obtain rfl := Option.some.inj hs
      exact .localKept hpc (not_not.mp heq)
  | publish =>
    simp only [hpc, tickEpoch] at hs
    split at hs
    · rename_i hn
      obtain rfl := Option.some.inj hs
      exact .noBuffer (Or.inr hpc) hn
    · rename_i b hb
      obtain rfl := Option.some.inj hs
      exact .publish hpc hb
  | waitReady =>
    simp only [hpc, tickEpoch] at hs
    split at hs
    · rename_i hready
      obtain rfl := Option.some.inj hs
      exact .ready hpc hready
    · rename_i hready
      obtain rfl := Option.some.inj hs
      exact .notReady hpc (Bool.eq_false_iff.mpr hready)
  | durableEpochWork | epochWork | addGE | loadCTIDW | loadGE | storeLocalEpoch | storeCTIDW =>
    rw [hpc] at hs
    obtain rfl := Option.some.inj hs
    constructor
    exact hpc
  | _ =>
    rw [hpc] at hs
    cases hs

/-- The branches of `tickCommit`, with what each of them requires. -/
inductive CommitTicks (c : Config) (s : State K β D) (w : Nat) : State K β D → Prop
  | validationLoad (hpc : (s.workers w).pc = .validationLoad) :
    CommitTicks c s w (s.setWorker w ((s.workers w).goto (.validationStore s.GlobalEpoch)))
  | validationStore {g : Nat} (hpc : (s.workers w).pc = .validationStore g) :
    CommitTicks c s w
      (s.setWorker w { s.workers w with ThLocalEpoch := g, pc := .validationCheck })
  | wal {tid : TIDword} (hpc : (s.workers w).pc = .wal tid) :
    CommitTicks c s w
      (s.setWorker w ((s.workers w).goto (.push tid ((s.workers w).CTIDW.epoch ≠ tid.epoch))))
  | noBuffer {tid : TIDword} {new_epoch_begins : Bool} (hpc : (s.workers w).pc = .push tid new_epoch_begins)
    (hn : (s.workers w).current_buffer_ = none) :
    CommitTicks c s w { s with halted := true }
  | pushFull {tid : TIDword} {new_epoch_begins : Bool} {b : LogBuffer K β}
    (hpc : (s.workers w).pc = .push tid new_epoch_begins)
    (hb : (s.workers w).current_buffer_ = some b)
    (hfull : b.log_set_size_ > MAX_BUFFERED_LOG_ENTRIES ∨ new_epoch_begins = true) :
    CommitTicks c s w (publish c s w (s.workers w) b (.pushReady tid new_epoch_begins))
  | pushRoom {tid : TIDword} {b : LogBuffer K β}
    (hpc : (s.workers w).pc = .push tid false)
    (hb : (s.workers w).current_buffer_ = some b)
    (hroom : b.log_set_size_ ≤ MAX_BUFFERED_LOG_ENTRIES) :
    CommitTicks c s w (s.setWorker w ((s.workers w).goto (.pushReady tid false)))
  /-- no buffer is free yet -/
  | waiting {tid : TIDword} {new_epoch_begins : Bool}
    (hpc : (s.workers w).pc = .pushReady tid new_epoch_begins)
    (hn : (is_ready (s.workers w)).1.current_buffer_ = none) :
    CommitTicks c s w s
  | pushed {tid : TIDword} {new_epoch_begins : Bool} {b : LogBuffer K β}
    (hpc : (s.workers w).pc = .pushReady tid new_epoch_begins)
    (hb : (is_ready (s.workers w)).1.current_buffer_ = some b) :
    CommitTicks c s w { s.setWorker w { (is_ready (s.workers w)).1 with
        current_buffer_ := some (b.push tid (s.workers w).write_set_)
        pc := if new_epoch_begins then .walStore tid else .writing tid 0 } with
      halted := !b.pushAsserts tid (s.workers w).write_set_ }
  | walStore {tid : TIDword} (hpc : (s.workers w).pc = .walStore tid) :
    CommitTicks c s w (s.setWorker w { s.workers w with CTIDW := tid, pc := .writing tid 0 })
  | written {tid : TIDword} {i : Nat} (hpc : (s.workers w).pc = .writing tid i)
    (hend : (s.workers w).write_set_[i]? = none) :
    CommitTicks c s w (s.setWorker w { s.workers w with inTx := false, pc := .durableEpochWork })
  | writing {tid : TIDword} {i : Nat} {we : WriteElement K β} (hpc : (s.workers w).pc = .writing tid i)
    (hwe : (s.workers w).write_set_[i]? = some we) :
    CommitTicks c s w { s.setWorker w ((s.workers w).goto (.writing (storedWord tid we.op_) (i + 1))) with
      tidword := Function.update s.tidword we.value_ (storedWord tid we.op_) }

theorem commitTicks_of_tickCommit {c : Config} {s s' : State K β D} {w : Nat}
    (hs : tickCommit c s w (s.workers w) (s.workers w).pc = some s') : CommitTicks c s w s' := by
  cases hpc : (s.workers w).pc with
  | push tid new_epoch_begins =>
    simp only [hpc, tickCommit] at hs
    split at hs
    · rename_i hn
      obtain rfl := Option.some.inj hs
      exact .noBuffer hpc hn
    rename_i b hb
    split at hs
    · rename_i hfull
      obtain rfl := Option.some.inj hs
      exact .pushFull hpc hb hfull
    · rename_i hroom
      obtain rfl := Option.some.inj hs
      obtain ⟨hsize, hold⟩ := not_or.mp hroom
      obtain rfl := Bool.eq_false_iff.mpr hold
      exact .pushRoom hpc hb (Nat.not_lt.mp hsize)
  | pushReady tid new_epoch_begins =>
    simp only [hpc, tickCommit] at hs
    split at hs
    · rename_i hn
      obtain rfl := Option.some.inj hs
      exact .waiting hpc hn
    · rename_i b hb
      obtain rfl := Option.some.inj hs
      exact .pushed hpc hb
  | writing tid i =>
    simp only [hpc, tickCommit] at hs
    split at hs
    · rename_i hend
      obtain rfl := Option.some.inj hs
      exact .written hpc hend
    · rename_i we hwe
      obtain rfl := Option.some.inj hs
      exact .writing hpc hwe
  | validationLoad | validationStore | wal | walStore =>
    rw [hpc] at hs
    obtain rfl := Option.some.inj hs
    constructor
    exact hpc
  | _ =>
    rw [hpc] at hs
    cases hs

/-- The branches of `log`, with what each of them requires. -/
inductive Logs (c : Config) (h : Hash K β D) (s : State K β D) (l : Nat) : State K β D → Prop
  | waitDeq (hpc : (s.loggers l).pc = .waitDeq) :
    Logs c h s l
      (s.setLogger l ((s.loggers l).goto (.findMin (!(s.loggers l).queue_.isEmpty) 0 ones)))
  | minLoaded {logging : Bool} {i : Nat} {m : TIDword} {w : Nat}
    (hpc : (s.loggers l).pc = .findMin logging i m) (hw : (c.thid_vec_ l)[i]? = some w) :
    Logs c h s l (s.setLogger l
      ((s.loggers l).goto (.findMin logging (i + 1) (minCtid m (s.workers w).CTIDW))))
  | minFound {logging : Bool} {i : Nat} {m : TIDword} (hpc : (s.loggers l).pc = .findMin logging i m)
    (hend : (c.thid_vec_ l)[i]? = none) :
    Logs c h s l (s.setLogger l ((s.loggers l).goto (.queueMin logging m)))
  | queueZero {m : TIDword} (hpc : (s.loggers l).pc = .queueMin true m)
    (hzero : minEpoch m (queueMinEpoch (s.loggers l).queue_) = 0) :
    Logs c h s l (s.setLogger l ((s.loggers l).goto .waitDeq))
  | queueDeq {m : TIDword} (hpc : (s.loggers l).pc = .queueMin true m)
    (hne : minEpoch m (queueMinEpoch (s.loggers l).queue_) ≠ 0) :
    Logs c h s l
      (s.setLogger l ((s.loggers l).goto (.deq (minEpoch m (queueMinEpoch (s.loggers l).queue_)))))
  | queueIdle {m : TIDword} (hpc : (s.loggers l).pc = .queueMin false m) :
    Logs c h s l
      (s.setLogger l ((s.loggers l).goto (.sendNid (minEpoch m (queueMinEpoch (s.loggers l).queue_)))))
  | deq {e : Nat} (hpc : (s.loggers l).pc = .deq e) :
    Logs c h s l
      (s.setLogger l { s.loggers l with queue_ := [], pc := .writeLog e (s.loggers l).queue_ })
  | logEnd {e : Nat} (hpc : (s.loggers l).pc = .writeLog e []) :
    Logs c h s l (s.setLogger l ((s.loggers l).goto (.sendNid e)))
  | logEmpty {e : Nat} {b : LogBuffer K β} {rest : List (LogBuffer K β)}
    (hpc : (s.loggers l).pc = .writeLog e (b :: rest)) (hempty : b.log_set_size_ = 0) :
    Logs c h s l (s.setLogger l { s.loggers l with
      prev_epoch_hash_ := h.emptyString
      pc := .returnBuffer e (b :: rest) })
  | writeLog {e : Nat} {b : LogBuffer K β} {rest : List (LogBuffer K β)}
    (hpc : (s.loggers l).pc = .writeLog e (b :: rest)) (hfull : b.log_set_size_ ≠ 0) :
    Logs c h s l (s.setLogger l { s.loggers l with
      logfile_ := (s.loggers l).logfile_ ++ [create_json_log h (s.loggers l).prev_epoch_hash_ b.log_set_]
      pc := .writeTail e (b :: rest) })
  | writeTail {e : Nat} {b : LogBuffer K β} {rest : List (LogBuffer K β)}
    (hpc : (s.loggers l).pc = .writeTail e (b :: rest)) :
    Logs c h s l (s.setLogger l { s.loggers l with
      tailLogHash := some (currentEpochHash h b.log_set_)
      prev_epoch_hash_ := currentEpochHash h b.log_set_
      pc := .returnBuffer e (b :: rest) })
  | returnBuffer {e : Nat} {b : LogBuffer K β} {rest : List (LogBuffer K β)}
    (hpc : (s.loggers l).pc = .returnBuffer e (b :: rest)) :
    Logs c h s l ((s.setLogger l ((s.loggers l).goto (.writeLog e rest))).returnBuffer b)
  | sendRaise {e : Nat} (hpc : (s.loggers l).pc = .sendNid e) (hne : e ≠ 0)
    (hsome : e ≠ LogBuffer.noEpoch) (hlt : (s.loggers l).ThLocalDurableEpoch < e - 1) :
    Logs c h s l (s.setLogger l ((s.loggers l).goto (.checkFirst (e - 1))))
  | sendNothing {e : Nat} (hpc : (s.loggers l).pc = .sendNid e)
    (hold : e = 0 ∨ e = LogBuffer.noEpoch ∨ e - 1 ≤ (s.loggers l).ThLocalDurableEpoch) :
    Logs c h s l (s.setLogger l ((s.loggers l).goto .waitDeq))
  | checkFirst {nd : Nat} (hpc : (s.loggers l).pc = .checkFirst nd) :
    Logs c h s l
      (s.setLogger l ((s.loggers l).goto (.checkDurable nd 1 (s.loggers 0).ThLocalDurableEpoch)))
  | checkedLoggers {nd i md : Nat} (hpc : (s.loggers l).pc = .checkDurable nd i md)
    (hend : c.num_logger_threads ≤ i) :
    Logs c h s l (s.setLogger l ((s.loggers l).goto (.loadDurable nd md)))
  | checkDurable {nd i md : Nat} (hpc : (s.loggers l).pc = .checkDurable nd i md)
    (hmore : i < c.num_logger_threads) :
    Logs c h s l (s.setLogger l ((s.loggers l).goto (.checkDurable nd (i + 1)
      (if (s.loggers i).ThLocalDurableEpoch < md then (s.loggers i).ThLocalDurableEpoch else md))))
  | loadDurable {nd md : Nat} (hpc : (s.loggers l).pc = .loadDurable nd md) (hlt : s.DurableEpoch < md) :
    Logs c h s l (s.setLogger l ((s.loggers l).goto (.casDurable nd md s.DurableEpoch)))
  | loadReached {nd md : Nat} (hpc : (s.loggers l).pc = .loadDurable nd md) (hge : md ≤ s.DurableEpoch) :
    Logs c h s l (s.setLogger l ((s.loggers l).goto (.storeDurable nd)))
  | casDurable {nd md dl : Nat} (hpc : (s.loggers l).pc = .casDurable nd md dl)
    (heq : s.DurableEpoch = dl) :
    Logs c h s l { s.setLogger l ((s.loggers l).goto (.writeEpoch nd md)) with DurableEpoch := md }
  | casLost {nd md dl : Nat} (hpc : (s.loggers l).pc = .casDurable nd md dl)
    (hlost : s.DurableEpoch ≠ dl) :
    Logs c h s l (s.setLogger l ((s.loggers l).goto (.storeDurable nd)))
  | writeEpoch {nd md : Nat} (hpc : (s.loggers l).pc = .writeEpoch nd md) :
    Logs c h s l { s.setLogger l ((s.loggers l).goto (.storeDurable nd)) with pepoch := some md }
  | storeDurable {nd : Nat} (hpc : (s.loggers l).pc = .storeDurable nd) :
    Logs c h s l (s.setLogger l { s.loggers l with ThLocalDurableEpoch := nd, pc := .waitDeq })

theorem logs_of_log {c : Config} {h : Hash K β D} {s s' : State K β D} {l : Nat}
    (hs : log c h s l = some s') : Logs c h s l s' := by
  unfold log at hs
  cases hpc : (s.loggers l).pc with
  | findMin logging i m =>
    simp only [hpc] at hs
    split at hs
    · rename_i hend
      obtain rfl := Option.some.inj hs
      exact .minFound hpc hend
    · rename_i w hw
      obtain rfl := Option.some.inj hs
      exact .minLoaded hpc hw
  | queueMin logging m =>
    simp only [hpc] at hs
    cases logging with
    | true =>
      rw [if_pos rfl] at hs
      split at hs
      · rename_i hzero
        obtain rfl := Option.some.inj hs
        exact .queueZero hpc hzero
      · rename_i hne
        obtain rfl := Option.some.inj hs
        exact .queueDeq hpc hne
    | false =>
      obtain rfl := Option.some.inj hs
      exact .queueIdle hpc
  | writeLog e rest =>
    simp only [hpc] at hs
    cases rest with
    | nil =>
      obtain rfl := Option.some.inj hs
      exact .logEnd hpc
    | cons b rest =>
      dsimp only at hs
      split at hs
      · rename_i hempty
        obtain rfl := Option.some.inj hs
        exact .logEmpty hpc hempty
      · rename_i hfull
        obtain rfl := Option.some.inj hs
        exact .writeLog hpc hfull
  | writeTail e rest =>
    simp only [hpc] at hs
    cases rest with
    | nil => cases hs
    | cons b rest =>
      obtain rfl := Option.some.inj hs
      exact .writeTail hpc
  | returnBuffer e rest =>
    simp only [hpc] at hs
    cases rest with
    | nil => cases hs
    | cons b rest =>
      obtain rfl := Option.some.inj hs
      exact .returnBuffer hpc
  | sendNid e =>
    simp only [hpc] at hs
    split at hs
    · rename_i hnone
      obtain rfl := Option.some.inj hs
      exact .sendNothing hpc (hnone.imp_right Or.inl)
    rename_i hsome
    obtain ⟨hne, hsome⟩ := not_or.mp hsome
    split at hs
    · rename_i hlt
      obtain rfl := Option.some.inj hs
      exact .sendRaise hpc hne hsome hlt
    · rename_i hge
      obtain rfl := Option.some.inj hs
      exact .sendNothing hpc (Or.inr (Or.inr (Nat.not_lt.mp hge)))
  | checkDurable nd i md =>
    simp only [hpc] at hs
    split at hs
    · rename_i hend
      obtain rfl := Option.some.inj hs
      exact .checkedLoggers hpc hend
    · rename_i hmore
      obtain rfl := Option.some.inj hs
      exact .checkDurable hpc (Nat.not_le.mp hmore)
  | loadDurable nd md =>
    simp only [hpc] at hs
    split at hs
    · rename_i hlt
      obtain rfl := Option.some.inj hs
      exact .loadDurable hpc hlt
    · rename_i hge
      obtain rfl := Option.some.inj hs
      exact .loadReached hpc (Nat.not_lt.mp hge)
  | casDurable nd md dl =>
    simp only [hpc] at hs
    split at hs
    · rename_i heq
      obtain rfl := Option.some.inj hs
      exact .casDurable hpc heq
    · rename_i hlost
      obtain rfl := Option.some.inj hs
      exact .casLost hpc hlost
  | waitDeq | deq | checkFirst | writeEpoch | storeDurable =>
    simp only [hpc] at hs
    obtain rfl := Option.some.inj hs
    constructor
    exact hpc

/-- A step is one of a worker or of a logger, before any assertion has failed. -/
inductive Steps (c : Config) (h : Hash K β D) (s : State K β D) : Action K β → State K β D → Prop
  | work {w : Nat} {op : Op K β} {s' : State K β D} (hrun : s.halted = false)
    (hw : w < c.num_worker_threads) (hs : work c s w op = some s') : Steps c h s (.work w op) s'
  | log {l : Nat} {s' : State K β D} (hrun : s.halted = false) (hl : l < c.num_logger_threads)
    (hs : log c h s l = some s') : Steps c h s (.log l) s'

theorem steps_of_step {c : Config} {h : Hash K β D} {s s' : State K β D} {a : Action K β}
    (hs : step c h s a = some s') : Steps c h s a s' := by
  unfold step at hs
  split at hs
  · cases hs
  rename_i hrun
  have hrun : s.halted = false := by simpa using hrun
  cases a with
  | work w op =>
    obtain ⟨hw, hs⟩ := Option.ite_none_right_eq_some.mp hs
    exact .work hrun hw hs
  | log l =>
    obtain ⟨hl, hs⟩ := Option.ite_none_right_eq_some.mp hs
    exact .log hrun hl hs

end Cassa.SiloCC.Durability

import Cassa.SiloCC.Element

/-!
# Log records, log buffers and the log format

`silo_log.h`, `silo_log_buffer.cpp` and the record types of `silo_r`. A hash is a
value of an arbitrary type `D`; `Hash` collects the three uses of SHA-256: over the
fields of a record, over the concatenated record hashes of a log set, and over the
pass phrase that starts every chain.
-/

namespace Cassa.SiloCC

variable {K β D : Type}

structure LogRecord (K β : Type) where
  tid_ : TIDword
  op_type_ : OpType
  key_ : K
  value_ : β
  deriving DecidableEq, Repr

/-- A buffer of the pool of worker `pool_`. Of a notification id only the TID that
`LogBufferPool::push` writes into it is kept. -/
structure LogBuffer (K β : Type) where
  pool_ : Nat
  log_set_ : List (LogRecord K β)
  nid_set_ : List TIDword
  min_epoch_ : Nat
  max_epoch_ : Nat
  deriving DecidableEq

namespace LogBuffer

/-- `~(uint64_t)0` -/
def noEpoch : Nat := 2 ^ 64 - 1

def new (w : Nat) : LogBuffer K β := ⟨w, [], [], noEpoch, 0⟩

def log_set_size_ (b : LogBuffer K β) : Nat := b.log_set_.length

def empty (b : LogBuffer K β) : Bool := b.nid_set_.isEmpty

def logRecords (tid : TIDword) (write_set : List (WriteElement K β)) : List (LogRecord K β) :=
  write_set.map fun we => ⟨tid, we.op_, we.key_, we.new_value_body_⟩

/-- `push`, up to its last line `assert(min_epoch_ == max_epoch_)`. A read-only
transaction returns before the epochs are tracked. -/
def push (b : LogBuffer K β) (tid : TIDword) (write_set : List (WriteElement K β)) : LogBuffer K β :=
  let b := { b with log_set_ := b.log_set_ ++ logRecords tid write_set }
  if write_set.isEmpty then b
  else
    let epoch := tid.epoch.toNat
    { b with
      nid_set_ := b.nid_set_ ++ [tid]
      min_epoch_ := if epoch < b.min_epoch_ then epoch else b.min_epoch_
      max_epoch_ := if epoch > b.max_epoch_ then epoch else b.max_epoch_ }

/-- What the assertion at the end of `push` checks. -/
def pushAsserts (b : LogBuffer K β) (tid : TIDword) (write_set : List (WriteElement K β)) : Bool :=
  write_set.isEmpty || (b.push tid write_set).min_epoch_ == (b.push tid write_set).max_epoch_

/-- The buffer after `write` has cleared the records and `pass_nid` the rest. -/
def recycled (b : LogBuffer K β) : LogBuffer K β :=
  let b := { b with log_set_ := [] }
  if b.nid_set_.isEmpty then b
  else { b with nid_set_ := [], min_epoch_ := noEpoch, max_epoch_ := 0 }

end LogBuffer

def OpType_to_string : OpType → String
  | .NONE => "NONE"
  | .READ => "READ"
  | .WRITE => "WRITE"
  | .INSERT => "INSERT"
  | .DELETE => "DELETE"
  | .SCAN => "SCAN"
  | .RMW => "RMW"

structure RecoveryLogRecord (K β D : Type) where
  tid_ : TIDword
  operation_type_ : String
  key_ : K
  value_ : β
  prev_hash_ : D
  deriving DecidableEq

/-- One JSON document of a log file. -/
structure JsonLog (K β D : Type) where
  prev_epoch_hash : D
  log_record_num : Nat
  log_set : List (RecoveryLogRecord K β D)
  deriving DecidableEq

structure Hash (K β D : Type) where
  /-- `calculate_hash(tid, op_type, key, value)` -/
  record : TIDword → String → K → β → D
  /-- `calculate_hash` over the concatenated record hashes -/
  set : List D → D
  /-- `compute_hash_from_string(PASSPHRASE)` -/
  passphrase : D
  /-- the empty string, where a hash is expected -/
  emptyString : D

namespace Hash

/-- `compute_hash_from_log_record`: everything but `prev_hash_`. -/
def ofRecord (h : Hash K β D) (r : RecoveryLogRecord K β D) : D :=
  h.record r.tid_ r.operation_type_ r.key_ r.value_

/-- The hash of an epoch's log set. -/
def ofSet (h : Hash K β D) (rs : List (RecoveryLogRecord K β D)) : D := h.set (rs.map h.ofRecord)

end Hash

/-- `json_log_set.front()["prev_hash"] = current_hash` -/
def setFrontHash (d : D) : List (RecoveryLogRecord K β D) → List (RecoveryLogRecord K β D)
  | [] => []
  | r :: rs => { r with prev_hash_ := d } :: rs

/-- One turn of the loop of `create_json_log`. -/
def addRecord (h : Hash K β D) (json_log_set : List (RecoveryLogRecord K β D)) (r : LogRecord K β) :
    List (RecoveryLogRecord K β D) :=
  let op := OpType_to_string r.op_type_
  let current_hash := h.record r.tid_ op r.key_ r.value_
  let prev_hash := match json_log_set.getLast? with
    | some last => h.ofRecord last
    | none => current_hash
  setFrontHash current_hash (json_log_set ++ [⟨r.tid_, op, r.key_, r.value_, prev_hash⟩])

def create_json_log (h : Hash K β D) (prev_epoch_hash : D) (log_set_ : List (LogRecord K β)) :
    JsonLog K β D where
  prev_epoch_hash := prev_epoch_hash
  log_record_num := log_set_.length
  log_set := log_set_.foldl (addRecord h) []

/-- The `current_epoch_hash` that `create_json_log` hands back. -/
def currentEpochHash (h : Hash K β D) (log_set_ : List (LogRecord K β)) : D :=
  h.set (log_set_.map fun r => h.record r.tid_ (OpType_to_string r.op_type_) r.key_ r.value_)

/-- The fields of an entry that its hash covers. -/
def RecoveryLogRecord.fields (r : RecoveryLogRecord K β D) : TIDword × String × K × β :=
  (r.tid_, r.operation_type_, r.key_, r.value_)

def LogRecord.fields (r : LogRecord K β) : TIDword × String × K × β :=
  (r.tid_, OpType_to_string r.op_type_, r.key_, r.value_)

/-- The document has an entry for the record. -/
def JsonLog.Has (doc : JsonLog K β D) (r : LogRecord K β) : Prop :=
  r.fields ∈ doc.log_set.map RecoveryLogRecord.fields

theorem fields_setFrontHash (d : D) (rs : List (RecoveryLogRecord K β D)) :
    (setFrontHash d rs).map RecoveryLogRecord.fields = rs.map RecoveryLogRecord.fields := by
  cases rs <;> rfl

theorem fields_addRecord (h : Hash K β D) (rs : List (RecoveryLogRecord K β D)) (r : LogRecord K β) :
    (addRecord h rs r).map RecoveryLogRecord.fields =
      rs.map RecoveryLogRecord.fields ++ [r.fields] := by
  unfold addRecord
  rw [fields_setFrontHash, List.map_append]
  rfl

theorem fields_foldl_addRecord (h : Hash K β D) (log_set_ : List (LogRecord K β))
    (rs : List (RecoveryLogRecord K β D)) :
    (log_set_.foldl (addRecord h) rs).map RecoveryLogRecord.fields =
      rs.map RecoveryLogRecord.fields ++ log_set_.map LogRecord.fields := by
  induction log_set_ generalizing rs with
  | nil => simp
  | cons r log_set_ ih =>
    rw [List.foldl_cons, ih, fields_addRecord, List.append_assoc, List.map_cons]
    rfl

/-- The entries of a document are the records it was made from, in order. -/
theorem fields_create_json_log (h : Hash K β D) (prev : D) (log_set_ : List (LogRecord K β)) :
    (create_json_log h prev log_set_).log_set.map RecoveryLogRecord.fields =
      log_set_.map LogRecord.fields :=
  fields_foldl_addRecord h log_set_ []

theorem has_create_json_log (h : Hash K β D) (prev : D) {log_set_ : List (LogRecord K β)}
    {r : LogRecord K β} (hr : r ∈ log_set_) : (create_json_log h prev log_set_).Has r := by
  unfold JsonLog.Has
  rw [fields_create_json_log]
  exact List.mem_map_of_mem hr

end Cassa.SiloCC

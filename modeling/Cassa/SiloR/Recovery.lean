import Cassa.SiloCC.LogBuffer
import Mathlib.Data.List.Sort
import Mathlib.Logic.Function.Basic

/-!
# Recovery

`RecoveryManager::execute_recovery` with the two integrity checks of
`RecoveryLogArchive`. A log file is the sequence of its length-prefixed records; a
record is empty, does not parse, or is a document. The index that is rebuilt is a
parameter: Masstree, or the mapping it stands for. Recovery returns 0, returns -1, or
dies: on an exception of the JSON parser, on the null pointer that `get_value` hands to a
`WRITE` of a missing key, or within the index.
-/

namespace Cassa.SiloR

open Cassa.SiloCC

variable {K β D σ : Type}

inductive LogFrame (K β D : Type) where
  /-- of length zero -/
  | empty
  | malformed
  | log (json_data : JsonLog K β D)
  deriving DecidableEq

/-- `pepoch.seal`: the durable epoch, then a slot for each log file, `none` where it
holds no hexadecimal string. -/
structure EpochFile (D : Type) where
  durable_epoch_ : Nat
  last_log_hashes : List (Option D)

structure RecoveryLogSet (K β D : Type) where
  epoch_ : BitVec 32
  log_record_num_ : Nat
  prev_epoch_hash_ : D
  log_sets_ : List (RecoveryLogRecord K β D)
  deriving DecidableEq

/-- The epoch is that of the last record; there is none in an empty set. -/
def deserialize_log_set (json_data : JsonLog K β D) : Option (RecoveryLogSet K β D) :=
  match json_data.log_set.getLast? with
  | none => none
  | some r => some
    { epoch_ := r.tid_.epoch
      log_record_num_ := json_data.log_record_num
      prev_epoch_hash_ := json_data.prev_epoch_hash
      log_sets_ := json_data.log_set }

/-- How recovery ends without success. -/
inductive Stop where
  | minusOne
  | fault
  deriving DecidableEq

structure RecoveryLogArchive (K β D : Type) where
  /-- the file from `current_read_offset_` on -/
  unread : List (LogFrame K β D)
  is_all_data_read_ : Bool
  is_last_log_hash_matched : Bool
  previous_epoch_hash_ : D
  buffered_log_records_ : List (RecoveryLogSet K β D)
  last_log_hash_ : Option D
  /-- the log sets that `verify_epoch_level_integrity` has accepted -/
  accepted : List (RecoveryLogSet K β D)

def RecoveryLogArchive.new (h : Hash K β D) (last_log_hash : Option D) (file : List (LogFrame K β D)) :
    RecoveryLogArchive K β D where
  unread := file
  is_all_data_read_ := last_log_hash.isNone
  is_last_log_hash_matched := last_log_hash.isNone
  previous_epoch_hash_ := h.passphrase
  buffered_log_records_ := []
  last_log_hash_ := last_log_hash
  accepted := []

/-- The first record of the first buffered set is of a later epoch. -/
def frontIsLater (current_epoch : Nat) (buffered : List (RecoveryLogSet K β D)) : Bool :=
  match buffered.head?.bind fun set => set.log_sets_.head? with
  | none => false
  | some r => decide (r.tid_.epoch.toNat > current_epoch)

/-- The inner loop over one log file. -/
def readAhead (current_epoch : Nat) :
    List (LogFrame K β D) → RecoveryLogArchive K β D → Except Stop (RecoveryLogArchive K β D)
  | [], a => .ok { a with unread := [] }
  | f :: rest, a =>
    if a.is_all_data_read_ || frontIsLater current_epoch a.buffered_log_records_ then
      .ok { a with unread := f :: rest }
    else match f with
      | .empty => .ok { a with unread := rest, is_all_data_read_ := true }
      | .malformed => .error (if a.is_last_log_hash_matched then .minusOne else .fault)
      | .log json_data =>
        if a.is_last_log_hash_matched then .error .minusOne
        else match deserialize_log_set json_data with
          | none => .error .fault
          | some set =>
            readAhead current_epoch rest
              { a with buffered_log_records_ := a.buffered_log_records_ ++ [set] }

/-- The list is read, not the field. -/
theorem readAhead_unread (c : Nat) (fs fs' : List (LogFrame K β D)) (a : RecoveryLogArchive K β D) :
    readAhead c fs { a with unread := fs' } = readAhead c fs a := by
  induction fs generalizing a with
  | nil => rfl
  | cons f fs ih =>
    unfold readAhead
    split
    · rfl
    split
    · rfl
    · rfl
    split
    · rfl
    split
    · rfl
    exact ih { a with buffered_log_records_ := a.buffered_log_records_ ++ [_] }

section
variable [DecidableEq D]

/-- The loop of `verify_log_level_integrity`. -/
def prevHashesMatch (h : Hash K β D) : D → List (RecoveryLogRecord K β D) → Bool
  | _, [] => true
  | prev_hash, r :: rs => decide (r.prev_hash_ = prev_hash) && prevHashesMatch h (h.ofRecord r) rs

def verify_log_level_integrity (h : Hash K β D) (log_sets_ : List (RecoveryLogRecord K β D)) : Bool :=
  match log_sets_ with
  | [r] => decide (r.prev_hash_ = h.ofRecord r)
  | rs =>
    match rs.getLast? with
    | none => true
    | some last => prevHashesMatch h (h.ofRecord last) rs

/-- The archive after the set has passed: the chain moves on. -/
def RecoveryLogArchive.accept (h : Hash K β D) (a : RecoveryLogArchive K β D)
    (set : RecoveryLogSet K β D) : RecoveryLogArchive K β D :=
  let current_hash := h.ofSet set.log_sets_
  { a with
    previous_epoch_hash_ := current_hash
    is_last_log_hash_matched := a.is_last_log_hash_matched || decide (some current_hash = a.last_log_hash_)
    accepted := a.accepted ++ [set] }

def allRecords (sets : List (RecoveryLogSet K β D)) : List (RecoveryLogRecord K β D) :=
  sets.flatMap fun set => set.log_sets_

/-- The loop of `verify_epoch_level_integrity` over the buffer `skipped ++ todo`, with
the iterator at the first set of `todo`. A set that passes is erased, after the records
of the whole buffer have been appended to `records`. -/
def verifyLoop (h : Hash K β D) (current_epoch : BitVec 32) (skipped : List (RecoveryLogSet K β D)) :
    List (RecoveryLogSet K β D) → RecoveryLogArchive K β D → List (RecoveryLogRecord K β D) →
    Except Stop (RecoveryLogArchive K β D × List (RecoveryLogRecord K β D))
  | [], a, records => .ok ({ a with buffered_log_records_ := skipped }, records)
  | set :: todo, a, records =>
    if set.epoch_ = current_epoch then
      if set.prev_epoch_hash_ ≠ a.previous_epoch_hash_ then .error .minusOne
      else if verify_log_level_integrity h set.log_sets_ = false then .error .minusOne
      else verifyLoop h current_epoch skipped todo (a.accept h set)
        (records ++ allRecords (skipped ++ set :: todo))
    else verifyLoop h current_epoch (skipped ++ [set]) todo a records

def verify_epoch_level_integrity (h : Hash K β D) (current_epoch : BitVec 32)
    (a : RecoveryLogArchive K β D) (records : List (RecoveryLogRecord K β D)) :
    Except Stop (RecoveryLogArchive K β D × List (RecoveryLogRecord K β D)) :=
  verifyLoop h current_epoch [] a.buffered_log_records_ a records

end

/-- What `std::sort` by `tid_` promises; records with one TID may come in any order. -/
structure TidSort (K β D : Type) where
  sort : List (RecoveryLogRecord K β D) → List (RecoveryLogRecord K β D)
  perm : ∀ rs, (sort rs).Perm rs
  sorted : ∀ rs, (sort rs).Pairwise fun a b => a.tid_.obj_ ≤ b.tid_.obj_

/-- What recovery calls of the index; `none` where a call does not come back. -/
structure Index (K β σ : Type) where
  new : σ
  /-- `insert_value` of a `Value` with the body -/
  insert_value : σ → K → β → Option σ
  /-- the body of the record that `get_value` finds -/
  get_value : σ → K → Option (Option β)
  /-- the assignment to the body of that record -/
  assign : σ → K → β → Option σ
  remove_value : σ → K → Option σ

def Index.orFault : Option σ → Except Stop σ
  | none => .error .fault
  | some m => .ok m

theorem Index.orFault_eq_ok {o : Option σ} {m : σ} : Index.orFault o = .ok m ↔ o = some m := by
  cases o <;> simp [Index.orFault]

section
variable (index : Index K β σ)

def replayRecord (m : σ) (r : RecoveryLogRecord K β D) : Except Stop σ :=
  if r.operation_type_ = "INSERT" then Index.orFault (index.insert_value m r.key_ r.value_)
  else if r.operation_type_ = "WRITE" then Index.orFault (index.assign m r.key_ r.value_)
  else if r.operation_type_ = "DELETE" then Index.orFault (index.remove_value m r.key_)
  else .error .minusOne

def replayAll (rs : List (RecoveryLogRecord K β D)) (m : σ) : Except Stop σ :=
  rs.foldlM (replayRecord index) m

theorem replayAll_append (rs rs' : List (RecoveryLogRecord K β D)) (m : σ) :
    replayAll index (rs ++ rs') m = (replayAll index rs m).bind (replayAll index rs') := by
  unfold replayAll
  rw [List.foldlM_append]
  rfl

end

/-- The index as the mapping it stands for: `insert_value` leaves a key that exists alone, and an
assignment needs a record. -/
def mapIndex [DecidableEq K] : Index K β (K → Option β) where
  new _ := none
  insert_value m k v := some (Function.update m k (some ((m k).getD v)))
  get_value m k := some (m k)
  assign m k v := (m k).map fun _ => Function.update m k (some v)
  remove_value m k := some (Function.update m k none)

structure RecoveryManager (K β D σ : Type) where
  current_epoch_ : Nat
  log_archives_ : List (RecoveryLogArchive K β D)
  masstree : σ

/-- One archive after the other, collecting the records of the current epoch. -/
def verifyAll [DecidableEq D] (h : Hash K β D) (current_epoch : BitVec 32) :
    List (RecoveryLogArchive K β D) → List (RecoveryLogRecord K β D) →
    Except Stop (List (RecoveryLogArchive K β D) × List (RecoveryLogRecord K β D))
  | [], records => .ok ([], records)
  | a :: as, records => do
    let (a, records) ← verify_epoch_level_integrity h current_epoch a records
    let (as, records) ← verifyAll h current_epoch as records
    return (a :: as, records)

section
variable [DecidableEq D] (h : Hash K β D) (sort : TidSort K β D) (index : Index K β σ)

/-- The body of the loop over the epochs. `verify_epoch_level_integrity` takes the
epoch as 32 bits. -/
def recoverEpoch (s : RecoveryManager K β D σ) : Except Stop (RecoveryManager K β D σ) := do
  let archives ← s.log_archives_.mapM fun a => readAhead s.current_epoch_ a.unread a
  let (archives, records) ← verifyAll h (BitVec.ofNat 32 s.current_epoch_) archives []
  let m ← replayAll index (sort.sort records) s.masstree
  return ⟨s.current_epoch_ + 1, archives, m⟩

def recoverEpochs : Nat → RecoveryManager K β D σ → Except Stop (RecoveryManager K β D σ)
  | 0, s => .ok s
  | n + 1, s => do
    let s ← recoverEpoch h sort index s
    recoverEpochs n s

def RecoveryManager.start (pepoch : EpochFile D) (files : Nat → List (LogFrame K β D)) :
    RecoveryManager K β D σ where
  current_epoch_ := 0
  log_archives_ := pepoch.last_log_hashes.mapIdx fun i last => .new h last (files i)
  masstree := index.new

/-- `.ok` where the source returns 0. The loop runs from epoch 0 to the durable one. -/
def execute_recovery (pepoch : EpochFile D) (files : Nat → List (LogFrame K β D)) :
    Except Stop (RecoveryManager K β D σ) := do
  let s ← recoverEpochs h sort index (pepoch.durable_epoch_ + 1) (.start h index pepoch files)
  if s.log_archives_.all fun a => a.is_last_log_hash_matched then return s else throw .minusOne

end

/-- A step of a run that does not stop. -/
theorem bind_eq_ok {ε α γ : Type} {x : Except ε α} {f : α → Except ε γ} {c : γ} :
    x >>= f = .ok c ↔ ∃ a, x = .ok a ∧ f a = .ok c := by
  cases x with
  | error err => simp [bind, Except.bind]
  | ok a => simp [bind, Except.bind]

end Cassa.SiloR

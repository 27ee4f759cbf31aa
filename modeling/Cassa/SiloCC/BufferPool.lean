import Cassa.SiloCC.OneEpoch
import Mathlib.Data.List.Nodup

/-!
# The way of a log buffer

The buffers themselves, behind their pointers. A worker fills its current buffer,
publishes it to the queue of its logger and takes another one from its pool; the logger
dequeues the buffers in the order of their epochs, writes each of them, passes its
notification ids on and returns it to the pool it came from. Write sets, TIDs and the
flag for a new epoch are arbitrary. `assert(min_epoch_ == max_epoch_)` is left out: with it
there are only fewer runs.
-/

namespace Cassa.SiloCC.BufferPool

open Cassa.SiloCC.Durability (BUFFER_NUM MAX_BUFFERED_LOG_ENTRIES Fresh)
open Cassa.Lib.Runs

variable {K β D : Type}

/-- `&buffer_[index]` of the pool of a worker. -/
structure BufferPtr where
  worker : Nat
  index : Nat
  deriving DecidableEq

structure LogBufferPool (K β : Type) where
  current_buffer_ : Option BufferPtr
  pool_ : List BufferPtr
  /-- the arguments of a `push` that waits for a buffer -/
  pushing : Option (TIDword × List (WriteElement K β))

/-- What `Logger::logging` does next with the first buffer of its vector. -/
inductive Stage where
  | write
  | pass_nid
  | return_buffer
  deriving DecidableEq

/-- Each document of `logfile_` and each notification id that has been passed on is kept with
the worker whose buffer it was in. -/
structure Logger (K β D : Type) where
  /-- the buffers with their keys, in the order of the keys and, under one key, of arrival -/
  queue_ : List (Nat × BufferPtr)
  log_buffer_vec : List BufferPtr
  stage : Stage
  prev_epoch_hash_ : D
  logfile_ : List (Nat × JsonLog K β D)
  nid_buffer_ : List (Nat × TIDword)

structure State (K β D : Type) where
  buffer_ : BufferPtr → LogBuffer K β
  pools : Nat → LogBufferPool K β
  loggers : Nat → Logger K β D
  /-- the records of the write sets that each worker has pushed, in commit order -/
  pushed : Nat → List (LogRecord K β)
  /-- the notification ids that went with them -/
  nids : Nat → List TIDword

inductive Action (K β : Type) where
  | is_ready (w : Nat)
  | push (w : Nat) (tid : TIDword) (write_set : List (WriteElement K β)) (new_epoch_begins : Bool)
  /-- a `push` finds a buffer -/
  | ready (w : Nat)
  | publish (w : Nat)
  | deq (l : Nat)
  | write (l : Nat)
  | pass_nid (l : Nat)
  | return_buffer (l : Nat)

def State.setPool (s : State K β D) (w : Nat) (t : LogBufferPool K β) : State K β D :=
  { s with pools := Function.update s.pools w t }

def State.setLogger (s : State K β D) (l : Nat) (g : Logger K β D) : State K β D :=
  { s with loggers := Function.update s.loggers l g }

def State.setBuffer (s : State K β D) (p : BufferPtr) (b : LogBuffer K β) : State K β D :=
  { s with buffer_ := Function.update s.buffer_ p b }

/-- The worker has pushed the write set. -/
def State.note (s : State K β D) (w : Nat) (tid : TIDword) (write_set : List (WriteElement K β)) :
    State K β D :=
  { s with
    pushed := Function.update s.pushed w (s.pushed w ++ LogBuffer.logRecords tid write_set)
    nids := Function.update s.nids w (s.nids w ++ if write_set.isEmpty then [] else [tid]) }

/-- `queue_[x->min_epoch_].emplace_back(x)` -/
def enq (x : Nat × BufferPtr) : List (Nat × BufferPtr) → List (Nat × BufferPtr)
  | [] => [x]
  | y :: ys => if x.1 < y.1 then x :: y :: ys else y :: enq x ys

def is_ready (t : LogBufferPool K β) : LogBufferPool K β :=
  match t.current_buffer_ with
  | some _ => t
  | none =>
    match t.pool_.getLast? with
    | some p => { t with current_buffer_ := some p, pool_ := t.pool_.dropLast }
    | none => t

/-- The end of `publish`, with the buffer `p` at hand. -/
def publish (logger_thid_ : Nat → Nat) (s : State K β D) (w : Nat) (p : BufferPtr) : State K β D :=
  if (s.buffer_ p).empty then s
  else
    let l := logger_thid_ w
    (s.setLogger l { s.loggers l with
      queue_ := enq ((s.buffer_ p).min_epoch_, p) (s.loggers l).queue_ }).setPool w
        { s.pools w with current_buffer_ := none }

/-- `LogBuffer::write` -/
def write (h : Hash K β D) (s : State K β D) (l : Nat) (p : BufferPtr) : State K β D :=
  let g := s.loggers l
  let b := s.buffer_ p
  if b.log_set_size_ = 0 then
    s.setLogger l { g with prev_epoch_hash_ := h.emptyString, stage := .pass_nid }
  else
    (s.setLogger l { g with
      prev_epoch_hash_ := currentEpochHash h b.log_set_
      logfile_ := g.logfile_ ++ [(b.pool_, create_json_log h g.prev_epoch_hash_ b.log_set_)]
      stage := .pass_nid }).setBuffer p { b with log_set_ := [] }

/-- `LogBuffer::pass_nid` -/
def pass_nid (s : State K β D) (l : Nat) (p : BufferPtr) : State K β D :=
  let g := s.loggers l
  let b := s.buffer_ p
  if b.nid_set_.isEmpty then s.setLogger l { g with stage := .return_buffer }
  else
    (s.setLogger l { g with
      nid_buffer_ := g.nid_buffer_ ++ b.nid_set_.map fun tid => (b.pool_, tid)
      stage := .return_buffer }).setBuffer p
        { b with nid_set_ := [], min_epoch_ := LogBuffer.noEpoch, max_epoch_ := 0 }

def step (logger_thid_ : Nat → Nat) (h : Hash K β D) (s : State K β D) :
    Action K β → Option (State K β D)
  | .is_ready w =>
    match (s.pools w).pushing with
    | none => some (s.setPool w (is_ready (s.pools w)))
    | some _ => none
  | .push w tid write_set new_epoch_begins =>
    match (s.pools w).pushing, (s.pools w).current_buffer_ with
    | none, some p =>
      let full := (s.buffer_ p).log_set_size_ > MAX_BUFFERED_LOG_ENTRIES ∨ new_epoch_begins = true
      let s := if full then publish logger_thid_ s w p else s
      some (s.setPool w { s.pools w with pushing := some (tid, write_set) })
    | _, _ => none
  | .ready w =>
    match (s.pools w).pushing, (is_ready (s.pools w)).current_buffer_ with
    | some (tid, write_set), some p =>
      some (((s.setPool w { is_ready (s.pools w) with pushing := none }).setBuffer p
        ((s.buffer_ p).push tid write_set)).note w tid write_set)
    | _, _ => none
  | .publish w =>
    match (s.pools w).pushing, (is_ready (s.pools w)).current_buffer_ with
    | none, some p => some (publish logger_thid_ (s.setPool w (is_ready (s.pools w))) w p)
    | _, _ => none
  | .deq l =>
    match (s.loggers l).log_buffer_vec with
    | [] => some (s.setLogger l { s.loggers l with
        queue_ := [], log_buffer_vec := (s.loggers l).queue_.map Prod.snd, stage := .write })
    | _ :: _ => none
  | .write l =>
    match (s.loggers l).stage, (s.loggers l).log_buffer_vec with
    | .write, p :: _ => some (write h s l p)
    | _, _ => none
  | .pass_nid l =>
    match (s.loggers l).stage, (s.loggers l).log_buffer_vec with
    | .pass_nid, p :: _ => some (pass_nid s l p)
    | _, _ => none
  | .return_buffer l =>
    match (s.loggers l).stage, (s.loggers l).log_buffer_vec with
    | .return_buffer, p :: rest =>
      let w := (s.buffer_ p).pool_
      some ((s.setLogger l { s.loggers l with log_buffer_vec := rest, stage := .write }).setPool w
        { s.pools w with pool_ := (s.pools w).pool_ ++ [p] })
    | _, _ => none

/-- The buffers of a worker. -/
def ptrs (w : Nat) : List BufferPtr := (List.range BUFFER_NUM).map (BufferPtr.mk w)

/-- The pools as their constructor leaves them, and loggers that have not written anything. -/
structure Init (h : Hash K β D) (s : State K β D) : Prop where
  buffers : ∀ p, s.buffer_ p = .new p.worker
  pools : ∀ w, s.pools w = ⟨some ⟨w, 0⟩, (ptrs w).tail, none⟩
  loggers : ∀ l, s.loggers l = ⟨[], [], .write, h.passphrase, [], []⟩
  pushed : ∀ w, s.pushed w = []
  nids : ∀ w, s.nids w = []

/-- The buffers of the worker among these. -/
def ofWorker (w : Nat) (ps : List BufferPtr) : List BufferPtr := ps.filter (·.worker = w)

/-- The buffers of a worker that are not in its pool, in the order in which they are written. -/
def stream (logger_thid_ : Nat → Nat) (s : State K β D) (w : Nat) : List BufferPtr :=
  ofWorker w (s.loggers (logger_thid_ w)).log_buffer_vec ++
    (ofWorker w ((s.loggers (logger_thid_ w)).queue_.map Prod.snd) ++
      (s.pools w).current_buffer_.toList)

/-- The entries of the log file that come from the worker. -/
def fileOf (g : Logger K β D) (w : Nat) : List (TIDword × String × K × β) :=
  (g.logfile_.filter (·.1 = w)).flatMap fun x => x.2.log_set.map RecoveryLogRecord.fields

/-- The notification ids that have been passed on. -/
def passedOf (g : Logger K β D) (w : Nat) : List TIDword :=
  (g.nid_buffer_.filter (·.1 = w)).map Prod.snd

def recordsIn (s : State K β D) (ps : List BufferPtr) : List (TIDword × String × K × β) :=
  ps.flatMap fun p => (s.buffer_ p).log_set_.map LogRecord.fields

def nidsIn (s : State K β D) (ps : List BufferPtr) : List TIDword :=
  ps.flatMap fun p => (s.buffer_ p).nid_set_

/-- The epochs of the records never decrease. -/
def InEpochOrder (rs : List (LogRecord K β)) : Prop :=
  rs.Pairwise fun r r' => r.tid_.epoch.toNat ≤ r'.tid_.epoch.toNat

/-- A buffer with records, queued under the epoch `e` of one of them. -/
structure Loaded (b : LogBuffer K β) (e : Nat) : Prop where
  records : ∃ r ∈ b.log_set_, r.tid_.epoch.toNat = e
  nids : b.nid_set_ ≠ []
  min : b.min_epoch_ = e

/-- The buffers of one worker. -/
structure WorkerInv (logger_thid_ : Nat → Nat) (s : State K β D) (w : Nat) : Prop where
  owned : (stream logger_thid_ s w ++ (s.pools w).pool_).Perm (ptrs w)
  pool : ∀ p ∈ (s.pools w).pool_, Fresh (s.buffer_ p)
  current : ∀ p, (s.pools w).current_buffer_ = some p →
    Fresh (s.buffer_ p) ∨ Loaded (s.buffer_ p) (s.buffer_ p).min_epoch_
  records : (fileOf (s.loggers (logger_thid_ w)) w ++ recordsIn s (stream logger_thid_ s w)).Perm
    ((s.pushed w).map LogRecord.fields)
  order : InEpochOrder (s.pushed w) →
    fileOf (s.loggers (logger_thid_ w)) w ++ recordsIn s (stream logger_thid_ s w) =
      (s.pushed w).map LogRecord.fields
  nids : (passedOf (s.loggers (logger_thid_ w)) w ++ nidsIn s (stream logger_thid_ s w)).Perm (s.nids w)

/-- The buffers that a logger has dequeued. -/
def VecOk (buffer_ : BufferPtr → LogBuffer K β) : Stage → List BufferPtr → Prop
  | .write, ps => ∀ p ∈ ps, ∃ e, Loaded (buffer_ p) e
  | .pass_nid, p :: ps => ((buffer_ p).log_set_ = [] ∧ (buffer_ p).nid_set_ ≠ []) ∧
      ∀ p ∈ ps, ∃ e, Loaded (buffer_ p) e
  | .return_buffer, p :: ps => Fresh (buffer_ p) ∧ ∀ p ∈ ps, ∃ e, Loaded (buffer_ p) e
  | _, [] => False

structure LoggerInv (logger_thid_ : Nat → Nat) (s : State K β D) (l : Nat) : Prop where
  queue : ∀ x ∈ (s.loggers l).queue_, logger_thid_ x.2.worker = l ∧ Loaded (s.buffer_ x.2) x.1
  sorted : (s.loggers l).queue_.Pairwise fun x y => x.1 ≤ y.1
  home : ∀ p ∈ (s.loggers l).log_buffer_vec, logger_thid_ p.worker = l
  file : ∀ x ∈ (s.loggers l).logfile_, logger_thid_ x.1 = l
  passed : ∀ x ∈ (s.loggers l).nid_buffer_, logger_thid_ x.1 = l
  vec : VecOk s.buffer_ (s.loggers l).stage (s.loggers l).log_buffer_vec

structure PoolInv (logger_thid_ : Nat → Nat) (s : State K β D) : Prop where
  owner : ∀ p, (s.buffer_ p).pool_ = p.worker
  workers : ∀ w, WorkerInv logger_thid_ s w
  loggers : ∀ l, LoggerInv logger_thid_ s l

section
variable {logger_thid_ : Nat → Nat} {s s' : State K β D} {w l : Nat} {p : BufferPtr}

theorem mem_ptrs : p ∈ ptrs w ↔ p.worker = w ∧ p.index < BUFFER_NUM := by
  obtain ⟨v, i⟩ := p
  simp only [ptrs, List.mem_map, List.mem_range, BufferPtr.mk.injEq]
  constructor
  · rintro ⟨j, hj, rfl, rfl⟩
    exact ⟨rfl, hj⟩
  · rintro ⟨rfl, hi⟩
    exact ⟨i, hi, rfl, rfl⟩

theorem nodup_ptrs (w : Nat) : (ptrs w).Nodup :=
  List.Nodup.map (fun _ _ h => (BufferPtr.mk.inj h).2) List.nodup_range

theorem WorkerInv.nodup (h : WorkerInv logger_thid_ s w) :
    (stream logger_thid_ s w ++ (s.pools w).pool_).Nodup :=
  h.owned.nodup_iff.mpr (nodup_ptrs w)

/-- The buffers of a worker are nobody else's. -/
theorem WorkerInv.worker (h : WorkerInv logger_thid_ s w)
    (hp : p ∈ stream logger_thid_ s w ∨ p ∈ (s.pools w).pool_) : p.worker = w :=
  (mem_ptrs.mp (h.owned.mem_iff.mp (List.mem_append.mpr hp))).1

theorem mem_stream : p ∈ stream logger_thid_ s w ↔
    (p ∈ (s.loggers (logger_thid_ w)).log_buffer_vec ∧ p.worker = w) ∨
      (p ∈ (s.loggers (logger_thid_ w)).queue_.map Prod.snd ∧ p.worker = w) ∨
      (s.pools w).current_buffer_ = some p := by
  simp [stream, ofWorker]

theorem recordsIn_congr {ps : List BufferPtr} (h : ∀ p ∈ ps, s'.buffer_ p = s.buffer_ p) :
    recordsIn s' ps = recordsIn s ps :=
  List.flatMap_congr fun p hp => by rw [h p hp]

theorem nidsIn_congr {ps : List BufferPtr} (h : ∀ p ∈ ps, s'.buffer_ p = s.buffer_ p) :
    nidsIn s' ps = nidsIn s ps :=
  List.flatMap_congr fun p hp => by rw [h p hp]

/-- A step that has nothing to do with the worker. -/
theorem WorkerInv.congr (h : WorkerInv logger_thid_ s w)
    (hstream : stream logger_thid_ s' w = stream logger_thid_ s w) (hpool : s'.pools w = s.pools w)
    (hbuf : ∀ p, p.worker = w → s'.buffer_ p = s.buffer_ p)
    (hfile : fileOf (s'.loggers (logger_thid_ w)) w = fileOf (s.loggers (logger_thid_ w)) w)
    (hpassed : passedOf (s'.loggers (logger_thid_ w)) w = passedOf (s.loggers (logger_thid_ w)) w)
    (hpushed : s'.pushed w = s.pushed w) (hnids : s'.nids w = s.nids w) :
    WorkerInv logger_thid_ s' w := by
  have hmem : ∀ p ∈ stream logger_thid_ s w, s'.buffer_ p = s.buffer_ p := fun p hp =>
    hbuf p (h.worker (Or.inl hp))
  refine ⟨?_, ?_, ?_, ?_, ?_, ?_⟩
  · rw [hstream, hpool]
    exact h.owned
  · intro p hp
    rw [hpool] at hp
    rw [hbuf p (h.worker (Or.inr hp))]
    exact h.pool p hp
  · intro p hp
    rw [hpool] at hp
    rw [hmem p (mem_stream.mpr (Or.inr (Or.inr hp)))]
    exact h.current p hp
  · rw [hfile, hstream, recordsIn_congr hmem, hpushed]
    exact h.records
  · rw [hfile, hstream, recordsIn_congr hmem, hpushed]
    exact h.order
  · rw [hpassed, hstream, nidsIn_congr hmem, hnids]
    exact h.nids

theorem VecOk.congr {buf buf' : BufferPtr → LogBuffer K β} {stage : Stage} {ps : List BufferPtr}
    (h : VecOk buf stage ps) (hbuf : ∀ p ∈ ps, buf' p = buf p) : VecOk buf' stage ps := by
  have htail : ∀ p ∈ ps, (∃ e, Loaded (buf p) e) → ∃ e, Loaded (buf' p) e := by
    intro p hp hload
    rw [hbuf p hp]
    exact hload
  cases stage with
  | write => exact fun p hp => htail p hp (h p hp)
  | pass_nid =>
    cases ps with
    | nil => exact h
    | cons p ps =>
      refine ⟨?_, fun q hq => htail q (List.mem_cons_of_mem _ hq) (h.2 q hq)⟩
      rw [hbuf p List.mem_cons_self]
      exact h.1
  | return_buffer =>
    cases ps with
    | nil => exact h
    | cons p ps =>
      refine ⟨?_, fun q hq => htail q (List.mem_cons_of_mem _ hq) (h.2 q hq)⟩
      rw [hbuf p List.mem_cons_self]
      exact h.1

/-- A step that has nothing to do with the logger's buffers. -/
theorem LoggerInv.congr (h : LoggerInv logger_thid_ s l)
    (hqueue : (s'.loggers l).queue_ = (s.loggers l).queue_)
    (hvec : (s'.loggers l).log_buffer_vec = (s.loggers l).log_buffer_vec)
    (hstage : (s'.loggers l).stage = (s.loggers l).stage)
    (hfile : (s'.loggers l).logfile_ = (s.loggers l).logfile_)
    (hpassed : (s'.loggers l).nid_buffer_ = (s.loggers l).nid_buffer_)
    (hbuf : ∀ p, p ∈ (s.loggers l).queue_.map Prod.snd ∨ p ∈ (s.loggers l).log_buffer_vec →
      s'.buffer_ p = s.buffer_ p) : LoggerInv logger_thid_ s' l := by
  refine ⟨?_, by rw [hqueue]; exact h.sorted, by rw [hvec]; exact h.home, by rw [hfile]; exact h.file,
    by rw [hpassed]; exact h.passed, ?_⟩
  · intro x hx
    rw [hqueue] at hx
    obtain ⟨hhome, hloaded⟩ := h.queue x hx
    rw [hbuf x.2 (Or.inl (List.mem_map_of_mem hx))]
    exact ⟨hhome, hloaded⟩
  · rw [hvec, hstage]
    exact h.vec.congr fun p hp => hbuf p (Or.inr hp)

/-- A step that moves the worker's buffers but does not change them; they stay in their order as
long as the epochs of the worker never decrease. -/
theorem WorkerInv.reorder (h : WorkerInv logger_thid_ s w)
    (hperm : (stream logger_thid_ s' w).Perm (stream logger_thid_ s w))
    (horder : InEpochOrder (s.pushed w) → stream logger_thid_ s' w = stream logger_thid_ s w)
    (hpool : (s'.pools w).pool_ = (s.pools w).pool_)
    (hcur : ∀ p, (s'.pools w).current_buffer_ = some p → (s.pools w).current_buffer_ = some p)
    (hbuf : s'.buffer_ = s.buffer_)
    (hfile : fileOf (s'.loggers (logger_thid_ w)) w = fileOf (s.loggers (logger_thid_ w)) w)
    (hpassed : passedOf (s'.loggers (logger_thid_ w)) w = passedOf (s.loggers (logger_thid_ w)) w)
    (hpushed : s'.pushed w = s.pushed w) (hnids : s'.nids w = s.nids w) :
    WorkerInv logger_thid_ s' w := by
  have hrecordsIn : ∀ ps, recordsIn s' ps = recordsIn s ps := fun ps =>
    recordsIn_congr fun p _ => by rw [hbuf]
  have hnidsIn : ∀ ps, nidsIn s' ps = nidsIn s ps := fun ps => nidsIn_congr fun p _ => by rw [hbuf]
  refine ⟨?_, ?_, ?_, ?_, ?_, ?_⟩
  · rw [hpool]
    exact (hperm.append_right _).trans h.owned
  · rw [hpool, hbuf]
    exact h.pool
  · intro p hp
    rw [hbuf]
    exact h.current p (hcur p hp)
  · rw [hfile, hpushed, hrecordsIn]
    exact ((hperm.flatMap_right _).append_left _).trans h.records
  · rw [hfile, hpushed, hrecordsIn]
    intro hord
    rw [horder hord]
    exact h.order hord
  · rw [hpassed, hnids, hnidsIn]
    exact ((hperm.flatMap_right _).append_left _).trans h.nids

/-- Nobody looks at the arguments of a waiting `push`. -/
theorem PoolInv.setPushing (h : PoolInv logger_thid_ s) {t : LogBufferPool K β}
    (hcur : t.current_buffer_ = (s.pools w).current_buffer_) (hpool : t.pool_ = (s.pools w).pool_) :
    PoolInv logger_thid_ (s.setPool w t) := by
  have hpools : ∀ v, ((s.setPool w t).pools v).current_buffer_ = (s.pools v).current_buffer_ ∧
      ((s.setPool w t).pools v).pool_ = (s.pools v).pool_ := by
    intro v
    by_cases hv : v = w
    · subst hv
      simp [State.setPool, hcur, hpool]
    · simp [State.setPool, hv]
  refine ⟨h.owner, fun v => ?_, fun l => (h.loggers l).congr rfl rfl rfl rfl rfl fun _ _ => rfl⟩
  have hstream : stream logger_thid_ (s.setPool w t) v = stream logger_thid_ s v := by
    unfold stream
    rw [(hpools v).1]
    rfl
  refine (h.workers v).reorder (.of_eq hstream) (fun _ => hstream) (hpools v).2 ?_ rfl rfl rfl rfl rfl
  intro p hp
  rw [(hpools v).1] at hp
  exact hp

theorem stream_setPool_of_ne {v : Nat} (hv : v ≠ w) (t : LogBufferPool K β) :
    stream logger_thid_ (s.setPool w t) v = stream logger_thid_ s v := by
  simp [stream, State.setPool, hv]

theorem pools_setPool_of_ne {v : Nat} (hv : v ≠ w) (t : LogBufferPool K β) :
    (s.setPool w t).pools v = s.pools v := by
  simp [State.setPool, hv]

@[simp] theorem pools_setPool_self (t : LogBufferPool K β) : (s.setPool w t).pools w = t := by
  simp [State.setPool]

theorem setPool_setPool (t t' : LogBufferPool K β) : (s.setPool w t).setPool w t' = s.setPool w t' := by
  simp [State.setPool]

theorem recordsIn_append (ps qs : List BufferPtr) :
    recordsIn s (ps ++ qs) = recordsIn s ps ++ recordsIn s qs :=
  List.flatMap_append

theorem nidsIn_append (ps qs : List BufferPtr) : nidsIn s (ps ++ qs) = nidsIn s ps ++ nidsIn s qs :=
  List.flatMap_append

theorem recordsIn_cons (p : BufferPtr) (ps : List BufferPtr) :
    recordsIn s (p :: ps) = (s.buffer_ p).log_set_.map LogRecord.fields ++ recordsIn s ps :=
  List.flatMap_cons

theorem nidsIn_cons (p : BufferPtr) (ps : List BufferPtr) :
    nidsIn s (p :: ps) = (s.buffer_ p).nid_set_ ++ nidsIn s ps :=
  List.flatMap_cons

theorem recordsIn_singleton (p : BufferPtr) :
    recordsIn s [p] = (s.buffer_ p).log_set_.map LogRecord.fields := by
  simp [recordsIn]

theorem nidsIn_singleton (p : BufferPtr) : nidsIn s [p] = (s.buffer_ p).nid_set_ := by
  simp [nidsIn]

/-- The last buffer of the pool becomes the current one. -/
theorem PoolInv.is_ready (h : PoolInv logger_thid_ s) (w : Nat) :
    PoolInv logger_thid_ (s.setPool w (BufferPool.is_ready (s.pools w))) := by
  unfold BufferPool.is_ready
  split
  · exact h.setPushing rfl rfl
  rename_i hcur
  split
  swap
  · exact h.setPushing rfl rfl
  rename_i p hlast
  refine ⟨h.owner, fun v => ?_, fun l => (h.loggers l).congr rfl rfl rfl rfl rfl fun _ _ => rfl⟩
  have hv := h.workers v
  by_cases hvw : v = w
  swap
  · exact hv.congr (stream_setPool_of_ne hvw _) (pools_setPool_of_ne hvw _) (fun _ _ => rfl) rfl rfl rfl
      rfl
  subst hvw
  have hpool : (s.pools v).pool_ = (s.pools v).pool_.dropLast ++ [p] :=
    (List.dropLast_append_getLast? p hlast).symm
  have hfresh : Fresh (s.buffer_ p) := hv.pool p (List.mem_of_getLast? hlast)
  have hstream : stream logger_thid_ (s.setPool v { s.pools v with
      current_buffer_ := some p, pool_ := (s.pools v).pool_.dropLast }) v =
      stream logger_thid_ s v ++ [p] := by
    simp [stream, State.setPool, hcur]
  have hrecords : recordsIn s [p] = [] := by rw [recordsIn_singleton, hfresh.records, List.map_nil]
  have hnids : nidsIn s [p] = [] := by rw [nidsIn_singleton, hfresh.nids]
  refine ⟨?_, ?_, ?_, ?_, ?_, ?_⟩
  · rw [hstream, pools_setPool_self]
    have howned := hv.owned
    rw [hpool] at howned
    refine List.Perm.trans ?_ howned
    rw [List.append_assoc]
    exact List.perm_append_comm.append_left _
  · rw [pools_setPool_self]
    exact fun q hq => hv.pool q (List.dropLast_subset _ hq)
  · rw [pools_setPool_self]
    intro q hq
    obtain rfl := Option.some.inj hq
    exact Or.inl hfresh
  · rw [hstream]
    change (_ ++ recordsIn s (_ ++ [p])).Perm _
    rw [recordsIn_append, hrecords, List.append_nil]
    exact hv.records
  · rw [hstream]
    change _ → _ ++ recordsIn s (_ ++ [p]) = _
    rw [recordsIn_append, hrecords, List.append_nil]
    exact hv.order
  · rw [hstream]
    change (_ ++ nidsIn s (_ ++ [p])).Perm _
    rw [nidsIn_append, hnids, List.append_nil]
    exact hv.nids

/-- What the logger of a worker has of its buffers. -/
def handed (logger_thid_ : Nat → Nat) (s : State K β D) (w : Nat) : List BufferPtr :=
  ofWorker w (s.loggers (logger_thid_ w)).log_buffer_vec ++
    ofWorker w ((s.loggers (logger_thid_ w)).queue_.map Prod.snd)

theorem stream_of_current (hcur : (s.pools w).current_buffer_ = some p) :
    stream logger_thid_ s w = handed logger_thid_ s w ++ [p] := by
  rw [stream, hcur, Option.toList_some, handed, List.append_assoc]

theorem PoolInv.current_worker (h : PoolInv logger_thid_ s)
    (hcur : (s.pools w).current_buffer_ = some p) : p.worker = w :=
  (h.workers w).worker (Or.inl (mem_stream.mpr (Or.inr (Or.inr hcur))))

/-- The current buffer of a worker is neither handed to a logger nor in the pool. -/
theorem WorkerInv.current_not_mem (h : WorkerInv logger_thid_ s w)
    (hcur : (s.pools w).current_buffer_ = some p) :
    p ∉ handed logger_thid_ s w ∧ p ∉ (s.pools w).pool_ := by
  have hnodup := h.nodup
  rw [stream_of_current hcur] at hnodup
  refine ⟨fun hp => ?_, fun hp => ?_⟩
  · rw [List.append_assoc, List.nodup_append] at hnodup
    exact hnodup.2.2 p hp p (by simp) rfl
  · rw [List.nodup_append] at hnodup
    exact hnodup.2.2 p (by simp) p hp rfl

theorem PoolInv.handed_of_mem (h : PoolInv logger_thid_ s)
    (hp : p ∈ (s.loggers l).queue_.map Prod.snd ∨ p ∈ (s.loggers l).log_buffer_vec) :
    logger_thid_ p.worker = l ∧ p ∈ handed logger_thid_ s p.worker := by
  have hhome : logger_thid_ p.worker = l := by
    rcases hp with hp | hp
    · obtain ⟨x, hx, rfl⟩ := List.mem_map.mp hp
      exact ((h.loggers l).queue x hx).1
    · exact (h.loggers l).home p hp
  refine ⟨hhome, ?_⟩
  simp only [handed, ofWorker, List.mem_append, List.mem_filter, decide_true, and_true, hhome]
  exact hp.symm

theorem log_set_push (b : LogBuffer K β) (tid : TIDword) (write_set : List (WriteElement K β)) :
    (b.push tid write_set).log_set_ = b.log_set_ ++ LogBuffer.logRecords tid write_set := by
  unfold LogBuffer.push
  dsimp only
  split <;> rfl

theorem nid_set_push (b : LogBuffer K β) (tid : TIDword) (write_set : List (WriteElement K β)) :
    (b.push tid write_set).nid_set_ = b.nid_set_ ++ if write_set.isEmpty then [] else [tid] := by
  unfold LogBuffer.push
  dsimp only
  split <;> simp

theorem loaded_push {b : LogBuffer K β} (tid : TIDword) (write_set : List (WriteElement K β))
    (h : Fresh b ∨ Loaded b b.min_epoch_) :
    Fresh (b.push tid write_set) ∨ Loaded (b.push tid write_set) (b.push tid write_set).min_epoch_ := by
  cases write_set with
  | nil =>
    rw [Durability.push_nil]
    exact h
  | cons we ws =>
    have hlt : tid.epoch.toNat < LogBuffer.noEpoch := by
      have := tid.epoch.isLt
      simp only [LogBuffer.noEpoch]
      omega
    refine Or.inr ⟨?_, by simp [LogBuffer.push], rfl⟩
    have hnew : ∃ r ∈ LogBuffer.logRecords tid (we :: ws), r.tid_.epoch.toNat = tid.epoch.toNat :=
      ⟨_, List.mem_cons_self, rfl⟩
    have hmin : (b.push tid (we :: ws)).min_epoch_ = tid.epoch.toNat ∨
        (¬ tid.epoch.toNat < b.min_epoch_ ∧ (b.push tid (we :: ws)).min_epoch_ = b.min_epoch_) := by
      simp only [LogBuffer.push, List.isEmpty_cons, Bool.false_eq_true, if_false]
      split
      · exact Or.inl rfl
      · exact Or.inr ⟨‹_›, rfl⟩
    rw [log_set_push]
    rcases hmin with hmin | ⟨hge, hmin⟩
    · obtain ⟨r, hr, he⟩ := hnew
      exact ⟨r, List.mem_append.mpr (Or.inr hr), by rw [hmin, he]⟩
    · rcases h with h | h
      · rw [h.min] at hge
        exact absurd hlt hge
      · obtain ⟨r, hr, he⟩ := h.records
        exact ⟨r, List.mem_append.mpr (Or.inl hr), by rw [hmin, he]⟩

theorem State.note_pushed (tid : TIDword) (write_set : List (WriteElement K β)) :
    (s.note w tid write_set).pushed w = s.pushed w ++ LogBuffer.logRecords tid write_set :=
  Function.update_self ..

theorem State.note_nids (tid : TIDword) (write_set : List (WriteElement K β)) :
    (s.note w tid write_set).nids w = s.nids w ++ if write_set.isEmpty then [] else [tid] :=
  Function.update_self ..

/-- `LogBuffer::push` on the current buffer. -/
theorem PoolInv.push (h : PoolInv logger_thid_ s) (hcur : (s.pools w).current_buffer_ = some p)
    (tid : TIDword) (write_set : List (WriteElement K β)) :
    PoolInv logger_thid_
      ((s.setBuffer p ((s.buffer_ p).push tid write_set)).note w tid write_set) := by
  have hw := h.current_worker hcur
  have hother : ∀ q, q ≠ p → (s.setBuffer p ((s.buffer_ p).push tid write_set)).buffer_ q =
      s.buffer_ q := fun q hq => by simp [State.setBuffer, hq]
  have hself : (s.setBuffer p ((s.buffer_ p).push tid write_set)).buffer_ p =
      (s.buffer_ p).push tid write_set := by simp [State.setBuffer]
  refine ⟨?_, ?_, ?_⟩
  · intro q
    change ((s.setBuffer p _).buffer_ q).pool_ = q.worker
    by_cases hq : q = p
    · subst hq
      rw [hself, ← h.owner q, LogBuffer.push]
      dsimp only
      split <;> rfl
    · rw [hother q hq]
      exact h.owner q
  · intro v
    have hv := h.workers v
    by_cases hvw : v = w
    swap
    · refine hv.congr rfl rfl (fun q hq => hother q ?_) rfl rfl (Function.update_of_ne hvw _ _)
        (Function.update_of_ne hvw _ _)
      rintro rfl
      exact hvw (hq.symm.trans hw)
    subst hvw
    obtain ⟨hhanded, hpool⟩ := hv.current_not_mem hcur
    have hkeep : ∀ q ∈ handed logger_thid_ s v,
        (s.setBuffer p ((s.buffer_ p).push tid write_set)).buffer_ q = s.buffer_ q := by
      intro q hq
      refine hother q ?_
      rintro rfl
      exact hhanded hq
    have hrecords : recordsIn (s.setBuffer p ((s.buffer_ p).push tid write_set))
        (stream logger_thid_ s v) = recordsIn s (stream logger_thid_ s v) ++
          (LogBuffer.logRecords tid write_set).map LogRecord.fields := by
      rw [stream_of_current hcur, recordsIn_append, recordsIn_singleton, recordsIn_append,
        recordsIn_singleton, hself, log_set_push, List.map_append, recordsIn_congr hkeep,
        List.append_assoc]
    have hnids : nidsIn (s.setBuffer p ((s.buffer_ p).push tid write_set))
        (stream logger_thid_ s v) = nidsIn s (stream logger_thid_ s v) ++
          if write_set.isEmpty then [] else [tid] := by
      rw [stream_of_current hcur, nidsIn_append, nidsIn_singleton, nidsIn_append, nidsIn_singleton,
        hself, nid_set_push, nidsIn_congr hkeep, List.append_assoc]
    refine ⟨hv.owned, ?_, ?_, ?_, ?_, ?_⟩
    · intro q hq
      change Fresh ((s.setBuffer p ((s.buffer_ p).push tid write_set)).buffer_ q)
      rw [hother q (fun hqp => hpool (hqp ▸ hq))]
      exact hv.pool q hq
    · intro q hq
      obtain rfl : p = q := Option.some.inj (hcur.symm.trans hq)
      have hpush := loaded_push tid write_set (hv.current p hcur)
      rw [← hself] at hpush
      exact hpush
    · change (_ ++ recordsIn (s.setBuffer p _) (stream logger_thid_ s v)).Perm _
      rw [hrecords, State.note_pushed, List.map_append, ← List.append_assoc]
      exact hv.records.append_right _
    · change _ → _ ++ recordsIn (s.setBuffer p _) (stream logger_thid_ s v) = _
      rw [State.note_pushed, hrecords, List.map_append, ← List.append_assoc]
      intro hord
      exact congrArg (· ++ _) (hv.order (List.pairwise_append.mp hord).1)
    · change (_ ++ nidsIn (s.setBuffer p _) (stream logger_thid_ s v)).Perm _
      rw [hnids, State.note_nids, ← List.append_assoc]
      exact hv.nids.append_right _
  · intro l
    refine (h.loggers l).congr rfl rfl rfl rfl rfl fun q hq => hother q ?_
    rintro rfl
    have hmem := (h.handed_of_mem hq).2
    rw [hw] at hmem
    exact ((h.workers w).current_not_mem hcur).1 hmem

theorem perm_enq (x : Nat × BufferPtr) (q : List (Nat × BufferPtr)) : (enq x q).Perm (x :: q) := by
  induction q with
  | nil => exact .refl _
  | cons y q ih =>
    unfold enq
    split
    · exact .refl _
    · exact (ih.cons y).trans (.swap x y q)

theorem mem_enq {x y : Nat × BufferPtr} {q : List (Nat × BufferPtr)} :
    y ∈ enq x q ↔ y = x ∨ y ∈ q := by
  rw [(perm_enq x q).mem_iff, List.mem_cons]

theorem sorted_enq (x : Nat × BufferPtr) {q : List (Nat × BufferPtr)}
    (h : q.Pairwise fun x y => x.1 ≤ y.1) : (enq x q).Pairwise fun x y => x.1 ≤ y.1 := by
  induction q with
  | nil => exact List.pairwise_singleton ..
  | cons y q ih =>
    obtain ⟨hy, hq⟩ := List.pairwise_cons.mp h
    unfold enq
    split
    · rename_i hlt
      refine List.pairwise_cons.mpr ⟨?_, h⟩
      intro z hz
      rcases List.mem_cons.mp hz with rfl | hz
      · exact hlt.le
      · exact hlt.le.trans (hy z hz)
    · rename_i hge
      refine List.pairwise_cons.mpr ⟨?_, ih hq⟩
      intro z hz
      rcases mem_enq.mp hz with rfl | hz
      · exact not_lt.mp hge
      · exact hy z hz

/-- The buffers of the other workers stay in their order. -/
theorem ofWorker_enq_of_ne {v e : Nat} (hv : p.worker ≠ v) (q : List (Nat × BufferPtr)) :
    ofWorker v ((enq (e, p) q).map Prod.snd) = ofWorker v (q.map Prod.snd) := by
  induction q with
  | nil => simp [enq, ofWorker, hv]
  | cons y q ih =>
    unfold enq
    split
    · simp [ofWorker, hv]
    · simp only [ofWorker, List.map_cons, List.filter_cons] at ih ⊢
      rw [ih]

/-- The buffer comes after those of its worker if they have no later epoch. -/
theorem ofWorker_enq {e : Nat} (hp : p.worker = w) {q : List (Nat × BufferPtr)}
    (hsorted : q.Pairwise fun x y => x.1 ≤ y.1) (hkeys : ∀ y ∈ q, y.2.worker = w → y.1 ≤ e) :
    ofWorker w ((enq (e, p) q).map Prod.snd) = ofWorker w (q.map Prod.snd) ++ [p] := by
  induction q with
  | nil => simp [enq, ofWorker, hp]
  | cons y q ih =>
    obtain ⟨hy, hq⟩ := List.pairwise_cons.mp hsorted
    unfold enq
    split
    · rename_i hlt
      have hnone : ofWorker w ((y :: q).map Prod.snd) = [] := by
        refine List.filter_eq_nil_iff.mpr ?_
        intro z hz
        obtain ⟨x, hx, rfl⟩ := List.mem_map.mp hz
        simp only [decide_eq_true_eq]
        intro hxw
        have hxe := hkeys x hx hxw
        rcases List.mem_cons.mp hx with rfl | hx
        · exact absurd hxe (not_le.mpr hlt)
        · exact absurd hxe (not_le.mpr (lt_of_lt_of_le hlt (hy x hx)))
      rw [hnone]
      rw [ofWorker, List.map_cons, List.filter_cons_of_pos (by simpa using hp)]
      exact congrArg (p :: ·) hnone
    · have hrest := ih hq fun z hz => hkeys z (List.mem_cons_of_mem _ hz)
      simp only [ofWorker, List.map_cons, List.filter_cons] at hrest ⊢
      rw [hrest]
      split <;> rfl

theorem pairwise_fields {rs : List (LogRecord K β)} (h : InEpochOrder rs) :
    (rs.map LogRecord.fields).Pairwise fun a b => a.1.epoch.toNat ≤ b.1.epoch.toNat :=
  List.pairwise_map.mpr h

/-- Under one worker, what was pushed earlier is queued under no later epoch. -/
theorem PoolInv.key_le (h : PoolInv logger_thid_ s) (hcur : (s.pools w).current_buffer_ = some p)
    {e : Nat} (hload : Loaded (s.buffer_ p) e) (hord : InEpochOrder (s.pushed w)) {x : Nat × BufferPtr}
    (hx : x ∈ (s.loggers (logger_thid_ w)).queue_) (hxw : x.2.worker = w) : x.1 ≤ e := by
  have hw := h.workers w
  have heq := hw.order hord
  rw [stream_of_current hcur, recordsIn_append, ← List.append_assoc] at heq
  have hpair := pairwise_fields hord
  rw [← heq, List.pairwise_append] at hpair
  obtain ⟨r, hr, hre⟩ := ((h.loggers _).queue x hx).2.records
  obtain ⟨r', hr', hre'⟩ := hload.records
  have hq : x.2 ∈ handed logger_thid_ s w := by
    have hmem := (h.handed_of_mem (Or.inl (List.mem_map_of_mem hx))).2
    rw [hxw] at hmem
    exact hmem
  have hfirst : r.fields ∈ fileOf (s.loggers (logger_thid_ w)) w ++
      recordsIn s (handed logger_thid_ s w) :=
    List.mem_append.mpr (Or.inr (List.mem_flatMap.mpr ⟨x.2, hq, List.mem_map_of_mem hr⟩))
  have hsecond : r'.fields ∈ recordsIn s [p] := by
    rw [recordsIn_singleton]
    exact List.mem_map_of_mem hr'
  have hle := hpair.2.2 _ hfirst _ hsecond
  rw [← hre, ← hre']
  exact hle

@[simp] theorem loggers_setLogger_self (g : Logger K β D) : (s.setLogger l g).loggers l = g := by
  simp [State.setLogger]

theorem loggers_setLogger_of_ne {k : Nat} (hk : k ≠ l) (g : Logger K β D) :
    (s.setLogger l g).loggers k = s.loggers k := by
  simp [State.setLogger, hk]

/-- A step of a logger that does not touch the buffers, documents and notification ids that the
worker has with it. -/
theorem WorkerInv.setLogger (h : WorkerInv logger_thid_ s w) {g : Logger K β D}
    (hvec : ofWorker w g.log_buffer_vec = ofWorker w (s.loggers l).log_buffer_vec)
    (hqueue : ofWorker w (g.queue_.map Prod.snd) = ofWorker w ((s.loggers l).queue_.map Prod.snd))
    (hfile : fileOf g w = fileOf (s.loggers l) w) (hpassed : passedOf g w = passedOf (s.loggers l) w) :
    WorkerInv logger_thid_ (s.setLogger l g) w := by
  by_cases hl : logger_thid_ w = l
  · subst hl
    refine h.congr ?_ rfl (fun _ _ => rfl) ?_ ?_ rfl rfl
    · unfold stream
      rw [loggers_setLogger_self, hvec, hqueue]
      rfl
    · rw [loggers_setLogger_self, hfile]
    · rw [loggers_setLogger_self, hpassed]
  · refine h.congr ?_ rfl (fun _ _ => rfl) ?_ ?_ rfl rfl
    · unfold stream
      rw [loggers_setLogger_of_ne hl]
      rfl
    · rw [loggers_setLogger_of_ne hl]
    · rw [loggers_setLogger_of_ne hl]

theorem PoolInv.publish (h : PoolInv logger_thid_ s) (hcur : (s.pools w).current_buffer_ = some p) :
    PoolInv logger_thid_ (BufferPool.publish logger_thid_ s w p) := by
  unfold BufferPool.publish
  split
  · exact h
  rename_i hne
  have hp := h.current_worker hcur
  have hload : Loaded (s.buffer_ p) (s.buffer_ p).min_epoch_ := by
    rcases (h.workers w).current p hcur with hfresh | hload
    · exact absurd (by simp [LogBuffer.empty, hfresh.nids]) hne
    · exact hload
  dsimp only
  set g : Logger K β D := { s.loggers (logger_thid_ w) with
    queue_ := enq ((s.buffer_ p).min_epoch_, p) (s.loggers (logger_thid_ w)).queue_ } with hg
  have hset : ((s.setLogger (logger_thid_ w) g).setPool w
      { s.pools w with current_buffer_ := none }).loggers (logger_thid_ w) = g :=
    loggers_setLogger_self g
  refine ⟨h.owner, ?_, ?_⟩
  · intro v
    by_cases hvw : v = w
    swap
    · have hv := (h.workers v).setLogger (g := g) rfl
        (ofWorker_enq_of_ne (fun hpv => hvw (hpv.symm.trans hp)) _) rfl rfl
      exact hv.congr (stream_setPool_of_ne hvw _) (pools_setPool_of_ne hvw _) (fun _ _ => rfl) rfl rfl
        rfl rfl
    subst hvw
    have hbefore : stream logger_thid_ s v = ofWorker v g.log_buffer_vec ++
        (ofWorker v ((s.loggers (logger_thid_ v)).queue_.map Prod.snd) ++ [p]) := by
      rw [stream, hcur, Option.toList_some]
    have hafter : stream logger_thid_ ((s.setLogger (logger_thid_ v) g).setPool v
        { s.pools v with current_buffer_ := none }) v =
          ofWorker v g.log_buffer_vec ++ ofWorker v (g.queue_.map Prod.snd) := by
      rw [stream, hset, pools_setPool_self, Option.toList_none, List.append_nil]
    refine (h.workers v).reorder ?_ ?_ ?_ ?_ rfl ?_ ?_ rfl rfl
    · rw [hafter, hbefore]
      refine List.Perm.append_left _ ((((perm_enq _ _).map Prod.snd).filter _).trans ?_)
      rw [List.map_cons, List.filter_cons_of_pos (by simpa using hp)]
      exact (List.perm_append_singleton p _).symm
    · intro hord
      rw [hafter, hbefore, hg, ofWorker_enq hp (h.loggers _).sorted fun y hy hyw =>
        h.key_le hcur hload hord hy hyw]
    · rw [pools_setPool_self]
    · rw [pools_setPool_self]
      intro q hq
      cases hq
    · rw [hset]
      rfl
    · rw [hset]
      rfl
  · intro l
    by_cases hl : l = logger_thid_ w
    swap
    · have hsame : ((s.setLogger (logger_thid_ w) g).setPool w
          { s.pools w with current_buffer_ := none }).loggers l = s.loggers l :=
        loggers_setLogger_of_ne hl g
      exact (h.loggers l).congr (by rw [hsame]) (by rw [hsame]) (by rw [hsame]) (by rw [hsame])
        (by rw [hsame]) fun _ _ => rfl
    subst hl
    have hl := h.loggers (logger_thid_ w)
    refine ⟨?_, ?_, ?_, ?_, ?_, ?_⟩
    · rw [hset]
      intro x hx
      rcases mem_enq.mp hx with rfl | hx
      · exact ⟨congrArg _ hp, hload⟩
      · exact hl.queue x hx
    · rw [hset]
      exact sorted_enq _ hl.sorted
    · rw [hset]
      exact hl.home
    · rw [hset]
      exact hl.file
    · rw [hset]
      exact hl.passed
    · rw [hset]
      exact hl.vec

/-- `queue_.deq()` when nothing is left of the last one. -/
theorem PoolInv.deq (h : PoolInv logger_thid_ s) (hvec : (s.loggers l).log_buffer_vec = []) :
    PoolInv logger_thid_ (s.setLogger l { s.loggers l with
      queue_ := [], log_buffer_vec := (s.loggers l).queue_.map Prod.snd, stage := .write }) := by
  refine ⟨h.owner, ?_, ?_⟩
  · intro w
    by_cases hl : logger_thid_ w = l
    · subst hl
      have hstream : stream logger_thid_ (s.setLogger (logger_thid_ w)
          { s.loggers (logger_thid_ w) with
            queue_ := []
            log_buffer_vec := (s.loggers (logger_thid_ w)).queue_.map Prod.snd, stage := .write }) w =
          stream logger_thid_ s w := by
        simp [stream, State.setLogger, hvec, ofWorker]
      exact (h.workers w).reorder (.of_eq hstream) (fun _ => hstream) rfl (fun _ hp => hp) rfl
        (by rw [loggers_setLogger_self]; rfl) (by rw [loggers_setLogger_self]; rfl) rfl rfl
    · have hsame := loggers_setLogger_of_ne (s := s) hl { s.loggers l with
        queue_ := [], log_buffer_vec := (s.loggers l).queue_.map Prod.snd, stage := .write }
      refine (h.workers w).congr ?_ rfl (fun _ _ => rfl) (by rw [hsame]) (by rw [hsame]) rfl rfl
      unfold stream
      rw [hsame]
      rfl
  · intro k
    by_cases hk : k = l
    · subst hk
      have hl := h.loggers k
      refine ⟨?_, ?_, ?_, ?_, ?_, ?_⟩
      · rw [loggers_setLogger_self]
        intro x hx
        cases hx
      · rw [loggers_setLogger_self]
        exact List.Pairwise.nil
      · rw [loggers_setLogger_self]
        intro p hp
        obtain ⟨x, hx, rfl⟩ := List.mem_map.mp hp
        exact (hl.queue x hx).1
      · rw [loggers_setLogger_self]
        exact hl.file
      · rw [loggers_setLogger_self]
        exact hl.passed
      · rw [loggers_setLogger_self]
        intro p hp
        obtain ⟨x, hx, rfl⟩ := List.mem_map.mp hp
        exact ⟨x.1, (hl.queue x hx).2⟩
    · have hsame := loggers_setLogger_of_ne (s := s) hk { s.loggers l with
        queue_ := [], log_buffer_vec := (s.loggers l).queue_.map Prod.snd, stage := .write }
      exact (h.loggers k).congr (by rw [hsame]) (by rw [hsame]) (by rw [hsame]) (by rw [hsame])
        (by rw [hsame]) fun _ _ => rfl

/-- The first buffer of a logger's vector is the first one of its worker. -/
theorem stream_of_head {rest : List BufferPtr}
    (hvec : (s.loggers (logger_thid_ p.worker)).log_buffer_vec = p :: rest) :
    stream logger_thid_ s p.worker = p :: (ofWorker p.worker rest ++
      (ofWorker p.worker ((s.loggers (logger_thid_ p.worker)).queue_.map Prod.snd) ++
        (s.pools p.worker).current_buffer_.toList)) := by
  simp [stream, hvec, ofWorker]

/-- The first buffer of a logger's vector is nowhere else. -/
theorem PoolInv.head_not_mem (h : PoolInv logger_thid_ s) {rest : List BufferPtr}
    (hvec : (s.loggers l).log_buffer_vec = p :: rest) :
    p ∉ rest ∧ p ∉ (s.loggers l).queue_.map Prod.snd ∧ p ∉ (s.pools p.worker).pool_ ∧
      (s.pools p.worker).current_buffer_ ≠ some p := by
  have hhome : logger_thid_ p.worker = l := (h.loggers l).home p (by simp [hvec])
  subst hhome
  have hnodup := (h.workers p.worker).nodup
  rw [stream_of_head hvec, List.cons_append, List.nodup_cons] at hnodup
  have hnot := hnodup.1
  simp only [List.mem_append, not_or, Option.mem_toList, ofWorker, List.mem_filter, decide_true,
    and_true] at hnot
  exact ⟨hnot.1.1, hnot.1.2.1, hnot.2, hnot.1.2.2⟩

theorem buffer_setBuffer_self (b : LogBuffer K β) : (s.setBuffer p b).buffer_ p = b := by
  simp [State.setBuffer]

theorem buffer_setBuffer_of_ne {q : BufferPtr} (hq : q ≠ p) (b : LogBuffer K β) :
    (s.setBuffer p b).buffer_ q = s.buffer_ q := by
  simp [State.setBuffer, hq]

/-- A step of a logger on the first buffer of its vector, which moves records and notification
ids from there to the file and to the notification buffer. -/
theorem PoolInv.setHead (h : PoolInv logger_thid_ s) {rest : List BufferPtr}
    (hvec : (s.loggers l).log_buffer_vec = p :: rest) {g : Logger K β D} {b : LogBuffer K β}
    (hgqueue : g.queue_ = (s.loggers l).queue_) (hgvec : g.log_buffer_vec = p :: rest)
    (hpool : b.pool_ = p.worker) (hok : VecOk (s.setBuffer p b).buffer_ g.stage (p :: rest))
    (hfile : ∀ x ∈ g.logfile_, logger_thid_ x.1 = l) (hpassed : ∀ x ∈ g.nid_buffer_, logger_thid_ x.1 = l)
    (hother : ∀ v, v ≠ p.worker → fileOf g v = fileOf (s.loggers l) v ∧
      passedOf g v = passedOf (s.loggers l) v)
    (hrecords : fileOf g p.worker ++ b.log_set_.map LogRecord.fields =
      fileOf (s.loggers l) p.worker ++ (s.buffer_ p).log_set_.map LogRecord.fields)
    (hnids : passedOf g p.worker ++ b.nid_set_ =
      passedOf (s.loggers l) p.worker ++ (s.buffer_ p).nid_set_) :
    PoolInv logger_thid_ ((s.setLogger l g).setBuffer p b) := by
  have hl : logger_thid_ p.worker = l := (h.loggers l).home p (by simp [hvec])
  obtain ⟨hrest, hqueue, hnotpool, hnotcur⟩ := h.head_not_mem hvec
  have hbuf : ∀ q, q ≠ p → ((s.setLogger l g).setBuffer p b).buffer_ q = s.buffer_ q := fun q hq =>
    buffer_setBuffer_of_ne hq b
  have hself : ((s.setLogger l g).setBuffer p b).buffer_ p = b := buffer_setBuffer_self b
  have hset : ((s.setLogger l g).setBuffer p b).loggers l = g := loggers_setLogger_self g
  refine ⟨?_, ?_, ?_⟩
  · intro q
    by_cases hq : q = p
    · subst hq
      rw [hself]
      exact hpool
    · rw [hbuf q hq]
      exact h.owner q
  · intro v
    have hv := h.workers v
    by_cases hvw : v = p.worker
    swap
    · have hlog := hv.setLogger (l := l) (g := g) (by rw [hgvec, hvec]) (by rw [hgqueue]) (hother v hvw).1
        (hother v hvw).2
      refine hlog.congr rfl rfl (fun q hq => hbuf q ?_) rfl rfl rfl rfl
      rintro rfl
      exact hvw hq.symm
    subst hvw
    subst hl
    have hstream : stream logger_thid_ ((s.setLogger (logger_thid_ p.worker) g).setBuffer p b) p.worker =
        stream logger_thid_ s p.worker := by
      unfold stream
      rw [hset, hgvec, hvec, hgqueue]
      rfl
    obtain ⟨ps, hps⟩ : ∃ ps, stream logger_thid_ s p.worker = p :: ps := ⟨_, stream_of_head hvec⟩
    have hnodup := hv.nodup
    rw [hps, List.cons_append, List.nodup_cons] at hnodup
    have htail : ∀ q ∈ ps,
        ((s.setLogger (logger_thid_ p.worker) g).setBuffer p b).buffer_ q = s.buffer_ q := by
      intro q hq
      refine hbuf q ?_
      rintro rfl
      exact hnodup.1 (List.mem_append.mpr (Or.inl hq))
    have hrec : fileOf g p.worker ++ recordsIn ((s.setLogger (logger_thid_ p.worker) g).setBuffer p b)
        (stream logger_thid_ s p.worker) = fileOf (s.loggers (logger_thid_ p.worker)) p.worker ++
          recordsIn s (stream logger_thid_ s p.worker) := by
      rw [hps, recordsIn_cons, recordsIn_cons, recordsIn_congr htail, hself, ← List.append_assoc,
        hrecords, List.append_assoc]
    have hnid : passedOf g p.worker ++ nidsIn ((s.setLogger (logger_thid_ p.worker) g).setBuffer p b)
        (stream logger_thid_ s p.worker) = passedOf (s.loggers (logger_thid_ p.worker)) p.worker ++
          nidsIn s (stream logger_thid_ s p.worker) := by
      rw [hps, nidsIn_cons, nidsIn_cons, nidsIn_congr htail, hself, ← List.append_assoc, hnids,
        List.append_assoc]
    refine ⟨?_, ?_, ?_, ?_, ?_, ?_⟩
    · rw [hstream]
      exact hv.owned
    · intro q hq
      rw [hbuf q (fun hqp => hnotpool (hqp ▸ hq))]
      exact hv.pool q hq
    · intro q hq
      rw [hbuf q (fun hqp => hnotcur (hqp ▸ hq))]
      exact hv.current q hq
    · rw [hset, hstream, hrec]
      exact hv.records
    · rw [hset, hstream, hrec]
      exact hv.order
    · rw [hset, hstream, hnid]
      exact hv.nids
  · intro k
    by_cases hk : k = l
    · subst hk
      have hk := h.loggers k
      refine ⟨?_, ?_, ?_, ?_, ?_, ?_⟩
      · rw [hset, hgqueue]
        intro x hx
        obtain ⟨hxl, hload⟩ := hk.queue x hx
        rw [hbuf x.2 (fun hxp => hqueue (hxp ▸ List.mem_map_of_mem hx))]
        exact ⟨hxl, hload⟩
      · rw [hset, hgqueue]
        exact hk.sorted
      · rw [hset, hgvec, ← hvec]
        exact hk.home
      · rw [hset]
        exact hfile
      · rw [hset]
        exact hpassed
      · rw [hset, hgvec]
        exact hok
    · have hsame : ((s.setLogger l g).setBuffer p b).loggers k = s.loggers k :=
        loggers_setLogger_of_ne hk g
      refine (h.loggers k).congr (by rw [hsame]) (by rw [hsame]) (by rw [hsame]) (by rw [hsame])
        (by rw [hsame]) fun q hq => hbuf q ?_
      rintro rfl
      exact hk ((h.handed_of_mem hq).1.symm.trans hl)

theorem PoolInv.write (h : PoolInv logger_thid_ s) (hash : Hash K β D) {rest : List BufferPtr}
    (hstage : (s.loggers l).stage = .write) (hvec : (s.loggers l).log_buffer_vec = p :: rest) :
    PoolInv logger_thid_ (BufferPool.write hash s l p) := by
  have hl := h.loggers l
  have hok := hl.vec
  rw [hstage, hvec] at hok
  obtain ⟨e, hload⟩ := hok p List.mem_cons_self
  obtain ⟨hrest, -, -, -⟩ := h.head_not_mem hvec
  unfold BufferPool.write
  dsimp only
  split
  · rename_i hsize
    obtain ⟨r, hr, -⟩ := hload.records
    rw [List.eq_nil_of_length_eq_zero hsize] at hr
    cases hr
  refine h.setHead hvec rfl hvec (h.owner p) ⟨?_, ?_⟩ ?_ hl.passed ?_ ?_ ?_
  · rw [buffer_setBuffer_self]
    exact ⟨rfl, hload.nids⟩
  · intro q hq
    have hqp : q ≠ p := fun hqp => hrest (hqp ▸ hq)
    rw [buffer_setBuffer_of_ne hqp]
    exact hok q (List.mem_cons_of_mem _ hq)
  · intro x hx
    rcases List.mem_append.mp hx with hx | hx
    · exact hl.file x hx
    · rw [List.mem_singleton.mp hx, h.owner p]
      exact hl.home p (by simp [hvec])
  · intro v hv
    refine ⟨?_, rfl⟩
    simp [fileOf, h.owner p, Ne.symm hv]
  · simp [fileOf, h.owner p, fields_create_json_log]
  · rfl

theorem PoolInv.pass_nid (h : PoolInv logger_thid_ s) {rest : List BufferPtr}
    (hstage : (s.loggers l).stage = .pass_nid) (hvec : (s.loggers l).log_buffer_vec = p :: rest) :
    PoolInv logger_thid_ (BufferPool.pass_nid s l p) := by
  have hl := h.loggers l
  have hok := hl.vec
  rw [hstage, hvec] at hok
  obtain ⟨⟨hlog, hnids⟩, hok⟩ := hok
  obtain ⟨hrest, -, -, -⟩ := h.head_not_mem hvec
  unfold BufferPool.pass_nid
  dsimp only
  split
  · rename_i hempty
    exact absurd (List.isEmpty_iff.mp hempty) hnids
  refine h.setHead hvec rfl hvec (h.owner p) ⟨?_, ?_⟩ hl.file ?_ ?_ ?_ ?_
  · rw [buffer_setBuffer_self]
    exact ⟨hlog, rfl, rfl, rfl⟩
  · intro q hq
    have hqp : q ≠ p := fun hqp => hrest (hqp ▸ hq)
    rw [buffer_setBuffer_of_ne hqp]
    exact hok q hq
  · intro x hx
    rcases List.mem_append.mp hx with hx | hx
    · exact hl.passed x hx
    · obtain ⟨tid, -, rfl⟩ := List.mem_map.mp hx
      rw [h.owner p]
      exact hl.home p (by simp [hvec])
  · intro v hv
    refine ⟨rfl, ?_⟩
    simp [passedOf, List.filter_map, h.owner p, Ne.symm hv, Function.comp_def]
  · rfl
  · simp [passedOf, List.filter_map, h.owner p, Function.comp_def]

/-- The buffer is fresh again, and goes to the pool of its worker. -/
theorem PoolInv.return_buffer (h : PoolInv logger_thid_ s) {rest : List BufferPtr}
    (hstage : (s.loggers l).stage = .return_buffer)
    (hvec : (s.loggers l).log_buffer_vec = p :: rest) :
    PoolInv logger_thid_ ((s.setLogger l { s.loggers l with
      log_buffer_vec := rest, stage := .write }).setPool p.worker
        { s.pools p.worker with pool_ := (s.pools p.worker).pool_ ++ [p] }) := by
  have hl := h.loggers l
  have hok := hl.vec
  rw [hstage, hvec] at hok
  obtain ⟨hfresh, hok⟩ := hok
  have hhome : logger_thid_ p.worker = l := hl.home p (by simp [hvec])
  set g : Logger K β D := { s.loggers l with log_buffer_vec := rest, stage := .write } with hg
  have hset : ((s.setLogger l g).setPool p.worker
      { s.pools p.worker with pool_ := (s.pools p.worker).pool_ ++ [p] }).loggers l = g :=
    loggers_setLogger_self g
  refine ⟨h.owner, ?_, ?_⟩
  · intro v
    have hv := h.workers v
    by_cases hvw : v = p.worker
    swap
    · have hlog := hv.setLogger (l := l) (g := g) (by
        rw [hvec, ofWorker, ofWorker, List.filter_cons_of_neg (by simpa using Ne.symm hvw)]) rfl rfl rfl
      exact hlog.congr (stream_setPool_of_ne hvw _) (pools_setPool_of_ne hvw _) (fun _ _ => rfl) rfl rfl
        rfl rfl
    subst hvw
    subst hhome
    obtain ⟨ps, hps, hps'⟩ : ∃ ps, stream logger_thid_ s p.worker = p :: ps ∧
        stream logger_thid_ ((s.setLogger (logger_thid_ p.worker) g).setPool p.worker
          { s.pools p.worker with pool_ := (s.pools p.worker).pool_ ++ [p] }) p.worker = ps := by
      refine ⟨_, stream_of_head hvec, ?_⟩
      rw [stream, hset, pools_setPool_self]
    have hrec : recordsIn s (p :: ps) = recordsIn s ps := by
      rw [recordsIn_cons, hfresh.records, List.map_nil, List.nil_append]
    have hnid : nidsIn s (p :: ps) = nidsIn s ps := by
      rw [nidsIn_cons, hfresh.nids, List.nil_append]
    refine ⟨?_, ?_, ?_, ?_, ?_, ?_⟩
    · rw [hps', pools_setPool_self]
      have howned := hv.owned
      rw [hps] at howned
      refine List.Perm.trans ?_ howned
      rw [← List.append_assoc]
      exact List.perm_append_singleton p _
    · rw [pools_setPool_self]
      intro q hq
      rcases List.mem_append.mp hq with hq | hq
      · exact hv.pool q hq
      · rw [List.mem_singleton.mp hq]
        exact hfresh
    · rw [pools_setPool_self]
      exact hv.current
    · have hold := hv.records
      rw [hps, hrec] at hold
      rw [hset, hps']
      exact hold
    · have hold := hv.order
      rw [hps, hrec] at hold
      rw [hset, hps']
      exact hold
    · have hold := hv.nids
      rw [hps, hnid] at hold
      rw [hset, hps']
      exact hold
  · intro k
    by_cases hk : k = l
    · subst hk
      refine ⟨?_, ?_, ?_, ?_, ?_, ?_⟩
      · rw [hset]
        exact hl.queue
      · rw [hset]
        exact hl.sorted
      · rw [hset]
        exact fun q hq => hl.home q (by rw [hvec]; exact List.mem_cons_of_mem _ hq)
      · rw [hset]
        exact hl.file
      · rw [hset]
        exact hl.passed
      · rw [hset]
        exact hok
    · have hsame : ((s.setLogger l g).setPool p.worker
          { s.pools p.worker with pool_ := (s.pools p.worker).pool_ ++ [p] }).loggers k = s.loggers k :=
        loggers_setLogger_of_ne hk g
      exact (h.loggers k).congr (by rw [hsame]) (by rw [hsame]) (by rw [hsame]) (by rw [hsame])
        (by rw [hsame]) fun _ _ => rfl

theorem poolInv_init {hash : Hash K β D} (h : Init hash s) : PoolInv logger_thid_ s where
  owner p := by rw [h.buffers p]; rfl
  workers w := by
    have hstream : stream logger_thid_ s w = [⟨w, 0⟩] := by
      simp [stream, h.loggers, h.pools, ofWorker]
    have hfresh : ∀ p, Fresh (s.buffer_ p) := fun p => by
      rw [h.buffers p]
      exact Durability.fresh_new _
    refine ⟨?_, fun p _ => hfresh p, fun p _ => Or.inl (hfresh p), ?_, ?_, ?_⟩
    · rw [hstream, h.pools w]
      exact .of_eq rfl
    all_goals rw [hstream]
    · simp [h.loggers, h.pushed, fileOf, recordsIn, (hfresh _).records]
    · simp [h.loggers, h.pushed, fileOf, recordsIn, (hfresh _).records]
    · simp [h.loggers, h.nids, passedOf, nidsIn, (hfresh _).nids]
  loggers l := by
    refine ⟨?_, ?_, ?_, ?_, ?_, ?_⟩ <;> simp [h.loggers l, VecOk]

theorem poolInv_step {hash : Hash K β D} {a : Action K β} (h : PoolInv logger_thid_ s)
    (hs : step logger_thid_ hash s a = some s') : PoolInv logger_thid_ s' := by
  cases a with
  | is_ready w =>
    simp only [step] at hs
    split at hs
    · obtain rfl := Option.some.inj hs
      exact h.is_ready w
    · cases hs
  | push w tid write_set new_epoch_begins =>
    simp only [step] at hs
    split at hs
    · rename_i p hpushing hcur
      obtain rfl := Option.some.inj hs
      refine PoolInv.setPushing ?_ rfl rfl
      split
      · exact h.publish hcur
      · exact h
    · cases hs
  | ready w =>
    simp only [step] at hs
    split at hs
    · rename_i tid write_set p hpushing hcur
      obtain rfl := Option.some.inj hs
      have hready := (h.is_ready w).setPushing (w := w)
        (t := { BufferPool.is_ready (s.pools w) with pushing := none })
        (by rw [pools_setPool_self]) (by rw [pools_setPool_self])
      rw [setPool_setPool] at hready
      exact hready.push (by rw [pools_setPool_self]; exact hcur) tid write_set
    · cases hs
  | publish w =>
    simp only [step] at hs
    split at hs
    · rename_i p hpushing hcur
      obtain rfl := Option.some.inj hs
      exact (h.is_ready w).publish (by rw [pools_setPool_self]; exact hcur)
    · cases hs
  | deq l =>
    simp only [step] at hs
    split at hs
    · rename_i hvec
      obtain rfl := Option.some.inj hs
      exact h.deq hvec
    · cases hs
  | write l =>
    simp only [step] at hs
    split at hs
    · rename_i p rest hstage hvec
      obtain rfl := Option.some.inj hs
      exact h.write hash hstage hvec
    · cases hs
  | pass_nid l =>
    simp only [step] at hs
    split at hs
    · rename_i p rest hstage hvec
      obtain rfl := Option.some.inj hs
      exact h.pass_nid hstage hvec
    · cases hs
  | return_buffer l =>
    simp only [step] at hs
    split at hs
    · rename_i p rest hstage hvec
      obtain rfl := Option.some.inj hs
      rw [h.owner p]
      exact h.return_buffer hstage hvec
    · cases hs

/-- The buffers of a worker, its records and its notification ids are all accounted for. -/
structure Accounted (logger_thid_ : Nat → Nat) (s : State K β D) (w : Nat) : Prop where
  /-- each buffer is in one of the four places -/
  places : ((s.pools w).current_buffer_.toList ++ (s.pools w).pool_ ++
    ofWorker w ((s.loggers (logger_thid_ w)).queue_.map Prod.snd) ++
    ofWorker w (s.loggers (logger_thid_ w)).log_buffer_vec).Perm (ptrs w)
  /-- and no other logger has any of them -/
  home : ∀ l p, p.worker = w →
    p ∈ (s.loggers l).queue_.map Prod.snd ∨ p ∈ (s.loggers l).log_buffer_vec → l = logger_thid_ w
  fresh : ∀ p ∈ (s.pools w).pool_, Fresh (s.buffer_ p)
  records : (fileOf (s.loggers (logger_thid_ w)) w ++ recordsIn s (ptrs w)).Perm
    ((s.pushed w).map LogRecord.fields)
  elsewhere : ∀ l, l ≠ logger_thid_ w → fileOf (s.loggers l) w = [] ∧ passedOf (s.loggers l) w = []
  commitOrder : InEpochOrder (s.pushed w) →
    fileOf (s.loggers (logger_thid_ w)) w <+: (s.pushed w).map LogRecord.fields
  nids : (passedOf (s.loggers (logger_thid_ w)) w ++ nidsIn s (ptrs w)).Perm (s.nids w)

/-- Over all buffers of the worker, as the buffers of the pool hold nothing. -/
theorem WorkerInv.flatMap_ptrs (h : WorkerInv logger_thid_ s w) {α : Type}
    {f : BufferPtr → List α} (hf : ∀ p ∈ (s.pools w).pool_, f p = []) :
    ((ptrs w).flatMap f).Perm ((stream logger_thid_ s w).flatMap f) := by
  have hpool : (s.pools w).pool_.flatMap f = [] := List.flatMap_eq_nil_iff.mpr hf
  have hperm := h.owned.flatMap_right f
  rw [List.flatMap_append, hpool, List.append_nil] at hperm
  exact hperm.symm

theorem PoolInv.accounted (h : PoolInv logger_thid_ s) (w : Nat) : Accounted logger_thid_ s w := by
  have hw := h.workers w
  refine ⟨?_, ?_, hw.pool, ?_, ?_, ?_, ?_⟩
  · refine List.Perm.trans ?_ hw.owned
    rw [List.perm_iff_count]
    intro p
    simp only [stream, List.count_append]
    omega
  · intro l p hp hmem
    rw [← hp]
    exact ((h.handed_of_mem hmem).1).symm
  · refine ((hw.flatMap_ptrs ?_).append_left _).trans hw.records
    intro p hp
    rw [(hw.pool p hp).records, List.map_nil]
  · intro l hl
    have hnone : ∀ {α : Type} {xs : List (Nat × α)}, (∀ x ∈ xs, logger_thid_ x.1 = l) →
        xs.filter (·.1 = w) = [] := by
      intro α xs hxs
      refine List.filter_eq_nil_iff.mpr ?_
      intro x hx hxw
      have hhome := hxs x hx
      rw [of_decide_eq_true hxw] at hhome
      exact hl hhome.symm
    rw [fileOf, hnone (h.loggers l).file, passedOf, hnone (h.loggers l).passed]
    exact ⟨rfl, rfl⟩
  · intro hord
    rw [← hw.order hord]
    exact List.prefix_append _ _
  · refine ((hw.flatMap_ptrs ?_).append_left _).trans hw.nids
    intro p hp
    exact (hw.pool p hp).nids

/-- On its way to the file no record and no notification id is lost or written twice, whatever
the workers push and however the threads take turns. -/
theorem no_record_lost {hash : Hash K β D}
    (h : Reach (step logger_thid_ hash) (Init hash) anyStep s) (w : Nat) :
    Accounted logger_thid_ s w := by
  have hinv : PoolInv logger_thid_ s := by
    refine Reach.invariant (I := PoolInv logger_thid_) ?_ ?_ h
    · intro s₀ h₀
      exact poolInv_init h₀
    · intro s₁ a s₂ h₁ _ hs
      exact poolInv_step h₁ hs
  exact hinv.accounted w

end

def started : State Nat Nat Unit where
  buffer_ p := .new p.worker
  pools w := ⟨some ⟨w, 0⟩, (ptrs w).tail, none⟩
  loggers _ := ⟨[], [], .write, (), [], []⟩
  pushed _ := []
  nids _ := []

/-- Worker 1 pushes and publishes a write of epoch 2 before worker 0 one of epoch 1; their logger
writes the buffer of worker 0 first and returns it. -/
def overtaking : List (Action Nat Nat) :=
  [.push 1 ⟨false, true, false, 0, 2⟩ [⟨7, 0, 70, .INSERT⟩] false, .ready 1, .publish 1,
    .push 0 ⟨false, true, false, 0, 1⟩ [⟨5, 0, 50, .WRITE⟩] true, .ready 0, .publish 0, .is_ready 0,
    .deq 0, .write 0, .pass_nid 0, .return_buffer 0, .write 0]

theorem overtaking_runs :
    (exec (step (fun _ => 0) Durability.unitHash) started overtaking).isSome := by decide

theorem no_record_lost_overtaking :
    ((((exec (step (fun _ => 0) Durability.unitHash) started overtaking).get
      overtaking_runs).loggers 0).logfile_.map Prod.fst) = [0, 1] ∧
      ∀ w, Accounted (fun _ => 0)
        ((exec (step (fun _ => 0) Durability.unitHash) started overtaking).get overtaking_runs) w :=
  ⟨by decide, fun w => no_record_lost (reach_get
    ⟨fun _ => rfl, fun _ => rfl, fun _ => rfl, fun _ => rfl, fun _ => rfl⟩ overtaking_runs) w⟩

end Cassa.SiloCC.BufferPool

import Cassa.SiloCC.Element
import Mathlib.Logic.Function.Basic
import Mathlib.Data.List.Perm.Basic
import Mathlib.Data.List.Nodup

/-!
# The commit protocol as a machine of atomic steps

`TxExecutor` of `silo_transaction.cpp`, one control state per shared access: every
load of a TID word, every compare-and-swap, every store of a body or of a TID word
is a step of its own, and any worker may take the next step. Masstree is taken as a
map `tree` from keys to records.

The sort of the write set is modelled by any permutation of it: `validate` names the
order. `Key::operator<` decides the order in the source, and nothing below depends
on which order it is.
-/

namespace Cassa.SiloCC.Occ

variable {W K β : Type}

/-- A read-set element together with the body that was handed to the client for it
(`none` for the element that `insert` adds, which is never handed out). -/
structure ReadEntry (K β : Type) extends ReadElement K where
  seen : Option β
  deriving DecidableEq

/-- Where a worker is inside `execute_transaction`. -/
inductive Pc (K : Type) where
  /-- outside a transaction -/
  | idle
  /-- between two operations of the request -/
  | running
  /-- `read_internal`, with the word it last loaded -/
  | readSpin (k : K) (v : ValuePtr) (expected : TIDword)
  /-- `read`, after `read_internal` returned OK and before it copies the body -/
  | readBody (k : K) (v : ValuePtr) (expected : TIDword)
  /-- `lockWriteSet` at element `i`, before or after its first load -/
  | locking (i : Nat) (expected : Option TIDword)
  /-- `unlockWriteSet(end)` at element `i` -/
  | unlockPrefix (i stop : Nat) (expected : Option TIDword)
  | loadEpoch
  | storeEpoch (g : Nat)
  /-- the loop of `validationPhase` over the read set -/
  | validating (i : Nat)
  /-- `unlockWriteSet()` at element `i`, after a failed validation -/
  | unlocking (i : Nat) (expected : Option TIDword)
  /-- `abort()` at element `i` -/
  | aborting (i : Nat)
  /-- the loop of `writePhase`; the flag says that the body is already stored -/
  | writing (i : Nat) (maxtid : TIDword) (bodyStored : Bool)
  deriving DecidableEq

structure TxExecutor (K β : Type) where
  pc : Pc K
  status_ : TransactionStatus
  read_set_ : List (ReadEntry K β)
  write_set_ : List (WriteElement K β)
  max_rset_ : TIDword
  max_wset_ : TIDword
  mrctid_ : TIDword
  /-- `ThLocalEpoch[worker_thid_]` -/
  localEpoch : Nat

def TxExecutor.new : TxExecutor K β where
  pc := .idle
  status_ := .Invalid
  read_set_ := []
  write_set_ := []
  max_rset_ := .zero
  max_wset_ := .zero
  mrctid_ := .new
  localEpoch := 0

/-- What is remembered of a transaction whose `validationPhase` returned true. -/
structure Committed (W K β : Type) where
  worker : W
  read_set_ : List (ReadEntry K β)
  write_set_ : List (WriteElement K β)
  tid : TIDword

structure State (W K β : Type) where
  mem : ValuePtr → Value β
  tree : K → Option ValuePtr
  /-- the next address that `new Value` returns -/
  next : ValuePtr
  /-- the addresses given to `delete` -/
  freed : List ValuePtr
  GlobalEpoch : Nat
  workers : W → TxExecutor K β
  committed : List (Committed W K β)

/-- The operations that a request may ask for next, the end of the request, and
`tick`: the next shared access of whatever the worker is doing. -/
inductive Op (K β : Type) where
  | begin
  | read (k : K)
  | write (k : K) (b : β)
  | insert (k : K) (b : β)
  | delete (k : K)
  | validate (order : List (WriteElement K β))
  | tick

inductive Action (W K β : Type) where
  | work (w : W) (op : Op K β)
  | advanceEpoch

variable [DecidableEq W] [DecidableEq K] [DecidableEq β]

def State.setWorker (s : State W K β) (w : W) (t : TxExecutor K β) : State W K β :=
  { s with workers := Function.update s.workers w t }

def State.setTid (s : State W K β) (v : ValuePtr) (t : TIDword) : State W K β :=
  { s with mem := Function.update s.mem v { s.mem v with tidword_ := t } }

def State.setBody (s : State W K β) (v : ValuePtr) (b : β) : State W K β :=
  { s with mem := Function.update s.mem v { s.mem v with body_ := b } }

def State.tidword (s : State W K β) (v : ValuePtr) : TIDword := (s.mem v).tidword_

def TxExecutor.goto (t : TxExecutor K β) (pc : Pc K) : TxExecutor K β := { t with pc := pc }

def TxExecutor.begin (t : TxExecutor K β) : TxExecutor K β :=
  { t with pc := .running, status_ := .InFlight, max_wset_ := .zero, max_rset_ := .zero,
           read_set_ := [], write_set_ := [] }

def searchReadSet (rs : List (ReadEntry K β)) (k : K) : Option (ReadEntry K β) :=
  rs.find? fun re => re.key_ = k

/-- The record that `write` and `tx_delete` take for a key: the one of the read set,
else the one of the tree. -/
def findValue (s : State W K β) (t : TxExecutor K β) (k : K) : Option ValuePtr :=
  match searchReadSet t.read_set_ k with
  | some re => some re.value_
  | none => s.tree k

/-- A refused operation makes `execute_transaction` call `abort`. -/
def TxExecutor.refuse (t : TxExecutor K β) : TxExecutor K β := t.goto (.aborting 0)

def read (s : State W K β) (t : TxExecutor K β) (k : K) : TxExecutor K β :=
  if (searchReadSet t.read_set_ k).isSome then t
  else if (searchWriteSet t.write_set_ k).isSome then t
  else match s.tree k with
    | none => t.refuse
    | some v => t.goto (.readSpin k v (s.tidword v))

def write (s : State W K β) (t : TxExecutor K β) (k : K) (b : β) : TxExecutor K β :=
  if (searchWriteSet t.write_set_ k).isSome then t
  else match findValue s t k with
    | none => t.refuse
    | some v => { t with write_set_ := t.write_set_ ++ [⟨k, v, b, .WRITE⟩] }

def insert (s : State W K β) (w : W) (t : TxExecutor K β) (k : K) (b : β) : State W K β :=
  if (searchWriteSet t.write_set_ k).isSome then s.setWorker w t.refuse
  else match s.tree k with
    | some _ => s.setWorker w t.refuse
    | none =>
      let word := TIDword.new.init
      let t' := { t with
        read_set_ := t.read_set_ ++ [⟨⟨k, s.next, word, .READ⟩, none⟩]
        write_set_ := t.write_set_ ++ [⟨k, s.next, b, .INSERT⟩] }
      { s.setWorker w t' with
        mem := Function.update s.mem s.next ⟨word, b⟩
        tree := Function.update s.tree k (some s.next)
        next := s.next + 1 }

def tx_delete (s : State W K β) (t : TxExecutor K β) (k : K) (empty : β) : TxExecutor K β :=
  match searchWriteSet t.write_set_ k with
  | some we => if we.op_ = .INSERT then t.refuse else t
  | none => match findValue s t k with
    | none => t.refuse
    | some v => { t with write_set_ := t.write_set_ ++ [⟨k, v, empty, .DELETE⟩] }

/-- One iteration of `read_internal`. -/
def stepReadSpin (s : State W K β) (t : TxExecutor K β) (k : K) (v : ValuePtr)
    (expected : TIDword) : TxExecutor K β :=
  if expected.lock then t.goto (.readSpin k v (s.tidword v))
  else if expected.absent then t.refuse
  else if expected = s.tidword v then t.goto (.readBody k v expected)
  else t.goto (.readSpin k v (s.tidword v))

/-- `lockWriteSet` at element `i`. A set lock bit ends the loop: the locks taken so
far are released and the function returns, and only `status_` tells. -/
def stepLocking (s : State W K β) (w : W) (t : TxExecutor K β) (i : Nat)
    (expected : Option TIDword) : State W K β :=
  match t.write_set_[i]? with
  | none => s.setWorker w (t.goto .loadEpoch)
  | some we =>
    if we.op_ = .INSERT then s.setWorker w (t.goto (.locking (i + 1) none))
    else match expected with
      | none => s.setWorker w (t.goto (.locking i (some (s.tidword we.value_))))
      | some e =>
        if e.lock then
          s.setWorker w { t with status_ := .Aborted, pc := .unlockPrefix 0 i none }
        else if s.tidword we.value_ = e then
          (s.setTid we.value_ { e with lock := true }).setWorker w
            { t with max_wset_ := TIDword.max t.max_wset_ e, pc := .locking (i + 1) none }
        else s.setWorker w (t.goto (.locking i (some (s.tidword we.value_))))

/-- The loop body that both `unlockWriteSet` variants share: load, then store the
loaded word with a clear lock bit. `again` is the control state at an index. -/
def stepUnlock (s : State W K β) (w : W) (t : TxExecutor K β) (i stop : Nat)
    (expected : Option TIDword) (again : Nat → Option TIDword → Pc K) (done : Pc K) :
    State W K β :=
  if stop ≤ i then s.setWorker w (t.goto done)
  else match t.write_set_[i]? with
    | none => s.setWorker w (t.goto done)
    | some we =>
      if we.op_ = .INSERT then s.setWorker w (t.goto (again (i + 1) none))
      else match expected with
        | none => s.setWorker w (t.goto (again i (some (s.tidword we.value_))))
        | some e =>
          (s.setTid we.value_ { e with lock := false }).setWorker w (t.goto (again (i + 1) none))

/-- The transaction that `validationPhase` has just let through. -/
def TxExecutor.toCommitted (t : TxExecutor K β) (w : W) : Committed W K β :=
  ⟨w, t.read_set_, t.write_set_, t.mrctid_⟩

/-- `validationPhase` returns true and `writePhase` chooses the commit TID. -/
def TxExecutor.enterWritePhase (t : TxExecutor K β) : TxExecutor K β :=
  let maxtid := commitTid t.max_rset_ t.max_wset_ t.mrctid_ t.localEpoch
  { t with status_ := .Committed, mrctid_ := maxtid, pc := .writing 0 maxtid false }

/-- The condition under which `validationPhase` gives up on a read-set element. -/
def validationFails (t : TxExecutor K β) (re : ReadEntry K β) (check : TIDword) : Prop :=
  (re.op_ = .INSERT ∧ check.absent = false) ∨ re.tidword_.epoch ≠ check.epoch ∨
    re.tidword_.TID ≠ check.TID ∨
    (check.lock = true ∧ (searchWriteSet t.write_set_ re.key_).isSome = false)

instance (t : TxExecutor K β) (re : ReadEntry K β) (check : TIDword) :
    Decidable (validationFails t re check) := by
  unfold validationFails; infer_instance

def stepValidating (s : State W K β) (w : W) (t : TxExecutor K β) (i : Nat) : State W K β :=
  match t.read_set_[i]? with
  | none =>
    { s.setWorker w t.enterWritePhase with
      committed := s.committed ++ [t.enterWritePhase.toCommitted w] }
  | some re =>
    let check := s.tidword re.value_
    if validationFails t re check then
      s.setWorker w { t with status_ := .Aborted, pc := .unlocking 0 none }
    else
      s.setWorker w { t with max_rset_ := TIDword.max t.max_rset_ check, pc := .validating (i + 1) }

/-- `abort` at element `i`: the records of its own inserts leave the tree and are
deleted, then both sets are cleared. -/
def stepAborting (s : State W K β) (w : W) (t : TxExecutor K β) (i : Nat) : State W K β :=
  match t.write_set_[i]? with
  | none => s.setWorker w { t with pc := .idle, read_set_ := [], write_set_ := [] }
  | some we =>
    if we.op_ = .INSERT then
      { s.setWorker w (t.goto (.aborting (i + 1))) with
        tree := Function.update s.tree we.key_ none
        freed := we.value_ :: s.freed }
    else s.setWorker w (t.goto (.aborting (i + 1)))

/-- `writePhase` at element `i`. Any other operation type is `assert(false)`. -/
def stepWriting (s : State W K β) (w : W) (t : TxExecutor K β) (i : Nat) (maxtid : TIDword)
    (bodyStored : Bool) : Option (State W K β) :=
  match t.write_set_[i]? with
  | none => some (s.setWorker w (t.goto .idle))
  | some we =>
    match we.op_ with
    | .WRITE =>
      if bodyStored then
        some ((s.setTid we.value_ maxtid).setWorker w (t.goto (.writing (i + 1) maxtid false)))
      else
        some ((s.setBody we.value_ we.new_value_body_).setWorker w
          (t.goto (.writing i maxtid true)))
    | .INSERT =>
      let maxtid := { maxtid with absent := false }
      some ((s.setTid we.value_ maxtid).setWorker w (t.goto (.writing (i + 1) maxtid false)))
    | .DELETE =>
      let maxtid := { maxtid with absent := true }
      some ((s.setTid we.value_ maxtid).setWorker w (t.goto (.writing (i + 1) maxtid false)))
    | _ => none

def tick (s : State W K β) (w : W) (t : TxExecutor K β) : Option (State W K β) :=
  match t.pc with
  | .idle => none
  | .running => none
  | .readSpin k v e => some (s.setWorker w (stepReadSpin s t k v e))
  | .readBody k v e =>
    some (s.setWorker w { t with
      pc := .running, read_set_ := t.read_set_ ++ [⟨⟨k, v, e, .READ⟩, some (s.mem v).body_⟩] })
  | .locking i e => some (stepLocking s w t i e)
  | .unlockPrefix i stop e =>
    some (stepUnlock s w t i stop e (fun j x => .unlockPrefix j stop x) .loadEpoch)
  | .loadEpoch => some (s.setWorker w (t.goto (.storeEpoch s.GlobalEpoch)))
  | .storeEpoch g => some (s.setWorker w { t with localEpoch := g, pc := .validating 0 })
  | .validating i => some (stepValidating s w t i)
  | .unlocking i e =>
    some (stepUnlock s w t i t.write_set_.length e (fun j x => .unlocking j x) (.aborting 0))
  | .aborting i => some (stepAborting s w t i)
  | .writing i maxtid b => stepWriting s w t i maxtid b

section
variable [Inhabited β]

def work (s : State W K β) (w : W) (op : Op K β) : Option (State W K β) :=
  let t := s.workers w
  match op with
  | .begin => if t.pc = .idle then some (s.setWorker w t.begin) else none
  | .read k => if t.pc = .running then some (s.setWorker w (read s t k)) else none
  | .write k b => if t.pc = .running then some (s.setWorker w (write s t k b)) else none
  | .insert k b => if t.pc = .running then some (insert s w t k b) else none
  | .delete k => if t.pc = .running then some (s.setWorker w (tx_delete s t k default)) else none
  | .validate order =>
    if t.pc = .running ∧ order.Perm t.write_set_ then
      some (s.setWorker w { t with write_set_ := order, pc := .locking 0 none })
    else none
  | .tick => tick s w t

def step (s : State W K β) : Action W K β → Option (State W K β)
  | .work w op => work s w op
  | .advanceEpoch => some { s with GlobalEpoch := s.GlobalEpoch + 1 }

end

/-- A fresh server over existing records: no worker is in a transaction, no record
is locked, and different keys have different records. -/
structure Init (s : State W K β) : Prop where
  workers : ∀ w, s.workers w = .new
  committed : s.committed = []
  freed : s.freed = []
  unlocked : ∀ v, (s.tidword v).lock = false
  below : ∀ k v, s.tree k = some v → v < s.next
  inj : ∀ k k' v, s.tree k = some v → s.tree k' = some v → k = k'

section
omit [DecidableEq K] [DecidableEq β]

@[simp] theorem setWorker_mem (s : State W K β) (w : W) (t : TxExecutor K β) : (s.setWorker w t).mem = s.mem := by
  simp [State.setWorker]

@[simp] theorem setWorker_committed (s : State W K β) (w : W) (t : TxExecutor K β) :
    (s.setWorker w t).committed = s.committed := by
  simp [State.setWorker]

@[simp] theorem setWorker_tree (s : State W K β) (w : W) (t : TxExecutor K β) :
    (s.setWorker w t).tree = s.tree := by
  simp [State.setWorker]

@[simp] theorem setWorker_tidword (s : State W K β) (w : W) (t : TxExecutor K β) (v : ValuePtr) :
    (s.setWorker w t).tidword v = s.tidword v := rfl

@[simp] theorem setWorker_self (s : State W K β) (w : W) (t : TxExecutor K β) :
    (s.setWorker w t).workers w = t := by
  simp [State.setWorker]

theorem setWorker_other (s : State W K β) {w u : W} (t : TxExecutor K β) (h : u ≠ w) :
    (s.setWorker w t).workers u = s.workers u := by
  simp [State.setWorker, h]

end

section
omit [DecidableEq W] [DecidableEq K] [DecidableEq β]

@[simp] theorem setTid_committed (s : State W K β) (v : ValuePtr) (t : TIDword) :
    (s.setTid v t).committed = s.committed := by
  simp [State.setTid]

@[simp] theorem setTid_workers (s : State W K β) (v : ValuePtr) (t : TIDword) :
    (s.setTid v t).workers = s.workers := rfl

@[simp] theorem setTid_tidword_self (s : State W K β) (v : ValuePtr) (t : TIDword) :
    (s.setTid v t).tidword v = t := by
  simp [State.setTid, State.tidword]

theorem setTid_tidword_other (s : State W K β) {v u : ValuePtr} (t : TIDword) (h : u ≠ v) :
    (s.setTid v t).tidword u = s.tidword u := by
  simp [State.setTid, State.tidword, h]

theorem setTid_body (s : State W K β) (v u : ValuePtr) (t : TIDword) :
    ((s.setTid v t).mem u).body_ = (s.mem u).body_ := by
  by_cases h : u = v <;> simp [State.setTid, h]

@[simp] theorem setBody_committed (s : State W K β) (v : ValuePtr) (b : β) :
    (s.setBody v b).committed = s.committed := by
  simp [State.setBody]

@[simp] theorem setBody_workers (s : State W K β) (v : ValuePtr) (b : β) :
    (s.setBody v b).workers = s.workers := rfl

@[simp] theorem setBody_tidword (s : State W K β) (v u : ValuePtr) (b : β) :
    (s.setBody v b).tidword u = s.tidword u := by
  by_cases h : u = v <;> simp [State.setBody, State.tidword, h]

@[simp] theorem setBody_body_self (s : State W K β) (v : ValuePtr) (b : β) :
    ((s.setBody v b).mem v).body_ = b := by
  simp [State.setBody]

theorem setBody_body_other (s : State W K β) {v u : ValuePtr} (b : β) (h : u ≠ v) :
    ((s.setBody v b).mem u).body_ = (s.mem u).body_ := by
  simp [State.setBody, h]

end

section
omit [DecidableEq K] [DecidableEq β]

@[simp] theorem goto_pc (t : TxExecutor K β) (pc : Pc K) : (t.goto pc).pc = pc := rfl

@[simp] theorem goto_read_set (t : TxExecutor K β) (pc : Pc K) :
    (t.goto pc).read_set_ = t.read_set_ := by
  simp [TxExecutor.goto]

@[simp] theorem goto_write_set (t : TxExecutor K β) (pc : Pc K) :
    (t.goto pc).write_set_ = t.write_set_ := rfl

end

/-- The branches of `tick`. -/
inductive Ticks (s : State W K β) (w : W) : State W K β → Prop
  | readSpin {k : K} {v : ValuePtr} {e : TIDword} (hpc : (s.workers w).pc = .readSpin k v e) :
    Ticks s w (s.setWorker w (stepReadSpin s (s.workers w) k v e))
  | readBody {k : K} {v : ValuePtr} {e : TIDword} (hpc : (s.workers w).pc = .readBody k v e) :
    Ticks s w (s.setWorker w { s.workers w with
      pc := .running
      read_set_ := (s.workers w).read_set_ ++ [⟨⟨k, v, e, .READ⟩, some (s.mem v).body_⟩] })
  | locking {i : Nat} {e : Option TIDword} (hpc : (s.workers w).pc = .locking i e) :
    Ticks s w (stepLocking s w (s.workers w) i e)
  | unlockPrefix {i stop : Nat} {e : Option TIDword} (hpc : (s.workers w).pc = .unlockPrefix i stop e) :
    Ticks s w (stepUnlock s w (s.workers w) i stop e (fun j x => .unlockPrefix j stop x) .loadEpoch)
  | loadEpoch (hpc : (s.workers w).pc = .loadEpoch) :
    Ticks s w (s.setWorker w ((s.workers w).goto (.storeEpoch s.GlobalEpoch)))
  | storeEpoch {g : Nat} (hpc : (s.workers w).pc = .storeEpoch g) :
    Ticks s w (s.setWorker w { s.workers w with localEpoch := g, pc := .validating 0 })
  | validating {i : Nat} (hpc : (s.workers w).pc = .validating i) :
    Ticks s w (stepValidating s w (s.workers w) i)
  | unlocking {i : Nat} {e : Option TIDword} (hpc : (s.workers w).pc = .unlocking i e) :
    Ticks s w (stepUnlock s w (s.workers w) i (s.workers w).write_set_.length e
      (fun j x => .unlocking j x) (.aborting 0))
  | aborting {i : Nat} (hpc : (s.workers w).pc = .aborting i) :
    Ticks s w (stepAborting s w (s.workers w) i)
  | writing {i : Nat} {maxtid : TIDword} {b : Bool} {s' : State W K β}
    (hpc : (s.workers w).pc = .writing i maxtid b) (hs : stepWriting s w (s.workers w) i maxtid b = some s') :
    Ticks s w s'

omit [DecidableEq β] in
theorem ticks_of_tick {s s' : State W K β} {w : W} (hs : tick s w (s.workers w) = some s') : Ticks s w s' := by
  unfold tick at hs
  cases hpc : (s.workers w).pc with
  | idle => simp [hpc] at hs
  | running => simp [hpc] at hs
  | writing i maxtid b =>
    rw [hpc] at hs
    exact .writing hpc hs
  | _ =>
    rw [hpc] at hs
    obtain rfl := Option.some.inj hs
    constructor
    exact hpc

/-- The branches of `stepLocking` from the word it last loaded, with what each of them requires. -/
inductive Lockings (s : State W K β) (w : W) (i : Nat) : Option TIDword → State W K β → Prop
  | done {e : Option TIDword} (hend : (s.workers w).write_set_[i]? = none) :
    Lockings s w i e (s.setWorker w ((s.workers w).goto .loadEpoch))
  | insert {e : Option TIDword} {we : WriteElement K β} (hwe : (s.workers w).write_set_[i]? = some we)
    (hop : we.op_ = .INSERT) :
    Lockings s w i e (s.setWorker w ((s.workers w).goto (.locking (i + 1) none)))
  | load {we : WriteElement K β} (hwe : (s.workers w).write_set_[i]? = some we) (hop : we.op_ ≠ .INSERT) :
    Lockings s w i none
      (s.setWorker w ((s.workers w).goto (.locking i (some (s.tidword we.value_)))))
  | conflict {we : WriteElement K β} {x : TIDword} (hwe : (s.workers w).write_set_[i]? = some we)
    (hop : we.op_ ≠ .INSERT) (hlock : x.lock = true) :
    Lockings s w i (some x)
      (s.setWorker w { s.workers w with status_ := .Aborted, pc := .unlockPrefix 0 i none })
  | lock {we : WriteElement K β} {x : TIDword} (hwe : (s.workers w).write_set_[i]? = some we)
    (hop : we.op_ ≠ .INSERT) (hfree : x.lock = false) (hcas : s.tidword we.value_ = x) :
    Lockings s w i (some x) ((s.setTid we.value_ { x with lock := true }).setWorker w
      { s.workers w with max_wset_ := TIDword.max (s.workers w).max_wset_ x, pc := .locking (i + 1) none })
  | reload {we : WriteElement K β} {x : TIDword} (hwe : (s.workers w).write_set_[i]? = some we)
    (hop : we.op_ ≠ .INSERT) (hfree : x.lock = false) (hcas : s.tidword we.value_ ≠ x) :
    Lockings s w i (some x)
      (s.setWorker w ((s.workers w).goto (.locking i (some (s.tidword we.value_)))))

omit [DecidableEq K] [DecidableEq β] in
theorem lockings_of_stepLocking {s s' : State W K β} {w : W} {i : Nat} {e : Option TIDword}
    (hs : stepLocking s w (s.workers w) i e = s') : Lockings s w i e s' := by
  subst hs
  unfold stepLocking
  split
  · exact .done ‹_›
  rename_i we hwe
  split
  · exact .insert hwe ‹_›
  rename_i hop
  split
  · exact .load hwe hop
  rename_i x
  split
  · exact .conflict hwe hop ‹_›
  rename_i hfree
  have hfree : x.lock = false := by simpa using hfree
  split
  · exact .lock hwe hop hfree ‹_›
  · exact .reload hwe hop hfree ‹_›

/-- The branches of `stepUnlock`, with what each of them requires. -/
inductive Unlocks (s : State W K β) (w : W) (i stop : Nat) (again : Nat → Option TIDword → Pc K)
    (done : Pc K) : Option TIDword → State W K β → Prop
  | done {e : Option TIDword} (hend : stop ≤ i ∨ (s.workers w).write_set_[i]? = none) :
    Unlocks s w i stop again done e (s.setWorker w ((s.workers w).goto done))
  | insert {e : Option TIDword} {we : WriteElement K β} (hlt : i < stop)
    (hwe : (s.workers w).write_set_[i]? = some we) (hop : we.op_ = .INSERT) :
    Unlocks s w i stop again done e (s.setWorker w ((s.workers w).goto (again (i + 1) none)))
  | load {we : WriteElement K β} (hlt : i < stop) (hwe : (s.workers w).write_set_[i]? = some we)
    (hop : we.op_ ≠ .INSERT) :
    Unlocks s w i stop again done none
      (s.setWorker w ((s.workers w).goto (again i (some (s.tidword we.value_)))))
  | unlock {we : WriteElement K β} {x : TIDword} (hlt : i < stop)
    (hwe : (s.workers w).write_set_[i]? = some we) (hop : we.op_ ≠ .INSERT) :
    Unlocks s w i stop again done (some x) ((s.setTid we.value_ { x with lock := false }).setWorker w
      ((s.workers w).goto (again (i + 1) none)))

omit [DecidableEq K] [DecidableEq β] in
theorem unlocks_of_stepUnlock {s s' : State W K β} {w : W} {i stop : Nat} {e : Option TIDword}
    {again : Nat → Option TIDword → Pc K} {done : Pc K}
    (hs : stepUnlock s w (s.workers w) i stop e again done = s') :
    Unlocks s w i stop again done e s' := by
  subst hs
  unfold stepUnlock
  split
  · exact .done (Or.inl ‹_›)
  rename_i hlt
  have hlt : i < stop := Nat.not_le.mp hlt
  split
  · exact .done (Or.inr ‹_›)
  rename_i we hwe
  split
  · exact .insert hlt hwe ‹_›
  rename_i hop
  split
  · exact .load hlt hwe hop
  · exact .unlock hlt hwe hop

/-- The branches of `stepWriting` from its word `m`, with what each of them requires; the flag
says that the body is already stored. -/
inductive Writings (s : State W K β) (w : W) (i : Nat) (m : TIDword) : Bool → State W K β → Prop
  | finish {b : Bool} (hend : (s.workers w).write_set_[i]? = none) :
    Writings s w i m b (s.setWorker w ((s.workers w).goto .idle))
  | body {we : WriteElement K β} (hwe : (s.workers w).write_set_[i]? = some we) (hop : we.op_ = .WRITE) :
    Writings s w i m false
      ((s.setBody we.value_ we.new_value_body_).setWorker w ((s.workers w).goto (.writing i m true)))
  | write {we : WriteElement K β} (hwe : (s.workers w).write_set_[i]? = some we) (hop : we.op_ = .WRITE) :
    Writings s w i m true
      ((s.setTid we.value_ m).setWorker w ((s.workers w).goto (.writing (i + 1) m false)))
  | insert {b : Bool} {we : WriteElement K β} (hwe : (s.workers w).write_set_[i]? = some we)
    (hop : we.op_ = .INSERT) :
    Writings s w i m b ((s.setTid we.value_ { m with absent := false }).setWorker w
      ((s.workers w).goto (.writing (i + 1) { m with absent := false } false)))
  | delete {b : Bool} {we : WriteElement K β} (hwe : (s.workers w).write_set_[i]? = some we)
    (hop : we.op_ = .DELETE) :
    Writings s w i m b ((s.setTid we.value_ { m with absent := true }).setWorker w
      ((s.workers w).goto (.writing (i + 1) { m with absent := true } false)))

omit [DecidableEq K] [DecidableEq β] in
theorem writings_of_stepWriting {s s' : State W K β} {w : W} {i : Nat} {m : TIDword} {b : Bool}
    (hs : stepWriting s w (s.workers w) i m b = some s') : Writings s w i m b s' := by
  unfold stepWriting at hs
  split at hs
  · rename_i hend
    obtain rfl := Option.some.inj hs
    exact .finish hend
  rename_i we hwe
  cases hop : we.op_ with
  | WRITE =>
    simp only [hop] at hs
    cases b with
    | true =>
      obtain rfl := Option.some.inj hs
      exact .write hwe hop
    | false =>
      obtain rfl := Option.some.inj hs
      exact .body hwe hop
  | INSERT =>
    simp only [hop] at hs
    obtain rfl := Option.some.inj hs
    exact .insert hwe hop
  | DELETE =>
    simp only [hop] at hs
    obtain rfl := Option.some.inj hs
    exact .delete hwe hop
  | _ =>
    simp only [hop] at hs
    cases hs

section
variable [Inhabited β]

/-- The branches of `work`, with what each of them requires. -/
inductive Works (s : State W K β) (w : W) : Op K β → State W K β → Prop
  | begin (hpc : (s.workers w).pc = .idle) : Works s w .begin (s.setWorker w (s.workers w).begin)
  | read {k : K} (hpc : (s.workers w).pc = .running) :
    Works s w (.read k) (s.setWorker w (read s (s.workers w) k))
  | write {k : K} {b : β} (hpc : (s.workers w).pc = .running) :
    Works s w (.write k b) (s.setWorker w (write s (s.workers w) k b))
  | insert {k : K} {b : β} (hpc : (s.workers w).pc = .running) :
    Works s w (.insert k b) (insert s w (s.workers w) k b)
  | delete {k : K} (hpc : (s.workers w).pc = .running) :
    Works s w (.delete k) (s.setWorker w (tx_delete s (s.workers w) k default))
  | validate {order : List (WriteElement K β)} (hpc : (s.workers w).pc = .running)
    (hperm : order.Perm (s.workers w).write_set_) :
    Works s w (.validate order) (s.setWorker w { s.workers w with write_set_ := order, pc := .locking 0 none })
  | tick {s' : State W K β} (hs : tick s w (s.workers w) = some s') : Works s w .tick s'

theorem works_of_work {s s' : State W K β} {w : W} {op : Op K β} (hs : work s w op = some s') :
    Works s w op s' := by
  cases op with
  | tick => exact .tick hs
  | validate order =>
    obtain ⟨⟨hpc, hperm⟩, hs⟩ := Option.ite_none_right_eq_some.mp hs
    obtain rfl := Option.some.inj hs
    exact .validate hpc hperm
  | _ =>
    obtain ⟨hpc, hs⟩ := Option.ite_none_right_eq_some.mp hs
    obtain rfl := Option.some.inj hs
    constructor
    exact hpc

end

omit [DecidableEq β] in
/-- A step of `w` on shared memory leaves the other workers as they are. -/
theorem tick_other {s s' : State W K β} {w u : W} (hs : tick s w (s.workers w) = some s') (hu : u ≠ w) :
    s'.workers u = s.workers u := by
  have hset : ∀ (s₁ : State W K β) (t : TxExecutor K β), s₁.workers = s.workers →
      (s₁.setWorker w t).workers u = s.workers u := fun s₁ t he => by
    rw [setWorker_other s₁ t hu, he]
  cases ticks_of_tick hs with
  | readSpin | readBody | loadEpoch | storeEpoch => exact hset _ _ rfl
  | @locking i e =>
    generalize hs' : stepLocking s w (s.workers w) i e = s'
    cases lockings_of_stepLocking hs'
    all_goals exact hset _ _ rfl
  | unlockPrefix | unlocking =>
    generalize hs' : stepUnlock s w (s.workers w) _ _ _ _ _ = s'
    cases unlocks_of_stepUnlock hs'
    all_goals exact hset _ _ rfl
  | validating =>
    simp only [stepValidating]
    repeat' split
    all_goals exact hset _ _ rfl
  | aborting =>
    unfold stepAborting
    repeat' split
    all_goals exact hset _ _ rfl
  | writing _ hs =>
    cases writings_of_stepWriting hs
    all_goals exact hset _ _ rfl

theorem work_other [Inhabited β] {s s' : State W K β} {w u : W} {op : Op K β}
    (hs : work s w op = some s') (hu : u ≠ w) : s'.workers u = s.workers u := by
  cases works_of_work hs with
  | begin | read | write | delete | validate => exact setWorker_other s _ hu
  | insert =>
    unfold insert
    repeat' split
    all_goals exact setWorker_other s _ hu
  | tick hs => exact tick_other hs hu

end Cassa.SiloCC.Occ

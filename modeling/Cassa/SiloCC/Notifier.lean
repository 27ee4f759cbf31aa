import Cassa.SiloCC.DurableEpoch

/-!
# The notifier

`silo_notifier.cpp` on top of the machine of workers and loggers. `pass_nid` stores the
notification ids of a buffer under its epoch; once `check_durable` has returned, `notify`
sends what is stored up to the epoch that it found and recycles the items of the list.
-/

namespace Cassa.SiloCC.Durability

open Cassa.Lib.Runs

structure NidBufferItem (N : Type) where
  epoch_ : Nat
  buffer_ : List N
  deriving DecidableEq

/-- `front_` and the items after it. -/
structure NidBuffer (N : Type) where
  front_ : NidBufferItem N
  next_ : List (NidBufferItem N)
  deriving DecidableEq

namespace NidBuffer

variable {N : Type}

def new : NidBuffer N := ⟨⟨0, []⟩, []⟩

def items (n : NidBuffer N) : List (NidBufferItem N) := n.front_ :: n.next_

def min_epoch (n : NidBuffer N) : Nat := n.front_.epoch_

/-- `end_->epoch_` -/
def endEpoch (n : NidBuffer N) : Nat := (n.items.getLast (List.cons_ne_nil _ _)).epoch_

/-- `store` from the item `itr` on; `none` where the assertion fails. -/
def storeFrom (nid_buffer : List N) (epoch : Nat) (itr : NidBufferItem N) :
    List (NidBufferItem N) → Option (NidBuffer N)
  | [] =>
    if itr.epoch_ < epoch then some ⟨itr, [⟨epoch, nid_buffer⟩]⟩
    else if itr.epoch_ = epoch then some ⟨{ itr with buffer_ := itr.buffer_ ++ nid_buffer }, []⟩
    else none
  | next :: rest =>
    if itr.epoch_ < epoch then
      (storeFrom nid_buffer epoch next rest).map fun n => ⟨itr, n.items⟩
    else if itr.epoch_ = epoch then
      some ⟨{ itr with buffer_ := itr.buffer_ ++ nid_buffer }, next :: rest⟩
    else none

def store (n : NidBuffer N) (nid_buffer : List N) (epoch : Nat) : Option (NidBuffer N) :=
  storeFrom nid_buffer epoch n.front_ n.next_

/-- The loop of `notify`: the list afterwards, and what has been sent. After as many turns
as there are items, the front is the original one again. -/
def notifyLoop (min_dl : Nat) : Nat → NidBuffer N → NidBuffer N × List N
  | 0, n => (n, [])
  | turns + 1, n =>
    if n.front_.epoch_ ≤ min_dl then
      match n.next_ with
      | [] => (⟨{ n.front_ with buffer_ := [] }, []⟩, n.front_.buffer_)
      | next :: rest =>
        let after := notifyLoop min_dl turns ⟨next, rest ++ [⟨n.endEpoch + 1, []⟩]⟩
        (after.1, n.front_.buffer_ ++ after.2)
    else (n, [])

def notify (n : NidBuffer N) (min_dl : Nat) : NidBuffer N × List N :=
  notifyLoop min_dl n.items.length n

/-- The part of `make_durable` after `check_durable`. -/
def make_durable (n : NidBuffer N) (min_dl : Nat) : NidBuffer N × List N :=
  if n.min_epoch > min_dl then (n, []) else n.notify min_dl

end NidBuffer

/-- A notification id, and the epoch under which it was stored. -/
structure Nid where
  tid_ : TIDword
  epoch : Nat
  deriving DecidableEq

structure NotifierState (K β D : Type) where
  base : State K β D
  nid_buffer_ : Nat → NidBuffer Nid
  /-- the local variable of `check_durable` and `make_durable`, from its last assignment
  to the notification -/
  min_dl : Nat → Option Nat
  notified : List Nid
  /-- the assertion of `store` has failed -/
  storeFailed : Bool

inductive NotifierAction (K β : Type) where
  | act (a : Action K β)
  | notify (l : Nat)

variable {K β D : Type}

/-- The durable epoch in `pepoch.seal`, 0 where none has been written. -/
def State.pepochValue (s : State K β D) : Nat := s.pepoch.getD 0

/-- `pass_nid` -/
def pass_nid (n : NidBuffer Nid) (b : LogBuffer K β) : Option (NidBuffer Nid) :=
  if b.nid_set_.isEmpty then some n
  else n.store (b.nid_set_.map fun tid => ⟨tid, b.min_epoch_⟩) b.min_epoch_

/-- What a step of logger `l`, which leads the others to `t`, does here. -/
def loggerStep (c : Config) (s : NotifierState K β D) (l : Nat) (t : State K β D) :
    Option (NotifierState K β D) :=
  match (s.base.loggers l).pc with
  | .returnBuffer _ (b :: _) =>
    match pass_nid (s.nid_buffer_ l) b with
    | none => some { s with base := { s.base with halted := true }, storeFailed := true }
    | some n => some { s with base := t, nid_buffer_ := Function.update s.nid_buffer_ l n }
  | .checkDurable _ i min_dl =>
    if c.num_logger_threads ≤ i then
      some { s with base := t, min_dl := Function.update s.min_dl l (some min_dl) }
    else some { s with base := t }
  | .storeDurable _ =>
    if (s.min_dl l).isSome then none else some { s with base := t }
  | _ => some { s with base := t }

def notifierStep (c : Config) (h : Hash K β D) (s : NotifierState K β D) :
    NotifierAction K β → Option (NotifierState K β D)
  | .act (.work w op) => (step c h s.base (.work w op)).map fun t => { s with base := t }
  | .act (.log l) => (step c h s.base (.log l)).bind (loggerStep c s l)
  | .notify l =>
    match s.base.halted, (s.base.loggers l).pc, s.min_dl l with
    | false, .storeDurable _, some d =>
      let after := (s.nid_buffer_ l).make_durable d
      some { s with
        nid_buffer_ := Function.update s.nid_buffer_ l after.1
        min_dl := Function.update s.min_dl l none
        notified := s.notified ++ after.2 }
    | _, _, _ => none

structure NotifierInit (h : Hash K β D) (s : NotifierState K β D) : Prop where
  base : Init h s.base
  buffers : ∀ l, s.nid_buffer_ l = .new
  min_dl : ∀ l, s.min_dl l = none
  notified : s.notified = []
  storeFailed : s.storeFailed = false

/-- The branches of `notifierStep`, with what each of them requires. -/
inductive NotifierSteps (c : Config) (h : Hash K β D) (s : NotifierState K β D) :
    NotifierAction K β → NotifierState K β D → Prop
  | work {w : Nat} {op : Op K β} {t : State K β D} (hrun : s.base.halted = false)
    (hw : w < c.num_worker_threads) (ht : work c s.base w op = some t) :
    NotifierSteps c h s (.act (.work w op)) { s with base := t }
  | log {l : Nat} {t : State K β D} {s' : NotifierState K β D} (hrun : s.base.halted = false)
    (hl : l < c.num_logger_threads) (ht : log c h s.base l = some t) (hs : loggerStep c s l t = some s') :
    NotifierSteps c h s (.act (.log l)) s'
  | notify {l nd d : Nat} (hrun : s.base.halted = false) (hpc : (s.base.loggers l).pc = .storeDurable nd)
    (hd : s.min_dl l = some d) :
    NotifierSteps c h s (.notify l) { s with
      nid_buffer_ := Function.update s.nid_buffer_ l ((s.nid_buffer_ l).make_durable d).1
      min_dl := Function.update s.min_dl l none
      notified := s.notified ++ ((s.nid_buffer_ l).make_durable d).2 }

theorem notifierSteps_of_notifierStep {c : Config} {h : Hash K β D} {s s' : NotifierState K β D}
    {a : NotifierAction K β} (hs : notifierStep c h s a = some s') : NotifierSteps c h s a s' := by
  cases a with
  | act a =>
    cases a with
    | work w op =>
      obtain ⟨t, ht, rfl⟩ := Option.map_eq_some_iff.mp hs
      cases steps_of_step ht with
      | work hrun hw ht => exact .work hrun hw ht
    | log l =>
      obtain ⟨t, ht, hs⟩ := Option.bind_eq_some_iff.mp hs
      cases steps_of_step ht with
      | log hrun hl ht => exact .log hrun hl ht hs
  | notify l =>
    simp only [notifierStep] at hs
    split at hs
    · rename_i nd d hrun hpc hd
      obtain rfl := Option.some.inj hs
      exact .notify hrun hpc hd
    · cases hs

def notifierStarted : NotifierState Nat Nat Unit := ⟨started, fun _ => .new, fun _ => none, [], false⟩

theorem notifierStarted_init : NotifierInit unitHash notifierStarted :=
  ⟨started_init, fun _ => rfl, fun _ => rfl, rfl, rfl⟩

def acts (as : List (Action Nat Nat)) : List (NotifierAction Nat Nat) := as.map .act

end Cassa.SiloCC.Durability

import Mathlib.Logic.Function.Basic
import Cassa.Lib.Custody
import Cassa.Lib.Runs
import Cassa.SiloCC.BufferPool
import Cassa.SiloCC.NidMemory

/-!
# The way of a request

From the session monitor to the response. A request waits in the queue of a worker, is executed,
and is answered by the worker if it fails or has only read. One that has written goes into a log
buffer as a notification id, with the buffer to a logger, from there into the logger's
`NidBuffer`, and is answered when that is told of a durable epoch. What the database makes of a
request is left open, and so is the epoch of a commit. A response for a session that has gone is
not sent.

A failed assertion stops the process: there is no next state. Of a `NidBuffer` only the list of
its items is kept, which the pointers carry out.
-/

namespace Cassa.Server.Custody

open Cassa.Lib.Runs Cassa.Lib.Custody
open Cassa.SiloCC.BufferPool (Stage)
open Cassa.SiloCC.Durability (BUFFER_NUM MAX_BUFFERED_LOG_ENTRIES)
open Cassa.SiloCC.NidMemory (Entry storeItems notifyItems)

variable {S : Type} [DecidableEq S]

structure Token (S : Type) where
  /-- how many requests the monitor had read before -/
  number : Nat
  session_id : S
  /-- the session that the request names, and that is answered -/
  client_sessionID : S
  deriving DecidableEq

structure LogBuffer (S : Type) where
  pool_ : Nat
  log_set_size_ : Nat
  nid_set_ : List (Token S)
  min_epoch_ : UInt64
  max_epoch_ : UInt64

namespace LogBuffer

def new (w : Nat) : LogBuffer S := ⟨w, 0, [], ~~~0, 0⟩

/-- `push` of a write set with `n` elements. -/
def push (b : LogBuffer S) (nid : Token S) (epoch : UInt64) (n : Nat) : Option (LogBuffer S) :=
  if n = 0 then some b
  else
    let min_epoch_ := if epoch < b.min_epoch_ then epoch else b.min_epoch_
    let max_epoch_ := if epoch > b.max_epoch_ then epoch else b.max_epoch_
    if min_epoch_ = max_epoch_ then
      some { b with
        log_set_size_ := b.log_set_size_ + n
        nid_set_ := b.nid_set_ ++ [nid]
        min_epoch_ := min_epoch_
        max_epoch_ := max_epoch_ }
    else none

end LogBuffer

inductive Pc (S : Type) where
  | idle
  | executing (t : Token S)
  /-- inside `LogBufferPool::push` -/
  | pushing (t : Token S) (epoch : UInt64) (n : Nat)
  /-- the worker is about to send the response itself -/
  | replying (t : Token S)

/-- The worker is past the operations of its transaction. -/
def Pc.working : Pc S → Bool
  | .idle | .executing _ => false
  | .pushing _ _ _ | .replying _ => true

structure Worker (S : Type) where
  pc : Pc S
  current_buffer_ : Option (LogBuffer S)
  pool_ : List (LogBuffer S)

structure Logger (S : Type) where
  queue_ : List (LogBuffer S)
  log_buffer_vec : List (LogBuffer S)
  stage : Stage
  nid_buffer_ : List (Entry (Token S))
  /-- what `notify` has still to send -/
  sending : List (Token S)

structure State (S : Type) where
  ssl_sessions_ : S → Bool
  transaction_queues_ : Nat → List (Token S)
  workers : Nat → Worker S
  loggers : Nat → Logger S
  /-- the requests that have been read, the responses that have been sent and those that have not -/
  arrived : List (Token S)
  answered : List (Token S)
  dropped : List (Token S)

inductive Action (S : Type) where
  | addSession (session_id : S)
  | removeSession (session_id : S)
  /-- the monitor reads a request; `w` is the queue that is drawn -/
  | putTransaction (session_id client_sessionID : S) (w : Nat)
  | getTransaction (w : Nat)
  /-- `execute_transaction` returns a code that is not 0 -/
  | fail (w : Nat)
  /-- `wal` of a transaction with `n` elements in its write set -/
  | push (w : Nat) (epoch : UInt64) (n : Nat) (new_epoch_begins : Bool)
  | ready (w : Nat)
  | reply (w : Nat)
  /-- `durableEpochWork` -/
  | publish (w : Nat)
  | is_ready (w : Nat)
  | deq (l : Nat)
  | write (l : Nat)
  | pass_nid (l : Nat)
  | return_buffer (l : Nat)
  | make_durable (l : Nat) (min_dl : UInt64)
  | send (l : Nat)

def State.setWorker (s : State S) (w : Nat) (t : Worker S) : State S :=
  { s with workers := Function.update s.workers w t }

def State.setLogger (s : State S) (l : Nat) (g : Logger S) : State S :=
  { s with loggers := Function.update s.loggers l g }

/-- `getSession`, and the message if there is one. -/
def State.respond (s : State S) (t : Token S) : State S :=
  if s.ssl_sessions_ t.client_sessionID then { s with answered := s.answered ++ [t] }
  else { s with dropped := s.dropped ++ [t] }

/-- `queue_[x->min_epoch_].emplace_back(x)` -/
def enq (x : LogBuffer S) : List (LogBuffer S) → List (LogBuffer S)
  | [] => [x]
  | y :: ys => if x.min_epoch_ < y.min_epoch_ then x :: y :: ys else y :: enq x ys

def is_ready (t : Worker S) : Worker S :=
  match t.current_buffer_ with
  | some _ => t
  | none =>
    match t.pool_.getLast? with
    | some b => { t with current_buffer_ := some b, pool_ := t.pool_.dropLast }
    | none => t

/-- `publish` with a buffer at hand. -/
def publish (logger_thid_ : Nat → Nat) (s : State S) (w : Nat) (b : LogBuffer S) : State S :=
  if b.nid_set_.isEmpty then s
  else
    let l := logger_thid_ w
    (s.setLogger l { s.loggers l with queue_ := enq b (s.loggers l).queue_ }).setWorker w
      { s.workers w with current_buffer_ := none }

def step (logger_thid_ : Nat → Nat) (s : State S) : Action S → Option (State S)
  | .addSession session_id =>
    if s.ssl_sessions_ session_id then none
    else some { s with ssl_sessions_ := Function.update s.ssl_sessions_ session_id true }
  | .removeSession session_id => some { s with ssl_sessions_ := Function.update s.ssl_sessions_ session_id false }
  | .putTransaction session_id client_sessionID w =>
    if s.ssl_sessions_ session_id then
      let t : Token S := ⟨s.arrived.length, session_id, client_sessionID⟩
      some { s with
        arrived := s.arrived ++ [t]
        transaction_queues_ := Function.update s.transaction_queues_ w (s.transaction_queues_ w ++ [t]) }
    else none
  | .getTransaction w =>
    match (s.workers w).pc, s.transaction_queues_ w with
    | .idle, t :: rest => some { s.setWorker w { s.workers w with pc := .executing t } with
        transaction_queues_ := Function.update s.transaction_queues_ w rest }
    | _, _ => none
  | .fail w =>
    match (s.workers w).pc with
    | .executing t => some (s.setWorker w { s.workers w with pc := .replying t })
    | _ => none
  | .push w epoch n new_epoch_begins =>
    match (s.workers w).pc, (s.workers w).current_buffer_ with
    | .executing t, some b =>
      let full := b.log_set_size_ > MAX_BUFFERED_LOG_ENTRIES ∨ new_epoch_begins = true
      let s := if full then publish logger_thid_ s w b else s
      some (s.setWorker w { s.workers w with pc := .pushing t epoch n })
    | _, _ => none
  | .ready w =>
    match (s.workers w).pc, (is_ready (s.workers w)).current_buffer_ with
    | .pushing t epoch n, some b => (b.push t epoch n).map fun b =>
        s.setWorker w { is_ready (s.workers w) with
          current_buffer_ := some b
          pc := if n = 0 then .replying t else .idle }
    | _, _ => none
  | .reply w =>
    match (s.workers w).pc with
    | .replying t => some ((s.setWorker w { s.workers w with pc := .idle }).respond t)
    | _ => none
  | .publish w =>
    match (s.workers w).pc.working, (s.workers w).current_buffer_ with
    | false, some b => if b.log_set_size_ = 0 then none else some (publish logger_thid_ s w b)
    | _, _ => none
  | .is_ready w =>
    if (s.workers w).pc.working then none else some (s.setWorker w (is_ready (s.workers w)))
  | .deq l =>
    match (s.loggers l).log_buffer_vec, (s.loggers l).sending with
    | [], [] => some (s.setLogger l { s.loggers l with
        queue_ := [], log_buffer_vec := (s.loggers l).queue_, stage := .write })
    | _, _ => none
  | .write l =>
    match (s.loggers l).stage, (s.loggers l).log_buffer_vec with
    | .write, b :: rest => some (s.setLogger l { s.loggers l with
        log_buffer_vec := { b with log_set_size_ := 0 } :: rest, stage := .pass_nid })
    | _, _ => none
  | .pass_nid l =>
    match (s.loggers l).stage, (s.loggers l).log_buffer_vec with
    | .pass_nid, b :: rest =>
      if b.nid_set_.isEmpty then some (s.setLogger l { s.loggers l with stage := .return_buffer })
      else (storeItems b.nid_set_ b.min_epoch_ (s.loggers l).nid_buffer_).map fun items =>
        s.setLogger l { s.loggers l with
          nid_buffer_ := items
          log_buffer_vec := { b with nid_set_ := [], min_epoch_ := ~~~0, max_epoch_ := 0 } :: rest
          stage := .return_buffer }
    | _, _ => none
  | .return_buffer l =>
    match (s.loggers l).stage, (s.loggers l).log_buffer_vec with
    | .return_buffer, b :: rest => some ((s.setLogger l { s.loggers l with
        log_buffer_vec := rest, stage := .write }).setWorker b.pool_
          { s.workers b.pool_ with pool_ := (s.workers b.pool_).pool_ ++ [b] })
    | _, _ => none
  | .make_durable l min_dl =>
    match (s.loggers l).log_buffer_vec, (s.loggers l).sending, (s.loggers l).nid_buffer_ with
    | [], [], (min_epoch, ids) :: items =>
      if min_epoch > min_dl then some s
      else
        let r := notifyItems min_dl ((min_epoch, ids) :: items) []
        some (s.setLogger l { s.loggers l with nid_buffer_ := r.1, sending := r.2 })
    | _, _, _ => none
  | .send l =>
    match (s.loggers l).sending with
    | t :: rest => some ((s.setLogger l { s.loggers l with sending := rest }).respond t)
    | [] => none

/-- Nothing has been read yet. -/
structure Init (s : State S) : Prop where
  queues : ∀ w, s.transaction_queues_ w = []
  workers : ∀ w, s.workers w = ⟨.idle, some (.new w), List.replicate (BUFFER_NUM - 1) (.new w)⟩
  loggers : ∀ l, s.loggers l = ⟨[], [], .write, [(0, [])], []⟩
  arrived : s.arrived = []
  answered : s.answered = []
  dropped : s.dropped = []

inductive Place where
  | transaction_queue (w : Nat)
  | worker (w : Nat)
  | log_buffers (w : Nat)
  | log_queue (l : Nat)
  | log_buffer_vec (l : Nat)
  | nid_buffer (l : Nat)
  | sending (l : Nat)
  | answered
  | dropped
  deriving DecidableEq

def Pc.tokens : Pc S → List (Token S)
  | .idle => []
  | .executing t => [t]
  | .pushing t _ _ => [t]
  | .replying t => [t]

def nids (bs : List (LogBuffer S)) : List (Token S) := bs.flatMap (·.nid_set_)

def ids (items : List (Entry (Token S))) : List (Token S) := items.flatMap Prod.snd

def State.place (s : State S) : Place → List (Token S)
  | .transaction_queue w => s.transaction_queues_ w
  | .worker w => (s.workers w).pc.tokens
  | .log_buffers w => nids ((s.workers w).current_buffer_.toList ++ (s.workers w).pool_)
  | .log_queue l => nids (s.loggers l).queue_
  | .log_buffer_vec l => nids (s.loggers l).log_buffer_vec
  | .nid_buffer l => ids (s.loggers l).nid_buffer_
  | .sending l => (s.loggers l).sending
  | .answered => s.answered
  | .dropped => s.dropped

section

variable {logger_thid_ : Nat → Nat} {s s' : State S} {a : Action S} {w l : Nat} {t : Token S} {b : LogBuffer S}

section
omit [DecidableEq S]

theorem nids_append (bs bs' : List (LogBuffer S)) : nids (bs ++ bs') = nids bs ++ nids bs' := List.flatMap_append

theorem nids_cons (b : LogBuffer S) (bs : List (LogBuffer S)) : nids (b :: bs) = b.nid_set_ ++ nids bs := rfl

theorem ids_append (items items' : List (Entry (Token S))) : ids (items ++ items') = ids items ++ ids items' :=
  List.flatMap_append

end

section
omit [DecidableEq S]

theorem nids_enq (b : LogBuffer S) (q : List (LogBuffer S)) : (nids (enq b q)).Perm (b.nid_set_ ++ nids q) := by
  induction q with
  | nil => exact .refl _
  | cons y ys ih =>
    rw [enq]
    split
    · exact .refl _
    · rw [nids_cons, nids_cons]
      refine (ih.append_left y.nid_set_).trans ?_
      rw [← List.append_assoc, ← List.append_assoc]
      exact List.perm_append_comm.append_right _

/-- Taking a buffer from the pool moves no request. -/
theorem nids_is_ready (t : Worker S) :
    (nids ((is_ready t).current_buffer_.toList ++ (is_ready t).pool_)).Perm (nids (t.current_buffer_.toList ++ t.pool_)) := by
  unfold is_ready
  cases hc : t.current_buffer_ with
  | some b => simp [hc]
  | none =>
    cases hl : t.pool_.getLast? with
    | none => simp [hc]
    | some b =>
      have hpool : t.pool_ = t.pool_.dropLast ++ [b] := (List.dropLast_append_getLast? b hl).symm
      rw [Option.toList_none, List.nil_append, hpool, List.dropLast_concat, nids_append, nids_append]
      exact List.perm_append_comm

theorem is_ready_pc (t : Worker S) : (is_ready t).pc = t.pc := by
  unfold is_ready
  cases t.current_buffer_ with
  | some b => rfl
  | none => cases t.pool_.getLast? <;> rfl

theorem ids_storeItems {nid_set_ : List (Token S)} {epoch : UInt64} {items items' : List (Entry (Token S))}
    (h : storeItems nid_set_ epoch items = some items') : (ids items').Perm (nid_set_ ++ ids items) := by
  induction items generalizing items' with
  | nil =>
    obtain rfl := Option.some.inj h
    exact .refl _
  | cons item items ih =>
    obtain ⟨epoch_, buffer_⟩ := item
    rw [storeItems] at h
    split at h
    · obtain ⟨rest, hrest, rfl⟩ := Option.map_eq_some_iff.mp h
      change (buffer_ ++ ids rest).Perm (nid_set_ ++ (buffer_ ++ ids items))
      refine ((ih hrest).append_left buffer_).trans ?_
      rw [← List.append_assoc, ← List.append_assoc]
      exact List.perm_append_comm.append_right _
    split at h
    · obtain rfl := Option.some.inj h
      change (buffer_ ++ nid_set_ ++ ids items).Perm (nid_set_ ++ (buffer_ ++ ids items))
      rw [← List.append_assoc]
      exact List.perm_append_comm.append_right _
    · cases h

theorem ids_notifyItems (min_dl : UInt64) (items again : List (Entry (Token S))) :
    (ids items ++ ids again).Perm ((notifyItems min_dl items again).2 ++ ids (notifyItems min_dl items again).1) := by
  induction items generalizing again with
  | nil => exact .refl _
  | cons item items ih =>
    obtain ⟨epoch_, buffer_⟩ := item
    rw [notifyItems]
    split
    · split
      · obtain ⟨rfl, rfl⟩ := ‹_ ∧ _›
        simp [ids]
      · dsimp only
        have := ih (again ++ [(SiloCC.NidMemory.endEpoch (items ++ again) + 1, [])])
        rw [ids_append, show ids [(SiloCC.NidMemory.endEpoch (items ++ again) + 1, ([] : List (Token S)))] = [] from rfl,
          List.append_nil] at this
        change (buffer_ ++ ids items ++ ids again).Perm _
        rw [List.append_assoc, List.append_assoc]
        exact this.append_left buffer_
    · rw [List.nil_append, ← ids_append]

theorem place_setWorker (s : State S) (w : Nat) (x : Worker S) (p : Place) :
    (s.setWorker w x).place p =
      if p = .worker w then x.pc.tokens
      else if p = .log_buffers w then nids (x.current_buffer_.toList ++ x.pool_)
      else s.place p := by
  cases p with
  | worker w' => by_cases hw : w' = w <;> simp [State.place, State.setWorker, hw]
  | log_buffers w' => by_cases hw : w' = w <;> simp [State.place, State.setWorker, hw]
  | _ => simp [State.place, State.setWorker]

theorem place_setLogger (s : State S) (l : Nat) (g : Logger S) (p : Place) :
    (s.setLogger l g).place p =
      if p = .log_queue l then nids g.queue_
      else if p = .log_buffer_vec l then nids g.log_buffer_vec
      else if p = .nid_buffer l then ids g.nid_buffer_
      else if p = .sending l then g.sending
      else s.place p := by
  cases p with
  | log_queue l' => by_cases hl : l' = l <;> simp [State.place, State.setLogger, hl]
  | log_buffer_vec l' => by_cases hl : l' = l <;> simp [State.place, State.setLogger, hl]
  | nid_buffer l' => by_cases hl : l' = l <;> simp [State.place, State.setLogger, hl]
  | sending l' => by_cases hl : l' = l <;> simp [State.place, State.setLogger, hl]
  | _ => simp [State.place, State.setLogger]

end

/-- What a step does with the requests. -/
inductive Moves (s s' : State S) : Prop
  | stay (harrived : s'.arrived = s.arrived) (h : ∀ p, (s'.place p).Perm (s.place p))
  | come (t : Token S) (w : Nat) (hnumber : t.number = s.arrived.length) (harrived : s'.arrived = s.arrived ++ [t])
      (h : Arrived (.transaction_queue w) t s.place s'.place)
  | hand (p q : Place) (ts : List (Token S)) (hpq : p ≠ q) (harrived : s'.arrived = s.arrived)
      (h : Handed p q ts s.place s'.place)

section
omit [DecidableEq S]

/-- A worker that is set changes its own two places at most. -/
theorem perm_setWorker {x : Worker S} {p : Place} (hpc : p = .worker w → x.pc.tokens = (s.workers w).pc.tokens)
    (hbuffers : p = .log_buffers w → (nids (x.current_buffer_.toList ++ x.pool_)).Perm
      (nids ((s.workers w).current_buffer_.toList ++ (s.workers w).pool_))) :
    ((s.setWorker w x).place p).Perm (s.place p) := by
  rw [place_setWorker]
  split
  · subst p
    exact .of_eq (hpc rfl)
  split
  · subst p
    exact hbuffers rfl
  · exact .refl _

/-- A logger that is set changes its own four places at most. -/
theorem perm_setLogger {g : Logger S} {p : Place} (hqueue : p = .log_queue l → g.queue_ = (s.loggers l).queue_)
    (hvec : p = .log_buffer_vec l → nids g.log_buffer_vec = nids (s.loggers l).log_buffer_vec)
    (hnid : p = .nid_buffer l → g.nid_buffer_ = (s.loggers l).nid_buffer_)
    (hsending : p = .sending l → g.sending = (s.loggers l).sending) :
    ((s.setLogger l g).place p).Perm (s.place p) := by
  rw [place_setLogger]
  split
  · subst p
    rw [hqueue rfl]
    exact .refl _
  split
  · subst p
    exact .of_eq (hvec rfl)
  split
  · subst p
    rw [hnid rfl]
    exact .refl _
  split
  · subst p
    exact .of_eq (hsending rfl)
  · exact .refl _

theorem moves_setWorker {x : Worker S} (hpc : x.pc.tokens = (s.workers w).pc.tokens)
    (hbuffers : (nids (x.current_buffer_.toList ++ x.pool_)).Perm
      (nids ((s.workers w).current_buffer_.toList ++ (s.workers w).pool_))) : Moves s (s.setWorker w x) :=
  .stay rfl fun _ => perm_setWorker (fun _ => hpc) fun _ => hbuffers

theorem moves_publish (hb : (s.workers w).current_buffer_ = some b) {x : Worker S}
    (hpc : x.pc.tokens = (s.workers w).pc.tokens) (hcur : x.current_buffer_ = none) (hpool : x.pool_ = (s.workers w).pool_)
    (l : Nat) :
    Moves s ((s.setLogger l { s.loggers l with queue_ := enq b (s.loggers l).queue_ }).setWorker w x) := by
  refine .hand (.log_buffers w) (.log_queue l) b.nid_set_ nofun rfl ⟨?_, ?_, fun p hp hq => ?_⟩
  · rw [place_setWorker, if_neg nofun, if_pos rfl, hcur, hpool]
    simp [State.place, hb, nids]
  · rw [place_setWorker, if_neg nofun, if_neg nofun, place_setLogger, if_pos rfl]
    exact nids_enq _ _
  · refine .trans (perm_setWorker (fun _ => hpc) fun he => absurd he hp) ?_
    exact perm_setLogger (fun he => absurd he hq) (fun _ => rfl) (fun _ => rfl) fun _ => rfl

/-- A step inside a logger: `ts` go from one of its places to another. -/
theorem moves_setLogger {g : Logger S} {p q : Place} (ts : List (Token S)) (hpq : p ≠ q)
    (htaken : (s.place p).Perm (ts ++ (s.setLogger l g).place p))
    (hgiven : ((s.setLogger l g).place q).Perm (ts ++ s.place q))
    (hqueue : Place.log_queue l ≠ p → g.queue_ = (s.loggers l).queue_)
    (hvec : Place.log_buffer_vec l ≠ p → Place.log_buffer_vec l ≠ q →
      nids g.log_buffer_vec = nids (s.loggers l).log_buffer_vec)
    (hnid : Place.nid_buffer l ≠ p → Place.nid_buffer l ≠ q → g.nid_buffer_ = (s.loggers l).nid_buffer_)
    (hsending : Place.sending l ≠ p → Place.sending l ≠ q → g.sending = (s.loggers l).sending) :
    Moves s (s.setLogger l g) := by
  refine .hand p q ts hpq rfl ⟨htaken, hgiven, fun r hr hr' => ?_⟩
  refine perm_setLogger (fun he => ?_) (fun he => ?_) (fun he => ?_) fun he => ?_
  · exact hqueue (he ▸ hr)
  · exact hvec (he ▸ hr) (he ▸ hr')
  · exact hnid (he ▸ hr) (he ▸ hr')
  · exact hsending (he ▸ hr) (he ▸ hr')

/-- The response is sent, or the session has gone. -/
theorem moves_respond {s₁ : State S} {p : Place} (harrived : s₁.arrived = s.arrived)
    (hanswered : s₁.answered = s.answered) (hdropped : s₁.dropped = s.dropped)
    (hne : p ≠ .answered ∧ p ≠ .dropped)
    (htaken : (s.place p).Perm (t :: s₁.place p)) (hother : ∀ r, r ≠ p → (s₁.place r).Perm (s.place r)) :
    Moves s (s₁.respond t) := by
  have hkeep : ∀ r, r ≠ .answered → r ≠ .dropped → (s₁.respond t).place r = s₁.place r := by
    intro r h₁ h₂
    unfold State.respond
    split <;> cases r <;> first | rfl | contradiction
  unfold State.respond at hkeep ⊢
  split at hkeep
  · rw [if_pos ‹_›]
    refine .hand p .answered [t] hne.1 harrived ⟨?_, ?_, fun r hr hr' => ?_⟩
    · rw [hkeep p hne.1 hne.2]
      exact htaken
    · change (s₁.answered ++ [t]).Perm (t :: s.answered)
      rw [hanswered]
      exact List.perm_append_singleton t s.answered
    · by_cases hd : r = .dropped
      · subst hd
        exact .of_eq hdropped
      · rw [hkeep r hr' hd]
        exact hother r hr
  · rw [if_neg ‹_›]
    refine .hand p .dropped [t] hne.2 harrived ⟨?_, ?_, fun r hr hr' => ?_⟩
    · rw [hkeep p hne.1 hne.2]
      exact htaken
    · change (s₁.dropped ++ [t]).Perm (t :: s.dropped)
      rw [hdropped]
      exact List.perm_append_singleton t s.dropped
    · by_cases ha : r = .answered
      · subst ha
        exact .of_eq hanswered
      · rw [hkeep r ha hr']
        exact hother r hr

/-- A request that is pushed goes to the buffer, or stays to be answered by the worker. -/
theorem push_spec {b' : LogBuffer S} {epoch : UInt64} {n : Nat} (h : b.push t epoch n = some b') :
    b'.nid_set_ = b.nid_set_ ++ if n = 0 then [] else [t] := by
  unfold LogBuffer.push at h
  split at h
  · obtain rfl := Option.some.inj h
    simp [‹n = 0›]
  · dsimp only at h
    generalize (if epoch < b.min_epoch_ then epoch else b.min_epoch_) = lo at h
    generalize (if epoch > b.max_epoch_ then epoch else b.max_epoch_) = hi at h
    split at h
    · obtain rfl := Option.some.inj h
      simp [‹¬ n = 0›]
    · cases h

end

section

variable {session_id client_sessionID : S} {epoch min_dl : UInt64} {n : Nat} {new_epoch_begins : Bool}

theorem addSession_moves (h : step logger_thid_ s (.addSession session_id) = some s') : Moves s s' := by
  simp only [step] at h
  split at h
  · cases h
  · obtain rfl := Option.some.inj h
    exact .stay rfl fun p => by cases p <;> exact .refl _

theorem removeSession_moves (h : step logger_thid_ s (.removeSession session_id) = some s') : Moves s s' := by
  obtain rfl := Option.some.inj h
  exact .stay rfl fun p => by cases p <;> exact .refl _

theorem putTransaction_moves (h : step logger_thid_ s (.putTransaction session_id client_sessionID w) = some s') :
    Moves s s' := by
  simp only [step] at h
  split at h
  · obtain rfl := Option.some.inj h
    refine .come _ w rfl rfl ⟨?_, fun p hp => ?_⟩
    · simp only [State.place, Function.update_self]
      exact List.perm_append_singleton _ _
    · cases p with
      | transaction_queue w' =>
        have hw : w' ≠ w := fun hw => hp (hw ▸ rfl)
        simp only [State.place, Function.update_of_ne hw]
        exact .refl _
      | _ => exact .refl _
  · cases h

theorem getTransaction_moves (h : step logger_thid_ s (.getTransaction w) = some s') : Moves s s' := by
  simp only [step] at h
  split at h
  · rename_i t rest hpc hq
    obtain rfl := Option.some.inj h
    refine .hand (.transaction_queue w) (.worker w) [t] nofun rfl ⟨?_, ?_, fun p hp hp' => ?_⟩
    · simp only [State.place, hq, Function.update_self]
      exact .refl _
    · simp only [State.place, State.setWorker, Function.update_self, Pc.tokens, hpc]
      exact .refl _
    · have hworker : ((s.setWorker w { s.workers w with pc := .executing t }).place p).Perm (s.place p) :=
        perm_setWorker (fun he => absurd he hp') fun _ => .refl _
      cases p with
      | transaction_queue w' =>
        have hw : w' ≠ w := fun hw => hp (hw ▸ rfl)
        simp only [State.place, Function.update_of_ne hw]
        exact .refl _
      | _ => exact hworker
  · cases h

theorem fail_moves (h : step logger_thid_ s (.fail w) = some s') : Moves s s' := by
  simp only [step] at h
  split at h
  · rename_i t hpc
    obtain rfl := Option.some.inj h
    exact moves_setWorker (by rw [hpc]; rfl) (.refl _)
  · cases h

theorem push_moves (h : step logger_thid_ s (.push w epoch n new_epoch_begins) = some s') : Moves s s' := by
  simp only [step] at h
  split at h
  · rename_i t b hpc hb
    obtain rfl := Option.some.inj h
    have hstay : Moves s (s.setWorker w { s.workers w with pc := .pushing t epoch n }) :=
      moves_setWorker (by rw [hpc]; rfl) (.refl _)
    split
    · unfold publish
      split
      · exact hstay
      · have hset : ∀ (s₁ : State S) x y, (s₁.setWorker w x).setWorker w y = s₁.setWorker w y := by
          intro s₁ x y
          simp [State.setWorker]
        rw [hset]
        refine moves_publish hb ?_ ?_ ?_ _
        · rw [hpc]
          rfl
        · simp only [State.setWorker, Function.update_self]
        · simp only [State.setWorker, Function.update_self]
    · exact hstay
  · cases h

theorem ready_moves (h : step logger_thid_ s (.ready w) = some s') : Moves s s' := by
  simp only [step] at h
  split at h
  · rename_i t epoch n b hpc hb
    obtain ⟨b', hb', rfl⟩ := Option.map_eq_some_iff.mp h
    have hnids := push_spec hb'
    have hready := nids_is_ready (s.workers w)
    rw [hb] at hready
    by_cases hn : n = 0
    · subst hn
      refine moves_setWorker (by rw [hpc]; rfl) ?_
      rw [if_pos rfl, List.append_nil] at hnids
      refine .trans (.of_eq ?_) hready
      simp [nids, hnids]
    · rw [if_neg hn] at hnids
      refine .hand (.worker w) (.log_buffers w) [t] nofun rfl ⟨?_, ?_, fun p hp hp' => ?_⟩
      · rw [place_setWorker, if_pos rfl, if_neg hn]
        simp [State.place, hpc, Pc.tokens]
      · rw [place_setWorker, if_neg nofun, if_pos rfl]
        refine .trans ?_ (hready.append_left [t])
        simp only [nids, Option.toList_some, List.cons_append, List.nil_append, List.flatMap_cons, hnids]
        rw [List.append_assoc]
        exact List.perm_middle
      · rw [place_setWorker, if_neg hp, if_neg hp']
  · cases h

theorem reply_moves (h : step logger_thid_ s (.reply w) = some s') : Moves s s' := by
  simp only [step] at h
  split at h
  · rename_i t hpc
    obtain rfl := Option.some.inj h
    refine moves_respond (p := .worker w) rfl rfl rfl ⟨nofun, nofun⟩ ?_ fun p hp => ?_
    · rw [place_setWorker, if_pos rfl]
      simp [State.place, hpc, Pc.tokens]
    · exact perm_setWorker (fun he => absurd he hp) fun _ => .refl _
  · cases h

theorem publish_moves (h : step logger_thid_ s (.publish w) = some s') : Moves s s' := by
  simp only [step] at h
  split at h
  · rename_i b hpc hb
    split at h
    · cases h
    · obtain rfl := Option.some.inj h
      unfold publish
      split
      · exact .stay rfl fun p => .refl _
      · exact moves_publish (x := { s.workers w with current_buffer_ := none }) hb rfl rfl rfl _
  · cases h

theorem is_ready_moves (h : step logger_thid_ s (.is_ready w) = some s') : Moves s s' := by
  simp only [step] at h
  split at h
  · cases h
  · obtain rfl := Option.some.inj h
    exact moves_setWorker (by rw [is_ready_pc]) (nids_is_ready _)

theorem deq_moves (h : step logger_thid_ s (.deq l) = some s') : Moves s s' := by
  simp only [step] at h
  split at h
  · rename_i hvec hsending
    obtain rfl := Option.some.inj h
    refine moves_setLogger (p := .log_queue l) (q := .log_buffer_vec l) (nids (s.loggers l).queue_) nofun ?_ ?_
      (fun hne => absurd rfl hne) (fun _ hne => absurd rfl hne) (fun _ _ => rfl) (fun _ _ => rfl)
    · rw [place_setLogger, if_pos rfl]
      simp [State.place, nids]
    · rw [place_setLogger, if_neg nofun, if_pos rfl]
      simp [State.place, hvec, nids]
  · cases h

theorem write_moves (h : step logger_thid_ s (.write l) = some s') : Moves s s' := by
  simp only [step] at h
  split at h
  · rename_i b rest hstage hvec
    obtain rfl := Option.some.inj h
    refine .stay rfl fun p => perm_setLogger (fun _ => rfl) (fun _ => ?_) (fun _ => rfl) fun _ => rfl
    simp [hvec, nids]
  · cases h

theorem pass_nid_moves (h : step logger_thid_ s (.pass_nid l) = some s') : Moves s s' := by
  simp only [step] at h
  split at h
  · rename_i b rest hstage hvec
    split at h
    · obtain rfl := Option.some.inj h
      exact .stay rfl fun p => perm_setLogger (fun _ => rfl) (fun _ => rfl) (fun _ => rfl) fun _ => rfl
    · obtain ⟨items, hitems, rfl⟩ := Option.map_eq_some_iff.mp h
      refine moves_setLogger (p := .log_buffer_vec l) (q := .nid_buffer l) b.nid_set_ nofun ?_ ?_
        (fun _ => rfl) (fun hne => absurd rfl hne) (fun _ hne => absurd rfl hne) (fun _ _ => rfl)
      · rw [place_setLogger, if_neg nofun, if_pos rfl]
        simp [State.place, hvec, nids]
      · rw [place_setLogger, if_neg nofun, if_neg nofun, if_pos rfl]
        exact ids_storeItems hitems
  · cases h

theorem return_buffer_moves (h : step logger_thid_ s (.return_buffer l) = some s') : Moves s s' := by
  simp only [step] at h
  split at h
  · rename_i b rest hstage hvec
    obtain rfl := Option.some.inj h
    refine .hand (.log_buffer_vec l) (.log_buffers b.pool_) b.nid_set_ nofun rfl ⟨?_, ?_, fun p hp hp' => ?_⟩
    · rw [place_setWorker, if_neg nofun, if_neg nofun, place_setLogger, if_neg nofun, if_pos rfl]
      simp [State.place, hvec, nids]
    · rw [place_setWorker, if_neg nofun, if_pos rfl]
      simp only [State.place, nids_append, nids_cons]
      rw [← List.append_assoc]
      refine .trans ?_ List.perm_append_comm
      simp [nids]
    · refine .trans (perm_setWorker (fun _ => rfl) fun he => absurd he hp') ?_
      exact perm_setLogger (fun _ => rfl) (fun he => absurd he hp) (fun _ => rfl) fun _ => rfl
  · cases h

theorem make_durable_moves (h : step logger_thid_ s (.make_durable l min_dl) = some s') : Moves s s' := by
  simp only [step] at h
  split at h
  · rename_i min_epoch buffer_ items hvec hsending hnid
    split at h
    · obtain rfl := Option.some.inj h
      exact .stay rfl fun p => .refl _
    · obtain rfl := Option.some.inj h
      have hperm := ids_notifyItems min_dl ((min_epoch, buffer_) :: items) []
      refine moves_setLogger (p := .nid_buffer l) (q := .sending l)
        (notifyItems min_dl ((min_epoch, buffer_) :: items) []).2 nofun ?_ ?_ (fun _ => rfl) (fun _ _ => rfl)
        (fun hne => absurd rfl hne) (fun _ hne => absurd rfl hne)
      · rw [place_setLogger, if_neg nofun, if_neg nofun, if_pos rfl]
        simp only [State.place, hnid]
        rw [show ids ([] : List (Entry (Token S))) = [] from rfl, List.append_nil] at hperm
        exact hperm
      · rw [place_setLogger, if_neg nofun, if_neg nofun, if_neg nofun, if_pos rfl]
        simp [State.place, hsending]
  · cases h

theorem send_moves (h : step logger_thid_ s (.send l) = some s') : Moves s s' := by
  simp only [step] at h
  split at h
  · rename_i t rest hsending
    obtain rfl := Option.some.inj h
    refine moves_respond (p := .sending l) rfl rfl rfl ⟨nofun, nofun⟩ ?_ fun p hp => ?_
    · rw [place_setLogger, if_neg nofun, if_neg nofun, if_neg nofun, if_pos rfl]
      simp [State.place, hsending]
    · exact perm_setLogger (fun _ => rfl) (fun _ => rfl) (fun _ => rfl) fun he => absurd he hp
  · cases h

end

/-- Step lemma: a request stays where it is, comes in, or is handed on. -/
theorem step_moves (h : step logger_thid_ s a = some s') : Moves s s' := by
  cases a with
  | addSession session_id => exact addSession_moves h
  | removeSession session_id => exact removeSession_moves h
  | putTransaction session_id client_sessionID w => exact putTransaction_moves h
  | getTransaction w => exact getTransaction_moves h
  | fail w => exact fail_moves h
  | push w epoch n new_epoch_begins => exact push_moves h
  | ready w => exact ready_moves h
  | reply w => exact reply_moves h
  | publish w => exact publish_moves h
  | is_ready w => exact is_ready_moves h
  | deq l => exact deq_moves h
  | write l => exact write_moves h
  | pass_nid l => exact pass_nid_moves h
  | return_buffer l => exact return_buffer_moves h
  | make_durable l min_dl => exact make_durable_moves h
  | send l => exact send_moves h

structure Inv (s : State S) : Prop where
  place : OnePlace s.arrived s.place
  number : ∀ t ∈ s.arrived, t.number < s.arrived.length

omit [DecidableEq S] in
theorem inv_init (h : Init s) : Inv s := by
  refine ⟨?_, fun t ht => ?_⟩
  · rw [h.arrived]
    refine .empty fun p => ?_
    cases p with
    | transaction_queue w => exact h.queues w
    | worker w => rw [State.place, h.workers w]; rfl
    | log_buffers w => rw [State.place, h.workers w]; rfl
    | log_queue l => rw [State.place, h.loggers l]; rfl
    | log_buffer_vec l => rw [State.place, h.loggers l]; rfl
    | nid_buffer l => rw [State.place, h.loggers l]; rfl
    | sending l => rw [State.place, h.loggers l]
    | answered => exact h.answered
    | dropped => exact h.dropped
  · rw [h.arrived] at ht
    cases ht

theorem inv_step (hi : Inv s) (h : step logger_thid_ s a = some s') : Inv s' := by
  cases step_moves h with
  | stay harrived hp =>
    refine ⟨?_, ?_⟩
    · rw [harrived]
      exact hi.place.congr hp
    · rw [harrived]
      exact hi.number
  | come t w hnumber harrived ha =>
    have hnew : t ∉ s.arrived := fun ht => absurd (hi.number t ht) (by omega)
    refine ⟨?_, ?_⟩
    · rw [harrived]
      exact hi.place.arrive hnew ha
    · rw [harrived, List.length_append, List.length_singleton]
      intro u hu
      rcases List.mem_append.mp hu with hu | hu
      · exact Nat.lt_succ_of_lt (hi.number u hu)
      · rw [List.mem_singleton.mp hu, hnumber]
        exact Nat.lt_succ_self _
  | hand p q ts hpq harrived hh =>
    refine ⟨?_, ?_⟩
    · rw [harrived]
      exact hi.place.hand hpq hh
    · rw [harrived]
      exact hi.number

theorem inv_reach {ok : State S → Action S → Prop} (h : Reach (step logger_thid_) Init ok s) : Inv s :=
  h.invariant (fun _ => inv_init) fun _ _ _ hi _ hs => inv_step hi hs

/-- A request that has been read is in exactly one place, and there once: none is lost on its way,
and none is answered twice, or answered while it is still under way. -/
theorem requests_in_one_place (h : Reach (step logger_thid_) Init anyStep s) : OnePlace s.arrived s.place :=
  (inv_reach h).place

/-- A client names its own session, and sends a request when all its earlier ones are answered. -/
def Waiting (s : State S) : Action S → Prop
  | .putTransaction session_id client_sessionID _ =>
    client_sessionID = session_id ∧ ∀ t ∈ s.arrived, t.session_id = session_id → t ∈ s.answered
  | _ => True

instance (s : State S) : (a : Action S) → Decidable (Waiting s a)
  | .putTransaction session_id client_sessionID _ => inferInstanceAs (Decidable (client_sessionID = session_id ∧
      ∀ t ∈ s.arrived, t.session_id = session_id → t ∈ s.answered))
  | .addSession _ | .removeSession _ | .getTransaction _ | .fail _ | .push _ _ _ _ | .ready _ | .reply _ | .publish _
  | .is_ready _ | .deq _ | .write _ | .pass_nid _ | .return_buffer _ | .make_durable _ _ | .send _ => isTrue trivial

/-- The requests of a session, and the responses that it gets. -/
def State.requests (s : State S) (session_id : S) : List (Token S) := s.arrived.filter (·.session_id = session_id)

def State.responses (s : State S) (session_id : S) : List (Token S) :=
  s.answered.filter (·.client_sessionID = session_id)

section
omit [DecidableEq S]

theorem respond_answered (s : State S) (t : Token S) :
    (s.respond t).arrived = s.arrived ∧ ((s.respond t).answered = s.answered ∨ (s.respond t).answered = s.answered ++ [t]) := by
  unfold State.respond
  split
  · exact ⟨rfl, Or.inr rfl⟩
  · exact ⟨rfl, Or.inl rfl⟩

variable (logger_thid_) in
theorem publish_answered (s : State S) (w : Nat) (b : LogBuffer S) :
    (publish logger_thid_ s w b).arrived = s.arrived ∧ (publish logger_thid_ s w b).answered = s.answered := by
  unfold publish
  split <;> exact ⟨rfl, rfl⟩

end

/-- A request is read, or one that is under way may be answered, or neither. -/
theorem step_answered (h : step logger_thid_ s a = some s') :
    (∃ session_id client_sessionID w, a = .putTransaction session_id client_sessionID w ∧
      s'.arrived = s.arrived ++ [⟨s.arrived.length, session_id, client_sessionID⟩] ∧ s'.answered = s.answered) ∨
    s'.arrived = s.arrived ∧ (s'.answered = s.answered ∨
      ∃ t p, p ≠ .answered ∧ t ∈ s.place p ∧ s'.answered = s.answered ++ [t]) := by
  cases a with
  | putTransaction session_id client_sessionID w =>
    simp only [step] at h
    split at h
    · obtain rfl := Option.some.inj h
      exact Or.inl ⟨session_id, client_sessionID, w, rfl, rfl, rfl⟩
    · cases h
  | reply w =>
    simp only [step] at h
    split at h
    · rename_i t hpc
      obtain rfl := Option.some.inj h
      obtain ⟨harrived, hanswered⟩ := respond_answered (s.setWorker w { s.workers w with pc := .idle }) t
      refine Or.inr ⟨harrived, hanswered.imp id fun h => ⟨t, .worker w, nofun, ?_, h⟩⟩
      simp [State.place, hpc, Pc.tokens]
    · cases h
  | send l =>
    simp only [step] at h
    split at h
    · rename_i t rest hsending
      obtain rfl := Option.some.inj h
      obtain ⟨harrived, hanswered⟩ := respond_answered (s.setLogger l { s.loggers l with sending := rest }) t
      refine Or.inr ⟨harrived, hanswered.imp id fun h => ⟨t, .sending l, nofun, ?_, h⟩⟩
      simp [State.place, hsending]
    · cases h
  | addSession session_id =>
    simp only [step] at h
    split at h
    · cases h
    · obtain rfl := Option.some.inj h
      exact Or.inr ⟨rfl, Or.inl rfl⟩
  | removeSession session_id =>
    obtain rfl := Option.some.inj h
    exact Or.inr ⟨rfl, Or.inl rfl⟩
  | push w epoch n new_epoch_begins =>
    simp only [step] at h
    split at h
    · rename_i t b hpc hb
      obtain rfl := Option.some.inj h
      obtain ⟨harrived, hanswered⟩ := publish_answered logger_thid_ s w b
      split
      · exact Or.inr ⟨harrived, Or.inl hanswered⟩
      · exact Or.inr ⟨rfl, Or.inl rfl⟩
    · cases h
  | publish w =>
    simp only [step] at h
    split at h
    · rename_i b hpc hb
      obtain ⟨harrived, hanswered⟩ := publish_answered logger_thid_ s w b
      split at h
      · cases h
      · obtain rfl := Option.some.inj h
        exact Or.inr ⟨harrived, Or.inl hanswered⟩
    · cases h
  | ready w =>
    simp only [step] at h
    split at h
    · obtain ⟨b, -, rfl⟩ := Option.map_eq_some_iff.mp h
      exact Or.inr ⟨rfl, Or.inl rfl⟩
    · cases h
  | pass_nid l =>
    simp only [step] at h
    split at h
    · split at h
      · obtain rfl := Option.some.inj h
        exact Or.inr ⟨rfl, Or.inl rfl⟩
      · obtain ⟨items, -, rfl⟩ := Option.map_eq_some_iff.mp h
        exact Or.inr ⟨rfl, Or.inl rfl⟩
    · cases h
  | make_durable l min_dl =>
    simp only [step] at h
    split at h
    · split at h
      · obtain rfl := Option.some.inj h
        exact Or.inr ⟨rfl, Or.inl rfl⟩
      · obtain rfl := Option.some.inj h
        exact Or.inr ⟨rfl, Or.inl rfl⟩
    · cases h
  | is_ready w =>
    simp only [step] at h
    split at h
    · cases h
    · obtain rfl := Option.some.inj h
      exact Or.inr ⟨rfl, Or.inl rfl⟩
  | _ =>
    simp only [step] at h
    split at h
    · obtain rfl := Option.some.inj h
      exact Or.inr ⟨rfl, Or.inl rfl⟩
    · cases h

/-- At most one request of a session is open, and it is the last one. -/
structure InOrder (s : State S) : Prop where
  own : ∀ t ∈ s.arrived, t.client_sessionID = t.session_id
  responses : ∀ session_id, ∃ waiting, s.requests session_id = s.responses session_id ++ waiting ∧ waiting.length ≤ 1

theorem inOrder_step (hinv : Inv s) (hi : InOrder s) (hok : Waiting s a) (h : step logger_thid_ s a = some s') :
    InOrder s' := by
  rcases step_answered h with ⟨session_id, client, w, rfl, harrived, hanswered⟩ | ⟨harrived, hanswered⟩
  · obtain ⟨rfl, hall⟩ := hok
    refine ⟨fun t ht => ?_, fun id => ?_⟩
    · rw [harrived] at ht
      rcases List.mem_append.mp ht with ht | ht
      · exact hi.own t ht
      · rw [List.mem_singleton.mp ht]
    obtain ⟨waiting, hreq, hlen⟩ := hi.responses id
    have hres : s'.responses id = s.responses id := by rw [State.responses, State.responses, hanswered]
    by_cases hid : client = id
    · subst hid
      have hnil : waiting = [] := by
        rw [List.eq_nil_iff_forall_not_mem]
        intro t ht
        have hmem : t ∈ s.requests client := hreq ▸ List.mem_append_right _ ht
        have hsession : t.session_id = client := by simpa using (List.mem_filter.mp hmem).2
        have hans := hall t (List.mem_filter.mp hmem).1 hsession
        have hresp : t ∈ s.responses client := by
          refine List.mem_filter.mpr ⟨hans, ?_⟩
          simpa [hi.own t (List.mem_filter.mp hmem).1] using hsession
        have hnodup : (s.responses client ++ waiting).Nodup := hreq ▸ hinv.place.once.filter _
        exact (List.disjoint_of_nodup_append hnodup) hresp ht
      refine ⟨[⟨s.arrived.length, client, client⟩], ?_, Nat.le_refl 1⟩
      rw [hres, State.requests, harrived, List.filter_append]
      change s.requests client ++ _ = _
      rw [hreq, hnil, List.append_nil]
      simp
    · refine ⟨waiting, ?_, hlen⟩
      rw [hres, ← hreq, State.requests, State.requests, harrived, List.filter_append]
      simp [hid]
  · refine ⟨fun t ht => hi.own t (harrived ▸ ht), fun id => ?_⟩
    obtain ⟨waiting, hreq, hlen⟩ := hi.responses id
    have hreq' : s'.requests id = s.requests id := by rw [State.requests, State.requests, harrived]
    rcases hanswered with hanswered | ⟨t, p, hp, ht, hanswered⟩
    · refine ⟨waiting, ?_, hlen⟩
      rw [hreq', hreq, State.responses, State.responses, hanswered]
    · have hres : s'.responses id = s.responses id ++ if t.client_sessionID = id then [t] else [] := by
        rw [State.responses, State.responses, hanswered, List.filter_append]
        split <;> simp [*]
      by_cases hid : t.client_sessionID = id
      · have harr : t ∈ s.arrived := (hinv.place.cover t).mpr ⟨p, ht⟩
        have hmem : t ∈ s.requests id := by
          refine List.mem_filter.mpr ⟨harr, ?_⟩
          simpa [hi.own t harr] using hid
        have hnot : t ∉ s.responses id := by
          intro hmem
          exact hp (hinv.place.apart p .answered t ht (List.mem_filter.mp hmem).1)
        rw [hreq] at hmem
        have hw := (List.mem_append.mp hmem).resolve_left hnot
        obtain ⟨u, rfl⟩ : ∃ u, waiting = [u] := by
          cases waiting with
          | nil => cases hw
          | cons u rest => exact ⟨u, by simpa using hlen⟩
        obtain rfl := List.mem_singleton.mp hw
        refine ⟨[], ?_, Nat.zero_le 1⟩
        rw [hreq', hreq, hres, if_pos hid, List.append_nil]
      · refine ⟨waiting, ?_, hlen⟩
        rw [hreq', hreq, hres, if_neg hid, List.append_nil]

/-- The responses that a session gets are those to its first requests, in their order: the k-th
response answers the k-th request. -/
theorem responses_in_order (h : Reach (step logger_thid_) Init Waiting s) (session_id : S) :
    s.responses session_id <+: s.requests session_id := by
  have hi : Inv s ∧ InOrder s := by
    refine h.invariant (I := fun s => Inv s ∧ InOrder s) (fun s h => ⟨inv_init h, fun t ht => ?_, fun id => ⟨[], ?_, Nat.zero_le 1⟩⟩)
      fun _ _ _ hi hok hs => ⟨inv_step hi.1 hs, inOrder_step hi.1 hi.2 hok hs⟩
    · rw [h.arrived] at ht
      cases ht
    · rw [State.requests, State.responses, h.arrived, h.answered]
      rfl
  obtain ⟨waiting, hreq, -⟩ := hi.2.responses session_id
  exact ⟨waiting, hreq.symm⟩

end

def started : State Nat where
  ssl_sessions_ _ := false
  transaction_queues_ _ := []
  workers w := ⟨.idle, some (.new w), List.replicate (BUFFER_NUM - 1) (.new w)⟩
  loggers _ := ⟨[], [], .write, [(0, [])], []⟩
  arrived := []
  answered := []
  dropped := []

theorem started_init : Init started := ⟨fun _ => rfl, fun _ => rfl, fun _ => rfl, rfl, rfl, rfl⟩

/-- A request that writes is answered by the logger, and the next one, which fails, by the worker. -/
def twoRequests : List (Action Nat) :=
  [.addSession 7, .putTransaction 7 7 0, .getTransaction 0, .push 0 1 2 true, .ready 0, .publish 0, .deq 0, .write 0,
    .pass_nid 0, .return_buffer 0, .make_durable 0 1, .send 0, .putTransaction 7 7 1, .getTransaction 1, .fail 1, .reply 1]

theorem twoRequests_runs : (exec (step fun _ => 0) started twoRequests).isSome := by decide +kernel

theorem responses_in_order_twoRequests :
    ((exec (step fun _ => 0) started twoRequests).get twoRequests_runs).responses 7 = [⟨0, 7, 7⟩, ⟨1, 7, 7⟩] ∧
      ((exec (step fun _ => 0) started twoRequests).get twoRequests_runs).responses 7 <+:
        ((exec (step fun _ => 0) started twoRequests).get twoRequests_runs).requests 7 :=
  ⟨by decide +kernel, responses_in_order (reach_get_of_admits started_init (by decide +kernel) twoRequests_runs) 7⟩

/-- The request is in the hands of the logger. -/
def underWay : List (Action Nat) := twoRequests.take 8

theorem underWay_runs : (exec (step fun _ => 0) started underWay).isSome := by decide +kernel

theorem requests_in_one_place_underWay :
    ((exec (step fun _ => 0) started underWay).get underWay_runs).place (.log_buffer_vec 0) = [⟨0, 7, 7⟩] ∧
      OnePlace ((exec (step fun _ => 0) started underWay).get underWay_runs).arrived
        ((exec (step fun _ => 0) started underWay).get underWay_runs).place :=
  ⟨by decide +kernel, requests_in_one_place (reach_get started_init underWay_runs)⟩

end Cassa.Server.Custody

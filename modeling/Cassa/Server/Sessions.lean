import Cassa.SiloCC.Serial
import Cassa.Lib.Runs

/-!
# Sessions and the check against replayed requests

The session monitor and the workers of `cassa_server.cpp`, with `SSLSessionHandler` and
`TransactionBalancer`. Every call into the session handler is a step of its own: a worker
reads the two halves of the latest timestamp one after the other, in either order, and
stores the new one later. `generateSessionID` draws at random, so a new session may get
any ID that no open session has.
-/

namespace Cassa.Server

open Cassa.SiloCC Cassa.SiloCC.Serial Cassa.Lib.Runs

variable {W S : Type} [DecidableEq W] [DecidableEq S]

/-- One operation of a request, as the client sends it. -/
structure Operation where
  operation : String
  key : String
  /-- `none` where the field is missing -/
  value : Option String
  left_key : String
  l_exclusive : Bool
  right_key : String
  r_exclusive : Bool
  deriving DecidableEq

def Operation.toProcedure (o : Operation) : Option (Procedure String String) :=
  if o.operation = "INSERT" then some (.INSERT o.key (o.value.getD ""))
  else if o.operation = "DELETE" then some (.DELETE o.key)
  else if o.operation = "READ" then some (.READ o.key)
  else if o.operation = "WRITE" then some (.WRITE o.key (o.value.getD ""))
  else if o.operation = "SCAN" then
    some (.SCAN o.left_key o.l_exclusive o.right_key o.r_exclusive)
  else none

structure Request (S : Type) where
  client_sessionID : S
  timestamp_sec : Int
  timestamp_nsec : Int
  transaction : List Operation
  deriving DecidableEq

/-- The loop over the operations; `none` at one that is unknown. -/
def Request.procedures (r : Request S) : Option (List (Procedure String String)) :=
  r.transaction.mapM Operation.toProcedure

def compare_timestamps (timestamp_sec timestamp_nsec latest_timestamp_sec latest_timestamp_nsec : Int) :
    Int :=
  if timestamp_sec > latest_timestamp_sec then 1
  else if timestamp_sec < latest_timestamp_sec then -1
  else if timestamp_nsec > latest_timestamp_nsec then 1
  else if timestamp_nsec < latest_timestamp_nsec then -1
  else 0

structure SSLSession where
  latest_timestamp_sec : Int
  latest_timestamp_nsec : Int
  deriving DecidableEq

def SSLSession.new : SSLSession := ⟨0, 0⟩

/-- What arrives on a session. -/
inductive Message (S : Type) where
  /-- the command `/get_session_id`, with its timestamp if it has one -/
  | get_session_id (timestamp : Option (Int × Int))
  | transaction (r : Request S)
  deriving DecidableEq

/-- Where a worker is: outside `json_to_procedures`, or in it with the halves of the
latest timestamp that it has read. -/
inductive Worker (S : Type) where
  | idle
  | checking (r : Request S) (sec nsec : Option Int)
  deriving DecidableEq

structure State (W S : Type) where
  ssl_sessions_ : S → Option SSLSession
  /-- `ecall_ssl_session_monitor` has not returned -/
  monitoring : Bool
  transaction_queues_ : W → List (Request S)
  workers : W → Worker S
  /-- the calls of `json_to_procedures` that have returned, with what they returned -/
  returned : List (Request S × Int)

def State.new : State W S where
  ssl_sessions_ _ := none
  monitoring := true
  transaction_queues_ _ := []
  workers _ := .idle
  returned := []

/-- A session that does not exist is left alone. -/
def State.setTimestamp (s : State W S) (session_id : S) (timestamp_sec timestamp_nsec : Int) :
    State W S :=
  match s.ssl_sessions_ session_id with
  | none => s
  | some _ =>
    { s with ssl_sessions_ :=
        Function.update s.ssl_sessions_ session_id (some ⟨timestamp_sec, timestamp_nsec⟩) }

/-- 0 for a session that does not exist. -/
def State.getTimestampSec (s : State W S) (session_id : S) : Int :=
  match s.ssl_sessions_ session_id with
  | none => 0
  | some session => session.latest_timestamp_sec

def State.getTimestampNsec (s : State W S) (session_id : S) : Int :=
  match s.ssl_sessions_ session_id with
  | none => 0
  | some session => session.latest_timestamp_nsec

inductive Action (W S : Type) where
  /-- `addSession` with the ID that was drawn -/
  | addSession (session_id : S)
  /-- `removeSession`, with an error code that does not return early -/
  | removeSession (session_id : S)
  /-- the monitor reads a message from a session; `w` is the queue that is drawn -/
  | receive (session_id : S) (m : Message S) (w : W)
  | getTransaction (w : W)
  | getTimestampSec (w : W)
  | getTimestampNsec (w : W)
  /-- the comparison, and what follows it in `json_to_procedures` -/
  | compare (w : W)

/-- `json_to_procedures` returns. -/
def State.finish (s : State W S) (w : W) (r : Request S) (code : Int) : State W S :=
  { s with workers := Function.update s.workers w .idle, returned := s.returned ++ [(r, code)] }

/-- `json_to_procedures` from the comparison on, with the timestamp it has read. -/
def stepCompare (s : State W S) (w : W) (r : Request S) (sec nsec : Int) : State W S :=
  if compare_timestamps r.timestamp_sec r.timestamp_nsec sec nsec ≤ 0 then s.finish w r (-1)
  else
    let s := s.setTimestamp r.client_sessionID r.timestamp_sec r.timestamp_nsec
    match r.procedures with
    | none => s.finish w r (-2)
    | some _ => s.finish w r 0

def stepReceive (s : State W S) (session_id : S) (m : Message S) (w : W) : State W S :=
  match m with
  -- a command without a timestamp makes the monitor return
  | .get_session_id none => { s with monitoring := false }
  | .get_session_id (some (sec, nsec)) => s.setTimestamp session_id sec nsec
  | .transaction r =>
    { s with transaction_queues_ :=
        Function.update s.transaction_queues_ w (s.transaction_queues_ w ++ [r]) }

def step (s : State W S) : Action W S → Option (State W S)
  | .addSession session_id =>
    if s.ssl_sessions_ session_id = none then
      some { s with ssl_sessions_ := Function.update s.ssl_sessions_ session_id (some .new) }
    else none
  | .removeSession session_id =>
    if s.ssl_sessions_ session_id = none then none
    else some { s with ssl_sessions_ := Function.update s.ssl_sessions_ session_id none }
  | .receive session_id m w =>
    if s.monitoring = true ∧ s.ssl_sessions_ session_id ≠ none then
      some (stepReceive s session_id m w)
    else none
  | .getTransaction w =>
    match s.workers w, s.transaction_queues_ w with
    | .idle, r :: rest => some { s with
        workers := Function.update s.workers w (.checking r none none)
        transaction_queues_ := Function.update s.transaction_queues_ w rest }
    | _, _ => none
  | .getTimestampSec w =>
    match s.workers w with
    | .checking r none nsec =>
      let sec := s.getTimestampSec r.client_sessionID
      some { s with workers := Function.update s.workers w (.checking r (some sec) nsec) }
    | _ => none
  | .getTimestampNsec w =>
    match s.workers w with
    | .checking r sec none =>
      let nsec := s.getTimestampNsec r.client_sessionID
      some { s with workers := Function.update s.workers w (.checking r sec (some nsec)) }
    | _ => none
  | .compare w =>
    match s.workers w with
    | .checking r (some sec) (some nsec) => some (stepCompare s w r sec nsec)
    | _ => none

/-- What identifies a request. -/
def Request.stamp (r : Request S) : S × Int × Int :=
  (r.client_sessionID, r.timestamp_sec, r.timestamp_nsec)

/-- The requests for which `json_to_procedures` has returned 0. -/
def State.accepted (s : State W S) : List (S × Int × Int) :=
  (s.returned.filter fun x => x.2 = 0).map fun x => x.1.stamp

/-- A request that passes the comparison names a session that exists, and would still
pass it at this moment. -/
def StillNewer (s : State W S) : Worker S → Prop
  | .checking r (some sec) (some nsec) =>
    compare_timestamps r.timestamp_sec r.timestamp_nsec sec nsec ≤ 0 ∨
      ∃ session ∈ s.ssl_sessions_ r.client_sessionID,
        0 < compare_timestamps r.timestamp_sec r.timestamp_nsec session.latest_timestamp_sec
          session.latest_timestamp_nsec
  | _ => True

instance (s : State W S) : (x : Worker S) → Decidable (StillNewer s x)
  | .checking _ (some _) (some _) => inferInstanceAs (Decidable (_ ∨ _))
  | .checking _ (some _) none => isTrue trivial
  | .checking _ none _ => isTrue trivial
  | .idle => isTrue trivial

/-- What has to hold before a step for the check to do its work: besides, a session ID
that carried an accepted request is not given out again, and the command
`/get_session_id` does not turn the latest timestamp back. -/
def Guarded (s : State W S) : Action W S → Prop
  | .addSession session_id => ∀ x ∈ s.accepted, x.1 ≠ session_id
  | .receive session_id (.get_session_id (some (sec, nsec))) _ =>
    ∀ session ∈ s.ssl_sessions_ session_id,
      0 ≤ compare_timestamps sec nsec session.latest_timestamp_sec session.latest_timestamp_nsec
  | .compare w => StillNewer s (s.workers w)
  | _ => True

instance (s : State W S) : (a : Action W S) → Decidable (Guarded s a)
  | .addSession id => inferInstanceAs (Decidable (∀ x ∈ s.accepted, x.1 ≠ id))
  | .removeSession _ => isTrue trivial
  | .receive id (.get_session_id (some (sec, nsec))) _ =>
    inferInstanceAs (Decidable (∀ session ∈ s.ssl_sessions_ id,
      0 ≤ compare_timestamps sec nsec session.latest_timestamp_sec session.latest_timestamp_nsec))
  | .receive _ (.get_session_id none) _ => isTrue trivial
  | .receive _ (.transaction _) _ => isTrue trivial
  | .getTransaction _ => isTrue trivial
  | .getTimestampSec _ => isTrue trivial
  | .getTimestampNsec _ => isTrue trivial
  | .compare w => inferInstanceAs (Decidable (StillNewer s (s.workers w)))

theorem compare_pos_iff (a b c d : Int) :
    0 < compare_timestamps a b c d ↔ c < a ∨ a = c ∧ d < b := by
  unfold compare_timestamps
  repeat' split
  all_goals omega

theorem compare_nonneg_iff (a b c d : Int) :
    0 ≤ compare_timestamps a b c d ↔ c < a ∨ a = c ∧ d ≤ b := by
  unfold compare_timestamps
  repeat' split
  all_goals omega

/-- Every accepted request is at most as late as the latest timestamp of its session, if
that exists; and it was accepted once. -/
structure Inv (s : State W S) : Prop where
  nodup : s.accepted.Nodup
  latest : ∀ x ∈ s.accepted, ∀ session, s.ssl_sessions_ x.1 = some session →
    0 ≤ compare_timestamps session.latest_timestamp_sec session.latest_timestamp_nsec x.2.1 x.2.2

variable {s s' : State W S}

section
omit [DecidableEq W] [DecidableEq S]

/-- A step that accepts nothing and, for the sessions of accepted requests, turns no
timestamp back. -/
theorem Inv.of_sessions (h : Inv s) (hreturned : s'.accepted = s.accepted)
    (hsessions : ∀ x ∈ s.accepted, ∀ session', s'.ssl_sessions_ x.1 = some session' →
      ∃ session, s.ssl_sessions_ x.1 = some session ∧
        0 ≤ compare_timestamps session'.latest_timestamp_sec session'.latest_timestamp_nsec
          session.latest_timestamp_sec session.latest_timestamp_nsec) : Inv s' := by
  refine ⟨by rw [hreturned]; exact h.nodup, ?_⟩
  intro x hx session' hsession'
  rw [hreturned] at hx
  obtain ⟨session, hsession, hle⟩ := hsessions x hx session' hsession'
  have hold := h.latest x hx session hsession
  rw [compare_nonneg_iff] at hle hold ⊢
  omega

theorem Inv.of_same (h : Inv s) (hreturned : s'.accepted = s.accepted)
    (hsessions : s'.ssl_sessions_ = s.ssl_sessions_) : Inv s' := by
  refine h.of_sessions hreturned ?_
  intro x _ session' hsession'
  rw [hsessions] at hsession'
  refine ⟨session', hsession', ?_⟩
  rw [compare_nonneg_iff]
  omega

end

omit [DecidableEq S] in
theorem accepted_finish (s : State W S) (w : W) (r : Request S) (code : Int) :
    (s.finish w r code).accepted = if code = 0 then s.accepted ++ [r.stamp] else s.accepted := by
  unfold State.accepted State.finish
  rw [List.filter_append, List.map_append]
  split
  · rename_i hzero
    simp [hzero]
  · rename_i hzero
    simp [hzero]

section
omit [DecidableEq W]

theorem accepted_setTimestamp (s : State W S) (id : S) (sec nsec : Int) :
    (s.setTimestamp id sec nsec).accepted = s.accepted := by
  unfold State.setTimestamp
  split <;> rfl

theorem setTimestamp_of_some {id : S} {session : SSLSession} (hid : s.ssl_sessions_ id = some session)
    (sec nsec : Int) :
    (s.setTimestamp id sec nsec).ssl_sessions_ =
      Function.update s.ssl_sessions_ id (some ⟨sec, nsec⟩) := by
  unfold State.setTimestamp
  rw [hid]

/-- A timestamp that is not turned back. -/
theorem Inv.setTimestamp (h : Inv s) {id : S} {session : SSLSession} {sec nsec : Int}
    (hid : s.ssl_sessions_ id = some session)
    (hle : 0 ≤ compare_timestamps sec nsec session.latest_timestamp_sec
      session.latest_timestamp_nsec) : Inv (s.setTimestamp id sec nsec) := by
  refine h.of_sessions (accepted_setTimestamp s id sec nsec) ?_
  intro x _ session' hsession'
  rw [setTimestamp_of_some hid] at hsession'
  by_cases hx : x.1 = id
  · rw [hx, Function.update_self] at hsession'
    obtain rfl := Option.some.inj hsession'
    rw [hx]
    exact ⟨session, hid, hle⟩
  · rw [Function.update_of_ne hx] at hsession'
    refine ⟨session', hsession', ?_⟩
    rw [compare_nonneg_iff]
    omega

end

omit [DecidableEq W] [DecidableEq S] in
/-- The request is later than everything that its session has accepted. -/
theorem Inv.not_mem (h : Inv s) {r : Request S} {session : SSLSession}
    (hid : s.ssl_sessions_ r.client_sessionID = some session)
    (hlt : 0 < compare_timestamps r.timestamp_sec r.timestamp_nsec session.latest_timestamp_sec
      session.latest_timestamp_nsec) : r.stamp ∉ s.accepted := by
  intro hmem
  have hold := h.latest r.stamp hmem session hid
  rw [compare_nonneg_iff] at hold
  rw [compare_pos_iff] at hlt
  simp only [Request.stamp] at hold
  omega

theorem Inv.compare (h : Inv s) (w : W) {r : Request S} {sec nsec : Int}
    (hguard : compare_timestamps r.timestamp_sec r.timestamp_nsec sec nsec ≤ 0 ∨
      ∃ session, s.ssl_sessions_ r.client_sessionID = some session ∧
        0 < compare_timestamps r.timestamp_sec r.timestamp_nsec session.latest_timestamp_sec
          session.latest_timestamp_nsec) :
    Inv (stepCompare s w r sec nsec) := by
  unfold stepCompare
  split
  · refine h.of_same ?_ rfl
    rw [accepted_finish, if_neg (by decide)]
  rename_i hpass
  obtain ⟨session, hid, hlt⟩ := hguard.resolve_left hpass
  have hset : Inv (s.setTimestamp r.client_sessionID r.timestamp_sec r.timestamp_nsec) :=
    h.setTimestamp hid hlt.le
  dsimp only
  split
  · refine hset.of_same ?_ rfl
    rw [accepted_finish, if_neg (by decide)]
  · have hacc : ((s.setTimestamp r.client_sessionID r.timestamp_sec r.timestamp_nsec).finish w r
        0).accepted = s.accepted ++ [r.stamp] := by
      rw [accepted_finish, if_pos rfl, accepted_setTimestamp]
    refine ⟨?_, ?_⟩
    · rw [hacc, List.nodup_append]
      refine ⟨h.nodup, List.nodup_singleton _, ?_⟩
      rintro x hx y hy rfl
      rw [List.mem_singleton] at hy
      subst hy
      exact h.not_mem hid hlt hx
    · intro x hx session' hsession'
      rw [hacc, List.mem_append, List.mem_singleton] at hx
      rcases hx with hx | rfl
      · rw [← accepted_setTimestamp s r.client_sessionID r.timestamp_sec r.timestamp_nsec] at hx
        exact hset.latest x hx session' hsession'
      · change (s.setTimestamp _ _ _).ssl_sessions_ r.client_sessionID = _ at hsession'
        rw [setTimestamp_of_some hid, Function.update_self] at hsession'
        obtain rfl := Option.some.inj hsession'
        rw [compare_nonneg_iff]
        simp [Request.stamp]

theorem Inv.receive (h : Inv s) {id : S} {m : Message S} {w : W}
    (hopen : s.ssl_sessions_ id ≠ none) (hguard : Guarded s (.receive id m w)) :
    Inv (stepReceive s id m w) := by
  cases m with
  | transaction r => exact h.of_same rfl rfl
  | get_session_id timestamp =>
    match timestamp, hguard with
    | none, _ => exact h.of_same rfl rfl
    | some (sec, nsec), hguard =>
      obtain ⟨session, hid⟩ := Option.ne_none_iff_exists'.mp hopen
      exact h.setTimestamp hid (hguard session hid)

theorem Inv.step {a : Action W S} (h : Inv s) (hguard : Guarded s a) (hs : step s a = some s') :
    Inv s' := by
  cases a with
  | addSession id =>
    simp only [Server.step, Option.ite_none_right_eq_some, Option.some.injEq] at hs
    obtain ⟨-, rfl⟩ := hs
    refine h.of_sessions rfl ?_
    intro x hx session' hsession'
    have hne : x.1 ≠ id := hguard x hx
    dsimp only at hsession'
    rw [Function.update_of_ne hne] at hsession'
    refine ⟨session', hsession', ?_⟩
    rw [compare_nonneg_iff]
    omega
  | removeSession id =>
    simp only [Server.step, Option.ite_none_left_eq_some, Option.some.injEq] at hs
    obtain ⟨-, rfl⟩ := hs
    refine h.of_sessions rfl ?_
    intro x _ session' hsession'
    dsimp only at hsession'
    by_cases hx : x.1 = id
    · rw [hx, Function.update_self] at hsession'
      cases hsession'
    · rw [Function.update_of_ne hx] at hsession'
      refine ⟨session', hsession', ?_⟩
      rw [compare_nonneg_iff]
      omega
  | receive id m w =>
    simp only [Server.step, Option.ite_none_right_eq_some, Option.some.injEq] at hs
    obtain ⟨⟨-, hopen⟩, rfl⟩ := hs
    exact h.receive hopen hguard
  | getTransaction w =>
    unfold Server.step at hs
    dsimp only at hs
    split at hs
    · obtain rfl := Option.some.inj hs
      exact h.of_same rfl rfl
    · cases hs
  | getTimestampSec w =>
    unfold Server.step at hs
    dsimp only at hs
    split at hs
    · obtain rfl := Option.some.inj hs
      exact h.of_same rfl rfl
    · cases hs
  | getTimestampNsec w =>
    unfold Server.step at hs
    dsimp only at hs
    split at hs
    · obtain rfl := Option.some.inj hs
      exact h.of_same rfl rfl
    · cases hs
  | compare w =>
    unfold Server.step at hs
    dsimp only at hs
    split at hs
    · rename_i r sec nsec hw
      obtain rfl := Option.some.inj hs
      change StillNewer s (s.workers w) at hguard
      rw [hw] at hguard
      exact h.compare w hguard
    · cases hs

/-- In every run whose steps are guarded, no request is accepted twice. -/
theorem accepted_at_most_once (hr : Reach step (Eq State.new) Guarded s) : s.accepted.Nodup := by
  have hinv : Inv s := by
    refine hr.invariant ?_ (fun _ _ _ h hguard hs => h.step hguard hs)
    rintro _ rfl
    exact ⟨List.nodup_nil, by simp [State.accepted, State.new]⟩
  exact hinv.nodup

def strayRequest : Request Nat := ⟨7, 1, 0, []⟩

/-- One worker takes the request from its queue and handles it. -/
def handleSchedule : List (Action Bool Nat) :=
  [.getTransaction false, .getTimestampSec false, .getTimestampNsec false, .compare false]

/-- The request arrives twice on session 0 and names session 7. -/
def straySchedule : List (Action Bool Nat) :=
  [.addSession 0, .receive 0 (.transaction strayRequest) false,
    .receive 0 (.transaction strayRequest) false] ++ handleSchedule ++ handleSchedule

theorem straySchedule_runs : (exec step State.new straySchedule).isSome := by decide

theorem straySchedule_accepts :
    ((exec step State.new straySchedule).get straySchedule_runs).accepted = [(7, 1, 0), (7, 1, 0)] := by
  decide

/-- It is accepted both times. -/
theorem accepted_twice :
    ¬ ∀ s : State Bool Nat, Reach step (Eq State.new) anyStep s → s.accepted.Nodup := by
  intro hnodup
  have hn := hnodup _ (reach_get rfl straySchedule_runs)
  rw [straySchedule_accepts] at hn
  simp at hn

/-- The same with session 0, where the second time is refused. -/
def knownSchedule : List (Action Bool Nat) :=
  [.addSession 0, .receive 0 (.get_session_id (some (0, 5))) false,
    .receive 0 (.transaction ⟨0, 1, 0, []⟩) false,
    .receive 0 (.transaction ⟨0, 1, 0, []⟩) false] ++ handleSchedule ++ handleSchedule

theorem knownSchedule_runs : (exec step State.new knownSchedule).isSome := by decide

theorem knownSchedule_admits : Admits step Guarded State.new knownSchedule := by decide

theorem knownSchedule_accepts :
    ((exec step State.new knownSchedule).get knownSchedule_runs).accepted = [(0, 1, 0)] := by decide

theorem accepted_at_most_once_known :
    ((exec step State.new knownSchedule).get knownSchedule_runs).accepted = [(0, 1, 0)] ∧
      ((exec step State.new knownSchedule).get knownSchedule_runs).accepted.Nodup :=
  ⟨knownSchedule_accepts,
    accepted_at_most_once (reach_get_of_admits rfl knownSchedule_admits knownSchedule_runs)⟩

end Cassa.Server

import Cassa.SiloCC.OneEpoch

/-!
# Soundness of the durable epoch

A logger takes the smallest `CTIDW` of its workers as a promise that everything older
has reached its queue. `epochWork` makes that promise before `durableEpochWork` has
published the buffer, and a word that is still zero promises nothing. Where no logger
reads a word in one of these two windows, a record is in its log file before
`DurableEpoch` reaches its epoch.

The invariant has one idea: `floor`, the least epoch in which a worker can still
commit. It never falls, `CTIDW` stays below it, and an epoch `d` is safe for a logger
when its workers' floors have passed `d` and what they committed up to `d` is in the
file.
-/

namespace Cassa.SiloCC.Durability

open Cassa.Lib.Runs

variable {K β D : Type}

def InFile (s : State K β D) (l : Nat) (r : LogRecord K β) : Prop :=
  ∃ doc ∈ (s.loggers l).logfile_, doc.Has r

def InQueue (s : State K β D) (l : Nat) (r : LogRecord K β) : Prop :=
  ∃ b ∈ (s.loggers l).queue_, r ∈ b.log_set_

/-- The buffers that a logger has dequeued and not yet written. -/
def unwritten : LPc K β → List (LogBuffer K β)
  | .writeLog _ rest => rest
  | .writeTail _ rest => rest.tail
  | .returnBuffer _ rest => rest.tail
  | _ => []

def InHand (s : State K β D) (l : Nat) (r : LogRecord K β) : Prop :=
  ∃ b ∈ unwritten (s.loggers l).pc, r ∈ b.log_set_

def InBuffer (t : Worker K β) (r : LogRecord K β) : Prop :=
  ∃ b, t.current_buffer_ = some b ∧ r ∈ b.log_set_

/-- The worker has chosen the commit TID and not yet pushed the write set. -/
def InFlight (t : Worker K β) (r : LogRecord K β) : Prop :=
  match t.pc with
  | .wal tid => r ∈ LogBuffer.logRecords tid t.write_set_
  | .push tid _ => r ∈ LogBuffer.logRecords tid t.write_set_
  | .pushReady tid _ => r ∈ LogBuffer.logRecords tid t.write_set_
  | _ => False

def Somewhere (s : State K β D) (w l : Nat) (r : LogRecord K β) : Prop :=
  InFlight (s.workers w) r ∨ InBuffer (s.workers w) r ∨ InQueue s l r ∨ InHand s l r ∨ InFile s l r

/-- Whatever committed in an epoch up to the durable one is in its log file. -/
def DurableSound (c : Config) (s : State K β D) : Prop :=
  ∀ cm ∈ s.committed, cm.tid.epoch.toNat ≤ s.DurableEpoch →
    ∀ r ∈ cm.records, InFile s (c.logger_thid_ cm.worker) r

/-- `find_min_epoch` is about to load the `CTIDW` of a worker whose current buffer
holds older records. -/
def earlyLoad (c : Config) (s : State K β D) : Action K β → Bool
  | .log l =>
    match (s.loggers l).pc with
    | .findMin _ i _ =>
      match (c.thid_vec_ l)[i]? with
      | some w =>
        match (s.workers w).current_buffer_ with
        | some b => !b.log_set_.isEmpty && decide (b.min_epoch_ < (s.workers w).CTIDW.epoch.toNat)
        | none => false
      | none => false
    | _ => false
  | _ => false

/-- A worker is about to store its first `CTIDW` while its logger has already passed
it in `find_min_epoch`. -/
def lateStart (c : Config) (s : State K β D) : Action K β → Bool
  | .work w _ =>
    match (s.workers w).pc, (s.loggers (c.logger_thid_ w)).pc with
    | .storeCTIDW _ _, .findMin _ i _ =>
      decide ((s.workers w).CTIDW.obj_ = 0) && ((c.thid_vec_ (c.logger_thid_ w)).take i).contains w
    | _, _ => false
  | _ => false

/-- The global epoch is about to leave the 32 bits of a TID word. -/
def epochOverflow (s : State K β D) : Action K β → Bool
  | .work w _ =>
    match (s.workers w).pc with
    | .addGE _ => decide (2 ^ 32 ≤ s.GlobalEpoch + 1)
    | _ => false
  | _ => false

structure Timely (c : Config) (s : State K β D) (a : Action K β) : Prop where
  load : earlyLoad c s a = false
  start : lateStart c s a = false
  epoch : epochOverflow s a = false

instance (c : Config) (s : State K β D) (a : Action K β) : Decidable (Timely c s a) :=
  decidable_of_iff (earlyLoad c s a = false ∧ lateStart c s a = false ∧ epochOverflow s a = false)
    ⟨fun h => ⟨h.1, h.2.1, h.2.2⟩, fun h => ⟨h.load, h.start, h.epoch⟩⟩

/-- The least epoch in which the worker can still commit. -/
def floor (ge : Nat) (t : Worker K β) : Nat :=
  match t.pc with
  | .validationStore g => g
  | .validationCheck => t.ThLocalEpoch
  | _ => ge

/-- The control states before the first store of `CTIDW`. -/
def Starting : Pc → Prop
  | .durableEpochWork => True
  | .epochWork (.first _) => True
  | .chkEpochLoaded (.first _) _ _ => True
  | .addGE (.first _) => True
  | .loadCTIDW (.first _) => True
  | .loadGE (.first _) _ => True
  | .storeLocalEpoch (.first _) _ _ => True
  | .compareEpoch (.first _) _ => True
  | .storeCTIDW (.first _) _ => True
  | _ => False

def PcEpoch (ge : Nat) (t : Worker K β) : Prop :=
  match t.pc with
  | .loadGE _ old_tid => old_tid = t.CTIDW
  | .storeLocalEpoch _ old_tid g => old_tid = t.CTIDW ∧ t.ThLocalEpoch ≤ g ∧ g ≤ ge ∧ 1 ≤ g
  | .compareEpoch _ old_tid => old_tid = t.CTIDW ∧ 1 ≤ t.ThLocalEpoch
  | .storeCTIDW _ new_epoch => new_epoch = t.ThLocalEpoch
  | .running => t.seen.epoch.toNat ≤ ge
  | .validationLoad => t.seen.epoch.toNat ≤ ge
  | .validationStore g => t.seen.epoch.toNat ≤ g ∧ t.ThLocalEpoch ≤ g ∧ g ≤ ge
  | .validationCheck => t.seen.epoch.toNat ≤ t.ThLocalEpoch
  | .wal tid => tid.epoch.toNat = t.ThLocalEpoch ∧ tid.latest = true
  | .push tid _ => tid.epoch.toNat = t.ThLocalEpoch ∧ tid.latest = true
  | .pushReady tid _ => tid.epoch.toNat = t.ThLocalEpoch ∧ tid.latest = true
  | .walStore tid => tid.epoch.toNat = t.ThLocalEpoch ∧ tid.latest = true
  | .writing tid _ => tid.epoch.toNat ≤ t.ThLocalEpoch
  | _ => True

structure EpochOk (ge : Nat) (t : Worker K β) : Prop where
  local_le : t.ThLocalEpoch ≤ ge
  ctidw : t.CTIDW.epoch.toNat ≤ t.ThLocalEpoch
  mrctid : t.mrctid_.epoch.toNat ≤ t.ThLocalEpoch
  pc : PcEpoch ge t
  starting : t.CTIDW.obj_ = 0 → Starting t.pc

section
variable {ge ge' : Nat} {t t' : Worker K β}

theorem EpochOk.mono (h : EpochOk ge t) (hge : ge ≤ ge') : EpochOk ge' t where
  local_le := h.local_le.trans hge
  ctidw := h.ctidw
  mrctid := h.mrctid
  starting := h.starting
  pc := by
    have hp := h.pc
    unfold PcEpoch at hp ⊢
    cases hpc : t.pc
    case storeLocalEpoch =>
      simp only [hpc] at hp ⊢
      exact ⟨hp.1, hp.2.1, hp.2.2.1.trans hge, hp.2.2.2⟩
    all_goals simp only [hpc] at hp ⊢
    all_goals omega

theorem floor_mono (hge : ge ≤ ge') : floor ge t ≤ floor ge' t := by
  unfold floor
  cases t.pc <;> simp [hge]

/-- `CTIDW` is a lower bound for everything that is still to come. -/
theorem EpochOk.ctidw_le_floor (h : EpochOk ge t) : t.CTIDW.epoch.toNat ≤ floor ge t := by
  have hc := h.ctidw
  have hl := h.local_le
  have hp := h.pc
  unfold floor
  unfold PcEpoch at hp
  cases hpc : t.pc <;> simp only [hpc] at hp ⊢ <;> omega

theorem EpochOk.floor_le (h : EpochOk ge t) : floor ge t ≤ ge := by
  have hl := h.local_le
  have hp := h.pc
  unfold floor
  unfold PcEpoch at hp
  cases hpc : t.pc <;> simp only [hpc] at hp ⊢ <;> omega

/-- A worker that has not stored a `CTIDW` yet can only commit in epochs to come. -/
theorem floor_of_starting (h : Starting t.pc) : floor ge t = ge := by
  unfold floor
  cases hpc : t.pc <;> simp_all [Starting]

/-- The commit epoch is the local epoch. -/
theorem EpochOk.commitTid_epoch (h : EpochOk ge t) (hpc : t.pc = .validationCheck)
    (hge : ge < 2 ^ 32) : t.commitTid.epoch.toNat = t.ThLocalEpoch := by
  have hp := h.pc
  simp only [PcEpoch, hpc] at hp
  have hl := h.local_le
  have hm := h.mrctid
  unfold Worker.commitTid
  rw [Cassa.commitTid_epoch, Nat.mod_eq_of_lt (by omega)]
  have hz : TIDword.zero.epoch.toNat = 0 := rfl
  omega

end

def Full (b : LogBuffer K β) : Prop := ∃ e, Filled b e

/-- The assertion of `push` has held so far: every buffer holds one epoch, a published
one is not empty, and the queues are sorted. -/
structure Tidy (s : State K β D) : Prop where
  pool : ∀ w, ∀ b ∈ (s.workers w).pool_, Fresh b
  buffer : ∀ w b, (s.workers w).current_buffer_ = some b → OneEpoch b
  queue : ∀ l, ∀ b ∈ (s.loggers l).queue_, Full b
  held : ∀ l, ∀ b ∈ held (s.loggers l).pc, Full b
  sorted : ∀ l, (s.loggers l).queue_.Pairwise fun x y => x.min_epoch_ ≤ y.min_epoch_

theorem pairwise_enq (x : LogBuffer K β) {q : List (LogBuffer K β)}
    (h : q.Pairwise fun x y => x.min_epoch_ ≤ y.min_epoch_) :
    (enq x q).Pairwise fun x y => x.min_epoch_ ≤ y.min_epoch_ := by
  induction q with
  | nil => simp [enq]
  | cons z q ih =>
    rw [List.pairwise_cons] at h
    unfold enq
    split
    · rename_i hlt
      refine List.pairwise_cons.mpr ⟨?_, List.pairwise_cons.mpr h⟩
      intro y hy
      rcases List.mem_cons.mp hy with rfl | hy
      · exact hlt.le
      · exact hlt.le.trans (h.1 y hy)
    · rename_i hge
      refine List.pairwise_cons.mpr ⟨?_, ih h.2⟩
      intro y hy
      rcases mem_enq.mp hy with rfl | hy
      · omega
      · exact h.1 y hy

theorem queueMinEpoch_le {q : List (LogBuffer K β)}
    (h : q.Pairwise fun x y => x.min_epoch_ ≤ y.min_epoch_) {b : LogBuffer K β} (hb : b ∈ q) :
    queueMinEpoch q ≤ b.min_epoch_ := by
  cases q with
  | nil => cases hb
  | cons z q =>
    rcases List.mem_cons.mp hb with rfl | hb
    · exact Nat.le_refl _
    · exact (List.pairwise_cons.mp h).1 b hb

theorem mem_push {b : LogBuffer K β} {tid : TIDword} {ws : List (WriteElement K β)}
    {r : LogRecord K β} (h : r ∈ b.log_set_ ∨ r ∈ LogBuffer.logRecords tid ws) :
    r ∈ (b.push tid ws).log_set_ := by
  have hlog : (b.push tid ws).log_set_ = b.log_set_ ++ LogBuffer.logRecords tid ws := by
    unfold LogBuffer.push
    dsimp only
    split <;> rfl
  rw [hlog]
  exact List.mem_append.mpr h

theorem tid_of_mem_logRecords {tid : TIDword} {ws : List (WriteElement K β)} {r : LogRecord K β}
    (h : r ∈ LogBuffer.logRecords tid ws) : r.tid_ = tid := by
  obtain ⟨we, -, rfl⟩ := List.mem_map.mp h
  rfl

theorem is_ready_frame (t : Worker K β) :
    (is_ready t).1.pc = t.pc ∧ (is_ready t).1.seen = t.seen ∧
      (is_ready t).1.write_set_ = t.write_set_ ∧
      (∀ b ∈ (is_ready t).1.pool_, b ∈ t.pool_) ∧
      (∀ b, (is_ready t).1.current_buffer_ = some b → t.current_buffer_ = some b ∨ b ∈ t.pool_) ∧
      ∀ b, t.current_buffer_ = some b → (is_ready t).1.current_buffer_ = some b := by
  unfold is_ready
  cases hc : t.current_buffer_ with
  | some b =>
    refine ⟨rfl, rfl, rfl, fun _ h => h, fun b' hb' => Or.inl (hc ▸ hb'), ?_⟩
    intro b' hb'
    exact hc.trans hb'
  | none =>
    cases hl : t.pool_.getLast? with
    | none =>
      refine ⟨rfl, rfl, rfl, fun _ h => h, fun b' hb' => Or.inl (hc ▸ hb'), ?_⟩
      intro b' hb'
      cases hb'
    | some b =>
      refine ⟨rfl, rfl, rfl, fun _ h => List.dropLast_subset _ h, ?_, ?_⟩
      · intro b' hb'
        obtain rfl := Option.some.inj hb'
        exact Or.inr (List.mem_of_getLast? hl)
      · intro b' hb'
        cases hb'

/-- The worker's own part: its epochs move up. -/
structure Climb (ge ge' : Nat) (t t' : Worker K β) : Prop where
  epoch : EpochOk ge' t'
  floor : floor ge t ≤ floor ge' t'
  first : t.CTIDW.obj_ = 0 → t'.CTIDW.obj_ = 0 ∨ ∃ call g, t.pc = .storeCTIDW call g
  stay : t.CTIDW.obj_ ≠ 0 → t'.CTIDW.obj_ ≠ 0

/-- The log files stay, and a record that the worker has in hand stays with it or goes
to the queue of its logger. -/
structure WorkerStep (c : Config) (s s' : State K β D) (w : Nat) : Prop where
  others : ∀ u, u ≠ w → s'.workers u = s.workers u
  ge : s.GlobalEpoch ≤ s'.GlobalEpoch
  ge_lt : s'.GlobalEpoch < 2 ^ 32
  durable : s'.DurableEpoch = s.DurableEpoch
  words : ∀ v, (s'.tidword v).epoch.toNat ≤ s'.GlobalEpoch
  climb : Climb s.GlobalEpoch s'.GlobalEpoch (s.workers w) (s'.workers w)
  logger : ∀ l, (s'.loggers l).pc = (s.loggers l).pc ∧
    (s'.loggers l).logfile_ = (s.loggers l).logfile_ ∧
    (s'.loggers l).ThLocalDurableEpoch = (s.loggers l).ThLocalDurableEpoch ∧
    (s'.loggers l).prev_epoch_hash_ = (s.loggers l).prev_epoch_hash_
  queue : ∀ l r, InQueue s l r → InQueue s' l r
  committed : ∃ new, s'.committed = s.committed ++ new ∧ ∀ cm ∈ new, cm.worker = w ∧
    floor s.GlobalEpoch (s.workers w) ≤ cm.tid.epoch.toNat ∧ (s'.workers w).CTIDW.obj_ ≠ 0 ∧
    ∀ r ∈ cm.records, r.tid_ = cm.tid ∧ InFlight (s'.workers w) r
  moved : ∀ r, InFlight (s.workers w) r ∨ InBuffer (s.workers w) r →
    InFlight (s'.workers w) r ∨ InBuffer (s'.workers w) r ∨ InQueue s' (c.logger_thid_ w) r
  tidy : s'.halted = false → Tidy s → Tidy s'

/-- What is known of the epochs before a step. -/
structure EpochsOk (s : State K β D) : Prop where
  ge : 1 ≤ s.GlobalEpoch
  ge_lt : s.GlobalEpoch < 2 ^ 32
  words : ∀ v, (s.tidword v).epoch.toNat ≤ s.GlobalEpoch
  workers : ∀ w, EpochOk s.GlobalEpoch (s.workers w)

section
variable {c : Config} {s s' : State K β D} {w : Nat} {t' : Worker K β}

theorem Tidy.setWorker (h : Tidy s) (hpool : ∀ b ∈ t'.pool_, Fresh b)
    (hcur : ∀ b, t'.current_buffer_ = some b → OneEpoch b) : Tidy (s.setWorker w t') where
  pool u := by
    by_cases hu : u = w
    · subst hu
      rw [setWorker_self]
      exact hpool
    · rw [setWorker_other s w t' hu]
      exact h.pool u
  buffer u := by
    by_cases hu : u = w
    · subst hu
      rw [setWorker_self]
      exact hcur
    · rw [setWorker_other s w t' hu]
      exact h.buffer u
  queue := h.queue
  held := h.held
  sorted := h.sorted

/-- A step that replaces the worker's own state and leaves the queues alone. -/
theorem workerStep_set (ge' : Nat) (words' : ValuePtr → TIDword) (new : List (Commit K β))
    (hl : Bool) (hge : s.GlobalEpoch ≤ ge') (hlt : ge' < 2 ^ 32)
    (hwords : ∀ v, (words' v).epoch.toNat ≤ ge')
    (hclimb : Climb s.GlobalEpoch ge' (s.workers w) t')
    (hnew : ∀ cm ∈ new, cm.worker = w ∧
      floor s.GlobalEpoch (s.workers w) ≤ cm.tid.epoch.toNat ∧ t'.CTIDW.obj_ ≠ 0 ∧
      ∀ r ∈ cm.records, r.tid_ = cm.tid ∧ InFlight t' r)
    (hmoved : ∀ r, InFlight (s.workers w) r ∨ InBuffer (s.workers w) r →
      InFlight t' r ∨ InBuffer t' r)
    (htidy : hl = false → Tidy s → (∀ b ∈ t'.pool_, Fresh b) ∧
      ∀ b, t'.current_buffer_ = some b → OneEpoch b) :
    WorkerStep c s { s.setWorker w t' with
      GlobalEpoch := ge', tidword := words', committed := s.committed ++ new, halted := hl } w where
  others u hu := setWorker_other s w t' hu
  ge := hge
  ge_lt := hlt
  durable := rfl
  words := hwords
  climb := by
    change Climb _ ge' _ ((s.setWorker w t').workers w)
    rw [setWorker_self]
    exact hclimb
  logger l := ⟨rfl, rfl, rfl, rfl⟩
  queue l r hr := hr
  committed := by
    refine ⟨new, rfl, ?_⟩
    change ∀ cm ∈ new, _ ∧ _ ∧ ((s.setWorker w t').workers w).CTIDW.obj_ ≠ 0 ∧
      ∀ r ∈ cm.records, _ ∧ InFlight ((s.setWorker w t').workers w) r
    rw [setWorker_self]
    exact hnew
  moved r hr := by
    change InFlight ((s.setWorker w t').workers w) r ∨ InBuffer ((s.setWorker w t').workers w) r ∨ _
    rw [setWorker_self]
    rcases hmoved r hr with hr | hr
    · exact Or.inl hr
    · exact Or.inr (Or.inl hr)
  tidy hh ht := by
    obtain ⟨hpool, hcur⟩ := htidy hh ht
    have hnext := ht.setWorker (w := w) hpool hcur
    exact ⟨hnext.pool, hnext.buffer, hnext.queue, hnext.held, hnext.sorted⟩

/-- The same when epochs, words and commits stay as they are. -/
theorem workerStep_local (h : EpochsOk s)
    (hclimb : Climb s.GlobalEpoch s.GlobalEpoch (s.workers w) t')
    (hmoved : ∀ r, InFlight (s.workers w) r ∨ InBuffer (s.workers w) r →
      InFlight t' r ∨ InBuffer t' r)
    (hpool : ∀ b ∈ t'.pool_, b ∈ (s.workers w).pool_)
    (hcur : ∀ b, t'.current_buffer_ = some b →
      (s.workers w).current_buffer_ = some b ∨ b ∈ (s.workers w).pool_) :
    WorkerStep c s (s.setWorker w t') w := by
  have hset := workerStep_set (c := c) s.GlobalEpoch s.tidword [] s.halted
    (Nat.le_refl _) h.ge_lt h.words hclimb (by simp) hmoved
    (fun _ ht => ⟨fun b hb => ht.pool w b (hpool b hb), fun b hb => by
      rcases hcur b hb with hb | hb
      · exact ht.buffer w b hb
      · exact Or.inl (ht.pool w b hb)⟩)
  simpa [State.setWorker] using hset

/-- The control states with a commit that is not yet in the buffer. -/
def Flying : Pc → Prop
  | .wal _ => True
  | .push _ _ => True
  | .pushReady _ _ => True
  | _ => False

theorem not_inFlight {t : Worker K β} (h : ¬ Flying t.pc) (r : LogRecord K β) : ¬ InFlight t r := by
  unfold InFlight
  cases hpc : t.pc <;> simp_all [Flying]

/-- `CTIDW` and the buffers stay; so do the records in hand. -/
theorem workerStep_move (h : EpochsOk s) (hc : t'.CTIDW = (s.workers w).CTIDW)
    (hp : t'.pool_ = (s.workers w).pool_) (hb : t'.current_buffer_ = (s.workers w).current_buffer_)
    (he : EpochOk s.GlobalEpoch t')
    (hfloor : floor s.GlobalEpoch (s.workers w) ≤ floor s.GlobalEpoch t')
    (hfly : ∀ r, InFlight (s.workers w) r → InFlight t' r) :
    WorkerStep c s (s.setWorker w t') w := by
  refine workerStep_local h ⟨he, hfloor, ?_, ?_⟩ ?_ ?_ ?_
  · intro h0
    rw [hc]
    exact Or.inl h0
  · intro h0
    rw [hc]
    exact h0
  · intro r hr
    unfold InBuffer at hr ⊢
    rw [hb]
    exact hr.imp_left (hfly r)
  · intro b hb'
    rwa [← hp]
  · intro b hb'
    rw [← hb]
    exact Or.inl hb'

/-- Only the control state changes, between states without a commit in hand. -/
theorem workerStep_goto (h : EpochsOk s) {pc' : Pc}
    (hpc' : PcEpoch s.GlobalEpoch ((s.workers w).goto pc'))
    (hstart : (s.workers w).CTIDW.obj_ = 0 → Starting pc')
    (hfloor : floor s.GlobalEpoch (s.workers w) ≤ floor s.GlobalEpoch ((s.workers w).goto pc'))
    (hfly : ∀ r, InFlight (s.workers w) r → InFlight ((s.workers w).goto pc') r) :
    WorkerStep c s (s.setWorker w ((s.workers w).goto pc')) w := by
  have hw := h.workers w
  exact workerStep_move h rfl rfl rfl ⟨hw.local_le, hw.ctidw, hw.mrctid, hpc', hstart⟩ hfloor hfly

/-- A failed assertion changes nothing else. -/
theorem workerStep_halt (h : EpochsOk s) : WorkerStep c s { s with halted := true } w := by
  have hclimb : Climb s.GlobalEpoch s.GlobalEpoch (s.workers w) (s.workers w) :=
    ⟨h.workers w, Nat.le_refl _, Or.inl, id⟩
  have hset := workerStep_set (c := c) s.GlobalEpoch s.tidword [] true (Nat.le_refl _) h.ge_lt
    h.words hclimb (by simp) (fun _ hr => hr) (by simp)
  simpa [State.setWorker] using hset

/-- `publish` keeps every record: in the buffer, or in the queue. -/
theorem workerStep_publish (h : EpochsOk s) {b : LogBuffer K β} {pc' : Pc}
    (hb : (s.workers w).current_buffer_ = some b)
    (hpc' : PcEpoch s.GlobalEpoch ((s.workers w).goto pc'))
    (hstart : (s.workers w).CTIDW.obj_ = 0 → Starting pc')
    (hfloor : floor s.GlobalEpoch (s.workers w) ≤ floor s.GlobalEpoch ((s.workers w).goto pc'))
    (hfly : ∀ r, InFlight (s.workers w) r → InFlight ((s.workers w).goto pc') r) :
    WorkerStep c s (publish c s w (s.workers w) b pc') w := by
  have hw := h.workers w
  have he : EpochOk s.GlobalEpoch ((s.workers w).goto pc') :=
    ⟨hw.local_le, hw.ctidw, hw.mrctid, hpc', hstart⟩
  unfold publish
  split
  · exact workerStep_goto h hpc' hstart hfloor hfly
  · rename_i hne
    have hq : ∀ l, ((s.setLogger (c.logger_thid_ w) { s.loggers (c.logger_thid_ w) with
        queue_ := enq b (s.loggers (c.logger_thid_ w)).queue_ }).loggers l) =
        { s.loggers l with queue_ := if l = c.logger_thid_ w then enq b (s.loggers l).queue_
                                     else (s.loggers l).queue_ } := by
      intro l
      by_cases hl : l = c.logger_thid_ w
      · subst hl
        simp
      · rw [setLogger_other _ _ _ hl]
        simp [hl]
    refine ⟨fun u hu => by rw [setWorker_other _ _ _ hu]; rfl, Nat.le_refl _, h.ge_lt, rfl, h.words,
      ?_, ?_, ?_, ⟨[], by simp, by simp⟩, ?_, ?_⟩
    · rw [setWorker_self]
      exact ⟨⟨he.local_le, he.ctidw, he.mrctid, he.pc, he.starting⟩, hfloor, Or.inl, id⟩
    · intro l
      rw [setWorker_loggers, hq]
      exact ⟨rfl, rfl, rfl, rfl⟩
    · rintro l r ⟨x, hx, hr⟩
      refine ⟨x, ?_, hr⟩
      rw [setWorker_loggers, hq]
      dsimp only
      split
      · exact mem_enq.mpr (Or.inr hx)
      · exact hx
    · intro r hr
      rw [setWorker_self]
      rcases hr with hr | ⟨x, hx, hr⟩
      · exact Or.inl (hfly r hr)
      · right
        right
        refine ⟨x, ?_, hr⟩
        rw [setWorker_loggers, setLogger_self]
        rw [hb] at hx
        obtain rfl := Option.some.inj hx
        exact mem_enq.mpr (Or.inl rfl)
    · intro _ ht
      have hfull : Full b := by
        rcases ht.buffer w b hb with hf | hf
        · exact absurd (by simp [LogBuffer.empty, hf.nids]) hne
        · exact hf
      refine Tidy.setWorker ⟨ht.pool, ht.buffer, ?_, ?_, ?_⟩ (ht.pool w) (by simp)
      · intro l x hx
        rw [hq] at hx
        dsimp only at hx
        split at hx
        · rcases mem_enq.mp hx with rfl | hx
          · exact hfull
          · exact ht.queue l x hx
        · exact ht.queue l x hx
      · intro l
        rw [hq]
        exact ht.held l
      · intro l
        rw [hq]
        dsimp only
        split
        · exact pairwise_enq b (ht.sorted l)
        · exact ht.sorted l

/-- Without a commit in hand only the control state changes. -/
theorem workerStep_quiet (h : EpochsOk s) {pc' : Pc} (hfly : ¬ Flying (s.workers w).pc)
    (hpc' : PcEpoch s.GlobalEpoch ((s.workers w).goto pc'))
    (hfloor : floor s.GlobalEpoch ((s.workers w).goto pc') = s.GlobalEpoch)
    (hstart : Starting (s.workers w).pc → Starting pc') :
    WorkerStep c s (s.setWorker w ((s.workers w).goto pc')) w := by
  have hw := h.workers w
  refine workerStep_goto h hpc' (fun h0 => hstart (hw.starting h0)) ?_ ?_
  · rw [hfloor]
    exact hw.floor_le
  · intro r hr
    exact absurd hr (not_inFlight hfly r)

section
variable {call : Call} {old_tid tid : TIDword} {g new_epoch : Nat}

theorem workerStep_addGE (h : EpochsOk s) (hpc : (s.workers w).pc = .addGE call) (hover : s.GlobalEpoch + 1 < 2 ^ 32) :
    WorkerStep c s { s.setWorker w ((s.workers w).goto (.loadCTIDW call)) with GlobalEpoch := s.GlobalEpoch + 1 } w := by
  have hw := h.workers w
  have hstart : Starting (s.workers w).pc → Starting (.loadCTIDW call) := by
    rw [hpc]
    cases call <;> exact id
  have hepoch : EpochOk s.GlobalEpoch ((s.workers w).goto (.loadCTIDW call)) :=
    ⟨hw.local_le, hw.ctidw, hw.mrctid, trivial, fun h0 => hstart (hw.starting h0)⟩
  have hclimb : Climb s.GlobalEpoch (s.GlobalEpoch + 1) (s.workers w)
      ((s.workers w).goto (.loadCTIDW call)) :=
    ⟨hepoch.mono (Nat.le_succ _), hw.floor_le.trans (Nat.le_succ _), Or.inl, id⟩
  have hset := workerStep_set (c := c) (s.GlobalEpoch + 1) s.tidword [] s.halted (Nat.le_succ _)
    hover (fun v => (h.words v).trans (Nat.le_succ _)) hclimb (by simp)
    (fun r hr => hr.imp_left fun hr => absurd hr (not_inFlight (by simp [hpc, Flying]) r))
    (fun _ ht => ⟨ht.pool w, ht.buffer w⟩)
  simpa [State.setWorker] using hset

/-- The epoch that was loaded is stored, and the worker's epochs follow. -/
theorem workerStep_storeLocalEpoch (h : EpochsOk s) (hpc : (s.workers w).pc = .storeLocalEpoch call old_tid g) :
    WorkerStep c s (s.setWorker w { s.workers w with ThLocalEpoch := g, pc := .compareEpoch call old_tid }) w := by
  have hw := h.workers w
  have hp := hw.pc
  simp only [PcEpoch, hpc] at hp
  obtain ⟨hold, hle, hge, hone⟩ := hp
  refine workerStep_move h rfl rfl rfl ⟨hge, hw.ctidw.trans hle, hw.mrctid.trans hle,
    ⟨hold, hone⟩, ?_⟩ hw.floor_le ?_
  · intro h0
    have hst := hw.starting h0
    rw [hpc] at hst
    cases call <;> exact hst
  · intro r hr
    exact absurd hr (not_inFlight (by simp [hpc, Flying]) r)

/-- A word that agrees with the local epoch has been stored. -/
theorem workerStep_epochAgrees (h : EpochsOk s) (hpc : (s.workers w).pc = .compareEpoch call old_tid)
    (heq : old_tid.epoch.toNat = (s.workers w).ThLocalEpoch) :
    WorkerStep c s (s.setWorker w ((s.workers w).goto (epochReturn call))) w := by
  have hw := h.workers w
  have hp := hw.pc
  simp only [PcEpoch, hpc] at hp
  have hnz : (s.workers w).CTIDW.obj_ ≠ 0 := by
    have he : (s.workers w).CTIDW.epoch.toNat = (s.workers w).ThLocalEpoch := by
      rw [← hp.1]
      exact heq
    simp only [TIDword.obj_]
    omega
  refine workerStep_goto h ?_ (fun h0 => absurd h0 hnz) ?_ ?_
  · cases call <;> trivial
  · refine hw.floor_le.trans (Nat.le_of_eq ?_)
    cases call <;> rfl
  · intro r hr
    exact absurd hr (not_inFlight (by simp [hpc, Flying]) r)

/-- The word that is stored has the local epoch, and is not zero. -/
theorem workerStep_storeCTIDW (h : EpochsOk s) (hpc : (s.workers w).pc = .storeCTIDW call new_epoch) :
    WorkerStep c s (s.setWorker w { s.workers w with CTIDW := epochTid new_epoch, pc := epochReturn call }) w := by
  have hw := h.workers w
  have hp := hw.pc
  simp only [PcEpoch, hpc] at hp
  have hnz : (epochTid new_epoch).obj_ ≠ 0 := by
    simp only [epochTid, epochWord, TIDword.new, TIDword.obj_, Bool.toNat_true]
    omega
  have hep : (epochTid new_epoch).epoch.toNat = (s.workers w).ThLocalEpoch := by
    have hlt : new_epoch < 2 ^ 32 := by
      have hle := hw.local_le
      have hge := h.ge_lt
      omega
    rw [← hp]
    simp only [epochTid, epochWord, BitVec.toNat_ofNat, Nat.mod_eq_of_lt hlt]
  refine workerStep_local h ⟨⟨hw.local_le, hep.le, hw.mrctid, ?_, fun h0 => absurd h0 hnz⟩, ?_, ?_, ?_⟩
    ?_ (fun _ hb => hb) (fun _ hb => Or.inl hb)
  · cases call <;> trivial
  · refine hw.floor_le.trans (Nat.le_of_eq ?_)
    cases call <;> rfl
  · intro _
    exact Or.inr ⟨call, new_epoch, hpc⟩
  · intro _
    exact hnz
  · intro r hr
    rcases hr with hr | hr
    · exact absurd hr (not_inFlight (by simp [hpc, Flying]) r)
    · exact Or.inr hr

/-- `is_ready` may take a buffer of the pool; the rest of the worker stays. -/
theorem workerStep_is_ready (h : EpochsOk s) {t' : Worker K β} (hfly : ¬ Flying (s.workers w).pc)
    (hnot : ¬ Starting (s.workers w).pc) (hlocal : t'.ThLocalEpoch = (s.workers w).ThLocalEpoch)
    (hctidw : t'.CTIDW = (s.workers w).CTIDW) (hmrctid : t'.mrctid_ = (s.workers w).mrctid_)
    (hpool : t'.pool_ = (is_ready (s.workers w)).1.pool_)
    (hbuffer : t'.current_buffer_ = (is_ready (s.workers w)).1.current_buffer_)
    (hpc' : PcEpoch s.GlobalEpoch t') (hfloor : floor s.GlobalEpoch t' = s.GlobalEpoch) :
    WorkerStep c s (s.setWorker w t') w := by
  have hw := h.workers w
  have hnz : (s.workers w).CTIDW.obj_ ≠ 0 := fun h0 => hnot (hw.starting h0)
  obtain ⟨-, -, -, hpool₀, hcur, hkeep⟩ := is_ready_frame (s.workers w)
  have hepoch : EpochOk s.GlobalEpoch t' :=
    ⟨hlocal ▸ hw.local_le, by rw [hlocal, hctidw]; exact hw.ctidw, by rw [hlocal, hmrctid]; exact hw.mrctid, hpc',
      fun h0 => absurd (hctidw ▸ h0) hnz⟩
  refine workerStep_local h ⟨hepoch, by rw [hfloor]; exact hw.floor_le, fun h0 => absurd h0 hnz,
    fun _ => hctidw ▸ hnz⟩ ?_ (hpool ▸ hpool₀) (hbuffer ▸ hcur)
  intro r hr
  rcases hr with hr | ⟨b, hb, hr⟩
  · exact absurd hr (not_inFlight hfly r)
  · exact Or.inr ⟨b, hbuffer.trans (hkeep b hb), hr⟩

theorem workerStep_ready (h : EpochsOk s) (hpc : (s.workers w).pc = .waitReady) :
    WorkerStep c s (s.setWorker w (if (s.workers w).inTx then (is_ready (s.workers w)).1.begin
      else (is_ready (s.workers w)).1.goto .idle)) w := by
  have hfly : ¬ Flying (s.workers w).pc := by simp [hpc, Flying]
  have hnot : ¬ Starting (s.workers w).pc := by simp [hpc, Starting]
  have hloc := is_ready_ThLocalEpoch (s.workers w)
  have hct := is_ready_CTIDW (s.workers w)
  have hmr := is_ready_mrctid (s.workers w)
  split
  · exact workerStep_is_ready h hfly hnot hloc hct hmr rfl rfl (Nat.zero_le _) rfl
  · exact workerStep_is_ready h hfly hnot hloc hct hmr rfl rfl trivial rfl

/-- The steps of `durableEpochWork`. -/
theorem workerStep_tickEpoch (h : EpochsOk s) (hover : epochOverflow s (.work w (.tick : Op K β)) = false)
    (hs : tickEpoch c s w (s.workers w) (s.workers w).pc = some s') : WorkerStep c s s' w := by
  have hw := h.workers w
  have hp := hw.pc
  cases epochTicks_of_tickEpoch hs with
  | durableEpochWork hpc => exact workerStep_quiet h (by simp [hpc, Flying]) trivial rfl (fun _ => trivial)
  | @epochWork call hpc | @checkedAll call _ _ hpc | @checkedBehind call _ _ hpc | @checkedOne call _ _ hpc =>
    refine workerStep_quiet h (by simp [hpc, Flying]) trivial rfl ?_
    rw [hpc]
    cases call <;> exact id
  | addGE hpc =>
    simp only [epochOverflow, hpc, decide_eq_false_iff_not, Nat.not_le] at hover
    exact workerStep_addGE h hpc hover
  | @loadCTIDW call hpc =>
    refine workerStep_quiet h (by simp [hpc, Flying]) rfl rfl ?_
    rw [hpc]
    cases call <;> exact id
  | @loadGE call old_tid hpc =>
    simp only [PcEpoch, hpc] at hp
    refine workerStep_quiet h (by simp [hpc, Flying]) ⟨hp, hw.local_le, Nat.le_refl _, h.ge⟩ rfl ?_
    rw [hpc]
    cases call <;> exact id
  | storeLocalEpoch hpc => exact workerStep_storeLocalEpoch h hpc
  | @epochDiffers call old_tid hpc hne =>
    refine workerStep_quiet h (by simp [hpc, Flying]) rfl rfl ?_
    rw [hpc]
    cases call <;> exact id
  | epochAgrees hpc heq => exact workerStep_epochAgrees h hpc heq
  | storeCTIDW hpc => exact workerStep_storeCTIDW h hpc
  | localMoved hpc | localEmpty hpc | localKept hpc =>
    exact workerStep_quiet h (by simp [hpc, Flying]) trivial rfl (by simp [hpc, Starting])
  | noBuffer => exact workerStep_halt h
  | publish hpc hb =>
    refine workerStep_publish h hb trivial ?_ hw.floor_le ?_
    · intro h0
      have hst := hw.starting h0
      rw [hpc] at hst
      exact hst.elim
    · intro r hr
      exact absurd hr (not_inFlight (by simp [hpc, Flying]) r)
  | ready hpc => exact workerStep_ready h hpc
  | notReady hpc => exact workerStep_quiet h (by simp [hpc, Flying]) trivial rfl (by simp [hpc, Starting])

/-- After the first store a worker's word is not zero. -/
theorem EpochsOk.ctidw_ne_zero (h : EpochsOk s) (hnot : ¬ Starting (s.workers w).pc) : (s.workers w).CTIDW.obj_ ≠ 0 :=
  fun h0 => hnot ((h.workers w).starting h0)

theorem workerStep_validationLoad (h : EpochsOk s) (hpc : (s.workers w).pc = .validationLoad) :
    WorkerStep c s (s.setWorker w ((s.workers w).goto (.validationStore s.GlobalEpoch))) w := by
  have hw := h.workers w
  have hp := hw.pc
  simp only [PcEpoch, hpc] at hp
  refine workerStep_goto h ⟨hp, hw.local_le, Nat.le_refl _⟩
    (fun h0 => absurd h0 (h.ctidw_ne_zero (by simp [hpc, Starting]))) hw.floor_le ?_
  intro r hr
  exact absurd hr (not_inFlight (by simp [hpc, Flying]) r)

theorem workerStep_validationStore (h : EpochsOk s) (hpc : (s.workers w).pc = .validationStore g) :
    WorkerStep c s (s.setWorker w { s.workers w with ThLocalEpoch := g, pc := .validationCheck }) w := by
  have hw := h.workers w
  have hp := hw.pc
  simp only [PcEpoch, hpc] at hp
  obtain ⟨hseen, hle, hge⟩ := hp
  refine workerStep_move h rfl rfl rfl ⟨hge, hw.ctidw.trans hle, hw.mrctid.trans hle, hseen,
    fun h0 => absurd h0 (h.ctidw_ne_zero (by simp [hpc, Starting]))⟩ ?_ ?_
  · simp [floor, hpc]
  · intro r hr
    exact absurd hr (not_inFlight (by simp [hpc, Flying]) r)

/-- The write set goes from the transaction into the buffer. -/
theorem workerStep_pushed (h : EpochsOk s) {new_epoch_begins : Bool} {b : LogBuffer K β}
    (hpc : (s.workers w).pc = .pushReady tid new_epoch_begins)
    (hb : (is_ready (s.workers w)).1.current_buffer_ = some b) :
    WorkerStep c s { s.setWorker w { (is_ready (s.workers w)).1 with
        current_buffer_ := some (b.push tid (s.workers w).write_set_)
        pc := if new_epoch_begins then Pc.walStore tid else Pc.writing tid 0 } with
      halted := !b.pushAsserts tid (s.workers w).write_set_ } w := by
  have hw := h.workers w
  have hp := hw.pc
  simp only [PcEpoch, hpc] at hp
  obtain ⟨-, -, -, hpool, hcur, hkeep⟩ := is_ready_frame (s.workers w)
  have hct := is_ready_CTIDW (s.workers w)
  have hloc := is_ready_ThLocalEpoch (s.workers w)
  have hmr := is_ready_mrctid (s.workers w)
  have hnz := h.ctidw_ne_zero (w := w) (by simp [hpc, Starting])
  have hclimb : Climb s.GlobalEpoch s.GlobalEpoch (s.workers w) { (is_ready (s.workers w)).1 with
      current_buffer_ := some (b.push tid (s.workers w).write_set_)
      pc := if new_epoch_begins then Pc.walStore tid else Pc.writing tid 0 } := by
    refine ⟨⟨?_, ?_, ?_, ?_, ?_⟩, ?_, ?_, ?_⟩
    · exact hloc ▸ hw.local_le
    · rw [hct, hloc]
      exact hw.ctidw
    · rw [hmr, hloc]
      exact hw.mrctid
    · cases new_epoch_begins with
      | true =>
        refine ⟨?_, hp.2⟩
        rw [hloc]
        exact hp.1
      | false =>
        change tid.epoch.toNat ≤ (is_ready (s.workers w)).1.ThLocalEpoch
        rw [hloc]
        exact hp.1.le
    · intro h0
      rw [hct] at h0
      exact absurd h0 hnz
    · refine hw.floor_le.trans (Nat.le_of_eq ?_)
      cases new_epoch_begins <;> rfl
    · intro h0
      exact absurd h0 hnz
    · intro _
      rw [hct]
      exact hnz
  have hset := workerStep_set (c := c) s.GlobalEpoch s.tidword []
    (!b.pushAsserts tid (s.workers w).write_set_) (Nat.le_refl _) h.ge_lt h.words hclimb (by simp)
    ?_ ?_
  · simpa [State.setWorker] using hset
  · intro r hr
    right
    refine ⟨_, rfl, mem_push ?_⟩
    rcases hr with hr | ⟨b', hb', hr⟩
    · simp only [InFlight, hpc] at hr
      exact Or.inr hr
    · have hsame := hkeep b' hb'
      rw [hb] at hsame
      obtain rfl := Option.some.inj hsame
      exact Or.inl hr
  · intro hh ht
    refine ⟨fun b' hb' => ht.pool w b' (hpool b' hb'), ?_⟩
    intro b' hb'
    obtain rfl := Option.some.inj hb'
    refine oneEpoch_push_of_asserts ?_ (by simpa using hh)
    rcases hcur b hb with hb | hb
    · exact ht.buffer w b hb
    · exact Or.inl (ht.pool w b hb)

theorem workerStep_walStore (h : EpochsOk s) (hpc : (s.workers w).pc = .walStore tid) :
    WorkerStep c s (s.setWorker w { s.workers w with CTIDW := tid, pc := .writing tid 0 }) w := by
  have hw := h.workers w
  have hp := hw.pc
  simp only [PcEpoch, hpc] at hp
  have hnz : tid.obj_ ≠ 0 := by
    simp only [TIDword.obj_, hp.2, Bool.toNat_true]
    omega
  refine workerStep_local h ⟨⟨hw.local_le, hp.1.le, hw.mrctid, hp.1.le, fun h0 => absurd h0 hnz⟩,
    hw.floor_le, fun h0 => absurd h0 (h.ctidw_ne_zero (by simp [hpc, Starting])), fun _ => hnz⟩ ?_
    (fun _ hb => hb) (fun _ hb => Or.inl hb)
  intro r hr
  exact hr.imp_left fun hr => absurd hr (not_inFlight (by simp [hpc, Flying]) r)

/-- The word of a record gets the epoch of the commit. -/
theorem workerStep_writing (h : EpochsOk s) {i : Nat} {we : WriteElement K β}
    (hpc : (s.workers w).pc = .writing tid i) :
    WorkerStep c s { s.setWorker w ((s.workers w).goto (.writing (storedWord tid we.op_) (i + 1))) with
      tidword := Function.update s.tidword we.value_ (storedWord tid we.op_) } w := by
  have hw := h.workers w
  have hp := hw.pc
  simp only [PcEpoch, hpc] at hp
  have hword : (storedWord tid we.op_).epoch = tid.epoch := by
    cases we.op_ <;> rfl
  have hclimb : Climb s.GlobalEpoch s.GlobalEpoch (s.workers w)
      ((s.workers w).goto (.writing (storedWord tid we.op_) (i + 1))) := by
    refine ⟨⟨hw.local_le, hw.ctidw, hw.mrctid, ?_,
      fun h0 => absurd h0 (h.ctidw_ne_zero (by simp [hpc, Starting]))⟩, hw.floor_le, Or.inl, id⟩
    change (storedWord tid we.op_).epoch.toNat ≤ (s.workers w).ThLocalEpoch
    rw [hword]
    exact hp
  have hset := workerStep_set (c := c) s.GlobalEpoch
    (Function.update s.tidword we.value_ (storedWord tid we.op_)) [] s.halted (Nat.le_refl _)
    h.ge_lt ?_ hclimb (by simp)
    (fun r hr => hr.imp_left fun hr => absurd hr (not_inFlight (by simp [hpc, Flying]) r))
    (fun _ ht => ⟨ht.pool w, ht.buffer w⟩)
  · simpa [State.setWorker] using hset
  · intro v
    rw [Function.update_apply]
    split
    · rw [hword]
      exact hp.trans hw.local_le
    · exact h.words v

end

/-- The steps of `wal` and `writePhase`. -/
theorem workerStep_tickCommit (h : EpochsOk s)
    (hs : tickCommit c s w (s.workers w) (s.workers w).pc = some s') : WorkerStep c s s' w := by
  have hw := h.workers w
  have hp := hw.pc
  cases commitTicks_of_tickCommit hs with
  | validationLoad hpc => exact workerStep_validationLoad h hpc
  | validationStore hpc => exact workerStep_validationStore h hpc
  | wal hpc | pushRoom hpc =>
    simp only [PcEpoch, hpc] at hp
    refine workerStep_goto h hp (fun h0 => absurd h0 (h.ctidw_ne_zero (by simp [hpc, Starting]))) hw.floor_le ?_
    intro r hr
    simp only [InFlight, hpc] at hr
    exact hr
  | noBuffer => exact workerStep_halt h
  | pushFull hpc hb =>
    simp only [PcEpoch, hpc] at hp
    refine workerStep_publish h hb hp (fun h0 => absurd h0 (h.ctidw_ne_zero (by simp [hpc, Starting]))) hw.floor_le ?_
    intro r hr
    simp only [InFlight, hpc] at hr
    exact hr
  | @waiting tid new_epoch_begins hpc =>
    simp only [PcEpoch, hpc] at hp
    have hstay : WorkerStep c s
        (s.setWorker w ((s.workers w).goto (.pushReady tid new_epoch_begins))) w := by
      refine workerStep_goto h hp (hpc ▸ hw.starting) hw.floor_le ?_
      intro r hr
      simp only [InFlight, hpc] at hr
      exact hr
    have heq : s.setWorker w ((s.workers w).goto (.pushReady tid new_epoch_begins)) = s := by
      simp [State.setWorker, Worker.goto, ← hpc]
    rwa [heq] at hstay
  | pushed hpc hb => exact workerStep_pushed h hpc hb
  | walStore hpc => exact workerStep_walStore h hpc
  | written hpc =>
    refine workerStep_move h rfl rfl rfl ⟨hw.local_le, hw.ctidw, hw.mrctid, trivial,
      fun _ => trivial⟩ hw.floor_le ?_
    intro r hr
    exact absurd hr (not_inFlight (by simp [hpc, Flying]) r)
  | writing hpc => exact workerStep_writing h hpc

theorem workerStep_work (h : EpochsOk s) {op : Op K β}
    (hover : epochOverflow s (.work w op) = false) (hs : work c s w op = some s') :
    WorkerStep c s s' w := by
  have hw := h.workers w
  have hp := hw.pc
  have hfloor := hw.floor_le
  have hnz : ¬ Starting (s.workers w).pc → (s.workers w).CTIDW.obj_ ≠ 0 :=
    fun hn h0 => hn (hw.starting h0)
  have hmove : ∀ t' : Worker K β, t'.CTIDW = (s.workers w).CTIDW →
      t'.ThLocalEpoch = (s.workers w).ThLocalEpoch → t'.mrctid_ = (s.workers w).mrctid_ →
      t'.pool_ = (s.workers w).pool_ → t'.current_buffer_ = (s.workers w).current_buffer_ →
      PcEpoch s.GlobalEpoch t' → ¬ Flying (s.workers w).pc →
      floor s.GlobalEpoch t' = s.GlobalEpoch → (Starting (s.workers w).pc → Starting t'.pc) →
      WorkerStep c s (s.setWorker w t') w := by
    intro t' h1 h2 h3 h4 h5 h6 h7 h8 h9
    refine workerStep_move h h1 h4 h5 ⟨h2 ▸ hw.local_le, by rw [h1, h2]; exact hw.ctidw,
      by rw [h3, h2]; exact hw.mrctid, h6, fun h0 => h9 (hw.starting (h1 ▸ h0))⟩
      (by rw [h8]; exact hfloor) ?_
    intro r hr
    exact absurd hr (not_inFlight h7 r)
  cases works_of_work hs with
  | tickEpoch hs => exact workerStep_tickEpoch h hover hs
  | tickCommit hs => exact workerStep_tickCommit h hs
  | @lead call hpc =>
    refine hmove _ rfl rfl rfl rfl rfl trivial (by simp [hpc, Flying]) rfl ?_
    rw [hpc]
    cases call <;> exact id
  | noRequest hpc | request hpc | refuse hpc | fail hpc =>
    exact hmove _ rfl rfl rfl rfl rfl trivial (by simp [hpc, Flying]) rfl (fun _ => trivial)
  | observe hpc =>
    simp only [PcEpoch, hpc] at hp
    refine hmove _ rfl rfl rfl rfl rfl ?_ (by simp [hpc, Flying]) (by simp [floor, hpc]) id
    simp only [PcEpoch, hpc]
    rw [TIDword.epoch_max]
    exact Nat.max_le.mpr ⟨hp, h.words _⟩
  | write hpc =>
    simp only [PcEpoch, hpc] at hp
    exact hmove _ rfl rfl rfl rfl rfl (by simpa [PcEpoch, hpc] using hp) (by simp [hpc, Flying])
      (by simp [floor, hpc]) id
  | validate hpc =>
    simp only [PcEpoch, hpc] at hp
    exact hmove _ rfl rfl rfl rfl rfl hp (by simp [hpc, Flying]) rfl (by simp [hpc, Starting])
  | pass hpc =>
    have hep := hw.commitTid_epoch hpc h.ge_lt
    have hnz' := hnz (by simp [hpc, Starting])
    have hclimb : Climb s.GlobalEpoch s.GlobalEpoch (s.workers w) { s.workers w with
        mrctid_ := (s.workers w).commitTid, pc := .wal (s.workers w).commitTid } :=
      ⟨⟨hw.local_le, hw.ctidw, hep.le, ⟨hep, rfl⟩, fun h0 => absurd h0 hnz'⟩, hfloor, Or.inl, id⟩
    have hset := workerStep_set (c := c) s.GlobalEpoch s.tidword
      [⟨w, (s.workers w).commitTid,
        LogBuffer.logRecords (s.workers w).commitTid (s.workers w).write_set_⟩] s.halted
      (Nat.le_refl _) h.ge_lt h.words hclimb ?_
      (fun r hr => hr.imp_left fun hr => absurd hr (not_inFlight (by simp [hpc, Flying]) r))
      (fun _ ht => ⟨ht.pool w, ht.buffer w⟩)
    · simpa [State.setWorker] using hset
    · intro cm hcm
      obtain rfl := List.mem_singleton.mp hcm
      refine ⟨rfl, ?_, hnz', ?_⟩
      · simp only [floor, hpc]
        exact hep.ge
      · intro r hr
        exact ⟨tid_of_mem_logRecords hr, hr⟩

end

/-- No worker of the logger can commit in an epoch up to `d` any more, and what was
committed there is in the file. -/
def Safe (c : Config) (s : State K β D) (l d : Nat) : Prop :=
  ∀ w ∈ c.thid_vec_ l, d < floor s.GlobalEpoch (s.workers w) ∧
    ∀ cm ∈ s.committed, cm.worker = w → cm.tid.epoch.toNat ≤ d → ∀ r ∈ cm.records, InFile s l r

/-- The worker is past every epoch before `e`, and what it committed there has left it. -/
def Passed (s : State K β D) (l w e : Nat) : Prop :=
  e ≤ floor s.GlobalEpoch (s.workers w) ∧
    ∀ cm ∈ s.committed, cm.worker = w → cm.tid.epoch.toNat < e →
      ∀ r ∈ cm.records, InQueue s l r ∨ InFile s l r

/-- What the control state of a logger has established. -/
def LPcOk (c : Config) (s : State K β D) (l : Nat) : LPc K β → Prop
  | .waitDeq => True
  | .findMin _ i min_ctid => (min_ctid = ones ∨ min_ctid.epoch.toNat ≤ s.GlobalEpoch) ∧
      ∀ w ∈ (c.thid_vec_ l).take i,
        (s.workers w).CTIDW.obj_ = 0 ∨ Passed s l w min_ctid.epoch.toNat
  | .queueMin _ min_ctid => min_ctid = ones ∨ ∀ w ∈ c.thid_vec_ l, Passed s l w min_ctid.epoch.toNat
  | .deq min_epoch => min_epoch = 0 ∨ Safe c s l (min_epoch - 1)
  | .writeLog min_epoch _ => min_epoch = 0 ∨ Safe c s l (min_epoch - 1)
  | .writeTail min_epoch _ => min_epoch = 0 ∨ Safe c s l (min_epoch - 1)
  | .returnBuffer min_epoch _ => min_epoch = 0 ∨ Safe c s l (min_epoch - 1)
  | .sendNid min_epoch => min_epoch = 0 ∨ Safe c s l (min_epoch - 1)
  | .checkFirst new_dl => Safe c s l new_dl
  | .checkDurable new_dl i min_dl => Safe c s l new_dl ∧ ∀ j < i, Safe c s j min_dl
  | .loadDurable new_dl min_dl =>
      Safe c s l new_dl ∧ ∀ j < c.num_logger_threads, Safe c s j min_dl
  | .casDurable new_dl min_dl _ =>
      Safe c s l new_dl ∧ ∀ j < c.num_logger_threads, Safe c s j min_dl
  | .writeEpoch new_dl _ => Safe c s l new_dl
  | .storeDurable new_dl => Safe c s l new_dl

/-- From one state to a later one: floors rise, new commits are at or above them, and
nothing leaves a file. -/
structure Advances (s s' : State K β D) : Prop where
  floor : ∀ u, floor s.GlobalEpoch (s.workers u) ≤ floor s'.GlobalEpoch (s'.workers u)
  ge : s.GlobalEpoch ≤ s'.GlobalEpoch
  committed : ∀ cm ∈ s'.committed, cm ∈ s.committed ∨
    Durability.floor s.GlobalEpoch (s.workers cm.worker) ≤ cm.tid.epoch.toNat
  file : ∀ l r, InFile s l r → InFile s' l r

section
variable {c : Config} {s s' : State K β D} {l w d e : Nat}

theorem Safe.advance (h : Safe c s l d) (ha : Advances s s') : Safe c s' l d := by
  intro w hw
  obtain ⟨hd, hcm⟩ := h w hw
  refine ⟨hd.trans_le (ha.floor w), ?_⟩
  rintro cm hmem rfl hle r hr
  rcases ha.committed cm hmem with hold | hnew
  · exact ha.file l r (hcm cm hold rfl hle r hr)
  · omega

theorem Safe.anti {d' : Nat} (h : Safe c s l d) (hle : d' ≤ d) : Safe c s l d' := by
  intro w hw
  obtain ⟨hd, hcm⟩ := h w hw
  exact ⟨hle.trans_lt hd, fun cm hmem hcw hepoch => hcm cm hmem hcw (hepoch.trans hle)⟩

theorem Passed.advance (h : Passed s l w e) (ha : Advances s s')
    (hq : ∀ r, InQueue s l r → InQueue s' l r) : Passed s' l w e := by
  refine ⟨h.1.trans (ha.floor w), ?_⟩
  rintro cm hmem rfl hlt r hr
  rcases ha.committed cm hmem with hold | hnew
  · exact (h.2 cm hold rfl hlt r hr).imp (hq r) (ha.file l r)
  · have := h.1
    omega

theorem Passed.anti {e' : Nat} (h : Passed s l w e) (hle : e' ≤ e) : Passed s l w e' :=
  ⟨hle.trans h.1, fun cm hmem hcw hlt => h.2 cm hmem hcw (hlt.trans_le hle)⟩

theorem LPcOk.advance {pc : LPc K β} (h : LPcOk c s l pc) (ha : Advances s s')
    (hq : ∀ r, InQueue s l r → InQueue s' l r)
    (hz : ∀ logging i m, pc = .findMin logging i m → ∀ u ∈ (c.thid_vec_ l).take i,
      (s.workers u).CTIDW.obj_ = 0 → (s'.workers u).CTIDW.obj_ = 0) : LPcOk c s' l pc := by
  cases pc with
  | waitDeq => trivial
  | findMin logging i m =>
    refine ⟨h.1.imp_right fun hm => hm.trans ha.ge, ?_⟩
    intro u hu
    exact (h.2 u hu).imp (hz logging i m rfl u hu) fun hp => hp.advance ha hq
  | queueMin logging m => exact Or.imp_right (fun hp u hu => (hp u hu).advance ha hq) h
  | deq e => exact Or.imp_right (fun hp : Safe c s l (e - 1) => hp.advance ha) h
  | writeLog e rest => exact Or.imp_right (fun hp : Safe c s l (e - 1) => hp.advance ha) h
  | writeTail e rest => exact Or.imp_right (fun hp : Safe c s l (e - 1) => hp.advance ha) h
  | returnBuffer e rest => exact Or.imp_right (fun hp : Safe c s l (e - 1) => hp.advance ha) h
  | sendNid e => exact Or.imp_right (fun hp : Safe c s l (e - 1) => hp.advance ha) h
  | checkFirst nd => exact Safe.advance h ha
  | checkDurable nd i md => exact ⟨h.1.advance ha, fun j hj => (h.2 j hj).advance ha⟩
  | loadDurable nd md => exact ⟨h.1.advance ha, fun j hj => (h.2 j hj).advance ha⟩
  | casDurable nd md dl => exact ⟨h.1.advance ha, fun j hj => (h.2 j hj).advance ha⟩
  | writeEpoch nd md => exact Safe.advance h ha
  | storeDurable nd => exact Safe.advance h ha

end

structure DurableInv (c : Config) (s : State K β D) : Prop where
  epochs : EpochsOk s
  tidy : s.halted = false → Tidy s
  commits : ∀ cm ∈ s.committed, cm.worker < c.num_worker_threads ∧
    (s.workers cm.worker).CTIDW.obj_ ≠ 0 ∧
    ∀ r ∈ cm.records, r.tid_ = cm.tid ∧ Somewhere s cm.worker (c.logger_thid_ cm.worker) r
  loggers : ∀ l, LPcOk c s l (s.loggers l).pc
  local_ : ∀ l, Safe c s l (s.loggers l).ThLocalDurableEpoch
  durable : ∀ l < c.num_logger_threads, Safe c s l s.DurableEpoch

section
variable {c : Config} {s s' : State K β D} {w : Nat}

theorem DurableInv.sound (h : DurableInv c s) : DurableSound c s := by
  intro cm hcm hle r hr
  obtain ⟨hw, -, -⟩ := h.commits cm hcm
  exact (h.durable _ (c.inRange _ hw) cm.worker (c.assigned _ hw)).2 cm hcm rfl hle r hr

theorem WorkerStep.advances (hs : WorkerStep c s s' w) : Advances s s' where
  floor u := by
    by_cases hu : u = w
    · subst hu
      exact hs.climb.floor
    · rw [hs.others u hu]
      exact floor_mono hs.ge
  ge := hs.ge
  committed cm hcm := by
    obtain ⟨new, hnew, hprop⟩ := hs.committed
    rw [hnew] at hcm
    rcases List.mem_append.mp hcm with hold | hcm
    · exact Or.inl hold
    · obtain ⟨rfl, hfl, -⟩ := hprop cm hcm
      exact Or.inr hfl
  file l r := by
    unfold InFile
    rw [(hs.logger l).2.1]
    exact id

theorem WorkerStep.epochsOk (hs : WorkerStep c s s' w) (h : EpochsOk s) : EpochsOk s' := by
  refine ⟨h.ge.trans hs.ge, hs.ge_lt, hs.words, ?_⟩
  intro u
  by_cases hu : u = w
  · subst hu
    exact hs.climb.epoch
  · rw [hs.others u hu]
    exact (h.workers u).mono hs.ge

theorem WorkerStep.somewhere (hs : WorkerStep c s s' w) {u : Nat} {r : LogRecord K β}
    (h : Somewhere s u (c.logger_thid_ u) r) : Somewhere s' u (c.logger_thid_ u) r := by
  have hrest : InQueue s (c.logger_thid_ u) r ∨ InHand s (c.logger_thid_ u) r ∨
      InFile s (c.logger_thid_ u) r → Somewhere s' u (c.logger_thid_ u) r := by
    rintro (hr | hr | hr)
    · exact Or.inr (Or.inr (Or.inl (hs.queue _ r hr)))
    · unfold InHand at hr
      rw [← (hs.logger _).1] at hr
      exact Or.inr (Or.inr (Or.inr (Or.inl hr)))
    · exact Or.inr (Or.inr (Or.inr (Or.inr (hs.advances.file _ r hr))))
  by_cases hu : u = w
  · subst hu
    rcases h with hr | hr | hr
    · rcases hs.moved r (Or.inl hr) with hr | hr | hr
      · exact Or.inl hr
      · exact Or.inr (Or.inl hr)
      · exact Or.inr (Or.inr (Or.inl hr))
    · rcases hs.moved r (Or.inr hr) with hr | hr | hr
      · exact Or.inl hr
      · exact Or.inr (Or.inl hr)
      · exact Or.inr (Or.inr (Or.inl hr))
    · exact hrest hr
  · rcases h with hr | hr | hr
    · exact Or.inl (by rw [hs.others u hu]; exact hr)
    · exact Or.inr (Or.inl (by rw [hs.others u hu]; exact hr))
    · exact hrest hr

theorem durableInv_worker (h : DurableInv c s) (hrun : s.halted = false)
    (hw : w < c.num_worker_threads) (hs : WorkerStep c s s' w) {op : Op K β}
    (hlate : lateStart c s (.work w op) = false) : DurableInv c s' where
  epochs := hs.epochsOk h.epochs
  tidy hh := hs.tidy hh (h.tidy hrun)
  commits cm hcm := by
    obtain ⟨new, hnew, hprop⟩ := hs.committed
    rw [hnew] at hcm
    rcases List.mem_append.mp hcm with hold | hcm
    · obtain ⟨hlt, hnz, hrec⟩ := h.commits cm hold
      refine ⟨hlt, ?_, fun r hr => ⟨(hrec r hr).1, hs.somewhere (hrec r hr).2⟩⟩
      by_cases hu : cm.worker = w
      · rw [hu] at hnz ⊢
        exact hs.climb.stay hnz
      · rw [hs.others _ hu]
        exact hnz
    · obtain ⟨rfl, -, hnz, hrec⟩ := hprop cm hcm
      exact ⟨hw, hnz, fun r hr => ⟨(hrec r hr).1, Or.inl (hrec r hr).2⟩⟩
  loggers l := by
    rw [(hs.logger l).1]
    refine (h.loggers l).advance hs.advances (hs.queue l) ?_
    intro logging i m hpc u hu h0
    by_cases huw : u = w
    · subst huw
      rcases hs.climb.first h0 with h0' | ⟨call, g, hstore⟩
      · exact h0'
      · -- the logger has passed this worker, so it may not start now
        exfalso
        obtain rfl := c.exclusive l u (List.mem_of_mem_take hu)
        simp [lateStart, hstore, hpc, h0, hu] at hlate
    · rw [hs.others u huw]
      exact h0
  local_ l := by
    rw [(hs.logger l).2.2.1]
    exact (h.local_ l).advance hs.advances
  durable l hl := by
    rw [hs.durable]
    exact (h.durable l hl).advance hs.advances

end

/-- Of the workers only a pool can change, and a record that has reached the logger
stays in its queue, in its hands or in its file. -/
structure LoggerStep (s s' : State K β D) (l : Nat) : Prop where
  workers : ∀ u, ∃ pool, s'.workers u = { s.workers u with pool_ := pool }
  ge : s'.GlobalEpoch = s.GlobalEpoch
  words : s'.tidword = s.tidword
  committed : s'.committed = s.committed
  others : ∀ m, m ≠ l → s'.loggers m = s.loggers m
  kept : ∀ r, InQueue s l r ∨ InHand s l r ∨ InFile s l r →
    InQueue s' l r ∨ InHand s' l r ∨ InFile s' l r
  file : ∀ r, InFile s l r → InFile s' l r
  tidy : Tidy s → Tidy s'

section
variable {c : Config} {s s' : State K β D} {l : Nat}

theorem LoggerStep.advances (hs : LoggerStep s s' l) : Advances s s' where
  floor u := by
    obtain ⟨pool, hu⟩ := hs.workers u
    rw [hs.ge, hu]
    exact Nat.le_refl _
  ge := hs.ge.ge
  committed cm hcm := Or.inl (hs.committed ▸ hcm)
  file m r hr := by
    by_cases hm : m = l
    · subst hm
      exact hs.file r hr
    · unfold InFile at hr ⊢
      rw [hs.others m hm]
      exact hr

theorem LoggerStep.epochsOk (hs : LoggerStep s s' l) (h : EpochsOk s) : EpochsOk s' := by
  refine ⟨hs.ge ▸ h.ge, hs.ge ▸ h.ge_lt, ?_, ?_⟩
  · rw [hs.words, hs.ge]
    exact h.words
  · intro u
    obtain ⟨pool, hu⟩ := hs.workers u
    have he := h.workers u
    rw [hs.ge, hu]
    exact ⟨he.local_le, he.ctidw, he.mrctid, he.pc, he.starting⟩

theorem LoggerStep.somewhere (hs : LoggerStep s s' l) {u m : Nat} {r : LogRecord K β}
    (h : Somewhere s u m r) : Somewhere s' u m r := by
  obtain ⟨pool, hu⟩ := hs.workers u
  unfold Somewhere at h ⊢
  rcases h with hr | hr | hr
  · left
    rw [hu]
    exact hr
  · right
    left
    rw [hu]
    exact hr
  · right
    right
    by_cases hm : m = l
    · subst hm
      exact hs.kept r hr
    · unfold InQueue InHand InFile at hr ⊢
      rw [hs.others m hm]
      exact hr

theorem durableInv_logger (h : DurableInv c s) (hrun : s.halted = false) (hs : LoggerStep s s' l)
    (hpc : LPcOk c s' l (s'.loggers l).pc) (hlocal : Safe c s' l (s'.loggers l).ThLocalDurableEpoch)
    (hdurable : ∀ j < c.num_logger_threads, Safe c s j s'.DurableEpoch) : DurableInv c s' where
  epochs := hs.epochsOk h.epochs
  tidy _ := hs.tidy (h.tidy hrun)
  commits cm hcm := by
    rw [hs.committed] at hcm
    obtain ⟨hlt, hnz, hrec⟩ := h.commits cm hcm
    refine ⟨hlt, ?_, fun r hr => ⟨(hrec r hr).1, hs.somewhere (hrec r hr).2⟩⟩
    obtain ⟨pool, hu⟩ := hs.workers cm.worker
    rw [hu]
    exact hnz
  loggers m := by
    by_cases hm : m = l
    · subst hm
      exact hpc
    · rw [hs.others m hm]
      refine (h.loggers m).advance hs.advances ?_ ?_
      · intro r hr
        unfold InQueue at hr ⊢
        rw [hs.others m hm]
        exact hr
      · intro _ _ _ _ u _ h0
        obtain ⟨pool, hu⟩ := hs.workers u
        rw [hu]
        exact h0
  local_ m := by
    by_cases hm : m = l
    · subst hm
      exact hlocal
    · rw [hs.others m hm]
      exact (h.local_ m).advance hs.advances
  durable j hj := (hdurable j hj).advance hs.advances

theorem Tidy.setLogger {g : Logger K β D} (h : Tidy s) (hq : ∀ b ∈ g.queue_, Full b)
    (hh : ∀ b ∈ Durability.held g.pc, Full b)
    (hs : g.queue_.Pairwise fun x y => x.min_epoch_ ≤ y.min_epoch_) : Tidy (s.setLogger l g) where
  pool := h.pool
  buffer := h.buffer
  queue m := by
    by_cases hm : m = l
    · subst hm
      rw [setLogger_self]
      exact hq
    · rw [setLogger_other s l g hm]
      exact h.queue m
  held m := by
    by_cases hm : m = l
    · subst hm
      rw [setLogger_self]
      exact hh
    · rw [setLogger_other s l g hm]
      exact h.held m
  sorted m := by
    by_cases hm : m = l
    · subst hm
      rw [setLogger_self]
      exact hs
    · rw [setLogger_other s l g hm]
      exact h.sorted m

/-- A step that replaces the logger's own state. -/
theorem loggerStep_set {g : Logger K β D} (d : Nat) (p : Option Nat)
    (hkept : ∀ r, InQueue s l r ∨ InHand s l r ∨ InFile s l r →
      InQueue (s.setLogger l g) l r ∨ InHand (s.setLogger l g) l r ∨ InFile (s.setLogger l g) l r)
    (hfile : ∀ r, InFile s l r → InFile (s.setLogger l g) l r)
    (htidy : Tidy s → (∀ b ∈ g.queue_, Full b) ∧ (∀ b ∈ held g.pc, Full b) ∧
      g.queue_.Pairwise fun x y => x.min_epoch_ ≤ y.min_epoch_) :
    LoggerStep s { s.setLogger l g with DurableEpoch := d, pepoch := p } l where
  workers u := ⟨(s.workers u).pool_, rfl⟩
  ge := rfl
  words := rfl
  committed := rfl
  others m hm := setLogger_other s l g hm
  kept := hkept
  file := hfile
  tidy ht := by
    obtain ⟨hq, hh, hsort⟩ := htidy ht
    have hnext := ht.setLogger (l := l) hq hh hsort
    exact ⟨hnext.pool, hnext.buffer, hnext.queue, hnext.held, hnext.sorted⟩

/-- A buffer goes back into its pool as it came out. -/
theorem LoggerStep.returnBuffer {b : LogBuffer K β} (h : LoggerStep s s' l)
    (hb : b ∈ Durability.held (s.loggers l).pc) : LoggerStep s (s'.returnBuffer b) l where
  workers u := by
    unfold State.returnBuffer
    by_cases hu : u = b.pool_
    · subst hu
      obtain ⟨pool, hpool⟩ := h.workers b.pool_
      rw [setWorker_self, hpool]
      exact ⟨_, rfl⟩
    · rw [setWorker_other _ _ _ hu]
      exact h.workers u
  ge := h.ge
  words := h.words
  committed := h.committed
  others := h.others
  kept := h.kept
  file := h.file
  tidy ht := by
    have ht' := h.tidy ht
    refine ht'.setWorker ?_ (ht'.buffer b.pool_)
    intro x hx
    rcases List.mem_append.mp hx with hx | hx
    · exact ht'.pool _ x hx
    · rw [List.mem_singleton.mp hx]
      exact OneEpoch.recycled (Or.inr (ht.held l b hb))

/-- The queue, the file and the buffers in hand stay. -/
theorem loggerStep_frame {g : Logger K β D} (d : Nat) (p : Option Nat)
    (hq : g.queue_ = (s.loggers l).queue_) (hf : g.logfile_ = (s.loggers l).logfile_)
    (hun : ∀ b ∈ unwritten (s.loggers l).pc, b ∈ unwritten g.pc ∨ b.log_set_ = [])
    (hheld : ∀ b ∈ held g.pc, b ∈ held (s.loggers l).pc) :
    LoggerStep s { s.setLogger l g with DurableEpoch := d, pepoch := p } l := by
  refine loggerStep_set d p ?_ ?_ ?_
  · intro r hr
    unfold InQueue InHand InFile at hr ⊢
    rw [setLogger_self, hq, hf]
    rcases hr with hr | ⟨b, hb, hr⟩ | hr
    · exact Or.inl hr
    · rcases hun b hb with hb | hempty
      · exact Or.inr (Or.inl ⟨b, hb, hr⟩)
      · rw [hempty] at hr
        cases hr
    · exact Or.inr (Or.inr hr)
  · intro r hr
    unfold InFile at hr ⊢
    rw [setLogger_self, hf]
    exact hr
  · intro ht
    rw [hq]
    exact ⟨ht.queue l, fun b hb => ht.held l b (hheld b hb), ht.sorted l⟩

theorem loggerStep_log {hash : Hash K β D} (hs : log c hash s l = some s') : LoggerStep s s' l := by
  have hgo : ∀ pc', unwritten (s.loggers l).pc = [] → held pc' = [] →
      LoggerStep s (s.setLogger l ((s.loggers l).goto pc')) l := by
    intro pc' hun hheld
    exact loggerStep_frame s.DurableEpoch s.pepoch rfl rfl (by simp [hun])
      (by simp [Logger.goto, hheld])
  cases logs_of_log hs with
  | deq hpc =>
    refine loggerStep_set s.DurableEpoch s.pepoch ?_ ?_ ?_
    · intro r hr
      unfold InQueue InHand InFile at hr ⊢
      rw [setLogger_self]
      rcases hr with hr | ⟨b, hb, -⟩ | hr
      · exact Or.inr (Or.inl hr)
      · rw [hpc] at hb
        cases hb
      · exact Or.inr (Or.inr hr)
    · intro r hr
      unfold InFile at hr ⊢
      rw [setLogger_self]
      exact hr
    · intro ht
      exact ⟨by simp, ht.queue l, List.Pairwise.nil⟩
  | logEmpty hpc hempty =>
    refine loggerStep_frame s.DurableEpoch s.pepoch rfl rfl ?_ ?_
    · intro x hx
      rw [hpc] at hx
      rcases List.mem_cons.mp hx with rfl | hx
      · exact Or.inr (List.length_eq_zero_iff.mp hempty)
      · exact Or.inl hx
    · intro x hx
      rw [hpc]
      exact hx
  | writeLog hpc =>
    refine loggerStep_set s.DurableEpoch s.pepoch ?_ ?_ ?_
    · intro r hr
      unfold InQueue InHand InFile at hr ⊢
      rw [setLogger_self]
      rcases hr with hr | ⟨x, hx, hr⟩ | ⟨doc, hdoc, hr⟩
      · exact Or.inl hr
      · rw [hpc] at hx
        rcases List.mem_cons.mp hx with rfl | hx
        · exact Or.inr (Or.inr ⟨_, List.mem_append_right _ (List.mem_singleton_self _),
            has_create_json_log hash _ hr⟩)
        · exact Or.inr (Or.inl ⟨x, hx, hr⟩)
      · exact Or.inr (Or.inr ⟨doc, List.mem_append_left _ hdoc, hr⟩)
    · rintro r ⟨doc, hdoc, hr⟩
      unfold InFile
      rw [setLogger_self]
      exact ⟨doc, List.mem_append_left _ hdoc, hr⟩
    · intro ht
      have := ht.held l
      rw [hpc] at this
      exact ⟨ht.queue l, this, ht.sorted l⟩
  | writeTail hpc =>
    refine loggerStep_frame s.DurableEpoch s.pepoch rfl rfl ?_ ?_
    · intro x hx
      rw [hpc] at hx
      exact Or.inl hx
    · intro x hx
      rw [hpc]
      exact hx
  | @returnBuffer e b rest hpc =>
    have hgo : LoggerStep s (s.setLogger l ((s.loggers l).goto (.writeLog e rest))) l := by
      refine loggerStep_frame s.DurableEpoch s.pepoch rfl rfl ?_ ?_
      · intro x hx
        rw [hpc] at hx
        exact Or.inl hx
      · intro x hx
        rw [hpc]
        exact List.mem_cons_of_mem _ hx
    exact hgo.returnBuffer (by rw [hpc]; exact List.mem_cons_self)
  | @casDurable _ md _ hpc =>
    exact loggerStep_frame md s.pepoch rfl rfl (by simp [hpc, unwritten]) (by simp [Logger.goto, held])
  | @writeEpoch _ md hpc =>
    exact loggerStep_frame s.DurableEpoch (some md) rfl rfl (by simp [hpc, unwritten])
      (by simp [Logger.goto, held])
  | storeDurable hpc =>
    exact loggerStep_frame s.DurableEpoch s.pepoch rfl rfl (by simp [hpc, unwritten]) (by simp [held])
  | waitDeq hpc | minLoaded hpc | minFound hpc | queueZero hpc | queueDeq hpc | queueIdle hpc | logEnd hpc
  | sendRaise hpc | sendNothing hpc | checkFirst hpc | checkedLoggers hpc | checkDurable hpc
  | loadDurable hpc | loadReached hpc | casLost hpc => exact hgo _ (by simp [hpc, unwritten]) rfl

/-- What `find_min_epoch` returns: 0, or an epoch before which everything is in the
file. -/
theorem safe_minEpoch (h : Tidy s) (hcm : ∀ cm ∈ s.committed, ∀ r ∈ cm.records, r.tid_ = cm.tid)
    {m : TIDword} (hm : m = ones ∨ ∀ w ∈ c.thid_vec_ l, Passed s l w m.epoch.toNat) :
    minEpoch m (queueMinEpoch (s.loggers l).queue_) = 0 ∨
      Safe c s l (minEpoch m (queueMinEpoch (s.loggers l).queue_) - 1) := by
  rcases Nat.eq_zero_or_pos (minEpoch m (queueMinEpoch (s.loggers l).queue_)) with h0 | hpos
  · exact Or.inl h0
  right
  have hle : minEpoch m (queueMinEpoch (s.loggers l).queue_) ≤ m.epoch.toNat ∧
      minEpoch m (queueMinEpoch (s.loggers l).queue_) ≤ queueMinEpoch (s.loggers l).queue_ := by
    unfold minEpoch at hpos ⊢
    split at hpos
    · omega
    · rename_i hne
      rw [if_neg hne]
      split <;> omega
  have hm' : ∀ w ∈ c.thid_vec_ l, Passed s l w m.epoch.toNat := by
    rcases hm with rfl | hm
    · simp [minEpoch] at hpos
    · exact hm
  intro w hw
  have hp := hm' w hw
  refine ⟨?_, ?_⟩
  · have := hp.1
    omega
  · intro cm hmem hcw hepoch r hr
    rcases hp.2 cm hmem hcw (by omega) r hr with ⟨b, hb, hrb⟩ | hfile
    · have hfilled := OneEpoch.filled (Or.inr (h.queue l b hb)) (List.ne_nil_of_mem hrb)
      have hq := queueMinEpoch_le (h.sorted l) hb
      have := hfilled.records r hrb
      rw [hcm cm hmem r hr] at this
      omega
    · exact hfile

/-- A load of `CTIDW` outside the window: what the worker committed before that epoch
has left it. -/
theorem passed_of_load (h : DurableInv c s) (hrun : s.halted = false) {logging : Bool} {i w : Nat}
    {m : TIDword} (hpc : (s.loggers l).pc = .findMin logging i m) (hw : (c.thid_vec_ l)[i]? = some w)
    (hearly : earlyLoad c s (.log l : Action K β) = false) :
    Passed s l w (s.workers w).CTIDW.epoch.toNat := by
  have he := h.epochs.workers w
  refine ⟨he.ctidw_le_floor, ?_⟩
  rintro cm hmem rfl hlt r hr
  obtain ⟨-, -, hrec⟩ := h.commits cm hmem
  obtain ⟨htid, hplace⟩ := hrec r hr
  have hl : c.logger_thid_ cm.worker = l := c.exclusive l _ (List.mem_of_getElem? hw)
  rw [hl] at hplace
  rcases hplace with hr | ⟨b, hb, hr⟩ | hr | ⟨b, hb, -⟩ | hr
  · exfalso
    have hp := he.pc
    have hc := he.ctidw
    unfold InFlight at hr
    unfold PcEpoch at hp
    split at hr
    all_goals first | exact hr | skip
    all_goals
      rename_i hpcw
      simp only [hpcw] at hp
      have := tid_of_mem_logRecords hr
      rw [htid] at this
      rw [this] at hlt
      omega
  · -- what the buffer holds is not older, or the load would be too early
    exfalso
    have hfilled := ((h.tidy hrun).buffer _ b hb).filled (List.ne_nil_of_mem hr)
    have hmin := hfilled.records r hr
    rw [htid] at hmin
    have hne : b.log_set_ ≠ [] := List.ne_nil_of_mem hr
    simp only [earlyLoad, hpc, hw, hb] at hearly
    simp [hne] at hearly
    omega
  · exact Or.inl hr
  · rw [hpc] at hb
    cases hb
  · exact Or.inr hr

/-- What holds before the step and for the new control state holds after it. -/
theorem durableInv_set (h : DurableInv c s) (hrun : s.halted = false) {g : Logger K β D} {d : Nat}
    {p : Option Nat} (hs : LoggerStep s { s.setLogger l g with DurableEpoch := d, pepoch := p } l)
    (hq : g.queue_ = (s.loggers l).queue_) (hpc : LPcOk c s l g.pc)
    (hlocal : Safe c s l g.ThLocalDurableEpoch) (hd : ∀ j < c.num_logger_threads, Safe c s j d) :
    DurableInv c { s.setLogger l g with DurableEpoch := d, pepoch := p } := by
  refine durableInv_logger h hrun hs ?_ ?_ hd
  · change LPcOk c _ l ((s.setLogger l g).loggers l).pc
    rw [setLogger_self]
    refine hpc.advance hs.advances ?_ (fun _ _ _ _ _ _ h0 => h0)
    intro r hr
    change InQueue (s.setLogger l g) l r
    unfold InQueue at hr ⊢
    rw [setLogger_self, hq]
    exact hr
  · change Safe c _ l ((s.setLogger l g).loggers l).ThLocalDurableEpoch
    rw [setLogger_self]
    exact hlocal.advance hs.advances

theorem minCtid_cases (m ctid : TIDword) :
    (minCtid m ctid = ctid ∨ minCtid m ctid = m) ∧ (minCtid m ctid).obj_ ≤ m.obj_ ∧
      (ctid.obj_ ≠ 0 → (minCtid m ctid).obj_ ≤ ctid.obj_) := by
  unfold minCtid
  split
  · rename_i hlt
    exact ⟨Or.inl rfl, hlt.2.le, fun _ => Nat.le_refl _⟩
  · rename_i hge
    refine ⟨Or.inr rfl, Nat.le_refl _, ?_⟩
    intro h0
    omega

/-- After the loop over the workers. -/
theorem passed_of_minFound (h : DurableInv c s) {logging : Bool} {i : Nat} {m : TIDword}
    (hpc : (s.loggers l).pc = .findMin logging i m) (hnone : (c.thid_vec_ l)[i]? = none) :
    m = ones ∨ ∀ w ∈ c.thid_vec_ l, Passed s l w m.epoch.toNat := by
  have hok := h.loggers l
  rw [hpc] at hok
  obtain ⟨hm, hpassed⟩ := hok
  rcases hm with rfl | hm
  · exact Or.inl rfl
  right
  intro w hw
  rw [List.getElem?_eq_none_iff] at hnone
  rcases hpassed w (by rwa [List.take_of_length_le hnone]) with h0 | hp
  · -- a worker that has not started yet has committed nothing
    have hst := (h.epochs.workers w).starting h0
    refine ⟨by rw [floor_of_starting hst]; exact hm, ?_⟩
    rintro cm hmem rfl
    exact absurd h0 (h.commits cm hmem).2.1
  · exact hp

/-- One turn of the loop over the workers. -/
theorem lPcOk_minLoaded (h : DurableInv c s) (hrun : s.halted = false)
    (hearly : earlyLoad c s (.log l : Action K β) = false) {logging : Bool} {i w : Nat} {m : TIDword}
    (hpc : (s.loggers l).pc = .findMin logging i m) (hw : (c.thid_vec_ l)[i]? = some w) :
    LPcOk c s l (.findMin logging (i + 1) (minCtid m (s.workers w).CTIDW)) := by
  have hok := h.loggers l
  rw [hpc] at hok
  obtain ⟨hm, hpassed⟩ := hok
  obtain ⟨hcase, hle, hlt⟩ := minCtid_cases m (s.workers w).CTIDW
  constructor
  · rcases hcase with heq | heq
    · rw [heq]
      have he := h.epochs.workers w
      exact Or.inr (he.ctidw.trans he.local_le)
    · rw [heq]
      exact hm
  · intro u hu
    rw [List.take_add_one, hw, Option.toList_some, List.mem_append, List.mem_singleton] at hu
    rcases hu with hu | rfl
    · exact (hpassed u hu).imp_right fun hp => hp.anti (TIDword.epoch_le_of_obj_le hle)
    · by_cases h0 : (s.workers u).CTIDW.obj_ = 0
      · exact Or.inl h0
      · exact Or.inr ((passed_of_load h hrun hpc hw hearly).anti (TIDword.epoch_le_of_obj_le (hlt h0)))

/-- One turn of the loop over the loggers. -/
theorem safe_checkDurable {i d : Nat} (h : DurableInv c s) (hd : ∀ j < i, Safe c s j d) :
    ∀ j < i + 1, Safe c s j (if (s.loggers i).ThLocalDurableEpoch < d then (s.loggers i).ThLocalDurableEpoch else d) := by
  intro j hj
  rcases Nat.lt_succ_iff_lt_or_eq.mp hj with hj | rfl
  · refine (hd j hj).anti ?_
    split <;> omega
  · refine (h.local_ j).anti ?_
    split <;> omega

theorem durableInv_log {hash : Hash K β D} (h : DurableInv c s) (hrun : s.halted = false)
    (hearly : earlyLoad c s (.log l : Action K β) = false) (hs : log c hash s l = some s') :
    DurableInv c s' := by
  have hok := h.loggers l
  have ht := h.tidy hrun
  have hstep := loggerStep_log hs
  have hgo : ∀ pc', s' = s.setLogger l ((s.loggers l).goto pc') → LPcOk c s l pc' →
      DurableInv c s' := by
    rintro pc' rfl hpc'
    exact durableInv_set h hrun hstep rfl hpc' (h.local_ l) h.durable
  have hmin : ∀ m, (m = ones ∨ ∀ w ∈ c.thid_vec_ l, Passed s l w m.epoch.toNat) →
      minEpoch m (queueMinEpoch (s.loggers l).queue_) = 0 ∨
        Safe c s l (minEpoch m (queueMinEpoch (s.loggers l).queue_) - 1) :=
    fun m => safe_minEpoch ht fun cm hcm r hr => ((h.commits cm hcm).2.2 r hr).1
  cases logs_of_log hs with
  | waitDeq => exact hgo _ rfl ⟨Or.inl rfl, by simp⟩
  | minFound hpc hnone => exact hgo _ rfl (passed_of_minFound h hpc hnone)
  | minLoaded hpc hw => exact hgo _ rfl (lPcOk_minLoaded h hrun hearly hpc hw)
  | queueZero => exact hgo _ rfl trivial
  | @queueDeq m hpc | @queueIdle m hpc =>
    rw [hpc] at hok
    exact hgo _ rfl (hmin m hok)
  | deq hpc =>
    rw [hpc] at hok
    refine durableInv_logger h hrun hstep ?_ ?_ h.durable
    · rw [setLogger_self]
      exact hok.imp_right fun hp => hp.advance hstep.advances
    · rw [setLogger_self]
      exact (h.local_ l).advance hstep.advances
  | logEnd hpc =>
    rw [hpc] at hok
    exact hgo _ rfl hok
  | logEmpty hpc | writeLog hpc | writeTail hpc =>
    rw [hpc] at hok
    exact durableInv_set h hrun hstep rfl hok (h.local_ l) h.durable
  | @returnBuffer e b rest hpc =>
    rw [hpc] at hok
    refine durableInv_logger h hrun hstep ?_ ?_ h.durable
    · change LPcOk c _ l ((s.setLogger l ((s.loggers l).goto (.writeLog e rest))).loggers l).pc
      rw [setLogger_self]
      exact hok.imp_right fun hp => hp.advance hstep.advances
    · change Safe c _ l
        ((s.setLogger l ((s.loggers l).goto (.writeLog e rest))).loggers l).ThLocalDurableEpoch
      rw [setLogger_self]
      exact (h.local_ l).advance hstep.advances
  | sendRaise hpc hne =>
    rw [hpc] at hok
    exact hgo _ rfl (hok.resolve_left hne)
  | sendNothing => exact hgo _ rfl trivial
  | checkFirst hpc =>
    rw [hpc] at hok
    refine hgo _ rfl ⟨hok, ?_⟩
    intro j hj
    obtain rfl : j = 0 := by omega
    exact h.local_ 0
  | checkedLoggers hpc hi =>
    rw [hpc] at hok
    exact hgo _ rfl ⟨hok.1, fun j hj => hok.2 j (hj.trans_le hi)⟩
  | checkDurable hpc =>
    rw [hpc] at hok
    exact hgo _ rfl ⟨hok.1, safe_checkDurable h hok.2⟩
  | loadDurable hpc =>
    rw [hpc] at hok
    exact hgo _ rfl hok
  | loadReached hpc | casLost hpc =>
    rw [hpc] at hok
    exact hgo _ rfl hok.1
  | casDurable hpc =>
    rw [hpc] at hok
    exact durableInv_set h hrun hstep rfl hok.1 (h.local_ l) hok.2
  | writeEpoch hpc =>
    rw [hpc] at hok
    exact durableInv_set h hrun hstep rfl hok (h.local_ l) h.durable
  | storeDurable hpc =>
    rw [hpc] at hok
    exact durableInv_set h hrun hstep rfl trivial hok h.durable

theorem durableInv_step {hash : Hash K β D} {a : Action K β} (h : DurableInv c s)
    (hok : Timely c s a) (hs : step c hash s a = some s') : DurableInv c s' := by
  cases steps_of_step hs with
  | work hrun hw hs =>
    exact durableInv_worker h hrun hw (workerStep_work h.epochs hok.epoch hs) hok.start
  | log hrun _ hs => exact durableInv_log h hrun hok.load hs

theorem epochsOk_init {hash : Hash K β D} (h : Init hash s) : EpochsOk s := by
  refine ⟨h.epoch.ge, by rw [h.epoch]; decide, by rw [h.epoch]; exact h.words, ?_⟩
  intro w
  rw [h.workers w, h.epoch]
  exact ⟨Nat.zero_le 1, Nat.le_refl 0, Nat.le_refl 0, trivial, fun _ => trivial⟩

theorem tidy_init {hash : Hash K β D} (h : Init hash s) : Tidy s := by
  have hb := buffersOk_init h
  refine ⟨fun w => (hb.workers w).pool, fun w => (hb.workers w).buffer, ?_, ?_, ?_⟩
  all_goals
    intro l
    simp [h.loggers l, Logger.new, held]

theorem durableInv_init {hash : Hash K β D} (h : Init hash s) : DurableInv c s := by
  have hsafe : ∀ l, Safe c s l 0 := by
    intro l w _
    refine ⟨?_, by simp [h.committed]⟩
    rw [h.workers w, h.epoch]
    exact Nat.one_pos
  refine ⟨epochsOk_init h, fun _ => tidy_init h, by simp [h.committed], ?_, ?_, ?_⟩
  · intro l
    rw [h.loggers l]
    trivial
  · intro l
    rw [h.loggers l]
    exact hsafe l
  · intro l _
    rw [h.durable]
    exact hsafe l

/-- In every run in which no logger loads a `CTIDW` ahead of its buffer or passes a
worker that is about to start, and in which the epoch stays within its 32 bits, the
durable epoch is sound in every state. -/
theorem durable_epoch_sound {hash : Hash K β D}
    (h : Reach (step c hash) (Init hash) (Timely c) s) : DurableSound c s := by
  have hinv : DurableInv c s := by
    refine Reach.invariant (I := DurableInv c) ?_ ?_ h
    · intro s₀ h₀
      exact durableInv_init h₀
    · intro s₁ a s₂ h₁ hok hs
      exact durableInv_step h₁ hok hs
  exact hinv.sound

end

instance [DecidableEq K] [DecidableEq β] (s : State K β D) (l : Nat) (r : LogRecord K β) :
    Decidable (InFile s l r) :=
  inferInstanceAs (Decidable (∃ doc ∈ (s.loggers l).logfile_,
    r.fields ∈ doc.log_set.map RecoveryLogRecord.fields))

instance [DecidableEq K] [DecidableEq β] (c : Config) (s : State K β D) :
    Decidable (DurableSound c s) :=
  inferInstanceAs (Decidable (∀ cm ∈ s.committed, cm.tid.epoch.toNat ≤ s.DurableEpoch →
    ∀ r ∈ cm.records, InFile s (c.logger_thid_ cm.worker) r))

/-- Two workers, each with a logger of its own. -/
def twoLoggers : Config where
  num_worker_threads := 2
  num_logger_threads := 2
  thid_vec_ l := [l]
  logger_thid_ w := w
  assigned _ _ := List.mem_singleton_self _
  exclusive _ _ h := List.mem_singleton.mp h
  inRange _ hw := hw

def logs (l n : Nat) : List (Action Nat Nat) := List.replicate n (.log l)

/-- Worker 0, idle, advances the epoch and is idle again. -/
def advance : List (Action Nat Nat) := [.work 0 .noRequest, .work 0 .tick, .work 0 .lead] ++ ticks 0 10

/-- A record of epoch 1 in the buffer of worker 1 when epoch 2 has begun, and worker 1
`n` steps into its next `durableEpochWork`. -/
def secondEpoch (n : Nat) : List (Action Nat Nat) := ticks 0 9 ++ firstCommit ++ advance ++ ticks 1 n

/-- Worker 1 has stored epoch 2 in `CTIDW` and not yet published the buffer when logger 1
looks; both loggers then take epoch 1 for durable. -/
def windowSchedule : List (Action Nat Nat) :=
  secondEpoch 7 ++ logs 1 10 ++ logs 0 10 ++ advance ++ logs 0 10

set_option maxRecDepth 4000 in
theorem windowSchedule_runs : (exec (step twoLoggers unitHash) started windowSchedule).isSome := by
  decide

set_option maxRecDepth 4000 in
theorem windowSchedule_unsound : ¬ DurableSound twoLoggers
    ((exec (step twoLoggers unitHash) started windowSchedule).get windowSchedule_runs) := by
  decide

theorem durable_epoch_sound_window :
    ¬ ∀ s : State Nat Nat Unit, Reach (step twoLoggers unitHash) (Init unitHash) anyStep s →
      DurableSound twoLoggers s := by
  intro h
  exact windowSchedule_unsound (h _ (reach_get started_init windowSchedule_runs))

/-- The same with the buffer published before logger 1 looks. -/
def publishedSchedule : List (Action Nat Nat) :=
  secondEpoch 9 ++ logs 1 20 ++ logs 0 10 ++ advance ++ logs 0 10

set_option maxRecDepth 4000 in
theorem publishedSchedule_runs :
    (exec (step twoLoggers unitHash) started publishedSchedule).isSome := by
  decide

set_option maxRecDepth 8000 in
theorem publishedSchedule_timely :
    Admits (step twoLoggers unitHash) (Timely twoLoggers) started publishedSchedule := by
  decide

set_option maxRecDepth 4000 in
/-- Epoch 1 is durable, and its one commit is covered. -/
theorem durable_epoch_sound_published :
    (((exec (step twoLoggers unitHash) started publishedSchedule).get
        publishedSchedule_runs).DurableEpoch = 1 ∧
      ((exec (step twoLoggers unitHash) started publishedSchedule).get
        publishedSchedule_runs).committed.map (fun cm => cm.tid.epoch.toNat) = [1]) ∧
      DurableSound twoLoggers
        ((exec (step twoLoggers unitHash) started publishedSchedule).get publishedSchedule_runs) :=
  ⟨by decide, durable_epoch_sound
    (reach_get_of_admits started_init publishedSchedule_timely publishedSchedule_runs)⟩

end Cassa.SiloCC.Durability

import Cassa.SiloCC.Notifier

/-!
# The order in which notification ids are stored

`NidBuffer::store` looks for the item of an epoch from the front of its list, and appends
a new item if the list ends before. A buffer of an epoch between two items finds neither
its item nor the end of the list: the assertion fails. The list is in order as long as no
new item is made while a worker of the logger still has something of an epoch before it,
and no item is recycled while something of its epoch is still to come.
-/

namespace Cassa.SiloCC.Durability

open Cassa.Lib.Runs

variable {K β D : Type}

/-- The buffer has notification ids of epoch `x`. -/
def LogBuffer.holds (x : Nat) (b : LogBuffer K β) : Bool := !b.empty && b.min_epoch_ == x

/-- The epoch of a commit that is not in the buffer yet. -/
def Worker.flying (t : Worker K β) : Option Nat :=
  if t.write_set_.isEmpty then none
  else match t.pc with
    | .wal tid => some tid.epoch.toNat
    | .push tid _ => some tid.epoch.toNat
    | .pushReady tid _ => some tid.epoch.toNat
    | _ => none

/-- The worker has something of epoch `x` in its buffer or on its way there, or it can
still commit in `x`. -/
def Worker.Brings (ge : Nat) (t : Worker K β) (x : Nat) : Prop :=
  t.current_buffer_.any (LogBuffer.holds x) = true ∨ t.flying = some x ∨ floor ge t ≤ x

/-- Logger `l` may still have to store notification ids of epoch `x`. -/
def ToCome (c : Config) (s : State K β D) (l x : Nat) : Prop :=
  (∃ b ∈ (s.loggers l).queue_, LogBuffer.holds x b = true) ∨
    (∃ b ∈ held (s.loggers l).pc, LogBuffer.holds x b = true) ∨
    ∃ w ∈ c.thid_vec_ l, (s.workers w).Brings s.GlobalEpoch x

instance (ge : Nat) (t : Worker K β) (x : Nat) : Decidable (t.Brings ge x) :=
  inferInstanceAs (Decidable (_ ∨ _ ∨ _))

instance (c : Config) (s : State K β D) (l x : Nat) : Decidable (ToCome c s l x) :=
  inferInstanceAs (Decidable (_ ∨ _ ∨ _))

namespace NidBuffer

variable {N : Type}

def epochs (n : NidBuffer N) : List Nat := n.items.map (·.epoch_)

/-- The epoch lies after the end of the list. -/
def Beyond (n : NidBuffer N) (x : Nat) : Prop := ∀ y ∈ n.epochs, y < x

instance (n : NidBuffer N) (x : Nat) : Decidable (n.Beyond x) :=
  inferInstanceAs (Decidable (∀ y ∈ n.epochs, y < x))

end NidBuffer

/-- A buffer makes no new item while the logger has something of an epoch before it to
store that has no item either; no item is recycled while something of its epoch is to
come; and epochs stay within their 32 bits. -/
def InEpochOrder (c : Config) (s : NotifierState K β D) : NotifierAction K β → Prop
  | .act (.log l) =>
    match (s.base.loggers l).pc with
    | .returnBuffer _ (b :: _) => b.empty = false →
        ∀ x < b.min_epoch_, (s.nid_buffer_ l).Beyond x → ¬ ToCome c s.base l x
    | _ => True
  | .act a => epochOverflow s.base a = false
  | .notify l =>
    match s.min_dl l with
    | some d => (s.nid_buffer_ l).next_ = [] ∨
        ∀ x ∈ (s.nid_buffer_ l).epochs, x ≤ d → ¬ ToCome c s.base l x
    | none => True

instance (c : Config) (s : NotifierState K β D) (a : NotifierAction K β) :
    Decidable (InEpochOrder c s a) := by
  unfold InEpochOrder
  split
  · split <;> infer_instance
  · infer_instance
  · split <;> infer_instance

namespace NidBuffer

variable {N : Type}

theorem epochs_mk (itr : NidBufferItem N) (next : List (NidBufferItem N)) :
    (NidBuffer.mk itr next).epochs = itr.epoch_ :: next.map (·.epoch_) := rfl

theorem endEpoch_mk (itr next : NidBufferItem N) (rest : List (NidBufferItem N)) :
    (NidBuffer.mk itr (next :: rest)).endEpoch = (NidBuffer.mk next rest).endEpoch := by
  simp [endEpoch, items]

theorem le_endEpoch {n : NidBuffer N} (hn : n.epochs.Pairwise (· < ·)) {y : Nat} (hy : y ∈ n.epochs) :
    y ≤ n.endEpoch := by
  obtain ⟨itr, next⟩ := n
  induction next generalizing itr y with
  | nil =>
    obtain rfl : y = itr.epoch_ := by simpa [epochs_mk] using hy
    exact Nat.le_refl _
  | cons next rest ih =>
    rw [epochs_mk, List.pairwise_cons] at hn
    rw [endEpoch_mk]
    rcases List.mem_cons.mp hy with rfl | hy
    · have hlt := hn.1 next.epoch_ (by simp)
      exact hlt.le.trans (ih next hn.2 (by simp [epochs_mk]))
    · exact ih next hn.2 hy

theorem store_some (nids : List N) {n : NidBuffer N} {e : Nat} (hn : n.epochs.Pairwise (· < ·))
    (he : e ∈ n.epochs ∨ n.Beyond e) : ∃ n', n.store nids e = some n' ∧
      n'.epochs = if e ∈ n.epochs then n.epochs else n.epochs ++ [e] := by
  obtain ⟨itr, next⟩ := n
  unfold store
  induction next generalizing itr with
  | nil =>
    simp only [epochs_mk, Beyond, List.map_nil, List.mem_singleton, forall_eq] at he ⊢
    unfold storeFrom
    rcases he with rfl | hlt
    · refine ⟨_, by rw [if_neg (Nat.lt_irrefl _), if_pos rfl], ?_⟩
      simp [epochs_mk]
    · refine ⟨_, if_pos hlt, ?_⟩
      simp [epochs_mk, Nat.ne_of_gt hlt]
  | cons next rest ih =>
    rw [epochs_mk, List.pairwise_cons] at hn
    by_cases hfront : e = itr.epoch_
    · subst hfront
      refine ⟨⟨{ itr with buffer_ := itr.buffer_ ++ nids }, next :: rest⟩, ?_, ?_⟩
      · simp [storeFrom]
      · simp [epochs_mk]
    · have he' : e ∈ (NidBuffer.mk next rest).epochs ∨ (NidBuffer.mk next rest).Beyond e := by
        rcases he with he | he
        · exact Or.inl ((List.mem_cons.mp he).resolve_left hfront)
        · exact Or.inr fun y hy => he y (List.mem_cons_of_mem _ hy)
      have hlt : itr.epoch_ < e := by
        rcases he with he | he
        · exact hn.1 e ((List.mem_cons.mp he).resolve_left hfront)
        · exact he _ List.mem_cons_self
      obtain ⟨n', hn', hepochs⟩ := ih next hn.2 he'
      refine ⟨⟨itr, n'.items⟩, ?_, ?_⟩
      · rw [storeFrom, if_pos hlt, hn']
        rfl
      · rw [epochs_mk, ← epochs, hepochs, epochs_mk itr, List.map_cons, ← epochs_mk next]
        simp only [List.mem_cons, hfront, false_or]
        split <;> rfl

/-- The items that are recycled get the epochs after the last one. -/
theorem epochs_notifyLoop (min_dl : Nat) {turns : Nat} {n : NidBuffer N}
    (hturns : turns ≤ n.epochs.length) :
    ∃ k ≤ turns, (∀ x ∈ n.epochs.take k, x ≤ min_dl) ∧
      (notifyLoop min_dl turns n).1.epochs = n.epochs.drop k ++ List.range' (n.endEpoch + 1) k := by
  induction turns generalizing n with
  | zero => exact ⟨0, Nat.le_refl _, by simp, by simp [notifyLoop]⟩
  | succ turns ih =>
    unfold notifyLoop
    split
    · rename_i hle
      split
      · rename_i hnext
        exact ⟨0, Nat.zero_le _, by simp, by simp [epochs, items, hnext]⟩
      · rename_i next rest hnext
        have hepochs : (NidBuffer.mk next (rest ++ [⟨n.endEpoch + 1, []⟩])).epochs =
            n.epochs.tail ++ [n.endEpoch + 1] := by
          simp [epochs, items, hnext]
        have hcons : n.epochs = n.front_.epoch_ :: n.epochs.tail := rfl
        have hlen : n.epochs.length = n.epochs.tail.length + 1 := rfl
        have hend : (NidBuffer.mk next (rest ++ [⟨n.endEpoch + 1, []⟩])).endEpoch = n.endEpoch + 1 := by
          simp [endEpoch, items]
        obtain ⟨k, hk, htake, hdrop⟩ := ih (n := ⟨next, rest ++ [⟨n.endEpoch + 1, []⟩]⟩)
          (by rw [hepochs, List.length_append]; omega)
        have hk' : k ≤ n.epochs.tail.length := by omega
        rw [hepochs, List.take_append_of_le_length hk'] at htake
        rw [hepochs, hend, List.drop_append_of_le_length hk'] at hdrop
        refine ⟨k + 1, by omega, ?_, ?_⟩
        · rw [hcons, List.take_succ_cons]
          exact List.forall_mem_cons.mpr ⟨hle, htake⟩
        · rw [hdrop, hcons, List.drop_succ_cons, List.range'_succ, List.append_assoc]
          rfl
    · exact ⟨0, Nat.zero_le _, by simp, by simp⟩

/-- A single item stays what it is. -/
theorem epochs_notifyLoop_of_one {n : NidBuffer N} (hnext : n.next_ = []) (min_dl turns : Nat) :
    (notifyLoop min_dl turns n).1.epochs = n.epochs := by
  cases turns with
  | zero => rfl
  | succ turns =>
    unfold notifyLoop
    split
    · simp [epochs, items, hnext]
    · rfl

theorem epochs_make_durable (n : NidBuffer N) (min_dl : Nat) :
    ∃ k, (k = 0 ∨ n.next_ ≠ []) ∧ (∀ x ∈ n.epochs.take k, x ≤ min_dl) ∧
      (n.make_durable min_dl).1.epochs = n.epochs.drop k ++ List.range' (n.endEpoch + 1) k := by
  unfold make_durable
  split
  · exact ⟨0, Or.inl rfl, by simp, by simp⟩
  by_cases hnext : n.next_ = []
  · refine ⟨0, Or.inl rfl, by simp, ?_⟩
    simpa [notify] using epochs_notifyLoop_of_one hnext min_dl n.items.length
  · obtain ⟨k, -, htake, hdrop⟩ := epochs_notifyLoop min_dl (n := n)
      (show n.items.length ≤ n.epochs.length by simp [epochs])
    exact ⟨k, Or.inr hnext, htake, hdrop⟩

end NidBuffer

/-- What a step of a worker does to its current buffer and to the queue of its logger. -/
inductive BufferStep (t t' : Worker K β) (q : List (LogBuffer K β)) : List (LogBuffer K β) → Prop
  | keep (h : t'.current_buffer_ = t.current_buffer_) : BufferStep t t' q q
  | take {b : LogBuffer K β} (hb : b ∈ t.pool_) (h : t'.current_buffer_ = some b) : BufferStep t t' q q
  | publish {b : LogBuffer K β} (hb : t.current_buffer_ = some b) (h : t'.current_buffer_ = none) :
      BufferStep t t' q (enq b q)
  | push {b : LogBuffer K β} {tid : TIDword} {new_epoch_begins : Bool}
      (hpc : t.pc = .pushReady tid new_epoch_begins) (hb : t.current_buffer_ = some b ∨ b ∈ t.pool_)
      (hasserts : b.pushAsserts tid t.write_set_ = true)
      (h : t'.current_buffer_ = some (b.push tid t.write_set_)) : BufferStep t t' q q

/-- The buffers, and the commit on its way. -/
structure NidStep (c : Config) (s s' : State K β D) (w : Nat) : Prop where
  buffers : BufferStep (s.workers w) (s'.workers w) (s.loggers (c.logger_thid_ w)).queue_
    (s'.loggers (c.logger_thid_ w)).queue_
  queues : ∀ l, l ≠ c.logger_thid_ w → (s'.loggers l).queue_ = (s.loggers l).queue_
  flying : ∀ x, (s'.workers w).flying = some x → (s.workers w).flying = some x ∨
    (s.workers w).pc = .validationCheck ∧ x = (s.workers w).commitTid.epoch.toNat

section
variable {c : Config} {s s' : State K β D} {w l x : Nat}

/-- A step that only changes the worker, not its buffer. -/
theorem nidStep_keep {t' : Worker K β} (hw : s'.workers = Function.update s.workers w t')
    (hl : s'.loggers = s.loggers) (hb : t'.current_buffer_ = (s.workers w).current_buffer_)
    (hf : ∀ x, t'.flying = some x → (s.workers w).flying = some x) : NidStep c s s' w := by
  have ht : s'.workers w = t' := by simp [hw]
  refine ⟨?_, fun l _ => by rw [hl], fun x hx => Or.inl (hf x (ht ▸ hx))⟩
  rw [hl, ht]
  exact .keep hb

theorem nidStep_same (hw : s'.workers = s.workers) (hl : s'.loggers = s.loggers) :
    NidStep c s s' w := by
  refine ⟨?_, fun l _ => by rw [hl], fun x hx => Or.inl (by rw [← hw]; exact hx)⟩
  rw [hl, hw]
  exact .keep rfl

/-- Where there is no commit on its way. -/
theorem flying_none {t : Worker K β} (h : ¬ Flying t.pc) : t.flying = none := by
  unfold Worker.flying
  split
  · rfl
  · cases hpc : t.pc <;> simp_all [Flying]

theorem nidStep_publish {b : LogBuffer K β} (hb : (s.workers w).current_buffer_ = some b) {pc : Pc}
    (hf : ∀ x, ((s.workers w).goto pc).flying = some x → (s.workers w).flying = some x) :
    NidStep c s (publish c s w (s.workers w) b pc) w := by
  unfold publish
  split
  · exact nidStep_keep rfl rfl rfl hf
  · refine ⟨?_, ?_, ?_⟩
    · simp only [setWorker_self, setWorker_loggers, setLogger_self]
      exact .publish hb rfl
    · intro l hl
      simp [setLogger_other _ _ _ hl]
    · intro x hx
      rw [setWorker_self] at hx
      exact Or.inl (hf x hx)

/-- A step to a control state without a commit on its way. -/
theorem nidStep_quiet {t' : Worker K β} (hw : s'.workers = Function.update s.workers w t')
    (hl : s'.loggers = s.loggers) (hb : t'.current_buffer_ = (s.workers w).current_buffer_)
    (hpc : ¬ Flying t'.pc) : NidStep c s s' w :=
  nidStep_keep hw hl hb (by simp [flying_none hpc])

theorem bufferStep_is_ready {t t' : Worker K β} {q : List (LogBuffer K β)}
    (h : t'.current_buffer_ = (is_ready t).1.current_buffer_) : BufferStep t t' q q := by
  obtain ⟨-, -, -, -, hsome, -⟩ := is_ready_frame t
  cases hb : (is_ready t).1.current_buffer_ with
  | none =>
    refine .keep (h.trans (hb.trans ?_))
    unfold is_ready at hb
    split at hb
    · rename_i hcur
      rw [hcur] at hb
      cases hb
    · rename_i hcur
      exact hcur.symm
  | some b =>
    rcases hsome b hb with hcur | hpool
    · exact .keep (h.trans (hb.trans hcur.symm))
    · exact .take hpool (h.trans hb)

theorem not_flying_epochReturn (call : Call) : ¬ Flying (epochReturn call) := by
  cases call <;> exact id

theorem nidStep_tickEpoch (hs : tickEpoch c s w (s.workers w) (s.workers w).pc = some s') :
    NidStep c s s' w := by
  cases epochTicks_of_tickEpoch hs with
  | @epochAgrees call | @storeCTIDW call => exact nidStep_quiet rfl rfl rfl (not_flying_epochReturn call)
  | noBuffer => exact nidStep_same rfl rfl
  | publish hpc hb =>
    refine nidStep_publish hb fun x hx => ?_
    rw [flying_none id] at hx
    cases hx
  | ready =>
    refine ⟨?_, fun l _ => rfl, ?_⟩
    · simp only [setWorker_self, setWorker_loggers]
      refine bufferStep_is_ready ?_
      split <;> rfl
    · intro x hx
      rw [setWorker_self, flying_none] at hx
      · cases hx
      · split <;> exact id
  | _ => exact nidStep_quiet rfl rfl rfl id

theorem nidStep_tickCommit (hs : tickCommit c s w (s.workers w) (s.workers w).pc = some s')
    (hrun : s'.halted = false) : NidStep c s s' w := by
  cases commitTicks_of_tickCommit hs with
  | wal hpc | pushRoom hpc =>
    refine nidStep_keep rfl rfl rfl fun x hx => ?_
    simpa [Worker.flying, Worker.goto, hpc] using hx
  | noBuffer | waiting => exact nidStep_same rfl rfl
  | pushFull hpc hb =>
    refine nidStep_publish hb fun x hx => ?_
    simpa [Worker.flying, Worker.goto, hpc] using hx
  | @pushed tid new_epoch_begins b hpc hb =>
    obtain ⟨-, -, -, -, hsome, -⟩ := is_ready_frame (s.workers w)
    have hasserts : b.pushAsserts tid (s.workers w).write_set_ = true := by simpa using hrun
    refine ⟨?_, fun l _ => rfl, ?_⟩
    · simp only [setWorker_self, setWorker_loggers]
      exact .push hpc (hsome b hb) hasserts rfl
    · intro x hx
      simp only [setWorker_self] at hx
      rw [flying_none] at hx
      · cases hx
      · cases new_epoch_begins <;> exact id
  | _ => exact nidStep_quiet rfl rfl rfl id

theorem nidStep_work {op : Op K β} (hs : work c s w op = some s') (hrun : s'.halted = false) :
    NidStep c s s' w := by
  cases works_of_work hs with
  | tickEpoch hs => exact nidStep_tickEpoch hs
  | tickCommit hs => exact nidStep_tickCommit hs hrun
  | lead | noRequest | request | refuse | validate | fail => exact nidStep_quiet rfl rfl rfl id
  | observe hpc | write hpc => exact nidStep_quiet rfl rfl rfl (by simp [hpc, Flying])
  | pass hpc =>
    refine ⟨?_, fun l _ => rfl, ?_⟩
    · simp only [setWorker_self, setWorker_loggers]
      exact .keep rfl
    · intro x hx
      simp only [setWorker_self, Worker.flying] at hx
      split at hx
      · cases hx
      · exact Or.inr ⟨hpc, (Option.some.inj hx).symm⟩

theorem holds_iff {b : LogBuffer K β} : LogBuffer.holds x b = true ↔ b.empty = false ∧ b.min_epoch_ = x := by
  simp [LogBuffer.holds]

theorem Fresh.not_holds {b : LogBuffer K β} (h : Fresh b) : ¬ LogBuffer.holds x b = true := by
  rw [holds_iff]
  simp [LogBuffer.empty, h.nids]

/-- What is in the buffer after the step was there before, or on its way there. -/
theorem Worker.brings_buffer {t t' : Worker K β} {q q' : List (LogBuffer K β)} {ge : Nat}
    (h : BufferStep t t' q q') (hpool : ∀ b ∈ t.pool_, Fresh b)
    (hone : ∀ b, t.current_buffer_ = some b → OneEpoch b)
    (hx : t'.current_buffer_.any (LogBuffer.holds x) = true) : t.Brings ge x := by
  cases h with
  | keep hcur =>
    rw [hcur] at hx
    exact Or.inl hx
  | take hb hcur =>
    rw [hcur] at hx
    exact absurd hx (hpool _ hb).not_holds
  | publish hb hcur =>
    rw [hcur] at hx
    cases hx
  | @push b tid _ hpc hb hasserts hcur =>
    rw [hcur] at hx
    have hx : LogBuffer.holds x (b.push tid t.write_set_) = true := hx
    have hbuf : OneEpoch b := hb.elim (hone b) fun hb => Or.inl (hpool b hb)
    by_cases hws : t.write_set_ = []
    · rw [hws, push_nil] at hx
      rcases hb with hb | hb
      · left
        rw [hb]
        exact hx
      · exact absurd hx (hpool b hb).not_holds
    · have hfilled := filled_push (fresh_or_filled_of_asserts hbuf hasserts hws) hws
      have hmin := (holds_iff.mp hx).2
      rw [hfilled.min] at hmin
      right
      left
      unfold Worker.flying
      rw [if_neg (by simpa using hws), hpc, ← hmin]

theorem ToCome.of_work (h : EpochsOk s) (htidy : Tidy s) (hw : w < c.num_worker_threads)
    (hstep : WorkerStep c s s' w) (hnid : NidStep c s s' w) (hx : ToCome c s' l x) :
    ToCome c s l x := by
  rcases hx with ⟨b, hb, hx⟩ | ⟨b, hb, hx⟩ | ⟨u, hu, hx⟩
  · by_cases hl : l = c.logger_thid_ w
    · subst hl
      have hbuf := hnid.buffers
      generalize (s'.loggers (c.logger_thid_ w)).queue_ = q' at hb hbuf
      cases hbuf with
      | publish hcur _ =>
        rcases mem_enq.mp hb with rfl | hb
        · refine Or.inr (Or.inr ⟨w, c.assigned w hw, Or.inl ?_⟩)
          rw [hcur]
          exact hx
        · exact Or.inl ⟨b, hb, hx⟩
      | _ => exact Or.inl ⟨b, hb, hx⟩
    · rw [hnid.queues l hl] at hb
      exact Or.inl ⟨b, hb, hx⟩
  · rw [(hstep.logger l).1] at hb
    exact Or.inr (Or.inl ⟨b, hb, hx⟩)
  · refine Or.inr (Or.inr ⟨u, hu, ?_⟩)
    by_cases huw : u = w
    · subst huw
      rcases hx with hx | hx | hx
      · exact Worker.brings_buffer hnid.buffers (htidy.pool u) (htidy.buffer u) hx
      · rcases hnid.flying x hx with hx | ⟨hpc, rfl⟩
        · exact Or.inr (Or.inl hx)
        · right
          right
          rw [(h.workers u).commitTid_epoch hpc h.ge_lt]
          simp [floor, hpc]
      · exact Or.inr (Or.inr (hstep.climb.floor.trans hx))
    · rw [hstep.others u huw] at hx
      exact hx.imp_right (Or.imp_right (floor_mono hstep.ge).trans)

/-- A logger only has buffers that it had, or that were in its queue. -/
theorem log_buffers {hash : Hash K β D} (hs : log c hash s l = some s') :
    (∀ b ∈ (s'.loggers l).queue_, b ∈ (s.loggers l).queue_) ∧
      ∀ b ∈ held (s'.loggers l).pc, b ∈ (s.loggers l).queue_ ∨ b ∈ held (s.loggers l).pc := by
  cases logs_of_log hs with
  | returnBuffer hpc =>
    simp only [State.returnBuffer, setWorker_loggers, setLogger_self, hpc]
    exact ⟨fun b hb => hb, fun b hb => Or.inr (List.mem_cons_of_mem _ hb)⟩
  | deq =>
    rw [setLogger_self]
    exact ⟨by simp, fun b hb => Or.inl hb⟩
  | logEmpty hpc | writeLog hpc | writeTail hpc =>
    simp only [setLogger_self, hpc]
    exact ⟨fun b hb => hb, fun b hb => Or.inr hb⟩
  | _ => simp [Logger.goto, held]

theorem ToCome.of_log {hash : Hash K β D} {m : Nat} (hs : log c hash s m = some s')
    (hx : ToCome c s' l x) : ToCome c s l x := by
  have hstep := loggerStep_log hs
  rcases hx with ⟨b, hb, hx⟩ | ⟨b, hb, hx⟩ | ⟨u, hu, hx⟩
  · by_cases hl : l = m
    · subst hl
      exact Or.inl ⟨b, (log_buffers hs).1 b hb, hx⟩
    · rw [hstep.others l hl] at hb
      exact Or.inl ⟨b, hb, hx⟩
  · by_cases hl : l = m
    · subst hl
      rcases (log_buffers hs).2 b hb with hb | hb
      · exact Or.inl ⟨b, hb, hx⟩
      · exact Or.inr (Or.inl ⟨b, hb, hx⟩)
    · rw [hstep.others l hl] at hb
      exact Or.inr (Or.inl ⟨b, hb, hx⟩)
  · obtain ⟨pool, hpool⟩ := hstep.workers u
    rw [hstep.ge, hpool] at hx
    exact Or.inr (Or.inr ⟨u, hu, hx⟩)

end

structure NidInv (c : Config) (s : NotifierState K β D) : Prop where
  epochs : EpochsOk s.base
  tidy : s.base.halted = false → Tidy s.base
  sorted : ∀ l, (s.nid_buffer_ l).epochs.Pairwise (· < ·)
  coming : s.base.halted = false → ∀ l x, ToCome c s.base l x →
    x ∈ (s.nid_buffer_ l).epochs ∨ (s.nid_buffer_ l).Beyond x
  stored : s.storeFailed = false

section
variable {c : Config} {s s' : NotifierState K β D} {t : State K β D} {hash : Hash K β D} {l : Nat}

/-- Steps that leave the lists alone. -/
theorem NidInv.keep (h : NidInv c s) (hrun : s.base.halted = false) (hepochs : EpochsOk t)
    (htidy : t.halted = false → Tidy t)
    (hcome : t.halted = false → ∀ l x, ToCome c t l x → ToCome c s.base l x) (d : Nat → Option Nat) :
    NidInv c { s with base := t, min_dl := d } :=
  ⟨hepochs, htidy, h.sorted, fun hrun' l x hx => h.coming hrun l x (hcome hrun' l x hx), h.stored⟩

/-- The list of one logger changes. -/
theorem NidInv.update (h : NidInv c s) (hrun : s.base.halted = false) (hepochs : EpochsOk t)
    (htidy : t.halted = false → Tidy t) (hcome : ∀ l x, ToCome c t l x → ToCome c s.base l x) {n : NidBuffer Nid}
    (hsorted : n.epochs.Pairwise (· < ·))
    (hcoming : ∀ x, ToCome c s.base l x → x ∈ n.epochs ∨ n.Beyond x) (d : Nat → Option Nat)
    (ns : List Nid) :
    NidInv c { s with
      base := t
      nid_buffer_ := Function.update s.nid_buffer_ l n
      min_dl := d
      notified := ns } := by
  refine ⟨hepochs, htidy, ?_, ?_, h.stored⟩
  · intro m
    by_cases hm : m = l
    · subst hm
      simpa using hsorted
    · simpa [hm] using h.sorted m
  · intro _ m x hx
    by_cases hm : m = l
    · subst hm
      simpa using hcoming x (hcome m x hx)
    · simpa [hm] using h.coming hrun m x (hcome m x hx)

/-- The buffer finds its item, or makes it at the end. -/
theorem NidInv.pass_nid (h : NidInv c s) (hrun : s.base.halted = false) {e : Nat}
    {b : LogBuffer K β} {rest : List (LogBuffer K β)}
    (hpc : (s.base.loggers l).pc = .returnBuffer e (b :: rest))
    (hord : InEpochOrder c s (.act (.log l))) :
    ∃ n, Durability.pass_nid (s.nid_buffer_ l) b = some n ∧ n.epochs.Pairwise (· < ·) ∧
      ∀ x, ToCome c s.base l x → x ∈ n.epochs ∨ n.Beyond x := by
  unfold Durability.pass_nid
  by_cases hempty : b.empty = true
  · exact ⟨_, if_pos hempty, h.sorted l, h.coming hrun l⟩
  have hnids : b.empty = false := by simpa using hempty
  have hcome : ToCome c s.base l b.min_epoch_ := by
    refine Or.inr (Or.inl ⟨b, ?_, holds_iff.mpr ⟨hnids, rfl⟩⟩)
    rw [hpc]
    exact List.mem_cons_self
  simp only [InEpochOrder, hpc] at hord
  obtain ⟨n, hn, hepochs⟩ := NidBuffer.store_some
    (b.nid_set_.map fun tid => (⟨tid, b.min_epoch_⟩ : Nid)) (h.sorted l) (h.coming hrun l _ hcome)
  refine ⟨n, (if_neg (by simpa [LogBuffer.empty] using hempty)).trans hn, ?_⟩
  split at hepochs
  · have hbeyond : ∀ x, n.Beyond x ↔ (s.nid_buffer_ l).Beyond x := fun x => by
      unfold NidBuffer.Beyond
      rw [hepochs]
    rw [hepochs]
    exact ⟨h.sorted l, fun x hx => (h.coming hrun l x hx).imp_right (hbeyond x).mpr⟩
  · rename_i hnew
    have hend := (h.coming hrun l _ hcome).resolve_left hnew
    rw [hepochs]
    refine ⟨List.pairwise_append.mpr ⟨h.sorted l, List.pairwise_singleton _ _, ?_⟩, ?_⟩
    · intro y hy z hz
      obtain rfl := List.mem_singleton.mp hz
      exact hend y hy
    · intro x hx
      rcases h.coming hrun l x hx with hmem | hbeyond
      · exact Or.inl (List.mem_append_left _ hmem)
      rcases Nat.lt_trichotomy x b.min_epoch_ with hlt | rfl | hgt
      · exact absurd hx (hord hnids x hlt hbeyond)
      · exact Or.inl (List.mem_append_right _ (List.mem_singleton_self _))
      · right
        intro y hy
        rw [hepochs] at hy
        rcases List.mem_append.mp hy with hy | hy
        · exact hbeyond y hy
        · obtain rfl := List.mem_singleton.mp hy
          exact hgt

theorem nidInv_log (h : NidInv c s) (hrun : s.base.halted = false)
    (hord : InEpochOrder c s (.act (.log l))) (hlog : log c hash s.base l = some t)
    (hs : loggerStep c s l t = some s') : NidInv c s' := by
  have hstep := loggerStep_log hlog
  have hepochs : EpochsOk t := hstep.epochsOk h.epochs
  have htidy : t.halted = false → Tidy t := fun _ => hstep.tidy (h.tidy hrun)
  have hcome : ∀ m x, ToCome c t m x → ToCome c s.base m x := fun m x => ToCome.of_log hlog
  unfold loggerStep at hs
  split at hs
  · rename_i e b rest hpc
    obtain ⟨n, hn, hsorted, hcoming⟩ := h.pass_nid hrun hpc hord
    rw [hn] at hs
    obtain rfl := Option.some.inj hs
    exact h.update hrun hepochs htidy hcome hsorted hcoming s.min_dl s.notified
  · split at hs
    · obtain rfl := Option.some.inj hs
      exact h.keep hrun hepochs htidy (fun _ => hcome) _
    · obtain rfl := Option.some.inj hs
      exact h.keep hrun hepochs htidy (fun _ => hcome) _
  · split at hs
    · cases hs
    · obtain rfl := Option.some.inj hs
      exact h.keep hrun hepochs htidy (fun _ => hcome) _
  · obtain rfl := Option.some.inj hs
    exact h.keep hrun hepochs htidy (fun _ => hcome) _

/-- Recycled items come after all others, one after the other. -/
theorem NidInv.notify (h : NidInv c s) (hrun : s.base.halted = false) {d : Nat} (hd : s.min_dl l = some d)
    (hord : InEpochOrder c s (.notify l)) :
    ((s.nid_buffer_ l).make_durable d).1.epochs.Pairwise (· < ·) ∧
      ∀ x, ToCome c s.base l x → x ∈ ((s.nid_buffer_ l).make_durable d).1.epochs ∨
        ((s.nid_buffer_ l).make_durable d).1.Beyond x := by
  have hsorted := h.sorted l
  obtain ⟨k, hk, htake, hdrop⟩ := NidBuffer.epochs_make_durable (s.nid_buffer_ l) d
  simp only [InEpochOrder, hd] at hord
  unfold NidBuffer.Beyond
  rw [hdrop]
  refine ⟨List.pairwise_append.mpr ⟨hsorted.drop, List.pairwise_lt_range', ?_⟩, ?_⟩
  · intro y hy z hz
    have hle := NidBuffer.le_endEpoch hsorted (List.mem_of_mem_drop hy)
    have hge := (List.mem_range'_1.mp hz).1
    omega
  · intro x hx
    rcases h.coming hrun l x hx with hmem | hbeyond
    · left
      rw [← List.take_append_drop k (s.nid_buffer_ l).epochs] at hmem
      rcases List.mem_append.mp hmem with hmem | hmem
      · exfalso
        rcases hk with rfl | hnext
        · cases hmem
        · exact (hord.resolve_left hnext) x (List.mem_of_mem_take hmem) (htake x hmem) hx
      · exact List.mem_append_left _ hmem
    · have hend : (s.nid_buffer_ l).endEpoch < x := hbeyond _ (by
        unfold NidBuffer.epochs NidBuffer.endEpoch
        exact List.mem_map_of_mem (List.getLast_mem _))
      by_cases hin : x < (s.nid_buffer_ l).endEpoch + 1 + k
      · exact Or.inl (List.mem_append_right _ (List.mem_range'_1.mpr ⟨by omega, hin⟩))
      · right
        intro y hy
        rcases List.mem_append.mp hy with hy | hy
        · exact hbeyond y (List.mem_of_mem_drop hy)
        · have := (List.mem_range'_1.mp hy).2
          omega

theorem nidInv_step {a : NotifierAction K β} (h : NidInv c s) (hord : InEpochOrder c s a)
    (hs : notifierStep c hash s a = some s') : NidInv c s' := by
  cases notifierSteps_of_notifierStep hs with
  | notify hrun hpc hd =>
    obtain ⟨hsorted, hcoming⟩ := h.notify hrun hd hord
    exact h.update hrun h.epochs h.tidy (fun _ _ hx => hx) hsorted hcoming _ _
  | work hrun hw ht =>
    have hstep := workerStep_work h.epochs hord ht
    exact h.keep hrun (hstep.epochsOk h.epochs) (fun hrun' => hstep.tidy hrun' (h.tidy hrun))
      (fun hrun' l x => .of_work h.epochs (h.tidy hrun) hw hstep (nidStep_work ht hrun')) _
  | log hrun _ ht hs => exact nidInv_log h hrun hord ht hs

theorem nidInv_init (h : NotifierInit hash s) : NidInv c s := by
  have hepochs : ∀ l, (s.nid_buffer_ l).epochs = [0] := fun l => by rw [h.buffers l]; rfl
  refine ⟨epochsOk_init h.base, fun _ => tidy_init h.base, ?_, ?_, h.storeFailed⟩
  · intro l
    rw [hepochs l]
    exact List.pairwise_singleton _ _
  · intro _ l x hx
    right
    intro y hy
    rw [hepochs l] at hy
    obtain rfl := List.mem_singleton.mp hy
    rcases hx with ⟨b, hb, -⟩ | ⟨b, hb, -⟩ | ⟨w, -, hx⟩
    · rw [h.base.loggers l] at hb
      cases hb
    · rw [h.base.loggers l] at hb
      cases hb
    · rw [h.base.workers w, h.base.epoch] at hx
      rcases hx with hx | hx | hx
      · exact absurd hx (fresh_new w).not_holds
      · cases hx
      · exact hx

/-- In a run that stores and recycles in the order of the epochs, the assertion of `store`
never fails. -/
theorem store_never_fails (h : Reach (notifierStep c hash) (NotifierInit hash) (InEpochOrder c) s) :
    s.storeFailed = false := by
  have hinv : NidInv c s := h.invariant (fun _ => nidInv_init) fun _ _ _ => nidInv_step
  exact hinv.stored

end

/-- Local epochs are at most one behind. -/
def NearEpoch (c : Config) (s : NotifierState K β D) (_ : NotifierAction K β) : Prop :=
  ∀ w < c.num_worker_threads, s.base.GlobalEpoch ≤ (s.base.workers w).ThLocalEpoch + 1

instance (c : Config) (s : NotifierState K β D) (a : NotifierAction K β) : Decidable (NearEpoch c s a) :=
  inferInstanceAs (Decidable
    (∀ w < c.num_worker_threads, s.base.GlobalEpoch ≤ (s.base.workers w).ThLocalEpoch + 1))

/-- Worker 0, idle, commits one write and is idle again. -/
def secondCommit : List (Action Nat Nat) :=
  [.work 0 .request] ++ ticks 0 8 ++ [.work 0 (.write ⟨1, 1, 20, .INSERT⟩), .work 0 .validate] ++
    ticks 0 2 ++ [.work 0 .pass] ++ ticks 0 4

/-- Worker 1 has a record of epoch 1 in its buffer and has just entered epoch 2; worker 0 has
published its record of epoch 2. -/
def laterFirst : List (Action Nat Nat) :=
  ticks 0 9 ++ firstCommit ++ advance ++ secondCommit ++ ticks 1 5 ++ ticks 0 9 ++ advance

/-- The logger writes the buffer of worker 0 before worker 1 publishes. -/
def overtakenSchedule : List (NotifierAction Nat Nat) :=
  acts (laterFirst ++ logs 0 11 ++ ticks 1 4 ++ logs 0 9)

set_option maxRecDepth 8000 in
theorem overtakenSchedule_runs :
    (exec (notifierStep twoWorkers unitHash) notifierStarted overtakenSchedule).isSome := by decide

set_option maxRecDepth 8000 in
theorem overtakenSchedule_near :
    Admits (notifierStep twoWorkers unitHash) (NearEpoch twoWorkers) notifierStarted
      overtakenSchedule := by
  decide

set_option maxRecDepth 8000 in
theorem overtakenSchedule_fails :
    ((exec (notifierStep twoWorkers unitHash) notifierStarted overtakenSchedule).get
      overtakenSchedule_runs).storeFailed = true := by
  decide

/-- The buffer of epoch 1 comes after that of epoch 2, and finds neither its item nor the end
of the list. -/
theorem store_fails_overtaken :
    ¬ ∀ s : NotifierState Nat Nat Unit,
      Reach (notifierStep twoWorkers unitHash) (NotifierInit unitHash) (NearEpoch twoWorkers) s →
      s.storeFailed = false := by
  intro h
  have hfails := overtakenSchedule_fails
  rw [h _ (reach_get_of_admits notifierStarted_init overtakenSchedule_near overtakenSchedule_runs)]
    at hfails
  cases hfails

/-- The same with the buffer of worker 1 published before the logger looks. -/
def inOrderSchedule : List (NotifierAction Nat Nat) := acts (laterFirst ++ ticks 1 4 ++ logs 0 12)

set_option maxRecDepth 8000 in
theorem inOrderSchedule_runs :
    (exec (notifierStep twoWorkers unitHash) notifierStarted inOrderSchedule).isSome := by decide

set_option maxRecDepth 8000 in
theorem inOrderSchedule_admits :
    Admits (notifierStep twoWorkers unitHash) (InEpochOrder twoWorkers) notifierStarted
      inOrderSchedule := by
  decide

set_option maxRecDepth 8000 in
/-- Both epochs have their items. -/
theorem store_never_fails_in_order :
    (((exec (notifierStep twoWorkers unitHash) notifierStarted inOrderSchedule).get
        inOrderSchedule_runs).nid_buffer_ 0).epochs = [0, 1, 2] ∧
      ((exec (notifierStep twoWorkers unitHash) notifierStarted inOrderSchedule).get
        inOrderSchedule_runs).storeFailed = false :=
  ⟨by decide, store_never_fails
    (reach_get_of_admits notifierStarted_init inOrderSchedule_admits inOrderSchedule_runs)⟩

end Cassa.SiloCC.Durability

import Cassa.SiloCC.Durability
import Cassa.Lib.Runs

/-!
# Each log buffer holds one epoch

`CTIDW` of a worker tells `wal` which epoch its current buffer holds, and
`durableEpochWork` publishes the buffer when it moves `CTIDW` to a new local epoch.
A validation that fails has already moved the local epoch: the next
`durableEpochWork` then sees no change and publishes nothing. As long as no
validation fails with older records in the buffer, the assertion at the end of
`LogBuffer::push` holds.
-/

namespace Cassa.SiloCC.Durability

open Cassa.Lib.Runs

variable {K β D : Type}

/-- A buffer as it comes from the pool. -/
structure Fresh (b : LogBuffer K β) : Prop where
  records : b.log_set_ = []
  nids : b.nid_set_ = []
  min : b.min_epoch_ = LogBuffer.noEpoch
  max : b.max_epoch_ = 0

/-- The records of the buffer carry the epoch `e`, and the buffer knows it. -/
structure Filled (b : LogBuffer K β) (e : Nat) : Prop where
  records : ∀ r ∈ b.log_set_, r.tid_.epoch.toNat = e
  nonempty : b.log_set_ ≠ []
  nids : b.nid_set_ ≠ []
  min : b.min_epoch_ = e
  max : b.max_epoch_ = e

def OneEpoch (b : LogBuffer K β) : Prop := Fresh b ∨ ∃ e, Filled b e

theorem fresh_new (w : Nat) : Fresh (LogBuffer.new w : LogBuffer K β) := ⟨rfl, rfl, rfl, rfl⟩

theorem OneEpoch.recycled {b : LogBuffer K β} (h : OneEpoch b) : Fresh b.recycled := by
  unfold LogBuffer.recycled
  rcases h with h | ⟨e, h⟩
  · rw [h.nids]
    exact ⟨rfl, rfl, h.min, h.max⟩
  · have hne : b.nid_set_.isEmpty = false := by simpa using h.nids
    simp only [hne]
    exact ⟨rfl, rfl, rfl, rfl⟩

theorem OneEpoch.filled {b : LogBuffer K β} (h : OneEpoch b) (hne : b.log_set_ ≠ []) :
    Filled b b.min_epoch_ := by
  rcases h with h | ⟨e, h⟩
  · exact absurd h.records hne
  · rw [h.min]
    exact h

theorem OneEpoch.not_empty {b : LogBuffer K β} (h : OneEpoch b) (hne : b.log_set_ ≠ []) :
    b.empty = false := by
  simpa [LogBuffer.empty] using (h.filled hne).nids

theorem push_nil (b : LogBuffer K β) (tid : TIDword) : b.push tid [] = b := by
  simp [LogBuffer.push, LogBuffer.logRecords]

/-- A buffer that is fresh, or already holds the epoch of `tid`, holds it after the push. -/
theorem filled_push {b : LogBuffer K β} {tid : TIDword} {ws : List (WriteElement K β)}
    (h : Fresh b ∨ Filled b tid.epoch.toNat) (hws : ws ≠ []) :
    Filled (b.push tid ws) tid.epoch.toNat := by
  have hlt : tid.epoch.toNat < LogBuffer.noEpoch := by
    have := tid.epoch.isLt
    simp only [LogBuffer.noEpoch]
    omega
  have hemp : ws.isEmpty = false := by simpa using hws
  have hrecs : ∀ r ∈ LogBuffer.logRecords tid ws, r.tid_ = tid := by
    intro r hr
    obtain ⟨we, -, rfl⟩ := List.mem_map.mp hr
    rfl
  have hlog : (b.push tid ws).log_set_ = b.log_set_ ++ LogBuffer.logRecords tid ws := by
    simp [LogBuffer.push, hemp]
  refine ⟨?_, ?_, ?_, ?_, ?_⟩
  · intro r hr
    rw [hlog] at hr
    rcases List.mem_append.mp hr with hr | hr
    · rcases h with h | h
      · rw [h.records] at hr
        cases hr
      · exact h.records r hr
    · rw [hrecs r hr]
  · rw [hlog]
    simp [LogBuffer.logRecords, hws]
  · simp [LogBuffer.push, hemp]
  · simp only [LogBuffer.push, hemp]
    rcases h with h | h
    · simp [h.min, hlt]
    · simp [h.min]
  · simp only [LogBuffer.push, hemp]
    rcases h with h | h
    · simp only [h.max]
      split <;> simp_all
    · simp [h.max]

theorem oneEpoch_push {b : LogBuffer K β} {tid : TIDword} (ws : List (WriteElement K β))
    (h : Fresh b ∨ Filled b tid.epoch.toNat) :
    OneEpoch (b.push tid ws) ∧ b.pushAsserts tid ws = true ∧
      ((b.push tid ws).log_set_ ≠ [] → (b.push tid ws).min_epoch_ = tid.epoch.toNat) := by
  by_cases hws : ws = []
  · subst hws
    rw [push_nil]
    refine ⟨h.imp_right fun h => ⟨_, h⟩, by simp [LogBuffer.pushAsserts], ?_⟩
    intro hne
    rcases h with h | h
    · exact absurd h.records hne
    · exact h.min
  · have hf := filled_push h hws
    refine ⟨Or.inr ⟨_, hf⟩, ?_, fun _ => hf.min⟩
    simp [LogBuffer.pushAsserts, hf.min, hf.max]

/-- A push of records whose assertion holds finds a fresh buffer, or one of its epoch. -/
theorem fresh_or_filled_of_asserts {b : LogBuffer K β} {tid : TIDword} {ws : List (WriteElement K β)}
    (h : OneEpoch b) (ha : b.pushAsserts tid ws = true) (hws : ws ≠ []) :
    Fresh b ∨ Filled b tid.epoch.toNat := by
  rcases h with h | ⟨e, h⟩
  · exact Or.inl h
  · right
    have hemp : ws.isEmpty = false := by simpa using hws
    simp only [LogBuffer.pushAsserts, LogBuffer.push, hemp, h.min, h.max, Bool.false_or,
      Bool.false_eq_true, if_false, beq_iff_eq] at ha
    have he : e = tid.epoch.toNat := by
      split at ha <;> split at ha <;> omega
    exact he ▸ h

theorem oneEpoch_push_of_asserts {b : LogBuffer K β} {tid : TIDword} {ws : List (WriteElement K β)}
    (h : OneEpoch b) (ha : b.pushAsserts tid ws = true) : OneEpoch (b.push tid ws) := by
  by_cases hws : ws = []
  · rw [hws, push_nil]
    exact h
  · exact (oneEpoch_push ws (fresh_or_filled_of_asserts h ha hws)).1

/-- Neither `CTIDW` nor the local epoch is newer than `e`. -/
def Low (t : Worker K β) (e : Nat) : Prop :=
  t.CTIDW.epoch.toNat ≤ e ∧ t.ThLocalEpoch % 2 ^ 32 ≤ e

/-- Where `CTIDW` and the local epoch stand while the current buffer holds records of
the epoch `e`. -/
def Bound (t : Worker K β) (e : Nat) : Prop :=
  match t.pc with
  | .durableEpochWork => Low t e
  | .epochWork (.first old) => Low t e ∧ old = t.ThLocalEpoch
  | .chkEpochLoaded (.first old) _ _ => Low t e ∧ old = t.ThLocalEpoch
  | .addGE (.first old) => Low t e ∧ old = t.ThLocalEpoch
  | .loadCTIDW (.first old) => Low t e ∧ old = t.ThLocalEpoch
  | .loadGE (.first old) _ => Low t e ∧ old = t.ThLocalEpoch
  | .storeLocalEpoch (.first old) _ _ => Low t e ∧ old = t.ThLocalEpoch
  | .compareEpoch (.first old) _ => t.CTIDW.epoch.toNat ≤ e ∧ old % 2 ^ 32 ≤ e
  | .storeCTIDW (.first old) new_epoch => old % 2 ^ 32 ≤ e ∧ new_epoch = t.ThLocalEpoch
  | .compareLocal old => old % 2 ^ 32 ≤ e ∧
      (t.CTIDW.epoch.toNat ≤ e ∨ t.CTIDW.epoch.toNat = t.ThLocalEpoch % 2 ^ 32)
  | .publish => True
  | .waitReady => Low t e
  | .idle => Low t e
  | .running => Low t e
  | .validationLoad => Low t e
  | .validationStore _ => Low t e
  | .validationCheck => t.CTIDW.epoch.toNat ≤ e
  | .wal _ => t.CTIDW.epoch.toNat ≤ e
  | .push tid new_epoch_begins => t.CTIDW.epoch.toNat ≤ e ∧
      (new_epoch_begins = false → t.CTIDW.epoch = tid.epoch)
  | .pushReady tid _ => e = tid.epoch.toNat
  | .walStore tid => e = tid.epoch.toNat
  | .writing _ _ => Low t e
  | _ => False

/-- What a worker in `wal` knows about the TID that it logs. -/
def TidOk (t : Worker K β) : Prop :=
  match t.pc with
  | .wal tid => tid = t.mrctid_ ∧ t.ThLocalEpoch % 2 ^ 32 ≤ tid.epoch.toNat
  | .push tid new_epoch_begins => tid = t.mrctid_ ∧ t.ThLocalEpoch % 2 ^ 32 ≤ tid.epoch.toNat ∧
      (new_epoch_begins = false → t.CTIDW.epoch = tid.epoch)
  | .pushReady tid new_epoch_begins => tid = t.mrctid_ ∧
      t.ThLocalEpoch % 2 ^ 32 ≤ tid.epoch.toNat ∧
      (new_epoch_begins = false → t.CTIDW.epoch = tid.epoch)
  | .walStore tid => tid = t.mrctid_ ∧ t.ThLocalEpoch % 2 ^ 32 ≤ tid.epoch.toNat
  | _ => True

/-- The control states in which the current buffer may be missing. -/
def mayLack : Pc → Prop
  | .epochWork .waiting => True
  | .chkEpochLoaded .waiting _ _ => True
  | .addGE .waiting => True
  | .loadCTIDW .waiting => True
  | .loadGE .waiting _ => True
  | .storeLocalEpoch .waiting _ _ => True
  | .compareEpoch .waiting _ => True
  | .storeCTIDW .waiting _ => True
  | .waitReady => True
  | .pushReady _ _ => True
  | _ => False

structure WorkerOk (t : Worker K β) : Prop where
  pool : ∀ b ∈ t.pool_, Fresh b
  buffer : ∀ b, t.current_buffer_ = some b → OneEpoch b
  present : t.current_buffer_ = none → mayLack t.pc
  recent : ∀ b, t.current_buffer_ = some b → b.log_set_ ≠ [] →
    b.min_epoch_ ≤ t.mrctid_.epoch.toNat ∧ Bound t b.min_epoch_
  tid : TidOk t

/-- The buffers that a logger has dequeued and not yet returned. -/
def held : LPc K β → List (LogBuffer K β)
  | .writeLog _ rest => rest
  | .writeTail _ rest => rest
  | .returnBuffer _ rest => rest
  | _ => []

structure BuffersOk (s : State K β D) : Prop where
  workers : ∀ w, WorkerOk (s.workers w)
  queue : ∀ l, ∀ b ∈ (s.loggers l).queue_, OneEpoch b
  held : ∀ l, ∀ b ∈ held (s.loggers l).pc, OneEpoch b
  running : s.halted = false

/-- A validation fails although the worker has older records in its current buffer
than the local epoch it has just stored. -/
def staleFailure (s : State K β D) : Action K β → Bool
  | .work w .fail =>
    match (s.workers w).current_buffer_ with
    | some b => !b.log_set_.isEmpty && decide (b.min_epoch_ < (s.workers w).ThLocalEpoch % 2 ^ 32)
    | none => false
  | _ => false

section
variable {s s' : State K β D} {w l : Nat} {t : Worker K β}

theorem BuffersOk.setWorker (h : BuffersOk s) (ht : WorkerOk t) : BuffersOk (s.setWorker w t) where
  workers u := by
    by_cases hu : u = w
    · subst hu
      rw [setWorker_self]
      exact ht
    · rw [setWorker_other s w t hu]
      exact h.workers u
  queue := h.queue
  held := h.held
  running := h.running

theorem BuffersOk.setLogger {g : Logger K β D} (h : BuffersOk s) (hq : ∀ b ∈ g.queue_, OneEpoch b)
    (hh : ∀ b ∈ Durability.held g.pc, OneEpoch b) : BuffersOk (s.setLogger l g) where
  workers := h.workers
  queue m := by
    by_cases hm : m = l
    · subst hm
      rw [setLogger_self]
      exact hq
    · rw [setLogger_other s l g hm]
      exact h.queue m
  held m := by
    by_cases hm : m = l
    · subst hm
      rw [setLogger_self]
      exact hh
    · rw [setLogger_other s l g hm]
      exact h.held m
  running := h.running

/-- Only the control state changes, to one with no obligations towards a TID. -/
theorem WorkerOk.goto (h : WorkerOk t) {pc : Pc}
    (hlack : t.current_buffer_ = none → mayLack pc)
    (hbound : ∀ e, e ≤ t.mrctid_.epoch.toNat → Bound t e → Bound (t.goto pc) e)
    (htid : TidOk (t.goto pc)) : WorkerOk (t.goto pc) where
  pool := h.pool
  buffer := h.buffer
  present := hlack
  recent b hb hne := ⟨(h.recent b hb hne).1, hbound _ (h.recent b hb hne).1 (h.recent b hb hne).2⟩
  tid := htid

/-- The buffer that `is_ready` finds is fresh, or is the one that was there. -/
theorem WorkerOk.is_ready (h : WorkerOk t) :
    (∀ b ∈ (is_ready t).1.pool_, Fresh b) ∧
      ∀ b, (is_ready t).1.current_buffer_ = some b → Fresh b ∨ t.current_buffer_ = some b := by
  unfold Durability.is_ready
  cases hc : t.current_buffer_ with
  | some b =>
    refine ⟨h.pool, ?_⟩
    intro b' hb'
    exact Or.inr (hc ▸ hb')
  | none =>
    cases hl : t.pool_.getLast? with
    | none =>
      refine ⟨h.pool, ?_⟩
      intro b' hb'
      rw [hc] at hb'
      cases hb'
    | some b =>
      refine ⟨fun x hx => h.pool x (List.dropLast_subset _ hx), ?_⟩
      intro b' hb'
      obtain rfl := Option.some.inj hb'
      exact Or.inl (h.pool b (List.mem_of_getLast? hl))

theorem is_ready_ThLocalEpoch (t : Worker K β) : (is_ready t).1.ThLocalEpoch = t.ThLocalEpoch := by
  unfold is_ready
  repeat' split
  all_goals rfl

theorem is_ready_CTIDW (t : Worker K β) : (is_ready t).1.CTIDW = t.CTIDW := by
  unfold is_ready
  repeat' split
  all_goals rfl

theorem is_ready_mrctid (t : Worker K β) : (is_ready t).1.mrctid_ = t.mrctid_ := by
  unfold is_ready
  repeat' split
  all_goals rfl

theorem is_ready_some (t : Worker K β) (h : (is_ready t).2 = true) :
    (is_ready t).1.current_buffer_ ≠ none := by
  unfold is_ready at h ⊢
  repeat' split at h
  · rename_i hc
    simp [hc]
  · simp
  · cases h

/-- `publish` hands over a filled buffer and leaves none, or keeps a fresh one. -/
theorem buffersOk_publish (c : Config) (h : BuffersOk s) {b : LogBuffer K β}
    (hb : (s.workers w).current_buffer_ = some b) {pc : Pc} (hlack : mayLack pc)
    (htid : TidOk { s.workers w with pc := pc, current_buffer_ := none }) :
    BuffersOk (publish c s w (s.workers w) b pc) := by
  have hw := h.workers w
  have hone := hw.buffer b hb
  unfold publish
  split
  · rename_i hemp
    have hfresh : b.log_set_ = [] := by
      by_contra hne
      rw [hone.not_empty hne] at hemp
      cases hemp
    refine h.setWorker ⟨hw.pool, hw.buffer, fun _ => hlack, ?_, htid⟩
    intro b' hb' hne
    change (s.workers w).current_buffer_ = some b' at hb'
    rw [hb] at hb'
    obtain rfl := Option.some.inj hb'
    exact absurd hfresh hne
  · have ht : WorkerOk { s.workers w with current_buffer_ := none, pc := pc } :=
      ⟨hw.pool, by simp, fun _ => hlack, by simp, htid⟩
    refine BuffersOk.setWorker (BuffersOk.setLogger h ?_ ?_) ht
    · intro x hx
      rcases mem_enq.mp hx with rfl | hx
      · exact hone
      · exact h.queue _ x hx
    · exact h.held _

/-- The control state moves on and nothing else changes. -/
theorem buffersOk_goto (h : BuffersOk s) {pc pc' : Pc} (hpc : (s.workers w).pc = pc)
    (hlack : mayLack pc → mayLack pc')
    (hbound : ∀ e, e ≤ (s.workers w).mrctid_.epoch.toNat → Bound (s.workers w) e →
      Bound ((s.workers w).goto pc') e)
    (htid : TidOk ((s.workers w).goto pc')) :
    BuffersOk (s.setWorker w ((s.workers w).goto pc')) :=
  h.setWorker ((h.workers w).goto (fun hn => hlack (hpc ▸ (h.workers w).present hn)) hbound htid)

/-- `compareLocal` is left without publishing where the buffer is empty or the epoch is the old one. -/
theorem buffersOk_leave (h : BuffersOk s) {old : Nat} (hpc : (s.workers w).pc = .compareLocal old)
    (hsame : ∀ b, (s.workers w).current_buffer_ = some b → b.log_set_ ≠ [] →
      old = (s.workers w).ThLocalEpoch) :
    BuffersOk (s.setWorker w ((s.workers w).goto .waitReady)) := by
  have hw := h.workers w
  refine h.setWorker ⟨hw.pool, hw.buffer, fun _ => trivial, ?_, trivial⟩
  intro b hb hne
  obtain ⟨hrec, hbound⟩ := hw.recent b hb hne
  refine ⟨hrec, ?_⟩
  have heq := hsame b hb hne
  simp only [Bound, hpc] at hbound
  rw [heq] at hbound
  change Low (s.workers w) b.min_epoch_
  refine ⟨?_, hbound.1⟩
  rcases hbound.2 with hle | hle
  · exact hle
  · rw [hle]
    exact hbound.1

/-- The buffer that a worker has after waiting for one holds nothing, or what it held before. -/
theorem WorkerOk.waited (hw : WorkerOk t) (hpc : t.pc = .waitReady) :
    (∀ b, (Durability.is_ready t).1.current_buffer_ = some b → OneEpoch b) ∧
      ∀ b, (Durability.is_ready t).1.current_buffer_ = some b → b.log_set_ ≠ [] →
        b.min_epoch_ ≤ (Durability.is_ready t).1.mrctid_.epoch.toNat ∧
          Low (Durability.is_ready t).1 b.min_epoch_ := by
  obtain ⟨-, hbuf⟩ := hw.is_ready
  constructor
  · intro b hb
    rcases hbuf b hb with hf | hold
    · exact Or.inl hf
    · exact hw.buffer b hold
  · intro b hb hne
    rcases hbuf b hb with hf | hold
    · exact absurd hf.records hne
    · obtain ⟨hrec, hbound⟩ := hw.recent b hold hne
      simp only [Bound, hpc] at hbound
      unfold Low at hbound ⊢
      rw [is_ready_mrctid, is_ready_CTIDW, is_ready_ThLocalEpoch]
      exact ⟨hrec, hbound⟩

/-- The steps of `durableEpochWork`. -/
theorem buffersOk_tickEpoch (c : Config) (h : BuffersOk s)
    (hs : tickEpoch c s w (s.workers w) (s.workers w).pc = some s') : BuffersOk s' := by
  have hw := h.workers w
  cases epochTicks_of_tickEpoch hs with
  | durableEpochWork hpc =>
    refine buffersOk_goto h hpc (by simp [mayLack]) ?_ trivial
    intro e _ hb
    simp only [Bound, hpc] at hb
    exact ⟨hb, rfl⟩
  | @epochWork call hpc | @checkedAll call _ _ hpc | @checkedBehind call _ _ hpc
  | @checkedOne call _ _ hpc | @loadCTIDW call hpc | @loadGE call _ hpc =>
    refine buffersOk_goto h hpc (by cases call <;> simp [mayLack]) ?_ trivial
    intro e _ hb
    simp only [Bound, hpc] at hb
    cases call <;> exact hb
  | @addGE call hpc =>
    have hnext : BuffersOk (s.setWorker w ((s.workers w).goto (.loadCTIDW call))) := by
      refine buffersOk_goto h hpc (by cases call <;> simp [mayLack]) ?_ trivial
      intro e _ hb
      simp only [Bound, hpc] at hb
      cases call <;> exact hb
    exact ⟨hnext.workers, hnext.queue, hnext.held, hnext.running⟩
  | @storeLocalEpoch call old_tid g hpc =>
    refine h.setWorker ⟨hw.pool, hw.buffer, ?_, ?_, trivial⟩
    · intro hn
      have hlack := hw.present hn
      rw [hpc] at hlack
      cases call <;> simp [mayLack] at hlack ⊢
    · intro b hb hne
      obtain ⟨hrec, hbound⟩ := hw.recent b hb hne
      refine ⟨hrec, ?_⟩
      simp only [Bound, hpc] at hbound ⊢
      cases call with
      | first old => exact ⟨hbound.1.1, hbound.2 ▸ hbound.1.2⟩
      | waiting => exact hbound
  | @epochDiffers call old_tid hpc =>
    refine buffersOk_goto h hpc (by cases call <;> simp [mayLack]) ?_ trivial
    intro e _ hb
    simp only [Bound, hpc] at hb
    cases call with
    | first old => exact ⟨hb.2, rfl⟩
    | waiting => exact hb
  | @epochAgrees call old_tid hpc =>
    refine buffersOk_goto h hpc (by cases call <;> simp [mayLack, epochReturn]) ?_ ?_
    · intro e _ hb
      simp only [Bound, hpc] at hb
      cases call with
      | first old => exact ⟨hb.2, Or.inl hb.1⟩
      | waiting => exact hb.elim
    · cases call <;> trivial
  | @storeCTIDW call new_epoch hpc =>
    refine h.setWorker ⟨hw.pool, hw.buffer, ?_, ?_, ?_⟩
    · intro hn
      have hlack := hw.present hn
      rw [hpc] at hlack
      cases call <;> simp [mayLack, epochReturn] at hlack ⊢
    · intro b hb hne
      obtain ⟨hrec, hbound⟩ := hw.recent b hb hne
      refine ⟨hrec, ?_⟩
      simp only [Bound, hpc] at hbound ⊢
      cases call with
      | first old =>
        refine ⟨hbound.1, Or.inr ?_⟩
        rw [hbound.2]
        simp [epochTid, epochWord]
      | waiting => exact hbound.elim
    · cases call <;> trivial
  | localMoved hpc => exact buffersOk_goto h hpc (by simp [mayLack]) (fun _ _ _ => trivial) trivial
  | localEmpty hpc _ hb hempty =>
    refine buffersOk_leave h hpc fun b' hb' hne => ?_
    rw [hb] at hb'
    obtain rfl := Option.some.inj hb'
    exact absurd (by simpa [LogBuffer.log_set_size_] using hempty) hne
  | localKept hpc heq => exact buffersOk_leave h hpc fun _ _ _ => heq
  | noBuffer hpc hn =>
    have hlack := hw.present hn
    rcases hpc with ⟨old, hpc, -⟩ | hpc
    · rw [hpc] at hlack
      exact hlack.elim
    · rw [hpc] at hlack
      exact hlack.elim
  | publish hpc hb => exact buffersOk_publish c h hb trivial trivial
  | ready hpc hready =>
    obtain ⟨hone, hlow⟩ := hw.waited hpc
    have hsome := is_ready_some _ hready
    split
    · exact h.setWorker ⟨hw.is_ready.1, hone, fun hn => absurd hn hsome, hlow, trivial⟩
    · exact h.setWorker ⟨hw.is_ready.1, hone, fun hn => absurd hn hsome, hlow, trivial⟩
  | notReady hpc hready =>
    have hnone : (s.workers w).current_buffer_ = none := by
      by_contra hne
      obtain ⟨b, hb⟩ := Option.ne_none_iff_exists'.mp hne
      simp [is_ready, hb] at hready
    refine h.setWorker ⟨hw.pool, hw.buffer, fun _ => trivial, ?_, trivial⟩
    intro b hb
    change (s.workers w).current_buffer_ = some b at hb
    rw [hnone] at hb
    cases hb

theorem commitTid_epoch_ge (t : Worker K β) :
    t.mrctid_.epoch.toNat ≤ t.commitTid.epoch.toNat ∧
      t.ThLocalEpoch % 2 ^ 32 ≤ t.commitTid.epoch.toNat := by
  unfold Worker.commitTid
  rw [commitTid_epoch]
  omega

/-- The buffer that a worker finds when it pushes: fresh, or of the epoch of the commit. -/
theorem WorkerOk.ready_of_push (hw : WorkerOk t) {tid : TIDword} {n : Bool} (hpc : t.pc = .pushReady tid n)
    {b : LogBuffer K β} (hb : (Durability.is_ready t).1.current_buffer_ = some b) :
    Fresh b ∨ Filled b tid.epoch.toNat := by
  rcases hw.is_ready.2 b hb with hf | hold
  · exact Or.inl hf
  · by_cases hne : b.log_set_ = []
    · rcases hw.buffer b hold with hf | ⟨e, hf⟩
      · exact Or.inl hf
      · exact absurd hne hf.nonempty
    · have hbound := (hw.recent b hold hne).2
      simp only [Bound, hpc] at hbound
      exact Or.inr (hbound ▸ (hw.buffer b hold).filled hne)

/-- The worker after a push. -/
theorem WorkerOk.pushed (hw : WorkerOk t) {tid : TIDword} {n : Bool} (hpc : t.pc = .pushReady tid n)
    {b : LogBuffer K β} (hb : (Durability.is_ready t).1.current_buffer_ = some b) :
    WorkerOk { (Durability.is_ready t).1 with
      current_buffer_ := some (b.push tid t.write_set_)
      pc := if n then Pc.walStore tid else Pc.writing tid 0 } := by
  have htid := hw.tid
  simp only [TidOk, hpc] at htid
  obtain ⟨hone, -, hmin⟩ := oneEpoch_push t.write_set_ (hw.ready_of_push hpc hb)
  refine ⟨hw.is_ready.1, ?_, by simp, ?_, ?_⟩
  · intro b' hb'
    obtain rfl := Option.some.inj hb'
    exact hone
  · intro b' hb' hne
    obtain rfl := Option.some.inj hb'
    rw [hmin hne, is_ready_mrctid, htid.1]
    refine ⟨Nat.le_refl _, ?_⟩
    rw [← htid.1]
    cases n with
    | true => rfl
    | false =>
      constructor
      · rw [is_ready_CTIDW, htid.2.2 rfl]
      · rw [is_ready_ThLocalEpoch]
        exact htid.2.1
  · cases n with
    | true =>
      constructor
      · rw [is_ready_mrctid]
        exact htid.1
      · rw [is_ready_ThLocalEpoch]
        exact htid.2.1
    | false => trivial

/-- The steps of `wal` and `writePhase`. -/
theorem buffersOk_tickCommit (c : Config) (h : BuffersOk s)
    (hs : tickCommit c s w (s.workers w) (s.workers w).pc = some s') : BuffersOk s' := by
  have hw := h.workers w
  have hnull : ∀ {pc : Pc}, (s.workers w).pc = pc → ¬ mayLack pc →
      (s.workers w).current_buffer_ ≠ none := fun hpc hm hn => hm (hpc ▸ hw.present hn)
  cases commitTicks_of_tickCommit hs with
  | validationLoad hpc =>
    refine buffersOk_goto h hpc (by simp [mayLack]) ?_ trivial
    intro e _ hb
    simp only [Bound, hpc] at hb
    exact hb
  | validationStore hpc =>
    refine h.setWorker ⟨hw.pool, hw.buffer, fun hn => absurd hn (hnull hpc (by simp [mayLack])), ?_,
      trivial⟩
    intro b hb hne
    obtain ⟨hrec, hbound⟩ := hw.recent b hb hne
    simp only [Bound, hpc] at hbound
    exact ⟨hrec, hbound.1⟩
  | @wal tid hpc =>
    have htid := hw.tid
    simp only [TidOk, hpc] at htid
    have hnew : decide ((s.workers w).CTIDW.epoch ≠ tid.epoch) = false →
        (s.workers w).CTIDW.epoch = tid.epoch := by simp
    refine buffersOk_goto h hpc (by simp [mayLack]) ?_ ⟨htid.1, htid.2, hnew⟩
    intro e _ hb
    simp only [Bound, hpc] at hb
    exact ⟨hb, hnew⟩
  | noBuffer hpc hn => exact absurd hn (hnull hpc (by simp [mayLack]))
  | pushFull hpc hb =>
    have htid := hw.tid
    simp only [TidOk, hpc] at htid
    exact buffersOk_publish c h hb trivial htid
  | @pushRoom tid b hpc hb =>
    have htid := hw.tid
    simp only [TidOk, hpc] at htid
    refine buffersOk_goto h hpc (by simp [mayLack]) ?_ ⟨htid.1, htid.2.1, fun _ => htid.2.2 trivial⟩
    intro e hle hbound
    simp only [Bound, hpc] at hbound
    have hsame := hbound.2 trivial
    have hmr : e ≤ tid.epoch.toNat := htid.1 ▸ hle
    have hct : (s.workers w).CTIDW.epoch.toNat ≤ e := hbound.1
    rw [hsame] at hct
    exact Nat.le_antisymm hmr hct
  | waiting => exact h
  | pushed hpc hb =>
    obtain ⟨-, hassert, -⟩ := oneEpoch_push (s.workers w).write_set_ (hw.ready_of_push hpc hb)
    have hnext := h.setWorker (w := w) (hw.pushed hpc hb)
    exact ⟨hnext.workers, hnext.queue, hnext.held, by simp [hassert]⟩
  | walStore hpc =>
    have htid := hw.tid
    simp only [TidOk, hpc] at htid
    refine h.setWorker ⟨hw.pool, hw.buffer, fun hn => absurd hn (hnull hpc (by simp [mayLack])), ?_,
      trivial⟩
    intro b hb hne
    obtain ⟨hrec, hbound⟩ := hw.recent b hb hne
    simp only [Bound, hpc] at hbound
    exact ⟨hrec, hbound.ge, hbound ▸ htid.2⟩
  | written hpc =>
    refine h.setWorker ⟨hw.pool, hw.buffer, fun hn => absurd hn (hnull hpc (by simp [mayLack])), ?_,
      trivial⟩
    intro b hb hne
    obtain ⟨hrec, hbound⟩ := hw.recent b hb hne
    simp only [Bound, hpc] at hbound
    exact ⟨hrec, hbound⟩
  | @writing tid i we hpc =>
    have hnext : BuffersOk (s.setWorker w
        ((s.workers w).goto (.writing (storedWord tid we.op_) (i + 1)))) := by
      refine buffersOk_goto h hpc (by simp [mayLack]) ?_ trivial
      intro e _ hb
      simp only [Bound, hpc] at hb
      exact hb
    exact ⟨hnext.workers, hnext.queue, hnext.held, hnext.running⟩

theorem buffersOk_work (c : Config) (h : BuffersOk s) {op : Op K β}
    (hok : staleFailure s (.work w op) = false) (hs : work c s w op = some s') : BuffersOk s' := by
  have hw := h.workers w
  have hmove : ∀ t' : Worker K β, t'.pool_ = (s.workers w).pool_ →
      t'.current_buffer_ = (s.workers w).current_buffer_ → t'.mrctid_ = (s.workers w).mrctid_ →
      ¬ mayLack (s.workers w).pc → TidOk t' →
      (∀ b, (s.workers w).current_buffer_ = some b → b.log_set_ ≠ [] →
        Bound (s.workers w) b.min_epoch_ → Bound t' b.min_epoch_) →
      BuffersOk (s.setWorker w t') := by
    intro t' hpool hcur hmr hlack htid hbound
    refine h.setWorker ⟨hpool ▸ hw.pool, hcur ▸ hw.buffer, ?_, ?_, htid⟩
    · intro hn
      exact absurd (hw.present (hcur ▸ hn)) hlack
    · intro b hb hne
      rw [hcur] at hb
      obtain ⟨hrec, hbd⟩ := hw.recent b hb hne
      exact ⟨hmr ▸ hrec, hbound b hb hne hbd⟩
  cases works_of_work hs with
  | tickEpoch hs => exact buffersOk_tickEpoch c h hs
  | tickCommit hs => exact buffersOk_tickCommit c h hs
  | @lead call hpc =>
    refine buffersOk_goto h hpc (by cases call <;> simp [mayLack]) ?_ trivial
    intro e _ hb
    simp only [Bound, hpc] at hb
    cases call <;> exact hb
  | noRequest hpc | request hpc | refuse hpc | validate hpc =>
    refine hmove _ rfl rfl rfl (by simp [hpc, mayLack]) trivial ?_
    intro b _ _ hb
    simp only [Bound, hpc] at hb
    exact hb
  | observe hpc | write hpc =>
    refine hmove _ rfl rfl rfl (by simp [hpc, mayLack]) (by simp [TidOk, hpc]) ?_
    intro b _ _ hb
    simp only [Bound, hpc] at hb ⊢
    exact hb
  | pass hpc =>
    obtain ⟨hmr, hlocal⟩ := commitTid_epoch_ge (s.workers w)
    have hnext := h.setWorker (w := w)
      (t := { s.workers w with mrctid_ := (s.workers w).commitTid
                               pc := .wal (s.workers w).commitTid })
      ⟨hw.pool, hw.buffer,
        fun hn => absurd (hw.present hn) (by simp [hpc, mayLack]),
        fun b hb hne => by
          obtain ⟨hrec, hbd⟩ := hw.recent b hb hne
          simp only [Bound, hpc] at hbd
          exact ⟨hrec.trans hmr, hbd⟩, ⟨rfl, hlocal⟩⟩
    exact ⟨hnext.workers, hnext.queue, hnext.held, hnext.running⟩
  | fail hpc =>
    refine hmove _ rfl rfl rfl (by simp [hpc, mayLack]) trivial ?_
    intro b hb hne hbd
    simp only [Bound, hpc] at hbd
    refine ⟨hbd, ?_⟩
    simpa [staleFailure, hb, hne] using hok

theorem buffersOk_log (c : Config) (hash : Hash K β D) (h : BuffersOk s)
    (hs : log c hash s l = some s') : BuffersOk s' := by
  have hheld := h.held l
  have hnil : ∀ pc', Durability.held pc' = [] →
      BuffersOk (s.setLogger l ((s.loggers l).goto pc')) := fun pc' he =>
    h.setLogger (h.queue l) (by simp [Logger.goto, he])
  cases logs_of_log hs with
  | deq => exact h.setLogger (by simp) (h.queue l)
  | logEmpty hpc | writeLog hpc | writeTail hpc =>
    rw [hpc] at hheld
    exact h.setLogger (h.queue l) hheld
  | @returnBuffer e b rest hpc =>
    rw [hpc] at hheld
    have hrest : ∀ x ∈ rest, OneEpoch x := fun x hx => hheld x (List.mem_cons_of_mem _ hx)
    have hb := h.workers b.pool_
    refine BuffersOk.setWorker (h.setLogger (h.queue l) hrest) ⟨?_, hb.buffer, hb.present, hb.recent, hb.tid⟩
    intro x hx
    rcases List.mem_append.mp hx with hx | hx
    · exact hb.pool x hx
    · rw [List.mem_singleton.mp hx]
      exact (hheld b List.mem_cons_self).recycled
  | @casDurable nd md =>
    have hnext := hnil (.writeEpoch nd md) rfl
    exact ⟨hnext.workers, hnext.queue, hnext.held, hnext.running⟩
  | @writeEpoch nd =>
    have hnext := hnil (.storeDurable nd) rfl
    exact ⟨hnext.workers, hnext.queue, hnext.held, hnext.running⟩
  | storeDurable => exact h.setLogger (h.queue l) (by simp [Durability.held])
  | _ => exact hnil _ rfl

theorem buffersOk_step (c : Config) (hash : Hash K β D) {a : Action K β} (h : BuffersOk s)
    (hok : staleFailure s a = false) (hs : step c hash s a = some s') : BuffersOk s' := by
  cases steps_of_step hs with
  | work _ _ hs => exact buffersOk_work c h hok hs
  | log _ _ hs => exact buffersOk_log c hash h hs

theorem buffersOk_init {hash : Hash K β D} (h : Init hash s) : BuffersOk s where
  workers w := by
    rw [h.workers w]
    refine ⟨?_, ?_, by simp [Worker.new], ?_, trivial⟩
    · intro b hb
      rw [List.eq_of_mem_replicate hb]
      exact fresh_new w
    · intro b hb
      obtain rfl := Option.some.inj hb
      exact Or.inl (fresh_new w)
    · intro b hb hne
      obtain rfl := Option.some.inj hb
      exact absurd rfl hne
  queue l := by simp [h.loggers l, Logger.new]
  held l := by simp [h.loggers l, Logger.new, Durability.held]
  running := h.halted

/-- No assertion has failed, and the records of every current buffer carry one epoch. -/
structure OneEpochBuffers (s : State K β D) : Prop where
  asserts : s.halted = false
  same : ∀ w b, (s.workers w).current_buffer_ = some b →
    ∀ r ∈ b.log_set_, ∀ r' ∈ b.log_set_, r.tid_.epoch = r'.tid_.epoch

theorem BuffersOk.oneEpochBuffers (h : BuffersOk s) : OneEpochBuffers s := by
  refine ⟨h.running, ?_⟩
  intro w b hb r hr r' hr'
  have hf := ((h.workers w).buffer b hb).filled (List.ne_nil_of_mem hr)
  exact BitVec.eq_of_toNat_eq ((hf.records r hr).trans (hf.records r' hr').symm)

theorem buffersOk_reach {c : Config} {hash : Hash K β D}
    (h : Reach (step c hash) (Init hash) (fun s a => staleFailure s a = false) s) : BuffersOk s := by
  refine Reach.invariant (I := BuffersOk) ?_ ?_ h
  · intro s₀ h₀
    exact buffersOk_init h₀
  · intro s₁ a s₂ h₁ hok hs
    exact buffersOk_step c hash h₁ hok hs

/-- In every run in which no validation fails with older records buffered than the
local epoch it has stored, every push finds its assertion true. -/
theorem one_epoch_buffers {c : Config} {hash : Hash K β D}
    (h : Reach (step c hash) (Init hash) (fun s a => staleFailure s a = false) s) :
    OneEpochBuffers s :=
  (buffersOk_reach h).oneEpochBuffers

end

/-- Two workers and one logger. -/
def twoWorkers : Config where
  num_worker_threads := 2
  num_logger_threads := 1
  thid_vec_ l := if l = 0 then [0, 1] else []
  logger_thid_ _ := 0
  assigned w hw := by
    have : w = 0 ∨ w = 1 := by omega
    rcases this with rfl | rfl <;> decide
  exclusive l w h := by
    split at h
    · exact (‹l = 0›).symm
    · cases h
  inRange _ _ := by decide

def unitHash : Hash Nat Nat Unit := ⟨fun _ _ _ _ => (), fun _ => (), (), ()⟩

def started : State Nat Nat Unit where
  GlobalEpoch := 1
  DurableEpoch := 0
  tidword _ := .new
  workers w := .new w
  loggers _ := .new unitHash
  pepoch := none
  committed := []
  halted := false

theorem started_init : Init unitHash started :=
  ⟨rfl, rfl, fun _ => Nat.zero_le 1, fun _ => rfl, fun _ => rfl, rfl, rfl, rfl⟩

def ticks (w n : Nat) : List (Action Nat Nat) := List.replicate n (.work w .tick)

/-- Worker 1 starts up and commits one write in epoch 1. -/
def firstCommit : List (Action Nat Nat) :=
  ticks 1 9 ++ [.work 1 .request] ++ ticks 1 8 ++
    [.work 1 (.write ⟨0, 0, 10, .INSERT⟩), .work 1 .validate] ++ ticks 1 2 ++
    [.work 1 .pass] ++ ticks 1 5

/-- The next transaction of worker 1 runs while worker 0 advances the epoch; its
validation fails, and its second attempt commits in epoch 2. -/
def staleSchedule : List (Action Nat Nat) :=
  firstCommit ++ ticks 1 8 ++ [.work 1 .request] ++ ticks 1 8 ++
    [.work 1 (.write ⟨0, 0, 20, .WRITE⟩)] ++
    [.work 0 .tick, .work 0 .lead] ++ ticks 0 3 ++
    [.work 1 .validate] ++ ticks 1 2 ++ [.work 1 .fail] ++ ticks 1 9 ++
    [.work 1 (.write ⟨0, 0, 20, .WRITE⟩), .work 1 .validate] ++ ticks 1 2 ++
    [.work 1 .pass] ++ ticks 1 3

set_option maxRecDepth 4000 in
theorem staleSchedule_runs : (exec (step twoWorkers unitHash) started staleSchedule).isSome := by
  decide

set_option maxRecDepth 4000 in
theorem staleSchedule_halts :
    ((exec (step twoWorkers unitHash) started staleSchedule).get staleSchedule_runs).halted = true := by
  decide

theorem one_epoch_buffers_stale :
    ¬ ∀ s : State Nat Nat Unit, Reach (step twoWorkers unitHash) (Init unitHash) anyStep s →
      OneEpochBuffers s := by
  intro h
  have hone := h _ (reach_get started_init staleSchedule_runs)
  have hhalt := staleSchedule_halts
  rw [hone.asserts] at hhalt
  cases hhalt

theorem firstCommit_runs : (exec (step twoWorkers unitHash) started firstCommit).isSome := by decide

theorem firstCommit_admits :
    Admits (step twoWorkers unitHash) (fun s a => staleFailure s a = false) started firstCommit := by
  decide

/-- After its first commit the buffer of worker 1 holds one record. -/
theorem one_epoch_buffers_commit :
    ((((exec (step twoWorkers unitHash) started firstCommit).get firstCommit_runs).workers
      1).current_buffer_.map fun b => b.log_set_.length) = some 1 ∧
      OneEpochBuffers ((exec (step twoWorkers unitHash) started firstCommit).get firstCommit_runs) :=
  ⟨by decide, one_epoch_buffers (reach_get_of_admits started_init firstCommit_admits firstCommit_runs)⟩

end Cassa.SiloCC.Durability

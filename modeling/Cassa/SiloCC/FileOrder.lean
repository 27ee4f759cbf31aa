import Cassa.SiloCC.DurableEpoch

/-!
# The order of a log file

A worker alone on its logger commits in epochs that do not fall, and its records keep their order on the
way from its current buffer through the queue into the file. So the sets of the file are in the order of
their epochs.
-/

namespace Cassa.SiloCC.Durability

variable {K β D : Type}

/-- The epochs of the records of a buffer. -/
def epochs (b : LogBuffer K β) : List Nat := b.log_set_.map fun r => r.tid_.epoch.toNat

def docEpochs (doc : JsonLog K β D) : List Nat := doc.log_set.map fun r => r.tid_.epoch.toNat

def inHand (t : Worker K β) : List Nat :=
  match t.current_buffer_ with
  | none => []
  | some b => epochs b

/-- What is in the file, then what is on its way there from the worker. -/
def stream (s : State K β D) (l w : Nat) : List Nat :=
  (s.loggers l).logfile_.flatMap docEpochs ++ ((unwritten (s.loggers l).pc).flatMap epochs ++
    ((s.loggers l).queue_.flatMap epochs ++ inHand (s.workers w)))

structure EpochOrder (s : State K β D) (l w : Nat) : Prop where
  sorted : (stream s l w).Pairwise (· ≤ ·)
  bound : ∀ e ∈ stream s l w, e ≤ (s.workers w).ThLocalEpoch

/-- No other worker than `w` writes to the logger. -/
def Own (c : Config) (l w : Nat) : Prop := ∀ u < c.num_worker_threads, c.logger_thid_ u = l → u = w

/-- What a step of a worker does to its records. -/
inductive HandStep (c : Config) (s s' : State K β D) (w : Nat) : Prop
  | keep (hlocal : (s.workers w).ThLocalEpoch ≤ (s'.workers w).ThLocalEpoch)
    (hhand : inHand (s'.workers w) = inHand (s.workers w)) (hlog : s'.loggers = s.loggers)
  | push (n : Nat) (hlocal : (s'.workers w).ThLocalEpoch = (s.workers w).ThLocalEpoch)
    (hhand : inHand (s'.workers w) = inHand (s.workers w) ++ List.replicate n (s.workers w).ThLocalEpoch)
    (hlog : s'.loggers = s.loggers)
  | publish (b : LogBuffer K β) (hb : (s.workers w).current_buffer_ = some b) (hfull : Full b)
    (hlocal : (s'.workers w).ThLocalEpoch = (s.workers w).ThLocalEpoch)
    (hhand : inHand (s'.workers w) = [])
    (hlog : s'.loggers = (s.setLogger (c.logger_thid_ w) { s.loggers (c.logger_thid_ w) with
      queue_ := enq b (s.loggers (c.logger_thid_ w)).queue_ }).loggers)

theorem epochs_push (b : LogBuffer K β) (tid : TIDword) (ws : List (WriteElement K β)) :
    epochs (b.push tid ws) = epochs b ++ List.replicate ws.length tid.epoch.toNat := by
  have hlog : (b.push tid ws).log_set_ = b.log_set_ ++ LogBuffer.logRecords tid ws := by
    unfold LogBuffer.push
    dsimp only
    split <;> rfl
  have hnew : (LogBuffer.logRecords tid ws).map (fun r => r.tid_.epoch.toNat) =
      List.replicate ws.length tid.epoch.toNat := by
    rw [LogBuffer.logRecords, List.map_map, List.eq_replicate_iff]
    refine ⟨by simp, ?_⟩
    intro e he
    obtain ⟨we, -, rfl⟩ := List.mem_map.mp he
    rfl
  rw [epochs, epochs, hlog, List.map_append, hnew]

theorem docEpochs_create_json_log (h : Hash K β D) (prev : D) (rs : List (LogRecord K β)) :
    docEpochs (create_json_log h prev rs) = rs.map fun r => r.tid_.epoch.toNat := by
  have hfields := congrArg (List.map fun x => x.1.epoch.toNat) (fields_create_json_log h prev rs)
  rw [List.map_map, List.map_map] at hfields
  exact hfields

theorem inHand_is_ready {t : Worker K β} (hpool : ∀ b ∈ t.pool_, Fresh b) : inHand (is_ready t).1 = inHand t := by
  unfold is_ready
  cases hcur : t.current_buffer_ with
  | some b => rfl
  | none =>
    cases hlast : t.pool_.getLast? with
    | none => rfl
    | some b =>
      have hfresh := (hpool b (List.mem_of_getLast? hlast)).records
      simp only [inHand, hcur, epochs, hfresh, List.map_nil]

section

variable {c : Config} {s s' : State K β D} {w u l : Nat} {t' : Worker K β}

/-- The buffers stay. -/
theorem HandStep.of_worker (hw : s'.workers w = t') (hlog : s'.loggers = s.loggers)
    (hlocal : (s.workers w).ThLocalEpoch ≤ t'.ThLocalEpoch) (hhand : inHand t' = inHand (s.workers w)) :
    HandStep c s s' w :=
  .keep (hw ▸ hlocal) (hw ▸ hhand) hlog

theorem handStep_publish (ht : Tidy s) {b : LogBuffer K β} {pc' : Pc} (hb : (s.workers w).current_buffer_ = some b) :
    HandStep c s (publish c s w (s.workers w) b pc') w := by
  unfold Durability.publish
  split
  · exact .of_worker (setWorker_self ..) rfl (Nat.le_refl _) rfl
  · rename_i hne
    have hfull : Full b := by
      rcases ht.buffer w b hb with hf | hf
      · exact absurd (by simp [LogBuffer.empty, hf.nids]) hne
      · exact hf
    refine .publish b hb hfull ?_ ?_ rfl
    · rw [setWorker_self]
    · rw [setWorker_self]
      rfl

theorem handStep_tickEpoch (h : EpochsOk s) (ht : Tidy s)
    (hs : tickEpoch c s w (s.workers w) (s.workers w).pc = some s') : HandStep c s s' w := by
  have hpc' := (h.workers w).pc
  cases epochTicks_of_tickEpoch hs with
  | publish hpc hb => exact handStep_publish ht hb
  | noBuffer hpc hn => exact .of_worker rfl rfl (Nat.le_refl _) rfl
  | storeLocalEpoch hpc =>
    simp only [PcEpoch, hpc] at hpc'
    exact .of_worker (setWorker_self ..) rfl hpc'.2.1 rfl
  | ready hpc hready =>
    refine .of_worker (setWorker_self ..) rfl ?_ ?_
    · split
      · exact (is_ready_ThLocalEpoch _).ge
      · exact (is_ready_ThLocalEpoch _).ge
    · split
      · exact inHand_is_ready (ht.pool w)
      · exact inHand_is_ready (ht.pool w)
  | _ => exact .of_worker (setWorker_self ..) rfl (Nat.le_refl _) rfl

theorem handStep_tickCommit (h : EpochsOk s) (ht : Tidy s)
    (hs : tickCommit c s w (s.workers w) (s.workers w).pc = some s') : HandStep c s s' w := by
  have hpc' := (h.workers w).pc
  cases commitTicks_of_tickCommit hs with
  | noBuffer hpc hn => exact .of_worker rfl rfl (Nat.le_refl _) rfl
  | waiting hpc hn => exact .of_worker rfl rfl (Nat.le_refl _) rfl
  | pushFull hpc hb hfull => exact handStep_publish ht hb
  | validationStore hpc =>
    simp only [PcEpoch, hpc] at hpc'
    exact .of_worker (setWorker_self ..) rfl hpc'.2.1 rfl
  | @pushed tid _ b hpc hb =>
    simp only [PcEpoch, hpc] at hpc'
    refine .push (s.workers w).write_set_.length ?_ ?_ rfl
    · exact (congrArg Worker.ThLocalEpoch (setWorker_self s w _)).trans (is_ready_ThLocalEpoch _)
    · have hhand := inHand_is_ready (ht.pool w)
      simp only [inHand, hb] at hhand
      refine (congrArg inHand (setWorker_self s w _)).trans ?_
      simp only [inHand, epochs_push, hhand, hpc'.1]
  | _ => exact .of_worker (setWorker_self ..) rfl (Nat.le_refl _) rfl

theorem handStep_work (h : EpochsOk s) (ht : Tidy s) {op : Op K β} (hs : work c s w op = some s') :
    HandStep c s s' w := by
  cases works_of_work hs with
  | tickEpoch hs => exact handStep_tickEpoch h ht hs
  | tickCommit hs => exact handStep_tickCommit h ht hs
  | _ => exact .of_worker (setWorker_self ..) rfl (Nat.le_refl _) rfl

/-- A buffer that holds no epoch before those of the queue goes to its end. -/
theorem enq_eq_append {b : LogBuffer K β} {q : List (LogBuffer K β)} (hq : ∀ x ∈ q, x.min_epoch_ ≤ b.min_epoch_) :
    enq b q = q ++ [b] := by
  induction q with
  | nil => rfl
  | cons x q ih =>
    rw [enq, if_neg (Nat.not_lt.mpr (hq x List.mem_cons_self)), ih fun y hy => hq y (List.mem_cons_of_mem _ hy)]
    rfl

theorem Full.min_epoch_mem {b : LogBuffer K β} (hb : Full b) : b.min_epoch_ ∈ epochs b := by
  obtain ⟨e, he⟩ := hb
  obtain ⟨r, hr⟩ := List.exists_mem_of_ne_nil _ he.nonempty
  exact List.mem_map.mpr ⟨r, hr, (he.records r hr).trans he.min.symm⟩

/-- The current buffer is published behind what is in the queue. -/
theorem EpochOrder.enq_queue (h : EpochOrder s l w) (ht : Tidy s) {b : LogBuffer K β}
    (hb : (s.workers w).current_buffer_ = some b) (hfull : Full b) :
    enq b (s.loggers l).queue_ = (s.loggers l).queue_ ++ [b] := by
  refine enq_eq_append ?_
  intro x hx
  have hhand : inHand (s.workers w) = epochs b := by
    unfold inHand
    rw [hb]
  have hsorted := (List.pairwise_append.mp (List.pairwise_append.mp h.sorted).2.1).2.1
  rw [hhand] at hsorted
  exact (List.pairwise_append.mp hsorted).2.2 _ (List.mem_flatMap.mpr ⟨x, hx, (ht.queue l x hx).min_epoch_mem⟩) _
    hfull.min_epoch_mem

theorem stream_congr (hfile : (s'.loggers l).logfile_ = (s.loggers l).logfile_)
    (hpc : unwritten (s'.loggers l).pc = unwritten (s.loggers l).pc)
    (hqueue : (s'.loggers l).queue_ = (s.loggers l).queue_) (hhand : inHand (s'.workers w) = inHand (s.workers w)) :
    stream s' l w = stream s l w := by
  unfold stream
  rw [hfile, hpc, hqueue, hhand]

theorem EpochOrder.of_stream (h : EpochOrder s l w) (hlocal : (s.workers w).ThLocalEpoch ≤ (s'.workers w).ThLocalEpoch)
    (hstream : (stream s' l w).Sublist (stream s l w)) : EpochOrder s' l w where
  sorted := h.sorted.sublist hstream
  bound e he := (h.bound e (hstream.subset he)).trans hlocal

/-- Step lemma: the worker itself. -/
theorem EpochOrder.handStep (h : EpochOrder s l w) (ht : Tidy s) (hstep : HandStep c s s' w) : EpochOrder s' l w := by
  cases hstep with
  | keep hlocal hhand hlog =>
    have hstream : stream s' l w = stream s l w :=
      stream_congr (by rw [hlog]) (by rw [hlog]) (by rw [hlog]) hhand
    exact h.of_stream hlocal (hstream ▸ List.Sublist.refl _)
  | push n hlocal hhand hlog =>
    have hstream : stream s' l w = stream s l w ++ List.replicate n (s.workers w).ThLocalEpoch := by
      unfold stream
      rw [hlog, hhand]
      simp only [List.append_assoc]
    have hnew : ∀ e ∈ List.replicate n (s.workers w).ThLocalEpoch, e = (s.workers w).ThLocalEpoch :=
      fun e he => List.eq_of_mem_replicate he
    constructor
    · rw [hstream]
      refine List.pairwise_append.mpr ⟨h.sorted, List.pairwise_replicate.mpr (Or.inr (Nat.le_refl _)), ?_⟩
      intro e he e' he'
      rw [hnew e' he']
      exact h.bound e he
    · intro e he
      rw [hstream] at he
      rw [hlocal]
      rcases List.mem_append.mp he with he | he
      · exact h.bound e he
      · exact (hnew e he).le
  | publish b hb hfull hlocal hhand hlog =>
    refine h.of_stream hlocal.ge ?_
    by_cases hl : c.logger_thid_ w = l
    · subst hl
      have hqueue : (s'.loggers (c.logger_thid_ w)).queue_ = (s.loggers (c.logger_thid_ w)).queue_ ++ [b] := by
        rw [hlog, setLogger_self]
        exact h.enq_queue ht hb hfull
      have hfile : (s'.loggers (c.logger_thid_ w)).logfile_ = (s.loggers (c.logger_thid_ w)).logfile_ ∧
          (s'.loggers (c.logger_thid_ w)).pc = (s.loggers (c.logger_thid_ w)).pc := by
        rw [hlog, setLogger_self]
        exact ⟨rfl, rfl⟩
      have hold : inHand (s.workers w) = epochs b := by
        unfold inHand
        rw [hb]
      unfold stream
      rw [hfile.1, hfile.2, hqueue, hhand, hold, List.flatMap_append, List.flatMap_singleton, List.append_nil]
    · have hother : s'.loggers l = s.loggers l := by
        rw [hlog]
        exact setLogger_other _ _ _ (Ne.symm hl)
      unfold stream
      simp only [hother, hhand, List.append_nil, ← List.append_assoc]
      exact List.sublist_append_left _ _

/-- Another worker does not write to the logger. -/
theorem EpochOrder.other (h : EpochOrder s l w) (hown : c.logger_thid_ u ≠ l) (huw : u ≠ w)
    (hothers : ∀ v, v ≠ u → s'.workers v = s.workers v) (hstep : HandStep c s s' u) : EpochOrder s' l w := by
  have hw : s'.workers w = s.workers w := hothers w (Ne.symm huw)
  have hl : s'.loggers l = s.loggers l := by
    cases hstep with
    | keep _ _ hlog => rw [hlog]
    | push _ _ _ hlog => rw [hlog]
    | publish _ _ _ _ _ hlog =>
      rw [hlog]
      exact setLogger_other _ _ _ (Ne.symm hown)
  have hstream : stream s' l w = stream s l w :=
    stream_congr (by rw [hl]) (by rw [hl]) (by rw [hl]) (by rw [hw])
  exact h.of_stream (by rw [hw]) (hstream ▸ List.Sublist.refl _)

/-- Step lemma: the logger takes what is on the way and writes it in its order. -/
theorem EpochOrder.log {h : Hash K β D} (ho : EpochOrder s l w) (ht : Tidy s) {m : Nat}
    (hs : log c h s m = some s') : EpochOrder s' l w := by
  have hset : ∀ g : Logger K β D, (m = l → g.logfile_.flatMap docEpochs ++ ((unwritten g.pc).flatMap epochs ++
      g.queue_.flatMap epochs) = (s.loggers l).logfile_.flatMap docEpochs ++
        ((unwritten (s.loggers l).pc).flatMap epochs ++ (s.loggers l).queue_.flatMap epochs)) →
      stream (s.setLogger m g) l w = stream s l w := by
    intro g hg
    by_cases hm : m = l
    · subst hm
      unfold stream
      rw [setLogger_self, ← List.append_assoc ((unwritten g.pc).flatMap epochs), ← List.append_assoc, hg rfl]
      simp only [setLogger_workers, List.append_assoc]
    · exact stream_congr (by rw [setLogger_other _ _ _ (Ne.symm hm)]) (by rw [setLogger_other _ _ _ (Ne.symm hm)])
        (by rw [setLogger_other _ _ _ (Ne.symm hm)]) rfl
  have hkeep : ∀ g : Logger K β D, (m = l → g.logfile_.flatMap docEpochs ++ ((unwritten g.pc).flatMap epochs ++
      g.queue_.flatMap epochs) = (s.loggers l).logfile_.flatMap docEpochs ++
        ((unwritten (s.loggers l).pc).flatMap epochs ++ (s.loggers l).queue_.flatMap epochs)) →
      EpochOrder (s.setLogger m g) l w := by
    intro g hg
    refine ho.of_stream (Nat.le_refl _) ?_
    rw [hset g hg]
  have hheld := ht.held m
  cases logs_of_log hs with
  | deq hpc =>
    refine hkeep _ ?_
    rintro rfl
    simp only [hpc, unwritten, List.flatMap_nil, List.append_nil, List.nil_append]
  | @logEmpty _ b rest hpc hempty =>
    rw [hpc] at hheld
    obtain ⟨e, hb⟩ := hheld b List.mem_cons_self
    exact absurd (List.length_eq_zero_iff.mp hempty) hb.nonempty
  | @writeLog _ b rest hpc =>
    refine hkeep _ ?_
    rintro rfl
    simp only [hpc, unwritten, List.flatMap_append, List.flatMap_nil, docEpochs_create_json_log, List.tail_cons,
      List.flatMap_cons, List.append_assoc, List.nil_append, epochs]
  | writeTail hpc =>
    refine hkeep _ ?_
    rintro rfl
    simp only [hpc, unwritten]
  | @returnBuffer e b rest hpc =>
    have hlog : EpochOrder (s.setLogger m ((s.loggers m).goto (.writeLog e rest))) l w := by
      refine hkeep _ ?_
      rintro rfl
      simp only [hpc, unwritten, Logger.goto, List.tail_cons]
    have hworker : ∀ v, inHand ((State.returnBuffer (s.setLogger m ((s.loggers m).goto (.writeLog e rest))) b).workers v) =
        inHand (s.workers v) ∧
        ((State.returnBuffer (s.setLogger m ((s.loggers m).goto (.writeLog e rest))) b).workers v).ThLocalEpoch =
        (s.workers v).ThLocalEpoch := by
      intro v
      by_cases hv : v = b.pool_
      · subst hv
        unfold State.returnBuffer
        rw [setWorker_self]
        exact ⟨rfl, rfl⟩
      · unfold State.returnBuffer
        rw [setWorker_other _ _ _ hv]
        exact ⟨rfl, rfl⟩
    have hstream : stream (State.returnBuffer (s.setLogger m ((s.loggers m).goto (.writeLog e rest))) b) l w =
        stream (s.setLogger m ((s.loggers m).goto (.writeLog e rest))) l w :=
      stream_congr rfl rfl rfl (hworker w).1
    exact hlog.of_stream (hworker w).2.ge (hstream ▸ List.Sublist.refl _)
  | @casDurable nd md _ hpc =>
    have hgoto : EpochOrder (s.setLogger m ((s.loggers m).goto (.writeEpoch nd md))) l w := by
      refine hkeep _ ?_
      rintro rfl
      simp only [hpc, unwritten, Logger.goto]
    exact ⟨hgoto.sorted, hgoto.bound⟩
  | @writeEpoch nd _ hpc =>
    have hgoto : EpochOrder (s.setLogger m ((s.loggers m).goto (.storeDurable nd))) l w := by
      refine hkeep _ ?_
      rintro rfl
      simp only [hpc, unwritten, Logger.goto]
    exact ⟨hgoto.sorted, hgoto.bound⟩
  | _ hpc =>
    refine hkeep _ ?_
    rintro rfl
    simp only [hpc, unwritten, Logger.goto]

end

end Cassa.SiloCC.Durability

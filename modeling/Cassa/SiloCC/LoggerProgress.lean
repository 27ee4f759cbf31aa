import Cassa.SiloCC.OneEpoch

/-!
# The progress of a logger

A logger raises its durable epoch by its own steps once all its workers have stored a later epoch
in `CTIDW` and no older record is left in its queue. It takes one worker: for a logger without any,
`find_min_epoch` finds no epoch.
-/

namespace Cassa.SiloCC.Durability

open Cassa.Lib.Runs

variable {K β D : Type} {c : Config} {h : Hash K β D} {s t u : State K β D} {l : Nat}

/-- Steps of logger `l` lead from `s` to `t`. -/
def Leads (c : Config) (h : Hash K β D) (l : Nat) (s t : State K β D) : Prop :=
  ∃ n, exec (step c h) s (List.replicate n (.log l)) = some t

theorem Leads.refl (s : State K β D) : Leads c h l s s := ⟨0, rfl⟩

/-- The logger runs, and stands at `pc` with the durable epoch `d`. -/
structure At (s : State K β D) (l : Nat) (pc : LPc K β) (d : Nat) : Prop where
  running : s.halted = false
  pc : (s.loggers l).pc = pc
  durable : (s.loggers l).ThLocalDurableEpoch = d

theorem Leads.step (hl : l < c.num_logger_threads) (hrun : s.halted = false) (hlog : log c h s l = some t)
    (htail : Leads c h l t u) : Leads c h l s u := by
  obtain ⟨n, hn⟩ := htail
  refine ⟨n + 1, ?_⟩
  rw [List.replicate_succ, exec]
  have hstep : Durability.step c h s (.log l) = some t := by
    rw [Durability.step, hrun, if_neg Bool.false_ne_true]
    exact (if_pos hl).trans hlog
  rw [hstep, Option.bind_some]
  exact hn

theorem Leads.trans (hst : Leads c h l s t) (htu : Leads c h l t u) : Leads c h l s u := by
  obtain ⟨n, hn⟩ := hst
  obtain ⟨m, hm⟩ := htu
  refine ⟨n + m, ?_⟩
  rw [List.replicate_add, exec_append, hn, Option.bind_some]
  exact hm

/-- A step that moves the logger and leaves everything else as it is. -/
theorem at_goto {pc : LPc K β} {d : Nat} (pc' : LPc K β) (hs : At s l pc d) :
    At (s.setLogger l ((s.loggers l).goto pc')) l pc' d where
  running := hs.running
  pc := by
    rw [setLogger_self]
    rfl
  durable := by
    rw [setLogger_self]
    exact hs.durable

/-- An epoch above `d + 1`. -/
structure Later (d : Nat) (word : TIDword) : Prop where
  epoch : d + 1 < word.epoch.toNat
  lock : word.lock = false

theorem Later.lt_ones {d : Nat} {word : TIDword} (hw : Later d word) : word.obj_ < ones.obj_ := by
  have hle := word.epoch.isLt
  have := word.TID.isLt
  have hflags : word.flags ≤ 6 := by
    rw [TIDword.flags, hw.lock]
    have := Bool.toNat_le word.latest
    have := Bool.toNat_le word.absent
    simp only [Bool.toNat_false]
    omega
  have hones : ones.obj_ = 2 ^ 64 - 1 := by decide
  rw [hones, TIDword.obj_eq, TIDword.ver]
  omega

theorem Later.pos {d : Nat} {word : TIDword} (hw : Later d word) : 0 < word.obj_ := by
  have := hw.epoch
  rw [TIDword.obj_eq, TIDword.ver]
  omega

/-- A word of a worker is taken for the first minimum. -/
theorem later_minCtid {d : Nat} {m word : TIDword} (hw : Later d word) (hm : m = ones ∨ Later d m) :
    Later d (minCtid m word) := by
  unfold minCtid
  split
  · exact hw
  · rename_i hnot
    rcases hm with rfl | hm
    · exact absurd ⟨hw.pos, hw.lt_ones⟩ hnot
    · exact hm

theorem later_minEpoch {d q : Nat} {m : TIDword} (hm : Later d m) (hq : d + 1 < q) :
    d + 1 < minEpoch m q ∧ minEpoch m q < 2 ^ 32 := by
  have hlt := m.epoch.isLt
  have hepoch := hm.epoch
  have hne : ¬ (m.epoch = 0 ∨ m = ones) := by
    rintro (h0 | h1)
    · rw [h0] at hepoch
      exact absurd hepoch (Nat.not_lt_zero _)
    · have := hm.lock
      rw [h1] at this
      cases this
  rw [minEpoch, if_neg hne]
  split <;> omega

/-- The loop over the workers, from element `i` on. -/
theorem leads_findMin (hl : l < c.num_logger_threads) {logging : Bool} {d : Nat} :
    ∀ (k i : Nat) {m : TIDword} {s : State K β D}, i + k = (c.thid_vec_ l).length → At s l (.findMin logging i m) d →
      (∀ w ∈ c.thid_vec_ l, Later d (s.workers w).CTIDW) → (if i = 0 then m = ones else Later d m) →
      c.thid_vec_ l ≠ [] → ∃ m' t, Leads c h l s t ∧ At t l (.queueMin logging m') d ∧ Later d m' ∧
        (t.loggers l).queue_ = (s.loggers l).queue_ := by
  intro k
  induction k with
  | zero =>
    intro i m s hi hs hwords hm hne
    have hend : (c.thid_vec_ l)[i]? = none := List.getElem?_eq_none (by omega)
    have hlog : log c h s l = some (s.setLogger l ((s.loggers l).goto (.queueMin logging m))) := by
      simp only [log, hs.pc, hend]
    have hpos := List.length_pos_of_ne_nil hne
    rw [if_neg (by omega)] at hm
    refine ⟨m, _, Leads.step hl hs.running hlog (Leads.refl _), at_goto _ hs, hm, ?_⟩
    rw [setLogger_self]
    rfl
  | succ k ih =>
    intro i m s hi hs hwords hm hne
    have hlt : i < (c.thid_vec_ l).length := by omega
    have hget : (c.thid_vec_ l)[i]? = some (c.thid_vec_ l)[i] := List.getElem?_eq_getElem hlt
    have hlog : log c h s l = some (s.setLogger l ((s.loggers l).goto (.findMin logging (i + 1)
        (minCtid m (s.workers (c.thid_vec_ l)[i]).CTIDW)))) := by
      simp only [log, hs.pc, hget]
    have hlater : Later d (minCtid m (s.workers (c.thid_vec_ l)[i]).CTIDW) := by
      refine later_minCtid (hwords _ (List.getElem_mem hlt)) ?_
      split at hm
      · exact Or.inl hm
      · exact Or.inr hm
    obtain ⟨m', t, hleads, ht, hm', hqueue⟩ :=
      ih (i + 1) (by omega) (at_goto _ hs) hwords (by rw [if_neg (Nat.succ_ne_zero i)]; exact hlater) hne
    refine ⟨m', t, Leads.step hl hs.running hlog hleads, ht, hm', ?_⟩
    rw [hqueue, setLogger_self]
    rfl

/-- The buffers that were dequeued are written. -/
theorem leads_write (hl : l < c.num_logger_threads) {d min_epoch : Nat} :
    ∀ (rest : List (LogBuffer K β)) {s : State K β D}, At s l (.writeLog min_epoch rest) d →
      ∃ t, Leads c h l s t ∧ At t l (.sendNid min_epoch) d := by
  intro rest
  induction rest with
  | nil =>
    intro s hs
    have hlog : log c h s l = some (s.setLogger l ((s.loggers l).goto (.sendNid min_epoch))) := by
      simp only [log, hs.pc]
    exact ⟨_, Leads.step hl hs.running hlog (Leads.refl _), at_goto _ hs⟩
  | cons b rest ih =>
    -- behind both branches the buffer is given back
    have hback : ∀ {s : State K β D}, At s l (.returnBuffer min_epoch (b :: rest)) d →
        ∃ t, Leads c h l s t ∧ At t l (.sendNid min_epoch) d := by
      intro s hs
      have hlog : log c h s l =
          some ((s.setLogger l ((s.loggers l).goto (.writeLog min_epoch rest))).returnBuffer b) := by
        simp only [log, hs.pc]
      have hnext := at_goto (.writeLog min_epoch rest) hs
      obtain ⟨t, hleads, ht⟩ := ih
        (s := (s.setLogger l ((s.loggers l).goto (.writeLog min_epoch rest))).returnBuffer b)
        ⟨hnext.running, hnext.pc, hnext.durable⟩
      exact ⟨t, Leads.step hl hs.running hlog hleads, ht⟩
    intro s hs
    by_cases hempty : b.log_set_size_ = 0
    · have hlog : log c h s l = some (s.setLogger l { s.loggers l with
          prev_epoch_hash_ := h.emptyString, pc := .returnBuffer min_epoch (b :: rest) }) := by
        simp only [log, hs.pc, if_pos hempty]
      obtain ⟨t, hleads, ht⟩ := hback (s := s.setLogger l { s.loggers l with
          prev_epoch_hash_ := h.emptyString, pc := .returnBuffer min_epoch (b :: rest) })
        ⟨hs.running, by rw [setLogger_self], by rw [setLogger_self]; exact hs.durable⟩
      exact ⟨t, Leads.step hl hs.running hlog hleads, ht⟩
    · set s₁ := s.setLogger l { s.loggers l with
        logfile_ := (s.loggers l).logfile_ ++ [create_json_log h (s.loggers l).prev_epoch_hash_ b.log_set_]
        pc := .writeTail min_epoch (b :: rest) } with hs₁
      have hlog : log c h s l = some s₁ := by
        simp only [log, hs.pc, if_neg hempty]
        rfl
      have hat : At s₁ l (.writeTail min_epoch (b :: rest)) d :=
        ⟨hs.running, by rw [hs₁, setLogger_self], by rw [hs₁, setLogger_self]; exact hs.durable⟩
      have hlog₁ : log c h s₁ l = some (s₁.setLogger l { s₁.loggers l with
          tailLogHash := some (currentEpochHash h b.log_set_)
          prev_epoch_hash_ := currentEpochHash h b.log_set_
          pc := .returnBuffer min_epoch (b :: rest) }) := by
        simp only [log, hat.pc]
      obtain ⟨t, hleads, ht⟩ := hback (s := s₁.setLogger l { s₁.loggers l with
          tailLogHash := some (currentEpochHash h b.log_set_)
          prev_epoch_hash_ := currentEpochHash h b.log_set_
          pc := .returnBuffer min_epoch (b :: rest) })
        ⟨hat.running, by rw [setLogger_self], by rw [setLogger_self]; exact hat.durable⟩
      exact ⟨t, Leads.step hl hs.running hlog (Leads.step hl hat.running hlog₁ hleads), ht⟩

/-- The loop of `check_durable` over the loggers, from logger `i` on. -/
theorem leads_checkDurable (hl : l < c.num_logger_threads) {d new_dl : Nat} :
    ∀ (k i : Nat) {min_dl : Nat} {s : State K β D}, c.num_logger_threads ≤ i + k →
      At s l (.checkDurable new_dl i min_dl) d → ∃ min_dl' t, Leads c h l s t ∧ At t l (.loadDurable new_dl min_dl') d := by
  have hexit : ∀ {i min_dl : Nat} {s : State K β D}, c.num_logger_threads ≤ i →
      At s l (.checkDurable new_dl i min_dl) d → ∃ min_dl' t, Leads c h l s t ∧ At t l (.loadDurable new_dl min_dl') d := by
    intro i min_dl s hi hs
    have hlog : log c h s l = some (s.setLogger l ((s.loggers l).goto (.loadDurable new_dl min_dl))) := by
      simp only [log, hs.pc, if_pos hi]
    exact ⟨min_dl, _, Leads.step hl hs.running hlog (Leads.refl _), at_goto _ hs⟩
  intro k
  induction k with
  | zero => exact fun i _ _ hi hs => hexit hi hs
  | succ k ih =>
    intro i min_dl s hi hs
    by_cases hend : c.num_logger_threads ≤ i
    · exact hexit hend hs
    · have hlog : log c h s l = some (s.setLogger l ((s.loggers l).goto (.checkDurable new_dl (i + 1)
          (if (s.loggers i).ThLocalDurableEpoch < min_dl then (s.loggers i).ThLocalDurableEpoch else min_dl)))) := by
        simp only [log, hs.pc, if_neg hend]
      obtain ⟨min_dl', t, hleads, ht⟩ := ih (i + 1) (by omega) (at_goto _ hs)
      exact ⟨min_dl', t, Leads.step hl hs.running hlog hleads, ht⟩

theorem leads_store (hl : l < c.num_logger_threads) {d new_dl : Nat} (hs : At s l (.storeDurable new_dl) d) :
    ∃ t, Leads c h l s t ∧ At t l .waitDeq new_dl := by
  have hlog : log c h s l = some (s.setLogger l { s.loggers l with ThLocalDurableEpoch := new_dl, pc := .waitDeq }) := by
    simp only [log, hs.pc]
  exact ⟨_, Leads.step hl hs.running hlog (Leads.refl _), hs.running, by rw [setLogger_self], by rw [setLogger_self]⟩

theorem leads_loadDurable (hl : l < c.num_logger_threads) {d new_dl min_dl : Nat}
    (hs : At s l (.loadDurable new_dl min_dl) d) : ∃ t, Leads c h l s t ∧ At t l .waitDeq new_dl := by
  by_cases hlow : s.DurableEpoch < min_dl
  · have hlog : log c h s l =
        some (s.setLogger l ((s.loggers l).goto (.casDurable new_dl min_dl s.DurableEpoch))) := by
      simp only [log, hs.pc, if_pos hlow]
    set s₁ := s.setLogger l ((s.loggers l).goto (.casDurable new_dl min_dl s.DurableEpoch)) with hs₁
    have hat₁ : At s₁ l (.casDurable new_dl min_dl s.DurableEpoch) d := at_goto _ hs
    set s₂ : State K β D := { s₁.setLogger l ((s₁.loggers l).goto (.writeEpoch new_dl min_dl)) with
      DurableEpoch := min_dl } with hs₂
    have hlog₁ : log c h s₁ l = some s₂ := by
      have hsame : s₁.DurableEpoch = s.DurableEpoch := rfl
      simp only [log, hat₁.pc, hsame, if_true]
      rfl
    have hgoto := at_goto (.writeEpoch new_dl min_dl) hat₁
    have hat₂ : At s₂ l (.writeEpoch new_dl min_dl) d := ⟨hgoto.running, hgoto.pc, hgoto.durable⟩
    set s₃ : State K β D := { s₂.setLogger l ((s₂.loggers l).goto (.storeDurable new_dl)) with
      pepoch := some min_dl } with hs₃
    have hlog₂ : log c h s₂ l = some s₃ := by
      simp only [log, hat₂.pc]
      rfl
    have hgoto' := at_goto (.storeDurable new_dl) hat₂
    obtain ⟨t, hleads, ht⟩ := leads_store (c := c) (h := h) (s := s₃) hl ⟨hgoto'.running, hgoto'.pc, hgoto'.durable⟩
    exact ⟨t, .step hl hs.running hlog (.step hl hat₁.running hlog₁ (.step hl hat₂.running hlog₂ hleads)), ht⟩
  · have hlog : log c h s l = some (s.setLogger l ((s.loggers l).goto (.storeDurable new_dl))) := by
      simp only [log, hs.pc, if_neg hlow]
    obtain ⟨t, hleads, ht⟩ := leads_store (c := c) (h := h) hl (at_goto (.storeDurable new_dl) hs)
    exact ⟨t, .step hl hs.running hlog hleads, ht⟩

/-- A later epoch is made durable. -/
theorem leads_sendNid (hl : l < c.num_logger_threads) {d min_epoch : Nat} (hlow : d + 1 < min_epoch)
    (hhigh : min_epoch < 2 ^ 32) (hs : At s l (.sendNid min_epoch) d) :
    ∃ t, Leads c h l s t ∧ At t l .waitDeq (min_epoch - 1) := by
  have hno : ¬ (min_epoch = 0 ∨ min_epoch = LogBuffer.noEpoch) := by
    unfold LogBuffer.noEpoch
    omega
  have hlog : log c h s l = some (s.setLogger l ((s.loggers l).goto (.checkFirst (min_epoch - 1)))) := by
    simp only [log, hs.pc, if_neg hno, hs.durable, if_pos (by omega : d < min_epoch - 1)]
  set s₁ := s.setLogger l ((s.loggers l).goto (.checkFirst (min_epoch - 1))) with hs₁
  have hat₁ : At s₁ l (.checkFirst (min_epoch - 1)) d := at_goto _ hs
  have hlog₁ : log c h s₁ l = some (s₁.setLogger l ((s₁.loggers l).goto
      (.checkDurable (min_epoch - 1) 1 (s₁.loggers 0).ThLocalDurableEpoch))) := by
    simp only [log, hat₁.pc]
  obtain ⟨min_dl, s₂, hcheck, hat₂⟩ := leads_checkDurable (h := h) hl c.num_logger_threads 1
    (Nat.le_add_left _ 1) (at_goto (.checkDurable (min_epoch - 1) 1 (s₁.loggers 0).ThLocalDurableEpoch) hat₁)
  obtain ⟨t, hload, ht⟩ := leads_loadDurable (h := h) hl hat₂
  exact ⟨t, .step hl hs.running hlog (.step hl hat₁.running hlog₁ (hcheck.trans hload)), ht⟩

/-- The workers of a waiting logger and its queue have left the durable epoch behind. -/
structure ReadyToAdvance (c : Config) (s : State K β D) (l : Nat) : Prop where
  running : s.halted = false
  waiting : (s.loggers l).pc = .waitDeq
  words : ∀ w ∈ c.thid_vec_ l, Later (s.loggers l).ThLocalDurableEpoch (s.workers w).CTIDW
  queue : (s.loggers l).ThLocalDurableEpoch + 1 < queueMinEpoch (s.loggers l).queue_

/-- With a worker to look at, the logger raises its durable epoch. -/
theorem logger_advances (hl : l < c.num_logger_threads) (hworker : c.thid_vec_ l ≠ []) (hready : ReadyToAdvance c s l) :
    ∃ t, Leads c h l s t ∧ (s.loggers l).ThLocalDurableEpoch < (t.loggers l).ThLocalDurableEpoch := by
  set d := (s.loggers l).ThLocalDurableEpoch with hd
  have hs : At s l .waitDeq d := ⟨hready.running, hready.waiting, rfl⟩
  set logging := !(s.loggers l).queue_.isEmpty with hlogging
  have hlog : log c h s l = some (s.setLogger l ((s.loggers l).goto (.findMin logging 0 ones))) := by
    simp only [log, hs.pc, hlogging]
  obtain ⟨m, s₁, hfind, hat₁, hlater, hqueue⟩ := leads_findMin (h := h) hl (c.thid_vec_ l).length 0
    (Nat.zero_add _) (at_goto (.findMin logging 0 ones) hs) hready.words rfl hworker
  have hqueue₁ : (s₁.loggers l).queue_ = (s.loggers l).queue_ := by
    rw [hqueue, setLogger_self]
    rfl
  obtain ⟨hlow, hhigh⟩ := later_minEpoch hlater (hqueue₁ ▸ hready.queue)
  set min_epoch := minEpoch m (queueMinEpoch (s₁.loggers l).queue_) with hmin
  have hsend : ∃ s₂, Leads c h l s₁ s₂ ∧ At s₂ l (.sendNid min_epoch) d := by
    cases hlg : logging with
    | false =>
      rw [hlg] at hat₁
      have hlog₁ : log c h s₁ l = some (s₁.setLogger l ((s₁.loggers l).goto (.sendNid min_epoch))) := by
        simp only [log, hat₁.pc, if_neg Bool.false_ne_true, hmin]
      exact ⟨_, .step hl hat₁.running hlog₁ (.refl _), at_goto _ hat₁⟩
    | true =>
      rw [hlg] at hat₁
      have hlog₁ : log c h s₁ l = some (s₁.setLogger l ((s₁.loggers l).goto (.deq min_epoch))) := by
        simp only [log, hat₁.pc, if_true, ← hmin, if_neg (by omega : ¬ min_epoch = 0)]
      set s₂ := s₁.setLogger l ((s₁.loggers l).goto (.deq min_epoch)) with hs₂
      have hat₂ : At s₂ l (.deq min_epoch) d := at_goto _ hat₁
      have hlog₂ : log c h s₂ l = some (s₂.setLogger l { s₂.loggers l with
          queue_ := [], pc := .writeLog min_epoch (s₂.loggers l).queue_ }) := by
        simp only [log, hat₂.pc]
      obtain ⟨t, hwrite, ht⟩ := leads_write (c := c) (h := h) (d := d) hl (s₂.loggers l).queue_
        (s := s₂.setLogger l { s₂.loggers l with queue_ := [], pc := .writeLog min_epoch (s₂.loggers l).queue_ })
        ⟨hat₂.running, by rw [setLogger_self], by rw [setLogger_self]; exact hat₂.durable⟩
      exact ⟨t, .step hl hat₁.running hlog₁ (.step hl hat₂.running hlog₂ hwrite), ht⟩
  obtain ⟨s₂, hsteps, hat₂⟩ := hsend
  obtain ⟨t, hnid, ht⟩ := leads_sendNid (h := h) hl hlow hhigh hat₂
  refine ⟨t, .step hl hs.running hlog (hfind.trans (hsteps.trans hnid)), ?_⟩
  rw [ht.durable]
  omega

end Cassa.SiloCC.Durability

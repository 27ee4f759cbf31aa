import Cassa.SiloCC.Notifier

/-!
# What has been notified is persisted

`check_durable` raises `DurableEpoch` with a compare-and-swap and then writes the epoch to
`pepoch.seal`. Between the two, another logger can find the new `DurableEpoch` and notify
its clients, or swap in and write a later epoch that the first write then takes back. As
long as no logger swaps or notifies inside that window of another one, and no swap is lost
to a smaller epoch, the file covers every notification and never goes back.
-/

namespace Cassa.SiloCC.Durability

open Cassa.Lib.Runs

variable {K β D : Type}

/-- Between the successful swap and the write. -/
def LPc.isWrite : LPc K β → Bool
  | .writeEpoch _ _ => true
  | _ => false

/-- No logger other than `l` is between its swap and its write. -/
def NoneWriting (c : Config) (s : State K β D) (l : Nat) : Prop :=
  ∀ m < c.num_logger_threads, m ≠ l → (s.loggers m).pc.isWrite = false

instance (c : Config) (s : State K β D) (l : Nat) : Decidable (NoneWriting c s l) :=
  inferInstanceAs (Decidable (∀ m < c.num_logger_threads, m ≠ l → (s.loggers m).pc.isWrite = false))

/-- A swap succeeds, or a notification has something to send, only while no other logger is
between its swap and its write; and a swap fails only if the epoch that it finds is at least
its own. -/
def OneWriter (c : Config) (s : NotifierState K β D) : NotifierAction K β → Prop
  | .act (.log l) =>
    match (s.base.loggers l).pc with
    | .casDurable _ min_dl dl =>
      if s.base.DurableEpoch = dl then NoneWriting c s.base l else min_dl ≤ s.base.DurableEpoch
    | _ => True
  | .act _ => True
  | .notify l =>
    match s.min_dl l with
    | some d => ((s.nid_buffer_ l).make_durable d).2 = [] ∨ NoneWriting c s.base l
    | none => True

instance {D β K : Type} (c : Config) (s : NotifierState K β D) (a : NotifierAction K β) :
    Decidable (OneWriter c s a) := by
  unfold OneWriter
  split
  · split
    · infer_instance
    · infer_instance
  · infer_instance
  · split <;> infer_instance

namespace NidBuffer

/-- Every id lies in the item of the epoch under which it was stored. -/
def Filed (n : NidBuffer Nid) : Prop := ∀ it ∈ n.items, ∀ x ∈ it.buffer_, x.epoch = it.epoch_

theorem filed_mk {itr : NidBufferItem Nid} {next : List (NidBufferItem Nid)} :
    Filed ⟨itr, next⟩ ↔ (∀ x ∈ itr.buffer_, x.epoch = itr.epoch_) ∧
      ∀ it ∈ next, ∀ x ∈ it.buffer_, x.epoch = it.epoch_ :=
  List.forall_mem_cons

theorem filed_add {nids : List Nid} {epoch : Nat} (hnids : ∀ x ∈ nids, x.epoch = epoch)
    {itr : NidBufferItem Nid} {next : List (NidBufferItem Nid)} (h : Filed ⟨itr, next⟩)
    (he : itr.epoch_ = epoch) : Filed ⟨{ itr with buffer_ := itr.buffer_ ++ nids }, next⟩ := by
  obtain ⟨hfront, hnext⟩ := filed_mk.mp h
  refine filed_mk.mpr ⟨?_, hnext⟩
  intro x hx
  rcases List.mem_append.mp hx with hx | hx
  · exact hfront x hx
  · exact (hnids x hx).trans he.symm

theorem filed_storeFrom {nids : List Nid} {epoch : Nat} (hnids : ∀ x ∈ nids, x.epoch = epoch)
    {itr : NidBufferItem Nid} {next : List (NidBufferItem Nid)} (h : Filed ⟨itr, next⟩)
    {n : NidBuffer Nid} (hn : storeFrom nids epoch itr next = some n) : Filed n := by
  induction next generalizing itr n with
  | nil =>
    unfold storeFrom at hn
    split at hn
    · obtain rfl := Option.some.inj hn
      exact filed_mk.mpr ⟨(filed_mk.mp h).1, by simpa using hnids⟩
    split at hn
    · obtain rfl := Option.some.inj hn
      exact filed_add hnids h ‹_›
    · cases hn
  | cons next rest ih =>
    obtain ⟨hfront, hnext⟩ := filed_mk.mp h
    unfold storeFrom at hn
    split at hn
    · obtain ⟨n', hn', rfl⟩ := Option.map_eq_some_iff.mp hn
      exact filed_mk.mpr ⟨hfront, ih hnext hn'⟩
    split at hn
    · obtain rfl := Option.some.inj hn
      exact filed_add hnids h ‹_›
    · cases hn

theorem filed_notifyLoop {min_dl turns : Nat} {n : NidBuffer Nid} (h : Filed n) :
    Filed (notifyLoop min_dl turns n).1 ∧
      ∀ x ∈ (notifyLoop min_dl turns n).2, x.epoch ≤ min_dl := by
  induction turns generalizing n with
  | zero => exact ⟨h, by simp [notifyLoop]⟩
  | succ turns ih =>
    unfold notifyLoop
    split
    · rename_i hle
      have hfront : ∀ x ∈ n.front_.buffer_, x.epoch ≤ min_dl := by
        intro x hx
        rw [h n.front_ List.mem_cons_self x hx]
        exact hle
      split
      · refine ⟨?_, hfront⟩
        intro it hit x hx
        obtain rfl := List.mem_singleton.mp hit
        cases hx
      · rename_i next rest hnext
        have hrest : Filed ⟨next, rest ++ [⟨n.endEpoch + 1, []⟩]⟩ := by
          intro it hit x hx
          rw [items, ← List.cons_append, ← hnext, List.mem_append, List.mem_singleton] at hit
          rcases hit with hit | rfl
          · exact h it (List.mem_cons_of_mem _ hit) x hx
          · cases hx
        obtain ⟨hfiled, hsent⟩ := ih hrest
        refine ⟨hfiled, ?_⟩
        intro x hx
        rcases List.mem_append.mp hx with hx | hx
        · exact hfront x hx
        · exact hsent x hx
    · exact ⟨h, by simp⟩

theorem filed_make_durable {n : NidBuffer Nid} (h : Filed n) (min_dl : Nat) :
    Filed (n.make_durable min_dl).1 ∧ ∀ x ∈ (n.make_durable min_dl).2, x.epoch ≤ min_dl := by
  unfold make_durable
  split
  · exact ⟨h, by simp⟩
  · exact filed_notifyLoop h

end NidBuffer

theorem filed_pass_nid {n n' : NidBuffer Nid} {b : LogBuffer K β} (h : n.Filed)
    (hn : pass_nid n b = some n') : n'.Filed := by
  unfold pass_nid at hn
  split at hn
  · obtain rfl := Option.some.inj hn
    exact h
  · refine NidBuffer.filed_storeFrom ?_ h hn
    intro x hx
    obtain ⟨tid, -, rfl⟩ := List.mem_map.mp hx
    rfl

/-- The durable epochs and the control states of the loggers stay. -/
structure Quiet (s s' : State K β D) : Prop where
  durable : s'.DurableEpoch = s.DurableEpoch
  pepoch : s'.pepoch = s.pepoch
  pc : ∀ l, (s'.loggers l).pc = (s.loggers l).pc

section
variable {c : Config} {s s' : State K β D} {w l : Nat}

theorem Quiet.of_loggers (hd : s'.DurableEpoch = s.DurableEpoch) (hp : s'.pepoch = s.pepoch)
    (hl : s'.loggers = s.loggers) : Quiet s s' :=
  ⟨hd, hp, fun l => by rw [hl]⟩

theorem quiet_publish {t : Worker K β} {b : LogBuffer K β} {pc : Pc} :
    Quiet s (publish c s w t b pc) := by
  unfold publish
  split
  · exact .of_loggers rfl rfl rfl
  · refine ⟨rfl, rfl, fun l => ?_⟩
    by_cases hl : l = c.logger_thid_ w
    · subst hl
      simp
    · simp [setLogger_other _ _ _ hl]

theorem quiet_work {op : Op K β} (hs : work c s w op = some s') : Quiet s s' := by
  cases works_of_work hs with
  | tickEpoch hs =>
    cases epochTicks_of_tickEpoch hs with
    | publish => exact quiet_publish
    | _ => exact .of_loggers rfl rfl rfl
  | tickCommit hs =>
    cases commitTicks_of_tickCommit hs with
    | pushFull => exact quiet_publish
    | _ => exact .of_loggers rfl rfl rfl
  | _ => exact .of_loggers rfl rfl rfl

end

/-- Where `check_durable` stands with the epoch `d` that it has found. -/
def Found (durable : Nat) : LPc K β → Option Nat → Prop
  | .loadDurable _ min_dl, d => d = some min_dl
  | .casDurable _ min_dl dl, d => d = some min_dl ∧ dl < min_dl
  | .writeEpoch _ min_dl, d => d = some min_dl
  | .storeDurable _, d => ∀ x, d = some x → x ≤ durable
  | _, d => d = none

theorem Found.mono {durable durable' : Nat} (hle : durable ≤ durable') {pc : LPc K β} {d : Option Nat}
    (h : Found durable pc d) : Found durable' pc d := by
  cases pc with
  | storeDurable nd => exact fun x hx => (h x hx).trans hle
  | _ => exact h

structure PersistInv (c : Config) (s : NotifierState K β D) : Prop where
  filed : ∀ l, (s.nid_buffer_ l).Filed
  found : ∀ l, Found s.base.DurableEpoch (s.base.loggers l).pc (s.min_dl l)
  idle : ∀ l, c.num_logger_threads ≤ l → (s.base.loggers l).pc.isWrite = false
  writer : ∀ l nd md, (s.base.loggers l).pc = .writeEpoch nd md → md = s.base.DurableEpoch ∧
    ∀ m, m ≠ l → (s.base.loggers m).pc.isWrite = false
  file : (∀ l, (s.base.loggers l).pc.isWrite = false) → s.base.pepochValue = s.base.DurableEpoch
  file_le : s.base.pepochValue ≤ s.base.DurableEpoch
  notified : ∀ n ∈ s.notified, n.epoch ≤ s.base.pepochValue

section
variable {c : Config} {s s' : NotifierState K β D} {l : Nat}

theorem NoneWriting.all (h : PersistInv c s) (hnone : NoneWriting c s.base l)
    (hl : (s.base.loggers l).pc.isWrite = false) (m : Nat) :
    (s.base.loggers m).pc.isWrite = false := by
  by_cases hm : m = l
  · rw [hm]
    exact hl
  rcases Nat.lt_or_ge m c.num_logger_threads with hlt | hge
  · exact hnone m hlt hm
  · exact h.idle m hge

/-- A step in which no logger swaps or writes. -/
theorem PersistInv.keep (h : PersistInv c s) (hd : s'.base.DurableEpoch = s.base.DurableEpoch)
    (hp : s'.base.pepoch = s.base.pepoch)
    (hwrite : ∀ m, (s.base.loggers m).pc.isWrite = true ∨ (s'.base.loggers m).pc.isWrite = true →
      (s'.base.loggers m).pc = (s.base.loggers m).pc)
    (hfiled : ∀ m, (s'.nid_buffer_ m).Filed)
    (hfound : ∀ m, Found s.base.DurableEpoch (s'.base.loggers m).pc (s'.min_dl m))
    (hnot : ∀ n ∈ s'.notified, n ∈ s.notified ∨ n.epoch ≤ s.base.pepochValue) :
    PersistInv c s' := by
  have hvalue : s'.base.pepochValue = s.base.pepochValue := by
    unfold State.pepochValue
    rw [hp]
  have hsame : ∀ m, (s.base.loggers m).pc.isWrite = false → (s'.base.loggers m).pc.isWrite = false := by
    intro m hm
    by_contra hne
    have hw : (s'.base.loggers m).pc.isWrite = true := by simpa using hne
    rw [hwrite m (Or.inr hw), hm] at hw
    cases hw
  refine ⟨hfiled, by rw [hd]; exact hfound, ?_, ?_, ?_, ?_, ?_⟩
  · exact fun m hm => hsame m (h.idle m hm)
  · intro m nd md hpc
    have hw : (s'.base.loggers m).pc.isWrite = true := by rw [hpc]; rfl
    rw [hwrite m (Or.inr hw)] at hpc
    obtain ⟨hmd, hothers⟩ := h.writer m nd md hpc
    exact ⟨hmd.trans hd.symm, fun u hu => hsame u (hothers u hu)⟩
  · intro hnone
    rw [hvalue, hd]
    refine h.file fun m => ?_
    by_contra hne
    have hw : (s.base.loggers m).pc.isWrite = true := by simpa using hne
    have hno := hnone m
    rw [hwrite m (Or.inl hw), hw] at hno
    cases hno
  · rw [hvalue, hd]
    exact h.file_le
  · intro n hn
    rw [hvalue]
    rcases hnot n hn with hn | hn
    · exact h.notified n hn
    · exact hn

variable {t : State K β D} {hash : Hash K β D}

/-- The logger goes on, and neither swaps nor writes. -/
theorem PersistInv.goOn (h : PersistInv c s) (hlog : log c hash s.base l = some t)
    (hd : t.DurableEpoch = s.base.DurableEpoch) (hp : t.pepoch = s.base.pepoch)
    (hpc : (s.base.loggers l).pc.isWrite = false) (hpc' : (t.loggers l).pc.isWrite = false)
    {n : NidBuffer Nid} {d : Option Nat} (hn : n.Filed)
    (hfound : Found s.base.DurableEpoch (t.loggers l).pc d) :
    PersistInv c { s with
      base := t
      nid_buffer_ := Function.update s.nid_buffer_ l n
      min_dl := Function.update s.min_dl l d } := by
  have hothers := (loggerStep_log hlog).others
  refine h.keep hd hp ?_ ?_ ?_ fun n hn => Or.inl hn
  · intro m hm
    by_cases hml : m = l
    · subst hml
      rw [hpc, hpc'] at hm
      simp at hm
    · rw [hothers m hml]
  · intro m
    by_cases hml : m = l
    · subst hml
      simpa using hn
    · simpa [hml] using h.filed m
  · intro m
    by_cases hml : m = l
    · subst hml
      simpa using hfound
    · simpa [hml, hothers m hml] using h.found m

/-- The swap: nobody else is about to write, so the file is up to date until now. -/
theorem PersistInv.swap (h : PersistInv c s) (hl : l < c.num_logger_threads) {nd md dl : Nat}
    (hpc : (s.base.loggers l).pc = .casDurable nd md dl) (heq : s.base.DurableEpoch = dl)
    (hone : NoneWriting c s.base l) :
    PersistInv c { s with base := { s.base.setLogger l ((s.base.loggers l).goto (.writeEpoch nd md)) with
      DurableEpoch := md } } := by
  have hfound := h.found l
  rw [hpc] at hfound
  obtain ⟨hd, hlt⟩ := hfound
  have hnone := hone.all h (by rw [hpc]; rfl)
  have hfile := h.file hnone
  refine ⟨h.filed, ?_, ?_, ?_, ?_, ?_, h.notified⟩
  · intro m
    by_cases hm : m = l
    · subst hm
      simpa [Logger.goto, Found] using hd
    · simp only [setLogger_other _ _ _ hm]
      exact (h.found m).mono (by omega)
  · intro m hm
    have hne : m ≠ l := by omega
    simp only [setLogger_other _ _ _ hne]
    exact hnone m
  · intro m nd' md' hm
    by_cases hml : m = l
    · subst hml
      simp only [setLogger_self, Logger.goto, LPc.writeEpoch.injEq] at hm
      refine ⟨hm.2.symm, fun u hu => ?_⟩
      simp only [setLogger_other _ _ _ hu]
      exact hnone u
    · simp only [setLogger_other _ _ _ hml] at hm
      have hno := hnone m
      rw [hm] at hno
      cases hno
  · intro hno
    have hself := hno l
    simp [Logger.goto, LPc.isWrite] at hself
  · change s.base.pepochValue ≤ md
    omega

/-- The write: the epoch is still the durable one. -/
theorem PersistInv.write (h : PersistInv c s) {nd md : Nat}
    (hpc : (s.base.loggers l).pc = .writeEpoch nd md) :
    PersistInv c { s with base := { s.base.setLogger l ((s.base.loggers l).goto (.storeDurable nd)) with
      pepoch := some md } } := by
  obtain ⟨hmd, hothers⟩ := h.writer l nd md hpc
  have hfound := h.found l
  rw [hpc] at hfound
  refine ⟨h.filed, ?_, ?_, ?_, ?_, ?_, ?_⟩
  · intro m
    by_cases hm : m = l
    · subst hm
      have hd : s.min_dl m = some md := hfound
      simp [Logger.goto, Found, hd, hmd]
    · simp only [setLogger_other _ _ _ hm]
      exact h.found m
  · intro m hm
    by_cases hml : m = l
    · subst hml
      simp [Logger.goto, LPc.isWrite]
    · simp only [setLogger_other _ _ _ hml]
      exact hothers m hml
  · intro m nd' md' hm
    by_cases hml : m = l
    · subst hml
      simp [Logger.goto] at hm
    · simp only [setLogger_other _ _ _ hml] at hm
      have hno := hothers m hml
      rw [hm] at hno
      cases hno
  · exact fun _ => hmd
  · exact hmd.le
  · intro n hn
    have hle := h.notified n hn
    have hfile := h.file_le
    change n.epoch ≤ md
    omega

theorem persistInv_log (h : PersistInv c s) (hl : l < c.num_logger_threads)
    (hone : OneWriter c s (.act (.log l))) (hlog : log c hash s.base l = some t)
    (hs : loggerStep c s l t = some s') : PersistInv c s' := by
  have hsame : ∀ {u : NotifierState K β D} {d : Option Nat}, s.min_dl l = d →
      u = { s with base := t } → u = { s with
        base := t
        nid_buffer_ := Function.update s.nid_buffer_ l (s.nid_buffer_ l)
        min_dl := Function.update s.min_dl l d } := by
    rintro u d rfl rfl
    simp
  have hfound := h.found l
  cases logs_of_log hlog with
  | @returnBuffer e b rest hpc =>
    rw [hpc] at hfound
    simp only [loggerStep, hpc] at hs
    split at hs
    · obtain rfl := Option.some.inj hs
      exact h.keep rfl rfl (fun _ _ => rfl) h.filed h.found fun n hn => Or.inl hn
    · rename_i n hn
      obtain rfl := Option.some.inj hs
      have hmin : s.min_dl = Function.update s.min_dl l none := by
        rw [← (hfound : s.min_dl l = none), Function.update_eq_self]
      rw [hmin]
      exact h.goOn hlog rfl rfl (by rw [hpc]; rfl) (by simp [State.returnBuffer, Logger.goto, LPc.isWrite])
        (filed_pass_nid (h.filed l) hn) (by simp [State.returnBuffer, Logger.goto, Found])
  | checkedLoggers hpc hend =>
    simp only [loggerStep, hpc, if_pos hend] at hs
    obtain rfl := Option.some.inj hs
    have hnid : s.nid_buffer_ = Function.update s.nid_buffer_ l (s.nid_buffer_ l) :=
      (Function.update_eq_self l _).symm
    rw [hnid]
    exact h.goOn hlog rfl rfl (by rw [hpc]; rfl) (by simp [Logger.goto, LPc.isWrite]) (h.filed l)
      (by simp [Logger.goto, Found])
  | checkDurable hpc hmore =>
    rw [hpc] at hfound
    simp only [loggerStep, hpc, if_neg (Nat.not_le.mpr hmore)] at hs
    rw [hsame hfound (Option.some.inj hs).symm]
    exact h.goOn hlog rfl rfl (by rw [hpc]; rfl) (by simp [Logger.goto, LPc.isWrite]) (h.filed l)
      (by simp [Logger.goto, Found])
  | loadDurable hpc hlt =>
    rw [hpc] at hfound
    simp only [loggerStep, hpc, Option.some.injEq] at hs
    rw [hsame hfound hs.symm]
    exact h.goOn hlog rfl rfl (by rw [hpc]; rfl) (by simp [Logger.goto, LPc.isWrite]) (h.filed l)
      (by simpa [Logger.goto, Found] using hlt)
  | loadReached hpc hge =>
    rw [hpc] at hfound
    simp only [loggerStep, hpc, Option.some.injEq] at hs
    rw [hsame hfound hs.symm]
    exact h.goOn hlog rfl rfl (by rw [hpc]; rfl) (by simp [Logger.goto, LPc.isWrite]) (h.filed l)
      (by simpa [Logger.goto, Found] using hge)
  | casDurable hpc heq =>
    simp only [loggerStep, hpc, Option.some.injEq] at hs
    simp only [OneWriter, hpc, if_pos heq] at hone
    subst hs
    exact h.swap hl hpc heq hone
  | casLost hpc hlost =>
    rw [hpc] at hfound
    simp only [loggerStep, hpc, Option.some.injEq] at hs
    simp only [OneWriter, hpc, if_neg hlost] at hone
    rw [hsame hfound.1 hs.symm]
    exact h.goOn hlog rfl rfl (by rw [hpc]; rfl) (by simp [Logger.goto, LPc.isWrite]) (h.filed l)
      (by simpa [Logger.goto, Found] using hone)
  | writeEpoch hpc =>
    simp only [loggerStep, hpc, Option.some.injEq] at hs
    subst hs
    exact h.write hpc
  | storeDurable hpc =>
    simp only [loggerStep, hpc] at hs
    split at hs
    · cases hs
    · rename_i hnone
      have hd : s.min_dl l = none := by simpa using hnone
      rw [hsame hd (Option.some.inj hs).symm]
      exact h.goOn hlog rfl rfl (by rw [hpc]; rfl) (by simp [LPc.isWrite]) (h.filed l) (by simp [Found])
  | waitDeq hpc | minLoaded hpc | minFound hpc | queueZero hpc | queueDeq hpc | queueIdle hpc | deq hpc
  | logEnd hpc | logEmpty hpc | writeLog hpc | writeTail hpc | sendRaise hpc | sendNothing hpc
  | checkFirst hpc =>
    rw [hpc] at hfound
    simp only [loggerStep, hpc, Option.some.injEq] at hs
    rw [hsame hfound hs.symm]
    exact h.goOn hlog rfl rfl (by rw [hpc]; rfl) (by simp [Logger.goto, LPc.isWrite]) (h.filed l)
      (by simp [Logger.goto, Found])

theorem persistInv_notify (h : PersistInv c s) (hone : OneWriter c s (.notify l)) {nd d : Nat}
    (hpc : (s.base.loggers l).pc = .storeDurable nd) (hd : s.min_dl l = some d) :
    PersistInv c { s with
      nid_buffer_ := Function.update s.nid_buffer_ l ((s.nid_buffer_ l).make_durable d).1
      min_dl := Function.update s.min_dl l none
      notified := s.notified ++ ((s.nid_buffer_ l).make_durable d).2 } := by
  obtain ⟨hfiled, hsent⟩ := NidBuffer.filed_make_durable (h.filed l) d
  have hfound := h.found l
  rw [hpc] at hfound
  have hle : d ≤ s.base.DurableEpoch := hfound d hd
  simp only [OneWriter, hd] at hone
  refine h.keep rfl rfl (fun _ _ => rfl) ?_ ?_ ?_
  · intro m
    by_cases hm : m = l
    · subst hm
      simpa using hfiled
    · simpa [hm] using h.filed m
  · intro m
    by_cases hm : m = l
    · subst hm
      simp [hpc, Found]
    · simpa [hm] using h.found m
  · intro n hn
    rcases List.mem_append.mp hn with hn | hn
    · exact Or.inl hn
    right
    rcases hone with hnil | hnone
    · rw [hnil] at hn
      cases hn
    · -- nobody is about to write, so the file has the durable epoch
      rw [h.file (hnone.all h (by rw [hpc]; rfl))]
      exact (hsent n hn).trans hle

theorem persistInv_step {a : NotifierAction K β} (h : PersistInv c s) (hone : OneWriter c s a)
    (hs : notifierStep c hash s a = some s') : PersistInv c s' := by
  cases notifierSteps_of_notifierStep hs with
  | notify _ hpc hd => exact persistInv_notify h hone hpc hd
  | work _ _ ht =>
    have hq := quiet_work ht
    refine h.keep hq.durable hq.pepoch (fun m _ => hq.pc m) h.filed ?_ fun n hn => Or.inl hn
    intro m
    rw [hq.pc m]
    exact h.found m
  | log _ hl ht hs => exact persistInv_log h hl hone ht hs

theorem persistInv_init (h : NotifierInit hash s) : PersistInv c s := by
  have hpc : ∀ l, (s.base.loggers l).pc = .waitDeq := fun l => by rw [h.base.loggers l]; rfl
  have hvalue : s.base.pepochValue = 0 := by
    unfold State.pepochValue
    rw [h.base.pepoch]
    rfl
  refine ⟨?_, ?_, ?_, ?_, ?_, ?_, ?_⟩
  · intro l it hit x hx
    rw [h.buffers l] at hit
    obtain rfl := List.mem_singleton.mp hit
    cases hx
  · intro l
    rw [hpc l]
    exact h.min_dl l
  · intro l _
    rw [hpc l]
    rfl
  · intro l nd md hwrite
    rw [hpc l] at hwrite
    cases hwrite
  · intro _
    rw [hvalue, h.base.durable]
  · rw [hvalue]
    exact Nat.zero_le _
  · rw [h.notified]
    simp

/-- Only the write after a swap changes the file. -/
theorem pepoch_log {t' : State K β D} (hlog : log c hash t l = some t') : t'.pepoch = t.pepoch ∨
    ∃ nd md, (t.loggers l).pc = .writeEpoch nd md ∧ t'.pepoch = some md := by
  cases logs_of_log hlog with
  | @writeEpoch nd md hpc => exact Or.inr ⟨nd, md, hpc, rfl⟩
  | _ => exact Or.inl rfl

theorem base_loggerStep (hs : loggerStep c s l t = some s') :
    s'.base = t ∨ s'.base = { s.base with halted := true } := by
  unfold loggerStep at hs
  repeat' split at hs
  all_goals cases hs
  all_goals first | exact Or.inl rfl | exact Or.inr rfl

theorem pepochValue_mono {a : NotifierAction K β} (h : PersistInv c s)
    (hs : notifierStep c hash s a = some s') : s.base.pepochValue ≤ s'.base.pepochValue := by
  have hsame : s'.base.pepoch = s.base.pepoch → s.base.pepochValue ≤ s'.base.pepochValue := by
    intro heq
    unfold State.pepochValue
    rw [heq]
  cases notifierSteps_of_notifierStep hs with
  | notify => exact hsame rfl
  | work _ _ ht => exact hsame (quiet_work ht).pepoch
  | log _ _ ht hs =>
    rcases base_loggerStep hs with hbase | hbase
    · rcases pepoch_log ht with heq | ⟨nd, md, hpc, heq⟩
      · exact hsame (by rw [hbase, heq])
      · have hle := h.file_le
        obtain ⟨rfl, -⟩ := h.writer _ nd md hpc
        unfold State.pepochValue at hle ⊢
        rw [hbase, heq]
        exact hle
    · exact hsame (by rw [hbase])

/-- In a run without a swap or a notification inside the window of another logger, and
without a swap that is lost to a smaller epoch, `pepoch.seal` covers whatever has been
notified, and never goes back. -/
theorem notified_persisted
    (h : Reach (notifierStep c hash) (NotifierInit hash) (OneWriter c) s) :
    (∀ n ∈ s.notified, n.epoch ≤ s.base.pepochValue) ∧
      ∀ a s', OneWriter c s a → notifierStep c hash s a = some s' →
        s.base.pepochValue ≤ s'.base.pepochValue := by
  have hinv : PersistInv c s := h.invariant (fun _ => persistInv_init) fun _ _ _ => persistInv_step
  exact ⟨hinv.notified, fun a s' _ hs => pepochValue_mono hinv hs⟩

end

/-- A record of epoch 1 is in the file of logger 1, both loggers have taken epoch 1 for
durable, and both workers are in epoch 3. -/
def thirdEpoch : List (NotifierAction Nat Nat) :=
  acts (secondEpoch 9 ++ logs 1 19) ++ [.notify 1] ++ acts (logs 1 1 ++ logs 0 9) ++ [.notify 0] ++
    acts (logs 0 1 ++ advance ++ ticks 1 1 ++ [.work 1 .noRequest] ++ ticks 1 7)

/-- Logger 0 has done `n` steps when logger 1 calls `check_durable` and notifies. -/
def notifySchedule (n : Nat) : List (NotifierAction Nat Nat) :=
  thirdEpoch ++ acts (logs 0 n ++ logs 1 9) ++ [.notify 1]

set_option maxRecDepth 8000 in
theorem notifySchedule_runs :
    (exec (notifierStep twoLoggers unitHash) notifierStarted (notifySchedule 10)).isSome := by decide

def notifiedEarly : NotifierState Nat Nat Unit :=
  (exec (notifierStep twoLoggers unitHash) notifierStarted (notifySchedule 10)).get notifySchedule_runs

set_option maxRecDepth 8000 in
theorem notifiedEarly_unwritten :
    ¬ ∀ n ∈ notifiedEarly.notified, n.epoch ≤ notifiedEarly.base.pepochValue := by
  decide

/-- Logger 0 has swapped, and not yet written, when logger 1 notifies. -/
theorem notified_persisted_window :
    ¬ ∀ s : NotifierState Nat Nat Unit,
      Reach (notifierStep twoLoggers unitHash) (NotifierInit unitHash) anyStep s →
      (∀ n ∈ s.notified, n.epoch ≤ s.base.pepochValue) ∧
        ∀ a s', notifierStep twoLoggers unitHash s a = some s' →
          s.base.pepochValue ≤ s'.base.pepochValue := by
  intro h
  exact notifiedEarly_unwritten (h _ (reach_get notifierStarted_init notifySchedule_runs)).1

set_option maxRecDepth 8000 in
theorem notifySchedule_written :
    (exec (notifierStep twoLoggers unitHash) notifierStarted (notifySchedule 11)).isSome := by decide

set_option maxRecDepth 8000 in
theorem notifySchedule_admits :
    Admits (notifierStep twoLoggers unitHash) (OneWriter twoLoggers) notifierStarted
      (notifySchedule 11) := by
  decide

def notifiedLate : NotifierState Nat Nat Unit :=
  (exec (notifierStep twoLoggers unitHash) notifierStarted (notifySchedule 11)).get
    notifySchedule_written

set_option maxRecDepth 8000 in
/-- One step later, epoch 1 is in the file, and its one commit is notified. -/
theorem notified_persisted_written :
    (notifiedLate.notified.map fun n => n.epoch) = [1] ∧
      (∀ n ∈ notifiedLate.notified, n.epoch ≤ notifiedLate.base.pepochValue) ∧
      ∀ a s', OneWriter twoLoggers notifiedLate a →
        notifierStep twoLoggers unitHash notifiedLate a = some s' →
        notifiedLate.base.pepochValue ≤ s'.base.pepochValue :=
  ⟨by decide, notified_persisted
    (reach_get_of_admits notifierStarted_init notifySchedule_admits notifySchedule_written)⟩

end Cassa.SiloCC.Durability

import Cassa.SiloCC.FileOrder
import Cassa.SiloR.OrderedLog

/-!
# The files that a run leaves behind

With one worker for each logger, every log file of a run is a chain of sets of one epoch each, in the order
of the epochs, and the hash in its slot of `pepoch.seal` is that of one of its sets.
-/

namespace Cassa.SiloR

open Cassa.SiloCC Cassa.SiloCC.Durability Cassa.Lib.Runs

variable {K β D : Type}

/-- Where the chain of a logger stands. Between the two writes of a set the file is
ahead of `prev_epoch_hash_`. -/
def ChainAt (h : Hash K β D) (g : Logger K β D) : Prop :=
  match g.pc with
  | .writeTail _ rest => ∃ b rest' docs, rest = b :: rest' ∧
      g.logfile_ = docs ++ [create_json_log h g.prev_epoch_hash_ b.log_set_]
  | _ => g.prev_epoch_hash_ = chainEnd h h.passphrase g.logfile_

structure LogOk (h : Hash K β D) (g : Logger K β D) : Prop where
  chained : Chained h h.passphrase g.logfile_
  prev : ChainAt h g
  uniform : ∀ doc ∈ g.logfile_, ∃ e, ∀ n ∈ docEpochs doc, n = e
  tail : ∀ d, g.tailLogHash = some d → ∃ doc ∈ g.logfile_, h.ofSet doc.log_set = d

structure LogInv (c : Config) (h : Hash K β D) (s : State K β D) : Prop where
  epochs : EpochsOk s
  tidy : s.halted = false → Tidy s
  logs : ∀ l, LogOk h (s.loggers l)
  order : ∀ l w, Own c l w → EpochOrder s l w

section

variable {c : Config} {h : Hash K β D} {s s' : State K β D} {l w : Nat}

/-- A step of a logger that stays away from its file. -/
theorem LogOk.keep {g g' : Logger K β D} (hg : LogOk h g) (hfile : g'.logfile_ = g.logfile_)
    (hprev : g'.prev_epoch_hash_ = g.prev_epoch_hash_) (htail : g'.tailLogHash = g.tailLogHash)
    (hpc : ∀ e rest, g.pc ≠ .writeTail e rest) (hpc' : ∀ e rest, g'.pc ≠ .writeTail e rest) : LogOk h g' := by
  refine ⟨by rw [hfile]; exact hg.chained, ?_, by rw [hfile]; exact hg.uniform, by rw [hfile, htail]; exact hg.tail⟩
  have hp : g.prev_epoch_hash_ = chainEnd h h.passphrase g.logfile_ := by
    have hp := hg.prev
    unfold ChainAt at hp
    split at hp
    · rename_i e rest heq
      exact absurd heq (hpc e rest)
    · exact hp
  unfold ChainAt
  split
  · rename_i e rest heq
    exact absurd heq (hpc' e rest)
  · rw [hprev, hfile, hp]

/-- A step of a worker adds to a queue at most. -/
theorem LogOk.handStep (hl : LogOk h (s.loggers l)) (hs : HandStep c s s' w) : LogOk h (s'.loggers l) := by
  cases hs with
  | keep _ _ hlog => rwa [hlog]
  | push _ _ _ hlog => rwa [hlog]
  | publish b _ _ _ _ hlog =>
    rw [hlog]
    by_cases hlw : l = c.logger_thid_ w
    · subst hlw
      rw [setLogger_self]
      exact ⟨hl.chained, hl.prev, hl.uniform, hl.tail⟩
    · rwa [setLogger_other _ _ _ hlw]

theorem logOk_log (hi : LogInv c h s) (hrun : s.halted = false) (hs : log c h s l = some s') :
    LogOk h (s'.loggers l) := by
  have hl := hi.logs l
  have hheld := (hi.tidy hrun).held l
  have hgo : ∀ g, g.logfile_ = (s.loggers l).logfile_ →
      g.prev_epoch_hash_ = (s.loggers l).prev_epoch_hash_ → g.tailLogHash = (s.loggers l).tailLogHash →
      (∀ e rest, (s.loggers l).pc ≠ .writeTail e rest) → (∀ e rest, g.pc ≠ .writeTail e rest) →
      LogOk h ((s.setLogger l g).loggers l) := by
    intro g hfile hprev htail hpc hpc'
    rw [setLogger_self]
    exact hl.keep hfile hprev htail hpc hpc'
  cases logs_of_log hs with
  | @logEmpty _ b rest hpc hempty =>
    rw [hpc] at hheld
    obtain ⟨e', hb⟩ := hheld b List.mem_cons_self
    exact absurd (List.length_eq_zero_iff.mp hempty) hb.nonempty
  | @writeLog _ b rest hpc =>
    rw [hpc] at hheld
    obtain ⟨e', hb⟩ := hheld b List.mem_cons_self
    have hp := hl.prev
    simp only [ChainAt, hpc] at hp
    rw [setLogger_self]
    refine ⟨?_, ⟨b, rest, (s.loggers l).logfile_, rfl, rfl⟩, ?_, ?_⟩
    · dsimp only
      rw [hp]
      exact chained_append h hl.chained hb.nonempty
    · intro doc hdoc
      rcases List.mem_append.mp hdoc with hdoc | hdoc
      · exact hl.uniform doc hdoc
      · obtain rfl := List.mem_singleton.mp hdoc
        refine ⟨e', fun n hn => ?_⟩
        rw [docEpochs_create_json_log] at hn
        obtain ⟨r, hr, rfl⟩ := List.mem_map.mp hn
        exact hb.records r hr
    · intro d hd
      obtain ⟨doc, hdoc, heq⟩ := hl.tail d hd
      exact ⟨doc, List.mem_append_left _ hdoc, heq⟩
  | @writeTail _ b rest hpc =>
    have hp := hl.prev
    simp only [ChainAt, hpc] at hp
    obtain ⟨b', rest', docs, heq, hfile⟩ := hp
    obtain ⟨rfl, rfl⟩ := List.cons.inj heq
    have hhash : h.ofSet (create_json_log h (s.loggers l).prev_epoch_hash_ b.log_set_).log_set =
        currentEpochHash h b.log_set_ := ofSet_create_json_log h _ _
    rw [setLogger_self]
    refine ⟨hl.chained, ?_, hl.uniform, ?_⟩
    · simp only [ChainAt, hfile]
      rw [chainEnd_append, hhash]
    · intro d hd
      obtain rfl := Option.some.inj hd
      refine ⟨_, ?_, hhash⟩
      dsimp only
      rw [hfile]
      exact List.mem_append_right _ List.mem_cons_self
  | returnBuffer hpc | casDurable hpc | writeEpoch hpc =>
    change LogOk h ((s.setLogger l _).loggers l)
    exact hgo _ rfl rfl rfl (by simp [hpc]) (by simp [Logger.goto])
  | waitDeq hpc | minLoaded hpc | minFound hpc | queueZero hpc | queueDeq hpc | queueIdle hpc | deq hpc
  | logEnd hpc | sendRaise hpc | sendNothing hpc | checkFirst hpc | checkedLoggers hpc | checkDurable hpc
  | loadDurable hpc | loadReached hpc | casLost hpc | storeDurable hpc =>
    exact hgo _ rfl rfl rfl (by simp [hpc]) (by simp [Logger.goto])

theorem logInv_worker (hi : LogInv c h s) (hrun : s.halted = false) (hw : w < c.num_worker_threads)
    (hs : WorkerStep c s s' w) (hhand : HandStep c s s' w) : LogInv c h s' where
  epochs := hs.epochsOk hi.epochs
  tidy hh := hs.tidy hh (hi.tidy hrun)
  logs l := (hi.logs l).handStep hhand
  order := by
    intro l v hown
    by_cases hvw : w = v
    · subst hvw
      exact (hi.order l w hown).handStep (hi.tidy hrun) hhand
    · exact (hi.order l v hown).other (fun hl => hvw (hown w hw hl)) hvw hs.others hhand

theorem logInv_step {a : Durability.Action K β} (hi : LogInv c h s) (hok : epochOverflow s a = false)
    (hs : step c h s a = some s') : LogInv c h s' := by
  cases steps_of_step hs with
  | work hrun hw hs =>
    exact logInv_worker hi hrun hw (workerStep_work hi.epochs hok hs) (handStep_work hi.epochs (hi.tidy hrun) hs)
  | @log l _ hrun _ hs =>
    have hstep := loggerStep_log hs
    refine ⟨hstep.epochsOk hi.epochs, fun _ => hstep.tidy (hi.tidy hrun), ?_, ?_⟩
    · intro m
      by_cases hm : m = l
      · subst hm
        exact logOk_log hi hrun hs
      · rw [hstep.others m hm]
        exact hi.logs m
    · intro m v hown
      exact (hi.order m v hown).log (hi.tidy hrun) hs

theorem logInv_init (h₀ : Init h s) : LogInv c h s := by
  refine ⟨epochsOk_init h₀, fun _ => tidy_init h₀, ?_, ?_⟩
  · intro l
    rw [h₀.loggers l]
    exact ⟨trivial, rfl, by simp [Logger.new], by simp [Logger.new]⟩
  · intro l w _
    have hnil : stream s l w = [] := by
      unfold stream inHand
      rw [h₀.loggers l, h₀.workers w]
      rfl
    exact ⟨by rw [hnil]; exact .nil, by simp [hnil]⟩

theorem logInv_reach (hr : Reach (step c h) (Init h) (fun s a => epochOverflow s a = false) s) : LogInv c h s :=
  Reach.invariant (I := LogInv c h) (fun _ => logInv_init) (fun _ _ _ h₁ hok hs => logInv_step h₁ hok hs) hr

end

/-- Each logger has one worker. -/
def OneWorkerEach (c : Config) : Prop :=
  ∀ u < c.num_worker_threads, ∀ w < c.num_worker_threads, c.logger_thid_ u = c.logger_thid_ w → u = w

instance (c : Config) : Decidable (OneWorkerEach c) :=
  inferInstanceAs (Decidable (∀ u < c.num_worker_threads, ∀ w < c.num_worker_threads, _ → _))

theorem OneWorkerEach.own {c : Config} (hc : OneWorkerEach c) (l : Nat) : ∃ w, Own c l w := by
  by_cases hl : ∃ w < c.num_worker_threads, c.logger_thid_ w = l
  · obtain ⟨w, hw, rfl⟩ := hl
    exact ⟨w, fun u hu hul => hc u hu w hw hul⟩
  · exact ⟨0, fun u hu hul => absurd ⟨u, hu, hul⟩ hl⟩

/-- Sets of one epoch each, whose records come in the order of their epochs. -/
theorem pairwise_setOf {docs : List (JsonLog K β D)} (hne : ∀ doc ∈ docs, doc.log_set ≠ [])
    (huniform : ∀ doc ∈ docs, ∀ r ∈ doc.log_set, r.tid_.epoch = (setOf doc).epoch_)
    (hsorted : (docs.flatMap docEpochs).Pairwise (· ≤ ·)) :
    docs.Pairwise fun doc doc' => (setOf doc).epoch_.toNat ≤ (setOf doc').epoch_.toNat := by
  induction docs with
  | nil => exact .nil
  | cons doc docs ih =>
    rw [List.flatMap_cons] at hsorted
    obtain ⟨-, hrest, hcross⟩ := List.pairwise_append.mp hsorted
    have hmem : ∀ x ∈ doc :: docs, (setOf x).epoch_.toNat ∈ docEpochs x := by
      intro x hx
      obtain ⟨r, hr⟩ := List.exists_mem_of_ne_nil _ (hne x hx)
      exact List.mem_map.mpr ⟨r, hr, by rw [huniform x hx r hr]⟩
    refine List.pairwise_cons.mpr ⟨?_, ih (fun x hx => hne x (List.mem_cons_of_mem _ hx))
      (fun x hx => huniform x (List.mem_cons_of_mem _ hx)) hrest⟩
    intro x hx
    exact hcross _ (hmem doc List.mem_cons_self) _
      (List.mem_flatMap.mpr ⟨x, hx, hmem x (List.mem_cons_of_mem _ hx)⟩)

theorem LogInv.orderedLog {c : Config} {h : Hash K β D} {s : State K β D} (hi : LogInv c h s) (hc : OneWorkerEach c)
    (l : Nat) : OrderedLog h (s.loggers l).logfile_ := by
  have hl := hi.logs l
  have huniform : ∀ doc ∈ (s.loggers l).logfile_, ∀ r ∈ doc.log_set, r.tid_.epoch = (setOf doc).epoch_ := by
    intro doc hdoc r hr
    obtain ⟨e, he⟩ := hl.uniform doc hdoc
    have hone : ∀ r ∈ doc.log_set, r.tid_.epoch.toNat = e := fun r hr => he _ (List.mem_map_of_mem hr)
    have hlast := List.getLast?_eq_some_getLast (hl.chained.log_set_ne hdoc)
    have hepoch : (setOf doc).epoch_ = (doc.log_set.getLast (hl.chained.log_set_ne hdoc)).tid_.epoch := by
      rw [setOf, hlast]
      rfl
    rw [hepoch]
    exact BitVec.eq_of_toNat_eq ((hone r hr).trans (hone _ (List.getLast_mem _)).symm)
  refine ⟨hl.chained, huniform, pairwise_setOf (fun doc hdoc => hl.chained.log_set_ne hdoc) huniform ?_⟩
  obtain ⟨w, hown⟩ := hc.own l
  exact (List.pairwise_append.mp (hi.order l w hown).sorted).1

end Cassa.SiloR

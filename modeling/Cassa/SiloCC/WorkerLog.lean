import Cassa.SiloCC.OneEpoch

/-!
# The log of one worker, call by call

`durableEpochWork` and `wal` as functions, for a worker that no other worker disturbs. What the
surroundings decide is handed in: the global epochs that are found, and how many of the
published buffers the logger has given back by the end of a wait. A wait for a buffer ends when
one is there. `none` is an assertion that fails, or `std::abort`.
-/

namespace Cassa.SiloCC.WorkerLog

open Cassa.SiloCC.Durability (BUFFER_NUM MAX_BUFFERED_LOG_ENTRIES epochTid Fresh Filled OneEpoch)

variable {K β : Type}

structure LogState (K β : Type) where
  ThLocalEpoch : Nat
  CTIDW : TIDword
  current_buffer_ : Option (LogBuffer K β)
  pool_ : List (LogBuffer K β)
  /-- the buffers that were published and not given back -/
  queue_ : List (LogBuffer K β)

/-- What a worker finds during one attempt of a request. -/
structure Surroundings where
  /-- the global epoch in `epochWork` -/
  epoch : Nat
  /-- the global epochs in the turns of the loop that waits for a buffer -/
  waiting : List Nat
  /-- the buffers given back by the end of `durableEpochWork` -/
  returned : Nat
  /-- the global epoch in `validationPhase` -/
  validationEpoch : Nat
  /-- the buffers given back by the end of `push` -/
  returnedLater : Nat

namespace LogState

def new (w : Nat) : LogState K β where
  ThLocalEpoch := 0
  CTIDW := .zero
  current_buffer_ := some (.new w)
  pool_ := List.replicate (BUFFER_NUM - 1) (.new w)
  queue_ := []

/-- The logger has written the first `n` published buffers. -/
def giveBack (s : LogState K β) (n : Nat) : LogState K β :=
  { s with pool_ := s.pool_ ++ (s.queue_.take n).map LogBuffer.recycled, queue_ := s.queue_.drop n }

/-- `while (!is_ready())`: with nothing in the pool it goes on until a buffer is given back. -/
def await (s : LogState K β) (n : Nat) : LogState K β :=
  match s.current_buffer_ with
  | some _ => s.giveBack n
  | none =>
    let s := s.giveBack (if s.pool_.isEmpty then max n 1 else n)
    match s.pool_.getLast? with
    | some b => { s with current_buffer_ := some b, pool_ := s.pool_.dropLast }
    | none => s

def publish (s : LogState K β) (b : LogBuffer K β) : LogState K β :=
  if b.empty then s else { s with current_buffer_ := none, queue_ := s.queue_ ++ [b] }

def epochWork (s : LogState K β) (g : Nat) : LogState K β :=
  { s with ThLocalEpoch := g, CTIDW := if s.CTIDW.epoch.toNat ≠ g then epochTid g else s.CTIDW }

/-- The comparison of the local epochs in `durableEpochWork`, and the publish after it. -/
def publishOld (s : LogState K β) (old_thread_local_epoch : Nat) : Option (LogState K β) :=
  if old_thread_local_epoch ≠ s.ThLocalEpoch then
    match s.current_buffer_ with
    | none => none
    | some b => if b.log_set_size_ ≠ 0 then some (s.publish b) else some s
  else some s

/-- The rest of `durableEpochWork`. -/
def waitReady (s : LogState K β) (e : Surroundings) : Option (LogState K β) :=
  let s := if s.current_buffer_.isNone && s.pool_.isEmpty then e.waiting.foldl epochWork s else s
  let s := s.await e.returned
  if s.current_buffer_.isNone then none else some s

def durableEpochWork (s : LogState K β) (e : Surroundings) : Option (LogState K β) :=
  ((s.epochWork e.epoch).publishOld s.ThLocalEpoch).bind fun s => s.waitReady e

/-- `wal`, with the `LogBufferPool::push` in it. -/
def wal (s : LogState K β) (ctid : TIDword) (write_set : List (WriteElement K β)) (n : Nat) :
    Option (LogState K β) :=
  let new_epoch_begins := s.CTIDW.epoch ≠ ctid.epoch
  match s.current_buffer_ with
  | none => none
  | some b =>
    let s := if b.log_set_size_ > MAX_BUFFERED_LOG_ENTRIES ∨ new_epoch_begins then s.publish b else s
    let s := s.await n
    match s.current_buffer_ with
    | none => none
    | some b =>
      if b.pushAsserts ctid write_set then
        some { s with
          current_buffer_ := some (b.push ctid write_set)
          CTIDW := if new_epoch_begins then ctid else s.CTIDW }
      else none

end LogState

/-- The buffers of the pool and of the logger; none of them is lost. -/
structure Buffers (s : LogState K β) (n : Nat) : Prop where
  pool : ∀ b ∈ s.pool_, Fresh b
  queue : ∀ b ∈ s.queue_, OneEpoch b
  count : s.pool_.length + s.queue_.length = n

/-- The current buffer holds one epoch, not older than the local one nor than `CTIDW`, and the
worker has committed in it. -/
structure LogOk (s : LogState K β) (mrctid_ : TIDword) : Prop where
  buffers : Buffers s (BUFFER_NUM - 1)
  current : ∃ b, s.current_buffer_ = some b ∧ OneEpoch b ∧ (b.log_set_ ≠ [] →
    s.CTIDW.epoch.toNat ≤ b.min_epoch_ ∧ s.ThLocalEpoch % 2 ^ 32 ≤ b.min_epoch_ ∧
      b.min_epoch_ ≤ mrctid_.epoch.toNat)

theorem logOk_new (w : Nat) (mrctid_ : TIDword) : LogOk (LogState.new w : LogState K β) mrctid_ where
  buffers := by
    refine ⟨?_, nofun, rfl⟩
    intro b hb
    rw [List.eq_of_mem_replicate hb]
    exact Durability.fresh_new w
  current := ⟨.new w, rfl, Or.inl (Durability.fresh_new w), fun h => absurd rfl h⟩

section

variable {s : LogState K β}

theorem Buffers.giveBack {n : Nat} (h : Buffers s n) (m : Nat) : Buffers (s.giveBack m) n where
  pool := by
    intro b hb
    rcases List.mem_append.mp hb with hb | hb
    · exact h.pool b hb
    · obtain ⟨b', hb', rfl⟩ := List.mem_map.mp hb
      exact (h.queue b' (List.mem_of_mem_take hb')).recycled
  queue b hb := h.queue b (List.mem_of_mem_drop hb)
  count := by
    have hcount := h.count
    simp only [LogState.giveBack, List.length_append, List.length_map, List.length_take, List.length_drop]
    omega

/-- A worker with a buffer at hand keeps it. -/
theorem await_some {b : LogBuffer K β} (hb : s.current_buffer_ = some b) (m : Nat) :
    s.await m = s.giveBack m := by
  rw [LogState.await, hb]

/-- A worker without one gets one from the pool, since not all are with the logger. -/
theorem await_none (hb : s.current_buffer_ = none) (h : Buffers s BUFFER_NUM) (m : Nat) :
    ∃ b, (s.await m).current_buffer_ = some b ∧ Fresh b ∧ Buffers (s.await m) (BUFFER_NUM - 1) ∧
      (s.await m).CTIDW = s.CTIDW ∧ (s.await m).ThLocalEpoch = s.ThLocalEpoch := by
  rw [LogState.await, hb]
  have hgive := h.giveBack (if s.pool_.isEmpty then max m 1 else m)
  have hne : (s.giveBack (if s.pool_.isEmpty then max m 1 else m)).pool_ ≠ [] := by
    have hcount := h.count
    simp only [BUFFER_NUM] at hcount
    intro hnil
    obtain ⟨hpool, hqueue⟩ := List.append_eq_nil_iff.mp hnil
    rw [hpool] at hcount hqueue
    rw [List.map_eq_nil_iff] at hqueue
    have hlen := congrArg List.length hqueue
    simp only [List.isEmpty_nil, if_true, List.length_take, List.length_nil] at hlen hcount
    omega
  obtain ⟨l, b, hl⟩ := (List.eq_nil_or_concat' _).resolve_left hne
  dsimp only
  rw [hl, List.getLast?_concat, List.dropLast_concat]
  refine ⟨b, rfl, hgive.pool b (by rw [hl]; exact List.mem_append_right _ (List.mem_singleton_self b)), ⟨?_, hgive.queue, ?_⟩, rfl, rfl⟩
  · intro b' hb'
    exact hgive.pool b' (by rw [hl]; exact List.mem_append_left _ hb')
  · have hcount := hgive.count
    rw [hl, List.length_append, List.length_singleton] at hcount
    dsimp only
    omega

theorem publish_filled {b : LogBuffer K β} (hb : OneEpoch b) (hne : b.log_set_ ≠ [])
    (h : Buffers s (BUFFER_NUM - 1)) :
    (s.publish b).current_buffer_ = none ∧ Buffers (s.publish b) BUFFER_NUM ∧
      (s.publish b).CTIDW = s.CTIDW ∧ (s.publish b).ThLocalEpoch = s.ThLocalEpoch := by
  rw [LogState.publish, hb.not_empty hne, if_neg Bool.false_ne_true]
  refine ⟨rfl, ⟨h.pool, ?_, ?_⟩, rfl, rfl⟩
  · intro b' hb'
    rcases List.mem_append.mp hb' with hb' | hb'
    · exact h.queue b' hb'
    · rw [List.mem_singleton.mp hb']
      exact hb
  · have hcount := h.count
    simp only [BUFFER_NUM] at hcount ⊢
    rw [List.length_append, List.length_singleton]
    omega

/-- A buffer without records stays where it is. -/
theorem publish_fresh {b : LogBuffer K β} (hb : Fresh b) : s.publish b = s := by
  have hempty : b.empty = true := by simp [LogBuffer.empty, hb.nids]
  rw [LogState.publish, hempty, if_pos rfl]

theorem foldl_epochWork (l : List Nat) (s : LogState K β) :
    (l.foldl LogState.epochWork s).current_buffer_ = s.current_buffer_ ∧
      (l.foldl LogState.epochWork s).pool_ = s.pool_ ∧ (l.foldl LogState.epochWork s).queue_ = s.queue_ := by
  induction l generalizing s with
  | nil => exact ⟨rfl, rfl, rfl⟩
  | cons g l ih => exact ih (s.epochWork g)

theorem fresh_or_nonempty {b : LogBuffer K β} (h : OneEpoch b) : Fresh b ∨ b.log_set_ ≠ [] := by
  rcases h with h | ⟨e, h⟩
  · exact Or.inl h
  · exact Or.inr h.nonempty

theorem waitReady_some {b : LogBuffer K β} (hb : s.current_buffer_ = some b) (e : Surroundings) :
    s.waitReady e = some (s.giveBack e.returned) := by
  have hcur : (s.giveBack e.returned).current_buffer_ = some b := hb
  simp only [LogState.waitReady, hb, Option.isNone_some, Bool.false_and, Bool.false_eq_true, if_false,
    await_some hb, hcur]

theorem waitReady_none (hb : s.current_buffer_ = none) (h : Buffers s BUFFER_NUM) (e : Surroundings) :
    ∃ s' b, s.waitReady e = some s' ∧ s'.current_buffer_ = some b ∧ Fresh b ∧ Buffers s' (BUFFER_NUM - 1) := by
  set t := if s.current_buffer_.isNone && s.pool_.isEmpty then e.waiting.foldl LogState.epochWork s else s with ht
  have hsame : t.current_buffer_ = s.current_buffer_ ∧ t.pool_ = s.pool_ ∧ t.queue_ = s.queue_ := by
    rw [ht]
    split
    · exact foldl_epochWork e.waiting s
    · exact ⟨rfl, rfl, rfl⟩
  obtain ⟨hcur, hpool, hqueue⟩ := hsame
  have hbuffers : Buffers t BUFFER_NUM := ⟨hpool ▸ h.pool, hqueue ▸ h.queue, by rw [hpool, hqueue, h.count]⟩
  obtain ⟨b, hsome, hfresh, hbuffers', -⟩ := await_none (hcur.trans hb) hbuffers e.returned
  refine ⟨t.await e.returned, b, ?_, hsome, hfresh, hbuffers'⟩
  simp only [LogState.waitReady, ← ht, hsome, Option.isNone_some, Bool.false_eq_true, if_false]

/-- A worker with a buffer that has just come from the pool. -/
theorem logOk_fresh {b : LogBuffer K β} (hb : s.current_buffer_ = some b) (hfresh : Fresh b)
    (h : Buffers s (BUFFER_NUM - 1)) (m : TIDword) : LogOk s m :=
  ⟨h, b, hb, Or.inl hfresh, fun hne => absurd hfresh.records hne⟩

/-- `durableEpochWork` returns, with a buffer at hand. -/
theorem LogOk.durableEpochWork {m : TIDword} (h : LogOk s m) (e : Surroundings) :
    ∃ s', s.durableEpochWork e = some s' ∧ LogOk s' m := by
  obtain ⟨b, hb, hone, hbound⟩ := h.current
  have hb' : (s.epochWork e.epoch).current_buffer_ = some b := hb
  have hbuffers : Buffers (s.epochWork e.epoch) (BUFFER_NUM - 1) := ⟨h.buffers.pool, h.buffers.queue, h.buffers.count⟩
  rw [LogState.durableEpochWork, LogState.publishOld]
  by_cases hold : s.ThLocalEpoch = (s.epochWork e.epoch).ThLocalEpoch
  · rw [if_neg (not_not.mpr hold), Option.bind_some, waitReady_some hb']
    refine ⟨_, rfl, hbuffers.giveBack e.returned, b, hb', hone, ?_⟩
    intro hne
    obtain ⟨hctidw, hlocal, hmr⟩ := hbound hne
    rw [hold] at hlocal
    refine ⟨?_, hlocal, hmr⟩
    change (if s.CTIDW.epoch.toNat ≠ e.epoch then epochTid e.epoch else s.CTIDW).epoch.toNat ≤ b.min_epoch_
    split
    · have hepoch : (epochTid e.epoch).epoch.toNat = e.epoch % 2 ^ 32 := by simp [epochTid, epochWord]
      rw [hepoch]
      exact hlocal
    · exact hctidw
  · rw [if_pos hold, hb']
    rcases fresh_or_nonempty hone with hfresh | hne
    · have hsize : ¬ b.log_set_size_ ≠ 0 := by simp [LogBuffer.log_set_size_, hfresh.records]
      simp only [if_neg hsize, Option.bind_some]
      rw [waitReady_some hb']
      have hcur : ((s.epochWork e.epoch).giveBack e.returned).current_buffer_ = some b := hb
      exact ⟨_, rfl, logOk_fresh hcur hfresh (hbuffers.giveBack e.returned) m⟩
    · have hsize : b.log_set_size_ ≠ 0 := fun hz => hne (List.eq_nil_of_length_eq_zero hz)
      obtain ⟨hnone, hpub, -⟩ := publish_filled hone hne hbuffers
      obtain ⟨s', b', hwait, hcur, hfresh, hbuffers'⟩ := waitReady_none hnone hpub e
      simp only [if_pos hsize, Option.bind_some]
      exact ⟨s', hwait, logOk_fresh hcur hfresh hbuffers' m⟩

/-- The assertion at the end of `push` holds: the buffer is fresh or of the epoch that is logged. -/
theorem LogOk.wal {m ctid : TIDword} (h : LogOk s m) (write_set : List (WriteElement K β)) (n g : Nat)
    (hm : m.epoch.toNat ≤ ctid.epoch.toNat) (hg : g % 2 ^ 32 ≤ ctid.epoch.toNat) :
    ∃ s', LogState.wal { s with ThLocalEpoch := g } ctid write_set n = some s' ∧ LogOk s' ctid := by
  obtain ⟨b, hb, hone, hbound⟩ := h.current
  set t : LogState K β := { s with ThLocalEpoch := g } with ht
  have hbt : t.current_buffer_ = some b := hb
  have hbuffers : Buffers t (BUFFER_NUM - 1) := ⟨h.buffers.pool, h.buffers.queue, h.buffers.count⟩
  set u := if b.log_set_size_ > MAX_BUFFERED_LOG_ENTRIES ∨ t.CTIDW.epoch ≠ ctid.epoch then t.publish b else t with hu
  obtain ⟨b', hcur, hbuffers', hready, hctidw, hlocal⟩ : ∃ b', (u.await n).current_buffer_ = some b' ∧
      Buffers (u.await n) (BUFFER_NUM - 1) ∧ (Fresh b' ∨ Filled b' ctid.epoch.toNat) ∧
      (u.await n).CTIDW = t.CTIDW ∧ (u.await n).ThLocalEpoch = g := by
    rcases fresh_or_nonempty hone with hfresh | hne
    · have hut : u = t := by rw [hu, publish_fresh hfresh, ite_self]
      rw [hut, await_some hbt]
      exact ⟨b, hbt, hbuffers.giveBack n, Or.inl hfresh, rfl, rfl⟩
    · obtain ⟨hctidw, -, hmr⟩ := hbound hne
      by_cases hpub : b.log_set_size_ > MAX_BUFFERED_LOG_ENTRIES ∨ t.CTIDW.epoch ≠ ctid.epoch
      · obtain ⟨hnone, hbuf, hctidw', hlocal'⟩ := publish_filled hone hne hbuffers
        obtain ⟨b', hcur, hfresh, hbuf', hctidw'', hlocal''⟩ := await_none hnone hbuf n
        rw [hu, if_pos hpub]
        exact ⟨b', hcur, hbuf', Or.inl hfresh, hctidw''.trans hctidw', hlocal''.trans hlocal'⟩
      · have hsame : t.CTIDW.epoch = ctid.epoch := not_not.mp (not_or.mp hpub).2
        have hepoch : b.min_epoch_ = ctid.epoch.toNat := by
          have : s.CTIDW.epoch.toNat = ctid.epoch.toNat := congrArg BitVec.toNat hsame
          omega
        rw [hu, if_neg hpub, await_some hbt]
        exact ⟨b, hbt, hbuffers.giveBack n, Or.inr (hepoch ▸ hone.filled hne), rfl, rfl⟩
  obtain ⟨hone', hassert, hepoch⟩ := Durability.oneEpoch_push write_set hready
  refine ⟨{ u.await n with
    current_buffer_ := some (b'.push ctid write_set)
    CTIDW := if t.CTIDW.epoch ≠ ctid.epoch then ctid else (u.await n).CTIDW }, ?_, ?_⟩
  · simp only [LogState.wal, hbt, ← hu, hcur, hassert, if_true]
  · refine ⟨⟨hbuffers'.pool, hbuffers'.queue, hbuffers'.count⟩, _, rfl, hone', ?_⟩
    intro hne
    rw [hepoch hne]
    refine ⟨?_, ?_, Nat.le_refl _⟩
    · dsimp only
      split
      · exact Nat.le_refl _
      · rename_i hsame
        rw [hctidw, not_not.mp hsame]
    · dsimp only
      rw [hlocal]
      exact hg

end

end Cassa.SiloCC.WorkerLog

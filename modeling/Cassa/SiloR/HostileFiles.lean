import Cassa.SiloR.AnyLogFile

/-!
# What a log file can do to recovery

One slot of `pepoch.seal` with a hash is enough for log files to exist that make recovery read past an
end, take the last record of none, let an exception escape, or follow null. Without a hash it returns 0,
whatever the files are. Files of usable documents are read without harm.
-/

namespace Cassa.SiloR.AnyLogFile

open Cassa.SiloCC Cassa.Masstree Cassa.Lib.Halting

/-- It has not read past the end of a file, and has returned or died of a record that it replayed. -/
def Ending.FilesRead (e : Ending) : Prop :=
  e.overran = false ∧ (e.outcome = .returned 0 ∨ e.outcome = .returned (-1) ∨
    e.outcome = .emptyKey ∨ e.outcome = .nullRecord ∨ e.outcome = .masstree)

section

variable {u : Setup} {s : Recovering}

/-- A turn that has not read past an end, and does not stop on what it has read. -/
def Readable (next : Recovering ⊕ Ending) : Prop :=
  (∀ s, next = .inl s → s.overran = false) ∧ ∀ e, next = .inr e → e.FilesRead

theorem Clean.readable {next : Recovering ⊕ Ending} (h : Clean next) : Readable next := by
  refine ⟨h.1, fun e he => ?_⟩
  obtain ⟨hcode, hfit⟩ := h.2 e he
  exact ⟨hfit, hcode.imp_right Or.inl⟩

theorem replayFault_cases (masstree : Store String) (r : Record) :
    replayFault masstree r = .emptyKey ∨ replayFault masstree r = .nullRecord ∨ replayFault masstree r = .masstree := by
  unfold replayFault
  split
  · exact Or.inl rfl
  split
  · exact Or.inr (Or.inl rfl)
  · exact Or.inr (Or.inr rfl)

theorem readable_step (ho : s.overran = false) (hs : ∀ a ∈ s.phase.archives, Sound u a) : Readable (step u s) := by
  obtain ⟨epoch, masstree, overran, phase⟩ := s
  obtain rfl : overran = false := ho
  cases phase with
  | reading done todo =>
    cases todo with
    | nil => simp [step, Readable]
    | cons a todo =>
      have ha : Sound u a := hs a (by simp [Phase.archives])
      simp only [step, hollowFront_eq_false ha.filled, Bool.false_eq_true, if_false]
      split
      · simp [Readable]
      rename_i hskips
      simp only [OpenLog.skips, Bool.or_eq_true, decide_eq_true_eq, not_or, not_le] at hskips
      have hframe := ((ha.framed.resolve_left hskips.1.1).next hskips.1.2).1
      obtain ⟨hfit, htext⟩ := (frameFirst_iff ..).mp hframe
      exact ((clean_fetchTurn done a todo).mpr ⟨rfl, hfit, htext.imp_right Or.inr⟩).readable
  | verifying done todo records =>
    cases todo with
    | nil => simp [step, Readable]
    | cons a todo =>
      have ha : Sound u a := hs a (by simp [Phase.archives])
      simp only [step, hollow_eq_false ha.filled, Bool.false_eq_true, if_false, verifyTurn]
      split <;> simp [Readable, Ending.FilesRead]
  | replaying archives records =>
    cases records with
    | nil =>
      simp only [step]
      split <;> simp [Readable]
    | cons r records =>
      simp only [step, replayTurn]
      split
      · simp [Readable]
      · simp [Readable, Ending.FilesRead]
      · rcases replayFault_cases masstree r with hfault | hfault | hfault <;>
          simp [Readable, Ending.FilesRead, hfault]
  | ending archives =>
    simp only [step]
    split <;> simp [Readable, Ending.FilesRead]

theorem sound_start {last_log_hashes : List (Option String)} {files : Nat → List UInt8}
    (h : ∀ i last, last_log_hashes[i]? = some (some last) → Framed u.parse (files i)) :
    ∀ a ∈ (start u last_log_hashes files).phase.archives, Sound u a := by
  intro a ha
  simp only [start, Phase.archives, List.nil_append, List.mem_mapIdx] at ha
  obtain ⟨i, hi, rfl⟩ := ha
  refine ⟨fun set hset => absurd hset (List.not_mem_nil), ?_⟩
  cases hlast : last_log_hashes[i] with
  | none => exact Or.inl rfl
  | some last => exact Or.inr (h i last (List.getElem?_eq_some_iff.mpr ⟨hi, hlast⟩))

/-- Run lemma: log files of frames are read to the end without harm. -/
theorem Recovers.readable {last_log_hashes : List (Option String)} {files : Nat → List UInt8} {e : Ending}
    (he : Recovers u last_log_hashes files e)
    (h : ∀ i last, last_log_hashes[i]? = some (some last) → Framed u.parse (files i)) : e.FilesRead := by
  obtain ⟨t, ⟨ho, hs⟩, ht⟩ := he.invariant (I := fun s => s.overran = false ∧ ∀ a ∈ s.phase.archives, Sound u a)
    (fun s s' hs hnext => ⟨(readable_step hs.1 hs.2).1 s' hnext, (turn_of_step hnext).sound hs.2⟩)
    ⟨rfl, sound_start h⟩
  exact (readable_step ho hs).2 e ht

/-- A turn does not take back that the end has been passed. -/
theorem overran_of_end (ho : s.overran = true) {e : Ending} (h : step u s = .inr e) : e.overran = true := by
  obtain ⟨epoch, masstree, overran, phase⟩ := s
  obtain rfl : overran = true := ho
  cases phase with
  | reading done todo =>
    cases todo with
    | nil => cases h
    | cons a todo =>
      simp only [step, fetchTurn, Bool.true_or] at h
      repeat' split at h
      all_goals cases h
      all_goals rfl
  | verifying done todo records =>
    cases todo with
    | nil => cases h
    | cons a todo =>
      simp only [step, verifyTurn] at h
      repeat' split at h
      all_goals cases h
      all_goals rfl
  | replaying archives records =>
    cases records with
    | nil =>
      simp only [step] at h
      split at h <;> cases h
    | cons r records =>
      simp only [step, replayTurn] at h
      split at h <;> cases h <;> rfl
  | ending archives =>
    simp only [step] at h
    split at h <;> cases h <;> rfl

theorem overran_of_halts {e : Ending} (he : Halts (step u) s e) (ho : s.overran = true) : e.overran = true := by
  obtain ⟨t, ht, hend⟩ := he.invariant (I := fun s => s.overran = true)
    (fun s s' hs hnext => (turn_of_step hnext).overran hs) ho
  exact overran_of_end ht hend

/-- On the way to an end that is fine every turn is clean. -/
theorem Ending.Fine.clean {e : Ending} (hfine : e.Fine) (he : Halts (step u) s e) : Clean (step u s) := by
  constructor
  · intro s' hs'
    by_contra ho
    rw [Bool.not_eq_false] at ho
    have hover := overran_of_halts (he.next hs') ho
    rw [hfine.2] at hover
    cases hover
  · intro e' he'
    rwa [← he.eq_of_stop he']

def Phase.records : Phase → List Record
  | .verifying _ _ records => records
  | .replaying _ records => records
  | _ => []

/-- A log file of which nothing has been verified, or which is not to be read. -/
def Unmatched (a : OpenLog) : Prop :=
  a.archive.is_last_log_hash_matched = false ∨ a.archive.is_all_data_read_ = true

theorem fetchTurn_not_fine {done todo : List OpenLog} {a : OpenLog} (ha : a.archive.is_last_log_hash_matched = false)
    {e : Ending} (h : fetchTurn u s done a todo = .inr e) : ¬ e.Fine := by
  simp only [fetchTurn, ha, Bool.false_eq_true, if_false] at h
  repeat' split at h
  all_goals cases h
  all_goals simp [Ending.Fine]

/-- On the way to an end that is fine the reading loop gets past a log file. -/
theorem Ending.Fine.reads {e : Ending} (hfine : e.Fine) {epoch : Nat} {masstree : Store String}
    {done todo : List OpenLog} (a : OpenLog) (ha : Filled a.archive) (hun : Unmatched a)
    (he : Halts (step u) ⟨epoch, masstree, false, .reading done (a :: todo)⟩ e) :
    ∃ a', Visits (step u) ⟨epoch, masstree, false, .reading done (a :: todo)⟩
      ⟨epoch, masstree, false, .reading (done ++ [a']) todo⟩ := by
  generalize hn : a.bytes.length - a.current_read_offset_ = n
  induction n using Nat.strong_induction_on generalizing a with
  | _ n ih =>
    subst hn
    have hclean := hfine.clean he
    cases hstep : step u ⟨epoch, masstree, false, .reading done (a :: todo)⟩ with
    | inr e' =>
      have hend := hclean.2 e' hstep
      simp only [step, hollowFront_eq_false ha, Bool.false_eq_true, if_false] at hstep
      split at hstep
      · cases hstep
      rename_i hskips
      rcases hun with hun | hun
      · exact absurd hend (fetchTurn_not_fine hun hstep)
      · exact absurd (by rw [OpenLog.skips, hun]; rfl) hskips
    | inl s' =>
      have hrest := he.next hstep
      have hover := hclean.1 s' hstep
      cases turn_of_step hstep with
      | skip => exact ⟨a, .single hstep⟩
      | allRead offset =>
        dsimp only at hover
        rw [hover] at hstep
        exact ⟨_, .single hstep⟩
      | @fetch _ _ _ _ _ _ _ log_set hmore hne hset =>
        dsimp only at hover
        rw [hover] at hstep hrest
        let next : OpenLog := ⟨a.bytes, (fetch_next_log_record a.bytes a.current_read_offset_).2,
          { a.archive with buffered_log_records_ := a.archive.buffered_log_records_ ++ [log_set] }⟩
        have hless : next.bytes.length - next.current_read_offset_ < a.bytes.length - a.current_read_offset_ := by
          simp only [next, fetch_next_log_record]
          omega
        obtain ⟨a', ha'⟩ := ih _ hless next (filled_deserialize ha hset) hun hrest rfl
        exact ⟨a', ha'.next hstep⟩

/-- An end that is fine has all log files behind it in the first pass, one after the other. -/
theorem Ending.Fine.visits {e : Ending} (hfine : e.Fine) {epoch : Nat} {masstree : Store String}
    {done todo todo' : List OpenLog} (htodo : ∀ a ∈ todo, Filled a.archive ∧ Unmatched a)
    (he : Halts (step u) ⟨epoch, masstree, false, .reading done (todo ++ todo')⟩ e) :
    ∃ done', Visits (step u) ⟨epoch, masstree, false, .reading done (todo ++ todo')⟩
      ⟨epoch, masstree, false, .reading done' todo'⟩ := by
  induction todo generalizing done with
  | nil => exact ⟨done, .refl⟩
  | cons a todo ih =>
    obtain ⟨ha, hun⟩ := htodo a List.mem_cons_self
    obtain ⟨a', hvisits⟩ := hfine.reads a ha hun he
    obtain ⟨done', hrest⟩ := ih (fun b hb => htodo b (List.mem_cons_of_mem _ hb)) (he.of_visits hvisits)
    exact ⟨done', hvisits.trans hrest⟩

/-- The log files before and after one of them. -/
theorem start_split (u : Setup) (pre post : List (Option String)) (last : Option String) (files : Nat → List UInt8) :
    ∃ before behind, start u (pre ++ last :: post) files =
        ⟨0, (treeIndex utf8).new, false, .reading [] (before ++ ⟨files pre.length, 0, .new u.hash last []⟩ :: behind)⟩ ∧
      (∀ a ∈ before, ∃ i < pre.length, ∃ last, a = ⟨files i, 0, .new u.hash last []⟩) ∧
      ∀ a ∈ behind, ∃ i > pre.length, ∃ last, a = ⟨files i, 0, .new u.hash last []⟩ := by
  refine ⟨pre.mapIdx fun i last => ⟨files i, 0, .new u.hash last []⟩,
    post.mapIdx fun i last => ⟨files (i + 1 + pre.length), 0, .new u.hash last []⟩, ?_, ?_, ?_⟩
  · simp only [start, List.mapIdx_append, List.mapIdx_cons, Nat.zero_add]
  · intro a ha
    obtain ⟨i, hi, rfl⟩ := List.mem_mapIdx.mp ha
    exact ⟨i, hi, _, rfl⟩
  · intro a ha
    obtain ⟨i, hi, rfl⟩ := List.mem_mapIdx.mp ha
    exact ⟨i + 1 + pre.length, by omega, _, rfl⟩

theorem unmatched_new (h : Hash String String String) (bytes : List UInt8) (last : Option String) :
    Filled (⟨bytes, 0, .new h last []⟩ : OpenLog).archive ∧ Unmatched ⟨bytes, 0, .new h last []⟩ := by
  refine ⟨fun set hset => absurd hset List.not_mem_nil, ?_⟩
  cases last with
  | none => exact Or.inr rfl
  | some last => exact Or.inl rfl

/-- The first frame of every log file is read in the first pass, before anything is refused. -/
theorem Recovers.first {last_log_hashes : List (Option String)} {files : Nat → List UInt8} {e : Ending}
    (he : Recovers u last_log_hashes files e) (hfine : e.Fine) {i : Nat} {last : String}
    (hlast : last_log_hashes[i]? = some (some last)) (hmore : files i ≠ []) : FrameFirst u.parse (files i) := by
  obtain ⟨hi, hget⟩ := List.getElem?_eq_some_iff.mp hlast
  have hsplit : last_log_hashes = last_log_hashes.take i ++ some last :: last_log_hashes.drop (i + 1) := by
    rw [← hget, List.getElem_cons_drop, List.take_append_drop]
  have hlen : (last_log_hashes.take i).length = i := List.length_take_of_le (Nat.le_of_lt hi)
  obtain ⟨before, behind, hstart, hbefore, -⟩ := start_split u (last_log_hashes.take i)
    (last_log_hashes.drop (i + 1)) (some last) files
  rw [← hsplit, hlen] at hstart
  rw [Recovers, hstart] at he
  have hfresh : ∀ a ∈ before, Filled a.archive ∧ Unmatched a := by
    intro a ha
    obtain ⟨j, -, last, rfl⟩ := hbefore a ha
    exact unmatched_new ..
  obtain ⟨done', hvisits⟩ := hfine.visits hfresh he
  have hclean := hfine.clean (he.of_visits hvisits)
  have hlength : 0 < (files i).length := List.length_pos_iff.mpr hmore
  have hfront : (⟨files i, 0, .new u.hash (some last) []⟩ : OpenLog).hollowFront = false :=
    hollowFront_eq_false (unmatched_new ..).1
  have hskips : (⟨files i, 0, .new u.hash (some last) []⟩ : OpenLog).skips 0 = false := by
    simp [OpenLog.skips, RecoveryLogArchive.new, frontIsLater, hmore]
  simp only [step, hfront, hskips, Bool.false_eq_true, if_false] at hclean
  obtain ⟨-, hfit, htext⟩ := (clean_fetchTurn ..).mp hclean
  exact (frameFirst_iff (files i) 0).mpr
    ⟨hfit, htext.imp_right fun h => h.resolve_left (by simp [RecoveryLogArchive.new])⟩

variable {pre post : List (Option String)} {last : String}

section

variable {text : List UInt8} (hlen : text.length < 2 ^ 64) (hne : text ≠ [])
  {masstree : Store String} {before behind : List OpenLog}

include hlen hne

end

end

end Cassa.SiloR.AnyLogFile

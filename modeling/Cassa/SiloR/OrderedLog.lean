import Cassa.SiloR.ReplayOnce
import Cassa.SiloR.HonestLog

/-!
# A log in the order of its epochs

The passes over a log file whose sets come in the order of their epochs. Its first set is
read early, the rest in the epoch of that set; then each pass verifies the sets of its
epoch and appends, at each of them, the records of all that are left.
-/

namespace Cassa.SiloR

open Cassa.SiloCC

variable {K β D : Type}

/-- The hash that the next set has to carry. -/
def setsEnd (h : Hash K β D) (prev : D) (sets : List (RecoveryLogSet K β D)) : D :=
  (sets.getLast?.map fun set => h.ofSet set.log_sets_).getD prev

theorem setsEnd_cons (h : Hash K β D) (prev : D) (set : RecoveryLogSet K β D)
    (sets : List (RecoveryLogSet K β D)) :
    setsEnd h prev (set :: sets) = setsEnd h (h.ofSet set.log_sets_) sets := by
  unfold setsEnd
  cases sets with
  | nil => rfl
  | cons set' sets =>
    rw [List.getLast?_cons_cons, List.getLast?_cons]
    rfl

theorem setsEnd_concat (h : Hash K β D) (prev : D) (sets : List (RecoveryLogSet K β D))
    (set : RecoveryLogSet K β D) : setsEnd h prev (sets ++ [set]) = h.ofSet set.log_sets_ := by
  simp [setsEnd]

theorem setsEnd_append (h : Hash K β D) (prev : D) (xs ys : List (RecoveryLogSet K β D)) :
    setsEnd h prev (xs ++ ys) = setsEnd h (setsEnd h prev xs) ys := by
  induction xs generalizing prev with
  | nil => rfl
  | cons set xs ih => rw [List.cons_append, setsEnd_cons, setsEnd_cons, ih]

section
variable [DecidableEq D] {h : Hash K β D}

theorem passes_append {prev : D} {xs ys : List (RecoveryLogSet K β D)} :
    Passes h prev (xs ++ ys) ↔ Passes h prev xs ∧ Passes h (setsEnd h prev xs) ys := by
  induction xs generalizing prev with
  | nil => simp [Passes, setsEnd]
  | cons set xs ih =>
    rw [List.cons_append, Passes, ih, Passes, setsEnd_cons, and_assoc, and_assoc]

theorem previous_foldl_accept (sets : List (RecoveryLogSet K β D)) (a : RecoveryLogArchive K β D) :
    (sets.foldl (RecoveryLogArchive.accept h) a).previous_epoch_hash_ =
      setsEnd h a.previous_epoch_hash_ sets := by
  induction sets generalizing a with
  | nil => rfl
  | cons set sets ih =>
    rw [List.foldl_cons, ih, setsEnd_cons]
    rfl

theorem unread_foldl_accept (sets : List (RecoveryLogSet K β D)) (a : RecoveryLogArchive K β D) :
    (sets.foldl (RecoveryLogArchive.accept h) a).unread = a.unread := by
  induction sets generalizing a with
  | nil => rfl
  | cons set sets ih =>
    rw [List.foldl_cons, ih]
    rfl

theorem last_foldl_accept (sets : List (RecoveryLogSet K β D)) (a : RecoveryLogArchive K β D) :
    (sets.foldl (RecoveryLogArchive.accept h) a).last_log_hash_ = a.last_log_hash_ := by
  induction sets generalizing a with
  | nil => rfl
  | cons set sets ih =>
    rw [List.foldl_cons, ih]
    rfl

theorem matched_foldl_accept {sets : List (RecoveryLogSet K β D)} {a : RecoveryLogArchive K β D}
    (hlast : a.is_last_log_hash_matched = true ∨
      ∃ set ∈ sets, a.last_log_hash_ = some (h.ofSet set.log_sets_)) :
    (sets.foldl (RecoveryLogArchive.accept h) a).is_last_log_hash_matched = true := by
  induction sets generalizing a with
  | nil =>
    rcases hlast with hm | ⟨set, hset, -⟩
    · exact hm
    · cases hset
  | cons x sets ih =>
    refine ih ?_
    rcases hlast with hm | ⟨set, hset, hlast⟩
    · left
      simp [RecoveryLogArchive.accept, hm]
    rcases List.mem_cons.mp hset with rfl | hset
    · left
      simp [RecoveryLogArchive.accept, hlast]
    · exact Or.inr ⟨set, hset, hlast⟩

/-- Sets that link up and whose records link up pass. -/
theorem verifyLoop_of_passes {e : BitVec 32} {todo : List (RecoveryLogSet K β D)}
    {a : RecoveryLogArchive K β D} (skipped : List (RecoveryLogSet K β D)) (rs : List (RecoveryLogRecord K β D))
    (hpass : Passes h a.previous_epoch_hash_ (ofEpoch e todo)) :
    ∃ p, verifyLoop h e skipped todo a rs = .ok p := by
  induction todo generalizing skipped a rs with
  | nil => exact ⟨_, rfl⟩
  | cons set todo ih =>
    by_cases hset : set.epoch_ = e
    · rw [ofEpoch_cons_pos hset] at hpass
      obtain ⟨hprev, hlevel, hrest⟩ := hpass
      rw [verifyLoop, if_pos hset, if_neg (not_not.mpr hprev), if_neg (by simp [hlevel])]
      exact ih (a := a.accept h set) _ _ hrest
    · rw [ofEpoch_cons_neg hset] at hpass
      rw [verifyLoop, if_neg hset]
      exact ih _ _ hpass

theorem Chained.passes {prev : D} {docs : List (JsonLog K β D)} (hdocs : Chained h prev docs) :
    Passes h prev (docs.map setOf) := by
  induction docs generalizing prev with
  | nil => trivial
  | cons doc docs ih =>
    obtain ⟨⟨rs, -, hdoc⟩, hrest⟩ := hdocs
    refine ⟨?_, ?_, ih hrest⟩
    · rw [hdoc]
      rfl
    · rw [hdoc]
      exact verify_log_level_create_json_log h prev rs

end

/-- A log file as it was written, with the epochs in order. -/
structure OrderedLog (h : Hash K β D) (docs : List (JsonLog K β D)) : Prop where
  chained : Chained h h.passphrase docs
  uniform : ∀ doc ∈ docs, ∀ r ∈ doc.log_set, r.tid_.epoch = (setOf doc).epoch_
  ordered : docs.Pairwise fun doc doc' => (setOf doc).epoch_.toNat ≤ (setOf doc').epoch_.toNat

theorem OrderedLog.frontIsLater {h : Hash K β D} {docs : List (JsonLog K β D)}
    (hlog : OrderedLog h docs) {doc : JsonLog K β D} (hdoc : doc ∈ docs)
    (sets : List (RecoveryLogSet K β D)) (c : Nat) :
    frontIsLater c (setOf doc :: sets) = decide ((setOf doc).epoch_.toNat > c) := by
  unfold SiloR.frontIsLater
  cases hl : doc.log_set with
  | nil => exact absurd hl (hlog.chained.log_set_ne hdoc)
  | cons r rs =>
    have hr := hlog.uniform doc hdoc r (by rw [hl]; exact List.mem_cons_self)
    have hsets : (setOf doc).log_sets_ = r :: rs := hl
    simp [hsets, hr]

/-- Of sets in order, none before epoch `c`, those of epoch `c` come first. -/
theorem split_epoch {c : Nat} {todo : List (JsonLog K β D)}
    (hord : todo.Pairwise fun doc doc' => (setOf doc).epoch_.toNat ≤ (setOf doc').epoch_.toNat)
    (hfrom : ∀ doc ∈ todo, c ≤ (setOf doc).epoch_.toNat) :
    ∃ now later, todo = now ++ later ∧ (∀ doc ∈ now, (setOf doc).epoch_.toNat = c) ∧
      ∀ doc ∈ later, c < (setOf doc).epoch_.toNat := by
  induction todo with
  | nil => exact ⟨[], [], rfl, by simp, by simp⟩
  | cons doc todo ih =>
    obtain ⟨hle, hord⟩ := List.pairwise_cons.mp hord
    rcases Nat.lt_or_eq_of_le (hfrom doc List.mem_cons_self) with hlt | heq
    · refine ⟨[], doc :: todo, rfl, by simp, ?_⟩
      intro x hx
      rcases List.mem_cons.mp hx with rfl | hx
      · exact hlt
      · exact hlt.trans_le (hle x hx)
    · obtain ⟨now, later, htodo, hnow, hlater⟩ := ih hord fun x hx =>
        hfrom x (List.mem_cons_of_mem _ hx)
      refine ⟨doc :: now, later, by rw [htodo]; rfl, ?_, hlater⟩
      intro x hx
      rcases List.mem_cons.mp hx with rfl | hx
      · exact heq.symm
      · exact hnow x hx

theorem epoch_eq_iff {c : Nat} (hc : c < 2 ^ 32) (e : BitVec 32) :
    e = BitVec.ofNat 32 c ↔ e.toNat = c := by
  rw [← BitVec.toNat_inj, BitVec.toNat_ofNat, Nat.mod_eq_of_lt hc]

theorem ofEpoch_split {c : Nat} (hc : c < 2 ^ 32) {now later : List (JsonLog K β D)}
    (hnow : ∀ doc ∈ now, (setOf doc).epoch_.toNat = c)
    (hlater : ∀ doc ∈ later, c < (setOf doc).epoch_.toNat) :
    ofEpoch (BitVec.ofNat 32 c) ((now ++ later).map setOf) = now.map setOf ∧
      othersThan (BitVec.ofNat 32 c) ((now ++ later).map setOf) = later.map setOf := by
  have hyes : ∀ set ∈ now.map setOf, set.epoch_ = BitVec.ofNat 32 c := by
    intro set hset
    obtain ⟨doc, hdoc, rfl⟩ := List.mem_map.mp hset
    exact (epoch_eq_iff hc _).mpr (hnow doc hdoc)
  have hno : ∀ set ∈ later.map setOf, set.epoch_ ≠ BitVec.ofNat 32 c := by
    intro set hset heq
    obtain ⟨doc, hdoc, rfl⟩ := List.mem_map.mp hset
    have := (epoch_eq_iff hc _).mp heq
    have := hlater doc hdoc
    omega
  unfold ofEpoch othersThan
  rw [List.map_append, List.filter_append, List.filter_append]
  constructor
  · rw [List.filter_eq_self.mpr (by simpa using hyes), List.filter_eq_nil_iff.mpr (by simpa using hno),
      List.append_nil]
  · rw [List.filter_eq_nil_iff.mpr (by simpa using hyes), List.filter_eq_self.mpr (by simpa using hno),
      List.nil_append]

theorem setsEnd_map_setOf (h : Hash K β D) (prev : D) (docs : List (JsonLog K β D)) :
    setsEnd h prev (docs.map setOf) = chainEnd h prev docs := by
  unfold setsEnd chainEnd
  rw [List.getLast?_map, Option.map_map]
  rfl

/-- The records that the pass for epoch `c` appends: those of the sets that are left, once
for each set of the epoch, from that set on. -/
def leaked (c : Nat) (docs : List (JsonLog K β D)) : List (RecoveryLogRecord K β D) :=
  appended (BitVec.ofNat 32 c) [] ((docs.filter fun doc => c ≤ (setOf doc).epoch_.toNat).map setOf)

theorem mem_of_mem_appended {e : BitVec 32} {skipped todo : List (RecoveryLogSet K β D)}
    {r : RecoveryLogRecord K β D} (hr : r ∈ appended e skipped todo) :
    ∃ set ∈ skipped ++ todo, r ∈ set.log_sets_ := by
  induction todo generalizing skipped with
  | nil => cases hr
  | cons set todo ih =>
    rw [appended] at hr
    split at hr
    · rcases List.mem_append.mp hr with hr | hr
      · exact List.mem_flatMap.mp hr
      · obtain ⟨x, hx, hrx⟩ := ih hr
        refine ⟨x, ?_, hrx⟩
        rcases List.mem_append.mp hx with hx | hx
        · exact List.mem_append_left _ hx
        · exact List.mem_append_right _ (List.mem_cons_of_mem _ hx)
    · obtain ⟨x, hx, hrx⟩ := ih hr
      rw [List.append_assoc] at hx
      exact ⟨x, hx, hrx⟩

theorem mem_appended {e : BitVec 32} {skipped todo : List (RecoveryLogSet K β D)}
    {set : RecoveryLogSet K β D} (hset : set ∈ todo) (he : set.epoch_ = e)
    {r : RecoveryLogRecord K β D} (hr : r ∈ set.log_sets_) : r ∈ appended e skipped todo := by
  induction todo generalizing skipped with
  | nil => cases hset
  | cons x todo ih =>
    rw [appended]
    rcases List.mem_cons.mp hset with rfl | hset
    · rw [if_pos he]
      refine List.mem_append_left _ (List.mem_flatMap.mpr ⟨set, ?_, hr⟩)
      exact List.mem_append_right _ List.mem_cons_self
    · split
      · exact List.mem_append_right _ (ih hset)
      · exact ih hset

theorem mem_of_mem_leaked {c : Nat} {docs : List (JsonLog K β D)} {r : RecoveryLogRecord K β D}
    (hr : r ∈ leaked c docs) : ∃ doc ∈ docs, c ≤ (setOf doc).epoch_.toNat ∧ r ∈ doc.log_set := by
  obtain ⟨set, hset, hrs⟩ := mem_of_mem_appended hr
  rw [List.nil_append] at hset
  obtain ⟨doc, hdoc, rfl⟩ := List.mem_map.mp hset
  obtain ⟨hdoc, hle⟩ := List.mem_filter.mp hdoc
  exact ⟨doc, hdoc, of_decide_eq_true hle, hrs⟩

theorem mem_leaked {docs : List (JsonLog K β D)} {doc : JsonLog K β D} (hdoc : doc ∈ docs)
    {r : RecoveryLogRecord K β D} (hr : r ∈ doc.log_set) : r ∈ leaked (setOf doc).epoch_.toNat docs := by
  have hmem : setOf doc ∈ (docs.filter fun doc' => (setOf doc).epoch_.toNat ≤ (setOf doc').epoch_.toNat).map setOf :=
    List.mem_map_of_mem (List.mem_filter.mpr ⟨hdoc, by simp⟩)
  exact mem_appended hmem (by simp) hr

theorem leaked_of_later {c : Nat} {docs : List (JsonLog K β D)}
    (hlater : ∀ doc ∈ docs, c < (setOf doc).epoch_.toNat) : leaked c docs = [] := by
  refine (appended_of_none [] ?_).1
  intro set hset
  obtain ⟨doc, hdoc, rfl⟩ := List.mem_map.mp hset
  have hlt := hlater doc (List.mem_of_mem_filter hdoc)
  intro heq
  have := (epoch_eq_iff (hlt.trans (setOf doc).epoch_.isLt) _).mp heq
  omega

theorem leaked_of_split {c : Nat} {done todo : List (JsonLog K β D)}
    (hpast : ∀ doc ∈ done, (setOf doc).epoch_.toNat < c)
    (hfrom : ∀ doc ∈ todo, c ≤ (setOf doc).epoch_.toNat) :
    leaked c (done ++ todo) = appended (BitVec.ofNat 32 c) [] (todo.map setOf) := by
  have hdone : done.filter (fun doc => c ≤ (setOf doc).epoch_.toNat) = [] := by
    rw [List.filter_eq_nil_iff]
    intro doc hdoc
    have := hpast doc hdoc
    simpa using this
  have htodo : todo.filter (fun doc => c ≤ (setOf doc).epoch_.toNat) = todo := by
    rw [List.filter_eq_self]
    intro doc hdoc
    simpa using hfrom doc hdoc
  rw [leaked, List.filter_append, hdone, htodo, List.nil_append]

section
variable [DecidableEq D] {h : Hash K β D} {docs done todo : List (JsonLog K β D)} {last : D} {c : Nat}
  {a : RecoveryLogArchive K β D}

/-- The archive from the first accepted set on: everything is read, the sets `todo` are
in the buffer. -/
structure Draining (h : Hash K β D) (docs : List (JsonLog K β D)) (last_log_hash : D)
    (done todo : List (JsonLog K β D)) (a : RecoveryLogArchive K β D) : Prop where
  split : docs = done ++ todo
  unread : a.unread = []
  buffer : a.buffered_log_records_ = todo.map setOf
  accepted : a.accepted = done.map setOf
  prev : a.previous_epoch_hash_ = chainEnd h h.passphrase done
  last : a.last_log_hash_ = some last_log_hash
  matched : ∀ doc ∈ done, h.ofSet doc.log_set = last_log_hash → a.is_last_log_hash_matched = true

/-- An archive before epoch `c`. -/
inductive InOrder (h : Hash K β D) (docs : List (JsonLog K β D)) (last : D) (c : Nat)
    (a : RecoveryLogArchive K β D) : Prop
  | waiting (hw : Waiting h docs last a) (hnone : a.accepted = [])
      (hfrom : ∀ doc ∈ docs, c ≤ (setOf doc).epoch_.toNat)
  | draining (done todo : List (JsonLog K β D)) (hd : Draining h docs last done todo a)
      (hpast : ∀ doc ∈ done, (setOf doc).epoch_.toNat < c)
      (hfrom : ∀ doc ∈ todo, c ≤ (setOf doc).epoch_.toNat)

/-- The sets of one epoch pass, and leave those behind them. -/
theorem Draining.verify (hlog : OrderedLog h docs) (ha : Draining h docs last done todo a)
    (hpast : ∀ doc ∈ done, (setOf doc).epoch_.toNat < c)
    (hfrom : ∀ doc ∈ todo, c ≤ (setOf doc).epoch_.toNat) :
    ∃ a', (∀ rs, verify_epoch_level_integrity h (BitVec.ofNat 32 c) a rs = .ok (a', rs ++ leaked c docs)) ∧
      InOrder h docs last (c + 1) a' := by
  have hleak : leaked c docs = appended (BitVec.ofNat 32 c) [] a.buffered_log_records_ := by
    rw [ha.split, leaked_of_split hpast hfrom, ha.buffer]
  by_cases htodo : todo = []
  · subst htodo
    have hbuf : a.buffered_log_records_ = [] := ha.buffer
    refine ⟨a, ?_, .draining done [] ha (fun doc hdoc => Nat.lt_succ_of_lt (hpast doc hdoc)) (by simp)⟩
    intro rs
    rw [hleak, hbuf, appended, List.append_nil, verify_epoch_level_integrity, hbuf, verifyLoop, ← hbuf]
  have hc : c < 2 ^ 32 := by
    obtain ⟨doc, hdoc⟩ := List.exists_mem_of_ne_nil todo htodo
    exact (hfrom doc hdoc).trans_lt (setOf doc).epoch_.isLt
  have hord := hlog.ordered
  rw [ha.split] at hord
  obtain ⟨now, later, rfl, hnow, hlater⟩ := split_epoch (List.pairwise_append.mp hord).2.1 hfrom
  obtain ⟨hof, hothers⟩ := ofEpoch_split hc hnow hlater
  have hpasses := hlog.chained.passes
  rw [ha.split, List.map_append, passes_append, List.map_append, passes_append] at hpasses
  rw [setsEnd_map_setOf] at hpasses
  have hpass : Passes h a.previous_epoch_hash_
      (ofEpoch (BitVec.ofNat 32 c) a.buffered_log_records_) := by
    rw [ha.buffer, hof, ha.prev]
    exact hpasses.2.1
  have hend : setsEnd h a.previous_epoch_hash_ (now.map setOf) =
      chainEnd h h.passphrase (done ++ now) := by
    rw [ha.prev, ← setsEnd_map_setOf h h.passphrase done, ← setsEnd_append, ← List.map_append,
      setsEnd_map_setOf]
  refine ⟨{ (now.map setOf).foldl (RecoveryLogArchive.accept h) a with
    buffered_log_records_ := later.map setOf }, ?_, .draining (done ++ now) later ?_ ?_ hlater⟩
  · intro rs
    obtain ⟨p, hp⟩ := verifyLoop_of_passes [] rs hpass
    obtain ⟨harch, hrs, -⟩ := verifyLoop_ok hp
    rw [verify_epoch_level_integrity, hp, hleak]
    refine congrArg Except.ok (Prod.ext ?_ hrs)
    rw [harch, ha.buffer, hof, hothers, List.nil_append]
  · refine ⟨by rw [ha.split, List.append_assoc], ?_, rfl, ?_, ?_, ?_, ?_⟩
    · exact (unread_foldl_accept _ a).trans ha.unread
    · dsimp only
      rw [accepted_foldl_accept, ha.accepted, List.map_append]
    · dsimp only
      rw [previous_foldl_accept, hend]
    · exact (last_foldl_accept _ a).trans ha.last
    · intro doc hdoc hlast
      refine matched_foldl_accept ?_
      rcases List.mem_append.mp hdoc with hdoc | hdoc
      · exact Or.inl (ha.matched doc hdoc hlast)
      · exact Or.inr ⟨setOf doc, List.mem_map_of_mem hdoc, ha.last.trans (congrArg some hlast.symm)⟩
  · intro doc hdoc
    rcases List.mem_append.mp hdoc with hdoc | hdoc
    · exact Nat.lt_succ_of_lt (hpast doc hdoc)
    · exact Nat.lt_succ_of_le (hnow doc hdoc).le

/-- Before the epoch of the first set nothing is verified. -/
theorem Waiting.early (hlog : OrderedLog h docs) (hw : Waiting h docs last a) (hnone : a.accepted = [])
    (hearly : ∀ doc ∈ docs, c < (setOf doc).epoch_.toNat) :
    ∃ a₁ a', readAhead c a.unread a = .ok a₁ ∧
      (∀ rs, verify_epoch_level_integrity h (BitVec.ofNat 32 c) a₁ rs = .ok (a', rs ++ leaked c docs)) ∧
      InOrder h docs last (c + 1) a' := by
  have hlater : ∀ doc ∈ docs.head?, ∀ sets, frontIsLater c (setOf doc :: sets) = true := by
    intro doc hdoc sets
    have hmem := List.mem_of_mem_head? hdoc
    rw [hlog.frontIsLater hmem]
    simpa using hearly doc hmem
  obtain ⟨a₁, hread, hw₁⟩ := readAhead_early hlog.chained hlater hw
  have hskip : ∀ set ∈ a₁.buffered_log_records_, set.epoch_ ≠ BitVec.ofNat 32 c := by
    obtain ⟨done, rest, hdocs, -, hbuf, -⟩ := hw₁.read
    intro set hset heq
    rw [hbuf] at hset
    obtain ⟨doc, hdoc, rfl⟩ := List.mem_map.mp hset
    have hmem : doc ∈ docs := by
      rw [hdocs]
      exact List.mem_append_left _ hdoc
    have hlt := hearly doc hmem
    have := (epoch_eq_iff (hlt.trans (setOf doc).epoch_.isLt) _).mp heq
    omega
  refine ⟨a₁, a₁, hread, ?_, .waiting hw₁ ?_ hearly⟩
  · intro rs
    rw [leaked_of_later hearly, List.append_nil, verify_epoch_level_integrity, verifyLoop_skip hskip,
      List.nil_append]
  · rw [(readAhead_ok hread).1, hnone]

/-- In the epoch of the first set the whole file is read. -/
theorem Waiting.due (hlog : OrderedLog h docs) (hw : Waiting h docs last a) (hnone : a.accepted = [])
    (hfrom : ∀ doc ∈ docs, c ≤ (setOf doc).epoch_.toNat)
    (hdue : ¬ ∀ doc ∈ docs, c < (setOf doc).epoch_.toNat) :
    ∃ a₁ a', readAhead c a.unread a = .ok a₁ ∧
      (∀ rs, verify_epoch_level_integrity h (BitVec.ofNat 32 c) a₁ rs = .ok (a', rs ++ leaked c docs)) ∧
      InOrder h docs last (c + 1) a' := by
  have hfirst : ∀ doc ∈ docs.head?, (setOf doc).epoch_.toNat ≤ c := by
    intro doc hdoc
    by_contra hlt
    refine hdue ?_
    intro x hx
    have hord := hlog.ordered
    cases docs with
    | nil => cases hx
    | cons d docs =>
      obtain rfl : d = doc := by simpa using hdoc
      rcases List.mem_cons.mp hx with rfl | hx
      · omega
      · have := (List.pairwise_cons.mp hord).1 x hx
        omega
  have hread : ∀ doc ∈ docs.head?, ∀ sets, frontIsLater c (setOf doc :: sets) = false := by
    intro doc hdoc sets
    rw [hlog.frontIsLater (List.mem_of_mem_head? hdoc)]
    simpa using hfirst doc hdoc
  obtain ⟨done, rest, hsplit, -, hbuf, hunread⟩ := hw.read
  have hok := readAhead_due hlog.chained hread hsplit hbuf hw.open_ hw.unmatched
  have hd : Draining h docs last [] docs
      { a with unread := [], buffered_log_records_ := docs.map setOf } :=
    ⟨rfl, rfl, rfl, hnone, hw.prev, hw.last, by simp⟩
  obtain ⟨a', hverify, ha'⟩ := hd.verify hlog (by simp) hfrom
  exact ⟨_, a', by rw [hunread]; exact hok, hverify, ha'⟩

/-- Step lemma: every pass succeeds. -/
theorem InOrder.step (hlog : OrderedLog h docs) (ha : InOrder h docs last c a) :
    ∃ a₁ a', readAhead c a.unread a = .ok a₁ ∧
      (∀ rs, verify_epoch_level_integrity h (BitVec.ofNat 32 c) a₁ rs = .ok (a', rs ++ leaked c docs)) ∧
      InOrder h docs last (c + 1) a' := by
  cases ha with
  | waiting hw hnone hfrom =>
    by_cases hearly : ∀ doc ∈ docs, c < (setOf doc).epoch_.toNat
    · exact hw.early hlog hnone hearly
    · exact hw.due hlog hnone hfrom hearly
  | draining done todo hd hpast hfrom =>
    obtain ⟨a', hverify, ha'⟩ := hd.verify hlog hpast hfrom
    refine ⟨a, a', ?_, hverify, ha'⟩
    rw [hd.unread, readAhead, ← hd.unread]

section
omit [DecidableEq D]

theorem InOrder.new (docs : List (JsonLog K β D)) (last : D) :
    InOrder h docs last 0 (.new h (some last) (docs.map .log)) :=
  .waiting ⟨⟨[], docs, rfl, by simp, rfl, rfl⟩, rfl, rfl, rfl, rfl⟩ rfl fun doc _ => Nat.zero_le _

/-- Once the epochs of all sets are over, the log is used up. -/
theorem InOrder.drained (hne : docs ≠ []) (hover : ∀ doc ∈ docs, (setOf doc).epoch_.toNat < c)
    (ha : InOrder h docs last c a) : Draining h docs last docs [] a := by
  cases ha with
  | waiting _ _ hfrom =>
    obtain ⟨doc, hdoc⟩ := List.exists_mem_of_ne_nil docs hne
    have := hfrom doc hdoc
    have := hover doc hdoc
    omega
  | draining done todo hd _ hfrom =>
    have htodo : todo = [] := by
      by_contra hnonempty
      obtain ⟨doc, hdoc⟩ := List.exists_mem_of_ne_nil todo hnonempty
      have := hfrom doc hdoc
      have := hover doc (by rw [hd.split]; exact List.mem_append_right _ hdoc)
      omega
    have hdone : done = docs := by rw [hd.split, htodo, List.append_nil]
    rwa [htodo, hdone] at hd

end

end

end Cassa.SiloR

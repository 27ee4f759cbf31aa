import Cassa.SiloR.Archives

/-!
# Which records a pass replays

At every set that passes, `verify_epoch_level_integrity` appends the records of the
whole buffer and erases that one set. The records of one set are appended once, and
nothing else is, when the buffer holds no other set.
-/

namespace Cassa.SiloR

open Cassa.SiloCC

variable {K β D σ : Type}

/-- What the loop of `verify_epoch_level_integrity` appends over the buffer
`skipped ++ todo`, when every set of its epoch passes. -/
def appended (current_epoch : BitVec 32) (skipped : List (RecoveryLogSet K β D)) :
    List (RecoveryLogSet K β D) → List (RecoveryLogRecord K β D)
  | [] => []
  | set :: todo =>
    if set.epoch_ = current_epoch then
      allRecords (skipped ++ set :: todo) ++ appended current_epoch skipped todo
    else appended current_epoch (skipped ++ [set]) todo

/-- The sets that the epoch is about. -/
def ofEpoch (current_epoch : BitVec 32) (sets : List (RecoveryLogSet K β D)) :
    List (RecoveryLogSet K β D) :=
  sets.filter fun set => set.epoch_ = current_epoch

def othersThan (current_epoch : BitVec 32) (sets : List (RecoveryLogSet K β D)) :
    List (RecoveryLogSet K β D) :=
  sets.filter fun set => set.epoch_ ≠ current_epoch

/-- Every set links to the one before it, the first to `prev`, and its records to each
other. -/
def Passes [DecidableEq D] (h : Hash K β D) : D → List (RecoveryLogSet K β D) → Prop
  | _, [] => True
  | prev, set :: sets => set.prev_epoch_hash_ = prev ∧
      verify_log_level_integrity h set.log_sets_ = true ∧ Passes h (h.ofSet set.log_sets_) sets

theorem ofEpoch_cons_pos {e : BitVec 32} {set : RecoveryLogSet K β D} (hset : set.epoch_ = e)
    (sets : List (RecoveryLogSet K β D)) : ofEpoch e (set :: sets) = set :: ofEpoch e sets :=
  List.filter_cons_of_pos (by simpa using hset)

theorem ofEpoch_cons_neg {e : BitVec 32} {set : RecoveryLogSet K β D} (hset : set.epoch_ ≠ e)
    (sets : List (RecoveryLogSet K β D)) : ofEpoch e (set :: sets) = ofEpoch e sets :=
  List.filter_cons_of_neg (by simpa using hset)

theorem othersThan_cons_pos {e : BitVec 32} {set : RecoveryLogSet K β D} (hset : set.epoch_ = e)
    (sets : List (RecoveryLogSet K β D)) : othersThan e (set :: sets) = othersThan e sets :=
  List.filter_cons_of_neg (by simpa using hset)

theorem othersThan_cons_neg {e : BitVec 32} {set : RecoveryLogSet K β D} (hset : set.epoch_ ≠ e)
    (sets : List (RecoveryLogSet K β D)) : othersThan e (set :: sets) = set :: othersThan e sets :=
  List.filter_cons_of_pos (by simpa using hset)

theorem mem_ofEpoch {e : BitVec 32} {set : RecoveryLogSet K β D}
    {sets : List (RecoveryLogSet K β D)} : set ∈ ofEpoch e sets ↔ set ∈ sets ∧ set.epoch_ = e := by
  simp [ofEpoch]

theorem allRecords_append (xs ys : List (RecoveryLogSet K β D)) :
    allRecords (xs ++ ys) = allRecords xs ++ allRecords ys := by
  simp [allRecords]

theorem allRecords_cons (set : RecoveryLogSet K β D) (sets : List (RecoveryLogSet K β D)) :
    allRecords (set :: sets) = set.log_sets_ ++ allRecords sets := rfl

section
variable [DecidableEq D] {h : Hash K β D}

theorem accepted_foldl_accept (sets : List (RecoveryLogSet K β D)) (a : RecoveryLogArchive K β D) :
    (sets.foldl (RecoveryLogArchive.accept h) a).accepted = a.accepted ++ sets := by
  induction sets generalizing a with
  | nil => simp
  | cons set sets ih =>
    rw [List.foldl_cons, ih]
    simp [RecoveryLogArchive.accept]

/-- A verification that succeeds: which sets it accepts, which stay, what it appends. -/
theorem verifyLoop_ok {e : BitVec 32} {skipped todo : List (RecoveryLogSet K β D)}
    {a : RecoveryLogArchive K β D} {rs : List (RecoveryLogRecord K β D)}
    {p : RecoveryLogArchive K β D × List (RecoveryLogRecord K β D)}
    (hok : verifyLoop h e skipped todo a rs = .ok p) :
    p.1 = { (ofEpoch e todo).foldl (RecoveryLogArchive.accept h) a with
        buffered_log_records_ := skipped ++ othersThan e todo } ∧
      p.2 = rs ++ appended e skipped todo ∧ Passes h a.previous_epoch_hash_ (ofEpoch e todo) := by
  induction todo generalizing skipped a rs with
  | nil =>
    obtain rfl := Except.ok.inj hok
    simp [appended, ofEpoch, othersThan, Passes]
  | cons set todo ih =>
    unfold verifyLoop at hok
    by_cases hset : set.epoch_ = e
    · rw [if_pos hset] at hok
      split at hok
      · cases hok
      split at hok
      · cases hok
      rename_i hprev hlevel
      obtain ⟨harch, hrs, hpass⟩ := ih hok
      rw [appended, if_pos hset, ofEpoch_cons_pos hset, othersThan_cons_pos hset]
      exact ⟨harch, by rw [hrs, List.append_assoc], not_not.mp hprev, by simpa using hlevel, hpass⟩
    · rw [if_neg hset] at hok
      obtain ⟨harch, hrs, hpass⟩ := ih hok
      rw [appended, if_neg hset, ofEpoch_cons_neg hset, othersThan_cons_neg hset]
      refine ⟨?_, hrs, hpass⟩
      rw [harch, List.append_assoc, List.singleton_append]

end

/-- Sets with records: `deserialize_log_set` takes the epoch of the last one. -/
def Filled (a : RecoveryLogArchive K β D) : Prop :=
  ∀ set ∈ a.buffered_log_records_, set.log_sets_ ≠ []

theorem eq_nil_of_length_allRecords {sets : List (RecoveryLogSet K β D)}
    (hfill : ∀ set ∈ sets, set.log_sets_ ≠ []) (hlen : (allRecords sets).length = 0) :
    sets = [] := by
  cases sets with
  | nil => rfl
  | cons set sets =>
    rw [allRecords_cons, List.length_append] at hlen
    have hset : set.log_sets_ = [] := List.length_eq_zero_iff.mp (by omega)
    exact absurd hset (hfill set List.mem_cons_self)

theorem length_ofEpoch_le (e : BitVec 32) (skipped todo : List (RecoveryLogSet K β D)) :
    (allRecords (ofEpoch e todo)).length ≤ (appended e skipped todo).length := by
  induction todo generalizing skipped with
  | nil => simp [ofEpoch, allRecords]
  | cons set todo ih =>
    by_cases hset : set.epoch_ = e
    · rw [ofEpoch_cons_pos hset, appended, if_pos hset, allRecords_cons, allRecords_append,
        allRecords_cons]
      have := ih skipped
      simp only [List.length_append]
      omega
    · rw [ofEpoch_cons_neg hset, appended, if_neg hset]
      exact ih _

/-- Nothing is appended beyond the accepted sets only if there is but one set. -/
theorem buffer_of_length_eq {e : BitVec 32} {skipped todo : List (RecoveryLogSet K β D)}
    (hskipped : ∀ set ∈ skipped, set.log_sets_ ≠ []) (htodo : ∀ set ∈ todo, set.log_sets_ ≠ [])
    (hlen : (appended e skipped todo).length = (allRecords (ofEpoch e todo)).length) :
    (∀ set ∈ todo, set.epoch_ ≠ e) ∨ skipped = [] ∧ todo.length = 1 := by
  induction todo generalizing skipped with
  | nil => exact Or.inl (by simp)
  | cons set todo ih =>
    have htodo' : ∀ set ∈ todo, set.log_sets_ ≠ [] := fun s hs =>
      htodo s (List.mem_cons_of_mem _ hs)
    by_cases hset : set.epoch_ = e
    · right
      rw [ofEpoch_cons_pos hset, appended, if_pos hset, allRecords_cons, allRecords_append,
        allRecords_cons] at hlen
      have hle := length_ofEpoch_le e skipped todo
      simp only [List.length_append] at hlen
      have hnil : todo = [] := eq_nil_of_length_allRecords htodo' (by omega)
      have hnil' : skipped = [] := eq_nil_of_length_allRecords hskipped (by omega)
      exact ⟨hnil', by rw [hnil]; rfl⟩
    · rw [ofEpoch_cons_neg hset, appended, if_neg hset] at hlen
      have hskipped' : ∀ x ∈ skipped ++ [set], x.log_sets_ ≠ [] := by
        intro x hx
        rcases List.mem_append.mp hx with hx | hx
        · exact hskipped x hx
        · rw [List.mem_singleton.mp hx]
          exact htodo set List.mem_cons_self
      rcases ih hskipped' htodo' hlen with hnone | ⟨hnil, -⟩
      · left
        intro x hx
        rcases List.mem_cons.mp hx with rfl | hx
        · exact hset
        · exact hnone x hx
      · simp at hnil

theorem appended_of_none {e : BitVec 32} {todo : List (RecoveryLogSet K β D)}
    (skipped : List (RecoveryLogSet K β D)) (hnone : ∀ set ∈ todo, set.epoch_ ≠ e) :
    appended e skipped todo = [] ∧ ofEpoch e todo = [] := by
  induction todo generalizing skipped with
  | nil => exact ⟨rfl, rfl⟩
  | cons set todo ih =>
    have hset : set.epoch_ ≠ e := hnone set List.mem_cons_self
    rw [appended, if_neg hset, ofEpoch_cons_neg hset]
    exact ih _ fun s hs => hnone s (List.mem_cons_of_mem _ hs)

/-- The buffer holds no set of the epoch, or one set in all. -/
def Alone (current_epoch : BitVec 32) (a : RecoveryLogArchive K β D) : Prop :=
  (∀ set ∈ a.buffered_log_records_, set.epoch_ ≠ current_epoch) ∨
    a.buffered_log_records_.length = 1

theorem Alone.appended_eq {e : BitVec 32} {a : RecoveryLogArchive K β D} (ha : Alone e a) :
    appended e [] a.buffered_log_records_ = allRecords (ofEpoch e a.buffered_log_records_) := by
  rcases ha with hnone | hone
  · obtain ⟨happ, hof⟩ := appended_of_none [] hnone
    rw [happ, hof]
    rfl
  · obtain ⟨set, hbuf⟩ := List.length_eq_one_iff.mp hone
    rw [hbuf]
    by_cases hset : set.epoch_ = e
    · rw [appended, if_pos hset, ofEpoch_cons_pos hset]
      simp [appended, ofEpoch]
    · rw [appended, if_neg hset, ofEpoch_cons_neg hset]
      rfl

theorem alone_iff {e : BitVec 32} {a : RecoveryLogArchive K β D} (hfill : Filled a) :
    (appended e [] a.buffered_log_records_).length =
      (allRecords (ofEpoch e a.buffered_log_records_)).length ↔ Alone e a := by
  constructor
  · intro hlen
    rcases buffer_of_length_eq (by simp) hfill hlen with hnone | ⟨-, hone⟩
    · exact Or.inl hnone
    · exact Or.inr hone
  · intro ha
    rw [ha.appended_eq]

/-- The sets that the verification of one epoch adds to `accepted`. -/
def newlyAccepted (as as' : List (RecoveryLogArchive K β D)) : List (RecoveryLogSet K β D) :=
  (List.zipWith (fun a a' => a'.accepted.drop a.accepted.length) as as').flatten

section
variable [DecidableEq D] {h : Hash K β D}

theorem verifyAll_ok {e : BitVec 32} {as : List (RecoveryLogArchive K β D)}
    {rs : List (RecoveryLogRecord K β D)}
    {p : List (RecoveryLogArchive K β D) × List (RecoveryLogRecord K β D)}
    (hok : verifyAll h e as rs = .ok p) :
    p.2 = rs ++ as.flatMap (fun a => appended e [] a.buffered_log_records_) ∧
      List.Forall₂ (fun a a' => a'.accepted = a.accepted ++ ofEpoch e a.buffered_log_records_ ∧
        Passes h a.previous_epoch_hash_ (ofEpoch e a.buffered_log_records_)) as p.1 := by
  induction as generalizing rs p with
  | nil =>
    obtain rfl : ([], rs) = p := Except.ok.inj hok
    exact ⟨by simp, .nil⟩
  | cons a as ih =>
    obtain ⟨q, q', ha, has, rfl⟩ := verifyAll_cons_ok hok
    obtain ⟨harch, hrs, hpass⟩ := verifyLoop_ok ha
    obtain ⟨hrs', hall⟩ := ih has
    have hacc : q.1.accepted = a.accepted ++ ofEpoch e a.buffered_log_records_ := by
      rw [harch, accepted_foldl_accept]
    refine ⟨?_, .cons ⟨hacc, hpass⟩ hall⟩
    rw [hrs', hrs, List.flatMap_cons, List.append_assoc]

theorem newlyAccepted_eq {e : BitVec 32} {as as' : List (RecoveryLogArchive K β D)}
    (hall : List.Forall₂ (fun a a' => a'.accepted = a.accepted ++ ofEpoch e a.buffered_log_records_ ∧
      Passes h a.previous_epoch_hash_ (ofEpoch e a.buffered_log_records_)) as as') :
    newlyAccepted as as' = as.flatMap fun a => ofEpoch e a.buffered_log_records_ := by
  unfold newlyAccepted
  induction hall with
  | nil => rfl
  | cons ha _ ih =>
    rw [List.zipWith_cons_cons, List.flatten_cons, List.flatMap_cons, ih, ha.1, List.drop_left]

end

theorem allRecords_flatMap {α : Type} (f : α → List (RecoveryLogSet K β D)) (xs : List α) :
    allRecords (xs.flatMap f) = xs.flatMap fun x => allRecords (f x) := by
  unfold allRecords
  rw [List.flatMap_assoc]

/-- Parts no longer than others, and equal in sum, are equal one by one. -/
theorem length_eq_of_flatMap {α γ : Type} {f g : α → List γ} {xs : List α}
    (hle : ∀ x, (f x).length ≤ (g x).length)
    (hlen : (xs.flatMap g).length = (xs.flatMap f).length) :
    ∀ x ∈ xs, (g x).length = (f x).length := by
  have hsum : ∀ xs : List α, (xs.flatMap f).length ≤ (xs.flatMap g).length := by
    intro xs
    induction xs with
    | nil => simp
    | cons x xs ih =>
      have := hle x
      simp only [List.flatMap_cons, List.length_append]
      omega
  induction xs with
  | nil => simp
  | cons x xs ih =>
    simp only [List.flatMap_cons, List.length_append] at hlen
    have hx := hle x
    have hxs := hsum xs
    intro y hy
    rcases List.mem_cons.mp hy with rfl | hy
    · omega
    · exact ih (by omega) y hy

/-- The pass for epoch `n`, from the archives `as` that it verifies to what it hands to
the replay: the records of the sets of epoch `n` that pass both checks, each once. -/
structure ExactPass [DecidableEq D] (h : Hash K β D) (n durable : Nat)
    (as : List (RecoveryLogArchive K β D))
    (p : List (RecoveryLogArchive K β D) × List (RecoveryLogRecord K β D)) : Prop where
  records : p.2.Perm (allRecords (newlyAccepted as p.1))
  passed : List.Forall₂ (fun a a' =>
    Passes h a.previous_epoch_hash_ (a'.accepted.drop a.accepted.length)) as p.1
  epoch : ∀ set ∈ newlyAccepted as p.1, set.epoch_.toNat = n
  durable : ∀ r ∈ p.2, r.tid_.epoch.toNat ≤ durable

/-- Each buffer holds no set of the epoch, or that set alone, with no record of a later
epoch than the durable one. The epoch fits into the 32 bits of a TID. -/
def OneAtATime (n durable : Nat) (as : List (RecoveryLogArchive K β D)) : Prop :=
  ∀ a ∈ as, (∀ set ∈ a.buffered_log_records_, set.epoch_ ≠ BitVec.ofNat 32 n) ∨
    n < 2 ^ 32 ∧ a.buffered_log_records_.length = 1 ∧
      ∀ set ∈ a.buffered_log_records_, ∀ r ∈ set.log_sets_, r.tid_.epoch.toNat ≤ durable

instance (n durable : Nat) (as : List (RecoveryLogArchive K β D)) :
    Decidable (OneAtATime n durable as) :=
  inferInstanceAs (Decidable (∀ a ∈ as, _))

theorem OneAtATime.alone {n durable : Nat} {as : List (RecoveryLogArchive K β D)}
    (hone : OneAtATime n durable as) {a : RecoveryLogArchive K β D} (ha : a ∈ as) :
    Alone (BitVec.ofNat 32 n) a := by
  rcases hone a ha with hnone | ⟨-, hlen, -⟩
  · exact Or.inl hnone
  · exact Or.inr hlen

section
variable [DecidableEq D] {h : Hash K β D} {n durable : Nat}
  {as : List (RecoveryLogArchive K β D)}
  {p : List (RecoveryLogArchive K β D) × List (RecoveryLogRecord K β D)}

theorem OneAtATime.exactPass (hok : verifyAll h (BitVec.ofNat 32 n) as [] = .ok p)
    (hone : OneAtATime n durable as) : ExactPass h n durable as p := by
  obtain ⟨hrs, hall⟩ := verifyAll_ok hok
  rw [List.nil_append] at hrs
  have hnew := newlyAccepted_eq hall
  have hrecords : p.2 = allRecords (newlyAccepted as p.1) := by
    rw [hrs, hnew, allRecords_flatMap]
    exact List.flatMap_congr fun a ha => (hone.alone ha).appended_eq
  have hset : ∀ set ∈ newlyAccepted as p.1, set.epoch_.toNat = n ∧
      ∀ r ∈ set.log_sets_, r.tid_.epoch.toNat ≤ durable := by
    intro set hset
    rw [hnew, List.mem_flatMap] at hset
    obtain ⟨a, ha, hset⟩ := hset
    obtain ⟨hbuf, hepoch⟩ := mem_ofEpoch.mp hset
    rcases hone a ha with hnone | ⟨hlt, -, hdur⟩
    · exact absurd hepoch (hnone set hbuf)
    · refine ⟨?_, hdur set hbuf⟩
      rw [hepoch, BitVec.toNat_ofNat, Nat.mod_eq_of_lt hlt]
  refine ⟨by rw [hrecords], ?_, fun set hs => (hset set hs).1, ?_⟩
  · refine hall.imp ?_
    intro a a' ha
    rw [ha.1, List.drop_left]
    exact ha.2
  · intro r hr
    rw [hrecords, allRecords, List.mem_flatMap] at hr
    obtain ⟨set, hs, hr⟩ := hr
    exact (hset set hs).2 r hr

theorem ExactPass.oneAtATime (hok : verifyAll h (BitVec.ofNat 32 n) as [] = .ok p)
    (hfill : ∀ a ∈ as, Filled a) (hexact : ExactPass h n durable as p) :
    OneAtATime n durable as := by
  obtain ⟨hrs, hall⟩ := verifyAll_ok hok
  rw [List.nil_append] at hrs
  have hnew := newlyAccepted_eq hall
  have hlen := hexact.records.length_eq
  rw [hrs, hnew, allRecords_flatMap] at hlen
  have heach := length_eq_of_flatMap
    (fun a : RecoveryLogArchive K β D => length_ofEpoch_le _ [] a.buffered_log_records_) hlen
  intro a ha
  by_cases hnone : ∀ set ∈ a.buffered_log_records_, set.epoch_ ≠ BitVec.ofNat 32 n
  · exact Or.inl hnone
  have hbuf : a.buffered_log_records_.length = 1 :=
    ((alone_iff (hfill a ha)).mp (heach a ha)).resolve_left hnone
  obtain ⟨set, hset⟩ := List.length_eq_one_iff.mp hbuf
  have hepoch : set.epoch_ = BitVec.ofNat 32 n := by
    by_contra hne
    exact hnone (by simpa [hset] using hne)
  have hmem : set ∈ newlyAccepted as p.1 := by
    rw [hnew, List.mem_flatMap]
    exact ⟨a, ha, mem_ofEpoch.mpr ⟨by simp [hset], hepoch⟩⟩
  refine Or.inr ⟨?_, hbuf, ?_⟩
  · rw [← hexact.epoch set hmem]
    exact set.epoch_.isLt
  · intro set' hset' r hr
    obtain rfl : set' = set := by simpa [hset] using hset'
    refine hexact.durable r (hexact.records.mem_iff.mpr ?_)
    exact List.mem_flatMap.mpr ⟨set', hmem, hr⟩

end

theorem filled_new (h : Hash K β D) (last : Option D) (file : List (LogFrame K β D)) :
    Filled (.new h last file) := by
  intro set hset
  cases hset

theorem deserialize_ne_nil {doc : JsonLog K β D} {set : RecoveryLogSet K β D}
    (hset : deserialize_log_set doc = some set) : set.log_sets_ ≠ [] := by
  unfold deserialize_log_set at hset
  split at hset
  · cases hset
  · rename_i r hr
    obtain rfl := Option.some.inj hset
    exact List.ne_nil_of_mem (List.mem_of_getLast? hr)

/-- Reading appends sets with records to the buffer, and touches nothing that the
verification works on. -/
theorem readAhead_ok {e : Nat} {fs : List (LogFrame K β D)} {a a' : RecoveryLogArchive K β D}
    (hok : readAhead e fs a = .ok a') :
    a'.accepted = a.accepted ∧
      ∃ sets, a'.buffered_log_records_ = a.buffered_log_records_ ++ sets ∧
        ∀ set ∈ sets, set.log_sets_ ≠ [] := by
  induction fs generalizing a with
  | nil =>
    obtain rfl := Except.ok.inj hok
    exact ⟨rfl, [], by simp, by simp⟩
  | cons f fs ih =>
    unfold readAhead at hok
    split at hok
    · obtain rfl := Except.ok.inj hok
      exact ⟨rfl, [], by simp, by simp⟩
    cases f with
    | empty =>
      obtain rfl := Except.ok.inj hok
      exact ⟨rfl, [], by simp, by simp⟩
    | malformed => cases hok
    | log doc =>
      dsimp only at hok
      split at hok
      · cases hok
      cases hset : deserialize_log_set doc with
      | none =>
        rw [hset] at hok
        cases hok
      | some set =>
        rw [hset] at hok
        obtain ⟨hacc, sets, hbuf, hne⟩ := ih hok
        refine ⟨hacc, set :: sets, by simp [hbuf], ?_⟩
        intro x hx
        rcases List.mem_cons.mp hx with rfl | hx
        · exact deserialize_ne_nil hset
        · exact hne x hx

theorem filled_readAhead {e : Nat} {fs : List (LogFrame K β D)} {a a' : RecoveryLogArchive K β D}
    (ha : Filled a) (hok : readAhead e fs a = .ok a') : Filled a' := by
  obtain ⟨-, sets, hbuf, hne⟩ := readAhead_ok hok
  intro set hset
  rw [hbuf] at hset
  rcases List.mem_append.mp hset with hset | hset
  · exact ha set hset
  · exact hne set hset

/-- The archives that the pass verifies. -/
def readAll (s : RecoveryManager K β D σ) : Except Stop (List (RecoveryLogArchive K β D)) :=
  s.log_archives_.mapM fun a => readAhead s.current_epoch_ a.unread a

/-- The log sets that each archive has accepted, in order. -/
def RecoveryManager.acceptedSets (s : RecoveryManager K β D σ) : List (List (RecoveryLogSet K β D)) :=
  s.log_archives_.map fun a => a.accepted

theorem accepted_readAll {s : RecoveryManager K β D σ} {as : List (RecoveryLogArchive K β D)}
    (hok : readAll s = .ok as) : as.map (fun a => a.accepted) = s.acceptedSets := by
  unfold readAll at hok
  unfold RecoveryManager.acceptedSets
  revert hok
  generalize s.log_archives_ = as₀
  intro hok
  induction as₀ generalizing as with
  | nil =>
    obtain rfl : [] = as := Except.ok.inj hok
    rfl
  | cons a as₀ ih =>
    rw [List.mapM_cons] at hok
    obtain ⟨a₁, ha, hok⟩ := bind_eq_ok.mp hok
    obtain ⟨as₁, has, hok⟩ := bind_eq_ok.mp hok
    obtain rfl := Except.ok.inj hok
    rw [List.map_cons, List.map_cons, (readAhead_ok ha).1, ih has]

/-- The records of all accepted sets. -/
def RecoveryManager.acceptedRecords (s : RecoveryManager K β D σ) : List (RecoveryLogRecord K β D) :=
  s.acceptedSets.flatMap allRecords

section
variable [DecidableEq D] {h : Hash K β D}

theorem filled_verify {e : BitVec 32} {a : RecoveryLogArchive K β D}
    {rs : List (RecoveryLogRecord K β D)}
    {p : RecoveryLogArchive K β D × List (RecoveryLogRecord K β D)} (ha : Filled a)
    (hok : verify_epoch_level_integrity h e a rs = .ok p) : Filled p.1 := by
  obtain ⟨harch, -, -⟩ := verifyLoop_ok hok
  intro set hset
  rw [harch] at hset
  exact ha set (List.mem_of_mem_filter hset)

theorem perm_acceptedRecords {e : BitVec 32} {as as' : List (RecoveryLogArchive K β D)}
    (hall : List.Forall₂ (fun a a' => a'.accepted = a.accepted ++ ofEpoch e a.buffered_log_records_ ∧
      Passes h a.previous_epoch_hash_ (ofEpoch e a.buffered_log_records_)) as as') :
    ((as'.map fun a => a.accepted).flatMap allRecords).Perm
      ((as.map fun a => a.accepted).flatMap allRecords ++ allRecords (newlyAccepted as as')) := by
  rw [newlyAccepted_eq hall]
  induction hall with
  | nil => exact .refl _
  | @cons a a' as as' ha _ ih =>
    simp only [List.map_cons, List.flatMap_cons, ha.1, allRecords_append, List.append_assoc] at ih ⊢
    refine List.Perm.append_left _ ?_
    refine (List.Perm.append_left _ ih).trans ?_
    rw [← List.append_assoc, ← List.append_assoc]
    exact List.Perm.append_right _ List.perm_append_comm

theorem mem_accepted {e : BitVec 32} {as as' : List (RecoveryLogArchive K β D)}
    (hall : List.Forall₂ (fun a a' => a'.accepted = a.accepted ++ ofEpoch e a.buffered_log_records_ ∧
      Passes h a.previous_epoch_hash_ (ofEpoch e a.buffered_log_records_)) as as')
    {set : RecoveryLogSet K β D} (hset : ∃ sets ∈ as'.map fun a => a.accepted, set ∈ sets) :
    (∃ sets ∈ as.map fun a => a.accepted, set ∈ sets) ∨ set ∈ newlyAccepted as as' := by
  rw [newlyAccepted_eq hall]
  induction hall with
  | nil => simp at hset
  | @cons a a' as as' ha _ ih =>
    simp only [List.map_cons, List.exists_mem_cons_iff, ha.1, List.mem_append, List.flatMap_cons]
      at hset ⊢
    rcases hset with (hset | hset) | hset
    · exact Or.inl (Or.inl hset)
    · exact Or.inr (Or.inl hset)
    · rcases ih hset with hset | hset
      · exact Or.inl (Or.inr hset)
      · exact Or.inr (Or.inr hset)

variable {sort : TidSort K β D} {index : Index K β σ}

/-- The records that the pass replays, in order. -/
def passRecords (h : Hash K β D) (sort : TidSort K β D) (s : RecoveryManager K β D σ) :
    List (RecoveryLogRecord K β D) :=
  match readAll s with
  | .error _ => []
  | .ok as =>
    match verifyAll h (BitVec.ofNat 32 s.current_epoch_) as [] with
    | .error _ => []
    | .ok p => sort.sort p.2

/-- The records that `n` passes replay, in order. -/
def replayed (h : Hash K β D) (sort : TidSort K β D) (index : Index K β σ) :
    Nat → RecoveryManager K β D σ → List (RecoveryLogRecord K β D)
  | 0, _ => []
  | n + 1, s => passRecords h sort s ++
      match recoverEpoch h sort index s with
      | .error _ => []
      | .ok s' => replayed h sort index n s'

/-- Every set is accepted in the pass for its epoch, one of those before `n`. -/
def AcceptedBefore (n : Nat) (s : RecoveryManager K β D σ) : Prop :=
  ∀ set, (∃ sets ∈ s.acceptedSets, set ∈ sets) → set.epoch_.toNat < n

/-- Run lemma: passes that are exact replay what they accept. -/
theorem replayed_perm {durable n : Nat} {s s' : RecoveryManager K β D σ}
    (hrun : recoverEpochs h sort index n s = .ok s')
    (hone : ∀ m < n, ∀ s₁ as, recoverEpochs h sort index m s = .ok s₁ → readAll s₁ = .ok as →
      OneAtATime s₁.current_epoch_ durable as)
    (hbefore : AcceptedBefore s.current_epoch_ s) :
    s'.acceptedRecords.Perm (s.acceptedRecords ++ replayed h sort index n s) ∧
      AcceptedBefore s'.current_epoch_ s' ∧
      ∀ r ∈ replayed h sort index n s, r.tid_.epoch.toNat ≤ durable := by
  induction n generalizing s with
  | zero =>
    obtain rfl := Except.ok.inj hrun
    exact ⟨by simp [replayed], hbefore, by simp [replayed]⟩
  | succ n ih =>
    obtain ⟨s₁, hs, hrun⟩ := bind_eq_ok.mp hrun
    obtain ⟨as, p, hread, hverify, -, hepoch, harch⟩ := recoverEpoch_ok hs
    have hread' : readAll s = .ok as := hread
    have hexact := OneAtATime.exactPass hverify
      (hone 0 (Nat.succ_pos n) s as rfl hread')
    obtain ⟨-, hall⟩ := verifyAll_ok hverify
    have hpass : passRecords h sort s = sort.sort p.2 := by
      simp only [passRecords, hread', hverify]
    have hrecords : s₁.acceptedRecords.Perm (s.acceptedRecords ++ passRecords h sort s) := by
      have hs₁ : s₁.acceptedRecords = (p.1.map fun a => a.accepted).flatMap allRecords := by
        rw [RecoveryManager.acceptedRecords, RecoveryManager.acceptedSets, harch]
      have hperm := perm_acceptedRecords hall
      rw [accepted_readAll hread'] at hperm
      rw [hs₁, hpass]
      refine hperm.trans (List.Perm.append_left _ ?_)
      exact (hexact.records.symm).trans (sort.perm p.2).symm
    have hbefore₁ : AcceptedBefore s₁.current_epoch_ s₁ := by
      intro set hset
      rw [RecoveryManager.acceptedSets, harch] at hset
      rw [hepoch]
      rcases mem_accepted hall hset with hold | hnew
      · rw [accepted_readAll hread'] at hold
        exact Nat.lt_succ_of_lt (hbefore set hold)
      · exact Nat.lt_succ_of_le (hexact.epoch set hnew).le
    obtain ⟨hperm, hbefore', hdur⟩ := ih hrun
      (fun m hm s₂ as₂ hs₂ => hone (m + 1) (by omega) s₂ as₂ (by
        rw [recoverEpochs, hs]
        exact hs₂)) hbefore₁
    have hreplayed : replayed h sort index (n + 1) s = passRecords h sort s ++ replayed h sort index n s₁ := by
      rw [replayed, hs]
    rw [hreplayed]
    refine ⟨?_, hbefore', ?_⟩
    · refine hperm.trans ?_
      rw [← List.append_assoc]
      exact List.Perm.append_right _ hrecords
    · intro r hr
      rcases List.mem_append.mp hr with hr | hr
      · rw [hpass] at hr
        exact hexact.durable r ((sort.perm p.2).mem_iff.mp hr)
      · exact hdur r hr

theorem recoverEpochs_epoch {n : Nat} {s s' : RecoveryManager K β D σ}
    (hrun : recoverEpochs h sort index n s = .ok s') : s'.current_epoch_ = s.current_epoch_ + n := by
  induction n generalizing s with
  | zero =>
    obtain rfl := Except.ok.inj hrun
    rfl
  | succ n ih =>
    obtain ⟨s₁, hs, hrun⟩ := bind_eq_ok.mp hrun
    obtain ⟨-, -, -, -, -, hepoch, -⟩ := recoverEpoch_ok hs
    rw [ih hrun, hepoch]
    omega

/-- The buffers hold sets with records in every pass. -/
theorem filled_reachable {n : Nat} {pepoch : EpochFile D} {files : Nat → List (LogFrame K β D)}
    {s : RecoveryManager K β D σ} {as : List (RecoveryLogArchive K β D)}
    (hrun : recoverEpochs h sort index n (.start h index pepoch files) = .ok s) (hread : readAll s = .ok as) :
    ∀ a ∈ as, Filled a := by
  have hstart : List.Forall₂ (fun _ a => Filled a) pepoch.last_log_hashes
      (RecoveryManager.start h index pepoch files).log_archives_ := by
    rw [List.forall₂_iff_get]
    refine ⟨by simp [RecoveryManager.start], ?_⟩
    intro i h₁ h₂
    simp only [RecoveryManager.start, List.get_eq_getElem, List.getElem_mapIdx]
    exact filled_new h _ _
  have hs := forall₂_recoverEpochs (fun _ _ _ _ _ ha hok => filled_readAhead ha hok)
    (fun _ _ _ _ _ ha hok => filled_verify ha hok) n hstart hrun
  have has := forall₂_readAhead (fun _ _ _ _ ha hok => filled_readAhead ha hok) hs hread
  intro a ha
  obtain ⟨i, hi, rfl⟩ := List.mem_iff_getElem.mp ha
  obtain ⟨hlen, hpair⟩ := List.forall₂_iff_get.mp has
  exact hpair i (hlen ▸ hi) hi

/-- A pass replays exactly the records of the sets that it accepts exactly when each
buffer that it finds a set of its epoch in holds nothing else. Over passes that are all
like that, what is replayed is what has been accepted, each record once. -/
theorem replays_accepted_once_iff (pepoch : EpochFile D) (files : Nat → List (LogFrame K β D)) :
    (∀ n ≤ pepoch.durable_epoch_, ∀ s as p,
      recoverEpochs h sort index n (.start h index pepoch files) = .ok s → readAll s = .ok as →
      verifyAll h (BitVec.ofNat 32 n) as [] = .ok p →
      (ExactPass h n pepoch.durable_epoch_ as p ↔ OneAtATime n pepoch.durable_epoch_ as)) ∧
    ∀ n ≤ pepoch.durable_epoch_ + 1, ∀ s,
      recoverEpochs h sort index n (.start h index pepoch files) = .ok s →
      (∀ m < n, ∀ s₁ as, recoverEpochs h sort index m (.start h index pepoch files) = .ok s₁ →
        readAll s₁ = .ok as → OneAtATime m pepoch.durable_epoch_ as) →
      (replayed h sort index n (.start h index pepoch files)).Perm s.acceptedRecords ∧
        (∀ sets ∈ s.acceptedSets, ∀ set ∈ sets, set.epoch_.toNat < n) ∧
        ∀ r ∈ replayed h sort index n (.start h index pepoch files),
          r.tid_.epoch.toNat ≤ pepoch.durable_epoch_ := by
  have hnone : ∀ sets ∈ (RecoveryManager.start h index pepoch files).acceptedSets, sets = [] := by
    intro sets hsets
    obtain ⟨a, ha, rfl⟩ := List.mem_map.mp hsets
    obtain ⟨i, hi, rfl⟩ := List.mem_mapIdx.mp ha
    rfl
  constructor
  · intro n _ s as p hrun hread hverify
    constructor
    · exact ExactPass.oneAtATime hverify (filled_reachable hrun hread)
    · exact OneAtATime.exactPass hverify
  · intro n _ s hrun hone
    have hepoch := recoverEpochs_epoch hrun
    obtain ⟨hperm, hbefore, hdur⟩ := replayed_perm hrun
      (fun m hm s₁ as hs₁ has => by
        rw [recoverEpochs_epoch hs₁, RecoveryManager.start, Nat.zero_add]
        exact hone m hm s₁ as hs₁ has)
      (by
        rintro set ⟨sets, hsets, hset⟩
        rw [hnone sets hsets] at hset
        cases hset)
    have hempty : (RecoveryManager.start h index pepoch files).acceptedRecords = [] := by
      rw [RecoveryManager.acceptedRecords, List.flatMap_eq_nil_iff]
      intro sets hsets
      rw [hnone sets hsets]
      rfl
    rw [hempty, List.nil_append] at hperm
    rw [RecoveryManager.start, Nat.zero_add] at hepoch
    refine ⟨hperm.symm, ?_, hdur⟩
    intro sets hsets set hset
    rw [← hepoch]
    exact hbefore set ⟨sets, hsets, hset⟩

end

/-- What a pass does: how many records it replays, how many it has accepted, and whether
the buffers are as they should be. -/
def passCounts (n : Nat) (pepoch : EpochFile Digest) (files : Nat → List (LogFrame Nat Nat Digest)) :
    Except Stop (Nat × Nat × Bool) := do
  let s ← recoverEpochs digestHash insertionSort mapIndex n (.start digestHash mapIndex pepoch files)
  let as ← readAll s
  let p ← verifyAll digestHash (BitVec.ofNat 32 n) as []
  return (p.2.length, (allRecords (newlyAccepted as p.1)).length,
    decide (OneAtATime n pepoch.durable_epoch_ as))

theorem passCounts_ok {n : Nat} {pepoch : EpochFile Digest}
    {files : Nat → List (LogFrame Nat Nat Digest)} {x : Nat × Nat × Bool}
    (hok : passCounts n pepoch files = .ok x) :
    ∃ s as p, recoverEpochs digestHash insertionSort mapIndex n (.start digestHash mapIndex pepoch files) = .ok s ∧
      readAll s = .ok as ∧ verifyAll digestHash (BitVec.ofNat 32 n) as [] = .ok p ∧
      p.2.length = x.1 ∧ (allRecords (newlyAccepted as p.1)).length = x.2.1 ∧
      decide (OneAtATime n pepoch.durable_epoch_ as) = x.2.2 := by
  obtain ⟨s, hs, hok⟩ := bind_eq_ok.mp hok
  obtain ⟨as, has, hok⟩ := bind_eq_ok.mp hok
  obtain ⟨p, hp, hok⟩ := bind_eq_ok.mp hok
  obtain rfl := Except.ok.inj hok
  exact ⟨s, as, p, hs, has, hp, rfl, rfl, rfl⟩

theorem passCounts_honestLog : passCounts 1 sealed honestLog = .ok (2, 1, false) := by decide

/-- The pass for epoch 1 replays the record of epoch 2 as well. -/
theorem replays_accepted_once_two_sets :
    ¬ ∀ (pepoch : EpochFile Digest) (files : Nat → List (LogFrame Nat Nat Digest)),
      ∀ n ≤ pepoch.durable_epoch_, ∀ s as p,
        recoverEpochs digestHash insertionSort mapIndex n (.start digestHash mapIndex pepoch files) = .ok s →
        readAll s = .ok as → verifyAll digestHash (BitVec.ofNat 32 n) as [] = .ok p →
        ExactPass digestHash n pepoch.durable_epoch_ as p := by
  intro hexact
  obtain ⟨s, as, p, hs, has, hp, hreplayed, haccepted, -⟩ := passCounts_ok passCounts_honestLog
  have hlen := (hexact sealed honestLog 1 (by decide) s as p hs has hp).records.length_eq
  rw [hreplayed, haccepted] at hlen
  cases hlen

/-- A log of one set. -/
def shortSeal : EpochFile Digest := ⟨1, [some (currentEpochHash digestHash firstSet)]⟩

def shortLog : Nat → List (LogFrame Nat Nat Digest) := fun _ =>
  [.log (create_json_log digestHash digestHash.passphrase firstSet)]

theorem passCounts_shortLog : passCounts 1 shortSeal shortLog = .ok (1, 1, true) := by decide

/-- Its record is replayed once. -/
theorem replays_accepted_once_shortLog :
    ∃ s as p,
      recoverEpochs digestHash insertionSort mapIndex 1 (.start digestHash mapIndex shortSeal shortLog) = .ok s ∧
      readAll s = .ok as ∧ verifyAll digestHash (BitVec.ofNat 32 1) as [] = .ok p ∧
      p.2.length = 1 ∧ ExactPass digestHash 1 1 as p := by
  obtain ⟨s, as, p, hs, has, hp, hreplayed, -, hone⟩ := passCounts_ok passCounts_shortLog
  refine ⟨s, as, p, hs, has, hp, hreplayed, ?_⟩
  exact ((replays_accepted_once_iff shortSeal shortLog).1 1 (by decide) s as p hs has hp).mpr
    (of_decide_eq_true hone)

end Cassa.SiloR

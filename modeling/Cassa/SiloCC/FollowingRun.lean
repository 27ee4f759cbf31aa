import Cassa.SiloCC.Serializability

/-!
# A run that deletes, followed by a run that writes

A delete leaves the record in the tree and only stores its TID word with the absent
bit. A run of reads, writes and deletes is therefore followed by a run of reads and
writes alone, over bodies that may be `none`: a delete writes `none`, and a read that
the absent bit refuses is followed by the read of a key that the tree does not hold.

The copy of a body that another worker has just deleted is the one point where the
two runs part: the first run hands out the old body, the second one `none`. Such a
read fails its validation in both.
-/

namespace Cassa.SiloCC.Occ

open Cassa.Lib.Runs

variable {W K β : Type} [DecidableEq W] [DecidableEq K] [DecidableEq β]

/-- Requests made of `READ`, `WRITE` and `DELETE`. -/
def insertsNothing : Action W K β → Bool
  | .work _ (.insert _ _) => false
  | _ => true

/-- The next step stores the word of a written body with the absent bit set. -/
def storesAbsent (s : State W K β) : Action W K β → Bool
  | .work w .tick =>
    match (s.workers w).pc with
    | .writing _ maxtid true => maxtid.absent
    | _ => false
  | _ => false

/-- No lock conflict, no TID overflow, and requests without inserts. -/
structure AdmittedDeletes (s : State W K β) (a : Action W K β) : Prop where
  free : NoLockConflict s a
  tid : tidOverflow s a = false
  ops : insertsNothing a = true

instance (s : State W K β) (a : Action W K β) : Decidable (AdmittedDeletes s a) :=
  decidable_of_iff (NoLockConflict s a ∧ tidOverflow s a = false ∧ insertsNothing a = true)
    ⟨fun h => ⟨h.1, h.2.1, h.2.2⟩, fun h => ⟨h.free, h.tid, h.ops⟩⟩

/-- The word without its absent bit. -/
def present (t : TIDword) : TIDword := { t with absent := false }

@[simp] theorem present_absent (t : TIDword) : (present t).absent = false := rfl

@[simp] theorem present_lock (t : TIDword) : (present t).lock = t.lock := rfl

@[simp] theorem present_ver (t : TIDword) : (present t).ver = t.ver := rfl

@[simp] theorem present_setAbsent (t : TIDword) (b : Bool) :
    present { t with absent := b } = present t := rfl

/-- A delete becomes a write of `none`. -/
def liftWrite (we : WriteElement K β) : WriteElement (Option K) (Option β) :=
  ⟨some we.key_, we.value_, if we.op_ = .DELETE then none else some we.new_value_body_, .WRITE⟩

def liftRead (re : ReadEntry K β) : ReadEntry (Option K) (Option β) :=
  ⟨⟨some re.key_, re.value_, present re.tidword_, re.op_⟩, re.seen.map some⟩

/-- While `read_internal` spins, the following worker has not asked for the key yet. -/
def liftPc : Pc K → Pc (Option K)
  | .idle => .idle
  | .running => .running
  | .readSpin _ _ _ => .running
  | .readBody k v e => .readBody (some k) v (present e)
  | .locking i e => .locking i (e.map present)
  | .unlockPrefix i stop e => .unlockPrefix i stop (e.map present)
  | .loadEpoch => .loadEpoch
  | .storeEpoch g => .storeEpoch g
  | .validating i => .validating i
  | .unlocking i e => .unlocking i (e.map present)
  | .aborting i => .aborting i
  | .writing i maxtid b => .writing i (present maxtid) b

def liftCommitted (c : Committed W K β) : Committed W (Option K) (Option β) :=
  ⟨c.worker, c.read_set_.map liftRead, c.write_set_.map liftWrite, present c.tid⟩

/-- The first state of the following run. -/
def lifted (s : State W K β) : State W (Option K) (Option β) where
  mem v := ⟨present (s.tidword v), if (s.tidword v).absent then none else some (s.body v)⟩
  tree k := k.bind s.tree
  next := s.next
  freed := []
  GlobalEpoch := s.GlobalEpoch
  workers _ := .new
  committed := []

section
omit [DecidableEq β]

theorem searchWriteSet_lift (ws : List (WriteElement K β)) (k : K) :
    searchWriteSet (ws.map liftWrite) (some k) = (searchWriteSet ws k).map liftWrite := by
  simp [searchWriteSet, List.find?_map, liftWrite]

theorem searchWriteSet_none_key (ws : List (WriteElement K β)) :
    searchWriteSet (ws.map liftWrite) none = none := by
  simp [searchWriteSet_none, liftWrite]

end

/-- The body counts: the record is present, or a worker has just stored the body. -/
def Stored (s : State W K β) (v : ValuePtr) : Prop :=
  (s.tidword v).absent = false ∨ ∃ w, Dirty s w v

/-- The body of the following run. `E` asks it to tell absent records, too. -/
structure BodyAs (E : Prop) (s : State W K β) (m : State W (Option K) (Option β)) (v : ValuePtr) :
    Prop where
  stored : Stored s v → m.body v = some (s.body v)
  gone : E → ¬ Stored s v → m.body v = none

/-- A read-set element, up to the body of a record that has been overwritten since. -/
structure SeenAs (s : State W K β) (re : ReadEntry K β) (re' : ReadEntry (Option K) (Option β)) : Prop where
  element : re'.toReadElement = (liftRead re).toReadElement
  seen : re'.seen = (liftRead re).seen ∨ re.tidword_.ver < s.ver re.value_
  op : re.op_ = .READ

/-- The read-set elements that have passed validation. -/
def Checked (pc : Pc K) (j : Nat) : Prop :=
  match pc with
  | .validating i => j < i
  | .writing _ _ _ => True
  | _ => False

/-- What the following run relies on at a control state. -/
def PcAs (s : State W K β) (t : TxExecutor K β) : Prop :=
  match t.pc with
  | .readSpin k v _ => s.tree k = some v ∧ (searchReadSet t.read_set_ k).isSome = false ∧
      (searchWriteSet t.write_set_ k).isSome = false
  | .readBody _ v e => (s.tidword v).absent = true → e.ver < s.ver v
  | .unlocking i (some x) => ∀ we, t.write_set_[i]? = some we → s.tidword we.value_ = x
  | .writing i _ true => ∀ we, t.write_set_[i]? = some we → we.op_ = .WRITE
  | _ => True

/-- The words agree in what a commit TID takes from them. -/
structure WordAs (x' x : TIDword) : Prop where
  ver : x'.ver = x.ver
  absent : x'.absent = false

structure TxAs (s : State W K β) (t : TxExecutor K β) (t' : TxExecutor (Option K) (Option β)) : Prop where
  pc : t'.pc = liftPc t.pc
  writes : t'.write_set_ = t.write_set_.map liftWrite
  ops : ∀ we ∈ t.write_set_, we.op_ = .WRITE ∨ we.op_ = .DELETE
  reads : List.Forall₂ (SeenAs s) t.read_set_ t'.read_set_
  checked : ∀ j, Checked t.pc j → t'.read_set_[j]? = t.read_set_[j]?.map liftRead
  rset : WordAs t'.max_rset_ t.max_rset_
  wset : WordAs t'.max_wset_ t.max_wset_
  mrctid : t'.mrctid_ = present t.mrctid_
  epoch : t'.localEpoch = t.localEpoch
  at_pc : PcAs s t

/-- `m` is a state of the following run. -/
structure Follows (E : Prop) (s : State W K β) (m : State W (Option K) (Option β)) : Prop where
  tree : m.tree = fun k => k.bind s.tree
  epoch : m.GlobalEpoch = s.GlobalEpoch
  tidword : ∀ v, m.tidword v = present (s.tidword v)
  body : ∀ v, BodyAs E s m v
  committed : m.committed = s.committed.map liftCommitted
  workers : ∀ w, TxAs s (s.workers w) (m.workers w)
  locks : ∃ H, Inv s H

theorem eq_of_ver {a b : TIDword} (hver : a.ver = b.ver) (hlock : a.lock = b.lock)
    (hlatest : a.latest = b.latest) (habsent : a.absent = b.absent) : a = b := by
  obtain ⟨hepoch, htid⟩ := (TIDword.ver_eq_iff a b).mp hver
  cases a
  cases b
  simp_all

theorem ver_incTID_congr {a b : TIDword} (h : a.ver = b.ver) : a.incTID.ver = b.incTID.ver := by
  obtain ⟨hepoch, htid⟩ := (TIDword.ver_eq_iff a b).mp h
  simp [TIDword.ver, TIDword.incTID, hepoch, htid]

theorem absent_max {a b : TIDword} (ha : a.absent = false) (hb : b.absent = false) :
    (TIDword.max a b).absent = false := by
  rcases TIDword.max_cases a b with ⟨h, -⟩ | ⟨h, -⟩
  · rw [h, ha]
  · rw [h, hb]

theorem wordAs_present (x : TIDword) : WordAs (present x) x := ⟨rfl, rfl⟩

theorem WordAs.max {a a' b b' : TIDword} (ha : WordAs a' a) (hb : WordAs b' b) :
    WordAs (TIDword.max a' b') (TIDword.max a b) :=
  ⟨by rw [TIDword.ver_max, TIDword.ver_max, ha.ver, hb.ver], absent_max ha.absent hb.absent⟩

/-- The absent bits of the words observed do not reach the version of the commit TID. -/
theorem commitTid_present {r r' m m' : TIDword} (hr : WordAs r' r) (hm : WordAs m' m) (last : TIDword)
    (e : Nat) : commitTid r' m' (present last) e = present (commitTid r m last e) := by
  have hmax := hr.max hm
  apply eq_of_ver
  · rw [present_ver, commitTid_ver, commitTid_ver, ver_incTID_congr hmax.ver,
      ver_incTID_congr (present_ver last)]
  · rfl
  · rfl
  · have h₁ : (TIDword.max r' m').incTID.absent = false := hmax.absent
    have h₂ : (present last).incTID.absent = false := rfl
    exact absent_max (absent_max h₁ h₂) rfl

section
variable {E : Prop} {s s' : State W K β} {m m' : State W (Option K) (Option β)} {w : W}
  {t : TxExecutor K β} {t' : TxExecutor (Option K) (Option β)}

section
omit [DecidableEq W] [DecidableEq β]

theorem Follows.ver (h : Follows E s m) (v : ValuePtr) : m.ver v = s.ver v := by
  rw [State.ver, h.tidword]
  rfl

theorem TxAs.write_at (h : TxAs s t t') {i : Nat} {we : WriteElement K β}
    (hwe : t.write_set_[i]? = some we) : t'.write_set_[i]? = some (liftWrite we) := by
  rw [h.writes, List.getElem?_map, hwe]
  rfl

theorem TxAs.write_end (h : TxAs s t t') {i : Nat} (hend : t.write_set_[i]? = none) :
    t'.write_set_[i]? = none := by
  rw [h.writes, List.getElem?_map, hend]
  rfl

theorem TxAs.not_insert (h : TxAs s t t') {i : Nat} {we : WriteElement K β}
    (hwe : t.write_set_[i]? = some we) : we.op_ ≠ .INSERT := by
  intro hop
  rcases h.ops we (List.mem_of_getElem? hwe) with h | h
  all_goals
    rw [hop] at h
    cases h

end

section
omit [DecidableEq W] [DecidableEq K] [DecidableEq β]

theorem SeenAs.key {re : ReadEntry K β} {re' : ReadEntry (Option K) (Option β)} (h : SeenAs s re re') :
    re'.key_ = some re.key_ :=
  congrArg ReadElement.key_ h.element

theorem SeenAs.value {re : ReadEntry K β} {re' : ReadEntry (Option K) (Option β)} (h : SeenAs s re re') :
    re'.value_ = re.value_ :=
  congrArg ReadElement.value_ h.element

/-- Until its record is overwritten an element is followed by its own lift. -/
theorem SeenAs.eq_lift {re : ReadEntry K β} {re' : ReadEntry (Option K) (Option β)} (h : SeenAs s re re')
    (hver : ¬ re.tidword_.ver < s.ver re.value_) : re' = liftRead re := by
  have helement := h.element
  have hseen := h.seen.resolve_right hver
  cases re'
  simp_all

theorem seenAs_at {rs : List (ReadEntry K β)} {rs' : List (ReadEntry (Option K) (Option β))}
    (h : List.Forall₂ (SeenAs s) rs rs') {i : Nat} {re : ReadEntry K β} (hre : rs[i]? = some re) :
    ∃ re', rs'[i]? = some re' ∧ SeenAs s re re' := by
  induction h generalizing i with
  | nil => simp at hre
  | cons hhead _ ih =>
    cases i with
    | zero =>
      obtain rfl := Option.some.inj hre
      exact ⟨_, rfl, hhead⟩
    | succ i => exact ih hre

end

section
omit [DecidableEq W] [DecidableEq β]

theorem TxAs.read_end (h : TxAs s t t') (i : Nat) : t'.read_set_[i]? = none ↔ t.read_set_[i]? = none := by
  rw [List.getElem?_eq_none_iff, List.getElem?_eq_none_iff, h.reads.length_eq]

theorem searchReadSet_lift {rs : List (ReadEntry K β)} {rs' : List (ReadEntry (Option K) (Option β))}
    (h : List.Forall₂ (SeenAs s) rs rs') (k : K) :
    (searchReadSet rs' (some k)).map (·.value_) = (searchReadSet rs k).map (·.value_) := by
  unfold searchReadSet
  induction h with
  | nil => rfl
  | @cons re re' rs rs' hre _ ih =>
    by_cases hk : re.key_ = k
    · simp [hre.key, hk, hre.value]
    · simpa [hre.key, hk] using ih

theorem searchReadSet_none_key {rs : List (ReadEntry K β)}
    {rs' : List (ReadEntry (Option K) (Option β))} (h : List.Forall₂ (SeenAs s) rs rs') :
    searchReadSet rs' none = none := by
  unfold searchReadSet
  induction h with
  | nil => rfl
  | cons hre _ ih => simpa [hre.key] using ih

theorem isSome_searchReadSet (h : TxAs s t t') (k : K) :
    (searchReadSet t'.read_set_ (some k)).isSome = (searchReadSet t.read_set_ k).isSome := by
  have := congrArg Option.isSome (searchReadSet_lift h.reads k)
  simpa using this

theorem isSome_searchWriteSet (h : TxAs s t t') (k : K) :
    (searchWriteSet t'.write_set_ (some k)).isSome = (searchWriteSet t.write_set_ k).isSome := by
  rw [h.writes, searchWriteSet_lift, Option.isSome_map]

theorem findValue_lift (h : Follows E s m) (ht : TxAs s t t') (k : K) :
    findValue m t' (some k) = findValue s t k := by
  have hvalue := searchReadSet_lift ht.reads k
  unfold findValue
  cases hre : searchReadSet t.read_set_ k with
  | none =>
    rw [hre, Option.map_none, Option.map_eq_none_iff] at hvalue
    rw [hvalue, h.tree]
    rfl
  | some re =>
    rw [hre, Option.map_some, Option.map_eq_some_iff] at hvalue
    obtain ⟨re', hre', hv⟩ := hvalue
    simp only [hre', hv]

/-- Both runs let a read-set element through, or neither does. -/
theorem validationFails_lift (h : Follows E s m) (ht : TxAs s t t') {re : ReadEntry K β}
    {re' : ReadEntry (Option K) (Option β)} (hre : SeenAs s re re') :
    validationFails t' re' (m.tidword re'.value_) ↔ validationFails t re (s.tidword re.value_) := by
  have hop : re'.op_ = .READ := (congrArg ReadElement.op_ hre.element).trans hre.op
  have hword : re'.tidword_ = present re.tidword_ := congrArg ReadElement.tidword_ hre.element
  rw [hre.value, h.tidword]
  unfold validationFails
  rw [hop, hre.op, hword, hre.key, isSome_searchWriteSet ht]
  simp [present]

end

/-- How a step of `w` may change the words that the relation of the others speaks of. -/
structure WordFrame (s s' : State W K β) (w : W) : Prop where
  tree : s'.tree = s.tree
  others : ∀ u, u ≠ w → s'.workers u = s.workers u
  mono : ∀ v, s.ver v ≤ s'.ver v
  absent : ∀ v, (s'.tidword v).absent = true → (s.tidword v).absent = true ∨ s.ver v < s'.ver v
  held : ∀ u, u ≠ w → ∀ v, Holds (s.workers u) v → s'.tidword v = s.tidword v

omit [DecidableEq W] [DecidableEq K] [DecidableEq β] in
theorem seenAs_mono (hmono : ∀ v, s.ver v ≤ s'.ver v) {rs : List (ReadEntry K β)}
    {rs' : List (ReadEntry (Option K) (Option β))} (h : List.Forall₂ (SeenAs s) rs rs') :
    List.Forall₂ (SeenAs s') rs rs' := by
  refine h.imp fun re re' hre => ⟨hre.element, ?_, hre.op⟩
  rcases hre.seen with hsame | hlt
  · exact Or.inl hsame
  · exact Or.inr (hlt.trans_le (hmono _))

section
omit [DecidableEq W] [DecidableEq β]

theorem PcAs.frame (h : TxAs s t t') (hv : TxOk m t') (hver : ∀ v, m.ver v = s.ver v)
    (hf : WordFrame s s' w) (hheld : ∀ v, Holds t v → s'.tidword v = s.tidword v) : PcAs s' t := by
  have hat := h.at_pc
  unfold PcAs at hat ⊢
  split at hat
  · rw [hf.tree]
    exact hat
  · rename_i k v e hpc
    intro habsent
    have hle : e.ver ≤ s.ver v := by
      have hpc' : t'.pc = .readBody (some k) v (present e) := by rw [h.pc, hpc, liftPc]
      have := hv.pc
      simp only [PcOk, hpc', present_ver, hver] at this
      exact this.2
    rcases hf.absent v habsent with hold | hlt
    · exact (hat hold).trans_le (hf.mono v)
    · exact hle.trans_lt hlt
  · rename_i i x hpc
    intro we hwe
    rw [hheld we.value_ ⟨i, we, hwe, rfl, by rw [hpc]; exact Or.inr (Nat.le_refl i)⟩]
    exact hat we hwe
  · exact hat
  · trivial

theorem TxAs.frame (h : TxAs s t t') (hv : TxOk m t') (hver : ∀ v, m.ver v = s.ver v)
    (hf : WordFrame s s' w) (hheld : ∀ v, Holds t v → s'.tidword v = s.tidword v) : TxAs s' t t' :=
  { h with
    reads := seenAs_mono hf.mono h.reads
    at_pc := PcAs.frame h hv hver hf hheld }

end

omit [DecidableEq β] in
/-- A step is followed if the others see no more than the frame and the worker itself, the
bodies and the list of commits come out right. -/
theorem Follows.step (h : Follows E s m) (hv : Versions m) (hf : WordFrame s s' w)
    (hothers : ∀ u, u ≠ w → m'.workers u = m.workers u) (htree : m'.tree = m.tree)
    (hepoch : m'.GlobalEpoch = s'.GlobalEpoch) (hword : ∀ v, m'.tidword v = present (s'.tidword v))
    (hbody : ∀ v, BodyAs E s' m' v) (hcommitted : m'.committed = s'.committed.map liftCommitted)
    (hself : TxAs s' (s'.workers w) (m'.workers w)) (hlocks : ∃ H, Inv s' H) : Follows E s' m' := by
  refine ⟨by rw [htree, h.tree, hf.tree], hepoch, hword, hbody, hcommitted, fun u => ?_, hlocks⟩
  by_cases hu : u = w
  · subst hu
    exact hself
  · rw [hf.others u hu, hothers u hu]
    exact (h.workers u).frame (hv u) h.ver hf (hf.held u hu)

omit [DecidableEq W] [DecidableEq K] [DecidableEq β] in
theorem dirty_other (hother : ∀ u, u ≠ w → s'.workers u = s.workers u) {u : W} (hu : u ≠ w)
    (v : ValuePtr) : Dirty s' u v ↔ Dirty s u v := by
  unfold Dirty
  rw [hother u hu]

omit [DecidableEq K] [DecidableEq β] in
theorem stored_congr (hother : ∀ u, u ≠ w → s'.workers u = s.workers u) {v : ValuePtr}
    (habsent : (s'.tidword v).absent = (s.tidword v).absent) (hd : ¬ Dirty s w v) (hd' : ¬ Dirty s' w v) :
    Stored s' v ↔ Stored s v := by
  have hdirty : (∃ u, Dirty s' u v) ↔ ∃ u, Dirty s u v := by
    refine exists_congr fun u => ?_
    by_cases hu : u = w
    · subst hu
      exact iff_of_false hd' hd
    · exact dirty_other hother hu v
  unfold Stored
  rw [habsent, hdirty]

section
omit [DecidableEq W] [DecidableEq K] [DecidableEq β]

theorem BodyAs.congr {v : ValuePtr} (h : BodyAs E s m v) (hstored : Stored s' v ↔ Stored s v)
    (hs : s'.body v = s.body v) (hm : m'.body v = m.body v) : BodyAs E s' m' v := by
  refine ⟨fun hst => ?_, fun hex hst => ?_⟩
  · rw [hs, hm]
    exact h.stored (hstored.mp hst)
  · rw [hm]
    exact h.gone hex (mt hstored.mpr hst)

/-- A worker that has stored a body holds the record. -/
theorem Dirty.holds {u : W} {v : ValuePtr} (h : Dirty s u v) : Holds (s.workers u) v := by
  obtain ⟨i, x, we, hpc, hwe, hv⟩ := h
  exact ⟨i, we, hwe, hv, by rw [hpc]; exact Nat.le_refl i⟩

end

section
omit [DecidableEq β]

/-- The step only replaces the worker's own state. -/
theorem Follows.setWorker (h : Follows E s m) (hv : Versions m) (hd : ∀ v, ¬ Dirty s w v)
    (hd' : ∀ i x, t.pc ≠ .writing i x true) (hlocks : ∃ H, Inv (s.setWorker w t) H) (ht : TxAs s t t') :
    Follows E (s.setWorker w t) (m.setWorker w t') := by
  have hclean : ∀ v, ¬ Dirty (s.setWorker w t) w v := not_dirty_of_pc (by simpa using hd')
  refine h.step hv (w := w) ⟨rfl, fun u hu => setWorker_other _ _ hu, fun v => Nat.le_refl _,
    fun v ha => Or.inl ha, fun u hu v hh => rfl⟩ (fun u hu => setWorker_other _ _ hu) rfl h.epoch
    h.tidword (fun v => ?_) h.committed ?_ hlocks
  · exact (h.body v).congr (stored_congr (fun u hu => setWorker_other _ _ hu) rfl (hd v) (hclean v)) rfl rfl
  · rw [setWorker_self, setWorker_self]
    exact { ht with reads := ht.reads.imp fun re re' hre => ⟨hre.element, hre.seen, hre.op⟩ }

/-- The step stores the word `x` to the record `v`, which no other worker holds. -/
theorem Follows.store (h : Follows E s m) (hv : Versions m) {v : ValuePtr} {x : TIDword}
    (hothers : ∀ u, u ≠ w → m'.workers u = m.workers u) (htree : m'.tree = m.tree)
    (hepoch : m'.GlobalEpoch = m.GlobalEpoch) (hcommitted : m'.committed = m.committed)
    (hmem : ∀ u, u ≠ v → m'.mem u = m.mem u) (hword : m'.tidword v = present x) (hver : s.ver v ≤ x.ver)
    (habsent : x.absent = true → (s.tidword v).absent = true ∨ s.ver v < x.ver)
    (hfree : ∀ u, u ≠ w → ¬ Holds (s.workers u) v) (hd : ∀ u, u ≠ v → ¬ Dirty s w u)
    (hd' : ∀ i y, t.pc ≠ .writing i y true)
    (hbody : BodyAs E ((s.setTid v x).setWorker w t) m' v)
    (hlocks : ∃ H, Inv ((s.setTid v x).setWorker w t) H) (ht : TxAs s t (m'.workers w))
    (hat : PcAs ((s.setTid v x).setWorker w t) t) :
    Follows E ((s.setTid v x).setWorker w t) m' := by
  have hclean : ∀ u, ¬ Dirty ((s.setTid v x).setWorker w t) w u := not_dirty_of_pc (by simpa using hd')
  have hframe : WordFrame s ((s.setTid v x).setWorker w t) w := by
    refine ⟨rfl, fun u hu => setWorker_other _ _ hu, fun u => ?_, fun u ha => ?_, fun u hu y hy => ?_⟩
    · rw [setWorker_ver]
      by_cases huv : u = v
      · rw [huv, setTid_ver_self]
        exact hver
      · rw [setTid_ver_other s x huv]
    · rw [setWorker_tidword] at ha
      rw [setWorker_ver]
      by_cases huv : u = v
      · rw [huv, setTid_tidword_self] at ha
        rw [huv, setTid_ver_self]
        exact habsent ha
      · rw [setTid_tidword_other s x huv] at ha
        exact Or.inl ha
    · have hne : y ≠ v := by
        rintro rfl
        exact hfree u hu hy
      rw [setWorker_tidword, setTid_tidword_other s x hne]
  refine h.step hv hframe hothers htree (hepoch.trans h.epoch) (fun u => ?_) (fun u => ?_)
    (hcommitted.trans h.committed) ?_ hlocks
  · rw [setWorker_tidword]
    by_cases huv : u = v
    · rw [huv, hword, setTid_tidword_self]
    · rw [setTid_tidword_other s x huv, State.tidword, hmem u huv]
      exact h.tidword u
  · by_cases huv : u = v
    · rw [huv]
      exact hbody
    · refine (h.body u).congr (stored_congr hframe.others ?_ (hd u huv) (hclean u)) ?_ ?_
      · rw [setWorker_tidword, setTid_tidword_other s x huv]
      · rw [setWorker_body]
        exact setTid_body s v u x
      · rw [State.body, hmem u huv]
        rfl
  · rw [setWorker_self]
    exact { ht with
      reads := seenAs_mono hframe.mono ht.reads
      at_pc := hat }

/-- The step sets or clears the lock bit of `v`. -/
theorem Follows.lockBit (h : Follows E s m) (hv : Versions m) {v : ValuePtr} {x : TIDword} {b : Bool}
    (hx : s.tidword v = x) (hfree : ∀ u, u ≠ w → ¬ Holds (s.workers u) v) (hd : ∀ u, ¬ Dirty s w u)
    (hd' : ∀ i y, t.pc ≠ .writing i y true)
    (hlocks : ∃ H, Inv ((s.setTid v { x with lock := b }).setWorker w t) H) (ht : TxAs s t t')
    (hat : PcAs ((s.setTid v { x with lock := b }).setWorker w t) t) :
    Follows E ((s.setTid v { x with lock := b }).setWorker w t)
      ((m.setTid v { present x with lock := b }).setWorker w t') := by
  have hver : ({ x with lock := b } : TIDword).ver = s.ver v := by rw [State.ver, hx, TIDword.ver_lock]
  have hother : ∀ u, u ≠ w → ((s.setTid v { x with lock := b }).setWorker w t).workers u = s.workers u :=
    fun u hu => setWorker_other _ _ hu
  refine h.store hv (fun u hu => setWorker_other _ _ hu) rfl rfl rfl (fun u hu => ?_) ?_ hver.ge
    (fun ha => ?_) hfree (fun u _ => hd u) hd' ?_ hlocks (by rwa [setWorker_self]) hat
  · simp [State.setTid, hu]
  · rw [setWorker_tidword, setTid_tidword_self]
    rfl
  · rw [hx]
    exact Or.inl ha
  · refine (h.body v).congr (stored_congr hother ?_ (hd v) ?_) ?_ ?_
    · rw [setWorker_tidword, setTid_tidword_self, hx]
    · exact not_dirty_of_pc (by simpa using hd') v
    · rw [setWorker_body]
      exact setTid_body s v v _
    · rw [setWorker_body]
      exact setTid_body m v v _

end

section
variable [Inhabited β]

/-- The following run goes on from `m` to `m'`. -/
def Steps (m m' : State W (Option K) (Option β)) : Prop := Reach step (Eq m) Admitted m'

section
omit [Inhabited β]

theorem step_of {a : Action W (Option K) (Option β)} (hok : Admitted m a) (hs : step m a = some m') : Steps m m' :=
  .next (.start rfl) hok hs

theorem Steps.trans {m₀ : State W (Option K) (Option β)} (h₀ : Steps m₀ m) (h : Steps m m') :
    Steps m₀ m' := by
  induction h with
  | start h => exact h ▸ h₀
  | next _ hok hs ih => exact ih.next hok hs

/-- A run keeps what the proof of serializability knows of it. -/
theorem Steps.runInv {m₀ : State W (Option K) (Option β)} (h₀ : Init m₀) (h : Steps m₀ m) :
    RunInv m₀ m := by
  induction h with
  | start h =>
    subst h
    exact ⟨⟨_, owned_init h₀⟩, versions_init h₀, rfl, [], ser_init h₀⟩
  | next _ hok hs ih => exact runInv_step ih hok hs

end

omit [DecidableEq W] [DecidableEq K] [DecidableEq β] [Inhabited β] in
/-- No condition is laid on the ticks of the other control states. -/
theorem admitted_tick (hl : ∀ i e, (m.workers w).pc ≠ .locking i (some e))
    (hv : ∀ i, (m.workers w).pc ≠ .validating i) : Admitted m (.work w .tick) := by
  refine ⟨?_, ?_, rfl⟩
  · unfold NoLockConflict lockConflict
    dsimp only
    split
    · exact absurd ‹_› (hl _ _)
    · rfl
  · unfold tidOverflow
    dsimp only
    split
    · exact absurd ‹_› (hv _)
    · rfl

omit [DecidableEq W] [DecidableEq β] [Inhabited β] in
/-- A tick that is admitted in the run with deletes is admitted in the following one. -/
theorem Follows.admitted (h : Follows E s m) (hok : AdmittedDeletes s (.work w .tick)) :
    Admitted m (.work w .tick) := by
  have ht := h.workers w
  by_cases hl : ∃ i e, (s.workers w).pc = .locking i (some e)
  · obtain ⟨i, e, hpc⟩ := hl
    have hpc' : (m.workers w).pc = .locking i (some (present e)) := by rw [ht.pc, hpc]; rfl
    refine ⟨?_, ?_, rfl⟩
    · simpa [NoLockConflict, lockConflict, hpc'] using hok.free.free hpc
    · simp [tidOverflow, hpc']
  by_cases hv : ∃ i, (s.workers w).pc = .validating i
  · obtain ⟨i, hpc⟩ := hv
    have hpc' : (m.workers w).pc = .validating i := by rw [ht.pc, hpc]; rfl
    have htid := ((TIDword.ver_eq_iff _ _).mp (ht.rset.max ht.wset).ver).2
    have hover := hok.tid
    refine ⟨?_, ?_, rfl⟩
    · simp [NoLockConflict, lockConflict, hpc']
    · simpa [tidOverflow, hpc, hpc', htid, ht.reads.length_eq] using hover
  refine admitted_tick ?_ ?_
  · intro i e hpc'
    rw [ht.pc] at hpc'
    cases hpc : (s.workers w).pc with
    | locking j x =>
      rw [hpc, liftPc, Pc.locking.injEq, Option.map_eq_some_iff] at hpc'
      obtain ⟨-, y, rfl, -⟩ := hpc'
      exact hl ⟨j, y, hpc⟩
    | _ => simp [hpc, liftPc] at hpc'
  · intro i hpc'
    rw [ht.pc] at hpc'
    cases hpc : (s.workers w).pc with
    | validating j => exact hv ⟨j, hpc⟩
    | _ => simp [hpc, liftPc] at hpc'

omit [Inhabited β] in
/-- The following worker asks for a key that the tree does not hold. -/
theorem follow_refuse (h : Follows E s m) (hpc : (m.workers w).pc = .running) :
    Steps m (m.setWorker w (m.workers w).refuse) := by
  have hread : read m (m.workers w) none = (m.workers w).refuse := by
    have hreads := searchReadSet_none_key (h.workers w).reads
    have hwrites := searchWriteSet_none_key (s.workers w).write_set_
    rw [← (h.workers w).writes] at hwrites
    have htree : m.tree none = none := by rw [h.tree]; rfl
    simp [read, hreads, hwrites, htree]
  have hs : step m (.work w (.read none)) = some (m.setWorker w (m.workers w).refuse) := by
    simp [step, work, hpc, hread]
  exact step_of (by exact ⟨rfl, rfl, rfl⟩) hs

section
omit [DecidableEq W] [DecidableEq β] [Inhabited β]

theorem TxAs.goto (h : TxAs s t t') {pc : Pc K} (hchecked : ∀ j, ¬ Checked pc j) (hat : PcAs s (t.goto pc)) :
    TxAs s (t.goto pc) (t'.goto (liftPc pc)) :=
  { h with
    pc := rfl
    checked := fun j hc => absurd hc (hchecked j)
    at_pc := hat }

theorem TxAs.refuse (h : TxAs s t t') : TxAs s t.refuse t'.refuse :=
  h.goto (fun _ => id) trivial

end

section
omit [DecidableEq K] [DecidableEq β] [Inhabited β]

theorem setWorker_same (s : State W K β) (w : W) : s.setWorker w (s.workers w) = s := by
  simp [State.setWorker]

theorem setWorker_twice (s : State W K β) (w : W) (t t' : TxExecutor K β) :
    (s.setWorker w t).setWorker w t' = s.setWorker w t' := by
  simp [State.setWorker]

theorem goto_twice (t : TxExecutor K β) (pc pc' : Pc K) : (t.goto pc).goto pc' = t.goto pc' := rfl

end

section
omit [Inhabited β]

theorem follow_begin (hv : Versions m) (h : Follows E s m) (hpc : (s.workers w).pc = .idle)
    (hlocks : ∃ H, Inv (s.setWorker w (s.workers w).begin) H) :
    ∃ m', Steps m m' ∧ Follows E (s.setWorker w (s.workers w).begin) m' := by
  have hpc' : (m.workers w).pc = .idle := by rw [(h.workers w).pc, hpc, liftPc]
  have hs : step m (.work w .begin) = some (m.setWorker w (m.workers w).begin) := by
    simp [step, work, hpc']
  refine ⟨_, step_of (by exact ⟨rfl, rfl, rfl⟩) hs, h.setWorker hv ?_ (by simp [TxExecutor.begin])
    hlocks ?_⟩
  · exact not_dirty_of_pc (by simp [hpc])
  · have ht := h.workers w
    exact ⟨rfl, rfl, by simp [TxExecutor.begin], .nil, fun _ hc => hc.elim, ⟨rfl, rfl⟩, ⟨rfl, rfl⟩,
      ht.mrctid, ht.epoch, trivial⟩

theorem follow_read (hv : Versions m) (h : Follows E s m) (hpc : (s.workers w).pc = .running) (k : K)
    (hlocks : ∃ H, Inv (s.setWorker w (read s (s.workers w) k)) H) :
    ∃ m', Steps m m' ∧ Follows E (s.setWorker w (read s (s.workers w) k)) m' := by
  have ht := h.workers w
  have hpc' : (m.workers w).pc = .running := by rw [ht.pc, hpc, liftPc]
  have hd : ∀ v, ¬ Dirty s w v := not_dirty_of_pc (by simp [hpc])
  unfold read at hlocks ⊢
  split
  · exact ⟨m, .start rfl, by rwa [setWorker_same]⟩
  rename_i hreads
  split
  · exact ⟨m, .start rfl, by rwa [setWorker_same]⟩
  rename_i hwrites
  rw [if_neg hreads, if_neg hwrites] at hlocks
  cases htree : s.tree k with
  | none =>
    simp only [htree] at hlocks ⊢
    exact ⟨_, follow_refuse h hpc', h.setWorker hv hd (by simp [TxExecutor.refuse]) hlocks
      ht.refuse⟩
  | some v =>
    simp only [htree] at hlocks ⊢
    have hf := h.setWorker (t := (s.workers w).goto (.readSpin k v (s.tidword v))) hv hd (by simp)
      hlocks { ht with
        pc := by rw [hpc']; rfl
        checked := fun _ hc => hc.elim
        at_pc := ⟨htree, by simpa using hreads, by simpa using hwrites⟩ }
    rw [setWorker_same] at hf
    exact ⟨m, .start rfl, hf⟩

/-- `write` and `tx_delete` where the key is not in the write set: the element is added, or
the tree does not hold the key. -/
theorem follow_write (hv : Versions m) (h : Follows E s m) (hpc : (s.workers w).pc = .running) {k : K}
    {b : β} {op : OpType} (hop : op = .WRITE ∨ op = .DELETE)
    (hkey : (searchWriteSet (s.workers w).write_set_ k).isSome = false) {t : TxExecutor K β}
    (ht : t = match findValue s (s.workers w) k with
      | none => (s.workers w).refuse
      | some v => { s.workers w with write_set_ := (s.workers w).write_set_ ++ [⟨k, v, b, op⟩] })
    (hlocks : ∃ H, Inv (s.setWorker w t) H) :
    ∃ m', Steps m m' ∧ Follows E (s.setWorker w t) m' := by
  have htx := h.workers w
  have hpc' : (m.workers w).pc = .running := by rw [htx.pc, hpc, liftPc]
  have hd : ∀ v, ¬ Dirty s w v := not_dirty_of_pc (by simp [hpc])
  have hkey' := (isSome_searchWriteSet htx k).trans hkey
  have hfind := findValue_lift h htx k
  cases hfound : findValue s (s.workers w) k with
  | none =>
    rw [hfound] at ht
    subst ht
    exact ⟨_, follow_refuse h hpc', h.setWorker hv hd (by simp [TxExecutor.refuse]) hlocks
      htx.refuse⟩
  | some v =>
    rw [hfound] at ht hfind
    subst ht
    have hs : step m (.work w (.write (some k) (if op = .DELETE then none else some b))) =
        some (m.setWorker w { m.workers w with
          write_set_ := (m.workers w).write_set_ ++ [liftWrite ⟨k, v, b, op⟩] }) := by
      simp [step, work, hpc', write, hkey', hfind, liftWrite]
    refine ⟨_, step_of (by exact ⟨rfl, rfl, rfl⟩) hs, h.setWorker hv hd (by simp [hpc]) hlocks
      { htx with
        writes := by rw [htx.writes, List.map_append]; rfl
        ops := fun we hwe => ?_
        at_pc := ?_ }⟩
    · rcases List.mem_append.mp hwe with hwe | hwe
      · exact htx.ops we hwe
      · rw [List.mem_singleton.mp hwe]
        exact hop
    · simp [PcAs, hpc]

theorem follow_validate (hv : Versions m) (h : Follows E s m) (hpc : (s.workers w).pc = .running)
    {order : List (WriteElement K β)} (hperm : order.Perm (s.workers w).write_set_)
    (hlocks : ∃ H, Inv (s.setWorker w { s.workers w with write_set_ := order, pc := .locking 0 none }) H) :
    ∃ m', Steps m m' ∧
      Follows E (s.setWorker w { s.workers w with write_set_ := order, pc := .locking 0 none }) m' := by
  have ht := h.workers w
  have hpc' : (m.workers w).pc = .running := by rw [ht.pc, hpc, liftPc]
  have hperm' : (order.map liftWrite).Perm (m.workers w).write_set_ := by
    rw [ht.writes]
    exact hperm.map liftWrite
  have hs : step m (.work w (.validate (order.map liftWrite))) =
      some (m.setWorker w { m.workers w with write_set_ := order.map liftWrite, pc := .locking 0 none }) := by
    simp [step, work, hpc', hperm']
  refine ⟨_, step_of (by exact ⟨rfl, rfl, rfl⟩) hs, h.setWorker hv ?_ (by simp) hlocks
    { ht with
      pc := rfl
      writes := rfl
      ops := fun we hwe => ht.ops we (hperm.mem_iff.mp hwe)
      checked := fun _ hc => hc.elim
      at_pc := trivial }⟩
  exact not_dirty_of_pc (by simp [hpc])

theorem follow_readSpin (hv : Versions m) (h : Follows E s m) {k : K} {v : ValuePtr} {e : TIDword}
    (hpc : (s.workers w).pc = .readSpin k v e)
    (hlocks : ∃ H, Inv (s.setWorker w (stepReadSpin s (s.workers w) k v e)) H) :
    ∃ m', Steps m m' ∧ Follows E (s.setWorker w (stepReadSpin s (s.workers w) k v e)) m' := by
  have ht := h.workers w
  have hpc' : (m.workers w).pc = .running := by rw [ht.pc, hpc, liftPc]
  have hd : ∀ v, ¬ Dirty s w v := not_dirty_of_pc (by simp [hpc])
  obtain ⟨htree, hreads, hwrites⟩ : s.tree k = some v ∧
      (searchReadSet (s.workers w).read_set_ k).isSome = false ∧
      (searchWriteSet (s.workers w).write_set_ k).isSome = false := by
    have := ht.at_pc
    simpa only [PcAs, hpc] using this
  have hspin : ∀ x, TxAs s ((s.workers w).goto (.readSpin k v x)) (m.workers w) := fun x =>
    { ht with
      pc := by rw [hpc']; rfl
      checked := fun _ hc => hc.elim
      at_pc := ⟨htree, hreads, hwrites⟩ }
  have hstay : ∀ x, (∃ H, Inv (s.setWorker w ((s.workers w).goto (.readSpin k v x))) H) →
      ∃ m', Steps m m' ∧ Follows E (s.setWorker w ((s.workers w).goto (.readSpin k v x))) m' := by
    intro x hlocks
    have hf := h.setWorker hv hd (by simp) hlocks (hspin x)
    rw [setWorker_same] at hf
    exact ⟨m, .start rfl, hf⟩
  unfold stepReadSpin at hlocks ⊢
  split
  · exact hstay _ (by rwa [if_pos ‹_›] at hlocks)
  rename_i hlock
  rw [if_neg hlock] at hlocks
  split
  · rw [if_pos ‹_›] at hlocks
    exact ⟨_, follow_refuse h hpc', h.setWorker hv hd (by simp [TxExecutor.refuse]) hlocks
      ht.refuse⟩
  rename_i habsent
  rw [if_neg habsent] at hlocks
  split
  · -- the word is stable: the following worker asks for the key and reads it at once
    rename_i hsame
    rw [if_pos hsame] at hlocks
    have htree' : m.tree (some k) = some v := by
      rw [h.tree]
      exact htree
    have hword : m.tidword v = present e := by rw [h.tidword, ← hsame]
    have hread : step m (.work w (.read (some k))) =
        some (m.setWorker w ((m.workers w).goto (.readSpin (some k) v (present e)))) := by
      simp [step, work, hpc', read, isSome_searchReadSet ht, isSome_searchWriteSet ht, hreads, hwrites, htree',
        hword]
    have hr₁ := step_of (by exact ⟨rfl, rfl, rfl⟩) hread
    have hspun : step (m.setWorker w ((m.workers w).goto (.readSpin (some k) v (present e)))) (.work w .tick) =
        some (m.setWorker w ((m.workers w).goto (.readBody (some k) v (present e)))) := by
      simp [step, work, tick, stepReadSpin, hlock, hword, setWorker_twice, goto_twice]
    refine ⟨_, hr₁.next (admitted_tick (by simp) (by simp)) hspun, h.setWorker hv hd (by simp)
      hlocks (ht.goto (fun _ => id) fun ha => ?_)⟩
    rw [← hsame] at ha
    exact absurd ha habsent
  · exact hstay _ (by rwa [if_neg ‹_›] at hlocks)

/-- The body is copied: the two runs hand out the same one, unless the record has been
overwritten since its word was read. -/
theorem follow_readBody (hv : Versions m) (h : Follows E s m) {k : K} {v : ValuePtr} {e : TIDword}
    (hpc : (s.workers w).pc = .readBody k v e) {t : TxExecutor K β}
    (ht : t = { s.workers w with
      pc := .running
      read_set_ := (s.workers w).read_set_ ++ [⟨⟨k, v, e, .READ⟩, some (s.mem v).body_⟩] })
    (hlocks : ∃ H, Inv (s.setWorker w t) H) : ∃ m', Steps m m' ∧ Follows E (s.setWorker w t) m' := by
  subst ht
  have ht := h.workers w
  have hpc' : (m.workers w).pc = .readBody (some k) v (present e) := by rw [ht.pc, hpc, liftPc]
  have hs : step m (.work w .tick) = some (m.setWorker w { m.workers w with
      pc := .running
      read_set_ := (m.workers w).read_set_ ++ [⟨⟨some k, v, present e, .READ⟩, some (m.mem v).body_⟩] }) := by
    simp [step, work, tick, hpc']
  have hseen : SeenAs s ⟨⟨k, v, e, .READ⟩, some (s.mem v).body_⟩
      ⟨⟨some k, v, present e, .READ⟩, some (m.mem v).body_⟩ := by
    refine ⟨rfl, ?_, rfl⟩
    by_cases hst : Stored s v
    · exact Or.inl (congrArg some ((h.body v).stored hst))
    · have hold := ht.at_pc
      simp only [PcAs, hpc] at hold
      exact Or.inr (hold (by simpa using fun ha => hst (Or.inl ha)))
  refine ⟨_, step_of (admitted_tick (by simp [hpc']) (by simp [hpc'])) hs, h.setWorker hv
    (not_dirty_of_pc (by simp [hpc])) (by simp) hlocks { ht with
      pc := rfl
      reads := List.rel_append ht.reads (.cons hseen .nil)
      checked := fun _ hc => hc.elim
      at_pc := trivial }⟩

theorem follow_locking (hv : Versions m) (h : Follows E s m) (hok : AdmittedDeletes s (.work w .tick))
    {i : Nat} {e : Option TIDword} (hpc : (s.workers w).pc = .locking i e)
    (hlocks : ∃ H, Inv (stepLocking s w (s.workers w) i e) H) :
    ∃ m', Steps m m' ∧ Follows E (stepLocking s w (s.workers w) i e) m' := by
  have ht := h.workers w
  have hpc' : (m.workers w).pc = .locking i (e.map present) := by rw [ht.pc, hpc, liftPc]
  have hd : ∀ v, ¬ Dirty s w v := not_dirty_of_pc (by simp [hpc])
  have hm : ∀ m', stepLocking m w (m.workers w) i (e.map present) = m' → Steps m m' := by
    rintro m' rfl
    refine step_of (h.admitted hok) ?_
    simp [step, work, tick, hpc']
  generalize hs : stepLocking s w (s.workers w) i e = s' at hlocks ⊢
  cases lockings_of_stepLocking hs with
  | done hend =>
    have hm' := hm (m.setWorker w ((m.workers w).goto .loadEpoch))
      (by simp only [stepLocking, ht.write_end hend])
    exact ⟨_, hm', h.setWorker hv hd (by simp) hlocks (ht.goto (fun _ => id) trivial)⟩
  | insert hwe hop => exact absurd hop (ht.not_insert hwe)
  | @load we hwe hop =>
    have hm' := hm (m.setWorker w ((m.workers w).goto (.locking i (some (present (s.tidword we.value_))))))
      (by simp [stepLocking, ht.write_at hwe, liftWrite, h.tidword])
    exact ⟨_, hm', h.setWorker hv hd (by simp) hlocks (ht.goto (fun _ => id) trivial)⟩
  | @conflict we x hwe hop hl =>
    rw [hok.free.free hpc] at hl
    cases hl
  | @lock we x hwe hop hfree hcas =>
    have hcas' : m.tidword we.value_ = present x := by rw [h.tidword, hcas]
    have hunheld : ∀ u, u ≠ w → ¬ Holds (s.workers u) we.value_ := by
      intro u _ hu
      obtain ⟨H, hi⟩ := h.locks
      have hlock := hi.locked hu
      rw [hcas, hfree] at hlock
      cases hlock
    have hm' := hm ((m.setTid we.value_ { present x with lock := true }).setWorker w { m.workers w with
        max_wset_ := TIDword.max (m.workers w).max_wset_ (present x), pc := .locking (i + 1) none })
      (by simp [stepLocking, ht.write_at hwe, liftWrite, hfree, hcas'])
    exact ⟨_, hm', h.lockBit hv hcas hunheld hd (by simp) hlocks
      { ht with
        pc := rfl
        wset := ht.wset.max (wordAs_present x)
        checked := fun _ hc => hc.elim
        at_pc := trivial } trivial⟩
  | @reload we x hwe hop hfree hcas =>
    by_cases hsame : present (s.tidword we.value_) = present x
    · -- only the absent bit has changed: the following worker does not notice
      have hf := h.setWorker (t := (s.workers w).goto (.locking i (some (s.tidword we.value_)))) hv hd
        (by simp) hlocks { ht with
          pc := by rw [hpc', goto_pc, liftPc, Option.map_some, Option.map_some, hsame]
          checked := fun _ hc => hc.elim
          at_pc := trivial }
      rw [setWorker_same] at hf
      exact ⟨m, .start rfl, hf⟩
    · have hcas' : m.tidword we.value_ ≠ present x := by rwa [h.tidword]
      have hm' := hm (m.setWorker w ((m.workers w).goto (.locking i (some (present (s.tidword we.value_))))))
        (by simp [stepLocking, ht.write_at hwe, liftWrite, hfree, hsame, h.tidword])
      exact ⟨_, hm', h.setWorker hv hd (by simp) hlocks (ht.goto (fun _ => id) trivial)⟩

theorem follow_unlocking (hv : Versions m) (h : Follows E s m) (hok : AdmittedDeletes s (.work w .tick))
    {i : Nat} {e : Option TIDword} (hpc : (s.workers w).pc = .unlocking i e)
    (hlocks : ∃ H, Inv (stepUnlock s w (s.workers w) i (s.workers w).write_set_.length e
      (fun j x => .unlocking j x) (.aborting 0)) H) :
    ∃ m', Steps m m' ∧ Follows E (stepUnlock s w (s.workers w) i (s.workers w).write_set_.length e
      (fun j x => .unlocking j x) (.aborting 0)) m' := by
  have ht := h.workers w
  have hpc' : (m.workers w).pc = .unlocking i (e.map present) := by rw [ht.pc, hpc, liftPc]
  have hlen : (m.workers w).write_set_.length = (s.workers w).write_set_.length := by
    rw [ht.writes, List.length_map]
  have hd : ∀ v, ¬ Dirty s w v := not_dirty_of_pc (by simp [hpc])
  have hm : ∀ m', stepUnlock m w (m.workers w) i (s.workers w).write_set_.length (e.map present)
      (fun j x => .unlocking j x) (.aborting 0) = m' → Steps m m' := by
    rintro m' rfl
    refine step_of (h.admitted hok) ?_
    simp [step, work, tick, hpc', hlen]
  generalize hs : stepUnlock s w (s.workers w) i _ e _ _ = s' at hlocks ⊢
  cases unlocks_of_stepUnlock hs with
  | done hend =>
    have hm' := hm (m.setWorker w ((m.workers w).goto (.aborting 0))) (by
      rcases hend with hle | hnone
      · simp only [stepUnlock, hle, if_true]
      · simp only [stepUnlock, ht.write_end hnone, ite_self])
    exact ⟨_, hm', h.setWorker hv hd (by simp) hlocks (ht.goto (fun _ => id) trivial)⟩
  | insert _ hwe hop => exact absurd hop (ht.not_insert hwe)
  | @load we hlt hwe hop =>
    have hm' := hm (m.setWorker w ((m.workers w).goto (.unlocking i (some (present (s.tidword we.value_))))))
      (by simp [stepUnlock, Nat.not_le.mpr hlt, ht.write_at hwe, liftWrite, h.tidword])
    refine ⟨_, hm', h.setWorker hv hd (by simp) hlocks (ht.goto (fun _ => id) ?_)⟩
    intro y hy
    rw [goto_write_set, hwe] at hy
    obtain rfl := Option.some.inj hy
    rfl
  | @unlock we x hlt hwe hop =>
    have hword : s.tidword we.value_ = x := by
      have hat := ht.at_pc
      simp only [PcAs, hpc] at hat
      exact hat we hwe
    have hfree : ∀ u, u ≠ w → ¬ Holds (s.workers u) we.value_ := by
      intro u hu hheld
      obtain ⟨H, hi⟩ := h.locks
      exact hu (hi.exclusive hheld ⟨i, we, hwe, rfl, by rw [hpc]; exact Or.inr (Nat.le_refl i)⟩)
    have hm' := hm ((m.setTid we.value_ { present x with lock := false }).setWorker w
        ((m.workers w).goto (.unlocking (i + 1) none)))
      (by simp [stepUnlock, Nat.not_le.mpr hlt, ht.write_at hwe, liftWrite])
    exact ⟨_, hm', h.lockBit hv hword hfree hd (by simp) hlocks (ht.goto (fun _ => id) trivial)
      trivial⟩

end

section
omit [DecidableEq W] [DecidableEq β] [Inhabited β]

theorem enterWritePhase_lift (h : TxAs s t t') :
    t'.enterWritePhase.mrctid_ = present t.enterWritePhase.mrctid_ := by
  change commitTid _ _ _ _ = _
  rw [h.mrctid, h.epoch, commitTid_present h.rset h.wset]
  rfl

/-- At the end of validation every element of the following read set is a lift. -/
theorem TxAs.reads_eq (h : TxAs s t t') {i : Nat} (hpc : t.pc = .validating i) (hend : t.read_set_[i]? = none) :
    t'.read_set_ = t.read_set_.map liftRead := by
  have hlen := List.getElem?_eq_none_iff.mp hend
  apply List.ext_getElem?
  intro j
  rw [List.getElem?_map]
  by_cases hj : j < i
  · exact h.checked j (by rw [hpc]; exact hj)
  · have hnone : t.read_set_[j]? = none := List.getElem?_eq_none_iff.mpr (by omega)
    rw [hnone, (h.read_end j).mpr hnone]
    rfl

end

section
omit [Inhabited β]

/-- Validation is through: the transaction joins the list of commits in both runs. -/
theorem follow_commit (hv : Versions m) (h : Follows E s m) (hok : AdmittedDeletes s (.work w .tick))
    {i : Nat} (hpc : (s.workers w).pc = .validating i) (hend : (s.workers w).read_set_[i]? = none)
    {s' : State W K β} (hs' : s' = { s.setWorker w (s.workers w).enterWritePhase with
      committed := s.committed ++ [(s.workers w).enterWritePhase.toCommitted w] })
    (hlocks : ∃ H, Inv s' H) : ∃ m', Steps m m' ∧ Follows E s' m' := by
  subst hs'
  have ht := h.workers w
  have hpc' : (m.workers w).pc = .validating i := by rw [ht.pc, hpc, liftPc]
  have hreads := ht.reads_eq hpc hend
  have hmrctid := enterWritePhase_lift ht
  have hcommitted : (m.workers w).enterWritePhase.toCommitted w =
      liftCommitted ((s.workers w).enterWritePhase.toCommitted w) := by
    simp only [TxExecutor.toCommitted, liftCommitted, hmrctid]
    simp only [TxExecutor.enterWritePhase, hreads, ht.writes]
  have hd : ∀ v, ¬ Dirty s w v := not_dirty_of_pc (by simp [hpc])
  have hd' : ∀ v, ¬ Dirty (s.setWorker w (s.workers w).enterWritePhase) w v :=
    not_dirty_of_pc (by simp [TxExecutor.enterWritePhase])
  have hs : step m (.work w .tick) = some { m.setWorker w (m.workers w).enterWritePhase with
      committed := m.committed ++ [(m.workers w).enterWritePhase.toCommitted w] } := by
    simp [step, work, tick, hpc', stepValidating, (ht.read_end i).mpr hend]
  refine ⟨_, step_of (h.admitted hok) hs, h.step hv (w := w)
    ⟨rfl, fun u hu => setWorker_other _ _ hu, fun v => Nat.le_refl _, fun v ha => Or.inl ha,
      fun u hu v hh => rfl⟩
    (fun u hu => setWorker_other _ _ hu) rfl h.epoch h.tidword (fun v => ?_) ?_ ?_ hlocks⟩
  · exact (h.body v).congr (stored_congr (fun u hu => setWorker_other _ _ hu) rfl (hd v) (hd' v)) rfl rfl
  · rw [h.committed, hcommitted, List.map_append]
    rfl
  · change TxAs _ ((s.setWorker w _).workers w) ((m.setWorker w _).workers w)
    rw [setWorker_self, setWorker_self]
    exact { ht with
      pc := congrArg (Pc.writing 0 · false) hmrctid
      reads := ht.reads.imp fun re re' hre => ⟨hre.element, hre.seen, hre.op⟩
      checked := fun j _ => by
        change (m.workers w).read_set_[j]? = _
        rw [hreads, List.getElem?_map]
        rfl
      mrctid := hmrctid
      at_pc := trivial }

theorem follow_validating (hv : Versions m) (h : Follows E s m) (hok : AdmittedDeletes s (.work w .tick))
    {i : Nat} (hpc : (s.workers w).pc = .validating i)
    (hlocks : ∃ H, Inv (stepValidating s w (s.workers w) i) H) :
    ∃ m', Steps m m' ∧ Follows E (stepValidating s w (s.workers w) i) m' := by
  have ht := h.workers w
  cases hre : (s.workers w).read_set_[i]? with
  | none => exact follow_commit hv h hok hpc hre (by simp only [stepValidating, hre]) hlocks
  | some re =>
    have hpc' : (m.workers w).pc = .validating i := by rw [ht.pc, hpc, liftPc]
    have hd : ∀ v, ¬ Dirty s w v := not_dirty_of_pc (by simp [hpc])
    have hm : ∀ m', stepValidating m w (m.workers w) i = m' → Steps m m' := by
      rintro m' rfl
      refine step_of (h.admitted hok) ?_
      simp [step, work, tick, hpc']
    obtain ⟨re', hre', hseen⟩ := seenAs_at ht.reads hre
    have hiff := validationFails_lift h ht hseen
    rw [hseen.value, h.tidword] at hiff
    simp only [stepValidating, hre] at hlocks ⊢
    split
    · rename_i hfails
      rw [if_pos hfails] at hlocks
      have hm' := hm (m.setWorker w { m.workers w with status_ := .Aborted, pc := .unlocking 0 none })
        (by simp only [stepValidating, hre', hseen.value, h.tidword, if_pos (hiff.mpr hfails)])
      exact ⟨_, hm', h.setWorker hv hd (by simp) hlocks
        { ht with pc := rfl, checked := fun _ hc => hc.elim, at_pc := trivial }⟩
    · rename_i hpasses
      rw [if_neg hpasses] at hlocks
      have hm' := hm (m.setWorker w { m.workers w with
          max_rset_ := TIDword.max (m.workers w).max_rset_ (present (s.tidword re.value_))
          pc := .validating (i + 1) })
        (by simp only [stepValidating, hre', hseen.value, h.tidword, if_neg (mt hiff.mp hpasses)])
      have hver : re.tidword_.ver = s.ver re.value_ := by
        simp only [validationFails, not_or, not_not] at hpasses
        exact (TIDword.ver_eq_iff _ _).mpr ⟨hpasses.2.1, hpasses.2.2.1⟩
      refine ⟨_, hm', h.setWorker hv hd (by simp) hlocks
        { ht with
          pc := rfl
          rset := ht.rset.max (wordAs_present _)
          checked := fun j hj => ?_
          at_pc := trivial }⟩
      by_cases hji : j = i
      · rw [hji, hre', hre, hseen.eq_lift hver.not_lt]
        rfl
      · have hlt : j < i + 1 := hj
        exact ht.checked j (by rw [hpc]; exact Nat.lt_of_le_of_ne (by omega) hji)

theorem follow_aborting (hv : Versions m) (h : Follows E s m) (hok : AdmittedDeletes s (.work w .tick))
    {i : Nat} (hpc : (s.workers w).pc = .aborting i)
    (hlocks : ∃ H, Inv (stepAborting s w (s.workers w) i) H) :
    ∃ m', Steps m m' ∧ Follows E (stepAborting s w (s.workers w) i) m' := by
  have ht := h.workers w
  have hpc' : (m.workers w).pc = .aborting i := by rw [ht.pc, hpc, liftPc]
  have hd : ∀ v, ¬ Dirty s w v := not_dirty_of_pc (by simp [hpc])
  have hm : ∀ m', stepAborting m w (m.workers w) i = m' → Steps m m' := by
    rintro m' rfl
    refine step_of (h.admitted hok) ?_
    simp [step, work, tick, hpc']
  cases hwe : (s.workers w).write_set_[i]? with
  | none =>
    simp only [stepAborting, hwe] at hlocks ⊢
    have hm' := hm (m.setWorker w { m.workers w with pc := .idle, read_set_ := [], write_set_ := [] })
      (by simp only [stepAborting, ht.write_end hwe])
    exact ⟨_, hm', h.setWorker hv hd (by simp) hlocks
      ⟨rfl, rfl, by simp, .nil, fun _ hc => hc.elim, ht.rset, ht.wset, ht.mrctid, ht.epoch, trivial⟩⟩
  | some we =>
    simp only [stepAborting, hwe, if_neg (ht.not_insert hwe)] at hlocks ⊢
    have hm' := hm (m.setWorker w ((m.workers w).goto (.aborting (i + 1))))
      (by simp [stepAborting, ht.write_at hwe, liftWrite])
    exact ⟨_, hm', h.setWorker hv hd (by simp) hlocks (ht.goto (fun _ => id) trivial)⟩

end

omit [DecidableEq W] [DecidableEq β] [Inhabited β] in
/-- What a worker in `writePhase` knows of the record at hand. -/
theorem Follows.writing (h : Follows E s m) (hv : Versions m) {i : Nat} {x : TIDword} {b : Bool}
    {we : WriteElement K β} (hpc : (s.workers w).pc = .writing i x b)
    (hwe : (s.workers w).write_set_[i]? = some we) :
    s.ver we.value_ < x.ver ∧ ∀ u, u ≠ w → ¬ Holds (s.workers u) we.value_ := by
  have ht := h.workers w
  have hpc' : (m.workers w).pc = .writing i (present x) b := by rw [ht.pc, hpc, liftPc]
  constructor
  · have hnewer := (hv.writing hpc').2.1 i _ (Nat.le_refl i) (ht.write_at hwe)
    rw [h.ver] at hnewer
    exact hnewer
  · intro u hu hheld
    obtain ⟨H, hi⟩ := h.locks
    exact hu (hi.exclusive hheld ⟨i, we, hwe, rfl, by rw [hpc]; exact Nat.le_refl i⟩)

section
omit [Inhabited β]

theorem follow_finish (hv : Versions m) (h : Follows E s m) {i : Nat} {x : TIDword} {b : Bool}
    (hpc : (s.workers w).pc = .writing i x b) (hend : (s.workers w).write_set_[i]? = none)
    (hlocks : ∃ H, Inv (s.setWorker w ((s.workers w).goto .idle)) H) :
    ∃ m', Steps m m' ∧ Follows E (s.setWorker w ((s.workers w).goto .idle)) m' := by
  have ht := h.workers w
  have hpc' : (m.workers w).pc = .writing i (present x) b := by rw [ht.pc, hpc, liftPc]
  have hd : ∀ v, ¬ Dirty s w v := by
    intro v hdirty
    obtain ⟨i', x', we, hpc₂, hwe, -⟩ := hdirty
    rw [hpc] at hpc₂
    obtain ⟨rfl, -, -⟩ := Pc.writing.inj hpc₂
    rw [hend] at hwe
    cases hwe
  have hs : step m (.work w .tick) = some (m.setWorker w ((m.workers w).goto .idle)) := by
    simp [step, work, tick, hpc', stepWriting, ht.write_end hend]
  exact ⟨_, step_of (admitted_tick (by simp [hpc']) (by simp [hpc'])) hs,
    h.setWorker hv hd (by simp) hlocks (ht.goto (fun _ => id) trivial)⟩

theorem follow_storeBody (hv : Versions m) (h : Follows E s m) {i : Nat} {x : TIDword}
    {we : WriteElement K β} (hpc : (s.workers w).pc = .writing i x false)
    (hwe : (s.workers w).write_set_[i]? = some we) (hop : we.op_ = .WRITE)
    (hlocks : ∃ H, Inv ((s.setBody we.value_ we.new_value_body_).setWorker w
      ((s.workers w).goto (.writing i x true))) H) :
    ∃ m', Steps m m' ∧ Follows E ((s.setBody we.value_ we.new_value_body_).setWorker w
      ((s.workers w).goto (.writing i x true))) m' := by
  have ht := h.workers w
  have hpc' : (m.workers w).pc = .writing i (present x) false := by rw [ht.pc, hpc, liftPc]
  have hs : step m (.work w .tick) = some ((m.setBody we.value_ (some we.new_value_body_)).setWorker w
      ((m.workers w).goto (.writing i (present x) true))) := by
    simp [step, work, tick, hpc', stepWriting, ht.write_at hwe, liftWrite, hop]
  have hother : ∀ u, u ≠ w → ((s.setBody we.value_ we.new_value_body_).setWorker w
      ((s.workers w).goto (.writing i x true))).workers u = s.workers u := fun u hu => setWorker_other _ _ hu
  have hword : ∀ u, ((s.setBody we.value_ we.new_value_body_).setWorker w
      ((s.workers w).goto (.writing i x true))).tidword u = s.tidword u := fun u => by
    rw [setWorker_tidword, setBody_tidword]
  refine ⟨_, step_of (admitted_tick (by simp [hpc']) (by simp [hpc'])) hs,
    h.step hv (w := w) ⟨rfl, hother, fun u => ?_, fun u ha => ?_, fun u _ y _ => hword y⟩
      (fun u hu => setWorker_other _ _ hu) rfl h.epoch (fun u => ?_) (fun u => ?_) h.committed ?_ hlocks⟩
  · rw [State.ver, State.ver, hword]
  · rw [hword] at ha
    exact Or.inl ha
  · rw [hword, setWorker_tidword, setBody_tidword]
    exact h.tidword u
  · by_cases hu : u = we.value_
    · subst hu
      refine ⟨fun _ => ?_, fun _ hst => absurd (Or.inr ⟨w, i, x, we, ?_, ?_, rfl⟩) hst⟩
      · rw [setWorker_body, setWorker_body]
        exact (setBody_body_self m _ _).trans (congrArg some (setBody_body_self s _ _).symm)
      · rw [setWorker_self]
        rfl
      · rw [setWorker_self]
        exact hwe
    · refine (h.body u).congr (stored_congr hother (by rw [hword]) ?_ ?_) ?_ ?_
      · exact not_dirty_of_pc (by simp [hpc]) u
      · intro hdirty
        obtain ⟨i', x', we', hpc₂, hwe₂, rfl⟩ := hdirty
        rw [setWorker_self] at hpc₂ hwe₂
        obtain ⟨rfl, -, -⟩ := Pc.writing.inj hpc₂
        rw [goto_write_set, hwe] at hwe₂
        exact hu (congrArg _ (Option.some.inj hwe₂).symm)
      · rw [setWorker_body]
        exact setBody_body_other s _ hu
      · rw [setWorker_body]
        exact setBody_body_other m _ hu
  · rw [setWorker_self, setWorker_self]
    refine { ht with
      pc := rfl
      reads := seenAs_mono (fun u => ?_) ht.reads
      checked := fun j _ => ht.checked j (by rw [hpc]; trivial)
      at_pc := ?_ }
    · rw [State.ver, State.ver, hword]
    · intro y hy
      rw [goto_write_set, hwe] at hy
      obtain rfl := Option.some.inj hy
      exact hop

theorem follow_storeTid (hv : Versions m) (h : Follows E s m) {i : Nat} {x : TIDword}
    {we : WriteElement K β} (hpc : (s.workers w).pc = .writing i x true)
    (hwe : (s.workers w).write_set_[i]? = some we) (htold : E → x.absent = false)
    (hlocks : ∃ H, Inv ((s.setTid we.value_ x).setWorker w ((s.workers w).goto (.writing (i + 1) x false))) H) :
    ∃ m', Steps m m' ∧ Follows E ((s.setTid we.value_ x).setWorker w
      ((s.workers w).goto (.writing (i + 1) x false))) m' := by
  have ht := h.workers w
  have hpc' : (m.workers w).pc = .writing i (present x) true := by rw [ht.pc, hpc, liftPc]
  obtain ⟨hnewer, hfree⟩ := h.writing hv hpc hwe
  have hdirty : Dirty s w we.value_ := ⟨i, x, we, hpc, hwe, rfl⟩
  have hs : step m (.work w .tick) = some ((m.setTid we.value_ (present x)).setWorker w
      ((m.workers w).goto (.writing (i + 1) (present x) false))) := by
    simp [step, work, tick, hpc', stepWriting, ht.write_at hwe, liftWrite]
  refine ⟨_, step_of (admitted_tick (by simp [hpc']) (by simp [hpc'])) hs,
    h.store hv (fun u hu => setWorker_other _ _ hu) rfl rfl rfl (fun u hu => ?_) ?_ hnewer.le
      (fun _ => Or.inr hnewer) hfree (fun u hu hd => ?_) (by simp) ⟨fun _ => ?_, fun hex hst => ?_⟩ hlocks ?_
      trivial⟩
  · simp [State.setTid, hu]
  · rw [setWorker_tidword, setTid_tidword_self]
  · obtain ⟨i', x', we', hpc₂, hwe₂, rfl⟩ := hd
    rw [hpc] at hpc₂
    obtain ⟨rfl, -, -⟩ := Pc.writing.inj hpc₂
    rw [hwe] at hwe₂
    exact hu (congrArg _ (Option.some.inj hwe₂).symm)
  · rw [setWorker_body, setWorker_body]
    calc ((m.setTid we.value_ (present x)).mem we.value_).body_ = m.body we.value_ := setTid_body m _ _ _
      _ = some (s.body we.value_) := (h.body _).stored (Or.inr ⟨w, hdirty⟩)
      _ = some ((s.setTid we.value_ x).mem we.value_).body_ := congrArg some (setTid_body s _ _ _).symm
  · refine absurd (Or.inl ?_) hst
    rw [setWorker_tidword, setTid_tidword_self]
    exact htold hex
  · rw [setWorker_self]
    exact { ht with
      pc := rfl
      checked := fun j _ => ht.checked j (by rw [hpc]; trivial)
      at_pc := trivial }

/-- The delete is one store; the following worker stores `none` first. -/
theorem follow_delete (hv : Versions m) (h : Follows E s m) {i : Nat} {x : TIDword}
    {we : WriteElement K β} (hpc : (s.workers w).pc = .writing i x false)
    (hwe : (s.workers w).write_set_[i]? = some we) (hop : we.op_ = .DELETE)
    (hlocks : ∃ H, Inv ((s.setTid we.value_ { x with absent := true }).setWorker w
      ((s.workers w).goto (.writing (i + 1) { x with absent := true } false))) H) :
    ∃ m', Steps m m' ∧ Follows E ((s.setTid we.value_ { x with absent := true }).setWorker w
      ((s.workers w).goto (.writing (i + 1) { x with absent := true } false))) m' := by
  have ht := h.workers w
  have hpc' : (m.workers w).pc = .writing i (present x) false := by rw [ht.pc, hpc, liftPc]
  obtain ⟨hnewer, hfree⟩ := h.writing hv hpc hwe
  have hbody : step m (.work w .tick) = some ((m.setBody we.value_ none).setWorker w
      ((m.workers w).goto (.writing i (present x) true))) := by
    simp [step, work, tick, hpc', stepWriting, ht.write_at hwe, liftWrite, hop]
  have hr₁ := step_of (admitted_tick (by simp [hpc']) (by simp [hpc'])) hbody
  have hword : step ((m.setBody we.value_ none).setWorker w ((m.workers w).goto (.writing i (present x) true)))
      (.work w .tick) = some ((((m.setBody we.value_ none).setWorker w
        ((m.workers w).goto (.writing i (present x) true))).setTid we.value_ (present x)).setWorker w
          ((m.workers w).goto (.writing (i + 1) (present x) false))) := by
    simp [step, work, tick, stepWriting, ht.write_at hwe, liftWrite, goto_twice]
  refine ⟨_, hr₁.next (admitted_tick (by simp) (by simp)) hword,
    h.store hv (fun u hu => ?_) rfl rfl rfl (fun u hu => ?_) ?_ hnewer.le (fun _ => Or.inr hnewer) hfree
      (fun u _ => not_dirty_of_pc (by simp [hpc]) u) (by simp) ⟨fun hst => ?_, fun _ _ => ?_⟩ hlocks ?_ trivial⟩
  · rw [setWorker_other _ _ hu, setTid_workers, setWorker_other _ _ hu, setBody_workers]
  · simp [State.setTid, State.setBody, hu]
  · rw [setWorker_tidword, setTid_tidword_self]
    rfl
  · -- the record is absent, and no other worker has stored a body for it
    exfalso
    rcases hst with habsent | ⟨u, hdirty⟩
    · rw [setWorker_tidword, setTid_tidword_self] at habsent
      cases habsent
    · by_cases hu : u = w
      · subst hu
        exact not_dirty_of_pc (by simp) _ hdirty
      · exact hfree u hu ((dirty_other (fun u hu => setWorker_other _ _ hu) hu _).mp hdirty).holds
  · rw [setWorker_body]
    exact (setTid_body _ _ _ _).trans (setBody_body_self m _ _)
  · rw [setWorker_self]
    exact { ht with
      pc := rfl
      checked := fun j _ => ht.checked j (by rw [hpc]; trivial)
      at_pc := trivial }

end

section
omit [Inhabited β]

theorem follow_writing (hv : Versions m) (h : Follows E s m)
    (htold : E → storesAbsent s (.work w .tick) = false) {i : Nat} {x : TIDword} {b : Bool}
    (hpc : (s.workers w).pc = .writing i x b) (hs : stepWriting s w (s.workers w) i x b = some s')
    (hlocks : ∃ H, Inv s' H) : ∃ m', Steps m m' ∧ Follows E s' m' := by
  cases writings_of_stepWriting hs with
  | finish hend => exact follow_finish hv h hpc hend hlocks
  | body hwe hop => exact follow_storeBody hv h hpc hwe hop hlocks
  | write hwe => exact follow_storeTid hv h hpc hwe (fun hex => by simpa [storesAbsent, hpc] using htold hex) hlocks
  | insert hwe hop => exact absurd hop ((h.workers w).not_insert hwe)
  | delete hwe hop =>
    cases b with
    | false => exact follow_delete hv h hpc hwe hop hlocks
    | true =>
      have hwrite := (h.workers w).at_pc
      simp only [PcAs, hpc] at hwrite
      rw [hwrite _ hwe] at hop
      cases hop

theorem follow_tick (hv : Versions m) (h : Follows E s m) (hok : AdmittedDeletes s (.work w .tick))
    (htold : E → storesAbsent s (.work w .tick) = false) (hs : tick s w (s.workers w) = some s')
    (hlocks : ∃ H, Inv s' H) : ∃ m', Steps m m' ∧ Follows E s' m' := by
  have ht := h.workers w
  cases ticks_of_tick hs with
  | readSpin hpc => exact follow_readSpin hv h hpc hlocks
  | readBody hpc => exact follow_readBody hv h hpc rfl hlocks
  | locking hpc => exact follow_locking hv h hok hpc hlocks
  | unlockPrefix hpc =>
    obtain ⟨H, ⟨⟨κ, _, hl⟩, _⟩⟩ := h.locks
    exact absurd hpc (hl.through w _ _ _)
  | loadEpoch hpc =>
    have hpc' : (m.workers w).pc = .loadEpoch := by rw [ht.pc, hpc, liftPc]
    have hm : step m (.work w .tick) = some (m.setWorker w ((m.workers w).goto (.storeEpoch s.GlobalEpoch))) := by
      simp [step, work, tick, hpc', h.epoch]
    exact ⟨_, step_of (h.admitted hok) hm, h.setWorker hv (not_dirty_of_pc (by simp [hpc]))
      (by simp) hlocks (ht.goto (fun _ => id) trivial)⟩
  | @storeEpoch g hpc =>
    have hpc' : (m.workers w).pc = .storeEpoch g := by rw [ht.pc, hpc, liftPc]
    have hm : step m (.work w .tick) =
        some (m.setWorker w { m.workers w with localEpoch := g, pc := .validating 0 }) := by
      simp [step, work, tick, hpc']
    exact ⟨_, step_of (h.admitted hok) hm, h.setWorker hv (not_dirty_of_pc (by simp [hpc]))
      (by simp) hlocks { ht with
        pc := rfl
        checked := fun j hc => absurd hc (Nat.not_lt_zero j)
        epoch := rfl
        at_pc := trivial }⟩
  | validating hpc => exact follow_validating hv h hok hpc hlocks
  | unlocking hpc => exact follow_unlocking hv h hok hpc hlocks
  | aborting hpc => exact follow_aborting hv h hok hpc hlocks
  | writing hpc hs => exact follow_writing hv h htold hpc hs hlocks

end

theorem follow_work (hv : Versions m) (h : Follows E s m) {op : Op K β}
    (hok : AdmittedDeletes s (.work w op)) (htold : E → storesAbsent s (.work w op) = false)
    (hs : work s w op = some s') : ∃ m', Steps m m' ∧ Follows E s' m' := by
  have hlocks : ∃ H, Inv s' H := by
    obtain ⟨H, hi⟩ := h.locks
    exact ⟨_, inv_work hi hok.free hs⟩
  cases works_of_work hs with
  | tick hs => exact follow_tick hv h hok htold hs hlocks
  | begin hpc => exact follow_begin hv h hpc hlocks
  | read hpc => exact follow_read hv h hpc _ hlocks
  | insert => exact absurd hok.ops (by simp [insertsNothing])
  | validate hpc hperm => exact follow_validate hv h hpc hperm hlocks
  | @write k b hpc =>
    unfold write at hlocks ⊢
    split
    · exact ⟨m, .start rfl, by rwa [setWorker_same]⟩
    · rename_i hkey
      rw [if_neg hkey] at hlocks
      exact follow_write hv h hpc (Or.inl rfl) (by simpa using hkey) rfl hlocks
  | @delete k hpc =>
    unfold tx_delete at hlocks ⊢
    cases hkey : searchWriteSet (s.workers w).write_set_ k with
    | none =>
      simp only [hkey] at hlocks ⊢
      exact follow_write hv h hpc (Or.inr rfl) (by rw [hkey]; rfl) rfl hlocks
    | some we =>
      obtain ⟨i, hwe⟩ := List.mem_iff_getElem?.mp (searchWriteSet_some hkey).1
      simp only [if_neg ((h.workers w).not_insert hwe)]
      exact ⟨m, .start rfl, by rwa [setWorker_same]⟩

theorem follow_step (hv : Versions m) (h : Follows E s m) {a : Action W K β} (hok : AdmittedDeletes s a)
    (htold : E → storesAbsent s a = false) (hs : step s a = some s') :
    ∃ m', Steps m m' ∧ Follows E s' m' := by
  cases a with
  | work w op => exact follow_work hv h hok htold hs
  | advanceEpoch =>
    obtain rfl := Option.some.inj hs
    have hm : step m .advanceEpoch = some { m with GlobalEpoch := m.GlobalEpoch + 1 } := rfl
    obtain ⟨H, ⟨⟨κ, hw, hl⟩, hu⟩⟩ := h.locks
    refine ⟨_, step_of (by exact ⟨rfl, rfl, rfl⟩) hm, ⟨h.tree, congrArg (· + 1) h.epoch, h.tidword,
      fun v => ⟨(h.body v).stored, (h.body v).gone⟩, h.committed, fun u => ?_, H,
      ⟨κ, ⟨hw.tree, hw.tx, hw.above⟩, ⟨hl.bit, hl.owner, hl.only, hl.freed, hl.through⟩⟩, hu⟩⟩
    exact { h.workers u with
      reads := (h.workers u).reads.imp fun re re' hre => ⟨hre.element, hre.seen, hre.op⟩
      at_pc := (h.workers u).at_pc }

omit [DecidableEq W] [DecidableEq K] [DecidableEq β] [Inhabited β] in
/-- The following run starts in the lift of the first state. -/
theorem lifted_init (h : Init s) : Init (lifted s) where
  workers _ := rfl
  committed := rfl
  freed := rfl
  unlocked := h.unlocked
  below k v hk := by
    obtain ⟨k, rfl, hk⟩ := Option.bind_eq_some_iff.mp hk
    exact h.below k v hk
  inj k k' v hk hk' := by
    obtain ⟨k, rfl, hk⟩ := Option.bind_eq_some_iff.mp hk
    obtain ⟨k', rfl, hk'⟩ := Option.bind_eq_some_iff.mp hk'
    exact congrArg some (h.inj k k' v hk hk')

omit [DecidableEq W] [DecidableEq β] [Inhabited β] in
theorem follows_init (h : Init s) : Follows E s (lifted s) where
  tree := rfl
  epoch := rfl
  tidword _ := rfl
  body v := by
    have hclean : Clean s v := fun w => not_dirty_of_pc (by simp [h.workers w, TxExecutor.new]) v
    constructor
    · intro hst
      have habsent : (s.tidword v).absent = false := by
        rcases hst with habsent | ⟨w, hdirty⟩
        · exact habsent
        · exact absurd hdirty (hclean w)
      simp [lifted, State.body, habsent]
    · intro _ hst
      have habsent : (s.tidword v).absent = true := by simpa using fun ha => hst (Or.inl ha)
      simp [lifted, State.body, habsent]
  committed := by simp [lifted, h.committed]
  workers w := by
    rw [h.workers w]
    exact ⟨rfl, rfl, by simp [TxExecutor.new], .nil, fun _ hc => hc.elim, ⟨rfl, rfl⟩, ⟨rfl, rfl⟩, rfl, rfl,
      trivial⟩
  locks := ⟨_, owned_init h⟩

end

end

section
variable [Inhabited β] {E : Prop} {s₀ s : State W K β} {m : State W (Option K) (Option β)}

/-- Every run of reads, writes and deletes is followed by a run of reads and writes. -/
theorem follows_reach (h₀ : Init s₀) {ok : State W K β → Action W K β → Prop}
    (hok : ∀ s a, ok s a → AdmittedDeletes s a ∧ (E → storesAbsent s a = false))
    (h : Reach step (Eq s₀) ok s) : ∃ m, Steps (lifted s₀) m ∧ Follows E s m := by
  refine Reach.invariant (I := fun s => ∃ m, Steps (lifted s₀) m ∧ Follows E s m) ?_ ?_ h
  · rintro _ rfl
    exact ⟨lifted s₀, .start rfl, follows_init h₀⟩
  · intro y a y' hy ha hs
    obtain ⟨m, hm, hf⟩ := hy
    have hr := hm.runInv (lifted_init h₀)
    obtain ⟨m', hsteps, hf'⟩ := follow_step hr.versions hf (hok y a ha).1 (hok y a ha).2 hs
    exact ⟨m', hm.trans hsteps, hf'⟩

end

end Cassa.SiloCC.Occ

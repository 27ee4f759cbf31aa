import Cassa.SiloCC.LockOwnership

/-!
# Versions along a run of reads and writes

With every lock in the hands of one worker, the version of a record only grows: a
worker in `writePhase` stores a TID that is newer than the words it locked. The
invariant below says, for each control state, what the worker may rely on: how the
words it loaded relate to the words in memory, and what a read-set element says of
the body.
-/

namespace Cassa.SiloCC.Occ

open Cassa.Lib.Runs

variable {W K β : Type} [DecidableEq W] [DecidableEq K] [DecidableEq β]

/-- Requests made of `READ` and `WRITE` alone. -/
def readsAndWrites : Action W K β → Bool
  | .work _ (.insert _ _) => false
  | .work _ (.delete _) => false
  | _ => true

/-- The next step chooses a commit TID by incrementing the last TID of the 29 bits. -/
def tidOverflow (s : State W K β) : Action W K β → Bool
  | .work w .tick =>
    match (s.workers w).pc with
    | .validating i =>
      (s.workers w).read_set_[i]?.isNone &&
        (TIDword.max (s.workers w).max_rset_ (s.workers w).max_wset_).TID.toNat == 2 ^ 29 - 1
    | _ => false
  | _ => false

/-- The worker has stored the new body of `v` and not yet its TID word. -/
def Dirty (s : State W K β) (w : W) (v : ValuePtr) : Prop :=
  ∃ i m we, (s.workers w).pc = .writing i m true ∧ (s.workers w).write_set_[i]? = some we ∧
    we.value_ = v

def Clean (s : State W K β) (v : ValuePtr) : Prop := ∀ w, ¬ Dirty s w v

def State.ver (s : State W K β) (v : ValuePtr) : Nat := (s.tidword v).ver

def State.body (s : State W K β) (v : ValuePtr) : β := (s.mem v).body_

section
omit [DecidableEq K] [DecidableEq β]

@[simp] theorem setWorker_ver (s : State W K β) (w : W) (t : TxExecutor K β) (v : ValuePtr) :
    (s.setWorker w t).ver v = s.ver v := rfl

@[simp] theorem setWorker_body (s : State W K β) (w : W) (t : TxExecutor K β) (v : ValuePtr) :
    (s.setWorker w t).body v = s.body v := rfl

end

/-- What the read and write sets of a worker say about memory. -/
structure SetsOk (s : State W K β) (t : TxExecutor K β) : Prop where
  tree_r : ∀ re ∈ t.read_set_, s.tree re.key_ = some re.value_
  tree_w : ∀ we ∈ t.write_set_, s.tree we.key_ = some we.value_
  ops : ∀ we ∈ t.write_set_, we.op_ = .WRITE
  le : ∀ re ∈ t.read_set_, re.tidword_.ver ≤ s.ver re.value_
  /-- while the version is still the one read, the body is still the one seen -/
  seen : ∀ re ∈ t.read_set_, re.tidword_.ver = s.ver re.value_ → Clean s re.value_ →
    re.seen = some (s.body re.value_)

/-- The first `n` elements of the write set are not newer than `max_wset_`. -/
def Covered (s : State W K β) (t : TxExecutor K β) (n : Nat) : Prop :=
  ∀ j we, j < n → t.write_set_[j]? = some we → s.ver we.value_ ≤ t.max_wset_.ver

/-- What a control state says about memory. -/
def PcOk (s : State W K β) (t : TxExecutor K β) : Prop :=
  match t.pc with
  | .readSpin k v _ => s.tree k = some v
  | .readBody k v e => s.tree k = some v ∧ e.ver ≤ s.ver v
  | .locking i _ => Covered s t i
  | .loadEpoch => Covered s t t.write_set_.length
  | .storeEpoch _ => Covered s t t.write_set_.length
  | .validating i => Covered s t t.write_set_.length ∧
      ∀ j re, j < i → t.read_set_[j]? = some re → re.tidword_.ver ≤ t.max_rset_.ver
  | .unlocking i (some x) => ∀ we, t.write_set_[i]? = some we → s.tidword we.value_ = x
  | .writing i m b => m = t.mrctid_ ∧
      (∀ j we, i ≤ j → t.write_set_[j]? = some we → s.ver we.value_ < m.ver) ∧
      (∀ re ∈ t.read_set_, re.tidword_.ver < m.ver) ∧
      (b = true → ∀ we, t.write_set_[i]? = some we → s.body we.value_ = we.new_value_body_)
  | _ => True

structure TxOk (s : State W K β) (t : TxExecutor K β) : Prop where
  sets : SetsOk s t
  pc : PcOk s t

def Versions (s : State W K β) : Prop := ∀ w, TxOk s (s.workers w)

/-- How a step of `w` may change what the others rely on. -/
structure Frame (s s' : State W K β) (w : W) : Prop where
  tree : s'.tree = s.tree
  others : ∀ u, u ≠ w → s'.workers u = s.workers u
  mono : ∀ v, s.ver v ≤ s'.ver v
  clean : ∀ v, s'.ver v = s.ver v → Clean s' v → Clean s v ∧ s'.body v = s.body v
  held : ∀ u, u ≠ w → ∀ v, Holds (s.workers u) v → s'.mem v = s.mem v

section
omit [DecidableEq W] [DecidableEq K] [DecidableEq β]

theorem SetsOk.frame {s s' : State W K β} {t : TxExecutor K β} {w : W} (h : SetsOk s t)
    (hf : Frame s s' w) : SetsOk s' t where
  tree_r re hre := by rw [hf.tree]; exact h.tree_r re hre
  tree_w we hwe := by rw [hf.tree]; exact h.tree_w we hwe
  ops := h.ops
  le re hre := (h.le re hre).trans (hf.mono _)
  seen := by
    intro re hre hver hclean
    have hsame : s'.ver re.value_ = s.ver re.value_ := by
      have h1 := h.le re hre
      have h2 := hf.mono re.value_
      omega
    obtain ⟨hc, hb⟩ := hf.clean _ hsame hclean
    rw [hb]
    exact h.seen re hre (hver.trans hsame) hc

theorem PcOk.frame {s s' : State W K β} {t : TxExecutor K β} (hops : ∀ we ∈ t.write_set_, we.op_ = .WRITE)
    (h : PcOk s t) (htree : s'.tree = s.tree) (hmono : ∀ v, s.ver v ≤ s'.ver v)
    (hheld : ∀ v, Holds t v → s'.mem v = s.mem v) : PcOk s' t := by
  have hat : ∀ j we, t.write_set_[j]? = some we → heldAt t.pc .WRITE j →
      s'.mem we.value_ = s.mem we.value_ := by
    intro j we hj hh
    refine hheld _ ⟨j, we, hj, rfl, ?_⟩
    rw [hops we (List.mem_of_getElem? hj)]
    exact hh
  have hcov : ∀ n, (∀ j, j < n → j < t.write_set_.length → heldAt t.pc .WRITE j) → Covered s t n →
      Covered s' t n := by
    intro n hn hc j we hlt hj
    have hlen : j < t.write_set_.length := (List.getElem?_eq_some_iff.mp hj).1
    rw [State.ver, State.tidword, hat j we hj (hn j hlt hlen)]
    exact hc j we hlt hj
  unfold PcOk at h ⊢
  split at h
  · rw [htree]; exact h
  · rw [htree]; exact ⟨h.1, h.2.trans (hmono _)⟩
  · rename_i i e hpc
    exact hcov i (fun j hj _ => by rw [hpc]; exact Or.inr hj) h
  · rename_i hpc
    exact hcov _ (fun j _ _ => by rw [hpc]; trivial) h
  · rename_i g hpc
    exact hcov _ (fun j _ _ => by rw [hpc]; trivial) h
  · rename_i i hpc
    exact ⟨hcov _ (fun j _ _ => by rw [hpc]; trivial) h.1, h.2⟩
  · rename_i i x hpc
    intro we hwe
    rw [State.tidword, hat i we hwe (by rw [hpc]; exact Or.inr (Nat.le_refl i))]
    exact h we hwe
  · rename_i i m b hpc
    refine ⟨h.1, ?_, h.2.2.1, ?_⟩
    · intro j we hij hj
      rw [State.ver, State.tidword, hat j we hj (by rw [hpc]; exact hij)]
      exact h.2.1 j we hij hj
    · intro hb we hwe
      rw [State.body, hat i we hwe (by rw [hpc]; exact Nat.le_refl i)]
      exact h.2.2.2 hb we hwe
  · trivial

end

omit [DecidableEq K] [DecidableEq β] in
/-- A step keeps the invariant if it respects the others and its own worker comes
out right. -/
theorem Versions.step {s s' : State W K β} {w : W} (h : Versions s) (hf : Frame s s' w)
    (hself : TxOk s' (s'.workers w)) : Versions s' := by
  intro u
  by_cases hu : u = w
  · subst hu; exact hself
  · rw [hf.others u hu]
    exact ⟨(h u).sets.frame hf, (h u).pc.frame (h u).sets.ops hf.tree hf.mono (hf.held u hu)⟩

omit [DecidableEq W] [DecidableEq K] [DecidableEq β] in
theorem not_dirty_of_pc {s : State W K β} {w : W} (h : ∀ i m, (s.workers w).pc ≠ .writing i m true)
    (v : ValuePtr) : ¬ Dirty s w v := by
  rintro ⟨i, m, we, hpc, _⟩
  exact h i m hpc

section
omit [DecidableEq K] [DecidableEq β]

theorem clean_of_others {s s' : State W K β} {w : W} {v : ValuePtr}
    (hother : ∀ u, u ≠ w → s'.workers u = s.workers u) (hself : ¬ Dirty s w v) (hc : Clean s' v) :
    Clean s v := by
  intro u
  by_cases hu : u = w
  · subst hu; exact hself
  · have := hc u
    unfold Dirty at this ⊢
    rw [hother u hu] at this
    exact this

/-- Words may change as long as the versions stay; the worker stores no body. -/
theorem frame_of_same {s s' : State W K β} {w : W} (htree : s'.tree = s.tree)
    (hother : ∀ u, u ≠ w → s'.workers u = s.workers u) (hver : ∀ v, s'.ver v = s.ver v)
    (hbody : ∀ v, s'.body v = s.body v) (hpc : ∀ i m, (s.workers w).pc ≠ .writing i m true)
    (hheld : ∀ u, u ≠ w → ∀ v, Holds (s.workers u) v → s'.mem v = s.mem v) :
    Frame s s' w where
  tree := htree
  others := hother
  mono v := (hver v).ge
  clean v _ hc := ⟨clean_of_others hother (not_dirty_of_pc hpc v) hc, hbody v⟩
  held := hheld

theorem frame_setWorker {s : State W K β} {w : W} (t' : TxExecutor K β)
    (hpc : ∀ i m, (s.workers w).pc ≠ .writing i m true) : Frame s (s.setWorker w t') w :=
  frame_of_same rfl (fun _ hu => setWorker_other _ _ hu) (fun _ => rfl) (fun _ => rfl) hpc
    (fun _ _ _ _ => rfl)

end

section
variable {s s' : State W K β} {w : W}

section
omit [DecidableEq W] [DecidableEq K] [DecidableEq β]

/-- A record is locked by at most one worker. -/
theorem Inv.exclusive {H : ValuePtr → Option W} (h : Inv s H) {u v : W} {p : ValuePtr}
    (hu : Holds (s.workers u) p) (hv : Holds (s.workers v) p) : u = v := by
  obtain ⟨⟨κ, _, hl⟩, _⟩ := h
  exact Option.some.inj ((hl.owner u p hu).symm.trans (hl.owner v p hv))

theorem Inv.locked {H : ValuePtr → Option W} (h : Inv s H) {u : W} {p : ValuePtr}
    (hu : Holds (s.workers u) p) : (s.tidword p).lock = true := by
  obtain ⟨⟨κ, _, hl⟩, _⟩ := h
  rw [hl.bit, hl.owner u p hu]
  rfl

theorem Inv.index_unique {H : ValuePtr → Option W} (h : Inv s H) {i j : Nat} {a b : WriteElement K β}
    (ha : (s.workers w).write_set_[i]? = some a) (hb : (s.workers w).write_set_[j]? = some b)
    (hv : a.value_ = b.value_) : i = j := by
  obtain ⟨⟨κ, hw, _⟩, _⟩ := h
  exact (hw.tx w).index_unique ha hb hv

theorem setTid_ver_self (s : State W K β) (v : ValuePtr) (x : TIDword) :
    (s.setTid v x).ver v = x.ver := by
  rw [State.ver, setTid_tidword_self]

theorem setTid_ver_other (s : State W K β) {v u : ValuePtr} (x : TIDword) (h : u ≠ v) :
    (s.setTid v x).ver u = s.ver u := by
  rw [State.ver, setTid_tidword_other s x h]
  rfl

theorem setTid_ver_same (s : State W K β) {v : ValuePtr} {x : TIDword} (h : x.ver = s.ver v)
    (u : ValuePtr) : (s.setTid v x).ver u = s.ver u := by
  by_cases hu : u = v
  · subst hu; rw [setTid_ver_self, h]
  · exact setTid_ver_other s x hu

theorem setBody_ver (s : State W K β) (v u : ValuePtr) (b : β) : (s.setBody v b).ver u = s.ver u := by
  rw [State.ver, setBody_tidword]
  rfl

end

section
omit [DecidableEq K] [DecidableEq β]

/-- A store to the lock bit of a record that no other worker holds. -/
theorem frame_lockBit {v : ValuePtr} {x : TIDword} (t' : TxExecutor K β) (hx : x.ver = s.ver v)
    (hpc : ∀ i m, (s.workers w).pc ≠ .writing i m true)
    (hfree : ∀ u, u ≠ w → ¬ Holds (s.workers u) v) :
    Frame s ((s.setTid v x).setWorker w t') w := by
  refine frame_of_same rfl (fun _ hu => setWorker_other _ _ hu) ?_ ?_ hpc ?_
  · intro u
    rw [setWorker_ver, setTid_ver_same s hx]
  · intro u
    rw [setWorker_body]
    exact setTid_body s v u x
  · intro u hu p hp
    have hne : p ≠ v := by
      rintro rfl
      exact hfree u hu hp
    simp [State.setTid, hne]

/-- The step only replaces the worker's own state. -/
theorem versions_setWorker (h : Versions s) {t' : TxExecutor K β}
    (hpc : ∀ i m, (s.workers w).pc ≠ .writing i m true) (hsets : SetsOk s t') (hpc' : PcOk s t') :
    Versions (s.setWorker w t') := by
  have hf := frame_setWorker t' hpc
  refine h.step hf ?_
  rw [setWorker_self]
  exact ⟨hsets.frame hf, hpc'⟩

end

section
omit [DecidableEq W] [DecidableEq K] [DecidableEq β]

theorem SetsOk.of_sets {t t' : TxExecutor K β} (h : SetsOk s t) (hr : t'.read_set_ = t.read_set_)
    (hw : t'.write_set_ = t.write_set_) : SetsOk s t' where
  tree_r := hr ▸ h.tree_r
  tree_w := hw ▸ h.tree_w
  ops := hw ▸ h.ops
  le := hr ▸ h.le
  seen := hr ▸ h.seen

theorem setsOk_empty {t : TxExecutor K β} (hr : t.read_set_ = []) (hw : t.write_set_ = []) :
    SetsOk s t := by
  constructor <;> simp [hr, hw]

end

section
omit [DecidableEq K] [DecidableEq β]

theorem versions_goto (h : Versions s) {pc' : Pc K} (hpc : ∀ i m, (s.workers w).pc ≠ .writing i m true)
    (hpc' : PcOk s ((s.workers w).goto pc')) : Versions (s.setWorker w ((s.workers w).goto pc')) :=
  versions_setWorker h hpc ((h w).sets.of_sets rfl rfl) hpc'

/-- The step stores a word of the same version to a record that no other worker holds. -/
theorem versions_lockBit (h : Versions s) {v : ValuePtr} {x : TIDword} {t' : TxExecutor K β}
    (hx : x.ver = s.ver v) (hpc : ∀ i m, (s.workers w).pc ≠ .writing i m true)
    (hfree : ∀ u, u ≠ w → ¬ Holds (s.workers u) v) (hr : t'.read_set_ = (s.workers w).read_set_)
    (hws : t'.write_set_ = (s.workers w).write_set_) (hpc' : PcOk (s.setTid v x) t') :
    Versions ((s.setTid v x).setWorker w t') := by
  have hf := frame_lockBit t' hx hpc hfree
  refine h.step hf ?_
  rw [setWorker_self]
  exact ⟨((h w).sets.of_sets hr hws).frame hf, hpc'⟩

end

omit [DecidableEq W] [DecidableEq K] [DecidableEq β] in
theorem Versions.setCommitted (h : Versions s) (c : List (Committed W K β)) :
    Versions { s with committed := c } := fun u =>
  ⟨⟨(h u).sets.tree_r, (h u).sets.tree_w, (h u).sets.ops, (h u).sets.le, (h u).sets.seen⟩, (h u).pc⟩

omit [DecidableEq K] [DecidableEq β] in
theorem versions_refuse (h : Versions s) (hpc : ∀ i m, (s.workers w).pc ≠ .writing i m true) :
    Versions (s.setWorker w (s.workers w).refuse) :=
  versions_goto h hpc trivial

omit [DecidableEq β] in
theorem versions_read (h : Versions s) (hpc : (s.workers w).pc = .running) (k : K) :
    Versions (s.setWorker w (read s (s.workers w) k)) := by
  have hnw : ∀ i m, (s.workers w).pc ≠ .writing i m true := by simp [hpc]
  have hsame : Versions (s.setWorker w (s.workers w)) :=
    versions_setWorker h hnw (h w).sets (h w).pc
  unfold read
  split
  · exact hsame
  split
  · exact hsame
  split
  · exact versions_refuse h hnw
  · rename_i v hv
    exact versions_goto h hnw hv

omit [DecidableEq W] [DecidableEq β] in
/-- The record an operation finds is the one of the tree. -/
theorem SetsOk.found {t : TxExecutor K β} (h : SetsOk s t) {k : K} {v : ValuePtr}
    (hv : findValue s t k = some v) : s.tree k = some v := by
  unfold findValue at hv
  split at hv
  · rename_i re hre
    have hkey : re.key_ = k := by simpa using List.find?_some hre
    obtain rfl := Option.some.inj hv
    rw [← hkey]
    exact h.tree_r re (List.mem_of_find?_eq_some hre)
  · exact hv

omit [DecidableEq β] in
theorem versions_write (h : Versions s) (hpc : (s.workers w).pc = .running) (k : K) (b : β) :
    Versions (s.setWorker w (write s (s.workers w) k b)) := by
  have hnw : ∀ i m, (s.workers w).pc ≠ .writing i m true := by simp [hpc]
  unfold write
  split
  · exact versions_setWorker h hnw (h w).sets (h w).pc
  split
  · exact versions_refuse h hnw
  · rename_i v hv
    have hs := (h w).sets
    refine versions_setWorker h hnw ⟨hs.tree_r, ?_, ?_, hs.le, hs.seen⟩ (by simp [PcOk, hpc])
    · intro we hwe
      rcases List.mem_append.mp hwe with hwe | hwe
      · exact hs.tree_w we hwe
      · rw [List.mem_singleton.mp hwe]; exact hs.found hv
    · intro we hwe
      rcases List.mem_append.mp hwe with hwe | hwe
      · exact hs.ops we hwe
      · rw [List.mem_singleton.mp hwe]

section
omit [DecidableEq K] [DecidableEq β]

theorem versions_validate (h : Versions s) (hpc : (s.workers w).pc = .running)
    {order : List (WriteElement K β)} (hperm : order.Perm (s.workers w).write_set_) :
    Versions (s.setWorker w { s.workers w with write_set_ := order, pc := .locking 0 none }) := by
  have hs := (h w).sets
  refine versions_setWorker h (by simp [hpc]) ⟨hs.tree_r, ?_, ?_, hs.le, hs.seen⟩ ?_
  · intro we hwe
    exact hs.tree_w we (hperm.mem_iff.mp hwe)
  · intro we hwe
    exact hs.ops we (hperm.mem_iff.mp hwe)
  · intro j we hj
    omega

theorem versions_readSpin (h : Versions s) {k : K} {v : ValuePtr} {e : TIDword}
    (hpc : (s.workers w).pc = .readSpin k v e) :
    Versions (s.setWorker w (stepReadSpin s (s.workers w) k v e)) := by
  have hnw : ∀ i m, (s.workers w).pc ≠ .writing i m true := by simp [hpc]
  have htree : s.tree k = some v := by
    have := (h w).pc
    simpa only [PcOk, hpc] using this
  unfold stepReadSpin
  split
  · exact versions_goto h hnw htree
  split
  · exact versions_refuse h hnw
  split
  · rename_i heq
    refine versions_goto h hnw ⟨htree, ?_⟩
    rw [State.ver, ← heq]
  · exact versions_goto h hnw htree

theorem versions_readBody (h : Versions s) {k : K} {v : ValuePtr} {e : TIDword}
    (hpc : (s.workers w).pc = .readBody k v e) :
    Versions (s.setWorker w { s.workers w with
      pc := .running
      read_set_ := (s.workers w).read_set_ ++ [⟨⟨k, v, e, .READ⟩, some (s.mem v).body_⟩] }) := by
  have hs := (h w).sets
  have hbody : s.tree k = some v ∧ e.ver ≤ s.ver v := by
    have := (h w).pc
    simpa only [PcOk, hpc] using this
  refine versions_setWorker h (by simp [hpc]) ⟨?_, hs.tree_w, hs.ops, ?_, ?_⟩ trivial
  · intro re hre
    rcases List.mem_append.mp hre with hre | hre
    · exact hs.tree_r re hre
    · rw [List.mem_singleton.mp hre]; exact hbody.1
  · intro re hre
    rcases List.mem_append.mp hre with hre | hre
    · exact hs.le re hre
    · rw [List.mem_singleton.mp hre]; exact hbody.2
  · intro re hre hver hclean
    rcases List.mem_append.mp hre with hre | hre
    · exact hs.seen re hre hver hclean
    · rw [List.mem_singleton.mp hre]; rfl

end

omit [DecidableEq W] [DecidableEq K] [DecidableEq β] in
theorem not_insert_of_ops (h : Versions s) {i : Nat} {we : WriteElement K β}
    (hwe : (s.workers w).write_set_[i]? = some we) : we.op_ = .WRITE :=
  (h w).sets.ops we (List.mem_of_getElem? hwe)

omit [DecidableEq K] [DecidableEq β] in
theorem versions_locking {H : ValuePtr → Option W} (hi : Inv s H) (h : Versions s) {i : Nat}
    {e : Option TIDword} (hpc : (s.workers w).pc = .locking i e)
    (hfree : ∀ x, e = some x → x.lock = false) : Versions (stepLocking s w (s.workers w) i e) := by
  have hnw : ∀ i m, (s.workers w).pc ≠ .writing i m true := by simp [hpc]
  have hcov : Covered s (s.workers w) i := by
    have := (h w).pc
    simpa only [PcOk, hpc] using this
  generalize hs : stepLocking s w (s.workers w) i e = s'
  cases lockings_of_stepLocking hs with
  | done hnone =>
    have hlen := List.getElem?_eq_none_iff.mp hnone
    refine versions_goto h hnw ?_
    intro j we hj hwe
    exact hcov j we (hj.trans_le hlen) hwe
  | insert hwe hop =>
    rw [not_insert_of_ops h hwe] at hop
    cases hop
  | load | reload => exact versions_goto h hnw hcov
  | @conflict we x hwe hop hl =>
    rw [hfree x rfl] at hl
    cases hl
  | @lock we x hwe hop hl hcas =>
    have hver : x.ver = s.ver we.value_ := by rw [State.ver, hcas]
    have hunheld : ∀ u, u ≠ w → ¬ Holds (s.workers u) we.value_ := by
      intro u _ hu
      have hlock := hi.locked hu
      rw [hcas, hl] at hlock
      cases hlock
    refine versions_lockBit h hver hnw hunheld rfl rfl ?_
    intro j y hj hy
    have hsame := setTid_ver_same s (x := { x with lock := true }) hver y.value_
    rw [hsame, TIDword.ver_max]
    by_cases hji : j = i
    · subst hji
      rw [hwe] at hy
      obtain rfl := Option.some.inj hy
      omega
    · have := hcov j y (by omega) hy
      omega

omit [DecidableEq β] in
theorem versions_validating (h : Versions s) {i : Nat} (hpc : (s.workers w).pc = .validating i)
    (hover : tidOverflow s (.work w .tick) = false) :
    Versions (stepValidating s w (s.workers w) i) := by
  have hnw : ∀ i m, (s.workers w).pc ≠ .writing i m true := by simp [hpc]
  obtain ⟨hcov, hread⟩ : Covered s (s.workers w) (s.workers w).write_set_.length ∧
      ∀ j re, j < i → (s.workers w).read_set_[j]? = some re →
        re.tidword_.ver ≤ (s.workers w).max_rset_.ver := by
    have := (h w).pc
    simpa only [PcOk, hpc] using this
  unfold stepValidating
  split
  · rename_i hnone
    have hlen := List.getElem?_eq_none_iff.mp hnone
    have htid : (TIDword.max (s.workers w).max_rset_ (s.workers w).max_wset_).TID.toNat ≠
        2 ^ 29 - 1 := by
      simpa [tidOverflow, hpc, hnone] using hover
    have hlt := ver_lt_commitTid (s.workers w).mrctid_ (s.workers w).localEpoch htid
    have hsets : SetsOk s (s.workers w).enterWritePhase := (h w).sets.of_sets rfl rfl
    refine (versions_setWorker h hnw hsets ?_).setCommitted _
    refine ⟨rfl, ?_, ?_, by simp⟩
    · intro j we _ hj
      exact (hcov j we (List.getElem?_eq_some_iff.mp hj).1 hj).trans_lt hlt.2
    · intro re hre
      obtain ⟨j, hj⟩ := List.mem_iff_getElem?.mp hre
      have hjlen : j < (s.workers w).read_set_.length := (List.getElem?_eq_some_iff.mp hj).1
      exact (hread j re (by omega) hj).trans_lt hlt.1
  rename_i re hre
  dsimp only
  split
  · exact versions_setWorker h hnw ((h w).sets.of_sets rfl rfl) trivial
  · rename_i hok
    refine versions_setWorker h hnw ((h w).sets.of_sets rfl rfl) ⟨hcov, ?_⟩
    intro j r hj hr
    change r.tidword_.ver ≤ (TIDword.max _ _).ver
    rw [TIDword.ver_max]
    by_cases hji : j = i
    · subst hji
      rw [hre] at hr
      obtain rfl := Option.some.inj hr
      have heq : re.tidword_.ver = (s.tidword re.value_).ver := by
        rw [TIDword.ver_eq_iff]
        simp only [validationFails, not_or, not_not] at hok
        exact ⟨hok.2.1, hok.2.2.1⟩
      omega
    · have := hread j r (by omega) hr
      omega

omit [DecidableEq K] [DecidableEq β] in
theorem versions_unlocking {H : ValuePtr → Option W} (hi : Inv s H) (h : Versions s) {i : Nat}
    {e : Option TIDword} (hpc : (s.workers w).pc = .unlocking i e) :
    Versions (stepUnlock s w (s.workers w) i (s.workers w).write_set_.length e
      (fun j x => .unlocking j x) (.aborting 0)) := by
  have hnw : ∀ i m, (s.workers w).pc ≠ .writing i m true := by simp [hpc]
  generalize hs : stepUnlock s w (s.workers w) i _ e _ _ = s'
  cases unlocks_of_stepUnlock hs with
  | done | insert => exact versions_goto h hnw trivial
  | load _ hwe =>
    refine versions_goto h hnw ?_
    intro y hy
    rw [goto_write_set, hwe] at hy
    obtain rfl := Option.some.inj hy
    rfl
  | @unlock we x _ hwe =>
    have hword : s.tidword we.value_ = x := by
      have := (h w).pc
      simp only [PcOk, hpc] at this
      exact this we hwe
    have hver : x.ver = s.ver we.value_ := by rw [State.ver, hword]
    have hheld : Holds (s.workers w) we.value_ :=
      ⟨i, we, hwe, rfl, by rw [hpc]; exact Or.inr (Nat.le_refl i)⟩
    exact versions_lockBit h hver hnw (fun u hu hu' => hu (hi.exclusive hu' hheld)) rfl rfl trivial

omit [DecidableEq β] in
theorem versions_aborting (h : Versions s) {i : Nat} (hpc : (s.workers w).pc = .aborting i) :
    Versions (stepAborting s w (s.workers w) i) := by
  have hnw : ∀ i m, (s.workers w).pc ≠ .writing i m true := by simp [hpc]
  unfold stepAborting
  split
  · exact versions_setWorker h hnw (setsOk_empty rfl rfl) trivial
  rename_i we hwe
  split
  · rename_i hop
    rw [not_insert_of_ops h hwe] at hop
    cases hop
  · exact versions_goto h hnw trivial

section
omit [DecidableEq K] [DecidableEq β]

/-- The body of the element at hand is stored: the record is dirty from here on. -/
theorem frame_storeBody {H : ValuePtr → Option W} (hi : Inv s H) {i : Nat} {m : TIDword}
    {we : WriteElement K β} (hpc : (s.workers w).pc = .writing i m false)
    (hwe : (s.workers w).write_set_[i]? = some we) :
    Frame s ((s.setBody we.value_ we.new_value_body_).setWorker w
      ((s.workers w).goto (.writing i m true))) w := by
  have hheld : Holds (s.workers w) we.value_ :=
    ⟨i, we, hwe, rfl, by rw [hpc]; exact Nat.le_refl i⟩
  refine ⟨rfl, fun u hu => setWorker_other _ _ hu, ?_, ?_, ?_⟩
  · intro v
    rw [setWorker_ver, setBody_ver]
  · intro v _ hclean
    have hne : v ≠ we.value_ := by
      rintro rfl
      exact hclean w ⟨i, m, we, by simp, by simpa using hwe, rfl⟩
    refine ⟨clean_of_others (fun u hu => setWorker_other _ _ hu)
      (not_dirty_of_pc (by simp [hpc]) v) hclean, ?_⟩
    rw [setWorker_body]
    exact setBody_body_other s _ hne
  · intro u hu v hv
    have hne : v ≠ we.value_ := by
      rintro rfl
      exact hu (hi.exclusive hv hheld)
    simp [State.setBody, hne]

theorem versions_storeBody {H : ValuePtr → Option W} (hi : Inv s H) (h : Versions s) {i : Nat}
    {m : TIDword} {we : WriteElement K β} (hpc : (s.workers w).pc = .writing i m false)
    (hwe : (s.workers w).write_set_[i]? = some we) :
    Versions ((s.setBody we.value_ we.new_value_body_).setWorker w
      ((s.workers w).goto (.writing i m true))) := by
  have hf := frame_storeBody hi hpc hwe
  refine h.step hf ?_
  rw [setWorker_self]
  refine ⟨((h w).sets.frame hf).of_sets rfl rfl, ?_⟩
  have hold : PcOk s (s.workers w) := (h w).pc
  simp only [PcOk, hpc] at hold
  refine ⟨hold.1, ?_, hold.2.2.1, ?_⟩
  · intro j y hij hy
    rw [setWorker_ver, setBody_ver]
    exact hold.2.1 j y hij hy
  · intro _ y hy
    rw [goto_write_set, hwe] at hy
    obtain rfl := Option.some.inj hy
    exact setBody_body_self s _ _

/-- The TID word of the element at hand is stored: the version of the record grows. -/
theorem frame_storeTid {H : ValuePtr → Option W} (hi : Inv s H) {i : Nat} {m : TIDword}
    {we : WriteElement K β} (hpc : (s.workers w).pc = .writing i m true)
    (hwe : (s.workers w).write_set_[i]? = some we) (hgrow : s.ver we.value_ < m.ver) :
    Frame s ((s.setTid we.value_ m).setWorker w
      ((s.workers w).goto (.writing (i + 1) m false))) w := by
  have hheld : Holds (s.workers w) we.value_ :=
    ⟨i, we, hwe, rfl, by rw [hpc]; exact Nat.le_refl i⟩
  refine ⟨rfl, fun u hu => setWorker_other _ _ hu, ?_, ?_, ?_⟩
  · intro v
    rw [setWorker_ver]
    by_cases hv : v = we.value_
    · subst hv
      rw [setTid_ver_self]
      exact hgrow.le
    · rw [setTid_ver_other s m hv]
  · intro v hver hclean
    rw [setWorker_ver] at hver
    have hne : v ≠ we.value_ := by
      rintro rfl
      rw [setTid_ver_self] at hver
      omega
    refine ⟨clean_of_others (fun u hu => setWorker_other _ _ hu) ?_ hclean, ?_⟩
    · rintro ⟨i', m', we', hpc', hwe', rfl⟩
      rw [hpc] at hpc'
      obtain ⟨rfl, -, -⟩ := Pc.writing.inj hpc'
      rw [hwe] at hwe'
      exact hne (congrArg _ (Option.some.inj hwe').symm)
    · rw [setWorker_body]
      exact setTid_body s _ v m
  · intro u hu v hv
    have hne : v ≠ we.value_ := by
      rintro rfl
      exact hu (hi.exclusive hv hheld)
    simp [State.setTid, hne]

end

omit [DecidableEq W] [DecidableEq K] [DecidableEq β] in
/-- What a worker in `writePhase` knows. -/
theorem Versions.writing (h : Versions s) {i : Nat} {m : TIDword} {b : Bool}
    (hpc : (s.workers w).pc = .writing i m b) :
    m = (s.workers w).mrctid_ ∧
      (∀ j we, i ≤ j → (s.workers w).write_set_[j]? = some we → s.ver we.value_ < m.ver) ∧
      (∀ re ∈ (s.workers w).read_set_, re.tidword_.ver < m.ver) ∧
      (b = true → ∀ we, (s.workers w).write_set_[i]? = some we →
        s.body we.value_ = we.new_value_body_) := by
  have hold : PcOk s (s.workers w) := (h w).pc
  simpa only [PcOk, hpc] using hold

section
omit [DecidableEq K] [DecidableEq β]

theorem versions_storeTid {H : ValuePtr → Option W} (hi : Inv s H) (h : Versions s) {i : Nat}
    {m : TIDword} {we : WriteElement K β} (hpc : (s.workers w).pc = .writing i m true)
    (hwe : (s.workers w).write_set_[i]? = some we) :
    Versions ((s.setTid we.value_ m).setWorker w
      ((s.workers w).goto (.writing (i + 1) m false))) := by
  obtain ⟨hm, hnewer, hreads, -⟩ := h.writing hpc
  have hf := frame_storeTid hi hpc hwe (hnewer i we (Nat.le_refl i) hwe)
  refine h.step hf ?_
  rw [setWorker_self]
  refine ⟨((h w).sets.frame hf).of_sets rfl rfl, hm, ?_, hreads, by simp⟩
  intro j y hij hy
  have hne : y.value_ ≠ we.value_ := by
    intro heq
    have := hi.index_unique hy hwe heq
    omega
  rw [setWorker_ver, setTid_ver_other s m hne]
  exact hnewer j y (by omega) hy

/-- After its last element the worker is idle and clean. -/
theorem frame_finish {i : Nat} {m : TIDword} {b : Bool} (hpc : (s.workers w).pc = .writing i m b)
    (hend : (s.workers w).write_set_[i]? = none) :
    Frame s (s.setWorker w ((s.workers w).goto .idle)) w := by
  have hclean : ∀ v, ¬ Dirty s w v := by
    rintro v ⟨i', m', we, hpc', hwe, -⟩
    rw [hpc] at hpc'
    obtain ⟨rfl, -, -⟩ := Pc.writing.inj hpc'
    rw [hend] at hwe
    cases hwe
  refine ⟨rfl, fun u hu => setWorker_other _ _ hu, fun v => Nat.le_refl _, ?_, fun _ _ _ _ => rfl⟩
  intro v _ hc
  exact ⟨clean_of_others (fun u hu => setWorker_other _ _ hu) (hclean v) hc, rfl⟩

theorem versions_finish (h : Versions s) {i : Nat} {m : TIDword} {b : Bool}
    (hpc : (s.workers w).pc = .writing i m b) (hend : (s.workers w).write_set_[i]? = none) :
    Versions (s.setWorker w ((s.workers w).goto .idle)) := by
  have hf := frame_finish hpc hend
  refine h.step hf ?_
  rw [setWorker_self]
  exact ⟨((h w).sets.frame hf).of_sets rfl rfl, trivial⟩

theorem versions_writing {H : ValuePtr → Option W} (hi : Inv s H) (h : Versions s) {i : Nat}
    {m : TIDword} {b : Bool} (hpc : (s.workers w).pc = .writing i m b)
    (hs : stepWriting s w (s.workers w) i m b = some s') : Versions s' := by
  cases writings_of_stepWriting hs with
  | finish hend => exact versions_finish h hpc hend
  | body hwe => exact versions_storeBody hi h hpc hwe
  | write hwe => exact versions_storeTid hi h hpc hwe
  | insert hwe hop | delete hwe hop =>
    rw [not_insert_of_ops h hwe] at hop
    cases hop

end

section
variable [Inhabited β]

/-- The steps that the invariant follows: no lock conflict, no TID overflow, and
requests of reads and writes. -/
structure Admitted (s : State W K β) (a : Action W K β) : Prop where
  free : NoLockConflict s a
  tid : tidOverflow s a = false
  ops : readsAndWrites a = true

instance (s : State W K β) (a : Action W K β) : Decidable (Admitted s a) :=
  decidable_of_iff (NoLockConflict s a ∧ tidOverflow s a = false ∧ readsAndWrites a = true)
    ⟨fun h => ⟨h.1, h.2.1, h.2.2⟩, fun h => ⟨h.free, h.tid, h.ops⟩⟩

omit [DecidableEq β] [Inhabited β] in
theorem versions_tick {H : ValuePtr → Option W} (hi : Inv s H) (h : Versions s)
    (hok : Admitted s (.work w .tick)) (hs : tick s w (s.workers w) = some s') : Versions s' := by
  cases ticks_of_tick hs with
  | readSpin hpc => exact versions_readSpin h hpc
  | readBody hpc => exact versions_readBody h hpc
  | locking hpc =>
    refine versions_locking hi h hpc ?_
    rintro x rfl
    exact hok.free.free hpc
  | unlockPrefix hpc =>
    obtain ⟨⟨κ, _, hl⟩, _⟩ := hi
    exact absurd hpc (hl.through w _ _ _)
  | loadEpoch hpc =>
    have := (h w).pc
    simp only [PcOk, hpc] at this
    exact versions_goto h (by simp [hpc]) this
  | storeEpoch hpc =>
    have := (h w).pc
    simp only [PcOk, hpc] at this
    refine versions_setWorker h (by simp [hpc]) ((h w).sets.of_sets rfl rfl) ⟨this, ?_⟩
    intro j re hj
    omega
  | validating hpc => exact versions_validating h hpc hok.tid
  | unlocking hpc => exact versions_unlocking hi h hpc
  | aborting hpc => exact versions_aborting h hpc
  | writing hpc hs => exact versions_writing hi h hpc hs

theorem versions_work {H : ValuePtr → Option W} (hi : Inv s H) (h : Versions s) {op : Op K β}
    (hok : Admitted s (.work w op)) (hs : work s w op = some s') : Versions s' := by
  cases works_of_work hs with
  | tick hs => exact versions_tick hi h hok hs
  | begin hpc => exact versions_setWorker h (by simp [hpc]) (setsOk_empty rfl rfl) trivial
  | read hpc => exact versions_read h hpc _
  | write hpc => exact versions_write h hpc _ _
  | insert | delete => exact absurd hok.ops (by simp [readsAndWrites])
  | validate hpc hperm => exact versions_validate h hpc hperm

omit [DecidableEq W] [DecidableEq K] [DecidableEq β] [Inhabited β] in
theorem versions_init (h : Init s) : Versions s := by
  intro w
  rw [h.workers w]
  exact ⟨setsOk_empty rfl rfl, trivial⟩

end

end

end Cassa.SiloCC.Occ

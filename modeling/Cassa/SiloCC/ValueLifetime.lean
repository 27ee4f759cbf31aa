import Cassa.Lib.Runs
import Cassa.Masstree.Reachable
import Cassa.SiloCC.OverMasstree
import Cassa.SiloCC.SerialView

/-!
# The lifetime of a record

Any number of workers over one Masstree, interleaved at whole operations of `TxExecutor`. `insert` puts
its record into the tree at once, where every worker finds it; `abort` takes it out again and deletes
it. A slot that `remove` has emptied keeps its pointer, and `insert_to_border` hands that pointer to the
collector when it uses the slot again. A `Value` that `insert` deletes itself was in no set.
-/

namespace Cassa.SiloCC.ValueLifetime

open Cassa.Masstree Lib.Runs

/-- Where a worker stands in `execute_transaction`. A refused transaction is aborted next, and a
validated one is written. -/
inductive Phase where
  | idle | running | refused | validated
  deriving DecidableEq

structure World (W K β : Type) [LinearOrder K] where
  masstree : Masstree ValuePtr
  mem : ValuePtr → Value β
  next : ValuePtr
  phase : W → Phase
  /-- the `TxExecutor`s; of what they share, only the fields above count -/
  trans : W → Serial.State K β
  /-- the pointers in the slots that were emptied before the first transaction and are not in use again -/
  emptied : List ValuePtr
  /-- what was deleted -/
  freed : List ValuePtr
  /-- what the garbage collectors were handed -/
  collected : List ValuePtr

inductive Action (W K β : Type) where
  | begin (w : W)
  | insert (w : W) (key : K) (value : β)
  | write (w : W) (key : K) (value : β)
  | tx_delete (w : W) (key : K)
  | read (w : W) (key : K)
  | validationPhase (w : W)
  | writePhase (w : W) (localEpoch : Nat)
  | abort (w : W)

variable {W K β : Type} [LinearOrder K]

/-- The state as worker `w` finds it. -/
def World.enter (s : World W K β) (w : W) : OverMasstree.State K β :=
  ⟨s.masstree, { s.trans w with mem := s.mem, next := s.next }⟩

/-- The state as worker `w` leaves it. -/
def World.leave [DecidableEq W] (s : World W K β) (w : W) (phase : Phase) (t : OverMasstree.State K β) :
    World W K β :=
  { s with
    masstree := t.masstree
    mem := t.tx.mem
    next := t.tx.next
    phase := Function.update s.phase w phase
    trans := Function.update s.trans w t.tx }

/-- Any status but `OK` ends the loop over the operations. -/
def World.finish [DecidableEq W] (s : World W K β) (w : W) :
    Option (Status × OverMasstree.State K β) → Option (World W K β)
  | none => none
  | some (.OK, t) => some (s.leave w .running t)
  | some (_, t) => some (s.leave w .refused t)

/-- `gc.add` of what the slot held. -/
def World.collect (s : World W K β) : Option ValuePtr → World W K β
  | none => s
  | some v => { s with emptied := s.emptied.erase v, collected := s.collected ++ [v] }

/-- The elements whose keys `abort` removes and whose records it deletes. -/
def inserted (ws : List (WriteElement K β)) : List (WriteElement K β) := ws.filter (·.op_ = .INSERT)

def World.free (s : World W K β) (vs : List ValuePtr) : World W K β := { s with freed := s.freed ++ vs }

section
variable (bytes : K → List UInt8)

/-- The key that the constructor makes of the string. -/
def keyOf (k : K) : Key := .ofString (bytes k)

/-- A read of a locked record waits. -/
def step [DecidableEq W] [Inhabited β] (arrange : List K → List K) (s : World W K β) :
    Action W K β → Option (World W K β)
  | .begin w =>
    if s.phase w = .idle then some (s.leave w .running ⟨s.masstree, (s.enter w).tx.begin⟩) else none
  | .insert w key value =>
    if s.phase w = .running then
      match OverMasstree.insert (keyOf bytes) (s.enter w) key value with
      | none => none
      | some (.OK, t) => some ((s.leave w .running t).collect (s.masstree.reused (keyOf bytes key)))
      | some (_, t) => some (s.leave w .refused t)
    else none
  | .write w key value =>
    if s.phase w = .running then s.finish w (OverMasstree.write (keyOf bytes) (s.enter w) key value) else none
  | .tx_delete w key =>
    if s.phase w = .running then s.finish w (OverMasstree.tx_delete (keyOf bytes) (s.enter w) key) else none
  | .read w key =>
    if s.phase w = .running then s.finish w (OverMasstree.read (keyOf bytes) (s.enter w) key) else none
  | .validationPhase w =>
    if s.phase w = .running then
      match Serial.validationPhase arrange (s.enter w).tx with
      | (tx, true) => some (s.leave w .validated ⟨s.masstree, tx⟩)
      | (tx, false) => some (s.leave w .refused ⟨s.masstree, tx⟩)
    else none
  | .writePhase w localEpoch =>
    if s.phase w = .validated then
      (Serial.writePhase (s.enter w).tx localEpoch).map fun tx => s.leave w .idle ⟨s.masstree, tx⟩
    else none
  | .abort w =>
    if s.phase w = .refused then
      (OverMasstree.abort (keyOf bytes) (s.enter w)).map fun t =>
        (s.leave w .idle t).free ((inserted (s.trans w).write_set_).map (·.value_))
    else none

/-- The keys of a read set and a write set, with the records that the elements point to. -/
def elements (t : Serial.State K β) : List (K × ValuePtr) :=
  t.read_set_.map (fun re => (re.key_, re.value_)) ++ t.write_set_.map fun we => (we.key_, we.value_)

structure Lifetimes (s : World W K β) : Prop where
  unreferenced : ∀ w, s.phase w ≠ .idle → ∀ e ∈ elements (s.trans w), e.2 ∉ s.freed
  uncollected : ∀ v ∈ s.collected, v ∉ s.freed
  once : s.collected.Nodup

/-- No other transaction in flight has touched a key that this one has inserted. -/
def Alone (s : World W K β) (w : W) : Prop :=
  ∀ u, u ≠ w → s.phase u ≠ .idle → ∀ we ∈ inserted (s.trans w).write_set_, ∀ e ∈ elements (s.trans u), e.1 ≠ we.key_

/-- The calls that `abort` makes. -/
def removals (ws : List (WriteElement K β)) : List (Call ValuePtr) :=
  (inserted ws).map fun we => .remove_value (bytes we.key_)

/-- The removals of an abort, one after the other, reach no defect of the tree. -/
def Spares (s : World W K β) (w : W) : Prop :=
  Admits Masstree.step (fun m c => m.spared c = true) s.masstree (removals bytes (s.trans w).write_set_)

/-- No insertion uses a slot that an abort has emptied, no transaction is aborted after another one in
flight has touched a key that it has inserted, and no call reaches a defect of the tree. -/
def ok (s : World W K β) : Action W K β → Prop
  | .insert _ key _ => s.masstree.splitsLong (keyOf bytes key) = false ∧
      ∀ v, v ∈ s.masstree.reused (keyOf bytes key) → v ∈ s.emptied
  | .abort w => Alone s w ∧ Spares bytes s w
  | _ => True

/-- The keys of the tree. -/
structure Separate (s : World W K β) (sh : Shape ValuePtr) : Prop where
  tree : TreeOk s.masstree sh
  injective : ∀ k k' v, Holds sh (keyOf bytes k).id v → Holds sh (keyOf bytes k').id v → k = k'
  below : ∀ k v, Holds sh (keyOf bytes k).id v → v < s.next
  apart : ∀ k v, Holds sh (keyOf bytes k).id v → v ∉ s.emptied ++ s.collected ++ s.freed

/-- No worker is in a transaction, nothing has been deleted or collected, and every key of the tree
has a record of its own. -/
structure Init (s : World W K β) : Prop where
  idle : ∀ w, s.phase w = .idle
  separate : ∃ sh, Separate bytes s sh
  below : ∀ v ∈ s.emptied, v < s.next
  nodup : s.emptied.Nodup
  freed : s.freed = []
  collected : s.collected = []

end

omit [LinearOrder K] in
theorem mem_inserted {ws : List (WriteElement K β)} {we : WriteElement K β} :
    we ∈ inserted ws ↔ we ∈ ws ∧ we.op_ = .INSERT := by
  simp [inserted]

theorem mem_elements {t : Serial.State K β} {e : K × ValuePtr} : e ∈ elements t ↔
    (∃ re ∈ t.read_set_, (re.key_, re.value_) = e) ∨ ∃ we ∈ t.write_set_, (we.key_, we.value_) = e := by
  simp [elements]

/-- The elements of a transaction come from its sets and from what it finds in the tree. -/
structure Keeps (found : K → ValuePtr → Prop) (t t' : Serial.State K β) : Prop where
  next : t'.next = t.next
  elements : ∀ e ∈ elements t', e ∈ elements t ∨ found e.1 e.2

namespace Keeps

variable {found : K → ValuePtr → Prop} {t t' t'' : Serial.State K β}

theorem of_sets (hnext : t'.next = t.next) (hread : t'.read_set_ = t.read_set_)
    (hwrite : t'.write_set_ = t.write_set_) : Keeps found t t' where
  next := hnext
  elements := by
    intro e he
    rw [ValueLifetime.elements, hread, hwrite] at he
    exact Or.inl he

theorem trans (h : Keeps found t t') (h' : Keeps found t' t'') : Keeps found t t'' where
  next := h'.next.trans h.next
  elements := by
    intro e he
    rcases h'.elements e he with he | he
    · exact h.elements e he
    · exact Or.inr he

/-- What happens to the records and to the counters of the executor first does not matter. -/
theorem after (h : Keeps found t' t'') (hnext : t'.next = t.next) (hread : t'.read_set_ = t.read_set_)
    (hwrite : t'.write_set_ = t.write_set_) : Keeps found t t'' :=
  (of_sets hnext hread hwrite).trans h

theorem readMore {re : ReadElement K} (h : found re.key_ re.value_) :
    Keeps found t { t with read_set_ := t.read_set_ ++ [re] } where
  next := rfl
  elements := by
    intro e he
    simp only [mem_elements, List.mem_append, List.mem_singleton] at he
    rcases he with ⟨re', hre | rfl, rfl⟩ | hwrite
    · exact Or.inl (mem_elements.mpr (Or.inl ⟨re', hre, rfl⟩))
    · exact Or.inr h
    · exact Or.inl (mem_elements.mpr (Or.inr hwrite))

theorem writeMore {we : WriteElement K β}
    (h : (we.key_, we.value_) ∈ ValueLifetime.elements t ∨ found we.key_ we.value_) :
    Keeps found t { t with write_set_ := t.write_set_ ++ [we] } where
  next := rfl
  elements := by
    intro e he
    simp only [mem_elements, List.mem_append, List.mem_singleton] at he
    rcases he with hread | ⟨we', hwe | rfl, rfl⟩
    · exact Or.inl (mem_elements.mpr (Or.inl hread))
    · exact Or.inl (mem_elements.mpr (Or.inr ⟨we', hwe, rfl⟩))
    · exact h

theorem begin [Inhabited β] (t : Serial.State K β) : Keeps found t t.begin where
  next := rfl
  elements := by
    intro e he
    cases he

theorem read_internal {key : K} {v : ValuePtr} {status : Status}
    (h : Serial.read_internal t key v = some (status, t')) (hv : found key v) : Keeps found t t' := by
  simp only [Serial.read_internal] at h
  split at h
  · cases h
  · split at h
    · cases h
      exact of_sets rfl rfl rfl
    · cases h
      exact readMore hv

theorem unlockWriteSet (ws : List (WriteElement K β)) (t : Serial.State K β) :
    Keeps found t (Serial.unlockWriteSet t ws) := by
  induction ws generalizing t with
  | nil => exact of_sets rfl rfl rfl
  | cons we ws ih =>
    rw [Serial.unlockWriteSet, List.foldl_cons]
    split
    · exact ih t
    · exact (ih _).after rfl rfl rfl

theorem lockWriteSet (ws : List (WriteElement K β)) (t : Serial.State K β)
    (before : List (WriteElement K β)) : Keeps found t (Serial.lockWriteSet t before ws) := by
  induction ws generalizing t before with
  | nil => exact of_sets rfl rfl rfl
  | cons we ws ih =>
    simp only [Serial.lockWriteSet]
    split
    · exact ih t _
    split
    · exact (unlockWriteSet _ _).after rfl rfl rfl
    · exact (ih _ _).after rfl rfl rfl

theorem validateReadSet (rs : List (ReadElement K)) (t : Serial.State K β) :
    Keeps found t (Serial.validateReadSet t rs).1 := by
  induction rs generalizing t with
  | nil => exact of_sets rfl rfl rfl
  | cons re rs ih =>
    simp only [Serial.validateReadSet]
    split
    · exact (unlockWriteSet _ _).after rfl rfl rfl
    · exact (ih _).after rfl rfl rfl

theorem sort (arrange : List K → List K) (t : Serial.State K β) :
    Keeps found t { t with write_set_ := Serial.sortWriteSet arrange t.write_set_ } where
  next := rfl
  elements := by
    intro e he
    rcases mem_elements.mp he with hread | ⟨we, hwe, rfl⟩
    · exact Or.inl (mem_elements.mpr (Or.inl hread))
    · obtain ⟨k, -, hk⟩ := List.mem_filterMap.mp hwe
      exact Or.inl (mem_elements.mpr (Or.inr ⟨we, (searchWriteSet_some hk).1, rfl⟩))

theorem validationPhase (arrange : List K → List K) (t : Serial.State K β) :
    Keeps found t (Serial.validationPhase arrange t).1 :=
  ((sort arrange t).trans (lockWriteSet _ _ _)).trans (validateReadSet _ _)

theorem writeLoop {ws : List (WriteElement K β)} {maxtid : TIDword} (h : Serial.writeLoop t maxtid ws = some t') :
    Keeps found t t' := by
  induction ws generalizing t maxtid with
  | nil =>
    cases h
    exact of_sets rfl rfl rfl
  | cons we ws ih =>
    rw [Serial.writeLoop] at h
    split at h
    · exact (ih h).after rfl rfl rfl
    · exact (ih h).after rfl rfl rfl
    · exact (ih h).after rfl rfl rfl
    · cases h

theorem writePhase {localEpoch : Nat} (h : Serial.writePhase t localEpoch = some t') : Keeps found t t' :=
  (writeLoop h).after rfl rfl rfl

end Keeps

section

variable (bytes : K → List UInt8)

/-- What a lookup finds. -/
def found (s : OverMasstree.State K β) (k : K) (v : ValuePtr) : Prop :=
  s.masstree.get_value (keyOf bytes k) = some (some v)

/-- An operation that leaves the tree and takes its new elements from there. -/
structure Finds (s s' : OverMasstree.State K β) : Prop where
  masstree : s'.masstree = s.masstree
  keeps : Keeps (fun k v => (k, v) ∈ elements s.tx ∨ found bytes s k v) s.tx s'.tx

theorem Finds.refl (s : OverMasstree.State K β) : Finds bytes s s := ⟨rfl, .of_sets rfl rfl rfl⟩

end

section

variable {bytes : K → List UInt8} {s s' : OverMasstree.State K β} {key : K} {status : Status}

theorem Finds.elements (h : Finds bytes s s') : ∀ e ∈ elements s'.tx, e ∈ elements s.tx ∨ found bytes s e.1 e.2 := by
  intro e he
  rcases h.keeps.elements e he with he | he
  · exact Or.inl he
  · exact he

theorem findValue_some {v : ValuePtr} (h : OverMasstree.findValue (keyOf bytes) s key = some (some v)) :
    (key, v) ∈ elements s.tx ∨ found bytes s key v := by
  unfold OverMasstree.findValue at h
  cases hread : Serial.searchReadSet s.tx.read_set_ key with
  | some re =>
    simp only [hread, Option.some.injEq] at h
    obtain ⟨hmem, hkey⟩ := Serial.searchReadSet_some hread
    exact Or.inl (mem_elements.mpr (Or.inl ⟨re, hmem, Prod.ext hkey h⟩))
  | none =>
    simp only [hread] at h
    exact Or.inr h

theorem Finds.write {value : β} (h : OverMasstree.write (keyOf bytes) s key value = some (status, s')) :
    Finds bytes s s' := by
  unfold OverMasstree.write at h
  split at h
  · cases h
    exact .refl bytes s
  · obtain ⟨o, ho, he⟩ := Option.map_eq_some_iff.mp h
    cases o with
    | none =>
      cases he
      exact .refl bytes s
    | some v =>
      cases he
      exact ⟨rfl, .writeMore (Or.inr (findValue_some ho))⟩

theorem Finds.tx_delete [Inhabited β] (h : OverMasstree.tx_delete (keyOf bytes) s key = some (status, s')) :
    Finds bytes s s' := by
  unfold OverMasstree.tx_delete at h
  split at h
  · split at h
    · cases h
      exact .refl bytes s
    · cases h
      exact .refl bytes s
  · obtain ⟨o, ho, he⟩ := Option.map_eq_some_iff.mp h
    cases o with
    | none =>
      cases he
      exact .refl bytes s
    | some v =>
      cases he
      exact ⟨rfl, .writeMore (Or.inr (findValue_some ho))⟩

theorem Finds.read (h : OverMasstree.read (keyOf bytes) s key = some (status, s')) : Finds bytes s s' := by
  unfold OverMasstree.read at h
  split at h
  · cases h
    exact .refl bytes s
  split at h
  · cases h
    exact .refl bytes s
  cases hget : s.masstree.get_value (keyOf bytes key) with
  | none =>
    rw [hget] at h
    cases h
  | some o =>
    rw [hget] at h
    cases o with
    | none =>
      cases h
      exact .refl bytes s
    | some v =>
      dsimp only at h
      split at h
      next tx hread =>
        cases h
        exact ⟨rfl, (Keeps.read_internal hread (Or.inr hget)).trans (.of_sets rfl rfl rfl)⟩
      next _ tx _ hread =>
        cases h
        exact ⟨rfl, Keeps.read_internal hread (Or.inr hget)⟩
      next => cases h

end

section

variable (bytes : K → List UInt8)

/-- What holds between the steps: the elements of a transaction in flight are those of the tree. -/
structure Live (s : World W K β) (sh : Shape ValuePtr) : Prop where
  separate : Separate bytes s sh
  held : ∀ w, s.phase w ≠ .idle → ∀ e ∈ elements (s.trans w), Holds sh (keyOf bytes e.1).id e.2
  below : ∀ v ∈ s.emptied ++ s.collected ++ s.freed, v < s.next
  nodup : (s.emptied ++ s.collected).Nodup
  unfreed : ∀ v ∈ s.emptied ++ s.collected, v ∉ s.freed

variable {bytes} {s s' : World W K β} {sh : Shape ValuePtr}

theorem Init.live (h : Init bytes s) : ∃ sh, Live bytes s sh := by
  obtain ⟨sh, hsep⟩ := h.separate
  refine ⟨sh, hsep, fun w hw => absurd (h.idle w) hw, ?_, ?_, ?_⟩
  · intro v hv
    rw [h.freed, h.collected, List.append_nil, List.append_nil] at hv
    exact h.below v hv
  · rw [h.collected, List.append_nil]
    exact h.nodup
  · intro v _ hv
    rw [h.freed] at hv
    cases hv

theorem Live.lifetimes (h : Live bytes s sh) : Lifetimes s where
  unreferenced := by
    intro w hw e he hfreed
    exact h.separate.apart _ _ (h.held w hw e he) (List.mem_append_right _ hfreed)
  uncollected v hv := h.unfreed v (List.mem_append_right _ hv)
  once := (List.nodup_append.mp h.nodup).2.1

/-- A key has one record. -/
theorem Separate.same (hne : ∀ k, bytes k ≠ []) (h : Separate bytes s sh) {k : K} {v v' : ValuePtr}
    (hv : Holds sh (keyOf bytes k).id v) (hv' : Holds sh (keyOf bytes k).id v') : v = v' := by
  have hget := (h.tree.get_some (hne k)).mpr hv
  have hget' := (h.tree.get_some (hne k)).mpr hv'
  exact Option.some.inj (Option.some.inj (hget.symm.trans hget'))

variable [DecidableEq W] {w : W} {phase : Phase} {t : OverMasstree.State K β}

@[simp] theorem leave_phase_self : (s.leave w phase t).phase w = phase := Function.update_self ..

@[simp] theorem leave_trans_self : (s.leave w phase t).trans w = t.tx := Function.update_self ..

@[simp] theorem leave_phase_ne {u : W} (hu : u ≠ w) : (s.leave w phase t).phase u = s.phase u :=
  Function.update_of_ne hu ..

@[simp] theorem leave_trans_ne {u : W} (hu : u ≠ w) : (s.leave w phase t).trans u = s.trans u :=
  Function.update_of_ne hu ..

/-- The tree changes to one that keeps the records of the transactions in flight. -/
theorem Live.leave (h : Live bytes s sh) {sh' : Shape ValuePtr} (hsep : Separate bytes (s.leave w phase t) sh')
    (hnext : s.next ≤ t.tx.next) (hothers : ∀ u, u ≠ w → s.phase u ≠ .idle → ∀ e ∈ elements (s.trans u),
      Holds sh' (keyOf bytes e.1).id e.2)
    (hown : phase ≠ .idle → ∀ e ∈ elements t.tx, Holds sh' (keyOf bytes e.1).id e.2) :
    Live bytes (s.leave w phase t) sh' where
  separate := hsep
  held := by
    intro u hu e he
    by_cases huw : u = w
    · subst huw
      rw [leave_phase_self] at hu
      rw [leave_trans_self] at he
      exact hown hu e he
    · rw [leave_phase_ne huw] at hu
      rw [leave_trans_ne huw] at he
      exact hothers u huw hu e he
  below v hv := (h.below v hv).trans_le hnext
  nodup := h.nodup
  unfreed := h.unfreed

/-- The same tree. -/
theorem Live.stay (h : Live bytes s sh) (hmasstree : t.masstree = s.masstree) (hnext : t.tx.next = s.next)
    (hown : phase ≠ .idle → ∀ e ∈ elements t.tx, Holds sh (keyOf bytes e.1).id e.2) :
    Live bytes (s.leave w phase t) sh := by
  have htree : (s.leave w phase t).masstree = s.masstree := hmasstree
  have hnext' : (s.leave w phase t).next = s.next := hnext
  refine h.leave ⟨htree ▸ h.separate.tree, h.separate.injective, ?_, h.separate.apart⟩ hnext.ge
    (fun u _ hu => h.held u hu) hown
  intro k v hv
  rw [hnext']
  exact h.separate.below k v hv

theorem Live.keeps {found : K → ValuePtr → Prop} {tx : Serial.State K β} (h : Live bytes s sh)
    (hphase : s.phase w ≠ .idle) (hkeeps : Keeps found (s.enter w).tx tx)
    (hfound : ∀ k v, found k v → Holds sh (keyOf bytes k).id v) :
    Live bytes (s.leave w phase ⟨s.masstree, tx⟩) sh := by
  refine h.stay rfl hkeeps.next ?_
  intro _ e he
  rcases hkeeps.elements e he with he | he
  · exact h.held w hphase e he
  · exact hfound _ _ he

theorem Live.finds (hne : ∀ k, bytes k ≠ []) (h : Live bytes s sh) (hphase : s.phase w ≠ .idle)
    (hfinds : Finds bytes (s.enter w) t) : Live bytes (s.leave w phase t) sh := by
  refine h.stay hfinds.masstree hfinds.keeps.next ?_
  intro _ e he
  rcases hfinds.elements e he with he | he
  · exact h.held w hphase e he
  · exact (h.separate.tree.get_some (hne e.1)).mp he

theorem finish_some {r : Option (Status × OverMasstree.State K β)} (h : s.finish w r = some s') :
    ∃ status t phase, r = some (status, t) ∧ s' = s.leave w phase t := by
  cases r with
  | none => cases h
  | some r =>
    obtain ⟨status, t⟩ := r
    unfold World.finish at h
    split at h
    next => cases h
    next he =>
      cases he
      exact ⟨.OK, t, .running, rfl, (Option.some.inj h).symm⟩
    next _ status' t' _ he =>
      cases he
      exact ⟨status, t, .refused, rfl, (Option.some.inj h).symm⟩

omit [DecidableEq W] in
/-- The slot was emptied before the first transaction. -/
theorem Live.collect {o : Option ValuePtr} (h : Live bytes s sh) (ho : ∀ v, v ∈ o → v ∈ s.emptied) :
    Live bytes (s.collect o) sh := by
  cases o with
  | none => exact h
  | some v =>
    have hv := ho v rfl
    have hperm : (s.emptied.erase v ++ (s.collected ++ [v])).Perm (s.emptied ++ s.collected) := by
      rw [← List.append_assoc]
      exact (List.perm_append_singleton v _).trans ((List.perm_cons_erase hv).symm.append_right s.collected)
    have hmem : ∀ u, u ∈ s.emptied.erase v ++ (s.collected ++ [v]) ++ s.freed →
        u ∈ s.emptied ++ s.collected ++ s.freed := fun u => (hperm.append_right s.freed).mem_iff.mp
    refine ⟨⟨h.separate.tree, h.separate.injective, h.separate.below, ?_⟩, h.held, ?_, hperm.nodup_iff.mpr h.nodup, ?_⟩
    · intro k u hu hmem'
      exact h.separate.apart k u hu (hmem u hmem')
    · intro u hu
      exact h.below u (hmem u hu)
    · intro u hu
      exact h.unfreed u (hperm.mem_iff.mp hu)

variable (bytes) in
/-- An insertion that succeeds: the key is new, and its record too. -/
structure Inserts (s : World W K β) (sh : Shape ValuePtr) (w : W) (key : K) (t : OverMasstree.State K β)
    (sh' : Shape ValuePtr) : Prop where
  tree : TreeOk t.masstree sh'
  absent : ∀ v, ¬ Holds sh (keyOf bytes key).id v
  keys : ∀ K v, Holds sh' K v ↔ Holds sh K v ∨ K = (keyOf bytes key).id ∧ v = s.next
  next : t.tx.next = s.next + 1
  elements : ∀ e ∈ elements t.tx, e ∈ elements (s.trans w) ∨ e = (key, s.next)

variable (hne : ∀ k, bytes k ≠ []) (hinj : Function.Injective bytes)

include hne

omit [DecidableEq W] in
theorem Live.insert_cases (h : Live bytes s sh) {key : K} {value : β} {status : Status}
    (hspared : s.masstree.splitsLong (keyOf bytes key) = false)
    (hinsert : OverMasstree.insert (keyOf bytes) (s.enter w) key value = some (status, t)) :
    status ≠ .OK ∧ t = s.enter w ∨ status = .OK ∧ ∃ sh', Inserts bytes s sh w key t sh' := by
  unfold OverMasstree.insert at hinsert
  split at hinsert
  · cases hinsert
    exact Or.inl ⟨by decide, rfl⟩
  cases hget : s.masstree.get_value (keyOf bytes key) with
  | none =>
    rw [show (s.enter w).masstree = s.masstree from rfl, hget] at hinsert
    cases hinsert
  | some o =>
    rw [show (s.enter w).masstree = s.masstree from rfl, hget] at hinsert
    cases o with
    | some v =>
      cases hinsert
      exact Or.inl ⟨by decide, rfl⟩
    | none =>
      obtain ⟨m', sh', hins, htree, hkeys⟩ := h.separate.tree.inserts (v := s.next) (hne key) hget
        (by simpa [Masstree.spared, keyOf] using hspared)
      dsimp only at hinsert
      rw [show (s.enter w).tx.next = s.next from rfl, show keyOf bytes key = .ofString (bytes key) from rfl,
        hins] at hinsert
      cases hinsert
      refine Or.inr ⟨rfl, sh', htree, (h.separate.tree.get_none (hne key)).mp hget, hkeys, rfl, ?_⟩
      intro e he
      simp only [mem_elements, List.mem_append, List.mem_singleton] at he
      rcases he with ⟨re, hre | rfl, rfl⟩ | ⟨we, hwe | rfl, rfl⟩
      · exact Or.inl (mem_elements.mpr (Or.inl ⟨re, hre, rfl⟩))
      · exact Or.inr rfl
      · exact Or.inl (mem_elements.mpr (Or.inr ⟨we, hwe, rfl⟩))
      · exact Or.inr rfl

include hinj

theorem Live.inserts (h : Live bytes s sh) {key : K} {sh' : Shape ValuePtr} (hphase : s.phase w ≠ .idle)
    (hins : Inserts bytes s sh w key t sh') : Live bytes (s.leave w phase t) sh' := by
  have hold : ∀ k v, Holds sh' (keyOf bytes k).id v →
      k = key ∧ v = s.next ∨ k ≠ key ∧ Holds sh (keyOf bytes k).id v := by
    intro k v hv
    by_cases hk : k = key
    · subst hk
      rcases (hins.keys _ _).mp hv with hv | ⟨-, hv⟩
      · exact absurd hv (hins.absent v)
      · exact Or.inl ⟨rfl, hv⟩
    · rcases (hins.keys _ _).mp hv with hv | ⟨hid, -⟩
      · exact Or.inr ⟨hk, hv⟩
      · exact absurd hid (Key.id_ofString_ne (hne key) (hne k) (hinj.ne hk))
  refine h.leave ⟨hins.tree, ?_, ?_, ?_⟩ (by rw [hins.next]; exact Nat.le_succ _) ?_ ?_
  · intro k k' v hv hv'
    rcases hold k v hv with ⟨rfl, rfl⟩ | ⟨-, hv⟩
    · rcases hold k' _ hv' with ⟨rfl, -⟩ | ⟨-, hv'⟩
      · rfl
      · exact absurd (h.separate.below _ _ hv') (Nat.lt_irrefl _)
    · rcases hold k' v hv' with ⟨rfl, rfl⟩ | ⟨-, hv'⟩
      · exact absurd (h.separate.below _ _ hv) (Nat.lt_irrefl _)
      · exact h.separate.injective k k' v hv hv'
  · intro k v hv
    change v < t.tx.next
    rw [hins.next]
    rcases hold k v hv with ⟨-, rfl⟩ | ⟨-, hv⟩
    · exact Nat.lt_succ_self _
    · exact Nat.lt_succ_of_lt (h.separate.below k v hv)
  · intro k v hv hmem
    rcases hold k v hv with ⟨-, rfl⟩ | ⟨-, hv⟩
    · exact absurd (h.below _ hmem) (Nat.lt_irrefl _)
    · exact h.separate.apart k v hv hmem
  · intro u _ hu e he
    exact (hins.keys _ _).mpr (Or.inl (h.held u hu e he))
  · intro _ e he
    rcases hins.elements e he with he | rfl
    · exact (hins.keys _ _).mpr (Or.inl (h.held w hphase e he))
    · exact (hins.keys _ _).mpr (Or.inr ⟨rfl, rfl⟩)

omit [LinearOrder K] hinj in
/-- The removals of an abort take the keys out that it has inserted, and no others. -/
theorem removeInserted_spared (ws : List (WriteElement K β)) {m : Masstree ValuePtr} (h : TreeOk m sh)
    (hspares : Admits Masstree.step (fun m c => m.spared c = true) m (removals bytes ws)) :
    ∃ m' sh', OverMasstree.removeInserted (keyOf bytes) ws m = some m' ∧ TreeOk m' sh' ∧
      ∀ K v, Holds sh' K v ↔ Holds sh K v ∧ ∀ we ∈ inserted ws, K ≠ (keyOf bytes we.key_).id := by
  induction ws generalizing m sh with
  | nil => exact ⟨m, sh, rfl, h, fun K v => by simp [inserted]⟩
  | cons we ws ih =>
    by_cases hop : we.op_ = .INSERT
    · have hcons : inserted (we :: ws) = we :: inserted ws := by simp [inserted, hop]
      rw [removals, hcons, List.map_cons] at hspares
      obtain ⟨hspared, hrest⟩ := hspares
      have hcall : m.call (.remove_value (bytes we.key_)) = m.remove_value (keyOf bytes we.key_) :=
        if_neg (hne we.key_)
      have hguard : m.collapses (keyOf bytes we.key_) = false := by
        simpa [Masstree.spared, keyOf] using hspared
      have hremoved : ∃ status m₁ sh₁, m.remove_value (keyOf bytes we.key_) = some (status, m₁) ∧ TreeOk m₁ sh₁ ∧
          ∀ K v, Holds sh₁ K v ↔ Holds sh K v ∧ K ≠ (keyOf bytes we.key_).id := by
        rcases h.remove_value (Key.at_ofString (hne we.key_)) hguard with ⟨hnot, hrem⟩ | ⟨-, m₁, sh₁, hrem, htree, hkeys⟩
        · refine ⟨_, m, sh, hrem, h, fun K v => (and_iff_left_of_imp ?_).symm⟩
          rintro hv rfl
          exact hnot v hv
        · exact ⟨_, m₁, sh₁, hrem, htree, hkeys⟩
      obtain ⟨status, m₁, sh₁, hrem, htree, hkeys⟩ := hremoved
      have hstep : m₁ ∈ m.step (.remove_value (bytes we.key_)) := by
        rw [Masstree.step, hcall, hrem]
        rfl
      obtain ⟨m', sh', hrun, htree', hkeys'⟩ := ih htree (hrest m₁ hstep)
      refine ⟨m', sh', ?_, htree', ?_⟩
      · rw [OverMasstree.removeInserted, if_pos hop, hrem]
        exact hrun
      · intro K v
        rw [hkeys', hkeys, hcons, List.forall_mem_cons, and_assoc]
    · have hcons : inserted (we :: ws) = inserted ws := by simp [inserted, hop]
      rw [removals, hcons] at hspares
      obtain ⟨m', sh', hrun, htree, hkeys⟩ := ih h hspares
      refine ⟨m', sh', ?_, htree, ?_⟩
      · rw [OverMasstree.removeInserted, if_neg hop]
        exact hrun
      · rw [hcons]
        exact hkeys

/-- No other transaction holds the records that are deleted. -/
theorem Live.abort (h : Live bytes s sh) (hphase : s.phase w ≠ .idle) (halone : Alone s w) (hspares : Spares bytes s w)
    (habort : OverMasstree.abort (keyOf bytes) (s.enter w) = some t) :
    ∃ sh', Live bytes ((s.leave w .idle t).free ((inserted (s.trans w).write_set_).map (·.value_))) sh' := by
  obtain ⟨m', sh', hrun, htree, hkeys⟩ := removeInserted_spared hne _ h.separate.tree hspares
  have ht : t = ⟨m', { (s.enter w).tx with read_set_ := [], write_set_ := [] }⟩ := by
    obtain ⟨m₁, hm₁, rfl⟩ := Option.map_eq_some_iff.mp habort
    rw [show m₁ = m' from Option.some.inj (hm₁.symm.trans hrun)]
  subst ht
  have hwe : ∀ we ∈ inserted (s.trans w).write_set_, Holds sh (keyOf bytes we.key_).id we.value_ := fun we hmem =>
    h.held w hphase _ (mem_elements.mpr (Or.inr ⟨we, (mem_inserted.mp hmem).1, rfl⟩))
  have hleave : Live bytes (s.leave w .idle ⟨m', { (s.enter w).tx with read_set_ := [], write_set_ := [] }⟩) sh' := by
    refine h.leave ⟨htree, ?_, ?_, ?_⟩ le_rfl ?_ (fun hidle => absurd rfl hidle)
    · intro k k' v hv hv'
      exact h.separate.injective k k' v ((hkeys _ _).mp hv).1 ((hkeys _ _).mp hv').1
    · intro k v hv
      exact h.separate.below k v ((hkeys _ _).mp hv).1
    · intro k v hv
      exact h.separate.apart k v ((hkeys _ _).mp hv).1
    · intro u hu hidle e he
      refine (hkeys _ _).mpr ⟨h.held u hidle e he, ?_⟩
      intro we hwe'
      exact Key.id_ofString_ne (hne we.key_) (hne e.1) (hinj.ne (halone u hu hidle we hwe' e he))
  refine ⟨sh', ⟨htree, hleave.separate.injective, hleave.separate.below, ?_⟩, hleave.held, ?_, hleave.nodup, ?_⟩
  · intro k v hv hmem
    change v ∈ s.emptied ++ s.collected ++ (s.freed ++ _) at hmem
    rw [← List.append_assoc] at hmem
    rcases List.mem_append.mp hmem with hmem | hmem
    · exact hleave.separate.apart k v hv hmem
    · obtain ⟨we, hwe', rfl⟩ := List.mem_map.mp hmem
      obtain ⟨hv', hk⟩ := (hkeys _ _).mp hv
      exact hk we hwe' (by rw [h.separate.injective k we.key_ _ hv' (hwe we hwe')])
  · intro v hv
    change v ∈ s.emptied ++ s.collected ++ (s.freed ++ _) at hv
    rw [← List.append_assoc] at hv
    rcases List.mem_append.mp hv with hv | hv
    · exact h.below v hv
    · obtain ⟨we, hwe', rfl⟩ := List.mem_map.mp hv
      exact h.separate.below _ _ (hwe we hwe')
  · intro v hv hmem
    rcases List.mem_append.mp hmem with hmem | hmem
    · exact h.unfreed v hv hmem
    · obtain ⟨we, hwe', rfl⟩ := List.mem_map.mp hmem
      exact h.separate.apart _ _ (hwe we hwe') (List.mem_append_left _ hv)

omit hinj in
/-- Whoever has touched a key that the transaction has inserted holds the record that is deleted. -/
theorem Live.not_alone (h : Live bytes s sh) (hphase : s.phase w ≠ .idle) (hnot : ¬ Alone s w) :
    ¬ Lifetimes ((s.leave w .idle t).free ((inserted (s.trans w).write_set_).map (·.value_))) := by
  intro hl
  simp only [Alone, not_forall, not_not] at hnot
  obtain ⟨u, hu, hidle, we, hwe, e, he, hkey⟩ := hnot
  have hheld := h.held w hphase _ (mem_elements.mpr (Or.inr ⟨we, (mem_inserted.mp hwe).1, rfl⟩))
  have hsame : e.2 = we.value_ := h.separate.same hne (h.held u hidle e he) (hkey ▸ hheld)
  refine hl.unreferenced u ?_ e ?_ ?_
  · rw [World.free, leave_phase_ne hu]
    exact hidle
  · rw [World.free, leave_trans_ne hu]
    exact he
  · exact List.mem_append_right _ (List.mem_map.mpr ⟨we, hwe, hsame.symm⟩)

theorem Live.step [Inhabited β] {arrange : List K → List K} {a : Action W K β} (h : Live bytes s sh)
    (hok : ok bytes s a) (hstep : step bytes arrange s a = some s') : ∃ sh', Live bytes s' sh' := by
  cases a with
  | begin w =>
    simp only [ValueLifetime.step, Option.ite_none_right_eq_some, Option.some.injEq] at hstep
    obtain ⟨-, rfl⟩ := hstep
    refine ⟨sh, h.stay rfl rfl ?_⟩
    intro _ e he
    cases he
  | insert w key value =>
    simp only [ValueLifetime.step, Option.ite_none_right_eq_some] at hstep
    obtain ⟨hrunning, hstep⟩ := hstep
    have hphase : s.phase w ≠ .idle := by
      rw [hrunning]
      decide
    split at hstep
    next => cases hstep
    next t hinsert =>
      rcases h.insert_cases hne hok.1 hinsert with ⟨hnot, -⟩ | ⟨-, sh', hins⟩
      · exact absurd rfl hnot
      · obtain rfl := Option.some.inj hstep
        exact ⟨sh', (h.inserts hne hinj hphase hins).collect hok.2⟩
    next status t hstatus hinsert =>
      rcases h.insert_cases hne hok.1 hinsert with ⟨-, rfl⟩ | ⟨rfl, -⟩
      · obtain rfl := Option.some.inj hstep
        exact ⟨sh, h.finds hne hphase (.refl bytes _)⟩
      · exact absurd rfl hstatus
  | write w key value =>
    simp only [ValueLifetime.step, Option.ite_none_right_eq_some] at hstep
    obtain ⟨hrunning, hstep⟩ := hstep
    obtain ⟨status, t, phase, hwrite, rfl⟩ := finish_some hstep
    exact ⟨sh, h.finds hne (by rw [hrunning]; decide) (.write hwrite)⟩
  | tx_delete w key =>
    simp only [ValueLifetime.step, Option.ite_none_right_eq_some] at hstep
    obtain ⟨hrunning, hstep⟩ := hstep
    obtain ⟨status, t, phase, hdelete, rfl⟩ := finish_some hstep
    exact ⟨sh, h.finds hne (by rw [hrunning]; decide) (.tx_delete hdelete)⟩
  | read w key =>
    simp only [ValueLifetime.step, Option.ite_none_right_eq_some] at hstep
    obtain ⟨hrunning, hstep⟩ := hstep
    obtain ⟨status, t, phase, hread, rfl⟩ := finish_some hstep
    exact ⟨sh, h.finds hne (by rw [hrunning]; decide) (.read hread)⟩
  | validationPhase w =>
    simp only [ValueLifetime.step, Option.ite_none_right_eq_some] at hstep
    obtain ⟨hrunning, hstep⟩ := hstep
    have hkeeps : Keeps (fun _ _ => False) (s.enter w).tx (Serial.validationPhase arrange (s.enter w).tx).1 :=
      Keeps.validationPhase arrange _
    have hphase : s.phase w ≠ .idle := by
      rw [hrunning]
      decide
    generalize Serial.validationPhase arrange (s.enter w).tx = r at hstep hkeeps
    obtain ⟨tx, passed⟩ := r
    cases passed with
    | true =>
      obtain rfl := Option.some.inj hstep
      exact ⟨sh, h.keeps hphase hkeeps fun _ _ => False.elim⟩
    | false =>
      obtain rfl := Option.some.inj hstep
      exact ⟨sh, h.keeps hphase hkeeps fun _ _ => False.elim⟩
  | writePhase w localEpoch =>
    simp only [ValueLifetime.step, Option.ite_none_right_eq_some] at hstep
    obtain ⟨hvalidated, hstep⟩ := hstep
    obtain ⟨tx, hwrite, rfl⟩ := Option.map_eq_some_iff.mp hstep
    have hkeeps : Keeps (fun _ _ => False) (s.enter w).tx tx := .writePhase hwrite
    exact ⟨sh, h.keeps (by rw [hvalidated]; decide) hkeeps fun _ _ => False.elim⟩
  | abort w =>
    simp only [ValueLifetime.step, Option.ite_none_right_eq_some] at hstep
    obtain ⟨hrefused, hstep⟩ := hstep
    obtain ⟨t, habort, rfl⟩ := Option.map_eq_some_iff.mp hstep
    exact h.abort hne hinj (by rw [hrefused]; decide) hok.1 hok.2 habort

theorem lifetimes_kept [Inhabited β] {arrange : List K → List K}
    (h : Reach (step bytes arrange) (Init bytes) (ok bytes) s) :
    Lifetimes s ∧ ∀ w s', Spares bytes s w → step bytes arrange s (.abort w) = some s' →
      (Lifetimes s' ↔ Alone s w) := by
  obtain ⟨sh, hlive⟩ : ∃ sh, Live bytes s sh := by
    refine Reach.invariant (I := fun s => ∃ sh, Live bytes s sh) (fun s hinit => hinit.live) ?_ h
    rintro s a s' ⟨sh, hlive⟩ hok hstep
    exact hlive.step hne hinj hok hstep
  refine ⟨hlive.lifetimes, ?_⟩
  intro w s' hspares hstep
  constructor
  · intro hl
    simp only [ValueLifetime.step, Option.ite_none_right_eq_some] at hstep
    obtain ⟨hrefused, hstep⟩ := hstep
    obtain ⟨t, -, rfl⟩ := Option.map_eq_some_iff.mp hstep
    by_contra hnot
    exact hlive.not_alone hne (by rw [hrefused]; decide) hnot hl
  · intro halone
    have hok : ok bytes s (.abort w) := ⟨halone, hspares⟩
    obtain ⟨sh', hlive'⟩ := hlive.step hne hinj hok hstep
    exact hlive'.lifetimes

end

/-- Keys of one byte. -/
def ofByte (k : Fin 256) : List UInt8 := [.ofFin k]

theorem ofByte_injective : Function.Injective ofByte := by
  intro k k' he
  have h : UInt8.ofFin k = UInt8.ofFin k' := (List.cons.inj he).1
  rw [← UInt8.toFin_ofFin k, h, UInt8.toFin_ofFin]

def byKey (keys : List (Fin 256)) : List (Fin 256) := keys.insertionSort (· ≤ ·)

def empty : World Bool (Fin 256) Nat where
  masstree := .new
  mem := fun _ => ⟨.new, 0⟩
  next := 0
  phase := fun _ => .idle
  trans := fun _ => .new
  emptied := []
  freed := []
  collected := []

theorem init_empty : Init ofByte empty := by
  have hnone : ∀ k v, ¬ Holds (fun _ => none : Shape ValuePtr) (keyOf ofByte k).id v := fun k v =>
    (treeOk_new : TreeOk (.new : Masstree ValuePtr) _).ok.not_holds rfl
  exact ⟨fun _ => rfl, ⟨_, treeOk_new, fun k _ v hv => absurd hv (hnone k v), fun k v hv => absurd hv (hnone k v),
    fun k v hv => absurd hv (hnone k v)⟩, by simp [empty], List.nodup_nil, rfl, rfl⟩

instance instDecidableOk [DecidableEq W] [Fintype W] (bytes : K → List UInt8) (s : World W K β) :
    (a : Action W K β) → Decidable (ok bytes s a)
  | .insert _ key _ => inferInstanceAs (Decidable (s.masstree.splitsLong (keyOf bytes key) = false ∧
      ∀ v, v ∈ s.masstree.reused (keyOf bytes key) → v ∈ s.emptied))
  | .abort w => inferInstanceAs (Decidable ((∀ u, u ≠ w → s.phase u ≠ .idle →
      ∀ we ∈ inserted (s.trans w).write_set_, ∀ e ∈ elements (s.trans u), e.1 ≠ we.key_) ∧
      Admits Masstree.step (fun m c => m.spared c = true) s.masstree (removals bytes (s.trans w).write_set_)))
  | .begin _ => isTrue trivial
  | .write _ _ _ => isTrue trivial
  | .tx_delete _ _ => isTrue trivial
  | .read _ _ => isTrue trivial
  | .validationPhase _ => isTrue trivial
  | .writePhase _ _ => isTrue trivial

/-- Key 0 is committed, key 1 is inserted twice and its transaction aborted. -/
def aborted : List (Action Bool (Fin 256) Nat) :=
  [.begin false, .insert false 0 5, .validationPhase false, .writePhase false 1,
    .begin false, .insert false 1 6, .begin true, .read true 0, .insert false 1 7, .abort false]

theorem lifetimes_kept_aborted : ∃ s : World Bool (Fin 256) Nat,
    Reach (step ofByte byKey) (Init ofByte) (ok ofByte) s ∧ s.freed = [1] ∧ Lifetimes s ∧
      ∀ w s', Spares ofByte s w → step ofByte byKey s (.abort w) = some s' → (Lifetimes s' ↔ Alone s w) := by
  have hadmits : Admits (step ofByte byKey) (ok ofByte) empty aborted := by decide +kernel
  have hreach := reach_get_of_admits init_empty hadmits (by decide +kernel)
  exact ⟨_, hreach, by decide +kernel,
    lifetimes_kept (fun _ => List.cons_ne_nil _ _) ofByte_injective hreach⟩

/-- The other worker has taken the record for its own WRITE, and the next insertion takes the emptied slot. -/
def abortedThenReused : List (Action Bool (Fin 256) Nat) :=
  [.begin false, .insert false 0 5, .validationPhase false, .writePhase false 1,
    .begin false, .insert false 1 6, .begin true, .write true 1 7, .insert false 1 8, .abort false,
    .begin false, .insert false 2 9]

theorem abortedThenReused_runs : (exec (step ofByte byKey) empty abortedThenReused).isSome := by decide +kernel

theorem lifetimes_broken : ∃ s : World Bool (Fin 256) Nat,
    Reach (step ofByte byKey) (Init ofByte) anyStep s ∧
    (∃ w, s.phase w ≠ .idle ∧ ∃ e ∈ elements (s.trans w), e.2 ∈ s.freed) ∧ ∃ v ∈ s.collected, v ∈ s.freed := by
  exact ⟨_, reach_get init_empty abortedThenReused_runs,
    ⟨true, by decide +kernel, (1, 1), by decide +kernel, by decide +kernel⟩,
    1, by decide +kernel, by decide +kernel⟩

end Cassa.SiloCC.ValueLifetime

import Cassa.SiloCC.SerialView

/-!
# The commit of a transaction that runs alone

With no other worker, `lockWriteSet` meets no lock and `validationPhase` finds every
record as it was read, so an attempt never retries. `writePhase` then gives every
record of the write set its word and its body; what the absent bit of a WRITE becomes
depends on the bit that `maxtid` carries when the loop gets there.
-/

namespace Cassa

/-- A word whose absent bit cannot reach a commit TID of a later epoch than 0. -/
def TIDword.Harmless (t : TIDword) : Prop := t.absent = true → t.epoch = 0

theorem TIDword.Harmless.max {a b : TIDword} (ha : a.Harmless) (hb : b.Harmless) :
    (TIDword.max a b).Harmless := by
  rcases TIDword.max_cases a b with ⟨h, -⟩ | ⟨h, -⟩
  · rw [h]; exact ha
  · rw [h]; exact hb

/-- What holds of the start and of every word holds of their maximum. -/
theorem TIDword.foldl_max {α : Type} {P : TIDword → Prop} {f : α → TIDword} {l : List α} :
    ∀ {m : TIDword}, P m → (∀ a ∈ l, P (f a)) →
      P (l.foldl (fun m a => TIDword.max m (f a)) m) := by
  induction l with
  | nil => intro m hm _; exact hm
  | cons a l ih =>
    intro m hm hl
    refine ih ?_ fun b hb => hl b (List.mem_cons_of_mem _ hb)
    show P (TIDword.max m (f a))
    rcases TIDword.max_cases m (f a) with ⟨h, -⟩ | ⟨h, -⟩
    · rw [h]; exact hm
    · rw [h]; exact hl a List.mem_cons_self

theorem TIDword.ver_le_foldl_max {α : Type} {f : α → TIDword} {l : List α} :
    ∀ {m : TIDword}, m.ver ≤ (l.foldl (fun m a => TIDword.max m (f a)) m).ver ∧
      ∀ a ∈ l, (f a).ver ≤ (l.foldl (fun m a => TIDword.max m (f a)) m).ver := by
  induction l with
  | nil => intro m; simp
  | cons a l ih =>
    intro m
    obtain ⟨hstart, hrest⟩ := ih (m := TIDword.max m (f a))
    rw [TIDword.ver_max] at hstart
    rw [List.foldl_cons]
    refine ⟨Nat.le_trans (Nat.le_max_left _ _) hstart, ?_⟩
    intro b hb
    rcases List.mem_cons.mp hb with rfl | hb
    · exact Nat.le_trans (Nat.le_max_right _ _) hstart
    · exact hrest b hb

theorem TIDword.harmless_of_present {t : TIDword} (h : t.absent = false) : t.Harmless := by
  simp [TIDword.Harmless, h]

/-- The absent bit of a commit TID comes from the worker's last TID or from a word with
an epoch of its own. -/
theorem commitTid_absent {r w m : TIDword} {e : Nat} (hr : r.Harmless) (hw : w.Harmless)
    (hm : m.absent = false) (he : e % 2 ^ 32 ≠ 0) : (commitTid r w m e).absent = false := by
  have hc : (epochWord e).absent = false := rfl
  have hce : (epochWord e).epoch ≠ 0 := by
    intro h
    have := congrArg BitVec.toNat h
    simp [epochWord] at this
    omega
  change (TIDword.max (TIDword.max (TIDword.max r w).incTID m.incTID) (epochWord e)).absent = false
  rcases TIDword.max_cases (TIDword.max (TIDword.max r w).incTID m.incTID) (epochWord e) with
    ⟨h, hlt⟩ | ⟨h, -⟩
  · rw [h]
    rcases TIDword.max_cases (TIDword.max r w).incTID m.incTID with ⟨h', -⟩ | ⟨h', -⟩
    · rw [h'] at hlt ⊢
      by_contra habs
      have hzero : (TIDword.max r w).epoch = 0 := (hr.max hw) (by simpa [TIDword.incTID] using habs)
      have hle := TIDword.epoch_le_of_obj_le (Nat.le_of_not_lt hlt)
      rw [TIDword.epoch_incTID, hzero] at hle
      exact hce (BitVec.eq_of_toNat_eq (Nat.le_zero.mp hle))
    · rw [h']
      exact hm
  · rw [h]
    exact hc

end Cassa

namespace Cassa.SiloCC.Serial

variable {K β : Type} [LinearOrder K] [Inhabited β]

section
omit [Inhabited β]

theorem searchWriteSet_self {ws : List (WriteElement K β)} (hnodup : (ws.map (·.key_)).Nodup)
    {we : WriteElement K β} (hwe : we ∈ ws) : searchWriteSet ws we.key_ = some we := by
  cases h : searchWriteSet ws we.key_ with
  | none => exact absurd rfl (searchWriteSet_none.mp h we hwe)
  | some we' =>
    obtain ⟨hmem, hkey⟩ := searchWriteSet_some h
    rw [List.inj_on_of_nodup_map hnodup hmem hwe hkey]

theorem sortWriteSet_perm {arrange : List K → List K} (harrange : ∀ l, (arrange l).Perm l)
    {ws : List (WriteElement K β)} (hnodup : (ws.map (·.key_)).Nodup) :
    (sortWriteSet arrange ws).Perm ws := by
  have hself : (ws.map (·.key_)).filterMap (searchWriteSet ws) = ws := by
    rw [List.filterMap_map]
    calc ws.filterMap (searchWriteSet ws ∘ (·.key_)) = ws.filterMap some :=
          List.filterMap_congr fun we hwe => searchWriteSet_self hnodup hwe
      _ = ws := List.filterMap_some
  have hperm := (harrange (ws.map (·.key_))).filterMap (searchWriteSet ws)
  rwa [hself] at hperm

end

/-- The records after `lockWriteSet` has gone through `ws`. -/
def lockedMem (mem : ValuePtr → Value β) (ws : List (WriteElement K β)) (v : ValuePtr) : Value β :=
  if ∃ we ∈ ws, we.op_ ≠ .INSERT ∧ we.value_ = v then
    { mem v with tidword_ := { (mem v).tidword_ with lock := true } }
  else mem v

section
omit [LinearOrder K] [Inhabited β]

@[simp] theorem lockedMem_body (mem : ValuePtr → Value β) (ws : List (WriteElement K β))
    (v : ValuePtr) : (lockedMem mem ws v).body_ = (mem v).body_ := by
  unfold lockedMem
  split <;> rfl

@[simp] theorem lockedMem_epoch (mem : ValuePtr → Value β) (ws : List (WriteElement K β))
    (v : ValuePtr) : (lockedMem mem ws v).tidword_.epoch = (mem v).tidword_.epoch := by
  unfold lockedMem
  split <;> rfl

@[simp] theorem lockedMem_TID (mem : ValuePtr → Value β) (ws : List (WriteElement K β))
    (v : ValuePtr) : (lockedMem mem ws v).tidword_.TID = (mem v).tidword_.TID := by
  unfold lockedMem
  split <;> rfl

@[simp] theorem lockedMem_absent (mem : ValuePtr → Value β) (ws : List (WriteElement K β))
    (v : ValuePtr) : (lockedMem mem ws v).tidword_.absent = (mem v).tidword_.absent := by
  unfold lockedMem
  split <;> rfl

/-- A record is locked afterwards for one of two reasons. -/
theorem lockedMem_lock {mem : ValuePtr → Value β} {ws : List (WriteElement K β)} {v : ValuePtr}
    (h : (lockedMem mem ws v).tidword_.lock = true) :
    (mem v).tidword_.lock = true ∨ ∃ we ∈ ws, we.op_ ≠ .INSERT ∧ we.value_ = v := by
  unfold lockedMem at h
  split at h
  · rename_i hv
    exact Or.inr hv
  · exact Or.inl h

theorem lockedMem_of_not_mem {mem : ValuePtr → Value β} {ws : List (WriteElement K β)} {v : ValuePtr}
    (h : v ∉ ws.map (·.value_)) : lockedMem mem ws v = mem v := by
  unfold lockedMem
  rw [if_neg]
  rintro ⟨we, hwe, -, rfl⟩
  exact h (List.mem_map_of_mem hwe)

end

def lockWords (s : State K β) (ws : List (WriteElement K β)) (m : TIDword) : TIDword :=
  (ws.filter (·.op_ ≠ .INSERT)).foldl (fun m we => TIDword.max m (s.tidword we.value_)) m

omit [Inhabited β] in
theorem lockWriteSet_eq (ws : List (WriteElement K β)) :
    ∀ (s : State K β) (before : List (WriteElement K β)), (ws.map (·.value_)).Nodup →
      (∀ we ∈ ws, we.op_ ≠ .INSERT → (s.tidword we.value_).lock = false) →
      lockWriteSet s before ws =
        { s with mem := lockedMem s.mem ws, max_wset_ := lockWords s ws s.max_wset_ } := by
  induction ws with
  | nil =>
    intro s before _ _
    have hmem : lockedMem s.mem ([] : List (WriteElement K β)) = s.mem := by
      funext v
      simp [lockedMem]
    simp [lockWriteSet, hmem, lockWords]
  | cons we rest ih =>
    intro s before hnodup hunlocked
    rw [List.map_cons, List.nodup_cons] at hnodup
    obtain ⟨hnew, hnodup⟩ := hnodup
    have hrest : ∀ we' ∈ rest, we'.value_ ≠ we.value_ := by
      intro we' hwe' he
      exact hnew (List.mem_map.mpr ⟨we', hwe', he⟩)
    by_cases hop : we.op_ = .INSERT
    · have hmem : lockedMem s.mem (we :: rest) = lockedMem s.mem rest := by
        funext v
        simp [lockedMem, hop]
      have hwords : lockWords s (we :: rest) s.max_wset_ = lockWords s rest s.max_wset_ := by
        simp [lockWords, hop]
      rw [lockWriteSet, if_pos hop, ih s _ hnodup fun we' h => hunlocked we' (List.mem_cons_of_mem _ h),
        hmem, hwords]
    · have hlock := hunlocked we List.mem_cons_self hop
      set t : State K β := { s.setTid we.value_ { s.tidword we.value_ with lock := true } with
        max_wset_ := TIDword.max s.max_wset_ (s.tidword we.value_) } with ht
      have hword : ∀ we' ∈ rest, t.tidword we'.value_ = s.tidword we'.value_ := by
        intro we' hwe'
        simp [ht, State.setTid, State.tidword, hrest we' hwe']
      have hmem : lockedMem t.mem rest = lockedMem s.mem (we :: rest) := by
        funext v
        by_cases hv : v = we.value_
        · subst hv
          have hnone : ¬ ∃ we' ∈ rest, we'.op_ ≠ .INSERT ∧ we'.value_ = we.value_ := by
            rintro ⟨we', hwe', -, he⟩
            exact hrest we' hwe' he
          rw [lockedMem, if_neg hnone, lockedMem, if_pos ⟨we, List.mem_cons_self, hop, rfl⟩]
          simp [ht, State.setTid, State.tidword]
        · have hv' : we.value_ ≠ v := fun he => hv he.symm
          simp [lockedMem, ht, State.setTid, hv, hv']
      have hwords : lockWords t rest t.max_wset_ = lockWords s (we :: rest) s.max_wset_ := by
        rw [lockWords, lockWords, List.filter_cons_of_pos (by simpa using hop), List.foldl_cons]
        apply List.foldl_ext
        intro m we' hwe'
        rw [hword we' (List.mem_of_mem_filter hwe')]
      have hstep : lockWriteSet s before (we :: rest) = lockWriteSet t (before ++ [we]) rest := by
        rw [lockWriteSet, if_neg hop]
        simp [hlock, ht]
      rw [hstep, ih t _ hnodup]
      · rw [hmem, hwords]
        rfl
      · intro we' hwe' hop'
        rw [hword we' hwe']
        exact hunlocked we' (List.mem_cons_of_mem _ hwe') hop'

def readWords (s : State K β) (rs : List (ReadElement K)) (m : TIDword) : TIDword :=
  rs.foldl (fun m re => TIDword.max m (s.tidword re.value_)) m

omit [Inhabited β] in
theorem validateReadSet_eq (rs : List (ReadElement K)) :
    ∀ s : State K β, (∀ re ∈ rs, validationFails s re (s.tidword re.value_) = false) →
      validateReadSet s rs =
        ({ s with max_rset_ := readWords s rs s.max_rset_, status_ := .Committed }, true) := by
  induction rs with
  | nil => intro s _; simp [validateReadSet, readWords]
  | cons re rest ih =>
    intro s hs
    have hre := hs re List.mem_cons_self
    rw [validateReadSet, if_neg (by simp [hre]), ih]
    · rfl
    · intro re' hre'
      exact hs re' (List.mem_cons_of_mem _ hre')

/-- No WRITE of the list is reached while the absent bit is carried along: `carried`
is the bit before the list. -/
def Unspoiled : Bool → List OpType → Prop
  | _, [] => True
  | carried, .WRITE :: ops => carried = false ∧ Unspoiled carried ops
  | _, .INSERT :: ops => Unspoiled false ops
  | _, .DELETE :: ops => Unspoiled true ops
  | carried, _ :: ops => Unspoiled carried ops

instance : ∀ (carried : Bool) (ops : List OpType), Decidable (Unspoiled carried ops)
  | _, [] => isTrue trivial
  | carried, .WRITE :: ops =>
    have := instDecidableUnspoiled carried ops
    inferInstanceAs (Decidable (_ ∧ _))
  | _, .INSERT :: ops => instDecidableUnspoiled false ops
  | _, .DELETE :: ops => instDecidableUnspoiled true ops
  | carried, .NONE :: ops => instDecidableUnspoiled carried ops
  | carried, .READ :: ops => instDecidableUnspoiled carried ops
  | carried, .SCAN :: ops => instDecidableUnspoiled carried ops
  | carried, .RMW :: ops => instDecidableUnspoiled carried ops

/-- What the write phase leaves of one element. -/
structure Stored (s s' : State K β) (we : WriteElement K β) : Prop where
  unlocked : (s'.tidword we.value_).lock = false
  body : s'.body we.value_ = if we.op_ = .WRITE then we.new_value_body_ else s.body we.value_
  inserted : we.op_ = .INSERT → (s'.tidword we.value_).absent = false
  deleted : we.op_ = .DELETE → (s'.tidword we.value_).absent = true

/-- `maxtid` after an element. -/
def nextTid (maxtid : TIDword) : OpType → TIDword
  | .INSERT => { maxtid with absent := false }
  | .DELETE => { maxtid with absent := true }
  | _ => maxtid

/-- The record of an element after its turn. -/
def storedValue (s : State K β) (maxtid : TIDword) (we : WriteElement K β) : Value β :=
  ⟨nextTid maxtid we.op_, if we.op_ = .WRITE then we.new_value_body_ else s.body we.value_⟩

omit [Inhabited β] in
theorem writeLoop_cons (s : State K β) (maxtid : TIDword) {we : WriteElement K β}
    (hop : we.op_ = .WRITE ∨ we.op_ = .INSERT ∨ we.op_ = .DELETE) (rest : List (WriteElement K β)) :
    writeLoop s maxtid (we :: rest) =
      writeLoop { s with mem := Function.update s.mem we.value_ (storedValue s maxtid we) }
        (nextTid maxtid we.op_) rest := by
  rcases hop with h | h | h <;>
    simp [writeLoop, h, nextTid, storedValue, State.setTid, State.setBody, State.body]

theorem unspoiled_cons {maxtid : TIDword} {op : OpType} {ops : List OpType}
    (hop : op = .WRITE ∨ op = .INSERT ∨ op = .DELETE) :
    Unspoiled maxtid.absent (op :: ops) ↔
      Unspoiled (nextTid maxtid op).absent ops ∧ (op = .WRITE → maxtid.absent = false) := by
  rcases hop with rfl | rfl | rfl
  · exact ⟨fun h => ⟨h.2, fun _ => h.1⟩, fun h => ⟨h.2 rfl, h.1⟩⟩
  · exact ⟨fun h => ⟨h, by simp⟩, fun h => h.1⟩
  · exact ⟨fun h => ⟨h, by simp⟩, fun h => h.1⟩

omit [Inhabited β] in
theorem writeLoop_eq (ws : List (WriteElement K β)) :
    ∀ (s : State K β) (maxtid : TIDword), (ws.map (·.value_)).Nodup →
      (∀ we ∈ ws, we.op_ = .WRITE ∨ we.op_ = .INSERT ∨ we.op_ = .DELETE) → maxtid.lock = false →
      ∃ mem, writeLoop s maxtid ws = some { s with mem := mem } ∧
        (∀ v, v ∉ ws.map (·.value_) → mem v = s.mem v) ∧
        (∀ we ∈ ws, Stored s { s with mem := mem } we) ∧
        (∀ we ∈ ws, (mem we.value_).tidword_.ver = maxtid.ver) ∧
        (Unspoiled maxtid.absent (ws.map (·.op_)) ↔
          ∀ we ∈ ws, we.op_ = .WRITE → (mem we.value_).tidword_.absent = false) := by
  induction ws with
  | nil =>
    intro s maxtid _ _ _
    exact ⟨s.mem, rfl, by simp, by simp, by simp, by simp [Unspoiled]⟩
  | cons we rest ih =>
    intro s maxtid hnodup hops hlock
    rw [List.map_cons, List.nodup_cons] at hnodup
    obtain ⟨hnew, hnodup⟩ := hnodup
    have hops' : ∀ we' ∈ rest, we'.op_ = .WRITE ∨ we'.op_ = .INSERT ∨ we'.op_ = .DELETE :=
      fun we' h => hops we' (List.mem_cons_of_mem _ h)
    have hop := hops we List.mem_cons_self
    set t : State K β :=
      { s with mem := Function.update s.mem we.value_ (storedValue s maxtid we) } with ht
    have hlock' : (nextTid maxtid we.op_).lock = false := by
      rcases hop with h | h | h <;> simp [nextTid, h, hlock]
    have hver : (nextTid maxtid we.op_).ver = maxtid.ver := by
      rcases hop with h | h | h <;> simp [nextTid, h]
    obtain ⟨mem, hrun, hother, hstored, hvers, hwrites⟩ :=
      ih t (nextTid maxtid we.op_) hnodup hops' hlock'
    have hhead : mem we.value_ = storedValue s maxtid we := by
      rw [hother we.value_ hnew, ht]
      exact Function.update_self ..
    have hne : ∀ we' ∈ rest, we'.value_ ≠ we.value_ := by
      intro we' hwe' he
      exact hnew (List.mem_map.mpr ⟨we', hwe', he⟩)
    have hbody : ∀ we' ∈ rest, t.body we'.value_ = s.body we'.value_ := by
      intro we' hwe'
      simp [ht, State.body, hne we' hwe']
    refine ⟨mem, ?_, ?_, ?_, ?_, ?_⟩
    · rw [writeLoop_cons s maxtid hop, hrun]
    · intro v hv
      rw [List.map_cons, List.mem_cons, not_or] at hv
      rw [hother v hv.2, ht]
      exact Function.update_of_ne hv.1 ..
    · intro we' hwe'
      rcases List.mem_cons.mp hwe' with rfl | hwe'
      · constructor
        · simp [State.tidword, hhead, storedValue, hlock']
        · simp [State.body, hhead, storedValue]
        · intro h
          simp [State.tidword, hhead, storedValue, nextTid, h]
        · intro h
          simp [State.tidword, hhead, storedValue, nextTid, h]
      · have h := hstored we' hwe'
        exact ⟨h.unlocked, by rw [← hbody we' hwe']; exact h.body, h.inserted, h.deleted⟩
    · intro we' hwe'
      rcases List.mem_cons.mp hwe' with rfl | hwe'
      · rw [hhead]
        exact hver
      · rw [hvers we' hwe', hver]
    · have hword : we.op_ = .WRITE → (mem we.value_).tidword_.absent = maxtid.absent := by
        intro hw
        rw [hhead, storedValue, hw]
        rfl
      rw [List.map_cons, unspoiled_cons hop, hwrites]
      constructor
      · rintro ⟨hrest, hcarried⟩ we' hwe' hw
        rcases List.mem_cons.mp hwe' with rfl | hwe'
        · rw [hword hw]
          exact hcarried hw
        · exact hrest we' hwe' hw
      · intro hall
        refine ⟨fun we' hwe' => hall we' (List.mem_cons_of_mem _ hwe'), fun hw => ?_⟩
        rw [← hword hw]
        exact hall we List.mem_cons_self hw

/-- The operations of the write set in the order in which the write phase takes them. -/
def View.commitOps (arrange : List K → List K) (w : View K β) : List OpType :=
  (arrange w.keys).filterMap fun k => (w.own k).map Own.op

/-- The absent bit of no earlier deletion can reach a WRITE of this transaction: the
worker's last TID does not carry it, WRITE and DELETE are on visible records, and no
DELETE comes before a WRITE in the order of the write set without an INSERT between. -/
structure Clean (arrange : List K → List K) (localEpoch : Nat) (s : State K β) (w : View K β) :
    Prop where
  mrctid : s.mrctid_.absent = false
  epoch : localEpoch % 2 ^ 32 ≠ 0
  present : ∀ k o, w.own k = some o → o.isInserted = false → (s.visible k).isSome
  order : Unspoiled false (w.commitOps arrange)

/-- The state after the commit of a transaction that began in `s` and did `w`. -/
structure Finished (s : State K β) (w : View K β) (s' : State K β) : Prop where
  quiescent : Quiescent s'
  record : ∀ k, s'.masstree[k]?.isSome = (s.masstree[k]?.isSome || (w.own k).isSome)
  untouched : ∀ k, w.own k = none → s'.visible k = s.visible k
  inserted : ∀ k b, w.own k = some (.inserted b) → s'.visible k = some b
  deleted : ∀ k, w.own k = some .deleted → s'.visible k = none

/-- No record of the database has the last TID of its epoch. -/
def BelowLastTid (s : State K β) : Prop :=
  ∀ (k : K) v, s.masstree[k]? = some v → (s.tidword v).TID.toNat ≠ 2 ^ 29 - 1

/-- The write set that the commit has logged under `mrctid_`, and the words of the
records. -/
structure Recorded (s : State K β) (w : View K β) (s' : State K β) : Prop where
  nodup : (s'.write_set_.map (·.key_)).Nodup
  owned : ∀ we ∈ s'.write_set_, ∃ o, w.own we.key_ = some o ∧ we.new_value_body_ = o.body ∧
    we.op_ = o.op
  complete : ∀ k, (w.own k).isSome → ∃ we ∈ s'.write_set_, we.key_ = k
  fresh : ∀ k b, w.own k = some (.inserted b) → s.masstree[k]? = none
  word : ∀ k v, (w.own k).isSome → s'.masstree[k]? = some v →
    (s'.tidword v).ver = s'.mrctid_.ver
  kept : ∀ k v, w.own k = none → s.masstree[k]? = some v →
    s'.masstree[k]? = some v ∧ s'.tidword v = s.tidword v
  newer : BelowLastTid s → ∀ k v, (w.own k).isSome → s.masstree[k]? = some v →
    (s.tidword v).ver < s'.mrctid_.ver

namespace Follows

variable {s t : State K β} {w : View K β} {arrange : List K → List K}

theorem write_keys_nodup (h : Follows s w t) : (t.write_set_.map (·.key_)).Nodup := by
  rw [h.keys]
  exact h.nodup

theorem write_values_nodup (h : Follows s w t) : (t.write_set_.map (·.value_)).Nodup := by
  have hnodup := h.write_keys_nodup
  rw [List.nodup_iff_pairwise_ne, List.pairwise_map] at hnodup ⊢
  refine hnodup.imp_of_mem ?_
  intro we we' hwe hwe' hne he
  have h₁ := (h.writes we hwe).1
  have h₂ := (h.writes we' hwe').1
  rw [he] at h₁
  exact hne (h.inj _ _ _ h₁ h₂)

theorem sorted_perm (h : Follows s w t) (harrange : ∀ l, (arrange l).Perm l) :
    (sortWriteSet arrange t.write_set_).Perm t.write_set_ :=
  sortWriteSet_perm harrange h.write_keys_nodup

/-- A record that the transaction did not insert is not locked. -/
theorem unlocked (hq : Quiescent s) (h : Follows s w t) {k : K} {v : ValuePtr}
    (hk : ∀ b, w.own k ≠ some (.inserted b)) (hv : t.masstree[k]? = some v) :
    (t.tidword v).lock = false := by
  obtain ⟨hm, hs⟩ := h.mem_of_tree hq hk hv
  rw [State.tidword, hm]
  exact hq.unlocked k v hs

theorem not_inserted_of_op (h : Follows s w t) {we : WriteElement K β} (hwe : we ∈ t.write_set_)
    (hop : we.op_ ≠ .INSERT) : ∀ b, w.own we.key_ ≠ some (.inserted b) := by
  intro b hb
  obtain ⟨-, o, ho, -, hop'⟩ := h.writes we hwe
  rw [hb, Option.some.injEq] at ho
  subst ho
  exact hop hop'

omit [Inhabited β] in
theorem absent_of_visible {k : K} {v : ValuePtr} (hv : s.masstree[k]? = some v)
    (hk : (s.visible k).isSome) : (s.tidword v).absent = false := by
  rw [visible_of_tree hv] at hk
  split at hk
  · simp at hk
  · rename_i habs
    simpa using habs

theorem tid_below (hq : Quiescent s) (h : Follows s w t) (hbelow : BelowLastTid s) {k : K}
    {v : ValuePtr} (hv : t.masstree[k]? = some v) : (t.tidword v).TID.toNat ≠ 2 ^ 29 - 1 := by
  by_cases hins : ∃ b, w.own k = some (.inserted b)
  · obtain ⟨b, hb⟩ := hins
    obtain ⟨-, v', hv', -, hm⟩ := h.tree_new k b hb
    obtain rfl : v = v' := Option.some.inj (hv.symm.trans hv')
    simp [State.tidword, hm, TIDword.init, TIDword.new]
  · rw [not_exists] at hins
    obtain ⟨hm, hs⟩ := h.mem_of_tree hq hins hv
    rw [State.tidword, hm]
    exact hbelow k v hs

/-- Nothing that `validationPhase` compares has changed since it was read. -/
theorem validates (hq : Quiescent s) (h : Follows s w t) (harrange : ∀ l, (arrange l).Perm l)
    {l : State K β} (hl : l.mem = lockedMem t.mem (sortWriteSet arrange t.write_set_))
    (hws : l.write_set_ = sortWriteSet arrange t.write_set_) :
    ∀ re ∈ t.read_set_, validationFails l re (l.tidword re.value_) = false := by
  intro re hre
  obtain ⟨htree, hword, hop⟩ := h.reads re hre
  have hperm := h.sorted_perm harrange
  have hown : (l.tidword re.value_).lock = true → ∃ we ∈ t.write_set_, we.key_ = re.key_ := by
    intro hlock
    rw [State.tidword, hl] at hlock
    rcases lockedMem_lock hlock with hlock | ⟨we, hwe, -, hval⟩
    · have hnot : ¬ ∀ b, w.own re.key_ ≠ some (.inserted b) := by
        intro hk
        have := h.unlocked hq hk htree
        simp [State.tidword, hlock] at this
      push Not at hnot
      obtain ⟨b, hb⟩ := hnot
      have hkey : re.key_ ∈ w.keys := by simp [h.mem_keys, hb]
      rwa [← h.keys, List.mem_map] at hkey
    · have hwe' := hperm.mem_iff.mp hwe
      refine ⟨we, hwe', ?_⟩
      have htree' := (h.writes we hwe').1
      rw [hval] at htree'
      exact h.inj _ _ _ htree' htree
  have hsearch : (l.tidword re.value_).lock = true →
      (searchWriteSet l.write_set_ re.key_).isNone = false := by
    intro hlock
    obtain ⟨we, hwe, hkey⟩ := hown hlock
    rw [hws, Option.isNone_eq_false_iff, searchWriteSet_isSome]
    exact ⟨we, hperm.mem_iff.mpr hwe, hkey⟩
  have hepoch : (l.tidword re.value_).epoch = re.tidword_.epoch := by
    rw [hword, State.tidword, hl, lockedMem_epoch, State.tidword]
  have hTID : (l.tidword re.value_).TID = re.tidword_.TID := by
    rw [hword, State.tidword, hl, lockedMem_TID, State.tidword]
  cases hlock : (l.tidword re.value_).lock with
  | false => simp [validationFails, hop, hepoch, hTID, hlock]
  | true => simp [validationFails, hop, hepoch, hTID, hlock, hsearch hlock]

/-- `validationPhase` always lets the transaction through. -/
theorem validationPhase_eq (hq : Quiescent s) (h : Follows s w t)
    (harrange : ∀ l, (arrange l).Perm l) :
    ∃ r m, validationPhase arrange t =
        ({ t with write_set_ := sortWriteSet arrange t.write_set_
                  mem := lockedMem t.mem (sortWriteSet arrange t.write_set_)
                  max_rset_ := r, max_wset_ := m, status_ := .Committed }, true) ∧
      (∀ we ∈ t.write_set_, we.op_ ≠ .INSERT → (t.tidword we.value_).ver ≤ m.ver) ∧
      (BelowLastTid s → r.TID.toNat ≠ 2 ^ 29 - 1 ∧ m.TID.toNat ≠ 2 ^ 29 - 1) ∧
      ((∀ k o, w.own k = some o → o.isInserted = false → (s.visible k).isSome) →
        r.Harmless ∧ m.Harmless) := by
  set sorted := sortWriteSet arrange t.write_set_ with hsorted
  have hperm : sorted.Perm t.write_set_ := h.sorted_perm harrange
  set t₁ : State K β := { t with write_set_ := sorted } with ht₁
  have hlock : lockWriteSet t₁ [] sorted =
      { t₁ with mem := lockedMem t.mem sorted, max_wset_ := lockWords t₁ sorted t.max_wset_ } := by
    apply lockWriteSet_eq
    · exact (hperm.map _).nodup_iff.mpr h.write_values_nodup
    · intro we hwe hop
      have hwe' := hperm.mem_iff.mp hwe
      exact h.unlocked hq (h.not_inserted_of_op hwe' hop) (h.writes we hwe').1
  set t₂ : State K β :=
    { t₁ with mem := lockedMem t.mem sorted, max_wset_ := lockWords t₁ sorted t.max_wset_ } with ht₂
  have hvalid : validateReadSet t₂ t₂.read_set_ =
      ({ t₂ with max_rset_ := readWords t₂ t₂.read_set_ t₂.max_rset_, status_ := .Committed }, true) :=
    validateReadSet_eq _ _ (h.validates hq harrange rfl rfl)
  refine ⟨readWords t₂ t₂.read_set_ t₂.max_rset_, lockWords t₁ sorted t.max_wset_, ?_, ?_, ?_, ?_⟩
  · rw [validationPhase]
    simp only [← hsorted, ← ht₁]
    rw [hlock, hvalid]
  · intro we hwe hop
    have hmem : we ∈ sorted.filter (·.op_ ≠ .INSERT) :=
      List.mem_filter.mpr ⟨hperm.mem_iff.mpr hwe, by simpa using hop⟩
    exact (TIDword.ver_le_foldl_max (f := fun we => t₁.tidword we.value_)).2 we hmem
  · intro hbelow
    constructor
    · refine TIDword.foldl_max (P := fun x => x.TID.toNat ≠ 2 ^ 29 - 1) ?_ ?_
      · simp [ht₂, ht₁, h.max_rset, TIDword.zero]
      · intro re hre
        have hword : (t₂.tidword re.value_).TID = (t.tidword re.value_).TID := lockedMem_TID ..
        rw [hword]
        exact h.tid_below hq hbelow (h.reads re hre).1
    · refine TIDword.foldl_max (P := fun x => x.TID.toNat ≠ 2 ^ 29 - 1) ?_ ?_
      · simp [h.max_wset, TIDword.zero]
      · intro we hwe
        have hwe' := hperm.mem_iff.mp (List.mem_of_mem_filter hwe)
        exact h.tid_below hq hbelow (h.writes we hwe').1
  · intro hpresent
    have hzero : TIDword.zero.Harmless := TIDword.harmless_of_present rfl
    constructor
    · refine TIDword.foldl_max (P := TIDword.Harmless) (by rw [ht₂]; simpa [ht₁, h.max_rset] using hzero) ?_
      intro re hre
      obtain ⟨htree, -, -⟩ := h.reads re hre
      by_cases hins : ∃ b, w.own re.key_ = some (.inserted b)
      · obtain ⟨b, hb⟩ := hins
        obtain ⟨-, v, hv, -, hm⟩ := h.tree_new _ b hb
        obtain rfl : re.value_ = v := Option.some.inj (htree.symm.trans hv)
        intro _
        simp [ht₂, State.tidword, hm, TIDword.init, TIDword.new]
      · have hvis := (h.seen_visible _ ((h.seen _).mpr ⟨re, hre, rfl⟩)).resolve_left hins
        rw [not_exists] at hins
        obtain ⟨hm, hs⟩ := h.mem_of_tree hq hins htree
        apply TIDword.harmless_of_present
        have habs := absent_of_visible hs hvis
        simpa [ht₂, State.tidword, hm] using habs
    · refine TIDword.foldl_max (P := TIDword.Harmless) (by simpa [h.max_wset] using hzero) ?_
      intro we hwe
      obtain ⟨hwe, hop⟩ := List.mem_filter.mp hwe
      have hop' : we.op_ ≠ .INSERT := by simpa using hop
      have hwe' := hperm.mem_iff.mp hwe
      obtain ⟨htree, o, ho, -, hopo⟩ := h.writes we hwe'
      have hins : o.isInserted = false := by
        cases o <;> simp_all [Own.isInserted, Own.op]
      obtain ⟨hm, hs⟩ := h.mem_of_tree hq (h.not_inserted_of_op hwe' hop') htree
      apply TIDword.harmless_of_present
      have habs := absent_of_visible hs (hpresent _ o ho hins)
      simpa [ht₁, State.tidword, hm] using habs

theorem element_of_own (h : Follows s w t) {k : K} {o : Own β} (hk : w.own k = some o) :
    ∃ we ∈ t.write_set_, we.key_ = k ∧ t.masstree[k]? = some we.value_ ∧
      we.new_value_body_ = o.body ∧ we.op_ = o.op := by
  have hkey : k ∈ w.keys := by simp [h.mem_keys, hk]
  rw [← h.keys, List.mem_map] at hkey
  obtain ⟨we, hwe, rfl⟩ := hkey
  obtain ⟨htree, o', ho', hbody, hop⟩ := h.writes we hwe
  obtain rfl : o = o' := Option.some.inj (hk.symm.trans ho')
  exact ⟨we, hwe, rfl, htree, hbody, hop⟩

theorem value_not_written (h : Follows s w t) {k : K} {v : ValuePtr} (hk : w.own k = none)
    (hv : t.masstree[k]? = some v) : v ∉ t.write_set_.map (·.value_) := by
  rw [List.mem_map]
  rintro ⟨we, hwe, rfl⟩
  obtain ⟨htree, o, ho, -⟩ := h.writes we hwe
  rw [h.inj _ _ _ htree hv, hk] at ho
  cases ho

theorem map_op_sorted (h : Follows s w t) :
    (sortWriteSet arrange t.write_set_).map (·.op_) = w.commitOps arrange := by
  rw [sortWriteSet, List.map_filterMap, h.keys, View.commitOps]
  congr 1
  funext k
  have hown := h.searchWriteSet_isSome_iff k
  cases hw : searchWriteSet t.write_set_ k with
  | some we =>
    obtain ⟨-, -, o, ho, -, hop⟩ := h.searchWriteSet_eq hw
    simp [ho, hop]
  | none =>
    rw [hw, Option.isSome_none] at hown
    have hnone : w.own k = none := by simpa using hown.symm
    simp [hnone]

theorem record_eq (h : Follows s w t) (k : K) :
    t.masstree[k]?.isSome = (s.masstree[k]?.isSome || (w.own k).isSome) := by
  cases hk : w.own k with
  | none => simp [h.tree_of_own_none hk]
  | some o =>
    obtain ⟨we, -, -, htree, -⟩ := h.element_of_own hk
    simp [htree]

/-- What `writePhase` has to leave for the commit to have its effect: other records stay, and each
record of the write set is stored. -/
theorem finished {s₁ s' : State K β} (hq : Quiescent s) (h : Follows s w t) (htree : s'.masstree = t.masstree)
    (hnext : s'.next = t.next) (hbody : ∀ v, s₁.body v = t.body v)
    (hold : ∀ k v, w.own k = none → t.masstree[k]? = some v → s'.mem v = s.mem v)
    (hstored : ∀ k o, w.own k = some o →
      ∃ we, t.masstree[k]? = some we.value_ ∧ we.op_ = o.op ∧ Stored s₁ s' we) : Finished s w s' := by
  constructor
  · constructor
    · intro k v hv
      rw [hnext]
      exact h.below k v (htree ▸ hv)
    · intro k k' v hv hv'
      exact h.inj k k' v (htree ▸ hv) (htree ▸ hv')
    · intro k v hv
      rw [htree] at hv
      cases hk : w.own k with
      | none =>
        rw [State.tidword, hold k v hk hv]
        exact hq.unlocked k v (h.mem_of_tree hq (by simp [hk]) hv).2
      | some o =>
        obtain ⟨we, hwe, -, hst⟩ := hstored k o hk
        obtain rfl : v = we.value_ := Option.some.inj (hv.symm.trans hwe)
        exact hst.unlocked
  · rw [htree]
    exact h.record_eq
  · intro k hk
    cases hv : s.masstree[k]? with
    | none =>
      have hv' : s'.masstree[k]? = none := htree ▸ (h.tree_of_own_none hk).trans hv
      rw [visible_of_tree_none hv, visible_of_tree_none hv']
    | some v =>
      have hv' : t.masstree[k]? = some v := (h.tree_of_own_none hk).trans hv
      rw [visible_of_tree hv, visible_of_tree (s := s') (htree ▸ hv'), State.tidword, State.body,
        State.tidword, State.body, hold k v hk hv']
  · intro k b hk
    obtain ⟨we, hwe, hop, hst⟩ := hstored k _ hk
    obtain ⟨-, v, hv, -, hm⟩ := h.tree_new k b hk
    obtain rfl : v = we.value_ := Option.some.inj (hv.symm.trans hwe)
    rw [visible_of_tree (s := s') (htree ▸ hwe), hst.inserted hop, hst.body, hop, hbody]
    simp [State.body, hm, Own.op]
  · intro k hk
    obtain ⟨we, hwe, hop, hst⟩ := hstored k _ hk
    rw [visible_of_tree (s := s') (htree ▸ hwe), hst.deleted hop]
    rfl

/-- The commit TID is newer than the records that are overwritten. -/
theorem newer (hq : Quiescent s) (h : Follows s w t) {r m : TIDword} (localEpoch : Nat)
    (hwords : ∀ we ∈ t.write_set_, we.op_ ≠ .INSERT → (t.tidword we.value_).ver ≤ m.ver)
    (hr : r.TID.toNat ≠ 2 ^ 29 - 1) (hm : m.TID.toNat ≠ 2 ^ 29 - 1) {k : K} {v : ValuePtr}
    (hk : (w.own k).isSome) (hv : s.masstree[k]? = some v) :
    (s.tidword v).ver < (commitTid r m t.mrctid_ localEpoch).ver := by
  obtain ⟨o, ho⟩ := Option.isSome_iff_exists.mp hk
  have hnot : ∀ b, w.own k ≠ some (.inserted b) := by
    intro b hb
    rw [(h.tree_new k b hb).1] at hv
    cases hv
  obtain ⟨we, hwe, -, htree, -, hop⟩ := h.element_of_own ho
  have hopi : we.op_ ≠ .INSERT := by
    rw [hop]
    cases o with
    | inserted b => exact absurd ho (hnot b)
    | written b => simp [Own.op]
    | deleted => simp [Own.op]
  have hvt : t.masstree[k]? = some v := (h.tree_old k hnot).trans hv
  obtain rfl : v = we.value_ := Option.some.inj (hvt.symm.trans htree)
  have hword : s.tidword we.value_ = t.tidword we.value_ :=
    congrArg Value.tidword_ (h.mem_of_tree hq hnot hvt).1.symm
  have hmax : (TIDword.max r m).TID.toNat ≠ 2 ^ 29 - 1 := by
    rcases TIDword.max_cases r m with ⟨he, -⟩ | ⟨he, -⟩
    · rw [he]; exact hr
    · rw [he]; exact hm
  rw [hword]
  exact Nat.lt_of_le_of_lt (hwords we hwe hopi) (ver_lt_commitTid t.mrctid_ localEpoch hmax).2

/-- The commit of a transaction that runs alone. -/
theorem commits (hq : Quiescent s) (h : Follows s w t) (harrange : ∀ l, (arrange l).Perm l)
    (localEpoch : Nat) :
    ∃ s₁ s', validationPhase arrange t = (s₁, true) ∧ writePhase s₁ localEpoch = some s' ∧
      Finished s w s' ∧ Recorded s w s' ∧
      (Clean arrange localEpoch s w → s'.mrctid_.absent = false ∧
        ∀ k b, w.own k = some (.written b) → s'.visible k = some b) := by
  obtain ⟨r, m, hvalid, hwords, hbelow, hharmless⟩ := h.validationPhase_eq hq harrange
  set sorted := sortWriteSet arrange t.write_set_ with hsorted
  have hperm : sorted.Perm t.write_set_ := h.sorted_perm harrange
  set maxtid := commitTid r m t.mrctid_ localEpoch with hmaxtid
  have hops : ∀ we ∈ sorted, we.op_ = .WRITE ∨ we.op_ = .INSERT ∨ we.op_ = .DELETE := by
    intro we hwe
    obtain ⟨-, o, -, -, hop⟩ := h.writes we (hperm.mem_iff.mp hwe)
    cases o <;> simp [hop, Own.op]
  set s₁ : State K β := { t with write_set_ := sorted, mem := lockedMem t.mem sorted,
                                 max_rset_ := r, max_wset_ := m, status_ := .Committed } with hs₁
  obtain ⟨mem, hloop, hother, hstored, hvers, hwrites⟩ :=
    writeLoop_eq sorted { s₁ with mrctid_ := maxtid } maxtid
      ((hperm.map _).nodup_iff.mpr h.write_values_nodup) hops rfl
  set s' : State K β := { s₁ with mrctid_ := maxtid, mem := mem } with hs'
  have hold : ∀ k v, w.own k = none → t.masstree[k]? = some v → mem v = s.mem v := by
    intro k v hk hv
    have hnot : v ∉ sorted.map (·.value_) := fun hmem =>
      h.value_not_written hk hv ((hperm.map _).mem_iff.mp hmem)
    rw [hother v hnot]
    change lockedMem t.mem sorted v = _
    rw [lockedMem_of_not_mem hnot]
    exact (h.mem_of_tree hq (by simp [hk]) hv).1
  have hstored' : ∀ k o, w.own k = some o → ∃ we ∈ sorted, t.masstree[k]? = some we.value_ ∧
      we.new_value_body_ = o.body ∧ we.op_ = o.op ∧ Stored s₁ s' we := by
    intro k o hk
    obtain ⟨we, hwe, -, htree, hbody, hop⟩ := h.element_of_own hk
    have hwe' := hperm.mem_iff.mpr hwe
    have hst := hstored we hwe'
    exact ⟨we, hwe', htree, hbody, hop, ⟨hst.unlocked, hst.body, hst.inserted, hst.deleted⟩⟩
  refine ⟨s₁, s', hvalid, hloop, ?_, ?_, ?_⟩
  · have hbody : ∀ v, s₁.body v = t.body v := by
      intro v
      simp [hs₁, State.body]
    refine h.finished hq rfl rfl hbody hold ?_
    intro k o hk
    obtain ⟨we, -, htree, -, hop, hst⟩ := hstored' k o hk
    exact ⟨we, htree, hop, hst⟩
  · constructor
    · exact (hperm.map _).nodup_iff.mpr h.write_keys_nodup
    · intro we hwe
      exact (h.writes we (hperm.mem_iff.mp hwe)).2
    · intro k hk
      obtain ⟨o, ho⟩ := Option.isSome_iff_exists.mp hk
      obtain ⟨we, hwe, hkey, -⟩ := h.element_of_own ho
      exact ⟨we, hperm.mem_iff.mpr hwe, hkey⟩
    · intro k b hb
      exact (h.tree_new k b hb).1
    · intro k v hk hv
      obtain ⟨o, ho⟩ := Option.isSome_iff_exists.mp hk
      obtain ⟨we, hwe, htree, -⟩ := hstored' k o ho
      obtain rfl : v = we.value_ := Option.some.inj (hv.symm.trans htree)
      exact hvers we hwe
    · intro k v hk hv
      have hv' : t.masstree[k]? = some v := (h.tree_of_own_none hk).trans hv
      exact ⟨hv', congrArg Value.tidword_ (hold k v hk hv')⟩
    · intro hlast k v hk hv
      exact h.newer hq localEpoch hwords (hbelow hlast).1 (hbelow hlast).2 hk hv
  · intro hclean
    obtain ⟨hr, hm⟩ := hharmless hclean.present
    have habs : maxtid.absent = false :=
      commitTid_absent hr hm (by rw [h.mrctid]; exact hclean.mrctid) hclean.epoch
    refine ⟨habs, ?_⟩
    intro k b hk
    obtain ⟨we, hwe, htree, hbody, hop, hst⟩ := hstored' k _ hk
    have hun : Unspoiled maxtid.absent (sorted.map (·.op_)) := by
      rw [habs, hsorted, h.map_op_sorted]
      exact hclean.order
    have hpresent : (s'.tidword we.value_).absent = false := hwrites.mp hun we hwe hop
    rw [visible_of_tree (s := s') htree, hpresent, hst.body, hop, hbody]
    rfl

end Follows

/-- The database of `s'` is that of `s`. -/
structure Restored (s s' : State K β) : Prop where
  tree : ∀ k : K, s'.masstree[k]? = s.masstree[k]?
  mem : ∀ v, v < s.next → s'.mem v = s.mem v
  next_le : s.next ≤ s'.next
  mrctid : s'.mrctid_ = s.mrctid_

section
omit [Inhabited β]

theorem Restored.quiescent {s s' : State K β} (h : Restored s s') (hq : Quiescent s) :
    Quiescent s' where
  below := fun k v hv => Nat.lt_of_lt_of_le (hq.below k v (by rw [← h.tree k, hv])) h.next_le
  inj := by
    intro k k' v h₁ h₂
    rw [h.tree] at h₁ h₂
    exact hq.inj k k' v h₁ h₂
  unlocked := by
    intro k v hv
    rw [h.tree] at hv
    rw [State.tidword, h.mem v (hq.below k v hv)]
    exact hq.unlocked k v hv

theorem Restored.visible {s s' : State K β} (h : Restored s s') (hq : Quiescent s) (k : K) :
    s'.visible k = s.visible k := by
  cases hv : s.masstree[k]? with
  | none => rw [visible_of_tree_none hv, visible_of_tree_none ((h.tree k).trans hv)]
  | some v =>
    rw [visible_of_tree hv, visible_of_tree ((h.tree k).trans hv), State.tidword, State.body,
      h.mem v (hq.below k v hv), State.tidword, State.body]

theorem getElem?_eraseAll (ws : List (WriteElement K β)) (k : K) :
    ∀ tree : Std.TreeMap K ValuePtr,
      (ws.foldl (fun tree we => if we.op_ = .INSERT then tree.erase we.key_ else tree) tree)[k]? =
        if ∃ we ∈ ws, we.op_ = .INSERT ∧ we.key_ = k then none else tree[k]? := by
  induction ws with
  | nil => intro tree; simp
  | cons we rest ih =>
    intro tree
    rw [List.foldl_cons, ih]
    by_cases hrest : ∃ we' ∈ rest, we'.op_ = .INSERT ∧ we'.key_ = k
    · obtain ⟨we', hwe', hop⟩ := hrest
      rw [if_pos ⟨we', hwe', hop⟩, if_pos ⟨we', List.mem_cons_of_mem _ hwe', hop⟩]
    · rw [if_neg hrest]
      by_cases hop : we.op_ = .INSERT
      · rw [if_pos hop, Std.TreeMap.getElem?_erase]
        by_cases hk : we.key_ = k
        · simp [hk, hop]
        · rw [if_neg (by simpa using hk), if_neg]
          rintro ⟨we', hwe', hop', hk'⟩
          rcases List.mem_cons.mp hwe' with rfl | hwe'
          · exact hk hk'
          · exact hrest ⟨we', hwe', hop', hk'⟩
      · rw [if_neg hop, if_neg]
        rintro ⟨we', hwe', hop', hk'⟩
        rcases List.mem_cons.mp hwe' with rfl | hwe'
        · exact hop hop'
        · exact hrest ⟨we', hwe', hop', hk'⟩

end

theorem Follows.abort {s t : State K β} {w : View K β} (h : Follows s w t) :
    Restored s (abort t) where
  tree := by
    intro k
    change (t.write_set_.foldl _ t.masstree)[k]? = _
    rw [getElem?_eraseAll]
    split
    · rename_i hins
      obtain ⟨we, hwe, hop, rfl⟩ := hins
      obtain ⟨-, o, ho, -, hop'⟩ := h.writes we hwe
      cases o with
      | inserted b => exact (h.tree_new _ b ho).1.symm
      | written b => simp [hop, Own.op] at hop'
      | deleted => simp [hop, Own.op] at hop'
    · rename_i hins
      apply h.tree_old
      intro b hb
      obtain ⟨we, hwe, hkey, -, -, hop⟩ := h.element_of_own hb
      exact hins ⟨we, hwe, hop, hkey⟩
  mem := h.mem_old
  next_le := h.next_le
  mrctid := h.mrctid

section

variable {arrange : List K → List K}

/-- A request whose operations are all accepted is committed at the first attempt. -/
theorem execute_transaction_accepted (harrange : ∀ l, (arrange l).Perm l) {s : State K β}
    (hq : Quiescent s) (localEpoch : Nat) (epochs : List Nat) {pro_set_ : List (Procedure K β)}
    {w : View K β} (hw : View.after s pro_set_ = some w) :
    ∃ s', execute_transaction arrange (localEpoch :: epochs) s pro_set_ = some (0, s', []) ∧
      Finished s w s' ∧ Recorded s w s' ∧
      (Clean arrange localEpoch s w → s'.mrctid_.absent = false ∧
        ∀ k b, w.own k = some (.written b) → s'.visible k = some b) := by
  obtain ⟨t, hexec, hf⟩ := Follows.executeAll_accepted hq (Follows.begin hq) hw
  obtain ⟨s₁, s', hvalid, hwrite, hfin, hrec, hclean⟩ := hf.commits hq harrange localEpoch
  refine ⟨s', ?_, hfin, hrec, hclean⟩
  simp [execute_transaction, attempt, hexec, hvalid, hwrite]

/-- A request with a refused operation returns -2 and leaves the database as it was. -/
theorem execute_transaction_refused (arrange : List K → List K) {s : State K β}
    (hq : Quiescent s) (localEpoch : Nat) (epochs : List Nat) {pro_set_ : List (Procedure K β)} (hw : View.after s pro_set_ = none) :
    ∃ s' lines, execute_transaction arrange (localEpoch :: epochs) s pro_set_ = some (-2, s', lines) ∧
      Restored s s' := by
  obtain ⟨status, lines, t, w, hne, hexec, hf⟩ :=
    Follows.executeAll_refused hq (Follows.begin hq) hw
  refine ⟨Serial.abort t, lines ++ [.aborted], ?_, hf.abort⟩
  cases status with
  | OK => exact absurd rfl hne
  | WARN_ALREADY_EXISTS => simp [execute_transaction, attempt, hexec]
  | WARN_NOT_FOUND => simp [execute_transaction, attempt, hexec]
  | ERROR_CONCURRENT_WRITE_OR_DELETE => simp [execute_transaction, attempt, hexec]

theorem Reachable.quiescent (harrange : ∀ l, (arrange l).Perm l) {s : State K β}
    (hs : Reachable arrange s) : Quiescent s := by
  induction hs with
  | new =>
    constructor <;> simp [State.new]
  | @step s s' epochs pro_set_ result lines _ hrun hq =>
    cases epochs with
    | nil => simp [execute_transaction] at hrun
    | cons localEpoch epochs =>
      cases hw : View.after s pro_set_ with
      | none =>
        obtain ⟨s'', lines', hrun', hrestored⟩ :=
          execute_transaction_refused arrange hq localEpoch epochs hw
        rw [hrun', Option.some.injEq, Prod.mk.injEq, Prod.mk.injEq] at hrun
        rw [← hrun.2.1]
        exact hrestored.quiescent hq
      | some w =>
        obtain ⟨s'', hrun', hfin, -⟩ := execute_transaction_accepted harrange hq localEpoch epochs hw
        rw [hrun', Option.some.injEq, Prod.mk.injEq, Prod.mk.injEq] at hrun
        rw [← hrun.2.1]
        exact hfin.quiescent

end

end Cassa.SiloCC.Serial

import Cassa.SiloCC.Serial

/-!
# What a transaction has done so far, in its own terms

A `View` remembers, for a transaction that began in a given state, the first
operation on each key, the keys it has seen and the body it fetched last.
`View.next` says in these terms which operations are accepted. `Follows` connects a
view with the read set, the write set and the records of the running transaction.
-/

namespace Cassa.SiloCC.Serial

variable {K β : Type} [LinearOrder K] [Inhabited β]

/-- The first operation of a transaction on a key. `write` and `tx_delete` ignore the
later ones, following CCBench's write specification. -/
inductive Own (β : Type) where
  | inserted (b : β)
  | written (b : β)
  | deleted
  deriving DecidableEq

def Own.op : Own β → OpType
  | .inserted _ => .INSERT
  | .written _ => .WRITE
  | .deleted => .DELETE

/-- The body that the write set keeps. -/
def Own.body : Own β → β
  | .inserted b => b
  | .written b => b
  | .deleted => default

def Own.isInserted : Own β → Bool
  | .inserted _ => true
  | _ => false

structure View (K β : Type) where
  own : K → Option (Own β)
  /-- the keys of `own`, in the order of their first operation -/
  keys : List K
  /-- the keys that were read or scanned while visible, or inserted -/
  seen : K → Bool
  /-- the body of the last READ that went to a record -/
  fetched : β

def View.start : View K β := ⟨fun _ => none, [], fun _ => false, default⟩

def View.touched (w : View K β) (k : K) : Bool := w.seen k || (w.own k).isSome

def View.claim (w : View K β) (k : K) (o : Own β) : View K β :=
  { w with own := Function.update w.own k (some o), keys := w.keys ++ [k] }

def View.see (w : View K β) (added : K → Bool) : View K β :=
  { w with seen := fun k => w.seen k || added k }

/-- An operation of a transaction that began in `s`; `none` is a refusal. -/
def View.next (s : State K β) (w : View K β) : Procedure K β → Option (View K β)
  | .INSERT k b =>
    if (w.own k).isSome || s.masstree[k]?.isSome then none
    else some ((w.claim k (.inserted b)).see (· == k))
  | .WRITE k b =>
    if (w.own k).isSome then some w
    else if s.masstree[k]?.isSome then some (w.claim k (.written b))
    else none
  | .DELETE k =>
    match w.own k with
    | some o => if o.isInserted then none else some w
    | none => if s.masstree[k]?.isSome then some (w.claim k .deleted) else none
  | .READ k =>
    if w.touched k then some w
    else match s.visible k with
      | none => none
      | some b => some { w.see (· == k) with fetched := b }
  | .SCAN l lx r rx =>
    some (w.see fun k => inRange l lx r rx k && (w.own k).isNone && (s.visible k).isSome)

def View.after (s : State K β) (ps : List (Procedure K β)) : Option (View K β) :=
  ps.foldlM (View.next s) View.start

/-- The body that `scan` finds in a local set for a key that the transaction has
touched: that of the record for the read set, that of the operation for the write set. -/
def View.scanned (s : State K β) (w : View K β) (k : K) : β :=
  match w.own k with
  | some (.inserted b) => b
  | some o => if w.seen k then (s.visible k).getD default else o.body
  | none => (s.visible k).getD default

/-- No record is locked and no two keys share one: what holds between two requests. -/
structure Quiescent (s : State K β) : Prop where
  below : ∀ (k : K) v, s.masstree[k]? = some v → v < s.next
  inj : ∀ (k k' : K) v, s.masstree[k]? = some v → s.masstree[k']? = some v → k = k'
  unlocked : ∀ (k : K) v, s.masstree[k]? = some v → (s.tidword v).lock = false

/-- The state `t` of a transaction that began in `s` and has done `w`. -/
structure Follows (s : State K β) (w : View K β) (t : State K β) : Prop where
  mrctid : t.mrctid_ = s.mrctid_
  max_rset : t.max_rset_ = .zero
  max_wset : t.max_wset_ = .zero
  next_le : s.next ≤ t.next
  below : ∀ (k : K) v, t.masstree[k]? = some v → v < t.next
  inj : ∀ (k k' : K) v, t.masstree[k]? = some v → t.masstree[k']? = some v → k = k'
  mem_old : ∀ v, v < s.next → t.mem v = s.mem v
  tree_old : ∀ k, (∀ b, w.own k ≠ some (.inserted b)) → t.masstree[k]? = s.masstree[k]?
  tree_new : ∀ k b, w.own k = some (.inserted b) →
    s.masstree[k]? = none ∧ ∃ v, t.masstree[k]? = some v ∧ s.next ≤ v ∧ t.mem v = ⟨TIDword.new.init, b⟩
  keys : t.write_set_.map (·.key_) = w.keys
  nodup : w.keys.Nodup
  mem_keys : ∀ k, k ∈ w.keys ↔ (w.own k).isSome
  writes : ∀ we ∈ t.write_set_, t.masstree[we.key_]? = some we.value_ ∧
    ∃ o, w.own we.key_ = some o ∧ we.new_value_body_ = o.body ∧ we.op_ = o.op
  reads : ∀ re ∈ t.read_set_, t.masstree[re.key_]? = some re.value_ ∧
    re.tidword_ = t.tidword re.value_ ∧ re.op_ = .READ
  seen : ∀ k, w.seen k = true ↔ ∃ re ∈ t.read_set_, re.key_ = k
  seen_visible : ∀ k, w.seen k = true → (∃ b, w.own k = some (.inserted b)) ∨ (s.visible k).isSome
  fetched : t.read_value = w.fetched

theorem searchReadSet_some {rs : List (ReadElement K)} {k : K} {re : ReadElement K}
    (h : searchReadSet rs k = some re) : re ∈ rs ∧ re.key_ = k :=
  ⟨List.mem_of_find?_eq_some h, by simpa using List.find?_some h⟩

theorem searchReadSet_isSome {rs : List (ReadElement K)} {k : K} :
    (searchReadSet rs k).isSome ↔ ∃ re ∈ rs, re.key_ = k := by
  simp [searchReadSet, List.find?_isSome]

namespace Follows

variable {s t : State K β} {w : View K β}

theorem begin (hq : Quiescent s) : Follows s View.start s.begin where
  mrctid := rfl
  max_rset := rfl
  max_wset := rfl
  next_le := Nat.le_refl _
  below := hq.below
  inj := hq.inj
  mem_old := fun _ _ => rfl
  tree_old := fun _ _ => rfl
  tree_new := by simp [View.start]
  keys := rfl
  nodup := List.nodup_nil
  mem_keys := by simp [View.start]
  writes := by simp [State.begin]
  reads := by simp [State.begin]
  seen := by simp [View.start, State.begin]
  seen_visible := by simp [View.start]
  fetched := rfl

theorem searchWriteSet_isSome_iff (h : Follows s w t) (k : K) :
    (searchWriteSet t.write_set_ k).isSome = (w.own k).isSome := by
  rw [Bool.eq_iff_iff, searchWriteSet_isSome, ← h.mem_keys, ← h.keys, List.mem_map]

theorem searchReadSet_isSome_iff (h : Follows s w t) (k : K) :
    (searchReadSet t.read_set_ k).isSome = w.seen k := by
  rw [Bool.eq_iff_iff, searchReadSet_isSome, h.seen]

theorem searchWriteSet_eq (h : Follows s w t) {k : K} {we : WriteElement K β}
    (hs : searchWriteSet t.write_set_ k = some we) :
    we.key_ = k ∧ t.masstree[k]? = some we.value_ ∧
      ∃ o, w.own k = some o ∧ we.new_value_body_ = o.body ∧ we.op_ = o.op := by
  obtain ⟨hmem, rfl⟩ := searchWriteSet_some hs
  exact ⟨rfl, h.writes we hmem⟩

theorem searchReadSet_eq (h : Follows s w t) {k : K} {re : ReadElement K}
    (hs : searchReadSet t.read_set_ k = some re) : t.masstree[k]? = some re.value_ := by
  obtain ⟨hmem, rfl⟩ := searchReadSet_some hs
  exact (h.reads re hmem).1

/-- `write` and `tx_delete` get the record of the tree, wherever they look first. -/
theorem findValue_eq (h : Follows s w t) (k : K) : findValue t k = t.masstree[k]? := by
  unfold findValue
  split
  · rename_i re hre
    exact (h.searchReadSet_eq hre).symm
  · rfl

theorem tree_of_own_none (h : Follows s w t) {k : K} (hk : w.own k = none) :
    t.masstree[k]? = s.masstree[k]? :=
  h.tree_old k (by simp [hk])

/-- A record that the transaction did not insert is as it was at the beginning. -/
theorem mem_of_tree (hq : Quiescent s) (h : Follows s w t) {k : K} {v : ValuePtr}
    (hk : ∀ b, w.own k ≠ some (.inserted b)) (hv : t.masstree[k]? = some v) :
    t.mem v = s.mem v ∧ s.masstree[k]? = some v := by
  rw [h.tree_old k hk] at hv
  exact ⟨h.mem_old v (hq.below k v hv), hv⟩

section
omit [Inhabited β]

theorem own_of_claim_ne (w : View K β) {k k' : K} (o : Own β) (hk : k' ≠ k) :
    (w.claim k o).own k' = w.own k' := by
  simp [View.claim, hk]

@[simp] theorem own_claim_self (w : View K β) (k : K) (o : Own β) :
    (w.claim k o).own k = some o := by
  simp [View.claim]

end

theorem mem_keys_claim (h : Follows s w t) (k k' : K) (o : Own β) :
    k' ∈ (w.claim k o).keys ↔ ((w.claim k o).own k').isSome := by
  by_cases hk : k' = k
  · subst hk
    simp [View.claim]
  · rw [own_of_claim_ne w o hk, ← h.mem_keys k']
    simp [View.claim, hk]

theorem nodup_claim (h : Follows s w t) {k : K} (hk : w.own k = none) (o : Own β) :
    (w.claim k o).keys.Nodup := by
  have hnot : k ∉ w.keys := by simp [h.mem_keys, hk]
  change (w.keys ++ [k]).Nodup
  rw [List.nodup_append]
  refine ⟨h.nodup, List.nodup_singleton k, ?_⟩
  intro a ha b hb
  rw [List.mem_singleton] at hb
  subst hb
  exact fun he => hnot (he ▸ ha)

/-- WRITE and DELETE on a key that the transaction has not operated on. -/
theorem claim (h : Follows s w t) {k : K} {v : ValuePtr} {o : Own β} (hk : w.own k = none)
    (hv : t.masstree[k]? = some v) (ho : o.isInserted = false) :
    Follows s (w.claim k o)
      { t with write_set_ := t.write_set_ ++ [⟨k, v, o.body, o.op⟩] } where
  mrctid := h.mrctid
  max_rset := h.max_rset
  max_wset := h.max_wset
  next_le := h.next_le
  below := h.below
  inj := h.inj
  mem_old := h.mem_old
  tree_old := by
    intro k' hk'
    by_cases hkk : k' = k
    · subst hkk
      exact h.tree_of_own_none hk
    · rw [own_of_claim_ne w o hkk] at hk'
      exact h.tree_old k' hk'
  tree_new := by
    intro k' b hk'
    by_cases hkk : k' = k
    · subst hkk
      rw [own_claim_self, Option.some.injEq] at hk'
      simp [hk', Own.isInserted] at ho
    · rw [own_of_claim_ne w o hkk] at hk'
      exact h.tree_new k' b hk'
  keys := by simp [h.keys, View.claim]
  nodup := h.nodup_claim hk o
  mem_keys := fun k' => h.mem_keys_claim k k' o
  writes := by
    intro we hwe
    rw [List.mem_append, List.mem_singleton] at hwe
    rcases hwe with hwe | rfl
    · have hne : we.key_ ≠ k := by
        intro he
        obtain ⟨-, o', ho', -⟩ := h.writes we hwe
        simp [he, hk] at ho'
      rw [own_of_claim_ne w o hne]
      exact h.writes we hwe
    · exact ⟨hv, o, own_claim_self w k o, rfl, rfl⟩
  reads := h.reads
  seen := h.seen
  seen_visible := by
    intro k' hk'
    rcases h.seen_visible k' hk' with ⟨b, hb⟩ | hvis
    · have hne : k' ≠ k := by
        rintro rfl
        simp [hk] at hb
      exact Or.inl ⟨b, by rw [own_of_claim_ne w o hne]; exact hb⟩
    · exact Or.inr hvis
  fetched := h.fetched

/-- New read-set elements, for keys that are visible. -/
theorem see (h : Follows s w t) {added : List (ReadElement K)} {ks : K → Bool}
    (hadded : ∀ re ∈ added, t.masstree[re.key_]? = some re.value_ ∧
      re.tidword_ = t.tidword re.value_ ∧ re.op_ = .READ)
    (hks : ∀ k, (w.seen k = true ∨ ks k = true) ↔ (w.seen k = true ∨ ∃ re ∈ added, re.key_ = k))
    (hvis : ∀ k, ks k = true → (s.visible k).isSome) :
    Follows s (w.see ks) { t with read_set_ := t.read_set_ ++ added } where
  mrctid := h.mrctid
  max_rset := h.max_rset
  max_wset := h.max_wset
  next_le := h.next_le
  below := h.below
  inj := h.inj
  mem_old := h.mem_old
  tree_old := h.tree_old
  tree_new := h.tree_new
  keys := h.keys
  nodup := h.nodup
  mem_keys := h.mem_keys
  writes := h.writes
  reads := by
    intro re hre
    rcases List.mem_append.mp hre with hre | hre
    · exact h.reads re hre
    · exact hadded re hre
  seen := by
    intro k
    change (w.seen k || ks k) = true ↔ _
    rw [Bool.or_eq_true, hks k, h.seen k]
    simp only [List.mem_append]
    constructor
    · rintro (⟨re, hre, he⟩ | ⟨re, hre, he⟩)
      · exact ⟨re, Or.inl hre, he⟩
      · exact ⟨re, Or.inr hre, he⟩
    · rintro ⟨re, hre | hre, he⟩
      · exact Or.inl ⟨re, hre, he⟩
      · exact Or.inr ⟨re, hre, he⟩
  seen_visible := by
    intro k hk
    rcases Bool.or_eq_true_iff.mp hk with hk | hk
    · exact h.seen_visible k hk
    · exact Or.inr (hvis k hk)
  fetched := h.fetched

theorem pairs (h : Follows s w t) (pairs : List (K × β)) :
    Follows s w { t with read_key_value_pairs := pairs } := by
  cases h
  constructor <;> assumption

theorem fetch (h : Follows s w t) (b : β) :
    Follows s { w with fetched := b } { t with read_value := b } := by
  cases h
  constructor <;> first | assumption | rfl

theorem getElem?_insert_self (tree : Std.TreeMap K ValuePtr) (k : K) (v : ValuePtr) :
    (tree.insert k v)[k]? = some v := by
  rw [Std.TreeMap.getElem?_insert]
  simp

theorem getElem?_insert_ne (tree : Std.TreeMap K ValuePtr) {k k' : K} (v : ValuePtr)
    (hk : k' ≠ k) : (tree.insert k v)[k']? = tree[k']? := by
  rw [Std.TreeMap.getElem?_insert, if_neg]
  rw [Std.LawfulEqCmp.compare_eq_iff_eq]
  exact fun he => hk he.symm

/-- INSERT of a key that the tree does not hold. -/
theorem insert (h : Follows s w t) {k : K} (hk : w.own k = none) (htree : t.masstree[k]? = none)
    (b : β) :
    Follows s ((w.claim k (.inserted b)).see (· == k))
      { t with
        mem := Function.update t.mem t.next ⟨TIDword.new.init, b⟩
        next := t.next + 1
        masstree := t.masstree.insert k t.next
        read_set_ := t.read_set_ ++ [⟨k, t.next, TIDword.new.init, .READ⟩]
        write_set_ := t.write_set_ ++ [⟨k, t.next, b, .INSERT⟩] } := by
  have hne : ∀ (k' : K) v, t.masstree[k']? = some v → k' ≠ k := by
    rintro k' v hv rfl
    simp [htree] at hv
  have hlt : ∀ (k' : K) v, t.masstree[k']? = some v → v ≠ t.next := fun k' v hv =>
    Nat.ne_of_lt (h.below k' v hv)
  have hold : ∀ (k' : K) v, t.masstree[k']? = some v → (t.masstree.insert k t.next)[k']? = some v := by
    intro k' v hv
    rw [getElem?_insert_ne _ _ (hne k' v hv), hv]
  have hinv : ∀ (k' : K) v, (t.masstree.insert k t.next)[k']? = some v →
      (k' = k ∧ v = t.next) ∨ t.masstree[k']? = some v := by
    intro k' v hv
    by_cases hkk : k' = k
    · subst hkk
      rw [getElem?_insert_self, Option.some.injEq] at hv
      exact Or.inl ⟨rfl, hv.symm⟩
    · rw [getElem?_insert_ne _ _ hkk] at hv
      exact Or.inr hv
  constructor
  case mrctid => exact h.mrctid
  case max_rset => exact h.max_rset
  case max_wset => exact h.max_wset
  case fetched => exact h.fetched
  case next_le => exact Nat.le_succ_of_le h.next_le
  case nodup => exact h.nodup_claim hk (.inserted b)
  case mem_keys => exact fun k' => h.mem_keys_claim k k' (.inserted b)
  case below =>
    intro k' v hv
    rcases hinv k' v hv with ⟨-, rfl⟩ | hv
    · exact Nat.lt_succ_self _
    · exact Nat.lt_succ_of_lt (h.below k' v hv)
  case inj =>
    intro k₁ k₂ v h₁ h₂
    rcases hinv k₁ v h₁ with ⟨rfl, rfl⟩ | old₁ <;> rcases hinv k₂ _ h₂ with ⟨rfl, hv⟩ | old₂
    · rfl
    · exact absurd rfl (hlt _ _ old₂)
    · exact absurd hv (hlt _ _ old₁)
    · exact h.inj k₁ k₂ v old₁ old₂
  case mem_old =>
    intro v hv
    have hvn : v ≠ t.next := Nat.ne_of_lt (Nat.lt_of_lt_of_le hv h.next_le)
    change Function.update t.mem t.next _ v = _
    rw [Function.update_of_ne hvn]
    exact h.mem_old v hv
  case tree_old =>
    intro k' hk'
    change ∀ b', (w.claim k (.inserted b)).own k' ≠ _ at hk'
    have hkk : k' ≠ k := by
      rintro rfl
      exact hk' b (own_claim_self w k' _)
    rw [own_of_claim_ne w _ hkk] at hk'
    rw [getElem?_insert_ne _ _ hkk]
    exact h.tree_old k' hk'
  case tree_new =>
    intro k' b' hk'
    change (w.claim k (.inserted b)).own k' = _ at hk'
    by_cases hkk : k' = k
    · subst hkk
      rw [own_claim_self, Option.some.injEq, Own.inserted.injEq] at hk'
      subst hk'
      refine ⟨by rw [← h.tree_of_own_none hk, htree], t.next, getElem?_insert_self _ _ _,
        h.next_le, ?_⟩
      exact Function.update_self ..
    · rw [own_of_claim_ne w _ hkk] at hk'
      obtain ⟨hs, v, hv, hsv, hm⟩ := h.tree_new k' b' hk'
      refine ⟨hs, v, hold k' v hv, hsv, ?_⟩
      change Function.update t.mem t.next _ v = _
      rw [Function.update_of_ne (hlt k' v hv), hm]
  case keys =>
    change List.map _ (t.write_set_ ++ [_]) = w.keys ++ [k]
    simp [h.keys]
  case writes =>
    intro we hwe
    rcases List.mem_append.mp hwe with hwe | hwe
    · obtain ⟨htr, o, ho, hbody, hop⟩ := h.writes we hwe
      refine ⟨hold _ _ htr, o, ?_, hbody, hop⟩
      change (w.claim k (.inserted b)).own we.key_ = _
      rw [own_of_claim_ne w _ (hne _ _ htr), ho]
    · rw [List.mem_singleton] at hwe
      subst hwe
      exact ⟨getElem?_insert_self _ _ _, .inserted b, own_claim_self w k _, rfl, rfl⟩
  case reads =>
    intro re hre
    rcases List.mem_append.mp hre with hre | hre
    · obtain ⟨htr, hword, hop⟩ := h.reads re hre
      refine ⟨hold _ _ htr, ?_, hop⟩
      change _ = (Function.update t.mem t.next _ re.value_).tidword_
      rw [Function.update_of_ne (hlt _ _ htr), hword, State.tidword]
    · rw [List.mem_singleton] at hre
      subst hre
      refine ⟨getElem?_insert_self _ _ _, ?_, rfl⟩
      change _ = (Function.update t.mem t.next _ t.next).tidword_
      rw [Function.update_self]
  case seen =>
    intro k'
    change (w.seen k' || k' == k) = true ↔ _
    rw [Bool.or_eq_true, h.seen k']
    simp only [List.mem_append, List.mem_singleton, beq_iff_eq]
    constructor
    · rintro (⟨re, hre, he⟩ | rfl)
      · exact ⟨re, Or.inl hre, he⟩
      · exact ⟨_, Or.inr rfl, rfl⟩
    · rintro ⟨re, hre | rfl, he⟩
      · exact Or.inl ⟨re, hre, he⟩
      · exact Or.inr he.symm
  case seen_visible =>
    intro k' hk'
    change (w.seen k' || k' == k) = true at hk'
    change (∃ b', (w.claim k (.inserted b)).own k' = _) ∨ _
    by_cases hkk : k' = k
    · subst hkk
      exact Or.inl ⟨b, own_claim_self w k' _⟩
    · rw [own_of_claim_ne w _ hkk]
      exact h.seen_visible k' (by simpa [hkk] using hk')

end Follows

/-- The element that the loop adds to the read set for an entry of the tree. -/
def freshRead (t : State K β) (p : K × ValuePtr) : Option (ReadElement K) :=
  if (searchReadSet t.read_set_ p.1).isNone && (searchWriteSet t.write_set_ p.1).isNone &&
      !(t.tidword p.2).absent then
    some ⟨p.1, p.2, t.tidword p.2, .READ⟩
  else none

/-- The pair that the loop adds to the result for an entry of the tree. -/
def localPair (t : State K β) (p : K × ValuePtr) : Option (K × β) :=
  match searchReadSet t.read_set_ p.1 with
  | some re => some (p.1, t.body re.value_)
  | none => (searchWriteSet t.write_set_ p.1).map fun we => (p.1, we.new_value_body_)

theorem searchReadSet_append_ne (rs : List (ReadElement K)) (re : ReadElement K) {k : K}
    (hk : re.key_ ≠ k) : searchReadSet (rs ++ [re]) k = searchReadSet rs k := by
  simp [searchReadSet, List.find?_append, hk]

section
omit [Inhabited β]

theorem scanLoop_eq (l : List (K × ValuePtr)) :
    ∀ (t : State K β) (result : List (K × β)), (l.map Prod.fst).Nodup →
      (∀ p ∈ l, searchReadSet t.read_set_ p.1 = none → searchWriteSet t.write_set_ p.1 = none →
        (t.tidword p.2).lock = false) →
      scanLoop t result l =
        some (.OK, { t with read_set_ := t.read_set_ ++ l.filterMap (freshRead t) },
          result ++ l.filterMap (localPair t)) := by
  induction l with
  | nil => intro t result _ _; simp [scanLoop]
  | cons p rest ih =>
    intro t result hnodup hlock
    obtain ⟨k, v⟩ := p
    rw [List.map_cons, List.nodup_cons] at hnodup
    obtain ⟨hk, hnodup⟩ := hnodup
    have hrest : ∀ p ∈ rest, searchReadSet t.read_set_ p.1 = none →
        searchWriteSet t.write_set_ p.1 = none → (t.tidword p.2).lock = false := fun p hp =>
      hlock p (List.mem_cons_of_mem _ hp)
    cases hr : searchReadSet t.read_set_ k with
    | some re => simp [scanLoop, hr, ih t _ hnodup hrest, freshRead, localPair]
    | none =>
      cases hw : searchWriteSet t.write_set_ k with
      | some we => simp [scanLoop, hr, hw, ih t _ hnodup hrest, freshRead, localPair]
      | none =>
        have hunlocked := hlock (k, v) List.mem_cons_self hr hw
        by_cases habs : (t.tidword v).absent
        · simp [scanLoop, hr, hw, read_internal, hunlocked, habs, ih t _ hnodup hrest, freshRead,
            localPair]
        · -- the new element is not found again: the later entries have other keys
          let re : ReadElement K := ⟨k, v, t.tidword v, .READ⟩
          let t' : State K β := { t with read_set_ := t.read_set_ ++ [re] }
          have hne : ∀ p ∈ rest, re.key_ ≠ p.1 := by
            intro p hp he
            exact hk (List.mem_map.mpr ⟨p, hp, he.symm⟩)
          have hsearch : ∀ p ∈ rest, searchReadSet t'.read_set_ p.1 = searchReadSet t.read_set_ p.1 :=
            fun p hp => searchReadSet_append_ne _ _ (hne p hp)
          have hfresh : rest.filterMap (freshRead t') = rest.filterMap (freshRead t) := by
            apply List.filterMap_congr
            intro p hp
            simp [freshRead, hsearch p hp, t', State.tidword]
          have hlocal : rest.filterMap (localPair t') = rest.filterMap (localPair t) := by
            apply List.filterMap_congr
            intro p hp
            simp [localPair, hsearch p hp, t', State.body]
          have hlock' : ∀ p ∈ rest, searchReadSet t'.read_set_ p.1 = none →
              searchWriteSet t'.write_set_ p.1 = none → (t'.tidword p.2).lock = false := by
            intro p hp h₁ h₂
            rw [hsearch p hp] at h₁
            exact hrest p hp h₁ h₂
          have hstep : scanLoop t result ((k, v) :: rest) = scanLoop t' result rest := by
            simp [scanLoop, hr, hw, read_internal, hunlocked, habs, t', re]
          rw [hstep, ih t' result hnodup hlock', hfresh, hlocal]
          simp [freshRead, localPair, hr, hw, habs, t', re]

theorem visible_of_tree {s : State K β} {k : K} {v : ValuePtr} (hv : s.masstree[k]? = some v) :
    s.visible k = if (s.tidword v).absent then none else some (s.body v) := by
  simp [State.visible, hv]

theorem visible_of_tree_none {s : State K β} {k : K} (hv : s.masstree[k]? = none) :
    s.visible k = none := by
  simp [State.visible, hv]

end

omit [Inhabited β] in
theorem tree_of_visible {s : State K β} {k : K} (hk : (s.visible k).isSome) :
    ∃ v, s.masstree[k]? = some v ∧ s.visible k = some (s.body v) := by
  cases hs : s.masstree[k]? with
  | none => simp [visible_of_tree_none hs] at hk
  | some v =>
    refine ⟨v, rfl, ?_⟩
    rw [visible_of_tree hs] at hk ⊢
    split at hk
    · simp at hk
    · rename_i habs
      rw [if_neg habs]

def Ascending (l : List (K × β)) : Prop := l.Pairwise fun p q => p.1 < q.1

/-- The report of a SCAN: first the keys of the range that the transaction has touched,
then the other visible ones. -/
def View.Scan (s : State K β) (w : View K β) (range : K → Bool) (report : List (K × β)) : Prop :=
  ∃ found added, report = found ++ added ∧ Ascending found ∧ Ascending added ∧
    (∀ k b, (k, b) ∈ found ↔ range k = true ∧ w.touched k = true ∧ b = w.scanned s k) ∧
    ∀ k b, (k, b) ∈ added ↔ range k = true ∧ w.touched k = false ∧ s.visible k = some b

/-- What an accepted operation adds to `read_key_value_pairs`. -/
def View.Reports (s : State K β) (w : View K β) : Procedure K β → List (K × β) → Prop
  | .READ k, report =>
    report = [(k, if w.touched k then w.fetched else (s.visible k).getD default)]
  | .SCAN l lx r rx, report => w.Scan s (inRange l lx r rx) report
  | _, report => report = []

theorem mem_masstreeScan {tree : Std.TreeMap K ValuePtr} {range : K → Bool} {k : K} {v : ValuePtr} :
    (k, v) ∈ masstreeScan tree range ↔ tree[k]? = some v ∧ range k = true := by
  rw [masstreeScan, List.mem_filter, Std.TreeMap.mem_toList_iff_getElem?_eq_some]

theorem masstreeScan_ascending (tree : Std.TreeMap K ValuePtr) (range : K → Bool) :
    (masstreeScan tree range).Pairwise fun p q => p.1 < q.1 := by
  apply List.Pairwise.filter
  refine Std.TreeMap.ordered_keys_toList.imp ?_
  intro p q hpq
  exact compare_lt_iff_lt.mp hpq

theorem masstreeScan_nodup (tree : Std.TreeMap K ValuePtr) (range : K → Bool) :
    ((masstreeScan tree range).map Prod.fst).Nodup := by
  rw [List.nodup_iff_pairwise_ne, List.pairwise_map]
  exact (masstreeScan_ascending tree range).imp fun hpq => ne_of_lt hpq

section
omit [Inhabited β]

theorem localPair_fst {t : State K β} {p : K × ValuePtr} {q : K × β} (h : localPair t p = some q) :
    q.1 = p.1 := by
  unfold localPair at h
  split at h
  · simp only [Option.some.injEq] at h
    rw [← h]
  · rw [Option.map_eq_some_iff] at h
    obtain ⟨we, -, rfl⟩ := h
    rfl

theorem freshRead_eq {t : State K β} {p : K × ValuePtr} {re : ReadElement K}
    (h : freshRead t p = some re) : re = ⟨p.1, p.2, t.tidword p.2, .READ⟩ := by
  unfold freshRead at h
  split at h
  · exact (Option.some.inj h).symm
  · cases h

end

namespace Follows

variable {s t : State K β} {w : View K β}

theorem tree_of_touched (h : Follows s w t) {k : K} (hk : w.touched k = true) :
    ∃ v, t.masstree[k]? = some v := by
  rcases Bool.or_eq_true_iff.mp hk with hk | hk
  · obtain ⟨re, hre, rfl⟩ := (h.seen k).mp hk
    exact ⟨re.value_, (h.reads re hre).1⟩
  · rw [← h.mem_keys, ← h.keys, List.mem_map] at hk
    obtain ⟨we, hwe, rfl⟩ := hk
    exact ⟨we.value_, (h.writes we hwe).1⟩

omit [LinearOrder K] [Inhabited β] in
theorem own_none_of_untouched {k : K} (hk : w.touched k = false) :
    w.own k = none ∧ w.seen k = false := by
  simpa [View.touched, and_comm] using hk

/-- The body in the record of a key that the transaction has seen. -/
theorem body_of_seen (hq : Quiescent s) (h : Follows s w t) {k : K} {v : ValuePtr}
    (hk : w.seen k = true) (hv : t.masstree[k]? = some v) : t.body v = w.scanned s k := by
  by_cases hins : ∃ b, w.own k = some (.inserted b)
  · obtain ⟨b, hb⟩ := hins
    obtain ⟨-, v', hv', -, hm⟩ := h.tree_new k b hb
    obtain rfl : v = v' := Option.some.inj (hv.symm.trans hv')
    simp [State.body, hm, View.scanned, hb]
  · have hvis : (s.visible k).isSome := (h.seen_visible k hk).resolve_left hins
    rw [not_exists] at hins
    obtain ⟨hm, hs⟩ := h.mem_of_tree hq hins hv
    obtain ⟨v', hs', hbody⟩ := tree_of_visible hvis
    obtain rfl : v = v' := Option.some.inj (hs.symm.trans hs')
    have hscanned : w.scanned s k = s.body v := by
      unfold View.scanned
      split
      · rename_i b hb
        exact absurd hb (hins b)
      · simp [hk, hbody]
      · simp [hbody]
    rw [hscanned, State.body, hm, State.body]

theorem localPair_eq (hq : Quiescent s) (h : Follows s w t) {k : K} {v : ValuePtr}
    (hv : t.masstree[k]? = some v) :
    localPair t (k, v) = if w.touched k then some (k, w.scanned s k) else none := by
  have hseen := h.searchReadSet_isSome_iff k
  have hown := h.searchWriteSet_isSome_iff k
  unfold localPair
  cases hr : searchReadSet t.read_set_ k with
  | some re =>
    rw [hr, Option.isSome_some] at hseen
    have hval : v = re.value_ := Option.some.inj (hv.symm.trans (h.searchReadSet_eq hr))
    have hbody := h.body_of_seen hq hseen.symm hv
    simp [View.touched, ← hseen, ← hval, hbody]
  | none =>
    rw [hr, Option.isSome_none] at hseen
    cases hw : searchWriteSet t.write_set_ k with
    | some we =>
      obtain ⟨-, -, o, ho, hbody, -⟩ := h.searchWriteSet_eq hw
      have hscanned : w.scanned s k = o.body := by
        unfold View.scanned
        rw [ho]
        cases o <;> simp [← hseen, Own.body]
      simp [View.touched, ho, hbody, hscanned]
    | none =>
      rw [hw, Option.isSome_none] at hown
      simp [View.touched, ← hseen, ← hown]

theorem freshRead_eq_ite (hq : Quiescent s) (h : Follows s w t) {k : K} {v : ValuePtr}
    (hv : t.masstree[k]? = some v) :
    freshRead t (k, v) =
      if w.touched k = false ∧ (s.visible k).isSome then some ⟨k, v, t.tidword v, .READ⟩
      else none := by
  have hseen := h.searchReadSet_isSome_iff k
  have hown := h.searchWriteSet_isSome_iff k
  unfold freshRead
  rw [← Option.not_isSome, ← Option.not_isSome]
  simp only [hseen, hown]
  by_cases htouched : w.touched k = true
  · have hor := Bool.or_eq_true_iff.mp htouched
    rw [if_neg (by rcases hor with hk | hk <;> simp [hk]), if_neg (by simp [htouched])]
  · rw [Bool.not_eq_true] at htouched
    obtain ⟨hk, hk'⟩ := own_none_of_untouched htouched
    obtain ⟨hm, hs⟩ := h.mem_of_tree hq (by simp [hk]) hv
    rw [visible_of_tree hs]
    cases habs : (s.tidword v).absent <;> simp [hk, hk', htouched, State.tidword, hm] <;>
      simpa [State.tidword] using habs

theorem scan_unlocked (hq : Quiescent s) (h : Follows s w t) (range : K → Bool) :
    ∀ p ∈ masstreeScan t.masstree range, searchReadSet t.read_set_ p.1 = none →
      searchWriteSet t.write_set_ p.1 = none → (t.tidword p.2).lock = false := by
  intro p hp _ hw
  have hv := (mem_masstreeScan.mp hp).1
  have hown := h.searchWriteSet_isSome_iff p.1
  rw [hw, Option.isSome_none] at hown
  have hnone : w.own p.1 = none := by simpa using hown.symm
  obtain ⟨hm, hs⟩ := h.mem_of_tree hq (by simp [hnone]) hv
  have hunlocked := hq.unlocked _ _ hs
  rwa [State.tidword, hm]

/-- The elements that a scan adds to the read set. -/
theorem mem_freshReads (hq : Quiescent s) (h : Follows s w t) (range : K → Bool)
    (re : ReadElement K) :
    re ∈ (masstreeScan t.masstree range).filterMap (freshRead t) ↔
      range re.key_ = true ∧ w.touched re.key_ = false ∧ (s.visible re.key_).isSome ∧
        t.masstree[re.key_]? = some re.value_ ∧ re.tidword_ = t.tidword re.value_ ∧
        re.op_ = .READ := by
  rw [List.mem_filterMap]
  constructor
  · rintro ⟨⟨k, v⟩, hp, hre⟩
    obtain ⟨hv, hrange⟩ := mem_masstreeScan.mp hp
    have heq := freshRead_eq hre
    rw [h.freshRead_eq_ite hq hv] at hre
    split at hre
    · rename_i hc
      subst heq
      exact ⟨hrange, hc.1, hc.2, hv, rfl, rfl⟩
    · cases hre
  · rintro ⟨hrange, htouched, hvis, hv, hword, hop⟩
    refine ⟨(re.key_, re.value_), mem_masstreeScan.mpr ⟨hv, hrange⟩, ?_⟩
    rw [h.freshRead_eq_ite hq hv, if_pos ⟨htouched, hvis⟩]
    cases re
    simp_all

/-- The pairs that a scan finds in the local sets. -/
theorem mem_localPairs (hq : Quiescent s) (h : Follows s w t) (range : K → Bool) (k : K) (b : β) :
    (k, b) ∈ (masstreeScan t.masstree range).filterMap (localPair t) ↔
      range k = true ∧ w.touched k = true ∧ b = w.scanned s k := by
  rw [List.mem_filterMap]
  constructor
  · rintro ⟨⟨k', v⟩, hp, hpair⟩
    obtain rfl : k = k' := localPair_fst hpair
    obtain ⟨hv, hrange⟩ := mem_masstreeScan.mp hp
    rw [h.localPair_eq hq hv] at hpair
    split at hpair
    · rename_i htouched
      rw [Option.some.injEq, Prod.mk.injEq] at hpair
      exact ⟨hrange, htouched, hpair.2.symm⟩
    · cases hpair
  · rintro ⟨hrange, htouched, rfl⟩
    obtain ⟨v, hv⟩ := h.tree_of_touched htouched
    refine ⟨(k, v), mem_masstreeScan.mpr ⟨hv, hrange⟩, ?_⟩
    rw [h.localPair_eq hq hv, if_pos htouched]

/-- The record of a key that is visible and untouched. -/
theorem tree_of_untouched (hq : Quiescent s) (h : Follows s w t) {k : K}
    (hk : w.touched k = false) (hvis : (s.visible k).isSome) :
    ∃ v, t.masstree[k]? = some v ∧ s.visible k = some (t.body v) := by
  obtain ⟨v, hs, hbody⟩ := tree_of_visible hvis
  have hown := (own_none_of_untouched hk).1
  have hv : t.masstree[k]? = some v := by rw [h.tree_of_own_none hown, hs]
  obtain ⟨hm, -⟩ := h.mem_of_tree hq (by simp [hown]) hv
  exact ⟨v, hv, by rw [hbody, State.body, State.body, hm]⟩

/-- The whole of `scan`. -/
theorem scan (hq : Quiescent s) (h : Follows s w t) (range : K → Bool) :
    ∃ added report, Serial.scan t range =
        some (.OK, { t with read_set_ := t.read_set_ ++ added }, report) ∧
      Follows s (w.see fun k => range k && (w.own k).isNone && (s.visible k).isSome)
        { t with read_set_ := t.read_set_ ++ added } ∧
      w.Scan s range report := by
  have hloop := scanLoop_eq (masstreeScan t.masstree range) t [] (masstreeScan_nodup _ _)
    (h.scan_unlocked hq range)
  have hmem := h.mem_freshReads hq range
  set fresh := (masstreeScan t.masstree range).filterMap (freshRead t)
  refine ⟨fresh, (masstreeScan t.masstree range).filterMap (localPair t) ++
    fresh.map fun itr => (itr.key_, t.body itr.value_), ?_, ?_, ?_⟩
  · simp [Serial.scan, hloop, State.body]
  · apply h.see
    · intro re hre
      exact ((hmem re).mp hre).2.2.2
    · intro k
      refine or_congr_right' fun hseen => ?_
      have hnone : w.touched k = false ↔ w.own k = none := by
        simp [View.touched, hseen]
      simp only [Bool.and_eq_true, Option.isNone_iff_eq_none]
      constructor
      · rintro ⟨⟨hrange, hown⟩, hvis⟩
        obtain ⟨v, hv, -⟩ := h.tree_of_untouched hq (hnone.mpr hown) hvis
        exact ⟨⟨k, v, t.tidword v, .READ⟩,
          (hmem _).mpr ⟨hrange, hnone.mpr hown, hvis, hv, rfl, rfl⟩, rfl⟩
      · rintro ⟨re, hre, rfl⟩
        obtain ⟨hrange, htouched, hvis, -⟩ := (hmem re).mp hre
        exact ⟨⟨hrange, hnone.mp htouched⟩, hvis⟩
    · intro k hk
      simp only [Bool.and_eq_true] at hk
      exact hk.2
  · refine ⟨_, _, rfl, ?_, ?_, h.mem_localPairs hq range, ?_⟩
    · refine (masstreeScan_ascending t.masstree range).filterMap _ ?_
      intro p q hpq p' hp' q' hq'
      rw [localPair_fst hp', localPair_fst hq']
      exact hpq
    · rw [Ascending, List.pairwise_map]
      refine (masstreeScan_ascending t.masstree range).filterMap _ ?_
      intro p q hpq p' hp' q' hq'
      rw [freshRead_eq hp', freshRead_eq hq']
      exact hpq
    · intro k b
      rw [List.mem_map]
      constructor
      · rintro ⟨re, hre, he⟩
        rw [Prod.mk.injEq] at he
        obtain ⟨rfl, rfl⟩ := he
        obtain ⟨hrange, htouched, hvis, hv, -⟩ := (hmem re).mp hre
        obtain ⟨v, hv', hbody⟩ := h.tree_of_untouched hq htouched hvis
        obtain rfl : re.value_ = v := Option.some.inj (hv.symm.trans hv')
        exact ⟨hrange, htouched, hbody⟩
      · rintro ⟨hrange, htouched, hvis⟩
        obtain ⟨v, hv, hbody⟩ := h.tree_of_untouched hq htouched (by simp [hvis])
        rw [hvis, Option.some.injEq] at hbody
        exact ⟨⟨k, v, t.tidword v, .READ⟩,
          (hmem _).mpr ⟨hrange, htouched, by simp [hvis], hv, rfl, rfl⟩, by simp [hbody]⟩

/-- A refused operation leaves the state as it is. -/
theorem execute_refused (hq : Quiescent s) (h : Follows s w t) {p : Procedure K β}
    (hp : w.next s p = none) : ∃ status, status ≠ .OK ∧ execute t p = some (status, t) := by
  cases p with
  | INSERT k b =>
    refine ⟨.WARN_ALREADY_EXISTS, by simp, ?_⟩
    simp only [View.next, ite_eq_left_iff, reduceCtorEq, imp_false, not_not, Bool.or_eq_true] at hp
    simp only [execute, Serial.insert, h.searchWriteSet_isSome_iff]
    by_cases hown : (w.own k).isSome = true
    · rw [if_pos hown]
    · have htree : s.masstree[k]?.isSome = true := hp.resolve_left hown
      rw [← h.tree_of_own_none (by simpa using hown)] at htree
      obtain ⟨v, hv⟩ := Option.isSome_iff_exists.mp htree
      rw [if_neg hown, hv]
  | WRITE k b =>
    refine ⟨.WARN_NOT_FOUND, by simp, ?_⟩
    simp only [View.next] at hp
    split at hp
    · cases hp
    · rename_i hown
      split at hp
      · cases hp
      · rename_i htree
        rw [← h.tree_of_own_none (by simpa using hown), Bool.not_eq_true, Option.isSome_eq_false_iff,
          Option.isNone_iff_eq_none] at htree
        simp [execute, write, h.searchWriteSet_isSome_iff, hown, h.findValue_eq, htree]
  | DELETE k =>
    refine ⟨.WARN_NOT_FOUND, by simp, ?_⟩
    simp only [View.next] at hp
    have hown := h.searchWriteSet_isSome_iff k
    cases hw : searchWriteSet t.write_set_ k with
    | some we =>
      obtain ⟨-, -, o, ho, -, hop⟩ := h.searchWriteSet_eq hw
      rw [ho] at hp
      have hins : we.op_ = .INSERT := by
        cases o <;> simp_all [Own.isInserted, Own.op]
      simp [execute, tx_delete, hw, hins]
    | none =>
      have hnone : w.own k = none := by simpa [hw] using hown.symm
      simp only [hnone, ite_eq_right_iff, reduceCtorEq, imp_false, Bool.not_eq_true] at hp
      rw [← h.tree_of_own_none hnone, Option.isSome_eq_false_iff, Option.isNone_iff_eq_none] at hp
      simp [execute, tx_delete, hw, h.findValue_eq, hp]
  | READ k =>
    refine ⟨.WARN_NOT_FOUND, by simp, ?_⟩
    simp only [View.next] at hp
    split at hp
    · cases hp
    · rename_i htouched
      rw [Bool.not_eq_true] at htouched
      obtain ⟨hown, hseen⟩ := own_none_of_untouched htouched
      split at hp
      · rename_i hvis
        have hr : (searchReadSet t.read_set_ k).isSome = false := by
          rw [h.searchReadSet_isSome_iff, hseen]
        have hw : (searchWriteSet t.write_set_ k).isSome = false := by
          rw [h.searchWriteSet_isSome_iff, hown, Option.isSome_none]
        cases hv : t.masstree[k]? with
        | none => simp [execute, read, hr, hw, hv]
        | some v =>
          obtain ⟨hm, hs⟩ := h.mem_of_tree hq (by simp [hown]) hv
          have hunlocked := hq.unlocked k v hs
          have habs : (s.tidword v).absent = true := by
            rw [visible_of_tree hs] at hvis
            simpa using hvis
          rw [State.tidword, ← hm] at hunlocked habs
          simp [execute, read, read_internal, State.tidword, hr, hw, hv, hunlocked, habs]
      · cases hp
  | SCAN l lx r rx => simp [View.next] at hp

/-- An accepted operation keeps the view and the state together. -/
theorem execute_accepted (hq : Quiescent s) (h : Follows s w t) {p : Procedure K β} {w' : View K β}
    (hp : w.next s p = some w') :
    ∃ t' report, execute t p = some (.OK, t') ∧ Follows s w' t' ∧
      t'.read_key_value_pairs = t.read_key_value_pairs ++ report ∧ w.Reports s p report := by
  cases p with
  | INSERT k b =>
    simp only [View.next] at hp
    split at hp
    · cases hp
    · rename_i hfree
      rw [Option.some.injEq] at hp
      simp only [Bool.or_eq_true, not_or, Bool.not_eq_true, Option.isSome_eq_false_iff,
        Option.isNone_iff_eq_none] at hfree
      obtain ⟨hown, htree⟩ := hfree
      rw [← h.tree_of_own_none hown] at htree
      have hw : (searchWriteSet t.write_set_ k).isSome = false := by
        rw [h.searchWriteSet_isSome_iff, hown, Option.isSome_none]
      subst hp
      refine ⟨_, [], ?_, h.insert hown htree b, ?_, rfl⟩
      · simp [execute, Serial.insert, hw, htree]
      · simp
  | WRITE k b =>
    simp only [View.next] at hp
    split at hp
    · rename_i hown
      rw [← Option.some.inj hp]
      refine ⟨t, [], ?_, h, by simp, rfl⟩
      simp [execute, write, h.searchWriteSet_isSome_iff, hown]
    · rename_i hown
      split at hp
      · rename_i htree
        have hnone : w.own k = none := by simpa using hown
        rw [← h.tree_of_own_none hnone] at htree
        obtain ⟨v, hv⟩ := Option.isSome_iff_exists.mp htree
        rw [← Option.some.inj hp]
        refine ⟨_, [], ?_, h.claim hnone hv (o := .written b) rfl, by simp, rfl⟩
        simp [execute, write, h.searchWriteSet_isSome_iff, hown, h.findValue_eq, hv, Own.body, Own.op]
      · cases hp
  | DELETE k =>
    simp only [View.next] at hp
    have hown := h.searchWriteSet_isSome_iff k
    cases hw : searchWriteSet t.write_set_ k with
    | some we =>
      obtain ⟨-, -, o, ho, -, hop⟩ := h.searchWriteSet_eq hw
      simp only [ho] at hp
      split at hp
      · cases hp
      · rename_i hins
        have hnot : we.op_ ≠ .INSERT := by
          cases o <;> simp_all [Own.isInserted, Own.op]
        rw [← Option.some.inj hp]
        refine ⟨t, [], ?_, h, by simp, rfl⟩
        simp [execute, tx_delete, hw, hnot]
    | none =>
      have hnone : w.own k = none := by simpa [hw] using hown.symm
      simp only [hnone] at hp
      split at hp
      · rename_i htree
        rw [← h.tree_of_own_none hnone] at htree
        obtain ⟨v, hv⟩ := Option.isSome_iff_exists.mp htree
        rw [← Option.some.inj hp]
        refine ⟨_, [], ?_, h.claim hnone hv (o := .deleted) rfl, by simp, rfl⟩
        simp [execute, tx_delete, hw, h.findValue_eq, hv, Own.body, Own.op]
      · cases hp
  | READ k =>
    simp only [View.next] at hp
    split at hp
    · rename_i htouched
      rw [← Option.some.inj hp]
      refine ⟨_, [(k, t.read_value)], ?_, h.pairs _, rfl, ?_⟩
      · have hor := Bool.or_eq_true_iff.mp htouched
        rw [← h.searchReadSet_isSome_iff, ← h.searchWriteSet_isSome_iff] at hor
        simp only [execute, read]
        rcases hor with hk | hk
        · rw [if_pos hk]
        · rw [if_pos hk, ite_self]
      · simp [View.Reports, htouched, h.fetched]
    · rename_i htouched
      rw [Bool.not_eq_true] at htouched
      obtain ⟨hown, hseen⟩ := own_none_of_untouched htouched
      split at hp
      · cases hp
      · rename_i b hvis
        have hr : (searchReadSet t.read_set_ k).isSome = false := by
          rw [h.searchReadSet_isSome_iff, hseen]
        have hw : (searchWriteSet t.write_set_ k).isSome = false := by
          rw [h.searchWriteSet_isSome_iff, hown, Option.isSome_none]
        obtain ⟨v, hv, hbody⟩ := h.tree_of_untouched hq htouched (by simp [hvis])
        obtain rfl : b = t.body v := Option.some.inj (hvis.symm.trans hbody)
        obtain ⟨hm, hs⟩ := h.mem_of_tree hq (by simp [hown]) hv
        have hunlocked := hq.unlocked k v hs
        have habs : (s.tidword v).absent = false := by
          rw [visible_of_tree hs] at hvis
          split at hvis
          · cases hvis
          · rename_i habs
            simpa using habs
        rw [State.tidword, ← hm] at hunlocked habs
        rw [← Option.some.inj hp]
        have hsee : Follows s (w.see (· == k))
            { t with read_set_ := t.read_set_ ++ [⟨k, v, t.tidword v, .READ⟩] } := by
          apply h.see
          · intro re hre
            rw [List.mem_singleton] at hre
            subst hre
            exact ⟨hv, rfl, rfl⟩
          · intro k'
            simp only [beq_iff_eq, List.mem_singleton, exists_eq_left]
            rw [eq_comm (a := k')]
          · intro k' hk'
            rw [beq_iff_eq] at hk'
            simp [hk', hvis]
        refine ⟨_, [(k, t.body v)], ?_, (hsee.fetch (t.body v)).pairs _, rfl, ?_⟩
        · simp [execute, read, read_internal, State.tidword, hr, hw, hv, hunlocked, habs, State.body]
        · simp [View.Reports, htouched, hvis]
  | SCAN l lx r rx =>
    obtain ⟨added, report, hscan, hf, hreport⟩ := h.scan hq (inRange l lx r rx)
    rw [View.next, Option.some.injEq] at hp
    subst hp
    refine ⟨_, report, ?_, hf.pairs (t.read_key_value_pairs ++ report), rfl, hreport⟩
    simp [execute, hscan]

/-- The operations of a request up to its end. -/
theorem executeAll_accepted (hq : Quiescent s) {ps : List (Procedure K β)} :
    ∀ {w w' : View K β} {t : State K β}, Follows s w t → ps.foldlM (View.next s) w = some w' →
      ∃ t', executeAll t ps = some (.OK, t', []) ∧ Follows s w' t' := by
  induction ps with
  | nil =>
    intro w w' t h hrun
    obtain rfl : w = w' := Option.some.inj hrun
    exact ⟨t, rfl, h⟩
  | cons p ps ih =>
    intro w w' t h hrun
    rw [List.foldlM_cons] at hrun
    obtain ⟨w₁, hp, hrest⟩ := Option.bind_eq_some_iff.mp hrun
    obtain ⟨t₁, report, hexec, h₁, -⟩ := h.execute_accepted hq hp
    obtain ⟨t', hall, h'⟩ := ih h₁ hrest
    exact ⟨t', by rw [executeAll, hexec]; exact hall, h'⟩

/-- The operations of a request up to the one that is refused. -/
theorem executeAll_refused (hq : Quiescent s) {ps : List (Procedure K β)} :
    ∀ {w : View K β} {t : State K β}, Follows s w t → ps.foldlM (View.next s) w = none →
      ∃ status lines t' w', status ≠ .OK ∧ executeAll t ps = some (status, t', lines) ∧
        Follows s w' t' := by
  induction ps with
  | nil => intro w t _ hrun; cases hrun
  | cons p ps ih =>
    intro w t h hrun
    rw [List.foldlM_cons] at hrun
    cases hp : w.next s p with
    | none =>
      obtain ⟨status, hne, hexec⟩ := h.execute_refused hq hp
      refine ⟨status, refusal p status, t, w, hne, ?_, h⟩
      rw [executeAll, hexec]
      cases status <;> simp_all
    | some w₁ =>
      rw [hp] at hrun
      obtain ⟨t₁, report, hexec, h₁, -⟩ := h.execute_accepted hq hp
      obtain ⟨status, lines, t', w', hne, hall, h'⟩ := ih h₁ hrun
      exact ⟨status, lines, t', w', hne, by rw [executeAll, hexec]; exact hall, h'⟩

end Follows

end Cassa.SiloCC.Serial

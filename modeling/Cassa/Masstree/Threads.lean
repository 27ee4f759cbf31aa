import Cassa.Masstree.Reachable

/-!
# Threads between locating and locking

Each call is two steps: `findBorder` on the root that it read, then the rest with the node
locked. Any number of threads interleave these steps. The version is read again after
`lock`, so that the comparison with `splitHappened` never sees a split in between, and a
thread goes on with the node that it located even if the slice of its key has moved to
another one. No key is lost and none is stored twice as long as every thread goes on with
the node where its key belongs.
-/

set_option linter.dupNamespace false

namespace Cassa.Masstree

open Cassa.Lib.SearchTree
open Cassa.Lib.Runs

variable {V : Type}

/-- A call after its first step. `found` is the root that it read with the border node that it
located; there is none in an empty tree. -/
structure Located (V : Type) where
  call : Call V
  found : Option (Ptr × Ptr)

def Masstree.locate (m : Masstree V) (c : Call V) : Option (Located V) :=
  if c.key = [] then none
  else match m.root with
    | none => some ⟨c, none⟩
    | some root => (findBorder m.heap root (.ofString c.key)).map fun node => ⟨c, some (root, node)⟩

/-- The rest of `masstree_insert` with the node locked. -/
def insertLocked (h : Heap V) (old_root node : Ptr) (key : Key) (value : V) : Option (Status × Option Ptr × Heap V) :=
  insertForward (fun h k => masstree_insert value (Masstree.turns key) h old_root k)
    (fun h root k => masstree_insert value (Masstree.turns key - 1) h root k) old_root key value 2 h node

/-- The rest of `remove` with the node locked. -/
def removeLocked (h : Heap V) (old_root node : Ptr) (key : Key) : Option (RootChange × Option Ptr × Heap V) :=
  removeForward (fun h k => remove (Masstree.turns key) h old_root k)
    (fun h root k => remove (Masstree.turns key - 1) h root k) old_root key 2 h node

/-- The tree with the root of a thread that has lost the race for an empty tree. -/
def Masstree.discard (m : Masstree V) (key : Key) (value : V) : Masstree V :=
  ⟨(m.heap.alloc { start_new_tree key value with deleted := true }).2, m.root⟩

/-- The second step of `insert_value`. -/
def Masstree.finishInsert (m : Masstree V) (key : Key) (value : V) : Option (Ptr × Ptr) →
    Option (Status × Masstree V)
  | none => if m.root = none then m.insert_value key value else (m.discard key value).insert_value key value
  | some (old_root, node) =>
    match insertLocked m.heap old_root node key value with
    | none => none
    | some (.RETRY_FROM_UPPER_LAYER, _, h) => (⟨h, m.root⟩ : Masstree V).insert_value key value
    | some (.WARN_ALREADY_EXISTS, _, h) => some (.WARN_ALREADY_EXISTS, ⟨h, m.root⟩)
    | some (_, new_root, h) => some (.OK, ⟨h, if new_root = some old_root then m.root else new_root⟩)

/-- The second step of `remove_value`. The new root is exchanged for the one that was read. -/
def Masstree.finishRemove (m : Masstree V) (key : Key) : Option (Ptr × Ptr) → Option (Status × Masstree V)
  | none => some (.WARN_NOT_FOUND, m)
  | some (old_root, node) =>
    match removeLocked m.heap old_root node key with
    | none => none
    | some (.DataNotFound, _, h) => some (.WARN_NOT_FOUND, ⟨h, m.root⟩)
    | some (_, new_root, h) =>
      if new_root = some old_root then some (.OK, ⟨h, m.root⟩)
      else if m.root = some old_root then some (.OK, ⟨h, new_root⟩)
      else (⟨h, m.root⟩ : Masstree V).remove_value key

def Masstree.finish (m : Masstree V) (l : Located V) : Option (Status × Masstree V) :=
  match l.call with
  | .insert_value key value => m.finishInsert (.ofString key) value l.found
  | .remove_value key => m.finishRemove (.ofString key) l.found

structure System (V : Type) where
  tree : Masstree V
  /-- the threads that are between their two steps -/
  located : Nat → Option (Located V)
  /-- the calls that have returned -/
  log : List (Call V × Status)

inductive ThreadStep (V : Type) where
  | locate (thread : Nat) (call : Call V)
  | finish (thread : Nat)

def ThreadStep.thread : ThreadStep V → Nat
  | .locate thread _ => thread
  | .finish thread => thread

namespace System

def init : System V := ⟨.new, fun _ => none, []⟩

def step (s : System V) : ThreadStep V → Option (System V)
  | .locate thread call =>
    if (s.located thread).isSome then none
    else (s.tree.locate call).map fun l => { s with located := Function.update s.located thread (some l) }
  | .finish thread => do
    let l ← s.located thread
    let (status, tree) ← s.tree.finish l
    some ⟨tree, Function.update s.located thread none, s.log ++ [(l.call, status)]⟩

end System

/-- What a call that has returned leaves of the promise that the key is in the tree. -/
def Call.keeps (k : List UInt8) (b : Bool) : Call V × Status → Bool
  | (.insert_value key _, status) => if key = k ∧ status = .OK then true else b
  | (.remove_value key, status) => if key = k ∧ status = .OK then false else b

/-- An insertion of the key has returned `OK`, and no removal after it. -/
def kept (k : List UInt8) (log : List (Call V × Status)) : Bool := log.foldl (Call.keeps k) false

/-- The slot `i` of the border node `p` holds the key with these slices and this last size. -/
def Occurs (m : Masstree V) (K : List Nat × Nat) (p : Ptr) (i : Nat) : Prop :=
  ∃ π r v, InLayer m π p ∧ (m.heap.mem p).is_border = true ∧ i ∈ (m.heap.mem p).permutation ∧
    ((m.heap.mem p).slot i).key? = some (r, v) ∧ K = (π ++ r.1, r.2)

/-- Every key that is promised is found, and no key occurs twice. -/
structure System.NothingLost (s : System V) : Prop where
  found : ∀ k, k ≠ [] → kept k s.log = true → ∃ v, s.tree.get_value (.ofString k) = some (some v)
  once : ∀ K p i p' i', Occurs s.tree K p i → Occurs s.tree K p' i' → p = p' ∧ i = i'

/-- The node with which the thread goes on: the one that it located, or what it finds anew from the
root that it read if that one was deleted. -/
def Masstree.goesOn (m : Masstree V) (key : Key) (old_root node : Ptr) : Option Ptr :=
  if (m.heap.mem node).deleted then findBorder m.heap old_root key else some node

/-- The node where the key belongs. -/
def Masstree.place (m : Masstree V) (key : Key) : Option Ptr := m.root.bind (findBorder m.heap · key)

/-- A removal that does not change the root: the border node keeps a key, and the key is not
below a link. -/
def Masstree.staysBelow (m : Masstree V) (key : Key) : Bool :=
  ((m.place key).any fun p => 2 ≤ (m.heap.mem p).permutation.length) && !m.linked key

/-- The thread goes on with the node where its key belongs. A removal that can change the root also
needs the root that it read. -/
def Masstree.inPlace (m : Masstree V) (l : Located V) : Bool :=
  match l.found with
  | none => true
  | some (old_root, node) =>
    let key := Key.ofString l.call.key
    (m.heap.mem node).deleted && (m.heap.mem node).is_root || m.goesOn key old_root node == m.place key &&
      match l.call with
      | .insert_value .. => true
      | .remove_value .. => m.root == some old_root || m.staysBelow key

/-- The tree in which the second step starts. -/
def Masstree.entered (m : Masstree V) (l : Located V) : Masstree V :=
  match l.call, l.found with
  | .insert_value key value, none => if m.root = none then m else m.discard (.ofString key) value
  | _, _ => m

def System.ok (s : System V) : ThreadStep V → Bool
  | .locate .. => true
  | .finish thread => (s.located thread).all fun l => s.tree.inPlace l && (s.tree.entered l).spared l.call

section

variable {m m' : Masstree V} {sh sh' : Shape V} {c : Call V} {status : Status} {k : List UInt8}

/-- A key that is promised is found again. -/
theorem Outcome.found (hout : Outcome sh sh' c status) (h : TreeOk m sh) (h' : TreeOk m' sh') (hkey : c.key ≠ [])
    (hk : k ≠ []) {b : Bool} (hb : b = true → ∃ v, m.get_value (.ofString k) = some (some v))
    (hkeep : Call.keeps k b (c, status) = true) : ∃ v, m'.get_value (.ofString k) = some (some v) := by
  by_cases he : c.key = k
  · subst he
    cases c with
    | insert_value key value =>
      obtain ⟨v, hv⟩ := hout.own
      exact ⟨v, (h'.get_some hk).mpr hv⟩
    | remove_value key =>
      rw [Call.keeps] at hkeep
      split at hkeep
      · cases hkeep
      · rename_i hstatus
        obtain ⟨v, hv⟩ := hb hkeep
        have hsame := hout.own.resolve_left fun hok => hstatus ⟨rfl, hok⟩
        exact ⟨v, (h'.get_some hk).mpr ((hsame v).mpr ((h.get_some hk).mp hv))⟩
  · have hbt : b = true := by
      cases c with
      | insert_value key value =>
        rw [Call.keeps, if_neg (fun hc => he hc.1)] at hkeep
        exact hkeep
      | remove_value key =>
        rw [Call.keeps, if_neg (fun hc => he hc.1)] at hkeep
        exact hkeep
    obtain ⟨v, hv⟩ := hb hbt
    have hid := Key.id_ofString_ne hkey hk (Ne.symm he)
    exact ⟨v, (h'.get_some hk).mpr ((hout.others _ hid v).mpr ((h.get_some hk).mp hv))⟩

theorem TreeOk.occurs_once (h : TreeOk m sh) {K : List Nat × Nat} {p p' : Ptr} {i i' : Nat}
    (ho : Occurs m K p i) (ho' : Occurs m K p' i') : p = p' ∧ i = i' := by
  obtain ⟨π, r, v, hin, hborder, hi, hr, rfl⟩ := ho
  obtain ⟨π', r', v', hin', hborder', hi', hr', he⟩ := ho'
  obtain ⟨t, ht, hp⟩ := h.inLayer hin
  obtain ⟨t', ht', hp'⟩ := h.inLayer hin'
  obtain ⟨hslots, hlisted⟩ := h.ok.border ht hp hborder
  obtain ⟨-, hlisted'⟩ := h.ok.border ht' hp' hborder'
  obtain ⟨rfl, hslot⟩ := h.ok.slot_unique (hlisted i hi) (hlisted' i' hi') hr hr' he
  obtain ⟨rfl, -⟩ := h.ok.unique (hlisted i hi) (hlisted' i' hi') (by rw [hslot])
  exact ⟨rfl, List.inj_on_of_nodup_map hslots.ids hi hi' (by rw [hslot])⟩

end

section

variable {m m' : Masstree V} {sh : Shape V} {key : Key} {value : V} {status : Status} {r node p : Ptr}

/-- A node that nothing leads to. -/
theorem TreeOk.alloc (h : TreeOk m sh) (n : Node V) : TreeOk ⟨(m.heap.alloc n).2, m.root⟩ sh := by
  have hmem : ∀ {π t q}, sh π = some t → q ∈ t.ptrs → (m.heap.alloc n).2.mem q = m.heap.mem q := by
    intro π t q ht hq
    rw [mem_alloc, if_neg (Nat.ne_of_lt ((h.ok.layer π t ht).lt q hq))]
  refine ⟨⟨?_, h.ok.disjoint, ?_, ?_, h.ok.up⟩, h.root⟩
  · intro π t ht
    refine (h.ok.layer π t ht).frame (Nat.le_succ _) ?_
    intro q hq
    rw [hmem ht hq]
    exact ⟨.refl _, rfl, rfl, rfl, rfl⟩
  · intro t ht
    rw [hmem ht t.root_mem_ptrs]
    exact h.ok.top t ht
  · intro π p s q hs hq
    obtain ⟨t, ht, rfl, hupper⟩ := h.ok.down π p s q hs hq
    refine ⟨t, ht, rfl, ?_⟩
    rw [hmem ht t.root_mem_ptrs]
    exact hupper

/-- The thread works on the node that it goes on with. -/
theorem insertLocked_eq (hdel : ((m.heap.mem node).deleted && (m.heap.mem node).is_root) = false) (key : Key)
    (r : Ptr) (value : V) :
    ∃ again, insertLocked m.heap r node key value = (m.goesOn key r node).bind (insertForward again
      (fun h root k => masstree_insert value (Masstree.turns key - 1) h root k) r key value 2 m.heap) := by
  unfold Masstree.goesOn
  split
  · rename_i hdeleted
    have hroot : (m.heap.mem node).is_root = false := by simpa [hdeleted] using hdel
    refine ⟨fun h k => masstree_insert value (Masstree.turns key - 1) h r k, ?_⟩
    have hturn : masstree_insert value (Masstree.turns key) m.heap r key = _ :=
      masstree_insert.eq_2 value m.heap r key (Masstree.turns key - 1)
    simp only [insertLocked, insertForward, hdeleted, hroot, if_true, Bool.false_eq_true, if_false]
    exact hturn
  · exact ⟨_, rfl⟩

theorem TreeOk.place_eq (h : TreeOk m sh) (hk : key.At []) (hplace : m.place key = some p) :
    ∃ fs es a b, Place sh [] key fs p es a b ∧ m.root = some (plug fs (.leaf p es)).root := by
  unfold Masstree.place at hplace
  rw [h.root] at hplace
  cases ht : sh [] with
  | none =>
    rw [ht] at hplace
    cases hplace
  | some t =>
    obtain ⟨fs, q, es, a, b, hp, hfind⟩ := h.ok.findBorder ht hk
    rw [ht, Option.map_some, Option.bind_some, hfind] at hplace
    obtain rfl := Option.some.inj hplace
    refine ⟨fs, es, a, b, hp, ?_⟩
    rw [h.root, hp.shape]
    rfl

theorem TreeOk.insertPost (h : TreeOk m sh) (hk : key.At []) (hguard : m.splitsLong key = false)
    (hplace : m.place key = some p) (value : V) : ∃ top, m.root = some top ∧ ∀ again r,
      InsertPost m.heap sh [] top r (((m.heap.mem p).searchLinkOrValueWithIndex key).1 = .VALUE) key.id value
        (insertForward again (fun h root k => masstree_insert value (Masstree.turns key - 1) h root k) r key value 2
          m.heap p) := by
  obtain ⟨fs, es, a, b, hp, hroot⟩ := h.place_eq hk hplace
  refine ⟨_, hroot, ?_⟩
  intro again r
  have hfind : findBorder m.heap (plug fs (.leaf p es)).root key = some p := by
    rw [Masstree.place, hroot] at hplace
    exact hplace
  rw [Masstree.splitsLong, hroot, Option.any_some, Masstree.turns, longSplit, hfind, Option.any_some] at hguard
  refine hp.insertForward h.ok hk ?_ hguard r
  intro hn h₁ sh₁ t₁ hok₁ hsh₁ hguard₁
  obtain ⟨p₁, -, hpost⟩ := @ShapeOk.insert V h₁ sh₁ value hok₁ _ _ _ _ hsh₁ (hk.next hn)
    (by simp only [Key.next]; omega) hguard₁
  refine ⟨decide (((h₁.mem p₁).searchLinkOrValueWithIndex key.next).1 = .VALUE), ?_⟩
  simp only [decide_eq_true_eq]
  exact hpost

/-- The root of the tree after an insertion below the root that was read. -/
theorem TreeOk.finishInsert_of_post (h : TreeOk m sh) {top : Ptr} {here : Prop} [Decidable here]
    (hroot : m.root = some top) (hr : r < m.heap.fresh)
    (hpost : InsertPost m.heap sh [] top r here key.id value (insertLocked m.heap r node key value))
    (hfin : m.finishInsert key value (some (r, node)) = some (status, m')) :
    ∃ sh', TreeOk m' sh' ∧ (sh' = sh ∧ (∃ v, Holds sh key.id v) ∨
      ∀ K v, Holds sh' K v ↔ Holds sh K v ∨ K = key.id ∧ v = value) := by
  unfold Masstree.finishInsert at hfin
  dsimp only at hfin
  rcases hpost with ⟨hv, hres⟩ | ⟨-, q, h', sh', hres, hfresh, hins⟩
  · refine ⟨sh, ?_, Or.inl ⟨rfl, hv⟩⟩
    rw [hres] at hfin
    by_cases hhere : here
    · rw [if_pos hhere] at hfin
      cases hfin
      exact h
    · rw [if_neg hhere] at hfin
      cases hfin
      rw [if_pos rfl]
      exact h
  · refine ⟨sh', ?_, Or.inr hins.keys⟩
    rw [hres] at hfin
    cases hfin
    refine ⟨hins.ok, ?_⟩
    rw [hins.root]
    cases q with
    | none =>
      rw [Option.getD_none, Option.getD_none, if_pos rfl]
      exact hroot
    | some q =>
      have hne : q ≠ r := by
        rintro rfl
        exact Nat.not_lt.mpr (hfresh q rfl) hr
      rw [Option.getD_some, Option.getD_some, if_neg (fun he => hne (Option.some.inj he))]

theorem TreeOk.finishInsert (h : TreeOk m sh) {k : List UInt8} (hk : k ≠ []) {l : Located V}
    (hl : l.call = .insert_value k value) (hr : ∀ r node, l.found = some (r, node) → r < m.heap.fresh)
    (hplace : m.inPlace l = true) (hspared : (m.entered l).spared l.call = true)
    (hfin : m.finish l = some (status, m')) : ∃ sh', TreeOk m' sh' ∧ Outcome sh sh' l.call status := by
  have hcall : ∀ {m₁ : Masstree V}, TreeOk m₁ sh → m₁.spared (.insert_value k value) = true →
      m₁.insert_value (.ofString k) value = some (status, m') →
      ∃ sh', TreeOk m' sh' ∧ Outcome sh sh' (.insert_value k value) status := by
    intro m₁ h₁ hspared₁ hins
    refine h₁.outcome (c := .insert_value k value) hk hspared₁ ?_
    unfold Masstree.call
    rw [if_neg (show (Call.insert_value k value).key ≠ [] from hk)]
    exact hins
  unfold Masstree.finish at hfin
  rw [hl] at hfin hspared ⊢
  cases hfound : l.found with
  | none =>
    unfold Masstree.entered at hspared
    rw [hl, hfound] at hspared
    rw [hfound] at hfin
    dsimp only [Masstree.finishInsert] at hfin hspared
    split at hfin
    · rw [if_pos ‹_›] at hspared
      exact hcall h hspared hfin
    · rw [if_neg ‹_›] at hspared
      exact hcall (h.alloc _) hspared hfin
  | some found =>
    obtain ⟨r, node⟩ := found
    have hm : m.entered l = m := by
      unfold Masstree.entered
      rw [hl, hfound]
    rw [hm] at hspared
    unfold Masstree.inPlace at hplace
    rw [hfound] at hplace hfin
    dsimp only at hplace hfin
    by_cases hdel : ((m.heap.mem node).deleted && (m.heap.mem node).is_root) = true
    · -- the tree was emptied: the call starts again with the root that is there now
      rw [Bool.and_eq_true] at hdel
      have hretry : insertLocked m.heap r node (.ofString k) value = some (.RETRY_FROM_UPPER_LAYER, none, m.heap) := by
        simp only [insertLocked, insertForward, hdel.1, hdel.2, if_true]
      unfold Masstree.finishInsert at hfin
      dsimp only at hfin
      rw [hretry] at hfin
      exact hcall h hspared hfin
    · rw [Bool.not_eq_true] at hdel
      rw [hdel, Bool.false_or, Bool.and_eq_true, beq_iff_eq, hl] at hplace
      obtain ⟨again, heq⟩ := insertLocked_eq hdel (.ofString k) r value
      cases hgoes : m.goesOn (.ofString k) r node with
      | none =>
        unfold Masstree.finishInsert at hfin
        dsimp only at hfin
        rw [heq, hgoes] at hfin
        cases hfin
      | some p =>
        obtain ⟨top, hroot, hpost⟩ := h.insertPost (Key.at_ofString hk)
          (by simpa [Masstree.spared] using hspared) (hplace.1.symm.trans hgoes) value
        have hpost := hpost again r
        rw [hgoes, Option.bind_some] at heq
        rw [← heq] at hpost
        obtain ⟨sh', hok, ⟨rfl, v, hv⟩ | hkeys⟩ := h.finishInsert_of_post hroot (hr r node hfound) hpost hfin
        · exact ⟨sh', hok, outcome_insert_found hv⟩
        · exact ⟨sh', hok, outcome_insert hkeys⟩

end

section

variable {m m' : Masstree V} {sh : Shape V} {key : Key} {status : Status} {r node p : Ptr}

theorem removeLocked_eq (hdel : ((m.heap.mem node).deleted && (m.heap.mem node).is_root) = false) (key : Key)
    (r : Ptr) : ∃ again, (∀ h₁ p, findBorder h₁ r key = some p → ∃ again' below',
        again h₁ key = removeForward again' below' r key 2 h₁ p) ∧
      removeLocked m.heap r node key = (m.goesOn key r node).bind (removeForward again
        (fun h root k => remove (Masstree.turns key - 1) h root k) r key 2 m.heap) := by
  unfold Masstree.goesOn
  split
  · rename_i hdeleted
    have hroot : (m.heap.mem node).is_root = false := by simpa [hdeleted] using hdel
    refine ⟨fun h k => remove (Masstree.turns key - 1) h r k, fun h₁ p hfind => remove_again hfind, ?_⟩
    have hturn : remove (Masstree.turns key) m.heap r key = _ := remove.eq_2 m.heap r key (Masstree.turns key - 1)
    simp only [removeLocked, removeForward, hdeleted, hroot, if_true, Bool.false_eq_true, if_false]
    exact hturn
  · exact ⟨_, fun h₁ p hfind => remove_again hfind, rfl⟩

/-- The removal with the root that was read still in place. -/
theorem TreeOk.removePost (h : TreeOk m sh) (hk : key.At []) (hguard : m.collapses key = false)
    (hplace : m.place key = some p) (hroot : m.root = some r)
    {again : Heap V → Key → Option (RootChange × Option Ptr × Heap V)}
    (hagain : ∀ h₁ p, findBorder h₁ r key = some p → ∃ again' below',
      again h₁ key = removeForward again' below' r key 2 h₁ p) :
    ∃ last, RemovePost m.heap sh [] r (((m.heap.mem p).searchLinkOrValueWithIndex key).1 = .NOTFOUND) key last
      (removeForward again (fun h root k => remove (Masstree.turns key - 1) h root k) r key 2 m.heap p) := by
  obtain ⟨fs, es, a, b, hp, hroot'⟩ := h.place_eq hk hplace
  obtain rfl := Option.some.inj (hroot.symm.trans hroot')
  have hfind : findBorder m.heap (plug fs (.leaf p es)).root key = some p := by
    rw [Masstree.place, hroot] at hplace
    exact hplace
  rw [Masstree.collapses, hroot, Option.any_some, Masstree.turns, collapse, hfind, Option.any_some] at hguard
  refine ⟨_, hp.removeForward h.ok hk ?_ (fun h₁ hfind₁ => hagain h₁ p hfind₁) hguard⟩
  intro hn t₁ hsh₁ hguard₁
  obtain ⟨p₁, -, hpost⟩ := h.ok.remove hsh₁ (hk.next hn) (by simp only [Key.next]; omega) hguard₁
  refine ⟨decide (((m.heap.mem p₁).searchLinkOrValueWithIndex key.next).1 = .NOTFOUND), ?_⟩
  simp only [decide_eq_true_eq]
  exact hpost

/-- The root of the tree after a removal below the root that was read and is still the root. -/
theorem TreeOk.finishRemove_of_post (h : TreeOk m sh) {k : List UInt8} {here last : Prop} [Decidable here]
    (hroot : m.root = some r)
    (hpost : RemovePost m.heap sh [] r here (.ofString k) last (removeLocked m.heap r node (.ofString k)))
    (hfin : m.finishRemove (.ofString k) (some (r, node)) = some (status, m')) :
    ∃ sh', TreeOk m' sh' ∧ Outcome sh sh' (.remove_value k) status := by
  unfold Masstree.finishRemove at hfin
  dsimp only at hfin
  rcases hpost with ⟨-, hres⟩ | ⟨-, hfound⟩
  · refine ⟨sh, ?_, outcome_remove_same⟩
    rw [hres] at hfin
    by_cases hhere : here
    · rw [if_pos hhere] at hfin
      cases hfin
      exact h
    · rw [if_neg hhere] at hfin
      dsimp only at hfin
      rw [if_pos rfl] at hfin
      cases hfin
      exact h
  · generalize removeLocked m.heap r node (.ofString k) = res at hfound hfin
    cases hfound with
    | @removed change q h' sh' hchange hlower hrem =>
      refine ⟨sh', ?_⟩
      have hok : TreeOk ⟨h', q⟩ sh' := ⟨hrem.ok, hrem.root.symm⟩
      have hstore : (if q = some r then some (Status.OK, (⟨h', m.root⟩ : Masstree V))
          else if m.root = some r then some (.OK, ⟨h', q⟩)
          else (⟨h', m.root⟩ : Masstree V).remove_value (.ofString k)) = some (.OK, ⟨h', q⟩) := by
        split
        · rename_i hq
          rw [hq, hroot]
        · rfl
      have hres : some (status, m') = some (Status.OK, (⟨h', q⟩ : Masstree V)) := by
        rw [← hfin]
        cases change with
        | DataNotFound => exact absurd rfl hchange
        | NotChange => exact hstore
        | NewRoot => exact hstore
        | LayerDeleted => exact hstore
      cases hres
      exact ⟨hok, outcome_remove hrem.keys⟩
    | layer hπ hlast hgone => simp at hπ

/-- A removal that leaves the border node with another key does not look at the root. -/
theorem TreeOk.removeForward_stays (h : TreeOk m sh) (hk : key.At []) (hplace : m.place key = some p)
    (hstays : m.staysBelow key = true) {again : Heap V → Key → Option (RootChange × Option Ptr × Heap V)}
    {below : Heap V → Ptr → Key → Option (RootChange × Option Ptr × Heap V)} :
    removeForward again below r key 2 m.heap p = some (.DataNotFound, some r, m.heap) ∨
      ∃ h' sh', removeForward again below r key 2 m.heap p = some (.NotChange, some r, h') ∧
        TreeOk ⟨h', m.root⟩ sh' ∧ ∀ K v, Holds sh' K v ↔ Holds sh K v ∧ K ≠ key.id := by
  obtain ⟨fs, es, a, b, hp, hroot⟩ := h.place_eq hk hplace
  have hat := hp.borderAt h.ok
  rw [Masstree.staysBelow, hplace, Option.any_some, Bool.and_eq_true, decide_eq_true_eq, Bool.not_eq_true'] at hstays
  obtain ⟨hlen, hlink⟩ := hstays
  have hfind : findBorder m.heap (plug fs (.leaf p es)).root key = some p := by
    rw [Masstree.place, hroot] at hplace
    exact hplace
  rw [Masstree.linked, hroot, Option.any_some, hfind, Option.any_some] at hlink
  have hsearch := hp.search h.ok hk
  generalize hres : (m.heap.mem p).searchLinkOrValueWithIndex key = res at hsearch hlink
  cases hsearch with
  | @value i v hi hkey honly =>
    right
    have hcur : key.cursor = 0 := hk.length.symm
    obtain ⟨-, n, hmark, -⟩ := hat.removeSlot hi hkey
    have hnil : n.permutation.erase i ≠ [] := by
      intro he
      obtain ⟨-, -, hone, -⟩ := hp.only h.ok hi hkey hmark he
      omega
    obtain ⟨sh', hrem⟩ := hp.eraseSlot h.ok hk hi hkey hmark hnil
    refine ⟨m.heap.set p { n with permutation := n.permutation.erase i }, sh', ?_, ⟨hrem.ok, ?_⟩, hrem.keys⟩
    · rw [removeForward_value hat.alive hres (fun hlast => hlast.2.2 hcur) hmark, if_neg hnil]
    · rw [hrem.root]
      exact hroot
  | layer hi hl hslice hn hsh => cases hlink
  | notFound hnot hkey hlayer => exact Or.inl (removeForward_notFound hat.alive hres)

theorem TreeOk.finishRemove (h : TreeOk m sh) {k : List UInt8} (hk : k ≠ []) {l : Located V}
    (hl : l.call = .remove_value k) (hplace : m.inPlace l = true) (hspared : m.spared l.call = true)
    (hfin : m.finish l = some (status, m')) : ∃ sh', TreeOk m' sh' ∧ Outcome sh sh' l.call status := by
  unfold Masstree.finish at hfin
  rw [hl] at hfin hspared ⊢
  cases hfound : l.found with
  | none =>
    rw [hfound] at hfin
    cases hfin
    exact ⟨sh, h, outcome_remove_same⟩
  | some found =>
    obtain ⟨r, node⟩ := found
    unfold Masstree.inPlace at hplace
    rw [hfound] at hplace hfin
    dsimp only at hplace hfin
    by_cases hdel : ((m.heap.mem node).deleted && (m.heap.mem node).is_root) = true
    · -- the tree was emptied, and the call leaves it at that
      rw [Bool.and_eq_true] at hdel
      have hnone : removeLocked m.heap r node (.ofString k) = some (.NotChange, some r, m.heap) := by
        simp only [removeLocked, removeForward, hdel.1, hdel.2, if_true]
      unfold Masstree.finishRemove at hfin
      dsimp only at hfin
      rw [hnone] at hfin
      dsimp only at hfin
      rw [if_pos rfl] at hfin
      cases hfin
      exact ⟨sh, h, outcome_remove_same⟩
    rw [Bool.not_eq_true] at hdel
    rw [hdel, Bool.false_or, Bool.and_eq_true, beq_iff_eq, hl, Bool.or_eq_true, beq_iff_eq] at hplace
    obtain ⟨again, hagain, heq⟩ := removeLocked_eq hdel (.ofString k) r
    cases hgoes : m.goesOn (.ofString k) r node with
    | none =>
      unfold Masstree.finishRemove at hfin
      dsimp only at hfin
      rw [heq, hgoes] at hfin
      cases hfin
    | some p =>
      have hp : m.place (.ofString k) = some p := hplace.1.symm.trans hgoes
      rw [hgoes, Option.bind_some] at heq
      rcases hplace.2 with hroot | hstays
      · obtain ⟨last, hpost⟩ := h.removePost (Key.at_ofString hk) (by simpa [Masstree.spared] using hspared) hp hroot
          hagain
        rw [← heq] at hpost
        exact h.finishRemove_of_post hroot hpost hfin
      · unfold Masstree.finishRemove at hfin
        dsimp only at hfin
        rcases h.removeForward_stays (Key.at_ofString hk) hp hstays with hres | ⟨h', sh', hres, hok, hkeys⟩
        · rw [heq, hres] at hfin
          cases hfin
          exact ⟨sh, h, outcome_remove_same⟩
        · rw [heq, hres] at hfin
          dsimp only at hfin
          rw [if_pos rfl] at hfin
          cases hfin
          exact ⟨sh', hok, outcome_remove hkeys⟩

end

section

variable {m m' : Masstree V} {l : Located V} {status : Status}

theorem finishInsert_fresh {key : Key} {value : V} {found : Option (Ptr × Ptr)}
    (hfin : m.finishInsert key value found = some (status, m')) : m.heap.fresh ≤ m'.heap.fresh := by
  unfold Masstree.finishInsert at hfin
  split at hfin
  · split at hfin
    · exact insert_value_fresh hfin
    · exact Nat.le_trans (Nat.le_succ _) (insert_value_fresh hfin)
  · split at hfin
    · cases hfin
    · rename_i hins
      exact Nat.le_trans (insertForward_fresh masstree_insert_fresh masstree_insert_fresh hins) (insert_value_fresh hfin)
    · rename_i hins
      cases hfin
      exact insertForward_fresh masstree_insert_fresh masstree_insert_fresh hins
    · rename_i hins
      cases hfin
      exact insertForward_fresh masstree_insert_fresh masstree_insert_fresh hins

theorem finishRemove_fresh {key : Key} {found : Option (Ptr × Ptr)}
    (hfin : m.finishRemove key found = some (status, m')) : m.heap.fresh ≤ m'.heap.fresh := by
  unfold Masstree.finishRemove at hfin
  split at hfin
  · cases hfin
    exact Nat.le_refl _
  · split at hfin
    · cases hfin
    · rename_i hrem
      cases hfin
      exact Nat.le_of_eq (removeForward_fresh remove_fresh remove_fresh hrem).symm
    · rename_i hrem
      have hfresh := Nat.le_of_eq (removeForward_fresh remove_fresh remove_fresh hrem).symm
      split at hfin
      · cases hfin
        exact hfresh
      · split at hfin
        · cases hfin
          exact hfresh
        · exact Nat.le_trans hfresh (remove_value_fresh hfin)

theorem finish_fresh (hfin : m.finish l = some (status, m')) : m.heap.fresh ≤ m'.heap.fresh := by
  unfold Masstree.finish at hfin
  split at hfin
  · exact finishInsert_fresh hfin
  · exact finishRemove_fresh hfin

end

structure SystemOk (s : System V) : Prop where
  tree : ∃ sh, TreeOk s.tree sh
  key : ∀ t l, s.located t = some l → l.call.key ≠ []
  root : ∀ t l r node, s.located t = some l → l.found = some (r, node) → r < s.tree.heap.fresh
  found : ∀ k, k ≠ [] → kept k s.log = true → ∃ v, s.tree.get_value (.ofString k) = some (some v)

section

variable {s s' : System V}

theorem systemOk_init : SystemOk (.init : System V) where
  tree := ⟨_, treeOk_new⟩
  key := nofun
  root := nofun
  found := by
    intro k _ hkept
    cases hkept

theorem SystemOk.locate (h : SystemOk s) {t : Nat} {c : Call V} (hstep : s.step (.locate t c) = some s') :
    SystemOk s' := by
  unfold System.step at hstep
  dsimp only at hstep
  split at hstep
  · cases hstep
  obtain ⟨l, hl, rfl⟩ := Option.map_eq_some_iff.mp hstep
  obtain ⟨sh, hok⟩ := h.tree
  have hnew : l.call.key ≠ [] ∧ ∀ r node, l.found = some (r, node) → r < s.tree.heap.fresh := by
    unfold Masstree.locate at hl
    split at hl
    · cases hl
    split at hl
    · cases hl
      exact ⟨‹_›, nofun⟩
    · rename_i root hroot
      obtain ⟨node, -, rfl⟩ := Option.map_eq_some_iff.mp hl
      refine ⟨‹_›, ?_⟩
      rintro r node' he
      cases he
      rw [hok.root] at hroot
      obtain ⟨t', ht, rfl⟩ := Option.map_eq_some_iff.mp hroot
      exact (hok.ok.layer [] t' ht).lt _ t'.root_mem_ptrs
  have hcases : ∀ {t' l'}, Function.update s.located t (some l) t' = some l' → l' = l ∨ s.located t' = some l' := by
    intro t' l' hl'
    by_cases he : t' = t
    · rw [he, Function.update_self] at hl'
      exact Or.inl (Option.some.inj hl').symm
    · rw [Function.update_of_ne he] at hl'
      exact Or.inr hl'
  refine ⟨h.tree, ?_, ?_, h.found⟩
  · intro t' l' hl'
    rcases hcases hl' with rfl | hl'
    · exact hnew.1
    · exact h.key t' l' hl'
  · intro t' l' r node hl' hfound
    rcases hcases hl' with rfl | hl'
    · exact hnew.2 r node hfound
    · exact h.root t' l' r node hl' hfound

theorem SystemOk.finish (h : SystemOk s) {t : Nat} (hgood : s.ok (.finish t) = true)
    (hstep : s.step (.finish t) = some s') : SystemOk s' := by
  unfold System.step at hstep
  simp only [Option.bind_eq_bind, Option.bind_eq_some_iff] at hstep
  obtain ⟨l, hl, ⟨status, tree⟩, hfin, hstep⟩ := hstep
  cases hstep
  rw [System.ok, hl, Option.all_some, Bool.and_eq_true] at hgood
  obtain ⟨sh, hok⟩ := h.tree
  have hkey := h.key t l hl
  obtain ⟨sh', hok', hout⟩ : ∃ sh', TreeOk tree sh' ∧ Outcome sh sh' l.call status := by
    cases hc : l.call with
    | insert_value key value =>
      rw [hc] at hkey
      rw [← hc]
      exact hok.finishInsert hkey hc (fun r node => h.root t l r node hl) hgood.1 hgood.2 hfin
    | remove_value key =>
      have hentered : s.tree.entered l = s.tree := by
        unfold Masstree.entered
        rw [hc]
      rw [hentered] at hgood
      rw [hc] at hkey
      rw [← hc]
      exact hok.finishRemove hkey hc hgood.1 hgood.2 hfin
  have hother : ∀ {t' l'}, Function.update s.located t none t' = some l' → s.located t' = some l' := by
    intro t' l' hl'
    by_cases he : t' = t
    · rw [he, Function.update_self] at hl'
      cases hl'
    · rwa [Function.update_of_ne he] at hl'
  refine ⟨⟨sh', hok'⟩, fun t' l' hl' => h.key t' l' (hother hl'), ?_, ?_⟩
  · intro t' l' r node hl' hfound
    exact Nat.lt_of_lt_of_le (h.root t' l' r node (hother hl') hfound) (finish_fresh hfin)
  · intro k hk hkept
    rw [kept, List.foldl_append] at hkept
    exact hout.found hok hok' hkey hk (h.found k hk) hkept

theorem systemOk_reach (hreach : Reach System.step (· = .init) (fun s a => s.ok a = true) s) : SystemOk s := by
  refine Reach.invariant ?_ ?_ hreach
  · rintro s rfl
    exact systemOk_init
  · rintro s a s' hs hgood hstep
    cases a with
    | locate t c => exact hs.locate hstep
    | finish t => exact hs.finish hgood hstep

theorem no_insert_lost (hreach : Reach System.step (· = .init) (fun s a => s.ok a = true) s) : s.NothingLost := by
  have h := systemOk_reach hreach
  obtain ⟨sh, hok⟩ := h.tree
  exact ⟨h.found, fun K p i p' i' => hok.occurs_once⟩

/-- A thread that takes no step stays where it is. -/
theorem System.exec_located {as : List (ThreadStep V)} {t : Nat} (hexec : exec System.step s as = some s')
    (ht : ∀ a ∈ as, a.thread ≠ t) : s'.located t = s.located t := by
  induction as generalizing s with
  | nil =>
    cases hexec
    rfl
  | cons a as ih =>
    obtain ⟨s₁, hstep, hexec⟩ := Option.bind_eq_some_iff.mp hexec
    rw [ih hexec fun a ha => ht a (List.mem_cons_of_mem _ ha)]
    have hne : t ≠ a.thread := (ht a List.mem_cons_self).symm
    cases a with
    | locate t' c =>
      unfold System.step at hstep
      dsimp only at hstep
      split at hstep
      · cases hstep
      obtain ⟨l, -, rfl⟩ := Option.map_eq_some_iff.mp hstep
      exact Function.update_of_ne hne _ _
    | finish t' =>
      unfold System.step at hstep
      simp only [Option.bind_eq_bind, Option.bind_eq_some_iff] at hstep
      obtain ⟨l, -, ⟨status, tree⟩, -, hstep⟩ := hstep
      cases hstep
      exact Function.update_of_ne hne _ _

end

/-- Both steps of a call. -/
def ThreadStep.both (thread : Nat) (c : Call V) : List (ThreadStep V) := [.locate thread c, .finish thread]

/-- A full border node with the keys `10, 20 … 150`. Thread 1 locates it for the key `k`, and thread 0
splits it before thread 1 goes on. -/
def splitBetween (k : List UInt8) : List (ThreadStep Nat) :=
  ((List.range 15).flatMap fun i => ThreadStep.both 0 (.insert_value [UInt8.ofNat (10 * (i + 1))] i)) ++
    [.locate 1 (.insert_value k 15)] ++ ThreadStep.both 0 (.insert_value [75] 16) ++ [.finish 1]

def System.after (as : List (ThreadStep Nat)) : System Nat := (exec System.step .init as).getD .init

theorem exec_after {as : List (ThreadStep Nat)} (hsome : (exec System.step .init as).isSome) :
    exec System.step .init as = some (System.after as) := by
  obtain ⟨s, hs⟩ := Option.isSome_iff_exists.mp hsome
  rw [System.after, hs]
  rfl

/-- The key stays in the left half. -/
theorem no_insert_lost_left_half : (System.after (splitBetween [15])).NothingLost := by
  exact no_insert_lost (Reach.exec_of_admits (.start rfl) (by decide +kernel) (exec_after (by decide +kernel)))

/-- The key has moved to the right half, and the thread stores it in the left one. -/
theorem insert_lost_in_right_half :
    ¬ ∀ s : System Nat, Reach System.step (· = .init) anyStep s → (∀ t, s.located t = none) → s.NothingLost := by
  intro hall
  have hexec := @exec_after (splitBetween [145]) (by decide +kernel)
  have hquiet : ∀ t, (System.after (splitBetween [145])).located t = none := by
    intro t
    by_cases ht : t < 2
    · have hboth : ∀ t < 2, ((System.after (splitBetween [145])).located t).isNone = true := by decide +kernel
      exact Option.isNone_iff_eq_none.mp (hboth t ht)
    · refine System.exec_located hexec ?_
      have hthreads : ∀ a ∈ splitBetween [145], a.thread < 2 := by decide +kernel
      intro a ha he
      exact ht (he ▸ hthreads a ha)
  obtain ⟨v, hv⟩ := (hall _ (reach_of_exec rfl hexec) hquiet).found [145] (by decide) (by decide +kernel)
  have hnone : (System.after (splitBetween [145])).tree.get_value (.ofString [145]) = some none := by decide +kernel
  rw [hnone] at hv
  cases hv

end Cassa.Masstree

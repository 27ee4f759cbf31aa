import Cassa.Lib.SearchTree
import Cassa.Masstree.SplitPoint

/-!
# One layer in memory

A layer is a search tree whose nodes are in memory: a border node holds the entries of a
leaf, an interior node the separators and the addresses of the children, every node the
address of its parent. The border nodes form a doubly linked list in the order of the
leaves.
-/

namespace Cassa.Masstree

open Cassa.Lib.SearchTree

variable {V : Type}

abbrev Layer (V : Type) := BTree (Slot V)

structure BorderAt (n : Node V) (parent : Option Ptr) (es : List (Slot V)) : Prop where
  border : n.is_border = true
  alive : n.deleted = false
  parent : n.parent = parent
  slots : n.SlotsOk
  entries : n.entries = es

structure InteriorAt (n : Node V) (parent : Option Ptr) (ks : List Nat) (cs : List Ptr) : Prop where
  border : n.is_border = false
  alive : n.deleted = false
  parent : n.parent = parent
  keys : cells n.key_slice n.n_keys = ks
  children : cells n.child (n.n_keys + 1) = cs.map some

/-- The two nodes are the same node of a layer: they differ in the flag `is_root`, the
counter or the pointers to other layers and in the list at most. -/
structure Node.Alike (n m : Node V) : Prop where
  border : m.is_border = n.is_border
  alive : m.deleted = n.deleted
  slot : m.slot = n.slot
  permutation : m.permutation = n.permutation
  n_keys : m.n_keys = n.n_keys
  key_slice : m.key_slice = n.key_slice
  child : m.child = n.child

theorem Node.Alike.refl (n : Node V) : n.Alike n := ⟨rfl, rfl, rfl, rfl, rfl, rfl, rfl⟩

theorem Node.Alike.trans {n m k : Node V} (h : n.Alike m) (h' : m.Alike k) : n.Alike k :=
  ⟨h'.border.trans h.border, h'.alive.trans h.alive, h'.slot.trans h.slot,
    h'.permutation.trans h.permutation, h'.n_keys.trans h.n_keys, h'.key_slice.trans h.key_slice,
    h'.child.trans h.child⟩

theorem Node.SlotsOk.congr {n m : Node V} (h : n.SlotsOk) (hs : m.slot = n.slot)
    (hp : m.permutation = n.permutation) : m.SlotsOk where
  nodup := by rw [hp]; exact h.nodup
  lt := by rw [hp]; exact h.lt
  live := by rw [hp, hs]; exact h.live
  free := by rw [hp, hs]; exact h.free
  ids := by rw [hp, hs]; exact h.ids

theorem BorderAt.alike {n m : Node V} {par par' : Option Ptr} {es : List (Slot V)}
    (h : BorderAt n par es) (ha : n.Alike m) (hp : m.parent = par') : BorderAt m par' es where
  border := ha.border.trans h.border
  alive := ha.alive.trans h.alive
  parent := hp
  slots := h.slots.congr ha.slot ha.permutation
  entries := by
    rw [← h.entries, Node.entries, Node.entries, ha.slot, ha.permutation]

theorem InteriorAt.alike {n m : Node V} {par par' : Option Ptr} {ks : List Nat} {cs : List Ptr}
    (h : InteriorAt n par ks cs) (ha : n.Alike m) (hp : m.parent = par') : InteriorAt m par' ks cs where
  border := ha.border.trans h.border
  alive := ha.alive.trans h.alive
  parent := hp
  keys := by rw [ha.key_slice, ha.n_keys]; exact h.keys
  children := by rw [ha.child, ha.n_keys]; exact h.children

theorem InteriorAt.n_keys {n : Node V} {par : Option Ptr} {ks : List Nat} {cs : List Ptr}
    (h : InteriorAt n par ks cs) : n.n_keys = ks.length := by
  rw [← h.keys, length_cells]

theorem InteriorAt.length {n : Node V} {par : Option Ptr} {ks : List Nat} {cs : List Ptr}
    (h : InteriorAt n par ks cs) : cs.length = ks.length + 1 := by
  have := congrArg List.length h.children
  rw [length_cells, List.length_map, h.n_keys] at this
  exact this.symm

theorem InteriorAt.child_eq {n : Node V} {par : Option Ptr} {ks : List Nat} {cs : List Ptr}
    (h : InteriorAt n par ks cs) {i : Nat} {c : Ptr} (hc : cs[i]? = some c) : n.child i = some c := by
  have hi : i < n.n_keys + 1 := by
    rw [h.n_keys, ← h.length]
    by_contra hge
    rw [List.getElem?_eq_none (by omega)] at hc
    cases hc
  have := congrArg (·[i]?) h.children
  simp only [getElem?_cells, if_pos hi, List.getElem?_map, hc, Option.map_some] at this
  exact Option.some.inj this

theorem InteriorAt.key_eq {n : Node V} {par : Option Ptr} {ks : List Nat} {cs : List Ptr}
    (h : InteriorAt n par ks cs) {i k : Nat} (hk : ks[i]? = some k) : n.key_slice i = k := by
  have hi : i < n.n_keys := by
    rw [h.n_keys]
    by_contra hge
    rw [List.getElem?_eq_none (by omega)] at hk
    cases hk
  have := congrArg (·[i]?) h.keys
  simp only [getElem?_cells, if_pos hi, hk] at this
  exact Option.some.inj this

mutual

/-- The tree is in memory below the node `parent`. -/
def Stored (h : Heap V) : Option Ptr → Layer V → Prop
  | par, .leaf p es => BorderAt (h.mem p) par es
  | par, .inner p ks cs => InteriorAt (h.mem p) par ks (cs.map BTree.root) ∧ StoredAll h (some p) cs

def StoredAll (h : Heap V) : Option Ptr → List (Layer V) → Prop
  | _, [] => True
  | par, c :: cs => Stored h par c ∧ StoredAll h par cs

end

section

variable {h h' : Heap V} {par par' : Option Ptr}

theorem stored_leaf {p : Ptr} {es : List (Slot V)} :
    Stored h par (.leaf p es) ↔ BorderAt (h.mem p) par es := by
  rw [Stored]

theorem storedAll_iff {cs : List (Layer V)} : StoredAll h par cs ↔ ∀ c ∈ cs, Stored h par c := by
  induction cs with
  | nil =>
    rw [StoredAll]
    simp
  | cons c cs ih =>
    rw [StoredAll, ih]
    simp

theorem stored_inner {p : Ptr} {ks : List Nat} {cs : List (Layer V)} :
    Stored h par (.inner p ks cs) ↔ InteriorAt (h.mem p) par ks (cs.map BTree.root) ∧
      ∀ c ∈ cs, Stored h (some p) c := by
  rw [Stored, storedAll_iff]

/-- A tree stays in memory as long as its nodes stay the same; its root may get a new
parent. -/
theorem Stored.congr {t : Layer V} : ∀ {par par' : Option Ptr}, Stored h par t → t.ptrs.Nodup →
    (∀ p ∈ t.ptrs, (h.mem p).Alike (h'.mem p)) →
    (∀ p ∈ t.ptrs, p ≠ t.root → (h'.mem p).parent = (h.mem p).parent) →
    (h'.mem t.root).parent = par' → Stored h' par' t := by
  induction t using BTree.ind with
  | hleaf p es =>
    intro par par' hst _ halike _ hroot
    exact stored_leaf.mpr ((stored_leaf.mp hst).alike (halike p (by simp)) hroot)
  | hinner p ks cs ih =>
    intro par par' hst hnodup halike hparent hroot
    obtain ⟨hn, hcs⟩ := stored_inner.mp hst
    rw [BTree.ptrs_inner, List.nodup_cons] at hnodup
    refine stored_inner.mpr ⟨hn.alike (halike p (by simp)) hroot, ?_⟩
    intro c hc
    have hsub : ∀ q ∈ c.ptrs, q ∈ BTree.forestPtrs cs := fun q hq => BTree.mem_forestPtrs.mpr ⟨c, hc, hq⟩
    have hne : ∀ q ∈ c.ptrs, q ≠ p := fun q hq he => hnodup.1 (he ▸ hsub q hq)
    have hmem : ∀ q ∈ c.ptrs, q ∈ (BTree.inner p ks cs).ptrs := by
      intro q hq
      simp [hsub q hq]
    have hcn : c.ptrs.Nodup := by
      obtain ⟨l, r, rfl⟩ := List.append_of_mem hc
      rw [BTree.forestPtrs_append, BTree.forestPtrs_cons] at hnodup
      exact (List.nodup_append.mp (List.nodup_append.mp hnodup.2).2.1).1
    have hcpar : (h.mem c.root).parent = some p := by
      have := hcs c hc
      cases c with
      | leaf q es => exact (stored_leaf.mp this).parent
      | inner q ks cs => exact (stored_inner.mp this).1.parent
    refine ih c hc (hcs c hc) hcn (fun q hq => halike q (hmem q hq)) ?_ ?_
    · intro q hq _
      exact hparent q (hmem q hq) (hne q hq)
    · rw [hparent c.root (hmem _ c.root_mem_ptrs) (hne _ c.root_mem_ptrs), hcpar]

theorem Stored.parent_root {t : Layer V} (hst : Stored h par t) : (h.mem t.root).parent = par := by
  cases t with
  | leaf p es => exact (stored_leaf.mp hst).parent
  | inner p ks cs => exact (stored_inner.mp hst).1.parent

/-- Nothing of the tree has changed. -/
theorem Stored.frame {t : Layer V} (hst : Stored h par t) (hnodup : t.ptrs.Nodup)
    (hsame : ∀ p ∈ t.ptrs, (h.mem p).Alike (h'.mem p) ∧ (h'.mem p).parent = (h.mem p).parent) :
    Stored h' par t :=
  hst.congr hnodup (fun p hp => (hsame p hp).1) (fun p hp _ => (hsame p hp).2)
    (by rw [(hsame _ t.root_mem_ptrs).2, hst.parent_root])

theorem Stored.alive {t : Layer V} : ∀ {par : Option Ptr}, Stored h par t →
    ∀ p ∈ t.ptrs, (h.mem p).deleted = false := by
  induction t using BTree.ind with
  | hleaf p es =>
    intro par hst q hq
    obtain rfl : q = p := by simpa using hq
    exact (stored_leaf.mp hst).alive
  | hinner p ks cs ih =>
    intro par hst q hq
    obtain ⟨hn, hcs⟩ := stored_inner.mp hst
    rw [BTree.ptrs_inner, List.mem_cons] at hq
    rcases hq with rfl | hq
    · exact hn.alive
    · obtain ⟨c, hc, hq⟩ := BTree.mem_forestPtrs.mp hq
      exact ih c hc (hcs c hc) q hq

/-- The frames are in memory, around a tree with the root `r`. -/
def StoredCtx (h : Heap V) : List (Frame (Slot V)) → Ptr → Prop
  | [], _ => True
  | f :: fs, r => InteriorAt (h.mem f.p) (parent fs) (f.kl ++ f.kr)
      (f.cl.map BTree.root ++ r :: f.cr.map BTree.root) ∧
      (∀ c ∈ f.cl ++ f.cr, Stored h (some f.p) c) ∧ StoredCtx h fs f.p

theorem stored_plug {fs : List (Frame (Slot V))} {t : Layer V} : Stored h none (plug fs t) ↔
    StoredCtx h fs t.root ∧ Stored h (parent fs) t := by
  induction fs generalizing t with
  | nil => simp [plug, StoredCtx, parent]
  | cons f fs ih =>
    rw [plug, ih, Frame.fill, stored_inner, StoredCtx]
    have hparent : parent (f :: fs) = some f.p := rfl
    have hmap : (f.cl ++ t :: f.cr).map BTree.root =
        f.cl.map BTree.root ++ t.root :: f.cr.map BTree.root := by simp
    rw [hparent, hmap]
    constructor
    · rintro ⟨hctx, hn, hcs⟩
      refine ⟨⟨hn, ?_, hctx⟩, hcs t (by simp)⟩
      intro c hc
      refine hcs c ?_
      rcases List.mem_append.mp hc with hc | hc
      · exact List.mem_append_left _ hc
      · exact List.mem_append_right _ (List.mem_cons_of_mem _ hc)
    · rintro ⟨⟨hn, hcs, hctx⟩, ht⟩
      refine ⟨hctx, hn, ?_⟩
      intro c hc
      rcases List.mem_append.mp hc with hc | hc
      · exact hcs c (List.mem_append_left _ hc)
      · rcases List.mem_cons.mp hc with rfl | hc
        · exact ht
        · exact hcs c (List.mem_append_right _ hc)

theorem StoredCtx.frame {fs : List (Frame (Slot V))} : ∀ {r : Ptr}, StoredCtx h fs r →
    (ctxPtrs fs).Nodup →
    (∀ p ∈ ctxPtrs fs, (h.mem p).Alike (h'.mem p) ∧ (h'.mem p).parent = (h.mem p).parent) →
    StoredCtx h' fs r := by
  induction fs with
  | nil => intro r _ _ _; trivial
  | cons f fs ih =>
    rintro r ⟨hn, hcs, hctx⟩ hnodup hsame
    rw [ctxPtrs] at hnodup hsame
    obtain ⟨hfirst, hrest, -⟩ := List.nodup_append.mp hnodup
    have hp := hsame f.p (by simp)
    refine ⟨hn.alike hp.1 (hp.2.trans hn.parent), ?_, ih hctx hrest fun p hp => hsame p (by simp [hp])⟩
    intro c hc
    have hsub : ∀ q ∈ c.ptrs, q ∈ BTree.forestPtrs f.cl ++ BTree.forestPtrs f.cr := by
      intro q hq
      rw [← BTree.forestPtrs_append]
      exact BTree.mem_forestPtrs.mpr ⟨c, hc, hq⟩
    have hcn : c.ptrs.Nodup := by
      rw [← BTree.forestPtrs_append] at hfirst
      obtain ⟨l, r, he⟩ := List.append_of_mem hc
      rw [he, BTree.forestPtrs_append, BTree.forestPtrs_cons] at hfirst
      exact (List.nodup_append.mp (List.nodup_append.mp (List.nodup_cons.mp hfirst).2).2.1).1
    refine (hcs c hc).frame hcn ?_
    intro q hq
    refine hsame q ?_
    have := hsub q hq
    simp only [List.mem_append, List.mem_cons] at this ⊢
    tauto

/-- The nodes of `l` are linked in this order, after `prev` and before `next`. -/
def Seg (h : Heap V) : Option Ptr → List Ptr → Option Ptr → Prop
  | _, [], _ => True
  | prev, p :: l, next =>
    (h.mem p).prev = prev ∧ (h.mem p).next = l.head?.or next ∧ Seg h (some p) l next

theorem seg_append {l l' : List Ptr} {prev next : Option Ptr} : Seg h prev (l ++ l') next ↔
    Seg h prev l (l'.head?.or next) ∧ Seg h (l.getLast?.or prev) l' next := by
  induction l generalizing prev with
  | nil => simp [Seg]
  | cons p l ih =>
    rw [List.cons_append, Seg, Seg, ih]
    have hhead : (l ++ l').head?.or next = l.head?.or (l'.head?.or next) := by
      cases l <;> simp
    have hlast : (p :: l).getLast?.or prev = l.getLast?.or (some p) := by
      cases l with
      | nil => simp
      | cons q l => simp [List.getLast?_cons]
    rw [hhead, hlast]
    tauto

theorem Seg.frame {l : List Ptr} : ∀ {prev next : Option Ptr}, Seg h prev l next →
    (∀ p ∈ l, (h'.mem p).prev = (h.mem p).prev ∧ (h'.mem p).next = (h.mem p).next) →
    Seg h' prev l next := by
  induction l with
  | nil => intro prev next _ _; trivial
  | cons p l ih =>
    rintro prev next ⟨hprev, hnext, hrest⟩ hsame
    obtain ⟨h₁, h₂⟩ := hsame p List.mem_cons_self
    exact ⟨h₁.trans hprev, h₂.trans hnext, ih hrest fun q hq => hsame q (List.mem_cons_of_mem _ hq)⟩

/-- Another node before the list. -/
theorem Seg.setPrev {l : List Ptr} {prev prev' next : Option Ptr} (hs : Seg h prev l next)
    (hfirst : ∀ p ∈ l.head?, (h'.mem p).prev = prev' ∧ (h'.mem p).next = (h.mem p).next)
    (hrest : ∀ p ∈ l.tail, (h'.mem p).prev = (h.mem p).prev ∧ (h'.mem p).next = (h.mem p).next) :
    Seg h' prev' l next := by
  cases l with
  | nil => trivial
  | cons p l =>
    obtain ⟨-, hnext, hl⟩ := hs
    obtain ⟨h₁, h₂⟩ := hfirst p rfl
    exact ⟨h₁, h₂.trans hnext, hl.frame hrest⟩

/-- Another node behind the list. -/
theorem Seg.setNext {l : List Ptr} {q : Ptr} {prev next next' : Option Ptr}
    (hs : Seg h prev (l ++ [q]) next)
    (hlast : (h'.mem q).prev = (h.mem q).prev ∧ (h'.mem q).next = next')
    (hrest : ∀ p ∈ l, (h'.mem p).prev = (h.mem p).prev ∧ (h'.mem p).next = (h.mem p).next) :
    Seg h' prev (l ++ [q]) next' := by
  obtain ⟨hl, hq, -, -⟩ := seg_append.mp hs
  refine seg_append.mpr ⟨?_, hlast.1.trans hq, by simpa using hlast.2, trivial⟩
  simpa using hl.frame hrest

/-- All slices. -/
def maxSlice : Nat := 2 ^ 64

structure LayerOk (h : Heap V) (t : Layer V) : Prop where
  wf : t.Wf Slot.key_slice 15 0 maxSlice
  stored : Stored h none t
  nodup : t.ptrs.Nodup
  lt : ∀ p ∈ t.ptrs, p < h.fresh
  roots : ∀ p ∈ t.ptrs, (h.mem p).is_root = true ↔ p = t.root
  linked : Seg h none (t.leaves.map Prod.fst) none

theorem findChildFrom_eq {n : Node V} {x m : Nat} (hstop : m = n.n_keys ∨ x < n.key_slice m)
    (hm : m ≤ n.n_keys) : ∀ d j, j + d = m → (∀ i, j ≤ i → i < m → n.key_slice i ≤ x) →
      n.findChildFrom x (n.n_keys - j) j = n.child m := by
  intro d
  induction d with
  | zero =>
    rintro j rfl _
    by_cases hlast : j = n.n_keys
    · have : n.n_keys - j = 0 := by omega
      rw [Nat.add_zero, this, Node.findChildFrom]
    · have hx : x < n.key_slice j := hstop.resolve_left hlast
      obtain ⟨k, hk⟩ : ∃ k, n.n_keys - j = k + 1 := ⟨n.n_keys - j - 1, by omega⟩
      rw [Nat.add_zero, hk, Node.findChildFrom, if_pos hx]
  | succ d ih =>
    intro j hj hle
    obtain ⟨k, hk⟩ : ∃ k, n.n_keys - j = k + 1 := ⟨n.n_keys - j - 1, by omega⟩
    have hjx : n.key_slice j ≤ x := hle j (Nat.le_refl _) (by omega)
    have hk' : k = n.n_keys - (j + 1) := by omega
    rw [hk, Node.findChildFrom, if_neg (by omega), hk']
    exact ih (j + 1) (by omega) fun i hi => hle i (by omega)

/-- `findChild` takes the child in front of the first separator above the slice. -/
theorem findChild_eq {n : Node V} {par : Option Ptr} {kl kr : List Nat} {cl cr : List Ptr} {c : Ptr}
    {x : Nat} (hn : InteriorAt n par (kl ++ kr) (cl ++ c :: cr)) (hlen : kl.length = cl.length)
    (hle : ∀ k ∈ kl, k ≤ x) (hlt : ∀ k ∈ kr.head?, x < k) : n.findChild x = some c := by
  have hchild : n.child kl.length = some c := by
    apply hn.child_eq
    rw [hlen, List.getElem?_append_right (Nat.le_refl _)]
    simp
  have hnk := hn.n_keys
  rw [List.length_append] at hnk
  rw [Node.findChild, ← hchild]
  refine findChildFrom_eq ?_ (by omega) kl.length 0 (by omega) ?_
  · cases kr with
    | nil =>
      left
      simpa using hnk.symm
    | cons k kr =>
      right
      rw [hn.key_eq (k := k) (by simp)]
      exact hlt k rfl
  · intro i _ hi
    have hget : (kl ++ kr)[i]? = some (kl.get ⟨i, hi⟩) := by
      rw [List.getElem?_append_left hi]
      simp
    rw [hn.key_eq hget]
    exact hle _ (List.get_mem ..)

/-- From the root of a tree to the leaf for `x`. -/
theorem descend_spec {x : Nat} {t : Layer V} : ∀ {par : Option Ptr} {lo hi : Nat}, Stored h par t →
    t.Wf Slot.key_slice 15 lo hi → lo ≤ x → x < hi →
    ∃ fs p es a b, t = plug fs (.leaf p es) ∧ WfCtx Slot.key_slice 15 fs a b lo hi ∧
      (BTree.leaf p es).Wf Slot.key_slice 15 a b ∧ a ≤ x ∧ x < b ∧
      ∀ fuel, fs.length < fuel → descend h x fuel t.root = some p := by
  induction t using BTree.ind with
  | hleaf p es =>
    intro par lo hi hst hwf hlo hhi
    refine ⟨[], p, es, lo, hi, rfl, ⟨rfl, rfl⟩, hwf, hlo, hhi, ?_⟩
    intro fuel hfuel
    obtain ⟨k, rfl⟩ : ∃ k, fuel = k + 1 := ⟨fuel - 1, by simp at hfuel; omega⟩
    change descend h x (k + 1) p = some p
    rw [descend, if_pos (stored_leaf.mp hst).border]
  | hinner p ks cs ih =>
    intro par lo hi hst hwf hlo hhi
    obtain ⟨hne, hcap, hforest⟩ := BTree.wf_inner.mp hwf
    obtain ⟨kl, kr, cl, c, cr, a, b, rfl, rfl, hlen, hle, hlt, hl, hc, hr, ha, hb⟩ :=
      hforest.route hlo hhi
    obtain ⟨hn, hcs⟩ := stored_inner.mp hst
    obtain ⟨fs, q, es, a', b', rfl, hctx, hleaf, ha', hb', hdesc⟩ :=
      ih c (by simp) (hcs c (by simp)) hc ha hb
    refine ⟨fs ++ [⟨p, kl, cl, kr, cr, hlen⟩], q, es, a', b', ?_, ?_, hleaf, ha', hb', ?_⟩
    · rw [plug_append]
      rfl
    · exact hctx.append ⟨lo, hi, hl, hr, hne, hcap, rfl, rfl⟩
    · intro fuel hfuel
      obtain ⟨k, rfl⟩ : ∃ k, fuel = k + 1 := ⟨fuel - 1, by simp at hfuel; omega⟩
      have hmap : (cl ++ plug fs (.leaf q es) :: cr).map BTree.root =
          cl.map BTree.root ++ (plug fs (.leaf q es)).root :: cr.map BTree.root := by simp
      rw [hmap] at hn
      have hchild := findChild_eq hn (by simpa using hlen) hle hlt
      change descend h x (k + 1) p = some q
      rw [descend, if_neg (by simp [hn.border]), hchild]
      exact hdesc k (by simp at hfuel; omega)

theorem length_le_ctxPtrs (fs : List (Frame (Slot V))) : fs.length ≤ (ctxPtrs fs).length := by
  induction fs with
  | nil => exact Nat.zero_le _
  | cons f fs ih =>
    simp only [ctxPtrs, List.length_append, List.length_cons]
    omega

/-- The nodes of a layer have different addresses, all of them below `fresh`. -/
theorem LayerOk.length_ptrs {t : Layer V} (hok : LayerOk h t) : t.ptrs.length ≤ h.fresh := by
  have hsub : t.ptrs ⊆ List.range h.fresh := fun p hp => List.mem_range.mpr (hok.lt p hp)
  simpa using (List.subperm_of_subset hok.nodup hsub).length_le

theorem LayerOk.findBorder {t : Layer V} (hok : LayerOk h t) {key : Key} (hk : key.Wf) :
    ∃ fs p es a b, t = plug fs (.leaf p es) ∧ WfCtx Slot.key_slice 15 fs a b 0 maxSlice ∧
      (BTree.leaf p es).Wf Slot.key_slice 15 a b ∧ a ≤ key.getCurrentSlice.slice ∧ key.getCurrentSlice.slice < b ∧
      findBorder h t.root key = some p := by
  obtain ⟨fs, p, es, a, b, ht, hctx, hleaf, ha, hb, hdesc⟩ :=
    descend_spec hok.stored hok.wf (Nat.zero_le _) (Key.slice_lt hk)
  refine ⟨fs, p, es, a, b, ht, hctx, hleaf, ha, hb, ?_⟩
  have hroot : (h.mem t.root).is_root = true := (hok.roots t.root t.root_mem_ptrs).mpr rfl
  have hlen : fs.length ≤ h.fresh := by
    have hptrs := (ptrs_plug fs (.leaf p es)).length_eq
    rw [← ht, List.length_append] at hptrs
    have := hok.length_ptrs
    have := length_le_ctxPtrs fs
    omega
  rw [Masstree.findBorder, climb, if_pos hroot]
  exact hdesc _ (by omega)

end

end Cassa.Masstree

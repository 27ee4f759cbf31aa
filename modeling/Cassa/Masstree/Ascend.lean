import Cassa.Masstree.Fresh
import Cassa.Masstree.Layer

/-!
# The way up after a split

A node was cut in two, and the right half goes up as a new sibling: into the parent if
there is room, else the parent is cut in two as well, and at the root the two halves get
a new root. `Cut` is the state on the way up: a left tree in its place, and a right tree
that no node points to yet.
-/

namespace Cassa.Masstree

open Cassa.Lib.SearchTree

variable {V : Type} {h h' : Heap V}

theorem mem_modify (h : Heap V) (p q : Ptr) (f : Node V → Node V) :
    (h.modify p f).mem q = if q = p then f (h.mem q) else h.mem q := by
  by_cases hq : q = p
  · subst hq
    simp
  · rw [Heap.mem_modify_of_ne _ _ hq, if_neg hq]

theorem mem_set (h : Heap V) (p q : Ptr) (n : Node V) :
    (h.set p n).mem q = if q = p then n else h.mem q := by
  by_cases hq : q = p
  · subst hq
    simp
  · rw [Heap.mem_set_of_ne _ _ hq, if_neg hq]

theorem mem_modify? (h : Heap V) (p : Option Ptr) (q : Ptr) (f : Node V → Node V) :
    (h.modify? p f).mem q = if p = some q then f (h.mem q) else h.mem q := by
  cases p with
  | none => simp [Heap.modify?]
  | some p =>
    rw [Heap.modify?, mem_modify]
    by_cases hq : q = p
    · subst hq
      simp
    · rw [if_neg hq, if_neg fun he => hq (Option.some.inj he).symm]

theorem mem_alloc (h : Heap V) (n : Node V) (q : Ptr) :
    (h.alloc n).2.mem q = if q = h.fresh then n else h.mem q := by
  by_cases hq : q = h.fresh
  · subst hq
    simp [Heap.alloc]
  · simp [Heap.alloc, hq]

/-- Everything but the split counter. -/
structure Node.Same (n m : Node V) : Prop extends n.Alike m where
  is_root : m.is_root = n.is_root
  parent : m.parent = n.parent
  upperLayer : m.upperLayer = n.upperLayer
  next : m.next = n.next
  prev : m.prev = n.prev

theorem Node.Same.refl (n : Node V) : n.Same n := ⟨.refl n, rfl, rfl, rfl, rfl, rfl⟩

theorem Node.Same.trans {n m k : Node V} (h : n.Same m) (h' : m.Same k) : n.Same k :=
  ⟨h.toAlike.trans h'.toAlike, h'.is_root.trans h.is_root, h'.parent.trans h.parent,
    h'.upperLayer.trans h.upperLayer, h'.next.trans h.next, h'.prev.trans h.prev⟩

theorem same_unlockSplit (h : Heap V) (p q : Ptr) :
    (h.mem q).Same ((h.modify p Node.unlockSplit).mem q) := by
  rw [mem_modify]
  split
  · exact ⟨⟨rfl, rfl, rfl, rfl, rfl, rfl, rfl⟩, rfl, rfl, rfl, rfl, rfl⟩
  · exact .refl _

theorem same_unlockBoth (h : Heap V) (p p' q : Ptr) : (h.mem q).Same ((unlockBoth h p p').mem q) :=
  (same_unlockSplit h p q).trans (same_unlockSplit _ p' q)

theorem mem_unlockBoth_of_ne (h : Heap V) {p p' q : Ptr} (hp : q ≠ p) (hp' : q ≠ p') :
    (unlockBoth h p p').mem q = h.mem q := by
  rw [unlockBoth, Heap.mem_modify_of_ne _ _ hp', Heap.mem_modify_of_ne _ _ hp]

/-- `setParent` on the children of a node. -/
theorem setParents_mem (p : Ptr) (children : Nat → Option Ptr) (n : Nat) (q : Ptr) :
    (setParents h p children n).mem q =
      if some q ∈ cells children n then { h.mem q with parent := some p } else h.mem q := by
  have hfold : setParents h p children n =
      (cells children n).foldl (fun h c => h.modify? c ({ · with parent := some p })) h := by
    rw [setParents, cells, List.foldl_map]
  rw [hfold]
  generalize cells children n = cs
  clear hfold
  induction cs generalizing h with
  | nil => simp
  | cons c cs ih =>
    rw [List.foldl_cons, ih, mem_modify?]
    by_cases hq : c = some q
    · subst hq
      simp
    · simp [hq, Ne.symm hq]

theorem mem_setParents (p : Ptr) {children : Nat → Option Ptr} {cs : List Ptr} {n : Nat}
    (hcs : cells children n = cs.map some) (q : Ptr) : (setParents h p children n).mem q =
      if q ∈ cs then { h.mem q with parent := some p } else h.mem q := by
  rw [setParents_mem, hcs]
  simp

theorem BTree.nodup_roots {cs : List (Layer V)} (hn : (BTree.forestPtrs cs).Nodup) :
    (cs.map BTree.root).Nodup := by
  induction cs with
  | nil => simp
  | cons c cs ih =>
    rw [BTree.forestPtrs_cons, List.nodup_append] at hn
    refine List.nodup_cons.mpr ⟨?_, ih hn.2.1⟩
    intro hmem
    obtain ⟨d, hd, he⟩ := List.mem_map.mp hmem
    exact hn.2.2 _ c.root_mem_ptrs _ (BTree.mem_forestPtrs.mpr ⟨d, hd, d.root_mem_ptrs⟩) he.symm

theorem InteriorAt.findChildIndex {n : Node V} {par : Option Ptr} {ks : List Nat} {cl cr : List Ptr}
    {c : Ptr} (hn : InteriorAt n par ks (cl ++ c :: cr)) (hc : c ∉ cl) :
    n.findChildIndex c = some cl.length := by
  have hlen := hn.length
  rw [List.length_append, List.length_cons] at hlen
  rw [Node.findChildIndex, List.find?_range_eq_some]
  refine ⟨?_, ?_, ?_⟩
  · rw [hn.child_eq (c := c) (by simp)]
    simp
  · rw [List.mem_range, hn.n_keys]
    omega
  · intro i hi
    rw [hn.child_eq (c := cl.get ⟨i, hi⟩) (by rw [List.getElem?_append_left hi]; simp)]
    have : cl.get ⟨i, hi⟩ ≠ c := fun he => hc (he ▸ List.get_mem ..)
    simpa using this

/-- The root of a tree with a hole does not depend on what fills the hole below it. -/
theorem root_plug_congr {fs : List (Frame (Slot V))} : ∀ {t t' : Layer V}, t.root = t'.root →
    (plug fs t).root = (plug fs t').root := by
  induction fs with
  | nil => exact id
  | cons f fs ih =>
    intro t t' _
    exact ih rfl

theorem root_plug_mem {fs : List (Frame (Slot V))} (hne : fs ≠ []) (t : Layer V) :
    (plug fs t).root ∈ ctxPtrs fs := by
  induction fs generalizing t with
  | nil => exact absurd rfl hne
  | cons f fs ih =>
    rw [plug, ctxPtrs]
    by_cases hfs : fs = []
    · subst hfs
      simp [plug, Frame.fill, BTree.root]
    · exact List.mem_append_right _ (ih hfs _)

/-- A left tree in its place and a right tree beside it, for the keys below and from `up`
on. The right root has the flags of the left one. -/
structure Cut (h : Heap V) (fs : List (Frame (Slot V))) (tl tr : Layer V) (up lo hi : Nat) : Prop where
  ctx : StoredCtx h fs tl.root
  left : Stored h (parent fs) tl
  right : Stored h none tr
  wf : ∃ a b, WfCtx Slot.key_slice 15 fs a b lo hi ∧ tl.Wf Slot.key_slice 15 a up ∧
    tr.Wf Slot.key_slice 15 up b
  nodup : (ctxPtrs fs ++ tl.ptrs ++ tr.ptrs).Nodup
  lt : ∀ p ∈ ctxPtrs fs ++ tl.ptrs ++ tr.ptrs, p < h.fresh
  roots : ∀ p ∈ ctxPtrs fs ++ tl.ptrs, (h.mem p).is_root = true ↔ p = (plug fs tl).root
  rootsRight : ∀ p ∈ tr.ptrs, (h.mem p).is_root = true → p = tr.root ∧ fs = []
  upper : ∀ u, (h.mem (plug fs tl).root).upperLayer = some u → u < h.fresh ∧
    u ∉ ctxPtrs fs ++ tl.ptrs ++ tr.ptrs ∧ ((h.mem u).findNextLayerIndex (plug fs tl).root).isSome

/-- The border node above a layer whose root `old` got the new root `r` above it. -/
def Node.relink (n : Node V) (old : Ptr) (r : Option Ptr) : Node V :=
  match r, n.findNextLayerIndex old with
  | some r, some i => n.setLV i (.link r)
  | _, _ => n

@[simp] theorem Node.relink_none (n : Node V) (old : Ptr) : n.relink old none = n := by
  unfold relink
  split
  · rename_i he _
    cases he
  · rfl

theorem Node.relink_some {n : Node V} {old : Ptr} {i : Nat} (hi : n.findNextLayerIndex old = some i)
    (r : Ptr) : n.relink old (some r) = n.setLV i (.link r) := by
  simp [relink, hi]

/-- The right tree has its place: `t` is the whole layer, and `r` its root if that is new. -/
structure Grown (h h' : Heap V) (fs : List (Frame (Slot V))) (tl tr : Layer V) (r : Option Ptr)
    (t : Layer V) (lo hi : Nat) : Prop where
  stored : Stored h' none t
  wf : t.Wf Slot.key_slice 15 lo hi
  perm : ∃ new, t.ptrs.Perm (ctxPtrs fs ++ tl.ptrs ++ tr.ptrs ++ new) ∧ new.Nodup ∧
    ∀ p ∈ new, h.fresh ≤ p ∧ p < h'.fresh
  roots : ∀ p ∈ t.ptrs, (h'.mem p).is_root = true ↔ p = t.root
  leaves : t.leaves = leftLeaves fs ++ tl.leaves ++ tr.leaves ++ rightLeaves fs
  fresh : h.fresh ≤ h'.fresh
  root : r = none ∧ t.root = (plug fs tl).root ∨ r = some t.root ∧ h.fresh ≤ t.root
  upper : (h'.mem t.root).upperLayer = (h.mem (plug fs tl).root).upperLayer
  outside : ∀ q < h.fresh, q ∉ ctxPtrs fs ++ tl.ptrs ++ tr.ptrs → h'.mem q =
    if (h.mem (plug fs tl).root).upperLayer = some q then (h.mem q).relink (plug fs tl).root r
    else h.mem q
  links : ∀ q < h.fresh, (h'.mem q).next = (h.mem q).next ∧ (h'.mem q).prev = (h.mem q).prev

section

variable {f : Frame (Slot V)} {fs : List (Frame (Slot V))} {tl tr t : Layer V} {up lo hi : Nat}

/-- The addresses of the two trees and of the frames around them are different. -/
theorem Cut.disjoint (hc : Cut h fs tl tr up lo hi) : (ctxPtrs fs).Nodup ∧ tl.ptrs.Nodup ∧
    tr.ptrs.Nodup ∧ (∀ p ∈ ctxPtrs fs, p ∉ tl.ptrs ∧ p ∉ tr.ptrs) ∧ ∀ p ∈ tl.ptrs, p ∉ tr.ptrs := by
  obtain ⟨hleft, htr, hd⟩ := List.nodup_append.mp hc.nodup
  obtain ⟨hctx, htl, hd'⟩ := List.nodup_append.mp hleft
  refine ⟨hctx, htl, htr, ?_, ?_⟩
  · intro p hp
    exact ⟨fun hp' => hd' p hp p hp' rfl, fun hp' => hd p (List.mem_append_left _ hp) p hp' rfl⟩
  · intro p hp hp'
    exact hd p (List.mem_append_right _ hp) p hp' rfl

/-- What the frame itself says about its addresses. -/
theorem ctxPtrs_cons_nodup (hn : (ctxPtrs (f :: fs)).Nodup) : (ctxPtrs fs).Nodup ∧
    (∀ c ∈ f.cl ++ f.cr, c.ptrs.Nodup) ∧ f.p ∉ ctxPtrs fs ∧ (∀ c ∈ f.cl ++ f.cr, f.p ∉ c.ptrs) ∧
    (∀ c ∈ f.cl ++ f.cr, ∀ p ∈ c.ptrs, p ∉ ctxPtrs fs) := by
  rw [ctxPtrs] at hn
  obtain ⟨hfirst, hrest, hd⟩ := List.nodup_append.mp hn
  rw [← BTree.forestPtrs_append] at hfirst hd
  obtain ⟨hp, hforest⟩ := List.nodup_cons.mp hfirst
  have hsub : ∀ c ∈ f.cl ++ f.cr, ∀ p ∈ c.ptrs, p ∈ BTree.forestPtrs (f.cl ++ f.cr) :=
    fun c hc p hp => BTree.mem_forestPtrs.mpr ⟨c, hc, hp⟩
  refine ⟨hrest, ?_, ?_, ?_, ?_⟩
  · intro c hc
    obtain ⟨l, r, he⟩ := List.append_of_mem hc
    rw [he, BTree.forestPtrs_append, BTree.forestPtrs_cons] at hforest
    exact (List.nodup_append.mp (List.nodup_append.mp hforest).2.1).1
  · intro hmem
    exact hd f.p List.mem_cons_self f.p hmem rfl
  · intro c hc hmem
    exact hp (hsub c hc f.p hmem)
  · intro c hc p hmem hctx
    exact hd p (List.mem_cons_of_mem _ (hsub c hc p hmem)) p hctx rfl

theorem mem_ctxPtrs_cons {p : Ptr} : p ∈ ctxPtrs (f :: fs) ↔
    p = f.p ∨ (∃ c ∈ f.cl ++ f.cr, p ∈ c.ptrs) ∨ p ∈ ctxPtrs fs := by
  rw [ctxPtrs, ← BTree.forestPtrs_append, List.mem_append, List.mem_cons, BTree.mem_forestPtrs,
    or_assoc]

theorem frame_mem_plug : f.p ∈ (plug (f :: fs) t).ptrs :=
  (ptrs_plug (f :: fs) t).mem_iff.mpr (List.mem_append_left _ (mem_ctxPtrs_cons.mpr (Or.inl rfl)))

/-- The left tree is the child at the hole. -/
theorem Cut.findChildIndex (hc : Cut h (f :: fs) tl tr up lo hi) :
    (h.mem f.p).findChildIndex tl.root = some f.cl.length := by
  obtain ⟨hn, -, -⟩ := hc.ctx
  obtain ⟨-, -, -, hd, -⟩ := hc.disjoint
  have hnot : tl.root ∉ f.cl.map BTree.root := by
    intro hmem
    obtain ⟨c, hcl, he⟩ := List.mem_map.mp hmem
    have hp : c.root ∈ ctxPtrs (f :: fs) :=
      mem_ctxPtrs_cons.mpr (Or.inr (Or.inl ⟨c, List.mem_append_left _ hcl, c.root_mem_ptrs⟩))
    exact (hd c.root hp).1 (he ▸ tl.root_mem_ptrs)
  simpa using hn.findChildIndex hnot

/-- The split counter does not count. -/
theorem Grown.same {h'' : Heap V} {r : Option Ptr} (hg : Grown h h' fs tl tr r t lo hi)
    (hsame : ∀ q, (h'.mem q).Same (h''.mem q)) (hfresh : h''.fresh = h'.fresh)
    (hout : ∀ q < h.fresh, q ∉ ctxPtrs fs ++ tl.ptrs ++ tr.ptrs → h''.mem q = h'.mem q)
    (hnodup : t.ptrs.Nodup) : Grown h h'' fs tl tr r t lo hi where
  stored := hg.stored.frame hnodup fun p _ => ⟨(hsame p).toAlike, (hsame p).parent⟩
  wf := hg.wf
  perm := by rw [hfresh]; exact hg.perm
  roots := by
    intro p hp
    rw [(hsame p).is_root]
    exact hg.roots p hp
  leaves := hg.leaves
  fresh := by rw [hfresh]; exact hg.fresh
  root := hg.root
  upper := by rw [(hsame _).upperLayer]; exact hg.upper
  outside := by
    intro q hq hmem
    rw [hout q hq hmem]
    exact hg.outside q hq hmem
  links := by
    intro q hq
    rw [(hsame q).next, (hsame q).prev]
    exact hg.links q hq

theorem Grown.nodup {r : Option Ptr} (hg : Grown h h' fs tl tr r t lo hi)
    (hc : Cut h fs tl tr up lo hi) : t.ptrs.Nodup := by
  obtain ⟨new, hperm, hnew, hrange⟩ := hg.perm
  refine hperm.nodup_iff.mpr (List.nodup_append.mpr ⟨hc.nodup, hnew, ?_⟩)
  rintro a ha _ hb rfl
  exact Nat.not_lt_of_le (hrange a hb).1 (hc.lt a ha)

theorem mem_insert_into_parent {p node1 : Ptr} (slice i : Nat) (hne : node1 ≠ p) (q : Ptr) :
    (insert_into_parent h p node1 slice i).mem q =
      if q = node1 then { h.mem q with parent := some p }
      else if q = p then { h.mem q with
        child := Function.update (shiftRight i (h.mem q).n_keys (h.mem q).child) (i + 1) (some node1)
        key_slice := Function.update (shiftRight' i (h.mem q).n_keys (h.mem q).key_slice) i slice
        n_keys := (h.mem q).n_keys + 1 }
      else h.mem q := by
  rw [insert_into_parent, mem_modify, mem_modify]
  by_cases hq : q = node1
  · subst hq
    rw [if_pos rfl, if_pos rfl, if_neg hne]
  · rw [if_neg hq, if_neg hq]

theorem insertIdx_child (cl cr : List Ptr) (c node1 : Ptr) :
    ((cl ++ c :: cr).map some).insertIdx (cl.length + 1) (some node1) =
      (cl ++ c :: node1 :: cr).map some := by
  have hsplit : (cl ++ c :: cr).map some = (cl ++ [c]).map some ++ cr.map some := by simp
  have hlen : cl.length + 1 = ((cl ++ [c]).map some).length := by simp
  rw [hsplit, hlen, insertIdx_length_append]
  simp

theorem InteriorAt.insert {n : Node V} {par : Option Ptr} {kl kr : List Nat} {cl cr : List Ptr}
    {c : Ptr} (node1 : Ptr) (slice : Nat) (hn : InteriorAt n par (kl ++ kr) (cl ++ c :: cr))
    (hlen : kl.length = cl.length) :
    InteriorAt { n with
      child := Function.update (shiftRight cl.length n.n_keys n.child) (cl.length + 1) (some node1)
      key_slice := Function.update (shiftRight' cl.length n.n_keys n.key_slice) cl.length slice
      n_keys := n.n_keys + 1 } par (kl ++ slice :: kr) (cl ++ c :: node1 :: cr) where
  border := hn.border
  alive := hn.alive
  parent := hn.parent
  keys := by
    have hle : cl.length ≤ n.n_keys := by
      rw [hn.n_keys, List.length_append]
      omega
    change cells (Function.update _ _ _) (n.n_keys + 1) = _
    rw [cells_shiftRight' _ _ hle, hn.keys, ← hlen, insertIdx_length_append]
  children := by
    have hle : cl.length ≤ n.n_keys := by
      rw [hn.n_keys, List.length_append]
      omega
    change cells (Function.update _ _ _) (n.n_keys + 2) = _
    rw [cells_shiftRight _ _ hle, hn.children, insertIdx_child]

theorem Cut.insert (hc : Cut h (f :: fs) tl tr up lo hi) (hroom : (f.kl ++ f.kr).length < 15) :
    Grown h (insert_into_parent h f.p tr.root up f.cl.length) (f :: fs) tl tr none
      (plug fs (.inner f.p (f.kl ++ up :: f.kr) (f.cl ++ tl :: tr :: f.cr))) lo hi := by
  obtain ⟨hctx, htl, htr, hd, hd'⟩ := hc.disjoint
  obtain ⟨hfs, hkids, hpfs, hpkids, hkidsfs⟩ := ctxPtrs_cons_nodup hctx
  obtain ⟨hn, hcs, hup⟩ := hc.ctx
  have hmemctx := @mem_ctxPtrs_cons V f fs
  have hp : f.p ∈ ctxPtrs (f :: fs) := hmemctx.mpr (Or.inl rfl)
  have hne : tr.root ≠ f.p := fun he => (hd f.p hp).2 (he ▸ tr.root_mem_ptrs)
  have hmem := fun q => mem_insert_into_parent (h := h) up f.cl.length hne q
  set h' := insert_into_parent h f.p tr.root up f.cl.length with hh'
  have hother : ∀ q, q ≠ tr.root → q ≠ f.p → h'.mem q = h.mem q := by
    intro q h₁ h₂
    rw [hmem, if_neg h₁, if_neg h₂]
  have hroot : (plug fs (.inner f.p (f.kl ++ up :: f.kr) (f.cl ++ tl :: tr :: f.cr))).root =
      (plug (f :: fs) tl).root := root_plug_congr rfl
  have hsame : ∀ q, (h'.mem q).is_root = (h.mem q).is_root ∧ (h'.mem q).upperLayer = (h.mem q).upperLayer ∧
      (h'.mem q).next = (h.mem q).next ∧ (h'.mem q).prev = (h.mem q).prev := by
    intro q
    rw [hmem]
    split_ifs <;> exact ⟨rfl, rfl, rfl, rfl⟩
  have hperm : (plug fs (.inner f.p (f.kl ++ up :: f.kr) (f.cl ++ tl :: tr :: f.cr))).ptrs.Perm
      (ctxPtrs (f :: fs) ++ tl.ptrs ++ tr.ptrs) := by
    refine (ptrs_plug _ _).trans ?_
    rw [List.perm_iff_count]
    intro a
    simp only [ctxPtrs, BTree.ptrs_inner, BTree.forestPtrs_append, BTree.forestPtrs_cons, List.count_append,
      List.count_cons]
    omega
  constructor
  · refine stored_plug.mpr ⟨hup.frame hfs ?_, stored_inner.mpr ⟨?_, ?_⟩⟩
    · intro q hq
      have hqc : q ∈ ctxPtrs (f :: fs) := hmemctx.mpr (Or.inr (Or.inr hq))
      rw [hother q (fun he => (hd q hqc).2 (he ▸ tr.root_mem_ptrs)) fun he => hpfs (he ▸ hq)]
      exact ⟨.refl _, rfl⟩
    · rw [hmem, if_neg (Ne.symm hne), if_pos rfl]
      have := InteriorAt.insert tr.root up hn (by simpa using f.len)
      simpa using this
    · intro c hcmem
      simp only [List.mem_append, List.mem_cons] at hcmem
      have hframe : ∀ c ∈ f.cl ++ f.cr, Stored h' (some f.p) c := by
        intro c hcmem
        refine (hcs c hcmem).frame (hkids c hcmem) ?_
        intro q hq
        have hqc : q ∈ ctxPtrs (f :: fs) := hmemctx.mpr (Or.inr (Or.inl ⟨c, hcmem, hq⟩))
        rw [hother q (fun he => (hd q hqc).2 (he ▸ tr.root_mem_ptrs)) fun he => hpkids c hcmem (he ▸ hq)]
        exact ⟨.refl _, rfl⟩
      rcases hcmem with hcmem | rfl | rfl | hcmem
      · exact hframe c (List.mem_append_left _ hcmem)
      · refine hc.left.frame htl ?_
        intro q hq
        rw [hother q (fun he => hd' q hq (he ▸ tr.root_mem_ptrs)) fun he => (hd f.p hp).1 (he ▸ hq)]
        exact ⟨.refl _, rfl⟩
      · refine hc.right.congr htr ?_ ?_ ?_
        · intro q hq
          rw [hmem]
          split_ifs with h₁ h₂
          · exact ⟨rfl, rfl, rfl, rfl, rfl, rfl, rfl⟩
          · exact absurd (h₂ ▸ hq) (hd f.p hp).2
          · exact .refl _
        · intro q hq hqr
          rw [hother q hqr fun he => (hd f.p hp).2 (he ▸ hq)]
        · rw [hmem, if_pos rfl]
      · exact hframe c (List.mem_append_right _ hcmem)
  · obtain ⟨a, b, ⟨plo, phi, hl, hr, hne', hcap, hwf⟩, hwl, hwr⟩ := hc.wf
    refine wf_plug.mpr ⟨plo, phi, hwf, BTree.wf_inner.mpr ⟨by simp, ?_, ?_⟩⟩
    · simp only [List.length_append, List.length_cons] at hroom ⊢
      omega
    · exact forest_insert f.len hl hr hwl hwr
  · exact ⟨[], by simpa using hperm, List.nodup_nil, by simp⟩
  · intro p hpmem
    rw [(hsame p).1, hroot]
    have hpmem := hperm.mem_iff.mp hpmem
    rcases List.mem_append.mp hpmem with hpl | hpr
    · exact hc.roots p hpl
    · constructor
      · intro hr
        exact absurd (hc.rootsRight p hpr hr).2 (List.cons_ne_nil _ _)
      · rintro rfl
        exact absurd hpr (hd _ (root_plug_mem (List.cons_ne_nil _ _) tl)).2
  · rw [leaves_plug]
    simp [leftLeaves, rightLeaves]
  · exact Nat.le_refl _
  · exact Or.inl ⟨rfl, hroot⟩
  · rw [(hsame _).2.1, hroot]
  · intro q _ hq
    simp only [List.mem_append, not_or] at hq
    rw [hother q (fun he => hq.2 (he ▸ tr.root_mem_ptrs)) fun he => hq.1.1 (he ▸ hp)]
    simp
  · intro q _
    exact (hsame q).2.2

/-- The halves of a full interior node with a new child in it. -/
theorem splitInterior_spec {n : Node V} {par : Option Ptr} {kl kr : List Nat} {cl cr : List Ptr}
    {c : Ptr} (node1 : Ptr) (slice : Nat) (hn : InteriorAt n par (kl ++ kr) (cl ++ c :: cr))
    (hlen : kl.length = cl.length) (hfull : (kl ++ kr).length = 15) :
    let s := splitInterior n slice node1 cl.length
    cells s.keys 7 = (kl ++ slice :: kr).take 7 ∧
      cells s.children 8 = ((cl ++ c :: node1 :: cr).take 8).map some ∧
      cells s.keys1 8 = (kl ++ slice :: kr).drop 8 ∧
      cells s.children1 9 = ((cl ++ c :: node1 :: cr).drop 8).map some ∧
      (kl ++ slice :: kr)[7]? = some s.k_prime := by
  have hnk : n.n_keys = 15 := hn.n_keys.trans hfull
  have hle : cl.length ≤ 15 := by
    rw [List.length_append] at hfull
    omega
  have hkeys : cells (openGap n.key_slice cl.length slice) 16 = kl ++ slice :: kr := by
    have := hn.keys
    rw [hnk] at this
    rw [cells_openGap _ _ hle, this, ← hlen, insertIdx_length_append]
  have hchildren : cells (openGap n.child (cl.length + 1) (some node1)) 17 =
      (cl ++ c :: node1 :: cr).map some := by
    have := hn.children
    rw [hnk] at this
    rw [cells_openGap _ _ (by omega : cl.length + 1 ≤ 16), this, insertIdx_child]
  refine ⟨?_, ?_, ?_, ?_, ?_⟩
  · rw [← hkeys, ← cells_take _ (by decide : 7 ≤ 16)]
    exact cells_congr fun i hi => if_pos hi
  · rw [List.map_take, ← hchildren, ← cells_take _ (by decide : 8 ≤ 17)]
    exact cells_congr fun i hi => if_pos hi
  · rw [← hkeys, ← cells_drop _ (by decide : 8 ≤ 16)]
    refine cells_congr fun i hi => ?_
    rw [Nat.add_comm]
    exact if_pos hi
  · rw [List.map_drop, ← hchildren, ← cells_drop _ (by decide : 8 ≤ 17)]
    refine cells_congr fun i hi => ?_
    rw [Nat.add_comm 8 i]
    exact if_pos hi
  · rw [← hkeys, getElem?_cells, if_pos (by decide)]
    rfl

theorem split_keys_amongInterior_spec {p p1 node1 : Ptr} {slice i : Nat} {csl csr : List Ptr}
    (hl : cells (splitInterior (h.mem p) slice node1 i).children 8 = csl.map some)
    (hr : cells (splitInterior (h.mem p) slice node1 i).children1 9 = csr.map some) (hne : p ≠ p1)
    (hp : p ∉ csl ∧ p ∉ csr) (hp1 : p1 ∉ csl ∧ p1 ∉ csr) :
    let s := splitInterior (h.mem p) slice node1 i
    let h' := (split_keys_amongInterior h p p1 slice node1 i).2
    h'.mem p = { h.mem p with n_keys := 7, key_slice := s.keys, child := s.children } ∧
      h'.mem p1 = { h.mem p1 with n_keys := 8, key_slice := s.keys1, child := s.children1 } ∧
      (∀ q, q ≠ p → q ≠ p1 → h'.mem q = { h.mem q with
        parent := if q ∈ csr then some p1 else if q ∈ csl then some p else (h.mem q).parent }) ∧
      h'.fresh = h.fresh := by
  intro s h'
  have hmem : ∀ q, h'.mem q = _ := fun q => by
    change (setParents (setParents _ p s.children 8) p1 s.children1 9).mem q = _
    rw [mem_setParents _ hr, mem_setParents _ hl, mem_modify, mem_modify]
  refine ⟨?_, ?_, ?_, ?_⟩
  · rw [hmem, if_neg hp.2, if_neg hp.1, if_neg hne, if_pos rfl]
  · rw [hmem, if_neg hp1.2, if_neg hp1.1, if_pos rfl, if_neg (Ne.symm hne)]
  · intro q hq hq1
    rw [hmem, if_neg hq1, if_neg hq]
    split_ifs <;> rfl
  · exact (fresh_setParents ..).trans (fresh_setParents ..)

/-- The heap after a full parent was split, before the next turn. -/
def splitParent (h : Heap V) (p : Ptr) (up : Nat) (node node1 : Ptr) (i : Nat) : Nat × Heap V :=
  let h := h.modify node Node.unlockSplit
  let (parent1, h) := h.alloc ((Node.newInterior : Node V).copyVersion (h.mem p))
  let (k_prime, h) := split_keys_amongInterior h p parent1 up node1 i
  (k_prime, h.modify node1 Node.unlockSplit)

/-- What the split of a full parent does to each node. -/
structure ParentSplit (h h' : Heap V) (p : Ptr) (par : Option Ptr) (ks : List Nat) (cs : List Ptr)
    (node node1 : Ptr) : Prop where
  fresh : h'.fresh = h.fresh + 1
  left : InteriorAt (h'.mem p) par (ks.take 7) (cs.take 8)
  right : InteriorAt (h'.mem h.fresh) none (ks.drop 8) (cs.drop 8)
  flag : (h'.mem h.fresh).is_root = (h.mem p).is_root
  alike : ∀ q, q ≠ p → q ≠ h.fresh → (h.mem q).Alike (h'.mem q)
  parents : ∀ q, q ≠ h.fresh → (h'.mem q).parent =
    if q ∈ cs.drop 8 then some h.fresh else if q ∈ cs.take 8 then some p else (h.mem q).parent
  same : ∀ q, q ≠ h.fresh → (h'.mem q).is_root = (h.mem q).is_root ∧
    (h'.mem q).upperLayer = (h.mem q).upperLayer ∧ (h'.mem q).next = (h.mem q).next ∧
    (h'.mem q).prev = (h.mem q).prev
  outside : ∀ q, q ≠ h.fresh → q ≠ p → q ∉ cs → q ≠ node → q ≠ node1 → h'.mem q = h.mem q

theorem splitParent_spec {p node : Ptr} (node1 : Ptr) (up : Nat) {par : Option Ptr} {kl kr : List Nat} {cl cr : List Ptr}
    (hn : InteriorAt (h.mem p) par (kl ++ kr) (cl ++ node :: cr)) (hlen : kl.length = cl.length)
    (hfull : (kl ++ kr).length = 15) (hp : p ≠ h.fresh)
    (hcs : ∀ q ∈ cl ++ node :: node1 :: cr, q ≠ p ∧ q ≠ h.fresh) :
    ∃ k h', splitParent h p up node node1 cl.length = (k, h') ∧ (kl ++ up :: kr)[7]? = some k ∧
      ParentSplit h h' p par (kl ++ up :: kr) (cl ++ node :: node1 :: cr) node node1 := by
  have hnode := hcs node (by simp)
  obtain ⟨hk, hc, hk1, hc1, hup⟩ := splitInterior_spec node1 up hn hlen hfull
  set h₁ := h.modify node Node.unlockSplit with hh₁
  set h₂ := (h₁.alloc ((Node.newInterior : Node V).copyVersion (h₁.mem p))).2 with hh₂
  have hmem₁ : ∀ q, (h.mem q).Same (h₁.mem q) := same_unlockSplit h node
  have hp₁ : h₁.mem p = h.mem p := Heap.mem_modify_of_ne _ _ (Ne.symm hnode.1)
  have hmem₂ : ∀ q, h₂.mem q =
      if q = h.fresh then (Node.newInterior : Node V).copyVersion (h.mem p) else h₁.mem q := by
    intro q
    rw [hh₂, mem_alloc, hp₁]
    rfl
  have hp₂ : h₂.mem p = h.mem p := by rw [hmem₂, if_neg hp, hp₁]
  rw [← hp₂] at hk hc hk1 hc1 hup
  set cs := cl ++ node :: node1 :: cr with hcsdef
  set h₃ := (split_keys_amongInterior h₂ p h.fresh up node1 cl.length).2 with hh₃
  have hcp : ∀ q ∈ cs, q ≠ p := fun q hq => (hcs q hq).1
  have hcf : ∀ q ∈ cs, q ≠ h.fresh := fun q hq => (hcs q hq).2
  have hptake : p ∉ cs.take 8 := fun hmem => hcp p (List.mem_of_mem_take hmem) rfl
  have hpdrop : p ∉ cs.drop 8 := fun hmem => hcp p (List.mem_of_mem_drop hmem) rfl
  have hftake : h.fresh ∉ cs.take 8 := fun hmem => hcf h.fresh (List.mem_of_mem_take hmem) rfl
  have hfdrop : h.fresh ∉ cs.drop 8 := fun hmem => hcf h.fresh (List.mem_of_mem_drop hmem) rfl
  obtain ⟨hleft, hright, hother, hfresh⟩ :=
    split_keys_amongInterior_spec hc hc1 hp ⟨hptake, hpdrop⟩ ⟨hftake, hfdrop⟩
  rw [← hh₃] at hleft hright hother hfresh
  rw [hmem₂, if_pos rfl] at hright
  have hn₂ := hp₂ ▸ hn
  have hother : ∀ q, q ≠ p → q ≠ h.fresh → h₃.mem q = { h₁.mem q with
      parent := if q ∈ cs.drop 8 then some h.fresh else if q ∈ cs.take 8 then some p
        else (h.mem q).parent } := by
    intro q hqp hqf
    rw [hother q hqp hqf, hmem₂, if_neg hqf, (hmem₁ q).parent]
  have hmem₄ : ∀ q, (h₃.mem q).Same ((h₃.modify node1 Node.unlockSplit).mem q) :=
    same_unlockSplit h₃ node1
  refine ⟨_, h₃.modify node1 Node.unlockSplit, rfl, hup, ?_⟩
  constructor
  · exact hfresh
  · have hat : InteriorAt (h₃.mem p) par ((kl ++ up :: kr).take 7) (cs.take 8) := by
      rw [hleft]
      exact ⟨hn₂.border, hn₂.alive, hn₂.parent, hk, hc⟩
    exact hat.alike (hmem₄ p).toAlike ((hmem₄ p).parent.trans hat.parent)
  · have hat : InteriorAt (h₃.mem h.fresh) none ((kl ++ up :: kr).drop 8) (cs.drop 8) := by
      rw [hright]
      exact ⟨hn.border, hn.alive, rfl, hk1, hc1⟩
    exact hat.alike (hmem₄ _).toAlike ((hmem₄ _).parent.trans hat.parent)
  · rw [(hmem₄ _).is_root, hright]
    rfl
  · intro q hqp hqf
    refine Node.Alike.trans ?_ (hmem₄ q).toAlike
    rw [hother q hqp hqf]
    exact (hmem₁ q).toAlike.trans ⟨rfl, rfl, rfl, rfl, rfl, rfl, rfl⟩
  · intro q hqf
    rw [(hmem₄ q).parent]
    by_cases hqp : q = p
    · subst hqp
      rw [hleft, hp₂, if_neg hpdrop, if_neg hptake]
    · rw [hother q hqp hqf]
  · intro q hqf
    rw [(hmem₄ q).is_root, (hmem₄ q).upperLayer, (hmem₄ q).next, (hmem₄ q).prev]
    by_cases hqp : q = p
    · subst hqp
      rw [hleft, hp₂]
      exact ⟨rfl, rfl, rfl, rfl⟩
    · rw [hother q hqp hqf]
      exact ⟨(hmem₁ q).is_root, (hmem₁ q).upperLayer, (hmem₁ q).next, (hmem₁ q).prev⟩
  · intro q hqf hqp hqcs hqn hqn1
    have hqdrop : q ∉ cs.drop 8 := fun hmem => hqcs (List.mem_of_mem_drop hmem)
    have hqtake : q ∉ cs.take 8 := fun hmem => hqcs (List.mem_of_mem_take hmem)
    rw [Heap.mem_modify_of_ne _ _ hqn1, hother q hqp hqf, if_neg hqdrop, if_neg hqtake, hh₁,
      Heap.mem_modify_of_ne _ _ hqn]

/-- The children of the two halves, with their new parents. -/
theorem ParentSplit.kids {p node node1 : Ptr} {par : Option Ptr} {ks : List Nat} {cs : List (Layer V)}
    (hsp : ParentSplit h h' p par ks (cs.map BTree.root) node node1) (hn : (BTree.forestPtrs cs).Nodup)
    (hp : p ∉ BTree.forestPtrs cs) (hf : h.fresh ∉ BTree.forestPtrs cs)
    (hst : ∀ c ∈ cs, ∃ par, Stored h par c) :
    (∀ c ∈ cs.take 8, Stored h' (some p) c) ∧ ∀ c ∈ cs.drop 8, Stored h' (some h.fresh) c := by
  have hparents := hsp.parents
  simp only [← List.map_take, ← List.map_drop] at hparents
  have hmem : ∀ c ∈ cs, ∀ q ∈ c.ptrs, q ≠ p ∧ q ≠ h.fresh := by
    intro c hc q hq
    have hq' : q ∈ BTree.forestPtrs cs := BTree.mem_forestPtrs.mpr ⟨c, hc, hq⟩
    exact ⟨fun he => hp (he ▸ hq'), fun he => hf (he ▸ hq')⟩
  have hkid : ∀ c ∈ cs, Stored h' ((h'.mem c.root).parent) c := by
    intro c hc
    obtain ⟨par, hstc⟩ := hst c hc
    have hcn : c.ptrs.Nodup := by
      obtain ⟨l, r, rfl⟩ := List.append_of_mem hc
      rw [BTree.forestPtrs_append, BTree.forestPtrs_cons] at hn
      exact (List.nodup_append.mp (List.nodup_append.mp hn).2.1).1
    refine hstc.congr hcn (fun q hq => hsp.alike q (hmem c hc q hq).1 (hmem c hc q hq).2) ?_ rfl
    intro q hq hqr
    have hnot : ∀ ds : List (Layer V), (∀ d ∈ ds, d ∈ cs) → q ∉ ds.map BTree.root := by
      intro ds hds hqmem
      obtain ⟨d, hd, rfl⟩ := List.mem_map.mp hqmem
      exact hqr (congrArg BTree.root (BTree.eq_of_mem_forest hn hc (hds d hd) hq d.root_mem_ptrs).symm)
    rw [hparents q (hmem c hc q hq).2, if_neg (hnot _ fun d hd => List.mem_of_mem_drop hd),
      if_neg (hnot _ fun d hd => List.mem_of_mem_take hd)]
  constructor
  · intro c hc
    have hcs := List.mem_of_mem_take hc
    have hnot : c.root ∉ (cs.drop 8).map BTree.root := by
      have hroots := BTree.nodup_roots hn
      rw [← List.take_append_drop 8 cs, List.map_append] at hroots
      exact fun hmem => (List.nodup_append.mp hroots).2.2 _ (List.mem_map_of_mem hc) _ hmem rfl
    have := hkid c hcs
    rwa [hparents _ (hmem c hcs _ c.root_mem_ptrs).2, if_neg hnot,
      if_pos (List.mem_map_of_mem hc)] at this
  · intro c hc
    have hcs := List.mem_of_mem_drop hc
    have := hkid c hcs
    rwa [hparents _ (hmem c hcs _ c.root_mem_ptrs).2, if_pos (List.mem_map_of_mem hc)] at this

/-- A node with one separator too many, cut at the eighth. -/
theorem wf_halves {ks : List Nat} {cs : List (Layer V)} {k : Nat} (p p1 : Nat)
    (hf : BTree.Forest Slot.key_slice 15 ks cs lo hi) (hlen : ks.length = 16) (hk : ks[7]? = some k) :
    (BTree.inner p (ks.take 7) (cs.take 8)).Wf Slot.key_slice 15 lo k ∧
      (BTree.inner p1 (ks.drop 8) (cs.drop 8)).Wf Slot.key_slice 15 k hi := by
  have hcs := hf.length
  have hks : ks = ks.take 7 ++ k :: ks.drop 8 := by
    have hdrop : ks.drop 7 = k :: ks.drop 8 := by
      rw [List.getElem?_eq_some_iff] at hk
      obtain ⟨hlt, he⟩ := hk
      rw [List.drop_eq_getElem_cons hlt, he]
    rw [← hdrop, List.take_append_drop]
  have htake : (ks.take 7).length = 7 := by
    rw [List.length_take]
    omega
  have hdrop : (ks.drop 8).length = 8 := by
    rw [List.length_drop]
    omega
  rw [← List.take_append_drop 8 cs, hks, BTree.forest_append] at hf
  · refine ⟨BTree.wf_inner.mpr ⟨?_, by omega, hf.2.2.1⟩, BTree.wf_inner.mpr ⟨?_, by omega, hf.2.2.2⟩⟩
    · exact List.ne_nil_of_length_pos (by omega)
    · exact List.ne_nil_of_length_pos (by omega)
  · rw [List.length_take, htake]
    omega

/-- The children of a full parent with the new one among them. -/
def kids (f : Frame (Slot V)) (tl tr : Layer V) : List (Layer V) := f.cl ++ tl :: tr :: f.cr

abbrev leftHalf (f : Frame (Slot V)) (tl tr : Layer V) (up : Nat) : Layer V :=
  .inner f.p ((f.kl ++ up :: f.kr).take 7) ((kids f tl tr).take 8)

abbrev rightHalf (f : Frame (Slot V)) (tl tr : Layer V) (up : Nat) (p1 : Ptr) : Layer V :=
  .inner p1 ((f.kl ++ up :: f.kr).drop 8) ((kids f tl tr).drop 8)

theorem map_root_kids : (kids f tl tr).map BTree.root =
    f.cl.map BTree.root ++ tl.root :: tr.root :: f.cr.map BTree.root := by
  simp [kids]

theorem forestPtrs_halves : BTree.forestPtrs ((kids f tl tr).take 8) ++ BTree.forestPtrs ((kids f tl tr).drop 8) =
    BTree.forestPtrs (kids f tl tr) := by
  rw [← BTree.forestPtrs_append, List.take_append_drop]

theorem perm_kids : (ctxPtrs (f :: fs) ++ tl.ptrs ++ tr.ptrs).Perm
    (ctxPtrs fs ++ f.p :: BTree.forestPtrs (kids f tl tr)) := by
  rw [List.perm_iff_count]
  intro a
  simp only [kids, ctxPtrs, BTree.forestPtrs_append, BTree.forestPtrs_cons, List.count_append, List.count_cons]
  omega

theorem perm_halves (p1 : Ptr) : (ctxPtrs fs ++ (leftHalf f tl tr up).ptrs ++ (rightHalf f tl tr up p1).ptrs).Perm
    (ctxPtrs (f :: fs) ++ tl.ptrs ++ tr.ptrs ++ [p1]) := by
  refine List.Perm.trans ?_ (perm_kids.symm.append_right _)
  rw [← forestPtrs_halves, List.perm_iff_count]
  intro a
  simp only [BTree.ptrs_inner, List.count_append, List.count_cons, List.count_nil]
  omega

theorem old_or_new_of_mem_halves {p1 q : Ptr}
    (hq : q ∈ ctxPtrs fs ++ (leftHalf f tl tr up).ptrs ++ (rightHalf f tl tr up p1).ptrs) :
    q ∈ ctxPtrs (f :: fs) ++ tl.ptrs ++ tr.ptrs ∨ q = p1 :=
  (List.mem_append.mp ((perm_halves p1).mem_iff.mp hq)).imp_right List.mem_singleton.mp

theorem mem_forestPtrs_of_root {cs : List (Layer V)} {q : Ptr} (hq : q ∈ cs.map BTree.root) :
    q ∈ BTree.forestPtrs cs := by
  obtain ⟨c, hc, rfl⟩ := List.mem_map.mp hq
  exact BTree.mem_forestPtrs.mpr ⟨c, hc, c.root_mem_ptrs⟩

/-- The root of the layer is the parent, or above it. -/
theorem root_plug_cons (f : Frame (Slot V)) (fs : List (Frame (Slot V))) (t : Layer V) :
    (plug (f :: fs) t).root = f.p ∨ (plug (f :: fs) t).root ∈ ctxPtrs fs := by
  by_cases hnil : fs = []
  · subst hnil
    exact Or.inl rfl
  · exact Or.inr (root_plug_mem hnil _)

theorem root_plug_leftHalf : (plug fs (leftHalf f tl tr up)).root = (plug (f :: fs) tl).root := root_plug_congr rfl

section

variable (hc : Cut h (f :: fs) tl tr up lo hi)

include hc

theorem Cut.nodup_kids : (ctxPtrs fs ++ f.p :: BTree.forestPtrs (kids f tl tr)).Nodup := perm_kids.nodup_iff.mp hc.nodup

theorem Cut.parent_not_mem : f.p ∉ ctxPtrs fs ∧ f.p ∉ BTree.forestPtrs (kids f tl tr) := by
  obtain ⟨-, hpf, hdisj⟩ := List.nodup_append.mp hc.nodup_kids
  exact ⟨fun hmem => hdisj f.p hmem f.p List.mem_cons_self rfl, (List.nodup_cons.mp hpf).1⟩

theorem Cut.ne_fresh {q : Ptr} (hq : q ∈ ctxPtrs fs ++ f.p :: BTree.forestPtrs (kids f tl tr)) : q ≠ h.fresh :=
  Nat.ne_of_lt (hc.lt q (perm_kids.mem_iff.mpr hq))

theorem Cut.kids_stored : ∀ c ∈ kids f tl tr, ∃ par, Stored h par c := by
  obtain ⟨-, hcs, -⟩ := hc.ctx
  intro c hcmem
  simp only [kids, List.mem_append, List.mem_cons] at hcmem
  rcases hcmem with hcmem | rfl | rfl | hcmem
  · exact ⟨_, hcs c (List.mem_append_left _ hcmem)⟩
  · exact ⟨_, hc.left⟩
  · exact ⟨_, hc.right⟩
  · exact ⟨_, hcs c (List.mem_append_right _ hcmem)⟩

/-- The root of the layer is none of the children, and not the new node. -/
theorem Cut.root_not_mem (t : Layer V) :
    (plug (f :: fs) t).root ∉ BTree.forestPtrs (kids f tl tr) ∧ (plug (f :: fs) t).root ≠ h.fresh := by
  rcases root_plug_cons f fs t with he | hmem
  · rw [he]
    exact ⟨hc.parent_not_mem.2, hc.ne_fresh (by simp)⟩
  · refine ⟨fun hmem' => ?_, hc.ne_fresh (List.mem_append_left _ hmem)⟩
    exact (List.nodup_append.mp hc.nodup_kids).2.2 _ hmem _ (List.mem_cons_of_mem _ hmem') rfl

/-- The parent is split. -/
theorem Cut.parentSplit (hfull : (f.kl ++ f.kr).length = 15) :
    ∃ k h', splitParent h f.p up tl.root tr.root f.cl.length = (k, h') ∧ (f.kl ++ up :: f.kr)[7]? = some k ∧
      ParentSplit h h' f.p (parent fs) (f.kl ++ up :: f.kr) ((kids f tl tr).map BTree.root) tl.root tr.root := by
  have hchild : ∀ q ∈ f.cl.map BTree.root ++ tl.root :: tr.root :: f.cr.map BTree.root, q ≠ f.p ∧ q ≠ h.fresh := by
    rw [← map_root_kids]
    intro q hq
    have hq := mem_forestPtrs_of_root hq
    exact ⟨fun he => hc.parent_not_mem.2 (he ▸ hq), hc.ne_fresh (by simp [hq])⟩
  obtain ⟨k, h', heq, hk, hsp⟩ := splitParent_spec tr.root up hc.ctx.1 (by simpa using f.len) hfull
    (hc.ne_fresh (by simp)) hchild
  rw [← map_root_kids] at hsp
  rw [List.length_map] at heq
  exact ⟨k, h', heq, hk, hsp⟩

variable (hsp : ParentSplit h h' f.p (parent fs) (f.kl ++ up :: f.kr) ((kids f tl tr).map BTree.root) tl.root tr.root)

include hsp

omit hc in
theorem outside_halves {q : Ptr} (hq : q < h.fresh) (hnot : q ∉ ctxPtrs (f :: fs) ++ tl.ptrs ++ tr.ptrs) :
    h'.mem q = h.mem q := by
  have hnot' := fun hmem => hnot (perm_kids.mem_iff.mpr hmem)
  simp only [List.mem_append, not_or] at hnot
  refine hsp.outside q (Nat.ne_of_lt hq) ?_ ?_ ?_ ?_
  · exact fun he => hnot' (by simp [he])
  · exact fun hmem => hnot' (by simp [mem_forestPtrs_of_root hmem])
  · exact fun he => hnot.1.2 (he ▸ tl.root_mem_ptrs)
  · exact fun he => hnot.2 (he ▸ tr.root_mem_ptrs)

theorem Cut.ctx_halves : StoredCtx h' fs f.p := by
  obtain ⟨-, -, hstored⟩ := hc.ctx
  obtain ⟨hfs, -, hdisj⟩ := List.nodup_append.mp hc.nodup_kids
  refine hstored.frame hfs ?_
  intro q hq
  have hqp : q ≠ f.p := fun he => hc.parent_not_mem.1 (he ▸ hq)
  have hqf : q ≠ h.fresh := hc.ne_fresh (List.mem_append_left _ hq)
  have hqcs : q ∉ (kids f tl tr).map BTree.root := by
    intro hmem
    exact hdisj q hq q (List.mem_cons_of_mem _ (mem_forestPtrs_of_root hmem)) rfl
  refine ⟨hsp.alike q hqp hqf, ?_⟩
  rw [hsp.parents q hqf, if_neg fun hmem => hqcs (List.mem_of_mem_drop hmem),
    if_neg fun hmem => hqcs (List.mem_of_mem_take hmem)]

theorem Cut.stored_halves :
    Stored h' (parent fs) (leftHalf f tl tr up) ∧ Stored h' none (rightHalf f tl tr up h.fresh) := by
  have hforest := (List.nodup_cons.mp (List.nodup_append.mp hc.nodup_kids).2.1).2
  obtain ⟨hleft, hright⟩ := hsp.kids hforest hc.parent_not_mem.2
    (fun hmem => hc.ne_fresh (by simp [hmem]) rfl) hc.kids_stored
  constructor
  · exact stored_inner.mpr ⟨by rw [List.map_take]; exact hsp.left, hleft⟩
  · exact stored_inner.mpr ⟨by rw [List.map_drop]; exact hsp.right, hright⟩

/-- The flag of the root is on the root, the left half included. -/
theorem Cut.roots_halves : ∀ q ∈ ctxPtrs fs ++ (leftHalf f tl tr up).ptrs,
    (h'.mem q).is_root = true ↔ q = (plug fs (leftHalf f tl tr up)).root := by
  intro q hq
  have hq' : q ∈ ctxPtrs (f :: fs) ++ tl.ptrs ++ tr.ptrs := by
    rw [perm_kids.mem_iff, ← forestPtrs_halves]
    simp only [BTree.ptrs_inner, List.mem_append, List.mem_cons] at hq ⊢
    tauto
  rw [(hsp.same q (Nat.ne_of_lt (hc.lt q hq'))).1]
  rw [root_plug_leftHalf]
  rcases List.mem_append.mp hq' with hql | hqr
  · exact hc.roots q hql
  · constructor
    · intro hr
      exact absurd (hc.rootsRight q hqr hr).2 (List.cons_ne_nil _ _)
    · rintro rfl
      exact absurd (BTree.mem_forestPtrs.mpr ⟨tr, by simp [kids], hqr⟩) (hc.root_not_mem tl).1

theorem Cut.rootsRight_halves : ∀ q ∈ (rightHalf f tl tr up h.fresh).ptrs,
    (h'.mem q).is_root = true → q = h.fresh ∧ fs = [] := by
  intro q hq hr
  rw [BTree.ptrs_inner, List.mem_cons] at hq
  rcases hq with rfl | hq
  · rw [hsp.flag, hc.roots f.p (by simp [ctxPtrs])] at hr
    refine ⟨rfl, ?_⟩
    by_contra hnil
    exact hc.parent_not_mem.1 (hr ▸ root_plug_mem hnil _)
  · have hqcs : q ∈ BTree.forestPtrs (kids f tl tr) := by
      rw [← forestPtrs_halves]
      exact List.mem_append_right _ hq
    have hq' : q ∈ ctxPtrs (f :: fs) ++ tl.ptrs ++ tr.ptrs := perm_kids.mem_iff.mpr (by simp [hqcs])
    rw [(hsp.same q (hc.ne_fresh (by simp [hqcs]))).1] at hr
    rcases List.mem_append.mp hq' with hql | hqr
    · exact absurd ((hc.roots q hql).mp hr ▸ hqcs) (hc.root_not_mem tl).1
    · exact absurd (hc.rootsRight q hqr hr).2 (List.cons_ne_nil _ _)

/-- The two halves of the parent are the next cut. -/
theorem Cut.halves {k : Nat} (hfull : (f.kl ++ f.kr).length = 15) (hk : (f.kl ++ up :: f.kr)[7]? = some k) :
    Cut h' fs (leftHalf f tl tr up) (rightHalf f tl tr up h.fresh) k lo hi where
  ctx := hc.ctx_halves hsp
  left := (hc.stored_halves hsp).1
  right := (hc.stored_halves hsp).2
  wf := by
    obtain ⟨a, b, ⟨plo, phi, hl, hr, -, -, hwf⟩, hwl, hwr⟩ := hc.wf
    have hlen : (f.kl ++ up :: f.kr).length = 16 := by
      rw [List.length_append] at hfull
      simp only [List.length_append, List.length_cons]
      omega
    obtain ⟨hw, hw'⟩ := wf_halves f.p h.fresh (forest_insert f.len hl hr hwl hwr) hlen hk
    exact ⟨plo, phi, hwf, hw, hw'⟩
  nodup := by
    refine (perm_halves h.fresh).nodup_iff.mpr (List.nodup_append.mpr ⟨hc.nodup, List.nodup_singleton _, ?_⟩)
    rintro q hq _ hq' rfl
    exact Nat.ne_of_lt (hc.lt q hq) (List.mem_singleton.mp hq')
  lt := by
    intro q hq
    rw [hsp.fresh]
    rcases old_or_new_of_mem_halves hq with hq | rfl
    · exact Nat.lt_succ_of_lt (hc.lt q hq)
    · exact Nat.lt_succ_self _
  roots := hc.roots_halves hsp
  rootsRight := hc.rootsRight_halves hsp
  upper := by
    intro u hu
    rw [root_plug_leftHalf] at hu ⊢
    rw [(hsp.same _ (hc.root_not_mem tl).2).2.1] at hu
    obtain ⟨hult, hunot, hidx⟩ := hc.upper u hu
    refine ⟨by rw [hsp.fresh]; exact Nat.lt_succ_of_lt hult, ?_, ?_⟩
    · exact fun hmem => (old_or_new_of_mem_halves hmem).elim hunot (Nat.ne_of_lt hult)
    · rw [outside_halves hsp hult hunot]
      exact hidx

end

/-- A full parent is split, and its halves are the next cut. -/
theorem Cut.splitParent (hc : Cut h (f :: fs) tl tr up lo hi) (hfull : (f.kl ++ f.kr).length = 15) :
    ∃ k h' tl' tr', splitParent h f.p up tl.root tr.root f.cl.length = (k, h') ∧
      Cut h' fs tl' tr' k lo hi ∧ tl'.root = f.p ∧ tr'.root = h.fresh ∧ h'.fresh = h.fresh + 1 ∧
      (ctxPtrs fs ++ tl'.ptrs ++ tr'.ptrs).Perm (ctxPtrs (f :: fs) ++ tl.ptrs ++ tr.ptrs ++ [h.fresh]) ∧
      tl'.leaves ++ tr'.leaves =
        BTree.forestLeaves f.cl ++ tl.leaves ++ tr.leaves ++ BTree.forestLeaves f.cr ∧
      (∀ q < h.fresh, q ∉ ctxPtrs (f :: fs) ++ tl.ptrs ++ tr.ptrs → h'.mem q = h.mem q) ∧
      ∀ q < h.fresh, (h'.mem q).upperLayer = (h.mem q).upperLayer ∧
        (h'.mem q).next = (h.mem q).next ∧ (h'.mem q).prev = (h.mem q).prev := by
  obtain ⟨k, h', heq, hk, hsp⟩ := hc.parentSplit hfull
  refine ⟨k, h', leftHalf f tl tr up, rightHalf f tl tr up h.fresh, heq, hc.halves hsp hfull hk, rfl, rfl,
    hsp.fresh, perm_halves h.fresh, ?_, fun q hq => outside_halves hsp hq,
    fun q hq => (hsp.same q (Nat.ne_of_lt hq)).2⟩
  rw [BTree.leaves_inner, BTree.leaves_inner, ← BTree.forestLeaves_append, List.take_append_drop, kids]
  simp

/-- The new root before its children are told. -/
def newRoot (left right : Ptr) (slice : Nat) (upper : Option Ptr) : Node V :=
  { (Node.newInterior : Node V) with
    is_root := true
    upperLayer := upper
    n_keys := 1
    key_slice := Function.update (fun _ => 0) 0 slice
    child := Function.update (Function.update (fun _ => none) 0 (some left)) 1 (some right) }

theorem newRoot_at (left right : Ptr) (slice : Nat) (upper : Option Ptr) :
    InteriorAt (newRoot left right slice upper : Node V) none [slice] [left, right] :=
  ⟨rfl, rfl, rfl, rfl, rfl⟩

/-- The last two stores of `create_root_with_children`. -/
def joinBelow (h : Heap V) (root left right : Ptr) : Heap V :=
  (h.modify left fun n => { n with parent := some root, upperLayer := none, is_root := false }).modify
    right fun n => { n with parent := some root, is_root := false }

theorem mem_joinBelow {root left right : Ptr} (hne : left ≠ right) (q : Ptr) :
    (joinBelow h root left right).mem q =
      if q = right then { h.mem q with parent := some root, is_root := false }
      else if q = left then { h.mem q with parent := some root, upperLayer := none, is_root := false }
      else h.mem q := by
  rw [joinBelow, mem_modify, mem_modify]
  by_cases hq : q = right
  · rw [if_pos hq, if_pos hq, if_neg fun he => hne (he.symm.trans hq)]
  · rw [if_neg hq, if_neg hq]

theorem create_root_with_children_eq {left right : Ptr} (slice : Nat)
    (hroot : (h.mem left).is_root = true) (hl : (h.mem left).parent = none)
    (hr : (h.mem right).parent = none) :
    create_root_with_children h left slice right =
      match (h.mem left).upperLayer with
      | none => some (h.fresh,
          joinBelow (h.alloc (newRoot left right slice none)).2 h.fresh left right)
      | some u => (((h.alloc (newRoot left right slice (some u))).2.mem u).findNextLayerIndex left).map
          fun i => (h.fresh, joinBelow ((h.alloc (newRoot left right slice (some u))).2.modify u
            (·.setLV i (.link h.fresh))) h.fresh left right) := by
  unfold create_root_with_children
  simp only [hroot, hl, hr, guard, if_true]
  cases (h.mem left).upperLayer with
  | none => rfl
  | some u =>
    simp only [newRoot]
    cases ((h.alloc _).2.mem u).findNextLayerIndex left with
    | none => rfl
    | some i => rfl

/-- Each node after `create_root_with_children`. -/
theorem create_root_with_children_spec {left right : Ptr} (slice : Nat)
    (hroot : (h.mem left).is_root = true) (hl : (h.mem left).parent = none)
    (hr : (h.mem right).parent = none) (hlf : left < h.fresh) (hrf : right < h.fresh) (hne : left ≠ right)
    (hupper : ∀ u, (h.mem left).upperLayer = some u → u < h.fresh ∧ u ≠ left ∧ u ≠ right ∧
      ((h.mem u).findNextLayerIndex left).isSome) :
    ∃ h', create_root_with_children h left slice right = some (h.fresh, h') ∧ h'.fresh = h.fresh + 1 ∧
      h'.mem h.fresh = newRoot left right slice (h.mem left).upperLayer ∧
      h'.mem left = { h.mem left with parent := some h.fresh, upperLayer := none, is_root := false } ∧
      h'.mem right = { h.mem right with parent := some h.fresh, is_root := false } ∧
      ∀ q < h.fresh, q ≠ left → q ≠ right → h'.mem q =
        if (h.mem left).upperLayer = some q then (h.mem q).relink left (some h.fresh) else h.mem q := by
  have hlne : left ≠ h.fresh := Nat.ne_of_lt hlf
  have hrne : right ≠ h.fresh := Nat.ne_of_lt hrf
  have hjoin : ∀ g : Heap V, g.fresh = h.fresh + 1 →
      g.mem h.fresh = newRoot left right slice (h.mem left).upperLayer →
      g.mem left = h.mem left → g.mem right = h.mem right →
      (∀ q < h.fresh, q ≠ left → q ≠ right → g.mem q =
        if (h.mem left).upperLayer = some q then (h.mem q).relink left (some h.fresh) else h.mem q) →
      let h' := joinBelow g h.fresh left right
      h'.fresh = h.fresh + 1 ∧ h'.mem h.fresh = newRoot left right slice (h.mem left).upperLayer ∧
      h'.mem left = { h.mem left with parent := some h.fresh, upperLayer := none, is_root := false } ∧
      h'.mem right = { h.mem right with parent := some h.fresh, is_root := false } ∧
      ∀ q < h.fresh, q ≠ left → q ≠ right → h'.mem q =
        if (h.mem left).upperLayer = some q then (h.mem q).relink left (some h.fresh) else h.mem q := by
    intro g hgf hgnew hgl hgr hgo h'
    refine ⟨hgf, ?_, ?_, ?_, ?_⟩
    · rw [mem_joinBelow hne, if_neg (Ne.symm hrne), if_neg (Ne.symm hlne), hgnew]
    · rw [mem_joinBelow hne, if_neg hne, if_pos rfl, hgl]
    · rw [mem_joinBelow hne, if_pos rfl, hgr]
    · intro q hq hql hqr
      rw [mem_joinBelow hne, if_neg hqr, if_neg hql, hgo q hq hql hqr]
  rw [create_root_with_children_eq slice hroot hl hr]
  cases hu : (h.mem left).upperLayer with
  | none =>
    rw [hu] at hjoin
    refine ⟨_, rfl, hjoin _ rfl ?_ ?_ ?_ ?_⟩
    · rw [mem_alloc, if_pos rfl]
    · rw [mem_alloc, if_neg hlne]
    · rw [mem_alloc, if_neg hrne]
    · intro q hq _ _
      rw [mem_alloc, if_neg (Nat.ne_of_lt hq), if_neg nofun]
  | some u =>
    obtain ⟨hulf, hul, hur, hidx⟩ := hupper u hu
    obtain ⟨i, hi⟩ := Option.isSome_iff_exists.mp hidx
    have hune : u ≠ h.fresh := Nat.ne_of_lt hulf
    rw [hu] at hjoin
    dsimp only
    rw [mem_alloc, if_neg hune, hi]
    refine ⟨_, rfl, hjoin _ rfl ?_ ?_ ?_ ?_⟩
    · rw [Heap.mem_modify_of_ne _ _ (Ne.symm hune), mem_alloc, if_pos rfl]
    · rw [Heap.mem_modify_of_ne _ _ (Ne.symm hul), mem_alloc, if_neg hlne]
    · rw [Heap.mem_modify_of_ne _ _ (Ne.symm hur), mem_alloc, if_neg hrne]
    · intro q hq _ _
      rw [mem_modify, mem_alloc, if_neg (Nat.ne_of_lt hq)]
      by_cases hqu : q = u
      · subst hqu
        rw [if_pos rfl, if_pos rfl, Node.relink_some hi]
      · rw [if_neg hqu, if_neg fun he => hqu (Option.some.inj he).symm]

theorem Cut.newRoot (hc : Cut h [] tl tr up lo hi) :
    ∃ h', create_root_with_children h tl.root up tr.root = some (h.fresh, h') ∧
      Grown h h' [] tl tr (some h.fresh) (.inner h.fresh [up] [tl, tr]) lo hi := by
  obtain ⟨-, htl, htr, -, hd⟩ := hc.disjoint
  have hlmem : ∀ q ∈ tl.ptrs, q < h.fresh := fun q hq => hc.lt q (by simp [hq])
  have hrmem : ∀ q ∈ tr.ptrs, q < h.fresh := fun q hq => hc.lt q (by simp [hq])
  have hne : tl.root ≠ tr.root := fun he => hd _ tl.root_mem_ptrs (he ▸ tr.root_mem_ptrs)
  obtain ⟨h', heq, hfresh, hnew, hleft, hright, hother⟩ := create_root_with_children_spec (h := h) up
    ((hc.roots tl.root (by simp [ctxPtrs, tl.root_mem_ptrs])).mpr rfl) hc.left.parent_root
    hc.right.parent_root (hlmem _ tl.root_mem_ptrs) (hrmem _ tr.root_mem_ptrs) hne (by
      intro u hu
      obtain ⟨hlt, hnot, hidx⟩ := hc.upper u hu
      simp only [List.mem_append, not_or] at hnot
      exact ⟨hlt, fun he => hnot.1.2 (he ▸ tl.root_mem_ptrs), fun he => hnot.2 (he ▸ tr.root_mem_ptrs),
        hidx⟩)
  have hinside : ∀ q ∈ tl.ptrs ++ tr.ptrs, q ≠ tl.root → q ≠ tr.root →
      h'.mem q = h.mem q := by
    intro q hq hql hqr
    rw [hother q (hc.lt q hq) hql hqr, if_neg]
    intro hu
    exact (hc.upper q hu).2.1 hq
  refine ⟨h', heq, ?_⟩
  constructor
  · refine stored_inner.mpr ⟨by rw [hnew]; exact newRoot_at .., ?_⟩
    intro c hcmem
    rcases List.mem_cons.mp hcmem with rfl | hcmem
    · refine hc.left.congr htl ?_ ?_ (by rw [hleft])
      · intro q hq
        by_cases hqr : q = c.root
        · rw [hqr, hleft]
          exact ⟨rfl, rfl, rfl, rfl, rfl, rfl, rfl⟩
        · rw [hinside q (by simp [hq]) hqr fun he => hd q hq (he ▸ tr.root_mem_ptrs)]
          exact .refl _
      · intro q hq hqr
        rw [hinside q (by simp [hq]) hqr fun he => hd q hq (he ▸ tr.root_mem_ptrs)]
    · obtain rfl := List.mem_singleton.mp hcmem
      refine hc.right.congr htr ?_ ?_ (by rw [hright])
      · intro q hq
        by_cases hqr : q = c.root
        · rw [hqr, hright]
          exact ⟨rfl, rfl, rfl, rfl, rfl, rfl, rfl⟩
        · rw [hinside q (by simp [hq]) (fun he => hd tl.root tl.root_mem_ptrs (he ▸ hq)) hqr]
          exact .refl _
      · intro q hq hqr
        rw [hinside q (by simp [hq]) (fun he => hd tl.root tl.root_mem_ptrs (he ▸ hq)) hqr]
  · obtain ⟨a, b, ⟨rfl, rfl⟩, hwl, hwr⟩ := hc.wf
    refine BTree.wf_inner.mpr ⟨by simp, by simp, BTree.forest_cons.mpr ⟨hwl.lt, hwr.lt, hwl, ?_⟩⟩
    exact BTree.forest_one.mpr ⟨rfl, hwr⟩
  · refine ⟨[h.fresh], ?_, List.nodup_singleton _, ?_⟩
    · simp only [BTree.ptrs_inner, BTree.forestPtrs_cons, BTree.forestPtrs_nil, List.append_nil, ctxPtrs,
        List.nil_append]
      exact (List.perm_append_singleton ..).symm
    · intro p hp
      rw [List.mem_singleton.mp hp, hfresh]
      exact ⟨Nat.le_refl _, Nat.lt_succ_self _⟩
  · intro p hp
    rw [BTree.ptrs_inner, List.mem_cons] at hp
    rcases hp with rfl | hp
    · rw [hnew]
      exact iff_of_true rfl rfl
    · have hp' : p ∈ tl.ptrs ++ tr.ptrs := by simpa using hp
      refine iff_of_false ?_ (Nat.ne_of_lt (hc.lt p hp'))
      rw [Bool.not_eq_true]
      by_cases hpl : p = tl.root
      · rw [hpl, hleft]
      by_cases hpr : p = tr.root
      · rw [hpr, hright]
      rw [hinside p hp' hpl hpr, ← Bool.not_eq_true]
      rcases List.mem_append.mp hp' with hpmem | hpmem
      · exact fun hr => hpl ((hc.roots p hpmem).mp hr)
      · exact fun hr => hpr (hc.rootsRight p hpmem hr).1
  · simp [leftLeaves, rightLeaves]
  · rw [hfresh]
    exact Nat.le_succ _
  · exact Or.inr ⟨rfl, Nat.le_refl _⟩
  · change (h'.mem h.fresh).upperLayer = _
    rw [hnew]
    rfl
  · intro q hq hnot
    simp only [List.mem_append, not_or] at hnot
    exact hother q hq (fun he => hnot.1.2 (he ▸ tl.root_mem_ptrs)) fun he => hnot.2 (he ▸ tr.root_mem_ptrs)
  · intro q hq
    by_cases hql : q = tl.root
    · rw [hql, hleft]
      exact ⟨rfl, rfl⟩
    by_cases hqr : q = tr.root
    · rw [hqr, hright]
      exact ⟨rfl, rfl⟩
    rw [hother q hq hql hqr]
    split
    · unfold Node.relink
      split <;> exact ⟨rfl, rfl⟩
    · exact ⟨rfl, rfl⟩

/-- The result of the next turns is the result of this one. -/
theorem Grown.lift {h₁ : Heap V} {tl' tr' : Layer V} {r : Option Ptr}
    (hg : Grown h₁ h' fs tl' tr' r t lo hi) (hc : Cut h (f :: fs) tl tr up lo hi) (hroot : tl'.root = f.p)
    (hfresh : h₁.fresh = h.fresh + 1)
    (hperm : (ctxPtrs fs ++ tl'.ptrs ++ tr'.ptrs).Perm
      (ctxPtrs (f :: fs) ++ tl.ptrs ++ tr.ptrs ++ [h.fresh]))
    (hleaves : tl'.leaves ++ tr'.leaves =
      BTree.forestLeaves f.cl ++ tl.leaves ++ tr.leaves ++ BTree.forestLeaves f.cr)
    (hout : ∀ q < h.fresh, q ∉ ctxPtrs (f :: fs) ++ tl.ptrs ++ tr.ptrs → h₁.mem q = h.mem q)
    (hsame : ∀ q < h.fresh, (h₁.mem q).upperLayer = (h.mem q).upperLayer ∧
      (h₁.mem q).next = (h.mem q).next ∧ (h₁.mem q).prev = (h.mem q).prev) :
    Grown h h' (f :: fs) tl tr r t lo hi := by
  have hrooteq : (plug fs tl').root = (plug (f :: fs) tl).root := root_plug_congr hroot
  have hrootlt : (plug (f :: fs) tl).root < h.fresh :=
    hc.lt _ (by simp [root_plug_mem (List.cons_ne_nil f fs) tl])
  have hupper := (hsame _ hrootlt).1
  constructor
  · exact hg.stored
  · exact hg.wf
  · obtain ⟨new, hp, hn, hrange⟩ := hg.perm
    refine ⟨h.fresh :: new, ?_, List.nodup_cons.mpr ⟨?_, hn⟩, ?_⟩
    · refine hp.trans ((hperm.append_right new).trans ?_)
      rw [List.append_assoc, List.singleton_append]
    · intro hmem
      have := (hrange _ hmem).1
      rw [hfresh] at this
      exact Nat.not_succ_le_self _ this
    · intro p hpmem
      rcases List.mem_cons.mp hpmem with rfl | hpmem
      · exact ⟨Nat.le_refl _, Nat.lt_of_lt_of_le (by rw [hfresh]; exact Nat.lt_succ_self _) hg.fresh⟩
      · have := hrange p hpmem
        rw [hfresh] at this
        exact ⟨Nat.le_of_succ_le this.1, this.2⟩
  · exact hg.roots
  · have := hg.leaves
    rw [List.append_assoc (leftLeaves fs), hleaves] at this
    simp [this, leftLeaves, rightLeaves]
  · have := hg.fresh
    rw [hfresh] at this
    exact Nat.le_of_succ_le this
  · rw [← hrooteq]
    refine hg.root.imp_right fun hr => ⟨hr.1, ?_⟩
    have := hr.2
    rw [hfresh] at this
    exact Nat.le_of_succ_le this
  · rw [hg.upper, hrooteq, hupper]
  · intro q hq hnot
    have hnot' : q ∉ ctxPtrs fs ++ tl'.ptrs ++ tr'.ptrs := by
      intro hmem
      rcases List.mem_append.mp (hperm.mem_iff.mp hmem) with hmem | hmem
      · exact hnot hmem
      · exact Nat.ne_of_lt hq (List.mem_singleton.mp hmem)
    rw [hg.outside q (by rw [hfresh]; exact Nat.lt_succ_of_lt hq) hnot', hrooteq, hupper, hout q hq hnot]
  · intro q hq
    have := hg.links q (by rw [hfresh]; exact Nat.lt_succ_of_lt hq)
    rw [this.1, this.2]
    exact (hsame q hq).2

theorem ascend_room {p node node1 : Ptr} {pull_up : Option Nat} {fuel i : Nat}
    (hpar : (h.mem node).parent = some p) (hidx : (h.mem p).findChildIndex node = some i)
    (hroom : (h.mem p).isNotFull = true) : ascend (fuel + 1) h node node1 pull_up =
      some (none, unlockBoth (insert_into_parent h p node1
        (pull_up.getD ((h.mem node1).slot 0).key_slice) i) node node1) := by
  rw [ascend, hpar]
  dsimp only
  rw [hidx]
  exact if_pos hroom

theorem ascend_full {p node node1 : Ptr} {pull_up : Option Nat} {fuel i : Nat}
    (hpar : (h.mem node).parent = some p) (hidx : (h.mem p).findChildIndex node = some i)
    (hfull : (h.mem p).isNotFull = false) : ascend (fuel + 1) h node node1 pull_up =
      let s := splitParent h p (pull_up.getD ((h.mem node1).slot 0).key_slice) node node1 i
      ascend fuel s.2 p h.fresh (some s.1) := by
  rw [ascend, hpar]
  dsimp only
  rw [hidx]
  exact if_neg (by simp [hfull])

/-- The loop `ASCEND` gives the right tree its place. -/
theorem ascend_spec : ∀ {fs : List (Frame (Slot V))} {h : Heap V} {tl tr : Layer V} {up fuel : Nat}
    (pull_up : Option Nat), Cut h fs tl tr up lo hi → fs.length < fuel →
    pull_up.getD ((h.mem tr.root).slot 0).key_slice = up →
    ∃ r h' t, ascend fuel h tl.root tr.root pull_up = some (r, h') ∧ Grown h h' fs tl tr r t lo hi := by
  intro fs
  induction fs with
  | nil =>
    intro h tl tr up fuel pull_up hc hfuel hup
    obtain ⟨k, rfl⟩ : ∃ k, fuel = k + 1 := ⟨fuel - 1, by simp at hfuel; omega⟩
    obtain ⟨h', heq, hg⟩ := hc.newRoot
    refine ⟨some h.fresh, unlockBoth h' tl.root tr.root, _, ?_, hg.same (same_unlockBoth h' _ _) rfl ?_
      (hg.nodup hc)⟩
    · have hpar : (h.mem tl.root).parent = none := hc.left.parent_root
      rw [ascend, hpar, hup]
      dsimp only
      rw [heq]
      rfl
    · intro q _ hnot
      simp only [List.mem_append, not_or] at hnot
      exact mem_unlockBoth_of_ne _ (fun he => hnot.1.2 (he ▸ tl.root_mem_ptrs))
        fun he => hnot.2 (he ▸ tr.root_mem_ptrs)
  | cons f fs ih =>
    intro h tl tr up fuel pull_up hc hfuel hup
    obtain ⟨k, rfl⟩ : ∃ k, fuel = k + 1 := ⟨fuel - 1, by simp at hfuel; omega⟩
    have hpar : (h.mem tl.root).parent = some f.p := hc.left.parent_root
    have hidx := hc.findChildIndex
    have hn := hc.ctx.1.n_keys
    by_cases hroom : (f.kl ++ f.kr).length = 15
    · obtain ⟨k', h', tl', tr', heq, hc', hroot, hroot', hfresh, hperm, hleaves, hout, hsame⟩ :=
        hc.splitParent hroom
      obtain ⟨r, h'', t, hasc, hg⟩ :=
        ih (some k') hc' (by simp at hfuel; omega : fs.length < k) rfl
      refine ⟨r, h'', t, ?_, hg.lift hc hroot hfresh hperm hleaves hout hsame⟩
      rw [ascend_full hpar hidx (by simp [Node.isNotFull, hn, hroom]), hup, heq]
      dsimp only
      rw [← hroot, ← hroot', hasc]
    · have hle : (f.kl ++ f.kr).length < 15 := by
        obtain ⟨a, b, ⟨plo, phi, -, -, -, hcap, -⟩, -, -⟩ := hc.wf
        omega
      refine ⟨none, unlockBoth (insert_into_parent h f.p tr.root up f.cl.length) tl.root tr.root, _, ?_,
        (hc.insert hle).same (same_unlockBoth _ _ _) rfl ?_ ((hc.insert hle).nodup hc)⟩
      · have hnot : (h.mem f.p).isNotFull = true := by
          simp only [Node.isNotFull, hn, bne_iff_ne]
          exact hroom
        rw [ascend_room hpar hidx hnot, hup]
      · intro q _ hnot
        simp only [List.mem_append, not_or] at hnot
        exact mem_unlockBoth_of_ne _ (fun he => hnot.1.2 (he ▸ tl.root_mem_ptrs))
          fun he => hnot.2 (he ▸ tr.root_mem_ptrs)

end

end Cassa.Masstree

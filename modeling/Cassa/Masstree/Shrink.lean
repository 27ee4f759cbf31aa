import Cassa.Masstree.Split

/-!
# The removal of a border node from its layer

An empty border node leaves the list and its parent. A parent that is left with one child
goes as well, and the child takes its place; at the root the child becomes the root.
-/

namespace Cassa.Masstree

open Cassa.Lib.SearchTree

variable {V : Type} {h h' : Heap V}

theorem InteriorAt.removeChild {n : Node V} {par : Option Ptr} {kl kr : List Nat} {cl cr : List Ptr}
    {c : Ptr} (hn : InteriorAt n par (kl ++ kr) (cl ++ c :: cr)) (hlen : kl.length = cl.length)
    (hpos : kl ++ kr ≠ []) (hcap : (kl ++ kr).length ≤ 15) :
    InteriorAt (removeChild n cl.length) par ((kl ++ kr).eraseIdx (cl.length - 1)) (cl ++ cr) := by
  have hnk := hn.n_keys
  have hpos' : 0 < (kl ++ kr).length := List.length_pos_iff.mpr hpos
  have hle : cl.length ≤ n.n_keys := by
    rw [hnk, List.length_append]
    omega
  have hkeys := hn.keys
  have hchildren := hn.children
  obtain ⟨m, hm⟩ : ∃ m, n.n_keys = m + 1 := ⟨n.n_keys - 1, by omega⟩
  have hstart : (if cl.length = 0 then 0 else cl.length - 1) = cl.length - 1 := by
    split <;> omega
  have hstart' : (if cl.length = 0 then 0 else cl.length) = cl.length := by
    split <;> omega
  rw [hm] at hkeys hchildren
  constructor
  · exact hn.border
  · exact hn.alive
  · exact hn.parent
  · change cells (shiftLeft _ (14 - _) n.key_slice) (n.n_keys - 1) = _
    rw [hstart, hm, Nat.add_sub_cancel, cells_shiftLeft _ (by omega) (by omega), hkeys]
  · change cells (shiftLeft _ (15 - _) n.child) (n.n_keys - 1 + 1) = _
    rw [hstart', hm, Nat.add_sub_cancel, cells_shiftLeft _ (by omega) (by omega), hchildren, List.map_append,
      List.map_cons, List.eraseIdx_append_of_length_le (by simp)]
    simp

theorem InteriorAt.setChild {n : Node V} {par : Option Ptr} {ks : List Nat} {cl cr : List Ptr}
    {c : Ptr} (hn : InteriorAt n par ks (cl ++ c :: cr)) (d : Ptr) :
    InteriorAt { n with child := Function.update n.child cl.length (some d) } par ks (cl ++ d :: cr) := by
  have hlt : cl.length < n.n_keys + 1 := by
    rw [hn.n_keys, ← hn.length, List.length_append, List.length_cons]
    omega
  constructor
  · exact hn.border
  · exact hn.alive
  · exact hn.parent
  · exact hn.keys
  · have hset : cells (Function.update n.child cl.length (some d)) (n.n_keys + 1) =
        (cells n.child (n.n_keys + 1)).set cl.length (some d) := by
      apply List.ext_getElem?
      intro j
      rw [List.getElem?_set, getElem?_cells, getElem?_cells, length_cells]
      by_cases hj : cl.length = j
      · subst hj
        simp [hlt]
      · rw [Function.update_of_ne (Ne.symm hj), if_neg hj]
    change cells (Function.update n.child cl.length (some d)) (n.n_keys + 1) = _
    rw [hset, hn.children, List.map_append, List.map_cons, List.set_append_right _ _ (by simp)]
    simp

/-- A node taken out of the list. -/
theorem mem_connectPrevAndNext (h : Heap V) (p q : Ptr) : (connectPrevAndNext h p).mem q =
    { h.mem q with
      next := if (h.mem p).prev = some q then (h.mem p).next else (h.mem q).next
      prev := if (h.mem p).next = some q then (h.mem p).prev else (h.mem q).prev } := by
  rw [connectPrevAndNext, mem_modify?, mem_modify?]
  split_ifs <;> rfl

theorem mem_setDeleted (h : Heap V) (p q : Ptr) :
    (setDeleted h p).mem q = if q = p then { h.mem q with deleted := true } else h.mem q :=
  mem_modify ..

/-- The neighbours of a node of the list are in the list. -/
theorem Seg.neighbour {p q : Ptr} {l : List Ptr} (hs : Seg h none l none) (hp : p ∈ l)
    (hq : (h.mem p).prev = some q ∨ (h.mem p).next = some q) : q ∈ l := by
  obtain ⟨l₁, l₂, rfl⟩ := List.append_of_mem hp
  obtain ⟨-, hprev, hnext, -⟩ := seg_append.mp hs
  rw [hprev, hnext, Option.or_none, Option.or_none] at hq
  rcases hq with hq | hq
  · exact List.mem_append_left _ (List.mem_of_getLast? hq)
  · exact List.mem_append_right _ (List.mem_cons_of_mem _ (List.mem_of_head? hq))

/-- The border nodes before and behind one of the layer have not been deleted. -/
theorem LayerOk.neighbour_alive {t : Layer V} (hok : LayerOk h t) {p q : Ptr} (hp : p ∈ t.leaves.map Prod.fst)
    (hq : (h.mem p).prev = some q ∨ (h.mem p).next = some q) : (h.mem q).deleted = false :=
  hok.stored.alive q ((t.leaves_sublist_ptrs).subset (hok.linked.neighbour hp hq))

/-- The list without the node. -/
theorem Seg.erase {p : Ptr} {l r : List Ptr} (hs : Seg h none (l ++ p :: r) none)
    (hn : (l ++ p :: r).Nodup)
    (hh' : ∀ q ∈ l ++ r, (h'.mem q).next = (if (h.mem p).prev = some q then (h.mem p).next else (h.mem q).next) ∧
      (h'.mem q).prev = if (h.mem p).next = some q then (h.mem p).prev else (h.mem q).prev) :
    Seg h' none (l ++ r) none := by
  obtain ⟨hl, hprev, hnext, hr⟩ := seg_append.mp hs
  obtain ⟨hln, hpr, hd⟩ := List.nodup_append.mp hn
  obtain ⟨hpnot, hrn⟩ := List.nodup_cons.mp hpr
  have hnext : (h.mem p).next = r.head? := by simpa using hnext
  have hprev : (h.mem p).prev = l.getLast? := by simpa using hprev
  have hlr : ∀ q ∈ l, q ∉ r := fun q hq hqr => hd q hq q (List.mem_cons_of_mem _ hqr) rfl
  rw [hnext, hprev] at hh'
  refine seg_append.mpr ⟨?_, ?_⟩
  · rcases List.eq_nil_or_concat l with rfl | ⟨l', a, rfl⟩
    · trivial
    · rw [List.concat_eq_append] at *
      have hlast : (l' ++ [a]).getLast? = some a := by simp
      rw [hlast] at hh'
      refine hl.setNext ?_ ?_
      · have ha := hh' a (by simp)
        rw [if_pos rfl, if_neg fun he => hlr a (by simp) (List.mem_of_head? he)] at ha
        exact ⟨ha.2, by simpa using ha.1⟩
      · intro q hq
        have hqa : some a ≠ some q := by
          rintro he
          obtain rfl := Option.some.inj he
          exact (List.nodup_append.mp hln).2.2 a hq a (List.mem_singleton_self _) rfl
        have := hh' q (by simp [hq])
        rw [if_neg hqa, if_neg fun he => hlr q (by simp [hq]) (List.mem_of_head? he)] at this
        exact ⟨this.2, this.1⟩
  · refine hr.setPrev ?_ ?_
    · intro q hq
      have hhead : r.head? = some q := hq
      have hqr := List.mem_of_head? hhead
      have := hh' q (by simp [hqr])
      rw [if_pos hhead, if_neg fun he => hlr q (List.mem_of_getLast? he) hqr] at this
      exact ⟨by simpa using this.2, this.1⟩
    · intro q hq
      have hqr := List.mem_of_mem_tail hq
      have := hh' q (by simp [hqr])
      have hhead : r.head? ≠ some q := by
        intro he
        cases r with
        | nil => cases he
        | cons a r =>
          obtain rfl : a = q := Option.some.inj he
          exact (List.nodup_cons.mp hrn).1 hq
      rw [if_neg hhead, if_neg fun he => hlr q (List.mem_of_getLast? he) hqr] at this
      exact ⟨this.2, this.1⟩

/-- The border node `p` lost its last slot. -/
structure Emptied (h h₁ : Heap V) (p : Ptr) : Prop where
  fresh : h₁.fresh = h.fresh
  other : ∀ q, q ≠ p → h₁.mem q = h.mem q
  permutation : (h₁.mem p).permutation = []
  is_root : (h₁.mem p).is_root = (h.mem p).is_root
  parent : (h₁.mem p).parent = (h.mem p).parent
  next : (h₁.mem p).next = (h.mem p).next
  prev : (h₁.mem p).prev = (h.mem p).prev

/-- The layer without the leaf `p`. -/
structure LayerDrop (h h' : Heap V) (t t' : Layer V) (fs : List (Frame (Slot V))) : Prop where
  ok : LayerOk h' t'
  leaves : t'.leaves = leftLeaves fs ++ rightLeaves fs
  fresh : h'.fresh = h.fresh
  ptrs : ∀ q ∈ t'.ptrs, q ∈ t.ptrs
  upper : (h'.mem t'.root).upperLayer = (h.mem t.root).upperLayer
  outside : ∀ q, q ∉ t.ptrs → h'.mem q = h.mem q

/-- A node that differs in its neighbours in the list at most. -/
def Node.unlink (n m : Node V) (q : Ptr) : Node V :=
  { n with
    next := if m.prev = some q then m.next else n.next
    prev := if m.next = some q then m.prev else n.prev }

section

variable {f : Frame (Slot V)} {fs : List (Frame (Slot V))} {p : Ptr} {es : List (Slot V)}

/-- The addresses in a layer with the leaf `p` below the frame `f`. -/
theorem LayerOk.frameNodup (hok : LayerOk h (plug (f :: fs) (.leaf p es))) :
    (ctxPtrs (f :: fs)).Nodup ∧ p ∉ ctxPtrs (f :: fs) ∧
      ∀ q, q ∈ (plug (f :: fs) (.leaf p es)).ptrs ↔ q ∈ ctxPtrs (f :: fs) ∨ q = p := by
  have hperm := ptrs_plug (f :: fs) (.leaf p es)
  rw [BTree.ptrs_leaf] at hperm
  obtain ⟨hn, -, hd⟩ := List.nodup_append.mp (hperm.nodup_iff.mp hok.nodup)
  refine ⟨hn, fun hp => hd p hp p (List.mem_singleton_self _) rfl, ?_⟩
  intro q
  rw [hperm.mem_iff, List.mem_append, List.mem_singleton]

/-- The list of the remaining leaves. -/
theorem LayerOk.segDrop (hok : LayerOk h (plug (f :: fs) (.leaf p es)))
    (hh' : ∀ q ∈ ctxPtrs (f :: fs), (h'.mem q).next = ((h.mem q).unlink (h.mem p) q).next ∧
      (h'.mem q).prev = ((h.mem q).unlink (h.mem p) q).prev) :
    Seg h' none ((leftLeaves (f :: fs) ++ rightLeaves (f :: fs)).map Prod.fst) none := by
  obtain ⟨hseg, hsegn, hsegmem⟩ := hok.leafPtrs
  obtain ⟨-, -, hmem⟩ := hok.frameNodup
  rw [List.map_append]
  refine hseg.erase hsegn ?_
  intro q hq
  refine hh' q (((hmem q).mp (hsegmem q ?_)).resolve_right ?_)
  · rcases List.mem_append.mp hq with hq | hq
    · exact List.mem_append_left _ hq
    · exact List.mem_append_right _ (List.mem_cons_of_mem _ hq)
  · rintro rfl
    obtain ⟨-, hpr, hd⟩ := List.nodup_append.mp hsegn
    rcases List.mem_append.mp hq with hq | hq
    · exact hd q hq q List.mem_cons_self rfl
    · exact (List.nodup_cons.mp hpr).1 hq

/-- The neighbours of a leaf are leaves of the same layer. -/
theorem LayerOk.unlink_outside (hok : LayerOk h (plug fs (.leaf p es))) {q : Ptr}
    (hq : q ∉ (plug fs (.leaf p es)).ptrs) : (h.mem q).unlink (h.mem p) q = h.mem q := by
  obtain ⟨hseg, -, hsegmem⟩ := hok.leafPtrs
  obtain ⟨-, hprev, hnext, -⟩ := seg_append.mp hseg
  have hnext' : (h.mem p).next ≠ some q := by
    intro he
    rw [he] at hnext
    have hqr : q ∈ (rightLeaves fs).map Prod.fst := List.mem_of_head? (by simpa using hnext.symm)
    exact hq (hsegmem q (List.mem_append_right _ (List.mem_cons_of_mem _ hqr)))
  have hprev' : (h.mem p).prev ≠ some q := by
    intro he
    rw [he] at hprev
    have hql : q ∈ (leftLeaves fs).map Prod.fst := List.mem_of_getLast? (by simpa using hprev.symm)
    exact hq (hsegmem q (List.mem_append_left _ hql))
  rw [Node.unlink, if_neg hnext', if_neg hprev']

/-- The way from the empty leaf to its parent. -/
theorem LayerOk.leafParent {h₁ : Heap V} (hok : LayerOk h (plug (f :: fs) (.leaf p es)))
    (he : Emptied h h₁ p) : (h₁.mem p).is_root = false ∧ (h₁.mem p).parent = some f.p ∧
      h₁.mem f.p = h.mem f.p ∧ (h₁.mem f.p).findChildIndex p = some f.cl.length ∧
      (h₁.mem f.p).n_keys = (f.kl ++ f.kr).length := by
  obtain ⟨hctx, hpctx, hmem⟩ := hok.frameNodup
  obtain ⟨⟨hn, -, -⟩, hleaf⟩ := stored_plug.mp hok.stored
  have hmemctx := @mem_ctxPtrs_cons V f fs
  have hfpp : f.p ≠ p := fun heq => hpctx (heq ▸ hmemctx.mpr (Or.inl rfl))
  have hnot : p ∉ f.cl.map BTree.root := by
    intro hmem
    obtain ⟨c, hc, hcr⟩ := List.mem_map.mp hmem
    exact hpctx (hmemctx.mpr (Or.inr (Or.inl ⟨c, List.mem_append_left _ hc, hcr ▸ c.root_mem_ptrs⟩)))
  refine ⟨?_, he.parent.trans (stored_leaf.mp hleaf).parent, he.other f.p hfpp, ?_, ?_⟩
  · rw [he.is_root, ← Bool.not_eq_true, hok.roots p ((hmem p).mpr (Or.inr rfl))]
    intro heq
    exact hpctx (heq ▸ root_plug_mem (List.cons_ne_nil f fs) _)
  · rw [he.other f.p hfpp]
    have := hn.findChildIndex hnot
    rwa [List.length_map] at this
  · rw [he.other f.p hfpp]
    exact hn.n_keys

theorem delete_borderNode_eq_drop {P : Ptr} {i : Nat} (hperm : (h.mem p).permutation = [])
    (hroot : (h.mem p).is_root = false) (hpar : (h.mem p).parent = some P)
    (hidx : (h.mem P).findChildIndex p = some i) (hkeys : 2 ≤ (h.mem P).n_keys) :
    delete_borderNode_in_remove h p = some (.NotChange, none,
      setDeleted (connectPrevAndNext (h.modify P (removeChild · i)) p) p) := by
  unfold delete_borderNode_in_remove
  simp [hperm, hroot, hpar, hidx, hkeys, guard]

/-- A parent that keeps at least two children. -/
theorem LayerOk.dropChild {h₁ : Heap V} (hok : LayerOk h (plug (f :: fs) (.leaf p es)))
    (he : Emptied h h₁ p) (hkeys : 2 ≤ (f.kl ++ f.kr).length) :
    ∃ h' t', delete_borderNode_in_remove h₁ p = some (.NotChange, none, h') ∧
      t'.root = (plug (f :: fs) (.leaf p es)).root ∧
      LayerDrop h h' (plug (f :: fs) (.leaf p es)) t' (f :: fs) := by
  obtain ⟨hctx, hpctx, hmem⟩ := hok.frameNodup
  obtain ⟨hfs, hkids, hpfs, hpkids, hkidsfs⟩ := ctxPtrs_cons_nodup hctx
  obtain ⟨⟨hn, hcs, hst⟩, -⟩ := stored_plug.mp hok.stored
  have hmemctx := @mem_ctxPtrs_cons V f fs
  have hfp : f.p ∈ ctxPtrs (f :: fs) := hmemctx.mpr (Or.inl rfl)
  have hfpp : f.p ≠ p := fun heq => hpctx (heq ▸ hfp)
  obtain ⟨a, b, ⟨plo, phi, hl, hr, hne, hcap, hwf⟩, hlwf⟩ := wf_plug.mp hok.wf
  obtain ⟨hroot, hpar, hfp₁, hidx, hnk⟩ := hok.leafParent he
  have hdel := delete_borderNode_eq_drop he.permutation hroot hpar hidx (hnk ▸ hkeys)
  set h' := setDeleted (connectPrevAndNext (h₁.modify f.p (removeChild · f.cl.length)) p) p with hh'
  have hat : ∀ q, q ≠ p → q ≠ f.p → h'.mem q = (h.mem q).unlink (h.mem p) q := by
    intro q hqp hqf
    rw [hh', mem_setDeleted, if_neg hqp, mem_connectPrevAndNext, Heap.mem_modify_of_ne _ _ hqf,
      Heap.mem_modify_of_ne _ _ (Ne.symm hfpp), he.next, he.prev, he.other q hqp]
    rfl
  have hatf : h'.mem f.p = (removeChild (h.mem f.p) f.cl.length).unlink (h.mem p) f.p := by
    rw [hh', mem_setDeleted, if_neg hfpp, mem_connectPrevAndNext, Heap.mem_modify_self,
      Heap.mem_modify_of_ne _ _ (Ne.symm hfpp), he.next, he.prev, hfp₁]
    rfl
  have hroot' : (plug fs (.inner f.p ((f.kl ++ f.kr).eraseIdx (f.cl.length - 1)) (f.cl ++ f.cr))).root =
      (plug (f :: fs) (.leaf p es)).root := root_plug_congr rfl
  have hperm : (plug fs (.inner f.p ((f.kl ++ f.kr).eraseIdx (f.cl.length - 1)) (f.cl ++ f.cr))).ptrs.Perm
      (ctxPtrs (f :: fs)) := by
    refine (ptrs_plug _ _).trans ?_
    rw [BTree.ptrs_inner, BTree.forestPtrs_append, ctxPtrs]
    exact List.perm_append_comm
  have hframe : ∀ q, q ≠ p → q ≠ f.p → (h.mem q).Alike (h'.mem q) ∧ (h'.mem q).parent = (h.mem q).parent := by
    intro q hqp hqf
    rw [hat q hqp hqf]
    exact ⟨⟨rfl, rfl, rfl, rfl, rfl, rfl, rfl⟩, rfl⟩
  have hne' : ∀ q ∈ ctxPtrs (f :: fs), q ≠ p := fun q hq heq => hpctx (heq ▸ hq)
  have hflags : ∀ q, q ≠ p → (h'.mem q).is_root = (h.mem q).is_root ∧
      (h'.mem q).upperLayer = (h.mem q).upperLayer ∧
      (h'.mem q).next = ((h.mem q).unlink (h.mem p) q).next ∧
      (h'.mem q).prev = ((h.mem q).unlink (h.mem p) q).prev := by
    intro q hqp
    by_cases hqf : q = f.p
    · rw [hqf, hatf]
      exact ⟨rfl, rfl, rfl, rfl⟩
    · rw [hat q hqp hqf]
      exact ⟨rfl, rfl, rfl, rfl⟩
  have hfresh : h'.fresh = h.fresh := (fresh_connectPrevAndNext ..).trans he.fresh
  have hleaves : (plug fs (.inner f.p ((f.kl ++ f.kr).eraseIdx (f.cl.length - 1)) (f.cl ++ f.cr))).leaves =
      leftLeaves (f :: fs) ++ rightLeaves (f :: fs) := by
    rw [leaves_plug]
    simp [leftLeaves, rightLeaves]
  have hlen : ((f.kl ++ f.kr).eraseIdx (f.cl.length - 1)).length = (f.kl ++ f.kr).length - 1 := by
    have hle := f.len
    have happ : (f.kl ++ f.kr).length = f.kl.length + f.kr.length := List.length_append
    rw [List.length_eraseIdx, if_pos (by omega)]
  refine ⟨h', _, hdel, hroot', ?_, ?_, ?_, ?_, ?_, ?_⟩
  · constructor
    · refine wf_plug.mpr ⟨plo, phi, hwf, BTree.wf_inner.mpr ⟨?_, ?_, ?_⟩⟩
      · exact List.ne_nil_of_length_pos (by rw [hlen]; omega)
      · rw [hlen]
        omega
      · exact forest_erase f.len hl hr hlwf.lt hne
    · refine stored_plug.mpr ⟨hst.frame hfs ?_, stored_inner.mpr ⟨?_, ?_⟩⟩
      · intro q hq
        exact hframe q (hne' q (hmemctx.mpr (Or.inr (Or.inr hq)))) fun heq => hpfs (heq ▸ hq)
      · rw [hatf, List.map_append]
        have := hn.removeChild (by simpa using f.len) hne hcap
        rw [List.length_map] at this
        exact this.alike ⟨rfl, rfl, rfl, rfl, rfl, rfl, rfl⟩ this.parent
      · intro c hc
        refine (hcs c hc).frame (hkids c hc) ?_
        intro q hq
        exact hframe q (hne' q (hmemctx.mpr (Or.inr (Or.inl ⟨c, hc, hq⟩)))) fun heq => hpkids c hc (heq ▸ hq)
    · exact hperm.nodup_iff.mpr hctx
    · intro q hq
      rw [hfresh]
      exact hok.lt q ((hmem q).mpr (Or.inl (hperm.mem_iff.mp hq)))
    · intro q hq
      have hq' := hperm.mem_iff.mp hq
      rw [(hflags q (hne' q hq')).1, hroot']
      exact hok.roots q ((hmem q).mpr (Or.inl hq'))
    · rw [hleaves]
      exact hok.segDrop fun q hq => (hflags q (hne' q hq)).2.2
  · exact hleaves
  · exact hfresh
  · intro q hq
    exact (hmem q).mpr (Or.inl (hperm.mem_iff.mp hq))
  · rw [hroot']
    exact (hflags _ (hne' _ (root_plug_mem (List.cons_ne_nil f fs) _))).2.1
  · intro q hq
    have hnot := fun h₀ => hq ((hmem q).mpr h₀)
    rw [hat q (fun heq => hnot (Or.inr heq)) fun heq => hnot (Or.inl (heq ▸ hfp))]
    exact hok.unlink_outside hq

/-- The child that is left, and what is known of it. -/
theorem LayerOk.onlyChild (hok : LayerOk h (plug (f :: fs) (.leaf p es)))
    (hkeys : (f.kl ++ f.kr).length = 1) : ∃ c plo phi, f.cl ++ f.cr = [c] ∧
      (h.mem f.p).child (if f.cl.length = 1 then 0 else 1) = some c.root ∧
      Stored h (some f.p) c ∧ c.Wf Slot.key_slice 15 plo phi ∧
      WfCtx Slot.key_slice 15 fs plo phi 0 maxSlice := by
  obtain ⟨⟨hn, hcs, hst⟩, -⟩ := stored_plug.mp hok.stored
  obtain ⟨a, b, ⟨plo, phi, hl, hr, hne, hcap, hwf⟩, hlwf⟩ := wf_plug.mp hok.wf
  have hforest := forest_erase f.len hl hr hlwf.lt hne
  have hlen := f.len
  have hlen' := hr.length
  have happ : (f.kl ++ f.kr).length = f.kl.length + f.kr.length := List.length_append
  have herase : (f.kl ++ f.kr).eraseIdx (f.cl.length - 1) = [] := by
    apply List.eq_nil_of_length_eq_zero
    rw [List.length_eraseIdx, if_pos (by omega)]
    omega
  have hone : (f.cl ++ f.cr).length = 1 := by
    rw [List.length_append]
    omega
  obtain ⟨c, hc⟩ := List.length_eq_one_iff.mp hone
  rw [herase, hc, BTree.forest_one] at hforest
  refine ⟨c, plo, phi, hc, ?_, hcs c (by rw [hc]; exact List.mem_singleton_self _), hforest.2, hwf⟩
  rcases List.append_eq_singleton_iff.mp hc with ⟨hcl, hcr⟩ | ⟨hcl, hcr⟩
  · rw [hcl] at hn ⊢
    rw [hcr] at hn
    exact hn.child_eq rfl
  · rw [hcl] at hn ⊢
    rw [hcr] at hn
    exact hn.child_eq rfl

theorem delete_borderNode_eq_root {P c : Ptr} {i : Nat} (hperm : (h.mem p).permutation = [])
    (hroot : (h.mem p).is_root = false) (hpar : (h.mem p).parent = some P)
    (hidx : (h.mem P).findChildIndex p = some i) (hkeys : (h.mem P).n_keys = 1)
    (hc : (h.mem P).child (if i = 1 then 0 else 1) = some c) (hP : (h.mem P).is_root = true)
    (hPP : (h.mem P).parent = none) (hup : (h.mem P).upperLayer = none) :
    delete_borderNode_in_remove h p = some (.NewRoot, some c,
      setDeleted (setDeleted (connectPrevAndNext (h.modify c fun n =>
        { n with is_root := true, parent := none, upperLayer := none }) p) p) P) := by
  unfold delete_borderNode_in_remove
  simp [hperm, hroot, hpar, hidx, hkeys, hc, hP, hPP, hup, guard]

theorem delete_borderNode_eq_inner {P G c : Ptr} {i j : Nat} (hperm : (h.mem p).permutation = [])
    (hroot : (h.mem p).is_root = false) (hpar : (h.mem p).parent = some P)
    (hidx : (h.mem P).findChildIndex p = some i) (hkeys : (h.mem P).n_keys = 1)
    (hc : (h.mem P).child (if i = 1 then 0 else 1) = some c) (hP : (h.mem P).is_root = false)
    (hPP : (h.mem P).parent = some G) (hidx' : (h.mem G).findChildIndex P = some j) :
    delete_borderNode_in_remove h p = some (.NotChange, none,
      setDeleted (setDeleted (connectPrevAndNext ((h.modify G fun n =>
        { n with child := Function.update n.child j (some c) }).modify c fun n =>
        { n with parent := some G }) p) p) P) := by
  unfold delete_borderNode_in_remove
  simp [hperm, hroot, hpar, hidx, hkeys, hc, hP, hPP, hidx', guard]

/-- The child in the place of the parent. -/
theorem LayerOk.dropTo {c : Layer V} {plo phi : Nat} (hok : LayerOk h (plug (f :: fs) (.leaf p es)))
    (hc : f.cl ++ f.cr = [c]) (hwf : c.Wf Slot.key_slice 15 plo phi)
    (hctx : WfCtx Slot.key_slice 15 fs plo phi 0 maxSlice) (hst : StoredCtx h' fs c.root)
    (hcst : Stored h' (parent fs) c) (hfresh : h'.fresh = h.fresh)
    (hroots : ∀ q ∈ ctxPtrs fs ++ c.ptrs, (h'.mem q).is_root = true ↔ q = (plug fs c).root)
    (hlist : ∀ q, q ≠ p → (h'.mem q).next = ((h.mem q).unlink (h.mem p) q).next ∧
      (h'.mem q).prev = ((h.mem q).unlink (h.mem p) q).prev)
    (hupper : (h'.mem (plug fs c).root).upperLayer =
      (h.mem (plug (f :: fs) (.leaf p es)).root).upperLayer)
    (hout : ∀ q, q ∉ (plug (f :: fs) (.leaf p es)).ptrs → h'.mem q = (h.mem q).unlink (h.mem p) q) :
    LayerDrop h h' (plug (f :: fs) (.leaf p es)) (plug fs c) (f :: fs) := by
  obtain ⟨hn, hpctx, hmem⟩ := hok.frameNodup
  have hperm := ptrs_plug fs c
  have hsub : (ctxPtrs (f :: fs)).Perm (f.p :: (ctxPtrs fs ++ c.ptrs)) := by
    rw [ctxPtrs, ← BTree.forestPtrs_append, hc, BTree.forestPtrs_cons, BTree.forestPtrs_nil,
      List.perm_iff_count]
    intro q
    simp only [List.count_append, List.count_cons, List.count_nil]
    omega
  have hin : ∀ q ∈ ctxPtrs fs ++ c.ptrs, q ∈ ctxPtrs (f :: fs) :=
    fun q hq => hsub.mem_iff.mpr (List.mem_cons_of_mem _ hq)
  have hptrs : ∀ q ∈ (plug fs c).ptrs, q ∈ (plug (f :: fs) (.leaf p es)).ptrs :=
    fun q hq => (hmem q).mpr (Or.inl (hin q (hperm.mem_iff.mp hq)))
  have hleaves : (plug fs c).leaves = leftLeaves (f :: fs) ++ rightLeaves (f :: fs) := by
    have hforest : BTree.forestLeaves f.cl ++ BTree.forestLeaves f.cr = c.leaves := by
      rw [← BTree.forestLeaves_append, hc]
      simp
    rw [leaves_plug, ← hforest]
    simp [leftLeaves, rightLeaves]
  refine ⟨⟨?_, ?_, ?_, ?_, ?_, ?_⟩, hleaves, hfresh, hptrs, hupper, ?_⟩
  · exact wf_plug.mpr ⟨plo, phi, hctx, hwf⟩
  · exact stored_plug.mpr ⟨hst, hcst⟩
  · exact hperm.nodup_iff.mpr (List.nodup_cons.mp (hsub.nodup_iff.mp hn)).2
  · intro q hq
    rw [hfresh]
    exact hok.lt q (hptrs q hq)
  · intro q hq
    exact hroots q (hperm.mem_iff.mp hq)
  · rw [hleaves]
    exact hok.segDrop fun q hq => hlist q fun heq => hpctx (heq ▸ hq)
  · intro q hq
    rw [hout q hq]
    exact hok.unlink_outside hq

/-- The nodes below another child, and those above the parent, are neither the leaf nor the parent. -/
theorem LayerOk.apart {c : Layer V} (hok : LayerOk h (plug (f :: fs) (.leaf p es))) (hc : c ∈ f.cl ++ f.cr) :
    f.p ≠ p ∧ (∀ q ∈ c.ptrs, q ≠ p ∧ q ≠ f.p ∧ q ∉ ctxPtrs fs) ∧ ∀ q ∈ ctxPtrs fs, q ≠ p ∧ q ≠ f.p := by
  obtain ⟨hctx, hpctx, -⟩ := hok.frameNodup
  obtain ⟨-, -, hpfs, hpkids, hkidsfs⟩ := ctxPtrs_cons_nodup hctx
  have hmemctx := @mem_ctxPtrs_cons V f fs
  refine ⟨fun heq => hpctx (heq ▸ hmemctx.mpr (Or.inl rfl)), ?_, ?_⟩
  · intro q hq
    have hq' : q ∈ ctxPtrs (f :: fs) := hmemctx.mpr (Or.inr (Or.inl ⟨c, hc, hq⟩))
    exact ⟨fun heq => hpctx (heq ▸ hq'), fun heq => hpkids c hc (heq ▸ hq), hkidsfs c hc q hq⟩
  · intro q hq
    exact ⟨fun heq => hpctx (heq ▸ hmemctx.mpr (Or.inr (Or.inr hq))), fun heq => hpfs (heq ▸ hq)⟩

/-- A root with one other child: the child is the new root. -/
theorem LayerOk.pullUpRoot {h₁ : Heap V} (hok : LayerOk h (plug [f] (.leaf p es)))
    (he : Emptied h h₁ p) (hkeys : (f.kl ++ f.kr).length = 1)
    (hupper : (h.mem f.p).upperLayer = none) :
    ∃ h' t', delete_borderNode_in_remove h₁ p = some (.NewRoot, some t'.root, h') ∧
      LayerDrop h h' (plug [f] (.leaf p es)) t' [f] := by
  obtain ⟨hctx, -, hmem⟩ := hok.frameNodup
  obtain ⟨-, hkids, -, -, -⟩ := ctxPtrs_cons_nodup hctx
  obtain ⟨⟨hn, -, -⟩, -⟩ := stored_plug.mp hok.stored
  obtain ⟨c, plo, phi, hc, hchild, hcst, hcwf, hwf⟩ := hok.onlyChild hkeys
  obtain ⟨hroot, hpar, hfp₁, hidx, hnk⟩ := hok.leafParent he
  have hmemctx := @mem_ctxPtrs_cons V f []
  have hcmem : c ∈ f.cl ++ f.cr := by
    rw [hc]
    exact List.mem_singleton_self _
  obtain ⟨hfpp, hcp, -⟩ := hok.apart hcmem
  have hfroot : (h.mem f.p).is_root = true :=
    (hok.roots f.p ((hmem f.p).mpr (Or.inl (hmemctx.mpr (Or.inl rfl))))).mpr rfl
  have hdel := delete_borderNode_eq_root he.permutation hroot hpar hidx (hnk.trans hkeys)
    (hfp₁ ▸ hchild) (hfp₁ ▸ hfroot) (hfp₁ ▸ hn.parent) (hfp₁ ▸ hupper)
  set h' := setDeleted (setDeleted (connectPrevAndNext (h₁.modify c.root fun n =>
    { n with is_root := true, parent := none, upperLayer := none }) p) p) f.p with hh'
  have hcr := hcp c.root c.root_mem_ptrs
  have hat : ∀ q, q ≠ p → q ≠ f.p → q ≠ c.root → h'.mem q = (h.mem q).unlink (h.mem p) q := by
    intro q hqp hqf hqc
    rw [hh', mem_setDeleted, if_neg hqf, mem_setDeleted, if_neg hqp, mem_connectPrevAndNext,
      Heap.mem_modify_of_ne _ _ hqc, Heap.mem_modify_of_ne _ _ (Ne.symm hcr.1), he.next, he.prev,
      he.other q hqp]
    rfl
  have hatc : h'.mem c.root =
      { (h.mem c.root).unlink (h.mem p) c.root with
        is_root := true, parent := none, upperLayer := none } := by
    rw [hh', mem_setDeleted, if_neg hcr.2.1, mem_setDeleted, if_neg hcr.1, mem_connectPrevAndNext,
      Heap.mem_modify_self, Heap.mem_modify_of_ne _ _ (Ne.symm hcr.1), he.next, he.prev,
      he.other _ hcr.1]
    rfl
  have hatf : (h'.mem f.p).next = ((h.mem f.p).unlink (h.mem p) f.p).next ∧
      (h'.mem f.p).prev = ((h.mem f.p).unlink (h.mem p) f.p).prev := by
    rw [hh', mem_setDeleted, if_pos rfl, mem_setDeleted, if_neg hfpp, mem_connectPrevAndNext,
      Heap.mem_modify_of_ne _ _ (Ne.symm hcr.2.1), Heap.mem_modify_of_ne _ _ (Ne.symm hcr.1), he.next, he.prev,
      he.other _ hfpp]
    exact ⟨rfl, rfl⟩
  refine ⟨h', c, hdel, hok.dropTo hc hcwf hwf trivial ?_ ?_ ?_ ?_ ?_ ?_⟩
  · refine hcst.congr (hkids c hcmem) ?_ ?_ ?_
    · intro q hq
      by_cases hqc : q = c.root
      · rw [hqc, hatc]
        exact ⟨rfl, rfl, rfl, rfl, rfl, rfl, rfl⟩
      · rw [hat q (hcp q hq).1 (hcp q hq).2.1 hqc]
        exact ⟨rfl, rfl, rfl, rfl, rfl, rfl, rfl⟩
    · intro q hq hqc
      rw [hat q (hcp q hq).1 (hcp q hq).2.1 hqc]
      rfl
    · rw [hatc]
      rfl
  · exact (fresh_connectPrevAndNext ..).trans he.fresh
  · intro q hq
    have hq : q ∈ c.ptrs := hq
    by_cases hqc : q = c.root
    · rw [hqc, hatc]
      exact iff_of_true rfl rfl
    · refine iff_of_false ?_ hqc
      rw [hat q (hcp q hq).1 (hcp q hq).2.1 hqc]
      change ¬ (h.mem q).is_root = true
      rw [hok.roots q ((hmem q).mpr (Or.inl (hmemctx.mpr (Or.inr (Or.inl ⟨c, hcmem, hq⟩)))))]
      exact (hcp q hq).2.1
  · intro q hqp
    by_cases hqf : q = f.p
    · rw [hqf]
      exact hatf
    by_cases hqc : q = c.root
    · rw [hqc, hatc]
      exact ⟨rfl, rfl⟩
    rw [hat q hqp hqf hqc]
    exact ⟨rfl, rfl⟩
  · change (h'.mem c.root).upperLayer = (h.mem f.p).upperLayer
    rw [hatc, hupper]
  · intro q hq
    have hnot := fun h₀ => hq ((hmem q).mpr h₀)
    refine hat q (fun heq => hnot (Or.inr heq)) (fun heq => hnot (Or.inl ?_)) fun heq => hnot (Or.inl ?_)
    · exact hmemctx.mpr (Or.inl heq)
    · exact hmemctx.mpr (Or.inr (Or.inl ⟨c, hcmem, heq ▸ c.root_mem_ptrs⟩))

/-- The heap after the child `c` has taken the place of the node `P` at index `j` of the node `G`, and
`P` and the empty leaf `p` are deleted. -/
structure ChildUp (h h' : Heap V) (p P c G : Ptr) (j : Nat) : Prop where
  fresh : h'.fresh = h.fresh
  other : ∀ q, q ≠ p → q ≠ P → q ≠ c → q ≠ G → h'.mem q = (h.mem q).unlink (h.mem p) q
  child : h'.mem c = { (h.mem c).unlink (h.mem p) c with parent := some G }
  above : h'.mem G = { (h.mem G).unlink (h.mem p) G with
    child := Function.update (h.mem G).child j (some c) }
  next : (h'.mem P).next = ((h.mem P).unlink (h.mem p) P).next
  prev : (h'.mem P).prev = ((h.mem P).unlink (h.mem p) P).prev

theorem Emptied.childUp {h₁ : Heap V} {P c G : Ptr} (he : Emptied h h₁ p) (j : Nat) (hP : P ≠ p)
    (hc : c ≠ p ∧ c ≠ P) (hG : G ≠ p ∧ G ≠ P ∧ G ≠ c) :
    ChildUp h (setDeleted (setDeleted (connectPrevAndNext ((h₁.modify G fun n =>
      { n with child := Function.update n.child j (some c) }).modify c fun n =>
      { n with parent := some G }) p) p) P) p P c G j := by
  have hp : (((h₁.modify G fun n => { n with child := Function.update n.child j (some c) }).modify c fun n =>
      { n with parent := some G }).mem p) = h₁.mem p := by
    rw [Heap.mem_modify_of_ne _ _ (Ne.symm hc.1), Heap.mem_modify_of_ne _ _ (Ne.symm hG.1)]
  have hlist : ∀ q, q ≠ p → q ≠ c → q ≠ G → (connectPrevAndNext ((h₁.modify G fun n =>
      { n with child := Function.update n.child j (some c) }).modify c fun n =>
      { n with parent := some G }) p).mem q = (h.mem q).unlink (h.mem p) q := by
    intro q hqp hqc hqG
    rw [mem_connectPrevAndNext, hp, Heap.mem_modify_of_ne _ _ hqc, Heap.mem_modify_of_ne _ _ hqG, he.next,
      he.prev, he.other q hqp]
    rfl
  have hPlist := hlist P hP (Ne.symm hc.2) (Ne.symm hG.2.1)
  constructor
  · exact (fresh_connectPrevAndNext ..).trans he.fresh
  · intro q hqp hqP hqc hqG
    rw [mem_setDeleted, if_neg hqP, mem_setDeleted, if_neg hqp, hlist q hqp hqc hqG]
  · rw [mem_setDeleted, if_neg hc.2, mem_setDeleted, if_neg hc.1, mem_connectPrevAndNext, hp,
      Heap.mem_modify_self, Heap.mem_modify_of_ne _ _ (Ne.symm hG.2.2), he.next, he.prev, he.other _ hc.1]
    rfl
  · rw [mem_setDeleted, if_neg hG.2.1, mem_setDeleted, if_neg hG.1, mem_connectPrevAndNext, hp,
      Heap.mem_modify_of_ne _ _ hG.2.2, Heap.mem_modify_self, he.next, he.prev, he.other _ hG.1]
    rfl
  · rw [mem_setDeleted, if_pos rfl, mem_setDeleted, if_neg hP, hPlist]
  · rw [mem_setDeleted, if_pos rfl, mem_setDeleted, if_neg hP, hPlist]

theorem ChildUp.flags {P c G : Ptr} {j : Nat} (hu : ChildUp h h' p P c G j) {q : Ptr} (hqp : q ≠ p) (hqP : q ≠ P) :
    (h'.mem q).is_root = (h.mem q).is_root ∧ (h'.mem q).upperLayer = (h.mem q).upperLayer ∧
      (h'.mem q).next = ((h.mem q).unlink (h.mem p) q).next ∧
      (h'.mem q).prev = ((h.mem q).unlink (h.mem p) q).prev := by
  by_cases hqc : q = c
  · rw [hqc, hu.child]
    exact ⟨rfl, rfl, rfl, rfl⟩
  by_cases hqG : q = G
  · rw [hqG, hu.above]
    exact ⟨rfl, rfl, rfl, rfl⟩
  rw [hu.other q hqp hqP hqc hqG]
  exact ⟨rfl, rfl, rfl, rfl⟩

section

variable {g : Frame (Slot V)} {gs : List (Frame (Slot V))} {c : Layer V}

/-- The place of the parent in the node above it. -/
theorem LayerOk.parentIndex (hok : LayerOk h (plug (f :: g :: gs) (.leaf p es))) :
    (h.mem g.p).findChildIndex f.p = some g.cl.length := by
  obtain ⟨⟨-, -, hng, -, -⟩, -⟩ := stored_plug.mp hok.stored
  obtain ⟨-, -, hpfs, -, -⟩ := ctxPtrs_cons_nodup hok.frameNodup.1
  have hnot : f.p ∉ g.cl.map BTree.root := by
    intro hmem
    obtain ⟨d, hd, hdr⟩ := List.mem_map.mp hmem
    exact hpfs (mem_ctxPtrs_cons.mpr (Or.inr (Or.inl ⟨d, List.mem_append_left _ hd, hdr ▸ d.root_mem_ptrs⟩)))
  have hidx := hng.findChildIndex hnot
  rwa [List.length_map] at hidx

/-- What is above the parent is stored with the child in the parent's place. -/
theorem ChildUp.storedCtx (hu : ChildUp h h' p f.p c.root g.p g.cl.length)
    (hok : LayerOk h (plug (f :: g :: gs) (.leaf p es))) (hc : c ∈ f.cl ++ f.cr) :
    StoredCtx h' (g :: gs) c.root := by
  obtain ⟨-, hcp, hgq⟩ := hok.apart hc
  obtain ⟨hfs, -, -, -, -⟩ := ctxPtrs_cons_nodup hok.frameNodup.1
  obtain ⟨hgs, hkids, hggs, hgkids, -⟩ := ctxPtrs_cons_nodup hfs
  obtain ⟨⟨-, -, hng, hgcs, hgst⟩, -⟩ := stored_plug.mp hok.stored
  have hsame : ∀ q ∈ ctxPtrs (g :: gs), q ≠ g.p → (h.mem q).Alike (h'.mem q) ∧ (h'.mem q).parent = (h.mem q).parent := by
    intro q hq hqg
    have hqc : q ≠ c.root := fun heq => (hcp _ c.root_mem_ptrs).2.2 (heq ▸ hq)
    rw [hu.other q (hgq q hq).1 (hgq q hq).2 hqc hqg]
    exact ⟨⟨rfl, rfl, rfl, rfl, rfl, rfl, rfl⟩, rfl⟩
  refine ⟨?_, ?_, ?_⟩
  · have hset := hng.setChild c.root
    rw [List.length_map] at hset
    rw [hu.above]
    exact hset.alike ⟨rfl, rfl, rfl, rfl, rfl, rfl, rfl⟩ hset.parent
  · intro d hd
    refine (hgcs d hd).frame (hkids d hd) ?_
    intro q hq
    exact hsame q (mem_ctxPtrs_cons.mpr (Or.inr (Or.inl ⟨d, hd, hq⟩))) fun heq => hgkids d hd (heq ▸ hq)
  · refine hgst.frame hgs ?_
    intro q hq
    exact hsame q (mem_ctxPtrs_cons.mpr (Or.inr (Or.inr hq))) fun heq => hggs (heq ▸ hq)

/-- The child is stored below the node above. -/
theorem ChildUp.stored (hu : ChildUp h h' p f.p c.root g.p g.cl.length)
    (hok : LayerOk h (plug (f :: g :: gs) (.leaf p es))) (hc : c ∈ f.cl ++ f.cr)
    (hst : Stored h (some f.p) c) : Stored h' (some g.p) c := by
  obtain ⟨-, hcp, -⟩ := hok.apart hc
  obtain ⟨-, hkids, -, -, -⟩ := ctxPtrs_cons_nodup hok.frameNodup.1
  have hgp : g.p ∈ ctxPtrs (g :: gs) := mem_ctxPtrs_cons.mpr (Or.inl rfl)
  have hother : ∀ q ∈ c.ptrs, q ≠ c.root → h'.mem q = (h.mem q).unlink (h.mem p) q :=
    fun q hq hqc => hu.other q (hcp q hq).1 (hcp q hq).2.1 hqc fun heq => (hcp q hq).2.2 (heq ▸ hgp)
  refine hst.congr (hkids c hc) ?_ ?_ ?_
  · intro q hq
    by_cases hqc : q = c.root
    · rw [hqc, hu.child]
      exact ⟨rfl, rfl, rfl, rfl, rfl, rfl, rfl⟩
    · rw [hother q hq hqc]
      exact ⟨rfl, rfl, rfl, rfl, rfl, rfl, rfl⟩
  · intro q hq hqc
    rw [hother q hq hqc]
    rfl
  · rw [hu.child]

/-- An inner node with one other child: the child goes to the node above. -/
theorem LayerOk.pullUp {h₁ : Heap V} (hok : LayerOk h (plug (f :: g :: gs) (.leaf p es)))
    (he : Emptied h h₁ p) (hkeys : (f.kl ++ f.kr).length = 1) :
    ∃ h' t', delete_borderNode_in_remove h₁ p = some (.NotChange, none, h') ∧
      t'.root = (plug (f :: g :: gs) (.leaf p es)).root ∧
      LayerDrop h h' (plug (f :: g :: gs) (.leaf p es)) t' (f :: g :: gs) := by
  obtain ⟨hctx, -, hmem⟩ := hok.frameNodup
  obtain ⟨-, -, hpfs, -, -⟩ := ctxPtrs_cons_nodup hctx
  obtain ⟨⟨hn, -⟩, -⟩ := stored_plug.mp hok.stored
  obtain ⟨c, plo, phi, hc, hchild, hcst, hcwf, hwf⟩ := hok.onlyChild hkeys
  obtain ⟨hroot, hpar, hfp₁, hidx, hnk⟩ := hok.leafParent he
  have hmemctx := @mem_ctxPtrs_cons V f (g :: gs)
  have hcmem : c ∈ f.cl ++ f.cr := by
    rw [hc]
    exact List.mem_singleton_self _
  obtain ⟨hfpp, hcp, hgq⟩ := hok.apart hcmem
  have hgp : g.p ∈ ctxPtrs (g :: gs) := mem_ctxPtrs_cons.mpr (Or.inl rfl)
  have hcr := hcp c.root c.root_mem_ptrs
  have hgc : g.p ≠ c.root := fun heq => hcr.2.2 (heq ▸ hgp)
  have hfroot : (h.mem f.p).is_root = false := by
    rw [← Bool.not_eq_true, hok.roots f.p ((hmem f.p).mpr (Or.inl (hmemctx.mpr (Or.inl rfl))))]
    intro heq
    exact hpfs (heq ▸ root_plug_mem (List.cons_ne_nil g gs) _)
  have hidx' : (h₁.mem g.p).findChildIndex f.p = some g.cl.length := by
    rw [he.other g.p (hgq g.p hgp).1]
    exact hok.parentIndex
  have hdel := delete_borderNode_eq_inner he.permutation hroot hpar hidx (hnk.trans hkeys)
    (hfp₁ ▸ hchild) (hfp₁ ▸ hfroot) (hfp₁ ▸ hn.parent) hidx'
  have hu := he.childUp g.cl.length hfpp ⟨hcr.1, hcr.2.1⟩ ⟨(hgq g.p hgp).1, (hgq g.p hgp).2, hgc⟩
  have hrooteq : (plug (g :: gs) c).root = (plug (f :: g :: gs) (.leaf p es)).root :=
    @root_plug_congr V gs _ _ rfl
  refine ⟨_, plug (g :: gs) c, hdel, hrooteq, hok.dropTo hc hcwf hwf (hu.storedCtx hok hcmem)
    (hu.stored hok hcmem hcst) hu.fresh ?_ ?_ ?_ ?_⟩
  · intro q hq
    have hq' : q ∈ ctxPtrs (f :: g :: gs) ∧ q ≠ p ∧ q ≠ f.p := by
      rcases List.mem_append.mp hq with hq | hq
      · exact ⟨hmemctx.mpr (Or.inr (Or.inr hq)), hgq q hq⟩
      · exact ⟨hmemctx.mpr (Or.inr (Or.inl ⟨c, hcmem, hq⟩)), (hcp q hq).1, (hcp q hq).2.1⟩
    rw [(hu.flags hq'.2.1 hq'.2.2).1, hrooteq]
    exact hok.roots q ((hmem q).mpr (Or.inl hq'.1))
  · intro q hqp
    by_cases hqf : q = f.p
    · rw [hqf]
      exact ⟨hu.next, hu.prev⟩
    · exact (hu.flags hqp hqf).2.2
  · have hmemroot : (plug (g :: gs) c).root ∈ ctxPtrs (g :: gs) := root_plug_mem (List.cons_ne_nil g gs) c
    rw [hrooteq] at hmemroot ⊢
    exact (hu.flags (hgq _ hmemroot).1 (hgq _ hmemroot).2).2.1
  · intro q hq
    have hnot := fun h₀ => hq ((hmem q).mpr h₀)
    refine hu.other q (fun heq => hnot (Or.inr heq)) (fun heq => hnot (Or.inl ?_)) (fun heq => hnot (Or.inl ?_))
      fun heq => hnot (Or.inl ?_)
    · exact hmemctx.mpr (Or.inl heq)
    · exact hmemctx.mpr (Or.inr (Or.inl ⟨c, hcmem, heq ▸ c.root_mem_ptrs⟩))
    · exact hmemctx.mpr (Or.inr (Or.inr (heq ▸ hgp)))

end

/-- `delete_borderNode_in_remove` on a leaf that is not the root. Where the root goes, it
must be the root of layer 0. -/
theorem LayerOk.deleteLeaf {h₁ : Heap V} (hok : LayerOk h (plug (f :: fs) (.leaf p es)))
    (he : Emptied h h₁ p) (hkeep : fs = [] → (f.kl ++ f.kr).length = 1 → (h.mem f.p).upperLayer = none) :
    ∃ change r h' t', delete_borderNode_in_remove h₁ p = some (change, r, h') ∧
      (change = .NotChange ∧ t'.root = (plug (f :: fs) (.leaf p es)).root ∨
        change = .NewRoot ∧ r = some t'.root ∧ fs = [] ∧ (f.kl ++ f.kr).length = 1) ∧
      LayerDrop h h' (plug (f :: fs) (.leaf p es)) t' (f :: fs) := by
  by_cases hkeys : 2 ≤ (f.kl ++ f.kr).length
  · obtain ⟨h', t', hdel, hroot, hdrop⟩ := hok.dropChild he hkeys
    exact ⟨_, _, h', t', hdel, Or.inl ⟨rfl, hroot⟩, hdrop⟩
  have hone : (f.kl ++ f.kr).length = 1 := by
    obtain ⟨a, b, ⟨plo, phi, -, -, hne, -, -⟩, -⟩ := wf_plug.mp hok.wf
    have := List.length_pos_iff.mpr hne
    omega
  cases fs with
  | nil =>
    obtain ⟨h', t', hdel, hdrop⟩ := hok.pullUpRoot he hone (hkeep rfl hone)
    exact ⟨_, _, h', t', hdel, Or.inr ⟨rfl, rfl, rfl, hone⟩, hdrop⟩
  | cons g gs =>
    obtain ⟨h', t', hdel, hroot, hdrop⟩ := hok.pullUp he hone
    exact ⟨_, _, h', t', hdel, Or.inl ⟨rfl, hroot⟩, hdrop⟩

/-- The leaf holds other entries; everything else about its node stays. -/
theorem LayerOk.replaceLeaf {es' : List (Slot V)} {a b : Nat} (hok : LayerOk h (plug fs (.leaf p es)))
    (hctx : WfCtx Slot.key_slice 15 fs a b 0 maxSlice) (hwf : (BTree.leaf p es').Wf Slot.key_slice 15 a b)
    (hfresh : h.fresh ≤ h'.fresh) (hsame : ∀ q ∈ (plug fs (.leaf p es)).ptrs, q ≠ p → h'.mem q = h.mem q)
    (hat : BorderAt (h'.mem p) (h.mem p).parent es') (hroot : (h'.mem p).is_root = (h.mem p).is_root)
    (hnext : (h'.mem p).next = (h.mem p).next) (hprev : (h'.mem p).prev = (h.mem p).prev) :
    LayerOk h' (plug fs (.leaf p es')) := by
  have hperm := ptrs_plug fs (.leaf p es)
  have hperm' := ptrs_plug fs (.leaf p es')
  rw [BTree.ptrs_leaf] at hperm hperm'
  obtain ⟨hfs, -, hd⟩ := List.nodup_append.mp (hperm.nodup_iff.mp hok.nodup)
  have hptrs : ∀ q, q ∈ (plug fs (.leaf p es')).ptrs ↔ q ∈ (plug fs (.leaf p es)).ptrs := by
    intro q
    rw [hperm.mem_iff, hperm'.mem_iff]
  have hctxmem : ∀ q ∈ ctxPtrs fs, q ∈ (plug fs (.leaf p es)).ptrs ∧ q ≠ p :=
    fun q hq => ⟨hperm.mem_iff.mpr (List.mem_append_left _ hq),
      fun heq => hd q hq p (List.mem_singleton_self _) heq⟩
  obtain ⟨hst, hleaf⟩ := stored_plug.mp hok.stored
  have hrooteq : (plug fs (.leaf p es')).root = (plug fs (.leaf p es)).root := root_plug_congr rfl
  have hleaves : (plug fs (.leaf p es')).leaves.map Prod.fst = (plug fs (.leaf p es)).leaves.map Prod.fst := by
    rw [leaves_plug, leaves_plug]
    simp
  have hflags : ∀ q ∈ (plug fs (.leaf p es)).ptrs, (h'.mem q).is_root = (h.mem q).is_root ∧
      (h'.mem q).prev = (h.mem q).prev ∧ (h'.mem q).next = (h.mem q).next := by
    intro q hq
    by_cases hqp : q = p
    · rw [hqp]
      exact ⟨hroot, hprev, hnext⟩
    · rw [hsame q hq hqp]
      exact ⟨rfl, rfl, rfl⟩
  constructor
  · exact wf_plug.mpr ⟨a, b, hctx, hwf⟩
  · refine stored_plug.mpr ⟨hst.frame hfs ?_, stored_leaf.mpr ((stored_leaf.mp hleaf).parent ▸ hat)⟩
    intro q hq
    rw [hsame q (hctxmem q hq).1 (hctxmem q hq).2]
    exact ⟨.refl _, rfl⟩
  · exact hperm'.nodup_iff.mpr (hperm.nodup_iff.mp hok.nodup)
  · intro q hq
    exact Nat.lt_of_lt_of_le (hok.lt q ((hptrs q).mp hq)) hfresh
  · intro q hq
    rw [(hflags q ((hptrs q).mp hq)).1, hrooteq]
    exact hok.roots q ((hptrs q).mp hq)
  · rw [hleaves]
    exact hok.linked.frame fun q hq =>
      (hflags q ((BTree.leaves_sublist_ptrs _).subset hq)).2

/-- A layer whose nodes did not change. -/
theorem LayerOk.frame {t : Layer V} (hok : LayerOk h t) (hfresh : h.fresh ≤ h'.fresh)
    (hsame : ∀ q ∈ t.ptrs, (h.mem q).Alike (h'.mem q) ∧ (h'.mem q).parent = (h.mem q).parent ∧
      (h'.mem q).is_root = (h.mem q).is_root ∧ (h'.mem q).prev = (h.mem q).prev ∧
      (h'.mem q).next = (h.mem q).next) : LayerOk h' t where
  wf := hok.wf
  stored := hok.stored.frame hok.nodup fun q hq => ⟨(hsame q hq).1, (hsame q hq).2.1⟩
  nodup := hok.nodup
  lt := fun q hq => Nat.lt_of_lt_of_le (hok.lt q hq) hfresh
  roots := by
    intro q hq
    rw [(hsame q hq).2.2.1]
    exact hok.roots q hq
  linked := hok.linked.frame fun q hq => (hsame q ((BTree.leaves_sublist_ptrs t).subset hq)).2.2.2

end

end Cassa.Masstree

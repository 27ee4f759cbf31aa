import Cassa.Masstree.Ascend

/-!
# The split of a border node

A full border node and a new key are sorted into the node and a new one behind it, and
the new node finds its place among the nodes above. The layers that the moved slots link
to are told of their new border node.
-/

namespace Cassa.Masstree

open Cassa.Lib.SearchTree

variable {V : Type} {h h' : Heap V}

/-- `setUpperLayer` on the layers that the slots of a list link to. -/
theorem mem_setUpperLayers (node : Ptr) {slots : Nat → Slot V} {es : List (Slot V)} {n : Nat}
    (hes : cells slots n = es) (hlive : ∀ s ∈ es, s.Live) (q : Ptr) :
    (setUpperLayers h node slots n).mem q =
      if some q ∈ es.map Slot.layer? then { h.mem q with upperLayer := some node } else h.mem q := by
  have hfold : setUpperLayers h node slots n =
      es.foldl (fun h s => h.modify? s.layer? ({ · with upperLayer := some node })) h := by
    rw [setUpperLayers, ← hes, cells, List.foldl_map]
    apply List.foldl_ext
    intro g i hi
    have hs : (slots i).Live := by
      rw [← hes] at hlive
      exact hlive _ (List.mem_map_of_mem hi)
    revert hs
    generalize slots i = s
    intro hs
    cases hs with
    | short v hlen =>
      simp only [Slot.layer?, Heap.modify?]
    | long v hne hsize hslices => rfl
    | layer q => rfl
  rw [hfold]
  clear hfold hes hlive
  induction es generalizing h with
  | nil => simp
  | cons s es ih =>
    rw [List.foldl_cons, ih, mem_modify?, List.map_cons]
    by_cases hs : s.layer? = some q
    · simp [hs]
    · have hs' : some q ≠ s.layer? := fun he => hs he.symm
      simp [hs, hs']

/-- A node whose first `k` slots are in use. -/
def Node.ofSorted (n : Node V) (slots : Nat → Slot V) (k : Nat) : Node V :=
  { n with slot := fun i => if i < k then slots i else .empty, permutation := List.range k }

theorem Node.entries_ofSorted (n : Node V) (slots : Nat → Slot V) (k : Nat) :
    (n.ofSorted slots k).entries = cells slots k :=
  cells_congr fun _ hi => if_pos hi

theorem Node.classified_ofSorted (n : Node V) {slots : Nat → Slot V} {k : Nat} (hk : k ≤ 15)
    (hlive : ∀ s ∈ cells slots k, s.Live) : (n.ofSorted slots k).Classified where
  nodup := List.nodup_range
  lt := fun i hi => Nat.lt_of_lt_of_le (List.mem_range.mp hi) hk
  live := by
    intro i hi
    have hi := List.mem_range.mp hi
    change (if i < k then slots i else .empty : Slot V).Live
    rw [if_pos hi]
    exact hlive _ (mem_cells.mpr ⟨i, hi, rfl⟩)
  free := by
    intro i _ hi
    have hi : ¬ i < k := fun hlt => hi (List.mem_range.mpr hlt)
    change ((if i < k then slots i else .empty : Slot V).key_len = 0 ∨ _) ∧
      (if i < k then slots i else .empty : Slot V).layer? = none
    rw [if_neg hi]
    exact ⟨Or.inl rfl, rfl⟩

theorem Node.slotsOk_ofSorted (n : Node V) {slots : Nat → Slot V} {k : Nat} (hk : k ≤ 15)
    (hlive : ∀ s ∈ cells slots k, s.Live) (hids : ((cells slots k).map Slot.id).Nodup) :
    (n.ofSorted slots k).SlotsOk := by
  refine (n.classified_ofSorted hk hlive).slotsOk ?_
  have : ((n.ofSorted slots k).permutation.map fun i => ((n.ofSorted slots k).slot i).id) =
      (cells slots k).map Slot.id := by
    rw [← n.entries_ofSorted slots k, entries, List.map_map]
    rfl
  rw [this]
  exact hids

theorem Node.borderAt_ofSorted {n : Node V} {slots : Nat → Slot V} {k : Nat} {es : List (Slot V)}
    (hborder : n.is_border = true) (halive : n.deleted = false) (hk : k ≤ 15) (hes : cells slots k = es)
    (hlive : ∀ s ∈ es, s.Live) (hids : (es.map Slot.id).Nodup) (next prev : Option Ptr) :
    BorderAt { n.ofSorted slots k with next := next, prev := prev } n.parent es := by
  subst hes
  have hok := n.slotsOk_ofSorted hk hlive hids
  exact ⟨hborder, halive, rfl, hok.congr rfl rfl, n.entries_ofSorted slots k⟩

/-- What the split of a full border node does to each node. -/
structure BorderSplit (h h' : Heap V) (p : Ptr) (esl esr : List (Slot V)) : Prop where
  fresh : h'.fresh = h.fresh + 1
  left : BorderAt (h'.mem p) (h.mem p).parent esl
  right : BorderAt (h'.mem h.fresh) none esr
  first : ∀ s ∈ esr.head?, ((h'.mem h.fresh).slot 0).key_slice = s.key_slice
  leftSame : (h'.mem p).is_root = (h.mem p).is_root ∧ (h'.mem p).upperLayer = (h.mem p).upperLayer ∧
    (h'.mem p).next = some h.fresh ∧ (h'.mem p).prev = (h.mem p).prev
  rightSame : (h'.mem h.fresh).is_root = (h.mem p).is_root ∧
    (h'.mem h.fresh).next = (h.mem p).next ∧ (h'.mem h.fresh).prev = some p
  other : ∀ q < h.fresh, q ≠ p → h'.mem q = { h.mem q with
    upperLayer := if some q ∈ esr.map Slot.layer? then some h.fresh
      else if some q ∈ esl.map Slot.layer? then some p else (h.mem q).upperLayer
    prev := if (h.mem p).next = some q then some h.fresh else (h.mem q).prev }

/-- The stores of `split_keys_among` after the split point is known. -/
def splitStores (h : Heap V) (p p1 : Ptr) (temp : Nat → Slot V) (k : Nat) : Heap V :=
  let left : Nat → Slot V := fun i => if i < k then temp i else .empty
  let right : Nat → Slot V := fun j => if j < 16 - k then temp (k + j) else .empty
  let h := h.set p { (h.mem p).sort with slot := left, permutation := List.range k }
  let h := setUpperLayers h p left k
  let h := h.modify p1 fun n => { n with slot := right, permutation := List.range (16 - k) }
  let h := setUpperLayers h p1 right (16 - k)
  let next := (h.mem p).next
  let h := h.modify p1 fun n => { n with next := next, prev := some p }
  let h := h.modify p fun n => { n with next := some p1 }
  h.modify? next fun n => { n with prev := some p1 }

theorem split_keys_amongBorder_eq {p p1 : Ptr} {key : Key} {value : V} {k : Nat}
    (hk : split_point key.getCurrentSlice.slice (create_slice_table (h.mem p).sort).1
      (create_slice_table (h.mem p).sort).2 = some k) (hpos : 1 ≤ k) :
    split_keys_amongBorder h p p1 key value =
      some (splitStores h p p1 (tempSlots (h.mem p).sort key value) k) := by
  obtain ⟨j, rfl⟩ := Nat.exists_eq_add_of_le' hpos
  unfold split_keys_amongBorder
  dsimp only
  rw [hk]
  rfl

/-- The stores that link a new node into the list behind `p`. -/
theorem mem_linkAfter {p p1 : Ptr} {next : Option Ptr} (hne : p ≠ p1) (hp : next ≠ some p)
    (hp1 : next ≠ some p1) :
    let h' := ((h.modify p1 fun n => { n with next := next, prev := some p }).modify p
      fun n => { n with next := some p1 }).modify? next fun n => { n with prev := some p1 }
    h'.mem p = { h.mem p with next := some p1 } ∧
      h'.mem p1 = { h.mem p1 with next := next, prev := some p } ∧
      ∀ q, q ≠ p → q ≠ p1 → h'.mem q =
        { h.mem q with prev := if next = some q then some p1 else (h.mem q).prev } := by
  intro h'
  refine ⟨?_, ?_, ?_⟩
  · rw [mem_modify?, if_neg hp, mem_modify, if_pos rfl, mem_modify, if_neg hne]
  · rw [mem_modify?, if_neg hp1, mem_modify, if_neg (Ne.symm hne), mem_modify, if_pos rfl]
  · intro q hqp hqp1
    rw [mem_modify?, mem_modify, if_neg hqp, mem_modify, if_neg hqp1]
    split_ifs <;> rfl

theorem splitStores_spec {p : Ptr} {temp : Nat → Slot V} {k : Nat} {esl esr : List (Slot V)}
    (hleft : cells temp k = esl) (hright : cells (fun j => temp (k + j)) (16 - k) = esr)
    (hlive : ∀ s ∈ esl ++ esr, s.Live) (hp : p < h.fresh)
    (hlinks : ∀ s ∈ esl ++ esr, ∀ q, s.layer? = some q → q < h.fresh ∧ q ≠ p)
    (hnext : ∀ q, (h.mem p).next = some q → q < h.fresh ∧ q ≠ p) (n : Node V) :
    let h' := splitStores (h.alloc n).2 p h.fresh temp k
    h'.fresh = h.fresh + 1 ∧
      h'.mem p = { (h.mem p).ofSorted temp k with next := some h.fresh } ∧
      h'.mem h.fresh = { n.ofSorted (fun j => temp (k + j)) (16 - k) with
        next := (h.mem p).next, prev := some p } ∧
      ∀ q < h.fresh, q ≠ p → h'.mem q = { h.mem q with
        upperLayer := if some q ∈ esr.map Slot.layer? then some h.fresh
          else if some q ∈ esl.map Slot.layer? then some p else (h.mem q).upperLayer
        prev := if (h.mem p).next = some q then some h.fresh else (h.mem q).prev } := by
  intro h'
  have hpne : p ≠ h.fresh := Nat.ne_of_lt hp
  have hleft' : cells (fun i => if i < k then temp i else .empty) k = esl := by
    rw [← hleft]
    exact cells_congr fun i hi => if_pos hi
  have hright' : cells (fun j => if j < 16 - k then temp (k + j) else .empty) (16 - k) = esr := by
    rw [← hright]
    exact cells_congr fun i hi => if_pos hi
  have hnot : ∀ es : List (Slot V), (∀ s ∈ es, s ∈ esl ++ esr) → some p ∉ es.map Slot.layer? ∧
      some h.fresh ∉ es.map Slot.layer? := by
    intro es hes
    constructor
    · intro hmem
      obtain ⟨s, hs, he⟩ := List.mem_map.mp hmem
      exact (hlinks s (hes s hs) p he).2 rfl
    · intro hmem
      obtain ⟨s, hs, he⟩ := List.mem_map.mp hmem
      exact Nat.ne_of_lt (hlinks s (hes s hs) _ he).1 rfl
  obtain ⟨hlp, hlf⟩ := hnot esl fun s hs => List.mem_append_left _ hs
  obtain ⟨hrp, hrf⟩ := hnot esr fun s hs => List.mem_append_right _ hs
  have hlivel : ∀ s ∈ esl, s.Live := fun s hs => hlive s (List.mem_append_left _ hs)
  have hliver : ∀ s ∈ esr, s.Live := fun s hs => hlive s (List.mem_append_right _ hs)
  let h₁ := (h.alloc n).2
  let h₂ := setUpperLayers (h₁.set p { (h₁.mem p).sort with
    slot := fun i => if i < k then temp i else .empty, permutation := List.range k }) p
    (fun i => if i < k then temp i else .empty) k
  let h₃ := setUpperLayers (h₂.modify h.fresh fun n => { n with
    slot := fun j => if j < 16 - k then temp (k + j) else .empty, permutation := List.range (16 - k) })
    h.fresh (fun j => if j < 16 - k then temp (k + j) else .empty) (16 - k)
  have hfresh : h₃.fresh = h.fresh + 1 := (fresh_setUpperLayers ..).trans (fresh_setUpperLayers ..)
  have hmem : ∀ q, h₃.mem q = _ := fun q => by
    rw [mem_setUpperLayers h.fresh hright' hliver, mem_modify, mem_setUpperLayers p hleft' hlivel, mem_set,
      mem_alloc, mem_alloc]
  have hp₃ : h₃.mem p = (h.mem p).ofSorted temp k := by
    rw [hmem, if_neg hrp, if_neg hpne, if_neg hlp, if_pos rfl, if_neg hpne]
    rfl
  have hf₃ : h₃.mem h.fresh = n.ofSorted (fun j => temp (k + j)) (16 - k) := by
    rw [hmem, if_neg hrf, if_pos rfl, if_neg hlf, if_neg (Ne.symm hpne), if_pos rfl]
    rfl
  have hq₃ : ∀ q < h.fresh, q ≠ p → h₃.mem q = { h.mem q with
      upperLayer := if some q ∈ esr.map Slot.layer? then some h.fresh
        else if some q ∈ esl.map Slot.layer? then some p else (h.mem q).upperLayer } := by
    intro q hq hqp
    rw [hmem, if_neg (Nat.ne_of_lt hq), if_neg hqp, if_neg (Nat.ne_of_lt hq)]
    split_ifs <;> rfl
  have hnext₃ : (h₃.mem p).next = (h.mem p).next := by
    rw [hp₃]
    rfl
  have hlink : h' = ((h₃.modify h.fresh fun n => { n with next := (h.mem p).next, prev := some p }).modify p
      fun n => { n with next := some h.fresh }).modify? (h.mem p).next
      fun n => { n with prev := some h.fresh } := by
    rw [← hnext₃]
    rfl
  obtain ⟨hlp', hlf', hlq'⟩ := mem_linkAfter (h := h₃) hpne (fun he => (hnext p he).2 rfl)
    (fun he => Nat.ne_of_lt (hnext h.fresh he).1 rfl)
  rw [← hlink] at hlp' hlf' hlq'
  refine ⟨?_, ?_, ?_, ?_⟩
  · rw [hlink, fresh_modify?]
    exact hfresh
  · rw [hlp', hp₃]
  · rw [hlf', hf₃]
  · intro q hq hqp
    rw [hlq' q hqp (Nat.ne_of_lt hq), hq₃ q hq hqp]

/-- `split_keys_among` on a full border node, with the new node allocated before. -/
theorem split_keys_amongBorder_spec {p : Ptr} {par : Option Ptr} {es : List (Slot V)} {key : Key} {value : V}
    (hn : BorderAt (h.mem p) par es) (hfull : (h.mem p).permutation.length = 15) (hsort : SortedSlots es)
    (hk : key.Wf) (hslot : newSlot key value key.getCurrentSlice.size (key.cursor + 1) = slotFor key value)
    (hid : ∀ e ∈ es, e.id ≠ (slotFor key value).id) (hp : p < h.fresh)
    (hlinks : ∀ s ∈ es, ∀ q, s.layer? = some q → q < h.fresh ∧ q ≠ p)
    (hnext : ∀ q, (h.mem p).next = some q → q < h.fresh ∧ q ≠ p) :
    ∃ h' esl esr, split_keys_amongBorder (h.alloc ((Node.newBorder : Node V).copyVersion (h.mem p))).2 p
        h.fresh key value = some h' ∧ esl ++ esr = insertSlot (slotFor key value) es ∧
      esl ≠ [] ∧ esr ≠ [] ∧ esl.length ≤ 15 ∧ esr.length ≤ 15 ∧
      (∀ a ∈ esl, ∀ b ∈ esr, a.key_slice < b.key_slice) ∧ BorderSplit h h' p esl esr := by
  obtain ⟨k, hpoint, hk1, hk15, hcut⟩ :=
    Node.split_point_entries hn.slots hfull (by rw [hn.entries]; exact hsort) (slotFor key value)
  rw [hn.entries] at hcut
  rw [slotFor_key_slice hk] at hpoint
  have hmem : (h.alloc ((Node.newBorder : Node V).copyVersion (h.mem p))).2.mem p = h.mem p := by
    rw [mem_alloc, if_neg (Nat.ne_of_lt hp)]
  have htemp : cells (tempSlots (h.mem p).sort key value) 16 = insertSlot (slotFor key value) es := by
    rw [← hn.entries, ← Node.cells_openGap_sort hfull, slotFor_key_slice hk]
    unfold tempSlots
    dsimp only
    rw [hslot]
  have hlen : (insertSlot (slotFor key value) es).length = 16 := by rw [← htemp, length_cells]
  have hperm := insertSlot_perm (slotFor key value) es
  have hsplit := List.take_append_drop k (insertSlot (slotFor key value) es)
  have hlive : ∀ s ∈ insertSlot (slotFor key value) es, s.Live := by
    intro s hs
    rcases List.mem_cons.mp (hperm.mem_iff.mp hs) with rfl | hs
    · exact slotFor_live hk value
    · exact hn.slots.live_entries s (hn.entries ▸ hs)
  have hids : ((insertSlot (slotFor key value) es).map Slot.id).Nodup := by
    refine (hperm.map _).nodup_iff.mpr (List.nodup_cons.mpr ⟨?_, ?_⟩)
    · intro hmem
      obtain ⟨e, he, heq⟩ := List.mem_map.mp hmem
      exact hid e he heq
    · have := hn.slots.ids
      rw [← hn.entries, Node.entries, List.map_map]
      exact this
  have hlinks' : ∀ s ∈ insertSlot (slotFor key value) es, ∀ q, s.layer? = some q → q < h.fresh ∧ q ≠ p := by
    intro s hs q hq
    rcases List.mem_cons.mp (hperm.mem_iff.mp hs) with rfl | hs
    · rw [slotFor_layer? hk] at hq
      cases hq
    · exact hlinks s hs q hq
  have hleft : cells (tempSlots (h.mem p).sort key value) k = (insertSlot (slotFor key value) es).take k := by
    rw [← htemp, ← cells_take _ (by omega : k ≤ 16)]
  have hright : cells (fun j => tempSlots (h.mem p).sort key value (k + j)) (16 - k) =
      (insertSlot (slotFor key value) es).drop k := by
    rw [← htemp, ← cells_drop _ (by omega : k ≤ 16)]
  rw [← hsplit] at hlive hlinks'
  obtain ⟨hfresh, hatp, hatf, hother⟩ := splitStores_spec hleft hright hlive hp hlinks' hnext
    ((Node.newBorder : Node V).copyVersion (h.mem p))
  have hidsl := hids.sublist ((List.take_sublist k _).map Slot.id)
  have hidsr := hids.sublist ((List.drop_sublist k _).map Slot.id)
  refine ⟨_, (insertSlot (slotFor key value) es).take k, (insertSlot (slotFor key value) es).drop k,
    split_keys_amongBorder_eq (by rw [hmem]; exact hpoint) hk1, hsplit, ?_, ?_, ?_, ?_, hcut, ?_⟩
  · exact List.ne_nil_of_length_pos (by rw [List.length_take]; omega)
  · exact List.ne_nil_of_length_pos (by rw [List.length_drop]; omega)
  · rw [List.length_take]
    omega
  · rw [List.length_drop]
    omega
  · rw [hmem]
    constructor
    · exact hfresh
    · rw [hatp]
      exact Node.borderAt_ofSorted hn.border hn.alive (by omega) hleft
        (fun s hs => hlive s (List.mem_append_left _ hs)) hidsl _ _
    · rw [hatf]
      exact Node.borderAt_ofSorted (n := (Node.newBorder : Node V).copyVersion (h.mem p)) hn.border hn.alive
        (by omega) hright
        (fun s hs => hlive s (List.mem_append_right _ hs)) hidsr _ _
    · intro s hs
      rw [hatf]
      have hzero : 0 < 16 - k := by omega
      rw [← hright, List.head?_eq_getElem?, getElem?_cells, if_pos hzero] at hs
      obtain rfl := Option.mem_some_iff.mp hs
      change (if 0 < 16 - k then _ else _ : Slot V).key_slice = _
      rw [if_pos hzero]
    · rw [hatp]
      exact ⟨rfl, rfl, rfl, rfl⟩
    · rw [hatf]
      exact ⟨rfl, rfl, rfl⟩
    · exact hother

/-- The list with the new node in it. -/
theorem BorderSplit.seg {p : Ptr} {esl esr : List (Slot V)} (hb : BorderSplit h h' p esl esr)
    {l r : List Ptr} (hs : Seg h none (l ++ p :: r) none) (hn : (l ++ p :: r).Nodup)
    (hlt : ∀ q ∈ l ++ p :: r, q < h.fresh) : Seg h' none (l ++ p :: h.fresh :: r) none := by
  obtain ⟨hl, hprev, hnext, hr⟩ := seg_append.mp hs
  obtain ⟨hln, hpr, hd⟩ := List.nodup_append.mp hn
  obtain ⟨hpnot, hrn⟩ := List.nodup_cons.mp hpr
  have hnext : (h.mem p).next = r.head? := by simpa using hnext
  have hsame : ∀ q ∈ l ++ p :: r, q ≠ p → r.head? ≠ some q →
      (h'.mem q).prev = (h.mem q).prev ∧ (h'.mem q).next = (h.mem q).next := by
    intro q hq hqp hhead
    rw [hb.other q (hlt q hq) hqp, hnext, if_neg hhead]
    exact ⟨rfl, rfl⟩
  refine seg_append.mpr ⟨hl.frame ?_, ?_, ?_, ?_, ?_, ?_⟩
  · intro q hq
    refine hsame q (by simp [hq]) (fun he => hd q hq p List.mem_cons_self he) ?_
    intro hhead
    exact hd q hq q (List.mem_cons_of_mem _ (List.mem_of_head? hhead)) rfl
  · rw [hb.leftSame.2.2.2]
    exact hprev
  · rw [hb.leftSame.2.2.1]
    rfl
  · exact hb.rightSame.2.2
  · rw [hb.rightSame.2.1, hnext]
    simp
  · refine hr.setPrev ?_ ?_
    · intro q hq
      have hhead : r.head? = some q := hq
      have hqr : q ∈ r := List.mem_of_head? hhead
      rw [hb.other q (hlt q (by simp [hqr])) (fun he => hpnot (he ▸ hqr)), hnext, if_pos hhead]
      exact ⟨rfl, rfl⟩
    · intro q hq
      have hqr : q ∈ r := List.mem_of_mem_tail hq
      refine hsame q (by simp [hqr]) (fun he => hpnot (he ▸ hqr)) ?_
      intro hhead
      cases r with
      | nil => cases hqr
      | cons a r =>
        obtain rfl : a = q := Option.some.inj hhead
        exact (List.nodup_cons.mp hrn).1 hq

/-- A node outside the layer: the roots of the layers below learn their border node. -/
def Node.setUpper (n : Node V) (q p p1 : Ptr) (esl esr : List (Slot V)) : Node V :=
  { n with upperLayer := if some q ∈ esr.map Slot.layer? then some p1
      else if some q ∈ esl.map Slot.layer? then some p else n.upperLayer }

/-- The layer after a split of the leaf `p`: two leaves in its place, and a new root `r` if
all nodes up to the old root were full. -/
structure LayerSplit (h h' : Heap V) (t t' : Layer V) (fs : List (Frame (Slot V))) (p : Ptr)
    (esl esr : List (Slot V)) (r : Option Ptr) : Prop where
  ok : LayerOk h' t'
  leaves : t'.leaves = leftLeaves fs ++ (p, esl) :: (h.fresh, esr) :: rightLeaves fs
  fresh : h.fresh < h'.fresh
  ptrs : ∀ q ∈ t'.ptrs, q ∈ t.ptrs ∨ h.fresh ≤ q
  root : r = none ∧ t'.root = t.root ∨ r = some t'.root ∧ h.fresh ≤ t'.root
  upper : (h'.mem t'.root).upperLayer = (h.mem t.root).upperLayer
  outside : ∀ q < h.fresh, q ∉ t.ptrs → h'.mem q =
    if (h.mem t.root).upperLayer = some q then
      ((h.mem q).setUpper q p h.fresh esl esr).relink t.root r
    else (h.mem q).setUpper q p h.fresh esl esr

section

variable {fs : List (Frame (Slot V))} {p : Ptr} {es esl esr : List (Slot V)} {a b : Nat}

/-- The nodes of the layer are not roots of other layers: their flags stay. -/
theorem BorderSplit.flags (hok : LayerOk h (plug fs (.leaf p es))) (hb : BorderSplit h h' p esl esr)
    (hlinks : ∀ s ∈ esl ++ esr, ∀ q, s.layer? = some q → q ∉ (plug fs (.leaf p es)).ptrs) :
    ∀ q ∈ (plug fs (.leaf p es)).ptrs, (h'.mem q).is_root = (h.mem q).is_root ∧
      (h'.mem q).upperLayer = (h.mem q).upperLayer := by
  intro q hq
  by_cases hqp : q = p
  · rw [hqp]
    exact ⟨hb.leftSame.1, hb.leftSame.2.1⟩
  · rw [hb.other q (hok.lt q hq) hqp]
    have hnot : ∀ es' : List (Slot V), (∀ s ∈ es', s ∈ esl ++ esr) → some q ∉ es'.map Slot.layer? := by
      intro es' hes hmem
      obtain ⟨s, hs, he⟩ := List.mem_map.mp hmem
      exact hlinks s (hes s hs) q he hq
    rw [if_neg (hnot esr fun s hs => List.mem_append_right _ hs),
      if_neg (hnot esl fun s hs => List.mem_append_left _ hs)]
    exact ⟨rfl, rfl⟩

theorem BorderSplit.cut (hok : LayerOk h (plug fs (.leaf p es))) (hb : BorderSplit h h' p esl esr)
    (hctx : WfCtx Slot.key_slice 15 fs a b 0 maxSlice)
    (hl : (BTree.leaf p esl).Wf Slot.key_slice 15 a (((h'.mem h.fresh).slot 0).key_slice))
    (hr : (BTree.leaf h.fresh esr).Wf Slot.key_slice 15 (((h'.mem h.fresh).slot 0).key_slice) b)
    (hlinks : ∀ s ∈ esl ++ esr, ∀ q, s.layer? = some q → q ∉ (plug fs (.leaf p es)).ptrs)
    (hupper : ∀ u, (h.mem (plug fs (.leaf p es)).root).upperLayer = some u → u < h.fresh ∧
      u ∉ (plug fs (.leaf p es)).ptrs ∧
      ((h.mem u).findNextLayerIndex (plug fs (.leaf p es)).root).isSome) :
    Cut h' fs (.leaf p esl) (.leaf h.fresh esr) (((h'.mem h.fresh).slot 0).key_slice) 0 maxSlice := by
  have hperm := ptrs_plug fs (.leaf p es)
  rw [BTree.ptrs_leaf] at hperm
  have hmem : ∀ q, q ∈ (plug fs (.leaf p es)).ptrs ↔ q ∈ ctxPtrs fs ∨ q = p := by
    intro q
    rw [hperm.mem_iff, List.mem_append, List.mem_singleton]
  obtain ⟨hfs, -, hd⟩ := List.nodup_append.mp (hperm.nodup_iff.mp hok.nodup)
  have hpfs : p ∉ ctxPtrs fs := fun hp => hd p hp p (List.mem_singleton_self _) rfl
  have hlt : ∀ q ∈ ctxPtrs fs ++ [p], q < h.fresh := fun q hq => hok.lt q (hperm.mem_iff.mpr hq)
  have hother : ∀ q ∈ ctxPtrs fs, h'.mem q = _ :=
    fun q hq => hb.other q (hlt q (by simp [hq])) fun he => hpfs (he ▸ hq)
  have hrooteq : (plug fs (.leaf p esl)).root = (plug fs (.leaf p es)).root := root_plug_congr rfl
  obtain ⟨hst, hleaf⟩ := stored_plug.mp hok.stored
  have hparent := (stored_leaf.mp hleaf).parent
  have hflags := hb.flags hok hlinks
  have hnewp : ∀ q ∈ ctxPtrs fs ++ [p], q ≠ h.fresh := fun q hq => Nat.ne_of_lt (hlt q hq)
  constructor
  · refine hst.frame hfs ?_
    intro q hq
    rw [hother q hq]
    exact ⟨⟨rfl, rfl, rfl, rfl, rfl, rfl, rfl⟩, rfl⟩
  · exact stored_leaf.mpr (hparent ▸ hb.left)
  · exact stored_leaf.mpr hb.right
  · exact ⟨a, b, hctx, hl, hr⟩
  · rw [BTree.ptrs_leaf, BTree.ptrs_leaf]
    refine List.nodup_append.mpr ⟨hperm.nodup_iff.mp hok.nodup, List.nodup_singleton _, ?_⟩
    rintro q hq _ hq' rfl
    exact hnewp q hq (List.mem_singleton.mp hq')
  · intro q hq
    rw [hb.fresh]
    rcases List.mem_append.mp hq with hq | hq
    · exact Nat.lt_succ_of_lt (hlt q hq)
    · rw [List.mem_singleton.mp hq]
      exact Nat.lt_succ_self _
  · intro q hq
    have hq' := hperm.mem_iff.mpr hq
    rw [(hflags q hq').1, hrooteq]
    exact hok.roots q hq'
  · intro q hq hroot
    obtain rfl := List.mem_singleton.mp hq
    refine ⟨rfl, ?_⟩
    rw [hb.rightSame.1, hok.roots p ((hmem p).mpr (Or.inr rfl))] at hroot
    by_contra hnil
    exact hpfs (hroot ▸ root_plug_mem hnil _)
  · intro u hu
    rw [hrooteq] at hu ⊢
    rw [(hflags _ (BTree.root_mem_ptrs _)).2] at hu
    obtain ⟨hult, hunot, hidx⟩ := hupper u hu
    have hup : u ≠ p := fun he => hunot ((hmem u).mpr (Or.inr he))
    refine ⟨by rw [hb.fresh]; exact Nat.lt_succ_of_lt hult, ?_, ?_⟩
    · intro hmem'
      rcases List.mem_append.mp hmem' with hmem' | hmem'
      · exact hunot (hperm.mem_iff.mpr hmem')
      · exact Nat.ne_of_lt hult (List.mem_singleton.mp hmem')
    · rw [hb.other u hult hup]
      exact hidx

/-- The pointers of the leaves of a layer. -/
theorem LayerOk.leafPtrs (hok : LayerOk h (plug fs (.leaf p es))) :
    Seg h none ((leftLeaves fs).map Prod.fst ++ p :: (rightLeaves fs).map Prod.fst) none ∧
      ((leftLeaves fs).map Prod.fst ++ p :: (rightLeaves fs).map Prod.fst).Nodup ∧
      ∀ q ∈ (leftLeaves fs).map Prod.fst ++ p :: (rightLeaves fs).map Prod.fst,
        q ∈ (plug fs (.leaf p es)).ptrs := by
  have hleaves : (plug fs (.leaf p es)).leaves.map Prod.fst =
      (leftLeaves fs).map Prod.fst ++ p :: (rightLeaves fs).map Prod.fst := by
    rw [leaves_plug]
    simp
  have hsub := BTree.leaves_sublist_ptrs (plug fs (.leaf p es))
  rw [hleaves] at hsub
  exact ⟨hleaves ▸ hok.linked, hok.nodup.sublist hsub, hsub.subset⟩

theorem perm_leaf (fs : List (Frame (Slot V))) (p : Ptr) (es : List (Slot V)) :
    (plug fs (.leaf p es)).ptrs.Perm (ctxPtrs fs ++ [p]) := by
  have hperm := ptrs_plug fs (.leaf p es)
  rwa [BTree.ptrs_leaf] at hperm

theorem LayerOk.lt_leaf (hok : LayerOk h (plug fs (.leaf p es))) : p < h.fresh :=
  hok.lt p ((perm_leaf fs p es).mem_iff.mpr (by simp))

/-- The next border node is one of the layer, and another one. -/
theorem LayerOk.next_mem (hok : LayerOk h (plug fs (.leaf p es))) {q : Ptr} (hq : (h.mem p).next = some q) :
    q ∈ (plug fs (.leaf p es)).ptrs ∧ q ≠ p := by
  obtain ⟨hseg, hsegn, hsegmem⟩ := hok.leafPtrs
  obtain ⟨-, -, hnext, -⟩ := seg_append.mp hseg
  rw [hq] at hnext
  have hright : q ∈ (rightLeaves fs).map Prod.fst := List.mem_of_head? (by simpa using hnext.symm)
  refine ⟨hsegmem q (by simp [hright]), ?_⟩
  rintro rfl
  exact (List.nodup_cons.mp (List.nodup_append.mp hsegn).2.1).1 hright

/-- The two halves of a border node, parted at the first slice on the right. -/
theorem wf_leaf_halves {s₀ : Slot V} {esr' : List (Slot V)} (p1 : Ptr) (hsort : SortedSlots (esl ++ s₀ :: esr'))
    (hl : esl ≠ []) (hll : esl.length ≤ 15) (hrl : (s₀ :: esr').length ≤ 15)
    (hcut : ∀ e ∈ esl, e.key_slice < s₀.key_slice)
    (hrange : ∀ s ∈ esl ++ s₀ :: esr', a ≤ s.key_slice ∧ s.key_slice < b) :
    (BTree.leaf p esl).Wf Slot.key_slice 15 a s₀.key_slice ∧
      (BTree.leaf p1 (s₀ :: esr')).Wf Slot.key_slice 15 s₀.key_slice b := by
  obtain ⟨hsl, hsr, -⟩ := List.pairwise_append.mp hsort
  constructor
  · refine BTree.wf_leaf.mpr ⟨hl, hll, hsl, fun e he => ?_⟩
    exact ⟨(hrange e (List.mem_append_left _ he)).1, hcut e he⟩
  · refine BTree.wf_leaf.mpr ⟨List.cons_ne_nil _ _, hrl, hsr, fun e he => ?_⟩
    refine ⟨?_, (hrange e (List.mem_append_right _ he)).2⟩
    rcases List.mem_cons.mp he with rfl | he
    · exact Nat.le_refl _
    · exact (List.pairwise_cons.mp hsr).1 e he

/-- There is fuel for the way up. -/
theorem LayerOk.length_frames (hok : LayerOk h (plug fs (.leaf p es))) : fs.length < h.fresh := by
  have hlen := (perm_leaf fs p es).length_eq
  have hptrs := hok.length_ptrs
  have hctx := length_le_ctxPtrs fs
  rw [List.length_append, List.length_singleton] at hlen
  omega

section

variable {h₁ : Heap V} {t' : Layer V} {r : Option Ptr} (hok : LayerOk h (plug fs (.leaf p es)))
  (hb : BorderSplit h h₁ p esl esr) (hg : Grown h₁ h' fs (.leaf p esl) (.leaf h.fresh esr) r t' 0 maxSlice)

include hok hb in
theorem BorderSplit.below {q : Ptr} (hq : q ∈ (plug fs (.leaf p es)).ptrs) : q < h₁.fresh := by
  rw [hb.fresh]
  exact Nat.lt_succ_of_lt (hok.lt q hq)

include hb hg

/-- The nodes of the layer are the old ones and new ones. -/
theorem BorderSplit.mem_grown {q : Ptr} (hq : q ∈ t'.ptrs) :
    q ∈ (plug fs (.leaf p es)).ptrs ∨ h.fresh ≤ q ∧ q < h'.fresh := by
  obtain ⟨new, hp, -, hnew⟩ := hg.perm
  have hle : h.fresh + 1 ≤ h'.fresh := hb.fresh.symm.le.trans hg.fresh
  rcases List.mem_append.mp (hp.mem_iff.mp hq) with hq | hq
  · rcases List.mem_append.mp hq with hq | hq
    · exact Or.inl ((perm_leaf fs p es).mem_iff.mpr hq)
    · obtain rfl := List.mem_singleton.mp hq
      exact Or.inr ⟨Nat.le_refl _, hle⟩
  · obtain ⟨hge, hlt⟩ := hnew q hq
    rw [hb.fresh] at hge
    exact Or.inr ⟨Nat.le_of_succ_le hge, hlt⟩

include hok

/-- The way up does not touch the list. -/
theorem BorderSplit.linked_grown : Seg h' none (t'.leaves.map Prod.fst) none := by
  obtain ⟨hseg, hsegn, hsegmem⟩ := hok.leafPtrs
  have hseg' := hb.seg hseg hsegn fun q hq => hok.lt q (hsegmem q hq)
  have hleaves : t'.leaves.map Prod.fst = (leftLeaves fs).map Prod.fst ++
      p :: h.fresh :: (rightLeaves fs).map Prod.fst := by
    rw [hg.leaves]
    simp
  rw [hleaves]
  refine hseg'.frame ?_
  intro q hq
  have hq' : q < h₁.fresh := by
    simp only [List.mem_append, List.mem_cons] at hq
    rcases hq with hq | rfl | rfl | hq
    · exact hb.below hok (hsegmem q (List.mem_append_left _ hq))
    · exact hb.below hok (hsegmem q (by simp))
    · rw [hb.fresh]
      exact Nat.lt_succ_self _
    · exact hb.below hok (hsegmem q (List.mem_append_right _ (List.mem_cons_of_mem _ hq)))
  exact ⟨(hg.links q hq').2, (hg.links q hq').1⟩

theorem BorderSplit.layerOk (hnodup : t'.ptrs.Nodup) : LayerOk h' t' where
  wf := hg.wf
  stored := hg.stored
  nodup := hnodup
  lt := by
    intro q hq
    rcases hb.mem_grown hg hq with hq | hq
    · exact Nat.lt_of_lt_of_le (hb.below hok hq) hg.fresh
    · exact hq.2
  roots := hg.roots
  linked := hb.linked_grown hok hg

/-- The split of a border node and the way up, as one change of the layer. -/
theorem BorderSplit.layerSplit (hnodup : t'.ptrs.Nodup)
    (hlinks : ∀ s ∈ esl ++ esr, ∀ q, s.layer? = some q → q ∉ (plug fs (.leaf p es)).ptrs) :
    LayerSplit h h' (plug fs (.leaf p es)) t' fs p esl esr r := by
  have hrooteq : (plug fs (.leaf p esl)).root = (plug fs (.leaf p es)).root := root_plug_congr rfl
  have hflags := hb.flags hok hlinks _ (plug fs (.leaf p es)).root_mem_ptrs
  have hfresh := hb.fresh
  refine ⟨hb.layerOk hok hg hnodup, ?_, ?_, ?_, ?_, ?_, ?_⟩
  · rw [hg.leaves, BTree.leaves_leaf, BTree.leaves_leaf]
    simp
  · exact Nat.lt_of_lt_of_le (by omega) hg.fresh
  · intro q hq
    exact (hb.mem_grown hg hq).imp_right And.left
  · rw [← hrooteq]
    refine hg.root.imp_right fun hr => ⟨hr.1, ?_⟩
    have hge := hr.2
    rw [hfresh] at hge
    exact Nat.le_of_succ_le hge
  · rw [hg.upper, hrooteq]
    exact hflags.2
  · intro q hq hnot
    have hqp : q ≠ p := fun he => hnot ((perm_leaf fs p es).mem_iff.mpr (by simp [he]))
    have hnot' : q ∉ ctxPtrs fs ++ (BTree.leaf p esl).ptrs ++ (BTree.leaf h.fresh esr).ptrs := by
      intro hmem
      rcases List.mem_append.mp hmem with hmem | hmem
      · exact hnot ((perm_leaf fs p es).mem_iff.mpr hmem)
      · exact Nat.ne_of_lt hq (List.mem_singleton.mp hmem)
    have hqnext : (h.mem p).next ≠ some q := fun he => hnot (hok.next_mem he).1
    have hat : h₁.mem q = (h.mem q).setUpper q p h.fresh esl esr := by
      rw [hb.other q hq hqp, if_neg hqnext]
      rfl
    rw [hg.outside q (by omega) hnot', hrooteq, hflags.2, hat]

end

theorem LayerOk.split {key : Key} {value : V} (hok : LayerOk h (plug fs (.leaf p es)))
    (hctx : WfCtx Slot.key_slice 15 fs a b 0 maxSlice) (hwf : (BTree.leaf p es).Wf Slot.key_slice 15 a b)
    (hk : key.Wf) (ha : a ≤ key.getCurrentSlice.slice) (hb : key.getCurrentSlice.slice < b) (hfull : (h.mem p).permutation.length = 15)
    (hslot : newSlot key value key.getCurrentSlice.size (key.cursor + 1) = slotFor key value)
    (hid : ∀ e ∈ es, e.id ≠ (slotFor key value).id)
    (hlinks : ∀ s ∈ es, ∀ q, s.layer? = some q → q < h.fresh ∧ q ∉ (plug fs (.leaf p es)).ptrs)
    (hupper : ∀ u, (h.mem (plug fs (.leaf p es)).root).upperLayer = some u → u < h.fresh ∧
      u ∉ (plug fs (.leaf p es)).ptrs ∧
      ((h.mem u).findNextLayerIndex (plug fs (.leaf p es)).root).isSome) :
    ∃ r h' t' esl esr, split h p key value = some (r, h') ∧
      esl ++ esr = insertSlot (slotFor key value) es ∧
      LayerSplit h h' (plug fs (.leaf p es)) t' fs p esl esr r := by
  have hpmem : p ∈ (plug fs (.leaf p es)).ptrs := (perm_leaf fs p es).mem_iff.mpr (by simp)
  have hn : BorderAt (h.mem p) (parent fs) es := stored_leaf.mp (stored_plug.mp hok.stored).2
  obtain ⟨-, -, hsort, hrange⟩ := BTree.wf_leaf.mp hwf
  obtain ⟨h₁, esl, esr, hkeys, hes, hl, hr, hll, hrl, hcut, hbs⟩ := split_keys_amongBorder_spec hn hfull
    hsort hk hslot hid hok.lt_leaf
    (fun s hs q hq => ⟨(hlinks s hs q hq).1, fun he => (hlinks s hs q hq).2 (he ▸ hpmem)⟩)
    fun q hq => ⟨hok.lt q (hok.next_mem hq).1, (hok.next_mem hq).2⟩
  have hmem : ∀ s ∈ esl ++ esr, s = slotFor key value ∨ s ∈ es := by
    intro s hs
    rw [hes] at hs
    exact List.mem_cons.mp ((insertSlot_perm _ es).mem_iff.mp hs)
  have hrange' : ∀ s ∈ esl ++ esr, a ≤ s.key_slice ∧ s.key_slice < b := by
    intro s hs
    rcases hmem s hs with rfl | hs
    · rw [slotFor_key_slice hk]
      exact ⟨ha, hb⟩
    · exact hrange s hs
  have hlinks' : ∀ s ∈ esl ++ esr, ∀ q, s.layer? = some q → q ∉ (plug fs (.leaf p es)).ptrs := by
    intro s hs q hq
    rcases hmem s hs with rfl | hs
    · rw [slotFor_layer? hk] at hq
      cases hq
    · exact (hlinks s hs q hq).2
  obtain ⟨s₀, esr', rfl⟩ : ∃ s₀ esr', esr = s₀ :: esr' := List.exists_cons_of_ne_nil hr
  have hup : ((h₁.mem h.fresh).slot 0).key_slice = s₀.key_slice := hbs.first s₀ rfl
  obtain ⟨hcutl, hcutr⟩ := wf_leaf_halves (p := p) h.fresh (hes ▸ insertSlot_sorted hsort) hl hll hrl
    (fun e he => hcut e he s₀ List.mem_cons_self) hrange'
  rw [← hup] at hcutl hcutr
  have hcut' := hbs.cut hok hctx hcutl hcutr hlinks' hupper
  have hfuel : fs.length < h₁.fresh + 1 := by
    have hframes := hok.length_frames
    have hfresh := hbs.fresh
    omega
  obtain ⟨r, h', t', hasc, hg⟩ := ascend_spec none hcut' hfuel rfl
  refine ⟨r, h', t', esl, s₀ :: esr', ?_, hes, hbs.layerSplit hok hg (hg.nodup hcut') hlinks'⟩
  rw [Masstree.split]
  change (split_keys_amongBorder (h.alloc _).2 p h.fresh key value).bind _ = _
  rw [hkeys]
  exact hasc

end

end Cassa.Masstree

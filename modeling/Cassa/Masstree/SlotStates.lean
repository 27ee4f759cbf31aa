import Cassa.Masstree.Reachable

/-!
# The states of a slot

One byte of a slot, `key_len`, says whether it is free, holds a key, lost its key or links to a
layer; the permutation lists the slots in use. The two agree in every tree that calls on keys of
any length reach, also after a split has stored a wrong slice or a layer has lost its upper layer.
-/

set_option linter.dupNamespace false

namespace Cassa.Masstree

open Cassa.Lib.Runs

variable {V : Type} {h h' : Heap V} {e e' : Option Ptr}

/-- The pointers that operations follow, and the slices in the slots. -/
structure Node.Fits (n : Node V) (fresh : Nat) : Prop where
  child : ∀ i q, n.child i = some q → q < fresh
  parent : ∀ q, n.parent = some q → q < fresh
  link : ∀ i q, (n.slot i).layer? = some q → q < fresh
  slice : ∀ i, (n.slot i).key_slice < 2 ^ 64

/-- Every border node but `e` has its slots in order. A node that is marked as deleted is out of the
tree, and the root of a layer that has collapsed loses the suffix of its last key. -/
structure Slotted (e : Option Ptr) (h : Heap V) : Prop where
  fits : ∀ p, (h.mem p).Fits h.fresh
  border : ∀ p < h.fresh, e ≠ some p → (h.mem p).is_border = true → (h.mem p).deleted = false →
    (h.mem p).Classified

theorem Slotted.classified {h : Heap V} {p : Ptr} (hs : Slotted none h) (hp : p < h.fresh)
    (hborder : (h.mem p).is_border = true) (halive : (h.mem p).deleted = false) : (h.mem p).Classified :=
  hs.border p hp (Option.some_ne_none p).symm hborder halive

theorem Node.Fits.mono {n : Node V} {a b : Nat} (hn : n.Fits a) (hle : a ≤ b) : n.Fits b where
  child := fun i q hq => Nat.lt_of_lt_of_le (hn.child i q hq) hle
  parent := fun q hq => Nat.lt_of_lt_of_le (hn.parent q hq) hle
  link := fun i q hq => Nat.lt_of_lt_of_le (hn.link i q hq) hle
  slice := hn.slice

theorem fits_newBorder (fresh : Nat) : (Node.newBorder : Node V).Fits fresh where
  child := nofun
  parent := nofun
  link := nofun
  slice := by
    intro i
    exact Nat.two_pow_pos 64

theorem Node.Fits.setSlot {n : Node V} {fresh : Nat} (hn : n.Fits fresh) {i : Nat} {s : Slot V}
    (hlink : ∀ q, s.layer? = some q → q < fresh) (hslice : s.key_slice < 2 ^ 64) : (n.setSlot i s).Fits fresh where
  child := hn.child
  parent := hn.parent
  link := by
    intro j q hq
    by_cases hj : j = i
    · rw [hj, Node.setSlot_slot_self] at hq
      exact hlink q hq
    · rw [Node.setSlot_slot_of_ne _ hj] at hq
      exact hn.link j q hq
  slice := by
    intro j
    by_cases hj : j = i
    · rw [hj, Node.setSlot_slot_self]
      exact hslice
    · rw [Node.setSlot_slot_of_ne _ hj]
      exact hn.slice j

theorem Node.Classified.congr {n m : Node V} (hn : n.Classified) (hslot : m.slot = n.slot)
    (hperm : m.permutation = n.permutation) : m.Classified := by
  refine ⟨hperm ▸ hn.nodup, ?_, ?_, ?_⟩
  · rw [hperm]
    exact hn.lt
  · rw [hperm, hslot]
    exact hn.live
  · rw [hperm, hslot]
    exact hn.free

namespace Slotted

theorem set (hs : Slotted e h) {p : Ptr} {n : Node V} (hfit : n.Fits h.fresh)
    (hother : ∀ q, q ≠ p → e' ≠ some q → e ≠ some q)
    (hn : p < h.fresh → e' ≠ some p → n.is_border = true → n.deleted = false → n.Classified) :
    Slotted e' (h.set p n) where
  fits := by
    intro q
    rw [mem_set]
    split
    · exact hfit
    · exact hs.fits q
  border := by
    intro q hq he
    rw [mem_set]
    by_cases hqp : q = p
    · subst hqp
      rw [if_pos rfl]
      exact hn hq he
    · rw [if_neg hqp]
      exact hs.border q hq (hother q hqp he)

theorem alloc (hs : Slotted e h) {n : Node V} (hfit : n.Fits (h.fresh + 1))
    (hother : ∀ q, q ≠ h.fresh → e' ≠ some q → e ≠ some q)
    (hn : e' ≠ some h.fresh → n.is_border = true → n.deleted = false → n.Classified) :
    Slotted e' (h.alloc n).2 where
  fits := by
    intro q
    rw [mem_alloc]
    split
    · exact hfit
    · exact (hs.fits q).mono (Nat.le_succ _)
  border := by
    intro q hq he
    rw [mem_alloc]
    by_cases hqp : q = h.fresh
    · rw [if_pos hqp]
      exact hn (hqp ▸ he)
    · rw [if_neg hqp]
      have hlt : q < h.fresh := Nat.lt_of_le_of_ne (Nat.le_of_lt_succ hq) hqp
      exact hs.border q hlt (hother q hqp he)

/-- A store that leaves the slots alone. -/
theorem keep (hs : Slotted e h) {p : Ptr} {f : Node V → Node V} (hslot : (f (h.mem p)).slot = (h.mem p).slot)
    (hperm : (f (h.mem p)).permutation = (h.mem p).permutation)
    (hborder : (f (h.mem p)).is_border = (h.mem p).is_border)
    (halive : (f (h.mem p)).deleted = false → (h.mem p).deleted = false)
    (hchild : ∀ i q, (f (h.mem p)).child i = some q → q < h.fresh)
    (hparent : ∀ q, (f (h.mem p)).parent = some q → q < h.fresh) : Slotted e (h.modify p f) := by
  have hfit := hs.fits p
  refine hs.set ⟨hchild, hparent, ?_, ?_⟩ (fun _ _ he => he) ?_
  · rw [hslot]
    exact hfit.link
  · rw [hslot]
    exact hfit.slice
  · intro hp he hb hd
    exact (hs.border p hp he (hborder ▸ hb) (halive hd)).congr hslot hperm

/-- A store that leaves the pointers alone, too. -/
theorem keepAll (hs : Slotted e h) {p : Ptr} {f : Node V → Node V} (hslot : (f (h.mem p)).slot = (h.mem p).slot)
    (hperm : (f (h.mem p)).permutation = (h.mem p).permutation)
    (hborder : (f (h.mem p)).is_border = (h.mem p).is_border)
    (halive : (f (h.mem p)).deleted = false → (h.mem p).deleted = false)
    (hchild : (f (h.mem p)).child = (h.mem p).child)
    (hparent : (f (h.mem p)).parent = (h.mem p).parent) : Slotted e (h.modify p f) := by
  refine hs.keep hslot hperm hborder halive ?_ ?_
  · rw [hchild]
    exact (hs.fits p).child
  · rw [hparent]
    exact (hs.fits p).parent

theorem keepAll? (hs : Slotted e h) {p : Option Ptr} {f : Node V → Node V}
    (hf : ∀ n : Node V, (f n).slot = n.slot ∧ (f n).permutation = n.permutation ∧ (f n).is_border = n.is_border ∧
      (f n).deleted = n.deleted ∧ (f n).child = n.child ∧ (f n).parent = n.parent) :
    Slotted e (h.modify? p f) := by
  cases p with
  | none => exact hs
  | some p =>
    obtain ⟨hslot, hperm, hborder, halive, hchild, hparent⟩ := hf (h.mem p)
    exact hs.keepAll hslot hperm hborder (fun hd => halive ▸ hd) hchild hparent

theorem setParent (hs : Slotted e h) {p : Option Ptr} {q : Ptr} (hq : q < h.fresh) :
    Slotted e (h.modify? p ({ · with parent := some q })) := by
  cases p with
  | none => exact hs
  | some p =>
    change Slotted e (h.modify p ({ · with parent := some q }))
    refine hs.keep rfl rfl rfl id (hs.fits p).child ?_
    intro r hr
    exact Option.some.inj hr ▸ hq

/-- A slot that is stored over one in use. -/
theorem setSlot (hs : Slotted e h) {p : Ptr} {i : Nat} {s : Slot V}
    (hlive : (h.mem p).Classified → i ∈ (h.mem p).permutation ∧ s.Live)
    (hlink : ∀ q, s.layer? = some q → q < h.fresh) (hslice : s.key_slice < 2 ^ 64) :
    Slotted e (h.set p ((h.mem p).setSlot i s)) := by
  refine hs.set ((hs.fits p).setSlot hlink hslice) (fun _ _ he => he) ?_
  intro hp he hb hd
  have hn := hs.border p hp he hb hd
  obtain ⟨hi, hs⟩ := hlive hn
  exact hn.replaceSlot hi hs

/-- A loop of stores. -/
theorem foldl {f : Heap V → Nat → Heap V} (hf : ∀ h i, (f h i).fresh = h.fresh)
    {a : Nat} (hstep : ∀ h i, h.fresh = a → Slotted e h → Slotted e (f h i)) (l : List Nat) :
    ∀ {h : Heap V}, h.fresh = a → Slotted e h → Slotted e (l.foldl f h) := by
  induction l with
  | nil => exact fun _ hs => hs
  | cons i l ih =>
    intro h ha hs
    exact ih ((hf h i).trans ha) (hstep h i ha hs)

theorem setParents (hs : Slotted e h) {parent : Ptr} (hp : parent < h.fresh) (children : Nat → Option Ptr)
    (n : Nat) : Slotted e (setParents h parent children n) :=
  foldl (fun h _ => fresh_modify? h _ _) (fun _ _ ha hs => hs.setParent (ha ▸ hp)) _ rfl hs

theorem setUpperLayers (hs : Slotted e h) (node : Ptr) (slots : Nat → Slot V) (n : Nat) :
    Slotted e (setUpperLayers h node slots n) := by
  refine foldl (a := h.fresh) ?_ ?_ _ rfl hs
  · intro h i
    split <;> rfl
  · intro h i _ hs
    split
    · exact hs.keepAll rfl rfl rfl id rfl rfl
    · exact hs

end Slotted

/-- The 16 slots of a full node and a new key. -/
theorem tempSlots_cases (n : Node V) (key : Key) (value : V) {j : Nat} (hj : j < 16) :
    (∃ i < 15, tempSlots n key value j = n.slot i) ∨
      tempSlots n key value j = newSlot key value key.getCurrentSlice.size (key.cursor + 1) := by
  have hle := (List.takeWhile_sublist (fun i => decide ((n.slot i).key_slice < key.getCurrentSlice.slice))
    (l := List.range 15)).length_le
  rw [List.length_range] at hle
  simp only [tempSlots, openGap]
  split
  · exact Or.inl ⟨j, by omega, rfl⟩
  split
  · exact Or.inr rfl
  · exact Or.inl ⟨j - 1, by omega, rfl⟩

theorem newSlot_slice {key : Key} (hk : key.Wf) (value : V) {longSlice start : Nat} (hlt : longSlice < 2 ^ 64) :
    (newSlot key value longSlice start).key_slice < 2 ^ 64 := by
  cases hn : key.hasNext with
  | true =>
    rw [newSlot_of_hasNext value hn]
    exact hlt
  | false =>
    rw [newSlot_of_not_hasNext hk value hn]
    exact Key.slice_lt hk

theorem newSlot_layer? {key : Key} (hk : key.Wf) (value : V) (longSlice start : Nat) :
    (newSlot key value longSlice start).layer? = none := by
  cases hn : key.hasNext with
  | true =>
    rw [newSlot_of_hasNext value hn]
    rfl
  | false =>
    rw [newSlot_of_not_hasNext hk value hn]
    rfl

theorem size_lt {key : Key} (hk : key.Wf) : key.getCurrentSlice.size < 2 ^ 64 := by
  cases hn : key.hasNext with
  | true => simp [Key.getCurrentSlice, Key.getCurrentSliceSize, hn]
  | false =>
    rw [Key.size_eq hn]
    have := hk.size
    omega

/-- The cut is inside the 16 entries. -/
theorem split_point_le {n : Node V} {x k : Nat}
    (hk : split_point x (create_slice_table n).1 (create_slice_table n).2 = some k) : k ≤ 15 := by
  rw [create_slice_table_eq] at hk
  have hindex : ∀ e ∈ sliceTable (fun i => (n.slot i).key_slice) 15, e.2 < 15 :=
    fun e he => (mem_sliceTable.mp he).1
  unfold split_point at hk
  split at hk
  swap
  · cases hk
  split at hk
  · cases hk
    decide
  split at hk
  · obtain ⟨e, he, rfl⟩ := Option.map_eq_some_iff.mp hk
    exact hindex e (List.mem_of_getElem? he)
  split at hk
  · split at hk
    · obtain ⟨e, he, rfl⟩ := Option.map_eq_some_iff.mp hk
      exact Nat.le_of_lt (hindex e (List.mem_of_find?_eq_some he))
    · obtain ⟨e, he, rfl⟩ := Option.map_eq_some_iff.mp hk
      exact hindex e (List.mem_of_find?_eq_some he)
  split at hk
  · obtain ⟨e, he, rfl⟩ := Option.map_eq_some_iff.mp hk
    exact Nat.le_of_lt (hindex e (List.mem_of_find?_eq_some he))
  · cases hk
    decide

/-- A half of the split. -/
theorem Node.Fits.half {n : Node V} {fresh : Nat} (hn : n.Fits fresh) {slots : Nat → Slot V} {k : Nat}
    (hlink : ∀ i < k, ∀ q, (slots i).layer? = some q → q < fresh) (hslice : ∀ i < k, (slots i).key_slice < 2 ^ 64) :
    (n.ofSorted slots k).Fits fresh where
  child := hn.child
  parent := hn.parent
  link := by
    intro i q hq
    change (if i < k then slots i else .empty : Slot V).layer? = some q at hq
    split at hq
    · exact hlink i ‹_› q hq
    · cases hq
  slice := by
    intro i
    change (if i < k then slots i else .empty : Slot V).key_slice < 2 ^ 64
    split
    · exact hslice i ‹_›
    · exact Nat.two_pow_pos 64

/-- A cut at 0 does not return. -/
theorem split_keys_amongBorder_cases {node node1 : Ptr} {key : Key} {value : V}
    (hres : split_keys_amongBorder h node node1 key value = some h') :
    ∃ k, 1 ≤ k ∧ k ≤ 15 ∧ h' = splitStores h node node1 (tempSlots (h.mem node).sort key value) k := by
  have hpoint : ∃ k, split_point key.getCurrentSlice.slice (create_slice_table (h.mem node).sort).1
      (create_slice_table (h.mem node).sort).2 = some k ∧ 1 ≤ k := by
    unfold split_keys_amongBorder at hres
    dsimp only at hres
    split at hres
    · cases hres
    · cases hres
    · rename_i k hne hpoint
      exact ⟨k, hpoint, Nat.one_le_iff_ne_zero.mpr hne⟩
  obtain ⟨k, hpoint, hpos⟩ := hpoint
  rw [split_keys_amongBorder_eq hpoint hpos, Option.some_inj] at hres
  exact ⟨k, hpos, split_point_le hpoint, hres.symm⟩

theorem Node.Fits.sort {n : Node V} {fresh : Nat} (hn : n.Fits fresh) : n.sort.Fits fresh where
  child := hn.child
  parent := hn.parent
  link := by
    intro i q hq
    change (if i < 15 then n.slot (n.permutation.getD i 0) else n.slot i : Slot V).layer? = some q at hq
    split at hq
    · exact hn.link _ q hq
    · exact hn.link _ q hq
  slice := by
    intro i
    change (if i < 15 then n.slot (n.permutation.getD i 0) else n.slot i : Slot V).key_slice < 2 ^ 64
    split
    · exact hn.slice _
    · exact hn.slice _

/-- The stores of a split; the new node is not in order before. -/
theorem slotted_splitStores {node node1 : Ptr} {temp : Nat → Slot V} {k : Nat} (hs : Slotted (some node1) h)
    (hpos : 1 ≤ k) (hle : k ≤ 15) (hlive : ∀ j < 16, (temp j).Live) (hslice : ∀ j < 16, (temp j).key_slice < 2 ^ 64)
    (hlink : ∀ j < 16, ∀ q, (temp j).layer? = some q → q < h.fresh) :
    Slotted none (splitStores h node node1 temp k) := by
  have hleft : (h.mem node).sort.ofSorted temp k |>.Fits h.fresh :=
    (hs.fits node).sort.half (fun i hi => hlink i (by omega)) (fun i hi => hslice i (by omega))
  have hleft' : (h.mem node).sort.ofSorted temp k |>.Classified := by
    refine Node.classified_ofSorted _ hle ?_
    intro s hs
    obtain ⟨i, hi, rfl⟩ := mem_cells.mp hs
    exact hlive i (by omega)
  have hs₁ : Slotted (some node1) (h.set node ((h.mem node).sort.ofSorted temp k)) :=
    hs.set hleft (fun _ _ he => he) fun _ _ _ _ => hleft'
  have hs₂ := hs₁.setUpperLayers node (fun i => if i < k then temp i else .empty) k
  have hfresh₂ := fresh_setUpperLayers (h := h.set node ((h.mem node).sort.ofSorted temp k)) node
    (fun i => if i < k then temp i else .empty) k
  generalize hh₂ : setUpperLayers (h.set node ((h.mem node).sort.ofSorted temp k)) node
    (fun i => if i < k then temp i else .empty) k = h₂ at hs₂ hfresh₂
  have hright : (h₂.mem node1).ofSorted (fun j => temp (k + j)) (16 - k) |>.Fits h₂.fresh := by
    refine (hs₂.fits node1).half (fun i hi q hq => ?_) (fun i hi => hslice _ (by omega))
    rw [hfresh₂]
    exact hlink _ (by omega) q hq
  have hright' : (h₂.mem node1).ofSorted (fun j => temp (k + j)) (16 - k) |>.Classified := by
    refine Node.classified_ofSorted _ (by omega) ?_
    intro s hs
    obtain ⟨i, hi, rfl⟩ := mem_cells.mp hs
    exact hlive _ (by omega)
  have hs₃ : Slotted none (h₂.set node1 ((h₂.mem node1).ofSorted (fun j => temp (k + j)) (16 - k))) :=
    hs₂.set hright (fun q hq _ he => hq (Option.some.inj he).symm) fun _ _ _ _ => hright'
  have hs₄ := hs₃.setUpperLayers node1 (fun j => if j < 16 - k then temp (k + j) else .empty) (16 - k)
  rw [← hh₂] at hs₄
  refine (Slotted.keepAll ?_ rfl rfl rfl id rfl rfl).keepAll? fun n => ⟨rfl, rfl, rfl, rfl, rfl, rfl⟩
  exact hs₄.keepAll rfl rfl rfl id rfl rfl

/-- `split_keys_among` on a full border node. -/
theorem slotted_split_keys_amongBorder {node node1 : Ptr} {key : Key} {value : V} (hs : Slotted (some node1) h)
    (hn : (h.mem node).Classified) (hfull : (h.mem node).permutation.length = 15) (hk : key.Wf)
    (hres : split_keys_amongBorder h node node1 key value = some h') : Slotted none h' := by
  obtain ⟨k, hpos, hle, rfl⟩ := split_keys_amongBorder_cases hres
  have hslots : ∀ j < 16, (tempSlots (h.mem node).sort key value j).Live ∧
      (tempSlots (h.mem node).sort key value j).key_slice < 2 ^ 64 ∧
      ∀ q, (tempSlots (h.mem node).sort key value j).layer? = some q → q < h.fresh := by
    intro j hj
    rcases tempSlots_cases (h.mem node).sort key value hj with ⟨i, hi, heq⟩ | heq
    · obtain ⟨l, hl, heq'⟩ := List.mem_map.mp (Node.sort_slot_mem hfull hi)
      rw [heq, ← heq']
      exact ⟨hn.live l hl, (hs.fits node).slice l, (hs.fits node).link l⟩
    · rw [heq]
      refine ⟨newSlot_live hk value _, newSlot_slice hk value (size_lt hk), ?_⟩
      intro q hq
      rw [newSlot_layer? hk] at hq
      cases hq
  exact slotted_splitStores hs hpos hle (fun j hj => (hslots j hj).1) (fun j hj => (hslots j hj).2.1)
    fun j hj => (hslots j hj).2.2

theorem Node.Classified.mem_of_layer? {n : Node V} (hn : n.Classified) {i : Nat} {p : Ptr} (hi : i < 15)
    (hp : (n.slot i).layer? = some p) : i ∈ n.permutation := by
  by_contra hnot
  rw [(hn.free i hi hnot).2] at hp
  cases hp

theorem findNextLayerIndex_some {n : Node V} {p : Ptr} {i : Nat} (h : n.findNextLayerIndex p = some i) :
    i < 15 ∧ (n.slot i).layer? = some p := by
  refine ⟨List.mem_range.mp (List.mem_of_find?_eq_some h), ?_⟩
  have hlink : (n.slot i).lv.isLink p = true := by
    simpa using List.find?_some h
  unfold Slot.layer?
  cases hlv : (n.slot i).lv with
  | link q =>
    rw [hlv] at hlink
    exact congrArg some (eq_of_beq hlink)
  | value _ =>
    rw [hlv] at hlink
    cases hlink
  | null =>
    rw [hlv] at hlink
    cases hlink

/-- A link that is stored where a link was. -/
theorem Slotted.setLink (hs : Slotted e h) {upper p q : Ptr} {i : Nat}
    (hi : (h.mem upper).findNextLayerIndex p = some i) (hq : q < h.fresh) :
    Slotted e (h.modify upper (·.setLV i (.link q))) := by
  obtain ⟨hlt, hlink⟩ := findNextLayerIndex_some hi
  refine hs.setSlot (fun hn => ?_) ?_ ((hs.fits upper).slice i)
  · have hmem := hn.mem_of_layer? hlt hlink
    refine ⟨hmem, ?_⟩
    have hlive := hn.live i hmem
    generalize (h.mem upper).slot i = s at hlive hlink
    cases hlive with
    | short v hlen => cases hlink
    | long v hne hsize hslices => cases hlink
    | layer r => exact .layer q
  · intro r hr
    exact Option.some.inj hr ▸ hq

theorem slotted_create_root {left right root : Ptr} {slice : Nat} (hs : Slotted e h) (hleft : left < h.fresh)
    (hright : right < h.fresh) (hres : create_root_with_children h left slice right = some (root, h')) :
    Slotted e h' ∧ root < h'.fresh := by
  obtain ⟨hroot, hfresh⟩ := create_root_fresh hres
  refine ⟨?_, by rw [hroot, hfresh]; exact Nat.lt_succ_self _⟩
  unfold create_root_with_children at hres
  simp only [Option.bind_eq_bind, Option.bind_eq_some_iff] at hres
  obtain ⟨-, -, -, -, -, -, hres⟩ := hres
  have hnode : ∀ upper : Option Ptr, ({ (Node.newInterior : Node V) with
      is_root := true
      upperLayer := upper
      n_keys := 1
      key_slice := Function.update (fun _ => 0) 0 slice
      child := Function.update (Function.update (fun _ => none) 0 (some left)) 1 (some right) } :
        Node V).Fits (h.fresh + 1) := by
    intro upper
    refine ⟨?_, nofun, nofun, (fits_newBorder 0).slice⟩
    intro i q hq
    dsimp only at hq
    by_cases h1 : i = 1
    · rw [h1, Function.update_self] at hq
      exact Option.some.inj hq ▸ Nat.lt_succ_of_lt hright
    · rw [Function.update_of_ne h1] at hq
      by_cases h0 : i = 0
      · rw [h0, Function.update_self] at hq
        exact Option.some.inj hq ▸ Nat.lt_succ_of_lt hleft
      · rw [Function.update_of_ne h0] at hq
        cases hq
  have hs₁ := hs.alloc (hnode (h.mem left).upperLayer) (fun _ _ he => he) nofun
  have hback : ∀ {h₁ : Heap V}, Slotted e h₁ → root < h₁.fresh → Slotted e
      ((h₁.modify left fun n => { n with parent := some root, upperLayer := none, is_root := false }).modify right
        fun n => { n with parent := some root, is_root := false }) := by
    intro h₁ hs₁ hlt
    have hparent : ∀ q, some root = some q → q < h₁.fresh := fun q hq => Option.some.inj hq ▸ hlt
    have hs₂ : Slotted e (h₁.modify left fun n =>
        { n with parent := some root, upperLayer := none, is_root := false }) :=
      hs₁.keep rfl rfl rfl id (hs₁.fits left).child hparent
    exact hs₂.keep rfl rfl rfl id (hs₂.fits right).child hparent
  split at hres
  · cases hres
    exact hback hs₁ (Nat.lt_succ_self _)
  · simp only [Option.bind_eq_some_iff] at hres
    obtain ⟨i, hi, h₁, hh₁, hres⟩ := hres
    cases hh₁
    cases hres
    exact hback (hs₁.setLink hi (Nat.lt_succ_self _)) (Nat.lt_succ_self _)

theorem slotted_insert_into_parent {parent node1 : Ptr} {slice node_index : Nat} (hs : Slotted e h)
    (hparent : parent < h.fresh) (hnode1 : node1 < h.fresh) :
    Slotted e (insert_into_parent h parent node1 slice node_index) := by
  have hchild : ∀ i q, Function.update (shiftRight node_index (h.mem parent).n_keys (h.mem parent).child)
      (node_index + 1) (some node1) i = some q → q < h.fresh := by
    intro i q hq
    by_cases hi : i = node_index + 1
    · rw [hi, Function.update_self] at hq
      exact Option.some.inj hq ▸ hnode1
    · rw [Function.update_of_ne hi, shiftRight_apply] at hq
      split at hq
      · exact (hs.fits parent).child _ q hq
      · exact (hs.fits parent).child _ q hq
  have hs₁ : Slotted e (h.modify parent fun n =>
      { n with
        child := Function.update (shiftRight node_index n.n_keys n.child) (node_index + 1) (some node1)
        key_slice := Function.update (shiftRight' node_index n.n_keys n.key_slice) node_index slice
        n_keys := n.n_keys + 1 }) :=
    hs.keep rfl rfl rfl id hchild (hs.fits parent).parent
  exact hs₁.setParent (p := some node1) hparent

theorem slotted_split_keys_amongInterior {parent parent1 node1 : Ptr} (slice node_index : Nat)
    (hs : Slotted e h) (hparent : parent < h.fresh) (hparent1 : parent1 < h.fresh) (hnode1 : node1 < h.fresh) :
    Slotted e (split_keys_amongInterior h parent parent1 slice node1 node_index).2 := by
  have hgap : ∀ i q, openGap (h.mem parent).child (node_index + 1) (some node1) i = some q → q < h.fresh := by
    intro i q hq
    unfold openGap at hq
    split at hq
    · exact (hs.fits parent).child i q hq
    split at hq
    · exact Option.some.inj hq ▸ hnode1
    · exact (hs.fits parent).child (i - 1) q hq
  have hchildren : ∀ (m k i : Nat) q, (if i < m then openGap (h.mem parent).child (node_index + 1) (some node1) (i + k)
      else none) = some q → q < h.fresh := by
    intro m k i q hq
    split at hq
    · exact hgap _ q hq
    · cases hq
  unfold split_keys_amongInterior splitInterior
  dsimp only
  have hs₁ := hs.keep (p := parent) (f := fun n => { n with
      n_keys := 7
      key_slice := fun i => if i < 7 then openGap (h.mem parent).key_slice node_index slice i else 0
      child := fun i => if i < 8 then openGap (h.mem parent).child (node_index + 1) (some node1) i else none })
    rfl rfl rfl id (hchildren 8 0) (hs.fits parent).parent
  have hs₂ := hs₁.keep (p := parent1) (f := fun n => { n with
      n_keys := 8
      key_slice := fun i => if i < 8 then openGap (h.mem parent).key_slice node_index slice (i + 8) else 0
      child := fun i => if i < 9 then openGap (h.mem parent).child (node_index + 1) (some node1) (i + 8) else none })
    rfl rfl rfl id (hchildren 9 8) (hs₁.fits parent1).parent
  refine Slotted.setParents (hs₂.setParents hparent _ _) ?_ _ _
  rw [fresh_setParents]
  exact hparent1

theorem slotted_unlockBoth (hs : Slotted e h) (node node1 : Ptr) : Slotted e (unlockBoth h node node1) :=
  (hs.keepAll rfl rfl rfl id rfl rfl).keepAll rfl rfl rfl id rfl rfl

theorem slotted_ascend : ∀ {fuel : Nat} {h : Heap V} {node node1 : Ptr} {up : Option Nat} {r : Option Ptr},
    Slotted e h → node < h.fresh → node1 < h.fresh → ascend fuel h node node1 up = some (r, h') →
      Slotted e h' ∧ ∀ q, r = some q → q < h'.fresh := by
  intro fuel
  induction fuel with
  | zero => exact nofun
  | succ fuel ih =>
    intro h node node1 up r hs hnode hnode1 hres
    unfold ascend at hres
    dsimp only at hres
    split at hres
    · simp only [Option.bind_eq_bind, Option.bind_eq_some_iff] at hres
      obtain ⟨⟨root, h₁⟩, hroot, hres⟩ := hres
      obtain ⟨hs₁, hlt⟩ := slotted_create_root hs hnode hnode1 hroot
      cases hres
      refine ⟨slotted_unlockBoth hs₁ _ _, ?_⟩
      intro q hq
      exact Option.some.inj hq ▸ hlt
    · rename_i parent hpar
      have hparent : parent < h.fresh := (hs.fits node).parent parent hpar
      simp only [Option.bind_eq_bind, Option.bind_eq_some_iff] at hres
      obtain ⟨i, -, hres⟩ := hres
      split at hres
      · cases hres
        exact ⟨slotted_unlockBoth (slotted_insert_into_parent hs hparent hnode1) _ _, nofun⟩
      · have hs₁ : Slotted e (h.modify node Node.unlockSplit) := hs.keepAll rfl rfl rfl id rfl rfl
        have hfit : ((Node.newInterior : Node V).copyVersion
            ((h.modify node Node.unlockSplit).mem parent)).Fits (h.fresh + 1) :=
          ⟨nofun, nofun, nofun, (fits_newBorder 0).slice⟩
        have hs₂ := hs₁.alloc hfit (fun _ _ he => he) fun _ _ _ =>
          ⟨List.nodup_nil, nofun, nofun, fun _ _ _ => ⟨Or.inl rfl, rfl⟩⟩
        have hs₃ := slotted_split_keys_amongInterior (up.getD ((h.mem node1).slot 0).key_slice) i hs₂ (Nat.lt_succ_of_lt hparent) (Nat.lt_succ_self h.fresh) (Nat.lt_succ_of_lt hnode1)
        refine ih (hs₃.keepAll rfl rfl rfl id rfl rfl) ?_ ?_ hres
        · simp only [Heap.fresh_modify, fresh_split_keys_amongInterior, Heap.fresh_alloc]
          exact Nat.lt_succ_of_lt hparent
        · simp only [Heap.fresh_modify, fresh_split_keys_amongInterior, Heap.fresh_alloc]
          exact Nat.lt_succ_self _

theorem slotted_split {node : Ptr} {key : Key} {value : V} {r : Option Ptr} (hs : Slotted none h)
    (hnode : node < h.fresh) (hn : (h.mem node).Classified) (hfull : (h.mem node).permutation.length = 15)
    (hk : key.Wf) (hres : split h node key value = some (r, h')) :
    Slotted none h' ∧ ∀ q, r = some q → q < h'.fresh := by
  unfold split at hres
  simp only [Option.bind_eq_bind, Option.bind_eq_some_iff] at hres
  obtain ⟨h₁, hborder, hres⟩ := hres
  have hfit : ((Node.newBorder : Node V).copyVersion (h.mem node)).Fits (h.fresh + 1) :=
    ⟨nofun, nofun, nofun, (fits_newBorder 0).slice⟩
  have hs₁ : Slotted (some h.fresh) (h.alloc ((Node.newBorder : Node V).copyVersion (h.mem node))).2 :=
    hs.alloc hfit (fun _ _ _ => nofun) fun he => absurd rfl he
  have hmem : (h.alloc ((Node.newBorder : Node V).copyVersion (h.mem node))).2.mem node = h.mem node := by
    rw [mem_alloc, if_neg (Nat.ne_of_lt hnode)]
  have hs₂ := slotted_split_keys_amongBorder hs₁ (by rw [hmem]; exact hn) (by rw [hmem]; exact hfull) hk hborder
  have hfresh := fresh_split_keys_amongBorder hborder
  rw [Heap.fresh_alloc] at hfresh
  refine slotted_ascend hs₂ ?_ ?_ hres
  · rw [hfresh]
    exact Nat.lt_succ_of_lt hnode
  · rw [hfresh]
    exact Nat.lt_succ_self _

theorem fits_single {s : Slot V} {upper : Option Ptr} {fresh : Nat} (hlayer : s.layer? = none)
    (hslice : s.key_slice < 2 ^ 64) : (Node.single s upper).Fits fresh := by
  have hfit := (fits_newBorder fresh).setSlot (i := 0) (fun q hq => nomatch hlayer.symm.trans hq) hslice
  exact ⟨nofun, nofun, hfit.link, hfit.slice⟩

theorem check_break_invariant_some {n : Node V} {key : Key} {i : Nat}
    (hi : check_break_invariant n key = some i) : key.hasNext = true ∧ i ∈ n.permutation := by
  unfold check_break_invariant at hi
  split at hi
  · exact ⟨‹_›, List.mem_of_find?_eq_some hi⟩
  · cases hi

theorem slotted_handle_break {node : Ptr} {i : Nat} (hs : Slotted none h) (hnode : node < h.fresh)
    (hn : (h.mem node).Classified) (hi : i ∈ (h.mem node).permutation)
    (hres : handle_break_invariant h node i = some h') : Slotted none h' := by
  unfold handle_break_invariant at hres
  dsimp only at hres
  have hlive := hn.live i hi
  have hslice := (hs.fits node).slice i
  split at hres
  · rename_i hlen
    split at hres
    · cases hres
    · rename_i suffix hsuffix
      cases hres
      generalize hslot : (h.mem node).slot i = s at hlive hslice hlen hsuffix
      cases hlive with
      | short v hlen' => cases hsuffix
      | layer q => cases hsuffix
      | @long slice suffix' v hne hsize hslices =>
        obtain rfl : suffix' = suffix := Option.some.inj hsuffix
        obtain ⟨hdown, hdlt, hdkey⟩ := downSlot_spec v hne hsize hslices
        have hnone : (downSlot (.value v) suffix').layer? = none := Slot.Live.layer?_of_key? hdkey
        rw [layerFor_eq]
        have hs₁ : Slotted none (h.alloc (Node.single (downSlot (.value v) suffix') (some node))).2 :=
          hs.alloc (fits_single hnone hdlt) (fun _ _ he => he) fun _ _ _ => (borderAt_single hdown _).slots.classified
        have hmem : (h.alloc (Node.single (downSlot (.value v) suffix') (some node))).2.mem node = h.mem node := by
          rw [mem_alloc, if_neg (Nat.ne_of_lt hnode)]
        refine hs₁.setSlot (fun _ => ⟨by rw [hmem]; exact hi, .layer _⟩) ?_ hslice
        intro q hq
        obtain rfl := Option.some.inj hq
        exact Nat.lt_succ_self _
  · split at hres
    · cases hres
      exact hs
    · cases hres

theorem slotted_insert_to_border {node : Ptr} {n' : Node V} {key : Key} {value : V} (hs : Slotted none h)
    (hn : (h.mem node).Classified) (hk : key.Wf) (hres : insert_to_border (h.mem node) key value = some n') :
    Slotted none (h.set node n') := by
  unfold insert_to_border at hres
  split at hres
  · cases hres
  rename_i hfull
  obtain ⟨i, hpoint, hlt, hi⟩ := hn.exists_free (Nat.lt_of_le_of_ne hn.length_le hfull)
  rw [hpoint] at hres
  cases hres
  have hnone := newSlot_layer? hk value key.getCurrentSlice.slice (key.cursor + 1)
  have hfit : ((h.mem node).setSlot i (newSlot key value key.getCurrentSlice.slice (key.cursor + 1))).Fits h.fresh :=
    (hs.fits node).setSlot (fun q hq => nomatch hnone.symm.trans hq) (newSlot_slice hk value (Key.slice_lt hk))
  refine hs.set ⟨hfit.child, hfit.parent, hfit.link, hfit.slice⟩ (fun _ _ he => he) ?_
  intro _ _ _ _
  exact hn.insert hlt hi (newSlot_live hk value _) (Node.insertionPoint_le _)

theorem findChildFrom_child (n : Node V) (slice fuel : Nat) : ∀ i, ∃ j, n.findChildFrom slice fuel i = n.child j := by
  induction fuel with
  | zero => exact fun i => ⟨i, rfl⟩
  | succ fuel ih =>
    intro i
    rw [Node.findChildFrom]
    split
    · exact ⟨i, rfl⟩
    · exact ih (i + 1)

theorem Slotted.climb (hs : Slotted e h) : ∀ {fuel : Nat} {p q : Ptr}, p < h.fresh →
    Masstree.climb h fuel p = some q → q < h.fresh := by
  intro fuel
  induction fuel with
  | zero => exact nofun
  | succ fuel ih =>
    intro p q hp hres
    rw [Masstree.climb] at hres
    split at hres
    · cases hres
      exact hp
    · obtain ⟨r, hr, hres⟩ := Option.bind_eq_some_iff.mp hres
      exact ih ((hs.fits p).parent r hr) hres

theorem Slotted.descend (hs : Slotted e h) {slice : Nat} : ∀ {fuel : Nat} {p q : Ptr}, p < h.fresh →
    Masstree.descend h slice fuel p = some q → q < h.fresh ∧ (h.mem q).is_border = true := by
  intro fuel
  induction fuel with
  | zero => exact nofun
  | succ fuel ih =>
    intro p q hp hres
    rw [Masstree.descend] at hres
    split at hres
    · cases hres
      exact ⟨hp, ‹_›⟩
    · obtain ⟨r, hr, hres⟩ := Option.bind_eq_some_iff.mp hres
      obtain ⟨j, hj⟩ := findChildFrom_child (h.mem p) slice (h.mem p).n_keys 0
      exact ih ((hs.fits p).child j r (hj.symm.trans hr)) hres

theorem Slotted.findBorder (hs : Slotted e h) {root p : Ptr} {key : Key} (hroot : root < h.fresh)
    (hres : Masstree.findBorder h root key = some p) : p < h.fresh ∧ (h.mem p).is_border = true := by
  obtain ⟨r, hr, hres⟩ := Option.bind_eq_some_iff.mp hres
  exact hs.descend (hs.climb hroot hr) hres

/-- What a call on a layer returns: a state in order, and a root that is allocated. -/
def InOrder (fresh : Nat) (r : Option Ptr) (h' : Heap V) : Prop :=
  Slotted none h' ∧ fresh ≤ h'.fresh ∧ ∀ q, r = some q → q < h'.fresh

/-- Where no root is returned. -/
theorem Slotted.inOrder_none {fresh : Nat} (hs : Slotted none h) (hle : fresh ≤ h.fresh) :
    InOrder fresh none h :=
  ⟨hs, hle, fun _ hq => absurd hq (Option.some_ne_none _).symm⟩

theorem slotted_insertForward {again : Heap V → Key → Option (Status × Option Ptr × Heap V)}
    {below : Heap V → Ptr → Key → Option (Status × Option Ptr × Heap V)} {root : Ptr} {key : Key} {value : V}
    (hk : key.Wf)
    (hagain : ∀ {h h' : Heap V} {status r}, Slotted none h → root < h.fresh →
      again h key = some (status, r, h') → InOrder h.fresh r h')
    (hbelow : ∀ {h h' : Heap V} {p : Ptr} {key : Key} {status r}, Slotted none h → p < h.fresh → key.Wf →
      below h p key = some (status, r, h') → InOrder h.fresh r h') :
    ∀ {fuel : Nat} {h h' : Heap V} {node : Ptr} {status : Status} {r : Option Ptr}, Slotted none h →
      root < h.fresh → node < h.fresh → (h.mem node).is_border = true →
      insertForward again below root key value fuel h node = some (status, r, h') → InOrder h.fresh r h' := by
  have hkept : ∀ {h h' : Heap V} {status₁ status : Status} {r : Option Ptr}, Slotted none h → root < h.fresh →
      (if status₁ = .RETRY_FROM_UPPER_LAYER then again h key else some (.OK, some root, h)) = some (status, r, h') →
      InOrder h.fresh r h' := by
    intro h h' status₁ status r hs hroot hres
    split at hres
    · exact hagain hs hroot hres
    · cases hres
      exact ⟨hs, Nat.le_refl _, fun q hq => Option.some.inj hq ▸ hroot⟩
  intro fuel h h' node status r hs hroot hnode hborder hres
  cases fuel with
  | zero => cases hres
  | succ fuel =>
    unfold insertForward at hres
    dsimp only at hres
    split at hres
    · split at hres
      · cases hres
        exact hs.inOrder_none (Nat.le_refl _)
      · exact hagain hs hroot hres
    rename_i halive
    have hn := hs.classified hnode hborder (Bool.not_eq_true _ ▸ halive)
    have hsplit : Node.splitHappened (h.mem node).v_split (h.mem node).v_split = false := bne_self_eq_false _
    rw [if_neg (by rw [hsplit]; exact Bool.false_ne_true)] at hres
    have hsearch := hn.search_spec hk
    generalize (h.mem node).searchLinkOrValueWithIndex key = res at hsearch hres
    cases hsearch with
    | value hi hkey =>
      cases hres
      exact ⟨hs, Nat.le_refl _, fun q hq => Option.some.inj hq ▸ hroot⟩
    | @layer i q hi hlink hslice hnext =>
      obtain ⟨⟨status₁, r₁, h₁⟩, hb, hres⟩ := Option.bind_eq_some_iff.mp hres
      obtain ⟨hs₁, hle, -⟩ := hbelow hs ((hs.fits node).link i q hlink) (hk.next hnext) hb
      obtain ⟨hs₂, hle₂, hr⟩ := hkept hs₁ (Nat.lt_of_lt_of_le hroot hle) hres
      exact ⟨hs₂, Nat.le_trans hle hle₂, hr⟩
    | notFound hkey hlayer =>
      dsimp only at hres
      split at hres
      · rename_i old_index hbreak
        obtain ⟨hnext, hi⟩ := check_break_invariant_some hbreak
        obtain ⟨h₁, hh₁, hres⟩ := Option.bind_eq_some_iff.mp hres
        have hs₁ := slotted_handle_break hs hnode hn hi hh₁
        have hle₁ := fresh_handle_break_invariant hh₁
        split at hres
        · rename_i next_layer hlink
          obtain ⟨⟨status₁, r₁, h₂⟩, hb, hres⟩ := Option.bind_eq_some_iff.mp hres
          have hlt : next_layer < h₁.fresh := by
            refine (hs₁.fits node).link old_index next_layer ?_
            rw [Slot.layer?, hlink]
          obtain ⟨hs₂, hle₂, -⟩ := hbelow hs₁ hlt (hk.next hnext) hb
          have hle := Nat.le_trans hle₁ hle₂
          obtain ⟨hs₃, hle₃, hr⟩ := hkept hs₂ (Nat.lt_of_lt_of_le hroot hle) hres
          exact ⟨hs₃, Nat.le_trans hle hle₃, hr⟩
        · cases hres
      · split at hres
        · obtain ⟨n, hinsert, hres⟩ := Option.bind_eq_some_iff.mp hres
          cases hres
          exact ⟨slotted_insert_to_border hs hn hk hinsert, Nat.le_refl _,
            fun q hq => Option.some.inj hq ▸ hroot⟩
        · rename_i hfull
          obtain ⟨⟨r₁, h₁⟩, hsplit', hres⟩ := Option.bind_eq_some_iff.mp hres
          obtain ⟨hs₁, hr⟩ := slotted_split hs hnode hn (not_not.mp hfull) hk hsplit'
          have hle := (split_fresh hsplit').1
          cases r₁ with
          | some root' =>
            cases hres
            exact ⟨hs₁, hle, hr⟩
          | none =>
            cases hres
            exact ⟨hs₁, hle, fun q hq => Option.some.inj hq ▸ Nat.lt_of_lt_of_le hroot hle⟩

theorem slotted_masstree_insert {value : V} : ∀ {fuel : Nat} {h h' : Heap V} {root : Ptr} {key : Key}
    {status : Status} {r : Option Ptr}, Slotted none h → root < h.fresh → key.Wf →
      masstree_insert value fuel h root key = some (status, r, h') → InOrder h.fresh r h' := by
  intro fuel
  induction fuel with
  | zero => exact nofun
  | succ fuel ih =>
    intro h h' root key status r hs hroot hk hres
    obtain ⟨node, hfind, hres⟩ := Option.bind_eq_some_iff.mp hres
    obtain ⟨hnode, hborder⟩ := hs.findBorder hroot hfind
    exact slotted_insertForward hk (fun hs hlt hres => ih hs hlt hk hres) ih hs hroot hnode hborder hres

theorem Slotted.dropSlot (hs : Slotted e h) (p : Ptr) (i : Nat) : Slotted e (h.modify p fun n =>
    { n.setSlot i { n.slot i with lv := .null, suffix := none } with deleted := true }) := by
  have hfit := (hs.fits p).setSlot (i := i) (s := { (h.mem p).slot i with lv := .null, suffix := none }) nofun
    ((hs.fits p).slice i)
  exact hs.set ⟨hfit.child, hfit.parent, hfit.link, hfit.slice⟩ (fun _ _ he => he) fun _ _ _ hd => nomatch hd

/-- The last key of a lower layer goes up as a suffix; the node of the layer is marked as deleted. -/
theorem slotted_handle_delete_layer {p : Ptr} {i : Nat} {r : (List Nat × Nat) × V} (hs : Slotted none h)
    (hn : (h.mem p).Classified) (hi : i ∈ (h.mem p).permutation) (hkey : ((h.mem p).slot i).key? = some r)
    (hres : handle_delete_layer_in_remove h p = some h') : Slotted none h' := by
  unfold handle_delete_layer_in_remove at hres
  simp only [Option.bind_eq_bind, Option.bind_eq_some_iff, Option.guard_eq_some'] at hres
  obtain ⟨-, -, -, hlen, -, -, upper, -, suffix, hsuffix, j, hj, -, -, hres⟩ := hres
  obtain ⟨i', hperm⟩ := List.length_eq_one_iff.mp hlen
  obtain rfl : i = i' := by
    rw [hperm] at hi
    exact List.mem_singleton.mp hi
  rw [hperm, List.headD_cons] at hsuffix hres
  obtain ⟨hspec, hne, hsize, hslices⟩ := suffixFor_spec (hn.live i hi) hkey
  obtain rfl := Option.some.inj (hspec.symm.trans hsuffix)
  cases hres
  have hlv := Slot.lv_of_key? hkey
  obtain ⟨hjlt, hjlink⟩ := findNextLayerIndex_some hj
  have hs₁ : Slotted none (h.set upper ((h.mem upper).setSlot j
      ⟨key_len_has_suffix, ((h.mem upper).slot j).key_slice, ((h.mem p).slot i).lv, some ⟨r.1.1, r.1.2⟩⟩)) := by
    refine hs.setSlot (fun hnu => ⟨hnu.mem_of_layer? hjlt hjlink, ?_⟩) ?_ ((hs.fits upper).slice j)
    · rw [hlv]
      exact .long _ hne hsize (hslices ((hs.fits p).slice i))
    · intro q hq
      rw [Slot.layer?, hlv] at hq
      cases hq
  exact hs₁.dropSlot p i

theorem slotted_setDeleted (hs : Slotted e h) (p : Ptr) : Slotted e (setDeleted h p) :=
  hs.keepAll rfl rfl rfl nofun rfl rfl

theorem slotted_connectPrevAndNext (hs : Slotted e h) (p : Ptr) : Slotted e (connectPrevAndNext h p) := by
  refine Slotted.keepAll? (hs.keepAll? ?_) ?_
  · exact fun _ => ⟨rfl, rfl, rfl, rfl, rfl, rfl⟩
  · exact fun _ => ⟨rfl, rfl, rfl, rfl, rfl, rfl⟩

/-- The stores behind the change of the interior nodes. -/
theorem slotted_unlink (hs : Slotted e h) (p : Ptr) : Slotted e (setDeleted (connectPrevAndNext h p) p) :=
  slotted_setDeleted (slotted_connectPrevAndNext hs p) p

theorem slotted_delete_borderNode {p : Ptr} {change : RootChange} {r : Option Ptr} (hs : Slotted e h)
    (hres : delete_borderNode_in_remove h p = some (change, r, h')) :
    Slotted e h' ∧ ∀ q, r = some q → q < h.fresh := by
  unfold delete_borderNode_in_remove at hres
  obtain ⟨-, -, hres⟩ := Option.bind_eq_some_iff.mp hres
  split at hres
  · obtain ⟨-, -, hres⟩ := Option.bind_eq_some_iff.mp hres
    obtain ⟨-, -, hres⟩ := Option.bind_eq_some_iff.mp hres
    cases hres
    exact ⟨slotted_setDeleted hs p, nofun⟩
  obtain ⟨parent, -, hres⟩ := Option.bind_eq_some_iff.mp hres
  obtain ⟨i, -, hres⟩ := Option.bind_eq_some_iff.mp hres
  split at hres
  · cases hres
    have hchild : ∀ j q, (removeChild (h.mem parent) i).child j = some q → q < h.fresh := by
      intro j q hq
      dsimp only [removeChild] at hq
      generalize (if i = 0 then 0 else i) = start at hq
      rw [shiftLeft_apply] at hq
      split at hq
      · exact (hs.fits parent).child (j + 1) q hq
      · exact (hs.fits parent).child j q hq
    have hs₁ : Slotted e (h.modify parent (removeChild · i)) :=
      hs.keep rfl rfl rfl id hchild (hs.fits parent).parent
    exact ⟨slotted_unlink hs₁ p, nofun⟩
  obtain ⟨-, -, hres⟩ := Option.bind_eq_some_iff.mp hres
  obtain ⟨pull_up_node, hpull, hres⟩ := Option.bind_eq_some_iff.mp hres
  have hlt : pull_up_node < h.fresh := (hs.fits parent).child _ _ hpull
  have hroot : ∀ q, some pull_up_node = some q → q < h.fresh := fun q hq => Option.some.inj hq ▸ hlt
  split at hres
  · obtain ⟨-, -, hres⟩ := Option.bind_eq_some_iff.mp hres
    split at hres
    · cases hres
      have hs₁ : Slotted e (h.modify pull_up_node fun n =>
          { n with is_root := true, parent := none, upperLayer := none }) :=
        hs.keep rfl rfl rfl id (hs.fits pull_up_node).child nofun
      exact ⟨slotted_setDeleted (slotted_unlink hs₁ p) parent, hroot⟩
    · rename_i upper _
      obtain ⟨j, hj, hres⟩ := Option.bind_eq_some_iff.mp hres
      cases hres
      have hs₁ : Slotted e (h.modify pull_up_node fun n => { n with is_root := true, parent := none }) :=
        hs.keep rfl rfl rfl id (hs.fits pull_up_node).child nofun
      have hj' : ((h.modify pull_up_node fun n => { n with is_root := true, parent := none }).mem
          upper).findNextLayerIndex parent = some j := by
        rw [← hj]
        by_cases hup : upper = pull_up_node
        · rw [hup, Heap.mem_modify_self]
          rfl
        · rw [Heap.mem_modify_of_ne _ _ hup]
      exact ⟨slotted_setDeleted (slotted_unlink (hs₁.setLink hj' hlt) p) parent, hroot⟩
  · obtain ⟨parentOfParent, hpar, hres⟩ := Option.bind_eq_some_iff.mp hres
    obtain ⟨j, -, hres⟩ := Option.bind_eq_some_iff.mp hres
    cases hres
    have hchild : ∀ k q, Function.update (h.mem parentOfParent).child j (some pull_up_node) k = some q →
        q < h.fresh := by
      intro k q hq
      by_cases hk : k = j
      · rw [hk, Function.update_self] at hq
        exact hroot q hq
      · rw [Function.update_of_ne hk] at hq
        exact (hs.fits parentOfParent).child k q hq
    have hs₁ : Slotted e (h.modify parentOfParent fun n =>
        { n with child := Function.update n.child j (some pull_up_node) }) :=
      hs.keep rfl rfl rfl id hchild (hs.fits parentOfParent).parent
    have hs₂ := hs₁.setParent (p := some pull_up_node) ((hs.fits parent).parent parentOfParent hpar)
    exact ⟨slotted_setDeleted (slotted_unlink hs₂ p) parent, nofun⟩

theorem Node.Classified.markKeyRemoved {n n' : Node V} (hn : n.Classified) {i : Nat} {r : (List Nat × Nat) × V}
    (hi : i ∈ n.permutation) (hkey : (n.slot i).key? = some r) (hres : n.markKeyRemoved i = some n') :
    ({ n' with permutation := n'.permutation.erase i } : Node V).Classified ∧
      n' = n.setKeyLen i ((n.slot i).key_len + 9) := by
  have hmark : n.markKeyRemoved i = some (n.setKeyLen i ((n.slot i).key_len + 9)) :=
    if_pos ((hn.live i hi).markKeyRemoved hkey)
  obtain rfl := Option.some.inj (hmark.symm.trans hres)
  exact ⟨hn.removeSlot hi hkey, rfl⟩

theorem slotted_removeForward {again : Heap V → Key → Option (RootChange × Option Ptr × Heap V)}
    {below : Heap V → Ptr → Key → Option (RootChange × Option Ptr × Heap V)} {root : Ptr} {key : Key}
    (hk : key.Wf)
    (hagain : ∀ {h h' : Heap V} {change r}, Slotted none h → root < h.fresh →
      again h key = some (change, r, h') → InOrder h.fresh r h')
    (hbelow : ∀ {h h' : Heap V} {p : Ptr} {key : Key} {change r}, Slotted none h → p < h.fresh → key.Wf →
      below h p key = some (change, r, h') → InOrder h.fresh r h') :
    ∀ {fuel : Nat} {h h' : Heap V} {node : Ptr} {change : RootChange} {r : Option Ptr}, Slotted none h →
      root < h.fresh → node < h.fresh → (h.mem node).is_border = true →
      removeForward again below root key fuel h node = some (change, r, h') → InOrder h.fresh r h' := by
  intro fuel h h' node change r hs hroot hnode hborder hres
  cases fuel with
  | zero => cases hres
  | succ fuel =>
    have hkept : ∀ {h' : Heap V}, Slotted none h' → h'.fresh = h.fresh → InOrder h.fresh (some root) h' :=
      fun hs hfresh => ⟨hs, Nat.le_of_eq hfresh.symm, fun q hq => Option.some.inj hq ▸ hfresh ▸ hroot⟩
    unfold removeForward at hres
    dsimp only at hres
    split at hres
    · split at hres
      · cases hres
        exact hkept hs rfl
      · exact hagain hs hroot hres
    rename_i halive
    have hn := hs.classified hnode hborder (Bool.not_eq_true _ ▸ halive)
    have hsplit : Node.splitHappened (h.mem node).v_split (h.mem node).v_split = false := bne_self_eq_false _
    rw [if_neg (by rw [hsplit]; exact Bool.false_ne_true)] at hres
    have hsearch := hn.search_spec hk
    generalize (h.mem node).searchLinkOrValueWithIndex key = res at hsearch hres
    cases hsearch with
    | notFound hkey hlayer =>
      cases hres
      exact hkept hs rfl
    | @layer i q hi hlink hslice hnext =>
      obtain ⟨⟨change₁, r₁, h₁⟩, hb, hres⟩ := Option.bind_eq_some_iff.mp hres
      obtain ⟨hs₁, hle, -⟩ := hbelow hs ((hs.fits node).link i q hlink) (hk.next hnext) hb
      have hroot₁ := Nat.lt_of_lt_of_le hroot hle
      split at hres
      · obtain ⟨hs₂, hle₂, hr⟩ := hagain hs₁ hroot₁ hres
        exact ⟨hs₂, Nat.le_trans hle hle₂, hr⟩
      · cases hres
        exact ⟨hs₁, hle, fun q hq => Option.some.inj hq ▸ hroot₁⟩
    | @value i v hi hkey =>
      dsimp only at hres
      split at hres
      · obtain ⟨h₁, hdel, hres⟩ := Option.bind_eq_some_iff.mp hres
        cases hres
        exact (slotted_handle_delete_layer hs hn hi hkey hdel).inOrder_none
          (Nat.le_of_eq (fresh_handle_delete_layer hdel).symm)
      · obtain ⟨n, hmark, hres⟩ := Option.bind_eq_some_iff.mp hres
        obtain ⟨hn', hslots⟩ := hn.markKeyRemoved hi hkey hmark
        have hfit := (hs.fits node).setSlot (i := i) (s := { (h.mem node).slot i with
          key_len := ((h.mem node).slot i).key_len + 9 }) ((hs.fits node).link i) ((hs.fits node).slice i)
        have hs₁ : Slotted none (h.set node { n with permutation := n.permutation.erase i }) := by
          refine hs.set ?_ (fun _ _ he => he) fun _ _ _ _ => hn'
          rw [hslots]
          exact ⟨hfit.child, hfit.parent, hfit.link, hfit.slice⟩
        split at hres
        · obtain ⟨⟨change₁, r₁, h₁⟩, hdel, hres⟩ := Option.bind_eq_some_iff.mp hres
          obtain ⟨hs₂, hr⟩ := slotted_delete_borderNode hs₁ hdel
          have hfresh := fresh_delete_borderNode hdel
          rw [Heap.fresh_set] at hfresh
          split at hres
          · cases hres
            exact ⟨hs₂, Nat.le_of_eq hfresh.symm, fun q hq => hfresh ▸ hr q hq⟩
          · cases hres
            exact hkept hs₂ hfresh
        · cases hres
          exact hkept hs₁ rfl

theorem slotted_remove : ∀ {fuel : Nat} {h h' : Heap V} {root : Ptr} {key : Key} {change : RootChange}
    {r : Option Ptr}, Slotted none h → root < h.fresh → key.Wf →
      remove fuel h root key = some (change, r, h') → InOrder h.fresh r h' := by
  intro fuel
  induction fuel with
  | zero => exact nofun
  | succ fuel ih =>
    intro h h' root key change r hs hroot hk hres
    obtain ⟨node, hfind, hres⟩ := Option.bind_eq_some_iff.mp hres
    obtain ⟨hnode, hborder⟩ := hs.findBorder hroot hfind
    exact slotted_removeForward hk (fun hs hlt hres => ih hs hlt hk hres) ih hs hroot hnode hborder hres

/-- The tree after any calls. -/
structure Masstree.InOrder (m : Masstree V) : Prop where
  slots : Slotted none m.heap
  root : ∀ q, m.root = some q → q < m.heap.fresh

theorem inOrder_new : (Masstree.new : Masstree V).InOrder where
  slots := ⟨fun _ => fits_newBorder 0, nofun⟩
  root := nofun

theorem Masstree.InOrder.insert_value {m m' : Masstree V} {key : Key} {value : V} {status : Status}
    (hm : m.InOrder) (hk : key.Wf) (hcur : key.cursor = 0)
    (hres : m.insert_value key value = some (status, m')) : m'.InOrder := by
  unfold Masstree.insert_value at hres
  split at hres
  · cases hres
    have hnode : start_new_tree key value = Node.single (slotFor key value) none := by
      rw [slotFor, hcur]
      rfl
    have hfit : (Node.single (slotFor key value) none).Fits (m.heap.fresh + 1) :=
      fits_single (slotFor_layer? hk value) (by rw [slotFor_key_slice hk]; exact Key.slice_lt hk)
    rw [hnode]
    refine ⟨hm.slots.alloc hfit (fun _ _ he => he) fun _ _ _ => ?_, ?_⟩
    · exact (borderAt_single (slotFor_live hk value) none).slots.classified
    · intro q hq
      exact Option.some.inj hq ▸ Nat.lt_succ_self _
  · rename_i old_root hroot
    have hlt := hm.root old_root hroot
    split at hres
    · cases hres
    · cases hres
    · rename_i hins
      cases hres
      obtain ⟨hs, hle, -⟩ := slotted_masstree_insert hm.slots hlt hk hins
      exact ⟨hs, fun q hq => Option.some.inj hq ▸ Nat.lt_of_lt_of_le hlt hle⟩
    · rename_i hins
      cases hres
      obtain ⟨hs, -, hr⟩ := slotted_masstree_insert hm.slots hlt hk hins
      exact ⟨hs, hr⟩

theorem Masstree.InOrder.remove_value {m m' : Masstree V} {key : Key} {status : Status}
    (hm : m.InOrder) (hk : key.Wf) (hres : m.remove_value key = some (status, m')) : m'.InOrder := by
  unfold Masstree.remove_value at hres
  split at hres
  · cases hres
    exact hm
  · rename_i old_root hroot
    have hlt := hm.root old_root hroot
    split at hres
    · cases hres
    · rename_i hrem
      cases hres
      obtain ⟨hs, hle, -⟩ := slotted_remove hm.slots hlt hk hrem
      exact ⟨hs, fun q hq => Option.some.inj hq ▸ Nat.lt_of_lt_of_le hlt hle⟩
    · rename_i hrem
      cases hres
      obtain ⟨hs, -, hr⟩ := slotted_remove hm.slots hlt hk hrem
      exact ⟨hs, hr⟩

theorem Masstree.InOrder.step {m m' : Masstree V} {c : Call V} (hm : m.InOrder) (hres : m.step c = some m') :
    m'.InOrder := by
  obtain ⟨⟨status, m''⟩, hcall, rfl⟩ := Option.map_eq_some_iff.mp hres
  unfold Masstree.call at hcall
  split at hcall
  · cases hcall
  · rename_i hkey
    cases c with
    | insert_value key value => exact hm.insert_value (Key.wf_ofString hkey) rfl hcall
    | remove_value key => exact hm.remove_value (Key.wf_ofString hkey) hcall

theorem inOrder_reach {m : Masstree V} (hreach : Reach Masstree.step (· = .new) anyStep m) : m.InOrder := by
  refine hreach.invariant ?_ ?_
  · rintro m rfl
    exact inOrder_new
  · exact fun m c m' hm _ hres => hm.step hres

/-- The length of a slot agrees with the permutation, and an insertion finds a slot that is not in use. -/
structure Node.SlotStates (n : Node V) : Prop where
  nodup : n.permutation.Nodup
  lt : ∀ i ∈ n.permutation, i < 15
  listed : ∀ i < 15, i ∈ n.permutation ↔
    1 ≤ (n.slot i).key_len ∧ (n.slot i).key_len ≤ 9 ∨ (n.slot i).key_len = key_len_layer
  unlisted : ∀ i < 15, i ∉ n.permutation ↔
    (n.slot i).key_len = 0 ∨ 10 ≤ (n.slot i).key_len ∧ (n.slot i).key_len ≤ 18
  suffix : ∀ i ∈ n.permutation, (n.slot i).suffix.isSome = true ↔ (n.slot i).key_len = key_len_has_suffix
  free : n.permutation.length < 15 → ∃ i, n.insertPoint = some i ∧ i < 15 ∧ i ∉ n.permutation
  kept : ∀ key value n', insert_to_border n key value = some n' → ∀ i ∈ n.permutation,
    i ∈ n'.permutation ∧ n'.slot i = n.slot i

theorem Slot.Live.suffix_iff {s : Slot V} (hs : s.Live) : s.suffix.isSome = true ↔ s.key_len = key_len_has_suffix := by
  cases hs with
  | @short len slice v hlen =>
    refine iff_of_false Bool.false_ne_true ?_
    change len ≠ 9
    omega
  | long v hne hsize hslices => exact iff_of_true rfl rfl
  | layer q => exact iff_of_false Bool.false_ne_true (by decide : key_len_layer ≠ key_len_has_suffix)

theorem Node.Classified.kept {n n' : Node V} (hn : n.Classified) {key : Key} {value : V}
    (hres : insert_to_border n key value = some n') : ∀ i ∈ n.permutation, i ∈ n'.permutation ∧ n'.slot i = n.slot i := by
  intro i hi
  unfold insert_to_border at hres
  split at hres
  · cases hres
  rename_i hfull
  obtain ⟨j, hpoint, -, hj⟩ := hn.exists_free (Nat.lt_of_le_of_ne hn.length_le hfull)
  rw [hpoint] at hres
  cases hres
  refine ⟨(Node.perm_insertIdx _ (Node.insertionPoint_le _)).mem_iff.mpr (List.mem_cons_of_mem _ hi), ?_⟩
  have hne : i ≠ j := fun he => hj (he ▸ hi)
  exact Node.setSlot_slot_of_ne _ hne

theorem Node.Classified.slotStates {n : Node V} (hn : n.Classified) : n.SlotStates where
  nodup := hn.nodup
  lt := hn.lt
  listed := by
    intro i hlt
    refine ⟨fun hi => (hn.live i hi).len, ?_⟩
    intro hlen
    by_contra hi
    have hfree := (hn.free i hlt hi).1
    change _ ∨ _ = 255 at hlen
    omega
  unlisted := by
    intro i hlt
    refine ⟨fun hi => (hn.free i hlt hi).1, ?_⟩
    intro hfree hi
    have hlen := (hn.live i hi).len
    omega
  suffix := fun i hi => (hn.live i hi).suffix_iff
  free := hn.exists_free
  kept := fun _ _ _ => hn.kept

theorem slot_states {m : Masstree V} (hreach : Reach Masstree.step (· = .new) anyStep m) {p : Ptr}
    (hp : p < m.heap.fresh) (hborder : (m.heap.mem p).is_border = true) (halive : (m.heap.mem p).deleted = false) :
    (m.heap.mem p).SlotStates :=
  ((inOrder_reach hreach).slots.classified hp hborder halive).slotStates

/-- A key with a suffix, a layer in its place, and a split. -/
theorem slot_states_split :
    ((Masstree.afterCalls (.insert_value (sharedKey 1) 1 :: .insert_value (sharedKey 2) 2 :: fifteen)).heap.mem
      0).SlotStates :=
  slot_states (reach_afterCalls (admits_anyStep _ _) (by decide +kernel)) (by decide +kernel) (by decide +kernel)
    (by decide +kernel)

end Cassa.Masstree

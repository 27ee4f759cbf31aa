import Cassa.Masstree.LayerLink

/-!
# A layer made and taken back

`handle_break_invariant` moves the suffix of one slot to a layer of its own, and
`handle_delete_layer_in_remove` moves the last key of a layer to the suffix of the slot above
it. Here both are compared at the nodes they change, for any memory around these: what a lookup
that has come to the border node finds before and after, and that the second undoes the first.
-/

namespace Cassa.Masstree

variable {V : Type} {h h' : Heap V}

/-- What `masstree_get` does at the border node it has come to. -/
def getAt (h : Heap V) (fuel : Nat) (node : Ptr) (key : Key) : Option (Option V) :=
  match (h.mem node).searchLinkOrValueWithIndex key with
  | (.NOTFOUND, _, _) => some none
  | (.VALUE, lv, _) => some lv.value?
  | (.LAYER, .link next_layer, _) => masstree_get h fuel next_layer key.next
  | _ => none

theorem masstree_get_at {fuel : Nat} {root node : Ptr} {key : Key} (hfind : findBorder h root key = some node)
    (halive : (h.mem node).deleted = false) : masstree_get h (fuel + 1) root key = getAt h fuel node key := by
  rw [masstree_get, hfind, Option.bind_eq_bind, Option.bind_some, if_neg (by simp [halive])]
  rfl

/-- Slots of one kind with one slice are one slot. -/
theorem Node.SlotsOk.index_unique {n : Node V} (hok : n.SlotsOk) {i j : Nat} (hi : i ∈ n.permutation)
    (hj : j ∈ n.permutation) (hid : (n.slot j).id = (n.slot i).id) : j = i :=
  List.inj_on_of_nodup_map hok.ids hj hi hid

/-- A slot for a key that goes on after its slice has a suffix. -/
theorem Slot.Live.id_of_rest {s : Slot V} (hs : s.Live) {key : Key} (hk : key.Wf) (hn : key.hasNext = true)
    {v : V} (hkey : s.key? = some (key.rest, v)) : s.id = (key.getCurrentSlice.slice, 9) := by
  rw [Key.rest_eq hk] at hkey
  have hne := (Key.hasNext_iff hk).mp hn
  cases hs with
  | short w hlen =>
    simp only [key?, Option.some.injEq, Prod.mk.injEq, List.cons.injEq] at hkey
    exact absurd hkey.1.1.2.symm hne
  | long w hne' hsize _ =>
    simp only [key?, Option.some.injEq, Prod.mk.injEq, List.cons.injEq] at hkey
    rw [← hkey.1.1.1]
    rfl
  | layer q => cases hkey

section

variable {node : Ptr} {i s : Nat} {key : Key}

/-- A key that goes on after the slice of a link is looked up in the layer below. -/
theorem getAt_link (hok : (h.mem node).SlotsOk) (hi : i ∈ (h.mem node).permutation) {q : Ptr}
    (hslot : (h.mem node).slot i = ⟨key_len_layer, s, .link q, none⟩) (hk : key.Wf) (hn : key.hasNext = true)
    (hs : key.getCurrentSlice.slice = s) (fuel : Nat) :
    getAt h fuel node key = masstree_get h fuel q key.next := by
  have hid : ((h.mem node).slot i).id = (s, 9) := by
    rw [hslot]
    rfl
  have hsearch := hok.classified.search_spec hk
  unfold getAt
  generalize (h.mem node).searchLinkOrValueWithIndex key = result at hsearch ⊢
  cases hsearch with
  | @value j v hj hkey =>
    have hji : j = i := by
      refine hok.index_unique hi hj ?_
      rw [(hok.live j hj).id_of_rest hk hn hkey, hid, hs]
    rw [hji, hslot] at hkey
    cases hkey
  | @layer j q' hj hlayer hslice hn' =>
    have hji : j = i := by
      refine hok.index_unique hi hj ?_
      rw [(hok.live j hj).id_of_layer hlayer, hid, hslice, hs]
    rw [hji, hslot] at hlayer
    obtain rfl := Option.some.inj hlayer
    rfl
  | notFound hkey hlayer =>
    have := hlayer hn i hi (by rw [hslot, hs])
    rw [hslot] at this
    cases this

/-- A key that goes on after the slice of a slot with a suffix is that slot's key or missing. -/
theorem getAt_suffix (hok : (h.mem node).SlotsOk) (hi : i ∈ (h.mem node).permutation)
    {suffix : BigSuffix} {v : V} (hslot : (h.mem node).slot i = ⟨key_len_has_suffix, s, .value v, some suffix⟩)
    (hk : key.Wf) (hn : key.hasNext = true) (hs : key.getCurrentSlice.slice = s) (fuel : Nat) :
    getAt h fuel node key =
      some (if key.rest = (s :: suffix.slices, suffix.lastSliceSize) then some v else none) := by
  have hid : ((h.mem node).slot i).id = (s, 9) := by
    rw [hslot]
    rfl
  have hkey_i : ((h.mem node).slot i).key? = some ((s :: suffix.slices, suffix.lastSliceSize), v) := by
    rw [hslot]
    rfl
  have hsearch := hok.classified.search_spec hk
  unfold getAt
  generalize (h.mem node).searchLinkOrValueWithIndex key = result at hsearch ⊢
  cases hsearch with
  | @value j v' hj hkey =>
    have hji : j = i := by
      refine hok.index_unique hi hj ?_
      rw [(hok.live j hj).id_of_rest hk hn hkey, hid, hs]
    rw [hji, hkey_i] at hkey
    obtain ⟨hrest, rfl⟩ := Prod.mk.inj (Option.some.inj hkey)
    rw [if_pos hrest.symm]
    rfl
  | @layer j q' hj hlayer hslice hn' =>
    have hji : j = i := by
      refine hok.index_unique hi hj ?_
      rw [(hok.live j hj).id_of_layer hlayer, hid, hslice, hs]
    rw [hji, hslot] at hlayer
    cases hlayer
  | notFound hkey hlayer =>
    rw [if_neg]
    intro hrest
    exact hkey i hi v (hrest ▸ hkey_i)

end

/-- A layer of one border node with one key holds this key alone. -/
theorem get_single {p : Ptr} {e : Slot V} {r : List Nat × Nat} {v : V}
    (hn : BorderAt (h.mem p) none [e]) (hroot : (h.mem p).is_root = true) (he : e.key? = some (r, v))
    {key : Key} (hk : key.Wf) (fuel : Nat) :
    masstree_get h (fuel + 1) p key = some (if key.rest = r then some v else none) := by
  have hfind : findBorder h p key = some p := by
    rw [findBorder, climb, if_pos hroot, Option.bind_some, descend, if_pos hn.border]
  rw [masstree_get_at hfind hn.alive]
  have hslot : ∀ j ∈ (h.mem p).permutation, (h.mem p).slot j = e := by
    intro j hj
    have hmem := hn.slot_mem hj
    exact List.mem_singleton.mp hmem
  have hsearch := hn.slots.classified.search_spec hk
  unfold getAt
  generalize (h.mem p).searchLinkOrValueWithIndex key = result at hsearch ⊢
  cases hsearch with
  | @value j v' hj hkey =>
    rw [hslot j hj, he] at hkey
    obtain ⟨rfl, rfl⟩ := Prod.mk.inj (Option.some.inj hkey)
    rw [if_pos rfl]
    rfl
  | @layer j q' hj hlayer hslice hn' =>
    rw [hslot j hj, Slot.Live.layer?_of_key? he] at hlayer
    cases hlayer
  | notFound hkey hlayer =>
    rw [if_neg]
    rintro rfl
    obtain ⟨j, hj, hje⟩ := hn.exists_index (List.mem_singleton_self e)
    exact hkey j hj v (hje ▸ he)

/-- A slot that a search passes over unless the key goes on after the slice `s`. -/
def Passed (s : Nat) (slot : Slot V) : Prop := slot.key_slice = s ∧ 9 ≤ slot.key_len

theorem passed_suffix (s : Nat) (lv : LinkOrValue V) (suffix : Option BigSuffix) :
    Passed s ⟨key_len_has_suffix, s, lv, suffix⟩ := ⟨rfl, Nat.le_refl 9⟩

theorem passed_link (s : Nat) (lv : LinkOrValue V) (suffix : Option BigSuffix) :
    Passed s ⟨key_len_layer, s, lv, suffix⟩ := ⟨rfl, (by decide : 9 ≤ key_len_layer)⟩

theorem Node.searchValue_setSlot {n : Node V} {i s : Nat} {slot : Slot V} (hold : Passed s (n.slot i))
    (hnew : Passed s slot) {current : SliceWithSize} (hsize : current.size ≤ 8) (l : List Nat) :
    (n.setSlot i slot).searchValue current l = n.searchValue current l := by
  induction l with
  | nil => rfl
  | cons j l ih =>
    rw [searchValue, searchValue, ih]
    by_cases hj : j = i
    · have hold' := hold.2
      have hnew' := hnew.2
      rw [hj, setSlot_slot_self, if_neg (fun hm => by omega), if_neg (fun hm => by omega)]
    · rw [setSlot_slot_of_ne _ hj]

theorem Node.searchLink_setSlot {n : Node V} {i s : Nat} {slot : Slot V} (hold : Passed s (n.slot i))
    (hnew : Passed s slot) {key : Key} (hs : key.getCurrentSlice.slice ≠ s) (l : List Nat) :
    (n.setSlot i slot).searchLink key l = n.searchLink key l := by
  induction l with
  | nil => rfl
  | cons j l ih =>
    rw [searchLink, searchLink, ih]
    by_cases hj : j = i
    · have hne : ∀ x, x = s → ¬ x = key.getCurrentSlice.slice := fun x hx he => hs (he.symm.trans hx)
      rw [hj, setSlot_slot_self, if_neg (hne _ hnew.1), if_neg (hne _ hold.1)]
    · rw [setSlot_slot_of_ne _ hj]

/-- A key without a further slice, or with another one, is found where it was. -/
theorem Node.search_setSlot {n : Node V} {i s : Nat} {slot : Slot V} (hold : Passed s (n.slot i))
    (hnew : Passed s slot) {key : Key} (hk : key.Wf) (hs : ¬ (key.hasNext = true ∧ key.getCurrentSlice.slice = s)) :
    (n.setSlot i slot).searchLinkOrValueWithIndex key = n.searchLinkOrValueWithIndex key := by
  unfold searchLinkOrValueWithIndex
  cases hn : key.hasNext with
  | true =>
    rw [if_pos rfl, if_pos rfl]
    exact searchLink_setSlot hold hnew (fun he => hs ⟨hn, he⟩) _
  | false =>
    have hsize : key.getCurrentSlice.size ≤ 8 := by
      rw [Key.size_eq hn]
      exact hk.size.2
    rw [if_neg Bool.false_ne_true, if_neg Bool.false_ne_true]
    exact searchValue_setSlot hold hnew hsize _

/-- A border node with a value under the slice `s` and a suffix in its slot `i`. -/
structure SuffixSlot (h : Heap V) (node : Ptr) (i s : Nat) (suffix : BigSuffix) (v : V) : Prop where
  allocated : node < h.fresh
  slots : (h.mem node).SlotsOk
  index : i ∈ (h.mem node).permutation
  slot : (h.mem node).slot i = ⟨key_len_has_suffix, s, .value v, some suffix⟩
  links : ∀ j ∈ (h.mem node).permutation, ∀ q, ((h.mem node).slot j).layer? = some q → q < h.fresh

/-- A layer root with one entry, the key `r` with the value `v`, below the slot `i` of `upper`. -/
structure LayerRoot (h : Heap V) (p upper : Ptr) (i s : Nat) (e : Slot V) (r : List Nat × Nat) (v : V) : Prop where
  node : BorderAt (h.mem p) none [e]
  root : (h.mem p).is_root = true
  upperLayer : (h.mem p).upperLayer = some upper
  key : e.key? = some (r, v)
  slice : e.key_slice < 2 ^ 64
  slots : (h.mem upper).SlotsOk
  index : i ∈ (h.mem upper).permutation
  slot : (h.mem upper).slot i = ⟨key_len_layer, s, .link p, none⟩
  only : ∀ j ∈ (h.mem upper).permutation, ((h.mem upper).slot j).layer? = some p → j = i

/-- Of the keys that go on after the slice `s` the node denotes `r` alone: a lookup that comes to
the node finds `v` for it and nothing for the others. -/
def Denotes (h : Heap V) (fuel : Nat) (node : Ptr) (s : Nat) (r : List Nat × Nat) (v : V) : Prop :=
  ∀ key : Key, key.Wf → key.hasNext = true → key.getCurrentSlice.slice = s →
    getAt h fuel node key = some (if key.rest = r then some v else none)

/-- The lookup of any other key does the same at the node as before. -/
def SameSearch (h h' : Heap V) (node : Ptr) (s : Nat) : Prop :=
  ∀ key : Key, key.Wf → ¬ (key.hasNext = true ∧ key.getCurrentSlice.slice = s) →
    (h'.mem node).searchLinkOrValueWithIndex key = (h.mem node).searchLinkOrValueWithIndex key

/-- What `handle_break_invariant` leaves. -/
structure Lowered (h h' : Heap V) (node n1 : Ptr) (i s : Nat) (suffix : BigSuffix) (v : V) : Prop where
  slot : (h'.mem node).slot i = ⟨key_len_layer, s, .link n1, none⟩
  layer : ∀ fuel (key : Key), key.Wf → masstree_get h' (fuel + 1) n1 key =
    some (if key.rest = (suffix.slices, suffix.lastSliceSize) then some v else none)
  found : ∀ fuel, Denotes h' (fuel + 1) node s (s :: suffix.slices, suffix.lastSliceSize) v
  others : SameSearch h h' node s
  frame : ∀ q, q ≠ node → q ≠ n1 → h'.mem q = h.mem q

/-- What `handle_delete_layer_in_remove` leaves. -/
structure Raised (h h' : Heap V) (p upper : Ptr) (i s : Nat) (r : List Nat × Nat) (v : V) : Prop where
  held : ∀ fuel (key : Key), key.Wf →
    masstree_get h (fuel + 1) p key = some (if key.rest = r then some v else none)
  slot : (h'.mem upper).slot i = ⟨key_len_has_suffix, s, .value v, some ⟨r.1, r.2⟩⟩
  before : ∀ fuel, Denotes h (fuel + 1) upper s (s :: r.1, r.2) v
  found : ∀ fuel, Denotes h' fuel upper s (s :: r.1, r.2) v
  others : SameSearch h h' upper s
  frame : ∀ q, q ≠ upper → q ≠ p → h'.mem q = h.mem q

/-- Through a link a node denotes what the layer below holds. -/
theorem denotes_link {node q : Ptr} {i s : Nat} {r : List Nat × Nat} {v : V} {fuel : Nat}
    (hok : (h.mem node).SlotsOk) (hi : i ∈ (h.mem node).permutation)
    (hslot : (h.mem node).slot i = ⟨key_len_layer, s, .link q, none⟩)
    (hlayer : ∀ key : Key, key.Wf → masstree_get h fuel q key = some (if key.rest = r then some v else none)) :
    Denotes h fuel node s (s :: r.1, r.2) v := by
  intro key hk hn hs
  rw [getAt_link hok hi hslot hk hn hs, hlayer _ (hk.next hn), Key.rest_next hk, hs]
  have hiff : key.next.rest = r ↔ (s :: key.next.rest.1, key.next.rest.2) = (s :: r.1, r.2) := by
    simp only [List.cons.injEq, true_and, Prod.ext_iff]
  simp only [hiff]

/-- The link to a layer is found in its upper node. -/
theorem LayerRoot.findNextLayerIndex {p upper : Ptr} {i s : Nat} {e : Slot V} {r : List Nat × Nat} {v : V}
    (hl : LayerRoot h p upper i s e r v) : (h.mem upper).findNextLayerIndex p = some i := by
  have hlink : ∀ j, ((h.mem upper).slot j).lv.isLink p = true → ((h.mem upper).slot j).layer? = some p := by
    intro j hj
    unfold Slot.layer?
    cases hq : ((h.mem upper).slot j).lv <;> simp_all [LinkOrValue.isLink]
  have hsome : ((h.mem upper).findNextLayerIndex p).isSome := by
    rw [Node.findNextLayerIndex, List.find?_isSome]
    exact ⟨i, List.mem_range.mpr (hl.slots.lt i hl.index), by rw [hl.slot]; simp [LinkOrValue.isLink]⟩
  obtain ⟨j, hj⟩ := Option.isSome_iff_exists.mp hsome
  have hisLink : ((h.mem upper).slot j).lv.isLink p = true := by
    have := List.find?_some hj
    exact this
  have hfound := hlink j hisLink
  have hperm : j ∈ (h.mem upper).permutation := by
    by_contra hnot
    have hfree := (hl.slots.free j (List.mem_range.mp (List.mem_of_find?_eq_some hj)) hnot).2
    rw [hfree] at hfound
    cases hfound
  rw [hj, hl.only j hperm hfound]

/-- The last key of a layer becomes the suffix of the slot above. -/
theorem LayerRoot.raise {p upper : Ptr} {i s : Nat} {e : Slot V} {r : List Nat × Nat} {v : V}
    (hl : LayerRoot h p upper i s e r v) :
    ∃ h', handle_delete_layer_in_remove h p = some h' ∧ Raised h h' p upper i s r v := by
  obtain ⟨j, hperm, hj⟩ : ∃ j, (h.mem p).permutation = [j] ∧ (h.mem p).slot j = e := by
    have := hl.node.entries
    rw [Node.entries, List.map_eq_singleton_iff] at this
    exact this
  have hlive : e.Live := hj ▸ hl.node.slots.live j (hperm ▸ List.mem_singleton_self j)
  obtain ⟨hsuffix, hrne, hrsize, hrslices⟩ := suffixFor_spec hlive hl.key
  have hne : upper ≠ p := by
    rintro rfl
    have hi := hl.index
    rw [hperm, List.mem_singleton] at hi
    have hkey := hl.key
    rw [← hj, ← hi, hl.slot] at hkey
    cases hkey
  set s' : Slot V := ⟨key_len_has_suffix, s, .value v, some ⟨r.1, r.2⟩⟩ with hs'
  set h' := (h.modify upper (·.setSlot i s')).modify p fun n =>
    { n.setSlot j { n.slot j with lv := .null, suffix := none } with deleted := true } with hh'
  have hdel : handle_delete_layer_in_remove h p = some h' := by
    simp only [handle_delete_layer_in_remove, hl.node.parent, hperm, hl.root, hl.upperLayer, List.headD_cons, hj,
      hsuffix, hl.findNextLayerIndex, hl.slot, Slot.lv_of_key? hl.key, guard, if_true, List.length_singleton,
      Option.bind_eq_bind, Option.bind_some, Option.pure_def, Heap.modify, hh', hs']
  have hat : h'.mem upper = (h.mem upper).setSlot i s' := by
    rw [hh', Heap.mem_modify_of_ne _ _ hne, Heap.mem_modify_self]
  have hslot : (h'.mem upper).slot i = s' := by rw [hat, Node.setSlot_slot_self]
  have hheld := fun fuel (key : Key) (hk : key.Wf) => get_single hl.node hl.root hl.key hk fuel
  have hlive' : s'.Live := .long v hrne hrsize (hrslices hl.slice)
  obtain ⟨hslots', -⟩ := hl.slots.replaceSlot hl.index hlive' (by rw [hl.slot]; rfl)
  rw [← hat] at hslots'
  have hindex' : i ∈ (h'.mem upper).permutation := by
    rw [hat]
    exact hl.index
  refine ⟨h', hdel, hheld, hslot, ?_, ?_, ?_, ?_⟩
  · intro fuel
    exact denotes_link hl.slots hl.index hl.slot (hheld fuel)
  · intro fuel key hk hn hs
    exact getAt_suffix hslots' hindex' hslot hk hn hs fuel
  · intro key hk hs
    rw [hat]
    exact Node.search_setSlot (hl.slot ▸ passed_link ..) (passed_suffix ..) hk hs
  · intro q hqu hqp
    rw [hh', Heap.mem_modify_of_ne _ _ hqp, Heap.mem_modify_of_ne _ _ hqu]

/-- The suffix of a slot becomes the only key of a new layer. -/
theorem SuffixSlot.lower {node : Ptr} {i s : Nat} {suffix : BigSuffix} {v : V}
    (hs : SuffixSlot h node i s suffix v) :
    ∃ h', handle_break_invariant h node i = some h' ∧ Lowered h h' node h.fresh i s suffix v ∧
      LayerRoot h' h.fresh node i s (downSlot (.value v) suffix) (suffix.slices, suffix.lastSliceSize) v := by
  obtain ⟨hne, hsize, hslices⟩ : suffix.slices ≠ [] ∧ (1 ≤ suffix.lastSliceSize ∧ suffix.lastSliceSize ≤ 8) ∧
      ∀ x ∈ suffix.slices, x < 2 ^ 64 := by
    have hlive := hs.slots.live i hs.index
    rw [hs.slot] at hlive
    cases hlive with
    | long v hne hsize hslices => exact ⟨hne, hsize, hslices⟩
  obtain ⟨hlive, hlt, hkey⟩ := downSlot_spec v hne hsize hslices
  set e := downSlot (.value v) suffix with he
  set s' : Slot V := ⟨key_len_layer, s, .link h.fresh, none⟩ with hs'
  set h' := (h.alloc (Node.single e (some node))).2.modify node (·.setSlot i s') with hh'
  have hbreak : handle_break_invariant h node i = some h' := by
    simp only [handle_break_invariant, hs.slot, if_true]
    rfl
  have hnode : node ≠ h.fresh := Nat.ne_of_lt hs.allocated
  have hnew : h'.mem h.fresh = Node.single e (some node) := by
    rw [hh', Heap.mem_modify_of_ne _ _ hnode.symm, mem_alloc, if_pos rfl]
  have hat : h'.mem node = (h.mem node).setSlot i s' := by
    rw [hh', Heap.mem_modify_self, mem_alloc, if_neg hnode]
  have hborder : BorderAt (h'.mem h.fresh) none [e] := hnew ▸ borderAt_single hlive (some node)
  have hroot : (h'.mem h.fresh).is_root = true := by
    rw [hnew]
    rfl
  have hslot : (h'.mem node).slot i = s' := by rw [hat, Node.setSlot_slot_self]
  obtain ⟨hslots', -⟩ := hs.slots.replaceSlot hs.index (show s'.Live from .layer _) (by rw [hs.slot]; rfl)
  rw [← hat] at hslots'
  have hindex' : i ∈ (h'.mem node).permutation := by
    rw [hat]
    exact hs.index
  have hheld := fun fuel (key : Key) (hk : key.Wf) => get_single hborder hroot hkey hk fuel
  refine ⟨h', hbreak, ⟨hslot, hheld, ?_, ?_, ?_⟩, hborder, hroot, ?_, hkey, hlt, hslots', hindex', hslot, ?_⟩
  · intro fuel
    exact denotes_link hslots' hindex' hslot (hheld fuel)
  · intro key hk hkey
    rw [hat]
    exact Node.search_setSlot (hs.slot ▸ passed_suffix ..) (passed_link ..) hk hkey
  · intro q hq hqn
    rw [hh', Heap.mem_modify_of_ne _ _ hq, mem_alloc, if_neg hqn]
  · rw [hnew]
    rfl
  · intro j hj hlink
    by_contra hji
    rw [hat] at hj hlink
    rw [Node.setSlot_slot_of_ne _ hji] at hlink
    exact absurd (hs.links j hj _ hlink) (Nat.lt_irrefl _)

/-- Layer creation and layer collapse: each keeps the keys under its slot, and the second
undoes the first. -/
theorem layer_created_and_collapsed {node : Ptr} {i s : Nat} {suffix : BigSuffix} {v : V}
    (hs : SuffixSlot h node i s suffix v) {h₁ : Heap V} {p upper : Ptr} {i₁ s₁ : Nat} {e : Slot V}
    {r : List Nat × Nat} {w : V} (hl : LayerRoot h₁ p upper i₁ s₁ e r w) :
    (∃ h', handle_break_invariant h node i = some h' ∧ Lowered h h' node h.fresh i s suffix v ∧
      ∃ h'', handle_delete_layer_in_remove h' h.fresh = some h'' ∧
        (h''.mem node).slot i = (h.mem node).slot i) ∧
    ∃ h', handle_delete_layer_in_remove h₁ p = some h' ∧ Raised h₁ h' p upper i₁ s₁ r w := by
  refine ⟨?_, hl.raise⟩
  obtain ⟨h', hbreak, hlowered, hlayer⟩ := hs.lower
  obtain ⟨h'', hdel, hraised⟩ := hlayer.raise
  refine ⟨h', hbreak, hlowered, h'', hdel, ?_⟩
  rw [hraised.slot, hs.slot]

/-- A border node with the key `5, 7` in its only slot, and the same key with a layer of its own. -/
def suffixHeap : Heap Nat :=
  ⟨fun _ => .single ⟨key_len_has_suffix, 5, .value 1, some ⟨[7], 3⟩⟩ none, 1⟩

def layerHeap : Heap Nat :=
  ⟨fun q => if q = 0 then .single ⟨key_len_layer, 5, .link 1, none⟩ none
    else .single ⟨3, 7, .value 1, none⟩ (some 0), 2⟩

theorem suffixSlot_suffixHeap : SuffixSlot suffixHeap 0 0 5 ⟨[7], 3⟩ 1 where
  allocated := Nat.zero_lt_one
  slots := (borderAt_single (.long 1 (by decide) (by decide) (by decide)) none).slots
  index := List.mem_singleton_self 0
  slot := rfl
  links := by
    intro j hj q hq
    obtain rfl := List.mem_singleton.mp hj
    cases hq

theorem layerRoot_layerHeap : LayerRoot layerHeap 1 0 0 5 ⟨3, 7, .value 1, none⟩ ([7], 3) 1 where
  node := borderAt_single (.short 1 (by decide)) (some 0)
  root := rfl
  upperLayer := rfl
  key := rfl
  slice := by decide
  slots := (borderAt_single (.layer 1) none).slots
  index := List.mem_singleton_self 0
  slot := rfl
  only := fun _ hj _ => List.mem_singleton.mp hj

theorem layer_created_and_collapsed_one_slice :
    (∃ h', handle_break_invariant suffixHeap 0 0 = some h' ∧ Lowered suffixHeap h' 0 1 0 5 ⟨[7], 3⟩ 1 ∧
      ∃ h'', handle_delete_layer_in_remove h' 1 = some h'' ∧
        (h''.mem 0).slot 0 = (suffixHeap.mem 0).slot 0) ∧
    ∃ h', handle_delete_layer_in_remove layerHeap 1 = some h' ∧ Raised layerHeap h' 1 0 0 5 ([7], 3) 1 :=
  layer_created_and_collapsed suffixSlot_suffixHeap layerRoot_layerHeap

end Cassa.Masstree

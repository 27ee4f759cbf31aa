import Cassa.Masstree.Shape

/-!
# Changes of one leaf

What the operations do to the slots of a border node, as changes of the list of its
entries: a slot is replaced by another one of the same kind, taken out, or added.
-/

namespace Cassa.Masstree

open Cassa.Lib.SearchTree

variable {V : Type} {h h' : Heap V}

section

variable {n : Node V} {par : Option Ptr} {es : List (Slot V)} {i : Nat}

theorem BorderAt.slot_mem (hn : BorderAt n par es) (hi : i ∈ n.permutation) : n.slot i ∈ es := by
  rw [← hn.entries]
  exact List.mem_map_of_mem hi

theorem BorderAt.exists_index (hn : BorderAt n par es) {s : Slot V} (hs : s ∈ es) :
    ∃ i ∈ n.permutation, n.slot i = s := by
  rw [← hn.entries] at hs
  exact List.mem_map.mp hs

/-- Different indices hold different slots. -/
theorem BorderAt.slot_ne (hn : BorderAt n par es) (hi : i ∈ n.permutation) {j : Nat}
    (hj : j ∈ n.permutation) (hne : j ≠ i) : n.slot j ≠ n.slot i := by
  intro he
  exact hne (List.inj_on_of_nodup_map hn.slots.ids hj hi (congrArg Slot.id he))

theorem Node.Classified.replaceSlot (hn : n.Classified) (hi : i ∈ n.permutation) {s' : Slot V} (hs' : s'.Live) :
    (n.setSlot i s').Classified := by
  refine ⟨hn.nodup, hn.lt, ?_, ?_⟩
  · intro j hj
    by_cases hji : j = i
    · rw [hji, Node.setSlot_slot_self]
      exact hs'
    · rw [Node.setSlot_slot_of_ne s' hji]
      exact hn.live j hj
  · intro j hj hnot
    have hne : j ≠ i := fun he => hnot (he ▸ hi)
    rw [Node.setSlot_slot_of_ne s' hne]
    exact hn.free j hj hnot

/-- Another slot of the same slice and kind. -/
theorem Node.SlotsOk.replaceSlot (hn : n.SlotsOk) (hi : i ∈ n.permutation) {s' : Slot V} (hs' : s'.Live)
    (hid : s'.id = (n.slot i).id) :
    (n.setSlot i s').SlotsOk ∧ ∀ j, ((n.setSlot i s').slot j).id = (n.slot j).id := by
  have hslot : ∀ j, j ≠ i → (n.setSlot i s').slot j = n.slot j := fun j hj => Node.setSlot_slot_of_ne s' hj
  have hself : (n.setSlot i s').slot i = s' := Node.setSlot_slot_self i s'
  have hids : ∀ j, ((n.setSlot i s').slot j).id = (n.slot j).id := by
    intro j
    by_cases hj : j = i
    · rw [hj, hself, hid]
    · rw [hslot j hj]
  refine ⟨(hn.classified.replaceSlot hi hs').slotsOk ?_, hids⟩
  have : ((n.setSlot i s').permutation.map fun j => ((n.setSlot i s').slot j).id) =
      n.permutation.map fun j => (n.slot j).id := List.map_congr_left fun j _ => hids j
  rw [this]
  exact hn.ids

theorem BorderAt.replaceSlot (hn : BorderAt n par es) (hi : i ∈ n.permutation) {s' : Slot V} (hs' : s'.Live)
    (hid : s'.id = (n.slot i).id) :
    ∃ es', BorderAt (n.setSlot i s') par es' ∧ es'.map Slot.key_slice = es.map Slot.key_slice ∧
      ∀ s, s ∈ es' ↔ s = s' ∨ s ∈ es ∧ s ≠ n.slot i := by
  have hslot : ∀ j, j ≠ i → (n.setSlot i s').slot j = n.slot j := fun j hj => Node.setSlot_slot_of_ne s' hj
  have hself : (n.setSlot i s').slot i = s' := Node.setSlot_slot_self i s'
  obtain ⟨hslots, hids⟩ := hn.slots.replaceSlot hi hs' hid
  refine ⟨(n.setSlot i s').entries, ⟨hn.border, hn.alive, hn.parent, hslots, rfl⟩, ?_, ?_⟩
  · rw [← hn.entries, Node.entries, Node.entries, List.map_map, List.map_map]
    exact List.map_congr_left fun j _ => congrArg Prod.fst (hids j)
  · intro s
    rw [← hn.entries, Node.entries, Node.entries, List.mem_map, List.mem_map]
    constructor
    · rintro ⟨j, hj, rfl⟩
      by_cases hji : j = i
      · rw [hji, hself]
        exact Or.inl rfl
      · rw [hslot j hji]
        exact Or.inr ⟨⟨j, hj, rfl⟩, hn.slot_ne hi hj hji⟩
    · rintro (rfl | ⟨⟨j, hj, rfl⟩, hne⟩)
      · exact ⟨i, hi, hself⟩
      · exact ⟨j, hj, hslot j fun he => hne (he ▸ rfl)⟩

theorem Slot.Live.markKeyRemoved {s : Slot V} {r : (List Nat × Nat) × V} (hs : s.Live)
    (hr : s.key? = some r) : 1 ≤ s.key_len ∧ s.key_len ≤ key_len_has_suffix := by
  cases hs with
  | short v hlen => exact ⟨hlen.1, Nat.le_succ_of_le hlen.2⟩
  | long v hne hsize hslices => exact ⟨(by decide : 1 ≤ key_len_has_suffix), Nat.le_refl _⟩
  | layer q => cases hr

theorem Node.Classified.removeSlot (hn : n.Classified) (hi : i ∈ n.permutation) {r : (List Nat × Nat) × V}
    (hr : (n.slot i).key? = some r) :
    ({ n.setKeyLen i ((n.slot i).key_len + 9) with permutation := n.permutation.erase i } : Node V).Classified := by
  have hlen := (hn.live i hi).markKeyRemoved hr
  have hslot : ∀ j, j ≠ i → (n.setKeyLen i ((n.slot i).key_len + 9)).slot j = n.slot j :=
    fun j hj => Node.setSlot_slot_of_ne _ hj
  have hself : (n.setKeyLen i ((n.slot i).key_len + 9)).slot i =
      { n.slot i with key_len := (n.slot i).key_len + 9 } := Node.setSlot_slot_self i _
  refine ⟨hn.nodup.erase i, fun j hj => hn.lt j (List.mem_of_mem_erase hj), ?_, ?_⟩
  · intro j hj
    obtain ⟨hji, hmem⟩ := (List.Nodup.mem_erase_iff hn.nodup).mp hj
    change ((n.setKeyLen i ((n.slot i).key_len + 9)).slot j).Live
    rw [hslot j hji]
    exact hn.live j hmem
  · intro j hj hnot
    change (((n.setKeyLen i ((n.slot i).key_len + 9)).slot j).key_len = 0 ∨ _) ∧
      ((n.setKeyLen i ((n.slot i).key_len + 9)).slot j).layer? = none
    by_cases hji : j = i
    · rw [hji, hself]
      have hlayer : (n.slot i).layer? = none := Slot.Live.layer?_of_key? hr
      refine ⟨Or.inr ⟨Nat.add_le_add_right hlen.1 9, ?_⟩, hlayer⟩
      exact Nat.add_le_add_right hlen.2 9
    · rw [hslot j hji]
      exact hn.free j hj fun hmem => hnot ((List.Nodup.mem_erase_iff hn.nodup).mpr ⟨hji, hmem⟩)

/-- The slot of a key taken out. -/
theorem BorderAt.removeSlot (hn : BorderAt n par es) (hi : i ∈ n.permutation) {r : (List Nat × Nat) × V}
    (hr : (n.slot i).key? = some r) :
    ∃ es' n', n.markKeyRemoved i = some n' ∧
      BorderAt { n' with permutation := n'.permutation.erase i } par es' ∧ n'.permutation = n.permutation ∧
      n'.is_root = n.is_root ∧ n'.parent = n.parent ∧ n'.next = n.next ∧ n'.prev = n.prev ∧
      n'.upperLayer = n.upperLayer ∧ es'.Sublist es ∧ ∀ s, s ∈ es' ↔ s ∈ es ∧ s ≠ n.slot i := by
  have hlen := (hn.slots.live i hi).markKeyRemoved hr
  have hmark : n.markKeyRemoved i = some (n.setKeyLen i ((n.slot i).key_len + 9)) := if_pos hlen
  have hslot : ∀ j, j ≠ i → (n.setKeyLen i ((n.slot i).key_len + 9)).slot j = n.slot j :=
    fun j hj => Node.setSlot_slot_of_ne _ hj
  have hne : ∀ j ∈ n.permutation.erase i, j ≠ i := by
    intro j hj he
    exact (List.Nodup.mem_erase_iff hn.slots.nodup).mp hj |>.1 he
  have hentries : (n.permutation.erase i).map (n.setKeyLen i ((n.slot i).key_len + 9)).slot =
      (n.permutation.erase i).map n.slot :=
    List.map_congr_left fun j hj => hslot j (hne j hj)
  refine ⟨(n.permutation.erase i).map n.slot, _, hmark, ⟨hn.border, hn.alive, hn.parent, ?_, hentries⟩, rfl, rfl,
    rfl, rfl, rfl, rfl, ?_, ?_⟩
  · refine (hn.slots.classified.removeSlot hi hr).slotsOk ?_
    have : ((n.permutation.erase i).map fun j => ((n.setKeyLen i ((n.slot i).key_len + 9)).slot j).id) =
        (n.permutation.erase i).map fun j => (n.slot j).id :=
      List.map_congr_left fun j hj => by rw [hslot j (hne j hj)]
    change ((n.permutation.erase i).map fun j => ((n.setKeyLen i ((n.slot i).key_len + 9)).slot j).id).Nodup
    rw [this]
    exact hn.slots.ids.sublist (List.erase_sublist.map _)
  · rw [← hn.entries]
    exact List.erase_sublist.map _
  · intro s
    rw [← hn.entries, Node.entries, List.mem_map, List.mem_map]
    constructor
    · rintro ⟨j, hj, rfl⟩
      exact ⟨⟨j, List.mem_of_mem_erase hj, rfl⟩, hn.slot_ne hi (List.mem_of_mem_erase hj) (hne j hj)⟩
    · rintro ⟨⟨j, hj, rfl⟩, hne'⟩
      refine ⟨j, (List.Nodup.mem_erase_iff hn.slots.nodup).mpr ⟨fun he => hne' (he ▸ rfl), hj⟩, rfl⟩

end

/-- The interval of a leaf depends on the slices only. -/
theorem wf_leaf_congr {p : Ptr} {es es' : List (Slot V)} {a b : Nat}
    (hmap : es'.map Slot.key_slice = es.map Slot.key_slice)
    (hwf : (BTree.leaf p es).Wf Slot.key_slice 15 a b) : (BTree.leaf p es').Wf Slot.key_slice 15 a b := by
  obtain ⟨hne, hcap, hsort, hrange⟩ := BTree.wf_leaf.mp hwf
  have hlen : es'.length = es.length := by simpa using congrArg List.length hmap
  refine BTree.wf_leaf.mpr ⟨?_, by omega, ?_, ?_⟩
  · rw [← List.length_pos_iff] at hne ⊢
    omega
  · rw [← List.pairwise_map (R := fun a b => a ≤ b)] at hsort ⊢
    rw [hmap]
    exact hsort
  · intro e he
    have : e.key_slice ∈ es.map Slot.key_slice := hmap ▸ List.mem_map_of_mem he
    obtain ⟨e', he', heq⟩ := List.mem_map.mp this
    rw [← heq]
    exact hrange e' he'

theorem wf_leaf_sublist {p : Ptr} {es es' : List (Slot V)} {a b : Nat} (hsub : es'.Sublist es)
    (hne : es' ≠ []) (hwf : (BTree.leaf p es).Wf Slot.key_slice 15 a b) :
    (BTree.leaf p es').Wf Slot.key_slice 15 a b := by
  obtain ⟨-, hcap, hsort, hrange⟩ := BTree.wf_leaf.mp hwf
  exact BTree.wf_leaf.mpr ⟨hne, Nat.le_trans hsub.length_le hcap, hsort.sublist hsub,
    fun e he => hrange e (hsub.subset he)⟩

/-- The slot is in a leaf of the list. -/
def InLeaves (ls : List (Ptr × List (Slot V))) (p : Ptr) (s : Slot V) : Prop :=
  ∃ es, (p, es) ∈ ls ∧ s ∈ es

theorem inLeaves_append {ls ls' : List (Ptr × List (Slot V))} {p : Ptr} {s : Slot V} :
    InLeaves (ls ++ ls') p s ↔ InLeaves ls p s ∨ InLeaves ls' p s := by
  simp only [InLeaves, List.mem_append]
  constructor
  · rintro ⟨es, hl | hl, hs⟩
    · exact Or.inl ⟨es, hl, hs⟩
    · exact Or.inr ⟨es, hl, hs⟩
  · rintro (⟨es, hl, hs⟩ | ⟨es, hl, hs⟩)
    · exact ⟨es, Or.inl hl, hs⟩
    · exact ⟨es, Or.inr hl, hs⟩

theorem inLeaves_cons {ls : List (Ptr × List (Slot V))} {q p : Ptr} {es : List (Slot V)} {s : Slot V} :
    InLeaves ((q, es) :: ls) p s ↔ p = q ∧ s ∈ es ∨ InLeaves ls p s := by
  simp only [InLeaves, List.mem_cons, Prod.mk.injEq]
  constructor
  · rintro ⟨es', ⟨rfl, rfl⟩ | hl, hs⟩
    · exact Or.inl ⟨rfl, hs⟩
    · exact Or.inr ⟨es', hl, hs⟩
  · rintro (⟨rfl, hs⟩ | ⟨es', hl, hs⟩)
    · exact ⟨es, Or.inl ⟨rfl, rfl⟩, hs⟩
    · exact ⟨es', Or.inr hl, hs⟩

theorem listed_iff {sh : Shape V} {π : List Nat} {t : Layer V} (ht : sh π = some t) {p : Ptr} {s : Slot V} :
    Listed sh π p s ↔ InLeaves t.leaves p s := by
  constructor
  · rintro ⟨t', es, ht', hl, hs⟩
    obtain rfl := Option.some.inj (ht.symm.trans ht')
    exact ⟨es, hl, hs⟩
  · rintro ⟨es, hl, hs⟩
    exact ⟨t, es, ht, hl, hs⟩

theorem listed_congr {sh sh' : Shape V} {π : List Nat} (he : sh' π = sh π) {p : Ptr} {s : Slot V} :
    Listed sh' π p s ↔ Listed sh π p s := by
  unfold Listed
  rw [he]

section

variable {sh sh' : Shape V} {π : List Nat}

/-- New addresses in one layer at most. -/
theorem ShapeOk.disjoint_of (hok : ShapeOk h sh)
    (hptrs : ∀ ρ t' q, sh' ρ = some t' → q ∈ t'.ptrs →
      (∃ t, sh ρ = some t ∧ q ∈ t.ptrs) ∨ h.fresh ≤ q ∧ ρ = π) :
    ∀ ρ ρ' t t' q, sh' ρ = some t → sh' ρ' = some t' → q ∈ t.ptrs → q ∈ t'.ptrs → ρ = ρ' := by
  intro ρ ρ' t t' q ht ht' hq hq'
  rcases hptrs ρ t q ht hq with ⟨t₁, ht₁, hq₁⟩ | ⟨hge, rfl⟩
  · rcases hptrs ρ' t' q ht' hq' with ⟨t₂, ht₂, hq₂⟩ | ⟨hge, -⟩
    · exact hok.disjoint ρ ρ' t₁ t₂ q ht₁ ht₂ hq₁ hq₂
    · have := (hok.layer ρ t₁ ht₁).lt q hq₁
      omega
  · rcases hptrs ρ' t' q ht' hq' with ⟨t₂, ht₂, hq₂⟩ | ⟨-, rfl⟩
    · have := (hok.layer ρ' t₂ ht₂).lt q hq₂
      omega
    · rfl

/-- The links stay, though their slots may be in other nodes of the layer. -/
theorem ShapeOk.of_links (hok : ShapeOk h sh) (hlayer : ∀ ρ t, sh' ρ = some t → LayerOk h' t)
    (hptrs : ∀ ρ t' q, sh' ρ = some t' → q ∈ t'.ptrs →
      (∃ t, sh ρ = some t ∧ q ∈ t.ptrs) ∨ h.fresh ≤ q ∧ ρ = π)
    (hroots : ∀ ρ x, (sh' (ρ ++ [x])).map BTree.root = (sh (ρ ++ [x])).map BTree.root)
    (htop : ∀ t, sh' [] = some t → (h'.mem t.root).upperLayer = none)
    (hdown : ∀ ρ p' s q, Listed sh' ρ p' s → s.layer? = some q →
      ∃ p, Listed sh ρ p s ∧ (p' = p ∧ (h'.mem q).upperLayer = (h.mem q).upperLayer ∨
        (h'.mem q).upperLayer = some p'))
    (hup : ∀ ρ p s, Listed sh ρ p s → s.layer? ≠ none → ∃ p', Listed sh' ρ p' s) : ShapeOk h' sh' := by
  refine ⟨hlayer, hok.disjoint_of hptrs, htop, ?_, ?_⟩
  · intro ρ p' s q hs hq
    obtain ⟨p, hs₀, hupper⟩ := hdown ρ p' s q hs hq
    obtain ⟨t, ht, rfl, hu⟩ := hok.down ρ p s q hs₀ hq
    have hroot := hroots ρ s.key_slice
    rw [ht, Option.map_some, Option.map_eq_some_iff] at hroot
    obtain ⟨t', ht', hr⟩ := hroot
    refine ⟨t', ht', hr, ?_⟩
    rcases hupper with ⟨rfl, he⟩ | he
    · rw [he, hu]
    · exact he
  · intro ρ x t' ht'
    have hroot := hroots ρ x
    rw [ht', Option.map_some] at hroot
    obtain ⟨t, ht, hr⟩ := Option.map_eq_some_iff.mp hroot.symm
    obtain ⟨p, s, hs, hx, hlayer'⟩ := hok.up ρ x t ht
    obtain ⟨p', hs'⟩ := hup ρ p s hs (by rw [hlayer']; exact Option.some_ne_none _)
    exact ⟨p', s, hs', hx, by rw [hlayer', hr]⟩

/-- The layers that an operation does not touch. -/
theorem ShapeOk.frame_layer (hok : ShapeOk h sh) {ρ : List Nat} {t₀ t : Layer V} (ht₀ : sh π = some t₀)
    (ht : sh ρ = some t) (hne : ρ ≠ π) (hfresh : h.fresh ≤ h'.fresh)
    (hsame : ∀ q < h.fresh, q ∉ t₀.ptrs → (h.mem q).Alike (h'.mem q) ∧
      (h'.mem q).parent = (h.mem q).parent ∧ (h'.mem q).is_root = (h.mem q).is_root ∧
      (h'.mem q).prev = (h.mem q).prev ∧ (h'.mem q).next = (h.mem q).next) : LayerOk h' t := by
  refine (hok.layer ρ t ht).frame hfresh ?_
  intro q hq
  exact hsame q ((hok.layer ρ t ht).lt q hq) fun hq₀ => hne (hok.disjoint ρ π t t₀ q ht ht₀ hq hq₀)

end

section

variable {sh sh' : Shape V} {π : List Nat} {key : Key} {value v : V} {K : List Nat × Nat}

/-- The keys depend on the slots, not on the nodes that hold them. -/
theorem holds_iff : Holds sh K v ↔ ∃ ρ s r, (∃ p, Listed sh ρ p s) ∧ s.key? = some (r, v) ∧
    K = (ρ ++ r.1, r.2) := by
  constructor
  · rintro ⟨ρ, p, s, r, hs, hr, hK⟩
    exact ⟨ρ, s, r, ⟨p, hs⟩, hr, hK⟩
  · rintro ⟨ρ, s, r, ⟨p, hs⟩, hr, hK⟩
    exact ⟨ρ, p, s, r, hs, hr, hK⟩

theorem Key.At.whole_rest (hk : key.At π) :
    (key.slices, key.lastSliceSize) = (π ++ key.rest.1, key.rest.2) := by
  rw [hk.whole, Key.rest_eq hk.wf]

/-- One slot more is one key more. -/
theorem holds_insert (hk : key.At π) (hslots : ∀ ρ s, s.key? ≠ none →
    ((∃ p, Listed sh' ρ p s) ↔ (∃ p, Listed sh ρ p s) ∨ ρ = π ∧ s = slotFor key value)) :
    Holds sh' K v ↔ Holds sh K v ∨ K = (key.slices, key.lastSliceSize) ∧ v = value := by
  have hnew := slotFor_key? hk.wf value
  rw [holds_iff, holds_iff, hk.whole_rest]
  constructor
  · rintro ⟨ρ, s, r, hs, hr, hK⟩
    rcases (hslots ρ s (by rw [hr]; exact Option.some_ne_none _)).mp hs with hs | ⟨rfl, rfl⟩
    · exact Or.inl ⟨ρ, s, r, hs, hr, hK⟩
    · rw [hnew, Option.some.injEq, Prod.mk.injEq] at hr
      obtain ⟨rfl, rfl⟩ := hr
      exact Or.inr ⟨hK, rfl⟩
  · rintro (⟨ρ, s, r, hs, hr, hK⟩ | ⟨hK, rfl⟩)
    · exact ⟨ρ, s, r, (hslots ρ s (by rw [hr]; exact Option.some_ne_none _)).mpr (Or.inl hs), hr, hK⟩
    · exact ⟨π, _, key.rest, (hslots π _ (by rw [hnew]; exact Option.some_ne_none _)).mpr
        (Or.inr ⟨rfl, rfl⟩), hnew, hK⟩

end

/-- The key `K` was inserted in the layer `π` or below it; the root of `π` is `root`. -/
structure Inserted (h' : Heap V) (sh sh' : Shape V) (π : List Nat) (root : Ptr) (K : List Nat × Nat)
    (value : V) : Prop where
  ok : ShapeOk h' sh'
  keys : ∀ K' v, Holds sh' K' v ↔ Holds sh K' v ∨ K' = K ∧ v = value
  above : ∀ ρ, ρ.length < π.length → (sh' ρ).map BTree.root = (sh ρ).map BTree.root
  root : (sh' π).map BTree.root = some root

section

variable {sh : Shape V} {π : List Nat} {key : Key} {fs : List (Frame (Slot V))} {p : Ptr}
  {es es' : List (Slot V)} {a b : Nat} {n' : Node V}

/-- The slots of the layer with another leaf in the place of `p`. -/
theorem inLeaves_plug {p' : Ptr} {s : Slot V} : InLeaves (plug fs (.leaf p es)).leaves p' s ↔
    p' = p ∧ s ∈ es ∨ InLeaves (leftLeaves fs ++ rightLeaves fs) p' s := by
  rw [leaves_plug, BTree.leaves_leaf, List.append_assoc, List.singleton_append, inLeaves_append,
    inLeaves_cons, inLeaves_append]
  tauto

theorem Place.mem_ptrs : p ∈ (plug fs (.leaf p es)).ptrs := (ptrs_plug fs (.leaf p es)).mem_iff.mpr (by simp)

theorem Place.ptrs_iff {q : Ptr} : q ∈ (plug fs (.leaf p es')).ptrs ↔ q ∈ (plug fs (.leaf p es)).ptrs := by
  rw [(ptrs_plug fs (.leaf p es')).mem_iff, (ptrs_plug fs (.leaf p es)).mem_iff, BTree.ptrs_leaf, BTree.ptrs_leaf]

/-- The store of a node that differs in its slots. The links among the slots stay. -/
theorem Place.setLeaf (hok : ShapeOk h sh) (hp : Place sh π key fs p es a b)
    (hn : BorderAt n' (h.mem p).parent es') (hwf : (BTree.leaf p es').Wf Slot.key_slice 15 a b)
    (hroot : n'.is_root = (h.mem p).is_root) (hnext : n'.next = (h.mem p).next)
    (hprev : n'.prev = (h.mem p).prev) (hupper : n'.upperLayer = (h.mem p).upperLayer)
    (hlinks : ∀ s : Slot V, s.layer? ≠ none → (s ∈ es' ↔ s ∈ es)) :
    ShapeOk (h.set p n') (Function.update sh π (some (plug fs (.leaf p es')))) := by
  have hother : ∀ q, q ≠ p → (h.set p n').mem q = h.mem q := fun q hq => Heap.mem_set_of_ne _ _ hq
  have hupper' : ∀ q, ((h.set p n').mem q).upperLayer = (h.mem q).upperLayer := by
    intro q
    rw [mem_set]
    split
    · rename_i hq
      rw [hq, hupper]
    · rfl
  have hself : Function.update sh π (some (plug fs (.leaf p es'))) π = some (plug fs (.leaf p es')) :=
    Function.update_self ..
  have hne : ∀ ρ, ρ ≠ π → Function.update sh π (some (plug fs (.leaf p es'))) ρ = sh ρ :=
    fun ρ hρ => Function.update_of_ne hρ ..
  have hrooteq : (plug fs (.leaf p es')).root = (plug fs (.leaf p es)).root := root_plug_congr rfl
  have hmap : ∀ ρ, (Function.update sh π (some (plug fs (.leaf p es'))) ρ).map BTree.root =
      (sh ρ).map BTree.root := by
    intro ρ
    by_cases hρ : ρ = π
    · rw [hρ, hself, hp.shape, Option.map_some, Option.map_some, hrooteq]
    · rw [hne ρ hρ]
  have hlisted : ∀ ρ p' s, s.layer? ≠ none →
      (Listed (Function.update sh π (some (plug fs (.leaf p es')))) ρ p' s ↔ Listed sh ρ p' s) := by
    intro ρ p' s hs
    by_cases hρ : ρ = π
    · rw [hρ, listed_iff hself, listed_iff hp.shape, inLeaves_plug, inLeaves_plug, hlinks s hs]
    · exact listed_congr (hne ρ hρ)
  refine hok.of_links (π := π) ?_ ?_ (fun ρ x => hmap _) ?_ ?_ ?_
  · intro ρ t ht
    by_cases hρ : ρ = π
    · rw [hρ, hself, Option.some.injEq] at ht
      rw [← ht]
      refine (hp.layerOk hok).replaceLeaf hp.ctx hwf (Nat.le_refl _) (fun q _ => hother q) ?_ ?_ ?_ ?_
      all_goals rw [Heap.mem_set_self]
      · exact hn
      · exact hroot
      · exact hnext
      · exact hprev
    · rw [hne ρ hρ] at ht
      refine hok.frame_layer hp.shape ht hρ (Nat.le_refl _) ?_
      intro q _ hq
      rw [hother q fun he => hq (he ▸ Place.mem_ptrs)]
      exact ⟨.refl _, rfl, rfl, rfl, rfl⟩
  · intro ρ t q ht hq
    left
    by_cases hρ : ρ = π
    · rw [hρ, hself, Option.some.injEq] at ht
      rw [← ht] at hq
      exact ⟨_, hρ ▸ hp.shape, Place.ptrs_iff.mp hq⟩
    · rw [hne ρ hρ] at ht
      exact ⟨t, ht, hq⟩
  · intro t ht
    have hroot := hmap []
    rw [ht, Option.map_some] at hroot
    obtain ⟨t₀, ht₀, hr⟩ := Option.map_eq_some_iff.mp hroot.symm
    rw [hupper', ← hr]
    exact hok.top t₀ ht₀
  · intro ρ p' s q hs hq
    exact ⟨p', (hlisted ρ p' s (by rw [hq]; exact Option.some_ne_none _)).mp hs, Or.inl ⟨rfl, hupper' q⟩⟩
  · intro ρ p' s hs hq
    exact ⟨p', (hlisted ρ p' s hq).mpr hs⟩

end

end Cassa.Masstree

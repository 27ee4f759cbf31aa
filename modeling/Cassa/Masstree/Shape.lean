import Mathlib.Data.List.Induction
import Cassa.Masstree.Shrink

/-!
# The layers of a tree

A layer is named by the slices above it: layer 0 by the empty list, and the layer that a
slot links to by the name of its own layer and the slice of the slot. `ShapeOk` says that
every layer is in memory, that no two share a node, and that links and `upperLayer` are
tied. A key is in the tree when the slices of a layer and of a slot there add up to it;
`masstree_get` finds just these keys.
-/

namespace Cassa.Masstree

open Cassa.Lib.SearchTree

variable {V : Type} {h h' : Heap V}

abbrev Shape (V : Type) := List Nat → Option (Layer V)

/-- The slot is listed in the border node `p` of the layer `π`. -/
def Listed (sh : Shape V) (π : List Nat) (p : Ptr) (s : Slot V) : Prop :=
  ∃ t es, sh π = some t ∧ (p, es) ∈ t.leaves ∧ s ∈ es

structure ShapeOk (h : Heap V) (sh : Shape V) : Prop where
  layer : ∀ π t, sh π = some t → LayerOk h t
  disjoint : ∀ π π' t t' q, sh π = some t → sh π' = some t' → q ∈ t.ptrs → q ∈ t'.ptrs → π = π'
  top : ∀ t, sh [] = some t → (h.mem t.root).upperLayer = none
  down : ∀ π p s q, Listed sh π p s → s.layer? = some q →
    ∃ t, sh (π ++ [s.key_slice]) = some t ∧ t.root = q ∧ (h.mem q).upperLayer = some p
  up : ∀ π x t, sh (π ++ [x]) = some t → ∃ p s, Listed sh π p s ∧ s.key_slice = x ∧
    s.layer? = some t.root

/-- The key with these slices, and the size of the last one, has the value `v`. -/
def Holds (sh : Shape V) (K : List Nat × Nat) (v : V) : Prop :=
  ∃ π p s r, Listed sh π p s ∧ s.key? = some (r, v) ∧ K = (π ++ r.1, r.2)

theorem Stored.leaf_at {t : Layer V} : ∀ {par : Option Ptr}, Stored h par t → ∀ {p : Ptr} {es : List (Slot V)},
    (p, es) ∈ t.leaves → ∃ par', BorderAt (h.mem p) par' es := by
  induction t using BTree.ind with
  | hleaf q es' =>
    intro par hst p es hmem
    obtain ⟨rfl, rfl⟩ : p = q ∧ es = es' := by simpa using hmem
    exact ⟨par, stored_leaf.mp hst⟩
  | hinner q ks cs ih =>
    intro par hst p es hmem
    rw [BTree.leaves_inner, BTree.mem_forestLeaves] at hmem
    obtain ⟨c, hc, hmem⟩ := hmem
    exact ih c hc ((stored_inner.mp hst).2 c hc) hmem

/-- The entries with a slice of the interval of a leaf are in that leaf. -/
theorem leaf_of_slice {fs : List (Frame (Slot V))} {p : Ptr} {es : List (Slot V)} {a b : Nat}
    (hctx : WfCtx Slot.key_slice 15 fs a b 0 maxSlice) {l : Ptr × List (Slot V)}
    (hl : l ∈ (plug fs (.leaf p es)).leaves) {s : Slot V} (hs : s ∈ l.2) (ha : a ≤ s.key_slice)
    (hb : s.key_slice < b) : l = (p, es) := by
  obtain ⟨hleft, hright⟩ := hctx.outside
  rw [leaves_plug, BTree.leaves_leaf, List.append_assoc, List.mem_append, List.mem_append] at hl
  rcases hl with hl | hl | hl
  · have := hleft l hl s hs
    omega
  · exact List.mem_singleton.mp hl
  · have := hright l hl s hs
    omega

theorem BorderAt.eq_of_id {n : Node V} {par : Option Ptr} {es : List (Slot V)} (hn : BorderAt n par es)
    {s s' : Slot V} (hs : s ∈ es) (hs' : s' ∈ es) (hid : s.id = s'.id) : s = s' := by
  have hids : (es.map Slot.id).Nodup := by
    have := hn.slots.ids
    rw [← hn.entries, Node.entries, List.map_map]
    exact this
  exact List.inj_on_of_nodup_map hids hs hs' hid

section

variable {sh : Shape V} {π : List Nat} {p p' : Ptr} {s s' : Slot V}

theorem ShapeOk.live (hok : ShapeOk h sh) (hs : Listed sh π p s) : s.Live := by
  obtain ⟨t, es, ht, hl, hs⟩ := hs
  obtain ⟨par, hn⟩ := (hok.layer π t ht).stored.leaf_at hl
  exact hn.slots.live_entries s (hn.entries ▸ hs)

theorem ShapeOk.slice_lt (hok : ShapeOk h sh) (hs : Listed sh π p s) : s.key_slice < maxSlice := by
  obtain ⟨t, es, ht, hl, hs⟩ := hs
  exact ((hok.layer π t ht).wf.range _ hl s hs).2

/-- A layer has at most one slot for each slice and kind. -/
theorem ShapeOk.unique (hok : ShapeOk h sh) (hs : Listed sh π p s) (hs' : Listed sh π p' s')
    (hid : s.id = s'.id) : p = p' ∧ s = s' := by
  have hlt := hok.slice_lt hs
  obtain ⟨t, es, ht, hl, hs⟩ := hs
  obtain ⟨t', es', ht', hl', hs'⟩ := hs'
  obtain rfl : t = t' := Option.some.inj (ht.symm.trans ht')
  have hlayer := hok.layer π t ht
  obtain ⟨fs, p₀, es₀, a, b, rfl, hctx, -, ha, hb, -⟩ :=
    descend_spec hlayer.stored hlayer.wf (Nat.zero_le _) hlt
  have hslice : s'.key_slice = s.key_slice := (congrArg Prod.fst hid).symm
  obtain ⟨rfl, rfl⟩ : p = p₀ ∧ es = es₀ := by simpa using leaf_of_slice hctx hl hs ha hb
  obtain ⟨rfl, rfl⟩ : p' = p ∧ es' = es := by
    simpa using leaf_of_slice hctx hl' hs' (hslice ▸ ha) (hslice ▸ hb)
  obtain ⟨par, hn⟩ := hlayer.stored.leaf_at hl
  exact ⟨rfl, hn.eq_of_id hs hs' hid⟩

/-- Above every layer there is a slot that leads to it. -/
theorem ShapeOk.above (hok : ShapeOk h sh) : ∀ {ρ : List Nat} {π : List Nat} {x : Nat} {t : Layer V},
    sh (π ++ x :: ρ) = some t → ∃ p s t', Listed sh π p s ∧ s.key_slice = x ∧
      s.layer? = some t'.root ∧ sh (π ++ [x]) = some t' := by
  intro ρ
  induction ρ using List.reverseRecOn with
  | nil =>
    intro π x t ht
    obtain ⟨p, s, hs, hx, hlayer⟩ := hok.up π x t ht
    exact ⟨p, s, t, hs, hx, hlayer, ht⟩
  | append_singleton ρ y ih =>
    intro π x t ht
    have ht' : sh ((π ++ x :: ρ) ++ [y]) = some t := by simpa using ht
    obtain ⟨p, s, ⟨t', es, hsh, -, -⟩, -, -⟩ := hok.up _ y t ht'
    exact ih hsh

end

theorem Slot.Live.id_of_layer {s : Slot V} (hs : s.Live) {q : Ptr} (hq : s.layer? = some q) :
    s.id = (s.key_slice, 9) := by
  cases hs with
  | short v hlen => cases hq
  | long v hne hsize hslices => cases hq
  | layer q' => rfl

/-- A slot with a key of several slices. -/
theorem Slot.Live.id_of_long {s : Slot V} (hs : s.Live) {r : List Nat × Nat} {v : V}
    (hr : s.key? = some (r, v)) (hlen : 2 ≤ r.1.length) : s.id = (s.key_slice, 9) := by
  cases hs with
  | short v' hlen' =>
    obtain ⟨rfl, -⟩ : _ ∧ _ := by simpa [Slot.key?] using hr
    simp at hlen
  | long v' hne hsize hslices => rfl
  | layer q' => cases hr

theorem Slot.key?_head {s : Slot V} {r : List Nat × Nat} {v : V} (hr : s.key? = some (r, v)) :
    ∃ rest, r.1 = s.key_slice :: rest := by
  unfold Slot.key? at hr
  split at hr
  · split at hr
    · obtain ⟨rfl, -⟩ : _ ∧ _ := by simpa using hr
      exact ⟨_, rfl⟩
    · obtain ⟨rfl, -⟩ : _ ∧ _ := by simpa using hr
      exact ⟨_, rfl⟩
  · cases hr

/-- Two slots with the same key are of one kind. -/
theorem Slot.Live.id_of_key {s s' : Slot V} (hs : s.Live) (hs' : s'.Live) {r : List Nat × Nat} {v v' : V}
    (hr : s.key? = some (r, v)) (hr' : s'.key? = some (r, v')) : s.id = s'.id := by
  cases hs with
  | short w hlen =>
    obtain ⟨rfl, -⟩ : _ ∧ _ := by simpa [Slot.key?] using hr
    cases hs' with
    | short w' hlen' =>
      obtain ⟨⟨rfl, rfl⟩, -⟩ : (_ ∧ _) ∧ _ := by simpa [Slot.key?] using hr'
      rfl
    | long w' hne hsize hslices =>
      obtain ⟨⟨⟨-, h₀⟩, -⟩, -⟩ : ((_ ∧ _) ∧ _) ∧ _ := by simpa [Slot.key?] using hr'
      exact absurd h₀ hne
    | layer q' => cases hr'
  | long w hne hsize hslices =>
    obtain ⟨rfl, -⟩ : _ ∧ _ := by simpa [Slot.key?] using hr
    cases hs' with
    | short w' hlen' =>
      obtain ⟨⟨⟨-, h₀⟩, -⟩, -⟩ : ((_ ∧ _) ∧ _) ∧ _ := by simpa [Slot.key?] using hr'
      exact absurd h₀ hne
    | long w' hne' hsize' hslices' =>
      obtain ⟨⟨⟨rfl, -⟩, -⟩, -⟩ : ((_ ∧ _) ∧ _) ∧ _ := by simpa [Slot.key?] using hr'
      rfl
    | layer q' => cases hr'
  | layer q => cases hr

theorem Slot.Live.layer?_of_key? {s : Slot V} {r : (List Nat × Nat) × V} (hr : s.key? = some r) :
    s.layer? = none := by
  rw [Slot.layer?, Slot.lv_of_key? hr]

section

variable {sh : Shape V} {π : List Nat} {t : Layer V} {x z : Nat} {rest : List Nat} {v v' : V}

/-- Seen from a layer on its way, a key is in a slot of this layer or below a link. -/
theorem ShapeOk.holds_at (hok : ShapeOk h sh) (ht : sh π = some t)
    (hv : Holds sh (π ++ x :: rest, z) v) :
    (∃ p s, Listed sh π p s ∧ s.key? = some ((x :: rest, z), v)) ∨
      rest ≠ [] ∧ ∃ p s q, Listed sh π p s ∧ s.key_slice = x ∧ s.layer? = some q := by
  obtain ⟨π', p, s, r, hs, hr, hK⟩ := hv
  obtain ⟨hslices, rfl⟩ := Prod.mk.inj hK
  obtain ⟨rest', hrest'⟩ := Slot.key?_head hr
  rcases List.append_eq_append_iff.mp hslices with ⟨ρ, rfl, hR⟩ | ⟨ρ, rfl, hr1⟩
  · cases ρ with
    | nil =>
      rw [List.append_nil] at hs
      refine Or.inl ⟨p, s, hs, ?_⟩
      rw [hr, hR]
      rfl
    | cons y ρ =>
      right
      obtain ⟨rfl, rfl⟩ := List.cons.inj hR
      obtain ⟨t', es, hsh, -, -⟩ := hs
      obtain ⟨p', s', t'', hs', hx, hlayer, -⟩ := hok.above hsh
      refine ⟨?_, p', s', t''.root, hs', hx, hlayer⟩
      rw [hrest']
      simp
  · -- a key that ended above would stand in the way of the layer
    cases ρ with
    | nil =>
      rw [List.append_nil] at ht ⊢
      refine Or.inl ⟨p, s, hs, ?_⟩
      rw [hr, ← List.nil_append (x :: rest), ← hr1]
    | cons y ρ =>
      exfalso
      obtain ⟨p', s', t'', hs', hx, hlayer, -⟩ := hok.above ht
      obtain ⟨rfl, -⟩ := List.cons.inj (hrest'.symm.trans hr1)
      have hlong := (hok.live hs).id_of_long hr (by rw [hr1]; simp; omega)
      have hlink := (hok.live hs').id_of_layer hlayer
      obtain ⟨-, rfl⟩ := hok.unique hs hs' (by rw [hlong, hlink, hx])
      rw [Slot.Live.layer?_of_key? hr] at hlayer
      cases hlayer

/-- A key has one value. -/
theorem ShapeOk.holds_unique (hok : ShapeOk h sh) {p : Ptr} {s : Slot V} (hs : Listed sh π p s)
    (hr : s.key? = some ((x :: rest, z), v)) (hv : Holds sh (π ++ x :: rest, z) v') : v' = v := by
  obtain ⟨t, es, ht, hl, hmem⟩ := hs
  have hs : Listed sh π p s := ⟨t, es, ht, hl, hmem⟩
  rcases hok.holds_at ht hv with ⟨p', s', hs', hr'⟩ | ⟨hne, p', s', q, hs', hx, hlayer⟩
  · obtain ⟨-, rfl⟩ := hok.unique hs hs' ((hok.live hs).id_of_key (hok.live hs') hr hr')
    rw [hr] at hr'
    exact (Prod.mk.inj (Option.some.inj hr')).2.symm
  · exfalso
    have hlen : 2 ≤ (x :: rest).length := by
      have := List.length_pos_iff.mpr hne
      simp only [List.length_cons]
      omega
    obtain ⟨rest', hrest'⟩ := Slot.key?_head hr
    obtain ⟨hx', -⟩ := List.cons.inj hrest'
    have hlong := (hok.live hs).id_of_long hr hlen
    have hlink := (hok.live hs').id_of_layer hlayer
    obtain ⟨-, rfl⟩ := hok.unique hs hs' (by rw [hlong, hlink, hx, ← hx'])
    rw [Slot.Live.layer?_of_key? hr] at hlayer
    cases hlayer

end

/-- The cursor of the key is at the layer `π`. -/
structure Key.At (key : Key) (π : List Nat) : Prop where
  wf : key.Wf
  eq : key.slices.take key.cursor = π

namespace Key.At

variable {key : Key} {π : List Nat}

theorem length (hk : key.At π) : π.length = key.cursor := by
  have := hk.wf.cursor
  rw [← hk.eq, List.length_take]
  omega

/-- The whole key, seen from the layer. -/
theorem whole (hk : key.At π) : (key.slices, key.lastSliceSize) =
    (π ++ key.getCurrentSlice.slice :: key.slices.drop (key.cursor + 1), key.lastSliceSize) := by
  rw [← Key.slices_drop hk.wf, ← hk.eq, List.take_append_drop]

theorem next (hk : key.At π) (hn : key.hasNext = true) : key.next.At (π ++ [key.getCurrentSlice.slice]) where
  wf := hk.wf.next hn
  eq := by
    have hc := hk.wf.cursor
    change key.slices.take (key.cursor + 1) = _
    rw [← hk.eq, List.take_add_one, List.getElem?_eq_getElem hc, getCurrentSlice]
    simp [List.getD_eq_getElem?_getD, hc]

end Key.At

/-- The leaf for the current slice of a key in the layer `π`. -/
structure Place (sh : Shape V) (π : List Nat) (key : Key) (fs : List (Frame (Slot V))) (p : Ptr)
    (es : List (Slot V)) (a b : Nat) : Prop where
  shape : sh π = some (plug fs (.leaf p es))
  ctx : WfCtx Slot.key_slice 15 fs a b 0 maxSlice
  wf : (BTree.leaf p es).Wf Slot.key_slice 15 a b
  lo : a ≤ key.getCurrentSlice.slice
  hi : key.getCurrentSlice.slice < b

section

variable {sh : Shape V} {π : List Nat} {key : Key} {fs : List (Frame (Slot V))} {p : Ptr}
  {es : List (Slot V)} {a b : Nat}

theorem ShapeOk.findBorder (hok : ShapeOk h sh) {t : Layer V} (ht : sh π = some t) (hk : key.At π) :
    ∃ fs p es a b, Place sh π key fs p es a b ∧ findBorder h t.root key = some p := by
  obtain ⟨fs, p, es, a, b, rfl, hctx, hwf, ha, hb, hfind⟩ := (hok.layer π t ht).findBorder hk.wf
  exact ⟨fs, p, es, a, b, ⟨ht, hctx, hwf, ha, hb⟩, hfind⟩

theorem leaf_mem_plug (fs : List (Frame (Slot V))) (p : Ptr) (es : List (Slot V)) :
    (p, es) ∈ (plug fs (.leaf p es)).leaves := by
  rw [leaves_plug]
  simp

theorem Place.listed (hp : Place sh π key fs p es a b) {s : Slot V} (hs : s ∈ es) : Listed sh π p s :=
  ⟨_, es, hp.shape, leaf_mem_plug fs p es, hs⟩

/-- Every slot of the layer with the slice of the key is in the leaf. -/
theorem Place.mem (hp : Place sh π key fs p es a b) {p' : Ptr} {s : Slot V} (hs : Listed sh π p' s)
    (hx : s.key_slice = key.getCurrentSlice.slice) : p' = p ∧ s ∈ es := by
  obtain ⟨t, es', ht, hl, hs⟩ := hs
  obtain rfl := Option.some.inj (hp.shape.symm.trans ht)
  have hlo := hp.lo
  have hhi := hp.hi
  rw [← hx] at hlo hhi
  obtain ⟨rfl, rfl⟩ : p' = p ∧ es' = es := by simpa using leaf_of_slice hp.ctx hl hs hlo hhi
  exact ⟨rfl, hs⟩

theorem Place.layerOk (hok : ShapeOk h sh) (hp : Place sh π key fs p es a b) :
    LayerOk h (plug fs (.leaf p es)) := hok.layer π _ hp.shape

theorem Place.borderAt (hok : ShapeOk h sh) (hp : Place sh π key fs p es a b) :
    BorderAt (h.mem p) (parent fs) es :=
  stored_leaf.mp (stored_plug.mp (hp.layerOk hok).stored).2

/-- What the search in the leaf says of the key. -/
inductive Found (sh : Shape V) (π : List Nat) (key : Key) (n : Node V) (p : Ptr) :
    Node.SearchResult × LinkOrValue V × Nat → Prop
  | value {i : Nat} {v : V} (hi : i ∈ n.permutation) (hkey : (n.slot i).key? = some (key.rest, v))
      (honly : ∀ v', Holds sh (key.slices, key.lastSliceSize) v' ↔ v' = v) :
    Found sh π key n p (.VALUE, .value v, i)
  | layer {i : Nat} {t : Layer V} (hi : i ∈ n.permutation) (hlink : (n.slot i).layer? = some t.root)
      (hslice : (n.slot i).key_slice = key.getCurrentSlice.slice) (hn : key.hasNext = true)
      (hsh : sh (π ++ [key.getCurrentSlice.slice]) = some t) :
    Found sh π key n p (.LAYER, .link t.root, i)
  | notFound (hnot : ∀ v, ¬ Holds sh (key.slices, key.lastSliceSize) v)
      (hkey : ∀ i ∈ n.permutation, ∀ v, (n.slot i).key? ≠ some (key.rest, v))
      (hlayer : key.hasNext = true → ∀ i ∈ n.permutation,
        (n.slot i).key_slice = key.getCurrentSlice.slice → (n.slot i).layer? = none) :
    Found sh π key n p (.NOTFOUND, .null, 0)

theorem Place.slot_mem (hok : ShapeOk h sh) (hp : Place sh π key fs p es a b) {i : Nat}
    (hi : i ∈ (h.mem p).permutation) : (h.mem p).slot i ∈ es := by
  rw [← (hp.borderAt hok).entries]
  exact List.mem_map_of_mem hi

theorem Place.search (hok : ShapeOk h sh) (hp : Place sh π key fs p es a b) (hk : key.At π) :
    Found sh π key (h.mem p) p ((h.mem p).searchLinkOrValueWithIndex key) := by
  have hn := hp.borderAt hok
  have hrest := Key.rest_eq hk.wf
  have hwhole := hk.whole
  generalize hres : (h.mem p).searchLinkOrValueWithIndex key = res
  have hsearch := hn.slots.classified.search_spec hk.wf
  rw [hres] at hsearch
  cases hsearch with
  | @value i v hi hkey =>
    refine .value hi hkey ?_
    intro v'
    have hl := hp.listed (hp.slot_mem hok hi)
    rw [hrest] at hkey
    rw [hwhole]
    constructor
    · exact hok.holds_unique hl hkey
    · rintro rfl
      exact ⟨π, p, _, _, hl, hkey, rfl⟩
  | @layer i q hi hlayer hslice hn =>
    obtain ⟨t, hsh, rfl, -⟩ := hok.down π p _ q (hp.listed (hp.slot_mem hok hi)) hlayer
    rw [hslice] at hsh
    exact .layer hi hlayer hslice hn hsh
  | notFound hkey hlayer =>
    refine .notFound ?_ hkey hlayer
    intro v hv
    have hindex : ∀ {p' : Ptr} {s : Slot V}, Listed sh π p' s → s.key_slice = key.getCurrentSlice.slice →
        ∃ i ∈ (h.mem p).permutation, (h.mem p).slot i = s := by
      intro p' s hs hx
      obtain ⟨-, hmem⟩ := hp.mem hs hx
      rw [← hn.entries] at hmem
      exact List.mem_map.mp hmem
    rw [hwhole] at hv
    rcases hok.holds_at hp.shape hv with ⟨p', s, hs, hr⟩ | ⟨hne, p', s, q, hs, hx, hq⟩
    · obtain ⟨rest', hrest'⟩ := Slot.key?_head hr
      obtain ⟨i, hi, rfl⟩ := hindex hs (List.cons.inj hrest').1.symm
      exact hkey i hi v (by rw [hrest]; exact hr)
    · obtain ⟨i, hi, rfl⟩ := hindex hs hx
      rw [hlayer ((Key.hasNext_iff hk.wf).mpr hne) i hi hx] at hq
      cases hq

/-- The lookup returns the value of the key. -/
theorem ShapeOk.get (hok : ShapeOk h sh) : ∀ {fuel : Nat} {π : List Nat} {t : Layer V} {key : Key},
    sh π = some t → key.At π → key.slices.length ≤ key.cursor + fuel →
    ∃ o, masstree_get h fuel t.root key = some o ∧
      ∀ v, o = some v ↔ Holds sh (key.slices, key.lastSliceSize) v := by
  intro fuel
  induction fuel with
  | zero =>
    intro π t key ht hk hfuel
    have := hk.wf.cursor
    omega
  | succ fuel ih =>
    intro π t key ht hk hfuel
    obtain ⟨fs, p, es, a, b, hp, hfind⟩ := hok.findBorder ht hk
    have halive := (hp.borderAt hok).alive
    have hsearch := hp.search hok hk
    rw [masstree_get, hfind]
    change ∃ o, (if (h.mem p).deleted then _ else _) = some o ∧ _
    rw [halive, if_neg Bool.false_ne_true]
    generalize (h.mem p).searchLinkOrValueWithIndex key = res at hsearch
    cases hsearch with
    | @value i v hi hkey honly =>
      refine ⟨some v, rfl, ?_⟩
      intro v'
      rw [honly, Option.some.injEq]
      exact eq_comm
    | @layer i t' hi hlink hslice hn hsh =>
      exact ih hsh (hk.next hn) (by simp only [Key.next]; omega)
    | notFound hnot hkey hlayer =>
      refine ⟨none, rfl, ?_⟩
      intro v
      exact iff_of_false nofun (hnot v)

end

end Cassa.Masstree

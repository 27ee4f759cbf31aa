import Cassa.Masstree.SplitShape

/-!
# New layers and layers that go

A second key with the same slice moves the suffix of the first one to a layer of its own;
when the last but one key of a layer is gone, the last one becomes a suffix again. Both
replace one slot of a border node and the layer below it, and neither changes the keys.
-/

namespace Cassa.Masstree

open Cassa.Lib.SearchTree

variable {V : Type} {h h' : Heap V}

/-- The shape in which the slot `i` of the leaf `u` and the layer below it were replaced. -/
structure Regrown (h h' : Heap V) (sh : Shape V) (π : List Nat) (fs : List (Frame (Slot V))) (u : Ptr)
    (es es' : List (Slot V)) (s s' : Slot V) (o : Option (Layer V)) : Prop where
  shape : sh π = some (plug fs (.leaf u es))
  slot : s ∈ es
  kind : s.id = (s'.key_slice, 9)
  kind' : s'.id = (s'.key_slice, 9)
  mem : ∀ s₁, s₁ ∈ es' ↔ s₁ = s' ∨ s₁ ∈ es ∧ s₁ ≠ s
  leaf : LayerOk h' (plug fs (.leaf u es'))
  link : s'.layer? = o.map BTree.root
  layer : ∀ t, o = some t → LayerOk h' t ∧ (∀ q ∈ t.ptrs, h.fresh ≤ q) ∧
    (∀ p s₁, InLeaves t.leaves p s₁ → s₁.layer? = none) ∧ (h'.mem t.root).upperLayer = some u
  below : ∀ y, sh (π ++ [s'.key_slice] ++ [y]) = none
  other : ∀ ρ t, sh ρ = some t → ρ ≠ π → ρ ≠ π ++ [s'.key_slice] → LayerOk h' t
  upper : ∀ ρ t, sh ρ = some t → ρ ≠ π ++ [s'.key_slice] →
    (h'.mem t.root).upperLayer = (h.mem t.root).upperLayer

section

variable {sh : Shape V} {π : List Nat} {fs : List (Frame (Slot V))} {u : Ptr} {es es' : List (Slot V)}
  {s s' : Slot V} {o : Option (Layer V)}

/-- The shape with the leaf `u` and the layer below the slot replaced. -/
def Shape.regrow (sh : Shape V) (π : List Nat) (fs : List (Frame (Slot V))) (u : Ptr) (es' : List (Slot V))
    (x : Nat) (o : Option (Layer V)) : Shape V :=
  Function.update (Function.update sh π (some (plug fs (.leaf u es')))) (π ++ [x]) o

theorem regrow_below {x : Nat} : sh.regrow π fs u es' x o (π ++ [x]) = o := Function.update_self ..

theorem regrow_self {x : Nat} : sh.regrow π fs u es' x o π = some (plug fs (.leaf u es')) := by
  rw [Shape.regrow, Function.update_of_ne (by simp), Function.update_self]

theorem regrow_other {x : Nat} {ρ : List Nat} (hρ : ρ ≠ π) (hρ' : ρ ≠ π ++ [x]) :
    sh.regrow π fs u es' x o ρ = sh ρ := by
  rw [Shape.regrow, Function.update_of_ne hρ', Function.update_of_ne hρ]

/-- Every slot of the layer with the slice and the kind of the old one is the old one. -/
theorem Regrown.only (hok : ShapeOk h sh) (hg : Regrown h h' sh π fs u es es' s s' o) {p : Ptr} {s₁ : Slot V}
    (hs₁ : Listed sh π p s₁) (hid : s₁.id = (s'.key_slice, 9)) : p = u ∧ s₁ = s :=
  hok.unique hs₁ ⟨_, es, hg.shape, leaf_mem_plug fs u es, hg.slot⟩ (hid.trans hg.kind.symm)

/-- The slots of the layer, with the new one in the place of the old one. -/
theorem Regrown.listed (hok : ShapeOk h sh) (hg : Regrown h h' sh π fs u es es' s s' o) {p : Ptr}
    {s₁ : Slot V} : Listed (sh.regrow π fs u es' s'.key_slice o) π p s₁ ↔
      p = u ∧ s₁ = s' ∨ Listed sh π p s₁ ∧ s₁ ≠ s := by
  rw [listed_iff regrow_self, listed_iff hg.shape, inLeaves_plug, inLeaves_plug, hg.mem]
  constructor
  · rintro (⟨rfl, rfl | ⟨hs₁, hne⟩⟩ | hs₁)
    · exact Or.inl ⟨rfl, rfl⟩
    · exact Or.inr ⟨Or.inl ⟨rfl, hs₁⟩, hne⟩
    · refine Or.inr ⟨Or.inr hs₁, ?_⟩
      rintro rfl
      have hl : Listed sh π p s₁ := (listed_iff hg.shape).mpr (inLeaves_plug.mpr (Or.inr hs₁))
      exact (hok.layer π _ hg.shape).elsewhere_ne hs₁ (hg.only hok hl hg.kind).1
  · rintro (⟨rfl, rfl⟩ | ⟨⟨rfl, hs₁⟩ | hs₁, hne⟩)
    · exact Or.inl ⟨rfl, Or.inl rfl⟩
    · exact Or.inl ⟨rfl, Or.inr ⟨hs₁, hne⟩⟩
    · exact Or.inr hs₁

theorem Regrown.shapeOk (hok : ShapeOk h sh) (hg : Regrown h h' sh π fs u es es' s s' o) :
    ShapeOk h' (sh.regrow π fs u es' s'.key_slice o) := by
  set sh' := sh.regrow π fs u es' s'.key_slice o with hsh'
  have hroot : (plug fs (.leaf u es')).root = (plug fs (.leaf u es)).root := root_plug_congr rfl
  have hkeep : ∀ {ρ t}, sh ρ = some t → ρ ≠ π ++ [s'.key_slice] → ∃ t', sh' ρ = some t' ∧ t'.root = t.root := by
    intro ρ t ht hρ
    by_cases hπ : ρ = π
    · obtain rfl := Option.some.inj (hg.shape.symm.trans (hπ ▸ ht))
      exact ⟨_, by rw [hπ]; exact regrow_self, hroot⟩
    · exact ⟨t, (regrow_other hπ hρ).trans ht, rfl⟩
  have hback : ∀ {ρ t'}, sh' ρ = some t' → ρ ≠ π ++ [s'.key_slice] →
      ∃ t, sh ρ = some t ∧ t'.root = t.root ∧ ∀ q, q ∈ t'.ptrs → q ∈ t.ptrs := by
    intro ρ t' ht' hρ
    by_cases hπ : ρ = π
    · rw [hπ, hsh', regrow_self, Option.some.injEq] at ht'
      rw [hπ, ← ht']
      exact ⟨_, hg.shape, hroot, fun q => Place.ptrs_iff.mp⟩
    · exact ⟨t', (regrow_other hπ hρ).symm.trans ht', rfl, fun q hq => hq⟩
  refine ⟨?_, hok.disjoint_of (π := π ++ [s'.key_slice]) ?_, ?_, ?_, ?_⟩
  · intro ρ t ht
    by_cases hρ : ρ = π ++ [s'.key_slice]
    · rw [hρ, hsh', regrow_below] at ht
      exact (hg.layer t ht).1
    · by_cases hπ : ρ = π
      · rw [hπ, hsh', regrow_self, Option.some.injEq] at ht
        exact ht ▸ hg.leaf
      · exact hg.other ρ t ((regrow_other hπ hρ).symm.trans ht) hπ hρ
  · intro ρ t q ht hq
    by_cases hρ : ρ = π ++ [s'.key_slice]
    · rw [hρ, hsh', regrow_below] at ht
      exact Or.inr ⟨(hg.layer t ht).2.1 q hq, hρ⟩
    · obtain ⟨t₀, ht₀, -, hsub⟩ := hback ht hρ
      exact Or.inl ⟨t₀, ht₀, hsub q hq⟩
  · intro t ht
    have hnil : ([] : List Nat) ≠ π ++ [s'.key_slice] := by simp
    obtain ⟨t₀, ht₀, hr, -⟩ := hback ht hnil
    rw [hr, hg.upper [] t₀ ht₀ hnil]
    exact hok.top t₀ ht₀
  · intro ρ p s₁ q hs₁ hq
    by_cases hρ : ρ = π ++ [s'.key_slice]
    · obtain ⟨t, es₁, ht, hl, hs₁⟩ := hs₁
      rw [hρ, hsh', regrow_below] at ht
      rw [(hg.layer t ht).2.2.1 p s₁ ⟨es₁, hl, hs₁⟩] at hq
      cases hq
    have hold : Listed sh ρ p s₁ → ρ ++ [s₁.key_slice] ≠ π ++ [s'.key_slice] →
        ∃ t, sh' (ρ ++ [s₁.key_slice]) = some t ∧ t.root = q ∧ (h'.mem q).upperLayer = some p := by
      intro hl hne
      obtain ⟨t₀, ht₀, rfl, hup⟩ := hok.down ρ p s₁ q hl hq
      obtain ⟨t₁, ht₁, hr⟩ := hkeep ht₀ hne
      exact ⟨t₁, ht₁, hr, by rw [hg.upper _ t₀ ht₀ hne, hup]⟩
    by_cases hπ : ρ = π
    · rw [hπ, hsh', hg.listed hok] at hs₁
      rcases hs₁ with ⟨rfl, rfl⟩ | ⟨hl, hne⟩
      · rw [hg.link, Option.map_eq_some_iff] at hq
        obtain ⟨t, ht, rfl⟩ := hq
        refine ⟨t, ?_, rfl, (hg.layer t ht).2.2.2⟩
        rw [hπ, hsh', regrow_below, ht]
      · rw [hπ] at hold ⊢
        refine hold hl ?_
        intro he
        have hx := (List.cons.inj (List.append_cancel_left he)).1
        refine hne (hg.only hok hl ?_).2
        rw [(hok.live hl).id_of_layer hq, hx]
    · rw [listed_congr (regrow_other hπ hρ)] at hs₁
      refine hold hs₁ ?_
      intro he
      exact hπ (List.append_inj' he rfl).1
  · intro ρ x t ht
    by_cases hρ : ρ ++ [x] = π ++ [s'.key_slice]
    · rw [hρ, hsh', regrow_below] at ht
      obtain ⟨rfl, hx⟩ := List.append_inj' hρ rfl
      refine ⟨u, s', ?_, ((List.cons.inj hx).1).symm, by rw [hg.link, ht]; rfl⟩
      exact (hg.listed hok).mpr (Or.inl ⟨rfl, rfl⟩)
    · obtain ⟨t₀, ht₀, hr, -⟩ := hback ht hρ
      obtain ⟨p, s₁, hs₁, rfl, hq⟩ := hok.up ρ x t₀ ht₀
      refine ⟨p, s₁, ?_, rfl, by rw [hr, hq]⟩
      by_cases hπ : ρ = π
      · rw [hπ] at hs₁ hρ ⊢
        refine (hg.listed hok).mpr (Or.inr ⟨hs₁, ?_⟩)
        rintro rfl
        have hx : s₁.key_slice = s'.key_slice := congrArg Prod.fst hg.kind
        exact hρ (by rw [hx])
      · by_cases hρ' : ρ = π ++ [s'.key_slice]
        · rw [hρ', hg.below] at ht₀
          cases ht₀
        · exact (listed_congr (regrow_other hπ hρ')).mpr hs₁

theorem Regrown.roots (hg : Regrown h h' sh π fs u es es' s s' o) {ρ : List Nat}
    (hρ : ρ.length < (π ++ [s'.key_slice]).length) :
    (sh.regrow π fs u es' s'.key_slice o ρ).map BTree.root = (sh ρ).map BTree.root := by
  have hne : ρ ≠ π ++ [s'.key_slice] := fun he => by simp [he] at hρ
  by_cases hπ : ρ = π
  · rw [hπ, regrow_self, hg.shape, Option.map_some, Option.map_some]
    exact congrArg some (root_plug_congr rfl)
  · rw [regrow_other hπ hne]

/-- The keys of a slot with the slice `x` and of the layer below it, seen from the layer `π`. -/
def Under (sh : Shape V) (π : List Nat) (x : Nat) (s : Slot V) (r : List Nat × Nat) (v : V) : Prop :=
  s.key? = some (r, v) ∨ ∃ p s₁ r', Listed sh (π ++ [x]) p s₁ ∧ s₁.key? = some (r', v) ∧ r = (x :: r'.1, r'.2)

/-- The keys of the tree but those under the slot `s`. -/
def Beside (sh : Shape V) (π : List Nat) (x : Nat) (s : Slot V) (K : List Nat × Nat) (v : V) : Prop :=
  ∃ ρ p s₁ r, ρ ≠ π ++ [x] ∧ ¬ (ρ = π ∧ s₁ = s) ∧ Listed sh ρ p s₁ ∧ s₁.key? = some (r, v) ∧
    K = (ρ ++ r.1, r.2)

theorem holds_under {x : Nat} {p : Ptr} (hs : Listed sh π p s) {K : List Nat × Nat} {v : V} : Holds sh K v ↔
    (∃ r, Under sh π x s r v ∧ K = (π ++ r.1, r.2)) ∨ Beside sh π x s K v := by
  constructor
  · rintro ⟨ρ, p₁, s₁, r, hs₁, hr, hK⟩
    by_cases hρ : ρ = π ++ [x]
    · refine Or.inl ⟨(x :: r.1, r.2), Or.inr ⟨p₁, s₁, r, hρ ▸ hs₁, hr, rfl⟩, ?_⟩
      rw [hK, hρ, List.append_assoc]
      rfl
    · by_cases hself : ρ = π ∧ s₁ = s
      · obtain ⟨rfl, rfl⟩ := hself
        exact Or.inl ⟨r, Or.inl hr, hK⟩
      · exact Or.inr ⟨ρ, p₁, s₁, r, hρ, hself, hs₁, hr, hK⟩
  · rintro (⟨r, hr | ⟨p₁, s₁, r', hs₁, hr, rfl⟩, hK⟩ | ⟨ρ, p₁, s₁, r, -, -, hs₁, hr, hK⟩)
    · exact ⟨π, p, s, r, hs, hr, hK⟩
    · refine ⟨π ++ [x], p₁, s₁, r', hs₁, hr, ?_⟩
      rw [hK, List.append_assoc]
      rfl
    · exact ⟨ρ, p₁, s₁, r, hs₁, hr, hK⟩

/-- The keys stay, if those under the slot stay. -/
theorem Regrown.holds (hok : ShapeOk h sh) (hg : Regrown h h' sh π fs u es es' s s' o)
    (hunder : ∀ r v, Under (sh.regrow π fs u es' s'.key_slice o) π s'.key_slice s' r v ↔
      Under sh π s'.key_slice s r v) {K : List Nat × Nat} {v : V} :
    Holds (sh.regrow π fs u es' s'.key_slice o) K v ↔ Holds sh K v := by
  have hs : Listed sh π u s := ⟨_, es, hg.shape, leaf_mem_plug fs u es, hg.slot⟩
  have hbeside : Beside (sh.regrow π fs u es' s'.key_slice o) π s'.key_slice s' K v ↔
      Beside sh π s'.key_slice s K v := by
    refine exists_congr fun ρ => exists_congr fun p => exists_congr fun s₁ => exists_congr fun r => ?_
    refine and_congr_right fun hρ => ?_
    by_cases hπ : ρ = π
    · simp only [hπ, true_and, hg.listed hok]
      constructor
      · rintro ⟨hne, ⟨-, he⟩ | ⟨hl, hne'⟩, hr⟩
        · exact absurd he hne
        · exact ⟨hne', hl, hr⟩
      · rintro ⟨hne, hl, hr⟩
        refine ⟨?_, Or.inr ⟨hl, hne⟩, hr⟩
        rintro rfl
        exact hne (hg.only hok hl hg.kind').2
    · simp only [hπ, false_and, listed_congr (regrow_other hπ hρ)]
  rw [holds_under (x := s'.key_slice) ((hg.listed hok).mpr (Or.inl ⟨rfl, rfl⟩)),
    holds_under (x := s'.key_slice) hs, hbeside]
  simp only [hunder]

end

/-- A border node with one slot, which is the root of its layer. -/
def Node.single (s : Slot V) (upper : Option Ptr) : Node V :=
  { (Node.newBorder : Node V).setSlot 0 s with is_root := true, upperLayer := upper }

theorem borderAt_single {s : Slot V} (hs : s.Live) (upper : Option Ptr) :
    BorderAt (Node.single s upper) none [s] where
  border := rfl
  alive := rfl
  parent := rfl
  slots :=
    { nodup := List.nodup_singleton 0
      lt := by
        intro i hi
        rw [List.mem_singleton.mp hi]
        omega
      live := by
        intro i hi
        rw [List.mem_singleton.mp hi]
        change (((Node.newBorder : Node V).setSlot 0 s).slot 0).Live
        rwa [Node.setSlot_slot_self]
      free := by
        intro i _ hi
        have hne : i ≠ 0 := fun he => hi (List.mem_singleton.mpr he)
        change ((((Node.newBorder : Node V).setSlot 0 s).slot i).key_len = 0 ∨ _) ∧
          (((Node.newBorder : Node V).setSlot 0 s).slot i).layer? = none
        rw [Node.setSlot_slot_of_ne s hne]
        exact ⟨Or.inl rfl, rfl⟩
      ids := List.nodup_singleton _ }
  entries := by
    change [((Node.newBorder : Node V).setSlot 0 s).slot 0] = [s]
    rw [Node.setSlot_slot_self]

theorem layerOk_single {s : Slot V} (hs : s.Live) (hlt : s.key_slice < 2 ^ 64) {upper : Option Ptr} {q : Ptr}
    (hq : q < h.fresh) (hmem : h.mem q = Node.single s upper) : LayerOk h (.leaf q [s]) where
  wf := by
    refine BTree.wf_leaf.mpr ⟨List.cons_ne_nil _ _, by simp, List.pairwise_singleton _ _, ?_⟩
    intro e he
    rw [List.mem_singleton.mp he]
    exact ⟨Nat.zero_le _, hlt⟩
  stored := stored_leaf.mpr (hmem ▸ borderAt_single hs upper)
  nodup := List.nodup_singleton q
  lt := by
    intro p hp
    rw [List.mem_singleton.mp hp]
    exact hq
  roots := by
    intro p hp
    rw [List.mem_singleton.mp hp, hmem]
    exact iff_of_true rfl rfl
  linked := by
    change Seg h none [q] none
    exact ⟨by rw [hmem]; rfl, by rw [hmem]; rfl, trivial⟩

theorem inLeaves_single {q p : Ptr} {s s₁ : Slot V} :
    InLeaves (BTree.leaf q [s] : Layer V).leaves p s₁ ↔ p = q ∧ s₁ = s := by
  rw [BTree.leaves_leaf, inLeaves_cons, List.mem_singleton, or_iff_left]
  rintro ⟨es, hmem, -⟩
  cases hmem

/-- The slot of the new layer for the key of a slot with a suffix. -/
def downSlot (lv : LinkOrValue V) (suffix : BigSuffix) : Slot V :=
  if suffix.hasNext then ⟨key_len_has_suffix, suffix.getCurrentSlice.slice, lv, some suffix.next⟩
  else ⟨suffix.getCurrentSlice.size, suffix.getCurrentSlice.slice, lv, none⟩

theorem layerFor_eq (node : Ptr) (s : Slot V) (suffix : BigSuffix) :
    layerFor node s suffix = Node.single (downSlot s.lv suffix) (some node) := rfl

/-- The key in the new layer is the suffix. -/
theorem downSlot_spec {suffix : BigSuffix} (v : V) (hne : suffix.slices ≠ [])
    (hsize : 1 ≤ suffix.lastSliceSize ∧ suffix.lastSliceSize ≤ 8) (hslices : ∀ s ∈ suffix.slices, s < 2 ^ 64) :
    (downSlot (.value v) suffix).Live ∧ (downSlot (.value v) suffix).key_slice < 2 ^ 64 ∧
      (downSlot (.value v) suffix).key? = some ((suffix.slices, suffix.lastSliceSize), v) := by
  obtain ⟨slices, size⟩ := suffix
  obtain ⟨x, rest, rfl⟩ := List.exists_cons_of_ne_nil hne
  have hx : x < 2 ^ 64 := hslices x List.mem_cons_self
  cases rest with
  | nil => exact ⟨.short v hsize, hx, rfl⟩
  | cons y rest =>
    refine ⟨.long v (List.cons_ne_nil y rest) hsize ?_, hx, rfl⟩
    intro s hs
    exact hslices s (List.mem_cons_of_mem _ hs)

section

variable {sh : Shape V} {π : List Nat} {key : Key} {fs : List (Frame (Slot V))} {p : Ptr}
  {es : List (Slot V)} {a b : Nat}

/-- What a slot with a suffix holds. -/
theorem Slot.Live.of_suffix {s : Slot V} (hs : s.Live) (hlen : s.key_len = key_len_has_suffix) :
    ∃ suffix v, s = ⟨key_len_has_suffix, s.key_slice, .value v, some suffix⟩ ∧ suffix.slices ≠ [] ∧
      (1 ≤ suffix.lastSliceSize ∧ suffix.lastSliceSize ≤ 8) ∧ ∀ x ∈ suffix.slices, x < 2 ^ 64 := by
  cases hs with
  | short v hl =>
    change _ = key_len_has_suffix at hlen
    simp only [key_len_has_suffix] at hlen
    omega
  | long v hne hsize hslices => exact ⟨_, v, rfl, hne, hsize, hslices⟩
  | layer q => cases hlen

/-- No layer is below a slot with a suffix. -/
theorem ShapeOk.none_below_suffix (hok : ShapeOk h sh) {s : Slot V} {suffix : BigSuffix} {v : V} {x : Nat}
    (hs : Listed sh π p s) (hslot : s = ⟨key_len_has_suffix, x, .value v, some suffix⟩) (y : List Nat) :
    sh (π ++ [x] ++ y) = none := by
  by_contra hsome
  obtain ⟨t, ht⟩ := Option.ne_none_iff_exists'.mp hsome
  rw [List.append_assoc, List.singleton_append] at ht
  obtain ⟨p', s', t', hs', hx, hq, -⟩ := hok.above ht
  obtain ⟨-, rfl⟩ := hok.unique hs hs' (by
    rw [(hok.live hs').id_of_layer hq, hslot, hx]
    rfl)
  rw [hslot] at hq
  cases hq

/-- The key of a slot with a suffix goes down to a new layer. -/
theorem Place.breakInvariant (hok : ShapeOk h sh) (hp : Place sh π key fs p es a b) {i : Nat}
    (hi : i ∈ (h.mem p).permutation) (hlen : ((h.mem p).slot i).key_len = key_len_has_suffix)
    (hx : ((h.mem p).slot i).key_slice = key.getCurrentSlice.slice) :
    ∃ h' sh' q s, handle_break_invariant h p i = some h' ∧ ((h'.mem p).slot i).lv = .link q ∧
      ShapeOk h' sh' ∧ (∀ K v, Holds sh' K v ↔ Holds sh K v) ∧
      sh' (π ++ [key.getCurrentSlice.slice]) = some (.leaf q [s]) ∧ s.layer? = none ∧
      ∀ ρ, ρ.length ≤ π.length → (sh' ρ).map BTree.root = (sh ρ).map BTree.root := by
  have hlayer := hp.layerOk hok
  have hn := hp.borderAt hok
  have hlive := hn.slots.live i hi
  have hcell : Listed sh π p ((h.mem p).slot i) := hp.listed (hp.slot_mem hok hi)
  obtain ⟨suffix, v, hslot, hne, hsize, hslices⟩ := hlive.of_suffix hlen
  rw [hx] at hslot
  obtain ⟨hlive', hlt', hkey'⟩ := downSlot_spec v hne hsize hslices
  set x := key.getCurrentSlice.slice with hxdef
  set s₀ := downSlot (.value v) suffix with hs₀
  set s' : Slot V := ⟨key_len_layer, x, .link h.fresh, none⟩ with hs'
  set h' := (h.alloc (Node.single s₀ (some p))).2.modify p (·.setSlot i s') with hh'
  have hplt : p < h.fresh := hlayer.lt p Place.mem_ptrs
  have hfresh : h'.fresh = h.fresh + 1 := rfl
  have hnew : h'.mem h.fresh = Node.single s₀ (some p) := by
    rw [hh', Heap.mem_modify_of_ne _ _ (Nat.ne_of_gt hplt), mem_alloc, if_pos rfl]
  have hat : h'.mem p = (h.mem p).setSlot i s' := by
    rw [hh', Heap.mem_modify_self, mem_alloc, if_neg (Nat.ne_of_lt hplt)]
  have hother : ∀ q < h.fresh, q ≠ p → h'.mem q = h.mem q := by
    intro q hq hqp
    rw [hh', Heap.mem_modify_of_ne _ _ hqp, mem_alloc, if_neg (Nat.ne_of_lt hq)]
  have hupper : ∀ q < h.fresh, (h'.mem q).upperLayer = (h.mem q).upperLayer := by
    intro q hq
    by_cases hqp : q = p
    · rw [hqp, hat]
      rfl
    · rw [hother q hq hqp]
  have hbreak : handle_break_invariant h p i = some h' := by
    simp only [handle_break_invariant, hslot, if_true]
    rfl
  obtain ⟨es', hn', hmap, hmem⟩ := hn.replaceSlot hi (show s'.Live from .layer _) (by rw [hslot]; rfl)
  have hnone : ∀ y, sh (π ++ [x] ++ y) = none := hok.none_below_suffix hcell hslot
  have hg : Regrown h h' sh π fs p es es' ((h.mem p).slot i) s' (some (.leaf h.fresh [s₀])) := by
    refine ⟨hp.shape, hp.slot_mem hok hi, by rw [hslot]; rfl, rfl, hmem, ?_, rfl, ?_, ?_, ?_, ?_⟩
    · refine hlayer.replaceLeaf hp.ctx (wf_leaf_congr hmap hp.wf) (by omega) ?_ ?_ ?_ ?_ ?_
      · intro q hq hqp
        exact hother q (hlayer.lt q hq) hqp
      all_goals rw [hat]
      · exact hn.parent ▸ hn'
      · rfl
      · rfl
      · rfl
    · intro t ht
      obtain rfl := Option.some.inj ht
      have hlt : h.fresh < h'.fresh := Nat.lt_succ_self _
      refine ⟨layerOk_single hlive' hlt' hlt hnew, ?_, ?_, ?_⟩
      · intro q hq
        rw [List.mem_singleton.mp hq]
      · intro p' s hs
        rw [(inLeaves_single.mp hs).2]
        exact Slot.Live.layer?_of_key? hkey'
      · change (h'.mem h.fresh).upperLayer = some p
        rw [hnew]
        rfl
    · intro y
      exact hnone [y]
    · intro ρ t ht hρ _
      refine hok.frame_layer hp.shape ht hρ (by omega) ?_
      intro q hq hout
      rw [hother q hq fun he => hout (he ▸ Place.mem_ptrs)]
      exact ⟨.refl _, rfl, rfl, rfl, rfl⟩
    · intro ρ t ht _
      exact hupper _ ((hok.layer ρ t ht).lt _ t.root_mem_ptrs)
  refine ⟨h', _, h.fresh, s₀, hbreak, ?_, hg.shapeOk hok, fun K v' => hg.holds hok ?_, regrow_below,
    Slot.Live.layer?_of_key? hkey', ?_⟩
  · rw [hat, Node.setSlot_slot_self]
  · intro r v'
    have hsh := hnone []
    rw [List.append_nil] at hsh
    constructor
    · rintro (hr | ⟨p', s, r', hs, hr, rfl⟩)
      · cases hr
      · rw [listed_iff regrow_below] at hs
        rw [(inLeaves_single.mp hs).2, hkey', Option.some.injEq, Prod.mk.injEq] at hr
        obtain ⟨rfl, rfl⟩ := hr
        left
        rw [hslot]
        rfl
    · rintro (hr | ⟨p', s, r', ⟨t, es₁, ht, -⟩, -⟩)
      · rw [hslot] at hr
        obtain ⟨rfl, rfl⟩ := Prod.mk.inj (Option.some.inj hr)
        refine Or.inr ⟨h.fresh, s₀, _, ?_, hkey', rfl⟩
        rw [listed_iff regrow_below]
        exact inLeaves_single.mpr ⟨rfl, rfl⟩
      · rw [hsh] at ht
        cases ht
  · intro ρ hρ
    refine hg.roots ?_
    simp only [List.length_append, List.length_singleton]
    omega

/-- The key of a layer as a suffix. -/
theorem suffixFor_spec {s : Slot V} (hs : s.Live) {r : List Nat × Nat} {v : V} (hr : s.key? = some (r, v)) :
    suffixFor s = some ⟨r.1, r.2⟩ ∧ r.1 ≠ [] ∧ (1 ≤ r.2 ∧ r.2 ≤ 8) ∧
      (s.key_slice < 2 ^ 64 → ∀ x ∈ r.1, x < 2 ^ 64) := by
  cases hs with
  | @short len slice w hlen =>
    obtain ⟨rfl, -⟩ : _ ∧ _ := by simpa [Slot.key?] using hr
    refine ⟨?_, List.cons_ne_nil _ _, hlen, ?_⟩
    · have hne : len ≠ key_len_has_suffix := by
        simp only [key_len_has_suffix]
        omega
      rw [suffixFor, if_neg hne, if_pos hlen]
    · intro hlt x hx
      rw [List.mem_singleton.mp hx]
      exact hlt
  | @long slice suffix w hne hsize hslices =>
    obtain ⟨rfl, -⟩ : _ ∧ _ := by simpa [Slot.key?] using hr
    refine ⟨rfl, List.cons_ne_nil _ _, hsize, ?_⟩
    intro hlt x hx
    rcases List.mem_cons.mp hx with rfl | hx
    · exact hlt
    · exact hslices x hx
  | layer q => cases hr

/-- The nodes differ in the contents of slots at most. -/
def Node.Reslot (n m : Node V) : Prop := ∃ slot, m = { n with slot := slot }

theorem Node.Reslot.refl (n : Node V) : n.Reslot n := ⟨n.slot, rfl⟩

theorem Node.Reslot.trans {n m k : Node V} (hnm : n.Reslot m) (hmk : m.Reslot k) : n.Reslot k := by
  obtain ⟨slot, rfl⟩ := hnm
  obtain ⟨slot', rfl⟩ := hmk
  exact ⟨slot', rfl⟩

/-- The layer `π ++ [x]` is gone, and its key is in the slot above it. -/
structure LayerGone (h h' : Heap V) (sh sh' : Shape V) (π : List Nat) (x : Nat) (r : List Nat × Nat)
    (v : V) : Prop where
  ok : ShapeOk h' sh'
  keys : ∀ K w, Holds sh' K w ↔ Holds sh K w
  above : ∀ ρ, ρ.length ≤ π.length → (sh' ρ).map BTree.root = (sh ρ).map BTree.root
  slot : ∃ u s, (∃ s₁, Listed sh π u s₁ ∧ s₁.key_slice = x) ∧ Listed sh' π u s ∧
    s.key? = some ((x :: r.1, r.2), v)
  nodes : ∀ ρ t, sh ρ = some t → ρ.length ≤ π.length → ∀ q ∈ t.ptrs, (h.mem q).Reslot (h'.mem q)
  same : ∀ ρ, ρ.length ≤ π.length → ρ ≠ π → sh' ρ = sh ρ

/-- The last key of a lower layer goes back up as a suffix. -/
theorem ShapeOk.deleteLayer (hok : ShapeOk h sh) {x : Nat} {s₀ : Slot V} {r : List Nat × Nat} {v : V}
    (hsh : sh (π ++ [x]) = some (.leaf p [s₀])) (hr : s₀.key? = some (r, v)) :
    ∃ h' sh', handle_delete_layer_in_remove h p = some h' ∧ LayerGone h h' sh sh' π x r v := by
  have hlayer := hok.layer _ _ hsh
  have hn : BorderAt (h.mem p) none [s₀] := stored_leaf.mp hlayer.stored
  have hs₀ : Listed sh (π ++ [x]) p s₀ := (listed_iff hsh).mpr (inLeaves_single.mpr ⟨rfl, rfl⟩)
  have hlive₀ := hok.live hs₀
  obtain ⟨hsuffix, hrne, hrsize, hrslices⟩ := suffixFor_spec hlive₀ hr
  obtain ⟨gs, u, es, a, b, i, hshu, hctx, hwf, hupper, hfind, hi, hslot⟩ := hok.upper_slot hsh
  change (h.mem p).upperLayer = some u at hupper
  change (h.mem u).findNextLayerIndex p = some i at hfind
  change (h.mem u).slot i = ⟨key_len_layer, x, .link p, none⟩ at hslot
  have hlayeru := hok.layer π _ hshu
  have hnu : BorderAt (h.mem u) (parent gs) es := stored_leaf.mp (stored_plug.mp hlayeru.stored).2
  have hcell : Listed sh π u ((h.mem u).slot i) := ⟨_, es, hshu, leaf_mem_plug gs u es, hnu.slot_mem hi⟩
  obtain ⟨j, hperm, hj⟩ : ∃ j, (h.mem p).permutation = [j] ∧ (h.mem p).slot j = s₀ := by
    have := hn.entries
    rw [Node.entries, List.map_eq_singleton_iff] at this
    exact this
  have hroot : (h.mem p).is_root = true := (hlayer.roots p (List.mem_singleton_self p)).mpr rfl
  have hup : u ≠ p := by
    rintro rfl
    have := hok.disjoint π _ _ _ u hshu hsh Place.mem_ptrs (List.mem_singleton_self u)
    simp at this
  set s' : Slot V := ⟨key_len_has_suffix, x, .value v, some ⟨r.1, r.2⟩⟩ with hs'
  set h' := (h.modify u (·.setSlot i s')).modify p fun n =>
    { n.setSlot j { n.slot j with lv := .null, suffix := none } with deleted := true } with hh'
  have hdel : handle_delete_layer_in_remove h p = some h' := by
    simp only [handle_delete_layer_in_remove, hn.parent, hperm, hroot, hupper, List.headD_cons, hj, hsuffix, hfind,
      hslot, Slot.lv_of_key? hr, guard, if_true, List.length_singleton, Option.bind_eq_bind, Option.bind_some,
      Option.pure_def, Heap.modify, hh', hs']
  have hat : h'.mem u = (h.mem u).setSlot i s' := by
    rw [hh', Heap.mem_modify_of_ne _ _ hup, Heap.mem_modify_self]
  have hother : ∀ q, q ≠ p → q ≠ u → h'.mem q = h.mem q := by
    intro q hqp hqu
    rw [hh', Heap.mem_modify_of_ne _ _ hqp, Heap.mem_modify_of_ne _ _ hqu]
  have hout : ∀ {ρ t q}, sh ρ = some t → ρ ≠ π ++ [x] → q ∈ t.ptrs → q ≠ p := by
    rintro ρ t q ht hρ hq rfl
    exact hρ (hok.disjoint ρ _ t _ q ht hsh hq (List.mem_singleton_self q))
  have hreslot : ∀ q, q ≠ p → (h.mem q).Reslot (h'.mem q) := by
    intro q hqp
    by_cases hqu : q = u
    · rw [hqu, hat]
      exact ⟨_, rfl⟩
    · rw [hother q hqp hqu]
      exact .refl _
  have hlive' : s'.Live := .long v hrne hrsize (hrslices (hok.slice_lt hs₀))
  obtain ⟨es', hn', hmap, hmem⟩ := hnu.replaceSlot hi hlive' (by rw [hslot]; rfl)
  have hg : Regrown h h' sh π gs u es es' ((h.mem u).slot i) s' none := by
    refine ⟨hshu, hnu.slot_mem hi, by rw [hslot]; rfl, rfl, hmem, ?_, rfl, ?_, ?_, ?_, ?_⟩
    · refine hlayeru.replaceLeaf hctx (wf_leaf_congr hmap hwf) (Nat.le_refl _) ?_ ?_ ?_ ?_ ?_
      · intro q hq hqu
        exact hother q (hout hshu (by simp) hq) hqu
      all_goals rw [hat]
      · exact hnu.parent ▸ hn'
      · rfl
      · rfl
      · rfl
    · intro t ht
      cases ht
    · intro y
      by_contra hsome
      obtain ⟨t, ht⟩ := Option.ne_none_iff_exists'.mp hsome
      obtain ⟨p', s, hs, -, hq⟩ := hok.up _ y t ht
      rw [listed_iff hsh] at hs
      rw [(inLeaves_single.mp hs).2, Slot.Live.layer?_of_key? hr] at hq
      cases hq
    · intro ρ t ht hρ hρ'
      refine (hok.layer ρ t ht).frame (Nat.le_refl _) ?_
      intro q hq
      have hqu : q ≠ u := by
        rintro rfl
        exact hρ (hok.disjoint ρ π t _ q ht hshu hq Place.mem_ptrs)
      rw [hother q (hout ht hρ' hq) hqu]
      exact ⟨.refl _, rfl, rfl, rfl, rfl⟩
    · intro ρ t ht hρ
      obtain ⟨slot, he⟩ := hreslot t.root (hout ht hρ t.root_mem_ptrs)
      rw [he]
  refine ⟨h', _, hdel, hg.shapeOk hok, fun K w => hg.holds hok ?_, ?_, ?_, ?_, ?_⟩
  · intro r' w
    constructor
    · rintro (hr' | ⟨p', s, r', hs, -⟩)
      · obtain ⟨rfl, rfl⟩ := Prod.mk.inj (Option.some.inj hr')
        exact Or.inr ⟨p, s₀, r, hs₀, hr, rfl⟩
      · obtain ⟨t, es₁, ht, -⟩ := hs
        change Shape.regrow sh π gs u es' x none (π ++ [x]) = some t at ht
        rw [regrow_below] at ht
        cases ht
    · rintro (hr' | ⟨p', s, r'', hs, hr', rfl⟩)
      · rw [hslot] at hr'
        cases hr'
      · change Listed sh (π ++ [x]) p' s at hs
        rw [listed_iff hsh] at hs
        rw [(inLeaves_single.mp hs).2, hr, Option.some.injEq, Prod.mk.injEq] at hr'
        obtain ⟨rfl, rfl⟩ := hr'
        exact Or.inl rfl
  · intro ρ hρ
    refine hg.roots ?_
    simp only [List.length_append, List.length_singleton]
    omega
  · exact ⟨u, s', ⟨_, hcell, by rw [hslot]⟩, (hg.listed hok).mpr (Or.inl ⟨rfl, rfl⟩), rfl⟩
  · intro ρ t ht hρ q hq
    refine hreslot q (hout ht ?_ hq)
    rintro rfl
    simp only [List.length_append, List.length_singleton] at hρ
    omega
  · intro ρ hρ hne
    refine regrow_other hne ?_
    rintro rfl
    simp only [List.length_append, List.length_singleton] at hρ
    omega

end

end Cassa.Masstree

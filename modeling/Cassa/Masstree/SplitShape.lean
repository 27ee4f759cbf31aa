import Cassa.Masstree.Update

/-!
# A split among the layers

The split of a border node moves slots to a new node, so the layers below them get a new
`upperLayer`; a split of the root of a lower layer also changes the link to that layer.
-/

namespace Cassa.Masstree

open Cassa.Lib.SearchTree

variable {V : Type} {h h' : Heap V}

section

variable {sh : Shape V} {π : List Nat} {key : Key} {fs : List (Frame (Slot V))} {p : Ptr}
  {es : List (Slot V)} {a b : Nat}

/-- No two slots link to the same layer. -/
theorem ShapeOk.link_unique (hok : ShapeOk h sh) {ρ ρ' : List Nat} {p p' q : Ptr} {s s' : Slot V}
    (hs : Listed sh ρ p s) (hs' : Listed sh ρ' p' s') (hq : s.layer? = some q) (hq' : s'.layer? = some q) :
    ρ = ρ' ∧ p = p' ∧ s = s' := by
  obtain ⟨t, ht, hr, -⟩ := hok.down ρ p s q hs hq
  obtain ⟨t', ht', hr', -⟩ := hok.down ρ' p' s' q hs' hq'
  have hpath := hok.disjoint _ _ t t' q ht ht' (hr ▸ t.root_mem_ptrs) (hr' ▸ t'.root_mem_ptrs)
  obtain ⟨rfl, hx⟩ := List.append_inj' hpath rfl
  have hid : s.id = s'.id := by
    rw [(hok.live hs).id_of_layer hq, (hok.live hs').id_of_layer hq', (List.cons.inj hx).1]
  obtain ⟨rfl, rfl⟩ := hok.unique hs hs' hid
  exact ⟨rfl, rfl, rfl⟩

/-- The layer that a slot links to is another one, in other nodes. -/
theorem ShapeOk.link_outside (hok : ShapeOk h sh) {t : Layer V} (ht : sh π = some t) {s : Slot V} {q : Ptr}
    (hs : Listed sh π p s) (hq : s.layer? = some q) : q < h.fresh ∧ q ∉ t.ptrs := by
  obtain ⟨t', ht', hr, -⟩ := hok.down π p s q hs hq
  have hmem : q ∈ t'.ptrs := hr ▸ t'.root_mem_ptrs
  refine ⟨(hok.layer _ t' ht').lt q hmem, ?_⟩
  intro hq'
  have := congrArg List.length (hok.disjoint π _ t t' q ht ht' hq' hmem)
  simp at this

/-- The slot above a lower layer, with its place in memory. -/
theorem ShapeOk.upper_slot (hok : ShapeOk h sh) {x : Nat} {t : Layer V} (ht : sh (π ++ [x]) = some t) :
    ∃ gs u es₀ a b i, sh π = some (plug gs (.leaf u es₀)) ∧ WfCtx Slot.key_slice 15 gs a b 0 maxSlice ∧
      (BTree.leaf u es₀).Wf Slot.key_slice 15 a b ∧ (h.mem t.root).upperLayer = some u ∧
      (h.mem u).findNextLayerIndex t.root = some i ∧ i ∈ (h.mem u).permutation ∧
      (h.mem u).slot i = ⟨key_len_layer, x, .link t.root, none⟩ := by
  obtain ⟨u, s, hs, hx, hlayer⟩ := hok.up π x t ht
  obtain ⟨t', ht', -, hupper⟩ := hok.down π u s t.root hs hlayer
  have hlive := hok.live hs
  have hlt := hok.slice_lt hs
  obtain ⟨t₀, es₀, ht₀, hl, hmem⟩ := hs
  have hs : Listed sh π u s := ⟨t₀, es₀, ht₀, hl, hmem⟩
  have hlayer₀ := hok.layer π t₀ ht₀
  obtain ⟨gs, u', es', a, b, rfl, hctx, hwf, ha, hb, -⟩ :=
    descend_spec hlayer₀.stored hlayer₀.wf (Nat.zero_le _) hlt
  obtain ⟨rfl, rfl⟩ : u = u' ∧ es₀ = es' := by simpa using leaf_of_slice hctx hl hmem ha hb
  obtain ⟨par, hn⟩ := hlayer₀.stored.leaf_at hl
  obtain ⟨j, hj, rfl⟩ := hn.exists_index hmem
  have hlv := Slot.lv_of_layer? hlayer
  have hsome : ((h.mem u).findNextLayerIndex t.root).isSome := by
    rw [Node.findNextLayerIndex, List.find?_isSome]
    exact ⟨j, List.mem_range.mpr (hn.slots.lt j hj), by rw [hlv]; simp [LinkOrValue.isLink]⟩
  obtain ⟨i, hi⟩ := Option.isSome_iff_exists.mp hsome
  have hlink : ((h.mem u).slot i).layer? = some t.root := by
    have hfound := List.find?_some hi
    unfold Slot.layer?
    cases hq : ((h.mem u).slot i).lv <;> simp_all [LinkOrValue.isLink]
  have hiperm : i ∈ (h.mem u).permutation := by
    by_contra hnot
    have := (hn.slots.free i (List.mem_range.mp (List.mem_of_find?_eq_some hi)) hnot).2
    rw [this] at hlink
    cases hlink
  obtain ⟨-, -, heq⟩ := hok.link_unique ⟨_, _, ht₀, hl, hn.slot_mem hiperm⟩ hs hlink hlayer
  refine ⟨gs, u, es₀, a, b, i, ht₀, hctx, hwf, hupper, hi, hiperm, ?_⟩
  rw [heq]
  revert hlive hlayer hx
  generalize (h.mem u).slot j = s
  intro hx hlayer hlive
  cases hlive with
  | short v hlen => cases hlayer
  | long v hne hsize hslices => cases hlayer
  | layer q =>
    obtain rfl := Option.some.inj hlayer
    rw [← hx]

variable {key : Key} {value : V} {t' : Layer V} {esl esr : List (Slot V)} {r : Option Ptr}

/-- The slots of the two halves are those of the leaf, and the new one. -/
theorem mem_halves (hes : esl ++ esr = insertSlot (slotFor key value) es) {s : Slot V} :
    s ∈ esl ∨ s ∈ esr ↔ s = slotFor key value ∨ s ∈ es := by
  rw [← List.mem_append, hes, (insertSlot_perm _ _).mem_iff, List.mem_cons]

theorem mem_halves_link (hk : key.Wf) (hes : esl ++ esr = insertSlot (slotFor key value) es) {s : Slot V}
    (hs : s.layer? ≠ none) : s ∈ esl ∨ s ∈ esr ↔ s ∈ es := by
  rw [mem_halves hes, or_iff_right]
  rintro rfl
  exact hs (slotFor_layer? hk value)

theorem LayerSplit.inLeaves (hls : LayerSplit h h' (plug fs (.leaf p es)) t' fs p esl esr r) {p' : Ptr}
    {s : Slot V} : InLeaves t'.leaves p' s ↔
      p' = p ∧ s ∈ esl ∨ p' = h.fresh ∧ s ∈ esr ∨ InLeaves (leftLeaves fs ++ rightLeaves fs) p' s := by
  rw [hls.leaves, inLeaves_append, inLeaves_cons, inLeaves_cons, inLeaves_append]
  tauto

/-- A slot is listed after the split if it was before, or if it is the new one. -/
theorem LayerSplit.listed (hls : LayerSplit h h' (plug fs (.leaf p es)) t' fs p esl esr r)
    (hes : esl ++ esr = insertSlot (slotFor key value) es) {s : Slot V} :
    (∃ p', InLeaves t'.leaves p' s) ↔
      (∃ p', InLeaves (plug fs (.leaf p es)).leaves p' s) ∨ s = slotFor key value := by
  have hmem := mem_halves hes (s := s)
  constructor
  · rintro ⟨p', hs⟩
    rcases hls.inLeaves.mp hs with ⟨-, hs⟩ | ⟨-, hs⟩ | hs
    · rcases hmem.mp (Or.inl hs) with hs | hs
      · exact Or.inr hs
      · exact Or.inl ⟨p, inLeaves_plug.mpr (Or.inl ⟨rfl, hs⟩)⟩
    · rcases hmem.mp (Or.inr hs) with hs | hs
      · exact Or.inr hs
      · exact Or.inl ⟨p, inLeaves_plug.mpr (Or.inl ⟨rfl, hs⟩)⟩
    · exact Or.inl ⟨p', inLeaves_plug.mpr (Or.inr hs)⟩
  · intro hs
    have hhalf : s = slotFor key value ∨ s ∈ es → ∃ p', InLeaves t'.leaves p' s := by
      intro hs
      rcases hmem.mpr hs with hs | hs
      · exact ⟨p, hls.inLeaves.mpr (Or.inl ⟨rfl, hs⟩)⟩
      · exact ⟨h.fresh, hls.inLeaves.mpr (Or.inr (Or.inl ⟨rfl, hs⟩))⟩
    rcases hs with ⟨p', hs⟩ | hs
    · rcases inLeaves_plug.mp hs with ⟨-, hs⟩ | hs
      · exact hhalf (Or.inr hs)
      · exact ⟨p', hls.inLeaves.mpr (Or.inr (Or.inr hs))⟩
    · exact hhalf (Or.inl hs)

theorem Node.relink_upperLayer (n : Node V) (old : Ptr) (r : Option Ptr) :
    (n.relink old r).upperLayer = n.upperLayer := by
  unfold relink
  split
  · rfl
  · rfl

theorem LayerSplit.upper_eq (hls : LayerSplit h h' (plug fs (.leaf p es)) t' fs p esl esr r) {q : Ptr}
    (hq : q < h.fresh) (hout : q ∉ (plug fs (.leaf p es)).ptrs) : (h'.mem q).upperLayer =
      if some q ∈ esr.map Slot.layer? then some h.fresh
      else if some q ∈ esl.map Slot.layer? then some p else (h.mem q).upperLayer := by
  rw [hls.outside q hq hout]
  split
  · rw [Node.relink_upperLayer]
    rfl
  · rfl

/-- A node that no slot of the leaf links to. -/
theorem LayerSplit.outside_eq (hk : key.Wf) (hls : LayerSplit h h' (plug fs (.leaf p es)) t' fs p esl esr r)
    (hes : esl ++ esr = insertSlot (slotFor key value) es) {q : Ptr} (hq : q < h.fresh)
    (hout : q ∉ (plug fs (.leaf p es)).ptrs) (hnot : ∀ s ∈ es, s.layer? ≠ some q) :
    h'.mem q = if (h.mem (plug fs (.leaf p es)).root).upperLayer = some q then
      (h.mem q).relink (plug fs (.leaf p es)).root r else h.mem q := by
  have hmem : ∀ s, s ∈ esl ∨ s ∈ esr → s.layer? ≠ some q := by
    intro s hs hsq
    exact hnot s ((mem_halves_link hk hes (by rw [hsq]; exact Option.some_ne_none _)).mp hs) hsq
  have hl : some q ∉ esl.map Slot.layer? := by
    intro he
    obtain ⟨s, hs, hsq⟩ := List.mem_map.mp he
    exact hmem s (Or.inl hs) hsq
  have hr : some q ∉ esr.map Slot.layer? := by
    intro he
    obtain ⟨s, hs, hsq⟩ := List.mem_map.mp he
    exact hmem s (Or.inr hs) hsq
  rw [hls.outside q hq hout, Node.setUpper, if_neg hr, if_neg hl]

theorem LayerSplit.upper_other (hk : key.Wf) (hls : LayerSplit h h' (plug fs (.leaf p es)) t' fs p esl esr r)
    (hes : esl ++ esr = insertSlot (slotFor key value) es) {q : Ptr} (hq : q < h.fresh)
    (hout : q ∉ (plug fs (.leaf p es)).ptrs) (hnot : ∀ s ∈ es, s.layer? ≠ some q) :
    (h'.mem q).upperLayer = (h.mem q).upperLayer := by
  rw [hls.outside_eq hk hes hq hout hnot]
  split
  · exact Node.relink_upperLayer _ _ _
  · rfl

/-- The other leaves of the layer have other addresses. -/
theorem LayerOk.elsewhere_ne (hok : LayerOk h (plug fs (.leaf p es))) {p' : Ptr} {s : Slot V}
    (hs : InLeaves (leftLeaves fs ++ rightLeaves fs) p' s) : p' ≠ p := by
  obtain ⟨es', hl, -⟩ := hs
  obtain ⟨-, hnodup, -⟩ := hok.leafPtrs
  obtain ⟨-, hr, hd⟩ := List.nodup_append.mp hnodup
  rintro rfl
  rcases List.mem_append.mp hl with hl | hl
  · exact hd p' (List.mem_map_of_mem hl) p' List.mem_cons_self rfl
  · exact (List.nodup_cons.mp hr).1 (List.mem_map_of_mem hl)

/-- A layer below the leaf: its root knows the half with the link. -/
theorem LayerSplit.upper_below (hok : ShapeOk h sh) (hp : Place sh π key fs p es a b) (hk : key.Wf)
    (hls : LayerSplit h h' (plug fs (.leaf p es)) t' fs p esl esr r)
    (hes : esl ++ esr = insertSlot (slotFor key value) es) (hnodup : (esl ++ esr).Nodup) {p' q : Ptr}
    {s : Slot V} (hin : InLeaves t'.leaves p' s) (hq : s.layer? = some q) :
    (∃ p₀, Listed sh π p₀ s) ∧ (h'.mem q).upperLayer = some p' := by
  have hne : ∀ {s' : Slot V}, s'.layer? = some q → s'.layer? ≠ none := by
    intro s' he
    rw [he]
    exact Option.some_ne_none _
  have hhalf : ∀ {s' : Slot V}, s'.layer? = some q → s' ∈ esl ∨ s' ∈ esr → Listed sh π p s' :=
    fun he hs' => hp.listed ((mem_halves_link hk hes (hne he)).mp hs')
  rcases hls.inLeaves.mp hin with ⟨rfl, hs⟩ | ⟨rfl, hs⟩ | hs
  · have hl := hhalf hq (Or.inl hs)
    obtain ⟨hlt, hout⟩ := hok.link_outside hp.shape hl hq
    have hr : some q ∉ esr.map Slot.layer? := by
      intro he
      obtain ⟨s', hs', hq'⟩ := List.mem_map.mp he
      obtain ⟨-, -, rfl⟩ := hok.link_unique hl (hhalf hq' (Or.inr hs')) hq hq'
      exact (List.nodup_append.mp hnodup).2.2 s hs s hs' rfl
    refine ⟨⟨p', hl⟩, ?_⟩
    rw [hls.upper_eq hlt hout, if_neg hr, if_pos (hq ▸ List.mem_map_of_mem hs)]
  · have hl := hhalf hq (Or.inr hs)
    obtain ⟨hlt, hout⟩ := hok.link_outside hp.shape hl hq
    refine ⟨⟨p, hl⟩, ?_⟩
    rw [hls.upper_eq hlt hout, if_pos (hq ▸ List.mem_map_of_mem hs)]
  · have hl : Listed sh π p' s := (listed_iff hp.shape).mpr (inLeaves_plug.mpr (Or.inr hs))
    obtain ⟨hlt, hout⟩ := hok.link_outside hp.shape hl hq
    refine ⟨⟨p', hl⟩, ?_⟩
    obtain ⟨t₁, -, -, hupper⟩ := hok.down π p' s q hl hq
    rw [hls.upper_other hk hes hlt hout, hupper]
    intro s' hs' hq'
    obtain ⟨-, he, -⟩ := hok.link_unique hl (hp.listed hs') hq hq'
    exact (hp.layerOk hok).elsewhere_ne hs he

/-- The layers other than `π`, where the link to the root `old` of `π` is set to `new`. -/
structure Relinked (h' : Heap V) (sh sh₀ : Shape V) (π : List Nat) (old new : Ptr) : Prop where
  layer : ∀ ρ t, ρ ≠ π → sh₀ ρ = some t →
    LayerOk h' t ∧ ∃ t₀, sh ρ = some t₀ ∧ t.root = t₀.root ∧ ∀ q ∈ t.ptrs, q ∈ t₀.ptrs
  kept : ∀ ρ t₀, ρ ≠ π → sh ρ = some t₀ → ∃ t, sh₀ ρ = some t
  links : ∀ ρ p s, ρ ≠ π → s.layer? ≠ none → (Listed sh₀ ρ p s ↔
    Listed sh ρ p s ∧ s.layer? ≠ some old ∨
      ∃ s₀, Listed sh ρ p s₀ ∧ s₀.layer? = some old ∧ s = { s₀ with lv := .link new })
  keys : ∀ ρ p s, ρ ≠ π → s.layer? = none → (Listed sh₀ ρ p s ↔ Listed sh ρ p s)

/-- A link to the layer `π` comes from the layer above. -/
theorem ShapeOk.link_path (hok : ShapeOk h sh) {t : Layer V} (ht : sh π = some t) {ρ : List Nat} {p : Ptr}
    {s : Slot V} (hs : Listed sh ρ p s) (hq : s.layer? = some t.root) : ρ ++ [s.key_slice] = π := by
  obtain ⟨t₁, ht₁, hr, -⟩ := hok.down ρ p s t.root hs hq
  exact hok.disjoint _ _ t₁ t t.root ht₁ ht (hr ▸ t₁.root_mem_ptrs) t.root_mem_ptrs

theorem LayerSplit.shapeOk {sh₀ : Shape V} (hok : ShapeOk h sh) (hp : Place sh π key fs p es a b) (hk : key.Wf)
    (hls : LayerSplit h h' (plug fs (.leaf p es)) t' fs p esl esr r)
    (hes : esl ++ esr = insertSlot (slotFor key value) es) (hnodup : (esl ++ esr).Nodup)
    (hre : Relinked h' sh sh₀ π (plug fs (.leaf p es)).root t'.root) :
    ShapeOk h' (Function.update sh₀ π (some t')) := by
  set t := plug fs (.leaf p es) with ht
  have hself : Function.update sh₀ π (some t') π = some t' := Function.update_self ..
  have hne : ∀ ρ, ρ ≠ π → Function.update sh₀ π (some t') ρ = sh₀ ρ := fun ρ hρ => Function.update_of_ne hρ ..
  have hupper : ∀ {ρ t₁}, sh ρ = some t₁ → ρ ≠ π → (∀ s ∈ es, s.layer? ≠ some t₁.root) →
      (h'.mem t₁.root).upperLayer = (h.mem t₁.root).upperLayer := by
    intro ρ t₁ ht₁ hρ hnot
    refine hls.upper_other hk hes ((hok.layer ρ t₁ ht₁).lt _ t₁.root_mem_ptrs) ?_ hnot
    intro hmem
    exact hρ (hok.disjoint ρ π t₁ t t₁.root ht₁ hp.shape t₁.root_mem_ptrs hmem)
  refine ⟨?_, hok.disjoint_of (π := π) ?_, ?_, ?_, ?_⟩
  · intro ρ t₁ ht₁
    by_cases hρ : ρ = π
    · rw [hρ, hself, Option.some.injEq] at ht₁
      exact ht₁ ▸ hls.ok
    · rw [hne ρ hρ] at ht₁
      exact (hre.layer ρ t₁ hρ ht₁).1
  · intro ρ t₁ q ht₁ hq
    by_cases hρ : ρ = π
    · rw [hρ, hself, Option.some.injEq] at ht₁
      rw [← ht₁] at hq
      rcases hls.ptrs q hq with hq | hq
      · exact Or.inl ⟨t, hρ ▸ hp.shape, hq⟩
      · exact Or.inr ⟨hq, hρ⟩
    · rw [hne ρ hρ] at ht₁
      obtain ⟨-, t₀, ht₀, -, hsub⟩ := hre.layer ρ t₁ hρ ht₁
      exact Or.inl ⟨t₀, ht₀, hsub q hq⟩
  · intro t₁ ht₁
    by_cases hρ : [] = π
    · rw [hρ, hself, Option.some.injEq] at ht₁
      rw [← ht₁, hls.upper]
      exact hok.top t (hρ ▸ hp.shape)
    · rw [hne [] hρ] at ht₁
      obtain ⟨-, t₀, ht₀, hr, -⟩ := hre.layer [] t₁ hρ ht₁
      rw [hr, hupper ht₀ hρ, hok.top t₀ ht₀]
      intro s hs hq
      have := hok.link_path ht₀ (hp.listed hs) hq
      simp at this
  · intro ρ p' s q hs hq
    by_cases hρ : ρ = π
    · rw [hρ] at hs ⊢
      obtain ⟨⟨p₀, hl⟩, hup⟩ := hls.upper_below hok hp hk hes hnodup ((listed_iff hself).mp hs) hq
      obtain ⟨t₁, ht₁, hr, -⟩ := hok.down π p₀ s q hl hq
      have hπ : π ++ [s.key_slice] ≠ π := by simp
      obtain ⟨t₂, ht₂⟩ := hre.kept _ t₁ hπ ht₁
      obtain ⟨-, t₀, ht₀, hr₀, -⟩ := hre.layer _ t₂ hπ ht₂
      obtain rfl := Option.some.inj (ht₁.symm.trans ht₀)
      exact ⟨t₂, (hne _ hπ).trans ht₂, hr₀.trans hr, hup⟩
    · rw [listed_congr (hne ρ hρ), hre.links ρ p' s hρ (by rw [hq]; exact Option.some_ne_none _)] at hs
      rcases hs with ⟨hs, hold⟩ | ⟨s₀, hs₀, hq₀, rfl⟩
      · obtain ⟨t₁, ht₁, rfl, hup⟩ := hok.down ρ p' s q hs hq
        have hπ : ρ ++ [s.key_slice] ≠ π := by
          intro he
          rw [he] at ht₁
          obtain rfl := Option.some.inj (ht₁.symm.trans hp.shape)
          exact hold hq
        obtain ⟨t₂, ht₂⟩ := hre.kept _ t₁ hπ ht₁
        obtain ⟨-, t₀, ht₀, hr₀, -⟩ := hre.layer _ t₂ hπ ht₂
        obtain rfl := Option.some.inj (ht₁.symm.trans ht₀)
        refine ⟨t₂, (hne _ hπ).trans ht₂, hr₀, ?_⟩
        rw [hupper ht₁ hπ, hup]
        intro s' hs' hq'
        exact hρ (hok.link_unique hs (hp.listed hs') hq hq').1
      · obtain rfl : t'.root = q := by simpa [Slot.layer?] using hq
        have hpath := hok.link_path hp.shape hs₀ hq₀
        obtain ⟨t₁, -, -, hup⟩ := hok.down ρ p' s₀ _ hs₀ hq₀
        refine ⟨t', ?_, rfl, hls.upper.trans hup⟩
        change Function.update sh₀ π (some t') (ρ ++ [s₀.key_slice]) = some t'
        rw [hpath, hself]
  · intro ρ x t₁ ht₁
    by_cases hπ : ρ ++ [x] = π
    · rw [hπ, hself, Option.some.injEq] at ht₁
      have hρ : ρ ≠ π := by
        rintro rfl
        simp at hπ
      obtain ⟨p', s, hs, hx, hq⟩ := hok.up ρ x t (hπ ▸ hp.shape)
      refine ⟨p', { s with lv := .link t'.root }, ?_, hx, by rw [← ht₁]; rfl⟩
      rw [listed_congr (hne ρ hρ), hre.links ρ p' _ hρ (by exact Option.some_ne_none _)]
      exact Or.inr ⟨s, hs, hq, rfl⟩
    · rw [hne _ hπ] at ht₁
      obtain ⟨-, t₀, ht₀, hr, -⟩ := hre.layer _ t₁ hπ ht₁
      obtain ⟨p', s, hs, hx, hq⟩ := hok.up ρ x t₀ ht₀
      rw [hr]
      by_cases hρ : ρ = π
      · rw [hρ] at hs ⊢
        obtain ⟨p'', hs'⟩ := (hls.listed hes).mpr (Or.inl ⟨p', (listed_iff hp.shape).mp hs⟩)
        exact ⟨p'', s, (listed_iff hself).mpr hs', hx, hq⟩
      · refine ⟨p', s, ?_, hx, hq⟩
        rw [listed_congr (hne ρ hρ), hre.links ρ p' s hρ (by rw [hq]; exact Option.some_ne_none _)]
        refine Or.inl ⟨hs, ?_⟩
        intro hold
        exact hπ (hx ▸ hok.link_path hp.shape hs hold)

/-- The layers that neither hold the leaf nor the slot above it. -/
theorem LayerSplit.frame (hok : ShapeOk h sh) (hp : Place sh π key fs p es a b)
    (hls : LayerSplit h h' (plug fs (.leaf p es)) t' fs p esl esr r) {ρ : List Nat} {t₁ : Layer V}
    (ht₁ : sh ρ = some t₁) (hρ : ρ ≠ π)
    (hup : ∀ q ∈ t₁.ptrs, r = none ∨ (h.mem (plug fs (.leaf p es)).root).upperLayer ≠ some q) :
    LayerOk h' t₁ := by
  refine (hok.layer ρ t₁ ht₁).frame (Nat.le_of_lt hls.fresh) ?_
  intro q hq
  have hout : q ∉ (plug fs (.leaf p es)).ptrs := fun hq' => hρ (hok.disjoint ρ π _ _ q ht₁ hp.shape hq hq')
  have heq : h'.mem q = (h.mem q).setUpper q p h.fresh esl esr := by
    rw [hls.outside q ((hok.layer ρ t₁ ht₁).lt q hq) hout]
    rcases hup q hq with rfl | hne
    · rw [Node.relink_none, ite_self]
    · rw [if_neg hne]
  rw [heq]
  exact ⟨⟨rfl, rfl, rfl, rfl, rfl, rfl, rfl⟩, rfl, rfl, rfl, rfl⟩

/-- No link to the layer has to change: its root stays, or it is layer 0. -/
theorem LayerSplit.relinked_same (hok : ShapeOk h sh) (hp : Place sh π key fs p es a b)
    (hls : LayerSplit h h' (plug fs (.leaf p es)) t' fs p esl esr r) (hr : r = none ∨ π = []) :
    Relinked h' sh sh π (plug fs (.leaf p es)).root t'.root where
  layer := by
    intro ρ t₁ hρ ht₁
    refine ⟨hls.frame hok hp ht₁ hρ ?_, t₁, ht₁, rfl, fun q hq => hq⟩
    intro q hq
    rcases hr with hr | rfl
    · exact Or.inl hr
    · rw [hok.top _ hp.shape]
      exact Or.inr nofun
  kept := fun ρ t₀ _ ht₀ => ⟨t₀, ht₀⟩
  links := by
    intro ρ p' s hρ hs
    have hold : ∀ s₀, Listed sh ρ p' s₀ → s₀.layer? = some (plug fs (.leaf p es)).root →
        { s₀ with lv := LinkOrValue.link t'.root } = s₀ := by
      intro s₀ hs₀ hq₀
      have hpath := hok.link_path hp.shape hs₀ hq₀
      have hroot : t'.root = (plug fs (.leaf p es)).root := by
        rcases hls.root with ⟨-, hroot⟩ | ⟨rfl, -⟩
        · exact hroot
        · rcases hr with hr | rfl
          · cases hr
          · simp at hpath
      rw [hroot, ← Slot.lv_of_layer? hq₀]
    constructor
    · intro hl
      by_cases hq : s.layer? = some (plug fs (.leaf p es)).root
      · exact Or.inr ⟨s, hl, hq, (hold s hl hq).symm⟩
      · exact Or.inl ⟨hl, hq⟩
    · rintro (⟨hl, -⟩ | ⟨s₀, hl, hq, rfl⟩)
      · exact hl
      · rw [hold s₀ hl hq]
        exact hl
  keys := fun ρ p' s _ _ => Iff.rfl

/-- The slots of all layers, once the link to the root `q` has been set to `q'`. -/
theorem ShapeOk.listed_relink {gs : List (Frame (Slot V))} {u q q' : Ptr} {es₀ es' : List (Slot V)} {c : Slot V}
    (hok : ShapeOk h sh) (ht₀ : sh π = some (plug gs (.leaf u es₀))) (hcell : Listed sh π u c)
    (hcq : c.layer? = some q) (hmem : ∀ s, s ∈ es' ↔ s = { c with lv := .link q' } ∨ s ∈ es₀ ∧ s ≠ c)
    {ρ : List Nat} {p' : Ptr} {s : Slot V} :
    Listed (Function.update sh π (some (plug gs (.leaf u es')))) ρ p' s ↔
      (Listed sh ρ p' s ∧ s.layer? ≠ some q) ∨
        ∃ s₀, Listed sh ρ p' s₀ ∧ s₀.layer? = some q ∧ s = { s₀ with lv := .link q' } := by
  by_cases hρ : ρ = π
  · have hself : Function.update sh π (some (plug gs (.leaf u es'))) π = some (plug gs (.leaf u es')) :=
      Function.update_self ..
    rw [hρ, listed_iff hself, inLeaves_plug, hmem, listed_iff ht₀, inLeaves_plug]
    constructor
    · rintro (⟨rfl, rfl | ⟨hs, hne⟩⟩ | hs)
      · exact Or.inr ⟨c, hcell, hcq, rfl⟩
      · refine Or.inl ⟨Or.inl ⟨rfl, hs⟩, ?_⟩
        intro hq
        exact hne (hok.link_unique ⟨_, es₀, ht₀, leaf_mem_plug gs _ es₀, hs⟩ hcell hq hcq).2.2
      · refine Or.inl ⟨Or.inr hs, ?_⟩
        intro hq
        have hl : Listed sh π p' s := (listed_iff ht₀).mpr (inLeaves_plug.mpr (Or.inr hs))
        exact (hok.layer π _ ht₀).elsewhere_ne hs (hok.link_unique hl hcell hq hcq).2.1
    · rintro (⟨⟨rfl, hs⟩ | hs, hq⟩ | ⟨s₀, hs₀, hq₀, rfl⟩)
      · refine Or.inl ⟨rfl, Or.inr ⟨hs, ?_⟩⟩
        rintro rfl
        exact hq hcq
      · exact Or.inr hs
      · obtain ⟨-, rfl, rfl⟩ := hok.link_unique hs₀ hcell hq₀ hcq
        exact Or.inl ⟨rfl, Or.inl rfl⟩
  · have hnot : ∀ s₀, Listed sh ρ p' s₀ → s₀.layer? ≠ some q := by
      intro s₀ hs₀ hq₀
      exact hρ (hok.link_unique hs₀ hcell hq₀ hcq).1
    rw [listed_congr (Function.update_of_ne hρ ..)]
    constructor
    · intro hl
      exact Or.inl ⟨hl, hnot s hl⟩
    · rintro (⟨hl, -⟩ | ⟨s₀, hs₀, hq₀, -⟩)
      · exact hl
      · exact absurd hq₀ (hnot s₀ hs₀)

/-- The link to a lower layer is set to its new root. -/
theorem LayerSplit.relinked_above {x : Nat} (hok : ShapeOk h sh) (hp : Place sh (π ++ [x]) key fs p es a b)
    (hk : key.Wf) (hls : LayerSplit h h' (plug fs (.leaf p es)) t' fs p esl esr (some t'.root))
    (hes : esl ++ esr = insertSlot (slotFor key value) es) :
    ∃ sh₀, Relinked h' sh sh₀ (π ++ [x]) (plug fs (.leaf p es)).root t'.root ∧
      ∀ ρ, (sh₀ ρ).map BTree.root = (sh ρ).map BTree.root := by
  set t := plug fs (.leaf p es) with ht
  obtain ⟨gs, u, es₀, a₀, b₀, i, ht₀, hctx, hwf, hupper, hfind, hi, hslot⟩ := hok.upper_slot hp.shape
  have hlayer₀ := hok.layer π _ ht₀
  have hn : BorderAt (h.mem u) (parent gs) es₀ := stored_leaf.mp (stored_plug.mp hlayer₀.stored).2
  have hπ : π ≠ π ++ [x] := by simp
  have hcell : Listed sh π u ((h.mem u).slot i) := ⟨_, es₀, ht₀, leaf_mem_plug gs u es₀, hn.slot_mem hi⟩
  have hcellq : ((h.mem u).slot i).layer? = some t.root := by rw [hslot]; rfl
  obtain ⟨es', hn', hmap, hmem⟩ := hn.replaceSlot hi
    (show Slot.Live ⟨key_len_layer, x, .link t'.root, none⟩ from .layer _) (by rw [hslot]; rfl)
  have hat : ∀ q ∈ (plug gs (.leaf u es₀)).ptrs, h'.mem q =
      if u = q then (h.mem u).setSlot i ⟨key_len_layer, x, .link t'.root, none⟩ else h.mem q := by
    intro q hq
    have hout : q ∉ t.ptrs := fun hq' => hπ (hok.disjoint π _ _ t q ht₀ hp.shape hq hq')
    have hnot : ∀ s ∈ es, s.layer? ≠ some q := by
      intro s hs hsq
      obtain ⟨t₁, ht₁, rfl, -⟩ := hok.down _ p s q (hp.listed hs) hsq
      have := congrArg List.length (hok.disjoint _ _ _ t₁ _ ht₀ ht₁ hq t₁.root_mem_ptrs)
      simp at this
    rw [hls.outside_eq hk hes (hlayer₀.lt q hq) hout hnot, hupper]
    by_cases huq : u = q
    · rw [← huq, if_pos rfl, if_pos rfl, Node.relink_some hfind, Node.setLV, hslot]
    · rw [if_neg (by simpa using huq), if_neg huq]
  have hatu := hat u Place.mem_ptrs
  rw [if_pos rfl] at hatu
  have hself : Function.update sh π (some (plug gs (.leaf u es'))) π = some (plug gs (.leaf u es')) :=
    Function.update_self ..
  have hne : ∀ ρ, ρ ≠ π → Function.update sh π (some (plug gs (.leaf u es'))) ρ = sh ρ :=
    fun ρ hρ => Function.update_of_ne hρ ..
  have hroot : (plug gs (.leaf u es')).root = (plug gs (.leaf u es₀)).root := root_plug_congr rfl
  have hlinks := @ShapeOk.listed_relink V h sh π gs u t.root t'.root es₀ es' _ hok ht₀ hcell hcellq (by
    intro s
    rw [hmem, hslot])
  refine ⟨Function.update sh π (some (plug gs (.leaf u es'))), ⟨?_, ?_, ?_, ?_⟩, ?_⟩
  · intro ρ t₁ hρ ht₁
    by_cases hρ₀ : ρ = π
    · rw [hρ₀, hself, Option.some.injEq] at ht₁
      rw [hρ₀, ← ht₁]
      refine ⟨?_, _, ht₀, hroot, fun q => Place.ptrs_iff.mp⟩
      refine hlayer₀.replaceLeaf hctx (wf_leaf_congr hmap hwf) (Nat.le_of_lt hls.fresh) ?_ ?_ ?_ ?_ ?_
      · intro q hq hqu
        rw [hat q hq, if_neg (Ne.symm hqu)]
      all_goals rw [hatu]
      · exact hn.parent ▸ hn'
      · rfl
      · rfl
      · rfl
    · rw [hne ρ hρ₀] at ht₁
      refine ⟨hls.frame hok hp ht₁ hρ ?_, t₁, ht₁, rfl, fun q hq => hq⟩
      intro q hq
      right
      rw [hupper, ne_eq, Option.some.injEq]
      rintro rfl
      exact hρ₀ (hok.disjoint ρ π t₁ _ u ht₁ ht₀ hq Place.mem_ptrs)
  · intro ρ t₁ _ ht₁
    by_cases hρ₀ : ρ = π
    · exact ⟨_, by rw [hρ₀, hself]⟩
    · exact ⟨t₁, (hne ρ hρ₀).trans ht₁⟩
  · intro ρ p' s _ _
    exact hlinks
  · intro ρ p' s _ hs
    rw [hlinks, hs]
    constructor
    · rintro (⟨hl, -⟩ | ⟨s₀, -, -, rfl⟩)
      · exact hl
      · cases hs
    · intro hl
      exact Or.inl ⟨hl, (Option.some_ne_none _).symm⟩
  · intro ρ
    by_cases hρ₀ : ρ = π
    · rw [hρ₀, hself, ht₀, Option.map_some, Option.map_some, hroot]
    · rw [hne ρ hρ₀]

theorem BorderAt.nodup {n : Node V} {par : Option Ptr} (hn : BorderAt n par es) : es.Nodup := by
  have hids := hn.slots.ids
  rw [← hn.entries]
  exact List.Nodup.of_map Slot.id (by rw [Node.entries, List.map_map]; exact hids)

/-- The split of the leaf for a key that is not in it. -/
theorem Place.splitLeaf (hok : ShapeOk h sh) (hp : Place sh π key fs p es a b) (hk : key.At π)
    (hfull : (h.mem p).permutation.length = 15)
    (hslot : newSlot key value key.getCurrentSlice.size (key.cursor + 1) = slotFor key value)
    (hid : ∀ e ∈ es, e.id ≠ (slotFor key value).id) :
    ∃ r h' sh', split h p key value = some (r, h') ∧
      Inserted h' sh sh' π (r.getD (plug fs (.leaf p es)).root) (key.slices, key.lastSliceSize) value := by
  have hlayer := hp.layerOk hok
  have hn := hp.borderAt hok
  obtain ⟨r, h', t', esl, esr, hsplit, hes, hls⟩ := hlayer.split hp.ctx hp.wf hk.wf hp.lo hp.hi hfull hslot hid
    (fun s hs q hq => hok.link_outside hp.shape (hp.listed hs) hq) (by
      intro u hu
      rcases List.eq_nil_or_concat' π with rfl | ⟨π₀, x, rfl⟩
      · rw [hok.top _ hp.shape] at hu
        cases hu
      · obtain ⟨gs, u', es₀, a₀, b₀, i, ht₀, -, -, hupper, hfind, -⟩ := hok.upper_slot hp.shape
        obtain rfl : u' = u := Option.some.inj (hupper.symm.trans hu)
        refine ⟨(hok.layer π₀ _ ht₀).lt u' Place.mem_ptrs, ?_, by rw [hfind]; rfl⟩
        intro hmem
        have := hok.disjoint _ _ _ _ u' ht₀ hp.shape Place.mem_ptrs hmem
        simp at this)
  have hnodup : (esl ++ esr).Nodup := by
    rw [hes, (insertSlot_perm _ _).nodup_iff, List.nodup_cons]
    exact ⟨fun hmem => hid _ hmem rfl, hn.nodup⟩
  obtain ⟨sh₀, hre, hroots⟩ : ∃ sh₀, Relinked h' sh sh₀ π (plug fs (.leaf p es)).root t'.root ∧
      ∀ ρ, (sh₀ ρ).map BTree.root = (sh ρ).map BTree.root := by
    rcases hls.root with ⟨hr, -⟩ | ⟨rfl, -⟩
    · exact ⟨sh, hls.relinked_same hok hp (Or.inl hr), fun _ => rfl⟩
    · rcases List.eq_nil_or_concat' π with rfl | ⟨π₀, x, rfl⟩
      · exact ⟨sh, hls.relinked_same hok hp (Or.inr rfl), fun _ => rfl⟩
      · exact hls.relinked_above hok hp hk.wf hes
  have hself : Function.update sh₀ π (some t') π = some t' := Function.update_self ..
  have hne : ∀ ρ, ρ ≠ π → Function.update sh₀ π (some t') ρ = sh₀ ρ := fun ρ hρ => Function.update_of_ne hρ ..
  refine ⟨r, h', Function.update sh₀ π (some t'), hsplit, hls.shapeOk hok hp hk.wf hes hnodup hre, ?_, ?_, ?_⟩
  · refine fun K v => holds_insert hk ?_
    intro ρ s hs
    by_cases hρ : ρ = π
    · rw [hρ]
      simp only [listed_iff hself, listed_iff hp.shape, hls.listed hes, true_and]
    · simp only [listed_congr (hne ρ hρ), hρ, false_and, or_false]
      have hlayer' : s.layer? = none := by
        obtain ⟨r, hr⟩ := Option.ne_none_iff_exists'.mp hs
        exact Slot.Live.layer?_of_key? hr
      exact exists_congr fun p' => hre.keys ρ p' s hρ hlayer'
  · intro ρ hlen
    rw [hne ρ fun he => by simp [he] at hlen, hroots]
  · rw [hself, Option.map_some]
    rcases hls.root with ⟨rfl, hroot⟩ | ⟨rfl, -⟩
    · rw [hroot, Option.getD_none]
    · rw [Option.getD_some]

end

end Cassa.Masstree

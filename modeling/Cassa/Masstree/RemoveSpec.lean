import Cassa.Masstree.InsertSpec

/-!
# What a removal does

From the border node for a key on, `remove` takes the slot of the key out. A border node
that becomes empty leaves its layer; a lower layer of one key goes first, and the removal
is repeated above it. `collapse` says when the root of a lower layer is replaced by its
only child: there the child does not learn its upper layer.
-/

namespace Cassa.Masstree

open Cassa.Lib.SearchTree

variable {V : Type} {h h' : Heap V}

section

variable {sh sh' : Shape V} {π ρ : List Nat} {p p' : Ptr} {s s' : Slot V}

/-- No key goes on below a slot that holds a key. -/
theorem ShapeOk.not_below (hok : ShapeOk h sh) (hs : Listed sh π p s) {r : List Nat × Nat} {v : V}
    (hr : s.key? = some (r, v)) {y : Nat} {rest : List Nat} (hne : rest ≠ []) (he : r.1 = y :: rest)
    {t : Layer V} (ht : sh (π ++ y :: ρ) = some t) : False := by
  obtain ⟨p', s', t', hs', hy, hlayer, -⟩ := hok.above ht
  obtain ⟨rest', hrest'⟩ := Slot.key?_head hr
  have hx : s.key_slice = y := (List.cons.inj (hrest'.symm.trans he)).1
  have hlen : 2 ≤ r.1.length := by
    have := List.length_pos_iff.mpr hne
    rw [he, List.length_cons]
    omega
  have hlong := (hok.live hs).id_of_long hr hlen
  have hlink := (hok.live hs').id_of_layer hlayer
  obtain ⟨-, rfl⟩ := hok.unique hs hs' (by rw [hlong, hlink, hx, hy])
  rw [Slot.Live.layer?_of_key? hr] at hlayer
  cases hlayer

/-- A key is in one slot. -/
theorem ShapeOk.slot_unique (hok : ShapeOk h sh) (hs : Listed sh π p s) (hs' : Listed sh ρ p' s')
    {r r' : List Nat × Nat} {v v' : V} (hr : s.key? = some (r, v)) (hr' : s'.key? = some (r', v'))
    (he : (π ++ r.1, r.2) = (ρ ++ r'.1, r'.2)) : ρ = π ∧ s' = s := by
  obtain ⟨hslices, hsize⟩ := Prod.mk.inj he
  obtain ⟨rest, hrest⟩ := Slot.key?_head hr
  obtain ⟨rest', hrest'⟩ := Slot.key?_head hr'
  rcases List.append_eq_append_iff.mp hslices with ⟨τ, rfl, hτ⟩ | ⟨τ, rfl, hτ⟩
  · cases τ with
    | nil =>
      rw [List.append_nil] at hs'
      have hrr : r = r' := Prod.ext hτ hsize
      subst hrr
      obtain ⟨-, rfl⟩ := hok.unique hs hs' ((hok.live hs).id_of_key (hok.live hs') hr hr')
      exact ⟨List.append_nil _, rfl⟩
    | cons y τ =>
      obtain ⟨t, es, ht, -, -⟩ := hs'
      exact (hok.not_below hs hr (by rw [hrest']; simp) hτ ht).elim
  · cases τ with
    | nil =>
      rw [List.append_nil] at hs
      have hrr : r = r' := Prod.ext hτ.symm hsize
      subst hrr
      obtain ⟨-, rfl⟩ := hok.unique hs hs' ((hok.live hs).id_of_key (hok.live hs') hr hr')
      exact ⟨(List.append_nil _).symm, rfl⟩
    | cons y τ =>
      obtain ⟨t, es, ht, -, -⟩ := hs
      exact (hok.not_below hs' hr' (by rw [hrest]; simp) hτ ht).elim

/-- One slot less is one key less. -/
theorem holds_erase (hok : ShapeOk h sh) {key : Key} (hk : key.At π) (hs : Listed sh π p s) {v₀ : V}
    (hr : s.key? = some (key.rest, v₀)) (hslots : ∀ ρ s₁, s₁.key? ≠ none →
      ((∃ p, Listed sh' ρ p s₁) ↔ (∃ p, Listed sh ρ p s₁) ∧ ¬ (ρ = π ∧ s₁ = s))) {K : List Nat × Nat} {v : V} :
    Holds sh' K v ↔ Holds sh K v ∧ K ≠ (key.slices, key.lastSliceSize) := by
  rw [holds_iff, holds_iff, hk.whole_rest]
  constructor
  · rintro ⟨ρ, s₁, r, hs₁, hr₁, rfl⟩
    obtain ⟨⟨p₁, hs₁⟩, hne⟩ := (hslots ρ s₁ (by rw [hr₁]; exact Option.some_ne_none _)).mp hs₁
    refine ⟨⟨ρ, s₁, r, ⟨p₁, hs₁⟩, hr₁, rfl⟩, ?_⟩
    intro he
    exact hne (hok.slot_unique hs hs₁ hr hr₁ he.symm)
  · rintro ⟨⟨ρ, s₁, r, hs₁, hr₁, rfl⟩, hne⟩
    refine ⟨ρ, s₁, r, (hslots ρ s₁ (by rw [hr₁]; exact Option.some_ne_none _)).mpr ⟨hs₁, ?_⟩, hr₁, rfl⟩
    rintro ⟨rfl, rfl⟩
    rw [hr, Option.some.injEq, Prod.mk.injEq] at hr₁
    rw [hr₁.1] at hne
    exact hne rfl

end

/-- The key `K` was removed in the layer `π` or below it; the root of `π` is then `root`. -/
structure Removed (h' : Heap V) (sh sh' : Shape V) (π : List Nat) (root : Option Ptr) (K : List Nat × Nat) :
    Prop where
  ok : ShapeOk h' sh'
  keys : ∀ K' v, Holds sh' K' v ↔ Holds sh K' v ∧ K' ≠ K
  above : ∀ ρ, ρ.length < π.length → (sh' ρ).map BTree.root = (sh ρ).map BTree.root
  root : (sh' π).map BTree.root = root

section

variable {again : Heap V → Key → Option (RootChange × Option Ptr × Heap V)}
  {below : Heap V → Ptr → Key → Option (RootChange × Option Ptr × Heap V)} {root node q : Ptr} {key : Key}
  {fuel i : Nat} {lv : LinkOrValue V} {change : RootChange} {r : Option Ptr}

theorem removeForward_notFound (halive : (h.mem node).deleted = false)
    (hs : (h.mem node).searchLinkOrValueWithIndex key = (.NOTFOUND, lv, i)) :
    removeForward again below root key (fuel + 1) h node = some (.DataNotFound, some root, h) := by
  simp only [removeForward, halive, hs, Node.splitHappened, bne_self_eq_false, Bool.false_eq_true, if_false]

theorem removeForward_layer (halive : (h.mem node).deleted = false)
    (hs : (h.mem node).searchLinkOrValueWithIndex key = (.LAYER, .link q, i))
    (hb : below h q key.next = some (change, r, h')) : removeForward again below root key (fuel + 1) h node =
      if change = .LayerDeleted then again h' key else some (.NotChange, some root, h') := by
  simp only [removeForward, halive, hs, Node.splitHappened, bne_self_eq_false, Bool.false_eq_true, if_false, hb,
    Option.bind_eq_bind, Option.bind_some]

theorem removeForward_last (halive : (h.mem node).deleted = false)
    (hs : (h.mem node).searchLinkOrValueWithIndex key = (.VALUE, lv, i))
    (hlast : (h.mem node).is_root = true ∧ (h.mem node).permutation.length = 1 ∧ key.cursor ≠ 0)
    (hh' : handle_delete_layer_in_remove h node = some h') :
    removeForward again below root key (fuel + 1) h node = some (.LayerDeleted, none, h') := by
  simp only [removeForward, halive, hs, Node.splitHappened, bne_self_eq_false, Bool.false_eq_true, if_false,
    if_pos hlast, hh', Option.bind_eq_bind, Option.bind_some]

theorem removeForward_value (halive : (h.mem node).deleted = false)
    (hs : (h.mem node).searchLinkOrValueWithIndex key = (.VALUE, lv, i))
    (hlast : ¬ ((h.mem node).is_root = true ∧ (h.mem node).permutation.length = 1 ∧ key.cursor ≠ 0))
    {n : Node V} (hn : (h.mem node).markKeyRemoved i = some n) :
    removeForward again below root key (fuel + 1) h node =
      if n.permutation.erase i = [] then
        (delete_borderNode_in_remove (h.set node { n with permutation := n.permutation.erase i }) node).bind
          fun res => if res.1 ≠ .NotChange then some res else some (.NotChange, some root, res.2.2)
      else some (.NotChange, some root, h.set node { n with permutation := n.permutation.erase i }) := by
  simp only [removeForward, halive, hs, Node.splitHappened, bne_self_eq_false, Bool.false_eq_true, if_false,
    if_neg hlast, hn, Option.bind_eq_bind, Option.bind_some]

end

section

variable {sh : Shape V} {π : List Nat} {key : Key} {fs : List (Frame (Slot V))} {f : Frame (Slot V)} {p : Ptr}
  {es : List (Slot V)} {a b i : Nat} {v : V} {n : Node V}

/-- Other keys are left in the leaf. -/
theorem Place.eraseSlot (hok : ShapeOk h sh) (hp : Place sh π key fs p es a b) (hk : key.At π)
    (hi : i ∈ (h.mem p).permutation) (hr : ((h.mem p).slot i).key? = some (key.rest, v))
    (hn : (h.mem p).markKeyRemoved i = some n) (hne : n.permutation.erase i ≠ []) :
    ∃ sh', Removed (h.set p { n with permutation := n.permutation.erase i }) sh sh' π
      (some (plug fs (.leaf p es)).root) (key.slices, key.lastSliceSize) := by
  obtain ⟨es', n', hmark, hat, -, hroot, -, hnext, hprev, hupper, hsub, hmem⟩ :=
    (hp.borderAt hok).removeSlot hi hr
  obtain rfl := Option.some.inj (hn.symm.trans hmark)
  have hne' : es' ≠ [] := by
    intro he
    have hentries := hat.entries
    rw [he, Node.entries, List.map_eq_nil_iff] at hentries
    exact hne hentries
  have hself : Function.update sh π (some (plug fs (.leaf p es'))) π = some (plug fs (.leaf p es')) :=
    Function.update_self ..
  refine ⟨_, hp.setLeaf hok ((hp.borderAt hok).parent ▸ hat) (wf_leaf_sublist hsub hne' hp.wf) hroot hnext hprev
    hupper ?_, ?_, ?_, ?_⟩
  · intro s hs
    rw [hmem, and_iff_left]
    rintro rfl
    exact hs (Slot.Live.layer?_of_key? hr)
  · refine fun K w => holds_erase hok hk (hp.listed (hp.slot_mem hok hi)) hr ?_
    intro ρ s _
    by_cases hρ : ρ = π
    · rw [hρ]
      simp only [listed_iff hself, listed_iff hp.shape, inLeaves_plug, hmem, true_and]
      constructor
      · rintro ⟨p', ⟨rfl, hs, hne⟩ | hs⟩
        · exact ⟨⟨_, Or.inl ⟨rfl, hs⟩⟩, hne⟩
        · refine ⟨⟨p', Or.inr hs⟩, ?_⟩
          rintro rfl
          have hl : Listed sh π p' ((h.mem p).slot i) :=
            (listed_iff hp.shape).mpr (inLeaves_plug.mpr (Or.inr hs))
          exact (hp.layerOk hok).elsewhere_ne hs (hok.unique hl (hp.listed (hp.slot_mem hok hi)) rfl).1
      · rintro ⟨⟨p', ⟨rfl, hs⟩ | hs⟩, hne⟩
        · exact ⟨_, Or.inl ⟨rfl, hs, hne⟩⟩
        · exact ⟨p', Or.inr hs⟩
    · simp only [listed_congr (Function.update_of_ne hρ _ sh), hρ, false_and, not_false_eq_true, and_true]
  · intro ρ hlen
    rw [Function.update_of_ne fun he => by simp [he] at hlen]
  · rw [hself, Option.map_some]
    exact congrArg some (root_plug_congr rfl)

/-- The key was the only one in the leaf. -/
theorem Place.only (hok : ShapeOk h sh) (hp : Place sh π key fs p es a b)
    (hi : i ∈ (h.mem p).permutation) (hr : ((h.mem p).slot i).key? = some (key.rest, v))
    (hn : (h.mem p).markKeyRemoved i = some n) (hnil : n.permutation.erase i = []) :
    es = [(h.mem p).slot i] ∧ Emptied h (h.set p { n with permutation := n.permutation.erase i }) p ∧
      (h.mem p).permutation.length = 1 ∧ n.upperLayer = (h.mem p).upperLayer := by
  have hat := hp.borderAt hok
  obtain ⟨es', n', hmark, -, hperm, hroot, hpar, hnext, hprev, hupper, -, -⟩ := hat.removeSlot hi hr
  obtain rfl := Option.some.inj (hn.symm.trans hmark)
  have hone : (h.mem p).permutation = [i] := by
    rw [hperm] at hnil
    have hcons := List.perm_cons_erase hi
    rw [hnil] at hcons
    exact List.perm_singleton.mp hcons
  refine ⟨?_, ?_, by rw [hone]; rfl, hupper⟩
  · rw [← hat.entries, Node.entries, hone]
    rfl
  · constructor
    · rfl
    · intro q hq
      exact Heap.mem_set_of_ne _ _ hq
    all_goals rw [Heap.mem_set_self]
    · exact hnil
    · exact hroot
    · exact hpar
    · exact hnext
    · exact hprev

/-- The leaf has left its layer. A new root is one of layer 0. -/
theorem Place.dropped {t' : Layer V} (hok : ShapeOk h sh) (hp : Place sh π key fs p es a b) (hk : key.At π)
    (hi : i ∈ (h.mem p).permutation) (hr : ((h.mem p).slot i).key? = some (key.rest, v))
    (hes : es = [(h.mem p).slot i]) (hdrop : LayerDrop h h' (plug fs (.leaf p es)) t' fs)
    (hroot : t'.root = (plug fs (.leaf p es)).root ∨ π = []) :
    ∃ sh', Removed h' sh sh' π (some t'.root) (key.slices, key.lastSliceSize) := by
  have hself : Function.update sh π (some t') π = some t' := Function.update_self ..
  have hne : ∀ ρ, ρ ≠ π → Function.update sh π (some t') ρ = sh ρ := fun ρ hρ => Function.update_of_ne hρ ..
  have hslot := hp.listed (hp.slot_mem hok hi)
  have hin : ∀ {p' s}, InLeaves t'.leaves p' s ↔ InLeaves (leftLeaves fs ++ rightLeaves fs) p' s := by
    intro p' s
    rw [hdrop.leaves]
  have hlisted : ∀ {p' s}, Listed (Function.update sh π (some t')) π p' s ↔
      Listed sh π p' s ∧ s ≠ (h.mem p).slot i := by
    intro p' s
    rw [listed_iff hself, listed_iff hp.shape, hin, inLeaves_plug, hes, List.mem_singleton]
    constructor
    · intro hs
      refine ⟨Or.inr hs, ?_⟩
      rintro rfl
      have hl : Listed sh π p' ((h.mem p).slot i) := (listed_iff hp.shape).mpr (inLeaves_plug.mpr (Or.inr hs))
      exact (hp.layerOk hok).elsewhere_ne hs (hok.unique hl hslot rfl).1
    · rintro ⟨⟨-, rfl⟩ | hs, hne⟩
      · exact absurd rfl hne
      · exact hs
  have houter : ∀ {ρ t}, sh ρ = some t → ρ ≠ π → ∀ q ∈ t.ptrs, h'.mem q = h.mem q := by
    intro ρ t ht hρ q hq
    exact hdrop.outside q fun hq' => hρ (hok.disjoint ρ π t _ q ht hp.shape hq hq')
  have hroots : ∀ ρ x, (Function.update sh π (some t') (ρ ++ [x])).map BTree.root = (sh (ρ ++ [x])).map BTree.root := by
    intro ρ x
    by_cases hρ : ρ ++ [x] = π
    · rw [hρ, hself, hp.shape, Option.map_some, Option.map_some, hroot.resolve_right (by rw [← hρ]; simp)]
    · rw [hne _ hρ]
  refine ⟨_, hok.of_links (π := π) ?_ ?_ hroots ?_ ?_ ?_, ?_, ?_, ?_⟩
  · intro ρ t ht
    by_cases hρ : ρ = π
    · rw [hρ, hself, Option.some.injEq] at ht
      exact ht ▸ hdrop.ok
    · rw [hne ρ hρ] at ht
      refine (hok.layer ρ t ht).frame (Nat.le_of_eq hdrop.fresh.symm) ?_
      intro q hq
      rw [houter ht hρ q hq]
      exact ⟨.refl _, rfl, rfl, rfl, rfl⟩
  · intro ρ t q ht hq
    left
    by_cases hρ : ρ = π
    · rw [hρ, hself, Option.some.injEq] at ht
      rw [← ht] at hq
      exact ⟨_, hρ ▸ hp.shape, hdrop.ptrs q hq⟩
    · rw [hne ρ hρ] at ht
      exact ⟨t, ht, hq⟩
  · intro t ht
    by_cases hρ : [] = π
    · rw [hρ, hself, Option.some.injEq] at ht
      rw [← ht, hdrop.upper]
      exact hok.top _ (hρ ▸ hp.shape)
    · rw [hne [] hρ] at ht
      rw [houter ht hρ _ t.root_mem_ptrs]
      exact hok.top t ht
  · intro ρ p' s q hs hq
    by_cases hρ : ρ = π
    · rw [hρ] at hs ⊢
      have hl := (hlisted.mp hs).1
      have hout := (hok.link_outside hp.shape hl hq).2
      exact ⟨p', hl, Or.inl ⟨rfl, by rw [hdrop.outside q hout]⟩⟩
    · rw [listed_congr (hne ρ hρ)] at hs
      refine ⟨p', hs, Or.inl ⟨rfl, ?_⟩⟩
      obtain ⟨t, ht, rfl, -⟩ := hok.down ρ p' s q hs hq
      by_cases hx : ρ ++ [s.key_slice] = π
      · rw [hx, hp.shape, Option.some.injEq] at ht
        have hsame := hroot.resolve_right (by rw [← hx]; simp)
        rw [← ht, ← hdrop.upper, hsame]
      · rw [houter ht hx _ t.root_mem_ptrs]
  · intro ρ p' s hs hq
    refine ⟨p', ?_⟩
    by_cases hρ : ρ = π
    · rw [hρ] at hs ⊢
      refine hlisted.mpr ⟨hs, ?_⟩
      rintro rfl
      exact hq (Slot.Live.layer?_of_key? hr)
    · exact (listed_congr (hne ρ hρ)).mpr hs
  · refine fun K w => holds_erase hok hk hslot hr ?_
    intro ρ s _
    by_cases hρ : ρ = π
    · rw [hρ]
      simp only [hlisted, true_and, exists_and_right]
    · simp only [listed_congr (hne ρ hρ), hρ, false_and, not_false_eq_true, and_true]
  · intro ρ hlen
    rw [hne ρ fun he => by simp [he] at hlen]
  · rw [hself, Option.map_some]

/-- The last key of the tree. -/
theorem Place.emptied (hok : ShapeOk h sh) (hp : Place sh [] key [] p es a b) (hk : key.At [])
    (hi : i ∈ (h.mem p).permutation) (hr : ((h.mem p).slot i).key? = some (key.rest, v))
    (hes : es = [(h.mem p).slot i]) (h' : Heap V) :
    Removed h' sh (fun _ => none) [] none (key.slices, key.lastSliceSize) := by
  have hslot := hp.listed (hp.slot_mem hok hi)
  have hshape : sh [] = some (.leaf p [(h.mem p).slot i]) := by
    rw [hp.shape, hes]
    rfl
  have honly : ∀ {p' s}, Listed sh [] p' s → s = (h.mem p).slot i := by
    intro p' s hs
    rw [listed_iff hshape] at hs
    exact (inLeaves_single.mp hs).2
  have hnone : ∀ x ρ, sh (x :: ρ) = none := by
    intro x ρ
    by_contra hsome
    obtain ⟨t, ht⟩ := Option.ne_none_iff_exists'.mp hsome
    obtain ⟨p', s, t', hs, -, hlayer, -⟩ := hok.above (π := []) ht
    rw [honly hs, Slot.Live.layer?_of_key? hr] at hlayer
    cases hlayer
  have hnot : ∀ {ρ p' s}, ¬ Listed (fun _ => none : Shape V) ρ p' s := by
    rintro ρ p' s ⟨t, es, ht, -⟩
    cases ht
  refine ⟨⟨nofun, nofun, nofun, ?_, nofun⟩, ?_, nofun, rfl⟩
  · intro ρ p' s q hs
    exact (hnot hs).elim
  · refine fun K w => holds_erase hok hk hslot hr ?_
    intro ρ s _
    refine iff_of_false (fun ⟨p', hs⟩ => hnot hs) ?_
    rintro ⟨⟨p', hs⟩, hne⟩
    cases ρ with
    | nil => exact hne ⟨rfl, honly hs⟩
    | cons x ρ =>
      obtain ⟨t, es, ht, -⟩ := hs
      rw [hnone] at ht
      cases ht

/-- The border node has one key, and is one of the two children of the root of a lower layer. -/
def rootLeft (h : Heap V) (p : Ptr) : Bool :=
  (h.mem p).permutation.length == 1 && (h.mem p).parent.any fun q =>
    (h.mem q).n_keys == 1 && (h.mem q).is_root && (h.mem q).upperLayer.isSome

/-- The key is the only one of its layer, and of the layers below that it goes through. -/
def lastOfLayer : Nat → Heap V → Ptr → Key → Bool
  | 0, _, _, _ => false
  | fuel + 1, h, root, key =>
    (findBorder h root key).any fun p =>
      (h.mem p).is_root && (h.mem p).permutation.length == 1 && key.cursor != 0 &&
        match (h.mem p).searchLinkOrValueWithIndex key with
        | (.VALUE, _, _) => true
        | (.LAYER, .link next_layer, _) => lastOfLayer fuel h next_layer key.next
        | _ => false

/-- The removal takes a border node away from the root of a lower layer and leaves it with one
child: the child becomes the root, but its `upperLayer` is not set. -/
def collapse : Nat → Heap V → Ptr → Key → Bool
  | 0, _, _, _ => false
  | fuel + 1, h, root, key =>
    (findBorder h root key).any fun p =>
      match (h.mem p).searchLinkOrValueWithIndex key with
      | (.VALUE, _, _) => rootLeft h p
      | (.LAYER, .link next_layer, _) => collapse fuel h next_layer key.next ||
          lastOfLayer fuel h next_layer key.next && rootLeft h p
      | _ => false

theorem LayerOk.leaf_root (hok : LayerOk h (plug fs (.leaf p es))) (hroot : (h.mem p).is_root = true) : fs = [] := by
  cases fs with
  | nil => rfl
  | cons f fs =>
    obtain ⟨-, hpctx, hmem⟩ := hok.frameNodup
    have he := (hok.roots p ((hmem p).mpr (Or.inr rfl))).mp hroot
    exact absurd (he ▸ root_plug_mem (List.cons_ne_nil f fs) _) hpctx

theorem delete_borderNode_eq_top {h₁ : Heap V} (hperm : (h₁.mem p).permutation = [])
    (hroot : (h₁.mem p).is_root = true) (hpar : (h₁.mem p).parent = none)
    (hupper : (h₁.mem p).upperLayer = none) :
    delete_borderNode_in_remove h₁ p = some (.LayerDeleted, none, setDeleted h₁ p) := by
  unfold delete_borderNode_in_remove
  simp [hperm, hroot, hpar, hupper, guard]

/-- What the removal of a key that is there returns. A lower layer that had only this key goes
first, with the key still in the slot above it. -/
inductive RemoveFound (h : Heap V) (sh : Shape V) (π : List Nat) (key : Key) (last : Prop) :
    Option (RootChange × Option Ptr × Heap V) → Prop
  | removed {change : RootChange} {r : Option Ptr} {h' : Heap V} {sh' : Shape V} (hchange : change ≠ .DataNotFound)
      (hlower : π ≠ [] → change ≠ .LayerDeleted)
      (hrem : Removed h' sh sh' π r (key.slices, key.lastSliceSize)) :
    RemoveFound h sh π key last (some (change, r, h'))
  | layer {π₀ : List Nat} {x : Nat} {v : V} {h' : Heap V} {sh' : Shape V} (hπ : π = π₀ ++ [x]) (hlast : last)
      (hgone : LayerGone h h' sh sh' π₀ x key.rest v) :
    RemoveFound h sh π key last (some (.LayerDeleted, none, h'))

/-- The removal of a key that is in the border node. -/
theorem Place.removeHere {again : Heap V → Key → Option (RootChange × Option Ptr × Heap V)}
    {below : Heap V → Ptr → Key → Option (RootChange × Option Ptr × Heap V)} {lv : LinkOrValue V} {k : Nat}
    (hok : ShapeOk h sh) (hp : Place sh π key fs p es a b) (hk : key.At π)
    (hs : (h.mem p).searchLinkOrValueWithIndex key = (.VALUE, lv, i)) (hi : i ∈ (h.mem p).permutation)
    (hr : ((h.mem p).slot i).key? = some (key.rest, v)) (hguard : rootLeft h p = false) :
    RemoveFound h sh π key
      ((h.mem p).is_root = true ∧ (h.mem p).permutation.length = 1 ∧ key.cursor ≠ 0)
      (removeForward again below (plug fs (.leaf p es)).root key (k + 1) h p) := by
  have hlayer := hp.layerOk hok
  have hat := hp.borderAt hok
  by_cases hlast : (h.mem p).is_root = true ∧ (h.mem p).permutation.length = 1 ∧ key.cursor ≠ 0
  · obtain ⟨hroot, hlen, hcur⟩ := hlast
    obtain rfl := hlayer.leaf_root hroot
    have hes : es = [(h.mem p).slot i] := by
      obtain ⟨j, hj⟩ := List.length_eq_one_iff.mp hlen
      rw [hj, List.mem_singleton] at hi
      rw [← hat.entries, Node.entries, hj, hi]
      rfl
    have hshape : sh π = some (.leaf p [(h.mem p).slot i]) := by
      rw [hp.shape, hes]
      rfl
    rcases List.eq_nil_or_concat' π with rfl | ⟨π₀, x, rfl⟩
    · exact absurd hk.length.symm hcur
    · obtain ⟨h', sh', hdel, hgone⟩ := hok.deleteLayer hshape hr
      rw [removeForward_last hat.alive hs ⟨hroot, hlen, hcur⟩ hdel]
      exact .layer rfl ⟨hroot, hlen, hcur⟩ hgone
  obtain ⟨-, n, hmark, -⟩ := hat.removeSlot hi hr
  rw [removeForward_value hat.alive hs hlast hmark]
  by_cases hnil : n.permutation.erase i = []
  swap
  · obtain ⟨sh', hrem⟩ := hp.eraseSlot hok hk hi hr hmark hnil
    rw [if_neg hnil]
    exact .removed (by decide) (fun _ => by decide) hrem
  rw [if_pos hnil]
  obtain ⟨hes, hempt, hlen, hupper⟩ := hp.only hok hi hr hmark hnil
  cases fs with
  | nil =>
    have hroot : (h.mem p).is_root = true := (hlayer.roots p Place.mem_ptrs).mpr rfl
    have hcur : key.cursor = 0 := by
      by_contra hne
      exact hlast ⟨hroot, hlen, hne⟩
    obtain rfl : π = [] := List.eq_nil_of_length_eq_zero (hk.length.trans hcur)
    rw [delete_borderNode_eq_top hempt.permutation (hempt.is_root.trans hroot) (hempt.parent.trans hat.parent)
      (by rw [Heap.mem_set_self]; exact hupper.trans (hok.top _ hp.shape))]
    exact .removed (by decide) (fun hne => absurd rfl hne) (hp.emptied hok hk hi hr hes _)
  | cons f fs =>
    obtain ⟨⟨hn, -, -⟩, -⟩ := stored_plug.mp hlayer.stored
    have hkeep : fs = [] → (f.kl ++ f.kr).length = 1 → (h.mem f.p).upperLayer = none := by
      rintro rfl hone
      have hfroot : (h.mem f.p).is_root = true := (hlayer.roots f.p frame_mem_plug).mpr rfl
      have hpar : (h.mem p).parent = some f.p := hat.parent
      simpa [rootLeft, hlen, hpar, hn.n_keys, hone, hfroot] using hguard
    obtain ⟨change, r, h', t', hdel, hcase, hdrop⟩ := hlayer.deleteLeaf hempt hkeep
    rw [hdel, Option.bind_some]
    rcases hcase with ⟨rfl, hroot⟩ | ⟨rfl, rfl, rfl, hone⟩
    · obtain ⟨sh', hrem⟩ := hp.dropped hok hk hi hr hes hdrop (Or.inl hroot)
      rw [hroot] at hrem
      exact .removed (by decide) (fun _ => by decide) hrem
    · obtain rfl : π = [] := by
        rcases List.eq_nil_or_concat' π with rfl | ⟨π₀, x, rfl⟩
        · rfl
        · obtain ⟨gs, u, es₀, a₀, b₀, j, -, -, -, hup, -⟩ := hok.upper_slot hp.shape
          have hnone := hkeep rfl hone
          change (h.mem f.p).upperLayer = some u at hup
          rw [hnone] at hup
          cases hup
      obtain ⟨sh', hrem⟩ := hp.dropped hok hk hi hr hes hdrop (Or.inr rfl)
      exact .removed (by decide) (fun _ => by decide) hrem

theorem LayerGone.trans {h₁ : Heap V} {sh₁ sh' : Shape V} {x y : Nat} {r r' : List Nat × Nat} {w w' : V}
    (hgone : LayerGone h h₁ sh sh₁ (π ++ [x]) y r w) (hgone' : LayerGone h₁ h' sh₁ sh' π x r' w') :
    LayerGone h h' sh sh' π x r' w' := by
  have hlen : ∀ {ρ : List Nat}, ρ.length ≤ π.length → ρ.length ≤ (π ++ [x]).length ∧ ρ ≠ π ++ [x] := by
    intro ρ hρ
    refine ⟨Nat.le_trans hρ (by simp), ?_⟩
    rintro rfl
    simp only [List.length_append, List.length_singleton] at hρ
    omega
  have hsame : ∀ {ρ : List Nat}, ρ.length ≤ π.length → sh₁ ρ = sh ρ := fun hρ =>
    hgone.same _ (hlen hρ).1 (hlen hρ).2
  refine ⟨hgone'.ok, ?_, ?_, ?_, ?_, ?_⟩
  · intro K v
    rw [hgone'.keys, hgone.keys]
  · intro ρ hρ
    rw [hgone'.above ρ hρ, hsame hρ]
  · obtain ⟨u, s, ⟨s₁, hs₁, hx⟩, hs, hr⟩ := hgone'.slot
    exact ⟨u, s, ⟨s₁, (listed_congr (hsame (Nat.le_refl _))).mp hs₁, hx⟩, hs, hr⟩
  · intro ρ t ht hρ q hq
    exact (hgone.nodes ρ t ht (hlen hρ).1 q hq).trans (hgone'.nodes ρ t ((hsame hρ).trans ht) hρ q hq)
  · intro ρ hρ hne
    rw [hgone'.same ρ hρ hne, hsame hρ]

theorem RemoveFound.mono {last last' : Prop} {res : Option (RootChange × Option Ptr × Heap V)}
    (hfound : RemoveFound h sh π key last res) (hlast : last → last') : RemoveFound h sh π key last' res := by
  cases hfound with
  | removed hchange hlower hrem => exact .removed hchange hlower hrem
  | layer hπ hl hgone => exact .layer hπ (hlast hl) hgone

/-- A key removed below the layer. -/
theorem Removed.lift {sh' : Shape V} {x : Nat} {root : Ptr} {r : Option Ptr} {K : List Nat × Nat}
    (hrem : Removed h' sh sh' (π ++ [x]) r K) (hroot : (sh π).map BTree.root = some root) :
    Removed h' sh sh' π (some root) K where
  ok := hrem.ok
  keys := hrem.keys
  above := by
    intro ρ hρ
    exact hrem.above ρ (by simp only [List.length_append, List.length_singleton]; omega)
  root := by rw [hrem.above π (by simp), hroot]

/-- A removal after the layer below was given up. -/
theorem RemoveFound.after {h₁ : Heap V} {sh₁ : Shape V} {y : Nat} {r : List Nat × Nat} {w : V} {last last' : Prop}
    {res : Option (RootChange × Option Ptr × Heap V)} (hgone : LayerGone h h₁ sh sh₁ π y r w)
    (hfound : RemoveFound h₁ sh₁ π key last res) (hlast : last → last') : RemoveFound h sh π key last' res := by
  cases hfound with
  | removed hchange hlower hrem =>
    refine .removed hchange hlower ⟨hrem.ok, ?_, ?_, hrem.root⟩
    · intro K v
      rw [hrem.keys, hgone.keys]
    · intro ρ hρ
      rw [hrem.above ρ hρ, hgone.above ρ (Nat.le_of_lt hρ)]
  | layer hπ hl hgone' =>
    subst hπ
    exact .layer rfl (hlast hl) (hgone.trans hgone')

/-- The guard does not look into the slots. -/
theorem Place.rootLeft_eq {h₁ : Heap V} (hok : ShapeOk h sh) (hp : Place sh π key fs p es a b)
    (hnodes : ∀ q ∈ (plug fs (.leaf p es)).ptrs, (h.mem q).Reslot (h₁.mem q)) : rootLeft h₁ p = rootLeft h p := by
  obtain ⟨slot, he⟩ := hnodes p Place.mem_ptrs
  have hpar := (hp.borderAt hok).parent
  rw [rootLeft, rootLeft, he, hpar]
  cases fs with
  | nil => rfl
  | cons f fs =>
    obtain ⟨slot', he'⟩ := hnodes f.p frame_mem_plug
    change ((h.mem p).permutation.length == 1 && (some f.p).any _) =
      ((h.mem p).permutation.length == 1 && (some f.p).any _)
    rw [Option.any_some, Option.any_some, he']

/-- With the key in the slot above the layer, the search finds it there. -/
theorem LayerGone.found {h₁ : Heap V} {sh₁ : Shape V} {w : V} {t : Layer V}
    (hp : Place sh π key fs p es a b) (hk : key.At π) (hn : key.hasNext = true)
    (ht : t = plug fs (.leaf p es))
    (hgone : LayerGone h h₁ sh sh₁ π key.getCurrentSlice.slice key.next.rest w) :
    ∃ fs₁ es₁ a₁ b₁ i v, Place sh₁ π key fs₁ p es₁ a₁ b₁ ∧ findBorder h₁ t.root key = some p ∧
      (plug fs₁ (.leaf p es₁)).root = t.root ∧
      (h₁.mem p).searchLinkOrValueWithIndex key = (.VALUE, .value v, i) ∧ i ∈ (h₁.mem p).permutation ∧
      ((h₁.mem p).slot i).key? = some (key.rest, v) := by
  have hroot := hgone.above π (Nat.le_refl _)
  rw [hp.shape, Option.map_some, Option.map_eq_some_iff] at hroot
  obtain ⟨t₁, ht₁, hroot⟩ := hroot
  obtain ⟨fs₁, p₁, es₁, a₁, b₁, hp₁, hfind⟩ := hgone.ok.findBorder ht₁ hk
  obtain rfl := Option.some.inj (ht₁.symm.trans hp₁.shape)
  obtain ⟨u, s, ⟨s₁, hs₁, hx₁⟩, hs, hr⟩ := hgone.slot
  obtain ⟨rest, hrest⟩ := Slot.key?_head hr
  obtain ⟨rfl, -⟩ := hp.mem hs₁ hx₁
  obtain ⟨rfl, -⟩ := hp₁.mem hs (List.cons.inj hrest).1.symm
  have hwhole : key.rest = (key.getCurrentSlice.slice :: key.next.rest.1, key.next.rest.2) := Key.rest_next hk.wf
  have hholds : Holds sh₁ (key.slices, key.lastSliceSize) w :=
    ⟨π, u, s, _, hs, hr, by rw [hk.whole_rest, hwhole]⟩
  have hne : key.next.rest.1 ≠ [] := (Key.hasNext_iff hk.wf).mp hn
  have hsearch := hp₁.search hgone.ok hk
  rw [ht, ← hroot]
  generalize hres : (h₁.mem u).searchLinkOrValueWithIndex key = res at hsearch
  cases hsearch with
  | @value i v hi hkey honly => exact ⟨fs₁, es₁, a₁, b₁, i, v, hp₁, hfind, rfl, rfl, hi, hkey⟩
  | @layer i t' hi hlink hslice hn' hsh => exact (hgone.ok.not_below hs hr hne rfl hsh).elim
  | notFound hnot hkey hlayer => exact absurd hholds (hnot w)

/-- What a removal in the layer `π` returns. `here` is whether the search in the border node of
this layer ends there: only then the result says that the key was not found. -/
def RemovePost (h : Heap V) (sh : Shape V) (π : List Nat) (root : Ptr) (here : Prop) [Decidable here] (key : Key)
    (last : Prop) (res : Option (RootChange × Option Ptr × Heap V)) : Prop :=
  (∀ v, ¬ Holds sh (key.slices, key.lastSliceSize) v) ∧
      res = some (if here then .DataNotFound else .NotChange, some root, h) ∨
    (∃ v, Holds sh (key.slices, key.lastSliceSize) v) ∧ RemoveFound h sh π key last res

/-- One turn of a removal. -/
theorem remove_again {root : Ptr} {fuel : Nat} (hfind : Masstree.findBorder h root key = some p) :
    ∃ again below, Masstree.remove (fuel + 1) h root key = Masstree.removeForward again below root key 2 h p :=
  ⟨fun h key => Masstree.remove fuel h root key, fun h root key => Masstree.remove fuel h root key,
    by rw [Masstree.remove, hfind, Option.bind_eq_bind, Option.bind_some]⟩

/-- From the border node for the key on. `below` is right for the layer below it, and `again` comes
back to the node. -/
theorem Place.removeForward {again : Heap V → Key → Option (RootChange × Option Ptr × Heap V)}
    {below : Heap V → Ptr → Key → Option (RootChange × Option Ptr × Heap V)} {fuel k : Nat}
    (hok : ShapeOk h sh) (hp : Place sh π key fs p es a b) (hk : key.At π)
    (hbelow : key.hasNext = true → ∀ {t : Layer V}, sh (π ++ [key.getCurrentSlice.slice]) = some t →
      collapse fuel h t.root key.next = false → ∃ here : Bool,
        RemovePost h sh (π ++ [key.getCurrentSlice.slice]) t.root here key.next
          (lastOfLayer fuel h t.root key.next = true) (below h t.root key.next))
    (hagain : ∀ h₁, findBorder h₁ (plug fs (.leaf p es)).root key = some p → ∃ again' below',
      again h₁ key = Masstree.removeForward again' below' (plug fs (.leaf p es)).root key 2 h₁ p)
    (hguard : (match (h.mem p).searchLinkOrValueWithIndex key with
      | (.VALUE, _, _) => rootLeft h p
      | (.LAYER, .link next_layer, _) => collapse fuel h next_layer key.next ||
          lastOfLayer fuel h next_layer key.next && rootLeft h p
      | _ => false) = false) :
    RemovePost h sh π (plug fs (.leaf p es)).root (((h.mem p).searchLinkOrValueWithIndex key).1 = .NOTFOUND) key
      (((h.mem p).is_root && (h.mem p).permutation.length == 1 && key.cursor != 0 &&
        match (h.mem p).searchLinkOrValueWithIndex key with
        | (.VALUE, _, _) => true
        | (.LAYER, .link next_layer, _) => lastOfLayer fuel h next_layer key.next
        | _ => false) = true)
      (Masstree.removeForward again below (plug fs (.leaf p es)).root key (k + 1) h p) := by
  have halive := (hp.borderAt hok).alive
  have hsearch := hp.search hok hk
  generalize hres : (h.mem p).searchLinkOrValueWithIndex key = res at hsearch hguard
  cases hsearch with
  | @value i v hi hkey honly =>
    refine Or.inr ⟨⟨v, (honly v).mpr rfl⟩, ?_⟩
    refine (hp.removeHere hok hk hres hi hkey hguard).mono ?_
    rintro ⟨hroot, hlen, hcur⟩
    simp [hroot, hlen, hcur]
  | @layer i t hi hlink hslice hn hsh =>
    dsimp only at hguard ⊢
    rw [Bool.or_eq_false_iff] at hguard
    obtain ⟨here, ⟨hnot, hb⟩ | ⟨hv, hfound⟩⟩ := hbelow hn hsh hguard.1
    · refine Or.inl ⟨hnot, ?_⟩
      rw [removeForward_layer halive hres hb, if_neg (by split <;> nofun), if_neg nofun]
    refine Or.inr ⟨hv, ?_⟩
    generalize hb : below h t.root key.next = r at hfound
    cases hfound with
    | removed hchange hlower hrem =>
      rw [removeForward_layer halive hres hb, if_neg (hlower (by simp))]
      exact .removed nofun nofun (hrem.lift (by rw [hp.shape]; rfl))
    | @layer π₀ x v h₁ sh₁ hπ hlast hgone =>
      obtain ⟨rfl, hx⟩ := List.append_inj' hπ rfl
      obtain rfl := (List.cons.inj hx).1
      have hnodes := hgone.nodes π _ hp.shape (Nat.le_refl _)
      obtain ⟨fs₁, es₁, a₁, b₁, j, w, hp₁, hfind₁, hroot₁, hs₁, hj, hkey⟩ := hgone.found hp hk hn rfl
      have hguard₁ : rootLeft h₁ p = false := by
        rw [hp.rootLeft_eq hok hnodes]
        simpa [hlast] using hguard.2
      obtain ⟨again', below', hagain⟩ := hagain h₁ hfind₁
      rw [removeForward_layer halive hres hb, if_pos rfl, hagain, ← hroot₁]
      refine RemoveFound.after hgone (hp₁.removeHere hgone.ok hk hs₁ hj hkey hguard₁) ?_
      obtain ⟨slot, he⟩ := hnodes p Place.mem_ptrs
      rw [he]
      rintro ⟨hroot, hlen, hcur⟩
      change (h.mem p).is_root = true at hroot
      change (h.mem p).permutation.length = 1 at hlen
      simp [hroot, hlen, hcur, hlast]
  | notFound hnot hkey hlayer =>
    refine Or.inl ⟨hnot, ?_⟩
    rw [removeForward_notFound halive hres, if_pos rfl]

/-- The whole removal below the root of a layer. -/
theorem ShapeOk.remove (hok : ShapeOk h sh) : ∀ {fuel : Nat} {π : List Nat} {t : Layer V} {key : Key},
    sh π = some t → key.At π → key.slices.length < key.cursor + fuel → collapse fuel h t.root key = false →
    ∃ p, Masstree.findBorder h t.root key = some p ∧
      RemovePost h sh π t.root (((h.mem p).searchLinkOrValueWithIndex key).1 = .NOTFOUND) key
        (lastOfLayer fuel h t.root key = true) (Masstree.remove fuel h t.root key) := by
  intro fuel
  induction fuel with
  | zero =>
    intro π t key ht hk hfuel
    have := hk.wf.cursor
    omega
  | succ fuel ih =>
    intro π t key ht hk hfuel hguard
    obtain ⟨fs, p, es, a, b, hp, hfind⟩ := hok.findBorder ht hk
    obtain rfl := Option.some.inj (ht.symm.trans hp.shape)
    rw [collapse, hfind, Option.any_some] at hguard
    refine ⟨p, hfind, ?_⟩
    rw [Masstree.remove, lastOfLayer, hfind, Option.bind_eq_bind, Option.bind_some, Option.any_some]
    refine hp.removeForward hok hk ?_ ?_ hguard
    · intro hn t₁ hsh₁ hguard₁
      obtain ⟨p₁, -, hpost⟩ := ih hsh₁ (hk.next hn) (by simp only [Key.next]; omega) hguard₁
      refine ⟨decide (((h.mem p₁).searchLinkOrValueWithIndex key.next).1 = .NOTFOUND), ?_⟩
      simp only [decide_eq_true_eq]
      exact hpost
    · -- one turn is left, since the cursor is on a slice of the key
      intro h₁ hfind₁
      obtain ⟨fuel, rfl⟩ : ∃ m, fuel = m + 1 := ⟨fuel - 1, by have := hk.wf.cursor; omega⟩
      exact remove_again hfind₁

end

end Cassa.Masstree

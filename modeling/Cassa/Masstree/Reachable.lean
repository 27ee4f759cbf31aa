import Cassa.Masstree.Operations

/-!
# What every reachable tree promises

Calls run one after another from the empty tree. A call that splits a full border node for
a key with further slices stores a wrong slice, and a removal that leaves the root of a
lower layer with one child leaves the child without its upper layer; as long as no call
does one of these, an insertion adds its key and no other, and every link leads to the root
of a layer. The statuses are exact at the keys that end in layer 0 only.
-/

set_option linter.dupNamespace false

namespace Cassa.Masstree

open Cassa.Lib.SearchTree
open Cassa.Lib.Runs

variable {V : Type} {m m' : Masstree V} {sh : Shape V} {k : List UInt8} {v : V}

/-- If the insertion returns `OK`, it has added this key and no other. -/
def Inserts (m : Masstree V) (k : List UInt8) (v : V) : Prop :=
  ∀ m', m.insert_value (.ofString k) v = some (.OK, m') →
    m'.get_value (.ofString k) = some (some v) ∧
      ∀ k', k' ≠ [] → k' ≠ k → m'.get_value (.ofString k') = m.get_value (.ofString k')

theorem Key.id_ofString_ne {k k' : List UInt8} (hk : k ≠ []) (hk' : k' ≠ []) (hne : k' ≠ k) :
    (Key.ofString k').id ≠ (Key.ofString k).id := by
  intro he
  obtain ⟨hslices, hsize⟩ := Prod.mk.inj he
  refine hne (Key.ofString_inj hk' hk ?_)
  exact congrArg₂ (fun slices size => (⟨slices, size, 0⟩ : Key)) hslices hsize

/-- The lookup returns null if and only if the tree does not hold the key. -/
theorem TreeOk.get_none (h : TreeOk m sh) (hk : k ≠ []) :
    m.get_value (.ofString k) = some none ↔ ∀ w, ¬ Holds sh (Key.ofString k).id w := by
  obtain ⟨o, hget, ho⟩ := h.get_value (Key.at_ofString hk)
  rw [hget, Option.some.injEq, Option.eq_none_iff_forall_ne_some]
  simp only [ne_eq, ho]

theorem TreeOk.get_some (h : TreeOk m sh) (hk : k ≠ []) {w : V} :
    m.get_value (.ofString k) = some (some w) ↔ Holds sh (Key.ofString k).id w := by
  obtain ⟨o, hget, ho⟩ := h.get_value (Key.at_ofString hk)
  rw [hget, Option.some.injEq, ho]

/-- A key that is not there is added. -/
theorem TreeOk.inserts (h : TreeOk m sh) (hk : k ≠ []) (hnone : m.get_value (.ofString k) = some none)
    (hspared : m.spared (.insert_value k v) = true) :
    ∃ m' sh', m.insert_value (.ofString k) v = some (.OK, m') ∧ TreeOk m' sh' ∧
      ∀ K w, Holds sh' K w ↔ Holds sh K w ∨ K = (Key.ofString k).id ∧ w = v := by
  have hnot := (h.get_none hk).mp hnone
  rcases h.insert_value (Key.at_ofString hk) v (by simpa [Masstree.spared] using hspared) with
    ⟨⟨w, hw⟩, -⟩ | ⟨-, hins⟩
  · exact absurd hw (hnot w)
  · exact hins

theorem long_key_kept (hreach : Reach Masstree.step (· = .new) (fun m c => m.spared c = true) m)
    (hlong : 8 < k.length) (hnone : m.get_value (.ofString k) = some none)
    (hspared : m.spared (.insert_value k v) = true) :
    (∃ m', m.insert_value (.ofString k) v = some (.OK, m')) ∧ Inserts m k v := by
  have hk : k ≠ [] := List.ne_nil_of_length_pos (by omega)
  obtain ⟨sh, hok⟩ := treeOk_reach hreach
  obtain ⟨m', sh', hins, hok', hkeys⟩ := hok.inserts hk hnone hspared
  refine ⟨⟨m', hins⟩, ?_⟩
  intro m'' hins'
  obtain rfl : m' = m'' := by
    rw [hins, Option.some.injEq, Prod.mk.injEq] at hins'
    exact hins'.2
  constructor
  · exact (hok'.get_some hk).mpr ((hkeys _ _).mpr (Or.inr ⟨rfl, rfl⟩))
  · intro k' hk' hne
    refine hok.get_value_congr hok' (Key.at_ofString hk') ?_
    intro w
    have hid := Key.id_ofString_ne hk hk' hne
    rw [hkeys, or_iff_left (fun he => hid he.1)]

/-- The tree of some calls. -/
def Masstree.afterCalls (cs : List (Call V)) : Masstree V := (exec Masstree.step .new cs).getD .new

theorem reach_afterCalls {ok : Masstree V → Call V → Prop} {cs : List (Call V)}
    (hadmits : Admits Masstree.step ok .new cs) (hsome : (exec Masstree.step .new cs).isSome) :
    Reach Masstree.step (· = .new) ok (Masstree.afterCalls cs) := reach_getD_of_admits rfl hadmits hsome

/-- A key of nine bytes whose first eight are `11 … 18`. -/
def sharedKey (b : UInt8) : List UInt8 := [11, 12, 13, 14, 15, 16, 17, 18, b]

theorem long_key_kept_new_layer :
    let m : Masstree Nat := .afterCalls [.insert_value (sharedKey 1) 1]
    (∃ m', m.insert_value (.ofString (sharedKey 2)) 2 = some (.OK, m')) ∧ Inserts m (sharedKey 2) 2 := by
  exact long_key_kept (reach_afterCalls (by decide +kernel) (by decide +kernel)) (by decide)
    (by decide +kernel) (by decide +kernel)

/-- Fifteen keys of one byte. -/
def fifteen : List (Call Nat) := (List.range 15).map fun i => .insert_value [UInt8.ofNat (i + 1)] i

/-- The split of the full node stores the key of nine bytes under the slice 8. -/
theorem long_key_lost_in_split :
    ¬ ∀ m : Masstree Nat, Reach Masstree.step (· = .new) anyStep m → ∀ k v, 8 < k.length →
      m.get_value (.ofString k) = some none → Inserts m k v := by
  intro hall
  have hins := hall (.afterCalls fifteen) (reach_afterCalls (admits_anyStep _ _) (by decide +kernel))
    (sharedKey 1) 15 (by decide) (by decide +kernel)
  have hlost : ((Masstree.afterCalls fifteen).insert_value (.ofString (sharedKey 1)) 15).map
      (fun r => (r.1, r.2.get_value (.ofString (sharedKey 1)))) = some (.OK, some none) := by
    decide +kernel
  obtain ⟨⟨status, m'⟩, hcall, hres⟩ := Option.map_eq_some_iff.mp hlost
  obtain ⟨rfl, hget⟩ := Prod.mk.inj hres
  rw [(hins m' hcall).1] at hget
  cases hget

/-- `WARN_ALREADY_EXISTS` and `WARN_NOT_FOUND` say what a lookup before the call would have said. -/
structure StatusesExact (m : Masstree V) (k : List UInt8) (v : V) : Prop where
  insert : ∃ status m', m.insert_value (.ofString k) v = some (status, m') ∧
    (status = .WARN_ALREADY_EXISTS ↔ ∃ w, m.get_value (.ofString k) = some (some w)) ∧
    (status = .WARN_ALREADY_EXISTS → m' = m)
  remove : ∃ status m', m.remove_value (.ofString k) = some (status, m') ∧
    (status = .WARN_NOT_FOUND ↔ m.get_value (.ofString k) = some none)

theorem StatusesExact.insert_linked (h : StatusesExact m k v) {w : V} {m' : Masstree V}
    (hget : m.get_value (.ofString k) = some (some w)) (hins : m.insert_value (.ofString k) v = some (.OK, m')) :
    False := by
  obtain ⟨status, m'', hins', hiff, -⟩ := h.insert
  rw [hins, Option.some.injEq, Prod.mk.injEq] at hins'
  rw [← hins'.1] at hiff
  cases hiff.mpr ⟨w, hget⟩

theorem StatusesExact.remove_linked (h : StatusesExact m k v) {m' : Masstree V}
    (hget : m.get_value (.ofString k) = some none) (hrem : m.remove_value (.ofString k) = some (.OK, m')) :
    False := by
  obtain ⟨status, m'', hrem', hiff⟩ := h.remove
  rw [hrem, Option.some.injEq, Prod.mk.injEq] at hrem'
  rw [← hrem'.1] at hiff
  cases hiff.mpr hget

/-- A tree without a link for the key: the statuses come from layer 0. -/
theorem TreeOk.statusesExact (h : TreeOk m sh) (hk : k ≠ []) (hins : m.spared (.insert_value k v) = true)
    (hrem : m.spared (.remove_value k) = true) (hlink : m.linked (.ofString k) = false) :
    StatusesExact m k v where
  insert := by
    rcases h.insert_value (Key.at_ofString hk) v (by simpa [Masstree.spared] using hins) with
      ⟨⟨w, hw⟩, heq⟩ | ⟨hnot, m', sh', heq, -, -⟩
    · rw [hlink] at heq
      refine ⟨_, _, heq, iff_of_true rfl ⟨w, (h.get_some hk).mpr hw⟩, fun _ => rfl⟩
    · refine ⟨_, _, heq, iff_of_false (by decide) ?_, fun h => absurd h (by decide)⟩
      rintro ⟨w, hw⟩
      exact hnot w ((h.get_some hk).mp hw)
  remove := by
    rcases h.remove_value (Key.at_ofString hk) (by simpa [Masstree.spared] using hrem) with
      ⟨hnot, heq⟩ | ⟨⟨w, hw⟩, m', sh', heq, -, -⟩
    · rw [hlink] at heq
      exact ⟨_, _, heq, iff_of_true rfl ((h.get_none hk).mpr hnot)⟩
    · refine ⟨_, _, heq, iff_of_false (by decide) ?_⟩
      intro hnone
      exact (h.get_none hk).mp hnone w hw

theorem statuses_exact_iff (hreach : Reach Masstree.step (· = .new) (fun m c => m.spared c = true) m)
    (hk : k ≠ []) (hins : m.spared (.insert_value k v) = true) (hrem : m.spared (.remove_value k) = true) :
    StatusesExact m k v ↔ m.linked (.ofString k) = false := by
  obtain ⟨sh, hok⟩ := treeOk_reach hreach
  refine ⟨?_, hok.statusesExact hk hins hrem⟩
  intro hexact
  by_contra hlink
  rw [Bool.not_eq_false] at hlink
  by_cases hget : m.get_value (.ofString k) = some none
  · rcases hok.remove_value (Key.at_ofString hk) (by simpa [Masstree.spared] using hrem) with
      ⟨-, heq⟩ | ⟨⟨w, hw⟩, -⟩
    · rw [hlink, if_pos rfl] at heq
      exact hexact.remove_linked hget heq
    · exact (hok.get_none hk).mp hget w hw
  · rcases hok.insert_value (Key.at_ofString hk) v (by simpa [Masstree.spared] using hins) with
      ⟨⟨w, hw⟩, heq⟩ | ⟨hnot, -⟩
    · rw [hlink, if_pos rfl] at heq
      exact hexact.insert_linked ((hok.get_some hk).mpr hw) heq
    · exact hget ((hok.get_none hk).mpr hnot)

theorem statuses_exact_short :
    let m : Masstree Nat := .afterCalls [.insert_value (sharedKey 1) 1, .insert_value (sharedKey 2) 2]
    StatusesExact m [11] 3 ↔ m.linked (.ofString [11]) = false := by
  exact statuses_exact_iff (reach_afterCalls (by decide +kernel) (by decide +kernel)) (by decide)
    (by decide +kernel) (by decide +kernel)

/-- The second insertion of a key of a lower layer returns `OK`. -/
theorem statuses_not_exact :
    ¬ ∀ m : Masstree Nat, Reach Masstree.step (· = .new) anyStep m → ∀ k v, k ≠ [] → StatusesExact m k v := by
  intro hall
  have hexact := hall (.afterCalls [.insert_value (sharedKey 1) 1, .insert_value (sharedKey 2) 2])
    (reach_afterCalls (admits_anyStep _ _) (by decide +kernel)) (sharedKey 1) 3 (by decide)
  have hstatus : ((Masstree.afterCalls [.insert_value (sharedKey 1) 1, .insert_value (sharedKey 2) 2]).insert_value
      (.ofString (sharedKey 1)) 3).map Prod.fst = some .OK := by
    decide +kernel
  obtain ⟨⟨status, m'⟩, hins, rfl⟩ := Option.map_eq_some_iff.mp hstatus
  exact hexact.insert_linked (w := 1) (by decide +kernel) hins

/-- The nodes that pointers lead to from the root of layer 0, each with the slices of the links on
the way. -/
inductive InLayer (m : Masstree V) : List Nat → Ptr → Prop
  | root {p : Ptr} (hp : m.root = some p) : InLayer m [] p
  | child {π : List Nat} {p q : Ptr} {i : Nat} (hp : InLayer m π p) (hinner : (m.heap.mem p).is_border = false)
      (hi : i ≤ (m.heap.mem p).n_keys) (hq : (m.heap.mem p).child i = some q) : InLayer m π q
  | layer {π : List Nat} {p q : Ptr} {i : Nat} (hp : InLayer m π p) (hborder : (m.heap.mem p).is_border = true)
      (hi : i < 15) (hlen : ((m.heap.mem p).slot i).key_len = key_len_layer)
      (hq : ((m.heap.mem p).slot i).lv = .link q) : InLayer m (π ++ [((m.heap.mem p).slot i).key_slice]) q

/-- A slot that is marked as a link leads to the root of a layer, and the root leads back. -/
def LayerLinks (m : Masstree V) : Prop :=
  ∀ π p, InLayer m π p → (m.heap.mem p).is_border = true → ∀ i < 15,
    ((m.heap.mem p).slot i).key_len = key_len_layer →
    ∃ q, ((m.heap.mem p).slot i).lv = .link q ∧ (m.heap.mem q).is_root = true ∧
      (m.heap.mem q).parent = none ∧ (m.heap.mem q).deleted = false ∧ (m.heap.mem q).upperLayer = some p

section

variable {h : Heap V} {t : Layer V} {p q : Ptr} {i : Nat}

theorem Stored.child_mem : ∀ {par : Option Ptr}, Stored h par t → p ∈ t.ptrs →
    (h.mem p).is_border = false → i ≤ (h.mem p).n_keys → (h.mem p).child i = some q → q ∈ t.ptrs := by
  induction t using BTree.ind with
  | hleaf r es =>
    intro par hst hp hinner
    obtain rfl : p = r := by simpa using hp
    rw [(stored_leaf.mp hst).border] at hinner
    cases hinner
  | hinner r ks cs ih =>
    intro par hst hp hinner hi hq
    obtain ⟨hn, hcs⟩ := stored_inner.mp hst
    rw [BTree.ptrs_inner, List.mem_cons] at hp ⊢
    right
    rcases hp with rfl | hp
    · have hcell : (cells (h.mem p).child ((h.mem p).n_keys + 1))[i]? = some (some q) := by
        rw [getElem?_cells, if_pos (Nat.lt_succ_of_le hi), hq]
      rw [hn.children] at hcell
      have hmem : some q ∈ (cs.map BTree.root).map some := List.mem_of_getElem? hcell
      obtain ⟨c, hc, rfl⟩ : ∃ c ∈ cs, c.root = q := by simpa using hmem
      exact BTree.mem_forestPtrs.mpr ⟨c, hc, c.root_mem_ptrs⟩
    · obtain ⟨c, hc, hpc⟩ := BTree.mem_forestPtrs.mp hp
      exact BTree.mem_forestPtrs.mpr ⟨c, hc, ih c hc (hcs c hc) hpc hinner hi hq⟩

theorem Stored.leaf_of_border : ∀ {par : Option Ptr}, Stored h par t → p ∈ t.ptrs →
    (h.mem p).is_border = true → ∃ es, (p, es) ∈ t.leaves := by
  induction t using BTree.ind with
  | hleaf r es =>
    intro par hst hp _
    obtain rfl : p = r := by simpa using hp
    exact ⟨es, by simp⟩
  | hinner r ks cs ih =>
    intro par hst hp hborder
    obtain ⟨hn, hcs⟩ := stored_inner.mp hst
    rw [BTree.ptrs_inner, List.mem_cons] at hp
    rcases hp with rfl | hp
    · rw [hn.border] at hborder
      cases hborder
    · obtain ⟨c, hc, hpc⟩ := BTree.mem_forestPtrs.mp hp
      obtain ⟨es, hes⟩ := ih c hc (hcs c hc) hpc hborder
      exact ⟨es, by rw [BTree.leaves_inner]; exact BTree.mem_forestLeaves.mpr ⟨c, hc, hes⟩⟩

/-- The border nodes of a layer list the slots of their permutations. -/
theorem ShapeOk.border {π : List Nat} (hok : ShapeOk h sh) (ht : sh π = some t) (hp : p ∈ t.ptrs)
    (hborder : (h.mem p).is_border = true) : (h.mem p).SlotsOk ∧
      ∀ i ∈ (h.mem p).permutation, Listed sh π p ((h.mem p).slot i) := by
  have hst := (hok.layer π t ht).stored
  obtain ⟨es, hl⟩ := hst.leaf_of_border hp hborder
  obtain ⟨par, hn⟩ := hst.leaf_at hl
  refine ⟨hn.slots, ?_⟩
  intro i hi
  exact ⟨t, es, ht, hl, hn.entries ▸ List.mem_map_of_mem hi⟩

/-- A slot that is marked as a link is listed, and links to the layer of its slice. -/
theorem ShapeOk.link {π : List Nat} (hok : ShapeOk h sh) (ht : sh π = some t) (hp : p ∈ t.ptrs)
    (hborder : (h.mem p).is_border = true) (hi : i < 15) (hlen : ((h.mem p).slot i).key_len = key_len_layer) :
    ∃ t', sh (π ++ [((h.mem p).slot i).key_slice]) = some t' ∧ ((h.mem p).slot i).lv = .link t'.root ∧
      (h.mem t'.root).upperLayer = some p := by
  obtain ⟨hslots, hlisted⟩ := hok.border ht hp hborder
  have hmem : i ∈ (h.mem p).permutation := by
    by_contra hfree
    have := (hslots.free i hi hfree).1
    rw [hlen, key_len_layer] at this
    omega
  have hs := hlisted i hmem
  have hlive := hslots.live i hmem
  generalize (h.mem p).slot i = s at hlen hs hlive
  cases hlive with
  | short v hlen' =>
    dsimp only at hlen
    rw [key_len_layer] at hlen
    omega
  | long v hne hsize hslices => cases hlen
  | layer q =>
    obtain ⟨t', ht', rfl, hupper⟩ := hok.down π p _ q hs rfl
    exact ⟨t', ht', rfl, hupper⟩

end

theorem TreeOk.inLayer (h : TreeOk m sh) {π : List Nat} {p : Ptr} (hp : InLayer m π p) :
    ∃ t, sh π = some t ∧ p ∈ t.ptrs := by
  induction hp with
  | root hp =>
    rw [h.root] at hp
    obtain ⟨t, ht, rfl⟩ := Option.map_eq_some_iff.mp hp
    exact ⟨t, ht, t.root_mem_ptrs⟩
  | child _ hinner hi hq ih =>
    obtain ⟨t, ht, hp⟩ := ih
    exact ⟨t, ht, (h.ok.layer _ t ht).stored.child_mem hp hinner hi hq⟩
  | layer _ hborder hi hlen hq ih =>
    obtain ⟨t, ht, hp⟩ := ih
    obtain ⟨t', ht', hlink, -⟩ := h.ok.link ht hp hborder hi hlen
    rw [hlink, LinkOrValue.link.injEq] at hq
    exact ⟨t', ht', hq ▸ t'.root_mem_ptrs⟩

theorem TreeOk.layerLinks (h : TreeOk m sh) : LayerLinks m := by
  intro π p hp hborder i hi hlen
  obtain ⟨t, ht, hmem⟩ := h.inLayer hp
  obtain ⟨t', ht', hlink, hupper⟩ := h.ok.link ht hmem hborder hi hlen
  have hlayer := h.ok.layer _ t' ht'
  have hroot := t'.root_mem_ptrs
  exact ⟨t'.root, hlink, (hlayer.roots _ hroot).mpr rfl, hlayer.stored.parent_root,
    hlayer.stored.alive _ hroot, hupper⟩

theorem layer_links_kept (hreach : Reach Masstree.step (· = .new) (fun m c => m.spared c = true) m) :
    LayerLinks m ∧ ∀ c : Call V, c.key ≠ [] → m.spared c = true → (m.call c).isSome := by
  obtain ⟨sh, hok⟩ := treeOk_reach hreach
  refine ⟨hok.layerLinks, ?_⟩
  intro c hkey hspared
  obtain ⟨status, m', sh', hcall, -⟩ := hok.call hkey hspared
  rw [hcall]
  rfl

/-- Sixteen keys of one lower layer, in two border nodes. -/
def sixteen : List (Call Nat) :=
  (List.range 16).map fun i => .insert_value (sharedKey (UInt8.ofNat (i + 1))) i

theorem layer_links_kept_two_borders :
    let m : Masstree Nat := .afterCalls sixteen
    LayerLinks m ∧ ∀ c : Call Nat, c.key ≠ [] → m.spared c = true → (m.call c).isSome := by
  exact layer_links_kept (reach_afterCalls (by decide +kernel) (by decide +kernel))

/-- The removal of the only key of one of the two border nodes leaves the other one as the
root of the layer, without its upper layer. -/
theorem layer_links_broken :
    ¬ ∀ m : Masstree Nat, Reach Masstree.step (· = .new) anyStep m → LayerLinks m := by
  intro hall
  have hlinks := hall (.afterCalls (sixteen ++ [.remove_value (sharedKey 16)]))
    (reach_afterCalls (admits_anyStep _ _) (by decide +kernel))
  obtain ⟨q, hq, -, -, -, hupper⟩ := hlinks [] 0 (.root (by decide +kernel)) (by decide +kernel) 0 (by decide)
    (by decide +kernel)
  have hlink : ((Masstree.afterCalls (sixteen ++ [.remove_value (sharedKey 16)])).heap.mem 0 |>.slot 0).lv =
      .link 1 := by
    decide +kernel
  obtain rfl : q = 1 := LinkOrValue.link.inj (hq.symm.trans hlink)
  have hnone : ((Masstree.afterCalls (sixteen ++ [.remove_value (sharedKey 16)])).heap.mem 1).upperLayer = none := by
    decide +kernel
  rw [hnone] at hupper
  cases hupper

end Cassa.Masstree

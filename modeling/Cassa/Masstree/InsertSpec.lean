import Cassa.Masstree.LayerLink

/-!
# What an insertion does

From the border node for a key on, `masstree_insert` finds the key, or stores it: into a
free slot, into one of the halves of a full node, or in a layer below. `longSplit` says
when a key with further slices meets a full node; there the split stores the size of the
slice in the place of the slice.
-/

namespace Cassa.Masstree

open Cassa.Lib.SearchTree

variable {V : Type} {h h' : Heap V}

section

variable {again : Heap V → Key → Option (Status × Option Ptr × Heap V)}
  {below : Heap V → Ptr → Key → Option (Status × Option Ptr × Heap V)} {root node q : Ptr} {key : Key}
  {value : V} {fuel i : Nat} {lv : LinkOrValue V} {status : Status} {r : Option Ptr} {h₁ : Heap V}

theorem insertForward_value (halive : (h.mem node).deleted = false)
    (hs : (h.mem node).searchLinkOrValueWithIndex key = (.VALUE, lv, i)) :
    insertForward again below root key value (fuel + 1) h node = some (.WARN_ALREADY_EXISTS, some root, h) := by
  simp only [insertForward, halive, hs, Node.splitHappened, bne_self_eq_false, Bool.false_eq_true, if_false]

theorem insertForward_layer (halive : (h.mem node).deleted = false)
    (hs : (h.mem node).searchLinkOrValueWithIndex key = (.LAYER, .link q, i))
    (hb : below h q key.next = some (status, r, h')) (hstatus : status ≠ .RETRY_FROM_UPPER_LAYER) :
    insertForward again below root key value (fuel + 1) h node = some (.OK, some root, h') := by
  simp only [insertForward, halive, hs, Node.splitHappened, bne_self_eq_false, Bool.false_eq_true, if_false, hb,
    Option.bind_eq_bind, Option.bind_some, if_neg hstatus]

theorem insertForward_break (halive : (h.mem node).deleted = false)
    (hs : (h.mem node).searchLinkOrValueWithIndex key = (.NOTFOUND, lv, i)) {j : Nat}
    (hcheck : check_break_invariant (h.mem node) key = some j) (hh₁ : handle_break_invariant h node j = some h₁)
    (hlink : ((h₁.mem node).slot j).lv = .link q) (hb : below h₁ q key.next = some (status, r, h'))
    (hstatus : status ≠ .RETRY_FROM_UPPER_LAYER) :
    insertForward again below root key value (fuel + 1) h node = some (.OK, some root, h') := by
  simp only [insertForward, halive, hs, Node.splitHappened, bne_self_eq_false, Bool.false_eq_true, if_false, hcheck,
    hh₁, Option.bind_eq_bind, Option.bind_some, hlink, hb, if_neg hstatus]

theorem insertForward_border (halive : (h.mem node).deleted = false)
    (hs : (h.mem node).searchLinkOrValueWithIndex key = (.NOTFOUND, lv, i))
    (hcheck : check_break_invariant (h.mem node) key = none) (hlen : (h.mem node).permutation.length ≠ 15)
    {n : Node V} (hn : insert_to_border (h.mem node) key value = some n) :
    insertForward again below root key value (fuel + 1) h node = some (.OK, some root, h.set node n) := by
  simp only [insertForward, halive, hs, Node.splitHappened, bne_self_eq_false, Bool.false_eq_true, if_false, hcheck,
    ne_eq, hlen, not_false_eq_true, if_true, hn, Option.bind_eq_bind, Option.bind_some]

theorem insertForward_split (halive : (h.mem node).deleted = false)
    (hs : (h.mem node).searchLinkOrValueWithIndex key = (.NOTFOUND, lv, i))
    (hcheck : check_break_invariant (h.mem node) key = none) (hlen : (h.mem node).permutation.length = 15)
    (hsplit : split h node key value = some (r, h')) :
    insertForward again below root key value (fuel + 1) h node = some (.OK, some (r.getD root), h') := by
  simp only [insertForward, halive, hs, Node.splitHappened, bne_self_eq_false, Bool.false_eq_true, if_false, hcheck,
    ne_eq, hlen, not_true_eq_false, hsplit, Option.bind_eq_bind, Option.bind_some]
  cases r with
  | none => rfl
  | some r => rfl

end

section

variable {sh : Shape V} {π : List Nat} {key : Key} {value : V} {fs : List (Frame (Slot V))} {p : Ptr}
  {es : List (Slot V)} {a b : Nat}

/-- A slot in the way of the new one holds another key that goes on after the same slice. -/
theorem Place.check_some (hok : ShapeOk h sh) (hp : Place sh π key fs p es a b)
    (hlayer : key.hasNext = true → ∀ i ∈ (h.mem p).permutation,
      ((h.mem p).slot i).key_slice = key.getCurrentSlice.slice → ((h.mem p).slot i).layer? = none) {i : Nat}
    (hcheck : check_break_invariant (h.mem p) key = some i) : key.hasNext = true ∧ i ∈ (h.mem p).permutation ∧
      ((h.mem p).slot i).key_len = key_len_has_suffix ∧
      ((h.mem p).slot i).key_slice = key.getCurrentSlice.slice := by
  unfold check_break_invariant at hcheck
  split at hcheck
  · rename_i hn
    have hi := List.mem_of_find?_eq_some hcheck
    obtain ⟨hlen, hx⟩ : _ ∧ _ := by simpa using List.find?_some hcheck
    refine ⟨hn, hi, ?_, hx⟩
    rcases hlen with hlen | hlen
    · exact hlen
    · exact absurd (hlayer hn i hi hx) ((((hp.borderAt hok).slots.live i hi).layer?_iff).mp hlen)
  · cases hcheck

/-- Nothing is in the way of the new slot. -/
theorem Place.check_none (hok : ShapeOk h sh) (hp : Place sh π key fs p es a b) (hk : key.Wf)
    (hkey : ∀ i ∈ (h.mem p).permutation, ∀ v, ((h.mem p).slot i).key? ≠ some (key.rest, v))
    (hcheck : check_break_invariant (h.mem p) key = none) : ∀ e ∈ es, e.id ≠ (slotFor key value).id := by
  have hn := hp.borderAt hok
  intro e he hid
  obtain ⟨i, hi, rfl⟩ := hn.exists_index he
  obtain ⟨hx, ⟨v, hv⟩ | ⟨hnext, hlen⟩⟩ := (hn.slots.live i hi).id_eq_slotFor hk hid
  · exact hkey i hi v hv
  · rw [check_break_invariant, if_pos hnext, List.find?_eq_none] at hcheck
    exact hcheck i hi (by simpa using ⟨hlen, hx⟩)

theorem insertSlot_mem {s s₁ : Slot V} : s₁ ∈ insertSlot s es ↔ s₁ = s ∨ s₁ ∈ es := by
  rw [(insertSlot_perm s es).mem_iff, List.mem_cons]

/-- The insertion into a free slot. -/
theorem Place.insertLeaf (hok : ShapeOk h sh) (hp : Place sh π key fs p es a b) (hk : key.At π)
    (hlen : (h.mem p).permutation.length ≠ 15) (hid : ∀ e ∈ es, e.id ≠ (slotFor key value).id) :
    ∃ n sh', insert_to_border (h.mem p) key value = some n ∧
      Inserted (h.set p n) sh sh' π (plug fs (.leaf p es)).root (key.slices, key.lastSliceSize) value := by
  have hn := hp.borderAt hok
  have hle := hn.slots.classified.length_le
  obtain ⟨i, perm, hins, hslots, hentries⟩ := Node.insert_to_border_spec hn.slots (by omega) hk.wf
    (show ∀ e ∈ (h.mem p).entries, e.id ≠ (slotFor key value).id by rw [hn.entries]; exact hid)
  rw [hn.entries] at hentries
  have hat : BorderAt { (h.mem p).setSlot i (slotFor key value) with permutation := perm } (h.mem p).parent
      (insertSlot (slotFor key value) es) := ⟨hn.border, hn.alive, rfl, hslots, hentries⟩
  have hwf : (BTree.leaf p (insertSlot (slotFor key value) es)).Wf Slot.key_slice 15 a b := by
    obtain ⟨-, hcap, hsort, hrange⟩ := BTree.wf_leaf.mp hp.wf
    refine BTree.wf_leaf.mpr ⟨?_, ?_, insertSlot_sorted hsort, ?_⟩
    · exact List.ne_nil_of_mem (insertSlot_mem.mpr (Or.inl rfl))
    · have hlen' : es.length = (h.mem p).permutation.length := by rw [← hn.entries, Node.entries, List.length_map]
      rw [(insertSlot_perm _ _).length_eq, List.length_cons]
      omega
    · intro e he
      rcases insertSlot_mem.mp he with rfl | he
      · rw [slotFor_key_slice hk.wf]
        exact ⟨hp.lo, hp.hi⟩
      · exact hrange e he
  refine ⟨_, _, hins, hp.setLeaf hok hat hwf rfl rfl rfl rfl ?_, ?_, ?_, ?_⟩
  · intro s hs
    rw [insertSlot_mem, or_iff_right]
    rintro rfl
    exact hs (slotFor_layer? hk.wf value)
  · refine fun K v => holds_insert hk ?_
    intro ρ s _
    by_cases hρ : ρ = π
    · rw [hρ]
      simp only [listed_iff (Function.update_self π _ sh), listed_iff hp.shape, inLeaves_plug, insertSlot_mem, true_and]
      constructor
      · rintro ⟨p', ⟨rfl, rfl | hs⟩ | hs⟩
        · exact Or.inr rfl
        · exact Or.inl ⟨_, Or.inl ⟨rfl, hs⟩⟩
        · exact Or.inl ⟨p', Or.inr hs⟩
      · rintro (⟨p', ⟨rfl, hs⟩ | hs⟩ | rfl)
        · exact ⟨_, Or.inl ⟨rfl, Or.inr hs⟩⟩
        · exact ⟨p', Or.inr hs⟩
        · exact ⟨p, Or.inl ⟨rfl, Or.inl rfl⟩⟩
    · simp only [listed_congr (Function.update_of_ne hρ _ sh), hρ, false_and, or_false]
  · intro ρ hlen'
    rw [Function.update_of_ne fun he => by simp [he] at hlen']
  · rw [Function.update_self, Option.map_some]
    exact congrArg some (root_plug_congr rfl)

/-- A key with further slices comes to a full border node, and nothing is in its way there:
the split stores the size of the slice for the slice. -/
def longSplitAt (below : Ptr → Key → Bool) (n : Node V) (key : Key) : Bool :=
  match n.searchLinkOrValueWithIndex key with
  | (.LAYER, .link next_layer, _) => below next_layer key.next
  | (.NOTFOUND, _, _) => key.hasNext && (check_break_invariant n key).isNone &&
      n.permutation.length == 15 && key.getCurrentSlice.slice != 8
  | _ => false

/-- The same from the root on, down the layers that the key goes through. -/
def longSplit : Nat → Heap V → Ptr → Key → Bool
  | 0, _, _, _ => false
  | fuel + 1, h, root, key =>
    (findBorder h root key).any fun p => longSplitAt (longSplit fuel h) (h.mem p) key

/-- Where the guard holds, the split stores the right slot. -/
theorem newSlot_eq_slotFor (hk : key.Wf) (hslice : key.hasNext = true → key.getCurrentSlice.slice = 8) :
    newSlot key value key.getCurrentSlice.size (key.cursor + 1) = slotFor key value := by
  cases hn : key.hasNext with
  | false => rw [slotFor, newSlot_of_not_hasNext hk value hn, newSlot_of_not_hasNext hk value hn]
  | true =>
    have hsize : key.getCurrentSlice.size = 8 := by simp [Key.getCurrentSlice, Key.getCurrentSliceSize, hn]
    rw [slotFor, hsize, hslice hn]

/-- A layer with one key has no full node. -/
theorem ShapeOk.longSplit_single (hok : ShapeOk h sh) {q : Ptr} {s : Slot V}
    (hsh : sh π = some (.leaf q [s])) (hs : s.layer? = none) (hk : key.At π) (fuel : Nat) :
    longSplit fuel h q key = false := by
  cases fuel with
  | zero => rfl
  | succ fuel =>
    obtain ⟨fs, p, es, a, b, hp, hfind⟩ := hok.findBorder hsh hk
    change Masstree.findBorder h q key = some p at hfind
    have hn := hp.borderAt hok
    obtain ⟨rfl, hes⟩ : p = q ∧ es = [s] := by
      have hmem := leaf_mem_plug fs p es
      rw [Option.some.inj (hp.shape.symm.trans hsh)] at hmem
      simpa using hmem
    have hlen : (h.mem p).permutation.length = 1 := by
      have := congrArg List.length hn.entries
      rw [hes, Node.entries, List.length_map] at this
      exact this
    have hsearch := hp.search hok hk
    simp only [longSplit, hfind, Option.any_some, longSplitAt]
    generalize (h.mem p).searchLinkOrValueWithIndex key = res at hsearch
    cases hsearch with
    | value hi hkey honly => rfl
    | @layer i t hi hlink hslice hn' hsh' =>
      have hmem := hn.slot_mem hi
      rw [hes, List.mem_singleton] at hmem
      rw [hmem, hs] at hlink
      cases hlink
    | notFound hnot hkey hlayer => simp [hlen]

end

/-- What an insertion in the layer `π` returns. `here` is whether the border node of this
layer holds the key: only then the status says so. `root` is the node that the call was given,
and `top` the root of the layer; a new root has a new address. -/
def InsertPost (h : Heap V) (sh : Shape V) (π : List Nat) (top root : Ptr) (here : Prop) [Decidable here]
    (K : List Nat × Nat) (value : V) (res : Option (Status × Option Ptr × Heap V)) : Prop :=
  (∃ v, Holds sh K v) ∧ res = some (if here then .WARN_ALREADY_EXISTS else .OK, some root, h) ∨
    (∀ v, ¬ Holds sh K v) ∧ ∃ (r : Option Ptr) (h' : Heap V) (sh' : Shape V), res = some (.OK, some (r.getD root), h') ∧ (∀ q ∈ r, h.fresh ≤ q) ∧
      Inserted h' sh sh' π (r.getD top) K value

section

variable {sh : Shape V} {π : List Nat} {key : Key} {value : V} {fs : List (Frame (Slot V))} {p : Ptr}
  {es : List (Slot V)} {a b : Nat}

/-- A key inserted below the layer. -/
theorem Inserted.lift {sh₁ sh' : Shape V} {x : Nat} {root r : Ptr} {K : List Nat × Nat}
    (hins : Inserted h' sh₁ sh' (π ++ [x]) r K value) (hkeys : ∀ K v, Holds sh₁ K v ↔ Holds sh K v)
    (hroots : ∀ ρ, ρ.length ≤ π.length → (sh₁ ρ).map BTree.root = (sh ρ).map BTree.root)
    (hroot : (sh π).map BTree.root = some root) : Inserted h' sh sh' π root K value where
  ok := hins.ok
  keys := by
    intro K' v
    rw [hins.keys, hkeys]
  above := by
    intro ρ hρ
    rw [hins.above ρ (by simp only [List.length_append, List.length_singleton]; omega), hroots ρ (Nat.le_of_lt hρ)]
  root := by
    rw [hins.above π (by simp only [List.length_append, List.length_singleton]; omega), hroots π (Nat.le_refl _), hroot]

/-- From the border node for the key on. `below` is right for the layer below it. -/
theorem Place.insertForward {again : Heap V → Key → Option (Status × Option Ptr × Heap V)}
    {below : Heap V → Ptr → Key → Option (Status × Option Ptr × Heap V)} {fuel k : Nat}
    (hok : ShapeOk h sh) (hp : Place sh π key fs p es a b) (hk : key.At π)
    (hbelow : key.hasNext = true → ∀ {h₁ : Heap V} {sh₁ : Shape V} {t : Layer V}, ShapeOk h₁ sh₁ →
      sh₁ (π ++ [key.getCurrentSlice.slice]) = some t → longSplit fuel h₁ t.root key.next = false →
      ∃ here : Bool, InsertPost h₁ sh₁ (π ++ [key.getCurrentSlice.slice]) t.root t.root here
        (key.slices, key.lastSliceSize) value (below h₁ t.root key.next))
    (hguard : longSplitAt (longSplit fuel h) (h.mem p) key = false) (root : Ptr) :
    InsertPost h sh π (plug fs (.leaf p es)).root root (((h.mem p).searchLinkOrValueWithIndex key).1 = .VALUE)
      (key.slices, key.lastSliceSize) value
      (Masstree.insertForward again below root key value (k + 1) h p) := by
  have halive := (hp.borderAt hok).alive
  have hsearch := hp.search hok hk
  have hrootπ : (sh π).map BTree.root = some (plug fs (.leaf p es)).root := by
    rw [hp.shape, Option.map_some]
  unfold longSplitAt at hguard
  generalize hres : (h.mem p).searchLinkOrValueWithIndex key = res at hsearch hguard
  cases hsearch with
  | @value i v hi hkey honly =>
    refine Or.inl ⟨⟨v, (honly v).mpr rfl⟩, ?_⟩
    rw [insertForward_value halive hres, if_pos rfl]
  | @layer i t hi hlink hslice hn hsh =>
    obtain ⟨here, ⟨hv, hb⟩ | ⟨hnot, r, h', sh', hb, -, hins⟩⟩ := hbelow hn hok hsh hguard
    · refine Or.inl ⟨hv, ?_⟩
      rw [insertForward_layer halive hres hb (by split <;> nofun), if_neg nofun]
    · refine Or.inr ⟨hnot, none, h', sh', insertForward_layer halive hres hb nofun, nofun, ?_⟩
      exact hins.lift (fun _ _ => Iff.rfl) (fun _ _ => rfl) hrootπ
  | notFound hnot hkey hlayer =>
    refine Or.inr ⟨hnot, ?_⟩
    cases hcheck : check_break_invariant (h.mem p) key with
    | some i =>
      obtain ⟨hn, hi, hlen, hx⟩ := hp.check_some hok hlayer hcheck
      obtain ⟨h₁, sh₁, q, s, hbreak, hlv, hok₁, hkeys, hsh₁, hs, hroots⟩ := hp.breakInvariant hok hi hlen hx
      obtain ⟨here, ⟨⟨v, hv⟩, -⟩ | ⟨-, r, h', sh', hb, -, hins⟩⟩ :=
        hbelow hn hok₁ hsh₁ (hok₁.longSplit_single hsh₁ hs (hk.next hn) fuel)
      · exact absurd ((hkeys _ v).mp hv) (hnot v)
      · refine ⟨none, h', sh', insertForward_break halive hres hcheck hbreak hlv hb nofun, nofun, ?_⟩
        exact hins.lift hkeys hroots hrootπ
    | none =>
      have hid : ∀ e ∈ es, e.id ≠ (slotFor key value).id := hp.check_none hok hk.wf hkey hcheck
      by_cases hlen : (h.mem p).permutation.length = 15
      · have hslice : key.hasNext = true → key.getCurrentSlice.slice = 8 := by
          intro hn
          simpa [hn, hcheck, hlen] using hguard
        obtain ⟨r, h', sh', hsplit, hins⟩ := hp.splitLeaf hok hk hlen (newSlot_eq_slotFor hk.wf hslice) hid
        exact ⟨r, h', sh', insertForward_split halive hres hcheck hlen hsplit, (split_fresh hsplit).2, hins⟩
      · obtain ⟨n, sh', hborder, hins⟩ := hp.insertLeaf hok hk hlen hid
        exact ⟨none, _, sh', insertForward_border halive hres hcheck hlen hborder, nofun, hins⟩

/-- The whole insertion below the root of a layer. -/
theorem ShapeOk.insert (hok : ShapeOk h sh) : ∀ {fuel : Nat} {π : List Nat} {t : Layer V} {key : Key},
    sh π = some t → key.At π → key.slices.length ≤ key.cursor + fuel → longSplit fuel h t.root key = false →
    ∃ p, Masstree.findBorder h t.root key = some p ∧
      InsertPost h sh π t.root t.root (((h.mem p).searchLinkOrValueWithIndex key).1 = .VALUE)
        (key.slices, key.lastSliceSize) value (masstree_insert value fuel h t.root key) := by
  intro fuel
  induction fuel generalizing h sh with
  | zero =>
    intro π t key ht hk hfuel
    have := hk.wf.cursor
    omega
  | succ fuel ih =>
    intro π t key ht hk hfuel hguard
    obtain ⟨fs, p, es, a, b, hp, hfind⟩ := hok.findBorder ht hk
    obtain rfl := Option.some.inj (ht.symm.trans hp.shape)
    rw [longSplit, hfind, Option.any_some] at hguard
    refine ⟨p, hfind, ?_⟩
    rw [masstree_insert, hfind]
    refine hp.insertForward hok hk ?_ hguard _
    intro hn h₁ sh₁ t₁ hok₁ hsh₁ hguard₁
    obtain ⟨p₁, -, hpost⟩ := ih hok₁ hsh₁ (hk.next hn) (by simp only [Key.next]; omega) hguard₁
    refine ⟨decide (((h₁.mem p₁).searchLinkOrValueWithIndex key.next).1 = .VALUE), ?_⟩
    simp only [decide_eq_true_eq]
    exact hpost

end

end Cassa.Masstree

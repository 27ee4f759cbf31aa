import Mathlib.Data.List.GetD
import Mathlib.Data.List.InsertIdx
import Mathlib.Data.List.Sort
import Mathlib.Data.List.TakeWhile
import Mathlib.Data.List.Nodup
import Cassa.Masstree.Remove

/-!
# Border nodes as sorted lists

A border node denotes the list of its slots in the order of the permutation. The
operations on the node are described on that list: search finds the slot whose key is the
rest of the key that is looked for, insertion puts a slot before the first one that is
not smaller, removal takes one out.
-/

namespace Cassa.Masstree

variable {V : Type}

/-- The slices from the cursor on, with the size of the last one. -/
def Key.rest (k : Key) : List Nat × Nat := (k.slices.drop k.cursor, k.lastSliceSize)

namespace Key

variable {k : Key}

theorem slices_drop (hk : k.Wf) :
    k.slices.drop k.cursor = k.getCurrentSlice.slice :: k.slices.drop (k.cursor + 1) := by
  rw [List.drop_eq_getElem_cons hk.cursor, getCurrentSlice]
  simp [List.getD_eq_getElem?_getD, hk.cursor]

theorem rest_eq (hk : k.Wf) :
    k.rest = (k.getCurrentSlice.slice :: k.slices.drop (k.cursor + 1), k.lastSliceSize) := by
  rw [rest, slices_drop hk]

theorem hasNext_iff (hk : k.Wf) : k.hasNext = true ↔ k.slices.drop (k.cursor + 1) ≠ [] := by
  have := hk.cursor
  rw [hasNext, bne_iff_ne, ne_eq, ne_eq, List.drop_eq_nil_iff]
  omega

theorem slice_lt (hk : k.Wf) : k.getCurrentSlice.slice < 2 ^ 64 := by
  have hmem : k.getCurrentSlice.slice ∈ k.slices := by
    apply List.mem_of_mem_drop (i := k.cursor)
    rw [slices_drop hk]
    exact List.mem_cons_self
  exact hk.slices _ hmem

theorem size_eq (hn : k.hasNext = false) : k.getCurrentSlice.size = k.lastSliceSize := by
  simp [getCurrentSlice, getCurrentSliceSize, hn]

theorem Wf.next (hk : k.Wf) (hn : k.hasNext = true) : k.next.Wf where
  cursor := by
    have := hk.cursor
    rw [hasNext, bne_iff_ne] at hn
    change k.cursor + 1 < k.slices.length
    omega
  size := hk.size
  slices := hk.slices

theorem rest_next (hk : k.Wf) :
    k.rest = (k.getCurrentSlice.slice :: k.next.rest.1, k.next.rest.2) := rest_eq hk

end Key

/-- What a slot that the permutation lists can be: a key that ends in this slice, a key
with a suffix, or a link to a layer. -/
inductive Slot.Live : Slot V → Prop
  | short {len slice : Nat} (v : V) (hlen : 1 ≤ len ∧ len ≤ 8) : Live ⟨len, slice, .value v, none⟩
  | long {slice : Nat} {suffix : BigSuffix} (v : V) (hne : suffix.slices ≠ [])
      (hsize : 1 ≤ suffix.lastSliceSize ∧ suffix.lastSliceSize ≤ 8)
      (hslices : ∀ s ∈ suffix.slices, s < 2 ^ 64) :
      Live ⟨key_len_has_suffix, slice, .value v, some suffix⟩
  | layer {slice : Nat} (q : Ptr) : Live ⟨key_len_layer, slice, .link q, none⟩

namespace Slot

/-- The rest of the key that the slot stands for, and its value. -/
def key? (s : Slot V) : Option ((List Nat × Nat) × V) :=
  match s.lv with
  | .value v =>
    match s.suffix with
    | none => some (([s.key_slice], s.key_len), v)
    | some suffix => some ((s.key_slice :: suffix.slices, suffix.lastSliceSize), v)
  | _ => none

/-- The layer that the slot links to. -/
def layer? (s : Slot V) : Option Ptr :=
  match s.lv with
  | .link q => some q
  | _ => none

/-- The slice with the length, where a key with a suffix and a layer count as one. -/
def id (s : Slot V) : Nat × Nat := (s.key_slice, min s.key_len 9)

theorem Live.len {s : Slot V} (h : s.Live) : 1 ≤ s.key_len ∧ s.key_len ≤ 9 ∨ s.key_len = 255 := by
  cases h with
  | short v hlen => exact Or.inl ⟨hlen.1, Nat.le_succ_of_le hlen.2⟩
  | long v hne hsize _ => simp [key_len_has_suffix]
  | layer q => exact Or.inr rfl

theorem Live.id_le {s : Slot V} (h : s.Live) : 1 ≤ s.id.2 ∧ s.id.2 ≤ 9 := by
  rcases h.len with h | h
  · simp only [id]
    omega
  · simp [id, h]

end Slot

/-- The slots of a border node: a slot is in use if and only if the permutation lists it. -/
structure Node.SlotsOk (n : Node V) : Prop where
  nodup : n.permutation.Nodup
  lt : ∀ i ∈ n.permutation, i < 15
  live : ∀ i ∈ n.permutation, (n.slot i).Live
  free : ∀ i < 15, i ∉ n.permutation →
    ((n.slot i).key_len = 0 ∨ 10 ≤ (n.slot i).key_len ∧ (n.slot i).key_len ≤ 18) ∧
      (n.slot i).layer? = none
  ids : (n.permutation.map fun i => (n.slot i).id).Nodup

/-- The same without a word on the keys, which a key with a wrong slice may repeat. -/
structure Node.Classified (n : Node V) : Prop where
  nodup : n.permutation.Nodup
  lt : ∀ i ∈ n.permutation, i < 15
  live : ∀ i ∈ n.permutation, (n.slot i).Live
  free : ∀ i < 15, i ∉ n.permutation →
    ((n.slot i).key_len = 0 ∨ 10 ≤ (n.slot i).key_len ∧ (n.slot i).key_len ≤ 18) ∧
      (n.slot i).layer? = none

theorem Node.SlotsOk.classified {n : Node V} (h : n.SlotsOk) : n.Classified := ⟨h.nodup, h.lt, h.live, h.free⟩

theorem Node.Classified.slotsOk {n : Node V} (h : n.Classified)
    (hids : (n.permutation.map fun i => (n.slot i).id).Nodup) : n.SlotsOk :=
  ⟨h.nodup, h.lt, h.live, h.free, hids⟩

/-- The slots in the order of the permutation. -/
def Node.entries (n : Node V) : List (Slot V) := n.permutation.map n.slot

theorem Node.Classified.length_le {n : Node V} (h : n.Classified) : n.permutation.length ≤ 15 := by
  have hsub : n.permutation ⊆ List.range 15 := fun i hi => List.mem_range.mpr (h.lt i hi)
  simpa using (List.subperm_of_subset h.nodup hsub).length_le

theorem Node.SlotsOk.live_entries {n : Node V} (h : n.SlotsOk) : ∀ s ∈ n.entries, s.Live := by
  intro s hs
  obtain ⟨i, hi, rfl⟩ := List.mem_map.mp hs
  exact h.live i hi

theorem BigSuffix.isSame_iff {s : BigSuffix} {key : Key} (hk : key.Wf) (hn : key.hasNext = true)
    (hne : s.slices ≠ []) (hsize : 1 ≤ s.lastSliceSize ∧ s.lastSliceSize ≤ 8) :
    s.isSame key (key.cursor + 1) = true ↔
      key.next.rest = (s.slices, s.lastSliceSize) := by
  have hcur := (hk.next hn).cursor
  change key.cursor + 1 < key.slices.length at hcur
  have hlen : 0 < s.slices.length := List.length_pos_iff.mpr hne
  have hks := hk.size
  change _ ↔ (key.slices.drop (key.cursor + 1), key.lastSliceSize) = _
  rw [isSame, Bool.and_eq_true, beq_iff_eq, List.all_eq_true, Prod.mk.injEq]
  unfold Key.remainLength remainLength
  constructor
  · rintro ⟨hrem, hall⟩
    have hslices : key.slices.length - (key.cursor + 1) = s.slices.length := by omega
    refine ⟨?_, by omega⟩
    apply List.ext_getElem (by simpa using hslices)
    intro i hi hi'
    have := hall i (List.mem_range.mpr hi')
    rw [beq_iff_eq, List.getD_eq_getElem _ _ hi', List.getD_eq_getElem _ _ (by omega)] at this
    rw [List.getElem_drop, ← this]
    congr 1
    omega
  · rintro ⟨hdrop, hlast⟩
    have hslices : key.slices.length - (key.cursor + 1) = s.slices.length := by
      rw [← hdrop, List.length_drop]
    refine ⟨by omega, ?_⟩
    intro i hi
    rw [List.mem_range] at hi
    rw [beq_iff_eq, List.getD_eq_getElem _ _ hi, List.getD_eq_getElem _ _ (by omega)]
    have hget : (key.slices.drop (key.cursor + 1))[i]? = s.slices[i]? := by rw [hdrop]
    rw [List.getElem?_drop, List.getElem?_eq_getElem hi, List.getElem?_eq_getElem (by omega),
      Option.some.injEq] at hget
    rw [← hget]
    congr 1
    omega

theorem Node.searchValue_cases (n : Node V) (current : SliceWithSize) (l : List Nat) :
    (∃ i ∈ l, ((n.slot i).key_slice = current.slice ∧ (n.slot i).key_len = current.size) ∧
      n.searchValue current l = (.VALUE, (n.slot i).lv, i)) ∨
    (∀ i ∈ l, ¬ ((n.slot i).key_slice = current.slice ∧ (n.slot i).key_len = current.size)) ∧
      n.searchValue current l = (.NOTFOUND, .null, 0) := by
  induction l with
  | nil => exact Or.inr ⟨by simp, rfl⟩
  | cons i l ih =>
    by_cases hi : (n.slot i).key_slice = current.slice ∧ (n.slot i).key_len = current.size
    · exact Or.inl ⟨i, List.mem_cons_self, hi, by rw [searchValue, if_pos hi]⟩
    · rw [searchValue, if_neg hi]
      rcases ih with ⟨j, hj, hmatch, he⟩ | ⟨hnone, he⟩
      · exact Or.inl ⟨j, List.mem_cons_of_mem _ hj, hmatch, he⟩
      · refine Or.inr ⟨?_, he⟩
        intro j hj
        rcases List.mem_cons.mp hj with rfl | hj
        · exact hi
        · exact hnone j hj

/-- A slot that holds the key, among those with a suffix. -/
def Node.HoldsLong (n : Node V) (key : Key) (i : Nat) : Prop :=
  (n.slot i).key_slice = key.getCurrentSlice.slice ∧ (n.slot i).key_len = key_len_has_suffix ∧
    (n.slot i).suffix.any (·.isSame key (key.cursor + 1))

theorem Node.searchLink_cases (n : Node V) (key : Key) (l : List Nat)
    (hstable : ∀ i ∈ l, (n.slot i).key_len ≠ key_len_unstable) :
    (∃ i ∈ l, n.HoldsLong key i ∧ n.searchLink key l = (.VALUE, (n.slot i).lv, i)) ∨
    (∃ i ∈ l, ((n.slot i).key_slice = key.getCurrentSlice.slice ∧
      (n.slot i).key_len = key_len_layer) ∧ n.searchLink key l = (.LAYER, (n.slot i).lv, i)) ∨
    (∀ i ∈ l, ¬ n.HoldsLong key i ∧ ¬ ((n.slot i).key_slice = key.getCurrentSlice.slice ∧
      (n.slot i).key_len = key_len_layer)) ∧ n.searchLink key l = (.NOTFOUND, .null, 0) := by
  induction l with
  | nil => exact Or.inr (Or.inr ⟨by simp, rfl⟩)
  | cons i l ih =>
    have ih := ih fun j hj => hstable j (List.mem_cons_of_mem _ hj)
    have hi := hstable i List.mem_cons_self
    have hskip : ¬ n.HoldsLong key i → ¬ ((n.slot i).key_slice = key.getCurrentSlice.slice ∧
        (n.slot i).key_len = key_len_layer) → n.searchLink key (i :: l) = n.searchLink key l := by
      intro hlong hlayer
      unfold HoldsLong at hlong
      rw [searchLink]
      by_cases hs : (n.slot i).key_slice = key.getCurrentSlice.slice
      · rw [if_pos hs, if_neg (fun h => hlong ⟨hs, h⟩), if_neg (fun h => hlayer ⟨hs, h⟩), if_neg hi]
      · rw [if_neg hs]
    by_cases hlong : n.HoldsLong key i
    · refine Or.inl ⟨i, List.mem_cons_self, hlong, ?_⟩
      rw [searchLink, if_pos hlong.1, if_pos hlong.2]
    by_cases hlayer : (n.slot i).key_slice = key.getCurrentSlice.slice ∧
        (n.slot i).key_len = key_len_layer
    · refine Or.inr (Or.inl ⟨i, List.mem_cons_self, hlayer, ?_⟩)
      rw [searchLink, if_pos hlayer.1, if_neg (fun h => hlong ⟨hlayer.1, h⟩), if_pos hlayer.2]
    rw [hskip hlong hlayer]
    rcases ih with ⟨j, hj, hmatch, he⟩ | ⟨j, hj, hmatch, he⟩ | ⟨hnone, he⟩
    · exact Or.inl ⟨j, List.mem_cons_of_mem _ hj, hmatch, he⟩
    · exact Or.inr (Or.inl ⟨j, List.mem_cons_of_mem _ hj, hmatch, he⟩)
    · refine Or.inr (Or.inr ⟨?_, he⟩)
      intro j hj
      rcases List.mem_cons.mp hj with rfl | hj
      · exact ⟨hlong, hlayer⟩
      · exact hnone j hj

/-- What a search in a border node says about the key. -/
inductive Node.Search (n : Node V) (key : Key) : SearchResult × LinkOrValue V × Nat → Prop
  | value {i : Nat} {v : V} (hi : i ∈ n.permutation) (hkey : (n.slot i).key? = some (key.rest, v)) :
    Search n key (.VALUE, .value v, i)
  | layer {i : Nat} {q : Ptr} (hi : i ∈ n.permutation) (hlayer : (n.slot i).layer? = some q)
      (hslice : (n.slot i).key_slice = key.getCurrentSlice.slice) (hn : key.hasNext = true) :
    Search n key (.LAYER, .link q, i)
  | notFound (hkey : ∀ i ∈ n.permutation, ∀ v, (n.slot i).key? ≠ some (key.rest, v))
      (hlayer : key.hasNext = true → ∀ i ∈ n.permutation,
        (n.slot i).key_slice = key.getCurrentSlice.slice → (n.slot i).layer? = none) :
    Search n key (.NOTFOUND, .null, 0)

theorem Slot.Live.key?_short {s : Slot V} (hs : s.Live) {key : Key} (hk : key.Wf)
    (hn : key.hasNext = false) :
    (s.key_slice = key.getCurrentSlice.slice ∧ s.key_len = key.getCurrentSlice.size) ↔
      ∃ v, s.key? = some (key.rest, v) := by
  have hdrop : key.slices.drop (key.cursor + 1) = [] := by
    by_contra hne
    rw [(Key.hasNext_iff hk).mpr hne] at hn
    cases hn
  have hsize := hk.size
  rw [Key.rest_eq hk, hdrop, Key.size_eq hn]
  cases hs with
  | short v hlen => simp [key?]
  | long v hne hsize' _ =>
    simp only [key?, key_len_has_suffix]
    constructor
    · rintro ⟨-, h⟩
      omega
    · rintro ⟨v, h⟩
      simp only [Option.some.injEq, Prod.mk.injEq, List.cons.injEq] at h
      exact absurd h.1.1.2 hne
  | layer q =>
    simp only [key?, key_len_layer]
    constructor
    · rintro ⟨-, h⟩
      omega
    · rintro ⟨v, h⟩
      cases h

theorem Node.Classified.holdsLong_iff {n : Node V} (hok : n.Classified) {key : Key} (hk : key.Wf)
    (hn : key.hasNext = true) {i : Nat} (hi : i ∈ n.permutation) :
    n.HoldsLong key i ↔ ∃ v, (n.slot i).key? = some (key.rest, v) := by
  have hne := (Key.hasNext_iff hk).mp hn
  have hlive := hok.live i hi
  unfold HoldsLong
  rw [Key.rest_eq hk]
  revert hlive
  generalize n.slot i = s
  intro hlive
  cases hlive with
  | short v hlen =>
    simp only [Slot.key?, key_len_has_suffix]
    constructor
    · rintro ⟨-, h, -⟩
      omega
    · rintro ⟨v, h⟩
      simp only [Option.some.injEq, Prod.mk.injEq, List.cons.injEq] at h
      exact absurd h.1.1.2.symm hne
  | @long slice suffix v hne' hsize _ =>
    simp only [Slot.key?, Option.any_some, BigSuffix.isSame_iff hk hn hne' hsize, true_and]
    change _ ∧ (key.slices.drop (key.cursor + 1), key.lastSliceSize) = _ ↔ _
    simp only [Option.some.injEq, Prod.mk.injEq, List.cons.injEq]
    constructor
    · rintro ⟨rfl, h₁, h₂⟩
      exact ⟨v, ⟨⟨rfl, h₁.symm⟩, h₂.symm⟩, rfl⟩
    · rintro ⟨v, ⟨⟨rfl, h₁⟩, h₂⟩, -⟩
      exact ⟨rfl, h₁.symm, h₂.symm⟩
  | layer q =>
    simp only [Slot.key?, key_len_has_suffix, key_len_layer]
    constructor
    · rintro ⟨-, h, -⟩
      omega
    · rintro ⟨v, h⟩
      cases h

theorem Slot.Live.layer?_iff {s : Slot V} (hs : s.Live) : s.key_len = key_len_layer ↔ s.layer? ≠ none := by
  cases hs with
  | short v hlen =>
    simp only [key_len_layer, layer?, ne_eq, not_true_eq_false, iff_false]
    omega
  | long v hne hsize _ => simp [key_len_layer, layer?, key_len_has_suffix]
  | layer q => simp [layer?]

theorem Slot.lv_of_key? {s : Slot V} {r : (List Nat × Nat) × V} (h : s.key? = some r) :
    s.lv = .value r.2 := by
  unfold key? at h
  split at h
  · rename_i v hv
    rw [hv]
    split at h <;> simp only [Option.some.injEq] at h <;> rw [← h]
  · cases h

theorem Slot.lv_of_layer? {s : Slot V} {q : Ptr} (h : s.layer? = some q) : s.lv = .link q := by
  unfold layer? at h
  split at h
  · rename_i p hp
    rw [hp, Option.some.inj h]
  · cases h

theorem Node.Classified.search_spec {n : Node V} (hok : n.Classified) {key : Key} (hk : key.Wf) :
    n.Search key (n.searchLinkOrValueWithIndex key) := by
  unfold Node.searchLinkOrValueWithIndex
  cases hn : key.hasNext with
  | false =>
    rw [if_neg Bool.false_ne_true]
    have hshort := fun i hi => (hok.live i hi).key?_short hk hn
    rcases n.searchValue_cases key.getCurrentSlice n.permutation with ⟨i, hi, hmatch, he⟩ | ⟨hnone, he⟩
    · obtain ⟨v, hv⟩ := (hshort i hi).mp hmatch
      rw [he, Slot.lv_of_key? hv]
      exact .value hi hv
    · rw [he]
      refine .notFound ?_ ?_
      · intro i hi v hv
        exact hnone i hi ((hshort i hi).mpr ⟨v, hv⟩)
      · intro h
        rw [hn] at h
        cases h
  | true =>
    rw [if_pos rfl]
    have hstable : ∀ i ∈ n.permutation, (n.slot i).key_len ≠ key_len_unstable := by
      intro i hi
      have := (hok.live i hi).len
      unfold key_len_unstable
      omega
    have hlayer := fun i hi => (hok.live i hi).layer?_iff
    rcases n.searchLink_cases key n.permutation hstable with
      ⟨i, hi, hmatch, he⟩ | ⟨i, hi, hmatch, he⟩ | ⟨hnone, he⟩
    · obtain ⟨v, hv⟩ := (hok.holdsLong_iff hk hn hi).mp hmatch
      rw [he, Slot.lv_of_key? hv]
      exact .value hi hv
    · obtain ⟨q, hq⟩ := Option.ne_none_iff_exists'.mp ((hlayer i hi).mp hmatch.2)
      rw [he, Slot.lv_of_layer? hq]
      exact .layer hi hq hmatch.1 hn
    · rw [he]
      refine .notFound ?_ ?_
      · intro i hi v hv
        exact (hnone i hi).1 ((hok.holdsLong_iff hk hn hi).mpr ⟨v, hv⟩)
      · intro _ i hi hs
        by_contra hne
        exact (hnone i hi).2 ⟨hs, (hlayer i hi).mpr hne⟩

/-- The slot for a key, when the slice that is stored is the one of the key. -/
def slotFor (key : Key) (value : V) : Slot V :=
  newSlot key value key.getCurrentSlice.slice (key.cursor + 1)

theorem newSlot_of_hasNext {key : Key} (value : V) (hn : key.hasNext = true) (longSlice start : Nat) :
    newSlot key value longSlice start =
      ⟨key_len_has_suffix, longSlice, .value value, some (.from_ key start)⟩ := by
  have hsize : key.getCurrentSlice.size = 8 := by simp [Key.getCurrentSlice, Key.getCurrentSliceSize, hn]
  simp [newSlot, hsize, hn]

theorem slotFor_of_hasNext {key : Key} (value : V) (hn : key.hasNext = true) : slotFor key value =
    ⟨key_len_has_suffix, key.getCurrentSlice.slice, .value value, some (.from_ key (key.cursor + 1))⟩ :=
  newSlot_of_hasNext value hn _ _

theorem newSlot_of_not_hasNext {key : Key} (hk : key.Wf) (value : V) (hn : key.hasNext = false)
    (longSlice start : Nat) : newSlot key value longSlice start =
      ⟨key.lastSliceSize, key.getCurrentSlice.slice, .value value, none⟩ := by
  have hsize := hk.size
  simp only [newSlot, Key.size_eq hn]
  by_cases h : 1 ≤ key.lastSliceSize ∧ key.lastSliceSize ≤ 7
  · simp [h]
  · have h8 : key.lastSliceSize = 8 := by omega
    simp [h8, hn]

theorem slotFor_of_not_hasNext {key : Key} (hk : key.Wf) (value : V) (hn : key.hasNext = false) :
    slotFor key value = ⟨key.lastSliceSize, key.getCurrentSlice.slice, .value value, none⟩ :=
  newSlot_of_not_hasNext hk value hn _ _

theorem newSlot_live {key : Key} (hk : key.Wf) (value : V) (longSlice : Nat) :
    (newSlot key value longSlice (key.cursor + 1)).Live := by
  cases hn : key.hasNext with
  | true =>
    rw [newSlot_of_hasNext value hn]
    refine .long value ((Key.hasNext_iff hk).mp hn) hk.size ?_
    intro s hs
    exact hk.slices s (List.mem_of_mem_drop hs)
  | false =>
    rw [newSlot_of_not_hasNext hk value hn]
    exact .short value hk.size

theorem slotFor_live {key : Key} (hk : key.Wf) (value : V) : (slotFor key value).Live := newSlot_live hk value _

theorem slotFor_key_slice {key : Key} (hk : key.Wf) (value : V) :
    (slotFor key value).key_slice = key.getCurrentSlice.slice := by
  cases hn : key.hasNext with
  | true => rw [slotFor_of_hasNext value hn]
  | false => rw [slotFor_of_not_hasNext hk value hn]

theorem slotFor_key? {key : Key} (hk : key.Wf) (value : V) :
    (slotFor key value).key? = some (key.rest, value) := by
  rw [Key.rest_eq hk]
  cases hn : key.hasNext with
  | true =>
    rw [slotFor_of_hasNext value hn]
    rfl
  | false =>
    have hdrop : key.slices.drop (key.cursor + 1) = [] := by
      by_contra hne
      rw [(Key.hasNext_iff hk).mpr hne] at hn
      cases hn
    rw [slotFor_of_not_hasNext hk value hn, hdrop]
    rfl

theorem slotFor_layer? {key : Key} (hk : key.Wf) (value : V) : (slotFor key value).layer? = none := by
  cases hn : key.hasNext with
  | true => rw [slotFor_of_hasNext value hn]; rfl
  | false => rw [slotFor_of_not_hasNext hk value hn]; rfl

/-- A slot of the same kind for the same slice stands in the way: it holds the key, or the
two keys share the slice and both go on after it. -/
theorem Slot.Live.id_eq_slotFor {s : Slot V} (hs : s.Live) {key : Key} (hk : key.Wf) {value : V}
    (he : s.id = (slotFor key value).id) :
    s.key_slice = key.getCurrentSlice.slice ∧
      ((∃ v, s.key? = some (key.rest, v)) ∨ key.hasNext = true ∧
        (s.key_len = key_len_has_suffix ∨ s.key_len = key_len_layer)) := by
  have hslice : s.key_slice = key.getCurrentSlice.slice := by
    rw [← slotFor_key_slice hk value]
    exact congrArg Prod.fst he
  refine ⟨hslice, ?_⟩
  have hlen : min s.key_len 9 = min (slotFor key value).key_len 9 := congrArg Prod.snd he
  have hsize := hk.size
  cases hn : key.hasNext with
  | true =>
    right
    refine ⟨rfl, ?_⟩
    rw [slotFor_of_hasNext value hn] at hlen
    have := hs.len
    unfold key_len_has_suffix key_len_layer at *
    dsimp only at hlen
    omega
  | false =>
    left
    rw [← hs.key?_short hk hn]
    refine ⟨hslice, ?_⟩
    rw [slotFor_of_not_hasNext hk value hn] at hlen
    rw [Key.size_eq hn]
    dsimp only at hlen
    omega

/-- Before the first slot whose slice is not smaller. -/
def insertSlot (s : Slot V) (es : List (Slot V)) : List (Slot V) :=
  es.takeWhile (fun e => e.key_slice < s.key_slice) ++
    s :: es.dropWhile (fun e => e.key_slice < s.key_slice)

def SortedSlots (es : List (Slot V)) : Prop := es.Pairwise fun a b => a.key_slice ≤ b.key_slice

theorem insertSlot_perm (s : Slot V) (es : List (Slot V)) : (insertSlot s es).Perm (s :: es) := by
  refine List.perm_middle.trans ?_
  rw [List.takeWhile_append_dropWhile]

theorem le_of_mem_dropWhile {x : Nat} {es : List (Slot V)} (h : SortedSlots es) :
    ∀ e ∈ es.dropWhile (fun e => e.key_slice < x), x ≤ e.key_slice := by
  induction es with
  | nil => simp
  | cons a es ih =>
    obtain ⟨hfirst, hrest⟩ := List.pairwise_cons.mp h
    by_cases ha : a.key_slice < x
    · rw [List.dropWhile_cons_of_pos (by simpa using ha)]
      exact ih hrest
    · rw [List.dropWhile_cons_of_neg (by simpa using ha)]
      intro e he
      rcases List.mem_cons.mp he with rfl | he
      · exact Nat.le_of_not_lt ha
      · exact Nat.le_trans (Nat.le_of_not_lt ha) (hfirst e he)

theorem lt_of_mem_takeWhile {x : Nat} {es : List (Slot V)} :
    ∀ e ∈ es.takeWhile (fun e => e.key_slice < x), e.key_slice < x := by
  intro e he
  simpa using List.mem_takeWhile_imp he

theorem insertSlot_sorted {s : Slot V} {es : List (Slot V)} (h : SortedSlots es) :
    SortedSlots (insertSlot s es) := by
  refine List.pairwise_append.mpr ⟨h.sublist (List.takeWhile_sublist _), ?_, ?_⟩
  · refine List.pairwise_cons.mpr ⟨le_of_mem_dropWhile h, h.sublist (List.dropWhile_sublist _)⟩
  · intro a ha b hb
    have ha' := lt_of_mem_takeWhile a ha
    rcases List.mem_cons.mp hb with rfl | hb
    · exact Nat.le_of_lt ha'
    · exact Nat.le_trans (Nat.le_of_lt ha') (le_of_mem_dropWhile h b hb)

theorem insertIdx_takeWhile {α : Type} (p : α → Bool) (x : α) (l : List α) :
    l.insertIdx (l.takeWhile p).length x = l.takeWhile p ++ x :: l.dropWhile p := by
  induction l with
  | nil => rfl
  | cons a l ih =>
    by_cases ha : p a
    · rw [List.takeWhile_cons_of_pos ha, List.dropWhile_cons_of_pos ha, List.length_cons,
        List.insertIdx_succ_cons, ih]
      rfl
    · rw [List.takeWhile_cons_of_neg ha, List.dropWhile_cons_of_neg ha]
      rfl

namespace Node

variable {n : Node V}

/-- A node that is not full has a slot for a new key, and it is not one in use. -/
theorem Classified.exists_free (hn : n.Classified) (hlen : n.permutation.length < 15) :
    ∃ i, n.insertPoint = some i ∧ i < 15 ∧ i ∉ n.permutation := by
  have hfree : ∃ i < 15, i ∉ n.permutation := by
    by_contra hall
    push Not at hall
    have hsub : List.range 15 ⊆ n.permutation := fun i hi => hall i (List.mem_range.mp hi)
    have := (List.subperm_of_subset List.nodup_range hsub).length_le
    rw [List.length_range] at this
    omega
  obtain ⟨j, hj, hjn⟩ := hfree
  have hsome : n.insertPoint.isSome := by
    rw [insertPoint, List.find?_isSome]
    exact ⟨j, List.mem_range.mpr hj, by simpa using (hn.free j hj hjn).1⟩
  obtain ⟨i, hi⟩ := Option.isSome_iff_exists.mp hsome
  have hlt : i < 15 := List.mem_range.mp (List.mem_of_find?_eq_some hi)
  refine ⟨i, hi, hlt, ?_⟩
  intro hmem
  have hkind := List.find?_some hi
  have hlive := (hn.live i hmem).len
  simp only [decide_eq_true_eq] at hkind
  omega

theorem map_slot_setSlot {i : Nat} {s : Slot V} {l : List Nat} (hi : i ∉ l) :
    l.map (n.setSlot i s).slot = l.map n.slot := by
  apply List.map_congr_left
  intro j hj
  have hne : j ≠ i := fun he => hi (he ▸ hj)
  exact Function.update_of_ne hne ..

@[simp] theorem setSlot_slot_self (i : Nat) (s : Slot V) : (n.setSlot i s).slot i = s :=
  Function.update_self ..

theorem setSlot_slot_of_ne {i j : Nat} (s : Slot V) (hne : j ≠ i) :
    (n.setSlot i s).slot j = n.slot j := Function.update_of_ne hne ..

/-- The list of a node in which slot `i` was filled and put into the permutation. -/
theorem map_insertIdx_setSlot {i : Nat} {s : Slot V} (hi : i ∉ n.permutation) :
    (n.permutation.insertIdx (insertionPoint n s.key_slice) i).map (n.setSlot i s).slot =
      insertSlot s n.entries := by
  rw [List.map_insertIdx, map_slot_setSlot hi, setSlot_slot_self, insertSlot]
  have hpoint : insertionPoint n s.key_slice =
      ((n.permutation.map n.slot).takeWhile fun e => e.key_slice < s.key_slice).length := by
    rw [List.takeWhile_map, List.length_map]
    rfl
  rw [hpoint]
  exact insertIdx_takeWhile _ s _

theorem perm_insertIdx {i k : Nat} (l : List Nat) (hk : k ≤ l.length) :
    (l.insertIdx k i).Perm (i :: l) := List.perm_insertIdx i l hk

theorem insertionPoint_le (x : Nat) : insertionPoint n x ≤ n.permutation.length :=
  (List.takeWhile_sublist _).length_le

/-- The node after a slot was filled and put into the permutation. -/
theorem Classified.insert (hn : n.Classified) {i : Nat} {s : Slot V} (hlt : i < 15)
    (hi : i ∉ n.permutation) (hs : s.Live) {k : Nat} (hk : k ≤ n.permutation.length) :
    ({ n.setSlot i s with permutation := n.permutation.insertIdx k i } : Node V).Classified := by
  have hperm := perm_insertIdx (i := i) n.permutation hk
  constructor
  · exact hperm.nodup_iff.mpr (List.nodup_cons.mpr ⟨hi, hn.nodup⟩)
  · intro j hj
    rcases List.mem_cons.mp (hperm.mem_iff.mp hj) with rfl | hj
    · exact hlt
    · exact hn.lt j hj
  · intro j hj
    rcases List.mem_cons.mp (hperm.mem_iff.mp hj) with rfl | hj
    · change ((n.setSlot j s).slot j).Live
      rw [setSlot_slot_self]
      exact hs
    · change ((n.setSlot i s).slot j).Live
      have hne : j ≠ i := fun he => hi (he ▸ hj)
      rw [setSlot_slot_of_ne s hne]
      exact hn.live j hj
  · intro j hj hmem
    have hmem' : j ∉ i :: n.permutation := fun h => hmem (hperm.mem_iff.mpr h)
    rw [List.mem_cons, not_or] at hmem'
    change (((n.setSlot i s).slot j).key_len = 0 ∨ _) ∧ ((n.setSlot i s).slot j).layer? = none
    rw [setSlot_slot_of_ne s hmem'.1]
    exact hn.free j hj hmem'.2

theorem SlotsOk.insert (hok : n.SlotsOk) {i : Nat} {s : Slot V} (hlt : i < 15)
    (hi : i ∉ n.permutation) (hs : s.Live) (hid : ∀ e ∈ n.entries, e.id ≠ s.id) {k : Nat}
    (hk : k ≤ n.permutation.length) :
    ({ n.setSlot i s with permutation := n.permutation.insertIdx k i } : Node V).SlotsOk := by
  refine (hok.classified.insert hlt hi hs hk).slotsOk ?_
  refine ((perm_insertIdx (i := i) n.permutation hk).map _).nodup_iff.mpr ?_
  rw [List.map_cons, List.nodup_cons]
  change ((n.setSlot i s).slot i).id ∉ n.permutation.map (fun j => ((n.setSlot i s).slot j).id) ∧
    (n.permutation.map fun j => ((n.setSlot i s).slot j).id).Nodup
  have hmap : (n.permutation.map fun j => ((n.setSlot i s).slot j).id) =
      n.permutation.map fun j => (n.slot j).id := by
    apply List.map_congr_left
    intro j hj
    have hne : j ≠ i := fun he => hi (he ▸ hj)
    rw [setSlot_slot_of_ne s hne]
  rw [hmap, setSlot_slot_self]
  refine ⟨?_, hok.ids⟩
  intro hmem
  obtain ⟨j, hj, he⟩ := List.mem_map.mp hmem
  exact hid _ (List.mem_map_of_mem hj) he

theorem insert_to_border_spec (hok : n.SlotsOk) (hlen : n.permutation.length < 15) {key : Key}
    (hk : key.Wf) {value : V} (hid : ∀ e ∈ n.entries, e.id ≠ (slotFor key value).id) :
    ∃ i perm, insert_to_border n key value =
        some { n.setSlot i (slotFor key value) with permutation := perm } ∧
      ({ n.setSlot i (slotFor key value) with permutation := perm } : Node V).SlotsOk ∧
      ({ n.setSlot i (slotFor key value) with permutation := perm } : Node V).entries =
        insertSlot (slotFor key value) n.entries := by
  obtain ⟨i, hpoint, hlt, hi⟩ := hok.classified.exists_free hlen
  refine ⟨i, n.permutation.insertIdx (insertionPoint n key.getCurrentSlice.slice) i, ?_,
    hok.insert hlt hi (slotFor_live hk value) hid (insertionPoint_le _), ?_⟩
  · rw [insert_to_border, if_neg (Nat.ne_of_lt hlen), hpoint]
    rfl
  · have := map_insertIdx_setSlot (s := slotFor key value) hi
    rw [slotFor_key_slice hk] at this
    exact this

end Node

end Cassa.Masstree

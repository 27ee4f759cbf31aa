import Cassa.Masstree.Reachable

/-!
# The range scan

`masstree_scan.cpp`. The scan walks the list of border nodes from the one of the left key
and rebuilds the key of each slot in `current_key`. On its way it takes the slices out of
the very suffix that the slot holds, all but the last one. The two pointers of
`LinkOrValue` are one word, so that a link passes for a value: the scan returns it under
the eight bytes of its slice and never goes down to another layer.
-/

set_option linter.dupNamespace false

namespace Cassa.Masstree

open Cassa.Lib.SearchTree
open Cassa.Lib.Runs

variable {V : Type}

/-- The bounds of a scan. -/
structure Range where
  left_key : Key
  l_exclusive : Bool
  right_key : Key
  r_exclusive : Bool

namespace Range

/-- `current_key < left_key || (l_exclusive && current_key == left_key)` -/
def before (b : Range) (current_key : Key) : Bool :=
  current_key.lt b.left_key || b.l_exclusive && current_key == b.left_key

/-- `right_key < current_key || (r_exclusive && current_key == right_key)` -/
def beyond (b : Range) (current_key : Key) : Bool :=
  b.right_key.lt current_key || b.r_exclusive && current_key == b.right_key

end Range

/-- The slices that are pushed from a suffix, and the suffix that is left. -/
def takeSlices (lastSliceSize : Nat) : List Nat → List Nat × BigSuffix
  | x :: y :: rest =>
    let (pushed, suffix) := takeSlices lastSliceSize (y :: rest)
    (x :: pushed, suffix)
  | slices => ([(BigSuffix.mk slices lastSliceSize).getCurrentSlice.slice], ⟨slices, lastSliceSize⟩)

/-- `slices.resize(n)` -/
def resize (slices : List Nat) (n : Nat) : List Nat := slices.take n ++ List.replicate (n - slices.length) 0

/-- The key of the slot, rebuilt in `current_key`, and what is left of the slot. -/
def rebuild (current_key : Key) (s : Slot V) : Key × Slot V :=
  let slices := (resize current_key.slices (current_key.cursor + 1)).set current_key.cursor s.key_slice
  let lastSliceSize :=
    if s.key_len = key_len_has_suffix ∨ s.key_len = key_len_layer then 8
    else if s.key_len < key_len_has_suffix then s.key_len
    else current_key.lastSliceSize
  match if s.key_len = key_len_has_suffix then s.suffix else none with
  | some suffix =>
    let (pushed, suffix) := takeSlices suffix.lastSliceSize suffix.slices
    (⟨slices ++ pushed, suffix.getCurrentSlice.size, current_key.cursor⟩, { s with suffix := some suffix })
  | none => (⟨slices, lastSliceSize, current_key.cursor⟩, s)

/-- The loop over the slots of a border node: whether the scan ends there, `current_key`, what
is added to `result`, and the node. -/
def scanSlots (b : Range) : List Nat → Node V → Key → Bool × Key × List (Key × LinkOrValue V) × Node V
  | [], n, current_key => (false, current_key, [], n)
  | i :: rest, n, current_key =>
    if n.isKeyRemoved i then scanSlots b rest n current_key
    else
      let (current_key, s) := rebuild current_key (n.slot i)
      let n := n.setSlot i s
      if b.before current_key then scanSlots b rest n current_key
      else if b.beyond current_key then (true, current_key, [], n)
      else
        let (ended, last_key, result, n) := scanSlots b rest n current_key
        match s.lv with
        | .null => (ended, last_key, result, n)
        | lv => (ended, last_key, (current_key, lv) :: result, n)

/-- The loop over the border nodes; no more turns than there are nodes. -/
def scanBorders (b : Range) : Nat → Heap V → Option Ptr → Key → Option (List (Key × LinkOrValue V) × Heap V)
  | _, h, none, _ => some ([], h)
  | 0, _, some _, _ => none
  | fuel + 1, h, some border, current_key =>
    let (ended, current_key, result, n) := scanSlots b (h.mem border).permutation (h.mem border) current_key
    let h := h.set border n
    if ended then some (result, h)
    else (scanBorders b fuel h n.next current_key).map fun (rest, h) => (result ++ rest, h)

/-- `Masstree::scan`, which starts with a copy of the left key. -/
def Masstree.scan (m : Masstree V) (b : Range) : Option (Status × List (Key × LinkOrValue V) × Masstree V) :=
  match m.root with
  | none => some (.ERROR_CONCURRENT_WRITE_OR_DELETE, [], m)
  | some root => do
    let border ← findBorder m.heap root b.left_key
    let (result, h) ← scanBorders b (m.heap.fresh + 1) m.heap (some border) b.left_key
    some (.OK, result, ⟨h, m.root⟩)

namespace Slot

/-- The key that the scan rebuilds from a slot of layer 0. -/
def scanKey (s : Slot V) : Key :=
  match s.suffix with
  | some suffix => ⟨s.key_slice :: suffix.slices, suffix.lastSliceSize, 0⟩
  | none => ⟨[s.key_slice], if s.key_len = key_len_layer then 8 else s.key_len, 0⟩

/-- The slot with the last slice of its suffix only. -/
def drained (s : Slot V) : Slot V :=
  { s with suffix := s.suffix.map fun suffix =>
      ⟨suffix.slices.drop (suffix.slices.length - 1), suffix.lastSliceSize⟩ }

end Slot

theorem takeSlices_eq (size : Nat) : ∀ {slices : List Nat}, slices ≠ [] →
    takeSlices size slices = (slices, ⟨slices.drop (slices.length - 1), size⟩) := by
  intro slices hne
  induction slices with
  | nil => exact absurd rfl hne
  | cons x rest ih =>
    cases rest with
    | nil => rfl
    | cons y rest =>
      rw [takeSlices, ih (List.cons_ne_nil y rest)]
      rfl

theorem resize_one (slices : List Nat) (x : Nat) : (resize slices 1).set 0 x = [x] := by
  cases slices with
  | nil => rfl
  | cons y rest => simp [resize]

section

variable {s : Slot V} {cur : Key}

theorem Slot.Live.rebuild (hs : s.Live) (hcur : cur.cursor = 0) : rebuild cur s = (s.scanKey, s.drained) := by
  unfold Masstree.rebuild
  rw [hcur, resize_one]
  cases hs with
  | @short len slice v hlen =>
    have hne : ¬ len = key_len_has_suffix := by
      unfold key_len_has_suffix
      omega
    have hne' : ¬ len = key_len_layer := by
      unfold key_len_layer
      omega
    have hlt : len < key_len_has_suffix := by
      unfold key_len_has_suffix
      omega
    simp [scanKey, drained, hne, hne', hlt]
  | @long slice suffix v hne hsize hslices =>
    have hnext : (BigSuffix.mk (suffix.slices.drop (suffix.slices.length - 1)) suffix.lastSliceSize).hasNext = false := by
      have := List.length_pos_of_ne_nil hne
      simp only [BigSuffix.hasNext, List.length_drop, decide_eq_false_iff_not]
      omega
    simp [scanKey, drained, takeSlices_eq _ hne, BigSuffix.getCurrentSlice, hnext]
  | @layer slice q => simp [scanKey, drained, key_len_has_suffix, key_len_layer]

theorem Slot.Live.not_removed {n : Node V} {i : Nat} (hs : (n.slot i).Live) : n.isKeyRemoved i = false := by
  rw [Node.isKeyRemoved, Bool.and_eq_false_iff, decide_eq_false_iff_not, decide_eq_false_iff_not]
  rcases hs.len with h | h
  · omega
  · omega

theorem Slot.Live.lv_ne (hs : s.Live) : s.lv ≠ .null := by
  cases hs with
  | short v hlen => exact nofun
  | long v hne hsize hslices => exact nofun
  | layer q => exact nofun

end

namespace Range

/-- The scan ends at the slot. -/
def stops (b : Range) (s : Slot V) : Bool := !b.before s.scanKey && b.beyond s.scanKey

/-- What the scan returns of the slots, in their order. -/
def picks (b : Range) : List (Slot V) → List (Key × LinkOrValue V)
  | [] => []
  | s :: rest =>
    if b.before s.scanKey then picks b rest
    else if b.beyond s.scanKey then []
    else (s.scanKey, s.lv) :: picks b rest

end Range

/-- The elements of a list up to the first one that satisfies `p`, which is included. -/
def upTo {α : Type} (p : α → Bool) : List α → List α
  | [] => []
  | x :: rest => x :: if p x then [] else upTo p rest

section

variable {b : Range} {s : Slot V} {l l' : List (Slot V)}

theorem upTo_cons_pos {α : Type} {p : α → Bool} {x : α} {l : List α} (hx : p x = true) : upTo p (x :: l) = [x] := by
  rw [upTo, if_pos hx]

theorem upTo_cons_neg {α : Type} {p : α → Bool} {x : α} {l : List α} (hx : p x = false) :
    upTo p (x :: l) = x :: upTo p l := by
  rw [upTo, if_neg (by rw [hx]; nofun)]

theorem upTo_append {α : Type} (p : α → Bool) (l l' : List α) :
    upTo p (l ++ l') = upTo p l ++ if l.any p then [] else upTo p l' := by
  induction l with
  | nil => rfl
  | cons x l ih =>
    rw [List.cons_append, upTo, upTo, ih, List.any_cons]
    cases p x with
    | true => rfl
    | false => rfl

theorem picks_append (b : Range) (l l' : List (Slot V)) :
    b.picks (l ++ l') = b.picks l ++ if l.any b.stops then [] else b.picks l' := by
  induction l with
  | nil => rfl
  | cons s l ih =>
    rw [List.cons_append, Range.picks, Range.picks, ih, List.any_cons, Range.stops]
    by_cases hbefore : b.before s.scanKey = true
    · simp [hbefore]
    · by_cases hbeyond : b.beyond s.scanKey = true
      · simp [hbefore, hbeyond]
      · simp [hbefore, hbeyond]

end

/-- The node with some of its slots drained. -/
def Node.drain (n : Node V) (is : List Nat) : Node V :=
  { n with slot := fun i => if i ∈ is then (n.slot i).drained else n.slot i }

theorem Node.drain_cons (n : Node V) {i : Nat} {is : List Nat} (hi : i ∉ is) :
    (n.setSlot i (n.slot i).drained).drain is = n.drain (i :: is) := by
  unfold Node.drain Node.setSlot
  congr 1
  funext j
  by_cases hj : j = i
  · rw [hj, if_neg hi, if_pos List.mem_cons_self]
    exact Function.update_self _ _ _
  · simp [hj]

theorem mem_upTo {α : Type} {p : α → Bool} {l : List α} {x : α} (hx : x ∈ upTo p l) : x ∈ l := by
  induction l with
  | nil => cases hx
  | cons y l ih =>
    rw [upTo, List.mem_cons] at hx
    rcases hx with rfl | hx
    · exact List.mem_cons_self
    · split at hx
      · cases hx
      · exact List.mem_cons_of_mem _ (ih hx)

theorem upTo_congr {α : Type} {p q : α → Bool} {l : List α} (h : ∀ x ∈ l, p x = q x) : upTo p l = upTo q l := by
  induction l with
  | nil => rfl
  | cons x l ih =>
    rw [upTo, upTo, h x List.mem_cons_self, ih fun y hy => h y (List.mem_cons_of_mem _ hy)]

theorem scanSlots_spec (b : Range) : ∀ {l : List Nat} {n : Node V} {cur : Key}, l.Nodup →
    (∀ i ∈ l, (n.slot i).Live) → cur.cursor = 0 → ∃ cur', cur'.cursor = 0 ∧
      scanSlots b l n cur = (l.any fun i => b.stops (n.slot i), cur', b.picks (l.map n.slot),
        n.drain (upTo (fun i => b.stops (n.slot i)) l)) := by
  intro l
  induction l with
  | nil =>
    intro n cur _ _ hcur
    refine ⟨cur, hcur, ?_⟩
    simp [scanSlots, Range.picks, upTo, Node.drain]
  | cons i l ih =>
    intro n cur hnodup hlive hcur
    obtain ⟨hi, hnodup⟩ := List.nodup_cons.mp hnodup
    have hsi := hlive i List.mem_cons_self
    have hkey : (n.slot i).scanKey.cursor = 0 := by
      unfold Slot.scanKey
      split
      · rfl
      · rfl
    have hslot : ∀ j ∈ l, (n.setSlot i (n.slot i).drained).slot j = n.slot j := by
      intro j hj
      have hne : j ≠ i := fun he => hi (he ▸ hj)
      exact Function.update_of_ne hne _ _
    have hmap : l.map (n.setSlot i (n.slot i).drained).slot = l.map n.slot := List.map_congr_left hslot
    obtain ⟨cur', hcur', heq⟩ := ih (n := n.setSlot i (n.slot i).drained) hnodup
      (fun j hj => by rw [hslot j hj]; exact hlive j (List.mem_cons_of_mem _ hj)) hkey
    have hany : (l.any fun j => b.stops ((n.setSlot i (n.slot i).drained).slot j)) =
        l.any fun j => b.stops (n.slot j) := by
      rw [Bool.eq_iff_iff, List.any_eq_true, List.any_eq_true]
      refine exists_congr fun j => and_congr_right fun hj => ?_
      rw [hslot j hj]
    have hup : upTo (fun j => b.stops ((n.setSlot i (n.slot i).drained).slot j)) l =
        upTo (fun j => b.stops (n.slot j)) l := upTo_congr fun j hj => by rw [hslot j hj]
    rw [hany, hmap, hup] at heq
    have hdrain : (n.setSlot i (n.slot i).drained).drain (upTo (fun j => b.stops (n.slot j)) l) =
        n.drain (i :: upTo (fun j => b.stops (n.slot j)) l) := n.drain_cons fun hm => hi (mem_upTo hm)
    rw [scanSlots, hsi.not_removed, hsi.rebuild hcur]
    simp only [Bool.false_eq_true, if_false, List.any_cons, List.map_cons, Range.picks]
    by_cases hbefore : b.before (n.slot i).scanKey = true
    · have hstops : b.stops (n.slot i) = false := by rw [Range.stops, hbefore]; rfl
      refine ⟨cur', hcur', ?_⟩
      rw [if_pos hbefore, if_pos hbefore, heq, upTo_cons_neg (p := fun i => b.stops (n.slot i)) hstops, hstops, hdrain]
      rfl
    by_cases hbeyond : b.beyond (n.slot i).scanKey = true
    · have hstops : b.stops (n.slot i) = true := by simp [Range.stops, hbefore, hbeyond]
      refine ⟨(n.slot i).scanKey, hkey, ?_⟩
      rw [if_neg hbefore, if_neg hbefore, if_pos hbeyond, if_pos hbeyond, upTo_cons_pos (p := fun i => b.stops (n.slot i)) hstops, hstops,
        ← n.drain_cons (List.not_mem_nil (a := i))]
      simp [Node.drain]
    · have hstops : b.stops (n.slot i) = false := by simp [Range.stops, hbeyond]
      refine ⟨cur', hcur', ?_⟩
      rw [if_neg hbefore, if_neg hbefore, if_neg hbeyond, if_neg hbeyond, heq, upTo_cons_neg (p := fun i => b.stops (n.slot i)) hstops, hstops, hdrain]
      have hlv : (n.slot i).drained.lv = (n.slot i).lv := rfl
      rw [hlv]
      cases hcase : (n.slot i).lv with
      | null => exact absurd hcase hsi.lv_ne
      | link q => rfl
      | value v => rfl

/-- Memory with some slots drained. -/
structure Drains (h h' : Heap V) : Prop where
  fresh : h'.fresh = h.fresh
  mem : ∀ q, ∃ is, h'.mem q = (h.mem q).drain is

@[simp] theorem Slot.drained_drained (s : Slot V) : s.drained.drained = s.drained := by
  unfold Slot.drained
  cases s.suffix with
  | none => rfl
  | some suffix =>
    simp only [Option.map_some, List.length_drop, List.drop_drop]
    congr 4
    omega

theorem Node.drain_drain (n : Node V) (is js : List Nat) : (n.drain is).drain js = n.drain (is ++ js) := by
  unfold Node.drain
  congr 1
  funext i
  by_cases hi : i ∈ is
  · by_cases hj : i ∈ js
    · simp [hi, hj]
    · simp [hi, hj]
  · by_cases hj : i ∈ js
    · simp [hi, hj]
    · simp [hi, hj]

theorem Node.drain_nil (n : Node V) : n.drain [] = n := by
  unfold Node.drain
  simp

/-- Nothing to drain. -/
theorem Node.drain_self {n : Node V} {is : List Nat} (h : ∀ i ∈ is, (n.slot i).drained = n.slot i) :
    n.drain is = n := by
  have hslot : (fun i => if i ∈ is then (n.slot i).drained else n.slot i) = n.slot := by
    funext i
    split
    · exact h i ‹_›
    · rfl
  rw [Node.drain, hslot]

theorem Node.drain_slot_mem {n : Node V} {is : List Nat} {i : Nat} (hi : i ∈ is) :
    (n.drain is).slot i = (n.slot i).drained := if_pos hi

section

variable {h h' h'' : Heap V}

theorem drains_set (h : Heap V) (p : Ptr) (is : List Nat) : Drains h (h.set p ((h.mem p).drain is)) := by
  refine ⟨rfl, ?_⟩
  intro q
  by_cases hq : q = p
  · exact ⟨is, by rw [hq, Heap.mem_set_self]⟩
  · exact ⟨[], by rw [Heap.mem_set_of_ne _ _ hq, Node.drain_nil]⟩

theorem Drains.trans (hd : Drains h h') (hd' : Drains h' h'') : Drains h h'' := by
  refine ⟨hd'.fresh.trans hd.fresh, ?_⟩
  intro q
  obtain ⟨is, his⟩ := hd.mem q
  obtain ⟨js, hjs⟩ := hd'.mem q
  exact ⟨is ++ js, by rw [hjs, his, Node.drain_drain]⟩

theorem Drains.refl (h : Heap V) : Drains h h := ⟨rfl, fun _ => ⟨[], (Node.drain_nil _).symm⟩⟩

/-- A slot that is drained stays so. -/
theorem Drains.slot (hd : Drains h h') {p : Ptr} {i : Nat} {s : Slot V} (hs : (h.mem p).slot i = s.drained) :
    (h'.mem p).slot i = s.drained := by
  obtain ⟨is, his⟩ := hd.mem p
  rw [his]
  change (if i ∈ is then ((h.mem p).slot i).drained else (h.mem p).slot i) = _
  rw [hs, Slot.drained_drained, ite_self]

theorem map_upTo {α β : Type} (f : α → β) (p : β → Bool) (l : List α) :
    (upTo (fun x => p (f x)) l).map f = upTo p (l.map f) := by
  induction l with
  | nil => rfl
  | cons x l ih =>
    rw [List.map_cons, upTo, upTo]
    split
    · rfl
    · rw [List.map_cons, ih]

/-- The scan of a list of border nodes. -/
theorem scanBorders_spec (b : Range) : ∀ {ps : List (Ptr × List (Slot V))} {h : Heap V} {fuel : Nat} {cur : Key}
    {prev : Option Ptr}, Seg h prev (ps.map Prod.fst) none → (∀ l ∈ ps, ∃ par, BorderAt (h.mem l.1) par l.2) →
    (ps.map Prod.fst).Nodup → ps.length ≤ fuel → cur.cursor = 0 →
    ∃ h', scanBorders b fuel h (ps.map Prod.fst).head? cur = some (b.picks (ps.flatMap Prod.snd), h') ∧ Drains h h' ∧
      (∀ s ∈ upTo b.stops (ps.flatMap Prod.snd), ∃ l ∈ ps, ∃ i ∈ (h.mem l.1).permutation,
        (h.mem l.1).slot i = s ∧ (h'.mem l.1).slot i = s.drained) ∧
      ((∀ s ∈ upTo b.stops (ps.flatMap Prod.snd), s.drained = s) → h' = h) := by
  intro ps
  induction ps with
  | nil =>
    intro h fuel cur prev _ _ _ _ _
    refine ⟨h, ?_, .refl h, nofun, fun _ => rfl⟩
    cases fuel with
    | zero => rfl
    | succ fuel => rfl
  | cons l ps ih =>
    intro h fuel cur prev hseg hat hnodup hfuel hcur
    obtain ⟨p, es⟩ := l
    obtain ⟨fuel, rfl⟩ : ∃ k, fuel = k + 1 := ⟨fuel - 1, by simp at hfuel; omega⟩
    rw [List.map_cons] at hseg hnodup
    obtain ⟨hp, hnodup⟩ := List.nodup_cons.mp hnodup
    obtain ⟨par, hn⟩ := hat (p, es) List.mem_cons_self
    obtain ⟨-, hnext, hseg⟩ := hseg
    obtain ⟨cur', hcur', hslots⟩ := scanSlots_spec b hn.slots.nodup hn.slots.live hcur
    have hes : (h.mem p).permutation.map (h.mem p).slot = es := hn.entries
    have hany : ((h.mem p).permutation.any fun i => b.stops ((h.mem p).slot i)) = es.any b.stops := by
      rw [← hes, List.any_map]
      rfl
    have hvisit : ∀ s ∈ upTo b.stops es, ∃ i ∈ upTo (fun i => b.stops ((h.mem p).slot i)) (h.mem p).permutation,
        (h.mem p).slot i = s := by
      intro s hs
      rw [← hes, ← map_upTo] at hs
      obtain ⟨i, hi, rfl⟩ := List.mem_map.mp hs
      exact ⟨i, hi, rfl⟩
    rw [hes, hany] at hslots
    set is := upTo (fun i => b.stops ((h.mem p).slot i)) (h.mem p).permutation with his
    set h₁ := h.set p ((h.mem p).drain is) with hh₁
    have hd₁ : Drains h h₁ := drains_set h p is
    have hfirst : ∀ {h' : Heap V}, Drains h₁ h' → ∀ s ∈ upTo b.stops es, ∃ l ∈ (p, es) :: ps,
        ∃ i ∈ (h.mem l.1).permutation, (h.mem l.1).slot i = s ∧ (h'.mem l.1).slot i = s.drained := by
      intro h' hd' s hs
      obtain ⟨i, hi, rfl⟩ := hvisit s hs
      refine ⟨(p, es), List.mem_cons_self, i, mem_upTo hi, rfl, hd'.slot ?_⟩
      rw [hh₁, Heap.mem_set_self]
      exact Node.drain_slot_mem hi
    have hsame₁ : (∀ s ∈ upTo b.stops es, s.drained = s) → h₁ = h := by
      intro hdr
      have hself : (h.mem p).drain is = h.mem p := by
        refine Node.drain_self ?_
        intro i hi
        refine hdr _ ?_
        rw [← hes, ← map_upTo]
        exact List.mem_map_of_mem hi
      rw [hh₁, hself, Heap.set, Function.update_eq_self]
    have hstep : scanBorders b (fuel + 1) h (p :: ps.map Prod.fst).head? cur =
        if es.any b.stops then some (b.picks es, h₁)
        else (scanBorders b fuel h₁ (ps.map Prod.fst).head? cur').map fun r => (b.picks es ++ r.1, r.2) := by
      rw [List.head?_cons, scanBorders, hslots]
      dsimp only
      have hnext' : ((h.mem p).drain is).next = (ps.map Prod.fst).head? := by
        rw [← Option.or_none (o := (ps.map Prod.fst).head?), ← hnext]
        rfl
      rw [hnext']
    rw [List.map_cons, hstep, List.flatMap_cons, picks_append, upTo_append]
    by_cases hend : es.any b.stops = true
    · simp only [if_pos hend, List.append_nil]
      exact ⟨h₁, rfl, hd₁, hfirst (.refl h₁), hsame₁⟩
    simp only [if_neg hend]
    have hother : ∀ l ∈ ps, h₁.mem l.1 = h.mem l.1 := by
      intro l hl
      rw [hh₁, Heap.mem_set_of_ne]
      rintro rfl
      exact hp (List.mem_map.mpr ⟨l, hl, rfl⟩)
    obtain ⟨h', hrest, hd', hdrained, hsame⟩ := ih
      (hseg.frame fun q hq => by
        obtain ⟨l, hl, rfl⟩ := List.mem_map.mp hq
        rw [hother l hl]
        exact ⟨rfl, rfl⟩)
      (fun l hl => by rw [hother l hl]; exact hat l (List.mem_cons_of_mem _ hl)) hnodup
      (by simp at hfuel; omega) hcur'
    refine ⟨h', by rw [hrest]; rfl, hd₁.trans hd', ?_, ?_⟩
    · intro s hs
      rcases List.mem_append.mp hs with hs | hs
      · exact hfirst hd' s hs
      · obtain ⟨l, hl, i, hi, hslot, hdr⟩ := hdrained s hs
        rw [hother l hl] at hi hslot
        exact ⟨l, List.mem_cons_of_mem _ hl, i, hi, hslot, hdr⟩
    · intro hdr
      rw [hsame fun s hs => hdr s (List.mem_append_right _ hs),
        hsame₁ fun s hs => hdr s (List.mem_append_left _ hs)]

end

/-- The slots of the border nodes from `border` on. -/
def listFrom (h : Heap V) : Nat → Option Ptr → List (Slot V)
  | fuel + 1, some border => (h.mem border).entries ++ listFrom h fuel (h.mem border).next
  | _, _ => []

/-- The slots of layer 0 from the border node of a key on. -/
def Masstree.listing (m : Masstree V) (key : Key) : List (Slot V) :=
  listFrom m.heap (m.heap.fresh + 1) (m.root.bind (findBorder m.heap · key))

/-- The slots that a scan comes to, up to the first one beyond the right key. -/
def Masstree.visited (m : Masstree V) (b : Range) : List (Slot V) := upTo b.stops (m.listing b.left_key)

section

variable {m : Masstree V} {sh : Shape V} {h : Heap V} {b : Range} {key : Key}

theorem listFrom_eq : ∀ {ps : List (Ptr × List (Slot V))} {fuel : Nat} {prev : Option Ptr},
    Seg h prev (ps.map Prod.fst) none → (∀ l ∈ ps, ∃ par, BorderAt (h.mem l.1) par l.2) → ps.length ≤ fuel →
    listFrom h fuel (ps.map Prod.fst).head? = ps.flatMap Prod.snd := by
  intro ps
  induction ps with
  | nil =>
    intro fuel prev _ _ _
    cases fuel with
    | zero => rfl
    | succ fuel => rfl
  | cons l ps ih =>
    intro fuel prev hseg hat hfuel
    obtain ⟨fuel, rfl⟩ : ∃ k, fuel = k + 1 := ⟨fuel - 1, by simp at hfuel; omega⟩
    obtain ⟨-, hnext, hseg⟩ := hseg
    obtain ⟨par, hn⟩ := hat l List.mem_cons_self
    rw [Option.or_none] at hnext
    rw [List.map_cons, List.head?_cons, listFrom, hn.entries, hnext, List.flatMap_cons,
      ih hseg (fun l' hl' => hat l' (List.mem_cons_of_mem _ hl')) (by simp at hfuel; omega)]

/-- The leaves of layer 0 from the border node of a key on, in memory. -/
structure LeavesFrom (m : Masstree V) (sh : Shape V) (key : Key) (ps : List (Ptr × List (Slot V))) : Prop where
  border : m.root.bind (findBorder m.heap · key) = (ps.map Prod.fst).head?
  empty : ps = [] → m.root = none
  seg : ∃ prev, Seg m.heap prev (ps.map Prod.fst) none
  at_ : ∀ l ∈ ps, ∃ par, BorderAt (m.heap.mem l.1) par l.2
  nodup : (ps.map Prod.fst).Nodup
  length : ps.length ≤ m.heap.fresh
  listed : ∀ l ∈ ps, ∀ s ∈ l.2, Listed sh [] l.1 s
  /-- every slot that is not below the slice of the key -/
  all : ∀ p s, Listed sh [] p s → key.getCurrentSlice.slice ≤ s.key_slice → s ∈ ps.flatMap Prod.snd
  sorted : (ps.flatMap Prod.snd).Pairwise fun s s' => s.key_slice ≤ s'.key_slice

theorem TreeOk.leavesFrom (h : TreeOk m sh) (hk : key.At []) : ∃ ps, LeavesFrom m sh key ps := by
  cases hsh : sh [] with
  | none =>
    have hroot : m.root = none := by
      rw [h.root, hsh]
      rfl
    refine ⟨[], ?_, fun _ => hroot, ⟨none, trivial⟩, nofun, List.nodup_nil, Nat.zero_le _, nofun, ?_, List.Pairwise.nil⟩
    · rw [hroot]
      rfl
    · rintro p s ⟨t, es, ht, -⟩
      rw [hsh] at ht
      cases ht
  | some t =>
    obtain ⟨fs, p, es, a, b, hp, hfind⟩ := h.ok.findBorder hsh hk
    obtain rfl := Option.some.inj (hsh.symm.trans hp.shape)
    have hlayer := hp.layerOk h.ok
    have hleaves : (plug fs (.leaf p es)).leaves = leftLeaves fs ++ (p, es) :: rightLeaves fs := by
      rw [leaves_plug, BTree.leaves_leaf, List.append_assoc]
      rfl
    have hmem : ∀ l ∈ (p, es) :: rightLeaves fs, l ∈ (plug fs (.leaf p es)).leaves := by
      intro l hl
      rw [hleaves]
      exact List.mem_append_right _ hl
    obtain ⟨hseg, hnodup, hptrs⟩ := hlayer.leafPtrs
    refine ⟨(p, es) :: rightLeaves fs, ?_, nofun, ⟨_, (seg_append.mp hseg).2⟩, ?_, (List.nodup_append.mp hnodup).2.1, ?_,
      ?_, ?_, ?_⟩
    · rw [h.root, hsh, Option.map_some, Option.bind_some, hfind]
      rfl
    · intro l hl
      exact hlayer.stored.leaf_at (hmem l hl)
    · have hle := (BTree.leaves_sublist_ptrs (plug fs (.leaf p es))).length_le
      have hlt := hlayer.length_ptrs
      rw [List.length_map, hleaves, List.length_append] at hle
      omega
    · intro l hl s hs
      exact ⟨_, l.2, hsh, hmem l hl, hs⟩
    · rintro q s ⟨t', es', ht', hl, hs⟩ hslice
      obtain rfl := Option.some.inj (hsh.symm.trans ht')
      rw [hleaves, List.mem_append] at hl
      rcases hl with hl | hl
      · have hlt := hp.ctx.outside.1 _ hl s hs
        have hlo := hp.lo
        omega
      · exact List.mem_flatMap.mpr ⟨_, hl, hs⟩
    · have hsorted := hlayer.wf.sorted
      rw [hleaves, List.flatMap_append] at hsorted
      exact (List.pairwise_append.mp hsorted).2.1

theorem LeavesFrom.listing {ps : List (Ptr × List (Slot V))} (hps : LeavesFrom m sh key ps) :
    m.listing key = ps.flatMap Prod.snd := by
  obtain ⟨prev, hseg⟩ := hps.seg
  rw [Masstree.listing, hps.border]
  exact listFrom_eq hseg hps.at_ (Nat.le_succ_of_le hps.length)

/-- The scan of a tree returns, picks from the slots of layer 0 and drains those that it visits. -/
theorem TreeOk.scan (h : TreeOk m sh) (hleft : b.left_key.At []) : ∃ status h',
    m.scan b = some (status, b.picks (m.listing b.left_key), ⟨h', m.root⟩) ∧ Drains m.heap h' ∧
      (∀ s ∈ m.visited b, ∃ p i, Listed sh [] p s ∧ i ∈ (m.heap.mem p).permutation ∧ (m.heap.mem p).slot i = s ∧
        (h'.mem p).slot i = s.drained) ∧
      ((∀ s ∈ m.visited b, s.drained = s) → h' = m.heap) := by
  obtain ⟨ps, hps⟩ := h.leavesFrom hleft
  obtain ⟨prev, hseg⟩ := hps.seg
  have hcur : b.left_key.cursor = 0 := hleft.length.symm
  obtain ⟨h', hscan, hdrains, hvisited, hsame⟩ :=
    scanBorders_spec b hseg hps.at_ hps.nodup (Nat.le_succ_of_le hps.length) hcur
  rw [Masstree.visited, hps.listing]
  have hborder := hps.border
  have hfacts : (∀ s ∈ upTo b.stops (ps.flatMap Prod.snd), ∃ p i, Listed sh [] p s ∧
      i ∈ (m.heap.mem p).permutation ∧ (m.heap.mem p).slot i = s ∧ (h'.mem p).slot i = s.drained) := by
    intro s hs
    obtain ⟨l, hl, i, hi, hslot, hdr⟩ := hvisited s hs
    obtain ⟨par, hn⟩ := hps.at_ l hl
    refine ⟨l.1, i, hps.listed l hl s ?_, hi, hslot, hdr⟩
    rw [← hslot, ← hn.entries]
    exact List.mem_map_of_mem hi
  unfold Masstree.scan
  cases hroot : m.root with
  | none =>
    rw [hroot] at hborder
    obtain rfl : ps = [] := by simpa using hborder.symm
    refine ⟨.ERROR_CONCURRENT_WRITE_OR_DELETE, m.heap, ?_, .refl _, nofun, fun _ => rfl⟩
    have hm : m = ⟨m.heap, none⟩ := by rw [← hroot]
    exact congrArg (fun m => some (Status.ERROR_CONCURRENT_WRITE_OR_DELETE, [], m)) hm
  | some root =>
    cases ps with
    | nil =>
      rw [hps.empty rfl] at hroot
      cases hroot
    | cons l ps =>
      rw [hroot, Option.bind_some, List.map_cons, List.head?_cons] at hborder
      rw [List.map_cons, List.head?_cons] at hscan
      refine ⟨.OK, h', ?_, hdrains, hfacts, hsame⟩
      dsimp only
      rw [hborder, Option.bind_eq_bind, Option.bind_some, hscan]
      rfl

end

end Cassa.Masstree

import Mathlib.Data.Set.List
import Cassa.Masstree.ScanSpec

/-!
# Which keys a scan returns

A scan tests the keys of layer 0 in the order of the border nodes and of their permutations.
Where `operator<` compares the bounds with these keys as strings, the scan is exact if and
only if no key of the range is in a lower layer, no link passes for a key of the range, and
no slot with the same slice and a greater length stands before a key of the range.
-/

namespace Cassa.Masstree

open Cassa.Lib.SearchTree
open Cassa.Lib.Runs

variable {V : Type} {m m' : Masstree V} {sh : Shape V} {b : Range} {s s' : Slot V} {l r k k' : List UInt8}
  {l_exclusive r_exclusive : Bool}

/-- The string is within the bounds. -/
def InRange (l : List UInt8) (l_exclusive : Bool) (r : List UInt8) (r_exclusive : Bool) (k : List UInt8) : Prop :=
  (l < k ∨ l_exclusive = false ∧ k = l) ∧ (k < r ∨ r_exclusive = false ∧ k = r)

/-- The scan returns the keys of the range with their values, each once and in ascending order. -/
def ScanExact (m : Masstree V) (l : List UInt8) (l_exclusive : Bool) (r : List UInt8) (r_exclusive : Bool) : Prop :=
  ∃ status m', ∃ found : List (List UInt8 × V),
    m.scan (range l l_exclusive r r_exclusive) =
      some (status, found.map fun e => (.ofString e.1, .value e.2), m') ∧
    (found.Pairwise fun e e' => e.1 < e'.1) ∧
    ∀ k v, (k, v) ∈ found ↔
      k ≠ [] ∧ m.get_value (.ofString k) = some (some v) ∧ InRange l l_exclusive r r_exclusive k

/-- The slot of a string in layer 0. -/
structure Slot.For (s : Slot V) (k : List UInt8) (v : V) : Prop where
  ne : k ≠ []
  lv : s.lv = .value v
  scanKey : s.scanKey = .ofString k
  key : s.key? = some ((Key.ofString k).id, v)
  slice : s.key_slice = Key.packSlice (k.take 8)
  len : s.key_len = min k.length 9

namespace Key

/-- Of two strings with the same first slice the one that fills less of a slot is the smaller one. -/
theorem lt_of_len {a b : List UInt8} (ha : a ≠ []) (hslice : packSlice (a.take 8) = packSlice (b.take 8))
    (hlen : min a.length 9 < min b.length 9) : a < b := by
  have hpad := pad_eq_of_packSlice_eq hslice
  have hda : a.drop 8 = [] := by
    rw [List.drop_eq_nil_iff]
    omega
  by_cases hdb : b.drop 8 = []
  · refine (lt_iff_short hda hdb hpad).mpr ?_
    omega
  · exact (lt_of_first_slice ha hda hdb hpad).1

theorem eq_of_ofString {a b : List UInt8} (ha : a ≠ []) (he : ofString a = ofString b) : a = b := by
  refine ofString_inj ha ?_ he
  rintro rfl
  have hslices := congrArg Key.slices he
  rw [slices_ofString ha, slices_ofString_nil] at hslices
  cases hslices

end Key

theorem Slot.Live.for_of_key? (hs : s.Live) (hk : k ≠ []) {v : V} (hkey : s.key? = some ((Key.ofString k).id, v)) :
    s.For k v := by
  have hslices := Key.slices_ofString hk
  obtain ⟨rest, hrest⟩ := Slot.key?_head hkey
  change (Key.ofString k).slices = _ at hrest
  obtain ⟨hslice, hrest'⟩ := List.cons.inj (hslices.symm.trans hrest)
  refine ⟨hk, Slot.lv_of_key? hkey, hs.scanKey_of_key? hkey, hkey, hslice.symm, ?_⟩
  have hnext := Key.hasNext_ofString hk
  cases hs with
  | @short len slice w hlen =>
    obtain ⟨hid, -⟩ := Prod.mk.inj (Option.some.inj hkey)
    obtain ⟨hone, hlast⟩ := Prod.mk.inj hid
    have hle : ¬ 8 < k.length := by
      rw [← hnext, Key.hasNext, ← hone]
      exact Bool.false_ne_true
    rw [Key.lastSliceSize_ofString k hk, Key.lastSize] at hlast
    have := List.length_pos_of_ne_nil hk
    dsimp only at hlast ⊢
    omega
  | @long slice suffix w hne hsize hslices' =>
    obtain ⟨hid, -⟩ := Prod.mk.inj (Option.some.inj hkey)
    obtain ⟨hone, hlast⟩ := Prod.mk.inj hid
    have hlt : 8 < k.length := by
      rw [← hnext, Key.hasNext, ← hone, List.length_cons, bne_iff_ne]
      have := List.length_pos_of_ne_nil hne
      change _ ≠ 1
      omega
    change 9 = _
    omega
  | layer q => cases hkey

theorem Slot.For.id {v : V} (hs : s.For k v) : s.id = (Key.packSlice (k.take 8), min k.length 9) := by
  rw [Slot.id, hs.slice, hs.len]
  congr 1
  omega

/-- Two slots in order are those of two strings in order. -/
theorem Slot.For.lt {v v' : V} (hs : s.For k v) (hs' : s'.For k' v') (hle : s.key_slice ≤ s'.key_slice)
    (hlen : s.key_slice = s'.key_slice → s.key_len < s'.key_len) : k < k' := by
  rw [hs.slice, hs'.slice] at hle hlen
  rcases Nat.lt_or_eq_of_le hle with hlt | heq
  · exact (Key.lt_iff_of_ne (Nat.ne_of_lt hlt)).mp hlt
  · have := hlen heq
    rw [hs.len, hs'.len] at this
    exact Key.lt_of_len hs.ne heq this

theorem Slot.scanKey_slices (s : Slot V) : ∃ rest, s.scanKey.slices = s.key_slice :: rest := by
  unfold Slot.scanKey
  split
  · exact ⟨_, rfl⟩
  · exact ⟨_, rfl⟩

/-- What the scan reads of layer 0. -/
structure ListingOk (m : Masstree V) (sh : Shape V) (l : List UInt8) : Prop where
  listed : ∀ s ∈ m.listing (.ofString l), ∃ p, Listed sh [] p s
  all : ∀ p s, Listed sh [] p s → Key.packSlice (l.take 8) ≤ s.key_slice → s ∈ m.listing (.ofString l)
  sorted : (m.listing (.ofString l)).Pairwise fun s s' => s.key_slice ≤ s'.key_slice
  ids : (m.listing (.ofString l)).Pairwise fun s s' => s.id ≠ s'.id

theorem TreeOk.listingOk (h : TreeOk m sh) (hl : l ≠ []) : ListingOk m sh l := by
  obtain ⟨ps, hps⟩ := h.leavesFrom (Key.at_ofString hl)
  have hlisting := hps.listing
  have hslice : (Key.ofString l).getCurrentSlice.slice = Key.packSlice (l.take 8) := by
    rw [Key.getCurrentSlice, Key.slices_ofString hl]
    rfl
  refine ⟨?_, ?_, ?_, ?_⟩
  · intro s hs
    rw [hlisting] at hs
    obtain ⟨leaf, hleaf, hs⟩ := List.mem_flatMap.mp hs
    exact ⟨leaf.1, hps.listed leaf hleaf s hs⟩
  · intro p s hs hle
    rw [hlisting]
    exact hps.all p s hs (by rw [hslice]; exact hle)
  · rw [hlisting]
    exact hps.sorted
  · rw [hlisting, List.pairwise_flatMap]
    constructor
    · intro leaf hleaf
      obtain ⟨par, hn⟩ := hps.at_ leaf hleaf
      have hids := hn.slots.ids
      rw [← hn.entries, Node.entries, List.pairwise_map]
      exact List.pairwise_map.mp hids
    · refine (List.pairwise_map.mp hps.nodup).imp_of_mem ?_
      intro leaf leaf' hleaf hleaf' hne s hs s' hs' hid
      exact hne (h.ok.unique (hps.listed leaf hleaf s hs) (hps.listed leaf' hleaf' s' hs') hid).1

namespace Range

/-- The slot is returned if the scan comes to it. -/
def passes (b : Range) (s : Slot V) : Bool := !b.before s.scanKey && !b.beyond s.scanKey

end Range

/-- Where no slot that passes stands behind one at which the scan ends, the scan returns all of them. -/
theorem picks_eq_filter : ∀ {L : List (Slot V)}, (L.Pairwise fun s' s => b.stops s' = true → b.passes s = false) →
    b.picks L = (L.filter b.passes).map fun s => (s.scanKey, s.lv) := by
  intro L
  induction L with
  | nil => exact fun _ => rfl
  | cons s L ih =>
    intro hL
    obtain ⟨hs, hL⟩ := List.pairwise_cons.mp hL
    rw [Range.picks, List.filter_cons, ih hL]
    by_cases hbefore : b.before s.scanKey = true
    · simp [hbefore, Range.passes]
    by_cases hbeyond : b.beyond s.scanKey = true
    · have hnone : L.filter b.passes = [] := by
        rw [List.filter_eq_nil_iff]
        intro s' hs'
        rw [hs s' hs' (by simp [Range.stops, hbefore, hbeyond])]
        exact Bool.false_ne_true
      simp [hbefore, hbeyond, Range.passes, hnone]
    · simp [hbefore, hbeyond, Range.passes]

/-- Behind a slot at which the scan ends there are greater slices only, or the same one. -/
theorem beyond_of_slice_lt {y : Nat} {ys : List Nat} (hright : b.right_key.slices = y :: ys)
    (hbeyond : b.beyond s.scanKey = true) (hlt : s.key_slice < s'.key_slice) : b.beyond s'.scanKey = true := by
  obtain ⟨rest, hs⟩ := s.scanKey_slices
  obtain ⟨rest', hs'⟩ := s'.scanKey_slices
  have hle : y ≤ s.key_slice := by
    rw [Range.beyond, Bool.or_eq_true, Bool.and_eq_true, beq_iff_eq] at hbeyond
    rcases hbeyond with h | ⟨-, h⟩
    · by_contra hne
      rw [Key.lt_of_slices_ne hright hs (by omega), decide_eq_true_eq] at h
      omega
    · rw [h, hright] at hs
      exact Nat.le_of_eq (List.cons.inj hs).1
  rw [Range.beyond, Key.lt_of_slices_ne hright hs' (by omega), decide_eq_true (by omega), Bool.true_or]

/-- A shorter key with the same single slice is before the bound as well. -/
theorem before_of_le {x y z z' : Nat} {ys : List Nat} (hleft : b.left_key.slices = y :: ys) (hz : z ≤ z')
    (hbefore : b.before ⟨[x], z', 0⟩ = true) : b.before ⟨[x], z, 0⟩ = true := by
  rw [Range.before, Bool.or_eq_true, Bool.and_eq_true, beq_iff_eq] at hbefore ⊢
  by_cases hxy : x = y
  · subst hxy
    rw [Key.lt_of_slices_end rfl hleft (Or.inl rfl)] at hbefore ⊢
    rcases Nat.lt_or_eq_of_le hz with hlt | rfl
    · refine Or.inl (Or.inl ?_)
      rcases hbefore with (h | ⟨h, -⟩) | ⟨-, h⟩
      · exact Nat.lt_trans hlt h
      · exact Nat.lt_of_lt_of_eq hlt h
      · rw [← h]
        exact hlt
    · exact hbefore
  · rw [Key.lt_of_slices_ne rfl hleft hxy] at hbefore ⊢
    refine Or.inl (hbefore.resolve_right ?_)
    rintro ⟨-, h⟩
    rw [← h] at hleft
    exact hxy (List.cons.inj hleft).1

theorem beyond_of_le {x y z z' : Nat} {ys : List Nat} (hright : b.right_key.slices = y :: ys) (hz : z ≤ z')
    (hbeyond : b.beyond ⟨[x], z, 0⟩ = true) : b.beyond ⟨[x], z', 0⟩ = true := by
  rw [Range.beyond, Bool.or_eq_true, Bool.and_eq_true, beq_iff_eq] at hbeyond ⊢
  by_cases hxy : y = x
  · subst hxy
    rw [Key.lt_of_slices_end hright rfl (Or.inr rfl)] at hbeyond ⊢
    rcases Nat.lt_or_eq_of_le hz with hlt | rfl
    · refine Or.inl (Or.inl ?_)
      rcases hbeyond with (h | ⟨h, -⟩) | ⟨-, h⟩
      · exact Nat.lt_trans h hlt
      · rw [h]
        exact hlt
      · rw [← h]
        exact hlt
    · exact hbeyond
  · rw [Key.lt_of_slices_ne hright rfl hxy] at hbeyond ⊢
    refine Or.inl (hbeyond.resolve_right ?_)
    rintro ⟨-, h⟩
    rw [← h] at hright
    exact hxy (List.cons.inj hright).1.symm

theorem mem_picks {L : List (Slot V)} {x : Key × LinkOrValue V} (hx : x ∈ b.picks L) :
    ∃ s ∈ L, b.passes s = true ∧ x = (s.scanKey, s.lv) := by
  induction L with
  | nil => cases hx
  | cons s L ih =>
    rw [Range.picks] at hx
    split at hx
    · obtain ⟨s', hs', h⟩ := ih hx
      exact ⟨s', List.mem_cons_of_mem _ hs', h⟩
    · split at hx
      · cases hx
      · rcases List.mem_cons.mp hx with rfl | hx
        · exact ⟨s, List.mem_cons_self, by simp_all [Range.passes], rfl⟩
        · obtain ⟨s', hs', h⟩ := ih hx
          exact ⟨s', List.mem_cons_of_mem _ hs', h⟩

section

variable {v v' : V}

theorem Key.ofString_beq (hk : k ≠ []) (hl : l ≠ []) : (Key.ofString k == Key.ofString l) = true ↔ k = l := by
  rw [beq_iff_eq]
  exact ⟨Key.ofString_inj hk hl, fun h => congrArg _ h⟩

/-- The two strings are compared rightly, so that the test of the lower bound is. -/
theorem Slot.For.before_iff (hs : s.For k v) (hl : l ≠ []) (hord : Key.Ordered k l) :
    (range l l_exclusive r r_exclusive).before s.scanKey = false ↔ l < k ∨ l_exclusive = false ∧ k = l := by
  have hlt := hord.lt_iff hs.ne hl
  have heq := Key.ofString_beq hs.ne hl
  rw [Range.before, hs.scanKey, range, Bool.or_eq_false_iff, Bool.and_eq_false_iff, ← Bool.not_eq_true, hlt,
    ← Bool.not_eq_true (_ == _), heq]
  constructor
  · rintro ⟨hge, h⟩
    by_cases hkl : k = l
    · exact Or.inr ⟨h.resolve_right fun hne => hne hkl, hkl⟩
    · refine Or.inl ?_
      by_contra hle
      exact hkl (List.le_antisymm hle hge)
  · rintro (hgt | ⟨hf, rfl⟩)
    · exact ⟨List.lt_asymm hgt, Or.inr (by rintro rfl; exact List.lt_irrefl _ hgt)⟩
    · exact ⟨List.lt_irrefl _, Or.inl hf⟩

theorem Slot.For.beyond_iff (hs : s.For k v) (hr : r ≠ []) (hord : Key.Ordered k r) :
    (range l l_exclusive r r_exclusive).beyond s.scanKey = false ↔ k < r ∨ r_exclusive = false ∧ k = r := by
  have hlt := Key.Ordered.lt_iff hr hs.ne hord.symm
  have heq := Key.ofString_beq hs.ne hr
  rw [Range.beyond, hs.scanKey, range, Bool.or_eq_false_iff, Bool.and_eq_false_iff, ← Bool.not_eq_true, hlt,
    ← Bool.not_eq_true (_ == _), heq]
  constructor
  · rintro ⟨hge, h⟩
    by_cases hkr : k = r
    · exact Or.inr ⟨h.resolve_right fun hne => hne hkr, hkr⟩
    · refine Or.inl ?_
      by_contra hle
      exact hkr (List.le_antisymm hge hle)
  · rintro (hgt | ⟨hf, rfl⟩)
    · exact ⟨List.lt_asymm hgt, Or.inr (by rintro rfl; exact List.lt_irrefl _ hgt)⟩
    · exact ⟨List.lt_irrefl _, Or.inl hf⟩

theorem Slot.For.not_lt (hs : s.For k v) (hl : l ≠ []) (hord : Key.Ordered k l)
    (hbefore : (range l l_exclusive r r_exclusive).before s.scanKey = false) : ¬ k < l := by
  rcases (hs.before_iff hl hord).mp hbefore with hlt | ⟨-, rfl⟩
  · exact List.lt_asymm hlt
  · exact List.lt_irrefl _

theorem Slot.For.passes_iff (hs : s.For k v) (hl : l ≠ []) (hr : r ≠ [])
    (hord : Key.Ordered k l ∧ (¬ k < l → Key.Ordered k r)) :
    (range l l_exclusive r r_exclusive).passes s = true ↔ InRange l l_exclusive r r_exclusive k := by
  rw [Range.passes, Bool.and_eq_true, Bool.not_eq_true', Bool.not_eq_true', InRange,
    ← hs.before_iff (r := r) hl hord.1]
  exact and_congr_right fun hbefore => hs.beyond_iff hr (hord.2 (hs.not_lt hl hord.1 hbefore))

/-- A link with its slice as a key of eight bytes. -/
theorem Slot.Live.link (hs : s.Live) (hlen : s.key_len = key_len_layer) :
    s.scanKey = ⟨[s.key_slice], 8, 0⟩ ∧ s.id = (s.key_slice, 9) ∧ ∃ q, s.lv = .link q := by
  cases hs with
  | @short len slice w hshort =>
    change len = 255 at hlen
    omega
  | long w hne hsize hslices => cases hlen
  | layer q => exact ⟨rfl, rfl, q, rfl⟩

theorem Slot.Live.short_key (hs : s.Live) (hlen : s.key_len ≤ 8) : s.scanKey = ⟨[s.key_slice], s.key_len, 0⟩ := by
  cases hs with
  | @short len slice w hshort =>
    have hne : ¬ len = key_len_layer := by
      unfold key_len_layer
      omega
    simp [scanKey, hne]
  | long w hne hsize hslices =>
    change 9 ≤ 8 at hlen
    omega
  | layer q =>
    change 255 ≤ 8 at hlen
    omega

theorem Slot.For.key_len_le (hs : s.For k v) : s.key_len ≤ 9 := by
  rw [hs.len]
  exact Nat.min_le_right _ _

/-- The slot of a string, or a link. -/
theorem TreeOk.slot_for (h : TreeOk m sh) (hnamed : Named sh) {p : Ptr} (hs : Listed sh [] p s)
    (hlen : s.key_len ≠ key_len_layer) : ∃ k v, s.For k v ∧ m.get_value (.ofString k) = some (some v) := by
  have hlive := h.ok.live hs
  have hlink : s.layer? = none := by
    cases hlive with
    | short w hshort => rfl
    | long w hne hsize hslices => rfl
    | layer q => exact absurd rfl hlen
  obtain ⟨k, v, hk, -, -, hkey, hget⟩ := h.scanKey_named hnamed hs hlink
  exact ⟨k, v, hlive.for_of_key? hk hkey, hget⟩

/-- A key that is found is in a slot of layer 0, or below a link. -/
theorem TreeOk.found_cases (h : TreeOk m sh) (hk : k ≠ []) (hget : m.get_value (.ofString k) = some (some v)) :
    (m.linked (.ofString k) = false ∧ ∃ p s, Listed sh [] p s ∧ s.For k v) ∨
      m.linked (.ofString k) = true ∧ 8 < k.length ∧
        ∃ p s, Listed sh [] p s ∧ s.key_slice = Key.packSlice (k.take 8) ∧ s.key_len = key_len_layer := by
  have hat := Key.at_ofString hk
  have hv := (h.get_some hk).mp hget
  obtain ⟨t, ht⟩ : ∃ t, sh [] = some t := by
    cases hsh : sh [] with
    | none => exact absurd hv (h.ok.not_holds hsh)
    | some t => exact ⟨t, rfl⟩
  have hroot : m.root = some t.root := by
    rw [h.root, ht]
    rfl
  obtain ⟨fs, p, es, a, b, hp, hfind⟩ := h.ok.findBorder ht hat
  have hlinked : m.linked (.ofString k) = (((m.heap.mem p).searchLinkOrValueWithIndex (.ofString k)).1 == .LAYER) := by
    rw [Masstree.linked, hroot, Option.any_some, hfind, Option.any_some]
  have hsearch := hp.search h.ok hat
  rw [hlinked]
  generalize (m.heap.mem p).searchLinkOrValueWithIndex (.ofString k) = res at hsearch
  cases hsearch with
  | @value i w hi hkey honly =>
    obtain rfl := (honly v).mp hv
    have hs := hp.listed (hp.slot_mem h.ok hi)
    exact Or.inl ⟨rfl, p, _, hs, (h.ok.live hs).for_of_key? hk hkey⟩
  | @layer i t' hi hlink hslice hn hsh =>
    have hs := hp.listed (hp.slot_mem h.ok hi)
    refine Or.inr ⟨rfl, (Key.hasNext_ofString hk).mp hn, p, _, hs, ?_, ?_⟩
    · rw [hslice, Key.getCurrentSlice, Key.slices_ofString hk]
      rfl
    · have hlive := h.ok.live hs
      generalize (m.heap.mem p).slot i = s at hlink hlive
      cases hlive with
      | short w hshort => cases hlink
      | long w hne hsize hslices => cases hlink
      | layer q => rfl
  | notFound hnot hkey hlayer => exact absurd hv (hnot v)

end

/-- The range can be scanned: its keys are in layer 0, no link passes for one of them, and the slots
of a slice are listed by their lengths as far as they hold keys of the range. -/
structure Scannable (m : Masstree V) (l : List UInt8) (l_exclusive : Bool) (r : List UInt8) (r_exclusive : Bool) :
    Prop where
  upper : ∀ k v, k ≠ [] → m.get_value (.ofString k) = some (some v) → InRange l l_exclusive r r_exclusive k →
    m.linked (.ofString k) = false
  links : ∀ s ∈ m.listing (.ofString l), s.key_len = key_len_layer → (range l l_exclusive r r_exclusive).passes s = false
  lengths : (m.listing (.ofString l)).Pairwise fun s s' => ∀ k v, k ≠ [] → s'.key? = some ((Key.ofString k).id, v) →
    InRange l l_exclusive r r_exclusive k → s.key_slice = s'.key_slice → s.key_len ≤ s'.key_len

/-- `operator<` compares the keys of layer 0 with the lower bound as strings, and those that are not
before it with the upper one. -/
def ComparesStrings (m : Masstree V) (l r : List UInt8) : Prop :=
  ∀ k v, k ≠ [] → m.get_value (.ofString k) = some (some v) → m.linked (.ofString k) = false →
    Key.Ordered k l ∧ (¬ k < l → Key.Ordered k r)

section

variable (h : TreeOk m sh) (hnamed : Named sh) (hl : l ≠ []) (hr : r ≠ []) (hcompares : ComparesStrings m l r)

include h in
theorem TreeOk.linked_of_for {p : Ptr} {v : V} (hs : Listed sh [] p s) (hfor : s.For k v)
    (hget : m.get_value (.ofString k) = some (some v)) : m.linked (.ofString k) = false := by
  rcases h.found_cases hfor.ne hget with ⟨hlinked, -⟩ | ⟨-, hlong, p', s', hs', hslice, hlen⟩
  · exact hlinked
  · exfalso
    have hid : s.id = s'.id := by
      rw [hfor.id, ((h.ok.live hs').link hlen).2.1, hslice]
      congr 1
      omega
    obtain ⟨-, rfl⟩ := h.ok.unique hs hs' hid
    have := hfor.key_len_le
    rw [hlen, key_len_layer] at this
    omega

include h hnamed hcompares in
/-- Every slot that is tested is a link, or the slot of a string that is compared rightly. -/
theorem TreeOk.tested (hs : ∃ p, Listed sh [] p s) : s.key_len = key_len_layer ∨
    ∃ k v, s.For k v ∧ m.get_value (.ofString k) = some (some v) ∧ Key.Ordered k l ∧
      (¬ k < l → Key.Ordered k r) := by
  obtain ⟨p, hs⟩ := hs
  by_cases hlen : s.key_len = key_len_layer
  · exact Or.inl hlen
  · obtain ⟨k, v, hfor, hget⟩ := h.slot_for hnamed hs hlen
    exact Or.inr ⟨k, v, hfor, hget, hcompares k v hfor.ne hget (h.linked_of_for hs hfor hget)⟩

/-- A string of the range is behind the first slice of the lower bound. -/
theorem InRange.slice_le (hin : InRange l l_exclusive r r_exclusive k) :
    Key.packSlice (l.take 8) ≤ Key.packSlice (k.take 8) := by
  by_contra hlt
  have hkl := (Key.lt_iff_of_ne (a := k) (b := l) (by omega)).mp (by omega)
  rcases hin.1 with h | ⟨-, rfl⟩
  · exact List.lt_asymm h hkl
  · exact List.lt_irrefl _ hkl

/-- Slots of a slice with different kinds and the lengths in order. -/
theorem key_len_lt (hle : s.key_len ≤ s'.key_len) (hslice : s.key_slice = s'.key_slice) (hid : s.id ≠ s'.id) :
    s.key_len < s'.key_len := by
  refine Nat.lt_of_le_of_ne hle ?_
  intro he
  exact hid (by rw [Slot.id, Slot.id, hslice, he])

/-- Slots that pass, in the order of the list. -/
theorem Scannable.lt {v v' : V} (hin : InRange l l_exclusive r r_exclusive k') (hs : s.For k v) (hs' : s'.For k' v')
    (hle : s.key_slice ≤ s'.key_slice) (hid : s.id ≠ s'.id) (hlengths : ∀ k v, k ≠ [] →
      s'.key? = some ((Key.ofString k).id, v) → InRange l l_exclusive r r_exclusive k → s.key_slice = s'.key_slice →
      s.key_len ≤ s'.key_len) : k < k' := by
  refine hs.lt hs' hle ?_
  intro hslice
  exact key_len_lt (hlengths k' v' hs'.ne hs'.key hin hslice) hslice hid

include h hnamed hl hr hcompares in
/-- The scan returns every slot that passes. -/
theorem Scannable.picks (hscan : Scannable m l l_exclusive r r_exclusive) :
    (range l l_exclusive r r_exclusive).picks (m.listing (.ofString l)) =
      ((m.listing (.ofString l)).filter (range l l_exclusive r r_exclusive).passes).map fun s => (s.scanKey, s.lv) := by
  have hlisting := h.listingOk hl
  refine picks_eq_filter ?_
  refine ((hlisting.sorted.and hlisting.ids).and hscan.lengths).imp_of_mem ?_
  rintro s s' hs hs' ⟨⟨hle, hid⟩, hlengths⟩ hstops
  by_contra hpasses
  rw [Bool.not_eq_false] at hpasses
  obtain ⟨hnotBefore, hbeyond⟩ : (range l l_exclusive r r_exclusive).before s.scanKey = false ∧
      (range l l_exclusive r r_exclusive).beyond s.scanKey = true := by
    rwa [Range.stops, Bool.and_eq_true, Bool.not_eq_true'] at hstops
  rcases h.tested hnamed hcompares (hlisting.listed s' hs') with hlink | ⟨k', v', hfor', -, hord'⟩
  · rw [hscan.links s' hs' hlink] at hpasses
    cases hpasses
  have hin := (hfor'.passes_iff hl hr hord').mp hpasses
  rcases Nat.lt_or_eq_of_le hle with hlt | heq
  · rw [Range.passes, beyond_of_slice_lt (Key.slices_ofString hr) hbeyond hlt] at hpasses
    simp at hpasses
  rcases h.tested hnamed hcompares (hlisting.listed s hs) with hlink | ⟨k, v, hfor, -, hord⟩
  · have hlen := hlengths k' v' hfor'.ne hfor'.key hin heq
    have hlen' := hfor'.key_len_le
    rw [hlink, key_len_layer] at hlen
    omega
  have hlt := Scannable.lt hin hfor hfor' hle hid hlengths
  have hbefore : (range l l_exclusive r r_exclusive).beyond s.scanKey = false := by
    refine (hfor.beyond_iff hr (hord.2 (hfor.not_lt hl hord.1 hnotBefore))).mpr (Or.inl ?_)
    rcases hin.2 with hkr | ⟨-, rfl⟩
    · exact List.lt_trans hlt hkr
    · exact hlt
  rw [hbeyond] at hbefore
  cases hbefore

include h hnamed hl hr hcompares in
theorem Scannable.exact (hscan : Scannable m l l_exclusive r r_exclusive) :
    ScanExact m l l_exclusive r r_exclusive := by
  have hlisting := h.listingOk hl
  obtain ⟨status, h', hres, -⟩ := h.scan (b := range l l_exclusive r r_exclusive) (Key.at_ofString hl)
  have hpicks := hscan.picks h hnamed hl hr hcompares
  change m.scan _ = some (_, (range l l_exclusive r r_exclusive).picks (m.listing (.ofString l)), _) at hres
  rw [hpicks] at hres
  set L := (m.listing (.ofString l)).filter (range l l_exclusive r r_exclusive).passes with hL
  have hstring : ∀ s ∈ L, ∃ k v, s.For k v ∧ m.get_value (.ofString k) = some (some v) ∧
      InRange l l_exclusive r r_exclusive k := by
    intro s hs
    obtain ⟨hs, hpasses⟩ := List.mem_filter.mp hs
    rcases h.tested hnamed hcompares (hlisting.listed s hs) with hlink | ⟨k, v, hfor, hget, hord⟩
    · rw [hscan.links s hs hlink] at hpasses
      cases hpasses
    · exact ⟨k, v, hfor, hget, (hfor.passes_iff hl hr hord).mp hpasses⟩
  obtain ⟨found, hfound⟩ : L.map (fun s => (s.scanKey, s.lv)) ∈
      Set.range (List.map fun e : List UInt8 × V => (Key.ofString e.1, LinkOrValue.value e.2)) := by
    rw [Set.range_list_map]
    intro x hx
    obtain ⟨s, hs, rfl⟩ := List.mem_map.mp hx
    obtain ⟨k, v, hfor, -⟩ := hstring s hs
    exact ⟨(k, v), by rw [hfor.scanKey, hfor.lv]⟩
  have hslot : ∀ e ∈ found, ∃ s ∈ L, s.For e.1 e.2 ∧ m.get_value (.ofString e.1) = some (some e.2) ∧
      InRange l l_exclusive r r_exclusive e.1 := by
    intro e he
    have hmem := List.mem_map_of_mem (f := fun e : List UInt8 × V => (Key.ofString e.1, LinkOrValue.value e.2)) he
    rw [hfound] at hmem
    obtain ⟨s, hs, heq⟩ := List.mem_map.mp hmem
    obtain ⟨k, v, hfor, hget, hin⟩ := hstring s hs
    rw [hfor.scanKey, hfor.lv, Prod.mk.injEq, LinkOrValue.value.injEq] at heq
    obtain ⟨hkey, rfl⟩ := heq
    obtain rfl := Key.eq_of_ofString hfor.ne hkey
    exact ⟨s, hs, hfor, hget, hin⟩
  refine ⟨status, _, found, by rw [hfound]; exact hres, ?_, ?_⟩
  · have hpairs : (L.map fun s => (s.scanKey, s.lv)).Pairwise fun x y => ∀ j k : List UInt8, j ≠ [] → k ≠ [] →
        x.1 = .ofString j → y.1 = .ofString k → j < k := by
      rw [List.pairwise_map]
      refine (((hlisting.sorted.and hlisting.ids).and hscan.lengths).filter _).imp_of_mem ?_
      rintro s s' hs hs' ⟨⟨hle, hid⟩, hlengths⟩ j j' hj hj' heq heq'
      obtain ⟨k, v, hfor, -, -⟩ := hstring s hs
      obtain ⟨k', v', hfor', -, hin⟩ := hstring s' hs'
      obtain rfl := Key.eq_of_ofString hj (heq.symm.trans hfor.scanKey)
      obtain rfl := Key.eq_of_ofString hj' (heq'.symm.trans hfor'.scanKey)
      exact Scannable.lt hin hfor hfor' hle hid hlengths
    rw [← hfound, List.pairwise_map] at hpairs
    refine hpairs.imp_of_mem ?_
    intro e e' he he' hlt
    obtain ⟨s, -, hfor, -⟩ := hslot e he
    obtain ⟨s', -, hfor', -⟩ := hslot e' he'
    exact hlt e.1 e'.1 hfor.ne hfor'.ne rfl rfl
  · intro k v
    constructor
    · intro he
      obtain ⟨s, -, hfor, hget, hin⟩ := hslot (k, v) he
      exact ⟨hfor.ne, hget, hin⟩
    · rintro ⟨hk, hget, hin⟩
      have hlinked := hscan.upper k v hk hget hin
      rcases h.found_cases hk hget with ⟨-, p, s, hs, hfor⟩ | ⟨hlink, -⟩
      · have hmem : (Key.ofString k, LinkOrValue.value v) ∈ L.map fun s => (s.scanKey, s.lv) := by
          refine List.mem_map.mpr ⟨s, List.mem_filter.mpr ⟨?_, ?_⟩, by rw [hfor.scanKey, hfor.lv]⟩
          · exact hlisting.all p s hs (by rw [hfor.slice]; exact hin.slice_le)
          · exact (hfor.passes_iff hl hr (hcompares k v hk hget hlinked)).mpr hin
        rw [← hfound] at hmem
        obtain ⟨e, he, heq⟩ := List.mem_map.mp hmem
        rw [Prod.mk.injEq, LinkOrValue.value.injEq] at heq
        obtain rfl := Key.eq_of_ofString hk heq.1.symm
        exact heq.2 ▸ he
      · rw [hlinked] at hlink
        cases hlink

include h hl in
/-- What an exact scan returns. -/
theorem ScanExact.picks (hexact : ScanExact m l l_exclusive r r_exclusive) : ∃ found : List (List UInt8 × V),
    (range l l_exclusive r r_exclusive).picks (m.listing (.ofString l)) =
      found.map (fun e => (.ofString e.1, .value e.2)) ∧ (found.Pairwise fun e e' => e.1 < e'.1) ∧
    ∀ k v, (k, v) ∈ found ↔
      k ≠ [] ∧ m.get_value (.ofString k) = some (some v) ∧ InRange l l_exclusive r r_exclusive k := by
  obtain ⟨status, m', found, hres, hsorted, hmem⟩ := hexact
  obtain ⟨status', h', hscan, -⟩ := h.scan (b := range l l_exclusive r r_exclusive) (Key.at_ofString hl)
  rw [hscan, Option.some.injEq, Prod.mk.injEq, Prod.mk.injEq] at hres
  exact ⟨found, hres.2.1, hsorted, hmem⟩

include h hl hr in
/-- No link passes if the scan is exact. -/
theorem ScanExact.links (hexact : ScanExact m l l_exclusive r r_exclusive) : ∀ s ∈ m.listing (.ofString l),
    s.key_len = key_len_layer → (range l l_exclusive r r_exclusive).passes s = false := by
  intro s hs hlink
  by_contra hpasses
  rw [Bool.not_eq_false] at hpasses
  have hlisting := h.listingOk hl
  obtain ⟨found, hpicks, -, -⟩ := hexact.picks h hl
  obtain ⟨p, hlisted⟩ := hlisting.listed s hs
  obtain ⟨hkey, hid, q, hlv⟩ := (h.ok.live hlisted).link hlink
  have hright : (range l l_exclusive r r_exclusive).right_key.slices = _ := Key.slices_ofString hr
  have htests : (range l l_exclusive r r_exclusive).before s.scanKey = false ∧
      (range l l_exclusive r r_exclusive).beyond s.scanKey = false := by
    simpa [Range.passes] using hpasses
  obtain ⟨L₁, L₂, hL⟩ := List.append_of_mem hs
  have hgo : (L₁.any (range l l_exclusive r r_exclusive).stops) = false := by
    rw [List.any_eq_false]
    intro s' hs' hstops
    have hbeyond : (range l l_exclusive r r_exclusive).beyond s'.scanKey = true := by
      rw [Range.stops, Bool.and_eq_true] at hstops
      exact hstops.2
    have hsorted := hlisting.sorted
    have hids := hlisting.ids
    rw [hL, List.pairwise_append] at hsorted hids
    have hle := hsorted.2.2 s' hs' s List.mem_cons_self
    have hne := hids.2.2 s' hs' s List.mem_cons_self
    rcases Nat.lt_or_eq_of_le hle with hlt | heq
    · rw [beyond_of_slice_lt hright hbeyond hlt] at htests
      cases htests.2
    · obtain ⟨p', hlisted'⟩ := hlisting.listed s' (by rw [hL]; exact List.mem_append_left _ hs')
      have hlive' := h.ok.live hlisted'
      have hlen' : s'.key_len ≤ 8 := by
        by_contra hlong
        refine hne ?_
        rw [hid, Slot.id, heq]
        congr 1
        omega
      rw [hlive'.short_key hlen', heq] at hbeyond
      rw [hkey, beyond_of_le hright hlen' hbeyond] at htests
      cases htests.2
  have hmem : (s.scanKey, s.lv) ∈ (range l l_exclusive r r_exclusive).picks (m.listing (.ofString l)) := by
    rw [hL, picks_append, hgo, Range.picks, htests.1, htests.2]
    simp
  rw [hpicks, hlv] at hmem
  obtain ⟨e, -, he⟩ := List.mem_map.mp hmem
  cases (Prod.mk.inj he).2

include h hnamed hl in
/-- A pair that the scan returns is that of a slot of layer 0. -/
theorem TreeOk.slot_of_pick {v : V} {L : List (Slot V)} (hsub : L ⊆ m.listing (.ofString l)) (hk : k ≠ [])
    (hmem : (Key.ofString k, LinkOrValue.value v) ∈ b.picks L) : ∃ s ∈ L, s.For k v := by
  obtain ⟨s, hs, -, heq⟩ := mem_picks hmem
  obtain ⟨hkey, hlv⟩ := Prod.mk.inj heq
  obtain ⟨p, hlisted⟩ := (h.listingOk hl).listed s (hsub hs)
  have hlen : s.key_len ≠ key_len_layer := by
    intro hlink
    obtain ⟨-, -, q, hq⟩ := (h.ok.live hlisted).link hlink
    rw [hq] at hlv
    cases hlv
  obtain ⟨k', v', hfor, -⟩ := h.slot_for hnamed hlisted hlen
  obtain rfl := Key.eq_of_ofString hk (hkey.trans hfor.scanKey)
  rw [hfor.lv, LinkOrValue.value.injEq] at hlv
  exact ⟨s, hs, hlv ▸ hfor⟩

include h hnamed hl in
/-- The keys of the range are in layer 0 if the scan is exact. -/
theorem ScanExact.upper (hexact : ScanExact m l l_exclusive r r_exclusive) {v : V} (hk : k ≠ [])
    (hget : m.get_value (.ofString k) = some (some v)) (hin : InRange l l_exclusive r r_exclusive k) :
    m.linked (.ofString k) = false := by
  obtain ⟨found, hpicks, -, hmem⟩ := hexact.picks h hl
  have hpick := List.mem_map_of_mem (f := fun e : List UInt8 × V => (Key.ofString e.1, LinkOrValue.value e.2))
    ((hmem k v).mpr ⟨hk, hget, hin⟩)
  rw [← hpicks] at hpick
  obtain ⟨s, hs, hfor⟩ := h.slot_of_pick hnamed hl (List.Subset.refl _) hk hpick
  obtain ⟨p, hlisted⟩ := (h.listingOk hl).listed s hs
  exact h.linked_of_for hlisted hfor hget

include h hnamed hl in
/-- A key of the range is returned from its own place in the list. -/
theorem ScanExact.behind (hexact : ScanExact m l l_exclusive r r_exclusive) {v : V} {L L' : List (Slot V)}
    (hL : m.listing (.ofString l) = L ++ L') (hs : s ∈ L') (hfor : s.For k v)
    (hget : m.get_value (.ofString k) = some (some v)) (hin : InRange l l_exclusive r r_exclusive k) :
    L.any (range l l_exclusive r r_exclusive).stops = false ∧
      (Key.ofString k, LinkOrValue.value v) ∈ (range l l_exclusive r r_exclusive).picks L' := by
  obtain ⟨found, hpicks, -, hmem⟩ := hexact.picks h hl
  have hpick := List.mem_map_of_mem (f := fun e : List UInt8 × V => (Key.ofString e.1, LinkOrValue.value e.2))
    ((hmem k v).mpr ⟨hfor.ne, hget, hin⟩)
  rw [← hpicks, hL, picks_append, List.mem_append] at hpick
  rcases hpick with hpick | hpick
  · exfalso
    obtain ⟨s₁, hs₁, hfor₁⟩ := h.slot_of_pick hnamed hl
      (fun x hx => by rw [hL]; exact List.mem_append_left _ hx) hfor.ne hpick
    have hids := (h.listingOk hl).ids
    rw [hL, List.pairwise_append] at hids
    exact hids.2.2 s₁ hs₁ s hs (by rw [hfor₁.id, hfor.id])
  · cases hany : L.any (range l l_exclusive r r_exclusive).stops with
    | true =>
      rw [hany, if_pos rfl] at hpick
      cases hpick
    | false =>
      rw [hany, if_neg Bool.false_ne_true] at hpick
      exact ⟨rfl, hpick⟩

include h hnamed hl hr hcompares in
/-- A slot with the slice of a key of the range and a greater length is not before the lower bound. -/
theorem TreeOk.not_before {p p' : Ptr} {v : V} (hs : Listed sh [] p s) (hs' : Listed sh [] p' s')
    (hfor : s.For k v) (hord : Key.Ordered k l ∧ (¬ k < l → Key.Ordered k r)) (hin : InRange l l_exclusive r r_exclusive k)
    (hslice : s.key_slice = s'.key_slice) (hlen : s.key_len < s'.key_len) (hshort : s.key_len ≤ 8) :
    (range l l_exclusive r r_exclusive).before s'.scanKey = false := by
  rcases h.tested hnamed hcompares ⟨p', hs'⟩ with hlink | ⟨k', v', hfor', -, hord'⟩
  · rw [← Bool.not_eq_true]
    intro hbefore
    have hpasses := (hfor.passes_iff hl hr hord).mpr hin
    rw [((h.ok.live hs').link hlink).1] at hbefore
    have hbefore' := before_of_le (Key.slices_ofString hl) hshort hbefore
    rw [← hslice, ← (h.ok.live hs).short_key hshort] at hbefore'
    rw [Range.passes, hbefore'] at hpasses
    cases hpasses
  · have hlt := hfor.lt hfor' (Nat.le_of_eq hslice) fun _ => hlen
    refine (hfor'.before_iff hl hord'.1).mpr (Or.inl ?_)
    rcases hin.1 with hlk | ⟨-, rfl⟩
    · exact List.lt_trans hlk hlt
    · exact hlt

include h hnamed hl hr hcompares in
/-- The slots of a slice are listed by their lengths if the scan is exact. -/
theorem ScanExact.lengths (hexact : ScanExact m l l_exclusive r r_exclusive) :
    (m.listing (.ofString l)).Pairwise fun s s' => ∀ k v, k ≠ [] → s'.key? = some ((Key.ofString k).id, v) →
      InRange l l_exclusive r r_exclusive k → s.key_slice = s'.key_slice → s.key_len ≤ s'.key_len := by
  have hlisting := h.listingOk hl
  rw [List.pairwise_iff_forall_sublist]
  intro s s' hsub k v hk hkey hin hslice
  by_contra hlen
  rw [Nat.not_le] at hlen
  have hid : s.id ≠ s'.id := List.pairwise_iff_forall_sublist.mp hlisting.ids hsub
  obtain ⟨R₁, R₂, hR, hs, hs'⟩ := List.cons_sublist_iff.mp hsub
  obtain ⟨L₁, L₂, rfl⟩ := List.append_of_mem hs
  rw [List.singleton_sublist] at hs'
  rw [List.append_assoc, List.cons_append] at hR
  have hmem' : s' ∈ L₂ ++ R₂ := List.mem_append_right _ hs'
  generalize L₂ ++ R₂ = L₃ at hR hmem'
  obtain ⟨p, hlisted⟩ := hlisting.listed s (hsub.subset (by simp))
  obtain ⟨p', hlisted'⟩ := hlisting.listed s' (hsub.subset (by simp))
  have hfor' := (h.ok.live hlisted').for_of_key? hk hkey
  have hget : m.get_value (.ofString k) = some (some v) :=
    (h.get_some hk).mpr ⟨[], p', s', _, hlisted', hkey, rfl⟩
  have hord' := hcompares k v hk hget (h.linked_of_for hlisted' hfor' hget)
  have hshort : s'.key_len ≤ 8 := by
    by_contra hlong
    refine hid ?_
    rw [Slot.id, Slot.id, hslice]
    congr 1
    omega
  obtain ⟨hgo, hpick⟩ := hexact.behind h hnamed hl hR (List.mem_cons_of_mem _ hmem') hfor' hget hin
  have hafter := h.not_before hnamed hl hr hcompares hlisted' hlisted hfor' hord' hin hslice.symm hlen hshort
  cases hbeyond : (range l l_exclusive r r_exclusive).beyond s.scanKey with
  | true =>
    rw [Range.picks, hafter, hbeyond] at hpick
    cases hpick
  | false =>
    have hpasses : (range l l_exclusive r r_exclusive).passes s = true := by
      rw [Range.passes, hafter, hbeyond]
      rfl
    rcases h.tested hnamed hcompares ⟨p, hlisted⟩ with hlink | ⟨k', v', hfor, -, -⟩
    · rw [hexact.links h hl hr s (hsub.subset (by simp)) hlink] at hpasses
      cases hpasses
    have hlt := hfor'.lt hfor (Nat.le_of_eq hslice.symm) fun _ => hlen
    rw [Range.picks, hafter, hbeyond, if_neg Bool.false_ne_true, if_neg Bool.false_ne_true, List.mem_cons] at hpick
    rcases hpick with hpick | hpick
    · rw [hfor.scanKey, Prod.mk.injEq] at hpick
      obtain rfl := Key.eq_of_ofString hk hpick.1
      exact List.lt_irrefl _ hlt
    obtain ⟨found, hpicks, hascending, hmem⟩ := hexact.picks h hl
    have hpairs : (found.map fun e => (Key.ofString e.1, LinkOrValue.value e.2)).Pairwise fun x y =>
        ∀ j k : List UInt8, j ≠ [] → k ≠ [] → x.1 = .ofString j → y.1 = .ofString k → j < k := by
      rw [List.pairwise_map]
      refine hascending.imp ?_
      intro e e' hee j j' hj hj' heq heq'
      obtain rfl := Key.eq_of_ofString hj heq.symm
      obtain rfl := Key.eq_of_ofString hj' heq'.symm
      exact hee
    rw [← hpicks, hR, picks_append, hgo, if_neg Bool.false_ne_true, Range.picks, hafter, hbeyond,
      if_neg Bool.false_ne_true, if_neg Bool.false_ne_true, List.pairwise_append, List.pairwise_cons] at hpairs
    have hgt := hpairs.2.1.1 _ hpick k' k hfor.ne hk hfor.scanKey rfl
    exact List.lt_asymm hgt hlt

end

end Cassa.Masstree

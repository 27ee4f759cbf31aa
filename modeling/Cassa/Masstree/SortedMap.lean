import Mathlib
import Cassa.Lib.Refinement
import Cassa.Masstree.KeyCodec
import Cassa.Masstree.ScanExact
import Cassa.Masstree.SingleLayer

/-!
# A tree that is a sorted map

With keys of one slice that no zero byte ends, the tree has one layer and no two slots with the same
slice. Each operation is then the operation of the same name of a sorted map, and the scan returns
the entries of its range.
-/

set_option linter.dupNamespace false

namespace Cassa.Masstree

open Cassa.Lib.SearchTree Cassa.Lib.Refinement

/-- A string of one to eight bytes, the last of them not zero. -/
structure ShortKey where
  bytes : List UInt8
  ne : bytes ≠ []
  le : bytes.length ≤ 8
  last : bytes.getLast? ≠ some 0
  deriving DecidableEq

namespace ShortKey

theorem ext {a b : ShortKey} (h : a.bytes = b.bytes) : a = b := by
  cases a
  cases b
  cases h
  rfl

instance : LinearOrder ShortKey where
  le a b := a.bytes ≤ b.bytes
  lt a b := a.bytes < b.bytes
  le_refl a := List.le_refl a.bytes
  le_trans _ _ _ := List.le_trans
  le_antisymm _ _ h h' := ext (List.le_antisymm h h')
  le_total a b := List.le_total a.bytes b.bytes
  lt_iff_le_not_ge a b := by
    rw [List.not_le]
    exact ⟨fun h => ⟨List.le_of_lt h, h⟩, And.right⟩
  toDecidableEq := inferInstance
  toDecidableLE a b := inferInstanceAs (Decidable (a.bytes ≤ b.bytes))
  toDecidableLT a b := inferInstanceAs (Decidable (a.bytes < b.bytes))

theorem lt_iff (a b : ShortKey) : a < b ↔ a.bytes < b.bytes := Iff.rfl

/-- The key that the constructor of `Key` makes of the string. -/
def toKey (k : ShortKey) : Key := .ofString k.bytes

/-- The string of a key that the tree returns, if it is such a string. -/
def ofKey? (key : Key) : Option ShortKey :=
  let bytes := Key.uint64t_to_string key.slices key.lastSliceSize
  if h : bytes ≠ [] ∧ bytes.length ≤ 8 ∧ bytes.getLast? ≠ some 0 then some ⟨bytes, h.1, h.2.1, h.2.2⟩ else none

theorem ofKey?_toKey (k : ShortKey) : ofKey? k.toKey = some k := by
  unfold ofKey?
  simp only [toKey, Key.uint64t_to_string_ofString k.bytes k.ne]
  rw [dif_pos ⟨k.ne, k.le, k.last⟩]

theorem at_toKey (k : ShortKey) : k.toKey.At [] := Key.at_ofString k.ne

theorem hasNext_toKey (k : ShortKey) : k.toKey.hasNext = false := by
  rw [Bool.eq_false_iff, ne_eq, toKey, Key.hasNext_ofString k.ne]
  exact Nat.not_lt.mpr k.le

theorem id_toKey (k : ShortKey) : k.toKey.id = ([Key.packSlice k.bytes], k.bytes.length) := by
  have hdrop : k.bytes.drop 8 = [] := List.drop_eq_nil_of_le k.le
  rw [toKey, Key.id, Key.slices_ofString k.ne, Key.lastSliceSize_ofString _ k.ne, hdrop, Key.slices_ofString_nil,
    Key.lastSize_short k.ne hdrop, List.take_of_length_le k.le]

/-- The padding of a slice hides nothing but zero bytes. -/
theorem packSlice_inj {a b : ShortKey} (h : Key.packSlice a.bytes = Key.packSlice b.bytes) : a = b := by
  have hpad : Key.pad a.bytes = Key.pad b.bytes := by
    rw [Key.packSlice_eq, Key.packSlice_eq] at h
    exact Key.num_inj ((Key.length_pad a.le).trans (Key.length_pad b.le).symm) h
  have hshort : ∀ {a b : ShortKey}, Key.pad a.bytes = Key.pad b.bytes → b.bytes.length ≤ a.bytes.length := by
    intro a b hpad
    by_contra hlt
    rw [Nat.not_le] at hlt
    have hlast : b.bytes[b.bytes.length - 1]? = some 0 := by
      have hb : (Key.pad b.bytes)[b.bytes.length - 1]? = b.bytes[b.bytes.length - 1]? :=
        List.getElem?_append_left (by omega)
      rw [← hb, ← hpad, Key.pad, List.getElem?_append_right (by omega), List.getElem?_replicate, if_pos]
      have := b.le
      omega
    exact b.last (List.getLast?_eq_getElem?.trans hlast)
  apply ext
  exact List.append_inj_left hpad (Nat.le_antisymm (hshort hpad.symm) (hshort hpad))

end ShortKey

variable {V : Type} {m m' : Masstree V} {sh : Shape V} {s : Slot V}

/-- Every key of the tree is short. -/
def Short (sh : Shape V) : Prop := ∀ K v, Holds sh K v → ∃ k : ShortKey, K = k.toKey.id

theorem Slot.Live.layer_or_key (hs : s.Live) :
    (∃ q, s.layer? = some q ∧ s.key_len = key_len_layer) ∨ ∃ r v, s.key? = some (r, v) ∧ r.1 ≠ [] := by
  cases hs with
  | short v hlen => exact Or.inr ⟨_, v, rfl, List.cons_ne_nil _ _⟩
  | long v hne hsize hslices => exact Or.inr ⟨_, v, rfl, List.cons_ne_nil _ _⟩
  | layer q => exact Or.inl ⟨q, rfl, rfl⟩

/-- A slot of a short key has no suffix. -/
theorem Slot.Live.not_longSuffix (hs : s.Live) {k : ShortKey} {v : V} (hkey : s.key? = some (k.toKey.id, v)) :
    s.longSuffix = false := by
  cases hs with
  | short w hlen => rfl
  | @long slice suffix w hne hsize hslices =>
    change some ((slice :: suffix.slices, suffix.lastSliceSize), w) = _ at hkey
    rw [k.id_toKey, Option.some.injEq, Prod.mk.injEq, Prod.mk.injEq, List.cons.injEq] at hkey
    exact absurd hkey.1.1.2 hne
  | layer q => cases hkey

/-- A layer below another holds a key of two slices, or a link to a layer below. -/
theorem ShapeOk.layer_below {h : Heap V} (hok : ShapeOk h sh) (hshort : Short sh) {π : List Nat} {t : Layer V}
    (ht : sh π = some t) (hne : π ≠ []) : ∃ x t', sh (π ++ [x]) = some t' := by
  have hwf := (hok.layer π t ht).wf
  obtain ⟨⟨p, es⟩, hl⟩ := List.exists_mem_of_ne_nil _ hwf.leaves_ne_nil
  obtain ⟨s, hs⟩ := List.exists_mem_of_ne_nil _ (hwf.leaf_ne_nil _ hl)
  have hlisted : Listed sh π p s := ⟨t, es, ht, hl, hs⟩
  rcases (hok.live hlisted).layer_or_key with ⟨q, hq, -⟩ | ⟨r, v, hkey, hr⟩
  · obtain ⟨t', ht', -⟩ := hok.down π p s q hlisted hq
    exact ⟨_, t', ht'⟩
  · obtain ⟨k, hk⟩ := hshort _ v ⟨π, p, s, r, hlisted, hkey, rfl⟩
    rw [k.id_toKey, Prod.mk.injEq] at hk
    have hlen := congrArg List.length hk.1
    rw [List.length_append, List.length_singleton] at hlen
    have := List.length_pos_of_ne_nil hne
    have := List.length_pos_of_ne_nil hr
    omega

/-- There are no more layers than nodes. -/
theorem TreeOk.no_links (h : TreeOk m sh) (hshort : Short sh) {p : Ptr} (hs : Listed sh [] p s) :
    s.key_len ≠ key_len_layer := by
  intro hlink
  obtain ⟨-, -, q, hlv⟩ := (h.ok.live hs).link hlink
  have hlayer : s.layer? = some q := by rw [Slot.layer?, hlv]
  obtain ⟨t, ht, -⟩ := h.ok.down [] p s q hs hlayer
  have hdeep : ∀ n : Nat, ∃ π t, sh π = some t ∧ π.length = n + 1 := by
    intro n
    induction n with
    | zero => exact ⟨_, t, ht, rfl⟩
    | succ n ih =>
      obtain ⟨π, t, ht, hlen⟩ := ih
      obtain ⟨x, t', ht'⟩ := h.ok.layer_below hshort ht (List.ne_nil_of_length_eq_add_one hlen)
      exact ⟨_, t', ht', by rw [List.length_append, hlen, List.length_singleton]⟩
  choose π t ht hlen using hdeep
  have hroot : ∀ n, (t n).root < m.heap.fresh := fun n => (h.ok.layer _ _ (ht n)).lt _ (t n).root_mem_ptrs
  refine not_injective_infinite_finite (fun n => (⟨(t n).root, hroot n⟩ : Fin m.heap.fresh)) ?_
  intro a b hab
  have heq : (t a).root = (t b).root := congrArg Fin.val hab
  have hname := h.ok.disjoint _ _ _ _ _ (ht a) (ht b) (t a).root_mem_ptrs (heq ▸ (t b).root_mem_ptrs)
  have := congrArg List.length hname
  rw [hlen, hlen] at this
  omega

/-- The tree holds the entries of the map and nothing else. -/
def Represents (m : Masstree V) (map : Std.TreeMap ShortKey V) : Prop :=
  ∃ sh, TreeOk m sh ∧ ∀ K v, Holds sh K v ↔ ∃ k : ShortKey, K = k.toKey.id ∧ map[k]? = some v

theorem ShortKey.toKey_id_inj {k k' : ShortKey} : k.toKey.id = k'.toKey.id ↔ k = k' := by
  refine ⟨fun h => ?_, fun h => h ▸ rfl⟩
  rw [k.id_toKey, k'.id_toKey, Prod.mk.injEq, List.cons.injEq] at h
  exact ShortKey.packSlice_inj h.1.1

namespace Represents

variable {map : Std.TreeMap ShortKey V} {k : ShortKey} {v : V}

theorem new : Represents (.new : Masstree V) ∅ := by
  refine ⟨_, treeOk_new, fun K v => iff_of_false (treeOk_new.ok.not_holds rfl) ?_⟩
  rintro ⟨k, -, hk⟩
  simp at hk

theorem get_value (h : Represents m map) (k : ShortKey) : m.get_value k.toKey = some map[k]? := by
  obtain ⟨sh, hok, hkeys⟩ := h
  obtain ⟨o, hget, ho⟩ := hok.get_value k.at_toKey
  have hentry : ∀ v, Holds sh k.toKey.id v ↔ map[k]? = some v := by
    intro v
    rw [hkeys]
    refine ⟨?_, fun h => ⟨k, rfl, h⟩⟩
    rintro ⟨k', hk, hv⟩
    rwa [ShortKey.toKey_id_inj.mp hk]
  rw [hget]
  congr 1
  refine Option.ext fun v => ?_
  rw [ho, ← hentry]

theorem insert_value_present (h : Represents m map) {w : V} (hsome : map[k]? = some w) (v : V) :
    m.insert_value k.toKey v = some (.WARN_ALREADY_EXISTS, m) := by
  obtain ⟨sh, hok, hkeys⟩ := h
  rcases hok.insert_value k.at_toKey v (not_splitsLong m k.hasNext_toKey) with ⟨-, hins⟩ | ⟨hnot, -⟩
  · rwa [not_linked m k.hasNext_toKey, if_neg Bool.false_ne_true] at hins
  · exact absurd ((hkeys _ _).mpr ⟨k, rfl, hsome⟩) (hnot w)

theorem insert_value (h : Represents m map) (hnone : map[k]? = none) (v : V) :
    ∃ m', m.insert_value k.toKey v = some (.OK, m') ∧ Represents m' (map.insert k v) := by
  obtain ⟨sh, hok, hkeys⟩ := h
  rcases hok.insert_value k.at_toKey v (not_splitsLong m k.hasNext_toKey) with
    ⟨⟨w, hw⟩, -⟩ | ⟨-, m', sh', hins, hok', hkeys'⟩
  · obtain ⟨k', hk, hw⟩ := (hkeys _ _).mp hw
    rw [← ShortKey.toKey_id_inj.mp hk, hnone] at hw
    cases hw
  · refine ⟨m', hins, sh', hok', fun K w => ?_⟩
    rw [hkeys', hkeys]
    constructor
    · rintro (⟨k', rfl, hw⟩ | ⟨rfl, rfl⟩)
      · refine ⟨k', rfl, ?_⟩
        have hne : k ≠ k' := fun he => by
          rw [← he, hnone] at hw
          cases hw
        rwa [Std.TreeMap.getElem?_insert, if_neg (mt compare_eq_iff_eq.mp hne)]
      · exact ⟨k, rfl, Std.TreeMap.getElem?_insert_self⟩
    · rintro ⟨k', rfl, hw⟩
      rw [Std.TreeMap.getElem?_insert] at hw
      split at hw
      · rename_i he
        obtain rfl := compare_eq_iff_eq.mp he
        exact Or.inr ⟨rfl, (Option.some.inj hw).symm⟩
      · exact Or.inl ⟨k', rfl, hw⟩

theorem remove_value (h : Represents m map) (k : ShortKey) :
    ∃ m', m.remove_value k.toKey = some (if map[k]?.isSome then .OK else .WARN_NOT_FOUND, m') ∧
      Represents m' (map.erase k) := by
  obtain ⟨sh, hok, hkeys⟩ := h
  have herase : ∀ (k' : ShortKey) (w : V), (map.erase k)[k']? = some w ↔ map[k']? = some w ∧ k' ≠ k := by
    intro k' w
    rw [Std.TreeMap.getElem?_erase]
    by_cases he : k = k'
    · simp [he]
    · rw [if_neg (mt compare_eq_iff_eq.mp he), and_iff_left (Ne.symm he)]
  rcases hok.remove_value k.at_toKey (hok.not_collapses k.at_toKey k.hasNext_toKey) with
    ⟨hnot, hrem⟩ | ⟨⟨w, hw⟩, m', sh', hrem, hok', hkeys'⟩
  · have hnone : map[k]? = none := by
      refine Option.eq_none_iff_forall_ne_some.mpr fun w hw => ?_
      exact hnot w ((hkeys _ _).mpr ⟨k, rfl, hw⟩)
    rw [not_linked m k.hasNext_toKey, if_neg Bool.false_ne_true] at hrem
    refine ⟨m, by rw [hnone]; exact hrem, sh, hok, fun K w => ?_⟩
    rw [hkeys]
    refine exists_congr fun k' => and_congr_right ?_
    rintro rfl
    rw [herase, and_iff_left_of_imp]
    rintro hw rfl
    exact hnot w ((hkeys _ _).mpr ⟨k', rfl, hw⟩)
  · have hsome : map[k]? = some w := by
      obtain ⟨k', hk, hw⟩ := (hkeys _ _).mp hw
      rwa [ShortKey.toKey_id_inj.mp hk]
    refine ⟨m', by rw [hsome]; exact hrem, sh', hok', fun K w => ?_⟩
    rw [hkeys', hkeys]
    constructor
    · rintro ⟨⟨k', rfl, hw⟩, hne⟩
      exact ⟨k', rfl, (herase _ _).mpr ⟨hw, fun he => hne (he ▸ rfl)⟩⟩
    · rintro ⟨k', rfl, hw⟩
      obtain ⟨hw, hne⟩ := (herase _ _).mp hw
      exact ⟨⟨k', rfl, hw⟩, fun he => hne (ShortKey.toKey_id_inj.mp he)⟩

theorem short (h : ∀ K v, Holds sh K v ↔ ∃ k : ShortKey, K = k.toKey.id ∧ map[k]? = some v) : Short sh := by
  intro K v hv
  obtain ⟨k, hk, -⟩ := (h K v).mp hv
  exact ⟨k, hk⟩

/-- Lookups of any strings. -/
theorem get_value_iff (h : Represents m map) {key : List UInt8} (hkey : key ≠ []) {v : V} :
    m.get_value (.ofString key) = some (some v) ↔ ∃ k : ShortKey, k.bytes = key ∧ map[k]? = some v := by
  obtain ⟨sh, hok, hkeys⟩ := h
  rw [hok.get_some hkey, hkeys]
  refine exists_congr fun k => and_congr_left' ⟨fun he => ?_, fun he => he ▸ rfl⟩
  by_contra hne
  exact Key.id_ofString_ne hkey k.ne hne he.symm

theorem comparesStrings (h : Represents m map) (l r : ShortKey) : ComparesStrings m l.bytes r.bytes := by
  intro key v hkey hget _
  obtain ⟨k, rfl, -⟩ := (h.get_value_iff hkey).mp hget
  have hordered : ∀ b : ShortKey, Key.Ordered k.bytes b.bytes := fun b =>
    ⟨Key.not_overruns_short b.ne (List.drop_eq_nil_of_le b.le), Key.not_overruns_short k.ne (List.drop_eq_nil_of_le k.le)⟩
  exact ⟨hordered l, fun _ => hordered r⟩

end Represents

/-- The slots of the listing stand for short keys. -/
theorem TreeOk.listed_short (h : TreeOk m sh) (hshort : Short sh) (l : ShortKey) (hs : s ∈ m.listing l.toKey) :
    s.Live ∧ s.key_len ≠ key_len_layer ∧ ∃ (k : ShortKey) (v : V), s.For k.bytes v := by
  obtain ⟨p, hlisted⟩ := (h.listingOk l.ne).listed s hs
  have hlive := h.ok.live hlisted
  have hlink := h.no_links hshort hlisted
  refine ⟨hlive, hlink, ?_⟩
  rcases hlive.layer_or_key with ⟨q, -, hq⟩ | ⟨r, v, hkey, -⟩
  · exact absurd hq hlink
  · obtain ⟨k, hk⟩ := hshort _ v ⟨[], p, s, r, hlisted, hkey, rfl⟩
    rw [List.nil_append] at hk
    exact ⟨k, v, hlive.for_of_key? k.ne (hk ▸ hkey)⟩

theorem TreeOk.scannable_short (h : TreeOk m sh) (hshort : Short sh) (l r : ShortKey) (l_exclusive r_exclusive : Bool) :
    Scannable m l.bytes l_exclusive r.bytes r_exclusive where
  upper := by
    intro key v hkey hget _
    obtain ⟨k, hk⟩ := hshort _ v ((h.get_some hkey).mp hget)
    have hkey' : k.bytes = key := by
      by_contra hne
      exact Key.id_ofString_ne hkey k.ne hne hk.symm
    subst hkey'
    exact not_linked m k.hasNext_toKey
  links := by
    intro s hs hlink
    exact absurd hlink (h.listed_short hshort l hs).2.1
  lengths := by
    refine (h.listingOk l.ne).ids.imp_of_mem ?_
    intro s s' hs hs' hid key v _ _ _ hslice
    obtain ⟨-, -, k, w, hfor⟩ := h.listed_short hshort l hs
    obtain ⟨-, -, k', w', hfor'⟩ := h.listed_short hshort l hs'
    rw [hfor.slice, hfor'.slice, List.take_of_length_le k.le, List.take_of_length_le k'.le] at hslice
    obtain rfl := ShortKey.packSlice_inj hslice
    exact absurd (hfor.id.trans hfor'.id.symm) hid

theorem TreeOk.onlyReads_short (h : TreeOk m sh) (hshort : Short sh) (l r : ShortKey) (l_exclusive r_exclusive : Bool) :
    m.onlyReads ⟨l.toKey, l_exclusive, r.toKey, r_exclusive⟩ = true := by
  refine List.all_eq_true.mpr fun s hs => ?_
  obtain ⟨hlive, -, k, v, hfor⟩ := h.listed_short hshort l (mem_upTo hs)
  rw [hlive.not_longSuffix hfor.key]
  rfl

namespace Represents

variable {map : Std.TreeMap ShortKey V} {k : ShortKey} {v : V}

/-- The scan finds the entries of its range and changes nothing. -/
theorem scan (h : Represents m map) (l r : ShortKey) (l_exclusive r_exclusive : Bool) (range : ShortKey → Bool)
    (hrange : ∀ k, range k = true ↔ InRange l.bytes l_exclusive r.bytes r_exclusive k.bytes) :
    ∃ status, m.scan ⟨l.toKey, l_exclusive, r.toKey, r_exclusive⟩ =
      some (status, (map.toList.filter fun e => range e.1).map fun e => (e.1.toKey, .value e.2), m) := by
  have hget := @h.get_value_iff
  have hcompares := h.comparesStrings l r
  obtain ⟨sh, hok, hkeys⟩ := h
  have hshort := short hkeys
  have hnamed : Named sh := by
    intro K v hv
    obtain ⟨k, hk⟩ := hshort K v hv
    exact ⟨k.bytes, k.ne, hk⟩
  obtain ⟨status, hsame⟩ := hok.scan_same (b := ⟨l.toKey, l_exclusive, r.toKey, r_exclusive⟩) l.at_toKey
    (hok.onlyReads_short hshort l r l_exclusive r_exclusive)
  obtain ⟨status', m', found, hscan, hsorted, hfound⟩ :=
    (hok.scannable_short hshort l r l_exclusive r_exclusive).exact hok hnamed l.ne r.ne hcompares
  have hres := Option.some.inj (hsame.symm.trans hscan)
  obtain ⟨-, hres, -⟩ := Prod.mk.inj hres |>.imp_right Prod.mk.inj
  have hentries : found = (map.toList.filter fun e => range e.1).map fun e => (e.1.bytes, e.2) := by
    have hsorted' : ((map.toList.filter fun e => range e.1).map fun e => (e.1.bytes, e.2)).Pairwise
        fun e e' => e.1 < e'.1 := by
      rw [List.pairwise_map]
      refine List.Pairwise.filter _ (Std.TreeMap.ordered_keys_toList.imp fun {e e'} hee => ?_)
      exact compare_lt_iff_lt.mp hee
    have hnodup : ∀ {l : List (List UInt8 × V)}, (l.Pairwise fun e e' => e.1 < e'.1) → l.Nodup := by
      intro l hl
      refine hl.imp fun {e e'} hlt he => ?_
      subst he
      exact List.lt_irrefl _ hlt
    refine List.Perm.eq_of_pairwise (fun e e' _ _ hlt hlt' => absurd hlt' (List.lt_asymm hlt)) hsorted hsorted'
      ((List.perm_ext_iff_of_nodup (hnodup hsorted) (hnodup hsorted')).mpr ?_)
    rintro ⟨key, v⟩
    rw [hfound, List.mem_map]
    constructor
    · rintro ⟨hkey, hv, hin⟩
      obtain ⟨k, rfl, hk⟩ := (hget hkey).mp hv
      exact ⟨(k, v), List.mem_filter.mpr ⟨Std.TreeMap.mem_toList_iff_getElem?_eq_some.mpr hk, (hrange k).mpr hin⟩, rfl⟩
    · rintro ⟨⟨k, w⟩, hmem, he⟩
      obtain ⟨rfl, rfl⟩ := Prod.mk.inj he
      obtain ⟨hmem, hin⟩ := List.mem_filter.mp hmem
      exact ⟨k.ne, (hget k.ne).mpr ⟨k, rfl, Std.TreeMap.mem_toList_iff_getElem?_eq_some.mp hmem⟩, (hrange k).mp hin⟩
  refine ⟨status, ?_⟩
  rw [hsame, hres, hentries, List.map_map]
  rfl

end Represents

/-- The pairs of `scan_result`, with the key of each. A link is no record. -/
def pairOf (e : Key × LinkOrValue V) : Option (ShortKey × V) :=
  match e.2 with
  | .value v => (ShortKey.ofKey? e.1).map fun k => (k, v)
  | _ => none

theorem mapM_pairOf (es : List (ShortKey × V)) :
    (es.map fun e => (e.1.toKey, LinkOrValue.value e.2)).mapM pairOf = some es := by
  induction es with
  | nil => rfl
  | cons e es ih =>
    have he : pairOf (e.1.toKey, LinkOrValue.value e.2) = some e := by
      rw [pairOf, ShortKey.ofKey?_toKey]
      rfl
    rw [List.map_cons, List.mapM_cons, he, ih]
    rfl

namespace ShortKey

def inRange (l : ShortKey) (l_exclusive : Bool) (r : ShortKey) (r_exclusive : Bool) (k : ShortKey) : Bool :=
  (if l_exclusive then l < k else l ≤ k) && (if r_exclusive then k < r else k ≤ r)

theorem inRange_iff (l r k : ShortKey) (l_exclusive r_exclusive : Bool) :
    inRange l l_exclusive r r_exclusive k = true ↔ InRange l.bytes l_exclusive r.bytes r_exclusive k.bytes := by
  have hle : ∀ a b : ShortKey, a ≤ b ↔ a.bytes < b.bytes ∨ a.bytes = b.bytes := by
    intro a b
    rw [le_iff_lt_or_eq, lt_iff]
    exact or_congr_right ⟨congrArg _, ext⟩
  rw [inRange, InRange, Bool.and_eq_true]
  refine and_congr ?_ ?_
  · cases l_exclusive with
    | true => simp [lt_iff]
    | false => simp [hle, eq_comm (a := l.bytes)]
  · cases r_exclusive with
    | true => simp [lt_iff]
    | false => simp [hle]

end ShortKey

/-- A call of Masstree with short keys. -/
inductive ShortCall (V : Type) where
  | insert_value (key : ShortKey) (value : V)
  | remove_value (key : ShortKey)
  | get_value (key : ShortKey)
  | scan (left_key : ShortKey) (l_exclusive : Bool) (right_key : ShortKey) (r_exclusive : Bool)

inductive Returned (V : Type) where
  | status (status : Status)
  | value (value : Option V)
  | scan_result (scan_result : List (ShortKey × V))

def Masstree.callShort (m : Masstree V) : ShortCall V → Option (Returned V × Masstree V)
  | .insert_value key value => (m.insert_value key.toKey value).map fun r => (.status r.1, r.2)
  | .remove_value key => (m.remove_value key.toKey).map fun r => (.status r.1, r.2)
  | .get_value key => (m.get_value key.toKey).map fun r => (.value r, m)
  | .scan l l_exclusive r r_exclusive =>
    (m.scan ⟨l.toKey, l_exclusive, r.toKey, r_exclusive⟩).bind fun found =>
      (found.2.1.mapM pairOf).map fun scan_result => (.scan_result scan_result, found.2.2)

/-- What the call is for. -/
def callMap (map : Std.TreeMap ShortKey V) : ShortCall V → Option (Returned V × Std.TreeMap ShortKey V)
  | .insert_value key value =>
    some (if map[key]?.isSome then (.status .WARN_ALREADY_EXISTS, map) else (.status .OK, map.insert key value))
  | .remove_value key => some (.status (if map[key]?.isSome then .OK else .WARN_NOT_FOUND), map.erase key)
  | .get_value key => some (.value map[key]?, map)
  | .scan l l_exclusive r r_exclusive =>
    some (.scan_result (map.toList.filter fun e => ShortKey.inRange l l_exclusive r r_exclusive e.1), map)

theorem callShort_alike {m : Masstree V} {map : Std.TreeMap ShortKey V} (c : ShortCall V) (h : Represents m map) :
    Alike Represents (m.callShort c) (callMap map c) := by
  cases c with
  | insert_value key value =>
    rw [Masstree.callShort, callMap]
    cases hkey : map[key]? with
    | some w =>
      rw [h.insert_value_present hkey]
      exact .ok h
    | none =>
      obtain ⟨m', hins, h'⟩ := h.insert_value hkey value
      rw [hins]
      exact .ok h'
  | remove_value key =>
    obtain ⟨m', hremove, h'⟩ := h.remove_value key
    rw [Masstree.callShort, hremove]
    exact .ok h'
  | get_value key =>
    rw [Masstree.callShort, h.get_value]
    exact .ok h
  | scan l l_exclusive r r_exclusive =>
    obtain ⟨status, hscan⟩ := h.scan l r l_exclusive r_exclusive (ShortKey.inRange l l_exclusive r r_exclusive)
      fun k => ShortKey.inRange_iff l r k l_exclusive r_exclusive
    rw [Masstree.callShort, hscan, Option.bind_some, mapM_pairOf]
    exact .ok h

theorem serve_callMap (map : Std.TreeMap ShortKey V) (calls : List (ShortCall V)) :
    ∃ answers map', serve callMap map calls = some (answers, map') := by
  induction calls generalizing map with
  | nil => exact ⟨[], map, rfl⟩
  | cons c calls ih =>
    obtain ⟨⟨answer, map'⟩, hc⟩ : ∃ a, callMap map c = some a := by cases c <;> exact ⟨_, rfl⟩
    obtain ⟨answers, map'', hserve⟩ := ih map'
    refine ⟨answer :: answers, map'', ?_⟩
    rw [serve, hc, Option.bind_some, hserve]
    rfl

/-- Over short keys Masstree is a sorted map: every list of calls, from the empty tree, comes to its end
and is answered as over the map, with the same statuses, records and scan results. -/
theorem calls_as_over_map (calls : List (ShortCall V)) :
    ∃ answers m map, serve Masstree.callShort (.new : Masstree V) calls = some (answers, m) ∧
      serve callMap ∅ calls = some (answers, map) ∧ ∀ key : ShortKey, m.get_value key.toKey = some map[key]? := by
  have halike := serve_alike (fun _ _ c h => callShort_alike c h) calls (Represents.new (V := V))
  rcases halike.cases with ⟨-, hnone⟩ | ⟨answers, m, map, hm, hmap, h⟩
  · obtain ⟨answers, map, hserve⟩ := serve_callMap (∅ : Std.TreeMap ShortKey V) calls
    rw [hserve] at hnone
    cases hnone
  · exact ⟨answers, m, map, hm, hmap, h.get_value⟩

end Cassa.Masstree

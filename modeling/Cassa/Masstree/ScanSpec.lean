import Cassa.Masstree.Scan

/-!
# What a scan returns and what it changes

A scan leaves the tree as it is if and only if no slot that it visits has a suffix of
several slices: such a slot keeps the last slice only, and its key is not found again. It
returns the keys of its range in order as long as these keys are in layer 0, no link passes
for a key of the range, keys with the same first slice are listed by their length, and the
comparison of keys is that of their strings.
-/

set_option linter.dupNamespace false

namespace Cassa.Masstree

open Cassa.Lib.SearchTree
open Cassa.Lib.Runs

variable {V : Type} {m m' : Masstree V} {sh : Shape V} {b : Range} {s : Slot V}

/-- Every key of the tree comes from a string. -/
def Named (sh : Shape V) : Prop := ∀ K v, Holds sh K v → ∃ k : List UInt8, k ≠ [] ∧ K = (Key.ofString k).id

theorem Outcome.named {sh' : Shape V} {c : Call V} {status : Status} (hout : Outcome sh sh' c status)
    (hkey : c.key ≠ []) (hnamed : Named sh) : Named sh' := by
  intro K v hv
  by_cases hK : K = (Key.ofString c.key).id
  · exact ⟨c.key, hkey, hK⟩
  · exact hnamed K v ((hout.others K hK v).mp hv)

theorem named_reach (hreach : Reach Masstree.step (· = .new) (fun m c => m.spared c = true) m) :
    ∃ sh, TreeOk m sh ∧ Named sh := by
  refine Reach.invariant (I := fun m : Masstree V => ∃ sh, TreeOk m sh ∧ Named sh) ?_ ?_ hreach
  · rintro m rfl
    refine ⟨_, treeOk_new, ?_⟩
    intro K v hv
    exact absurd hv (treeOk_new.ok.not_holds rfl)
  · rintro m c m' ⟨sh, hok, hnamed⟩ hspared hstep
    obtain ⟨⟨status, m''⟩, hcall, rfl⟩ := Option.map_eq_some_iff.mp hstep
    have hkey : c.key ≠ [] := by
      intro he
      unfold Masstree.call at hcall
      rw [if_pos he] at hcall
      cases hcall
    obtain ⟨sh', hok', hout⟩ := hok.outcome hkey hspared hcall
    exact ⟨sh', hok', hout.named hkey hnamed⟩

theorem Slot.Live.scanKey_of_key? (hs : s.Live) {r : List Nat × Nat} {v : V} (hr : s.key? = some (r, v)) :
    s.scanKey = ⟨r.1, r.2, 0⟩ := by
  cases hs with
  | @short len slice w hlen =>
    have hne : ¬ len = key_len_layer := by
      unfold key_len_layer
      omega
    obtain ⟨rfl, -⟩ : _ ∧ _ := by simpa [Slot.key?] using hr
    simp [scanKey, hne]
  | long w hne hsize hslices =>
    obtain ⟨rfl, -⟩ : _ ∧ _ := by simpa [Slot.key?] using hr
    rfl
  | layer q => cases hr

/-- The string of a slot of layer 0. -/
theorem TreeOk.scanKey_named (h : TreeOk m sh) (hnamed : Named sh) {p : Ptr} (hs : Listed sh [] p s)
    (hlink : s.layer? = none) : ∃ k v, k ≠ [] ∧ s.scanKey = Key.ofString k ∧ s.lv = .value v ∧
      s.key? = some ((Key.ofString k).id, v) ∧ m.get_value (.ofString k) = some (some v) := by
  have hlive := h.ok.live hs
  obtain ⟨r, v, hr⟩ : ∃ r v, s.key? = some (r, v) := by
    cases hlive with
    | short w hlen => exact ⟨_, w, rfl⟩
    | long w hne hsize hslices => exact ⟨_, w, rfl⟩
    | layer q => cases hlink
  have hholds : Holds sh r v := ⟨[], p, s, r, hs, hr, rfl⟩
  obtain ⟨k, hk, rfl⟩ := hnamed r v hholds
  refine ⟨k, v, hk, ?_, Slot.lv_of_key? hr, hr, (h.get_some hk).mpr hholds⟩
  rw [hlive.scanKey_of_key? hr]
  rfl

section

variable {h h' : Heap V}

theorem Drains.climb (hd : Drains h h') (fuel : Nat) (p : Ptr) : climb h' fuel p = climb h fuel p := by
  induction fuel generalizing p with
  | zero => rfl
  | succ fuel ih =>
    obtain ⟨is, his⟩ := hd.mem p
    rw [Masstree.climb, Masstree.climb, his]
    change (if (h.mem p).is_root = true then some p else (h.mem p).parent.bind (Masstree.climb h' fuel)) = _
    rw [funext ih]

theorem Node.findChildFrom_drain (n : Node V) (is : List Nat) (x fuel : Nat) :
    ∀ i, (n.drain is).findChildFrom x fuel i = n.findChildFrom x fuel i := by
  induction fuel with
  | zero => exact fun i => rfl
  | succ fuel ih =>
    intro i
    rw [findChildFrom, findChildFrom, ih]
    rfl

theorem Drains.descend (hd : Drains h h') (x fuel : Nat) (p : Ptr) : descend h' x fuel p = descend h x fuel p := by
  induction fuel generalizing p with
  | zero => rfl
  | succ fuel ih =>
    obtain ⟨is, his⟩ := hd.mem p
    have hchild : ((h.mem p).drain is).findChild x = (h.mem p).findChild x :=
      (h.mem p).findChildFrom_drain is x _ 0
    rw [Masstree.descend, Masstree.descend, his, hchild, funext ih]
    rfl

theorem Drains.findBorder (hd : Drains h h') (root : Ptr) (key : Key) :
    findBorder h' root key = findBorder h root key := by
  rw [Masstree.findBorder, Masstree.findBorder, hd.fresh, hd.climb, funext (hd.descend _ _)]

/-- A slot of a key with further slices that is not in the way. -/
theorem searchLink_none {n : Node V} {key : Key} : ∀ {l : List Nat}, (∀ i ∈ l,
    (n.slot i).key_slice = key.getCurrentSlice.slice → (n.slot i).key_len ≤ 8 ∨
      (n.slot i).key_len = key_len_has_suffix ∧ (n.slot i).suffix.any (·.isSame key (key.cursor + 1)) = false) →
    n.searchLink key l = (.NOTFOUND, .null, 0) := by
  intro l
  induction l with
  | nil => exact fun _ => rfl
  | cons i l ih =>
    intro hl
    have hrest := ih fun j hj => hl j (List.mem_cons_of_mem _ hj)
    rw [Node.searchLink]
    split
    · rename_i hslice
      have hi := hl i List.mem_cons_self hslice
      have hne : ¬ ((n.slot i).key_len = key_len_has_suffix ∧
          (n.slot i).suffix.any (·.isSame key (key.cursor + 1)) = true) := by
        rintro ⟨hlen, hsame⟩
        rcases hi with hi | ⟨-, hi⟩
        · rw [hlen, key_len_has_suffix] at hi
          omega
        · rw [hi] at hsame
          cases hsame
      have hlen : (n.slot i).key_len ≤ 9 := by
        rcases hi with hi | ⟨hi, -⟩
        · omega
        · rw [hi]
          exact Nat.le_refl _
      rw [if_neg hne, if_neg (by unfold key_len_layer; omega), if_neg (by unfold key_len_unstable; omega)]
      exact hrest
    · exact hrest

end

/-- The suffix of the slot has several slices. -/
def Slot.longSuffix (s : Slot V) : Bool := s.suffix.any BigSuffix.hasNext

theorem Slot.Live.drained_eq (hs : s.Live) (hlong : s.longSuffix = false) : s.drained = s := by
  cases hs with
  | short v hlen => rfl
  | @long slice suffix v hne hsize hslices =>
    have hone : suffix.slices.length - 1 = 0 := by
      have : ¬ 2 ≤ suffix.slices.length := by simpa [longSuffix, BigSuffix.hasNext] using hlong
      omega
    simp [drained, hone]
  | layer q => rfl

/-- Other slots of the node are not in the way of a key with a suffix. -/
theorem Node.SlotsOk.key_len_le {n : Node V} (hn : n.SlotsOk) {i j : Nat} (hi : i ∈ n.permutation)
    (hj : j ∈ n.permutation) (hne : j ≠ i) (hlen : (n.slot i).key_len = key_len_has_suffix)
    (hslice : (n.slot j).key_slice = (n.slot i).key_slice) : (n.slot j).key_len ≤ 8 := by
  by_contra hlt
  refine hne (List.inj_on_of_nodup_map hn.ids hj hi ?_)
  rw [Slot.id, Slot.id, hslice, hlen, key_len_has_suffix]
  congr 1
  omega

/-- What is left of a suffix of several slices is not that of the key. -/
theorem Slot.Live.drained_suffix (hs : s.Live) (hlong : s.longSuffix = true) {k : List UInt8} {v : V}
    (hkey : s.key? = some ((Key.ofString k).id, v)) : s.key_len = key_len_has_suffix ∧
      (Key.ofString k).hasNext = true ∧ s.drained.suffix.any (·.isSame (.ofString k) 1) = false := by
  cases hs with
  | short w hlen => cases hlong
  | @long slice suffix w hne hsize hslices =>
    have hnext : 2 ≤ suffix.slices.length := by simpa [longSuffix, BigSuffix.hasNext] using hlong
    obtain ⟨hid, -⟩ := Prod.mk.inj (Option.some.inj hkey)
    obtain ⟨hslices', hlast⟩ := Prod.mk.inj hid
    refine ⟨rfl, ?_, ?_⟩
    · rw [Key.hasNext, ← hslices', List.length_cons, bne_iff_ne]
      change _ ≠ 1
      omega
    · have hremain : ((Key.ofString k).remainLength 1 == BigSuffix.remainLength
          ⟨suffix.slices.drop (suffix.slices.length - 1), suffix.lastSliceSize⟩) = false := by
        rw [beq_eq_false_iff_ne, Key.remainLength, BigSuffix.remainLength, ← hslices', ← hlast, List.length_cons,
          List.length_drop]
        dsimp only
        omega
      change BigSuffix.isSame _ _ _ = false
      rw [BigSuffix.isSame, hremain, Bool.false_and]
  | layer q => cases hlong

/-- The slice and the length of a slot stay as they are. -/
theorem Drains.slot_frame {h h' : Heap V} (hd : Drains h h') (p : Ptr) (i : Nat) :
    ((h'.mem p).slot i).key_len = ((h.mem p).slot i).key_len ∧
      ((h'.mem p).slot i).key_slice = ((h.mem p).slot i).key_slice := by
  obtain ⟨is, his⟩ := hd.mem p
  rw [his]
  change (if i ∈ is then ((h.mem p).slot i).drained else (h.mem p).slot i).key_len = _ ∧
    (if i ∈ is then ((h.mem p).slot i).drained else (h.mem p).slot i).key_slice = _
  split
  · exact ⟨rfl, rfl⟩
  · exact ⟨rfl, rfl⟩

/-- A key whose slot was drained is not found. -/
theorem TreeOk.get_drained (h : TreeOk m sh) {h' : Heap V} (hd : Drains m.heap h') {p : Ptr} {i : Nat}
    {k : List UInt8} {v : V} (hk : k ≠ []) (hs : Listed sh [] p s) (hi : i ∈ (m.heap.mem p).permutation)
    (hslot : (m.heap.mem p).slot i = s) (hdr : (h'.mem p).slot i = s.drained) (hlong : s.longSuffix = true)
    (hkey : s.key? = some ((Key.ofString k).id, v)) :
    Masstree.get_value ⟨h', m.root⟩ (.ofString k) = some none := by
  obtain ⟨t, es, ht, hl, hmem⟩ := id hs
  obtain ⟨fs, p', es', a, b, hplace, hfind⟩ := h.ok.findBorder ht (Key.at_ofString hk)
  obtain ⟨hlen, hnext, hsame⟩ := (h.ok.live hs).drained_suffix hlong hkey
  have hslice : s.key_slice = (Key.ofString k).getCurrentSlice.slice := by
    obtain ⟨rest, hrest⟩ := Slot.key?_head hkey
    change (Key.ofString k).slices = _ at hrest
    rw [Key.getCurrentSlice, hrest]
    rfl
  obtain ⟨rfl, -⟩ := hplace.mem hs hslice
  have hn := hplace.borderAt h.ok
  obtain ⟨is, his⟩ := hd.mem p
  have hsearch : (h'.mem p).searchLinkOrValueWithIndex (.ofString k) = (.NOTFOUND, .null, 0) := by
    rw [Node.searchLinkOrValueWithIndex, if_pos hnext]
    refine searchLink_none ?_
    intro j hj hx
    rw [his] at hj
    by_cases hji : j = i
    · rw [hji, hdr]
      exact Or.inr ⟨hlen, hsame⟩
    · obtain ⟨hlen', hslice'⟩ := hd.slot_frame p j
      rw [hlen']
      refine Or.inl (hn.slots.key_len_le hi hj hji (hslot ▸ hlen) ?_)
      rw [← hslice', hx, hslot, hslice]
  have hroot : m.root = some t.root := by
    rw [h.root, ht]
    rfl
  unfold Masstree.get_value
  rw [hroot]
  change masstree_get h' (2 * (Key.ofString k).slices.length + 1 + 1) t.root (.ofString k) = _
  rw [masstree_get, hd.findBorder, hfind]
  have halive : (h'.mem p).deleted = false := by
    rw [his]
    exact hn.alive
  change (if (h'.mem p).deleted = true then _ else _) = _
  rw [halive, if_neg Bool.false_ne_true, hsearch]

/-- The bounds of a scan as strings. -/
def range (l : List UInt8) (l_exclusive : Bool) (r : List UInt8) (r_exclusive : Bool) : Range :=
  ⟨.ofString l, l_exclusive, .ofString r, r_exclusive⟩

/-- The scan comes to no slot whose suffix has several slices. -/
def Masstree.onlyReads (m : Masstree V) (b : Range) : Bool := (m.visited b).all (!·.longSuffix)

/-- No lookup changes with the scan, and a second scan returns the same list. -/
def ScanReadOnly (m : Masstree V) (b : Range) : Prop :=
  ∃ status result m', m.scan b = some (status, result, m') ∧
    (∀ k, k ≠ [] → m'.get_value (.ofString k) = m.get_value (.ofString k)) ∧
    ∃ status' m'', m'.scan b = some (status', result, m'')

theorem TreeOk.scan_same (h : TreeOk m sh) (hleft : b.left_key.At []) (honly : m.onlyReads b = true) :
    ∃ status, m.scan b = some (status, b.picks (m.listing b.left_key), m) := by
  obtain ⟨status, h', hscan, -, hvisited, hsame⟩ := h.scan hleft
  have hh : h' = m.heap := by
    refine hsame ?_
    intro s hs
    obtain ⟨p, i, hl, -⟩ := hvisited s hs
    have hshort := List.all_eq_true.mp honly s hs
    exact (h.ok.live hl).drained_eq (by simpa using hshort)
  exact ⟨status, by rw [hscan, hh]⟩

/-- Calls and scans. -/
inductive Op (V : Type) where
  | call (c : Call V)
  | scan (l : List UInt8) (l_exclusive : Bool) (r : List UInt8) (r_exclusive : Bool)

def Masstree.stepOp (m : Masstree V) : Op V → Option (Masstree V)
  | .call c => m.step c
  | .scan l l_exclusive r r_exclusive =>
    if l = [] ∨ r = [] then none else (m.scan (range l l_exclusive r r_exclusive)).map (·.2.2)

/-- The operation reaches none of the defects. -/
def Masstree.sparedOp (m : Masstree V) : Op V → Bool
  | .call c => m.spared c
  | .scan l l_exclusive r r_exclusive => m.onlyReads (range l l_exclusive r r_exclusive)

/-- Scans that only read leave no trace in the tree. -/
theorem reach_calls (hreach : Reach Masstree.stepOp (· = .new) (fun m op => m.sparedOp op = true) m) :
    Reach Masstree.step (· = .new) (fun m c => m.spared c = true) m := by
  induction hreach with
  | start h => exact .start h
  | @next m m' op hr hspared hstep ih =>
    cases op with
    | call c => exact ih.next hspared hstep
    | scan l l_exclusive r r_exclusive =>
      obtain ⟨sh, hok⟩ := treeOk_reach ih
      rw [Masstree.stepOp] at hstep
      split at hstep
      · cases hstep
      · rename_i hbounds
        have hl : l ≠ [] := fun he => hbounds (Or.inl he)
        obtain ⟨status, hscan⟩ := hok.scan_same (b := range l l_exclusive r r_exclusive) (Key.at_ofString hl) hspared
        rw [hscan, Option.map_some, Option.some.injEq] at hstep
        exact hstep ▸ ih

theorem scan_read_only_iff {l r : List UInt8} {l_exclusive r_exclusive : Bool}
    (hreach : Reach Masstree.stepOp (· = .new) (fun m op => m.sparedOp op = true) m) (hl : l ≠ []) :
    ScanReadOnly m (range l l_exclusive r r_exclusive) ↔
      m.onlyReads (range l l_exclusive r r_exclusive) = true := by
  obtain ⟨sh, hok, hnamed⟩ := named_reach (reach_calls hreach)
  have hleft : (range l l_exclusive r r_exclusive).left_key.At [] := Key.at_ofString hl
  constructor
  · rintro ⟨status, result, m', hscan, hget, -⟩
    obtain ⟨status', h', hscan', hdrains, hvisited, -⟩ := hok.scan hleft
    obtain rfl : m' = ⟨h', m.root⟩ := by
      rw [hscan, Option.some.injEq, Prod.mk.injEq, Prod.mk.injEq] at hscan'
      exact hscan'.2.2
    refine List.all_eq_true.mpr ?_
    intro s hs
    obtain ⟨p, i, hlisted, hi, hslot, hdr⟩ := hvisited s hs
    by_contra hlong
    have hlong : s.longSuffix = true := by simpa using hlong
    have hlink : s.layer? = none := by
      have hlive := hok.ok.live hlisted
      cases hlive with
      | short v hlen => rfl
      | long v hne hsize hslices => rfl
      | layer q => cases hlong
    obtain ⟨k, v, hk, -, -, hkey, hfound⟩ := hok.scanKey_named hnamed hlisted hlink
    have hlost := hok.get_drained hdrains hk hlisted hi hslot hdr hlong hkey
    rw [hget k hk, hfound] at hlost
    cases hlost
  · intro honly
    obtain ⟨status, hscan⟩ := hok.scan_same hleft honly
    exact ⟨status, _, m, hscan, fun k hk => rfl, status, m, hscan⟩

/-- The tree of some calls and scans. -/
def Masstree.afterOps (ops : List (Op V)) : Masstree V := (exec Masstree.stepOp .new ops).getD .new

theorem scan_read_only_short_suffix :
    let m : Masstree Nat := .afterOps [.call (.insert_value (sharedKey 1) 1), .scan [1] false [20] false]
    ScanReadOnly m (range [1] false [20] false) ↔ m.onlyReads (range [1] false [20] false) = true := by
  exact scan_read_only_iff (reach_getD_of_admits rfl (by decide +kernel) (by decide +kernel)) (by decide)

/-- A key of eighteen bytes is not found after the scan. -/
theorem scan_not_read_only :
    ¬ ∀ m : Masstree Nat, Reach Masstree.stepOp (· = .new) anyStep m → ∀ l l_exclusive r r_exclusive,
      l ≠ [] → r ≠ [] → ScanReadOnly m (range l l_exclusive r r_exclusive) := by
  intro hall
  obtain ⟨status, result, m', hscan, hget, -⟩ :=
    hall (.afterOps [.call (.insert_value (sharedKey 1 ++ sharedKey 2) 7)])
      (reach_getD_of_admits rfl (admits_anyStep _ _) (by decide +kernel)) [1] false [20] false (by decide) (by decide)
  have hlost : ((Masstree.afterOps [.call (.insert_value (sharedKey 1 ++ sharedKey 2) 7)]).scan
      (range [1] false [20] false)).map (fun r => r.2.2.get_value (.ofString (sharedKey 1 ++ sharedKey 2))) =
        some (some (none : Option Nat)) := by
    decide +kernel
  have hfound : (Masstree.afterOps [.call (.insert_value (sharedKey 1 ++ sharedKey 2) 7)]).get_value
      (.ofString (sharedKey 1 ++ sharedKey 2)) = some (some 7) := by
    decide +kernel
  rw [hscan, Option.map_some, Option.some.injEq, hget _ (by decide), hfound] at hlost
  cases hlost

end Cassa.Masstree

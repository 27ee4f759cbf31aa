import Cassa.Masstree.Border
import Cassa.Masstree.Version

/-!
# Searches without a lock

One border node that any number of threads read while others, one after the other, hold its
lock. Every load of `searchLinkOrValueWithIndex` and every store of a section between `lock` and
`unlock` is a step of its own. A search keeps its result if `operator^` finds the version as it
was before the first load; otherwise it begins anew.

`setIsRoot` takes no lock. `BigSuffix` is read under its own mutex, in one step.
-/

namespace Cassa.Masstree.OptimisticRead

open Cassa.Lib.Runs

variable {V : Type}

instance (key : Key) : Decidable key.Wf :=
  decidable_of_iff (key.cursor < key.slices.length ∧ (1 ≤ key.lastSliceSize ∧ key.lastSliceSize ≤ 8) ∧
    ∀ s ∈ key.slices, s < 2 ^ 64) ⟨fun h => ⟨h.1, h.2.1, h.2.2⟩, fun h => ⟨h.cursor, h.size, h.slices⟩⟩

inductive Store (V : Type) where
  | setInserting
  | setSplitting
  | setDeleted
  | setPermutation (permutation : List Nat)
  | setKeyLen (i len : Nat)
  | setKeySlice (i slice : Nat)
  | setLV (i : Nat) (lv : LinkOrValue V)
  | setSuffix (i : Nat) (suffix : Option BigSuffix)

namespace Store

/-- What becomes of the arrays. -/
def apply (n : Node V) : Store V → Node V
  | .setPermutation permutation => { n with permutation := permutation }
  | .setKeyLen i len => n.setKeyLen i len
  | .setKeySlice i slice => n.setSlot i { n.slot i with key_slice := slice }
  | .setLV i lv => n.setLV i lv
  | .setSuffix i suffix => n.setSlot i { n.slot i with suffix := suffix }
  | _ => n

/-- What becomes of the version word; `none` where an assertion fails. -/
def onVersion (v : Version) : Store V → Option Version
  | .setInserting => v.step (.setInserting true)
  | .setSplitting => v.step (.setSplitting true)
  | .setDeleted => v.step (.setDeleted true)
  | _ => some v

def isMemory : Store V → Bool
  | .setInserting | .setSplitting | .setDeleted => false
  | _ => true

/-- The store makes a key into a link or a link into a key, or changes the suffix of a key. -/
def converts (n : Node V) : Store V → Bool
  | .setKeyLen i len => decide (key_len_unstable ≤ len ∨ key_len_unstable ≤ (n.slot i).key_len)
  | .setSuffix i _ => decide (i ∈ n.permutation)
  | _ => false

end Store

/-- What a slot can hold next to others of its slice: a key of each length that ends here, and one
key that goes on or link. -/
def kind (s : Slot V) : Option Nat :=
  if 1 ≤ s.key_len ∧ s.key_len ≤ 8 then some s.key_len
  else if s.key_len = key_len_has_suffix ∨ s.key_len = key_len_unstable ∨ s.key_len = key_len_layer then some 9
  else none

/-- No two slots that are listed hold the same. -/
def Distinct (n : Node V) : Prop :=
  ∀ i ∈ n.permutation, ∀ j ∈ n.permutation, (n.slot i).key_slice = (n.slot j).key_slice →
    kind (n.slot i) = kind (n.slot j) → kind (n.slot i) ≠ none → i = j

instance (n : Node V) : Decidable (Distinct n) :=
  inferInstanceAs (Decidable (∀ i ∈ n.permutation, ∀ j ∈ n.permutation, (n.slot i).key_slice = (n.slot j).key_slice →
    kind (n.slot i) = kind (n.slot j) → kind (n.slot i) ≠ none → i = j))

/-- Every slot that is listed holds something, and no two the same. -/
structure WellListed (n : Node V) : Prop where
  nodup : n.permutation.Nodup
  holds : ∀ i ∈ n.permutation, kind (n.slot i) ≠ none
  distinct : Distinct n

instance (n : Node V) : Decidable (WellListed n) :=
  decidable_of_iff (n.permutation.Nodup ∧ (∀ i ∈ n.permutation, kind (n.slot i) ≠ none) ∧ Distinct n)
    ⟨fun h => ⟨h.1, h.2.1, h.2.2⟩, fun h => ⟨h.nodup, h.holds, h.distinct⟩⟩

/-- What `insert_to_border` stores in the slot. -/
def fillStores (key : Key) (value : V) (i : Nat) : List (Store V) :=
  let cursor := key.getCurrentSlice
  .setSuffix i none ::
    if 1 ≤ cursor.size ∧ cursor.size ≤ 7 then
      [.setKeyLen i cursor.size, .setKeySlice i cursor.slice, .setLV i (.value value)]
    else if key.hasNext then
      [.setKeySlice i cursor.slice, .setKeyLen i key_len_has_suffix,
        .setSuffix i (some (.from_ key (key.cursor + 1))), .setLV i (.value value)]
    else [.setKeyLen i 8, .setKeySlice i cursor.slice, .setLV i (.value value)]

/-- `insert_to_border`, with the slot that `insertPoint` has found. -/
def insertStores (n : Node V) (key : Key) (value : V) (i : Nat) : List (Store V) :=
  (if n.isKeyRemoved i then [.setInserting] else []) ++ fillStores key value i ++
    [.setPermutation (n.permutation.insertIdx (insertionPoint n key.getCurrentSlice.slice) i)]

/-- `markKeyRemoved`, and what follows it in `remove`. -/
def removeStores (n : Node V) (i : Nat) : List (Store V) :=
  [.setKeyLen i ((n.slot i).key_len + 9), .setPermutation (n.permutation.erase i)] ++
    if n.permutation.erase i = [] then [.setDeleted] else []

/-- `handle_break_invariant` -/
def newLayerStores (i : Nat) (n1 : Ptr) : List (Store V) :=
  [.setKeyLen i key_len_unstable, .setLV i (.link n1), .setKeyLen i key_len_layer, .setSuffix i none]

/-- The stores of `handle_delete_layer_in_remove` in the upper node. -/
def collapseStores (i : Nat) (upper_suffix : BigSuffix) (lv : LinkOrValue V) : List (Store V) :=
  [.setKeyLen i key_len_unstable, .setSuffix i (some upper_suffix), .setLV i lv, .setKeyLen i key_len_has_suffix]

/-- Those in the border node of the layer that goes away. Its suffix is used again above. -/
def dissolveStores (n : Node V) (i : Nat) : List (Store V) :=
  (if (n.slot i).key_len = key_len_has_suffix then
    [.setSuffix i ((n.slot i).suffix.map (·.insertTop (n.slot i).key_slice))] else []) ++
    [.setLV i .null, .setSuffix i none, .setDeleted]

/-- What a thread does between `lock` and `unlock`. -/
inductive Section (V : Type) where
  /-- it does not find what it is looking for, or finds it and leaves it -/
  | search
  | insert (key : Key) (value : V)
  | remove (key : Key)
  | newLayer (key : Key) (n1 : Ptr)
  | collapse (next_layer : Ptr) (upper_suffix : BigSuffix) (lv : LinkOrValue V)
  | dissolve
  /-- the layer below has got another root -/
  | relink (next_layer root : Ptr)
  /-- `split`, whatever it stores -/
  | split (stores : List (Store V))

/-- The slot of the link to a layer. -/
def linkSlot (n : Node V) (next_layer : Ptr) : Option Nat :=
  (n.findNextLayerIndex next_layer).filter fun i => i ∈ n.permutation ∧ (n.slot i).key_len = key_len_layer

/-- The stores that follow from what the thread finds in the node; `none` where the section is
not for this node. -/
def Section.stores (n : Node V) : Section V → Option (List (Store V))
  | .search => some []
  | .insert key value =>
    if key.Wf ∧ (n.searchLinkOrValueWithIndex key).1 = .NOTFOUND ∧ check_break_invariant n key = none ∧
        n.permutation.length ≠ 15 then n.insertPoint.map (insertStores n key value)
    else none
  | .remove key =>
    if key.Wf ∧ (n.searchLinkOrValueWithIndex key).1 = .VALUE then
      some (removeStores n (n.searchLinkOrValueWithIndex key).2.2)
    else none
  | .newLayer key n1 =>
    (check_break_invariant n key).bind fun i =>
      if (n.slot i).key_len = key_len_has_suffix then some (newLayerStores i n1) else none
  | .collapse next_layer upper_suffix lv => (linkSlot n next_layer).map (collapseStores · upper_suffix lv)
  | .dissolve =>
    match n.permutation with
    | [i] => if 1 ≤ (n.slot i).key_len ∧ (n.slot i).key_len ≤ 9 then some (dissolveStores n i) else none
    | _ => none
  | .relink next_layer root => (linkSlot n next_layer).map fun i => [.setLV i (.link root)]
  | .split stores =>
    if stores.all Store.isMemory ∧ WellListed (stores.foldl Store.apply n) then some (.setSplitting :: stores) else none

inductive Pc (V : Type) where
  | permutation
  /-- the loop, with the slots that are left -/
  | slice (rest : List Nat)
  /-- `getKeyLen(trueIndex) == current.size` -/
  | size (i : Nat) (rest : List Nat)
  | hasSuffix (i : Nat) (rest : List Nat)
  | isSame (i : Nat) (rest : List Nat)
  | isLayer (i : Nat) (rest : List Nat)
  | isUnstable (i : Nat) (rest : List Nat)
  | lv (result : Node.SearchResult) (i : Nat)
  /-- the comparison of the versions -/
  | version (result : Node.SearchResult) (lv : LinkOrValue V)
  | returned (result : Node.SearchResult) (lv : LinkOrValue V)
  deriving DecidableEq

def Pc.comparing : Pc V → Bool
  | .version _ _ => true
  | _ => false

/-- What a search finds if nothing is stored while it runs. -/
def lookup (n : Node V) (key : Key) : Node.SearchResult × LinkOrValue V :=
  ((n.searchLinkOrValueWithIndex key).1, (n.searchLinkOrValueWithIndex key).2.1)

structure Reader (V : Type) where
  key : Key
  version : Version
  pc : Pc V
  /-- what the node has held for the key since the version was read, step by step -/
  held : List (Node.SearchResult × LinkOrValue V)
  /-- the sections with `inserting` and with `splitting` that have ended since, and the conversions -/
  inserts : Nat
  splits : Nat
  conversions : Nat

/-- The slot has the suffix that is left of the key. -/
def sameSuffix (n : Node V) (key : Key) (i : Nat) : Bool := (n.slot i).suffix.any (·.isSame key (key.cursor + 1))

/-- The next load; `none` where the search is over, or begins anew. -/
def Reader.load (v : Version) (n : Node V) (x : Reader V) : Option (Reader V) :=
  let goto (pc : Pc V) : Option (Reader V) := some { x with pc := pc }
  match x.pc with
  | .permutation => goto (.slice n.permutation)
  | .slice [] => goto (.version .NOTFOUND .null)
  | .slice (i :: rest) =>
    if (n.slot i).key_slice = x.key.getCurrentSlice.slice then
      goto (if x.key.hasNext then .hasSuffix i rest else .size i rest)
    else goto (.slice rest)
  | .size i rest => goto (if (n.slot i).key_len = x.key.getCurrentSlice.size then .lv .VALUE i else .slice rest)
  | .hasSuffix i rest =>
    goto (if (n.slot i).key_len = key_len_has_suffix then .isSame i rest else .isLayer i rest)
  | .isSame i rest => goto (if sameSuffix n x.key i then .lv .VALUE i else .isLayer i rest)
  | .isLayer i rest => goto (if (n.slot i).key_len = key_len_layer then .lv .LAYER i else .isUnstable i rest)
  | .isUnstable i rest =>
    goto (if (n.slot i).key_len = key_len_unstable then .version .UNSTABLE .null else .slice rest)
  | .lv result i => goto (.version result (n.slot i).lv)
  | .version result lv => if v.xor x.version = 0 then goto (.returned result lv) else none
  | .returned .UNSTABLE _ => goto .permutation
  | .returned _ _ => none

def Reader.see (n : Node V) (x : Reader V) : Reader V := { x with held := x.held ++ [lookup n x.key] }

structure State (V : Type) where
  version : Version
  /-- the arrays; the flags are in `version` -/
  node : Node V
  /-- the stores that the thread with the lock has still to make -/
  writer : Option (List (Store V))
  readers : Nat → Option (Reader V)

inductive Action (V : Type) where
  | lock (sec : Section V)
  | store
  | unlock
  | setIsRoot (is_root : Bool)
  | stableVersion (r : Nat) (key : Key)
  | load (r : Nat)

/-- Before a store every reader notes whether it converts a slot, and after it what the node holds. -/
def Reader.onStore (n : Node V) (st : Store V) (x : Reader V) : Reader V :=
  Reader.see (st.apply n) { x with conversions := x.conversions + (st.converts n).toNat }

def Reader.onUnlock (v : Version) (x : Reader V) : Reader V :=
  { x with
    inserts := x.inserts + v.inserting.toNat
    splits := x.splits + v.splitting.toNat }

def step (s : State V) : Action V → Option (State V)
  | .lock sec =>
    match s.writer, s.version.step .lock, if s.version.deleted then some [] else sec.stores s.node with
    | none, some v, some stores => some { s with version := v, writer := some stores }
    | _, _, _ => none
  | .store =>
    match s.writer with
    | some (st :: rest) => (st.onVersion s.version).map fun v => {
        version := v
        node := st.apply s.node
        writer := some rest
        readers := fun r => (s.readers r).map (Reader.onStore s.node st) }
    | _ => none
  | .unlock =>
    match s.writer with
    | some [] => (s.version.step .unlock).map fun v => { s with
        version := v
        writer := none
        readers := fun r => (s.readers r).map (Reader.onUnlock s.version) }
    | _ => none
  | .setIsRoot is_root => (s.version.step (.setIsRoot is_root)).map fun v => { s with version := v }
  | .stableVersion r key =>
    if (s.readers r).isNone ∧ s.version.inserting = false ∧ s.version.splitting = false ∧ key.Wf then
      let x : Reader V := ⟨key, s.version, .permutation, [lookup s.node key], 0, 0, 0⟩
      some { s with readers := Function.update s.readers r (some x) }
    else none
  | .load r =>
    (s.readers r).map fun x => { s with readers := Function.update s.readers r (x.load s.version s.node) }

/-- A node that is at rest. -/
structure Init (s : State V) : Prop where
  writer : s.writer = none
  locked : s.version.locked = false
  inserting : s.version.inserting = false
  splitting : s.version.splitting = false
  listed : WellListed s.node
  readers : ∀ r, s.readers r = none

/-- Of what `operator^` cannot see nothing has happened when the versions are compared: a split,
which leaves no trace in `body`, as many reuses of slots as `v_insert` can count, and for a key
that goes on behind this slice a conversion. -/
def Undisturbed (s : State V) : Action V → Prop
  | .load r => ∀ x ∈ s.readers r, x.pc.comparing = true →
      x.splits = 0 ∧ x.inserts < 2 ^ 16 ∧ (x.key.hasNext = true → x.conversions = 0)
  | _ => True

instance (s : State V) (a : Action V) : Decidable (Undisturbed s a) :=
  match a with
  | .load r => inferInstanceAs (Decidable (∀ x ∈ s.readers r, x.pc.comparing = true →
      x.splits = 0 ∧ x.inserts < 2 ^ 16 ∧ (x.key.hasNext = true → x.conversions = 0)))
  | .lock _ | .store | .unlock | .setIsRoot _ | .stableVersion _ _ => isTrue trivial

section

variable {n n' : Node V} {key : Key} {i j : Nat}

/-- The slot decides the search. -/
def Found (n : Node V) (key : Key) (i : Nat) : Prop :=
  (n.slot i).key_slice = key.getCurrentSlice.slice ∧
    (key.hasNext = true → (n.slot i).key_len = key_len_has_suffix ∧ sameSuffix n key i = true ∨
      (n.slot i).key_len = key_len_layer ∨ (n.slot i).key_len = key_len_unstable) ∧
    (key.hasNext = false → (n.slot i).key_len = key.getCurrentSlice.size)

/-- The decision. -/
def foundAt (n : Node V) (key : Key) (i : Nat) : Node.SearchResult × LinkOrValue V :=
  if key.hasNext = false ∨ (n.slot i).key_len = key_len_has_suffix then (.VALUE, (n.slot i).lv)
  else if (n.slot i).key_len = key_len_layer then (.LAYER, (n.slot i).lv)
  else (.UNSTABLE, .null)

theorem foundAt_eq {result : Node.SearchResult} (h : (foundAt n key i).1 = result) (hne : result ≠ .UNSTABLE) :
    foundAt n key i = (result, (n.slot i).lv) := by
  unfold foundAt at h ⊢
  split
  · rw [if_pos ‹_›] at h
    rw [← h]
  · rw [if_neg ‹_›] at h
    split
    · rw [if_pos ‹_›] at h
      rw [← h]
    · rw [if_neg ‹_›] at h
      exact absurd h.symm hne

theorem found_congr (h : n'.slot i = n.slot i) : Found n' key i ↔ Found n key i := by
  simp only [Found, sameSuffix, h]

theorem size_le (hk : key.Wf) (hn : key.hasNext = false) :
    1 ≤ key.getCurrentSlice.size ∧ key.getCurrentSlice.size ≤ 8 := by
  rw [Key.size_eq hn]
  exact hk.size

theorem Found.kind_eq (hk : key.Wf) (h : Found n key i) :
    kind (n.slot i) = some (if key.hasNext then 9 else key.getCurrentSlice.size) := by
  obtain ⟨-, hlong, hshort⟩ := h
  cases hn : key.hasNext with
  | false =>
    have hlen := hshort hn
    have hsize := size_le hk hn
    rw [kind, if_pos (hlen ▸ hsize), hlen]
    rfl
  | true =>
    have hlen : (n.slot i).key_len = key_len_has_suffix ∨ (n.slot i).key_len = key_len_unstable ∨
        (n.slot i).key_len = key_len_layer := by
      rcases hlong hn with ⟨h, -⟩ | h | h
      · exact Or.inl h
      · exact Or.inr (Or.inr h)
      · exact Or.inr (Or.inl h)
    have hnot : ¬ (1 ≤ (n.slot i).key_len ∧ (n.slot i).key_len ≤ 8) := by
      rcases hlen with h | h | h <;> rw [h] <;> decide
    rw [kind, if_neg hnot, if_pos hlen]
    rfl

theorem Distinct.unique (hd : Distinct n) (hk : key.Wf) (hi : i ∈ n.permutation) (hj : j ∈ n.permutation)
    (hfi : Found n key i) (hfj : Found n key j) : i = j := by
  refine hd i hi j hj (hfi.1.trans hfj.1.symm) ((hfi.kind_eq hk).trans (hfj.kind_eq hk).symm) ?_
  rw [hfi.kind_eq hk]
  exact Option.some_ne_none _

theorem searchValue_found {l : List Nat} (hn : key.hasNext = false) (hi : i ∈ l) (hf : Found n key i)
    (honly : ∀ j ∈ l, Found n key j → j = i) :
    n.searchValue key.getCurrentSlice l = (.VALUE, (n.slot i).lv, i) := by
  have hfound : ∀ j, Found n key j ↔
      (n.slot j).key_slice = key.getCurrentSlice.slice ∧ (n.slot j).key_len = key.getCurrentSlice.size := by
    intro j
    simp [Found, hn]
  rcases n.searchValue_cases key.getCurrentSlice l with ⟨j, hj, hmatch, he⟩ | ⟨hnone, -⟩
  · rw [he, honly j hj ((hfound j).mpr hmatch)]
  · exact absurd ((hfound i).mp hf) (hnone i hi)

theorem searchLink_found {l : List Nat} (hn : key.hasNext = true) (hi : i ∈ l) (hf : Found n key i)
    (honly : ∀ j ∈ l, Found n key j → j = i) :
    ((n.searchLink key l).1, (n.searchLink key l).2.1) = foundAt n key i := by
  induction l with
  | nil => cases hi
  | cons j l ih =>
    by_cases hfj : Found n key j
    · obtain rfl := honly j List.mem_cons_self hfj
      obtain ⟨hslice, hlong, -⟩ := hfj
      rw [Node.searchLink, if_pos hslice, foundAt]
      rcases hlong hn with ⟨hlen, hsame⟩ | hlen | hlen
      · rw [if_pos ⟨hlen, hsame⟩, if_pos (Or.inr hlen)]
      · have hne : ¬ (n.slot j).key_len = key_len_has_suffix := by rw [hlen]; decide
        rw [if_neg (fun h => hne h.1), if_pos hlen, if_neg (by simp [hn, hne]), if_pos hlen]
      · have hne : ¬ (n.slot j).key_len = key_len_has_suffix := by rw [hlen]; decide
        have hnl : ¬ (n.slot j).key_len = key_len_layer := by rw [hlen]; decide
        rw [if_neg (fun h => hne h.1), if_neg hnl, if_pos hlen, if_neg (by simp [hn, hne]), if_neg hnl]
    · have hi : i ∈ l := by
        rcases List.mem_cons.mp hi with rfl | hi
        · exact absurd hf hfj
        · exact hi
      rw [← ih hi fun k hk => honly k (List.mem_cons_of_mem _ hk)]
      have hskip : n.searchLink key (j :: l) = n.searchLink key l := by
        rw [Node.searchLink]
        by_cases hslice : (n.slot j).key_slice = key.getCurrentSlice.slice
        · simp only [Found, hslice, hn, true_and, forall_const, Bool.true_eq_false, false_implies, and_true,
            not_or, sameSuffix] at hfj
          rw [if_pos hslice, if_neg hfj.1, if_neg hfj.2.1, if_neg hfj.2.2]
        · rw [if_neg hslice]
      rw [hskip]

theorem lookup_of_found (hd : Distinct n) (hk : key.Wf) (hi : i ∈ n.permutation) (hf : Found n key i) :
    lookup n key = foundAt n key i := by
  have honly : ∀ j ∈ n.permutation, Found n key j → j = i := fun j hj hfj => hd.unique hk hj hi hfj hf
  unfold lookup Node.searchLinkOrValueWithIndex
  cases hn : key.hasNext with
  | false =>
    rw [if_neg Bool.false_ne_true, searchValue_found hn hi hf honly, foundAt, if_pos (Or.inl hn)]
  | true =>
    rw [if_pos rfl]
    exact searchLink_found hn hi hf honly

theorem lookup_of_not_found (h : ∀ i ∈ n.permutation, ¬ Found n key i) : lookup n key = (.NOTFOUND, .null) := by
  unfold lookup Node.searchLinkOrValueWithIndex
  generalize n.permutation = l at h
  cases hn : key.hasNext with
  | false =>
    rw [if_neg Bool.false_ne_true]
    rcases n.searchValue_cases key.getCurrentSlice l with ⟨j, hj, hmatch, -⟩ | ⟨-, he⟩
    · exact absurd ⟨hmatch.1, fun hn' => absurd (hn.symm.trans hn') Bool.false_ne_true, fun _ => hmatch.2⟩ (h j hj)
    · rw [he]
  | true =>
    rw [if_pos rfl]
    induction l with
    | nil => rfl
    | cons j l ih =>
      have hj := h j List.mem_cons_self
      have ih := ih fun k hk => h k (List.mem_cons_of_mem _ hk)
      rw [Node.searchLink]
      by_cases hslice : (n.slot j).key_slice = key.getCurrentSlice.slice
      · simp only [Found, hslice, hn, true_and, forall_const, Bool.true_eq_false, false_implies, and_true,
          not_or, sameSuffix] at hj
        rw [if_pos hslice, if_neg hj.1, if_neg hj.2.1, if_neg hj.2.2]
        exact ih
      · rw [if_neg hslice]
        exact ih

/-- A search that finds nothing has met no slot that decides. -/
theorem not_found_of_lookup (hd : Distinct n) (hk : key.Wf) (h : (lookup n key).1 = .NOTFOUND) :
    ∀ i ∈ n.permutation, ¬ Found n key i := by
  intro i hi hf
  rw [lookup_of_found hd hk hi hf, foundAt] at h
  split at h
  · cases h
  split at h
  · cases h
  · cases h

end

/-- A slot whose key was removed; it is not used again without `inserting`. -/
def Removed (s : Slot V) : Prop := 10 ≤ s.key_len ∧ s.key_len ≤ 18

/-- A slot that a search may have found in the permutation. -/
def Old (n : Node V) (i : Nat) : Prop := i ∈ n.permutation ∨ Removed (n.slot i)

/-- The length of a key that goes on, or of a link. -/
def LongLen (len : Nat) : Prop := len = key_len_has_suffix ∨ len = key_len_unstable ∨ len = key_len_layer

/-- What a store without `inserting` and `splitting` respects. -/
def StoreOk (n : Node V) : Store V → Prop
  | .setPermutation permutation => ∀ j ∈ n.permutation, j ∈ permutation ∨ Removed (n.slot j)
  | .setKeyLen i len => ¬ Old n i ∨ 1 ≤ (n.slot i).key_len ∧ (n.slot i).key_len ≤ 9 ∧ len = (n.slot i).key_len + 9 ∨
      LongLen (n.slot i).key_len ∧ LongLen len ∧ (Store.setKeyLen i len).converts n
  | .setKeySlice i _ => ¬ Old n i
  | .setLV i _ => ¬ Old n i ∨ ¬ Removed (n.slot i)
  | .setSuffix i _ => ¬ Old n i ∨ i ∈ n.permutation
  | _ => True

/-- The slot after a store. `long` is for a key that goes on behind this slice, and then nothing is
converted. -/
inductive Kept (long : Bool) (s s' : Slot V) : Prop
  | same (h : s' = s)
  | removed (hlen : 1 ≤ s.key_len ∧ s.key_len ≤ 9) (h : s' = { s with key_len := s.key_len + 9 })
  | stored (hlen : ¬ Removed s) (lv : LinkOrValue V) (h : s' = { s with lv := lv })
  | converted (hshort : long = false) (hlv : s'.lv = s.lv) (hslice : s'.key_slice = s.key_slice)
      (hlen : s'.key_len = s.key_len ∨ LongLen s.key_len ∧ LongLen s'.key_len)

section

variable {n : Node V} {key : Key} {st : Store V} {i j : Nat} {long : Bool}

@[simp] theorem slot_setSlot (s : Slot V) : (n.setSlot i s).slot j = if j = i then s else n.slot j := by
  by_cases h : j = i
  · subst h
    simp [Node.setSlot]
  · simp [Node.setSlot, h]

/-- A slot that a search may have found stays one, and keeps what `Kept` says. -/
theorem StoreOk.kept (hok : StoreOk n st) (hconv : long = true → st.converts n = false) (hold : Old n j) :
    Old (st.apply n) j ∧ Kept long (n.slot j) ((st.apply n).slot j) := by
  cases st with
  | setInserting => exact ⟨hold, .same rfl⟩
  | setSplitting => exact ⟨hold, .same rfl⟩
  | setDeleted => exact ⟨hold, .same rfl⟩
  | setPermutation permutation =>
    refine ⟨?_, .same rfl⟩
    rcases hold with hj | hj
    · exact hok j hj
    · exact Or.inr hj
  | setKeyLen i len =>
    by_cases hji : j = i
    · subst hji
      rcases hok with hfree | ⟨h₁, h₂, rfl⟩ | ⟨hfrom, hto, hc⟩
      · exact absurd hold hfree
      · refine ⟨Or.inr ?_, .removed ⟨h₁, h₂⟩ (by simp [Store.apply, Node.setKeyLen])⟩
        simp only [Removed, Store.apply, Node.setKeyLen, slot_setSlot, if_pos]
        omega
      · have hshort : long = false := by
          by_contra hlong
          exact Bool.noConfusion ((hconv (by simpa using hlong)).symm.trans hc)
        refine ⟨hold.imp id fun hr => ?_, .converted hshort ?_ ?_ (Or.inr ⟨hfrom, ?_⟩)⟩
        · rcases hfrom with h | h | h <;> rw [Removed, h] at hr <;> exact absurd hr (by decide)
        · simp [Store.apply, Node.setKeyLen]
        · simp [Store.apply, Node.setKeyLen]
        · simpa [Store.apply, Node.setKeyLen] using hto
    · have hs : ((Store.setKeyLen i len).apply n).slot j = n.slot j := by simp [Store.apply, Node.setKeyLen, hji]
      exact ⟨by rw [Old, hs]; exact hold, .same hs⟩
  | setKeySlice i slice =>
    have hji : j ≠ i := fun h => hok (h ▸ hold)
    have hs : ((Store.setKeySlice i slice).apply n).slot j = n.slot j := by simp [Store.apply, hji]
    exact ⟨by rw [Old, hs]; exact hold, .same hs⟩
  | setLV i lv =>
    by_cases hji : j = i
    · subst hji
      have hs : ((Store.setLV j lv).apply n).slot j = { n.slot j with lv := lv } := by simp [Store.apply, Node.setLV]
      have hlen : ¬ Removed (n.slot j) := hok.resolve_left (not_not_intro hold)
      exact ⟨by rw [Old, hs]; exact hold, .stored hlen lv hs⟩
    · have hs : ((Store.setLV i lv).apply n).slot j = n.slot j := by simp [Store.apply, Node.setLV, hji]
      exact ⟨by rw [Old, hs]; exact hold, .same hs⟩
  | setSuffix i suffix =>
    by_cases hji : j = i
    · subst hji
      have hj : j ∈ n.permutation := hok.resolve_left (not_not_intro hold)
      have hs : ((Store.setSuffix j suffix).apply n).slot j = { n.slot j with suffix := suffix } := by
        simp [Store.apply]
      have hshort : long = false := by
        by_contra hlong
        have := hconv (by simpa using hlong)
        simp [Store.converts, hj] at this
      exact ⟨Or.inl hj, .converted hshort (by rw [hs]) (by rw [hs]) (Or.inl (by rw [hs]))⟩
    · have hs : ((Store.setSuffix i suffix).apply n).slot j = n.slot j := by simp [Store.apply, hji]
      exact ⟨by rw [Old, hs]; exact hold, .same hs⟩

theorem not_removed_of_found (hk : key.Wf) (h : Found n key i) : ¬ Removed (n.slot i) := by
  have hkind := h.kind_eq hk
  intro hr
  unfold kind at hkind
  obtain ⟨h₁, h₂⟩ := hr
  rw [if_neg (by omega), if_neg (by unfold key_len_has_suffix key_len_unstable key_len_layer; omega)] at hkind
  cases hkind

theorem Found.listed (hk : key.Wf) (h : Found n key i) (hold : Old n i) : i ∈ n.permutation :=
  hold.resolve_right (not_removed_of_found hk h)

theorem Kept.slice {s s' : Slot V} (h : Kept long s s') : s'.key_slice = s.key_slice := by
  cases h with
  | same h => rw [h]
  | removed hlen h => rw [h]
  | stored hlen lv h => rw [h]
  | converted hshort hlv hslice hlen => exact hslice

theorem Kept.isRemoved {s s' : Slot V} (h : Kept long s s') (hr : Removed s) : Removed s' := by
  cases h with
  | same h => exact h ▸ hr
  | removed hlen h =>
    obtain ⟨h₁, h₂⟩ := hr
    omega
  | stored hlen lv h => exact absurd hr hlen
  | converted hshort hlv hslice hlen =>
    rcases hlen with h | ⟨h, -⟩
    · rw [Removed, h]
      exact hr
    · rcases h with h | h | h <;> rw [Removed, h] at hr <;> exact absurd hr (by decide)

theorem LongLen.not_size {len : Nat} (hk : key.Wf) (hn : key.hasNext = false) (h : LongLen len) :
    len ≠ key.getCurrentSlice.size := by
  have := (size_le hk hn).2
  rcases h with h | h | h <;> rw [h] <;> intro he <;> rw [← he] at this <;> exact absurd this (by decide)

/-- The slot that decided either still does, or its key has been removed. -/
theorem Found.kept {n' : Node V} (hk : key.Wf) (h : Found n key j) (hkept : Kept key.hasNext (n.slot j) (n'.slot j)) :
    Found n' key j ∨ Removed (n'.slot j) := by
  cases hkept with
  | same hs => exact Or.inl ((found_congr hs).mpr h)
  | removed hlen hs =>
    right
    simp only [Removed, hs]
    omega
  | stored hlen lv hs =>
    left
    simpa only [Found, sameSuffix, hs] using h
  | converted hshort hlv hslice hlen =>
    rcases hlen with hsame | ⟨hlong, -⟩
    · refine Or.inl ⟨hslice.trans h.1, fun hn => ?_, fun hn => hsame.trans (h.2.2 hn)⟩
      exact Bool.noConfusion (hshort.symm.trans hn)
    · exact absurd (h.2.2 hshort) (hlong.not_size hk hshort)

/-- No slot comes to decide. -/
theorem Found.of_kept {n' : Node V} (hk : key.Wf) (h : Found n' key j)
    (hkept : Kept key.hasNext (n.slot j) (n'.slot j)) : Found n key j := by
  cases hkept with
  | same hs => exact (found_congr hs).mp h
  | removed hlen hs =>
    refine absurd ?_ (not_removed_of_found hk h)
    simp only [Removed, hs]
    omega
  | stored hlen lv hs => simpa only [Found, sameSuffix, hs] using h
  | converted hshort hlv hslice hlen =>
    rcases hlen with hsame | ⟨-, hlong⟩
    · refine ⟨hslice.symm.trans h.1, fun hn => ?_, fun hn => hsame.symm.trans (h.2.2 hn)⟩
      exact Bool.noConfusion (hshort.symm.trans hn)
    · exact absurd (h.2.2 hshort) (hlong.not_size hk hshort)

/-- No store changes both the slots and the permutation. -/
theorem apply_slot_or_permutation (n : Node V) (st : Store V) :
    (st.apply n).slot = n.slot ∨ (st.apply n).permutation = n.permutation := by
  cases st with
  | setPermutation permutation => exact Or.inl rfl
  | _ => exact Or.inr rfl

/-- When the slot that decided does so no longer, the key is not found. -/
theorem StoreOk.lookup_of_removed (hok : StoreOk n st) (hconv : key.hasNext = true → st.converts n = false)
    (hd : Distinct n) (hk : key.Wf) (hold : Old n j) (hf : Found n key j) (hr : Removed ((st.apply n).slot j)) :
    lookup (st.apply n) key = (.NOTFOUND, .null) := by
  have hperm : (st.apply n).permutation = n.permutation := by
    refine (apply_slot_or_permutation n st).resolve_left fun hslot => ?_
    rw [hslot] at hr
    exact not_removed_of_found hk hf hr
  apply lookup_of_not_found
  intro i hi hfi
  rw [hperm] at hi
  have hfi' : Found n key i := hfi.of_kept hk (hok.kept hconv (Or.inl hi)).2
  obtain rfl := hd.unique hk hi (hf.listed hk hold) hfi' hf
  exact not_removed_of_found hk hfi hr

end

/-- The slots that the loop has still to look at. If the one that decides is not among them, the
key was missing at some time. -/
structure Left (n : Node V) (key : Key) (held : List (Node.SearchResult × LinkOrValue V)) (rest : List Nat) : Prop where
  old : ∀ j ∈ rest, Old n j
  found : (.NOTFOUND, .null) ∈ held ∨ ∃ j ∈ rest, Found n key j

/-- The slot has the slice, and a key that goes on is looked for. -/
structure Inside (n : Node V) (key : Key) (held : List (Node.SearchResult × LinkOrValue V)) (i : Nat)
    (rest : List Nat) : Prop where
  slice : (n.slot i).key_slice = key.getCurrentSlice.slice
  left : Left n key held (i :: rest)

/-- What a search that has not been disturbed knows before each load. -/
def Facts (n : Node V) (key : Key) (held : List (Node.SearchResult × LinkOrValue V)) : Pc V → Prop
  | .permutation => True
  | .slice rest => Left n key held rest
  | .size i rest => key.hasNext = false ∧ Inside n key held i rest
  | .hasSuffix i rest => key.hasNext = true ∧ Inside n key held i rest
  | .isSame i rest => key.hasNext = true ∧ Inside n key held i rest ∧
      ((n.slot i).key_len = key_len_has_suffix ∨ Removed (n.slot i)) ∧
      (sameSuffix n key i = true → (.VALUE, (n.slot i).lv) ∈ held)
  | .isLayer i rest => key.hasNext = true ∧ Inside n key held i rest ∧
      ¬ ((n.slot i).key_len = key_len_has_suffix ∧ sameSuffix n key i = true)
  | .isUnstable i rest => key.hasNext = true ∧ Inside n key held i rest ∧
      ¬ ((n.slot i).key_len = key_len_has_suffix ∧ sameSuffix n key i = true) ∧ (n.slot i).key_len ≠ key_len_layer
  | .lv result i => Old n i ∧ (result, (n.slot i).lv) ∈ held ∧
      (Removed (n.slot i) ∨ Found n key i ∧ (foundAt n key i).1 = result ∧ result ≠ .UNSTABLE)
  | .version result lv => (result, lv) ∈ held
  | .returned result lv => (result, lv) ∈ held

section

variable {n : Node V} {key : Key} {held : List (Node.SearchResult × LinkOrValue V)} {st : Store V} {i j : Nat}
  {rest : List Nat} {pc : Pc V}

/-- The slot does not decide. -/
theorem Left.skip (h : Left n key held (i :: rest)) (hnot : ¬ Found n key i) : Left n key held rest where
  old := fun j hj => h.old j (List.mem_cons_of_mem _ hj)
  found := by
    rcases h.found with hmem | ⟨j, hj, hf⟩
    · exact Or.inl hmem
    · rcases List.mem_cons.mp hj with rfl | hj
      · exact absurd hf hnot
      · exact Or.inr ⟨j, hj, hf⟩

/-- What a store leaves of it, where `held` then has what the node has come to hold. -/
theorem Left.store (h : Left n key held rest) (hok : StoreOk n st) (hconv : key.hasNext = true → st.converts n = false)
    (hd : Distinct n) (hk : key.Wf) : Left (st.apply n) key (held ++ [lookup (st.apply n) key]) rest where
  old := fun j hj => (hok.kept hconv (h.old j hj)).1
  found := by
    rcases h.found with hmem | ⟨j, hj, hf⟩
    · exact Or.inl (List.mem_append_left _ hmem)
    · rcases hf.kept hk (hok.kept hconv (h.old j hj)).2 with hf' | hr
      · exact Or.inr ⟨j, hj, hf'⟩
      · left
        rw [hok.lookup_of_removed hconv hd hk (h.old j hj) hf hr]
        exact List.mem_append_right _ List.mem_cons_self

theorem Inside.store (h : Inside n key held i rest) (hok : StoreOk n st)
    (hconv : key.hasNext = true → st.converts n = false) (hd : Distinct n) (hk : key.Wf) :
    Inside (st.apply n) key (held ++ [lookup (st.apply n) key]) i rest where
  slice := (hok.kept hconv (h.left.old i List.mem_cons_self)).2.slice.trans h.slice
  left := h.left.store hok hconv hd hk

/-- For a key that goes on, nothing is converted: the length and the suffix of a slot stay, or its
key is removed. -/
theorem StoreOk.kept_long (hok : StoreOk n st) (hconv : key.hasNext = true → st.converts n = false)
    (hn : key.hasNext = true) (hold : Old n i) :
    ((st.apply n).slot i).suffix = (n.slot i).suffix ∧
      (((st.apply n).slot i).key_len = (n.slot i).key_len ∨
        ((st.apply n).slot i).lv = (n.slot i).lv ∧ Removed ((st.apply n).slot i)) := by
  cases (hok.kept hconv hold).2 with
  | same hs => rw [hs]; exact ⟨rfl, Or.inl rfl⟩
  | removed hlen hs =>
    refine ⟨by rw [hs], Or.inr ⟨by rw [hs], ?_⟩⟩
    simp only [Removed, hs]
    omega
  | stored hlen lv hs => rw [hs]; exact ⟨rfl, Or.inl rfl⟩
  | converted hshort hlv hslice hlen => exact Bool.noConfusion (hshort.symm.trans hn)

theorem facts_store (hok : StoreOk n st) (hconv : key.hasNext = true → st.converts n = false) (hd : Distinct n)
    (hd' : Distinct (st.apply n)) (hk : key.Wf) (h : Facts n key held pc) :
    Facts (st.apply n) key (held ++ [lookup (st.apply n) key]) pc := by
  have hlookup : ∀ i, Old n i → Found (st.apply n) key i →
      foundAt (st.apply n) key i ∈ held ++ [lookup (st.apply n) key] := by
    intro i hold hf
    rw [← lookup_of_found hd' hk (hf.listed hk (hok.kept hconv hold).1) hf]
    exact List.mem_append_right _ List.mem_cons_self
  cases pc with
  | permutation => trivial
  | slice rest => exact Left.store h hok hconv hd hk
  | size i rest => exact ⟨h.1, h.2.store hok hconv hd hk⟩
  | hasSuffix i rest => exact ⟨h.1, h.2.store hok hconv hd hk⟩
  | isSame i rest =>
    obtain ⟨hn, hin, hlen, hsame⟩ := h
    have hold := hin.left.old i List.mem_cons_self
    have hin' := hin.store hok hconv hd hk
    obtain ⟨hsuffix, hkept⟩ := hok.kept_long hconv hn hold
    have hs : sameSuffix (st.apply n) key i = sameSuffix n key i := by rw [sameSuffix, sameSuffix, hsuffix]
    refine ⟨hn, hin', ?_, fun hsame' => ?_⟩
    · rcases hlen with hlen | hr
      · exact hkept.imp (·.trans hlen) (·.2)
      · exact Or.inr ((hok.kept hconv hold).2.isRemoved hr)
    · by_cases hlen' : ((st.apply n).slot i).key_len = key_len_has_suffix
      · have hf : Found (st.apply n) key i :=
          ⟨hin'.slice, fun _ => Or.inl ⟨hlen', hsame'⟩, fun hn' => Bool.noConfusion (hn'.symm.trans hn)⟩
        have hat : foundAt (st.apply n) key i = (.VALUE, ((st.apply n).slot i).lv) := if_pos (Or.inr hlen')
        exact hat ▸ hlookup i hold hf
      · have hlv : ((st.apply n).slot i).lv = (n.slot i).lv := by
          cases (hok.kept hconv hold).2 with
          | same hs => rw [hs]
          | removed hlen hs => rw [hs]
          | stored hlen'' lv hs =>
            rw [hs] at hlen'
            exact absurd (hlen.resolve_right hlen'') hlen'
          | converted hshort hlv hslice hlen => exact hlv
        rw [hlv]
        exact List.mem_append_left _ (hsame (hs ▸ hsame'))
  | isLayer i rest =>
    obtain ⟨hn, hin, hnot⟩ := h
    have hold := hin.left.old i List.mem_cons_self
    have hin' := hin.store hok hconv hd hk
    refine ⟨hn, hin', fun ⟨hlen, hs⟩ => hnot ?_⟩
    have hf : Found (st.apply n) key i :=
      ⟨hin'.slice, fun _ => Or.inl ⟨hlen, hs⟩, fun hn' => Bool.noConfusion (hn'.symm.trans hn)⟩
    obtain ⟨hsuffix, hkept⟩ := hok.kept_long hconv hn hold
    have hlen' := hkept.resolve_right fun h => not_removed_of_found hk hf h.2
    exact ⟨hlen'.symm.trans hlen, by rw [sameSuffix, ← hsuffix]; exact hs⟩
  | isUnstable i rest =>
    obtain ⟨hn, hin, hnot, hlayer⟩ := h
    have hold := hin.left.old i List.mem_cons_self
    have hin' := hin.store hok hconv hd hk
    obtain ⟨hsuffix, hkept⟩ := hok.kept_long hconv hn hold
    refine ⟨hn, hin', fun ⟨hlen, hs⟩ => hnot ?_, fun hlen => hlayer ?_⟩
    · have hf : Found (st.apply n) key i :=
        ⟨hin'.slice, fun _ => Or.inl ⟨hlen, hs⟩, fun hn' => Bool.noConfusion (hn'.symm.trans hn)⟩
      have hlen' := hkept.resolve_right fun h => not_removed_of_found hk hf h.2
      exact ⟨hlen'.symm.trans hlen, by rw [sameSuffix, ← hsuffix]; exact hs⟩
    · have hf : Found (st.apply n) key i :=
        ⟨hin'.slice, fun _ => Or.inr (Or.inl hlen), fun hn' => Bool.noConfusion (hn'.symm.trans hn)⟩
      exact (hkept.resolve_right fun h => not_removed_of_found hk hf h.2).symm.trans hlen
  | lv result i =>
    obtain ⟨hold, hmem, hat⟩ := h
    obtain ⟨hold', hkept⟩ := hok.kept hconv hold
    have hlv : Removed ((st.apply n).slot i) → ((st.apply n).slot i).lv = (n.slot i).lv := by
      intro hr
      cases hkept with
      | same hs => rw [hs]
      | removed hlen hs => rw [hs]
      | stored hlen lv hs =>
        rw [hs] at hr
        exact absurd hr hlen
      | converted hshort hlv hslice hlen => exact hlv
    have hgone : Removed ((st.apply n).slot i) → Facts (st.apply n) key (held ++ [lookup (st.apply n) key]) (.lv result i) :=
      fun hr => ⟨hold', (hlv hr).symm ▸ List.mem_append_left _ hmem, Or.inl hr⟩
    rcases hat with hr | ⟨hf, hres, hne⟩
    · exact hgone (hkept.isRemoved hr)
    · rcases hf.kept hk hkept with hf' | hr
      · have hres' : (foundAt (st.apply n) key i).1 = result := by
          rw [← hres]
          cases hn : key.hasNext with
          | false => rw [foundAt, foundAt, if_pos (Or.inl hn), if_pos (Or.inl hn)]
          | true =>
            have hlen := (hok.kept_long hconv hn hold).2.resolve_right fun h => not_removed_of_found hk hf' h.2
            simp only [foundAt, hlen, apply_ite Prod.fst]
        have hat : foundAt (st.apply n) key i = (result, ((st.apply n).slot i).lv) :=
          foundAt_eq hres' hne
        exact ⟨hold', hat ▸ hlookup i hold hf', Or.inr ⟨hf', hres', hne⟩⟩
      · exact hgone hr
  | version result lv => exact List.mem_append_left _ h
  | returned result lv => exact List.mem_append_left _ h

theorem facts_load {v : Version} {x y : Reader V} (hk : x.key.Wf) (hd : Distinct n)
    (hhere : lookup n x.key ∈ x.held) (h : Facts n x.key x.held x.pc) (hload : x.load v n = some y) :
    Facts n x.key x.held y.pc := by
  have hlookup : ∀ i, Old n i → Found n x.key i → foundAt n x.key i ∈ x.held := by
    intro i hold hf
    rw [← lookup_of_found hd hk (hf.listed hk hold) hf]
    exact hhere
  unfold Reader.load at hload
  cases hpc : x.pc with
  | permutation =>
    obtain rfl : _ = y := by simpa [hpc] using hload
    refine ⟨fun j hj => Or.inl hj, ?_⟩
    by_cases hf : ∃ j ∈ n.permutation, Found n x.key j
    · exact Or.inr hf
    · left
      rw [← lookup_of_not_found fun j hj hfj => hf ⟨j, hj, hfj⟩]
      exact hhere
  | slice rest =>
    rw [hpc] at h
    cases rest with
    | nil =>
      obtain rfl : _ = y := by simpa [hpc] using hload
      exact h.found.resolve_right fun ⟨_, hj, _⟩ => nomatch hj
    | cons i rest =>
      simp only [hpc] at hload
      split at hload
      · obtain rfl := Option.some.inj hload
        cases hn : x.key.hasNext with
        | true => exact ⟨hn, ‹_›, h⟩
        | false => exact ⟨hn, ‹_›, h⟩
      · obtain rfl := Option.some.inj hload
        exact Left.skip h fun hf => absurd hf.1 ‹_›
  | size i rest =>
    rw [hpc] at h
    obtain ⟨hn, hin⟩ := h
    simp only [hpc, Option.some.injEq] at hload
    subst hload
    by_cases hlen : (n.slot i).key_len = x.key.getCurrentSlice.size
    · have hf : Found n x.key i := ⟨hin.slice, fun hn' => Bool.noConfusion (hn.symm.trans hn'), fun _ => hlen⟩
      have hat : foundAt n x.key i = (.VALUE, (n.slot i).lv) := if_pos (Or.inl hn)
      have hold := hin.left.old i List.mem_cons_self
      simp only [if_pos hlen]
      exact ⟨hold, hat ▸ hlookup i hold hf, Or.inr ⟨hf, congrArg Prod.fst hat, nofun⟩⟩
    · simp only [if_neg hlen]
      exact hin.left.skip fun hf => hlen (hf.2.2 hn)
  | hasSuffix i rest =>
    rw [hpc] at h
    obtain ⟨hn, hin⟩ := h
    simp only [hpc, Option.some.injEq] at hload
    subst hload
    by_cases hlen : (n.slot i).key_len = key_len_has_suffix
    · simp only [if_pos hlen]
      refine ⟨hn, hin, Or.inl hlen, fun hsame => ?_⟩
      have hf : Found n x.key i :=
        ⟨hin.slice, fun _ => Or.inl ⟨hlen, hsame⟩, fun hn' => Bool.noConfusion (hn'.symm.trans hn)⟩
      have hat : foundAt n x.key i = (.VALUE, (n.slot i).lv) := if_pos (Or.inr hlen)
      exact hat ▸ hlookup i (hin.left.old i List.mem_cons_self) hf
    · simp only [if_neg hlen]
      exact ⟨hn, hin, fun h => hlen h.1⟩
  | isSame i rest =>
    rw [hpc] at h
    obtain ⟨hn, hin, hlen, hsame⟩ := h
    simp only [hpc, Option.some.injEq] at hload
    subst hload
    cases hs : sameSuffix n x.key i with
    | true =>
      refine ⟨hin.left.old i List.mem_cons_self, hsame hs, hlen.symm.imp id fun hlen => ?_⟩
      refine ⟨⟨hin.slice, fun _ => Or.inl ⟨hlen, hs⟩, fun hn' => Bool.noConfusion (hn'.symm.trans hn)⟩, ?_, nofun⟩
      rw [foundAt, if_pos (Or.inr hlen)]
    | false => exact ⟨hn, hin, fun h => Bool.noConfusion (hs.symm.trans h.2)⟩
  | isLayer i rest =>
    rw [hpc] at h
    obtain ⟨hn, hin, hnot⟩ := h
    simp only [hpc, Option.some.injEq] at hload
    subst hload
    by_cases hlen : (n.slot i).key_len = key_len_layer
    · have hf : Found n x.key i :=
        ⟨hin.slice, fun _ => Or.inr (Or.inl hlen), fun hn' => Bool.noConfusion (hn'.symm.trans hn)⟩
      have hne : ¬ (x.key.hasNext = false ∨ (n.slot i).key_len = key_len_has_suffix) := by
        rw [hn, hlen]
        decide
      have hat : foundAt n x.key i = (.LAYER, (n.slot i).lv) := by rw [foundAt, if_neg hne, if_pos hlen]
      have hold := hin.left.old i List.mem_cons_self
      simp only [if_pos hlen]
      exact ⟨hold, hat ▸ hlookup i hold hf, Or.inr ⟨hf, congrArg Prod.fst hat, nofun⟩⟩
    · simp only [if_neg hlen]
      exact ⟨hn, hin, hnot, hlen⟩
  | isUnstable i rest =>
    rw [hpc] at h
    obtain ⟨hn, hin, hnot, hlayer⟩ := h
    simp only [hpc, Option.some.injEq] at hload
    subst hload
    by_cases hlen : (n.slot i).key_len = key_len_unstable
    · have hf : Found n x.key i :=
        ⟨hin.slice, fun _ => Or.inr (Or.inr hlen), fun hn' => Bool.noConfusion (hn'.symm.trans hn)⟩
      have hne : ¬ (x.key.hasNext = false ∨ (n.slot i).key_len = key_len_has_suffix) := by
        rw [hn, hlen]
        decide
      have hat : foundAt n x.key i = (.UNSTABLE, .null) := by rw [foundAt, if_neg hne, if_neg hlayer]
      simp only [if_pos hlen, Facts]
      rw [← hat]
      exact hlookup i (hin.left.old i List.mem_cons_self) hf
    · simp only [if_neg hlen]
      exact hin.left.skip fun hf => by
        rcases hf.2.1 hn with h | h | h
        · exact hnot h
        · exact hlayer h
        · exact hlen h
  | lv result i =>
    rw [hpc] at h
    obtain rfl : _ = y := by simpa [hpc] using hload
    exact h.2.1
  | version result lv =>
    rw [hpc] at h
    simp only [hpc] at hload
    split at hload
    · obtain rfl := Option.some.inj hload
      exact h
    · cases hload
  | returned result lv =>
    cases result with
    | UNSTABLE =>
      obtain rfl : _ = y := by simpa [hpc] using hload
      trivial
    | _ => simp [hpc] at hload

end

def Store.dirties : Store V → Bool
  | .setInserting | .setSplitting => true
  | _ => false

/-- The stores that are left. As long as neither `inserting` nor `splitting` is set, each of them
leaves the node such that searches may go on; at the end it is well listed. -/
def Safe (dirty : Bool) (n : Node V) : List (Store V) → Prop
  | [] => WellListed n
  | st :: rest => (dirty = false → StoreOk n st) ∧ (dirty = false → st.dirties = false → Distinct (st.apply n)) ∧
      Safe (dirty || st.dirties) (st.apply n) rest

section

variable {n : Node V} {key : Key} {st : Store V} {i j : Nat} {s : Slot V} {rest : List (Store V)}

theorem safe_dirty : Safe true n rest ↔ WellListed (rest.foldl Store.apply n) := by
  induction rest generalizing n with
  | nil => rfl
  | cons st rest ih =>
    rw [Safe, Bool.true_or, ih, List.foldl_cons]
    simp

theorem Safe.cons (hclean : st.dirties = false) (hok : StoreOk n st) (hd : Distinct (st.apply n))
    (h : Safe false (st.apply n) rest) : Safe false n (st :: rest) :=
  ⟨fun _ => hok, fun _ _ => hd, by rwa [hclean, Bool.or_false]⟩

theorem kind_long (h : LongLen s.key_len) : kind s = some 9 := by
  rw [kind, if_neg (by rcases h with h | h | h <;> rw [h] <;> decide)]
  exact if_pos h

theorem kind_removed (h : Removed s) : kind s = none := by
  obtain ⟨h₁, h₂⟩ := h
  rw [kind, if_neg (by omega), if_neg (by unfold key_len_has_suffix key_len_unstable key_len_layer; omega)]

@[simp] theorem setSlot_setSlot (n : Node V) (i : Nat) (s s' : Slot V) : (n.setSlot i s).setSlot i s' = n.setSlot i s' := by
  simp [Node.setSlot]

/-- A slot that keeps what it holds. -/
theorem WellListed.setSlot (h : WellListed n) (hslice : s.key_slice = (n.slot i).key_slice)
    (hkind : kind s = kind (n.slot i)) : WellListed (n.setSlot i s) := by
  have hs : ∀ j, ((n.setSlot i s).slot j).key_slice = (n.slot j).key_slice := by
    intro j
    rw [slot_setSlot]
    split
    · rw [hslice, ‹j = i›]
    · rfl
  have hk : ∀ j, kind ((n.setSlot i s).slot j) = kind (n.slot j) := by
    intro j
    rw [slot_setSlot]
    split
    · rw [hkind, ‹j = i›]
    · rfl
  refine ⟨h.nodup, fun j hj => ?_, fun j hj k hk' h₁ h₂ h₃ => ?_⟩
  · rw [hk]
    exact h.holds j hj
  · rw [hs, hs] at h₁
    rw [hk, hk] at h₂
    rw [hk] at h₃
    exact h.distinct j hj k hk' h₁ h₂ h₃

/-- A slot is filled and listed. -/
theorem WellListed.insert {at_ : Nat} (h : WellListed n) (hi : i ∉ n.permutation) (hkind : kind s ≠ none)
    (hnew : ∀ j ∈ n.permutation, (n.slot j).key_slice = s.key_slice → kind (n.slot j) ≠ kind s)
    (hat : at_ ≤ n.permutation.length) :
    WellListed { n.setSlot i s with permutation := n.permutation.insertIdx at_ i } := by
  have hmem : ∀ j, j ∈ n.permutation.insertIdx at_ i → j = i ∨ j ∈ n.permutation := fun j hj =>
    (List.mem_insertIdx hat).mp hj
  have hslot : ∀ j ∈ n.permutation, (n.setSlot i s).slot j = n.slot j := fun j hj =>
    (slot_setSlot s).trans (if_neg fun hji : j = i => hi (hji ▸ hj))
  have hself : (n.setSlot i s).slot i = s := by rw [slot_setSlot, if_pos rfl]
  refine ⟨?_, fun j hj => ?_, fun j hj k hk h₁ h₂ h₃ => ?_⟩
  · exact (List.perm_insertIdx i n.permutation hat).nodup_iff.mpr (List.nodup_cons.mpr ⟨hi, h.nodup⟩)
  · change kind ((n.setSlot i s).slot j) ≠ none
    rcases hmem j hj with rfl | hj'
    · rwa [hself]
    · rw [hslot j hj']
      exact h.holds j hj'
  · change ((n.setSlot i s).slot j).key_slice = ((n.setSlot i s).slot k).key_slice at h₁
    change kind ((n.setSlot i s).slot j) = kind ((n.setSlot i s).slot k) at h₂
    change kind ((n.setSlot i s).slot j) ≠ none at h₃
    rcases hmem j hj with rfl | hj'
    · rcases hmem k hk with rfl | hk'
      · rfl
      · rw [hself, hslot k hk'] at h₁ h₂
        exact absurd h₂.symm (hnew k hk' h₁.symm)
    · rcases hmem k hk with rfl | hk'
      · rw [hself, hslot j hj'] at h₁ h₂
        exact absurd h₂ (hnew j hj' h₁)
      · rw [hslot j hj', hslot k hk'] at h₁ h₂
        rw [hslot j hj'] at h₃
        exact h.distinct j hj' k hk' h₁ h₂ h₃

theorem insertPoint_spec (h : n.insertPoint = some i) : (n.slot i).key_len = 0 ∨ Removed (n.slot i) := by
  have := List.find?_some h
  simpa [Removed] using this

theorem newSlot_key_slice (value : V) (slice start : Nat) (hslice : slice = key.getCurrentSlice.slice) :
    (newSlot key value slice start).key_slice = key.getCurrentSlice.slice := by
  unfold newSlot
  dsimp only
  split
  · rfl
  split
  · exact hslice
  · rfl

theorem newSlot_kind (hk : key.Wf) (value : V) (slice start : Nat) :
    kind (newSlot key value slice start) = some (if key.hasNext then 9 else key.getCurrentSlice.size) := by
  unfold newSlot
  cases hn : key.hasNext with
  | false =>
    have hsize := size_le hk hn
    by_cases h : 1 ≤ key.getCurrentSlice.size ∧ key.getCurrentSlice.size ≤ 7
    · simp only [if_pos h]
      exact if_pos hsize
    · simp only [if_neg h]
      have hsize8 : key.getCurrentSlice.size = 8 := by omega
      rw [hsize8]
      rfl
  | true =>
    have hsize8 : key.getCurrentSlice.size = 8 := by simp [Key.getCurrentSlice, Key.getCurrentSliceSize, hn]
    simp only [hsize8]
    rfl

theorem foldl_fillStores (n : Node V) (key : Key) (value : V) (i : Nat) :
    (fillStores key value i).foldl Store.apply n =
      n.setSlot i (newSlot key value key.getCurrentSlice.slice (key.cursor + 1)) := by
  unfold fillStores newSlot
  by_cases hsize : 1 ≤ key.getCurrentSlice.size ∧ key.getCurrentSlice.size ≤ 7 <;>
    by_cases hn : key.hasNext = true <;>
    simp [hsize, hn, Store.apply, Node.setKeyLen, Node.setLV]

/-- What the stores of an insertion add up to. -/
theorem foldl_insertStores (n : Node V) (key : Key) (value : V) (i : Nat) :
    (insertStores n key value i).foldl Store.apply n =
      { n.setSlot i (newSlot key value key.getCurrentSlice.slice (key.cursor + 1)) with
        permutation := n.permutation.insertIdx (insertionPoint n key.getCurrentSlice.slice) i } := by
  have hreuse : (if n.isKeyRemoved i then [Store.setInserting] else []).foldl Store.apply n = n := by
    split <;> rfl
  rw [insertStores, List.foldl_append, List.foldl_append, hreuse, foldl_fillStores]
  rfl

/-- Stores at a slot that is not listed, and may be used at once. -/
inductive AtFresh (i : Nat) : Store V → Prop
  | keyLen {len : Nat} (hlen : len ≤ 9) : AtFresh i (.setKeyLen i len)
  | keySlice (slice : Nat) : AtFresh i (.setKeySlice i slice)
  | lv (lv : LinkOrValue V) : AtFresh i (.setLV i lv)
  | suffix (suffix : Option BigSuffix) : AtFresh i (.setSuffix i suffix)

theorem fillStores_atFresh (value : V) : ∀ st ∈ fillStores key value i, AtFresh i st := by
  intro st hst
  unfold fillStores at hst
  dsimp only at hst
  rcases List.mem_cons.mp hst with rfl | hst
  · exact .suffix none
  split at hst
  · simp only [List.mem_cons, List.not_mem_nil, or_false] at hst
    rcases hst with rfl | rfl | rfl
    · exact .keyLen (by omega)
    · exact .keySlice _
    · exact .lv _
  split at hst
  · simp only [List.mem_cons, List.not_mem_nil, or_false] at hst
    rcases hst with rfl | rfl | rfl | rfl
    · exact .keySlice _
    · exact .keyLen (by decide)
    · exact .suffix _
    · exact .lv _
  · simp only [List.mem_cons, List.not_mem_nil, or_false] at hst
    rcases hst with rfl | rfl | rfl
    · exact .keyLen (by decide)
    · exact .keySlice _
    · exact .lv _

theorem Distinct.setSlot (hd : Distinct n) (hi : i ∉ n.permutation) (s : Slot V) : Distinct (n.setSlot i s) := by
  intro j hj k hk h₁ h₂ h₃
  have hji : j ≠ i := fun h => hi (h ▸ hj)
  have hki : k ≠ i := fun h => hi (h ▸ hk)
  rw [slot_setSlot, slot_setSlot, if_neg hji, if_neg hki] at h₁ h₂
  rw [slot_setSlot, if_neg hji] at h₃
  exact hd j hj k hk h₁ h₂ h₃

theorem Safe.append_fresh {l : List (Store V)} (hl : ∀ st ∈ l, AtFresh i st) (hd : Distinct n)
    (hi : i ∉ n.permutation) (hlen : (n.slot i).key_len ≤ 9) (h : Safe false (l.foldl Store.apply n) rest) :
    Safe false n (l ++ rest) := by
  induction l generalizing n with
  | nil => exact h
  | cons st l ih =>
    have hfree : ¬ Old n i := by
      rintro (hmem | ⟨h₁, -⟩)
      · exact hi hmem
      · omega
    have hat := hl st List.mem_cons_self
    have ih := ih (n := st.apply n) fun st hst => hl st (List.mem_cons_of_mem _ hst)
    cases hat with
    | keyLen hlen' =>
      refine .cons rfl (Or.inl hfree) (hd.setSlot hi _) (ih (hd.setSlot hi _) hi ?_ h)
      simpa [Store.apply, Node.setKeyLen] using hlen'
    | keySlice slice =>
      refine .cons rfl hfree (hd.setSlot hi _) (ih (hd.setSlot hi _) hi ?_ h)
      simpa [Store.apply] using hlen
    | lv lv =>
      refine .cons rfl (Or.inl hfree) (hd.setSlot hi _) (ih (hd.setSlot hi _) hi ?_ h)
      simpa [Store.apply, Node.setLV] using hlen
    | suffix suffix =>
      refine .cons rfl (Or.inl hfree) (hd.setSlot hi _) (ih (hd.setSlot hi _) hi ?_ h)
      simpa [Store.apply] using hlen

/-- None of the slots that are listed holds what the key needs. -/
theorem kind_ne_of_not_found (h : WellListed n) (hk : key.Wf)
    (hnot : (n.searchLinkOrValueWithIndex key).1 = .NOTFOUND) (hbreak : check_break_invariant n key = none)
    (hj : j ∈ n.permutation) (hslice : (n.slot j).key_slice = key.getCurrentSlice.slice) :
    kind (n.slot j) ≠ some (if key.hasNext then 9 else key.getCurrentSlice.size) := by
  have hnf := not_found_of_lookup h.distinct hk hnot j hj
  intro hkind
  unfold kind at hkind
  cases hn : key.hasNext with
  | false =>
    have hsize := size_le hk hn
    rw [hn, if_neg Bool.false_ne_true] at hkind
    split at hkind
    · exact hnf ⟨hslice, fun hn' => Bool.noConfusion (hn.symm.trans hn'), fun _ => Option.some.inj hkind⟩
    split at hkind
    · have := Option.some.inj hkind
      omega
    · cases hkind
  | true =>
    rw [hn, if_pos rfl] at hkind
    have hlong : LongLen (n.slot j).key_len := by
      split at hkind
      · have := Option.some.inj hkind
        omega
      split at hkind
      · assumption
      · cases hkind
    rw [check_break_invariant, if_pos hn, List.find?_eq_none] at hbreak
    rcases hlong with hlen | hlen | hlen
    · exact hbreak j hj (by simp [hlen, hslice])
    · exact hnf ⟨hslice, fun _ => Or.inr (Or.inr hlen), fun hn' => Bool.noConfusion (hn'.symm.trans hn)⟩
    · exact hbreak j hj (by simp [hlen, hslice])

theorem insertStores_safe (h : WellListed n) (hk : key.Wf) (value : V)
    (hnot : (n.searchLinkOrValueWithIndex key).1 = .NOTFOUND) (hbreak : check_break_invariant n key = none)
    (hpoint : n.insertPoint = some i) : Safe false n (insertStores n key value i) := by
  have hfree : kind (n.slot i) = none := by
    rcases insertPoint_spec hpoint with h | h
    · rw [kind, h]
      rfl
    · exact kind_removed h
  have hi : i ∉ n.permutation := fun hi => h.holds i hi hfree
  have hat : insertionPoint n key.getCurrentSlice.slice ≤ n.permutation.length :=
    (List.takeWhile_sublist _).length_le
  have hend : WellListed ((insertStores n key value i).foldl Store.apply n) := by
    have hkind := newSlot_kind hk value key.getCurrentSlice.slice (key.cursor + 1)
    rw [foldl_insertStores]
    refine h.insert hi (hkind ▸ Option.some_ne_none _) (fun j hj hslice hsame => ?_) hat
    rw [newSlot_key_slice value _ _ rfl] at hslice
    exact kind_ne_of_not_found h hk hnot hbreak hj hslice (hsame.trans hkind)
  by_cases hr : n.isKeyRemoved i = true
  · have hstores : insertStores n key value i = .setInserting :: (insertStores n key value i).tail := by
      rw [insertStores, if_pos hr]
      rfl
    rw [hstores] at hend ⊢
    refine ⟨fun _ => trivial, fun _ hc => Bool.noConfusion hc, ?_⟩
    exact safe_dirty.mpr hend
  · have hlen : (n.slot i).key_len = 0 := by
      refine (insertPoint_spec hpoint).resolve_right fun ⟨h₁, h₂⟩ => hr ?_
      simp [Node.isKeyRemoved, h₁, h₂]
    have hstores : insertStores n key value i = fillStores key value i ++
        [.setPermutation (n.permutation.insertIdx (insertionPoint n key.getCurrentSlice.slice) i)] := by
      rw [insertStores, if_neg hr, List.nil_append]
    rw [hstores, List.foldl_append] at hend
    rw [hstores]
    refine .append_fresh (fillStores_atFresh value) h.distinct hi (by omega) (.cons rfl ?_ hend.distinct hend)
    intro j hj
    rw [foldl_fillStores] at hj
    exact Or.inl ((List.mem_insertIdx hat).mpr (Or.inr hj))

theorem removeStores_safe (h : WellListed n) (hi : i ∈ n.permutation)
    (hlen : 1 ≤ (n.slot i).key_len ∧ (n.slot i).key_len ≤ 9) : Safe false n (removeStores n i) := by
  have hremoved : Removed ((n.setKeyLen i ((n.slot i).key_len + 9)).slot i) := by
    simp only [Removed, Node.setKeyLen, slot_setSlot, if_pos]
    omega
  have hother : ∀ j, j ≠ i → (n.setKeyLen i ((n.slot i).key_len + 9)).slot j = n.slot j := fun j hj => by
    simp [Node.setKeyLen, hj]
  have hmid : Distinct (n.setKeyLen i ((n.slot i).key_len + 9)) := by
    intro j hj k hk h₁ h₂ h₃
    have hji : j ≠ i := by
      rintro rfl
      exact h₃ (kind_removed hremoved)
    have hki : k ≠ i := by
      rintro rfl
      exact h₃ (h₂.trans (kind_removed hremoved))
    rw [hother j hji, hother k hki] at h₁ h₂
    rw [hother j hji] at h₃
    exact h.distinct j hj k hk h₁ h₂ h₃
  have hend : WellListed { n.setKeyLen i ((n.slot i).key_len + 9) with permutation := n.permutation.erase i } := by
    refine ⟨h.nodup.erase i, fun j hj => ?_, fun j hj k hk => ?_⟩
    · obtain ⟨hji, hj'⟩ := (h.nodup.mem_erase_iff).mp hj
      change kind ((n.setKeyLen i ((n.slot i).key_len + 9)).slot j) ≠ none
      rw [hother j hji]
      exact h.holds j hj'
    · exact hmid j (List.mem_of_mem_erase hj) k (List.mem_of_mem_erase hk)
  refine .cons rfl (Or.inr (Or.inl ⟨hlen.1, hlen.2, rfl⟩)) hmid (.cons rfl ?_ hend.distinct ?_)
  · intro j hj
    by_cases hji : j = i
    · exact Or.inr (hji ▸ hremoved)
    · exact Or.inl ((h.nodup.mem_erase_iff).mpr ⟨hji, hj⟩)
  · split
    · exact .cons rfl trivial hend.distinct hend
    · exact hend

/-- Stores at a slot that is listed and stays so. -/
inductive Rewrite (n : Node V) (i : Nat) : Store V → Prop
  | keyLen {len : Nat} (hfrom : LongLen (n.slot i).key_len) (hto : LongLen len)
      (hconv : key_len_unstable ≤ len ∨ key_len_unstable ≤ (n.slot i).key_len) : Rewrite n i (.setKeyLen i len)
  | lv (lv : LinkOrValue V) : Rewrite n i (.setLV i lv)
  | suffix (suffix : Option BigSuffix) : Rewrite n i (.setSuffix i suffix)

theorem Safe.rewrite (h : WellListed n) (hi : i ∈ n.permutation) (hst : Rewrite n i st)
    (hrest : WellListed (st.apply n) → Safe false (st.apply n) rest) : Safe false n (st :: rest) := by
  cases hst with
  | @keyLen len hfrom hto hconv =>
    have hkind : kind { n.slot i with key_len := len } = some 9 := kind_long hto
    have h' : WellListed (n.setKeyLen i len) := h.setSlot rfl (hkind.trans (kind_long hfrom).symm)
    exact .cons rfl (Or.inr (Or.inr ⟨hfrom, hto, by simpa [Store.converts] using hconv⟩)) h'.distinct (hrest h')
  | lv lv =>
    have h' : WellListed (n.setLV i lv) := h.setSlot rfl rfl
    exact .cons rfl (Or.inr fun hr => h.holds i hi (kind_removed hr)) h'.distinct (hrest h')
  | suffix suffix =>
    have h' : WellListed (n.setSlot i { n.slot i with suffix := suffix }) := h.setSlot rfl rfl
    exact .cons rfl (Or.inr hi) h'.distinct (hrest h')

@[simp] theorem apply_setKeyLen_key_len (len : Nat) : (((Store.setKeyLen i len).apply n).slot i).key_len = len := by
  simp [Store.apply, Node.setKeyLen]

@[simp] theorem apply_setLV_key_len (lv : LinkOrValue V) :
    (((Store.setLV i lv).apply n).slot i).key_len = (n.slot i).key_len := by
  simp [Store.apply, Node.setLV]

@[simp] theorem apply_setSuffix_key_len (suffix : Option BigSuffix) :
    (((Store.setSuffix i suffix).apply n).slot i).key_len = (n.slot i).key_len := by
  simp [Store.apply]

theorem newLayerStores_safe (h : WellListed n) (hi : i ∈ n.permutation) (hlen : (n.slot i).key_len = key_len_has_suffix)
    (n1 : Ptr) : Safe false n (newLayerStores i n1) := by
  refine .rewrite h hi (.keyLen (Or.inl hlen) (Or.inr (Or.inl rfl)) (Or.inl le_rfl)) fun h => ?_
  refine .rewrite h hi (.lv _) fun h => ?_
  refine .rewrite h hi (.keyLen (Or.inr (Or.inl (by simp))) (Or.inr (Or.inr rfl)) (Or.inl (by decide))) fun h => ?_
  exact .rewrite h hi (.suffix _) fun h => h

theorem collapseStores_safe (h : WellListed n) (hi : i ∈ n.permutation) (hlen : (n.slot i).key_len = key_len_layer)
    (upper_suffix : BigSuffix) (lv : LinkOrValue V) : Safe false n (collapseStores i upper_suffix lv) := by
  refine .rewrite h hi (.keyLen (Or.inr (Or.inr hlen)) (Or.inr (Or.inl rfl)) (Or.inl le_rfl)) fun h => ?_
  refine .rewrite h hi (.suffix _) fun h => ?_
  refine .rewrite h hi (.lv _) fun h => ?_
  exact .rewrite h hi (.keyLen (Or.inr (Or.inl (by simp))) (Or.inl rfl) (Or.inr (by simp))) fun h => h

theorem dissolveStores_safe (h : WellListed n) (hi : i ∈ n.permutation) : Safe false n (dissolveStores n i) := by
  have hlast : ∀ n : Node V, WellListed n → i ∈ n.permutation →
      Safe false n [.setLV i .null, .setSuffix i none, .setDeleted] := by
    intro n h hi
    refine .rewrite h hi (.lv _) fun h => .rewrite h hi (.suffix _) fun h => ?_
    exact .cons rfl trivial h.distinct h
  unfold dissolveStores
  split
  · exact .rewrite h hi (.suffix _) fun h => hlast _ h hi
  · exact hlast n h hi

theorem linkSlot_spec {next_layer : Ptr} (h : linkSlot n next_layer = some i) :
    i ∈ n.permutation ∧ (n.slot i).key_len = key_len_layer := by
  obtain ⟨-, hi⟩ := Option.filter_eq_some_iff.mp h
  simpa using hi

/-- A key that is found is one that the permutation lists. -/
theorem value_spec (hk : key.Wf) (h : (n.searchLinkOrValueWithIndex key).1 = .VALUE) :
    (n.searchLinkOrValueWithIndex key).2.2 ∈ n.permutation ∧
      1 ≤ (n.slot (n.searchLinkOrValueWithIndex key).2.2).key_len ∧
      (n.slot (n.searchLinkOrValueWithIndex key).2.2).key_len ≤ 9 := by
  unfold Node.searchLinkOrValueWithIndex at h ⊢
  cases hn : key.hasNext with
  | false =>
    rw [hn, if_neg Bool.false_ne_true] at h
    rw [if_neg Bool.false_ne_true]
    have hsize := size_le hk hn
    rcases n.searchValue_cases key.getCurrentSlice n.permutation with ⟨i, hi, ⟨-, hlen⟩, he⟩ | ⟨-, he⟩
    · rw [he]
      refine ⟨hi, ?_⟩
      rw [hlen]
      exact ⟨hsize.1, Nat.le_succ_of_le hsize.2⟩
    · rw [he] at h
      cases h
  | true =>
    rw [hn, if_pos rfl] at h
    rw [if_pos rfl]
    generalize n.permutation = l at h ⊢
    induction l with
    | nil => cases h
    | cons j l ih =>
      rw [Node.searchLink] at h ⊢
      have hrest : (n.searchLink key l).1 = .VALUE → _ := fun h => (ih h).imp_left (List.mem_cons_of_mem j)
      split at h
      · split at h
        · rw [if_pos ‹_›, if_pos ‹_›]
          refine ⟨List.mem_cons_self, ?_⟩
          rw [(‹_ ∧ _› : (n.slot j).key_len = key_len_has_suffix ∧ _).1]
          decide
        split at h
        · cases h
        split at h
        · cases h
        · rw [if_pos ‹_›, if_neg ‹_›, if_neg ‹_›, if_neg ‹_›]
          exact hrest h
      · rw [if_neg ‹_›]
        exact hrest h

theorem Section.safe {sec : Section V} {stores : List (Store V)} (h : WellListed n) (hsec : sec.stores n = some stores) :
    Safe false n stores := by
  cases sec with
  | search =>
    obtain rfl := Option.some.inj hsec
    exact h
  | insert key value =>
    simp only [Section.stores] at hsec
    split at hsec
    · obtain ⟨hk, hnot, hbreak, -⟩ := ‹_ ∧ _›
      obtain ⟨i, hpoint, rfl⟩ := Option.map_eq_some_iff.mp hsec
      exact insertStores_safe h hk value hnot hbreak hpoint
    · cases hsec
  | remove key =>
    simp only [Section.stores] at hsec
    split at hsec
    · obtain ⟨hk, hvalue⟩ := ‹_ ∧ _›
      obtain rfl := Option.some.inj hsec
      obtain ⟨hi, hlen⟩ := value_spec hk hvalue
      exact removeStores_safe h hi hlen
    · cases hsec
  | newLayer key n1 =>
    obtain ⟨i, hi, hstores⟩ := Option.bind_eq_some_iff.mp hsec
    split at hstores
    · obtain rfl := Option.some.inj hstores
      have hmem : i ∈ n.permutation := by
        unfold check_break_invariant at hi
        split at hi
        · exact List.mem_of_find?_eq_some hi
        · cases hi
      exact newLayerStores_safe h hmem ‹_› n1
    · cases hstores
  | collapse next_layer upper_suffix lv =>
    obtain ⟨i, hlink, rfl⟩ := Option.map_eq_some_iff.mp hsec
    obtain ⟨hi, hlen⟩ := linkSlot_spec hlink
    exact collapseStores_safe h hi hlen upper_suffix lv
  | dissolve =>
    simp only [Section.stores] at hsec
    split at hsec
    · rename_i i hperm
      split at hsec
      · obtain rfl := Option.some.inj hsec
        exact dissolveStores_safe h (hperm ▸ List.mem_cons_self)
      · cases hsec
    · cases hsec
  | relink next_layer root =>
    obtain ⟨i, hlink, rfl⟩ := Option.map_eq_some_iff.mp hsec
    exact .rewrite h (linkSlot_spec hlink).1 (.lv _) fun h => h
  | split stores =>
    simp only [Section.stores] at hsec
    split at hsec
    · obtain rfl := Option.some.inj hsec
      exact ⟨fun _ => trivial, fun _ hc => Bool.noConfusion hc, safe_dirty.mpr (‹_ ∧ _›).2⟩
    · cases hsec

end

def dirty (v : Version) : Bool := v.inserting || v.splitting

/-- Nothing has happened that could mislead the search. -/
structure Clean (v : Version) (x : Reader V) : Prop where
  version : dirty v = false
  inserts : x.inserts = 0
  splits : x.splits = 0
  conversions : x.key.hasNext = true → x.conversions = 0

structure ReaderInv (v : Version) (n : Node V) (x : Reader V) : Prop where
  wf : x.key.Wf
  stable : dirty x.version = false
  count : v.v_insert = x.version.v_insert + .ofNat x.inserts
  here : lookup n x.key ∈ x.held
  facts : Clean v x → Facts n x.key x.held x.pc
  returned : ∀ result lv, x.pc = .returned result lv → (result, lv) ∈ x.held

structure Inv (s : State V) : Prop where
  idle : s.writer = none → dirty s.version = false ∧ WellListed s.node
  busy : ∀ l, s.writer = some l → Safe (dirty s.version) s.node l
  distinct : dirty s.version = false → Distinct s.node
  readers : ∀ r x, s.readers r = some x → ReaderInv s.version s.node x

section

variable {v w : Version} {n : Node V} {st : Store V} {x y : Reader V} {s s' : State V} {a : Action V} {r : Nat}

theorem onVersion_spec (h : st.onVersion v = some w) : dirty w = (dirty v || st.dirties) ∧ w.v_insert = v.v_insert := by
  cases st with
  | setInserting =>
    obtain ⟨-, rfl⟩ : _ ∧ _ := by simpa [Store.onVersion, Version.step] using h
    simp [dirty, Store.dirties]
  | setSplitting =>
    obtain ⟨-, rfl⟩ : _ ∧ _ := by simpa [Store.onVersion, Version.step] using h
    simp [dirty, Store.dirties]
  | setDeleted =>
    obtain ⟨-, rfl⟩ : _ ∧ _ := by simpa [Store.onVersion, Version.step] using h
    simp [dirty, Store.dirties]
  | _ =>
    obtain rfl := Option.some.inj h
    simp [Store.dirties]

theorem load_eq (h : x.load v n = some y) : y = { x with pc := y.pc } := by
  unfold Reader.load at h
  cases hpc : x.pc with
  | slice rest =>
    cases rest with
    | nil =>
      simp only [hpc, Option.some.injEq] at h
      rw [← h]
    | cons i rest =>
      simp only [hpc] at h
      split at h <;> rw [← Option.some.inj h]
  | version result lv =>
    simp only [hpc] at h
    split at h
    · rw [← Option.some.inj h]
    · cases h
  | returned result lv =>
    cases result with
    | UNSTABLE =>
      simp only [hpc, Option.some.injEq] at h
      rw [← h]
    | _ => simp [hpc] at h
  | _ =>
    simp only [hpc, Option.some.injEq] at h
    rw [← h]

/-- A search returns what it has kept until the versions were compared. -/
theorem load_returned {result : Node.SearchResult} {lv : LinkOrValue V} (h : x.load v n = some y)
    (hpc : y.pc = .returned result lv) : x.pc = .version result lv ∧ v.xor x.version = 0 := by
  unfold Reader.load at h
  cases hx : x.pc with
  | slice rest =>
    cases rest with
    | nil =>
      simp only [hx, Option.some.injEq] at h
      rw [← h] at hpc
      cases hpc
    | cons i rest =>
      simp only [hx] at h
      split at h
      · rw [← Option.some.inj h] at hpc
        dsimp only at hpc
        split at hpc <;> cases hpc
      · rw [← Option.some.inj h] at hpc
        cases hpc
  | version result' lv' =>
    simp only [hx] at h
    split at h
    · rw [← Option.some.inj h] at hpc
      simp only [Pc.returned.injEq] at hpc
      obtain ⟨rfl, rfl⟩ := hpc
      exact ⟨rfl, ‹_›⟩
    · cases h
  | returned result' lv' =>
    cases result' with
    | UNSTABLE =>
      simp only [hx, Option.some.injEq] at h
      rw [← h] at hpc
      cases hpc
    | _ => simp [hx] at h
  | permutation =>
    simp only [hx, Option.some.injEq] at h
    rw [← h] at hpc
    cases hpc
  | lv result' i =>
    simp only [hx, Option.some.injEq] at h
    rw [← h] at hpc
    cases hpc
  | _ =>
    simp only [hx, Option.some.injEq] at h
    rw [← h] at hpc
    dsimp only at hpc
    split at hpc <;> cases hpc

theorem ReaderInv.load (h : ReaderInv v n x) (hd : dirty v = false → Distinct n)
    (hok : x.pc.comparing = true →
      x.splits = 0 ∧ x.inserts < 2 ^ 16 ∧ (x.key.hasNext = true → x.conversions = 0))
    (hload : x.load v n = some y) : ReaderInv v n y := by
  have hfacts : Clean v x → Facts n x.key x.held y.pc := fun hc =>
    facts_load h.wf (hd hc.version) h.here (h.facts hc) hload
  have hy := load_eq hload
  have hreturned : ∀ result lv, y.pc = .returned result lv → (result, lv) ∈ x.held := by
    intro result lv hpc
    obtain ⟨hx, hxor⟩ := load_returned hload hpc
    obtain ⟨hsplits, hlt, hconv⟩ := hok (by rw [hx]; rfl)
    obtain ⟨hflags, hins⟩ := (Version.body_eq_iff v x.version).mp (UInt32.xor_eq_zero_iff.mp hxor)
    have hzero : x.inserts = 0 := by
      have hnat := congrArg UInt16.toNat (h.count.symm.trans hins)
      have := x.version.v_insert.toNat_lt
      rw [UInt16.toNat_add, UInt16.toNat_ofNat', Nat.mod_eq_of_lt hlt] at hnat
      omega
    have hclean : dirty v = false := by
      have hi : v.inserting = x.version.inserting := congrArg Version.Flags.inserting hflags
      have hs : v.splitting = x.version.splitting := congrArg Version.Flags.splitting hflags
      rw [dirty, hi, hs]
      exact h.stable
    have := hfacts ⟨hclean, hzero, hsplits, hconv⟩
    rwa [hpc] at this
  rw [hy]
  exact ⟨h.wf, h.stable, h.count, h.here, fun hc => hfacts ⟨hc.version, hc.inserts, hc.splits, hc.conversions⟩, hreturned⟩

theorem ReaderInv.store (h : ReaderInv v n x) (hsafe : dirty v = false → StoreOk n st)
    (hd : dirty v = false → Distinct n) (hd' : dirty w = false → Distinct (st.apply n))
    (hw : st.onVersion v = some w) : ReaderInv w (st.apply n) (x.onStore n st) := by
  obtain ⟨hdirty, hins⟩ := onVersion_spec hw
  refine ⟨h.wf, h.stable, hins.trans h.count, List.mem_append_right _ List.mem_cons_self, fun hc => ?_,
    fun result lv hpc => List.mem_append_left _ (h.returned result lv hpc)⟩
  have hv : dirty v = false := by
    have := hdirty.symm.trans hc.version
    rw [Bool.or_eq_false_iff] at this
    exact this.1
  have hconv : x.key.hasNext = true → x.conversions + (st.converts n).toNat = 0 := hc.conversions
  have hx : Clean v x := ⟨hv, hc.inserts, hc.splits, fun hn => Nat.eq_zero_of_add_eq_zero_right (hconv hn)⟩
  refine facts_store (hsafe hv) (fun hn => ?_) (hd hv) (hd' hc.version) h.wf (h.facts hx)
  have := Nat.eq_zero_of_add_eq_zero_left (hconv hn)
  simpa using this

theorem ReaderInv.unlock (h : ReaderInv v n x) (hw : v.step .unlock = some w) : ReaderInv w n (x.onUnlock v) := by
  have hcount := Version.step_v_insert hw
  refine ⟨h.wf, h.stable, ?_, h.here, fun hc => ?_, h.returned⟩
  · change w.v_insert = x.version.v_insert + .ofNat (x.inserts + v.inserting.toNat)
    rw [hcount, h.count, UInt16.ofNat_add, UInt16.add_assoc]
    cases hi : v.inserting <;> simp [Version.flags, hi]
  · have hins : x.inserts + v.inserting.toNat = 0 := hc.inserts
    have hsplit : x.splits + v.splitting.toNat = 0 := hc.splits
    have hv : dirty v = false := by
      rw [dirty, Bool.or_eq_false_iff]
      constructor
      · simpa using Nat.eq_zero_of_add_eq_zero_left hins
      · simpa using Nat.eq_zero_of_add_eq_zero_left hsplit
    have hx : Clean v x := ⟨hv, Nat.eq_zero_of_add_eq_zero_right hins, Nat.eq_zero_of_add_eq_zero_right hsplit, hc.conversions⟩
    exact h.facts hx

theorem inv_init (h : Init s) : Inv s := by
  have hd : dirty s.version = false := by rw [dirty, h.inserting, h.splitting]; rfl
  refine ⟨fun _ => ⟨hd, h.listed⟩, fun l hl => ?_, fun _ => h.listed.distinct, fun r x hx => ?_⟩
  · rw [h.writer] at hl
    cases hl
  · rw [h.readers r] at hx
    cases hx

theorem inv_step (hi : Inv s) (hok : Undisturbed s a) (h : step s a = some s') : Inv s' := by
  cases a with
  | lock sec =>
    simp only [step] at h
    split at h
    · rename_i v stores hw hv hstores
      obtain rfl := Option.some.inj h
      obtain ⟨hclean, hlisted⟩ := hi.idle hw
      obtain ⟨-, rfl⟩ : _ ∧ _ := by simpa [Version.step] using hv
      have hsafe : Safe false s.node stores := by
        split at hstores
        · obtain rfl := Option.some.inj hstores
          exact hlisted
        · exact Section.safe hlisted hstores
      have hd : dirty { s.version with locked := true } = false := hclean
      refine ⟨by simp, fun l hl => ?_, fun _ => hlisted.distinct, fun r x hx => ?_⟩
      · obtain rfl := Option.some.inj hl
        rw [hd]
        exact hsafe
      · have := hi.readers r x hx
        exact ⟨this.wf, this.stable, this.count, this.here, fun hc => this.facts ⟨hclean, hc.inserts, hc.splits, hc.conversions⟩,
          this.returned⟩
    · cases h
  | store =>
    simp only [step] at h
    split at h
    · rename_i st rest hw
      obtain ⟨v, hv, rfl⟩ := Option.map_eq_some_iff.mp h
      obtain ⟨hdirty, -⟩ := onVersion_spec hv
      obtain ⟨hstore, hdistinct, hsafe⟩ := hi.busy _ hw
      have hd' : dirty v = false → Distinct (st.apply s.node) := by
        intro hc
        obtain ⟨h₁, h₂⟩ := Bool.or_eq_false_iff.mp (hdirty.symm.trans hc)
        exact hdistinct h₁ h₂
      refine ⟨by simp, fun l hl => ?_, hd', fun r x hx => ?_⟩
      · obtain rfl := Option.some.inj hl
        rw [hdirty]
        exact hsafe
      · obtain ⟨y, hy, rfl⟩ := Option.map_eq_some_iff.mp hx
        exact (hi.readers r y hy).store hstore hi.distinct hd' hv
    · cases h
  | unlock =>
    simp only [step] at h
    split at h
    · rename_i hw
      obtain ⟨v, hv, rfl⟩ := Option.map_eq_some_iff.mp h
      have hlisted : WellListed s.node := hi.busy [] hw
      have hclean : dirty v = false := by
        obtain ⟨-, rfl⟩ : _ ∧ _ := by simpa [Version.step] using hv
        rfl
      refine ⟨fun _ => ⟨hclean, hlisted⟩, by simp, fun _ => hlisted.distinct, fun r x hx => ?_⟩
      obtain ⟨y, hy, rfl⟩ := Option.map_eq_some_iff.mp hx
      exact (hi.readers r y hy).unlock hv
    · cases h
  | setIsRoot is_root =>
    simp only [step] at h
    obtain ⟨v, hv, rfl⟩ := Option.map_eq_some_iff.mp h
    obtain rfl := Option.some.inj hv
    refine ⟨hi.idle, hi.busy, hi.distinct, fun r x hx => ?_⟩
    have := hi.readers r x hx
    exact ⟨this.wf, this.stable, this.count, this.here,
      fun hc => this.facts ⟨hc.version, hc.inserts, hc.splits, hc.conversions⟩, this.returned⟩
  | stableVersion r key =>
    simp only [step] at h
    split at h
    · obtain ⟨-, hins, hsplit, hk⟩ := ‹_ ∧ _›
      obtain rfl := Option.some.inj h
      refine ⟨hi.idle, hi.busy, hi.distinct, fun r' x hx => ?_⟩
      by_cases hr : r' = r
      · subst hr
        simp only [Function.update_self, Option.some.injEq] at hx
        subst hx
        refine ⟨hk, ?_, by simp, List.mem_singleton.mpr rfl, fun _ => trivial, by simp⟩
        rw [dirty, hins, hsplit]
        rfl
      · simp only [Function.update_of_ne hr] at hx
        exact hi.readers r' x hx
    · cases h
  | load r =>
    simp only [step] at h
    obtain ⟨x, hx, rfl⟩ := Option.map_eq_some_iff.mp h
    refine ⟨hi.idle, hi.busy, hi.distinct, fun r' y hy => ?_⟩
    by_cases hr : r' = r
    · subst hr
      simp only [Function.update_self] at hy
      exact (hi.readers r' x hx).load hi.distinct (hok x hx) hy
    · simp only [Function.update_of_ne hr] at hy
      exact hi.readers r' y hy

end

def pair : Node Nat :=
  (((Node.newBorder : Node Nat).setSlot 0 ⟨1, 5, .value 50, none⟩).setSlot 1
    ⟨key_len_has_suffix, 6, .value 60, some ⟨[7], 1⟩⟩)

def atRest : State Nat := ⟨.atRest, { pair with permutation := [0, 1] }, none, fun _ => none⟩

theorem atRest_init : Init atRest := ⟨rfl, rfl, rfl, rfl, by decide, fun _ => rfl⟩

/-- The key is removed between the last comparison and the load of the value. -/
def overtaken : List (Action Nat) :=
  [.stableVersion 0 ⟨[5], 1, 0⟩, .load 0, .load 0, .load 0, .lock (.remove ⟨[5], 1, 0⟩), .store, .store, .unlock,
    .load 0, .load 0]

/-- A key gets a layer between the comparison of its suffix and the load of its value. -/
def linked : List (Action Nat) :=
  [.stableVersion 0 ⟨[6, 7], 1, 0⟩, .load 0, .load 0, .load 0, .load 0, .load 0, .lock (.newLayer ⟨[6, 8], 1, 0⟩ 3),
    .store, .store, .store, .store, .unlock, .load 0, .load 0]

theorem exec_linked :
    ((exec step atRest linked).bind fun s => (s.readers 0).map fun x => (x.pc, x.held)) =
      some (.returned .VALUE (.link 3),
        [(.VALUE, .value 60), (.UNSTABLE, .null), (.UNSTABLE, .null), (.LAYER, .link 3), (.LAYER, .link 3)]) := by
  decide +kernel

/-- Without the condition on conversions the link is taken for a value. -/
theorem link_returned_as_value :
    ∃ (s : State Nat) (x : Reader Nat), Reach step Init anyStep s ∧ s.readers 0 = some x ∧ x.pc = .returned .VALUE (.link 3) ∧
      (.VALUE, .link 3) ∉ x.held := by
  obtain ⟨s, hs, hx⟩ := Option.bind_eq_some_iff.mp exec_linked
  obtain ⟨x, hx, he⟩ := Option.map_eq_some_iff.mp hx
  obtain ⟨hpc, hheld⟩ := Prod.mk.inj he
  refine ⟨s, x, reach_of_exec atRest_init hs, hx, hpc, ?_⟩
  rw [hheld]
  decide

end Cassa.Masstree.OptimisticRead

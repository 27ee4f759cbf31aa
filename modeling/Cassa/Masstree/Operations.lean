import Cassa.Masstree.KeyOrder
import Cassa.Masstree.RemoveSpec
import Cassa.Lib.Runs

/-!
# The operations of the tree

`insert_value`, `remove_value` and `get_value` on a tree whose layers are in memory. The
two guards leave out the calls that reach one of two defects: a split that stores a wrong
slice, and a removal after which the root of a lower layer has lost its upper layer.
-/

set_option linter.dupNamespace false

namespace Cassa.Masstree

open Cassa.Lib.SearchTree
open Cassa.Lib.Runs

variable {V : Type}

namespace Key

theorem packSlice_lt {bytes : List UInt8} (h : bytes.length ≤ 8) : packSlice bytes < 2 ^ 64 := by
  have hlt := num_lt (pad bytes)
  rw [length_pad h] at hlt
  rw [packSlice_eq]
  exact hlt

theorem slices_lt (bytes : List UInt8) : ∀ s ∈ (ofString bytes).slices, s < 2 ^ 64 := by
  by_cases h : bytes = []
  · intro s hs
    rw [h, slices_ofString_nil] at hs
    cases hs
  · have hpos := List.length_pos_of_ne_nil h
    intro s hs
    rw [slices_ofString h] at hs
    rcases List.mem_cons.mp hs with rfl | hs
    · exact packSlice_lt (by simp)
    · exact slices_lt (bytes.drop 8) s hs
  termination_by bytes.length
  decreasing_by
    rw [List.length_drop]
    omega

theorem wf_ofString {bytes : List UInt8} (h : bytes ≠ []) : (ofString bytes).Wf where
  cursor := by
    rw [slices_ofString h]
    exact Nat.succ_pos _
  size := by
    rw [lastSliceSize_ofString bytes h, lastSize]
    omega
  slices := slices_lt bytes

/-- The constructor of `Key` does not fail. -/
def constructs (key : String) : Bool :=
  let lastSliceSize := (string_to_uint64t key.toUTF8.data.toList).2
  decide (1 ≤ lastSliceSize ∧ lastSliceSize ≤ 8)

theorem constructs_iff (key : String) : constructs key = true ↔ key ≠ "" := by
  have hempty : key.toUTF8.data.toList = [] ↔ key = "" := by
    rw [← String.utf8ByteSize_eq_zero_iff, ← List.length_eq_zero_iff]
    rfl
  rw [constructs, decide_eq_true_iff]
  constructor
  · rintro ⟨hsize, -⟩ rfl
    exact absurd hsize (by decide)
  · intro hne
    exact (wf_ofString (mt hempty.mp hne)).size

theorem ofString_inj {a b : List UInt8} (ha : a ≠ []) (hb : b ≠ []) (he : ofString a = ofString b) : a = b := by
  by_contra hne
  rcases lt_total_ofString ha hb hne with hlt | hlt
  · rw [he, lt_irrefl_ofString hb] at hlt
    cases hlt
  · rw [he, lt_irrefl_ofString hb] at hlt
    cases hlt

theorem at_ofString {bytes : List UInt8} (h : bytes ≠ []) : (ofString bytes).At [] :=
  ⟨wf_ofString h, List.take_zero⟩

/-- A key of at most eight bytes has one slice. -/
theorem hasNext_ofString {bytes : List UInt8} (h : bytes ≠ []) :
    (ofString bytes).hasNext = true ↔ 8 < bytes.length := by
  rw [hasNext_iff (wf_ofString h)]
  change (ofString bytes).slices.drop 1 ≠ [] ↔ _
  rw [slices_ofString h, List.drop_one, List.tail_cons]
  by_cases hd : bytes.drop 8 = []
  · rw [hd, slices_ofString_nil]
    simpa using hd
  · rw [slices_ofString hd]
    simpa using hd

end Key

structure TreeOk (m : Masstree V) (sh : Shape V) : Prop where
  ok : ShapeOk m.heap sh
  root : m.root = (sh []).map BTree.root

/-- The key and its last size, as `Holds` takes them. -/
def Key.id (key : Key) : List Nat × Nat := (key.slices, key.lastSliceSize)

section

variable {m : Masstree V} {sh : Shape V} {key : Key}

theorem ShapeOk.not_holds {h : Heap V} (hok : ShapeOk h sh) (hnone : sh [] = none) {K : List Nat × Nat} {v : V} :
    ¬ Holds sh K v := by
  rintro ⟨π, p, s, r, ⟨t, es, ht, -⟩, -, -⟩
  cases π with
  | nil =>
    rw [hnone] at ht
    cases ht
  | cons x ρ =>
    obtain ⟨-, -, -, ⟨t', es', ht', -⟩, -⟩ := hok.above (π := []) ht
    rw [hnone] at ht'
    cases ht'

theorem treeOk_new : TreeOk (.new : Masstree V) (fun _ => none) := by
  refine ⟨⟨nofun, nofun, nofun, ?_, nofun⟩, rfl⟩
  rintro ρ p s q ⟨t, es, ht, -⟩
  cases ht

/-- The lookup returns the value of the key. -/
theorem TreeOk.get_value (h : TreeOk m sh) (hk : key.At []) :
    ∃ o, m.get_value key = some o ∧ ∀ v, o = some v ↔ Holds sh key.id v := by
  unfold Masstree.get_value
  rw [h.root]
  cases hsh : sh [] with
  | none =>
    refine ⟨none, rfl, ?_⟩
    intro v
    exact iff_of_false nofun (h.ok.not_holds hsh)
  | some t =>
    have hfuel : key.slices.length ≤ key.cursor + Masstree.turns key := by
      unfold Masstree.turns
      omega
    exact h.ok.get hsh hk hfuel

/-- The call meets a full border node that splits with a wrong slice. -/
def Masstree.splitsLong (m : Masstree V) (key : Key) : Bool :=
  m.root.any fun root => longSplit (turns key) m.heap root key

/-- The border node of layer 0 links to a layer for the first slice of the key. -/
def Masstree.linked (m : Masstree V) (key : Key) : Bool :=
  m.root.any fun root => (findBorder m.heap root key).any fun p =>
    ((m.heap.mem p).searchLinkOrValueWithIndex key).1 == .LAYER

/-- A tree of one key. -/
theorem treeOk_start (hempty : m.root = none) (hk : key.At []) (value : V) :
    ∃ m' sh', m.insert_value key value = some (.OK, m') ∧ TreeOk m' sh' ∧
      ∀ K v, Holds sh' K v ↔ K = key.id ∧ v = value := by
  have hcur : key.cursor = 0 := hk.length.symm
  have hnode : start_new_tree key value = Node.single (slotFor key value) none := by
    rw [slotFor, hcur]
    rfl
  set h' := (m.heap.alloc (Node.single (slotFor key value) none)).2 with hh'
  have hmem : h'.mem m.heap.fresh = Node.single (slotFor key value) none := by
    rw [hh', mem_alloc, if_pos rfl]
  let sh' : Shape V := fun π => if π = [] then some (.leaf m.heap.fresh [slotFor key value]) else none
  have htop : sh' [] = some (.leaf m.heap.fresh [slotFor key value]) := rfl
  have hlayer : ∀ {π t}, sh' π = some t → π = [] ∧ t = .leaf m.heap.fresh [slotFor key value] := by
    intro π t ht
    dsimp only [sh'] at ht
    split at ht
    · exact ⟨‹_›, (Option.some.inj ht).symm⟩
    · cases ht
  have hlisted : ∀ {π p s}, Listed sh' π p s ↔ π = [] ∧ p = m.heap.fresh ∧ s = slotFor key value := by
    intro π p s
    constructor
    · rintro ⟨t, es, ht, hl, hs⟩
      obtain ⟨rfl, rfl⟩ := hlayer ht
      exact ⟨rfl, inLeaves_single.mp ⟨es, hl, hs⟩⟩
    · rintro ⟨rfl, hs⟩
      exact (listed_iff htop).mpr (inLeaves_single.mpr hs)
  refine ⟨⟨h', some m.heap.fresh⟩, sh', ?_, ⟨⟨?_, ?_, ?_, ?_, ?_⟩, rfl⟩, ?_⟩
  · rw [Masstree.insert_value, hempty, hnode]
    rfl
  · intro π t ht
    obtain ⟨-, rfl⟩ := hlayer ht
    exact layerOk_single (slotFor_live hk.wf value) (by rw [slotFor_key_slice hk.wf]; exact Key.slice_lt hk.wf)
      (Nat.lt_succ_self _) hmem
  · intro π π' t t' q ht ht' _ _
    rw [(hlayer ht).1, (hlayer ht').1]
  · intro t ht
    obtain ⟨-, rfl⟩ := hlayer ht
    change (h'.mem m.heap.fresh).upperLayer = none
    rw [hmem]
    rfl
  · intro π p s q hs hq
    rw [(hlisted.mp hs).2.2, slotFor_layer? hk.wf] at hq
    cases hq
  · intro π x t ht
    have := (hlayer ht).1
    simp at this
  · intro K v
    rw [holds_iff]
    simp only [hlisted]
    have hnew := slotFor_key? hk.wf value
    constructor
    · rintro ⟨π, s, r, ⟨p, rfl, -, rfl⟩, hr, rfl⟩
      rw [hnew, Option.some.injEq, Prod.mk.injEq] at hr
      obtain ⟨rfl, rfl⟩ := hr
      exact ⟨hk.whole_rest.symm, rfl⟩
    · rintro ⟨rfl, rfl⟩
      exact ⟨[], _, key.rest, ⟨_, rfl, rfl, rfl⟩, hnew, hk.whole_rest⟩

theorem TreeOk.insert_value (h : TreeOk m sh) (hk : key.At []) (value : V) (hguard : m.splitsLong key = false) :
    (∃ v, Holds sh key.id v) ∧ m.insert_value key value =
        some (if m.linked key = true then .OK else .WARN_ALREADY_EXISTS, m) ∨
      (∀ v, ¬ Holds sh key.id v) ∧ ∃ m' sh', m.insert_value key value = some (.OK, m') ∧ TreeOk m' sh' ∧
        ∀ K v, Holds sh' K v ↔ Holds sh K v ∨ K = key.id ∧ v = value := by
  cases hsh : sh [] with
  | none =>
    have hempty : m.root = none := by
      rw [h.root, hsh]
      rfl
    obtain ⟨m', sh', hins, hok, hkeys⟩ := treeOk_start hempty hk value
    refine Or.inr ⟨fun v => h.ok.not_holds hsh, m', sh', hins, hok, ?_⟩
    intro K v
    rw [hkeys, or_iff_right (h.ok.not_holds hsh)]
  | some t =>
    have hroot : m.root = some t.root := by
      rw [h.root, hsh]
      rfl
    have hfuel : key.slices.length ≤ key.cursor + Masstree.turns key := by
      unfold Masstree.turns
      omega
    rw [Masstree.splitsLong, hroot, Option.any_some] at hguard
    obtain ⟨fs, q, es, a, b, hp, hfind'⟩ := h.ok.findBorder hsh hk
    obtain ⟨p, hfind, hpost⟩ :=
      @ShapeOk.insert V m.heap sh value h.ok _ _ _ _ hsh hk hfuel hguard
    obtain rfl : p = q := Option.some.inj (hfind.symm.trans hfind')
    have hlinked : m.linked key = (((m.heap.mem p).searchLinkOrValueWithIndex key).1 == .LAYER) := by
      rw [Masstree.linked, hroot, Option.any_some, hfind, Option.any_some]
    unfold Masstree.insert_value
    rw [hroot, hlinked]
    rcases hpost with ⟨⟨v, hv⟩, hres⟩ | ⟨hnot, r, h', sh', hres, -, hins⟩
    · refine Or.inl ⟨⟨v, hv⟩, ?_⟩
      have hm : m = ⟨m.heap, some t.root⟩ := by rw [← hroot]
      have hsearch := hp.search h.ok hk
      dsimp only
      rw [hres]
      generalize (m.heap.mem p).searchLinkOrValueWithIndex key = res at hsearch
      cases hsearch with
      | value hi hkey honly =>
        rw [hm]
        rfl
      | layer hi hlink hslice hn hsh' =>
        rw [hm]
        rfl
      | notFound hnot hkey hlayer => exact absurd hv (hnot v)
    · refine Or.inr ⟨hnot, ⟨h', some (r.getD t.root)⟩, sh', ?_, ⟨hins.ok, hins.root.symm⟩, hins.keys⟩
      dsimp only
      rw [hres]

/-- The call leaves a lower layer with a root that has no upper layer. -/
def Masstree.collapses (m : Masstree V) (key : Key) : Bool :=
  m.root.any fun root => collapse (turns key) m.heap root key

theorem TreeOk.remove_value (h : TreeOk m sh) (hk : key.At []) (hguard : m.collapses key = false) :
    (∀ v, ¬ Holds sh key.id v) ∧ m.remove_value key =
        some (if m.linked key = true then .OK else .WARN_NOT_FOUND, m) ∨
      (∃ v, Holds sh key.id v) ∧ ∃ m' sh', m.remove_value key = some (.OK, m') ∧ TreeOk m' sh' ∧
        ∀ K v, Holds sh' K v ↔ Holds sh K v ∧ K ≠ key.id := by
  cases hsh : sh [] with
  | none =>
    have hempty : m.root = none := by
      rw [h.root, hsh]
      rfl
    refine Or.inl ⟨fun v => h.ok.not_holds hsh, ?_⟩
    rw [Masstree.remove_value, Masstree.linked, hempty]
    rfl
  | some t =>
    have hroot : m.root = some t.root := by
      rw [h.root, hsh]
      rfl
    have hfuel : key.slices.length < key.cursor + Masstree.turns key := by
      unfold Masstree.turns
      omega
    rw [Masstree.collapses, hroot, Option.any_some] at hguard
    obtain ⟨fs, q, es, a, b, hp, hfind'⟩ := h.ok.findBorder hsh hk
    obtain ⟨p, hfind, hpost⟩ := h.ok.remove hsh hk hfuel hguard
    obtain rfl : p = q := Option.some.inj (hfind.symm.trans hfind')
    have hlinked : m.linked key = (((m.heap.mem p).searchLinkOrValueWithIndex key).1 == .LAYER) := by
      rw [Masstree.linked, hroot, Option.any_some, hfind, Option.any_some]
    unfold Masstree.remove_value
    rw [hroot, hlinked]
    dsimp only
    rcases hpost with ⟨hnot, hres⟩ | ⟨hv, hfound⟩
    · refine Or.inl ⟨hnot, ?_⟩
      have hm : m = ⟨m.heap, some t.root⟩ := by rw [← hroot]
      have hsearch := hp.search h.ok hk
      rw [hres]
      generalize (m.heap.mem p).searchLinkOrValueWithIndex key = res at hsearch
      cases hsearch with
      | value hi hkey honly => exact absurd ((honly _).mpr rfl) (hnot _)
      | layer hi hlink hslice hn hsh' =>
        rw [hm]
        rfl
      | notFound hnot hkey hlayer =>
        rw [hm]
        rfl
    · refine Or.inr ⟨hv, ?_⟩
      generalize Masstree.remove (Masstree.turns key) m.heap t.root key = res at hfound
      cases hfound with
      | @removed change r h' sh' hchange hlower hrem =>
        refine ⟨⟨h', r⟩, sh', ?_, ⟨hrem.ok, hrem.root.symm⟩, hrem.keys⟩
        cases change with
        | DataNotFound => exact absurd rfl hchange
        | NotChange => rfl
        | NewRoot => rfl
        | LayerDeleted => rfl
      | layer hπ hlast hgone => simp at hπ

end

inductive Call (V : Type) where
  | insert_value (key : List UInt8) (value : V)
  | remove_value (key : List UInt8)

def Call.key : Call V → List UInt8
  | .insert_value key _ => key
  | .remove_value key => key

/-- A call with the string of a key. The constructor of `Key` refuses the empty string. -/
def Masstree.call (m : Masstree V) (c : Call V) : Option (Status × Masstree V) :=
  if c.key = [] then none
  else match c with
    | .insert_value key value => m.insert_value (.ofString key) value
    | .remove_value key => m.remove_value (.ofString key)

def Masstree.step (m : Masstree V) (c : Call V) : Option (Masstree V) := (m.call c).map Prod.snd

/-- The call reaches neither of the two defects. -/
def Masstree.spared (m : Masstree V) : Call V → Bool
  | .insert_value key _ => !m.splitsLong (.ofString key)
  | .remove_value key => !m.collapses (.ofString key)

section

variable {m m' : Masstree V} {sh : Shape V}

/-- A call that is spared returns, and leaves a tree. -/
theorem TreeOk.call (h : TreeOk m sh) {c : Call V} (hkey : c.key ≠ []) (hspared : m.spared c = true) :
    ∃ status m' sh', m.call c = some (status, m') ∧ TreeOk m' sh' := by
  unfold Masstree.call
  rw [if_neg hkey]
  cases c with
  | insert_value key value =>
    have hk : (Key.ofString key).At [] := Key.at_ofString hkey
    rcases h.insert_value hk value (by simpa [Masstree.spared] using hspared) with
      ⟨-, hins⟩ | ⟨-, m', sh', hins, hok, -⟩
    · exact ⟨_, m, sh, hins, h⟩
    · exact ⟨_, m', sh', hins, hok⟩
  | remove_value key =>
    have hk : (Key.ofString key).At [] := Key.at_ofString hkey
    rcases h.remove_value hk (by simpa [Masstree.spared] using hspared) with
      ⟨-, hrem⟩ | ⟨-, m', sh', hrem, hok, -⟩
    · exact ⟨_, m, sh, hrem, h⟩
    · exact ⟨_, m', sh', hrem, hok⟩

theorem treeOk_reach (h : Reach Masstree.step (· = .new) (fun m c => m.spared c = true) m) :
    ∃ sh, TreeOk m sh := by
  refine Reach.invariant (I := fun m : Masstree V => ∃ sh, TreeOk m sh) ?_ ?_ h
  · rintro m rfl
    exact ⟨_, treeOk_new⟩
  · rintro m c m' ⟨sh, hok⟩ hspared hstep
    obtain ⟨⟨status, m''⟩, hcall, rfl⟩ := Option.map_eq_some_iff.mp hstep
    have hkey : c.key ≠ [] := by
      intro he
      unfold Masstree.call at hcall
      rw [if_pos he] at hcall
      cases hcall
    obtain ⟨status', m₁, sh', hcall', hok'⟩ := hok.call hkey hspared
    rw [hcall, Option.some.injEq, Prod.mk.injEq] at hcall'
    exact ⟨sh', hcall'.2 ▸ hok'⟩

/-- Two lookups agree if the trees hold the same values for the key. -/
theorem TreeOk.get_value_congr {sh' : Shape V} {key : Key} (h : TreeOk m sh) (h' : TreeOk m' sh')
    (hk : key.At []) (hkeys : ∀ v, Holds sh' key.id v ↔ Holds sh key.id v) :
    m'.get_value key = m.get_value key := by
  obtain ⟨o, hget, ho⟩ := h.get_value hk
  obtain ⟨o', hget', ho'⟩ := h'.get_value hk
  rw [hget, hget', Option.some.injEq]
  apply Option.ext
  intro v
  rw [ho', ho, hkeys]

end

/-- A call on the keys of the tree: an insertion leaves its key there, a removal that does not
return `OK` changes nothing, and no call touches another key. -/
structure Outcome (sh sh' : Shape V) (c : Call V) (status : Status) : Prop where
  others : ∀ K, K ≠ (Key.ofString c.key).id → ∀ v, Holds sh' K v ↔ Holds sh K v
  own : match c with
    | .insert_value .. => ∃ v, Holds sh' (Key.ofString c.key).id v
    | .remove_value .. => status = .OK ∨ ∀ v, Holds sh' (Key.ofString c.key).id v ↔ Holds sh (Key.ofString c.key).id v

section

variable {m m' : Masstree V} {sh sh' : Shape V} {c : Call V} {status : Status}

theorem outcome_insert_found {key : List UInt8} {value v : V} (hv : Holds sh (Key.ofString key).id v) :
    Outcome sh sh (.insert_value key value) status :=
  ⟨fun _ _ _ => Iff.rfl, v, hv⟩

theorem outcome_insert {key : List UInt8} {value : V}
    (hkeys : ∀ K v, Holds sh' K v ↔ Holds sh K v ∨ K = (Key.ofString key).id ∧ v = value) :
    Outcome sh sh' (.insert_value key value) status where
  others := by
    intro K hK v
    rw [hkeys, or_iff_left (fun he => hK he.1)]
  own := ⟨value, (hkeys _ _).mpr (Or.inr ⟨rfl, rfl⟩)⟩

theorem outcome_remove {key : List UInt8}
    (hkeys : ∀ K v, Holds sh' K v ↔ Holds sh K v ∧ K ≠ (Key.ofString key).id) :
    Outcome sh sh' (.remove_value key) .OK where
  others := by
    intro K hK v
    rw [hkeys]
    exact and_iff_left hK
  own := Or.inl rfl

theorem outcome_remove_same {key : List UInt8} : Outcome sh sh (.remove_value key) status :=
  ⟨fun _ _ _ => Iff.rfl, Or.inr fun _ => Iff.rfl⟩

/-- A whole call. -/
theorem TreeOk.outcome (h : TreeOk m sh) (hkey : c.key ≠ []) (hspared : m.spared c = true)
    (hcall : m.call c = some (status, m')) : ∃ sh', TreeOk m' sh' ∧ Outcome sh sh' c status := by
  unfold Masstree.call at hcall
  rw [if_neg hkey] at hcall
  cases c with
  | insert_value key value =>
    have hk : (Key.ofString key).At [] := Key.at_ofString hkey
    rcases h.insert_value hk value (by simpa [Masstree.spared] using hspared) with
      ⟨⟨v, hv⟩, hins⟩ | ⟨-, m₁, sh₁, hins, hok, hkeys⟩
    · cases hcall.symm.trans hins
      exact ⟨sh, h, outcome_insert_found hv⟩
    · cases hcall.symm.trans hins
      exact ⟨sh₁, hok, outcome_insert hkeys⟩
  | remove_value key =>
    have hk : (Key.ofString key).At [] := Key.at_ofString hkey
    rcases h.remove_value hk (by simpa [Masstree.spared] using hspared) with
      ⟨-, hrem⟩ | ⟨-, m₁, sh₁, hrem, hok, hkeys⟩
    · cases hcall.symm.trans hrem
      exact ⟨sh, h, outcome_remove_same⟩
    · cases hcall.symm.trans hrem
      exact ⟨sh₁, hok, outcome_remove hkeys⟩

end

end Cassa.Masstree

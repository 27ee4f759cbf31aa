import Cassa.Masstree.Reachable

/-!
# Keys of one slice

Calls on keys of one to eight bytes stay in layer 0 and reach neither defect. So for every
sequence of such calls a lookup returns what the history of the calls says, and the layer is
a search tree in memory.
-/

set_option linter.dupNamespace false

namespace Cassa.Masstree

open Cassa.Lib.SearchTree
open Cassa.Lib.Runs

variable {V : Type} {m m' : Masstree V} {sh : Shape V} {k : List UInt8}

/-- The calls one after another, each with its status. -/
def Masstree.run (m : Masstree V) : List (Call V) → Option (List (Call V × Status) × Masstree V)
  | [] => some ([], m)
  | c :: cs => do
    let (status, m) ← m.call c
    let (log, m) ← m.run cs
    some ((c, status) :: log, m)

/-- What a call leaves of the value of a key: a successful insertion sets it, a removal ends it. -/
def Call.effect (k : List UInt8) (o : Option V) : Call V × Status → Option V
  | (.insert_value key value, status) => if key = k ∧ status = .OK then some value else o
  | (.remove_value key, _) => if key = k then none else o

/-- The value of the last successful insertion of the key, if no removal came after it. -/
def lastInserted (k : List UInt8) (log : List (Call V × Status)) : Option V := log.foldl (Call.effect k) none

/-- The layer is in memory as a search tree: separators increase and bound the slices below them,
parents and children agree, the permutations are in the order of the slices, and the list of
border nodes is the sequence of leaves. The entries of one slice share a border node. -/
structure SearchLayer (h : Heap V) (t : Layer V) : Prop extends LayerOk h t where
  together : ∀ l ∈ t.leaves, ∀ l' ∈ t.leaves, ∀ s ∈ l.2, ∀ s' ∈ l'.2, s.key_slice = s'.key_slice → l = l'

def Masstree.SearchTree (m : Masstree V) : Prop :=
  ∀ p, m.root = some p → ∃ t : Layer V, t.root = p ∧ SearchLayer m.heap t

theorem LayerOk.searchLayer {h : Heap V} {t : Layer V} (hok : LayerOk h t) : SearchLayer h t where
  toLayerOk := hok
  together := by
    intro l hl l' hl' s hs s' hs' hslice
    have hlt := (hok.wf.range l hl s hs).2
    obtain ⟨fs, p, es, a, b, rfl, hctx, -, ha, hb, -⟩ := descend_spec hok.stored hok.wf (Nat.zero_le _) hlt
    rw [leaf_of_slice hctx hl hs ha hb, leaf_of_slice hctx hl' hs' (hslice ▸ ha) (hslice ▸ hb)]

theorem TreeOk.searchTree (h : TreeOk m sh) : m.SearchTree := by
  intro p hp
  rw [h.root] at hp
  obtain ⟨t, ht, rfl⟩ := Option.map_eq_some_iff.mp hp
  exact ⟨t, rfl, (h.ok.layer [] t ht).searchLayer⟩

section

variable {key : Key}

theorem searchValue_ne_layer (n : Node V) (current : SliceWithSize) (l : List Nat) :
    (n.searchValue current l).1 ≠ .LAYER := by
  induction l with
  | nil =>
    intro h
    cases h
  | cons i l ih =>
    rw [Node.searchValue]
    split
    · intro h
      cases h
    · exact ih

/-- A key of one slice never leads to a lower layer. -/
theorem search_ne_layer (n : Node V) (hn : key.hasNext = false) :
    (n.searchLinkOrValueWithIndex key).1 ≠ .LAYER := by
  rw [Node.searchLinkOrValueWithIndex, hn]
  exact searchValue_ne_layer n _ _

theorem not_linked (m : Masstree V) (hn : key.hasNext = false) : m.linked key = false := by
  by_contra hlink
  rw [Bool.not_eq_false, Masstree.linked, Option.any_eq_true] at hlink
  obtain ⟨root, -, hlink⟩ := hlink
  obtain ⟨p, -, hlayer⟩ := (Option.any_eq_true _ _).mp hlink
  exact search_ne_layer _ hn (beq_iff_eq.mp hlayer)

theorem not_splitsLong (m : Masstree V) (hn : key.hasNext = false) : m.splitsLong key = false := by
  by_contra hlong
  rw [Bool.not_eq_false, Masstree.splitsLong, Option.any_eq_true] at hlong
  obtain ⟨root, -, hlong⟩ := hlong
  obtain ⟨p, -, hat⟩ := (Option.any_eq_true _ _).mp hlong
  have hne := search_ne_layer (m.heap.mem p) hn
  unfold longSplitAt at hat
  split at hat
  · rename_i hres
    rw [hres] at hne
    exact hne rfl
  · rw [hn] at hat
    cases hat
  · cases hat

/-- The root of layer 0 has no upper layer to lose. -/
theorem TreeOk.not_rootLeft {t : Layer V} {fs : List (Frame (Slot V))} {p : Ptr} {es : List (Slot V)} {a b : Nat}
    (h : TreeOk m sh) (ht : sh [] = some t) (hp : Place sh [] key fs p es a b) : rootLeft m.heap p = false := by
  have hlayer := hp.layerOk h.ok
  obtain rfl := Option.some.inj (hp.shape.symm.trans ht)
  rw [rootLeft, (hp.borderAt h.ok).parent]
  cases fs with
  | nil => exact Bool.and_false _
  | cons f fs =>
    change (_ && (some f.p).any _) = false
    rw [Option.any_some, Bool.and_eq_false_imp]
    intro _
    by_contra hroot
    rw [Bool.not_eq_false, Bool.and_eq_true, Bool.and_eq_true] at hroot
    obtain ⟨⟨-, hroot⟩, hupper⟩ := hroot
    rw [(hlayer.roots f.p frame_mem_plug).mp hroot, h.ok.top _ ht] at hupper
    cases hupper

theorem TreeOk.not_collapses (h : TreeOk m sh) (hk : key.At []) (hn : key.hasNext = false) :
    m.collapses key = false := by
  rw [Masstree.collapses, h.root]
  cases ht : sh [] with
  | none => rfl
  | some t =>
    obtain ⟨fs, p, es, a, b, hp, hfind⟩ := h.ok.findBorder ht hk
    have hne := search_ne_layer (m.heap.mem p) hn
    rw [Option.map_some, Option.any_some, Masstree.turns, collapse, hfind, Option.any_some]
    split
    · exact h.not_rootLeft ht hp
    · rename_i hres
      rw [hres] at hne
      exact absurd rfl hne
    · rfl

end

/-- A key of one to eight bytes. -/
def Call.Short (c : Call V) : Prop := 1 ≤ c.key.length ∧ c.key.length ≤ 8

theorem Call.Short.key_ne {c : Call V} (hc : c.Short) : c.key ≠ [] := List.ne_nil_of_length_pos hc.1

theorem Call.Short.hasNext {c : Call V} (hc : c.Short) : (Key.ofString c.key).hasNext = false := by
  rw [Bool.eq_false_iff, ne_eq, Key.hasNext_ofString hc.key_ne]
  exact Nat.not_lt.mpr hc.2

/-- One call: it returns, and changes the lookups as its status says. -/
theorem TreeOk.call_short (h : TreeOk m sh) {c : Call V} (hc : c.Short) :
    ∃ status m' sh', m.call c = some (status, m') ∧ TreeOk m' sh' ∧
      ∀ k o, k ≠ [] → m.get_value (.ofString k) = some o →
        m'.get_value (.ofString k) = some (Call.effect k o (c, status)) := by
  have hkey := hc.key_ne
  have hn := hc.hasNext
  unfold Masstree.call
  rw [if_neg hkey]
  cases c with
  | insert_value key value =>
    rcases h.insert_value (Key.at_ofString hkey) value (not_splitsLong m hn) with
      ⟨-, hins⟩ | ⟨-, m', sh', hins, hok, hkeys⟩
    · rw [not_linked m hn] at hins
      refine ⟨_, m, sh, hins, h, ?_⟩
      intro k o _ hget
      rw [hget]
      simp [Call.effect]
    · refine ⟨_, m', sh', hins, hok, ?_⟩
      intro k o hk hget
      by_cases he : key = k
      · subst he
        rw [Call.effect, if_pos ⟨rfl, rfl⟩]
        exact (hok.get_some hk).mpr ((hkeys _ _).mpr (Or.inr ⟨rfl, rfl⟩))
      · rw [Call.effect, if_neg (fun hc => he hc.1), ← hget]
        refine h.get_value_congr hok (Key.at_ofString hk) ?_
        intro w
        have hid := Key.id_ofString_ne hkey hk (Ne.symm he)
        rw [hkeys, or_iff_left (fun hw => hid hw.1)]
  | remove_value key =>
    rcases h.remove_value (Key.at_ofString hkey) (h.not_collapses (Key.at_ofString hkey) hn) with
      ⟨hnot, hrem⟩ | ⟨-, m', sh', hrem, hok, hkeys⟩
    · refine ⟨_, m, sh, hrem, h, ?_⟩
      intro k o hk hget
      by_cases he : key = k
      · subst he
        rw [Call.effect, if_pos rfl]
        exact (h.get_none hk).mpr hnot
      · rw [Call.effect, if_neg he, hget]
    · refine ⟨_, m', sh', hrem, hok, ?_⟩
      intro k o hk hget
      by_cases he : key = k
      · subst he
        rw [Call.effect, if_pos rfl]
        refine (hok.get_none hk).mpr ?_
        intro w hw
        exact ((hkeys _ _).mp hw).2 rfl
      · rw [Call.effect, if_neg he, ← hget]
        refine h.get_value_congr hok (Key.at_ofString hk) ?_
        intro w
        rw [hkeys, and_iff_left (Key.id_ofString_ne hkey hk (Ne.symm he))]

theorem TreeOk.run_short (h : TreeOk m sh) {cs : List (Call V)} (hcs : ∀ c ∈ cs, c.Short) :
    ∃ log m' sh', m.run cs = some (log, m') ∧ TreeOk m' sh' ∧
      ∀ k o, k ≠ [] → m.get_value (.ofString k) = some o →
        m'.get_value (.ofString k) = some (log.foldl (Call.effect k) o) := by
  induction cs generalizing m sh with
  | nil => exact ⟨[], m, sh, rfl, h, fun k o _ hget => hget⟩
  | cons c cs ih =>
    obtain ⟨status, m₁, sh₁, hcall, hok₁, hget₁⟩ := h.call_short (hcs c List.mem_cons_self)
    obtain ⟨log, m₂, sh₂, hrun, hok₂, hget₂⟩ := ih hok₁ fun c hc => hcs c (List.mem_cons_of_mem _ hc)
    refine ⟨(c, status) :: log, m₂, sh₂, ?_, hok₂, ?_⟩
    · rw [Masstree.run, hcall]
      change ((m₁.run cs).bind _) = _
      rw [hrun]
      rfl
    · intro k o hk hget
      exact hget₂ k _ hk (hget₁ k o hk hget)

theorem single_layer_correct (cs : List (Call V)) (hcs : ∀ c ∈ cs, 1 ≤ c.key.length ∧ c.key.length ≤ 8) :
    ∃ log m, Masstree.run .new cs = some (log, m) ∧ m.SearchTree ∧
      ∀ k, 1 ≤ k.length → k.length ≤ 8 → m.get_value (.ofString k) = some (lastInserted k log) := by
  obtain ⟨log, m, sh, hrun, hok, hget⟩ := (treeOk_new (V := V)).run_short hcs
  refine ⟨log, m, hrun, hok.searchTree, ?_⟩
  intro k hk _
  exact hget k none (List.ne_nil_of_length_pos hk) rfl

/-- Keys of one slice that differ in the number of zero bytes, with a key inserted twice. -/
theorem single_layer_correct_zero_bytes :
    let cs : List (Call Nat) := [.insert_value [7] 1, .insert_value [7, 0] 2, .insert_value [7] 3, .remove_value [7, 0]]
    ∃ log m, Masstree.run .new cs = some (log, m) ∧ m.SearchTree ∧
      ∀ k, 1 ≤ k.length → k.length ≤ 8 → m.get_value (.ofString k) = some (lastInserted k log) := by
  exact single_layer_correct _ (by decide)

end Cassa.Masstree

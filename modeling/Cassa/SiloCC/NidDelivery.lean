import Mathlib.Data.List.Chain
import Mathlib.Data.List.Induction
import Cassa.SiloCC.NidMemory

/-!
# Every notification is delivered once

For every sequence of calls of `store` and `notify` in which a store never goes back behind an
earlier store nor to the bound of an earlier notification. What is to be delivered is read off
the calls alone; the list of items is compared with it. `notify` recycles items under labels
behind that of `end_`, and the invariant is that these labels leave no gap above the next epoch
that may be stored. The labels are words: behind the greatest one they start again at 0, and the
items there hold no ids.
-/

namespace Cassa.SiloCC.NidMemory

variable {N : Type}

inductive Call (N : Type) where
  | store (nid_buffer : List N) (epoch : UInt64)
  | notify (min_dl : UInt64)

/-- The buffer after a call, and the ids that were delivered in it. -/
def NidBuffer.call (b : NidBuffer N) : Call N → Option (NidBuffer N × List N)
  | .store nid_buffer epoch => (b.store nid_buffer epoch).map fun b => (b, [])
  | .notify min_dl => b.notify min_dl

/-- The buffer after all calls, and what was delivered in each of them. -/
def NidBuffer.run (b : NidBuffer N) (calls : List (Call N)) : Option (NidBuffer N × List (List N)) :=
  calls.foldlM (fun s c => (s.1.call c).map fun r => (r.1, s.2 ++ [r.2])) (b, [])

/-- What an earlier call asks of a later one. -/
def Before : Call N → Call N → Prop
  | .store _ e, .store _ e' => e ≤ e'
  | .notify m, .store _ e => m < e
  | _, .notify _ => True

instance : ∀ c c' : Call N, Decidable (Before c c')
  | .store _ e, .store _ e' => inferInstanceAs (Decidable (e ≤ e'))
  | .notify m, .store _ e => inferInstanceAs (Decidable (m < e))
  | .store _ _, .notify _ => isTrue trivial
  | .notify _, .notify _ => isTrue trivial

def Admissible (calls : List (Call N)) : Prop := calls.Pairwise Before

instance (calls : List (Call N)) : Decidable (Admissible calls) :=
  inferInstanceAs (Decidable (calls.Pairwise Before))

/-- The call does not deliver an id of the epoch `e` that is there. -/
def Call.misses (e : UInt64) : Call N → Bool
  | .store _ _ => true
  | .notify m => m < e

/-- The ids that no notification has reached since they were stored, with their epochs. -/
def pending : List (Call N) → List (UInt64 × N)
  | [] => []
  | .store nid_buffer e :: rest =>
    (if rest.all (·.misses e) then nid_buffer.map fun nid => (e, nid) else []) ++ pending rest
  | .notify _ :: rest => pending rest

/-- The ids that a notification up to `m` after the calls is the first one to reach. -/
def due (calls : List (Call N)) (m : UInt64) : List (UInt64 × N) := (pending calls).filter fun x => x.1 ≤ m

/-- What each of the calls has to deliver. -/
def deliveries (calls : List (Call N)) : List (List (UInt64 × N)) :=
  (List.range calls.length).map fun j =>
    match (calls[j]? : Option (Call N)) with
    | some (.notify m) => due (calls.take j) m
    | _ => []

theorem pending_store (calls : List (Call N)) (nid_buffer : List N) (e : UInt64) :
    pending (calls ++ [.store nid_buffer e]) = pending calls ++ nid_buffer.map fun nid => (e, nid) := by
  induction calls with
  | nil => simp [pending]
  | cons c calls ih =>
    cases c with
    | store ids e' => simp [pending, ih, Call.misses]
    | notify m => simp [pending, ih]

theorem pending_notify (calls : List (Call N)) (m : UInt64) :
    pending (calls ++ [.notify m]) = (pending calls).filter fun x => m < x.1 := by
  induction calls with
  | nil => rfl
  | cons c calls ih =>
    cases c with
    | store ids e' =>
      have hsplit : (calls ++ [Call.notify m]).all (·.misses e') = (calls.all (·.misses e') && decide (m < e')) := by
        simp [Call.misses]
      rw [List.cons_append, pending, pending, ih, hsplit, List.filter_append]
      congr 1
      cases calls.all (·.misses e')
      · rfl
      · by_cases hm : m < e'
        · simp [hm, List.filter_map, Function.comp_def]
        · simp [hm, List.filter_map, Function.comp_def]
    | notify m' => simp [pending, ih]

theorem deliveries_append (calls : List (Call N)) (c : Call N) :
    deliveries (calls ++ [c]) = deliveries calls ++ [match c with
      | .store _ _ => []
      | .notify m => due calls m] := by
  have hlen : (calls ++ [c]).length = calls.length + 1 := by simp
  rw [deliveries, hlen, List.range_succ, List.map_append, List.map_singleton]
  congr 1
  · refine List.map_congr_left fun j hj => ?_
    have hj := List.mem_range.mp hj
    rw [List.getElem?_append_left hj, List.take_append_of_le_length (Nat.le_of_lt hj)]
  · rw [List.getElem?_concat_length, List.take_left' rfl]
    cases c <;> rfl

/-- The least epoch that may be stored after the calls. -/
def floor : List (Call N) → Nat
  | [] => 0
  | .store _ e :: rest => max e.toNat (floor rest)
  | .notify m :: rest => max (m.toNat + 1) (floor rest)

theorem floor_append (calls : List (Call N)) (c : Call N) :
    floor (calls ++ [c]) = max (floor calls) (floor [c]) := by
  induction calls with
  | nil => simp [floor]
  | cons d calls ih => cases d <;> simp [floor, ih, Nat.max_assoc]

theorem admissible_append (calls : List (Call N)) (c : Call N) :
    Admissible (calls ++ [c]) ↔ Admissible calls ∧ ∀ d ∈ calls, Before d c := by
  simp [Admissible, List.pairwise_append]

/-- An admissible store is not below the floor. -/
theorem floor_le {calls : List (Call N)} {nid_buffer : List N} {e : UInt64}
    (h : ∀ d ∈ calls, Before d (.store nid_buffer e)) : floor calls ≤ e.toNat := by
  induction calls with
  | nil => exact Nat.zero_le _
  | cons d calls ih =>
    have hd := h d List.mem_cons_self
    have ih := ih fun d hd => h d (List.mem_cons_of_mem _ hd)
    cases d with
    | store ids e' => exact max_le (UInt64.le_iff_toNat_le.mp hd) ih
    | notify m => exact max_le (UInt64.lt_iff_toNat_lt.mp hd) ih

/-- Everything that is delivered or pending, in the order of the epochs. -/
structure InOrder (calls : List (Call N)) : Prop where
  delivered : (deliveries calls).flatten.Pairwise fun x y => x.1 ≤ y.1
  pending : (pending calls).Pairwise fun x y => x.1 ≤ y.1
  across : ∀ x ∈ (deliveries calls).flatten, ∀ y ∈ NidMemory.pending calls, x.1 ≤ y.1
  below : ∀ x ∈ (deliveries calls).flatten ++ NidMemory.pending calls, x.1.toNat ≤ floor calls

theorem inOrder {calls : List (Call N)} (h : Admissible calls) : InOrder calls := by
  induction calls using List.reverseRecOn with
  | nil => exact ⟨.nil, .nil, nofun, nofun⟩
  | append_singleton calls c ih =>
    obtain ⟨hcalls, hc⟩ := (admissible_append calls c).mp h
    have ih := ih hcalls
    cases c with
    | store ids e =>
      have hfloor := floor_le hc
      have hnew : floor (calls ++ [.store ids e]) = e.toNat := by
        rw [floor_append]
        simp [floor, hfloor]
      have hle : ∀ x ∈ (deliveries calls).flatten ++ NidMemory.pending calls, x.1 ≤ e := by
        intro x hx
        exact UInt64.le_iff_toNat_le.mpr (Nat.le_trans (ih.below x hx) hfloor)
      have hdel : (deliveries (calls ++ [.store ids e])).flatten = (deliveries calls).flatten := by
        simp [deliveries_append]
      refine ⟨hdel ▸ ih.delivered, ?_, ?_, ?_⟩
      · rw [pending_store, List.pairwise_append]
        refine ⟨ih.pending, ?_, ?_⟩
        · exact List.pairwise_map.mpr (List.pairwise_of_forall fun _ _ => UInt64.le_refl _)
        · intro x hx y hy
          obtain ⟨nid, -, rfl⟩ := List.mem_map.mp hy
          exact hle x (List.mem_append_right _ hx)
      · rw [hdel, pending_store]
        intro x hx y hy
        rcases List.mem_append.mp hy with hy | hy
        · exact ih.across x hx y hy
        · obtain ⟨nid, -, rfl⟩ := List.mem_map.mp hy
          exact hle x (List.mem_append_left _ hx)
      · rw [hdel, pending_store, hnew, ← List.append_assoc]
        intro x hx
        rcases List.mem_append.mp hx with hx | hx
        · exact UInt64.le_iff_toNat_le.mp (hle x hx)
        · obtain ⟨nid, -, rfl⟩ := List.mem_map.mp hx
          exact Nat.le_refl _
    | notify m =>
      have hnew : floor (calls ++ [Call.notify m]) = max (floor calls) (m.toNat + 1) := by
        rw [floor_append]
        simp [floor]
      have hdel : (deliveries (calls ++ [.notify m])).flatten = (deliveries calls).flatten ++ due calls m := by
        simp [deliveries_append]
      have hdue : ∀ x ∈ due calls m, x ∈ NidMemory.pending calls ∧ x.1 ≤ m := by
        intro x hx
        obtain ⟨hx, hle⟩ := List.mem_filter.mp hx
        exact ⟨hx, of_decide_eq_true hle⟩
      have hrest : ∀ x ∈ NidMemory.pending (calls ++ [.notify m]), x ∈ NidMemory.pending calls ∧ m < x.1 := by
        intro x hx
        rw [pending_notify] at hx
        obtain ⟨hx, hlt⟩ := List.mem_filter.mp hx
        exact ⟨hx, of_decide_eq_true hlt⟩
      refine ⟨?_, ?_, ?_, ?_⟩
      · rw [hdel, List.pairwise_append]
        refine ⟨ih.delivered, ih.pending.filter _, ?_⟩
        intro x hx y hy
        exact ih.across x hx y (hdue y hy).1
      · rw [pending_notify]
        exact ih.pending.filter _
      · rw [hdel]
        intro x hx y hy
        rcases List.mem_append.mp hx with hx | hx
        · exact ih.across x hx y (hrest y hy).1
        · exact UInt64.le_of_lt (UInt64.lt_of_le_of_lt (hdue x hx).2 (hrest y hy).2)
      · rw [hdel, hnew]
        intro x hx
        refine Nat.le_trans (ih.below x ?_) (Nat.le_max_left _ _)
        rcases List.mem_append.mp hx with hx | hx
        · rcases List.mem_append.mp hx with hx | hx
          · exact List.mem_append_left _ hx
          · exact List.mem_append_right _ (hdue x hx).1
        · exact List.mem_append_right _ (hrest x hx).1

/-- The greatest label. -/
def lastEpoch : UInt64 := 0xFFFFFFFFFFFFFFFF

/-- From the front on the labels strictly increase, up to the end or to the greatest label.
Behind that one there are no ids. -/
def Ordered (items : List (Entry N)) : Prop :=
  ∃ asc wrapped, items = asc ++ wrapped ∧ (asc.Pairwise fun x y => x.1 < y.1) ∧
    (wrapped = [] ∨ endEpoch asc = lastEpoch ∧ ∀ item ∈ wrapped, item.2 = [])

/-- Labels after `x`, for items without ids. -/
def labels (N : Type) (x : UInt64) : Nat → List (Entry N)
  | 0 => []
  | n + 1 => (x + 1, []) :: labels N (x + 1) n

theorem labels_empty (x : UInt64) (n : Nat) : ∀ item ∈ labels N x n, item.2 = [] := by
  induction n generalizing x with
  | zero => exact nofun
  | succ n ih =>
    intro item hitem
    rcases List.mem_cons.mp hitem with rfl | hitem
    · rfl
    · exact ih _ item hitem

theorem endEpoch_append {items again : List (Entry N)} (h : again ≠ []) :
    endEpoch (items ++ again) = endEpoch again := by
  rw [endEpoch, endEpoch, List.getLast?_append_of_ne_nil _ h]

theorem endEpoch_cons {item : Entry N} {items : List (Entry N)} (h : items ≠ []) :
    endEpoch (item :: items) = endEpoch items := by
  rw [← List.singleton_append, endEpoch_append h]

theorem endEpoch_concat (items : List (Entry N)) (item : Entry N) : endEpoch (items ++ [item]) = item.1 := by
  simp [endEpoch]

/-- What `notify` does with a list whose first items `drained` are due and the next one is not. -/
theorem notifyItems_eq {m : UInt64} {drained rest again : List (Entry N)} (hdrained : ∀ item ∈ drained, item.1 ≤ m)
    (hrest : ∀ item ∈ rest.head?, m < item.1) (hne : rest ++ again ≠ []) :
    notifyItems m (drained ++ rest) again =
      (rest ++ again ++ labels N (endEpoch (rest ++ again)) drained.length, drained.flatMap Prod.snd) := by
  induction drained generalizing again with
  | nil =>
    cases rest with
    | nil => simp [notifyItems, labels]
    | cons item rest =>
      obtain ⟨e, ids⟩ := item
      have hlt : ¬ e ≤ m := UInt64.not_le.mpr (hrest _ rfl)
      simp [notifyItems, labels, hlt]
  | cons item drained ih =>
    obtain ⟨e, ids⟩ := item
    have hle : e ≤ m := hdrained _ List.mem_cons_self
    have hnil : ¬ (drained ++ rest = [] ∧ again = []) := by
      rintro ⟨hd, ha⟩
      exact hne (by rw [(List.append_eq_nil_iff.mp hd).2, ha]; rfl)
    have hend : endEpoch (drained ++ rest ++ again) = endEpoch (rest ++ again) := by
      rw [List.append_assoc, endEpoch_append hne]
    rw [List.cons_append, notifyItems, if_pos hle, if_neg hnil, hend,
      ih (fun item hitem => hdrained item (List.mem_cons_of_mem _ hitem)) (by simp)]
    have hend' : endEpoch (rest ++ (again ++ [(endEpoch (rest ++ again) + 1, [])])) =
        endEpoch (rest ++ again) + 1 := by
      rw [← List.append_assoc, endEpoch_concat]
    rw [hend']
    simp [labels]

/-- What `notify` does when everything is due. -/
theorem notifyItems_all {m : UInt64} {items : List (Entry N)} (hall : ∀ item ∈ items, item.1 ≤ m) (hne : items ≠ []) :
    (notifyItems m items []).2 = items.flatMap Prod.snd ∧
      ((∃ e, endEpoch items = e ∧ items.length = 1 ∧ (notifyItems m items []).1 = [(e, [])]) ∨
        (notifyItems m items []).1 = labels N (endEpoch items) items.length) := by
  obtain ⟨⟨e, ids⟩, rest, rfl⟩ := List.exists_cons_of_ne_nil hne
  have hle : e ≤ m := hall _ List.mem_cons_self
  cases rest with
  | nil =>
    rw [notifyItems, if_pos hle, if_pos ⟨rfl, rfl⟩]
    exact ⟨by simp, Or.inl ⟨e, rfl, rfl, rfl⟩⟩
  | cons item rest =>
    have hnil : ¬ (item :: rest = [] ∧ ([] : List (Entry N)) = []) := fun h => List.cons_ne_nil _ _ h.1
    have hrest : ∀ i ∈ item :: rest, i.1 ≤ m := fun i hi => hall i (List.mem_cons_of_mem _ hi)
    have heq : notifyItems m (item :: rest ++ []) [(endEpoch (item :: rest) + 1, [])] = _ :=
      notifyItems_eq hrest (by simp) (by simp)
    rw [List.append_nil] at heq
    rw [notifyItems, if_pos hle, if_neg hnil, List.append_nil, List.nil_append, heq]
    refine ⟨rfl, Or.inr ?_⟩
    rw [endEpoch_cons (List.cons_ne_nil item rest)]
    simp [labels, endEpoch]

/-- The ids of the items with their epochs. -/
def tagged (items : List (Entry N)) : List (UInt64 × N) := items.flatMap fun item => item.2.map fun nid => (item.1, nid)

theorem tagged_append (items items' : List (Entry N)) : tagged (items ++ items') = tagged items ++ tagged items' :=
  List.flatMap_append

theorem tagged_cons (e : UInt64) (ids : List N) (items : List (Entry N)) :
    tagged ((e, ids) :: items) = (ids.map fun nid => (e, nid)) ++ tagged items := rfl

theorem tagged_empty {items : List (Entry N)} (h : ∀ item ∈ items, item.2 = []) : tagged items = [] := by
  rw [tagged, List.flatMap_eq_nil_iff]
  intro item hitem
  rw [h item hitem]
  rfl

theorem map_tagged (items : List (Entry N)) : (tagged items).map Prod.snd = items.flatMap Prod.snd := by
  simp [tagged, List.map_flatMap, Function.comp_def]

/-- The next label: greater, and without a gap above `F`. -/
def Next (F : Nat) (x y : Entry N) : Prop := x.1.toNat < y.1.toNat ∧ (F < y.1.toNat → y.1.toNat = x.1.toNat + 1)

/-- The items while epochs from `F` on may still be stored. -/
structure Open (items asc wrapped : List (Entry N)) (F : Nat) (ids : List (UInt64 × N)) : Prop where
  split : items = asc ++ wrapped
  chain : asc.IsChain (Next F)
  front : ∃ x ∈ asc.head?, x.1.toNat ≤ F
  below : ∀ x ∈ asc, x.2 ≠ [] → x.1.toNat ≤ F
  wrapped : wrapped = [] ∨ endEpoch asc = lastEpoch ∧ ∀ item ∈ wrapped, item.2 = []
  floor : F < 2 ^ 64
  ids : ids = tagged asc

/-- The items after a notification for all epochs. -/
structure Closed (items : List (Entry N)) : Prop where
  ne : items ≠ []
  chain : items.IsChain fun x y => y.1 = x.1 + 1
  empty : ∀ item ∈ items, item.2 = []

theorem Next.mono {F F' : Nat} {x y : Entry N} (h : Next F x y) (hF : F ≤ F') : Next F' x y :=
  ⟨h.1, fun hlt => h.2 (Nat.lt_of_le_of_lt hF hlt)⟩

theorem chain_pairwise {F : Nat} {asc : List (Entry N)} (h : asc.IsChain (Next F)) :
    asc.Pairwise fun x y => x.1 < y.1 := by
  have : Trans (fun x y : Entry N => x.1 < y.1) (fun x y : Entry N => x.1 < y.1) fun x y : Entry N => x.1 < y.1 :=
    ⟨UInt64.lt_trans⟩
  have hlt : asc.IsChain fun x y => x.1 < y.1 := h.imp fun x y h => UInt64.lt_iff_toNat_lt.mpr h.1
  exact hlt.pairwise

/-- The walk of `store` finds the epoch or comes to the end before it. -/
theorem storeItems_spec {asc wrapped : List (Entry N)} {F : Nat} {e : UInt64} (nid_buffer : List N)
    (hchain : asc.IsChain (Next F)) (hfront : ∃ x ∈ asc.head?, x.1.toNat ≤ e.toNat) (hF : F ≤ e.toNat)
    (hbelow : ∀ x ∈ asc, x.2 ≠ [] → x.1.toNat ≤ F) (hwrapped : wrapped = [] ∨ endEpoch asc = lastEpoch) :
    ∃ asc', storeItems nid_buffer e (asc ++ wrapped) = some (asc' ++ wrapped) ∧ asc'.IsChain (Next e.toNat) ∧
      asc'.head?.map Prod.fst = asc.head?.map Prod.fst ∧ (∀ x ∈ asc', x.2 ≠ [] → x.1.toNat ≤ e.toNat) ∧
      (wrapped = [] ∨ endEpoch asc' = lastEpoch) ∧
      tagged asc' = tagged asc ++ nid_buffer.map fun nid => (e, nid) := by
  induction asc with
  | nil =>
    obtain ⟨x, hx, -⟩ := hfront
    cases hx
  | cons item asc ih =>
    obtain ⟨a, ids⟩ := item
    obtain ⟨x, hx, hle⟩ := hfront
    obtain rfl := Option.some.inj hx
    change a.toNat ≤ e.toNat at hle
    obtain ⟨hnext, hchain'⟩ := List.isChain_cons.mp hchain
    have hbelow' : ∀ x ∈ asc, x.2 ≠ [] → x.1.toNat ≤ F := fun x hx => hbelow x (List.mem_cons_of_mem _ hx)
    rw [List.cons_append, storeItems]
    by_cases hlt : a < e
    · have hlt' := UInt64.lt_iff_toNat_lt.mp hlt
      rw [if_pos hlt]
      cases asc with
      | nil =>
        have hnil : wrapped = [] := by
          refine hwrapped.resolve_right ?_
          intro hend
          have : a = lastEpoch := hend
          rw [this] at hlt'
          have := e.toNat_lt
          simp only [lastEpoch, UInt64.reduceToNat] at hlt'
          omega
        rw [hnil]
        refine ⟨[(a, ids), (e, nid_buffer)], rfl, ?_, rfl, ?_, Or.inl rfl, ?_⟩
        · exact List.isChain_pair.mpr ⟨hlt', fun h => absurd h (Nat.lt_irrefl _)⟩
        · intro x hx _
          rcases List.mem_cons.mp hx with rfl | hx
          · exact hle
          · rw [List.mem_singleton.mp hx]
        · simp [tagged]
      | cons y asc =>
        obtain ⟨hxy, hgap⟩ := hnext y rfl
        have hy : y.1.toNat ≤ e.toNat := by
          by_contra hgt
          have := hgap (by omega)
          change y.1.toNat = a.toNat + 1 at this
          omega
        rw [endEpoch_cons (List.cons_ne_nil y asc)] at hwrapped
        obtain ⟨asc', hstore, hchain'', hhead, hbelow'', hwrapped', htagged⟩ :=
          ih hchain' ⟨y, rfl, hy⟩ hbelow' hwrapped
        obtain ⟨y', rest, rfl⟩ : ∃ y' rest, asc' = y' :: rest := by
          cases asc' with
          | nil => cases hhead
          | cons y' rest => exact ⟨y', rest, rfl⟩
        have hy' : y'.1 = y.1 := Option.some.inj hhead
        refine ⟨(a, ids) :: y' :: rest, by rw [hstore]; rfl, ?_, rfl, ?_, ?_, ?_⟩
        · refine List.isChain_cons_cons.mpr ⟨⟨?_, ?_⟩, hchain''⟩
          · rw [hy']
            exact hxy
          · rw [hy']
            intro h
            exact hgap (Nat.lt_of_le_of_lt hF h)
        · intro x hx hne
          rcases List.mem_cons.mp hx with rfl | hx
          · exact hle
          · exact hbelow'' x hx hne
        · rwa [endEpoch_cons (List.cons_ne_nil y' rest)]
        · rw [tagged_cons a, htagged, tagged_cons a, List.append_assoc]
    · have heq : a = e :=
        UInt64.toNat_inj.mp (Nat.le_antisymm hle (UInt64.le_iff_toNat_le.mp (UInt64.not_lt.mp hlt)))
      subst a
      rw [if_neg hlt, if_pos rfl]
      refine ⟨(e, ids ++ nid_buffer) :: asc, rfl, ?_, rfl, ?_, ?_, ?_⟩
      · exact List.isChain_cons.mpr ⟨fun y hy => (hnext y hy).mono hF, hchain'.imp fun x y h => h.mono hF⟩
      · intro x hx hne
        rcases List.mem_cons.mp hx with rfl | hx
        · exact Nat.le_refl _
        · exact Nat.le_trans (hbelow' x hx hne) hF
      · cases asc with
        | nil => exact hwrapped
        | cons y asc =>
          rw [endEpoch_cons (List.cons_ne_nil y asc)] at hwrapped ⊢
          exact hwrapped
      · -- no id has been stored behind this item
        have hempty : tagged asc = [] := by
          refine tagged_empty fun y hy => ?_
          by_contra hne
          have hlt := UInt64.lt_iff_toNat_lt.mp ((List.pairwise_cons.mp (chain_pairwise hchain)).1 y hy)
          have hle := hbelow' y hy hne
          change e.toNat < y.1.toNat at hlt
          omega
        rw [tagged_cons, tagged_cons, hempty, List.append_nil, List.append_nil, List.map_append]

theorem Open.store {items asc wrapped : List (Entry N)} {F : Nat} {ids : List (UInt64 × N)}
    (h : Open items asc wrapped F ids) (nid_buffer : List N) {e : UInt64} (he : F ≤ e.toNat) :
    ∃ items' asc', storeItems nid_buffer e items = some items' ∧
      Open items' asc' wrapped e.toNat (ids ++ nid_buffer.map fun nid => (e, nid)) := by
  obtain ⟨x, hx, hxF⟩ := h.front
  obtain ⟨asc', hstore, hchain, hhead, hbelow, hwrapped, htagged⟩ := storeItems_spec nid_buffer h.chain
    ⟨x, hx, Nat.le_trans hxF he⟩ he h.below (h.wrapped.imp_right And.left)
  refine ⟨asc' ++ wrapped, asc', by rw [h.split, hstore], rfl, hchain, ?_, hbelow, ?_, e.toNat_lt, by
    rw [htagged, h.ids]⟩
  · rw [Option.mem_def.mp hx, Option.map_some, Option.map_eq_some_iff] at hhead
    obtain ⟨y, hy, hyx⟩ := hhead
    exact ⟨y, hy, by rw [hyx]; exact Nat.le_trans hxF he⟩
  · rcases h.wrapped with hnil | ⟨-, hempty⟩
    · exact Or.inl hnil
    · exact hwrapped.imp_right fun hend => ⟨hend, hempty⟩

/-- The labels behind `x` go up to the greatest one and start again. -/
theorem labels_split (x : Entry N) (n : Nat) :
    ∃ up again, labels N x.1 n = up ++ again ∧ ((x :: up).IsChain fun a b => b.1.toNat = a.1.toNat + 1) ∧
      (again = [] ∨ endEpoch (x :: up) = lastEpoch) := by
  induction n generalizing x with
  | zero => exact ⟨[], [], rfl, List.isChain_singleton _, Or.inl rfl⟩
  | succ n ih =>
    by_cases hx : x.1 = lastEpoch
    · exact ⟨[], labels N x.1 (n + 1), rfl, List.isChain_singleton _, Or.inr hx⟩
    · obtain ⟨up, again, hlabels, hchain, hend⟩ := ih (x.1 + 1, [])
      have hnext : (x.1 + 1).toNat = x.1.toNat + 1 := by
        have hne : x.1.toNat ≠ lastEpoch.toNat := fun he => hx (UInt64.toNat_inj.mp he)
        have hlt := x.1.toNat_lt
        simp only [lastEpoch, UInt64.reduceToNat] at hne
        rw [UInt64.toNat_add, UInt64.toNat_one]
        omega
      refine ⟨(x.1 + 1, []) :: up, again, by rw [labels, hlabels]; rfl, ?_, ?_⟩
      · exact List.isChain_cons_cons.mpr ⟨hnext, hchain⟩
      · rwa [endEpoch_cons (List.cons_ne_nil _ _)]

theorem labels_chain (x : Entry N) (n : Nat) : (x :: labels N x.1 n).IsChain fun a b => b.1 = a.1 + 1 := by
  induction n generalizing x with
  | zero => exact List.isChain_singleton _
  | succ n ih => exact List.isChain_cons_cons.mpr ⟨rfl, ih (x.1 + 1, [])⟩

theorem endEpoch_mem {items : List (Entry N)} (h : items ≠ []) : ∃ item ∈ items, item.1 = endEpoch items := by
  obtain ⟨l, z, rfl⟩ := (List.eq_nil_or_concat' items).resolve_left h
  exact ⟨z, by simp, by rw [endEpoch_concat]⟩

/-- The items that a notification takes from the front. -/
theorem split_front (items : List (Entry N)) (m : UInt64) :
    ∃ drained rest, items = drained ++ rest ∧ (∀ x ∈ drained, x.1 ≤ m) ∧ ∀ x ∈ rest.head?, m < x.1 := by
  induction items with
  | nil => exact ⟨[], [], rfl, nofun, nofun⟩
  | cons x items ih =>
    by_cases hle : x.1 ≤ m
    · obtain ⟨drained, rest, rfl, hdrained, hrest⟩ := ih
      refine ⟨x :: drained, rest, rfl, ?_, hrest⟩
      intro y hy
      rcases List.mem_cons.mp hy with rfl | hy
      · exact hle
      · exact hdrained y hy
    · refine ⟨[], x :: items, rfl, nofun, ?_⟩
      intro y hy
      obtain rfl := Option.some.inj hy
      exact UInt64.not_le.mp hle

/-- In order of their labels these are all that are due. -/
theorem split_due {asc : List (Entry N)} (h : asc.Pairwise fun x y => x.1 < y.1) (m : UInt64) :
    ∃ drained rest, asc = drained ++ rest ∧ (∀ x ∈ drained, x.1 ≤ m) ∧ ∀ x ∈ rest, m < x.1 := by
  obtain ⟨drained, rest, rfl, hdrained, hrest⟩ := split_front asc m
  refine ⟨drained, rest, rfl, hdrained, ?_⟩
  cases rest with
  | nil => exact nofun
  | cons y rest =>
    have hy := hrest y rfl
    intro x hx
    rcases List.mem_cons.mp hx with rfl | hx
    · exact hy
    · exact UInt64.lt_trans hy ((List.pairwise_cons.mp (List.pairwise_append.mp h).2.1).1 x hx)

theorem mem_tagged {items : List (Entry N)} {x : UInt64 × N} (h : x ∈ tagged items) : ∃ item ∈ items, item.1 = x.1 := by
  obtain ⟨item, hitem, hx⟩ := List.mem_flatMap.mp h
  obtain ⟨nid, -, rfl⟩ := List.mem_map.mp hx
  exact ⟨item, hitem, rfl⟩

theorem filter_due {drained rest : List (Entry N)} {m : UInt64} (hdrained : ∀ x ∈ drained, x.1 ≤ m)
    (hrest : ∀ x ∈ rest, m < x.1) :
    ((tagged (drained ++ rest)).filter fun x => x.1 ≤ m) = tagged drained ∧
      ((tagged (drained ++ rest)).filter fun x => m < x.1) = tagged rest := by
  have hle : ∀ x ∈ tagged drained, x.1 ≤ m := by
    intro x hx
    obtain ⟨item, hitem, he⟩ := mem_tagged hx
    exact he ▸ hdrained item hitem
  have hlt : ∀ x ∈ tagged rest, m < x.1 := by
    intro x hx
    obtain ⟨item, hitem, he⟩ := mem_tagged hx
    exact he ▸ hrest item hitem
  rw [tagged_append, List.filter_append, List.filter_append]
  constructor
  · rw [List.filter_eq_self.mpr fun x hx => decide_eq_true (hle x hx),
      List.filter_eq_nil_iff.mpr fun x hx => by simpa using hlt x hx, List.append_nil]
  · rw [List.filter_eq_nil_iff.mpr fun x hx => by simpa using hle x hx,
      List.filter_eq_self.mpr fun x hx => decide_eq_true (hlt x hx), List.nil_append]

/-- Recycled items behind `rest` and what had wrapped around before. -/
theorem relabel {rest wrapped : List (Entry N)} {F : Nat} (hne : rest ≠ []) (hchain : rest.IsChain (Next F))
    (hwrapped : wrapped = [] ∨ endEpoch rest = lastEpoch ∧ ∀ item ∈ wrapped, item.2 = []) (n : Nat) :
    ∃ up again, wrapped ++ labels N (endEpoch (rest ++ wrapped)) n = up ++ again ∧
      (rest ++ up).IsChain (Next F) ∧ (∀ item ∈ up, item.2 = []) ∧
      (again = [] ∨ endEpoch (rest ++ up) = lastEpoch ∧ ∀ item ∈ again, item.2 = []) := by
  rcases hwrapped with rfl | ⟨hend, hempty⟩
  · obtain ⟨l, z, rfl⟩ := (List.eq_nil_or_concat' rest).resolve_left hne
    obtain ⟨up, again, hlabels, hup, hlast⟩ := labels_split z n
    obtain ⟨hlink, hup'⟩ := List.isChain_cons.mp hup
    have hmem : ∀ item ∈ up ++ again, item.2 = [] := hlabels ▸ labels_empty z.1 n
    refine ⟨up, again, ?_, ?_, fun item hi => hmem item (List.mem_append_left _ hi), ?_⟩
    · rw [List.append_nil, List.nil_append, endEpoch_concat, hlabels]
    · have hnext : ∀ {x y : Entry N}, y.1.toNat = x.1.toNat + 1 → Next F x y :=
        fun h => ⟨by omega, fun _ => h⟩
      refine List.isChain_append.mpr ⟨hchain, hup'.imp fun _ _ => hnext, ?_⟩
      intro x hx y hy
      rw [List.getLast?_concat] at hx
      obtain rfl := Option.some.inj hx
      exact hnext (hlink y hy)
    · refine hlast.imp_right fun hlast => ⟨?_, fun item hi => hmem item (List.mem_append_right _ hi)⟩
      rw [List.append_assoc, endEpoch_append (by simp)]
      exact hlast
  · refine ⟨[], wrapped ++ labels N (endEpoch (rest ++ wrapped)) n, rfl, ?_, nofun, Or.inr ⟨?_, ?_⟩⟩
    · rwa [List.append_nil]
    · rwa [List.append_nil]
    · intro item hi
      rcases List.mem_append.mp hi with hi | hi
      · exact hempty item hi
      · exact labels_empty _ n item hi

/-- The step of `notify` while something may still be stored afterwards. -/
theorem Open.notify {items asc wrapped : List (Entry N)} {F : Nat} {ids : List (UInt64 × N)} {m : UInt64}
    (h : Open items asc wrapped F ids) (hm : m.toNat + 1 < 2 ^ 64) :
    (notifyItems m items []).2 = (ids.filter fun x => x.1 ≤ m).map Prod.snd ∧
      ∃ asc' wrapped', Open (notifyItems m items []).1 asc' wrapped' (max F (m.toNat + 1))
        (ids.filter fun x => m < x.1) := by
  obtain ⟨drained, rest, hsplit, hdrained, hrest⟩ := split_due (chain_pairwise h.chain) m
  obtain ⟨hdue, hleft⟩ := filter_due hdrained hrest
  have hF : max F (m.toNat + 1) < 2 ^ 64 := max_lt h.floor hm
  have hchain := h.chain
  rw [hsplit] at hchain
  obtain ⟨-, hchain', hlink⟩ := List.isChain_append.mp hchain
  rw [h.ids, hsplit, hdue, hleft, map_tagged]
  by_cases hne : rest = []
  · obtain rfl := hne
    rw [List.append_nil] at hsplit
    subst hsplit
    obtain ⟨x, hx, hxF⟩ := h.front
    have hne : asc ≠ [] := by
      rintro rfl
      cases hx
    have hend : (endEpoch asc).toNat ≤ m.toNat := by
      obtain ⟨z, hz, he⟩ := endEpoch_mem hne
      exact he ▸ UInt64.le_iff_toNat_le.mp (hdrained z hz)
    have hnot : endEpoch asc ≠ lastEpoch := by
      intro he
      rw [he] at hend
      simp only [lastEpoch, UInt64.reduceToNat] at hend
      omega
    have hnil : wrapped = [] := h.wrapped.resolve_right fun hw => hnot hw.1
    have hitems : items = asc := by rw [h.split, hnil, List.append_nil]
    obtain ⟨hsent, ⟨e, he, hlen, hafter⟩ | hafter⟩ := notifyItems_all hdrained hne
    · rw [hitems, hsent, hafter]
      refine ⟨rfl, [(e, [])], [], rfl, List.isChain_singleton _, ⟨_, rfl, ?_⟩, ?_, Or.inl rfl, hF, rfl⟩
      · change e.toNat ≤ _
        rw [← he]
        omega
      · intro y hy hne
        rw [List.mem_singleton.mp hy] at hne
        exact absurd rfl hne
    · obtain ⟨up, again, hlabels, hup, hlast⟩ := labels_split (endEpoch asc, []) asc.length
      have hempty : ∀ item ∈ up ++ again, item.2 = [] := hlabels ▸ labels_empty (endEpoch asc) asc.length
      rw [hitems, hsent, hafter, hlabels]
      obtain ⟨y, l, rfl⟩ : ∃ y l, up = y :: l := by
        cases up with
        | nil =>
          have hagain : again ≠ [] := by
            rintro rfl
            obtain ⟨z, asc, rfl⟩ := List.exists_cons_of_ne_nil hne
            cases hlabels
          exact absurd (hlast.resolve_left hagain) hnot
        | cons y l => exact ⟨y, l, rfl⟩
      obtain ⟨hy, hup'⟩ := List.isChain_cons.mp hup
      have hy' : y.1.toNat = (endEpoch asc).toNat + 1 := hy y rfl
      rw [endEpoch_cons (List.cons_ne_nil y l)] at hlast
      refine ⟨rfl, y :: l, again, rfl, hup'.imp ?_, ⟨y, rfl, by omega⟩, ?_, ?_, hF, ?_⟩
      · intro a b hab
        exact ⟨by omega, fun _ => hab⟩
      · intro x hx hne
        exact absurd (hempty x (List.mem_append_left _ hx)) hne
      · exact hlast.imp_right fun hlast => ⟨hlast, fun item hi => hempty item (List.mem_append_right _ hi)⟩
      · exact (tagged_empty fun item hi => hempty item (List.mem_append_left _ hi)).symm
  · obtain ⟨y, l, rfl⟩ := List.exists_cons_of_ne_nil hne
    have hend : endEpoch asc = endEpoch (y :: l) := by rw [hsplit, endEpoch_append (List.cons_ne_nil _ _)]
    have hhead : ∀ x ∈ (y :: l ++ wrapped).head?, m < x.1 := by
      intro x hx
      obtain rfl := Option.some.inj hx
      exact hrest _ List.mem_cons_self
    have heq : notifyItems m (drained ++ (y :: l ++ wrapped)) [] = _ := notifyItems_eq hdrained hhead (by simp)
    rw [← List.append_assoc, ← hsplit, ← h.split, List.append_nil, List.append_assoc] at heq
    obtain ⟨up, again, hlabels, hup, hempty, hlast⟩ := relabel hne hchain' (hend ▸ h.wrapped) drained.length
    rw [heq, hlabels]
    refine ⟨rfl, (y :: l) ++ up, again, by simp, hup.imp fun _ _ hn => hn.mono (le_max_left _ _), ?_, ?_, hlast, hF, ?_⟩
    · refine ⟨y, rfl, ?_⟩
      rcases List.eq_nil_or_concat' drained with rfl | ⟨d, z, rfl⟩
      · obtain ⟨x, hx, hxF⟩ := h.front
        rw [hsplit] at hx
        obtain rfl := Option.some.inj hx
        exact Nat.le_trans hxF (Nat.le_max_left _ _)
      · have hz := UInt64.le_iff_toNat_le.mp (hdrained z (by simp))
        have hnext := (hlink z (by simp) y rfl).2
        omega
    · intro x hx hne'
      rcases List.mem_append.mp hx with hx | hx
      · refine Nat.le_trans (h.below x ?_ hne') (Nat.le_max_left _ _)
        rw [hsplit]
        exact List.mem_append_right _ hx
      · exact absurd (hempty x hx) hne'
    · rw [tagged_append, tagged_empty hempty, List.append_nil]

/-- A notification for all epochs. -/
theorem closed_all {m : UInt64} {items : List (Entry N)} (hne : items ≠ []) (hall : ∀ item ∈ items, item.1 ≤ m) :
    Closed (notifyItems m items []).1 := by
  obtain ⟨-, ⟨e, -, -, hafter⟩ | hafter⟩ := notifyItems_all hall hne
  · rw [hafter]
    refine ⟨by simp, List.isChain_singleton _, ?_⟩
    intro item hi
    rw [List.mem_singleton.mp hi]
  · rw [hafter]
    refine ⟨?_, ?_, labels_empty _ _⟩
    · obtain ⟨z, l, rfl⟩ := List.exists_cons_of_ne_nil hne
      exact List.cons_ne_nil _ _
    · exact (List.isChain_cons.mp (labels_chain (endEpoch items, []) items.length)).2

theorem Closed.notify {items : List (Entry N)} (h : Closed items) (m : UInt64) :
    (notifyItems m items []).2 = [] ∧ Closed (notifyItems m items []).1 := by
  obtain ⟨drained, rest, rfl, hdrained, hrest⟩ := split_front items m
  have hsent : ∀ l : List (Entry N), (∀ item ∈ l, item ∈ drained ++ rest) → l.flatMap Prod.snd = [] := by
    intro l hl
    rw [List.flatMap_eq_nil_iff]
    exact fun item hi => h.empty item (hl item hi)
  cases rest with
  | nil =>
    rw [List.append_nil] at h hsent ⊢
    exact ⟨(notifyItems_all hdrained h.ne).1.trans (hsent _ fun _ hi => hi), closed_all h.ne hdrained⟩
  | cons y rest =>
    have heq : notifyItems m (drained ++ y :: rest) [] = _ := notifyItems_eq hdrained hrest (by simp)
    rw [List.append_nil] at heq
    rw [heq]
    refine ⟨hsent _ fun _ hi => List.mem_append_left _ hi, by simp, ?_, ?_⟩
    · obtain ⟨l, z, hl⟩ := (List.eq_nil_or_concat' (y :: rest)).resolve_left (List.cons_ne_nil _ _)
      have hchain := (List.isChain_append.mp h.chain).2.1
      have hlabels := List.isChain_cons.mp (labels_chain z drained.length)
      rw [hl, endEpoch_concat]
      refine List.isChain_append.mpr ⟨hl ▸ hchain, hlabels.2, ?_⟩
      intro a ha b hb
      rw [List.getLast?_concat] at ha
      obtain rfl := Option.some.inj ha
      exact hlabels.1 b hb
    · intro item hi
      rcases List.mem_append.mp hi with hi | hi
      · exact h.empty item (List.mem_append_right _ hi)
      · exact labels_empty _ _ item hi

/-- The items after calls with the floor `F`, where `ids` are pending. -/
def Inv (items : List (Entry N)) (F : Nat) (ids : List (UInt64 × N)) : Prop :=
  (∃ asc wrapped, Open items asc wrapped F ids) ∨ F = 2 ^ 64 ∧ ids = [] ∧ Closed items

theorem inv_new : Inv [((0 : UInt64), ([] : List N))] 0 [] := by
  refine Or.inl ⟨[(0, [])], [], rfl, List.isChain_singleton _, ⟨_, rfl, Nat.le_refl _⟩, ?_, Or.inl rfl, by decide, rfl⟩
  intro x hx hne
  rw [List.mem_singleton.mp hx] at hne
  exact absurd rfl hne

theorem Inv.store {items : List (Entry N)} {F : Nat} {ids : List (UInt64 × N)} (h : Inv items F ids)
    (nid_buffer : List N) {e : UInt64} (he : F ≤ e.toNat) :
    ∃ items', storeItems nid_buffer e items = some items' ∧
      Inv items' (max F e.toNat) (ids ++ nid_buffer.map fun nid => (e, nid)) := by
  rw [Nat.max_eq_right he]
  obtain ⟨asc, wrapped, hopen⟩ | ⟨hF, -⟩ := h
  · obtain ⟨items', asc', hstore, hopen'⟩ := hopen.store nid_buffer he
    exact ⟨items', hstore, Or.inl ⟨asc', wrapped, hopen'⟩⟩
  · have := e.toNat_lt
    omega

theorem Inv.notify {items : List (Entry N)} {F : Nat} {ids : List (UInt64 × N)} (h : Inv items F ids) (m : UInt64) :
    (notifyItems m items []).2 = (ids.filter fun x => x.1 ≤ m).map Prod.snd ∧
      Inv (notifyItems m items []).1 (max F (m.toNat + 1)) (ids.filter fun x => m < x.1) := by
  have hlt := m.toNat_lt
  obtain ⟨asc, wrapped, hopen⟩ | ⟨hF, rfl, hclosed⟩ := h
  · by_cases hm : m.toNat + 1 < 2 ^ 64
    · obtain ⟨hsent, hafter⟩ := hopen.notify hm
      exact ⟨hsent, Or.inl hafter⟩
    · have hall : ∀ x : UInt64, x ≤ m := fun x => UInt64.le_iff_toNat_le.mpr (by have := x.toNat_lt; omega)
      have hne : items ≠ [] := by
        obtain ⟨x, hx, -⟩ := hopen.front
        rw [hopen.split]
        rintro hnil
        rw [(List.append_eq_nil_iff.mp hnil).1] at hx
        cases hx
      have htagged : tagged items = ids := by
        rw [hopen.split, tagged_append, hopen.ids]
        rcases hopen.wrapped with rfl | ⟨-, hempty⟩
        · exact List.append_nil _
        · rw [tagged_empty hempty, List.append_nil]
      refine ⟨?_, Or.inr ⟨?_, ?_, closed_all hne fun item _ => hall item.1⟩⟩
      · rw [(notifyItems_all (fun item _ => hall item.1) hne).1, ← map_tagged, htagged,
          List.filter_eq_self.mpr fun x _ => decide_eq_true (hall x.1)]
      · have := hopen.floor
        omega
      · rw [List.filter_eq_nil_iff]
        intro x _
        simpa using hall x.1
  · obtain ⟨hsent, hafter⟩ := hclosed.notify m
    exact ⟨hsent, Or.inr ⟨by omega, rfl, hafter⟩⟩

theorem labels_of_chain {x : Entry N} {items : List (Entry N)}
    (hchain : (x :: items).IsChain fun x y => y.1 = x.1 + 1) (hempty : ∀ item ∈ items, item.2 = []) :
    items = labels N x.1 items.length := by
  induction items generalizing x with
  | nil => rfl
  | cons y items ih =>
    obtain ⟨hy, hchain⟩ := List.isChain_cons_cons.mp hchain
    have ih := ih hchain fun item hi => hempty item (List.mem_cons_of_mem _ hi)
    have hyids : y.2 = [] := hempty y List.mem_cons_self
    rw [hy] at ih
    rw [List.length_cons, labels, ← ih]
    exact congrArg (· :: items) (Prod.ext hy hyids)

theorem Closed.ordered {items : List (Entry N)} (h : Closed items) : Ordered items := by
  obtain ⟨x, l, rfl⟩ := List.exists_cons_of_ne_nil h.ne
  have hl := labels_of_chain h.chain fun item hi => h.empty item (List.mem_cons_of_mem _ hi)
  obtain ⟨up, again, hlabels, hup, hlast⟩ := labels_split x l.length
  rw [hlabels] at hl
  have hchain : (x :: up).IsChain (Next 0) := hup.imp fun a b hab => ⟨by omega, fun _ => hab⟩
  refine ⟨x :: up, again, by rw [hl]; rfl, chain_pairwise hchain, hlast.imp_right fun hend => ⟨hend, ?_⟩⟩
  intro item hi
  refine h.empty item (List.mem_cons_of_mem _ ?_)
  rw [hl]
  exact List.mem_append_right _ hi

theorem Inv.ordered {items : List (Entry N)} {F : Nat} {ids : List (UInt64 × N)} (h : Inv items F ids) :
    Ordered items := by
  obtain ⟨asc, wrapped, hopen⟩ | ⟨-, -, hclosed⟩ := h
  · exact ⟨asc, wrapped, hopen.split, chain_pairwise hopen.chain, hopen.wrapped⟩
  · exact hclosed.ordered

/-- The buffer after the calls: its list is in order, `end_` is the last item, and what was
delivered and what is left is as the calls ask for. -/
structure Delivered (calls : List (Call N)) (b : NidBuffer N) (outs : List (List N)) : Prop where
  list : ∃ ps, Linked b ps ∧ Ordered (content b ps)
  outs : outs = (deliveries calls).map (·.map Prod.snd)
  order : (deliveries calls).flatten.Pairwise fun x y => x.1 ≤ y.1
  size : b.size_ = (pending calls).length

theorem NidBuffer.run_append (b : NidBuffer N) (calls : List (Call N)) (c : Call N) :
    b.run (calls ++ [c]) = (b.run calls).bind fun s => (s.1.call c).map fun r => (r.1, s.2 ++ [r.2]) := by
  rw [NidBuffer.run, List.foldlM_append, NidBuffer.run]
  simp only [List.foldlM_cons, List.foldlM_nil, Option.bind_eq_bind, bind_pure]

/-- What is pending splits into what is due and the rest. -/
theorem length_pending (calls : List (Call N)) (m : UInt64) :
    (pending (calls ++ [.notify m])).length = (pending calls).length - (due calls m).length := by
  have hsum : (pending calls).length = _ := List.length_eq_length_filter_add fun x : UInt64 × N => decide (x.1 ≤ m)
  have hrest : (fun x : UInt64 × N => decide (m < x.1)) = fun x => !decide (x.1 ≤ m) := by
    funext x
    simp [← UInt64.not_le]
  rw [pending_notify, hrest, due]
  omega

/-- Every call is carried out. -/
theorem run_inv {calls : List (Call N)} (h : Admissible calls) :
    ∃ b outs ps, NidBuffer.new.run calls = some (b, outs) ∧ Linked b ps ∧
      Inv (content b ps) (floor calls) (pending calls) ∧ outs = (deliveries calls).map (·.map Prod.snd) ∧
      b.size_ = (pending calls).length := by
  induction calls using List.reverseRecOn with
  | nil =>
    refine ⟨.new, [], [0], rfl, ⟨List.nodup_singleton _, by simp [NidBuffer.new], ⟨rfl, trivial⟩, rfl, rfl⟩, inv_new,
      rfl, rfl⟩
  | append_singleton calls c ih =>
    obtain ⟨hcalls, hc⟩ := (admissible_append calls c).mp h
    obtain ⟨b, outs, ps, hrun, hl, hinv, houts, hsize⟩ := ih hcalls
    rw [NidBuffer.run_append, hrun, Option.bind_some, floor_append, deliveries_append, List.map_append, ← houts]
    cases c with
    | store ids e =>
      obtain ⟨items, hstore, hinv'⟩ := hinv.store ids (floor_le hc)
      obtain ⟨b', ps', hb, hl', hcontent, hsize'⟩ := hl.store hstore
      refine ⟨b', _, ps', by simp only [NidBuffer.call, hb, Option.map_some]; rfl, hl', ?_, rfl, ?_⟩
      · rw [hcontent, pending_store]
        simpa [floor] using hinv'
      · rw [hsize', hsize, pending_store, List.length_append, List.length_map]
    | notify m =>
      obtain ⟨hsent, hinv'⟩ := hinv.notify m
      obtain ⟨b', ps', hb, hl', hcontent, hsize'⟩ := hl.notify m
      refine ⟨b', _, ps', by simp only [NidBuffer.call, hb, Option.map_some]; rfl, hl', ?_, ?_, ?_⟩
      · rw [hcontent, pending_notify]
        simpa [floor] using hinv'
      · rw [hsent]
        rfl
      · rw [hsize', hsent, hsize, length_pending, List.length_map]
        rfl

theorem nid_buffer_delivers_once (calls : List (Call N)) (h : Admissible calls) :
    ∃ b outs, NidBuffer.new.run calls = some (b, outs) ∧ Delivered calls b outs := by
  obtain ⟨b, outs, ps, hrun, hl, hinv, houts, hsize⟩ := run_inv h
  exact ⟨b, outs, hrun, ⟨ps, hl, hinv.ordered⟩, houts, (inOrder h).delivered, hsize⟩

/-- Two epochs with a gap, a notification between them and one behind both. -/
def gapCalls : List (Call Nat) := [.store [1] 5, .store [2] 9, .notify 6, .store [3] 9, .notify 20]

theorem nid_buffer_delivers_once_gap :
    ∃ b outs, NidBuffer.new.run gapCalls = some (b, outs) ∧ Delivered gapCalls b outs :=
  nid_buffer_delivers_once gapCalls (by decide)

example : (NidBuffer.new.run gapCalls).map Prod.snd = some [[], [], [1], [], [2, 3]] := by decide

/-- The item that is recycled behind the greatest label gets the label 0. -/
theorem labels_not_increasing :
    ¬ ∀ calls : List (Call Nat), Admissible calls → ∃ b outs ps, NidBuffer.new.run calls = some (b, outs) ∧
      Linked b ps ∧ (content b ps).Pairwise fun x y => x.1 < y.1 := by
  intro h
  obtain ⟨b, outs, ps, hrun, hl, hasc⟩ := h [.store [7] lastEpoch, .notify (lastEpoch - 1)]
    (List.pairwise_pair.mpr trivial)
  obtain rfl := congrArg Prod.fst (Option.some.inj hrun)
  have hfront : ps.head? = some 1 := hl.front
  cases ps with
  | nil => cases hfront
  | cons p ps =>
    obtain rfl := Option.some.inj hfront
    have hnext : some 0 = ps.head?.or none := hl.seg.1
    cases ps with
    | nil => cases hnext
    | cons q ps =>
      obtain rfl := Option.some.inj hnext
      have hlt := (List.pairwise_cons.mp hasc).1 _ List.mem_cons_self
      exact absurd hlt (by decide)

end Cassa.SiloCC.NidMemory

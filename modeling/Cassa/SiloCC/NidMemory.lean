import Mathlib.Algebra.Group.Nat.Defs
import Mathlib.Data.List.Basic
import Mathlib.Data.List.Nodup
import Mathlib.Data.List.Perm.Subperm
import Mathlib.Logic.Function.Basic

/-!
# The notification buffer in memory

`NidBuffer` of `silo_notifier.cpp` with its pointers: the items are linked from `front_` to
`end_`, `store` walks the list to the item of an epoch, and `notify` takes items from the front,
gives them the epochs after that of `end_` and links them in again at the end. Epochs are words
of 64 bits. A notification id counts as delivered when the loop of `notify` has come to it.
-/

namespace Cassa.SiloCC.NidMemory

variable {N : Type}

structure NidBufferItem (N : Type) where
  epoch_ : UInt64
  buffer_ : List N
  next_ : Option Nat

structure NidBuffer (N : Type) where
  mem : Nat → NidBufferItem N
  /-- the next address that `new` returns -/
  fresh : Nat
  front_ : Nat
  end_ : Nat
  size_ : Nat
  max_epoch_ : UInt64

namespace NidBuffer

def new : NidBuffer N := ⟨fun _ => ⟨0, [], none⟩, 1, 0, 0, 0, 0⟩

def modify (b : NidBuffer N) (p : Nat) (f : NidBufferItem N → NidBufferItem N) : NidBuffer N :=
  { b with mem := Function.update b.mem p (f (b.mem p)) }

/-- `itr->next_ = end_ = new NidBufferItem(epoch)` and the line after it. -/
def append (b : NidBuffer N) (itr : Nat) (epoch : UInt64) : NidBuffer N :=
  let b := { b with
    mem := Function.update b.mem b.fresh ⟨epoch, [], none⟩
    fresh := b.fresh + 1
    end_ := b.fresh
    max_epoch_ := if b.max_epoch_ < epoch then epoch else b.max_epoch_ }
  b.modify itr fun item => { item with next_ := some b.end_ }

/-- The loop of `store` and what follows it; `none` where the assertion fails. -/
def storeLoop (nid_buffer : List N) (epoch : UInt64) : Nat → NidBuffer N → Nat → Option (NidBuffer N)
  | 0, _, _ => none
  | fuel + 1, b, itr =>
    if (b.mem itr).epoch_ < epoch then
      match (b.mem itr).next_ with
      | none => storeLoop nid_buffer epoch fuel (b.append itr epoch) (b.append itr epoch).end_
      | some next => storeLoop nid_buffer epoch fuel b next
    else if (b.mem itr).epoch_ = epoch then
      some { b.modify itr fun item => { item with buffer_ := item.buffer_ ++ nid_buffer } with
        size_ := b.size_ + nid_buffer.length }
    else none

/-- A walk over more items than there are goes in a circle. -/
def store (b : NidBuffer N) (nid_buffer : List N) (epoch : UInt64) : Option (NidBuffer N) :=
  storeLoop nid_buffer epoch (b.fresh + 2) b b.front_

/-- `size_ -= n` and `buffer_.clear()` -/
def clear (b : NidBuffer N) : NidBuffer N :=
  { b.modify b.front_ fun item => { item with buffer_ := [] } with
    size_ := b.size_ - (b.mem b.front_).buffer_.length }

/-- The assignments under `recycle buffer`, in their order. -/
def recycle (b : NidBuffer N) : NidBuffer N :=
  let b := b.modify b.front_ fun item => { item with epoch_ := (b.mem b.end_).epoch_ + 1 }
  let b := b.modify b.end_ fun item => { item with next_ := some b.front_ }
  let b := { b with end_ := b.front_ }
  let b := { b with front_ := (b.mem b.front_).next_.getD b.front_ }
  b.modify b.end_ fun item => { item with next_ := none }

/-- The loop of `notify`: the buffer afterwards, and what has been sent. -/
def notifyLoop (min_dl : UInt64) (orig_front : Nat) : Nat → NidBuffer N → Option (NidBuffer N × List N)
  | 0, _ => none
  | fuel + 1, b =>
    if (b.mem b.front_).epoch_ ≤ min_dl then
      match (b.mem b.front_).next_ with
      | none => some (b.clear, (b.mem b.front_).buffer_)
      | some _ =>
        if b.clear.recycle.front_ = orig_front then some (b.clear.recycle, (b.mem b.front_).buffer_)
        else (notifyLoop min_dl orig_front fuel b.clear.recycle).map fun r =>
          (r.1, (b.mem b.front_).buffer_ ++ r.2)
    else some (b, [])

def notify (b : NidBuffer N) (min_dl : UInt64) : Option (NidBuffer N × List N) :=
  notifyLoop min_dl b.front_ (b.fresh + 1) b

end NidBuffer

/-- An item without its place in memory. -/
abbrev Entry (N : Type) := UInt64 × List N

def entry (item : NidBufferItem N) : Entry N := (item.epoch_, item.buffer_)

/-- The items at `ps` are linked in this order, and the last one to `t`. -/
def Seg (mem : Nat → NidBufferItem N) : List Nat → Option Nat → Prop
  | [], _ => True
  | p :: ps, t => (mem p).next_ = ps.head?.or t ∧ Seg mem ps t

/-- The items from `front_` to `end_`. -/
structure Linked (b : NidBuffer N) (ps : List Nat) : Prop where
  nodup : ps.Nodup
  lt : ∀ p ∈ ps, p < b.fresh
  seg : Seg b.mem ps none
  front : ps.head? = some b.front_
  last : ps.getLast? = some b.end_

def content (b : NidBuffer N) (ps : List Nat) : List (Entry N) := ps.map fun p => entry (b.mem p)

section

variable {mem mem' : Nat → NidBufferItem N} {t : Option Nat}

theorem seg_append {ps ps' : List Nat} : Seg mem (ps ++ ps') t ↔ Seg mem ps (ps'.head?.or t) ∧ Seg mem ps' t := by
  induction ps with
  | nil => simp [Seg]
  | cons p ps ih =>
    simp only [List.cons_append, Seg, ih, and_assoc]
    cases ps <;> simp

theorem Seg.frame {ps : List Nat} (h : Seg mem ps t) (hmem : ∀ p ∈ ps, (mem' p).next_ = (mem p).next_) :
    Seg mem' ps t := by
  induction ps with
  | nil => exact trivial
  | cons p ps ih =>
    refine ⟨(hmem p List.mem_cons_self).trans h.1, ih h.2 ?_⟩
    intro q hq
    exact hmem q (List.mem_cons_of_mem _ hq)

theorem content_congr {b b' : NidBuffer N} {ps : List Nat} (h : ∀ p ∈ ps, entry (b'.mem p) = entry (b.mem p)) :
    content b' ps = content b ps :=
  List.map_congr_left h

theorem content_cons (b : NidBuffer N) (p : Nat) (ps : List Nat) :
    content b (p :: ps) = ((b.mem p).epoch_, (b.mem p).buffer_) :: content b ps := rfl

theorem content_append (b : NidBuffer N) (ps ps' : List Nat) : content b (ps ++ ps') = content b ps ++ content b ps' :=
  List.map_append

end

/-- `store` on the list: the assertion fails where the epoch is passed over. -/
def storeItems (nid_buffer : List N) (epoch : UInt64) : List (Entry N) → Option (List (Entry N))
  | [] => some [(epoch, nid_buffer)]
  | (epoch_, ids) :: rest =>
    if epoch_ < epoch then (storeItems nid_buffer epoch rest).map ((epoch_, ids) :: ·)
    else if epoch_ = epoch then some ((epoch_, ids ++ nid_buffer) :: rest)
    else none

def endEpoch (items : List (Entry N)) : UInt64 := (items.getLast?.map Prod.fst).getD 0

/-- `notify` on the list: the items that were there before, then those that were linked in again. -/
def notifyItems (min_dl : UInt64) : List (Entry N) → List (Entry N) → List (Entry N) × List N
  | [], again => (again, [])
  | (epoch_, ids) :: rest, again =>
    if epoch_ ≤ min_dl then
      if rest = [] ∧ again = [] then ([(epoch_, [])], ids)
      else
        let after := notifyItems min_dl rest (again ++ [(endEpoch (rest ++ again) + 1, [])])
        (after.1, ids ++ after.2)
    else ((epoch_, ids) :: rest ++ again, [])

section

variable {b : NidBuffer N}

/-- More ids in the item `p`. -/
theorem Linked.addIds {pre rest : List Nat} {p : Nat} (hl : Linked b (pre ++ p :: rest)) (nid_buffer : List N)
    (n : Nat) :
    let b' := { b.modify p fun item => { item with buffer_ := item.buffer_ ++ nid_buffer } with size_ := n }
    Linked b' (pre ++ p :: rest) ∧ content b' (pre ++ p :: rest) =
      content b pre ++ ((b.mem p).epoch_, (b.mem p).buffer_ ++ nid_buffer) :: content b rest := by
  intro b'
  have hself : b'.mem p = { b.mem p with buffer_ := (b.mem p).buffer_ ++ nid_buffer } := Function.update_self ..
  have hother : ∀ q, q ≠ p → b'.mem q = b.mem q := fun q hq => Function.update_of_ne hq ..
  have hnext : ∀ q, (b'.mem q).next_ = (b.mem q).next_ := by
    intro q
    by_cases hq : q = p
    · rw [hq, hself]
    · rw [hother q hq]
  have hnodup := List.nodup_append.mp hl.nodup
  refine ⟨⟨hl.nodup, hl.lt, hl.seg.frame fun q _ => hnext q, hl.front, hl.last⟩, ?_⟩
  rw [content_append, content_congr fun q hq => ?_]
  · congr 1
    rw [content, List.map_cons, hself]
    refine congrArg _ (content_congr fun q hq => ?_)
    rw [hother q]
    rintro rfl
    exact (List.nodup_cons.mp hnodup.2.1).1 hq
  · rw [hother q]
    rintro rfl
    exact hnodup.2.2 q hq q List.mem_cons_self rfl

/-- A new item behind the last one. -/
theorem Linked.append {pre : List Nat} {p : Nat} (hl : Linked b (pre ++ [p])) (epoch : UInt64) :
    Linked (b.append p epoch) (pre ++ [p] ++ [b.fresh]) ∧ (b.append p epoch).end_ = b.fresh ∧
      (b.append p epoch).size_ = b.size_ ∧ (b.append p epoch).mem b.fresh = ⟨epoch, [], none⟩ ∧
      content (b.append p epoch) (pre ++ [p]) = content b (pre ++ [p]) := by
  have hp : p < b.fresh := hl.lt p (by simp)
  have hnew : (b.append p epoch).mem b.fresh = ⟨epoch, [], none⟩ := by
    simp only [NidBuffer.append, NidBuffer.modify]
    rw [Function.update_of_ne (Nat.ne_of_gt hp), Function.update_self]
  have hself : (b.append p epoch).mem p = { b.mem p with next_ := some b.fresh } := by
    simp only [NidBuffer.append, NidBuffer.modify]
    rw [Function.update_self, Function.update_of_ne (Nat.ne_of_lt hp)]
  have hother : ∀ q < b.fresh, q ≠ p → (b.append p epoch).mem q = b.mem q := by
    intro q hq hqp
    simp only [NidBuffer.append, NidBuffer.modify]
    rw [Function.update_of_ne hqp, Function.update_of_ne (Nat.ne_of_lt hq)]
  have hnodup := List.nodup_append.mp hl.nodup
  have hseg := seg_append.mp hl.seg
  have hpre : ∀ q ∈ pre, (b.append p epoch).mem q = b.mem q := by
    intro q hq
    refine hother q (hl.lt q (List.mem_append_left _ hq)) ?_
    rintro rfl
    exact hnodup.2.2 q hq q (List.mem_singleton_self q) rfl
  refine ⟨⟨?_, ?_, ?_, ?_, ?_⟩, rfl, rfl, hnew, content_congr ?_⟩
  · refine List.nodup_append.mpr ⟨hl.nodup, List.nodup_singleton _, ?_⟩
    intro q hq q' hq'
    rw [List.mem_singleton.mp hq']
    exact Nat.ne_of_lt (hl.lt q hq)
  · intro q hq
    change q < b.fresh + 1
    rcases List.mem_append.mp hq with hq | hq
    · exact Nat.lt_succ_of_lt (hl.lt q hq)
    · rw [List.mem_singleton.mp hq]
      exact Nat.lt_succ_self _
  · rw [seg_append, seg_append]
    refine ⟨⟨?_, ?_⟩, ?_⟩
    · exact hseg.1.frame fun q hq => by rw [hpre q hq]
    · exact ⟨by rw [hself]; rfl, trivial⟩
    · exact ⟨by rw [hnew]; rfl, trivial⟩
  · rw [List.head?_append_of_ne_nil _ (by simp)]
    exact hl.front
  · rw [List.getLast?_append]
    rfl
  · intro q hq
    rcases List.mem_append.mp hq with hq | hq
    · rw [hpre q hq]
    · rw [List.mem_singleton.mp hq, hself]
      rfl

/-- The walk of `store` ends at the item `p`. -/
theorem Linked.storeHere {nid_buffer : List N} {epoch : UInt64} {pre rest : List Nat} {p : Nat}
    {items : List (Entry N)} (hl : Linked b (pre ++ p :: rest)) (hlt : ¬ (b.mem p).epoch_ < epoch)
    (hitems : storeItems nid_buffer epoch (content b (p :: rest)) = some items) (fuel : Nat) :
    ∃ b' ps, NidBuffer.storeLoop nid_buffer epoch (fuel + 1) b p = some b' ∧ Linked b' ps ∧
      content b' ps = content b pre ++ items ∧ b'.size_ = b.size_ + nid_buffer.length := by
  rw [content_cons, storeItems, if_neg hlt] at hitems
  rw [NidBuffer.storeLoop, if_neg hlt]
  by_cases heq : (b.mem p).epoch_ = epoch
  · rw [if_pos heq] at hitems ⊢
    obtain rfl := (Option.some.inj hitems).symm
    obtain ⟨hadd, hc⟩ := hl.addIds nid_buffer (b.size_ + nid_buffer.length)
    exact ⟨_, _, rfl, hadd, hc, rfl⟩
  · rw [if_neg heq] at hitems
    cases hitems

/-- The walk of `store` from the item `p` on. -/
theorem Linked.storeLoop {nid_buffer : List N} {epoch : UInt64} {rest : List Nat} {pre : List Nat} {p : Nat}
    {items : List (Entry N)} (hl : Linked b (pre ++ p :: rest))
    (hitems : storeItems nid_buffer epoch (content b (p :: rest)) = some items) {fuel : Nat}
    (hfuel : rest.length + 1 < fuel) :
    ∃ b' ps, NidBuffer.storeLoop nid_buffer epoch fuel b p = some b' ∧ Linked b' ps ∧
      content b' ps = content b pre ++ items ∧ b'.size_ = b.size_ + nid_buffer.length := by
  induction rest generalizing pre p items fuel with
  | nil =>
    obtain ⟨fuel, rfl⟩ : ∃ f, fuel = f + 1 + 1 := ⟨fuel - 2, by simp at hfuel; omega⟩
    have hnext : (b.mem p).next_ = none := (seg_append.mp hl.seg).2.1
    by_cases hlt : (b.mem p).epoch_ < epoch
    · rw [content_cons, storeItems, if_pos hlt] at hitems
      obtain rfl := (Option.some.inj hitems).symm
      obtain ⟨hl', hend, hsize, hnew, hcontent⟩ := hl.append epoch
      obtain ⟨hadd, hc⟩ := hl'.addIds nid_buffer (b.size_ + nid_buffer.length)
      rw [NidBuffer.storeLoop, if_pos hlt, hnext]
      simp only [hend, NidBuffer.storeLoop, hnew, UInt64.lt_irrefl, if_false, if_true, hsize]
      refine ⟨_, _, rfl, hadd, ?_, rfl⟩
      rw [hc, hnew, hcontent, content_append, List.append_assoc]
      rfl
    · exact hl.storeHere hlt hitems _
  | cons q rest ih =>
    obtain ⟨fuel, rfl⟩ : ∃ f, fuel = f + 1 := ⟨fuel - 1, by simp at hfuel; omega⟩
    have hnext : (b.mem p).next_ = some q := (seg_append.mp hl.seg).2.1
    by_cases hlt : (b.mem p).epoch_ < epoch
    · rw [content_cons, storeItems, if_pos hlt, Option.map_eq_some_iff] at hitems
      obtain ⟨items', hitems', rfl⟩ := hitems
      rw [NidBuffer.storeLoop, if_pos hlt, hnext]
      have hl' : Linked b ((pre ++ [p]) ++ q :: rest) := by
        rw [List.append_assoc]
        exact hl
      obtain ⟨b', ps, hstore, hlinked, hcontent, hsize⟩ := ih hl' hitems' (show rest.length + 1 < fuel by simpa using hfuel)
      refine ⟨b', ps, hstore, hlinked, ?_, hsize⟩
      rw [hcontent, content_append, List.append_assoc]
      rfl
    · exact hl.storeHere hlt hitems _

theorem Linked.length_le {ps : List Nat} (hl : Linked b ps) : ps.length ≤ b.fresh := by
  have hsub : ps ⊆ List.range b.fresh := fun p hp => List.mem_range.mpr (hl.lt p hp)
  simpa using (List.subperm_of_subset hl.nodup hsub).length_le

theorem Linked.store {nid_buffer : List N} {epoch : UInt64} {ps : List Nat} {items : List (Entry N)}
    (hl : Linked b ps) (hitems : storeItems nid_buffer epoch (content b ps) = some items) :
    ∃ b' ps', b.store nid_buffer epoch = some b' ∧ Linked b' ps' ∧ content b' ps' = items ∧
      b'.size_ = b.size_ + nid_buffer.length := by
  have hlen := hl.length_le
  cases ps with
  | nil => cases hl.front
  | cons p rest =>
    obtain rfl := Option.some.inj hl.front
    rw [List.length_cons] at hlen
    obtain ⟨b', ps', hstore, hl', hcontent, hsize⟩ := Linked.storeLoop
      (show Linked b ([] ++ b.front_ :: rest) from hl) hitems (show rest.length + 1 < b.fresh + 2 by omega)
    exact ⟨b', ps', hstore, hl', hcontent, hsize⟩

/-- The memory after an item was emptied and recycled. -/
theorem mem_recycle (hne : b.front_ ≠ b.end_) :
    b.clear.recycle.mem b.front_ = ⟨(b.mem b.end_).epoch_ + 1, [], none⟩ ∧
      b.clear.recycle.mem b.end_ = { b.mem b.end_ with next_ := some b.front_ } ∧
      (∀ q, q ≠ b.front_ → q ≠ b.end_ → b.clear.recycle.mem q = b.mem q) ∧
      b.clear.recycle.front_ = (b.mem b.front_).next_.getD b.front_ ∧ b.clear.recycle.end_ = b.front_ := by
  refine ⟨?_, ?_, ?_, ?_, rfl⟩
  · simp [NidBuffer.recycle, NidBuffer.clear, NidBuffer.modify, hne, hne.symm]
  · simp [NidBuffer.recycle, NidBuffer.clear, NidBuffer.modify, hne, hne.symm]
  · intro q hq hq'
    simp [NidBuffer.recycle, NidBuffer.clear, NidBuffer.modify, hne, hne.symm, hq, hq']
  · simp [NidBuffer.recycle, NidBuffer.clear, NidBuffer.modify, hne, hne.symm]

/-- The front item is taken out, emptied and linked in again behind the last one. -/
theorem Linked.recycle {p : Nat} {qs : List Nat} (hl : Linked b (p :: qs)) (hne : qs ≠ []) :
    Linked b.clear.recycle (qs ++ [p]) ∧ content b.clear.recycle (qs ++ [p]) =
      content b qs ++ [(endEpoch (content b qs) + 1, [])] := by
  obtain ⟨l, z, rfl⟩ := (List.eq_nil_or_concat' qs).resolve_left hne
  obtain rfl : p = b.front_ := Option.some.inj hl.front
  have hend : z = b.end_ := by
    have := hl.last
    rw [← List.cons_append, List.getLast?_concat] at this
    exact Option.some.inj this
  subst z
  have hnodup := List.nodup_cons.mp hl.nodup
  have hfront : b.front_ ≠ b.end_ := by
    intro he
    exact hnodup.1 (he ▸ List.mem_append_right _ (List.mem_singleton_self _))
  obtain ⟨hself, hlast, hother, hfront', hend'⟩ := mem_recycle hfront
  have hmem : ∀ q ∈ l, b.clear.recycle.mem q = b.mem q := by
    intro q hq
    refine hother q ?_ ?_
    · rintro rfl
      exact hnodup.1 (List.mem_append_left _ hq)
    · rintro rfl
      exact (List.nodup_append.mp hnodup.2).2.2 _ hq _ (List.mem_singleton_self _) rfl
  have hseg := seg_append.mp hl.seg.2
  refine ⟨⟨?_, ?_, ?_, ?_, ?_⟩, ?_⟩
  · exact List.nodup_append.mpr ⟨hnodup.2, List.nodup_singleton _, fun q hq q' hq' he =>
      hnodup.1 (List.mem_singleton.mp hq' ▸ he ▸ hq)⟩
  · intro q hq
    refine hl.lt q ?_
    rcases List.mem_append.mp hq with hq | hq
    · exact List.mem_cons_of_mem _ hq
    · rw [List.mem_singleton.mp hq]
      exact List.mem_cons_self
  · rw [seg_append, seg_append]
    refine ⟨⟨?_, ?_⟩, ?_⟩
    · exact hseg.1.frame fun q hq => by rw [hmem q hq]
    · exact ⟨by rw [hlast]; rfl, trivial⟩
    · exact ⟨by rw [hself]; rfl, trivial⟩
  · have hnext : (b.mem b.front_).next_ = (l ++ [b.end_]).head? := by
      rw [hl.seg.1, Option.or_none]
    rw [hfront', hnext]
    cases l <;> rfl
  · rw [List.getLast?_concat, hend']
  · have hl' : content b.clear.recycle l = content b l := content_congr fun q hq => by rw [hmem q hq]
    rw [content_append, content_append, content_append, hl']
    simp [content, entry, hself, hlast, endEpoch]

theorem size_recycle (b : NidBuffer N) :
    b.clear.recycle.size_ = b.size_ - (b.mem b.front_).buffer_.length := rfl

theorem Linked.clear {p : Nat} (hl : Linked b [p]) :
    Linked b.clear [p] ∧ content b.clear [p] = [((b.mem p).epoch_, [])] := by
  obtain rfl : p = b.front_ := Option.some.inj hl.front
  have hself : b.clear.mem b.front_ = { b.mem b.front_ with buffer_ := [] } := Function.update_self ..
  refine ⟨⟨hl.nodup, hl.lt, ?_, hl.front, hl.last⟩, ?_⟩
  · exact hl.seg.frame fun q hq => by rw [List.mem_singleton.mp hq, hself]
  · rw [content_cons, hself]
    rfl

/-- The loop of `notify` with the items `ps` still to look at and `again` behind them. -/
theorem Linked.notifyLoop {min_dl : UInt64} {ps again : List Nat} {orig_front : Nat} (hl : Linked b (ps ++ again))
    (hne : ps ≠ []) (horig : (again ++ ps).head? = some orig_front) {fuel : Nat} (hfuel : ps.length < fuel) :
    ∃ b' ps', NidBuffer.notifyLoop min_dl orig_front fuel b =
        some (b', (notifyItems min_dl (content b ps) (content b again)).2) ∧
      Linked b' ps' ∧ content b' ps' = (notifyItems min_dl (content b ps) (content b again)).1 ∧
      b'.size_ = b.size_ - (notifyItems min_dl (content b ps) (content b again)).2.length := by
  induction ps generalizing b again fuel with
  | nil => exact absurd rfl hne
  | cons p ps ih =>
    obtain ⟨fuel, rfl⟩ : ∃ f, fuel = f + 1 := ⟨fuel - 1, by omega⟩
    obtain rfl : p = b.front_ := Option.some.inj hl.front
    rw [NidBuffer.notifyLoop, content_cons, notifyItems]
    by_cases hle : (b.mem b.front_).epoch_ ≤ min_dl
    · rw [if_pos hle, if_pos hle]
      by_cases hall : ps ++ again = []
      · obtain ⟨rfl, rfl⟩ := List.append_eq_nil_iff.mp hall
        obtain ⟨hl', hcontent⟩ := Linked.clear hl
        have hnext : (b.mem b.front_).next_ = none := hl.seg.1
        rw [hnext, if_pos (show content b [] = [] ∧ content b [] = [] from ⟨rfl, rfl⟩)]
        exact ⟨_, _, rfl, hl', hcontent, rfl⟩
      · have hl₀ : Linked b (b.front_ :: (ps ++ again)) := hl
        obtain ⟨hl', hcontent⟩ := hl₀.recycle hall
        obtain ⟨next, hnext⟩ : ∃ next, (b.mem b.front_).next_ = some next := by
          rw [hl.seg.1, Option.or_none]
          exact ⟨_, List.head?_eq_some_head hall⟩
        have hnil : ¬ (content b ps = [] ∧ content b again = []) := by
          rintro ⟨hps, hagain⟩
          exact hall (List.append_eq_nil_iff.mpr ⟨List.map_eq_nil_iff.mp hps, List.map_eq_nil_iff.mp hagain⟩)
        rw [hnext, if_neg hnil]
        rw [List.append_assoc, content_append, content_append b ps again, List.append_assoc] at hcontent
        obtain ⟨hps, hagain⟩ := List.append_inj hcontent (by simp [content])
        rw [List.append_assoc] at hl'
        have horig' : (again ++ [b.front_] ++ ps).head? = some orig_front := by
          rw [List.append_assoc]
          exact horig
        cases ps with
        | nil =>
          have hfront : b.clear.recycle.front_ = orig_front := by
            refine Option.some.inj (hl'.front.symm.trans ?_)
            rw [List.append_nil] at horig'
            exact horig'
          rw [if_pos hfront]
          refine ⟨_, _, ?_, hl', hagain, ?_⟩
          · simp only [content, List.map_nil, notifyItems, List.append_nil]
          · simp only [size_recycle, content, List.map_nil, notifyItems, List.append_nil]
        | cons q ps =>
          have hfront : b.clear.recycle.front_ ≠ orig_front := by
            obtain rfl : q = b.clear.recycle.front_ := Option.some.inj hl'.front
            rintro rfl
            have hmem : b.clear.recycle.front_ ∈ again ++ [b.front_] := by
              rw [List.head?_append_of_ne_nil _ (by simp)] at horig'
              exact List.mem_of_head? horig'
            exact (List.nodup_append.mp hl'.nodup).2.2 _ List.mem_cons_self _ hmem rfl
          rw [if_neg hfront]
          obtain ⟨b', ps', hloop, hlinked, hcontent', hsize⟩ := ih hl' (List.cons_ne_nil q ps) horig'
            (show (q :: ps).length < fuel by simpa using hfuel)
          rw [hps, hagain] at hloop hcontent' hsize
          refine ⟨b', ps', by rw [hloop]; rfl, hlinked, hcontent', ?_⟩
          rw [hsize, size_recycle, List.length_append, Nat.sub_sub]
    · rw [if_neg hle, if_neg hle]
      refine ⟨b, _, rfl, hl, ?_, rfl⟩
      rw [content_append, content_cons]

theorem Linked.notify {ps : List Nat} (hl : Linked b ps) (min_dl : UInt64) :
    ∃ b' ps', b.notify min_dl = some (b', (notifyItems min_dl (content b ps) []).2) ∧ Linked b' ps' ∧
      content b' ps' = (notifyItems min_dl (content b ps) []).1 ∧
      b'.size_ = b.size_ - (notifyItems min_dl (content b ps) []).2.length := by
  have hlen := hl.length_le
  have hne : ps ≠ [] := by
    rintro rfl
    cases hl.front
  exact Linked.notifyLoop (show Linked b (ps ++ []) by rwa [List.append_nil]) hne hl.front
    (show ps.length < b.fresh + 1 by omega)

end

end Cassa.SiloCC.NidMemory

import Cassa.SiloCC.Versions
import Cassa.Lib.History
import Mathlib.Data.List.Find

/-!
# Serializability of the commit protocol

A transaction takes its place in the serial order when `lockWriteSet` has locked its
last element, and loses it again when validation fails. The list of places, with
what each transaction has validated and installed so far, is a history in the sense
of `Cassa.Lib.History`; the steps of the machine are the steps of that history.
-/

namespace Cassa.SiloCC.Occ

open Cassa.Lib.Runs Cassa.Lib.History Cassa.Lib.History.Txn

variable {W K β : Type} [DecidableEq W] [DecidableEq K] [DecidableEq β]

/-- The bodies before the first transaction. -/
def bodies (s : State W K β) (k : K) : Option β := (s.tree k).map s.body

/-- One transaction executed alone. -/
def Committed.apply (db : K → Option β) (c : Committed W K β) : K → Option β := fun k =>
  match searchWriteSet c.write_set_ k with
  | some we => some we.new_value_body_
  | none => db k

/-- Both transactions read and write the key, and read it at the same version. -/
def LostUpdate (c c' : Committed W K β) : Prop :=
  ∃ re ∈ c.read_set_, ∃ re' ∈ c'.read_set_, re.key_ = re'.key_ ∧
    re.tidword_.ver = re'.tidword_.ver ∧
    (∃ we ∈ c.write_set_, we.key_ = re.key_) ∧ ∃ we ∈ c'.write_set_, we.key_ = re.key_

/-- Some order of the committed transactions explains every read by the last
predecessor's body, and the final bodies once no worker is committing; and no two of
them update one record from the same version. -/
structure Serializable (s₀ s : State W K β) : Prop where
  serial : ∃ order : List (Committed W K β), order.Perm s.committed ∧
    (∀ pre c post, order = pre ++ c :: post → ∀ re ∈ c.read_set_,
      re.seen = pre.foldl Committed.apply (bodies s₀) re.key_) ∧
    ((∀ w, (s.workers w).pc = .idle) →
      ∀ k v, s.tree k = some v → some (s.body v) = order.foldl Committed.apply (bodies s₀) k)
  noLostUpdate : s.committed.Pairwise fun c c' => ¬ LostUpdate c c'

/-- The control states in which a transaction has a place. -/
def Inside : Pc K → Prop
  | .loadEpoch => True
  | .storeEpoch _ => True
  | .validating _ => True
  | .writing _ _ _ => True
  | _ => False

inductive Item (W K β : Type) where
  | live (w : W)
  | done (c : Committed W K β)

def Item.worker : Item W K β → Option W
  | .live w => some w
  | .done _ => none

def readOf (re : ReadEntry K β) : Read ValuePtr (Option β) := ⟨re.value_, re.seen, re.tidword_.ver⟩

def writesOf (ws : List (WriteElement K β)) : List (ValuePtr × Option β) :=
  ws.map fun we => (we.value_, some we.new_value_body_)

/-- The stage a worker's transaction has reached. -/
def txnOf (t : TxExecutor K β) : Txn ValuePtr (Option β) where
  reads := match t.pc with
    | .validating i => (t.read_set_.take i).map readOf
    | .writing _ _ _ => t.read_set_.map readOf
    | _ => []
  writes := writesOf t.write_set_
  installed := match t.pc with
    | .writing i _ _ => min i t.write_set_.length
    | _ => 0
  ver := t.mrctid_.ver
  decided := match t.pc with
    | .writing _ _ _ => true
    | _ => false

def Committed.txn (c : Committed W K β) : Txn ValuePtr (Option β) where
  reads := c.read_set_.map readOf
  writes := writesOf c.write_set_
  installed := c.write_set_.length
  ver := c.tid.ver
  decided := true

def snap (s : State W K β) : Item W K β → Txn ValuePtr (Option β)
  | .live w => txnOf (s.workers w)
  | .done c => c.txn

/-- The committed transaction at a place, if it is decided. -/
def commitOf (s : State W K β) : Item W K β → Option (Committed W K β)
  | .live w => if (txnOf (s.workers w)).decided then some ((s.workers w).toCommitted w) else none
  | .done c => some c

/-- What is known of a transaction when it commits. -/
structure CommittedOk (tree : K → Option ValuePtr) (c : Committed W K β) : Prop where
  tree_r : ∀ re ∈ c.read_set_, tree re.key_ = some re.value_
  tree_w : ∀ we ∈ c.write_set_, tree we.key_ = some we.value_
  newer : ∀ re ∈ c.read_set_, re.tidword_.ver < c.tid.ver

structure Ser (init : ValuePtr → Option β) (s : State W K β) (L : List (Item W K β)) : Prop where
  inside : ∀ w, .live w ∈ L ↔ Inside (s.workers w).pc
  nodup : (L.filterMap Item.worker).Nodup
  perm : (L.filterMap (commitOf s)).Perm s.committed
  committed : ∀ c ∈ s.committed, CommittedOk s.tree c
  ok : Ok init (L.map (snap s))
  body : ∀ v, Clean s v → some (s.body v) = val init (L.map (snap s)) v
  vers : ∀ x ∈ L.map (snap s), ∀ v, (x.wrote v).isSome → x.ver ≤ s.ver v
  /-- what a transaction read stays untouched behind it while the version stands -/
  fresh : ∀ L₁ w L₂, L = L₁ ++ .live w :: L₂ → ∀ re ∈ (s.workers w).read_set_,
    re.tidword_.ver = s.ver re.value_ → ∀ y ∈ L₂.map (snap s), y.wrote re.value_ = none

section
variable {init : ValuePtr → Option β} {s s' : State W K β} {L L₁ L₂ : List (Item W K β)} {w : W}

section
omit [DecidableEq W] [DecidableEq K] [DecidableEq β]

theorem mem_workers : w ∈ L.filterMap Item.worker ↔ .live w ∈ L := by
  simp only [List.mem_filterMap]
  constructor
  · rintro ⟨it, hit, hw⟩
    cases it with
    | live u =>
      obtain rfl := Option.some.inj hw
      exact hit
    | done c => cases hw
  · intro h
    exact ⟨_, h, rfl⟩

/-- A worker has one place. -/
theorem Ser.unique (h : Ser init s L) (hL : L = L₁ ++ .live w :: L₂) : .live w ∉ L₁ ∧ .live w ∉ L₂ := by
  have hn := h.nodup
  rw [hL, List.filterMap_append, List.filterMap_cons_some (show Item.worker (.live w) = some w from rfl),
    List.nodup_append] at hn
  constructor
  · intro hmem
    exact hn.2.2 w (mem_workers.mpr hmem) w List.mem_cons_self rfl
  · intro hmem
    exact (List.nodup_cons.mp hn.2.1).1 (mem_workers.mpr hmem)

end

section
omit [DecidableEq W] [DecidableEq K] [DecidableEq β]

theorem Ser.place (h : Ser init s L) (hin : Inside (s.workers w).pc) :
    ∃ L₁ L₂, L = L₁ ++ .live w :: L₂ :=
  List.append_of_mem ((h.inside w).mpr hin)

/-- A place that is not `w`'s looks the same after a step of `w`. -/
theorem snap_other (hother : ∀ u, u ≠ w → s'.workers u = s.workers u) (h : .live w ∉ L) :
    L.map (snap s') = L.map (snap s) := by
  refine List.map_congr_left fun it hit => ?_
  cases it with
  | live u =>
    have hu : u ≠ w := by
      rintro rfl
      exact h hit
    simp only [snap, hother u hu]
  | done c => rfl

theorem commitOf_other (hother : ∀ u, u ≠ w → s'.workers u = s.workers u) (h : .live w ∉ L) :
    L.filterMap (commitOf s') = L.filterMap (commitOf s) := by
  refine List.filterMap_congr fun it hit => ?_
  cases it with
  | live u =>
    have hu : u ≠ w := by
      rintro rfl
      exact h hit
    simp only [commitOf, hother u hu]
  | done c => rfl

theorem map_snap_live (s : State W K β) (w : W) (L₁ L₂ : List (Item W K β)) :
    (L₁ ++ .live w :: L₂).map (snap s) =
      L₁.map (snap s) ++ txnOf (s.workers w) :: L₂.map (snap s) := by
  rw [List.map_append, List.map_cons]
  rfl

/-- The versions that were equal before a step are those that are equal after it. -/
theorem ver_eq_of_frame (hv : Versions s) (hf : Frame s s' w) {u : W} {re : ReadEntry K β}
    (hre : re ∈ (s.workers u).read_set_) (h : re.tidword_.ver = s'.ver re.value_) :
    re.tidword_.ver = s.ver re.value_ ∧ s'.ver re.value_ = s.ver re.value_ := by
  have h1 := (hv u).sets.le re hre
  have h2 := hf.mono re.value_
  omega

end

section
omit [DecidableEq K] [DecidableEq β]

/-- A step of a worker that has no place before or after it. -/
theorem Ser.outside (h : Ser init s L) (hf : Frame s s' w)
    (hin : ¬ Inside (s.workers w).pc) (hin' : ¬ Inside (s'.workers w).pc)
    (hver : ∀ v, s'.ver v = s.ver v) (hc : s'.committed = s.committed) : Ser init s' L := by
  have hnot : .live w ∉ L := fun hmem => hin ((h.inside w).mp hmem)
  have hsnap := snap_other hf.others hnot
  refine ⟨?_, h.nodup, ?_, ?_, ?_, ?_, ?_, ?_⟩
  · intro u
    by_cases hu : u = w
    · subst hu
      exact iff_of_false hnot hin'
    · rw [hf.others u hu]; exact h.inside u
  · rw [commitOf_other hf.others hnot, hc]; exact h.perm
  · rw [hc, hf.tree]; exact h.committed
  · rw [hsnap]; exact h.ok
  · intro v hclean
    obtain ⟨hcl, hb⟩ := hf.clean v (hver v) hclean
    rw [hsnap, hb]
    exact h.body v hcl
  · intro x hx v
    rw [hver]
    exact h.vers x (hsnap ▸ hx) v
  · intro L₁ u L₂ hL re hre heq
    have hne : u ≠ w := by
      rintro rfl
      exact hnot (hL ▸ List.mem_append_right _ List.mem_cons_self)
    have hnot₂ : .live w ∉ L₂ := by
      intro hmem
      exact hnot (hL ▸ List.mem_append_right _ (List.mem_cons_of_mem _ hmem))
    rw [hf.others u hne] at hre
    rw [snap_other hf.others hnot₂]
    exact h.fresh L₁ u L₂ hL re hre (heq.trans (hver _))

/-- `lockWriteSet` is through: the transaction takes the last place. -/
theorem Ser.enter (h : Ser init s L) (hf : Frame s s' w) (hin : ¬ Inside (s.workers w).pc)
    (hin' : Inside (s'.workers w).pc) (hver : ∀ v, s'.ver v = s.ver v)
    (hc : s'.committed = s.committed) (hreads : (txnOf (s'.workers w)).reads = [])
    (hinst : (txnOf (s'.workers w)).installed = 0) (hdec : (txnOf (s'.workers w)).decided = false)
    (hfree : ∀ y ∈ L.map (snap s), ∀ a, y.Pending a → ¬ (txnOf (s'.workers w)).Writes a) :
    Ser init s' (L ++ [.live w]) := by
  have hnot : .live w ∉ L := fun hmem => hin ((h.inside w).mp hmem)
  have hsnap := snap_other hf.others hnot
  have hmap : (L ++ [Item.live w]).map (snap s') = L.map (snap s) ++ [txnOf (s'.workers w)] := by
    rw [List.map_append, hsnap]
    rfl
  have hnone := wrote_of_none_installed hinst
  refine ⟨?_, ?_, ?_, ?_, ?_, ?_, ?_, ?_⟩
  · intro u
    by_cases hu : u = w
    · subst hu
      exact iff_of_true (List.mem_append_right _ (List.mem_singleton.mpr rfl)) hin'
    · rw [hf.others u hu, ← h.inside u, List.mem_append, List.mem_singleton]
      constructor
      · rintro (hm | hm)
        · exact hm
        · exact absurd (Item.live.inj hm) hu
      · exact Or.inl
  · rw [List.filterMap_append, List.nodup_append]
    refine ⟨h.nodup, by simp [Item.worker], ?_⟩
    intro a ha b hb
    obtain rfl : b = w := by simpa [Item.worker] using hb
    rintro rfl
    exact hnot (mem_workers.mp ha)
  · rw [List.filterMap_append, commitOf_other hf.others hnot, hc]
    simpa [commitOf, hdec] using h.perm
  · rw [hc, hf.tree]; exact h.committed
  · rw [hmap]
    exact h.ok.push hreads hinst hfree
  · intro v hclean
    obtain ⟨hcl, hb⟩ := hf.clean v (hver v) hclean
    rw [hmap, hb, h.body v hcl, val_append_none]
    intro y hy
    rw [List.mem_singleton.mp hy]
    exact hnone v
  · intro x hx v hsome
    rw [hver]
    rw [hmap] at hx
    rcases List.mem_append.mp hx with hx | hx
    · exact h.vers x hx v hsome
    · rw [List.mem_singleton.mp hx, hnone v] at hsome
      cases hsome
  · intro M₁ u M₂ hM re hre heq y hy
    rcases split_cases hM with ⟨M, rfl, rfl⟩ | ⟨-, -, rfl⟩ | ⟨M, -, hM₂⟩
    · have hne : u ≠ w := by
        rintro rfl
        exact hnot (List.mem_append_right _ List.mem_cons_self)
      have hnotM : .live w ∉ M := fun hm =>
        hnot (List.mem_append_right _ (List.mem_cons_of_mem _ hm))
      rw [hf.others u hne] at hre
      rw [List.map_append, snap_other hf.others hnotM] at hy
      rcases List.mem_append.mp hy with hy | hy
      · exact h.fresh M₁ u M rfl re hre (heq.trans (hver _)) y hy
      · rw [List.map_cons, List.map_nil, List.mem_singleton] at hy
        rw [hy]
        exact hnone _
    · cases hy
    · simp at hM₂

/-- Validation fails: the transaction gives up its place, having installed nothing. -/
theorem Ser.leave (h : Ser init s (L₁ ++ .live w :: L₂)) (hf : Frame s s' w)
    (hin' : ¬ Inside (s'.workers w).pc) (hver : ∀ v, s'.ver v = s.ver v)
    (hc : s'.committed = s.committed) (hinst : (txnOf (s.workers w)).installed = 0)
    (hdec : (txnOf (s.workers w)).decided = false) : Ser init s' (L₁ ++ L₂) := by
  obtain ⟨hn₁, hn₂⟩ := h.unique rfl
  have hs₁ := snap_other hf.others hn₁
  have hs₂ := snap_other hf.others hn₂
  have hmap : (L₁ ++ L₂).map (snap s') = L₁.map (snap s) ++ L₂.map (snap s) := by
    rw [List.map_append, hs₁, hs₂]
  have hold := map_snap_live s w L₁ L₂
  refine ⟨?_, ?_, ?_, ?_, ?_, ?_, ?_, ?_⟩
  · intro u
    by_cases hu : u = w
    · subst hu
      refine iff_of_false ?_ hin'
      intro hm
      rcases List.mem_append.mp hm with hm | hm
      · exact hn₁ hm
      · exact hn₂ hm
    · rw [hf.others u hu, ← h.inside u]
      constructor
      · intro hm
        rcases List.mem_append.mp hm with hm | hm
        · exact List.mem_append_left _ hm
        · exact List.mem_append_right _ (List.mem_cons_of_mem _ hm)
      · intro hm
        rcases List.mem_append.mp hm with hm | hm
        · exact List.mem_append_left _ hm
        · rcases List.mem_cons.mp hm with hm | hm
          · exact absurd (Item.live.inj hm) hu
          · exact List.mem_append_right _ hm
  · have hn := h.nodup
    rw [List.filterMap_append, List.filterMap_cons_some (show Item.worker (.live w) = some w from rfl)]
      at hn
    rw [List.filterMap_append]
    exact hn.sublist (List.Sublist.append_left (List.sublist_cons_self _ _) _)
  · have hp := h.perm
    have hnone : commitOf s (.live w) = none := by simp [commitOf, hdec]
    rw [List.filterMap_append, List.filterMap_cons_none hnone] at hp
    rw [List.filterMap_append, commitOf_other hf.others hn₁, commitOf_other hf.others hn₂, hc]
    exact hp
  · rw [hc, hf.tree]; exact h.committed
  · rw [hmap]
    exact (hold ▸ h.ok).drop hinst
  · intro v hclean
    obtain ⟨hcl, hb⟩ := hf.clean v (hver v) hclean
    rw [hmap, hb, h.body v hcl, hold, val_drop (wrote_of_none_installed hinst v)]
  · intro x hx v hsome
    rw [hver]
    refine h.vers x ?_ v hsome
    rw [hmap] at hx
    rw [hold]
    rcases List.mem_append.mp hx with hx | hx
    · exact List.mem_append_left _ hx
    · exact List.mem_append_right _ (List.mem_cons_of_mem _ hx)
  · intro M₁ u M₂ hM re hre heq y hy
    have hne : u ≠ w := by
      rintro rfl
      have : Item.live u ∈ L₁ ++ L₂ := hM ▸ List.mem_append_right _ List.mem_cons_self
      rcases List.mem_append.mp this with hm | hm
      · exact hn₁ hm
      · exact hn₂ hm
    rw [hf.others u hne] at hre
    have hver' := heq.trans (hver _)
    rcases List.append_eq_append_iff.mp hM with ⟨M, rfl, h₂⟩ | ⟨M, rfl, h₂⟩
    · have hnM : .live w ∉ M₂ := fun hm =>
        hn₂ (h₂ ▸ List.mem_append_right _ (List.mem_cons_of_mem _ hm))
      rw [snap_other hf.others hnM] at hy
      exact h.fresh (L₁ ++ .live w :: M) u M₂ (by simp [h₂]) re hre hver' y hy
    · cases M with
      | nil =>
        simp only [List.nil_append] at h₂
        have hnM : .live w ∉ M₂ := fun hm => hn₂ (h₂ ▸ List.mem_cons_of_mem _ hm)
        rw [snap_other hf.others hnM] at hy
        exact h.fresh (M₁ ++ [.live w]) u M₂ (by simp [← h₂]) re hre hver' y hy
      | cons m M =>
        simp only [List.cons_append, List.cons.injEq] at h₂
        obtain ⟨rfl, rfl⟩ := h₂
        refine h.fresh M₁ u (M ++ .live w :: L₂) (by simp) re hre hver' y ?_
        have hnM : .live w ∉ M ++ L₂ := by
          intro hm
          rcases List.mem_append.mp hm with hm | hm
          · exact hn₁ (List.mem_append_right _ (List.mem_cons_of_mem _ hm))
          · exact hn₂ hm
        rw [snap_other hf.others hnM, List.map_append] at hy
        rw [List.map_append, List.map_cons]
        rcases List.mem_append.mp hy with hy | hy
        · exact List.mem_append_left _ hy
        · exact List.mem_append_right _ (List.mem_cons_of_mem _ hy)

/-- The transaction at a place moves on: it validates, decides or installs, or it is
replaced by the record of what it was. -/
theorem Ser.replace (it' : Item W K β) (new : List (Committed W K β))
    (h : Ser init s (L₁ ++ .live w :: L₂)) (hv : Versions s) (hf : Frame s s' w)
    (hit : it' = .live w ∧ Inside (s'.workers w).pc ∨ (∃ c, it' = .done c) ∧ ¬ Inside (s'.workers w).pc)
    (hreads : (s'.workers w).read_set_ = (s.workers w).read_set_)
    (hok : Ok init (L₁.map (snap s) ++ snap s' it' :: L₂.map (snap s)))
    (hwrote : ∀ v, s'.ver v = s.ver v → (snap s' it').wrote v = (txnOf (s.workers w)).wrote v)
    (hbody : ∀ v, Clean s' v →
      some (s'.body v) = val init (L₁.map (snap s) ++ snap s' it' :: L₂.map (snap s)) v)
    (hvers : ∀ v, ((snap s' it').wrote v).isSome → (snap s' it').ver ≤ s'.ver v)
    (hperm : (commitOf s' it').toList = (commitOf s (.live w)).toList ++ new)
    (hc : s'.committed = s.committed ++ new) (hnew : ∀ c ∈ new, CommittedOk s.tree c) :
    Ser init s' (L₁ ++ it' :: L₂) := by
  obtain ⟨hn₁, hn₂⟩ := h.unique rfl
  have hs₁ := snap_other hf.others hn₁
  have hs₂ := snap_other hf.others hn₂
  have hmap : (L₁ ++ it' :: L₂).map (snap s') =
      L₁.map (snap s) ++ snap s' it' :: L₂.map (snap s) := by
    rw [List.map_append, List.map_cons, hs₁, hs₂]
  have hold := map_snap_live s w L₁ L₂
  have hlive : ∀ u, u ≠ w → it' ≠ .live u := by
    intro u hu hit'
    rcases hit with ⟨rfl, -⟩ | ⟨⟨c, rfl⟩, -⟩
    · exact hu (Item.live.inj hit').symm
    · cases hit'
  refine ⟨?_, ?_, ?_, ?_, hmap ▸ hok, hmap ▸ hbody, ?_, ?_⟩
  · intro u
    by_cases hu : u = w
    · subst hu
      rcases hit with ⟨rfl, hin'⟩ | ⟨⟨c, rfl⟩, hin'⟩
      · exact iff_of_true (List.mem_append_right _ List.mem_cons_self) hin'
      · refine iff_of_false ?_ hin'
        intro hm
        rcases List.mem_append.mp hm with hm | hm
        · exact hn₁ hm
        · rcases List.mem_cons.mp hm with hm | hm
          · cases hm
          · exact hn₂ hm
    · rw [hf.others u hu, ← h.inside u]
      have hne := hlive u hu
      have hne' : (Item.live w : Item W K β) ≠ .live u := fun he => hu (Item.live.inj he).symm
      simp [hne.symm, hne'.symm]
  · have hn := h.nodup
    rw [List.filterMap_append, List.filterMap_cons_some (show Item.worker (.live w) = some w from rfl)]
      at hn
    rw [List.filterMap_append]
    rcases hit with ⟨rfl, -⟩ | ⟨⟨c, rfl⟩, -⟩
    · exact hn
    · rw [List.filterMap_cons_none (show Item.worker (.done c) = none from rfl)]
      exact hn.sublist (List.Sublist.append_left (List.sublist_cons_self _ _) _)
  · have hp := h.perm
    have hcons : ∀ (t : State W K β) (it : Item W K β) (M : List (Item W K β)),
        (it :: M).filterMap (commitOf t) = (commitOf t it).toList ++ M.filterMap (commitOf t) := by
      intro t it M
      cases hco : commitOf t it with
      | none => rw [List.filterMap_cons_none hco]; rfl
      | some c => rw [List.filterMap_cons_some hco]; rfl
    rw [List.filterMap_append, hcons] at hp ⊢
    rw [commitOf_other hf.others hn₁, commitOf_other hf.others hn₂, hperm, hc]
    refine List.Perm.trans ?_ (hp.append_right new)
    simp only [List.append_assoc]
    exact (List.perm_append_comm.append_left _).append_left _
  · intro c hmem
    rw [hf.tree]
    rw [hc] at hmem
    rcases List.mem_append.mp hmem with hmem | hmem
    · exact h.committed c hmem
    · exact hnew c hmem
  · intro x hx v hsome
    rw [hmap] at hx
    have hkeep : ∀ y ∈ L₁.map (snap s) ++ txnOf (s.workers w) :: L₂.map (snap s),
        (y.wrote v).isSome → y.ver ≤ s'.ver v := fun y hy hs =>
      (h.vers y (hold ▸ hy) v hs).trans (hf.mono v)
    rcases List.mem_append.mp hx with hx | hx
    · exact hkeep x (List.mem_append_left _ hx) hsome
    · rcases List.mem_cons.mp hx with rfl | hx
      · exact hvers v hsome
      · exact hkeep x (List.mem_append_right _ (List.mem_cons_of_mem _ hx)) hsome
  · intro M₁ u M₂ hM re hre heq y hy
    have hre' : re ∈ (s.workers u).read_set_ := by
      by_cases hu : u = w
      · subst hu; rw [← hreads]; exact hre
      · rw [← hf.others u hu]; exact hre
    obtain ⟨hver, hsame⟩ := ver_eq_of_frame hv hf hre' heq
    rcases split_cases hM with ⟨M, rfl, rfl⟩ | ⟨rfl, hw, rfl⟩ | ⟨M, rfl, rfl⟩
    · have hfresh := h.fresh M₁ u (M ++ .live w :: L₂) (by simp) re hre' hver
      have hnM : .live w ∉ M := fun hm =>
        hn₁ (List.mem_append_right _ (List.mem_cons_of_mem _ hm))
      rw [List.map_append, List.map_cons, snap_other hf.others hnM, hs₂] at hy
      rw [List.map_append, List.map_cons] at hfresh
      rcases List.mem_append.mp hy with hy | hy
      · exact hfresh y (List.mem_append_left _ hy)
      · rcases List.mem_cons.mp hy with rfl | hy
        · rw [hwrote _ hsame]
          exact hfresh _ (List.mem_append_right _ List.mem_cons_self)
        · exact hfresh y (List.mem_append_right _ (List.mem_cons_of_mem _ hy))
    · have huw : u = w := by
        by_contra hu
        exact hlive u hu hw.symm
      subst huw
      rw [hs₂] at hy
      exact h.fresh M₁ u M₂ rfl re hre' hver y hy
    · have hnM : .live w ∉ M₂ := fun hm =>
        hn₂ (List.mem_append_right _ (List.mem_cons_of_mem _ hm))
      rw [snap_other hf.others hnM] at hy
      exact h.fresh (L₁ ++ .live w :: M) u M₂ (by simp) re hre' hver y hy

end

omit [DecidableEq W] [DecidableEq K] [DecidableEq β] in
theorem not_writing_of_not_inside (h : ¬ Inside (s.workers w).pc) (i : Nat) (m : TIDword) :
    (s.workers w).pc ≠ .writing i m true := by
  intro hpc
  rw [hpc] at h
  exact h trivial

section
omit [DecidableEq K] [DecidableEq β]

theorem ser_setWorker (h : Ser init s L) {t' : TxExecutor K β} (hin : ¬ Inside (s.workers w).pc)
    (hin' : ¬ Inside t'.pc) : Ser init (s.setWorker w t') L :=
  h.outside (frame_setWorker t' (not_writing_of_not_inside hin)) hin (by rwa [setWorker_self])
    (fun _ => rfl) rfl

theorem ser_lockBit (h : Ser init s L) {v : ValuePtr} {x : TIDword} {t' : TxExecutor K β}
    (hx : x.ver = s.ver v) (hfree : ∀ u, u ≠ w → ¬ Holds (s.workers u) v)
    (hin : ¬ Inside (s.workers w).pc) (hin' : ¬ Inside t'.pc) :
    Ser init ((s.setTid v x).setWorker w t') L :=
  h.outside (frame_lockBit t' hx (not_writing_of_not_inside hin) hfree) hin
    (by rwa [setWorker_self]) (fun u => by rw [setWorker_ver, setTid_ver_same s hx]) rfl

theorem pending_txnOf {t : TxExecutor K β} {v : ValuePtr} (h : (txnOf t).Pending v) :
    ∃ j we, t.write_set_[j]? = some we ∧ we.value_ = v ∧ (txnOf t).installed ≤ j := by
  obtain ⟨j, b, hj, hle⟩ := h
  simp only [txnOf, writesOf, List.getElem?_map, Option.map_eq_some_iff, Prod.mk.injEq] at hj
  obtain ⟨we, hwe, hv, -⟩ := hj
  exact ⟨j, we, hwe, hv, hle⟩

theorem writes_txnOf {t : TxExecutor K β} {v : ValuePtr} (h : (txnOf t).Writes v) :
    ∃ (j : Nat) (we : WriteElement K β), t.write_set_[j]? = some we ∧ we.value_ = v := by
  obtain ⟨b, hb⟩ := h
  obtain ⟨we, hwe, heq⟩ := List.mem_map.mp hb
  obtain ⟨j, hj⟩ := List.mem_iff_getElem?.mp hwe
  exact ⟨j, we, hj, congrArg Prod.fst heq⟩

/-- What a transaction in the order has yet to install, it holds. -/
theorem holds_of_pending {t : TxExecutor K β} (hin : Inside t.pc) {v : ValuePtr}
    (h : (txnOf t).Pending v) : Holds t v := by
  obtain ⟨j, we, hwe, hv, hle⟩ := pending_txnOf h
  refine ⟨j, we, hwe, hv, ?_⟩
  have hlen : j < t.write_set_.length := (List.getElem?_eq_some_iff.mp hwe).1
  unfold txnOf at hle
  revert hin hle
  cases t.pc <;> simp only [Inside, heldAt, false_implies, true_implies, implies_true]
  omega

end

section
omit [DecidableEq W] [DecidableEq K] [DecidableEq β]

theorem not_pending_txn (c : Committed W K β) (v : ValuePtr) : ¬ c.txn.Pending v := by
  rintro ⟨j, b, hj, hle⟩
  have := (List.getElem?_eq_some_iff.mp hj).1
  simp only [Committed.txn, writesOf, List.length_map] at this hle
  omega

/-- Whoever has a pending write of `v` in the order holds its lock. -/
theorem Ser.holder (h : Ser init s L) {y : Txn ValuePtr (Option β)} {M : List (Item W K β)}
    (hM : ∀ it ∈ M, it ∈ L) (hy : y ∈ M.map (snap s)) {v : ValuePtr} (hp : y.Pending v) :
    ∃ u, .live u ∈ M ∧ Holds (s.workers u) v := by
  obtain ⟨it, hit, rfl⟩ := List.mem_map.mp hy
  cases it with
  | live u => exact ⟨u, hit, holds_of_pending ((h.inside u).mp (hM _ hit)) hp⟩
  | done c => exact absurd hp (not_pending_txn c v)

end

section
omit [DecidableEq K] [DecidableEq β]

theorem ser_locking {H : ValuePtr → Option W} (hi : Inv s H) (hv : Versions s) (h : Ser init s L)
    {i : Nat} {e : Option TIDword} (hpc : (s.workers w).pc = .locking i e)
    (hfree : ∀ x, e = some x → x.lock = false) :
    ∃ L', Ser init (stepLocking s w (s.workers w) i e) L' := by
  have hin : ¬ Inside (s.workers w).pc := by simp [hpc, Inside]
  generalize hs : stepLocking s w (s.workers w) i e = s'
  cases lockings_of_stepLocking hs with
  | done hnone =>
    have hlen := List.getElem?_eq_none_iff.mp hnone
    refine ⟨L ++ [.live w], h.enter (frame_setWorker _ (not_writing_of_not_inside hin)) hin ?_
      (fun _ => rfl) rfl ?_ ?_ ?_ ?_⟩
    · simp [Inside]
    · simp [txnOf]
    · simp [txnOf]
    · simp [txnOf]
    · intro y hy a hp hw
      obtain ⟨u, hu, hhold⟩ := h.holder (fun _ hit => hit) hy hp
      rw [setWorker_self] at hw
      obtain ⟨j, we, hwe, rfl⟩ := writes_txnOf hw
      have hj : j < (s.workers w).write_set_.length := (List.getElem?_eq_some_iff.mp hwe).1
      have hmine : Holds (s.workers w) we.value_ :=
        ⟨j, we, hwe, rfl, by rw [hpc]; exact Or.inr (by omega)⟩
      obtain rfl := hi.exclusive hhold hmine
      exact hin ((h.inside u).mp hu)
  | insert hwe hop =>
    rw [not_insert_of_ops hv hwe] at hop
    cases hop
  | load | reload => exact ⟨L, ser_setWorker h hin (by simp [Inside])⟩
  | @conflict we x hwe hop hl =>
    rw [hfree x rfl] at hl
    cases hl
  | @lock we x hwe hop hl hcas =>
    refine ⟨L, ser_lockBit h ?_ ?_ hin (by simp [Inside])⟩
    · change x.ver = s.ver we.value_
      rw [State.ver, hcas]
    · intro u _ hu
      have hlock := hi.locked hu
      rw [hcas, hl] at hlock
      cases hlock

theorem ser_unlocking {H : ValuePtr → Option W} (hi : Inv s H) (hv : Versions s) (h : Ser init s L)
    {i : Nat} {e : Option TIDword} (hpc : (s.workers w).pc = .unlocking i e) :
    Ser init (stepUnlock s w (s.workers w) i (s.workers w).write_set_.length e
      (fun j x => .unlocking j x) (.aborting 0)) L := by
  have hin : ¬ Inside (s.workers w).pc := by simp [hpc, Inside]
  generalize hs : stepUnlock s w (s.workers w) i _ e _ _ = s'
  cases unlocks_of_stepUnlock hs with
  | done | insert | load => exact ser_setWorker h hin (by simp [Inside])
  | @unlock we x _ hwe =>
    have hword : s.tidword we.value_ = x := by
      have := (hv w).pc
      simp only [PcOk, hpc] at this
      exact this we hwe
    have hheld : Holds (s.workers w) we.value_ :=
      ⟨i, we, hwe, rfl, by rw [hpc]; exact Or.inr (Nat.le_refl i)⟩
    refine ser_lockBit h ?_ (fun u hu hu' => hu (hi.exclusive hu' hheld)) hin (by simp [Inside])
    change x.ver = s.ver we.value_
    rw [State.ver, hword]

end

omit [DecidableEq β] in
theorem ser_aborting (hv : Versions s) (h : Ser init s L) {i : Nat}
    (hpc : (s.workers w).pc = .aborting i) : Ser init (stepAborting s w (s.workers w) i) L := by
  have hin : ¬ Inside (s.workers w).pc := by simp [hpc, Inside]
  unfold stepAborting
  split
  · exact ser_setWorker h hin (by simp [Inside])
  rename_i we hwe
  split
  · rename_i hop
    rw [not_insert_of_ops hv hwe] at hop
    cases hop
  · exact ser_setWorker h hin (by simp [Inside])

omit [DecidableEq K] [DecidableEq β] in
/-- A step inside the order that neither validates nor installs. -/
theorem ser_same (h : Ser init s L) (hv : Versions s) {t' : TxExecutor K β}
    (hpc : ∀ i m, (s.workers w).pc ≠ .writing i m true) (hin : Inside (s.workers w).pc)
    (hin' : Inside t'.pc) (hr : t'.read_set_ = (s.workers w).read_set_)
    (htxn : txnOf t' = txnOf (s.workers w)) (hdec : (txnOf (s.workers w)).decided = false) :
    Ser init (s.setWorker w t') L := by
  obtain ⟨L₁, L₂, rfl⟩ := h.place hin
  have hf := frame_setWorker t' hpc
  have hsnap : snap (s.setWorker w t') (.live w) = txnOf (s.workers w) := by
    simp [snap, htxn]
  have hold := map_snap_live s w L₁ L₂
  refine h.replace (.live w) [] hv hf (Or.inl ⟨rfl, by rwa [setWorker_self]⟩)
    (by rw [setWorker_self, hr]) ?_ ?_ ?_ ?_ ?_ (by simp) (by simp)
  · rw [hsnap, ← hold]; exact h.ok
  · intro v _
    rw [hsnap]
  · intro v hclean
    obtain ⟨hcl, hb⟩ := hf.clean v rfl hclean
    rw [hsnap, ← hold, hb]
    exact h.body v hcl
  · intro v hsome
    rw [hsnap] at hsome ⊢
    exact h.vers _ (hold ▸ List.mem_append_right _ List.mem_cons_self) v hsome
  · simp [commitOf, htxn, hdec]

omit [DecidableEq W] [DecidableEq β] in
/-- A read-set element that passes validation fits the transaction's place. -/
theorem readOk_of_validated {H : ValuePtr → Option W} (hi : Inv s H) (hv : Versions s)
    (h : Ser init s (L₁ ++ .live w :: L₂)) {i : Nat} {re : ReadEntry K β}
    (hpc : (s.workers w).pc = .validating i) (hre : re ∈ (s.workers w).read_set_)
    (hok : ¬ validationFails (s.workers w) re (s.tidword re.value_)) :
    ReadOk init (L₁.map (snap s)) (readOf re) := by
  simp only [validationFails, not_or, not_not, not_and, Bool.not_eq_false] at hok
  obtain ⟨-, hepoch, htid, hlock⟩ := hok
  have hver : re.tidword_.ver = s.ver re.value_ := (TIDword.ver_eq_iff _ _).mpr ⟨hepoch, htid⟩
  obtain ⟨hn₁, -⟩ := h.unique rfl
  have hsets := (hv w).sets
  have hself : ∀ u, Holds (s.workers u) re.value_ → u = w := by
    intro u hu
    obtain ⟨we, hwe, hkey⟩ := searchWriteSet_isSome.mp (hlock (hi.locked hu))
    have hval : we.value_ = re.value_ := by
      have h1 := hsets.tree_w we hwe
      rw [hkey, hsets.tree_r re hre] at h1
      exact (Option.some.inj h1).symm
    obtain ⟨j, hj⟩ := List.mem_iff_getElem?.mp hwe
    exact hi.exclusive hu ⟨j, we, hj, hval, by rw [hpc]; trivial⟩
  have hclean : Clean s re.value_ := by
    rintro u ⟨i', m, we, hpc', hwe, hval⟩
    obtain rfl := hself u ⟨i', we, hwe, hval, by rw [hpc']; exact Nat.le_refl i'⟩
    rw [hpc] at hpc'
    cases hpc'
  refine ⟨?_, ?_, ?_⟩
  · have hbody := h.body re.value_ hclean
    rw [List.map_append, List.map_cons, val_middle _ (h.fresh L₁ w L₂ rfl re hre hver)] at hbody
    have hnone : (snap s (.live w)).wrote re.value_ = none :=
      wrote_of_none_installed (by simp [snap, txnOf, hpc]) _
    rw [hnone, Option.getD_none] at hbody
    exact (hsets.seen re hre hver hclean).trans hbody
  · intro y hy hp
    obtain ⟨u, hu, hhold⟩ := h.holder (fun it hit => List.mem_append_left _ hit) hy hp
    obtain rfl := hself u hhold
    exact hn₁ hu
  · intro y hy hsome
    have := h.vers y (by rw [List.map_append]; exact List.mem_append_left _ hy) _ hsome
    exact this.trans hver.ge

section
omit [DecidableEq K] [DecidableEq β]

theorem txnOf_pending_congr {t t' : TxExecutor K β} (hw : t'.write_set_ = t.write_set_)
    (hle : (txnOf t).installed ≤ (txnOf t').installed) {v : ValuePtr} (h : (txnOf t').Pending v) :
    (txnOf t).Pending v := by
  obtain ⟨j, b, hj, hj'⟩ := h
  refine ⟨j, b, ?_, hle.trans hj'⟩
  simpa only [txnOf, hw] using hj

theorem txnOf_wrote_congr {t t' : TxExecutor K β} (hw : t'.write_set_ = t.write_set_)
    (hinst : (txnOf t').installed = (txnOf t).installed) (v : ValuePtr) :
    (txnOf t').wrote v = (txnOf t).wrote v := by
  unfold Txn.wrote
  rw [hinst]
  simp only [txnOf, hw]

/-- A step of validation that does not fail: the transaction gains reads or is decided. -/
theorem ser_validated (hv : Versions s) (h : Ser init s (L₁ ++ .live w :: L₂)) {i : Nat}
    (t' : TxExecutor K β) (new : List (Committed W K β)) (hpc : (s.workers w).pc = .validating i)
    (hin' : Inside t'.pc) (hr : t'.read_set_ = (s.workers w).read_set_)
    (hws : t'.write_set_ = (s.workers w).write_set_) (hinst : (txnOf t').installed = 0)
    (hreads : ∀ r ∈ (txnOf t').reads,
      r ∈ (txnOf (s.workers w)).reads ∨ ReadOk init (L₁.map (snap s)) r)
    (hcommit : (commitOf (s.setWorker w t') (.live w)).toList = new)
    (hnew : ∀ c ∈ new, CommittedOk s.tree c) :
    Ser init { s.setWorker w t' with committed := s.committed ++ new } (L₁ ++ .live w :: L₂) := by
  have hinst₀ : (txnOf (s.workers w)).installed = 0 := by simp [txnOf, hpc]
  have hwrote := txnOf_wrote_congr hws (hinst.trans hinst₀.symm)
  have hf₀ := frame_setWorker t' (s := s) (w := w) (by simp [hpc])
  have hf : Frame s { s.setWorker w t' with committed := s.committed ++ new } w :=
    ⟨hf₀.tree, hf₀.others, hf₀.mono, hf₀.clean, hf₀.held⟩
  have hsnap : snap { s.setWorker w t' with committed := s.committed ++ new } (.live w) = txnOf t' := by
    simp [snap]
  have hold := map_snap_live s w L₁ L₂
  refine h.replace (.live w) new hv hf (Or.inl ⟨rfl, by simpa using hin'⟩)
    (by simpa using hr) ?_ ?_ ?_ ?_ ?_ rfl hnew
  · rw [hsnap]
    refine (hold ▸ h.ok).update hreads (fun a => txnOf_pending_congr hws (by omega)) ?_
      (fun a _ => hwrote a) ?_ (fun _ => hinst)
    · rintro a ⟨b, hb⟩
      exact ⟨b, by simpa only [txnOf, hws] using hb⟩
    · intro a _ hsome
      rw [wrote_of_none_installed hinst] at hsome
      cases hsome
  · intro v _
    rw [hsnap]
    exact hwrote v
  · intro v hclean
    obtain ⟨hcl, hb⟩ := hf.clean v rfl hclean
    rw [hsnap, hb, val_middle_congr (hwrote v), ← hold]
    exact h.body v hcl
  · intro v hsome
    rw [hsnap, wrote_of_none_installed hinst] at hsome
    cases hsome
  · have hnone : commitOf s (.live w) = none := by simp [commitOf, txnOf, hpc]
    rw [hnone, ← hcommit]
    rfl

end

omit [DecidableEq β] in
theorem ser_validating {H : ValuePtr → Option W} (hi : Inv s H) (hv : Versions s) (h : Ser init s L)
    {i : Nat} (hpc : (s.workers w).pc = .validating i)
    (hover : tidOverflow s (.work w .tick) = false) :
    ∃ L', Ser init (stepValidating s w (s.workers w) i) L' := by
  obtain ⟨L₁, L₂, rfl⟩ := h.place (w := w) (by rw [hpc]; trivial)
  have hv' := versions_validating hv hpc hover
  unfold stepValidating at hv' ⊢
  split
  · rename_i hnone
    have hlen := List.getElem?_eq_none_iff.mp hnone
    rw [hnone] at hv'
    have hpc' : ((s.setWorker w (s.workers w).enterWritePhase).workers w).pc =
        .writing 0 (s.workers w).enterWritePhase.mrctid_ false := by
      rw [setWorker_self]
      rfl
    have hreads := (hv'.writing hpc').2.2.1
    simp only [setWorker_self] at hreads
    refine ⟨_, ser_validated hv h _ _ hpc ?_ rfl rfl ?_ ?_ ?_ ?_⟩
    · simp [TxExecutor.enterWritePhase, Inside]
    · simp [TxExecutor.enterWritePhase, txnOf]
    · intro r hr
      refine Or.inl ?_
      simp only [txnOf, hpc, TxExecutor.enterWritePhase] at hr ⊢
      rwa [List.take_of_length_le hlen]
    · simp [commitOf, txnOf, TxExecutor.enterWritePhase]
    · intro c hc
      obtain rfl := List.mem_singleton.mp hc
      exact ⟨(hv w).sets.tree_r, (hv w).sets.tree_w, hreads⟩
  rename_i re hre
  dsimp only
  split
  · refine ⟨L₁ ++ L₂, h.leave (frame_setWorker _ (by simp [hpc])) ?_ (fun _ => rfl) rfl ?_ ?_⟩
    · simp [Inside]
    · simp [txnOf, hpc]
    · simp [txnOf, hpc]
  · rename_i hok
    have hmem := List.mem_of_getElem? hre
    have hnew := readOk_of_validated hi hv h hpc hmem hok
    have := ser_validated hv h { s.workers w with
      max_rset_ := TIDword.max (s.workers w).max_rset_ (s.tidword re.value_)
      pc := .validating (i + 1) } [] hpc trivial rfl rfl ?_ ?_ ?_ (by simp)
    · rw [List.append_nil] at this
      exact ⟨_, this⟩
    · simp [txnOf]
    · intro r hr
      simp only [txnOf, List.mem_map] at hr
      obtain ⟨re', hre', rfl⟩ := hr
      rw [List.take_add_one, hre, Option.toList_some] at hre'
      rcases List.mem_append.mp hre' with hre' | hre'
      · refine Or.inl ?_
        simp only [txnOf, hpc]
        exact List.mem_map_of_mem hre'
      · rw [List.mem_singleton.mp hre']
        exact Or.inr hnew
    · simp [commitOf, txnOf]

section
omit [DecidableEq K] [DecidableEq β]

/-- `writePhase` stores a body: nothing of the history changes. -/
theorem ser_storeBody {H : ValuePtr → Option W} (hi : Inv s H) (hv : Versions s)
    (h : Ser init s (L₁ ++ .live w :: L₂)) {i : Nat} {m : TIDword} {we : WriteElement K β}
    (hpc : (s.workers w).pc = .writing i m false) (hwe : (s.workers w).write_set_[i]? = some we) :
    Ser init ((s.setBody we.value_ we.new_value_body_).setWorker w
      ((s.workers w).goto (.writing i m true))) (L₁ ++ .live w :: L₂) := by
  have hf := frame_storeBody hi hpc hwe
  have htxn : txnOf ((s.workers w).goto (.writing i m true)) = txnOf (s.workers w) := by
    simp [txnOf, hpc, TxExecutor.goto]
  have hold := map_snap_live s w L₁ L₂
  have hver : ∀ v, ((s.setBody we.value_ we.new_value_body_).setWorker w
      ((s.workers w).goto (.writing i m true))).ver v = s.ver v := fun v => by
    rw [setWorker_ver, setBody_ver]
  refine h.replace (.live w) [] hv hf (Or.inl ⟨rfl, by simp [Inside]⟩) (by simp)
    ?_ ?_ ?_ ?_ ?_ (by simp) (by simp)
  all_goals try simp only [snap, setWorker_self, htxn]
  · exact hold ▸ h.ok
  · intros; trivial
  · intro v hclean
    obtain ⟨hcl, hb⟩ := hf.clean v (hver v) hclean
    rw [hb, ← hold]
    exact h.body v hcl
  · intro v hsome
    rw [hver]
    exact h.vers _ (hold ▸ List.mem_append_right _ List.mem_cons_self) v hsome
  · simp [commitOf, txnOf, hpc, TxExecutor.toCommitted, TxExecutor.goto]

/-- `writePhase` stores a TID word: one more write of the transaction is installed. -/
theorem ser_storeTid {H : ValuePtr → Option W} (hi : Inv s H) (hv : Versions s)
    (h : Ser init s (L₁ ++ .live w :: L₂)) {i : Nat} {m : TIDword} {we : WriteElement K β}
    (hpc : (s.workers w).pc = .writing i m true) (hwe : (s.workers w).write_set_[i]? = some we) :
    Ser init ((s.setTid we.value_ m).setWorker w ((s.workers w).goto (.writing (i + 1) m false)))
      (L₁ ++ .live w :: L₂) := by
  obtain ⟨hm, hnewer, -, hstored⟩ := hv.writing hpc
  have hgrow := hnewer i we (Nat.le_refl i) hwe
  have hf := frame_storeTid hi hpc hwe hgrow
  have hi' : i < (s.workers w).write_set_.length := (List.getElem?_eq_some_iff.mp hwe).1
  have hold := map_snap_live s w L₁ L₂
  have hinst : (txnOf (s.workers w)).installed = i := by
    simp only [txnOf, hpc]
    omega
  have hinst' : (txnOf ((s.workers w).goto (.writing (i + 1) m false))).installed = i + 1 := by
    simp only [txnOf, goto_pc, goto_write_set]
    omega
  have hitem : (writesOf (s.workers w).write_set_)[i]? =
      some (we.value_, some we.new_value_body_) := by
    simp [writesOf, List.getElem?_map, hwe]
  have hpend : (txnOf (s.workers w)).Pending we.value_ := ⟨i, _, hitem, hinst.le⟩
  have hwrote : ∀ v, v ≠ we.value_ →
      (txnOf ((s.workers w).goto (.writing (i + 1) m false))).wrote v =
        (txnOf (s.workers w)).wrote v := by
    intro v hne
    unfold Txn.wrote
    rw [hinst, hinst']
    change lookup ((writesOf (s.workers w).write_set_).take (i + 1)) v =
      lookup ((writesOf (s.workers w).write_set_).take i) v
    rw [List.take_add_one, hitem]
    simp only [lookup, List.find?_append, Option.toList_some]
    cases List.find? (fun p => decide (p.1 = v))
      ((writesOf (s.workers w).write_set_).take i) <;> simp [hne.symm]
  have hself : (txnOf ((s.workers w).goto (.writing (i + 1) m false))).wrote we.value_ =
      some (some we.new_value_body_) := by
    unfold Txn.wrote
    rw [hinst']
    change lookup ((writesOf (s.workers w).write_set_).take (i + 1)) we.value_ = _
    have hfirst : ((writesOf (s.workers w).write_set_).take i).find?
        (fun p => decide (p.1 = we.value_)) = none := by
      rw [List.find?_eq_none]
      intro p hp
      simp only [decide_eq_true_eq]
      intro heq
      obtain ⟨j, hj⟩ := List.mem_iff_getElem?.mp hp
      rw [List.getElem?_take] at hj
      split at hj
      · simp only [writesOf, List.getElem?_map, Option.map_eq_some_iff] at hj
        obtain ⟨y, hy, rfl⟩ := hj
        have := hi.index_unique hy hwe heq
        omega
      · cases hj
    rw [List.take_add_one, hitem]
    simp only [lookup, List.find?_append, Option.toList_some, hfirst]
    simp
  refine h.replace (.live w) [] hv hf (Or.inl ⟨rfl, by simp [Inside]⟩) (by simp)
    ?_ ?_ ?_ ?_ ?_ (by simp) (by simp)
  all_goals try simp only [snap, setWorker_self]
  · refine (hold ▸ h.ok).update ?_ ?_ (fun a ha => ha) ?_ ?_ ?_
    · intro r hr
      exact Or.inl (by simpa [txnOf, hpc] using hr)
    · intro a ha
      exact txnOf_pending_congr (goto_write_set _ _) (by omega) ha
    · intro a ha
      refine hwrote a ?_
      rintro rfl
      exact ha hpend
    · intros; rfl
    · simp [txnOf]
  · intro v hver
    refine hwrote v ?_
    rintro rfl
    rw [setWorker_ver, setTid_ver_self] at hver
    omega
  · intro v hclean
    by_cases hvv : v = we.value_
    · subst hvv
      have hlast : ∀ y ∈ L₂.map (snap s), y.wrote we.value_ = none := fun y hy =>
        wrote_of_not_writes (h.ok.order _ _ _ hold we.value_ hpend y hy)
      rw [val_middle _ hlast, hself, Option.getD_some, setWorker_body, ← hstored rfl we hwe]
      exact congrArg some (setTid_body s _ _ m)
    · have hver : ((s.setTid we.value_ m).setWorker w
          ((s.workers w).goto (.writing (i + 1) m false))).ver v = s.ver v := by
        rw [setWorker_ver, setTid_ver_other s m hvv]
      obtain ⟨hcl, hb⟩ := hf.clean v hver hclean
      rw [hb, val_middle_congr (hwrote v hvv), ← hold]
      exact h.body v hcl
  · intro v hsome
    change (s.workers w).mrctid_.ver ≤ _
    by_cases hvv : v = we.value_
    · subst hvv
      rw [setWorker_ver, setTid_ver_self, hm]
    · rw [hwrote v hvv] at hsome
      rw [setWorker_ver, setTid_ver_other s m hvv]
      exact h.vers _ (hold ▸ List.mem_append_right _ List.mem_cons_self) v hsome
  · simp [commitOf, txnOf, hpc, TxExecutor.toCommitted, TxExecutor.goto]

/-- `writePhase` returns: the transaction stays in the order as a record of itself. -/
theorem ser_finish (hv : Versions s) (h : Ser init s (L₁ ++ .live w :: L₂)) {i : Nat} {m : TIDword}
    {b : Bool} (hpc : (s.workers w).pc = .writing i m b)
    (hend : (s.workers w).write_set_[i]? = none) :
    Ser init (s.setWorker w ((s.workers w).goto .idle))
      (L₁ ++ .done ((s.workers w).toCommitted w) :: L₂) := by
  have hlen := List.getElem?_eq_none_iff.mp hend
  have hf := frame_finish hpc hend
  have htxn : ((s.workers w).toCommitted w).txn = txnOf (s.workers w) := by
    simp only [Committed.txn, TxExecutor.toCommitted, txnOf, hpc, Nat.min_eq_right hlen]
  have hold := map_snap_live s w L₁ L₂
  refine h.replace (.done _) [] hv hf (Or.inr ⟨⟨_, rfl⟩, by simp [Inside]⟩) (by simp)
    ?_ ?_ ?_ ?_ ?_ (by simp) (by simp)
  all_goals try simp only [snap, htxn]
  · exact hold ▸ h.ok
  · intros; trivial
  · intro v hclean
    obtain ⟨hcl, hb⟩ := hf.clean v rfl hclean
    rw [hb, ← hold]
    exact h.body v hcl
  · intro v hsome
    exact h.vers _ (hold ▸ List.mem_append_right _ List.mem_cons_self) v hsome
  · simp [commitOf, txnOf, hpc]

end

omit [DecidableEq K] [DecidableEq β] in
theorem ser_writing {H : ValuePtr → Option W} (hi : Inv s H) (hv : Versions s) (h : Ser init s L)
    {i : Nat} {m : TIDword} {b : Bool} (hpc : (s.workers w).pc = .writing i m b)
    (hs : stepWriting s w (s.workers w) i m b = some s') : ∃ L', Ser init s' L' := by
  obtain ⟨L₁, L₂, rfl⟩ := h.place (w := w) (by rw [hpc]; trivial)
  cases writings_of_stepWriting hs with
  | finish hend => exact ⟨_, ser_finish hv h hpc hend⟩
  | body hwe => exact ⟨_, ser_storeBody hi hv h hpc hwe⟩
  | write hwe => exact ⟨_, ser_storeTid hi hv h hpc hwe⟩
  | insert hwe hop | delete hwe hop =>
    rw [not_insert_of_ops hv hwe] at hop
    cases hop

section
variable [Inhabited β]

omit [DecidableEq β] [Inhabited β] in
theorem ser_tick {H : ValuePtr → Option W} (hi : Inv s H) (hv : Versions s) (h : Ser init s L)
    (hok : Admitted s (.work w .tick)) (hs : tick s w (s.workers w) = some s') :
    ∃ L', Ser init s' L' := by
  cases ticks_of_tick hs with
  | readSpin hpc =>
    refine ⟨L, ser_setWorker h (by simp [hpc, Inside]) ?_⟩
    unfold stepReadSpin
    repeat' split
    all_goals simp [Inside, TxExecutor.refuse]
  | readBody hpc => exact ⟨L, ser_setWorker h (by simp [hpc, Inside]) (by simp [Inside])⟩
  | locking hpc =>
    refine ser_locking hi hv h hpc ?_
    rintro x rfl
    exact hok.free.free hpc
  | unlockPrefix hpc =>
    obtain ⟨⟨κ, _, hl⟩, _⟩ := hi
    exact absurd hpc (hl.through w _ _ _)
  | loadEpoch hpc =>
    refine ⟨L, ser_same h hv (by simp [hpc]) (by simp [hpc, Inside]) (by simp [Inside]) rfl ?_ ?_⟩
    · simp [txnOf, hpc, TxExecutor.goto]
    · simp [txnOf, hpc]
  | storeEpoch hpc =>
    refine ⟨L, ser_same h hv (by simp [hpc]) (by simp [hpc, Inside]) (by simp [Inside]) rfl ?_ ?_⟩
    · simp [txnOf, hpc]
    · simp [txnOf, hpc]
  | validating hpc => exact ser_validating hi hv h hpc hok.tid
  | unlocking hpc => exact ⟨L, ser_unlocking hi hv h hpc⟩
  | aborting hpc => exact ⟨L, ser_aborting hv h hpc⟩
  | writing hpc hs => exact ser_writing hi hv h hpc hs

theorem ser_work {H : ValuePtr → Option W} (hi : Inv s H) (hv : Versions s) (h : Ser init s L)
    {op : Op K β} (hok : Admitted s (.work w op)) (hs : work s w op = some s') :
    ∃ L', Ser init s' L' := by
  have hlocal : ∀ t' : TxExecutor K β, ((s.workers w).pc = .running ∨ (s.workers w).pc = .idle) →
      ¬ Inside t'.pc → ∃ L', Ser init (s.setWorker w t') L' := by
    intro t' hpc ht
    refine ⟨L, ser_setWorker h ?_ ht⟩
    rcases hpc with hpc | hpc <;> simp [hpc, Inside]
  cases works_of_work hs with
  | tick hs => exact ser_tick hi hv h hok hs
  | begin hpc => exact hlocal _ (Or.inr hpc) (by simp [TxExecutor.begin, Inside])
  | read hpc =>
    refine hlocal _ (Or.inl hpc) ?_
    unfold read
    repeat' split
    all_goals simp [hpc, Inside, TxExecutor.refuse]
  | write hpc =>
    refine hlocal _ (Or.inl hpc) ?_
    unfold write
    repeat' split
    all_goals simp [hpc, Inside, TxExecutor.refuse]
  | insert | delete => exact absurd hok.ops (by simp [readsAndWrites])
  | validate hpc => exact hlocal _ (Or.inl hpc) (by simp [Inside])

end

omit [DecidableEq W] [DecidableEq K] [DecidableEq β] in
theorem ser_init (h : Init s) : Ser (fun v => some (s.body v)) s ([] : List (Item W K β)) where
  inside w := by simp [h.workers w, TxExecutor.new, Inside]
  nodup := by simp
  perm := by simp [h.committed]
  committed c hc := by
    rw [h.committed] at hc
    cases hc
  ok := ok_nil _
  body v _ := rfl
  vers x hx := by cases hx
  fresh L₁ w L₂ hL := by simp at hL

omit [DecidableEq β] in
/-- Under one tree, writing the record and writing its key are the same thing. -/
theorem lookup_writesOf {tree : K → Option ValuePtr}
    (hinj : ∀ k k' v, tree k = some v → tree k' = some v → k = k') {ws : List (WriteElement K β)}
    (hws : ∀ we ∈ ws, tree we.key_ = some we.value_) {k : K} {v : ValuePtr} (hk : tree k = some v) :
    lookup (writesOf ws) v = (searchWriteSet ws k).map fun we => some we.new_value_body_ := by
  have hfind : ws.find? (fun we => decide (we.value_ = v)) = ws.find? fun we => decide (we.key_ = k) := by
    refine List.find?_congr fun we hwe => ?_
    have htree := hws we hwe
    rw [decide_eq_decide]
    constructor
    · rintro rfl
      exact hinj _ _ _ htree hk
    · intro hkey
      rw [hkey, hk] at htree
      exact (Option.some.inj htree).symm
  unfold lookup writesOf searchWriteSet
  rw [List.find?_map, Option.map_map, ← hfind]
  rfl

section
omit [DecidableEq W] [DecidableEq K] [DecidableEq β]

theorem snap_decided (it : Item W K β) : (snap s it).decided = (commitOf s it).isSome := by
  cases it with
  | live w => cases hd : (txnOf (s.workers w)).decided <;> simp [snap, commitOf, hd]
  | done c => rfl

theorem snap_writes {it : Item W K β} {c : Committed W K β} (h : commitOf s it = some c) :
    (snap s it).writes = writesOf c.write_set_ := by
  cases it with
  | live w =>
    simp only [commitOf, Option.ite_none_right_eq_some, Option.some.injEq] at h
    obtain ⟨-, rfl⟩ := h
    rfl
  | done c' =>
    obtain rfl := Option.some.inj h
    rfl

theorem snap_reads {it : Item W K β} {c : Committed W K β} (h : commitOf s it = some c) :
    (snap s it).reads = c.read_set_.map readOf := by
  cases it with
  | live w =>
    simp only [commitOf, Option.ite_none_right_eq_some, Option.some.injEq] at h
    obtain ⟨hd, rfl⟩ := h
    simp only [snap, txnOf, TxExecutor.toCommitted] at hd ⊢
    split at hd <;> simp_all
  | done c' =>
    obtain rfl := Option.some.inj h
    rfl

theorem snap_ver {it : Item W K β} {c : Committed W K β} (h : commitOf s it = some c) :
    (snap s it).ver = c.tid.ver := by
  cases it with
  | live w =>
    simp only [commitOf, Option.ite_none_right_eq_some, Option.some.injEq] at h
    obtain ⟨-, rfl⟩ := h
    rfl
  | done c' =>
    obtain rfl := Option.some.inj h
    rfl

end

omit [DecidableEq W] [DecidableEq β] in
/-- Replaying the decided transactions of the history is replaying the committed
transactions, key by key. -/
theorem replay_eq_foldl {tree : K → Option ValuePtr}
    (hinj : ∀ k k' v, tree k = some v → tree k' = some v → k = k')
    (hc : ∀ c ∈ L.filterMap (commitOf s), ∀ we ∈ c.write_set_, tree we.key_ = some we.value_) {k : K}
    {v : ValuePtr} (hk : tree k = some v) (db : K → Option β) (b : Option β) (hb : db k = b) :
    ((L.map (snap s)).filter (·.decided)).foldl (fun b x => (lookup x.writes v).getD b) b =
      (L.filterMap (commitOf s)).foldl Committed.apply db k := by
  induction L generalizing db b with
  | nil => exact hb.symm
  | cons it L ih =>
    rw [List.map_cons]
    cases hco : commitOf s it with
    | none =>
      rw [List.filterMap_cons_none hco] at hc ⊢
      rw [List.filter_cons_of_neg (by simp [snap_decided, hco])]
      exact ih hc db b hb
    | some c =>
      rw [List.filterMap_cons_some hco] at hc ⊢
      rw [List.filter_cons_of_pos (by simp [snap_decided, hco]), List.foldl_cons, List.foldl_cons,
        snap_writes hco, lookup_writesOf hinj (hc c List.mem_cons_self) hk]
      refine ih (fun c' hc' => hc c' (List.mem_cons_of_mem _ hc')) _ _ ?_
      unfold Committed.apply
      cases searchWriteSet c.write_set_ k with
      | none => simpa using hb
      | some we => rfl

omit [DecidableEq W] [DecidableEq K] [DecidableEq β] in
/-- The place of a committed transaction, with its predecessors before it. -/
theorem split_order {pre post : List (Committed W K β)} {c : Committed W K β}
    (h : L.filterMap (commitOf s) = pre ++ c :: post) :
    ∃ M₁ it M₂, L = M₁ ++ it :: M₂ ∧ commitOf s it = some c ∧ M₁.filterMap (commitOf s) = pre := by
  obtain ⟨N₁, N₂, rfl, hN₁, hN₂⟩ := List.filterMap_eq_append_iff.mp h
  obtain ⟨N, it, N', rfl, hnone, hit, -⟩ := List.filterMap_eq_cons_iff.mp hN₂
  refine ⟨N₁ ++ N, it, N', by simp, hit, ?_⟩
  rw [List.filterMap_append, hN₁, List.filterMap_eq_nil_iff.mpr hnone, List.append_nil]

theorem pairwise_of_before {α : Type} {R : α → α → Prop} {l : List α}
    (h : ∀ l₁ x l₂, l = l₁ ++ x :: l₂ → ∀ y ∈ l₁, R y x) : l.Pairwise R := by
  rw [List.pairwise_iff_getElem]
  intro i j hi hj hij
  have hsplit : l = l.take j ++ l[j] :: l.drop (j + 1) := by
    rw [List.getElem_cons_drop, List.take_append_drop]
  exact h _ _ _ hsplit _ (List.mem_take_iff_getElem.mpr ⟨i, by omega, rfl⟩)

omit [DecidableEq W] [DecidableEq K] [DecidableEq β] in
theorem LostUpdate.symm {c c' : Committed W K β} (h : LostUpdate c c') : LostUpdate c' c := by
  obtain ⟨re, hre, re', hre', hkey, hver, hw, hw'⟩ := h
  exact ⟨re', hre', re, hre, hkey.symm, hver.symm, hkey ▸ hw', hkey ▸ hw⟩

omit [DecidableEq W] [DecidableEq β] in
theorem Ser.explains {s₀ : State W K β} (h₀ : Init s₀) (htree : s.tree = s₀.tree)
    (h : Ser (fun v => some (s₀.body v)) s L) : Serializable s₀ s := by
  have hinj : ∀ k k' v, s.tree k = some v → s.tree k' = some v → k = k' := by
    rw [htree]
    exact h₀.inj
  have hcom : ∀ c ∈ L.filterMap (commitOf s), CommittedOk s.tree c := fun c hc =>
    h.committed c (h.perm.mem_iff.mp hc)
  have hbodies : ∀ k v, s.tree k = some v → bodies s₀ k = some (s₀.body v) := by
    intro k v hk
    rw [htree] at hk
    simp [bodies, hk]
  refine ⟨⟨L.filterMap (commitOf s), h.perm, ?_, ?_⟩, ?_⟩
  · intro pre c post horder re hre
    obtain ⟨M₁, it, M₂, hL, hit, rfl⟩ := split_order horder
    have hmap : L.map (snap s) = M₁.map (snap s) ++ snap s it :: M₂.map (snap s) := by
      rw [hL, List.map_append, List.map_cons]
    have hr : readOf re ∈ (snap s it).reads := by
      rw [snap_reads hit]
      exact List.mem_map_of_mem hre
    have hc : c ∈ L.filterMap (commitOf s) := horder ▸ List.mem_append_right _ List.mem_cons_self
    have hk := (hcom c hc).tree_r re hre
    have hsub : ∀ c' ∈ M₁.filterMap (commitOf s), ∀ we ∈ c'.write_set_,
        s.tree we.key_ = some we.value_ := fun c' hc' =>
      (hcom c' (horder ▸ List.mem_append_left _ hc')).tree_w
    exact (h.ok.reads_replay hmap hr).trans (replay_eq_foldl hinj hsub hk _ _ (hbodies _ _ hk))
  · intro hidle k v hk
    have hclean : Clean s v := fun w => not_dirty_of_pc (by simp [hidle w]) v
    rw [h.body v hclean, val_eq_replay h.ok.undecided]
    · exact replay_eq_foldl hinj (fun c hc => (hcom c hc).tree_w) hk _ _ (hbodies _ _ hk)
    · intro y hy hp
      obtain ⟨u, hu, -⟩ := h.holder (fun _ hit => hit) hy hp
      have := (h.inside u).mp hu
      simp [hidle u, Inside] at this
  · refine (h.perm.pairwise_iff fun {c c'} hn hl => hn hl.symm).mp ?_
    refine pairwise_of_before ?_
    rintro pre c' post horder c hmem ⟨re, hre, re', hre', hkey, hver, ⟨we, hwe, hwk⟩, -⟩
    obtain ⟨M₁, it, M₂, hL, hit, rfl⟩ := split_order horder
    have hmap : L.map (snap s) = M₁.map (snap s) ++ snap s it :: M₂.map (snap s) := by
      rw [hL, List.map_append, List.map_cons]
    obtain ⟨it₀, hit₀, hco⟩ := List.mem_filterMap.mp hmem
    have hc := hcom c (horder ▸ List.mem_append_left _ hmem)
    have hc' := hcom c' (horder ▸ List.mem_append_right _ List.mem_cons_self)
    have hr : readOf re' ∈ (snap s it).reads := by
      rw [snap_reads hit]
      exact List.mem_map_of_mem hre'
    have haddr : we.value_ = re'.value_ := by
      have h1 := hc.tree_w we hwe
      rw [hwk, hkey, hc'.tree_r re' hre'] at h1
      exact (Option.some.inj h1).symm
    have hwrites : (snap s it₀).Writes (readOf re').addr := by
      refine ⟨some we.new_value_body_, ?_⟩
      rw [snap_writes hco]
      exact List.mem_map.mpr ⟨we, hwe, by rw [haddr]; rfl⟩
    have hle := h.ok.version_le hmap hr (List.mem_map_of_mem hit₀) hwrites
    rw [snap_ver hco] at hle
    have hlt := hc.newer re hre
    have hle' : c.tid.ver ≤ re'.tidword_.ver := hle
    omega

end

section
variable [Inhabited β] {s₀ s s' : State W K β} {w : W}

theorem work_tree (hv : Versions s) {op : Op K β} (hok : Admitted s (.work w op))
    (hs : work s w op = some s') : s'.tree = s.tree := by
  cases works_of_work hs with
  | insert | delete => exact absurd hok.ops (by simp [readsAndWrites])
  | begin | read | write | validate => rfl
  | tick hs =>
    cases ticks_of_tick hs with
    | readSpin | readBody | loadEpoch | storeEpoch => rfl
    | @locking i e =>
      generalize hs' : stepLocking s w (s.workers w) i e = s'
      cases lockings_of_stepLocking hs'
      all_goals rfl
    | unlockPrefix | unlocking =>
      generalize hs' : stepUnlock s w (s.workers w) _ _ _ _ _ = s'
      cases unlocks_of_stepUnlock hs'
      all_goals rfl
    | validating =>
      simp only [stepValidating]
      repeat' split
      all_goals rfl
    | aborting =>
      unfold stepAborting
      split
      · rfl
      rename_i we hwe
      simp [not_insert_of_ops hv hwe]
    | writing _ hs =>
      cases writings_of_stepWriting hs
      all_goals rfl

/-- Everything that holds in every state of an admitted run. -/
structure RunInv (s₀ s : State W K β) : Prop where
  locks : ∃ H, Inv s H
  versions : Versions s
  tree : s.tree = s₀.tree
  history : ∃ L, Ser (fun v => some (s₀.body v)) s L

theorem runInv_step {a : Action W K β} (h : RunInv s₀ s) (hok : Admitted s a)
    (hs : step s a = some s') : RunInv s₀ s' := by
  obtain ⟨⟨H, hi⟩, hv, htree, L, hser⟩ := h
  cases a with
  | work w op =>
    exact ⟨⟨_, inv_work hi hok.free hs⟩, versions_work hi hv hok hs,
      (work_tree hv hok hs).trans htree, ser_work hi hv hser hok hs⟩
  | advanceEpoch =>
    obtain rfl := Option.some.inj hs
    obtain ⟨⟨κ, hw, hl⟩, hu⟩ := hi
    refine ⟨⟨H, ⟨κ, ⟨hw.tree, hw.tx, hw.above⟩,
      ⟨hl.bit, hl.owner, hl.only, hl.freed, hl.through⟩⟩, hu⟩, ?_, htree, L, ?_⟩
    · exact fun u => ⟨⟨(hv u).sets.tree_r, (hv u).sets.tree_w, (hv u).sets.ops, (hv u).sets.le,
        (hv u).sets.seen⟩, (hv u).pc⟩
    · exact ⟨hser.inside, hser.nodup, hser.perm, hser.committed, hser.ok, hser.body, hser.vers,
        hser.fresh⟩

/-- In every run of reads and writes in which `lockWriteSet` meets no lock and no
commit TID overflows its 29 bits, the transactions that passed validation are
serializable, in every state reached. -/
theorem serializable (h₀ : Init s₀) (h : Reach step (Eq s₀) Admitted s) : Serializable s₀ s := by
  have hrun : RunInv s₀ s := by
    refine Reach.invariant (I := RunInv s₀) ?_ ?_ h
    · rintro _ rfl
      exact ⟨⟨_, owned_init h₀⟩, versions_init h₀, rfl, [], ser_init h₀⟩
    · intro y a y' hy hok hs
      exact runInv_step hy hok hs
  obtain ⟨-, -, htree, L, hser⟩ := hrun
  exact hser.explains h₀ htree

end

instance (c c' : Committed W K β) : Decidable (LostUpdate c c') := by
  unfold LostUpdate
  infer_instance

/-- Both workers read the record and write it; the second one finds it locked. -/
def lostUpdateSchedule : List (Action Bool Nat Nat) :=
  [.work false .begin, .work false (.read 0), .work false .tick, .work false .tick,
   .work false (.write 0 10), .work true .begin, .work true (.read 0), .work true .tick,
   .work true .tick, .work true (.write 0 20), .work false (.validate [⟨0, 0, 10, .WRITE⟩]),
   .work true (.validate [⟨0, 0, 20, .WRITE⟩]), .work false .tick, .work false .tick,
   .work true .tick, .work true .tick, .work true .tick, .work true .tick, .work true .tick,
   .work true .tick, .work true .tick, .work false .tick, .work false .tick, .work false .tick,
   .work false .tick, .work false .tick]

theorem lostUpdateSchedule_runs : (exec step oneRecord lostUpdateSchedule).isSome := by decide

theorem lostUpdateSchedule_admits :
    Admits step (fun _ a => readsAndWrites a = true) oneRecord lostUpdateSchedule := by decide

theorem serializable_lost_update :
    ¬ ∀ s : State Bool Nat Nat, Reach step (Eq oneRecord) (fun _ a => readsAndWrites a = true) s →
      Serializable oneRecord s := by
  intro h
  have hser := h _ (reach_get_of_admits rfl lostUpdateSchedule_admits lostUpdateSchedule_runs)
  exact absurd hser.noLostUpdate (by decide)

/-- One worker after the other: both read, write and commit. -/
def serialSchedule : List (Action Bool Nat Nat) :=
  [.work false .begin, .work false (.read 0), .work false .tick, .work false .tick,
   .work false (.write 0 10), .work false (.validate [⟨0, 0, 10, .WRITE⟩]), .work false .tick,
   .work false .tick, .work false .tick, .work false .tick, .work false .tick, .work false .tick,
   .work false .tick, .work false .tick, .work false .tick, .work false .tick,
   .work true .begin, .work true (.read 0), .work true .tick, .work true .tick,
   .work true (.write 0 20), .work true (.validate [⟨0, 0, 20, .WRITE⟩]), .work true .tick,
   .work true .tick, .work true .tick, .work true .tick, .work true .tick, .work true .tick,
   .work true .tick, .work true .tick, .work true .tick, .work true .tick]

theorem serialSchedule_runs : (exec step oneRecord serialSchedule).isSome := by decide

theorem serialSchedule_admits : Admits step Admitted oneRecord serialSchedule := by decide

theorem serializable_serial :
    ((exec step oneRecord serialSchedule).get serialSchedule_runs).committed.length = 2 ∧
      Serializable oneRecord ((exec step oneRecord serialSchedule).get serialSchedule_runs) :=
  ⟨by decide, serializable oneRecord_init
    (reach_get_of_admits rfl serialSchedule_admits serialSchedule_runs)⟩

end Cassa.SiloCC.Occ

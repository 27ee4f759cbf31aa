import Cassa.SiloCC.FollowingRun

/-!
# Serializability of runs that delete

The order of the run of `Cassa.SiloCC.FollowingRun` is an order of the run with deletes:
its bodies are the visible bodies, and a delete writes `none`. What it cannot tell is that
a written record is present: `writePhase` stores a write under the absent bit that the
largest word observed, or an earlier delete of the same transaction, has left in `maxtid`.
-/

namespace Cassa.SiloCC.Occ

open Cassa.Lib.Runs

variable {W K β : Type} [DecidableEq W] [DecidableEq K] [DecidableEq β]

/-- The body under a key, unless the record is absent. -/
def visible (s : State W K β) (k : K) : Option β :=
  (s.tree k).bind fun v => if (s.tidword v).absent then none else some (s.body v)

/-- One transaction executed alone. -/
def Committed.applyVisible (db : K → Option β) (c : Committed W K β) : K → Option β := fun k =>
  match searchWriteSet c.write_set_ k with
  | some we => if we.op_ = .DELETE then none else some we.new_value_body_
  | none => db k

/-- An order of the committed transactions that explains every read. -/
structure SerialOrder (s₀ s : State W K β) (order : List (Committed W K β)) : Prop where
  perm : order.Perm s.committed
  reads : ∀ pre c post, order = pre ++ c :: post → ∀ re ∈ c.read_set_,
    re.seen = pre.foldl Committed.applyVisible (visible s₀) re.key_

section
omit [DecidableEq W] [DecidableEq β]

theorem apply_lift {db : K → Option β} {db' : Option K → Option (Option β)} {k : K}
    (hdb : db' (some k) = some (db k)) (c : Committed W K β) :
    Committed.apply db' (liftCommitted c) (some k) = some (Committed.applyVisible db c k) := by
  unfold Committed.apply Committed.applyVisible
  simp only [liftCommitted, searchWriteSet_lift]
  cases searchWriteSet c.write_set_ k with
  | none => exact hdb
  | some we => rfl

/-- Replaying the following run tells the visible bodies of the replay. -/
theorem replay_lift {db : K → Option β} {db' : Option K → Option (Option β)} {k : K}
    (hdb : db' (some k) = some (db k)) (order : List (Committed W K β)) :
    (order.map liftCommitted).foldl Committed.apply db' (some k) =
      some (order.foldl Committed.applyVisible db k) := by
  induction order generalizing db db' with
  | nil => exact hdb
  | cons c order ih =>
    rw [List.map_cons, List.foldl_cons, List.foldl_cons]
    exact ih (apply_lift hdb c)

end

section
omit [DecidableEq W] [DecidableEq K] [DecidableEq β]

theorem bodies_lifted {s : State W K β} {k : K} {v : ValuePtr} (h : s.tree k = some v) :
    bodies (lifted s) (some k) = some (visible s k) := by
  simp [bodies, lifted, visible, h, State.body]

end

omit [DecidableEq W] [DecidableEq β] in
theorem replay_unwritten {order : List (Committed W K β)} {k : K}
    (h : ∀ c ∈ order, ∀ we ∈ c.write_set_, we.key_ ≠ k) (db : K → Option β) :
    order.foldl Committed.applyVisible db k = db k := by
  induction order generalizing db with
  | nil => rfl
  | cons c order ih =>
    rw [List.foldl_cons, ih (fun c' hc' => h c' (List.mem_cons_of_mem _ hc'))]
    unfold Committed.applyVisible
    rw [searchWriteSet_none.mpr (h c List.mem_cons_self)]

section
variable [Inhabited β] {E : Prop} {s₀ s : State W K β} {m : State W (Option K) (Option β)}

section
omit [DecidableEq W] [DecidableEq β] [Inhabited β]

theorem Follows.tree_eq (hr : RunInv (lifted s₀) m) (h : Follows E s m) : s.tree = s₀.tree := by
  funext k
  exact congrFun (h.tree.symm.trans hr.tree) (some k)

/-- The order of the following run, read back. -/
theorem Follows.explains (h₀ : Init s₀) (hr : RunInv (lifted s₀) m) (h : Follows E s m) :
    ∃ order, SerialOrder s₀ s order ∧
      ((∀ w, (s.workers w).pc = .idle) → ∀ k v, s.tree k = some v →
        m.body v = order.foldl Committed.applyVisible (visible s₀) k) := by
  obtain ⟨L, hser⟩ := hr.history
  obtain ⟨order', hperm', hreads, hrest⟩ := (hser.explains (lifted_init h₀) hr.tree).serial
  rw [h.committed] at hperm'
  obtain ⟨order, rfl, hperm⟩ : ∃ order : List (Committed W K β),
      order' = order.map liftCommitted ∧ order.Perm s.committed :=
    (congrFun (congrFun (List.eq_map_comp_perm liftCommitted) order') s.committed).mpr hperm'
  have htree := h.tree_eq hr
  refine ⟨order, ⟨hperm, ?_⟩, ?_⟩
  · intro pre c post horder re hre
    have hc : liftCommitted c ∈ m.committed := by
      rw [h.committed]
      refine List.mem_map_of_mem (hperm.mem_iff.mp ?_)
      rw [horder]
      exact List.mem_append_right _ List.mem_cons_self
    have hk : s₀.tree re.key_ = some re.value_ := by
      have hm := (hser.committed _ hc).tree_r _ (List.mem_map_of_mem hre)
      rw [hr.tree] at hm
      exact hm
    have hseen := hreads (pre.map liftCommitted) (liftCommitted c) (post.map liftCommitted) (by simp [horder])
      _ (List.mem_map_of_mem hre)
    change re.seen.map some = _ at hseen
    rw [show (liftRead re).key_ = some re.key_ from rfl, replay_lift (bodies_lifted hk),
      Option.map_eq_some_iff] at hseen
    obtain ⟨b, hb, hreplay⟩ := hseen
    rw [hb, ← hreplay]
  · intro hidle k v hk
    have hidle' : ∀ w, (m.workers w).pc = .idle := fun w => by
      rw [(h.workers w).pc, hidle w]
      rfl
    have hm : m.tree (some k) = some v := by
      rw [h.tree]
      exact hk
    have hbody := hrest hidle' (some k) v hm
    rw [replay_lift (bodies_lifted (htree ▸ hk))] at hbody
    exact Option.some.inj hbody

end

omit [DecidableEq W] [DecidableEq K] [DecidableEq β] [Inhabited β] in
theorem visible_of_tree {k : K} {v : ValuePtr} (h : s.tree k = some v) :
    visible s k = if (s.tidword v).absent then none else some (s.body v) := by
  simp [visible, h]

/-- If moreover no body is stored under a word with the absent bit, the bodies at rest are
those of the serial order: what it deletes is gone, what it writes is there. -/
theorem visible_eq_replay (h₀ : Init s₀)
    (h : Reach step (Eq s₀) (fun s a => AdmittedDeletes s a ∧ storesAbsent s a = false) s)
    (hidle : ∀ w, (s.workers w).pc = .idle) :
    ∃ order, SerialOrder s₀ s order ∧ visible s = order.foldl Committed.applyVisible (visible s₀) := by
  obtain ⟨m, hm, hf⟩ := follows_reach (E := True) h₀ (fun _ _ ha => ⟨ha.1, fun _ => ha.2⟩) h
  have hr := hm.runInv (lifted_init h₀)
  obtain ⟨order, horder, hrest⟩ := hf.explains h₀ hr
  refine ⟨order, horder, ?_⟩
  funext k
  cases hk : s.tree k with
  | some v =>
    rw [← hrest hidle k v hk, visible_of_tree hk]
    split
    · rename_i habsent
      have hclean : ¬ Stored s v := by
        intro hst
        rcases hst with ha | ⟨w, hdirty⟩
        · rw [ha] at habsent
          cases habsent
        · exact not_dirty_of_pc (by simp [hidle w]) v hdirty
      rw [(hf.body v).gone trivial hclean]
    · rename_i habsent
      rw [(hf.body v).stored (Or.inl (by simpa using habsent))]
  | none =>
    have hunwritten : ∀ c ∈ order, ∀ we ∈ c.write_set_, we.key_ ≠ k := by
      intro c hc we hwe heq
      obtain ⟨L, hser⟩ := hr.history
      have hc' : liftCommitted c ∈ m.committed := by
        rw [hf.committed]
        exact List.mem_map_of_mem (horder.perm.mem_iff.mp hc)
      have hm := (hser.committed _ hc').tree_w _ (List.mem_map_of_mem hwe)
      rw [hf.tree] at hm
      have hm : s.tree we.key_ = some we.value_ := hm
      rw [heq, hk] at hm
      cases hm
    rw [replay_unwritten hunwritten]
    have hk₀ : s₀.tree k = none := by rw [← hf.tree_eq hr, hk]
    simp [visible, hk, hk₀]

end

/-- The second worker reads the word, the first one deletes the record, and the second one
copies the body: its validation fails, and its next read is refused. -/
def deleteSchedule : List (Action Bool Nat Nat) :=
  [.work true .begin, .work true (.read 0), .work true .tick, .work false .begin, .work false (.read 0),
   .work false .tick, .work false .tick, .work false (.delete 0),
   .work false (.validate [⟨0, 0, 0, .DELETE⟩]), .work false .tick, .work false .tick, .work false .tick,
   .work false .tick, .work false .tick, .work false .tick, .work false .tick, .work false .tick,
   .work false .tick, .work true .tick, .work true (.validate []), .work true .tick, .work true .tick,
   .work true .tick, .work true .tick, .work true .tick, .work true .tick, .work true .begin,
   .work true (.read 0), .work true .tick, .work true .tick]

theorem deleteSchedule_runs : (exec step oneRecord deleteSchedule).isSome := by decide

theorem deleteSchedule_admits :
    Admits step (fun s a => AdmittedDeletes s a ∧ storesAbsent s a = false) oneRecord deleteSchedule := by
  decide

theorem visible_eq_replay_delete :
    visible ((exec step oneRecord deleteSchedule).get deleteSchedule_runs) 0 = none ∧
      ∃ order, SerialOrder oneRecord ((exec step oneRecord deleteSchedule).get deleteSchedule_runs) order ∧
        visible ((exec step oneRecord deleteSchedule).get deleteSchedule_runs) =
          order.foldl Committed.applyVisible (visible oneRecord) :=
  ⟨by decide, visible_eq_replay oneRecord_init
    (reach_get_of_admits rfl deleteSchedule_admits deleteSchedule_runs) (by decide)⟩

end Cassa.SiloCC.Occ

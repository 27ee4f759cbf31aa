import Mathlib.Data.List.Perm.Subperm
import Mathlib.Data.List.Pairwise
import Mathlib.Data.List.Sort

/-!
# Replay with later elements brought forward

A history is replayed in passes, one for each level. The pass of a level lists everything of the history
on that level, and may list what is on higher levels besides; each pass is in the order of the history.
Where an element that comes again either has the effect that it had in the history or finds another state
and leaves it alone, the passes end where the history ends.
-/

namespace Cassa.Lib.EarlyReplay

variable {α σ ε : Type*} {f : σ → α → Except ε σ} {key level : α → Nat} {start s s' : σ} {H Q : List α} {c : Nat}

/-- An element that comes again has the effect that it had in the history, or finds another state than
it found there and leaves it. -/
def Settles (f : σ → α → Except ε σ) (start : σ) (H : List α) : Prop :=
  ∀ pre x post s s', H = pre ++ x :: post → f s x = .ok s' →
    (pre ++ [x]).foldlM f start = .ok s' ∨ s' = s ∧ pre.foldlM f start ≠ .ok s

/-- The history, with the levels in its order. -/
structure Leveled (key level : α → Nat) (H : List α) : Prop where
  sorted : H.Pairwise fun a b => key a < key b
  level : ∀ a ∈ H, ∀ b ∈ H, key a ≤ key b → level a ≤ level b

/-- The pass of the level `c`. -/
structure Pass (key level : α → Nat) (H : List α) (c : Nat) (Q : List α) : Prop where
  sorted : Q.Pairwise fun a b => key a ≤ key b
  source : ∀ a ∈ Q, a ∈ H ∧ c ≤ level a
  complete : ∀ a ∈ H, level a = c → a ∈ Q

/-- The state is one that the history goes through, after everything that `done` says. -/
def Reached (f : σ → α → Except ε σ) (start : σ) (H : List α) (done : α → Prop) (s : σ) : Prop :=
  ∃ p, p <+: H ∧ p.foldlM f start = .ok s ∧ ∀ a ∈ H, done a → a ∈ p

theorem reached_start : Reached f start H (fun a => level a < 0) start :=
  ⟨[], List.nil_prefix, rfl, fun _ _ h => absurd h (Nat.not_lt_zero _)⟩

theorem Reached.mono {done done' : α → Prop} (h : Reached f start H done s) (hd : ∀ a ∈ H, done' a → done a) :
    Reached f start H done' s := by
  obtain ⟨p, hp, hfold, hdone⟩ := h
  exact ⟨p, hp, hfold, fun a ha h' => hdone a ha (hd a ha h')⟩

theorem Reached.finished {done : α → Prop} (h : Reached f start H done s) (hsorted : H.Nodup) (hall : ∀ a ∈ H, done a) :
    H.foldlM f start = .ok s := by
  obtain ⟨p, hp, hfold, hdone⟩ := h
  have hlen : H.length ≤ p.length := (List.subperm_of_subset hsorted fun a ha => hdone a ha (hall a ha)).length_le
  rwa [← hp.eq_of_length (Nat.le_antisymm hp.length_le hlen)]

theorem Leveled.nodup (h : Leveled key level H) : H.Nodup :=
  h.sorted.imp fun hlt heq => hlt.ne (congrArg key heq)

theorem Leveled.eq_of_key (h : Leveled key level H) {a b : α} (ha : a ∈ H) (hb : b ∈ H) (hkey : key a = key b) :
    a = b := by
  by_contra hne
  have hall : H.Pairwise fun a b => key a ≠ key b := h.sorted.imp fun hlt => hlt.ne
  have : Std.Symm fun a b : α => key a ≠ key b := ⟨fun _ _ hab => hab.symm⟩
  exact hall.forall ha hb hne hkey

/-- What is before an element in the history has a smaller key. -/
theorem Leveled.before (h : Leveled key level H) {pre post : List α} {x a : α} (hsplit : H = pre ++ x :: post)
    (ha : a ∈ pre) : key a < key x := by
  rw [hsplit] at h
  exact (List.pairwise_append.mp h.sorted).2.2 a ha x List.mem_cons_self

theorem Leveled.after (h : Leveled key level H) {pre post : List α} {x a : α} (hsplit : H = pre ++ x :: post)
    (ha : a ∈ post) : key x < key a := by
  have hsorted := h.sorted
  rw [hsplit] at hsorted
  exact (List.pairwise_cons.mp (List.pairwise_append.mp hsorted).2.1).1 a ha

/-- What a pass has settled when `rest` is still to come. -/
def Settled (level : α → Nat) (c : Nat) (rest : List α) (a : α) : Prop := level a < c ∨ level a = c ∧ a ∉ rest

/-- One element of a pass. -/
theorem Reached.step (hH : Leveled key level H) (hf : Settles f start H) {x : α} {rest : List α}
    (hsorted : (x :: rest).Pairwise fun a b => key a ≤ key b) (hx : x ∈ H) (hlevel : c ≤ level x)
    (hpast : ∀ a ∈ H, level a = c → a ∈ x :: rest ∨ key a < key x)
    (h : Reached f start H (Settled level c (x :: rest)) s) (hstep : f s x = .ok s') :
    Reached f start H (Settled level c rest) s' := by
  obtain ⟨p, hp, hfold, hdone⟩ := h
  obtain ⟨pre, post, hsplit⟩ := List.append_of_mem hx
  have hrest : ∀ a ∈ rest, key x ≤ key a := (List.pairwise_cons.mp hsorted).1
  rcases hf pre x post s s' hsplit hstep with heffect | ⟨rfl, hother⟩
  · refine ⟨pre ++ [x], ⟨post, by simp [hsplit]⟩, heffect, ?_⟩
    intro a ha hsettled
    have hmem := ha
    rw [hsplit] at hmem
    rcases List.mem_append.mp hmem with hmem | hmem
    · exact List.mem_append_left _ hmem
    rcases List.mem_cons.mp hmem with rfl | hmem
    · exact List.mem_append_right _ List.mem_cons_self
    · exfalso
      have hlt := hH.after hsplit hmem
      have hle := hH.level x hx a ha hlt.le
      rcases hsettled with hlow | ⟨hat, hnot⟩
      · omega
      · rcases hpast a ha hat with hin | hkey
        · rcases List.mem_cons.mp hin with rfl | hin
          · exact Nat.lt_irrefl _ hlt
          · exact hnot hin
        · exact Nat.lt_asymm hlt hkey
  · refine ⟨p, hp, hfold, ?_⟩
    intro a ha hsettled
    by_cases hax : a = x
    · subst hax
      by_contra hnot
      -- what comes before `a` is settled, so the state would be the one that `a` found
      have hlow : level a ≤ c := by
        rcases hsettled with hlow | ⟨hat, -⟩
        · exact hlow.le
        · exact hat.le
      have hpre : ∀ b ∈ pre, b ∈ p := by
        intro b hb
        have hbH : b ∈ H := hsplit ▸ List.mem_append_left _ hb
        have hkey := hH.before hsplit hb
        have hle := hH.level b hbH a ha hkey.le
        refine hdone b hbH ?_
        rcases Nat.lt_or_eq_of_le (hle.trans hlow) with hlt | heq
        · exact Or.inl hlt
        · refine Or.inr ⟨heq, ?_⟩
          intro hin
          rcases List.mem_cons.mp hin with rfl | hin
          · exact Nat.lt_irrefl _ hkey
          · exact Nat.lt_irrefl _ (hkey.trans_le (hrest b hin))
      have hpp : p <+: pre := by
        have hlen : p.length ≤ pre.length := by
          by_contra hlong
          refine hnot ?_
          have hprefix : pre ++ [a] <+: p := by
            refine List.prefix_of_prefix_length_le ⟨post, by simp [hsplit]⟩ hp ?_
            rw [List.length_append, List.length_singleton]
            omega
          exact hprefix.subset (List.mem_append_right _ List.mem_cons_self)
        exact List.prefix_of_prefix_length_le hp ⟨a :: post, hsplit.symm⟩ hlen
      have hnodup : pre.Nodup := by
        have hn := hH.nodup
        rw [hsplit] at hn
        exact (List.nodup_append.mp hn).1
      have hlen := (List.subperm_of_subset hnodup hpre).length_le
      rw [hpp.eq_of_length (Nat.le_antisymm hpp.length_le hlen)] at hfold
      exact hother hfold
    · refine hdone a ha (hsettled.imp_right fun ⟨hat, hnot⟩ => ⟨hat, ?_⟩)
      intro hin
      rcases List.mem_cons.mp hin with rfl | hin
      · exact hax rfl
      · exact hnot hin

/-- One pass. -/
theorem Pass.reached (hH : Leveled key level H) (hf : Settles f start H) (hQ : Pass key level H c Q)
    (h : Reached f start H (fun a => level a < c) s) (hrun : Q.foldlM f s = .ok s') :
    Reached f start H (fun a => level a < c + 1) s' := by
  have hrest : ∀ rest s, (∃ before, Q = before ++ rest) →
      Reached f start H (Settled level c rest) s → rest.foldlM f s = .ok s' →
      Reached f start H (Settled level c []) s' := by
    intro rest
    induction rest with
    | nil =>
      intro s _ hs hok
      obtain rfl := Except.ok.inj hok
      exact hs
    | cons x rest ih =>
      rintro s ⟨before, hbefore⟩ hs hok
      have hxQ : x ∈ Q := by simp [hbefore]
      rw [List.foldlM_cons] at hok
      cases hstep : f s x with
      | error e =>
        rw [hstep] at hok
        cases hok
      | ok s₁ =>
        rw [hstep] at hok
        have hsorted := hQ.sorted
        rw [hbefore] at hsorted
        obtain ⟨-, hsorted, hcross⟩ := List.pairwise_append.mp hsorted
        refine ih s₁ ⟨before ++ [x], by simp [hbefore]⟩ ?_ hok
        refine hs.step hH hf hsorted (hQ.source x hxQ).1 (hQ.source x hxQ).2 ?_ hstep
        intro a ha hat
        have haQ := hQ.complete a ha hat
        rw [hbefore] at haQ
        rcases List.mem_append.mp haQ with hin | hin
        · by_cases hax : a = x
          · exact Or.inl (hax ▸ List.mem_cons_self)
          · right
            refine Nat.lt_of_le_of_ne (hcross a hin x List.mem_cons_self) ?_
            intro heq
            exact hax (hH.eq_of_key ha (hQ.source x hxQ).1 heq)
        · exact Or.inl hin
  refine (hrest Q s ⟨[], rfl⟩ (h.mono ?_) hrun).mono ?_
  · rintro a ha (hlow | ⟨hat, hnot⟩)
    · exact hlow
    · exact absurd (hQ.complete a ha hat) hnot
  · intro a _ hlow
    rcases Nat.lt_or_eq_of_le (Nat.le_of_lt_succ hlow) with hlt | heq
    · exact Or.inl hlt
    · exact Or.inr ⟨heq, List.not_mem_nil⟩

/-- The passes one after the other. -/
theorem passes_reached {Q : Nat → List α} (hH : Leveled key level H) (hf : Settles f start H) (n : Nat)
    (hQ : ∀ c < n, Pass key level H c (Q c)) (hrun : ((List.range n).flatMap Q).foldlM f start = .ok s) :
    Reached f start H (fun a => level a < n) s := by
  induction n generalizing s with
  | zero =>
    obtain rfl := Except.ok.inj hrun
    exact reached_start
  | succ n ih =>
    rw [List.range_succ, List.flatMap_append, List.flatMap_singleton, List.foldlM_append] at hrun
    cases hfirst : ((List.range n).flatMap Q).foldlM f start with
    | error e =>
      rw [hfirst] at hrun
      cases hrun
    | ok s₁ =>
      rw [hfirst] at hrun
      have h := ih (fun c hc => hQ c (Nat.lt_succ_of_lt hc)) hfirst
      exact (hQ n (Nat.lt_succ_self n)).reached hH hf h hrun

/-- All levels have had their pass. -/
theorem foldlM_eq_of_passes {Q : Nat → List α} (hH : Leveled key level H) (hf : Settles f start H) {n : Nat}
    (hQ : ∀ c < n, Pass key level H c (Q c)) (hall : ∀ a ∈ H, level a < n)
    (hrun : ((List.range n).flatMap Q).foldlM f start = .ok s) : H.foldlM f start = .ok s :=
  (passes_reached hH hf n hQ hrun).finished hH.nodup hall

end Cassa.Lib.EarlyReplay

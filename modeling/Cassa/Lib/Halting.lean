import Mathlib.Logic.Relation

/-!
# Runs that end

A machine whose step either goes on or stops with a result. The run from a state is the only one,
so it has at most one result, and it has one if no run goes on forever.
-/

namespace Cassa.Lib.Halting

variable {σ ρ : Type*} {step : σ → σ ⊕ ρ}

def Next (step : σ → σ ⊕ ρ) (s s' : σ) : Prop := step s = .inl s'

/-- The states of the run from `s`. -/
def Visits (step : σ → σ ⊕ ρ) : σ → σ → Prop := Relation.ReflTransGen (Next step)

/-- The run from `s` stops with `r`. -/
def Halts (step : σ → σ ⊕ ρ) (s : σ) (r : ρ) : Prop := ∃ s', Visits step s s' ∧ step s' = .inr r

theorem Visits.next {s s' t : σ} (hs : step s = .inl s') (h : Visits step s' t) : Visits step s t := .head hs h

/-- What every step preserves holds in every state of the run. -/
theorem Visits.invariant {I : σ → Prop} (hstep : ∀ s s', I s → step s = .inl s' → I s') {s t : σ}
    (hvisits : Visits step s t) (hs : I s) : I t := by
  induction hvisits with
  | refl => exact hs
  | tail _ hnext ih => exact hstep _ _ ih hnext

theorem Halts.now {s : σ} {r : ρ} (hs : step s = .inr r) : Halts step s r := ⟨s, .refl, hs⟩

theorem Halts.after {s s' : σ} {r : ρ} (hvisits : Visits step s s') (h : Halts step s' r) : Halts step s r := by
  obtain ⟨t, hrest, ht⟩ := h
  exact ⟨t, hvisits.trans hrest, ht⟩

theorem Halts.next {s s' : σ} {r : ρ} (hs : step s = .inl s') (h : Halts step s r) : Halts step s' r := by
  obtain ⟨t, hvisits, ht⟩ := h
  rcases hvisits.cases_head with rfl | ⟨u, hu, hrest⟩
  · rw [hs] at ht
    cases ht
  · rw [Next, hs] at hu
    obtain rfl := Sum.inl.inj hu
    exact ⟨t, hrest, ht⟩

theorem Halts.of_visits {s s' : σ} {r : ρ} (hvisits : Visits step s s') (h : Halts step s r) :
    Halts step s' r := by
  induction hvisits with
  | refl => exact h
  | tail _ hnext ih => exact ih.next hnext

theorem Halts.eq_of_stop {s : σ} {r r' : ρ} (hs : step s = .inr r') (h : Halts step s r) : r = r' := by
  obtain ⟨t, hvisits, ht⟩ := h
  rcases hvisits.cases_head with rfl | ⟨u, hu, -⟩
  · exact Sum.inr.inj (ht.symm.trans hs)
  · rw [Next, hs] at hu
    cases hu

theorem Halts.unique {s : σ} {r r' : ρ} (h : Halts step s r) (h' : Halts step s r') : r = r' := by
  obtain ⟨t, hvisits, ht⟩ := h'
  exact (h.of_visits hvisits).eq_of_stop ht

/-- The last state has what every step preserves. -/
theorem Halts.invariant {I : σ → Prop} (hstep : ∀ s s', I s → step s = .inl s' → I s') {s : σ} {r : ρ}
    (h : Halts step s r) (hs : I s) : ∃ t, I t ∧ step t = .inr r := by
  obtain ⟨t, hvisits, ht⟩ := h
  exact ⟨t, hvisits.invariant hstep hs, ht⟩

end Cassa.Lib.Halting

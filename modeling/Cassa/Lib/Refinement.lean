import Mathlib.Init

/-!
# Machines that answer inputs

A machine takes an input in a state and gives an output and the next state, or fails. One machine
refines another when related states answer every input alike and stay related; then they answer
every list of inputs alike, and fail on the same ones.
-/

namespace Cassa.Lib.Refinement

/-- The outputs are the same and the states are related. -/
def Alike {ο σ τ : Type*} (R : σ → τ → Prop) : Option (ο × σ) → Option (ο × τ) → Prop :=
  Option.Rel fun a b => a.1 = b.1 ∧ R a.2 b.2

/-- An output in two parts, with the state between them. -/
def stateLast {ο σ ρ : Type*} (a : ο × σ × ρ) : (ο × ρ) × σ := ((a.1, a.2.2), a.2.1)

section

variable {ι ο ο' ρ σ τ : Type*} {R R' : σ → τ → Prop}

theorem Alike.ok {o : ο} {s : σ} {t : τ} (h : R s t) : Alike R (some (o, s)) (some (o, t)) := .some ⟨rfl, h⟩

theorem Alike.cases {a : Option (ο × σ)} {b : Option (ο × τ)} (h : Alike R a b) :
    a = none ∧ b = none ∨ ∃ o s t, a = some (o, s) ∧ b = some (o, t) ∧ R s t := by
  cases h with
  | none => exact .inl ⟨rfl, rfl⟩
  | @some a b h =>
    obtain ⟨o, s⟩ := a
    obtain ⟨o', t⟩ := b
    obtain ⟨rfl, h⟩ := h
    exact .inr ⟨o, s, t, rfl, rfl, h⟩

theorem Alike.cases_stateLast {a : Option (ο × σ × ρ)} {b : Option (ο × τ × ρ)}
    (h : Alike R (a.map stateLast) (b.map stateLast)) :
    a = none ∧ b = none ∨ ∃ o r s t, a = some (o, s, r) ∧ b = some (o, t, r) ∧ R s t := by
  rcases h.cases with ⟨ha, hb⟩ | ⟨⟨o, r⟩, s, t, ha, hb, hst⟩
  · exact .inl ⟨Option.map_eq_none_iff.mp ha, Option.map_eq_none_iff.mp hb⟩
  · obtain ⟨⟨o₁, s₁, r₁⟩, rfl, ha⟩ := Option.map_eq_some_iff.mp ha
    obtain ⟨⟨o₂, t₂, r₂⟩, rfl, hb⟩ := Option.map_eq_some_iff.mp hb
    cases ha
    cases hb
    exact .inr ⟨o₁, r₁, s₁, t₂, rfl, rfl, hst⟩

theorem Alike.bind {a : Option (ο × σ)} {b : Option (ο × τ)} (h : Alike R a b) {f : ο × σ → Option (ο' × σ)}
    {g : ο × τ → Option (ο' × τ)} (hfg : ∀ o s t, R s t → Alike R' (f (o, s)) (g (o, t))) :
    Alike R' (a.bind f) (b.bind g) := by
  rcases h.cases with ⟨rfl, rfl⟩ | ⟨o, s, t, rfl, rfl, hst⟩
  · exact .none
  · exact hfg o s t hst

/-- The inputs one after another. -/
def serve (f : σ → ι → Option (ο × σ)) : σ → List ι → Option (List ο × σ)
  | s, [] => some ([], s)
  | s, i :: is => (f s i).bind fun a => (serve f a.2 is).map fun r => (a.1 :: r.1, r.2)

theorem serve_alike {f : σ → ι → Option (ο × σ)} {g : τ → ι → Option (ο × τ)}
    (hstep : ∀ s t i, R s t → Alike R (f s i) (g t i)) (is : List ι) : ∀ {s t}, R s t →
    Alike R (serve f s is) (serve g t is) := by
  induction is with
  | nil => exact fun h => .ok h
  | cons i is ih =>
    intro s t h
    refine (hstep s t i h).bind fun o s' t' h' => ?_
    rcases (ih h').cases with ⟨hf, hg⟩ | ⟨os, s'', t'', hf, hg, h''⟩
    · rw [hf, hg]
      exact .none
    · rw [hf, hg]
      exact .ok h''

end

end Cassa.Lib.Refinement

import Mathlib.Logic.Relation
import Mathlib.Data.List.Basic

/-!
# Runs of a partial step function

A machine is given by `step : σ → α → Option σ`: an action either is enabled and
produces the next state, or is not. `Reach` collects the states of all runs whose
every step satisfied a condition on the state before it; the unconditional runs
are the case of the condition that always holds.
-/

namespace Cassa.Lib.Runs

variable {σ α : Type*} {step : σ → α → Option σ}

/-- Execute a finite schedule; `none` when some action of it was not enabled. -/
def exec (step : σ → α → Option σ) (s : σ) : List α → Option σ
  | [] => some s
  | a :: as => (step s a).bind fun s' => exec step s' as

theorem exec_append (s : σ) (as bs : List α) :
    exec step s (as ++ bs) = (exec step s as).bind fun t => exec step t bs := by
  induction as generalizing s with
  | nil => rfl
  | cons a as ih =>
    rw [List.cons_append, exec, exec, Option.bind_assoc]
    congr 1
    funext t
    exact ih t

/-- The states reached from `init` by steps that all satisfied `ok` beforehand. -/
inductive Reach (step : σ → α → Option σ) (init : σ → Prop) (ok : σ → α → Prop) : σ → Prop where
  | start {s : σ} (h : init s) : Reach step init ok s
  | next {s s' : σ} {a : α} (hr : Reach step init ok s) (hok : ok s a)
      (hs : step s a = some s') : Reach step init ok s'

/-- Every step is admitted. -/
def anyStep (_ : σ) (_ : α) : Prop := True

/-- The invariant rule: true at the start and preserved by every admitted step. -/
theorem Reach.invariant {init : σ → Prop} {ok : σ → α → Prop} {I : σ → Prop}
    (h0 : ∀ s, init s → I s)
    (hstep : ∀ s a s', I s → ok s a → step s a = some s' → I s') {s : σ}
    (h : Reach step init ok s) : I s := by
  induction h with
  | start h => exact h0 _ h
  | next _ hok hs ih => exact hstep _ _ _ ih hok hs

/-- The condition holds before each step of a schedule, as far as it executes. -/
def Admits (step : σ → α → Option σ) (ok : σ → α → Prop) (s : σ) : List α → Prop
  | [] => True
  | a :: as => ok s a ∧ ∀ s', s' ∈ step s a → Admits step ok s' as

instance Admits.instDecidable (ok : σ → α → Prop) [∀ s a, Decidable (ok s a)] :
    ∀ (as : List α) (s : σ), Decidable (Admits step ok s as)
  | [], _ => isTrue trivial
  | a :: as, s =>
    have : DecidablePred fun s' => Admits step ok s' as := instDecidable ok as
    inferInstanceAs (Decidable (ok s a ∧ ∀ s', s' ∈ step s a → Admits step ok s' as))

theorem Reach.exec_of_admits {init : σ → Prop} {ok : σ → α → Prop} {as : List α} {s t : σ}
    (hr : Reach step init ok s) (ha : Admits step ok s as) (he : exec step s as = some t) :
    Reach step init ok t := by
  induction as generalizing s with
  | nil =>
    simp only [exec, Option.some.injEq] at he
    exact he ▸ hr
  | cons a as ih =>
    cases hs : step s a with
    | none => simp [exec, hs] at he
    | some s' =>
      simp only [exec, hs, Option.bind_some] at he
      exact ih (hr.next ha.1 hs) (ha.2 s' hs) he

theorem admits_anyStep (s : σ) (as : List α) : Admits step anyStep s as := by
  induction as generalizing s with
  | nil => trivial
  | cons a as ih => exact ⟨trivial, fun s' _ => ih s'⟩

/-- A schedule that executes reaches its last state. -/
theorem reach_of_exec {init : σ → Prop} {as : List α} {s t : σ} (h0 : init s)
    (he : exec step s as = some t) : Reach step init anyStep t :=
  Reach.exec_of_admits (.start h0) (admits_anyStep s as) he

/-- The last state of a schedule that executes, as a term that can be evaluated. -/
theorem reach_get {init : σ → Prop} {as : List α} {s : σ} (h0 : init s)
    (h : (exec step s as).isSome) : Reach step init anyStep ((exec step s as).get h) :=
  reach_of_exec h0 (Option.some_get h).symm

theorem reach_get_of_admits {init : σ → Prop} {ok : σ → α → Prop} {as : List α} {s : σ}
    (h0 : init s) (ha : Admits step ok s as) (h : (exec step s as).isSome) :
    Reach step init ok ((exec step s as).get h) :=
  Reach.exec_of_admits (.start h0) ha (Option.some_get h).symm

theorem reach_getD_of_admits {init : σ → Prop} {ok : σ → α → Prop} {as : List α} {s d : σ}
    (h0 : init s) (ha : Admits step ok s as) (h : (exec step s as).isSome) :
    Reach step init ok ((exec step s as).getD d) := by
  obtain ⟨t, ht⟩ := Option.isSome_iff_exists.mp h
  rw [ht, Option.getD_some]
  exact Reach.exec_of_admits (.start h0) ha ht

end Cassa.Lib.Runs

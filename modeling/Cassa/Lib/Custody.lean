import Mathlib.Data.List.Nodup
import Mathlib.Data.List.Perm.Basic

/-!
# Things that are handed on

Things come in at a place and are handed from place to place. As long as nothing else is done
with them, each of them is in exactly one place, and there once.
-/

namespace Cassa.Lib.Custody

variable {P T : Type*}

structure OnePlace (all : List T) (place : P → List T) : Prop where
  once : all.Nodup
  nodup : ∀ p, (place p).Nodup
  apart : ∀ p q t, t ∈ place p → t ∈ place q → p = q
  cover : ∀ t, t ∈ all ↔ ∃ p, t ∈ place p

/-- `t` comes in at `p`. -/
structure Arrived (p : P) (t : T) (place place' : P → List T) : Prop where
  given : (place' p).Perm (t :: place p)
  other : ∀ r, r ≠ p → (place' r).Perm (place r)

/-- `ts` go from `p` to `q`. -/
structure Handed (p q : P) (ts : List T) (place place' : P → List T) : Prop where
  taken : (place p).Perm (ts ++ place' p)
  given : (place' q).Perm (ts ++ place q)
  other : ∀ r, r ≠ p → r ≠ q → (place' r).Perm (place r)

namespace OnePlace

variable {all : List T} {place place' : P → List T} {p q : P} {t : T} {ts : List T}

theorem empty (h : ∀ p, place p = []) : OnePlace [] place where
  once := List.nodup_nil
  nodup p := h p ▸ List.nodup_nil
  apart p q t hp := by simp [h] at hp
  cover t := by simp [h]

/-- Within a place the order does not matter. -/
theorem congr (h : OnePlace all place) (hp : ∀ p, (place' p).Perm (place p)) : OnePlace all place' where
  once := h.once
  nodup p := (hp p).nodup_iff.mpr (h.nodup p)
  apart p q t htp htq := h.apart p q t ((hp p).mem_iff.mp htp) ((hp q).mem_iff.mp htq)
  cover t := (h.cover t).trans (exists_congr fun p => (hp p).mem_iff.symm)

theorem arrive (h : OnePlace all place) (hnew : t ∉ all) (ha : Arrived p t place place') :
    OnePlace (all ++ [t]) place' := by
  have hfresh : ∀ r, t ∉ place r := fun r hr => hnew ((h.cover t).mpr ⟨r, hr⟩)
  have hmem : ∀ r u, u ∈ place' r → u ∈ place r ∨ u = t ∧ r = p := by
    intro r u hu
    by_cases hr : r = p
    · subst hr
      rcases List.mem_cons.mp (ha.given.mem_iff.mp hu) with rfl | hu
      · exact Or.inr ⟨rfl, rfl⟩
      · exact Or.inl hu
    · exact Or.inl ((ha.other r hr).mem_iff.mp hu)
  have hkeep : ∀ r u, u ∈ place r → u ∈ place' r := by
    intro r u hu
    by_cases hr : r = p
    · subst hr
      exact ha.given.mem_iff.mpr (List.mem_cons_of_mem _ hu)
    · exact (ha.other r hr).mem_iff.mpr hu
  refine ⟨?_, fun r => ?_, fun r r' u hu hu' => ?_, fun u => ⟨fun hu => ?_, fun ⟨r, hu⟩ => ?_⟩⟩
  · refine List.nodup_append.mpr ⟨h.once, List.nodup_singleton t, ?_⟩
    rintro u hu v hv rfl
    exact hnew (List.mem_singleton.mp hv ▸ hu)
  · by_cases hr : r = p
    · subst hr
      exact ha.given.nodup_iff.mpr (List.nodup_cons.mpr ⟨hfresh r, h.nodup r⟩)
    · exact (ha.other r hr).nodup_iff.mpr (h.nodup r)
  · rcases hmem r u hu with hr | ⟨rfl, rfl⟩
    · rcases hmem r' u hu' with hr' | ⟨rfl, rfl⟩
      · exact h.apart r r' u hr hr'
      · exact absurd hr (hfresh r)
    · rcases hmem r' u hu' with hr' | ⟨-, rfl⟩
      · exact absurd hr' (hfresh r')
      · rfl
  · rcases List.mem_append.mp hu with hu | hu
    · obtain ⟨r, hr⟩ := (h.cover u).mp hu
      exact ⟨r, hkeep r u hr⟩
    · obtain rfl := List.mem_singleton.mp hu
      exact ⟨p, ha.given.mem_iff.mpr List.mem_cons_self⟩
  · rcases hmem r u hu with hr | ⟨rfl, -⟩
    · exact List.mem_append_left _ ((h.cover u).mpr ⟨r, hr⟩)
    · exact List.mem_append_right _ (List.mem_singleton.mpr rfl)

theorem hand (h : OnePlace all place) (hpq : p ≠ q) (hh : Handed p q ts place place') : OnePlace all place' := by
  have hp : (ts ++ place' p).Nodup := hh.taken.nodup_iff.mp (h.nodup p)
  have hts : ∀ u ∈ ts, u ∈ place p := fun u hu => hh.taken.mem_iff.mpr (List.mem_append_left _ hu)
  have hmem : ∀ r u, u ∈ place' r → (u ∈ place r ∧ u ∉ ts) ∨ u ∈ ts ∧ r = q := by
    intro r u hu
    by_cases hrq : r = q
    · subst hrq
      rcases List.mem_append.mp (hh.given.mem_iff.mp hu) with hu | hu
      · exact Or.inr ⟨hu, rfl⟩
      · exact Or.inl ⟨hu, fun hut => hpq (h.apart p r u (hts u hut) hu)⟩
    · left
      by_cases hrp : r = p
      · subst hrp
        exact ⟨hh.taken.mem_iff.mpr (List.mem_append_right _ hu), fun hut => (List.disjoint_of_nodup_append hp) hut hu⟩
      · have hu := (hh.other r hrp hrq).mem_iff.mp hu
        exact ⟨hu, fun hut => hrp (h.apart r p u hu (hts u hut))⟩
  refine ⟨h.once, fun r => ?_, fun r r' u hu hu' => ?_, fun u => (h.cover u).trans ⟨fun ⟨r, hu⟩ => ?_, fun ⟨r, hu⟩ => ?_⟩⟩
  · by_cases hrq : r = q
    · subst hrq
      refine hh.given.nodup_iff.mpr (List.Nodup.append (List.Nodup.of_append_left hp) (h.nodup r) ?_)
      exact fun u hut hu => hpq (h.apart p r u (hts u hut) hu)
    by_cases hrp : r = p
    · subst hrp
      exact List.Nodup.of_append_right hp
    · exact (hh.other r hrp hrq).nodup_iff.mpr (h.nodup r)
  · rcases hmem r u hu with ⟨hr, hnot⟩ | ⟨hut, rfl⟩
    · rcases hmem r' u hu' with ⟨hr', -⟩ | ⟨hut, -⟩
      · exact h.apart r r' u hr hr'
      · exact absurd hut hnot
    · rcases hmem r' u hu' with ⟨-, hnot⟩ | ⟨-, rfl⟩
      · exact absurd hut hnot
      · rfl
  · by_cases hut : u ∈ ts
    · exact ⟨q, hh.given.mem_iff.mpr (List.mem_append_left _ hut)⟩
    · refine ⟨r, ?_⟩
      by_cases hrq : r = q
      · subst hrq
        exact hh.given.mem_iff.mpr (List.mem_append_right _ hu)
      by_cases hrp : r = p
      · subst hrp
        exact (List.mem_append.mp (hh.taken.mem_iff.mp hu)).resolve_left hut
      · exact (hh.other r hrp hrq).mem_iff.mpr hu
  · rcases hmem r u hu with ⟨hr, -⟩ | ⟨hut, -⟩
    · exact ⟨r, hr⟩
    · exact ⟨p, hts u hut⟩

end OnePlace

end Cassa.Lib.Custody

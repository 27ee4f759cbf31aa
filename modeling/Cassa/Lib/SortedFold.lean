import Mathlib.Data.List.Basic

/-!
# Folding over a sorted listing

A step that changes nothing when it is repeated, folded over a list sorted by a key
that tells the elements apart, sees each element once: the result depends on the set of
elements only, not on how often each occurs.
-/

namespace Cassa.Lib.SortedFold

variable {α σ ε : Type*} {f : σ → α → Except ε σ} {key : α → Nat}

/-- Doing a step again changes nothing. -/
def Idempotent (f : σ → α → Except ε σ) : Prop := ∀ x a y, f x a = .ok y → f y a = .ok y

def SortedBy (key : α → Nat) (l : List α) : Prop := l.Pairwise fun a b => key a ≤ key b

/-- The key tells the elements of the list apart. -/
def Separates (key : α → Nat) (l : List α) : Prop := ∀ a ∈ l, ∀ b ∈ l, key a = key b → a = b

theorem SortedBy.filter {l : List α} (h : SortedBy key l) (p : α → Bool) : SortedBy key (l.filter p) :=
  List.Pairwise.filter p h

theorem Separates.filter {l : List α} (h : Separates key l) (p : α → Bool) :
    Separates key (l.filter p) := fun a ha b hb =>
  h a (List.mem_of_mem_filter ha) b (List.mem_of_mem_filter hb)

variable [DecidableEq α]

/-- The copies of the first element do nothing. -/
theorem foldlM_cons_filter (hf : Idempotent f) {a : α} {l : List α} (hs : SortedBy key (a :: l))
    (hk : Separates key (a :: l)) (x : σ) :
    (a :: l).foldlM f x = (f x a).bind fun y => (l.filter (· ≠ a)).foldlM f y := by
  rw [List.foldlM_cons]
  change (f x a).bind _ = _
  cases hx : f x a with
  | error e => rfl
  | ok y =>
    change l.foldlM f y = (l.filter (· ≠ a)).foldlM f y
    have hy := hf x a y hx
    clear hx
    induction l with
    | nil => rfl
    | cons b l ih =>
      by_cases hb : b = a
      · subst hb
        rw [List.filter_cons_of_neg (by simp), List.foldlM_cons, hy]
        refine ih ?_ ?_
        · exact List.Pairwise.sublist (List.sublist_cons_self _ _) hs
        · intro u hu v hv
          exact hk u (List.mem_cons_of_mem _ hu) v (List.mem_cons_of_mem _ hv)
      · -- past the copies of `a` no other can come
        have hall : ∀ u ∈ b :: l, u ≠ a := by
          rintro u hu rfl
          obtain ⟨hfirst, htail⟩ := List.pairwise_cons.mp hs
          have hle : key b ≤ key u := by
            rcases List.mem_cons.mp hu with rfl | hu
            · exact Nat.le_refl _
            · exact (List.pairwise_cons.mp htail).1 u hu
          have hge : key u ≤ key b := hfirst b List.mem_cons_self
          exact hb (hk b (List.mem_cons_of_mem _ List.mem_cons_self) u List.mem_cons_self
            (Nat.le_antisymm hle hge))
        rw [List.filter_eq_self.mpr (by simpa using hall)]

/-- Two sorted listings of one set give one result. -/
theorem foldlM_eq_of_mem_iff (hf : Idempotent f) {l l' : List α} (hs : SortedBy key l)
    (hs' : SortedBy key l') (hk : Separates key l) (hmem : ∀ a, a ∈ l ↔ a ∈ l') (x : σ) :
    l.foldlM f x = l'.foldlM f x := by
  induction hn : l.length using Nat.strongRecOn generalizing l l' x with
  | ind n ih =>
    cases l with
    | nil =>
      have hnil : l' = [] := List.eq_nil_iff_forall_not_mem.mpr fun a ha => by
        cases (hmem a).mpr ha
      rw [hnil]
    | cons a l =>
      cases l' with
      | nil => cases (hmem a).mp List.mem_cons_self
      | cons b l' =>
        have ha : a ∈ b :: l' := (hmem a).mp List.mem_cons_self
        have hb : b ∈ a :: l := (hmem b).mpr List.mem_cons_self
        have hle : key a ≤ key b := by
          rcases List.mem_cons.mp hb with rfl | hb
          · exact Nat.le_refl _
          · exact (List.pairwise_cons.mp hs).1 b hb
        have hge : key b ≤ key a := by
          rcases List.mem_cons.mp ha with rfl | ha
          · exact Nat.le_refl _
          · exact (List.pairwise_cons.mp hs').1 a ha
        obtain rfl := hk a List.mem_cons_self b hb (Nat.le_antisymm hle hge)
        have hk' : Separates key (a :: l') := fun u hu v hv =>
          hk u ((hmem u).mpr hu) v ((hmem v).mpr hv)
        rw [foldlM_cons_filter hf hs hk, foldlM_cons_filter hf hs' hk']
        congr 1
        funext y
        have hlen : (l.filter (· ≠ a)).length < n := by
          have hle := List.length_filter_le (· ≠ a) l
          rw [← hn, List.length_cons]
          omega
        refine ih _ hlen ?_ ?_ ?_ ?_ y rfl
        · exact SortedBy.filter (List.pairwise_cons.mp hs).2 _
        · exact SortedBy.filter (List.pairwise_cons.mp hs').2 _
        · refine Separates.filter (fun u hu v hv => ?_) _
          exact hk u (List.mem_cons_of_mem _ hu) v (List.mem_cons_of_mem _ hv)
        · intro u
          have hu := hmem u
          simp only [List.mem_cons, List.mem_filter, decide_eq_true_eq] at hu ⊢
          tauto

end Cassa.Lib.SortedFold

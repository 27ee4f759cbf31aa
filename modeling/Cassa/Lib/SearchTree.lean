import Mathlib.Data.List.Basic

/-!
# Search trees with labelled nodes

A multiway search tree as data: every node carries a label (in a heap, its address), an
inner node its separators and children, a leaf its entries. `Wf` says that the tree is
a search tree for a half-open interval of keys. A `Frame` is an inner node with a hole;
a list of frames, innermost first, is a tree with a hole in the place of a subtree, and
`plug` fills it. What an operation does to a leaf and to the nodes above it is said on
frames; the rest of the tree stays as it is.
-/

namespace Cassa.Lib.SearchTree

variable {α : Type}

inductive BTree (α : Type) where
  | leaf (p : Nat) (es : List α)
  | inner (p : Nat) (ks : List Nat) (cs : List (BTree α))

namespace BTree

def root : BTree α → Nat
  | .leaf p _ => p
  | .inner p _ _ => p

mutual

/-- The labels of all nodes. -/
def ptrs : BTree α → List Nat
  | .leaf p _ => [p]
  | .inner p _ cs => p :: forestPtrs cs

def forestPtrs : List (BTree α) → List Nat
  | [] => []
  | c :: cs => c.ptrs ++ forestPtrs cs

end

mutual

/-- The leaves from left to right. -/
def leaves : BTree α → List (Nat × List α)
  | .leaf p es => [(p, es)]
  | .inner _ _ cs => forestLeaves cs

def forestLeaves : List (BTree α) → List (Nat × List α)
  | [] => []
  | c :: cs => c.leaves ++ forestLeaves cs

end

mutual

/-- A search tree for the keys `lo ≤ x < hi`: at most `cap` entries or separators in a
node, at least one, and each child inside the interval between its separators. -/
def Wf (key : α → Nat) (cap : Nat) : BTree α → Nat → Nat → Prop
  | .leaf _ es, lo, hi => es ≠ [] ∧ es.length ≤ cap ∧ es.Pairwise (fun a b => key a ≤ key b) ∧
      ∀ e ∈ es, lo ≤ key e ∧ key e < hi
  | .inner _ ks cs, lo, hi => ks ≠ [] ∧ ks.length ≤ cap ∧ Forest key cap ks cs lo hi

/-- The children of a node with the separators between them. -/
def Forest (key : α → Nat) (cap : Nat) : List Nat → List (BTree α) → Nat → Nat → Prop
  | _, [], _, _ => False
  | [], c :: cs, lo, hi => cs = [] ∧ c.Wf key cap lo hi
  | k :: ks, c :: cs, lo, hi => lo < k ∧ k < hi ∧ c.Wf key cap lo k ∧ Forest key cap ks cs k hi

end

@[simp] theorem ptrs_leaf (p : Nat) (es : List α) : (leaf p es).ptrs = [p] := by rw [ptrs]

@[simp] theorem ptrs_inner (p : Nat) (ks : List Nat) (cs : List (BTree α)) :
    (inner p ks cs).ptrs = p :: forestPtrs cs := by rw [ptrs]

@[simp] theorem leaves_leaf (p : Nat) (es : List α) : (leaf p es).leaves = [(p, es)] := by rw [leaves]

@[simp] theorem leaves_inner (p : Nat) (ks : List Nat) (cs : List (BTree α)) :
    (inner p ks cs).leaves = forestLeaves cs := by rw [leaves]

@[simp] theorem forestPtrs_nil : forestPtrs ([] : List (BTree α)) = [] := by rw [forestPtrs]

@[simp] theorem forestPtrs_cons (c : BTree α) (cs : List (BTree α)) :
    forestPtrs (c :: cs) = c.ptrs ++ forestPtrs cs := by rw [forestPtrs]

@[simp] theorem forestLeaves_nil : forestLeaves ([] : List (BTree α)) = [] := by rw [forestLeaves]

@[simp] theorem forestLeaves_cons (c : BTree α) (cs : List (BTree α)) :
    forestLeaves (c :: cs) = c.leaves ++ forestLeaves cs := by rw [forestLeaves]

@[simp] theorem forestPtrs_append (cs ds : List (BTree α)) :
    forestPtrs (cs ++ ds) = forestPtrs cs ++ forestPtrs ds := by
  induction cs with
  | nil => simp
  | cons c cs ih => simp [ih]

@[simp] theorem forestLeaves_append (cs ds : List (BTree α)) :
    forestLeaves (cs ++ ds) = forestLeaves cs ++ forestLeaves ds := by
  induction cs with
  | nil => simp
  | cons c cs ih => simp [ih]

theorem mem_forestPtrs {cs : List (BTree α)} {p : Nat} :
    p ∈ forestPtrs cs ↔ ∃ c ∈ cs, p ∈ c.ptrs := by
  induction cs with
  | nil => simp
  | cons c cs ih => simp [ih]

/-- A label belongs to one tree of a forest whose labels are different. -/
theorem eq_of_mem_forest {cs : List (BTree α)} (hn : (forestPtrs cs).Nodup) {c d : BTree α} (hc : c ∈ cs)
    (hd : d ∈ cs) {p : Nat} (hpc : p ∈ c.ptrs) (hpd : p ∈ d.ptrs) : c = d := by
  induction cs with
  | nil => cases hc
  | cons e cs ih =>
    rw [forestPtrs_cons, List.nodup_append] at hn
    have hnot : ∀ c ∈ cs, p ∈ c.ptrs → p ∉ e.ptrs := by
      intro c hc hpc hpe
      exact hn.2.2 p hpe p (mem_forestPtrs.mpr ⟨c, hc, hpc⟩) rfl
    rcases List.mem_cons.mp hc with rfl | hc'
    · rcases List.mem_cons.mp hd with rfl | hd'
      · rfl
      · exact absurd hpc (hnot d hd' hpd)
    · rcases List.mem_cons.mp hd with rfl | hd'
      · exact absurd hpd (hnot c hc' hpc)
      · exact ih hn.2.1 hc' hd'

theorem mem_forestLeaves {cs : List (BTree α)} {l : Nat × List α} :
    l ∈ forestLeaves cs ↔ ∃ c ∈ cs, l ∈ c.leaves := by
  induction cs with
  | nil => simp
  | cons c cs ih => simp [ih]

/-- Induction over the tree, with the hypothesis for every child. -/
@[elab_as_elim]
theorem ind {P : BTree α → Prop} (hleaf : ∀ p es, P (.leaf p es))
    (hinner : ∀ p ks cs, (∀ c ∈ cs, P c) → P (.inner p ks cs)) (t : BTree α) : P t :=
  @BTree.rec α P (fun cs => ∀ c ∈ cs, P c) hleaf (fun p ks cs ih => hinner p ks cs ih) (by simp)
    (fun c cs hc hcs => by
      intro d hd
      rcases List.mem_cons.mp hd with rfl | hd
      · exact hc
      · exact hcs d hd) t

theorem root_mem_ptrs (t : BTree α) : t.root ∈ t.ptrs := by
  cases t <;> simp [root]

theorem leaves_sublist_ptrs (t : BTree α) : (t.leaves.map Prod.fst).Sublist t.ptrs := by
  induction t using ind with
  | hleaf p es => simp
  | hinner p ks cs ih =>
    rw [leaves_inner, ptrs_inner]
    refine List.Sublist.cons _ ?_
    induction cs with
    | nil => simp
    | cons c cs ihc =>
      rw [forestLeaves_cons, forestPtrs_cons, List.map_append]
      exact (ih c List.mem_cons_self).append (ihc fun d hd => ih d (List.mem_cons_of_mem _ hd))

section

variable {key : α → Nat} {cap : Nat}

theorem wf_leaf {p lo hi : Nat} {es : List α} : (leaf p es).Wf key cap lo hi ↔ es ≠ [] ∧
    es.length ≤ cap ∧ es.Pairwise (fun a b => key a ≤ key b) ∧ ∀ e ∈ es, lo ≤ key e ∧ key e < hi := by
  rw [Wf]

theorem wf_inner {p lo hi : Nat} {ks : List Nat} {cs : List (BTree α)} :
    (inner p ks cs).Wf key cap lo hi ↔
      ks ≠ [] ∧ ks.length ≤ cap ∧ Forest key cap ks cs lo hi := by
  rw [Wf]

@[simp] theorem forest_nil {ks : List Nat} {lo hi : Nat} :
    ¬ Forest key cap ks ([] : List (BTree α)) lo hi := by
  rw [Forest]
  exact not_false

theorem forest_one {c : BTree α} {cs : List (BTree α)} {lo hi : Nat} :
    Forest key cap [] (c :: cs) lo hi ↔ cs = [] ∧ c.Wf key cap lo hi := by
  rw [Forest]

theorem forest_cons {k : Nat} {ks : List Nat} {c : BTree α} {cs : List (BTree α)} {lo hi : Nat} :
    Forest key cap (k :: ks) (c :: cs) lo hi ↔
      lo < k ∧ k < hi ∧ c.Wf key cap lo k ∧ Forest key cap ks cs k hi := by
  rw [Forest]

theorem Forest.length {ks : List Nat} {cs : List (BTree α)} {lo hi : Nat}
    (h : Forest key cap ks cs lo hi) : cs.length = ks.length + 1 := by
  induction ks generalizing cs lo with
  | nil =>
    cases cs with
    | nil => exact absurd h forest_nil
    | cons c cs =>
      obtain ⟨rfl, -⟩ := forest_one.mp h
      rfl
  | cons k ks ih =>
    cases cs with
    | nil => exact absurd h forest_nil
    | cons c cs =>
      obtain ⟨-, -, -, hrest⟩ := forest_cons.mp h
      simp [ih hrest]

/-- The interval of a child, without its place. -/
theorem Forest.wf_of_mem {ks : List Nat} {cs : List (BTree α)} {lo hi : Nat}
    (h : Forest key cap ks cs lo hi) {c : BTree α} (hc : c ∈ cs) :
    ∃ a b, lo ≤ a ∧ b ≤ hi ∧ c.Wf key cap a b := by
  induction ks generalizing cs lo with
  | nil =>
    cases cs with
    | nil => exact absurd h forest_nil
    | cons d cs =>
      obtain ⟨rfl, hd⟩ := forest_one.mp h
      obtain rfl : c = d := by simpa using hc
      exact ⟨lo, hi, Nat.le_refl _, Nat.le_refl _, hd⟩
  | cons k ks ih =>
    cases cs with
    | nil => exact absurd h forest_nil
    | cons d cs =>
      obtain ⟨hlo, hhi, hd, hrest⟩ := forest_cons.mp h
      rcases List.mem_cons.mp hc with rfl | hc
      · exact ⟨lo, k, Nat.le_refl _, Nat.le_of_lt hhi, hd⟩
      · obtain ⟨a, b, ha, hb, hw⟩ := ih hrest hc
        exact ⟨a, b, by omega, hb, hw⟩

/-- Every entry is inside the interval of the tree. -/
theorem Wf.range {t : BTree α} : ∀ {lo hi : Nat}, t.Wf key cap lo hi →
    ∀ l ∈ t.leaves, ∀ e ∈ l.2, lo ≤ key e ∧ key e < hi := by
  induction t using ind with
  | hleaf p es =>
    intro lo hi h l hl
    obtain rfl : l = (p, es) := by simpa using hl
    exact (wf_leaf.mp h).2.2.2
  | hinner p ks cs ih =>
    intro lo hi h l hl e he
    rw [leaves_inner, mem_forestLeaves] at hl
    obtain ⟨c, hc, hl⟩ := hl
    obtain ⟨a, b, ha, hb, hw⟩ := (wf_inner.mp h).2.2.wf_of_mem hc
    have := ih c hc hw l hl e he
    omega

theorem Wf.leaf_ne_nil {t : BTree α} : ∀ {lo hi : Nat}, t.Wf key cap lo hi →
    ∀ l ∈ t.leaves, l.2 ≠ [] := by
  induction t using ind with
  | hleaf p es =>
    intro lo hi h l hl
    obtain rfl : l = (p, es) := by simpa using hl
    exact (wf_leaf.mp h).1
  | hinner p ks cs ih =>
    intro lo hi h l hl
    rw [leaves_inner, mem_forestLeaves] at hl
    obtain ⟨c, hc, hl⟩ := hl
    obtain ⟨a, b, -, -, hw⟩ := (wf_inner.mp h).2.2.wf_of_mem hc
    exact ih c hc hw l hl

theorem Wf.leaves_ne_nil {t : BTree α} : ∀ {lo hi : Nat}, t.Wf key cap lo hi → t.leaves ≠ [] := by
  induction t using ind with
  | hleaf p es => simp
  | hinner p ks cs ih =>
    intro lo hi h
    have hforest := (wf_inner.mp h).2.2
    cases cs with
    | nil => exact absurd hforest forest_nil
    | cons c cs =>
      obtain ⟨a, b, -, -, hw⟩ := hforest.wf_of_mem List.mem_cons_self
      have := ih c List.mem_cons_self hw
      simp [this]

theorem Wf.lt {t : BTree α} {lo hi : Nat} (h : t.Wf key cap lo hi) : lo < hi := by
  obtain ⟨l, hl⟩ := List.exists_mem_of_ne_nil _ h.leaves_ne_nil
  obtain ⟨e, he⟩ := List.exists_mem_of_ne_nil _ (h.leaf_ne_nil l hl)
  have := h.range l hl e he
  omega

/-- A search tree for an interval is one for every larger interval. -/
theorem Wf.mono {t : BTree α} : ∀ {lo hi lo' hi' : Nat}, t.Wf key cap lo hi → lo' ≤ lo → hi ≤ hi' →
    t.Wf key cap lo' hi' := by
  induction t using ind with
  | hleaf p es =>
    intro lo hi lo' hi' h hlo hhi
    obtain ⟨hne, hcap, hsort, hrange⟩ := wf_leaf.mp h
    refine wf_leaf.mpr ⟨hne, hcap, hsort, ?_⟩
    intro e he
    have := hrange e he
    omega
  | hinner p ks cs ih =>
    intro lo hi lo' hi' h hlo hhi
    obtain ⟨hne, hcap, hforest⟩ := wf_inner.mp h
    refine wf_inner.mpr ⟨hne, hcap, ?_⟩
    clear h hne hcap
    induction ks generalizing cs lo lo' with
    | nil =>
      cases cs with
      | nil => exact absurd hforest forest_nil
      | cons c cs =>
        obtain ⟨rfl, hc⟩ := forest_one.mp hforest
        exact forest_one.mpr ⟨rfl, ih c List.mem_cons_self hc hlo hhi⟩
    | cons k ks ihk =>
      cases cs with
      | nil => exact absurd hforest forest_nil
      | cons c cs =>
        obtain ⟨hk, hk', hc, hrest⟩ := forest_cons.mp hforest
        refine forest_cons.mpr ⟨by omega, by omega, ?_, ?_⟩
        · exact ih c List.mem_cons_self hc hlo (Nat.le_refl _)
        · exact ihk cs (fun d hd => ih d (List.mem_cons_of_mem _ hd)) (Nat.le_refl _) hrest

theorem Forest.mono {ks : List Nat} {cs : List (BTree α)} {lo hi lo' hi' : Nat}
    (h : Forest key cap ks cs lo hi) (hlo : lo' ≤ lo) (hhi : hi ≤ hi') :
    Forest key cap ks cs lo' hi' := by
  induction ks generalizing cs lo lo' with
  | nil =>
    cases cs with
    | nil => exact absurd h forest_nil
    | cons c cs =>
      obtain ⟨rfl, hc⟩ := forest_one.mp h
      exact forest_one.mpr ⟨rfl, hc.mono hlo hhi⟩
  | cons k ks ih =>
    cases cs with
    | nil => exact absurd h forest_nil
    | cons c cs =>
      obtain ⟨hk, hk', hc, hrest⟩ := forest_cons.mp h
      exact forest_cons.mpr ⟨by omega, by omega, hc.mono hlo (Nat.le_refl _),
        ih hrest (Nat.le_refl _)⟩

/-- A forest is cut at a separator. -/
theorem forest_append {ks ks' : List Nat} {cs cs' : List (BTree α)} {k lo hi : Nat}
    (hlen : cs.length = ks.length + 1) :
    Forest key cap (ks ++ k :: ks') (cs ++ cs') lo hi ↔
      lo < k ∧ k < hi ∧ Forest key cap ks cs lo k ∧ Forest key cap ks' cs' k hi := by
  induction ks generalizing cs lo with
  | nil =>
    obtain ⟨c, rfl⟩ := List.length_eq_one_iff.mp hlen
    rw [List.nil_append, List.singleton_append, forest_cons, forest_one]
    simp
  | cons m ks ih =>
    cases cs with
    | nil => simp at hlen
    | cons c cs =>
      rw [List.cons_append, List.cons_append, forest_cons, forest_cons, ih (by simpa using hlen)]
      constructor
      · rintro ⟨h₁, h₂, hc, h₃, h₄, hf, hf'⟩
        exact ⟨by omega, h₄, ⟨h₁, h₃, hc, hf⟩, hf'⟩
      · rintro ⟨h₁, h₂, ⟨h₃, h₄, hc, hf⟩, hf'⟩
        exact ⟨h₃, by omega, hc, h₄, h₂, hf, hf'⟩

end

end BTree

/-- An inner node with a hole among its children, and the separators left and right of
the hole. -/
structure Frame (α : Type) where
  p : Nat
  kl : List Nat
  cl : List (BTree α)
  kr : List Nat
  cr : List (BTree α)
  len : kl.length = cl.length

namespace Frame

def fill (f : Frame α) (t : BTree α) : BTree α := .inner f.p (f.kl ++ f.kr) (f.cl ++ t :: f.cr)

end Frame

/-- The frames from the innermost to the outermost, filled with `t`. -/
def plug : List (Frame α) → BTree α → BTree α
  | [], t => t
  | f :: fs, t => plug fs (f.fill t)

/-- The label of the innermost frame. -/
def parent (fs : List (Frame α)) : Option Nat := fs.head?.map Frame.p

def ctxPtrs : List (Frame α) → List Nat
  | [] => []
  | f :: fs => f.p :: (BTree.forestPtrs f.cl ++ BTree.forestPtrs f.cr) ++ ctxPtrs fs

def leftLeaves : List (Frame α) → List (Nat × List α)
  | [] => []
  | f :: fs => leftLeaves fs ++ BTree.forestLeaves f.cl

def rightLeaves : List (Frame α) → List (Nat × List α)
  | [] => []
  | f :: fs => BTree.forestLeaves f.cr ++ rightLeaves fs

theorem plug_append (fs gs : List (Frame α)) (t : BTree α) :
    plug (fs ++ gs) t = plug gs (plug fs t) := by
  induction fs generalizing t with
  | nil => rfl
  | cons f fs ih => exact ih _

theorem leaves_plug (fs : List (Frame α)) (t : BTree α) :
    (plug fs t).leaves = leftLeaves fs ++ t.leaves ++ rightLeaves fs := by
  induction fs generalizing t with
  | nil => simp [plug, leftLeaves, rightLeaves]
  | cons f fs ih => simp [plug, ih, Frame.fill, leftLeaves, rightLeaves]

theorem ptrs_plug (fs : List (Frame α)) (t : BTree α) :
    (plug fs t).ptrs.Perm (ctxPtrs fs ++ t.ptrs) := by
  induction fs generalizing t with
  | nil => exact List.Perm.refl _
  | cons f fs ih =>
    refine (ih (f.fill t)).trans ?_
    rw [Frame.fill, BTree.ptrs_inner, BTree.forestPtrs_append, BTree.forestPtrs_cons, ctxPtrs,
      List.perm_iff_count]
    intro a
    simp only [List.count_append, List.count_cons]
    omega

section

variable {key : α → Nat} {cap : Nat}

/-- The children left of a hole whose interval starts at `a`. -/
def LeftOf (key : α → Nat) (cap : Nat) : List Nat → List (BTree α) → Nat → Nat → Prop
  | [], [], lo, a => lo = a
  | k :: ks, c :: cs, lo, a => lo < k ∧ c.Wf key cap lo k ∧ LeftOf key cap ks cs k a
  | _, _, _, _ => False

/-- The children right of a hole whose interval ends at `b`. -/
def RightOf (key : α → Nat) (cap : Nat) : List Nat → List (BTree α) → Nat → Nat → Prop
  | [], [], b, hi => b = hi
  | k :: ks, c :: cs, b, hi => b = k ∧ k < hi ∧ BTree.Forest key cap ks (c :: cs) k hi
  | _, _, _, _ => False

theorem LeftOf.le {ks : List Nat} {cs : List (BTree α)} {lo a : Nat}
    (h : LeftOf key cap ks cs lo a) : lo ≤ a := by
  induction ks generalizing cs lo with
  | nil =>
    cases cs with
    | nil => exact Nat.le_of_eq h
    | cons c cs => exact h.elim
  | cons k ks ih =>
    cases cs with
    | nil => exact h.elim
    | cons c cs =>
      have := ih h.2.2
      have := h.1
      omega

theorem RightOf.le {ks : List Nat} {cs : List (BTree α)} {b hi : Nat}
    (h : RightOf key cap ks cs b hi) : b ≤ hi := by
  cases ks with
  | nil =>
    cases cs with
    | nil => exact Nat.le_of_eq h
    | cons c cs => exact h.elim
  | cons k ks =>
    cases cs with
    | nil => exact h.elim
    | cons c cs =>
      have := h.1
      have := h.2.1
      omega

theorem RightOf.length {ks : List Nat} {cs : List (BTree α)} {b hi : Nat}
    (h : RightOf key cap ks cs b hi) : ks.length = cs.length := by
  cases ks with
  | nil =>
    cases cs with
    | nil => rfl
    | cons c cs => exact h.elim
  | cons k ks =>
    cases cs with
    | nil => exact h.elim
    | cons c cs => exact h.2.2.length.symm

/-- A child and what is right of it. -/
theorem forest_cons_right {ks : List Nat} {c : BTree α} {cs : List (BTree α)} {a hi : Nat} :
    BTree.Forest key cap ks (c :: cs) a hi ↔
      ∃ b, c.Wf key cap a b ∧ RightOf key cap ks cs b hi := by
  cases ks with
  | nil =>
    rw [BTree.forest_one]
    constructor
    · rintro ⟨rfl, hc⟩
      exact ⟨hi, hc, rfl⟩
    · rintro ⟨b, hc, hr⟩
      cases cs with
      | nil =>
        obtain rfl : b = hi := hr
        exact ⟨rfl, hc⟩
      | cons d cs => exact hr.elim
  | cons k ks =>
    rw [BTree.forest_cons]
    constructor
    · rintro ⟨-, hk, hc, hrest⟩
      refine ⟨k, hc, ?_⟩
      cases cs with
      | nil => exact absurd hrest BTree.forest_nil
      | cons d cs => exact ⟨rfl, hk, hrest⟩
    · rintro ⟨b, hc, hr⟩
      cases cs with
      | nil => exact hr.elim
      | cons d cs =>
        obtain ⟨rfl, hk, hrest⟩ := hr
        exact ⟨hc.lt, hk, hc, hrest⟩

/-- A forest with a hole. -/
theorem forest_hole {kl kr : List Nat} {cl cr : List (BTree α)} {t : BTree α} {lo hi : Nat}
    (hlen : kl.length = cl.length) :
    BTree.Forest key cap (kl ++ kr) (cl ++ t :: cr) lo hi ↔ ∃ a b, LeftOf key cap kl cl lo a ∧
      t.Wf key cap a b ∧ RightOf key cap kr cr b hi := by
  induction kl generalizing cl lo with
  | nil =>
    obtain rfl := List.length_eq_zero_iff.mp hlen.symm
    rw [List.nil_append, List.nil_append, forest_cons_right]
    constructor
    · rintro ⟨b, ht, hr⟩
      exact ⟨lo, b, rfl, ht, hr⟩
    · rintro ⟨a, b, rfl, ht, hr⟩
      exact ⟨b, ht, hr⟩
  | cons k kl ih =>
    cases cl with
    | nil => simp at hlen
    | cons c cl =>
      rw [List.cons_append, List.cons_append, BTree.forest_cons, ih (by simpa using hlen)]
      constructor
      · rintro ⟨hk, -, hc, a, b, hl, ht, hr⟩
        exact ⟨a, b, ⟨hk, hc, hl⟩, ht, hr⟩
      · rintro ⟨a, b, ⟨hk, hc, hl⟩, ht, hr⟩
        have := hl.le
        have := ht.lt
        have := hr.le
        exact ⟨hk, by omega, hc, a, b, hl, ht, hr⟩

/-- The frames around a hole for the keys `a ≤ x < b`, in a tree for `lo ≤ x < hi`. -/
def WfCtx (key : α → Nat) (cap : Nat) : List (Frame α) → Nat → Nat → Nat → Nat → Prop
  | [], a, b, lo, hi => a = lo ∧ b = hi
  | f :: fs, a, b, lo, hi => ∃ plo phi, LeftOf key cap f.kl f.cl plo a ∧
      RightOf key cap f.kr f.cr b phi ∧ f.kl ++ f.kr ≠ [] ∧ (f.kl ++ f.kr).length ≤ cap ∧
      WfCtx key cap fs plo phi lo hi

theorem wf_fill {f : Frame α} {t : BTree α} {lo hi : Nat} : (f.fill t).Wf key cap lo hi ↔
    ∃ a b, LeftOf key cap f.kl f.cl lo a ∧ t.Wf key cap a b ∧ RightOf key cap f.kr f.cr b hi ∧
      f.kl ++ f.kr ≠ [] ∧ (f.kl ++ f.kr).length ≤ cap := by
  rw [Frame.fill, BTree.wf_inner, forest_hole f.len]
  constructor
  · rintro ⟨hne, hcap, a, b, hl, ht, hr⟩
    exact ⟨a, b, hl, ht, hr, hne, hcap⟩
  · rintro ⟨a, b, hl, ht, hr, hne, hcap⟩
    exact ⟨hne, hcap, a, b, hl, ht, hr⟩

theorem wf_plug {fs : List (Frame α)} {t : BTree α} {lo hi : Nat} : (plug fs t).Wf key cap lo hi ↔
    ∃ a b, WfCtx key cap fs a b lo hi ∧ t.Wf key cap a b := by
  induction fs generalizing t with
  | nil =>
    constructor
    · intro h
      exact ⟨lo, hi, ⟨rfl, rfl⟩, h⟩
    · rintro ⟨a, b, ⟨rfl, rfl⟩, h⟩
      exact h
  | cons f fs ih =>
    rw [plug, ih]
    constructor
    · rintro ⟨plo, phi, hctx, hf⟩
      obtain ⟨a, b, hl, ht, hr, hne, hcap⟩ := wf_fill.mp hf
      exact ⟨a, b, ⟨plo, phi, hl, hr, hne, hcap, hctx⟩, ht⟩
    · rintro ⟨a, b, ⟨plo, phi, hl, hr, hne, hcap, hctx⟩, ht⟩
      exact ⟨plo, phi, hctx, wf_fill.mpr ⟨a, b, hl, ht, hr, hne, hcap⟩⟩

theorem WfCtx.append {fs gs : List (Frame α)} : ∀ {a b lo' hi' lo hi : Nat},
    WfCtx key cap fs a b lo' hi' → WfCtx key cap gs lo' hi' lo hi → WfCtx key cap (fs ++ gs) a b lo hi := by
  induction fs with
  | nil =>
    rintro a b lo' hi' lo hi ⟨rfl, rfl⟩ hgs
    exact hgs
  | cons f fs ih =>
    rintro a b lo' hi' lo hi ⟨plo, phi, hl, hr, hne, hcap, hctx⟩ hgs
    exact ⟨plo, phi, hl, hr, hne, hcap, ih hctx hgs⟩

theorem LeftOf.below {ks : List Nat} {cs : List (BTree α)} {lo a : Nat}
    (h : LeftOf key cap ks cs lo a) : ∀ l ∈ BTree.forestLeaves cs, ∀ e ∈ l.2, key e < a := by
  induction ks generalizing cs lo with
  | nil =>
    cases cs with
    | nil => simp
    | cons c cs => exact h.elim
  | cons k ks ih =>
    cases cs with
    | nil => exact h.elim
    | cons c cs =>
      intro l hl e he
      rw [BTree.forestLeaves_cons, List.mem_append] at hl
      rcases hl with hl | hl
      · have := h.2.1.range l hl e he
        have := h.2.2.le
        omega
      · exact ih h.2.2 l hl e he

theorem BTree.Forest.range {ks : List Nat} {cs : List (BTree α)} {lo hi : Nat}
    (h : BTree.Forest key cap ks cs lo hi) :
    ∀ l ∈ BTree.forestLeaves cs, ∀ e ∈ l.2, lo ≤ key e ∧ key e < hi := by
  intro l hl e he
  obtain ⟨c, hc, hl⟩ := BTree.mem_forestLeaves.mp hl
  obtain ⟨a, b, ha, hb, hw⟩ := h.wf_of_mem hc
  have := hw.range l hl e he
  omega

theorem BTree.Forest.sorted {ks : List Nat} {cs : List (BTree α)} {lo hi : Nat} (h : BTree.Forest key cap ks cs lo hi)
    (hcs : ∀ c ∈ cs, (c.leaves.flatMap Prod.snd).Pairwise fun a b => key a ≤ key b) :
    ((BTree.forestLeaves cs).flatMap Prod.snd).Pairwise fun a b => key a ≤ key b := by
  induction ks generalizing cs lo with
  | nil =>
    cases cs with
    | nil => exact absurd h BTree.forest_nil
    | cons c cs =>
      obtain ⟨rfl, -⟩ := BTree.forest_one.mp h
      simpa using hcs c List.mem_cons_self
  | cons k ks ih =>
    cases cs with
    | nil => exact absurd h BTree.forest_nil
    | cons c cs =>
      obtain ⟨-, -, hc, hrest⟩ := BTree.forest_cons.mp h
      rw [BTree.forestLeaves_cons, List.flatMap_append, List.pairwise_append]
      refine ⟨hcs c List.mem_cons_self, ih hrest fun d hd => hcs d (List.mem_cons_of_mem _ hd), ?_⟩
      intro e he e' he'
      obtain ⟨l, hl, he⟩ := List.mem_flatMap.mp he
      obtain ⟨l', hl', he'⟩ := List.mem_flatMap.mp he'
      have hlt := (hc.range l hl e he).2
      have hle := (hrest.range l' hl' e' he').1
      omega

/-- From left to right the entries are in the order of their keys. -/
theorem BTree.Wf.sorted {t : BTree α} : ∀ {lo hi : Nat}, t.Wf key cap lo hi →
    (t.leaves.flatMap Prod.snd).Pairwise fun a b => key a ≤ key b := by
  induction t using BTree.ind with
  | hleaf p es =>
    intro lo hi h
    simpa using (BTree.wf_leaf.mp h).2.2.1
  | hinner p ks cs ih =>
    intro lo hi h
    have hforest := (BTree.wf_inner.mp h).2.2
    rw [BTree.leaves_inner]
    refine hforest.sorted ?_
    intro c hc
    obtain ⟨a, b, -, -, hw⟩ := hforest.wf_of_mem hc
    exact ih c hc hw

theorem RightOf.above {ks : List Nat} {cs : List (BTree α)} {b hi : Nat}
    (h : RightOf key cap ks cs b hi) : ∀ l ∈ BTree.forestLeaves cs, ∀ e ∈ l.2, b ≤ key e := by
  cases ks with
  | nil =>
    cases cs with
    | nil => simp
    | cons c cs => exact h.elim
  | cons k ks =>
    cases cs with
    | nil => exact h.elim
    | cons c cs =>
      obtain ⟨rfl, -, hf⟩ := h
      intro l hl e he
      exact (hf.range l hl e he).1

/-- The leaves left of the hole are below its interval, the ones right of it above. -/
theorem WfCtx.outside {fs : List (Frame α)} : ∀ {a b lo hi : Nat}, WfCtx key cap fs a b lo hi →
    (∀ l ∈ leftLeaves fs, ∀ e ∈ l.2, key e < a) ∧ ∀ l ∈ rightLeaves fs, ∀ e ∈ l.2, b ≤ key e := by
  induction fs with
  | nil => simp [leftLeaves, rightLeaves]
  | cons f fs ih =>
    rintro a b lo hi ⟨plo, phi, hl, hr, -, -, hctx⟩
    obtain ⟨hleft, hright⟩ := ih hctx
    constructor
    · intro l hmem e he
      rcases List.mem_append.mp hmem with hmem | hmem
      · have := hleft l hmem e he
        have := hl.le
        omega
      · exact hl.below l hmem e he
    · intro l hmem e he
      rcases List.mem_append.mp hmem with hmem | hmem
      · exact hr.above l hmem e he
      · have := hright l hmem e he
        have := hr.le
        omega

/-- The child that is responsible for `x`: the one in front of the first separator above
`x`. -/
theorem BTree.Forest.route {ks : List Nat} {cs : List (BTree α)} {lo hi x : Nat}
    (h : BTree.Forest key cap ks cs lo hi) (hlo : lo ≤ x) (hhi : x < hi) :
    ∃ kl kr cl c cr a b, ks = kl ++ kr ∧ cs = cl ++ c :: cr ∧ kl.length = cl.length ∧
      (∀ k ∈ kl, k ≤ x) ∧ (∀ k ∈ kr.head?, x < k) ∧ LeftOf key cap kl cl lo a ∧ c.Wf key cap a b ∧
      RightOf key cap kr cr b hi ∧ a ≤ x ∧ x < b := by
  induction ks generalizing cs lo with
  | nil =>
    cases cs with
    | nil => exact absurd h BTree.forest_nil
    | cons c cs =>
      obtain ⟨rfl, hc⟩ := BTree.forest_one.mp h
      exact ⟨[], [], [], c, [], lo, hi, rfl, rfl, rfl, by simp, by simp, rfl, hc, rfl, hlo, hhi⟩
  | cons k ks ih =>
    cases cs with
    | nil => exact absurd h BTree.forest_nil
    | cons c cs =>
      by_cases hx : x < k
      · obtain ⟨b, hc, hr⟩ := forest_cons_right.mp h
        have hb : b = k := by
          cases cs with
          | nil => exact hr.elim
          | cons d cs => exact hr.1
        subst hb
        exact ⟨[], b :: ks, [], c, cs, lo, b, rfl, rfl, rfl, by simp, by simpa using hx, rfl, hc, hr,
          hlo, hx⟩
      · obtain ⟨hk, -, hc, hrest⟩ := BTree.forest_cons.mp h
        obtain ⟨kl, kr, cl, d, cr, a, b, rfl, rfl, hlen, hle, hlt, hl, hd, hr, ha, hb⟩ :=
          ih hrest (Nat.le_of_not_lt hx)
        refine ⟨k :: kl, kr, c :: cl, d, cr, a, b, rfl, rfl, by simp [hlen], ?_, hlt, ⟨hk, hc, hl⟩, hd,
          hr, ha, hb⟩
        intro m hm
        rcases List.mem_cons.mp hm with rfl | hm
        · exact Nat.le_of_not_lt hx
        · exact hle m hm

/-- A second tree right of the hole, behind a new separator. -/
theorem forest_insert {kl kr : List Nat} {cl cr : List (BTree α)} {t u : BTree α} {lo hi a b m : Nat}
    (hlen : kl.length = cl.length) (hl : LeftOf key cap kl cl lo a)
    (hr : RightOf key cap kr cr b hi) (ht : t.Wf key cap a m) (hu : u.Wf key cap m b) :
    BTree.Forest key cap (kl ++ m :: kr) (cl ++ t :: u :: cr) lo hi := by
  refine (forest_hole hlen).mpr ⟨a, m, hl, ht, ?_⟩
  have := hu.lt
  have := hr.le
  exact ⟨rfl, by omega, forest_cons_right.mpr ⟨b, hu, hr⟩⟩

theorem leftOf_append {kl : List Nat} {cl : List (BTree α)} {k : Nat} {c : BTree α} {lo a : Nat}
    (hlen : kl.length = cl.length) (h : LeftOf key cap (kl ++ [k]) (cl ++ [c]) lo a) :
    k = a ∧ ∃ m, LeftOf key cap kl cl lo m ∧ c.Wf key cap m k := by
  induction kl generalizing cl lo with
  | nil =>
    obtain rfl := List.length_eq_zero_iff.mp hlen.symm
    obtain ⟨-, hc, rfl⟩ := h
    exact ⟨rfl, lo, rfl, hc⟩
  | cons k' kl ih =>
    cases cl with
    | nil => simp at hlen
    | cons c' cl =>
      obtain ⟨hk, hc', hrest⟩ := h
      obtain ⟨rfl, m, hm, hc⟩ := ih (by simpa using hlen) hrest
      exact ⟨rfl, m, ⟨hk, hc', hm⟩, hc⟩

/-- Without the hole: its interval goes to the left neighbour, or to the right one when
the hole was the first child. -/
theorem forest_erase {kl kr : List Nat} {cl cr : List (BTree α)} {lo hi a b : Nat}
    (hlen : kl.length = cl.length) (hl : LeftOf key cap kl cl lo a)
    (hr : RightOf key cap kr cr b hi) (hab : a < b) (hne : kl ++ kr ≠ []) :
    BTree.Forest key cap ((kl ++ kr).eraseIdx (cl.length - 1)) (cl ++ cr) lo hi := by
  rcases List.eq_nil_or_concat cl with rfl | ⟨cl', c, rfl⟩
  · obtain rfl := List.length_eq_zero_iff.mp hlen
    obtain rfl : lo = a := hl
    cases kr with
    | nil => exact absurd rfl hne
    | cons k kr =>
      cases cr with
      | nil => exact hr.elim
      | cons c cr =>
        obtain ⟨rfl, -, hf⟩ := hr
        exact hf.mono (Nat.le_of_lt hab) (Nat.le_refl _)
  · rcases List.eq_nil_or_concat kl with rfl | ⟨kl', k, rfl⟩
    · simp at hlen
    · rw [List.concat_eq_append, List.concat_eq_append] at hl hlen
      have hlen' : kl'.length = cl'.length := by simpa using hlen
      obtain ⟨rfl, m, hm, hc⟩ := leftOf_append hlen' hl
      have hidx : (cl'.concat c).length - 1 = kl'.length := by simp [hlen']
      rw [hidx, List.concat_eq_append, List.concat_eq_append, List.append_assoc, List.append_assoc,
        List.eraseIdx_append_of_length_le (Nat.le_refl _), Nat.sub_self]
      exact (forest_hole hlen').mpr ⟨m, b, hm, hc.mono (Nat.le_refl _) (Nat.le_of_lt hab), hr⟩

end

end Cassa.Lib.SearchTree

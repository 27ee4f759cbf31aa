import Mathlib.Data.List.Basic
import Mathlib.Order.Basic

/-!
# Histories of transactions that install their writes one by one

A history lists transactions in the order in which they are to be serialised. Each
carries the reads that are already known to fit that order, the writes it intends,
how many of them it has installed, and its version. A transaction may still be
dropped while it has installed nothing.

`Ok` is what an optimistic protocol maintains of such a list; the lemmas say that
each kind of protocol step keeps it, and `reads_replay` that it makes the decided
transactions of the list a serial execution.
-/

namespace Cassa.Lib.History

variable {A V : Type*}

structure Read (A V : Type*) where
  addr : A
  seen : V
  ver : Nat

structure Txn (A V : Type*) where
  reads : List (Read A V)
  writes : List (A × V)
  /-- the length of the prefix of `writes` that is in memory -/
  installed : Nat
  ver : Nat
  /-- the transaction is known to commit -/
  decided : Bool

namespace Txn

def Writes (x : Txn A V) (a : A) : Prop := ∃ b, (a, b) ∈ x.writes

/-- The transaction intends to write `a` and has not yet done so. -/
def Pending (x : Txn A V) (a : A) : Prop := ∃ j b, x.writes[j]? = some (a, b) ∧ x.installed ≤ j

variable [DecidableEq A]

/-- The value of `a` in a list of writes. -/
def lookup (ws : List (A × V)) (a : A) : Option V := (ws.find? fun p => p.1 = a).map Prod.snd

/-- What the transaction has installed at `a`. -/
def wrote (x : Txn A V) (a : A) : Option V := lookup (x.writes.take x.installed) a

theorem lookup_eq_none {ws : List (A × V)} {a : A} : lookup ws a = none ↔ ∀ b, (a, b) ∉ ws := by
  unfold lookup
  rw [Option.map_eq_none_iff, List.find?_eq_none]
  constructor
  · intro h b hb
    exact h (a, b) hb (by simp)
  · rintro h ⟨a', b⟩ hx
    simp only [decide_eq_true_eq]
    rintro rfl
    exact h b hx

theorem wrote_of_not_writes {x : Txn A V} {a : A} (h : ¬ x.Writes a) : x.wrote a = none :=
  lookup_eq_none.mpr fun b hb => h ⟨b, List.mem_of_mem_take hb⟩

theorem wrote_of_none_installed {x : Txn A V} (h : x.installed = 0) (a : A) : x.wrote a = none := by
  simp [wrote, h, lookup]

/-- Without a pending write of `a`, the installed prefix tells the whole story at `a`. -/
theorem wrote_of_not_pending {x : Txn A V} {a : A} (h : ¬ x.Pending a) :
    x.wrote a = lookup x.writes a := by
  have hdrop : lookup (x.writes.drop x.installed) a = none := by
    refine lookup_eq_none.mpr fun b hb => h ?_
    obtain ⟨j, hj⟩ := List.mem_iff_getElem?.mp hb
    rw [List.getElem?_drop] at hj
    exact ⟨x.installed + j, b, hj, Nat.le_add_right _ _⟩
  have happ : lookup x.writes a =
      (lookup (x.writes.take x.installed) a).or (lookup (x.writes.drop x.installed) a) := by
    conv_lhs => rw [← List.take_append_drop x.installed x.writes]
    simp only [lookup, List.find?_append]
    cases List.find? (fun p => decide (p.1 = a)) (x.writes.take x.installed) <;> simp
  rw [happ, hdrop, Option.or_none]
  rfl

end Txn

/-- How a position of `H₁ ++ x :: H₂` lies with respect to `x`. -/
theorem split_cases {α : Type*} {H₁ H₂ L₁ L₂ : List α} {x z : α} (h : H₁ ++ x :: H₂ = L₁ ++ z :: L₂) :
    (∃ M, H₁ = L₁ ++ z :: M ∧ L₂ = M ++ x :: H₂) ∨ (L₁ = H₁ ∧ z = x ∧ L₂ = H₂) ∨
      (∃ M, L₁ = H₁ ++ x :: M ∧ H₂ = M ++ z :: L₂) := by
  rcases List.append_eq_append_iff.mp h with ⟨M, h₁, h₂⟩ | ⟨M, h₁, h₂⟩
  · cases M with
    | nil =>
      simp only [List.append_nil, List.nil_append, List.cons.injEq] at h₁ h₂
      exact Or.inr (Or.inl ⟨h₁, h₂.1.symm, h₂.2.symm⟩)
    | cons m M =>
      simp only [List.cons_append, List.cons.injEq] at h₂
      obtain ⟨rfl, rfl⟩ := h₂
      exact Or.inr (Or.inr ⟨M, h₁, rfl⟩)
  · cases M with
    | nil =>
      simp only [List.append_nil, List.nil_append, List.cons.injEq] at h₁ h₂
      exact Or.inr (Or.inl ⟨h₁.symm, h₂.1, h₂.2⟩)
    | cons m M =>
      simp only [List.cons_append, List.cons.injEq] at h₂
      obtain ⟨rfl, rfl⟩ := h₂
      exact Or.inl ⟨M, h₁, rfl⟩

variable [DecidableEq A]

open Txn

/-- The value at an address after the installed writes of a history. -/
def val (init : A → V) (H : List (Txn A V)) (a : A) : V :=
  H.foldl (fun b x => (x.wrote a).getD b) (init a)

/-- The value at an address after the complete transactions of a list, in order. -/
def replay (init : A → V) (H : List (Txn A V)) (a : A) : V :=
  H.foldl (fun b x => (lookup x.writes a).getD b) (init a)

section val
variable {init : A → V} {H H₁ H₂ : List (Txn A V)} {a : A}

theorem val_append (H₁ H₂ : List (Txn A V)) (a : A) :
    val init (H₁ ++ H₂) a = H₂.foldl (fun b x => (x.wrote a).getD b) (val init H₁ a) := by
  simp [val, List.foldl_append]

theorem foldl_wrote_none {b : V} (h : ∀ y ∈ H, y.wrote a = none) :
    H.foldl (fun b x => (x.wrote a).getD b) b = b := by
  induction H generalizing b with
  | nil => rfl
  | cons y H ih =>
    rw [List.foldl_cons, h y List.mem_cons_self, Option.getD_none]
    exact ih fun z hz => h z (List.mem_cons_of_mem _ hz)

/-- Later transactions that have not touched `a` do not matter there. -/
theorem val_append_none (h : ∀ y ∈ H₂, y.wrote a = none) :
    val init (H₁ ++ H₂) a = val init H₁ a := by
  rw [val_append, foldl_wrote_none h]

theorem val_middle (x : Txn A V) (h : ∀ y ∈ H₂, y.wrote a = none) :
    val init (H₁ ++ x :: H₂) a = (x.wrote a).getD (val init H₁ a) := by
  rw [val_append, List.foldl_cons, foldl_wrote_none h]

theorem val_middle_congr {x x' : Txn A V} (h : x'.wrote a = x.wrote a) :
    val init (H₁ ++ x' :: H₂) a = val init (H₁ ++ x :: H₂) a := by
  rw [val_append, val_append, List.foldl_cons, List.foldl_cons, h]

theorem val_drop {x : Txn A V} (h : x.wrote a = none) :
    val init (H₁ ++ x :: H₂) a = val init (H₁ ++ H₂) a := by
  rw [val_append, val_append, List.foldl_cons, h, Option.getD_none]

end val

/-- A read that fits its place behind the transactions `H`: nobody there has yet to
write the address, the value is the one they leave, and no version they installed
is newer than the one read. -/
structure ReadOk (init : A → V) (H : List (Txn A V)) (r : Read A V) : Prop where
  value : r.seen = val init H r.addr
  settled : ∀ y ∈ H, ¬ y.Pending r.addr
  version : ∀ y ∈ H, (y.wrote r.addr).isSome → y.ver ≤ r.ver

structure Ok (init : A → V) (H : List (Txn A V)) : Prop where
  reads : ∀ H₁ x H₂, H = H₁ ++ x :: H₂ → ∀ r ∈ x.reads, ReadOk init H₁ r
  /-- while a write is pending, nobody behind it writes the same address -/
  order : ∀ H₁ x H₂, H = H₁ ++ x :: H₂ → ∀ a, x.Pending a → ∀ y ∈ H₂, ¬ y.Writes a
  undecided : ∀ x ∈ H, x.decided = false → x.installed = 0

theorem ok_nil (init : A → V) : Ok init ([] : List (Txn A V)) where
  reads H₁ x H₂ h := by simp at h
  order H₁ x H₂ h := by simp at h
  undecided x hx := by cases hx

section steps
variable {init : A → V} {H H₁ H₂ : List (Txn A V)} {x x' : Txn A V}

/-- A prefix of a read may be replaced by one that agrees on the address. -/
theorem ReadOk.congr_middle {r : Read A V} (h : ReadOk init (H₁ ++ x :: H₂) r)
    (hp : x'.Pending r.addr → x.Pending r.addr) (hw : x'.wrote r.addr = x.wrote r.addr)
    (hv : (x'.wrote r.addr).isSome → x'.ver = x.ver) : ReadOk init (H₁ ++ x' :: H₂) r where
  value := by rw [h.value, val_middle_congr hw]
  settled := by
    intro y hy hpend
    rcases List.mem_append.mp hy with hy | hy
    · exact h.settled y (List.mem_append_left _ hy) hpend
    · rcases List.mem_cons.mp hy with rfl | hy
      · exact h.settled x (List.mem_append_right _ List.mem_cons_self) (hp hpend)
      · exact h.settled y (List.mem_append_right _ (List.mem_cons_of_mem _ hy)) hpend
  version := by
    intro y hy hsome
    rcases List.mem_append.mp hy with hy | hy
    · exact h.version y (List.mem_append_left _ hy) hsome
    · rcases List.mem_cons.mp hy with rfl | hy
      · rw [hv hsome]
        exact h.version x (List.mem_append_right _ List.mem_cons_self) (hw ▸ hsome)
      · exact h.version y (List.mem_append_right _ (List.mem_cons_of_mem _ hy)) hsome

/-- A transaction at the end that has read and installed nothing. -/
theorem Ok.push (h : Ok init H) (hreads : x.reads = []) (hinst : x.installed = 0)
    (hfree : ∀ y ∈ H, ∀ a, y.Pending a → ¬ x.Writes a) : Ok init (H ++ [x]) where
  reads := by
    intro L₁ z L₂ heq r hr
    rcases split_cases heq with ⟨M, h₁, -⟩ | ⟨-, rfl, -⟩ | ⟨M, -, h₂⟩
    · exact h.reads L₁ z M h₁ r hr
    · rw [hreads] at hr; cases hr
    · simp at h₂
  order := by
    intro L₁ z L₂ heq a hp y hy
    rcases split_cases heq with ⟨M, h₁, rfl⟩ | ⟨-, -, rfl⟩ | ⟨M, -, h₂⟩
    · rcases List.mem_append.mp hy with hy | hy
      · exact h.order L₁ z M h₁ a hp y hy
      · rw [List.mem_singleton.mp hy]
        exact hfree z (h₁ ▸ List.mem_append_right _ List.mem_cons_self) a hp
    · cases hy
    · simp at h₂
  undecided := by
    intro y hy hd
    rcases List.mem_append.mp hy with hy | hy
    · exact h.undecided y hy hd
    · rw [List.mem_singleton.mp hy]; exact hinst

/-- One transaction is replaced by a later stage of itself: it may gain reads that
fit, and may install a write as long as nothing behind it minds. -/
theorem Ok.update (h : Ok init (H₁ ++ x :: H₂)) (hreads : ∀ r ∈ x'.reads, r ∈ x.reads ∨ ReadOk init H₁ r)
    (hpend : ∀ a, x'.Pending a → x.Pending a) (hwrites : ∀ a, x'.Writes a → x.Writes a)
    (hwrote : ∀ a, ¬ x.Pending a → x'.wrote a = x.wrote a)
    (hver : ∀ a, ¬ x.Pending a → (x'.wrote a).isSome → x'.ver = x.ver)
    (hdec : x'.decided = false → x'.installed = 0) : Ok init (H₁ ++ x' :: H₂) where
  reads := by
    intro L₁ z L₂ heq r hr
    rcases split_cases heq with ⟨M, rfl, -⟩ | ⟨rfl, rfl, -⟩ | ⟨M, rfl, rfl⟩
    · exact h.reads L₁ z (M ++ x :: H₂) (by simp) r hr
    · rcases hreads r hr with hr | hr
      · exact h.reads L₁ x H₂ rfl r hr
      · exact hr
    · have hold := h.reads (H₁ ++ x :: M) z L₂ (by simp) r hr
      have hset := hold.settled x (List.mem_append_right _ List.mem_cons_self)
      exact hold.congr_middle (hpend _) (hwrote _ hset) (hver _ hset)
  order := by
    intro L₁ z L₂ heq a hp y hy
    rcases split_cases heq with ⟨M, rfl, rfl⟩ | ⟨rfl, rfl, rfl⟩ | ⟨M, rfl, rfl⟩
    · rcases List.mem_append.mp hy with hy | hy
      · exact h.order L₁ z (M ++ x :: H₂) (by simp) a hp y (List.mem_append_left _ hy)
      · rcases List.mem_cons.mp hy with rfl | hy
        · intro hw
          exact h.order L₁ z (M ++ x :: H₂) (by simp) a hp x
            (List.mem_append_right _ List.mem_cons_self) (hwrites a hw)
        · exact h.order L₁ z (M ++ x :: H₂) (by simp) a hp y
            (List.mem_append_right _ (List.mem_cons_of_mem _ hy))
    · exact h.order L₁ x L₂ rfl a (hpend a hp) y hy
    · exact h.order (H₁ ++ x :: M) z L₂ (by simp) a hp y hy
  undecided := by
    intro y hy hd
    rcases List.mem_append.mp hy with hy | hy
    · exact h.undecided y (List.mem_append_left _ hy) hd
    · rcases List.mem_cons.mp hy with rfl | hy
      · exact hdec hd
      · exact h.undecided y (List.mem_append_right _ (List.mem_cons_of_mem _ hy)) hd

/-- A transaction that has installed nothing disappears. -/
theorem Ok.drop (h : Ok init (H₁ ++ x :: H₂)) (hinst : x.installed = 0) : Ok init (H₁ ++ H₂) where
  reads := by
    intro L₁ z L₂ heq r hr
    have hnone := wrote_of_none_installed hinst
    rcases List.append_eq_append_iff.mp heq with ⟨M, rfl, h₂⟩ | ⟨M, rfl, h₂⟩
    · have hold := h.reads (H₁ ++ x :: M) z L₂ (by simp [h₂]) r hr
      refine ⟨by rw [hold.value, val_drop (hnone _)], ?_, ?_⟩
      · intro y hy
        refine hold.settled y ?_
        rcases List.mem_append.mp hy with hy | hy
        · exact List.mem_append_left _ hy
        · exact List.mem_append_right _ (List.mem_cons_of_mem _ hy)
      · intro y hy
        refine hold.version y ?_
        rcases List.mem_append.mp hy with hy | hy
        · exact List.mem_append_left _ hy
        · exact List.mem_append_right _ (List.mem_cons_of_mem _ hy)
    · cases M with
      | nil =>
        simp only [List.nil_append] at h₂
        have hold := h.reads (L₁ ++ [x]) z L₂ (by simp [← h₂]) r hr
        refine ⟨?_, fun y hy => hold.settled y (List.mem_append_left _ hy),
          fun y hy => hold.version y (List.mem_append_left _ hy)⟩
        rw [hold.value, val_append_none]
        intro y hy
        rw [List.mem_singleton.mp hy]
        exact hnone _
      | cons m M =>
        simp only [List.cons_append, List.cons.injEq] at h₂
        obtain ⟨rfl, rfl⟩ := h₂
        exact h.reads L₁ z (M ++ x :: H₂) (by simp) r hr
  order := by
    intro L₁ z L₂ heq a hp y hy
    rcases List.append_eq_append_iff.mp heq with ⟨M, rfl, h₂⟩ | ⟨M, rfl, h₂⟩
    · exact h.order (H₁ ++ x :: M) z L₂ (by simp [h₂]) a hp y hy
    · cases M with
      | nil =>
        simp only [List.nil_append] at h₂
        exact h.order (L₁ ++ [x]) z L₂ (by simp [← h₂]) a hp y hy
      | cons m M =>
        simp only [List.cons_append, List.cons.injEq] at h₂
        obtain ⟨rfl, rfl⟩ := h₂
        refine h.order L₁ z (M ++ x :: H₂) (by simp) a hp y ?_
        rcases List.mem_append.mp hy with hy | hy
        · exact List.mem_append_left _ hy
        · exact List.mem_append_right _ (List.mem_cons_of_mem _ hy)
  undecided := by
    intro y hy hd
    rcases List.mem_append.mp hy with hy | hy
    · exact h.undecided y (List.mem_append_left _ hy) hd
    · exact h.undecided y (List.mem_append_right _ (List.mem_cons_of_mem _ hy)) hd

end steps

section results
variable {init : A → V} {H : List (Txn A V)}

/-- Where nothing is pending, the installed writes are those of the decided
transactions. -/
theorem val_eq_replay {a : A} (hund : ∀ x ∈ H, x.decided = false → x.installed = 0)
    (hp : ∀ y ∈ H, ¬ y.Pending a) : val init H a = replay init (H.filter (·.decided)) a := by
  unfold val replay
  generalize init a = b
  induction H generalizing b with
  | nil => rfl
  | cons y H ih =>
    have ih := ih (fun x hx => hund x (List.mem_cons_of_mem _ hx))
      (fun x hx => hp x (List.mem_cons_of_mem _ hx))
    have hy := wrote_of_not_pending (hp y List.mem_cons_self)
    cases hd : y.decided with
    | true => rw [List.filter_cons_of_pos hd, List.foldl_cons, List.foldl_cons, ih, hy]
    | false =>
      have hnone := wrote_of_none_installed (hund y List.mem_cons_self hd) a
      rw [List.filter_cons_of_neg (by simp [hd]), List.foldl_cons, ih, hnone, Option.getD_none]

/-- Every read returned what the decided transactions before it leave. -/
theorem Ok.reads_replay (h : Ok init H) {H₁ H₂ : List (Txn A V)} {x : Txn A V}
    (hH : H = H₁ ++ x :: H₂) {r : Read A V} (hr : r ∈ x.reads) :
    r.seen = replay init (H₁.filter (·.decided)) r.addr := by
  have hok := h.reads H₁ x H₂ hH r hr
  rw [hok.value]
  refine val_eq_replay (fun y hy => h.undecided y ?_) hok.settled
  rw [hH]
  exact List.mem_append_left _ hy

/-- A later reader of an address has read a version at least as new as any write of it
by an earlier transaction. -/
theorem Ok.version_le (h : Ok init H) {H₁ H₂ : List (Txn A V)} {x : Txn A V}
    (hH : H = H₁ ++ x :: H₂) {r : Read A V} (hr : r ∈ x.reads) {y : Txn A V} (hy : y ∈ H₁)
    (hw : y.Writes r.addr) : y.ver ≤ r.ver := by
  have hok := h.reads H₁ x H₂ hH r hr
  refine hok.version y hy ?_
  rw [wrote_of_not_pending (hok.settled y hy), Option.isSome_iff_ne_none]
  intro hnone
  obtain ⟨b, hb⟩ := hw
  exact lookup_eq_none.mp hnone b hb

end results

end Cassa.Lib.History
